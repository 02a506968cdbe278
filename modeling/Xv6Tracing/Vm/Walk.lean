import Xv6Tracing.Vm.Tables

/-!
# What walking and mapping do

Pre- and postconditions of `kalloc`, `kfree`, `walkpgdir` and `mappages`, in terms
of the trees of pages and of the words of user pages.
-/

set_option autoImplicit false

namespace Xv6Tracing.Vm

open Lib

variable {s t u : Memory} {roots free free' free'' : List AddrT} {r table p q : AddrT}
  {path : List (BitVec 9)} {i : BitVec 9}

/-! ## The allocator -/

variable {exc : Halt → Prop}

theorem wp_kalloc (sound : Sound s roots free) {post : AddrT → Memory → Prop}
    (empty : free = [] → exc .outOfMemory)
    (taken : ∀ q rest, free = q :: rest → post q { s with freelist := s.page q 0 }) :
    wp kalloc s post exc := by
  have linked := sound.linked
  simp only [kalloc, wp_bind, wp_get]
  cases free with
  | nil =>
    have none : s.freelist = 0 := linked
    simpa [none] using empty rfl
  | cons q rest => grind [linked.1, linked.2.1, wp_bind, wp_set, wp_pure]

def freed (s : Memory) (v : AddrT) : Memory :=
  { s.setPage v (junk s.freelist) with freelist := v }

theorem freed_page (p : AddrT) :
    (freed s q).page p = if p = q then junk s.freelist else s.page p :=
  Memory.setPage_page _ _ _ _

theorem wp_kfree {v : AddrT} {post : Unit → Memory → Prop}
    (refused : ¬ Usable s.kend v → exc .kfree)
    (accept : Usable s.kend v → post () (freed s v)) : wp (kfree v) s post exc := by
  have accepted : ¬ (v % PGSIZE ≠ 0 ∨ v < s.kend ∨ PHYSTOP ≤ V2P v) ↔ Usable s.kend v := by
    simp only [Usable, not_or, not_not, BitVec.not_lt, BitVec.not_le]
  simp only [kfree, wp_bind, wp_get]
  split_ifs with bad
  · exact refused fun usable => accepted.mpr usable bad
  · exact accept (accepted.mp bad)

/-! ## What an operation leaves alone -/

/-- An operation that takes pages from the free list or gives pages to it, and puts
the pages `extra` to use. -/
structure Effect (s t : Memory) (roots free free' extra : List AddrT) : Prop where
  sound : Sound t roots free'
  balance : ∀ p, Owned t roots p ∨ p ∈ free' ↔ (Owned s roots p ∨ p ∈ free) ∨ p ∈ extra
  tables : ∀ p, Table s roots p → Table t roots p
  fresh : ∀ p, Table t roots p → Table s roots p ∨ p ∈ free ∨ p ∈ extra
  rows : ∀ p, ¬ Table s roots p → p ∉ free → p ∉ free' → t.page p = s.page p
  kernel : ∀ r ∈ roots, ∀ i : BitVec 9, 256 ≤ i.toNat → t.page r i = s.page r i
  consts : t.kend = s.kend ∧ t.kpml4 = s.kpml4 ∧ t.kpdpt = s.kpdpt

def SameWords (s t : Memory) (roots : List AddrT) : Prop :=
  ∀ r ∈ roots, ∀ va, User va → pteWord t r va = pteWord s r va

theorem Effect.refl (sound : Sound s roots free) : Effect s s roots free free [] where
  sound := sound
  balance := by simp
  tables _ table := table
  fresh _ table := Or.inl table
  rows _ _ _ _ := rfl
  kernel _ _ _ _ := rfl
  consts := ⟨rfl, rfl, rfl⟩

theorem Effect.trans {extra : List AddrT} (first : Effect s t roots free free' [])
    (second : Effect t u roots free' free'' extra)
    (between : ∀ p ∈ free', p ∈ free ∨ p ∈ free'') : Effect s u roots free free'' extra where
  sound := second.sound
  balance p := by
    rw [second.balance p, first.balance p]
    simp
  tables p table := second.tables p (first.tables p table)
  fresh p table := by grind [second.sound.apart, table.owned, Effect]
  rows p notTable before after := by grind [Effect]
  kernel r root i upper := (second.kernel r root i upper).trans (first.kernel r root i upper)
  consts := ⟨second.consts.1.trans first.consts.1, second.consts.2.1.trans first.consts.2.1,
    second.consts.2.2.trans first.consts.2.2⟩

theorem SameWords.trans (first : SameWords s t roots) (second : SameWords t u roots) :
    SameWords s u roots := fun r root va user =>
  (second r root va user).trans (first r root va user)

/-! ## A page in hand -/

def takenPage (s : Memory) (q : AddrT) (row : BitVec 9 → AddrT) : Memory :=
  ({ s with freelist := s.page q 0 }).setPage q row

theorem takenPage_page (p : AddrT) {row : BitVec 9 → AddrT} :
    (takenPage s q row).page p = if p = q then row else s.page p := Memory.setPage_page _ _ _ _

section Taken

variable {row : BitVec 9 → AddrT} (sound : Sound s roots (q :: free))

include sound

theorem takenPage_same (member : Table s roots p ∨ p ∈ free) :
    (takenPage s q row).page p = s.page p := by
  rw [takenPage_page, if_neg]
  rintro rfl
  rcases member with table | listed
  · exact sound.apart p table.owned List.mem_cons_self
  · exact (List.nodup_cons.mp sound.nodup).1 listed

theorem takenPage_paths : SamePaths s (takenPage s q row) roots :=
  samePaths_of_tables fun _ table => takenPage_same sound (Or.inl table)

theorem takenPage_sound : Sound (takenPage s q row) roots free :=
  sound.take.keep (fun _ member => takenPage_same sound member) rfl rfl

theorem takenPage_words : SameWords s (takenPage s q row) roots := fun _ root _ user =>
  pteWord_of_tables (fun _ table => takenPage_same sound (Or.inl table)) root user

theorem takenPage_nobody : ¬ Owned (takenPage s q row) roots q := fun owned =>
  sound.apart q ((takenPage_paths sound).owned_iff.mp owned) List.mem_cons_self

/-- What an operation on the memory without the page does to the memory with it,
when it puts the page to use. -/
theorem Effect.after_take (effect : Effect (takenPage s q row) t roots free free' [q]) :
    Effect s t roots (q :: free) free' [] where
  sound := effect.sound
  balance p := by
    rw [effect.balance p, (takenPage_paths sound).owned_iff]
    simp only [List.mem_cons, List.not_mem_nil, or_false]
    tauto
  tables p table := effect.tables p ((takenPage_paths sound).table_iff.mpr table)
  fresh p table := by
    rcases effect.fresh p table with old | member | taken
    · exact Or.inl ((takenPage_paths sound).table_iff.mp old)
    · exact Or.inr (Or.inl (List.mem_cons_of_mem q member))
    · exact Or.inr (Or.inl (List.mem_singleton.mp taken ▸ List.mem_cons_self))
  rows p notTable notFree notAfter := by
    have other : p ≠ q := fun same => notFree (same ▸ List.mem_cons_self)
    rw [effect.rows p (fun table => notTable ((takenPage_paths sound).table_iff.mp table))
      (fun member => notFree (List.mem_cons_of_mem q member)) notAfter, takenPage_page,
      if_neg other]
  kernel r root i upper := by
    rw [effect.kernel r root i upper,
      takenPage_same sound (Or.inl ⟨r, root, [], userPath_nil, by simp, rfl⟩)]
  consts := effect.consts

end Taken

/-! ## Walking -/

theorem walkLevel_false (table : AddrT) (i : BitVec 9) :
    walkLevel table i false s = .ok (child s table i, s) := by
  simp only [walkLevel, child, bind, StateT.bind, get, getThe, MonadStateOf.get, StateT.get,
    Except.bind, pure, Except.pure]
  split_ifs <;> rfl

theorem wp_walkpgdir_false {va : AddrT} {post : Option (AddrT × BitVec 9) → Memory → Prop} :
    wp (walkpgdir r va false) s post exc ↔
      post ((follow (child s) r (tablePath va)).map fun pgtab => (pgtab, PTX va)) s := by
  have level : ∀ (table : AddrT) (i : BitVec 9) (after : Option AddrT → Memory → Prop),
      wp (walkLevel table i false) s after exc ↔ after (child s table i) s := by
    intro table i after
    simp only [wp, walkLevel_false]
  simp only [walkpgdir, wp_bind, level, tablePath, follow]
  cases child s r (PMX va) with
  | none => rfl
  | some pdp =>
    simp only [wp_bind, level, Option.bind_some]
    cases child s pdp (PDPX va) with
    | none => rfl
    | some pd =>
      simp only [wp_bind, level, Option.bind_some]
      cases child s pd (PDX va) with
      | none => rfl
      | some pgtab => rfl

theorem attach_table (sound : Sound s roots (q :: free)) (root : r ∈ roots)
    (valid : UserPath (path ++ [i])) (upper : path.length ≤ 2)
    (here : follow (child s) r path = some table) (empty : child s table i = none)
    (result : t = (takenPage s q fun _ => 0).setWord table i (V2P q ||| PTE_P ||| PTE_W ||| PTE_U)) :
    Effect s t roots (q :: free) free [] ∧ SameWords s t roots ∧
      follow (child t) r (path ++ [i]) = some q := by
  have usable : Usable s.kend q := sound.usable q List.mem_cons_self
  have between : Sound (takenPage s q fun _ => 0) roots free := takenPage_sound sound
  have same : SamePaths s (takenPage s q fun _ => 0) roots := takenPage_paths sound
  have isTable : Table s roots table := ⟨r, root, path, valid.left, by omega, here⟩
  have other : q ≠ table := by
    rintro rfl
    exact sound.apart q isTable.owned List.mem_cons_self
  have here' : follow (child (takenPage s q fun _ => 0)) r path = some table :=
    (same r root path valid.left).trans here
  have empty' : child (takenPage s q fun _ => 0) table i = none := by
    rw [child_congr (congrFun (takenPage_same sound (Or.inl isTable)) i), empty]
  have rows : ∀ p j, ¬ (p = table ∧ j = i) → t.page p j = (takenPage s q fun _ => 0).page p j := by
    intro p j changed
    rw [result, Memory.setWord_page, if_neg changed]
  have entry : child t table i = some q := by
    have written : t.page table i = V2P q ||| (PTE_P ||| PTE_W ||| PTE_U) := by
      grind [Memory.setWord_page]
    exact child_pointer written usable.aligned (by decide) (by decide)
  have zero : ∀ j, t.page q j = 0 := by
    intro j
    rw [rows q j fun changed => other changed.1, takenPage_page, if_pos rfl]
  have tip : ∀ j, UserPath (path ++ [i] ++ [j]) → child t q j = none := fun j _ =>
    child_eq_none (by rw [zero j]; exact BitVec.zero_and)
  have after : Sound t roots free :=
    between.attach root valid here' rows empty' entry tip (takenPage_nobody sound)
      (List.nodup_cons.mp sound.nodup).1 (fun _ => usable) (by rw [result]; rfl)
      (by rw [result]; rfl)
  have effect : Effect (takenPage s q fun _ => 0) t roots free free [q] := {
    sound := after
    balance := by
      intro p
      rw [owned_attach between root valid here' rows empty' entry tip, List.mem_singleton]
      tauto
    tables := by
      rintro p ⟨r', root', path', valid', short, found⟩
      refine ⟨r', root', path', valid', short, ?_⟩
      rw [follow_attach between root valid here' rows empty' entry tip root' valid']
      exact Or.inl found
    fresh := by
      intro p member
      rcases table_attach between root valid here' rows empty' entry tip member with
        old | ⟨rfl, -⟩
      · exact Or.inl old
      · exact Or.inr (Or.inr List.mem_cons_self)
    rows := by grind [same.table_iff.mpr]
    kernel := by
      intro r' root' j upper'
      apply rows
      rintro ⟨rfl, rfl⟩
      -- Only the user's half of a root is ever entered.
      obtain ⟨-, rfl⟩ :=
        sound.unaliased r root r' root' path [] r' valid.left userPath_nil here rfl
      have lower := valid.2 j (by simp)
      omega
    consts := by
      rw [result]
      exact ⟨rfl, rfl, rfl⟩ }
  refine ⟨effect.after_take sound, ?_, ?_⟩
  · intro r' root' va user
    rw [pteWord_attach between root valid here' rows upper empty' entry zero root' user]
    exact takenPage_words sound r' root' va user
  · rw [follow_attach between root valid here' rows empty' entry tip root valid]
    exact Or.inr ⟨rfl, rfl, rfl⟩

/-- What a walk may do: add at most `n` empty tables, made of free pages. -/
structure Walked (s t : Memory) (roots free free' : List AddrT) (n : Nat) : Prop where
  effect : Effect s t roots free free' []
  words : SameWords s t roots
  suffix : free' <:+ free
  used : free.length ≤ free'.length + n

theorem Walked.trans {n n' : Nat} (first : Walked s t roots free free' n)
    (second : Walked t u roots free' free'' n') : Walked s u roots free free'' (n + n') where
  effect := first.effect.trans second.effect fun _ member => Or.inl (first.suffix.subset member)
  words := first.words.trans second.words
  suffix := second.suffix.trans first.suffix
  used := by
    have := first.used
    have := second.used
    omega

theorem walkLevel_spec (sound : Sound s roots free) (root : r ∈ roots)
    (valid : UserPath (path ++ [i])) (upper : path.length ≤ 2)
    (here : follow (child s) r path = some table) (oom : free = [] → exc .outOfMemory) :
    wp (walkLevel table i true) s (fun res t => ∃ next free', res = some next ∧
      Walked s t roots free free' 1 ∧ follow (child t) r (path ++ [i]) = some next) exc := by
  simp only [walkLevel, wp_bind, wp_get, Bool.true_eq_false, if_false]
  split_ifs with present
  · refine ⟨_, free, rfl, ⟨Effect.refl sound, fun _ _ _ _ => rfl, List.suffix_refl _, by omega⟩, ?_⟩
    rw [follow_snoc, here]
    exact child_eq_some present
  · have empty : child s table i = none := child_eq_none (not_not.mp present)
    rw [wp_bind]
    refine wp_kalloc sound oom ?_
    rintro q rest rfl
    have nonzero : q ≠ 0 := (sound.usable q List.mem_cons_self).ne_zero
    simp only [if_neg nonzero, wp_bind, zeroPage, setWord, wp_modify, wp_pure]
    obtain ⟨effect, words, found⟩ := attach_table sound root valid upper here empty rfl
    exact ⟨q, rest, rfl, ⟨effect, words, List.suffix_cons q rest, by simp⟩, found⟩

theorem walkpgdir_spec (sound : Sound s roots free) (root : r ∈ roots)
    {va : AddrT} (user : User va) (oom : free.length < 3 → exc .outOfMemory) :
    wp (walkpgdir r va true) s (fun res t => ∃ pgtab free', res = some (pgtab, PTX va) ∧
      Walked s t roots free free' 3 ∧ follow (child t) r (tablePath va) = some pgtab) exc := by
  have valid : UserPath (([PMX va] ++ [PDPX va]) ++ [PDX va]) := userPath_tablePath user
  have first : UserPath ([] ++ [PMX va]) := valid.left.left
  have short : ∀ {rest : List AddrT}, free.length ≤ rest.length + 2 → rest = [] →
      exc .outOfMemory := by
    rintro _ used rfl
    exact oom (by simp at used; omega)
  refine wp_call (walkLevel_spec sound root first (by simp) (follow_nil r) (short (by omega))) ?_
  rintro _ t₁ ⟨pdp, free₁, rfl, walked₁, found₁⟩
  have used₁ := walked₁.used
  refine wp_call (walkLevel_spec walked₁.effect.sound root valid.left (by simp) found₁
    (short (by omega))) ?_
  rintro _ t₂ ⟨pd, free₂, rfl, walked₂, found₂⟩
  have used₂ := (walked₁.trans walked₂).used
  refine wp_call (walkLevel_spec walked₂.effect.sound root valid (by simp) found₂
    (short used₂)) ?_
  rintro _ t₃ ⟨pgtab, free₃, rfl, walked₃, found₃⟩
  exact ⟨pgtab, free₃, rfl, (walked₁.trans walked₂).trans walked₃, found₃⟩

end Xv6Tracing.Vm
