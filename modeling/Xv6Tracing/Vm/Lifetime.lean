import Xv6Tracing.Vm.Allocation

/-!
# The life of a page table

Pre- and postconditions of `setupkvm`, `freevm` and `copyuvm`: a new root owns
nothing but itself, and `freevm` frees what a root owns.
-/

set_option autoImplicit false

namespace Xv6Tracing.Vm

open Lib

variable {s t u : Memory} {roots free free' free'' : List AddrT} {r p q f va w : AddrT}

/-! ## A new root -/

def rootRow (kpdpt : AddrT) : BitVec 9 → AddrT :=
  Function.update (fun _ => 0) 256 (V2P kpdpt ||| PTE_P ||| PTE_W)

variable {i : BitVec 9} {l : List AddrT} {n : Nat}

theorem rootRow_lower {kpdpt : AddrT} (lower : i.toNat < 256) :
    rootRow kpdpt i = 0 := by
  rw [rootRow, Function.update_of_ne]
  rintro rfl
  exact absurd lower (by decide)

section NewRoot

variable {kpdpt : AddrT} (sound : Sound s roots (q :: free))

theorem follow_newRoot {path : List (BitVec 9)} (valid : UserPath path) :
    follow (child (takenPage s q (rootRow kpdpt))) q path = some p ↔ path = [] ∧ p = q := by
  cases path with
  | nil => simp [eq_comm]
  | cons i rest =>
    have lower : i.toNat < 256 := valid.2 i (by simp)
    have empty : child (takenPage s q (rootRow kpdpt)) q i = none := by
      apply child_eq_none
      rw [takenPage_page, if_pos rfl, rootRow_lower lower]
      exact BitVec.zero_and
    simp [follow, empty]

include sound

theorem owned_newRoot : Owned (takenPage s q (rootRow kpdpt)) (q :: roots) p ↔
    p = q ∨ Owned s roots p := by
  have paths : SamePaths s (takenPage s q (rootRow kpdpt)) roots := takenPage_paths sound
  constructor
  · rintro ⟨r, root, path, valid, found⟩
    rcases List.mem_cons.mp root with rfl | old
    · exact Or.inl ((follow_newRoot valid).mp found).2
    · exact Or.inr (paths.owned_iff.mp ⟨r, old, path, valid, found⟩)
  · rintro (rfl | owned)
    · exact ⟨p, List.mem_cons_self, [], userPath_nil, rfl⟩
    · obtain ⟨r, root, path, valid, found⟩ := paths.owned_iff.mpr owned
      exact ⟨r, List.mem_cons_of_mem q root, path, valid, found⟩

theorem table_newRoot : Table (takenPage s q (rootRow kpdpt)) (q :: roots) p ↔
    p = q ∨ Table s roots p := by
  have paths : SamePaths s (takenPage s q (rootRow kpdpt)) roots := takenPage_paths sound
  constructor
  · rintro ⟨r, root, path, valid, short, found⟩
    rcases List.mem_cons.mp root with rfl | old
    · exact Or.inl ((follow_newRoot valid).mp found).2
    · exact Or.inr (paths.table_iff.mp ⟨r, old, path, valid, short, found⟩)
  · rintro (rfl | table)
    · exact ⟨p, List.mem_cons_self, [], userPath_nil, by simp, rfl⟩
    · obtain ⟨r, root, path, valid, short, found⟩ := paths.table_iff.mpr table
      exact ⟨r, List.mem_cons_of_mem q root, path, valid, short, found⟩

theorem sound_newRoot : Sound (takenPage s q (rootRow kpdpt)) (q :: roots) free := by
  have before : Sound (takenPage s q (rootRow kpdpt)) roots free := takenPage_sound sound
  have nobody : ¬ Owned (takenPage s q (rootRow kpdpt)) roots q := takenPage_nobody sound
  have paths : SamePaths s (takenPage s q (rootRow kpdpt)) roots := takenPage_paths sound
  exact {
    linked := before.linked
    nodup := before.nodup
    usable := before.usable
    tables := by
      intro p table
      rcases (table_newRoot sound).mp table with rfl | old
      · exact sound.usable p List.mem_cons_self
      · exact sound.tables p old
    unaliased := by
      intro r₁ root₁ r₂ root₂ path₁ path₂ p valid₁ valid₂ found₁ found₂
      rcases List.mem_cons.mp root₁ with rfl | old₁
      · obtain ⟨rfl, rfl⟩ := (follow_newRoot valid₁).mp found₁
        rcases List.mem_cons.mp root₂ with rfl | old₂
        · exact ⟨rfl, ((follow_newRoot valid₂).mp found₂).1.symm⟩
        · exact absurd ⟨r₂, old₂, path₂, valid₂, found₂⟩ nobody
      · rcases List.mem_cons.mp root₂ with rfl | old₂
        · obtain ⟨rfl, rfl⟩ := (follow_newRoot valid₂).mp found₂
          exact absurd ⟨r₁, old₁, path₁, valid₁, found₁⟩ nobody
        · exact before.unaliased r₁ old₁ r₂ old₂ path₁ path₂ p valid₁ valid₂ found₁ found₂
    apart := by
      intro p owned
      rcases (owned_newRoot sound).mp owned with rfl | old
      · exact (List.nodup_cons.mp sound.nodup).1
      · exact before.apart p (paths.owned_iff.mpr old) }

end NewRoot

variable {exc : Halt → Prop}

theorem setupkvm_spec {post : AddrT → Memory → Prop}
    (sound : Sound s roots free) (oom : free = [] → exc .outOfMemory)
    (done : ∀ q rest, free = q :: rest → post q (takenPage s q (rootRow s.kpdpt))) :
    wp setupkvm s post exc := by
  rw [setupkvm, wp_bind]
  refine wp_kalloc sound oom ?_
  intro q rest split
  have result : ((takenPage s q fun _ => 0).setWord q 256 (V2P s.kpdpt ||| PTE_P ||| PTE_W)) =
      takenPage s q (rootRow s.kpdpt) := by
    refine Memory.ext ?_ rfl rfl rfl rfl
    funext p j
    rw [Memory.setWord_page, takenPage_page, takenPage_page]
    by_cases page : p = q
    · simp only [page, true_and, if_true, rootRow, Function.update_apply]
    · simp only [page, false_and, if_false]
  simp only [wp_bind, zeroPage, setWord, wp_modify, wp_get, wp_pure]
  have := done q rest split
  rw [← result] at this
  exact this

theorem setupkvm_result (sound : Sound s roots free) (done : setupkvm s = .ok (r, t)) :
    ∃ rest, free = r :: rest ∧ t = takenPage s r (rootRow s.kpdpt) := by
  have call : wp setupkvm s (fun q t => ∃ rest, free = q :: rest ∧
      t = takenPage s q (rootRow s.kpdpt)) (fun _ => True) :=
    setupkvm_spec sound (fun _ => trivial) fun q rest split => ⟨rest, split, rfl⟩
  exact wp_ok call done

/-! ## Freeing a table -/

/-- Memory after `kfree` of the pages, in this order. -/
def freedAll (s : Memory) (l : List AddrT) : Memory := l.foldl freed s

theorem freedAll_page (other : p ∉ l) : (freedAll s l).page p = s.page p := by
  induction l generalizing s with
  | nil => rfl
  | cons q l ih =>
    rw [List.mem_cons, not_or] at other
    rw [freedAll, List.foldl_cons]
    exact (ih other.2).trans (by rw [freed_page, if_neg other.1])

theorem freedAll_append (l l' : List AddrT) :
    freedAll s (l ++ l') = freedAll (freedAll s l) l' := List.foldl_append ..

theorem freedAll_consts (l : List AddrT) : (freedAll s l).kend = s.kend ∧
    (freedAll s l).kpml4 = s.kpml4 ∧ (freedAll s l).kpdpt = s.kpdpt := by
  induction l generalizing s with
  | nil => exact ⟨rfl, rfl, rfl⟩
  | cons q l ih => exact ih (s := freed s q)

/-- Freeing code that frees the pages `sub q`, read from the memory `m`, as long as
none of them has been freed before. -/
def Frees (m : Memory) (free : AddrT → VmM Unit) (sub : AddrT → List AddrT) : Prop :=
  ∀ (q : AddrT) (s : Memory), (∀ p ∈ sub q, s.page p = m.page p) → (sub q).Nodup →
    (∀ p ∈ sub q, Usable s.kend p) → free q s = .ok ((), freedAll s (sub q))

theorem kfree_ok (usable : Usable s.kend q) : kfree q s = .ok ((), freed s q) := by
  have call : wp (kfree q) s (fun _ t => t = freed s q) (fun _ => False) :=
    wp_kfree (fun refused => absurd usable refused) fun _ => rfl
  unfold wp at call
  split at call
  · rename_i done
    rw [done, call]
  · exact call.elim

theorem frees_kfree (m : Memory) : Frees m kfree fun q => [q] := fun q _ _ _ usable =>
  kfree_ok (usable q List.mem_cons_self)

section Entries

variable {m : Memory} {free : AddrT → VmM Unit} {sub : AddrT → List AddrT} {table : AddrT}

variable {rest : List (BitVec 9)} {i : BitVec 9}

theorem freeEntries_cons_none (absent : child s table i = none) :
    freeEntries free table (i :: rest) s = freeEntries free table rest s := by
  have bit : ¬ s.page table i &&& PTE_P ≠ 0 := by
    intro present
    rw [child_eq_some present] at absent
    cases absent
  rw [freeEntries]
  simp only [bind, StateT.bind, get, getThe, MonadStateOf.get, StateT.get, pure, Except.pure,
    Except.bind, if_neg bit]

theorem freeEntries_cons_some (present : child s table i = some q) (done : free q s = .ok ((), t)) :
    freeEntries free table (i :: rest) s = freeEntries free table rest t := by
  have bit : s.page table i &&& PTE_P ≠ 0 := by
    intro absent
    rw [child_eq_none absent] at present
    cases present
  rw [child_eq_some bit] at present
  rw [freeEntries]
  simp only [bind, StateT.bind, get, getThe, MonadStateOf.get, StateT.get, pure, Except.pure,
    Except.bind, if_pos bit, Option.some.inj present, done]

theorem freeEntries_ok (frees : Frees m free sub) : ∀ (is : List (BitVec 9)) (s : Memory),
    s.page table = m.page table → (∀ p ∈ below (child m) sub table is, s.page p = m.page p) →
    (below (child m) sub table is).Nodup → table ∉ below (child m) sub table is →
    (∀ p ∈ below (child m) sub table is, Usable s.kend p) →
    freeEntries free table is s = .ok ((), freedAll s (below (child m) sub table is)) := by
  intro is
  induction is with
  | nil => intro s _ _ _ _ _; rfl
  | cons i rest ih =>
    intro s here agree nodup apart usable
    have entry : child s table i = child m table i := child_congr (congrFun here i)
    have split : below (child m) sub table (i :: rest) =
        ((child m table i).map sub).getD [] ++ below (child m) sub table rest := List.flatMap_cons
    rw [split] at agree nodup apart usable ⊢
    cases found : child m table i with
    | none => grind [freeEntries_cons_none]
    | some q =>
      simp only [found, Option.map_some, Option.getD_some] at *
      obtain ⟨nodupQ, nodupRest, disjoint⟩ := List.nodup_append'.mp nodup
      rw [List.mem_append, not_or] at apart
      have first : free q s = .ok ((), freedAll s (sub q)) :=
        frees q s (fun p member => agree p (List.mem_append_left _ member)) nodupQ
          fun p member => usable p (List.mem_append_left _ member)
      -- What is still to be freed has not been written to.
      have kept : ∀ p ∈ below (child m) sub table rest, (freedAll s (sub q)).page p = s.page p :=
        fun p member => freedAll_page fun earlier => disjoint earlier member
      rw [freeEntries_cons_some entry first, freedAll_append]
      apply ih
      · rw [freedAll_page apart.1, here]
      · intro p member
        rw [kept p member, agree p (List.mem_append_right _ member)]
      · exact nodupRest
      · exact apart.2
      · intro p member
        rw [(freedAll_consts _).1]
        exact usable p (List.mem_append_right _ member)

theorem Frees.level {code : AddrT → VmM Unit} {is : List (BitVec 9)} (frees : Frees m free sub)
    (isCode : ∀ table s, code table s = (freeEntries free table is >>= fun _ => kfree table) s) :
    Frees m code fun table => below (child m) sub table is ++ [table] := by
  intro table s agree nodup usable
  obtain ⟨nodupBelow, -, disjoint⟩ := List.nodup_append'.mp nodup
  have apart : table ∉ below (child m) sub table is := fun member =>
    disjoint member List.mem_cons_self
  have entries := freeEntries_ok frees is s
    (agree table (List.mem_append_right _ List.mem_cons_self))
    (fun p member => agree p (List.mem_append_left _ member)) nodupBelow apart
    fun p member => usable p (List.mem_append_left _ member)
  have last : Usable (freedAll s (below (child m) sub table is)).kend table := by
    rw [(freedAll_consts _).1]
    exact usable table (List.mem_append_right _ List.mem_cons_self)
  rw [isCode, freedAll_append]
  simp only [bind, StateT.bind, entries, Except.bind]
  exact kfree_ok last

end Entries

/-- The pages of `n` levels of tables below `q`, children first. -/
def treePages (m : Memory) (n : Nat) (q : AddrT) : List AddrT := tree (child m) (indices 512) n q

def rootPages (m : Memory) (pml4 : AddrT) : List AddrT :=
  below (child m) (treePages m 3) pml4 (indices 256) ++ [pml4]

theorem freevm_ok (nodup : (rootPages s r).Nodup) (usable : ∀ p ∈ rootPages s r, Usable s.kend p) :
    freevm r s = .ok ((), freedAll s (rootPages s r)) := by
  have level₁ : Frees s freePt (treePages s 1) := (frees_kfree s).level fun _ _ => rfl
  have level₂ : Frees s freePd (treePages s 2) := level₁.level fun _ _ => rfl
  have level₃ : Frees s freePdp (treePages s 3) := level₂.level fun _ _ => rfl
  have nonzero : r ≠ 0 := (usable r (List.mem_append_right _ List.mem_cons_self)).ne_zero
  have level₄ : Frees s (fun pml4 => freeEntries freePdp pml4 (indices 256) >>= fun _ => kfree pml4)
      (rootPages s) := level₃.level fun _ _ => rfl
  rw [freevm, if_neg nonzero]
  exact level₄ r s (fun _ _ => rfl) nodup usable

/-! ## What a table owns -/

theorem mem_indices (small : n ≤ 512) : i ∈ indices n ↔ i.toNat < n := by
  simp only [indices, List.mem_map, List.mem_range]
  grind

theorem nodup_indices (small : n ≤ 512) : (indices n).Nodup := by
  refine List.Nodup.map_on ?_ List.nodup_range
  intro j jn k kn same
  rw [List.mem_range] at jn kn
  have := congrArg BitVec.toNat same
  rw [BitVec.toNat_ofNat, BitVec.toNat_ofNat] at this
  omega

theorem index_mem (i : BitVec 9) : i ∈ indices 512 := (mem_indices le_rfl).mpr i.isLt

theorem mem_rootPages : p ∈ rootPages s r ↔ Owned s [r] p := by
  simp only [rootPages, treePages, List.mem_append, List.mem_singleton, mem_below,
    mem_tree index_mem, mem_indices (show 256 ≤ 512 by decide)]
  constructor
  · rintro (⟨i, lower, q, entry, path, short, found⟩ | rfl)
    · refine ⟨r, List.mem_cons_self, i :: path, ⟨Nat.succ_le_succ short, by simpa using lower⟩, ?_⟩
      exact (follow_cons_of_entry entry path).trans found
    · exact ⟨p, List.mem_cons_self, [], userPath_nil, rfl⟩
  · rintro ⟨r', root, path, valid, found⟩
    obtain rfl := List.mem_singleton.mp root
    cases path with
    | nil => exact Or.inr (Option.some.inj found).symm
    | cons i path =>
      rw [follow, Option.bind_eq_some_iff] at found
      obtain ⟨q, entry, found⟩ := found
      exact Or.inl ⟨i, valid.2 i (by simp), q, entry, path, Nat.le_of_succ_le_succ valid.1, found⟩

theorem Sound.nodup_rootPages (sound : Sound s roots free) (root : r ∈ roots) :
    (rootPages s r).Nodup := by
  have once : ∀ path path' : List (BitVec 9), UserPath path → UserPath path' → ∀ p,
      follow (child s) r path = some p → follow (child s) r path' = some p → path = path' :=
    fun path path' valid valid' p found found' =>
      (sound.unaliased r root r root path path' p valid valid' found found').2
  have user : ∀ i ∈ indices 256, ∀ path : List (BitVec 9), path.length ≤ 3 →
      UserPath (i :: path) := fun i member path short =>
    ⟨Nat.succ_le_succ short, by simpa using (mem_indices (by decide)).mp member⟩
  rw [rootPages, List.nodup_append']
  refine ⟨nodup_below index_mem (nodup_indices (by decide)) ?_ ?_, List.nodup_singleton r, ?_⟩
  · grind
  · intro i member q entry
    apply nodup_tree index_mem (nodup_indices le_rfl)
    intro path path' short short' p found found'
    grind [follow_cons_of_entry]
  · intro p inBelow isTop
    rw [List.mem_singleton] at isTop
    subst isTop
    obtain ⟨i, member, q, entry, listed⟩ := mem_below.mp inBelow
    obtain ⟨path, short, found⟩ := (mem_tree index_mem).mp listed
    have same := once (i :: path) [] (user i member path short) userPath_nil p
      ((follow_cons_of_entry entry path).trans found) rfl
    cases same

theorem Sound.drop {rest : List AddrT} (sound : Sound s roots free) (fewer : rest ⊆ roots) :
    Sound s rest free where
  linked := sound.linked
  nodup := sound.nodup
  usable := sound.usable
  tables p member := by
    obtain ⟨r, root, path, valid, short, found⟩ := member
    exact sound.tables p ⟨r, fewer root, path, valid, short, found⟩
  unaliased r root r' root' := sound.unaliased r (fewer root) r' (fewer root')
  apart p owned := by
    obtain ⟨r, root, path, valid, found⟩ := owned
    exact sound.apart p ⟨r, fewer root, path, valid, found⟩

theorem Sound.beside {live free' : List AddrT} (old : Sound s roots free) (new : Sound t live free')
    (kept : ∀ p, Owned s roots p → t.page p = s.page p) (kend : t.kend = s.kend)
    (taken : ∀ p, Owned t live p ∨ p ∈ free' → p ∈ free) : Sound t (live ++ roots) free' := by
  have paths : SamePaths s t roots := samePaths_of_tables fun p table => kept p table.owned
  have split : ∀ {p r path}, r ∈ live ++ roots → UserPath path → follow (child t) r path = some p →
      (r ∈ live ∧ p ∈ free) ∨ (r ∈ roots ∧ Owned s roots p) := by
    intro p r path root valid found
    rcases List.mem_append.mp root with mine | theirs
    · exact Or.inl ⟨mine, taken p (Or.inl ⟨r, mine, path, valid, found⟩)⟩
    · exact Or.inr ⟨theirs, paths.owned_iff.mp ⟨r, theirs, path, valid, found⟩⟩
  refine ⟨new.linked, new.nodup, new.usable, ?_, ?_, ?_⟩
  · rintro p ⟨r, root, path, valid, short, found⟩
    rcases List.mem_append.mp root with mine | theirs
    · exact new.tables p ⟨r, mine, path, valid, short, found⟩
    · rw [kend]
      exact old.tables p (paths.table_iff.mp ⟨r, theirs, path, valid, short, found⟩)
  · intro r root r' root' path path' p valid valid' found found'
    rcases split root valid found with ⟨mine, listed⟩ | ⟨theirs, owned⟩
    · rcases split root' valid' found' with ⟨mine', -⟩ | ⟨-, owned'⟩
      · exact new.unaliased r mine r' mine' path path' p valid valid' found found'
      · exact absurd listed (old.apart p owned')
    · rcases split root' valid' found' with ⟨-, listed'⟩ | ⟨theirs', -⟩
      · exact absurd listed' (old.apart p owned)
      · rw [paths r theirs path valid] at found
        rw [paths r' theirs' path' valid'] at found'
        exact old.unaliased r theirs r' theirs' path path' p valid valid' found found'
  · rintro p ⟨r, root, path, valid, found⟩ listed
    rcases split root valid found with ⟨mine, -⟩ | ⟨-, owned⟩
    · exact new.apart p ⟨r, mine, path, valid, found⟩ listed
    · exact old.apart p owned (taken p (Or.inr listed))

theorem Sound.giveAll (sound : Sound s roots free) (nodup : l.Nodup)
    (unused : ∀ p ∈ l, ¬ Owned s roots p ∧ p ∉ free ∧ Usable s.kend p) :
    Sound (freedAll s l) roots (l.reverse ++ free) := by
  induction l generalizing s free with
  | nil => exact sound
  | cons q l ih =>
    obtain ⟨nobody, notFree, usable⟩ := unused q List.mem_cons_self
    obtain ⟨notLater, nodup⟩ := List.nodup_cons.mp nodup
    have paths : SamePaths s (freed s q) roots := samePaths_of_tables fun p => freed_tables nobody
    have rest := ih (sound.give nobody notFree usable) nodup
      (by
        intro p member
        obtain ⟨nobody', notFree', usable'⟩ := unused p (List.mem_cons_of_mem q member)
        refine ⟨fun owned => nobody' (paths.owned_iff.mp owned), ?_, usable'⟩
        rw [List.mem_cons, not_or]
        exact ⟨fun same => notLater (same ▸ member), notFree'⟩)
    rw [List.reverse_cons, List.append_assoc]
    exact rest

theorem Sound.owned_erase (sound : Sound s roots free) (distinct : roots.Nodup) (root : r ∈ roots) :
    Owned s (roots.erase r) p ↔ Owned s roots p ∧ ¬ Owned s [r] p := by
  constructor
  · rintro ⟨r', root', path, valid, found⟩
    obtain ⟨other, old⟩ := (List.Nodup.mem_erase_iff distinct).mp root'
    refine ⟨⟨r', old, path, valid, found⟩, ?_⟩
    rintro ⟨r'', single, path', valid', found'⟩
    obtain rfl := List.mem_singleton.mp single
    exact other (sound.unaliased r' old r'' root path path' p valid valid' found found').1
  · rintro ⟨⟨r', root', path, valid, found⟩, notHere⟩
    refine ⟨r', (List.Nodup.mem_erase_iff distinct).mpr ⟨?_, root'⟩, path, valid, found⟩
    rintro rfl
    exact notHere ⟨r', List.mem_cons_self, path, valid, found⟩

theorem freevm_spec (sound : Sound s roots free) (distinct : roots.Nodup) (root : r ∈ roots)
    (usable : ∀ p, Owned s [r] p → Usable s.kend p) :
    freevm r s = .ok ((), freedAll s (rootPages s r)) ∧
      Sound (freedAll s (rootPages s r)) (roots.erase r) ((rootPages s r).reverse ++ free) ∧
      SamePaths s (freedAll s (rootPages s r)) (roots.erase r) := by
  have nodup := sound.nodup_rootPages root
  have fewer : roots.erase r ⊆ roots := List.erase_subset
  have whole : ∀ p, Owned s [r] p → Owned s roots p := by
    rintro p ⟨r', single, path, valid, found⟩
    obtain rfl := List.mem_singleton.mp single
    exact ⟨r', root, path, valid, found⟩
  refine ⟨freevm_ok nodup fun p member => usable p (mem_rootPages.mp member), ?_, ?_⟩
  · apply (sound.drop fewer).giveAll nodup
    grind [mem_rootPages.mp, sound.owned_erase, Sound]
  · apply samePaths_of_tables
    intro p table
    apply freedAll_page
    intro member
    exact ((sound.owned_erase distinct root).mp table.owned).2 (mem_rootPages.mp member)

/-! ## Copying a table -/

theorem flags_small (pte : AddrT) :
    (((PTE_FLAGS pte).setWidth 32 : CInt).signExtend 64).toNat < 4096 := by
  have low := toNat_PTE_FLAGS pte
  have small : ((PTE_FLAGS pte).setWidth 32 : CInt).toNat = pte.toNat % 4096 := by
    rw [BitVec.toNat_setWidth, low]
    omega
  have positive : ((PTE_FLAGS pte).setWidth 32 : CInt).msb = false := by
    rw [BitVec.msb_eq_false_iff_two_mul_lt, small]
    omega
  rw [BitVec.signExtend_eq_setWidth_of_msb_false positive, BitVec.toNat_setWidth, small]
  omega

theorem copyuvmLoop_spec {d sz : AddrT} (copy : d ∈ roots)
    (below : sz.toNat < 2 ^ 47) (oom : exc .outOfMemory) (remap : exc .remap)
    (exist : exc .copyuvmExist) (present : exc .copyuvmPresent) :
    ∀ (fuel : Nat) (i : AddrT) (s : Memory) (free : List AddrT), Sound s roots free → Aligned i →
    pages sz - i.toNat / 4096 < fuel →
    wp (copyuvmLoop r d sz fuel i) s (fun ok t => ok = true ∧
      ∃ free', Effect s t roots free free' [] ∧ free' <:+ free) exc := by
  intro fuel
  induction fuel with
  | zero => intro i s free _ _ enough; omega
  | succ fuel ih =>
    intro i s free sound aligned enough
    rw [copyuvmLoop]
    by_cases more : i < sz
    · have less : i.toNat < sz.toNat := BitVec.lt_def.mp more
      have user : User i := by
        unfold User
        omega
      have next : (i + PGSIZE).toNat = i.toNat + 4096 := toNat_add_PGSIZE (by omega)
      rw [if_pos more, wp_bind, wp_walkpgdir_false]
      cases here : follow (child s) r (tablePath i) with
      | none => exact exist
      | some pgtab =>
        simp only [Option.map_some, wp_bind, wp_get]
        by_cases absent : s.page pgtab (PTX i) &&& PTE_P = 0
        · rw [if_pos absent]
          exact present
        · rw [if_neg absent, wp_bind]
          refine wp_kalloc sound (fun _ => oom) ?_
          rintro q rest rfl
          have nonzero : q ≠ 0 := (sound.usable q List.mem_cons_self).ne_zero
          have flags := flags_small (s.page pgtab (PTX i))
          rw [if_neg nonzero]
          simp only [wp_bind, wp_modify]
          refine mappages_taken sound copy user aligned flags (fun _ => oom) (fun _ => remap) ?_
          intro t free' first
          rw [if_pos rfl]
          refine wp_mono (ih (i + PGSIZE) t free' first.effect.sound ?_ ?_) ?_
          · unfold Aligned at aligned ⊢
            omega
          · unfold Aligned at aligned
            unfold pages at enough ⊢
            omega
          · rintro ok u ⟨done, free'', effect, suffix⟩
            refine ⟨done, free'', first.effect.trans effect ?_, ?_⟩
            · exact fun p member => Or.inl (List.mem_cons_of_mem q (first.suffix.subset member))
            · exact (suffix.trans first.suffix).trans (List.suffix_cons q rest)
    · rw [if_neg more]
      exact ⟨rfl, free, Effect.refl sound, List.suffix_refl _⟩

/-- The copy is a new root; pages only move from the free list into it. -/
theorem copyuvm_spec {sz : Uint} (sound : Sound s roots free)
    (oom : exc .outOfMemory) (remap : exc .remap)
    (exist : exc .copyuvmExist) (present : exc .copyuvmPresent) :
    wp (copyuvm r sz) s (fun copy t => ∃ d rest free', copy = some d ∧ free = d :: rest ∧
      Effect (takenPage s d (rootRow s.kpdpt)) t (d :: roots) rest free' [] ∧
      free' <:+ rest) exc := by
  have small : (sz.setWidth 64 : AddrT).toNat < 2 ^ 32 := by
    rw [BitVec.toNat_setWidth]
    have := sz.isLt
    omega
  rw [copyuvm]
  rw [wp_bind]
  refine setupkvm_spec sound (fun _ => oom) ?_
  rintro d rest rfl
  rw [if_neg (sound.usable d List.mem_cons_self).ne_zero]
  refine wp_call (copyuvmLoop_spec List.mem_cons_self (by omega) oom remap exist present _ _ _ rest
    (sound_newRoot sound) (by decide) ?_) ?_
  · unfold pages
    omega
  · rintro ok t ⟨rfl, free', effect, suffix⟩
    exact ⟨d, rest, free', rfl, rfl, effect, suffix⟩

end Xv6Tracing.Vm
