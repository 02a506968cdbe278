import Xv6Tracing.Vm.Mapping

/-!
# Growing and shrinking user memory

Pre- and postconditions of `allocuvm`, `deallocuvm` and `clearpteu`: which words of
user pages they change, and which pages change hands.
-/

set_option autoImplicit false

namespace Xv6Tracing.Vm

open Lib

variable {s t u : Memory} {roots free free' free'' : List AddrT} {r p q f va w : AddrT}

def pages (sz : AddrT) : Nat := (sz.toNat + 4095) / 4096

/-! ## One new page -/

/-- The first free page, filled with `row`, is mapped at `va`. -/
structure NewPage (s t : Memory) (roots free free' : List AddrT) (r va w q : AddrT)
    (row : BitVec 9 → AddrT) : Prop where
  effect : Effect s t roots (q :: free) free' []
  suffix : free' <:+ free
  used : free.length ≤ free'.length + 3
  frame : P2V (PTE_ADDR w) = q
  unmapped : pteWord s r va &&& PTE_P = 0
  words : ∀ r' ∈ roots, ∀ va', User va' →
    pteWord t r' va' = if r' = r ∧ vpn va' = vpn va then w else pteWord s r' va'
  contents : t.page q = row

variable {exc : Halt → Prop} {lo hi : Nat} {oldsz newsz : AddrT}

theorem mappages_taken {perm : CInt} {row : BitVec 9 → AddrT} {post : Bool → Memory → Prop} (sound : Sound s roots (q :: free)) (root : r ∈ roots) (user : User va)
    (aligned : Aligned va) (flags : (perm.signExtend 64).toNat < 4096)
    (oom : free.length < 3 → exc .outOfMemory) (remap : pteWord s r va &&& PTE_P ≠ 0 → exc .remap)
    (done : ∀ t free', NewPage s t roots free free' r va
      (V2P q ||| perm.signExtend 64 ||| PTE_P) q row → post true t) :
    wp (mappages r va PGSIZE (V2P q) perm) (takenPage s q row) post exc := by
  have between : Sound (takenPage s q row) roots free := takenPage_sound sound
  have usable : Usable s.kend q := sound.usable q List.mem_cons_self
  have notFree : q ∉ free := (List.nodup_cons.mp sound.nodup).1
  have same : SameWords s (takenPage s q row) roots := takenPage_words sound
  have nobody : ¬ Owned (takenPage s q row) roots q := takenPage_nobody sound
  have frame : P2V (PTE_ADDR (V2P q ||| perm.signExtend 64 ||| PTE_P)) = q := by
    rw [BitVec.or_assoc]
    apply P2V_PTE_ADDR_V2P usable.aligned
    rw [BitVec.toNat_or]
    exact Nat.or_lt_two_pow (n := 12) flags (by decide)
  apply mappages_page between root user aligned rfl
  · rw [frame]
    exact nobody
  · rw [frame]
    exact notFree
  · exact oom
  · rw [same r root va user]
    exact remap
  · intro t free' mapped
    apply done t free'
    have effect := mapped.effect
    rw [frame] at effect
    refine ⟨effect.after_take sound, mapped.suffix, mapped.used, frame, ?_, ?_, ?_⟩
    · rw [← same r root va user]
      exact mapped.unmapped
    · intro r' root' va' user'
      rw [mapped.words r' root' va' user', same r' root' va' user']
    · rw [effect.rows q (fun table => nobody table.owned) notFree
        (fun member => notFree (mapped.suffix.subset member)), takenPage_page, if_pos rfl]

/-! ## Growing -/

def newWord (q : AddrT) : AddrT := V2P q ||| (PTE_W ||| PTE_U) ||| PTE_P

/-- The pages from `lo` up to `hi` were unmapped and now have cleared frames, which
were free. -/
structure Allocation (s t : Memory) (roots free free' : List AddrT) (r : AddrT) (lo hi : Nat)
    (frame : Nat → AddrT) : Prop where
  effect : Effect s t roots free free' []
  suffix : free' <:+ free
  used : free.length ≤ free'.length + 4 * (hi - lo)
  frames : ∀ k, lo ≤ k → k < hi → frame k ∈ free ∧ frame k ∉ free' ∧
    t.page (frame k) = (fun _ => 0) ∧ P2V (PTE_ADDR (newWord (frame k))) = frame k
  unmapped : ∀ va, User va → lo ≤ vpn va → vpn va < hi → pteWord s r va &&& PTE_P = 0
  words : ∀ r' ∈ roots, ∀ va, User va → pteWord t r' va =
    if r' = r ∧ lo ≤ vpn va ∧ vpn va < hi then newWord (frame (vpn va)) else pteWord s r' va

theorem allocation_empty (sound : Sound s roots free) (none : hi ≤ lo) :
    Allocation s s roots free free r lo hi fun _ => 0 where
  effect := Effect.refl sound
  suffix := List.suffix_refl _
  used := by omega
  frames k lower upper := by omega
  unmapped va _ lower upper := by omega
  words r' _ va _ := by rw [if_neg]; omega

theorem NewPage.allocation {frame : Nat → AddrT} (root : r ∈ roots) (user : User va)
    (first : NewPage s t roots free free' r va (newWord q) q fun _ => 0) (page : vpn va = lo)
    (nonempty : lo < hi) (rest : Allocation t u roots free' free'' r (lo + 1) hi frame) :
    Allocation s u roots (q :: free) free'' r lo hi fun k => if k = lo then q else frame k where
  effect := first.effect.trans rest.effect fun p member =>
    Or.inl (List.mem_cons_of_mem q (first.suffix.subset member))
  suffix := (rest.suffix.trans first.suffix).trans (List.suffix_cons q free)
  used := by
    have := first.used
    have := rest.used
    rw [List.length_cons]
    omega
  frames k lower upper := by
    by_cases here : k = lo
    · have word : pteWord t r va = newWord q := by
        rw [first.words r root va user, if_pos ⟨rfl, rfl⟩]
      have present : pteWord t r va &&& PTE_P ≠ 0 := word ▸ present_or _
      have frame : P2V (PTE_ADDR (pteWord t r va)) = q := by rw [word, first.frame]
      have owned := owned_frame root user present
      have notTable := first.effect.sound.frame_not_table root user present
      rw [frame] at owned notTable
      have notFree : q ∉ free' := first.effect.sound.apart q owned
      have notAfter : q ∉ free'' := fun member => notFree (rest.suffix.subset member)
      simp only [here, if_true]
      refine ⟨List.mem_cons_self, notAfter, ?_, first.frame⟩
      rw [rest.effect.rows q notTable notFree notAfter, first.contents]
    · obtain ⟨before, after, zero, back⟩ := rest.frames k (by omega) upper
      simp only [here, if_false]
      exact ⟨List.mem_cons_of_mem q (first.suffix.subset before), after, zero, back⟩
  unmapped va' user' lower upper := by
    by_cases here : vpn va' = lo
    · rw [pteWord_congr (here.trans page.symm)]
      exact first.unmapped
    · have later := rest.unmapped va' user' (by omega) upper
      rwa [first.words r root va' user', if_neg (by omega)] at later
  words r' root' va' user' := by
    rw [rest.words r' root' va' user', first.words r' root' va' user', page]
    grind

theorem allocuvmLoop_spec (root : r ∈ roots)
    (below : newsz < KERNBASE) : ∀ (fuel : Nat) (a : AddrT) (s : Memory) (free : List AddrT),
    Sound s roots free → Aligned a →
    (newsz.toNat ≤ 2 ^ 47 ∨ a.toNat + 4096 * free.length ≤ 2 ^ 47) →
    pages newsz - a.toNat / 4096 < fuel →
    (free.length < 4 * (pages newsz - a.toNat / 4096) → exc .outOfMemory) →
    ((∃ va, User va ∧ a.toNat / 4096 ≤ vpn va ∧ vpn va < pages newsz ∧
      pteWord s r va &&& PTE_P ≠ 0) → exc .remap) →
    wp (allocuvmLoop r oldsz newsz fuel a) s (fun res t => res = newsz ∧ ∃ free' frame,
      Allocation s t roots free free' r (a.toNat / 4096) (pages newsz) frame) exc := by
  have top : newsz.toNat < 2 ^ 64 - 2 ^ 47 := by
    have := BitVec.lt_def.mp below
    exact this
  intro fuel
  induction fuel with
  | zero => intro a s free _ _ _ enough; omega
  | succ fuel ih =>
    intro a s free sound aligned bound enough oom remap
    unfold allocuvmLoop
    by_cases more : a < newsz
    · have less : a.toNat < newsz.toNat := BitVec.lt_def.mp more
      have range : a.toNat / 4096 < pages newsz := by
        unfold Aligned at aligned
        unfold pages
        omega
      rw [if_pos more, wp_bind]
      refine wp_kalloc sound ?_ ?_
      · rintro rfl
        exact oom (by simp; omega)
      rintro q rest rfl
      have nonzero : q ≠ 0 := (sound.usable q List.mem_cons_self).ne_zero
      have user : User a := by
        unfold User
        rw [List.length_cons] at bound
        omega
      simp only [if_neg nonzero, wp_bind, zeroPage, wp_modify]
      have next : (a + PGSIZE).toNat = a.toNat + 4096 := toNat_add_PGSIZE (by omega)
      have nextPage : (a + PGSIZE).toNat / 4096 = a.toNat / 4096 + 1 := by omega
      apply mappages_taken sound root user aligned (by decide)
      · intro few
        apply oom
        rw [List.length_cons]
        omega
      · intro present
        exact remap ⟨a, user, le_refl _, range, present⟩
      · intro t free' first
        have flags : ((PTE_W ||| PTE_U).setWidth 32).signExtend 64 = PTE_W ||| PTE_U := by decide
        rw [flags] at first
        have few := first.suffix.length_le
        have used := first.used
        rw [List.length_cons] at bound oom
        simp only [if_true]
        refine wp_mono (ih (a + PGSIZE) t free' first.effect.sound ?_ ?_ ?_ ?_ ?_) ?_
        · unfold Aligned at aligned ⊢
          omega
        · omega
        · omega
        · intro short
          exact oom (by omega)
        · rintro ⟨va, user', lower, upper, present⟩
          rw [nextPage] at lower
          have other : ¬ (r = r ∧ vpn va = vpn a) := by
            unfold vpn at lower ⊢
            omega
          grind [first.words]
        · rintro res u ⟨rfl, free'', frame, later⟩
          rw [nextPage] at later
          exact ⟨rfl, free'', _, first.allocation root user rfl range later⟩
    · rw [if_neg more]
      refine ⟨rfl, free, _, allocation_empty sound ?_⟩
      have := BitVec.not_lt.mp more
      have := BitVec.le_def.mp this
      unfold Aligned at aligned
      unfold pages
      omega

/-- `allocuvm` maps the pages between the two sizes.  It stops when pages run out and
when a page is mapped already. -/
theorem allocuvm_spec (sound : Sound s roots free) (root : r ∈ roots) (below : newsz < KERNBASE)
    (bound : newsz.toNat ≤ 2 ^ 47 ∨ 4096 * (pages oldsz + free.length) ≤ 2 ^ 47)
    (oom : free.length < 4 * (pages newsz - pages oldsz) → exc .outOfMemory)
    (remap : (∃ va, User va ∧ pages oldsz ≤ vpn va ∧ vpn va < pages newsz ∧
      pteWord s r va &&& PTE_P ≠ 0) → exc .remap) :
    wp (allocuvm r oldsz newsz) s (fun res t => res = (if newsz < oldsz then oldsz else newsz) ∧
      ∃ free' frame, Allocation s t roots free free' r (pages oldsz) (pages newsz) frame) exc := by
  have notKernel : ¬ KERNBASE ≤ newsz := BitVec.not_le.mpr below
  rw [allocuvm, if_neg notKernel]
  have top : newsz.toNat < 2 ^ 64 - 2 ^ 47 := by
    have := BitVec.lt_def.mp below
    exact this
  by_cases smaller : newsz < oldsz
  · have less := BitVec.lt_def.mp smaller
    rw [if_pos smaller]
    refine ⟨(if_pos smaller).symm, free, _, allocation_empty sound ?_⟩
    unfold pages
    omega
  · have order : oldsz.toNat ≤ newsz.toNat := BitVec.le_def.mp (BitVec.not_lt.mp smaller)
    have start : (PGROUNDUP oldsz).toNat = pages oldsz * 4096 := toNat_PGROUNDUP (by omega)
    have page : (PGROUNDUP oldsz).toNat / 4096 = pages oldsz := by omega
    rw [if_neg smaller]
    refine wp_mono (allocuvmLoop_spec root below _ (PGROUNDUP oldsz) s free sound ?_ ?_ ?_ ?_ ?_) ?_
    · unfold Aligned
      omega
    · omega
    · rw [BitVec.toNat_sub, page]
      unfold pages at start ⊢
      omega
    · rwa [page]
    · rwa [page]
    · grind

/-! ## Shrinking -/

/-- The pages from `lo` up to `hi` are unmapped; their frames are free. -/
structure Deallocation (s t : Memory) (roots free free' : List AddrT) (r : AddrT) (lo hi : Nat) :
    Prop where
  effect : Effect s t roots free free' []
  suffix : free <:+ free'
  words : ∀ r' ∈ roots, ∀ va, User va → pteWord t r' va =
    if r' = r ∧ lo ≤ vpn va ∧ vpn va < hi ∧ pteWord s r' va &&& PTE_P ≠ 0 then 0
    else pteWord s r' va

theorem deallocation_empty (sound : Sound s roots free) (none : hi ≤ lo) :
    Deallocation s s roots free free r lo hi where
  effect := Effect.refl sound
  suffix := List.suffix_refl _
  words r' _ va _ := by rw [if_neg]; omega

theorem Deallocation.skip (absent : pteWord s r va &&& PTE_P = 0)
    (page : vpn va = lo) (rest : Deallocation s t roots free free' r (lo + 1) hi) :
    Deallocation s t roots free free' r lo hi where
  effect := rest.effect
  suffix := rest.suffix
  words r' root' va' user' := by grind [pteWord_congr, Deallocation]

theorem Deallocation.drop (effect : Effect s t roots free (f :: free) [])
    (words : ∀ r' ∈ roots, ∀ va', User va' →
      pteWord t r' va' = if r' = r ∧ vpn va' = vpn va then 0 else pteWord s r' va')
    (present : pteWord s r va &&& PTE_P ≠ 0) (page : vpn va = lo) (nonempty : lo < hi)
    (rest : Deallocation t u roots (f :: free) free' r (lo + 1) hi) :
    Deallocation s u roots free free' r lo hi where
  effect := effect.trans rest.effect fun p member => Or.inr (rest.suffix.subset member)
  suffix := (List.suffix_cons f free).trans rest.suffix
  words r' root' va' user' := by grind [pteWord_congr, Deallocation]

theorem deallocuvmLoop_spec (root : r ∈ roots)
    (below : oldsz.toNat ≤ 2 ^ 47) : ∀ (fuel : Nat) (a : AddrT) (s : Memory) (free : List AddrT),
    Sound s roots free → Aligned a → pages oldsz - a.toNat / 4096 < fuel →
    ((∃ va, User va ∧ a.toNat / 4096 ≤ vpn va ∧ vpn va < pages oldsz ∧
      pteWord s r va &&& PTE_P ≠ 0 ∧ (PTE_ADDR (pteWord s r va) = 0 ∨
        ¬ Usable s.kend (P2V (PTE_ADDR (pteWord s r va))))) → exc .kfree) →
    wp (deallocuvmLoop r oldsz fuel a) s (fun _ t => ∃ free',
      Deallocation s t roots free free' r (a.toNat / 4096) (pages oldsz)) exc := by
  intro fuel
  induction fuel with
  | zero => intro a s free _ _ enough; omega
  | succ fuel ih =>
    intro a s free sound aligned enough refused
    unfold deallocuvmLoop
    by_cases more : a < oldsz
    · have less : a.toNat < oldsz.toNat := BitVec.lt_def.mp more
      have user : User a := by
        unfold User
        omega
      have range : a.toNat / 4096 < pages oldsz := by
        unfold Aligned at aligned
        unfold pages
        omega
      have next : (a + PGSIZE).toNat = a.toNat + 4096 := toNat_add_PGSIZE (by omega)
      have nextPage : (a + PGSIZE).toNat / 4096 = a.toNat / 4096 + 1 := by omega
      have nextAligned : Aligned (a + PGSIZE) := by
        unfold Aligned at aligned ⊢
        omega
      -- The rest of the loop when this page stays as it is.
      have skip : pteWord s r a &&& PTE_P = 0 →
          wp (deallocuvmLoop r oldsz fuel (a + PGSIZE)) s (fun _ t => ∃ free',
            Deallocation s t roots free free' r (a.toNat / 4096) (pages oldsz)) exc := by
        intro absent
        refine wp_mono (ih (a + PGSIZE) s free sound nextAligned (by omega) ?_) ?_
        · rintro ⟨va, user', lower, rest⟩
          exact refused ⟨va, user', by omega, rest⟩
        · rintro _ t ⟨free', later⟩
          rw [nextPage] at later
          exact ⟨free', later.skip absent rfl⟩
      rw [if_pos more, wp_bind, wp_walkpgdir_false]
      cases here : follow (child s) r (tablePath a) with
      | none => exact skip (by simp only [pteWord, here]; exact BitVec.zero_and)
      | some pgtab =>
        have entry : s.page pgtab (PTX a) = pteWord s r a := by simp only [pteWord, here]
        simp only [Option.map_some, wp_bind, wp_get, entry]
        by_cases present : pteWord s r a &&& PTE_P ≠ 0
        · rw [if_pos present]
          by_cases null : PTE_ADDR (pteWord s r a) = 0
          · rw [if_pos null]
            exact refused ⟨a, user, le_refl _, range, present, Or.inl null⟩
          · obtain ⟨f, frame⟩ : ∃ f, f = P2V (PTE_ADDR (pteWord s r a)) := ⟨_, rfl⟩
            rw [if_neg null, wp_bind, ← frame]
            apply wp_kfree
            · intro unusable
              rw [frame] at unusable
              exact refused ⟨a, user, le_refl _, range, present, Or.inr unusable⟩
            · intro usable
              obtain ⟨effect, words⟩ := leaf_unmap sound root user here present frame usable rfl
              rw [wp_bind, setWord, wp_modify]
              refine wp_mono (ih (a + PGSIZE) _ _ effect.sound nextAligned (by omega) ?_) ?_
              · rintro ⟨va, user', lower, upper, mapped, bad⟩
                have other : ¬ (r = r ∧ vpn va = vpn a) := by
                  unfold vpn at lower ⊢
                  omega
                grind [effect.consts.1]
              · rintro _ t ⟨free', later⟩
                rw [nextPage] at later
                exact ⟨free', later.drop effect words present rfl range⟩
        · rw [if_neg present]
          exact skip (not_not.mp present)
    · rw [if_neg more]
      refine ⟨free, deallocation_empty sound ?_⟩
      have := BitVec.le_def.mp (BitVec.not_lt.mp more)
      unfold Aligned at aligned
      unfold pages
      omega

theorem deallocuvm_spec (sound : Sound s roots free)
    (root : r ∈ roots) (below : oldsz.toNat ≤ 2 ^ 47 ∨ oldsz ≤ newsz)
    (refused : (∃ va, User va ∧ pages newsz ≤ vpn va ∧ vpn va < pages oldsz ∧
      pteWord s r va &&& PTE_P ≠ 0 ∧ (PTE_ADDR (pteWord s r va) = 0 ∨
        ¬ Usable s.kend (P2V (PTE_ADDR (pteWord s r va))))) → exc .kfree) :
    wp (deallocuvm r oldsz newsz) s (fun res t =>
      res = (if oldsz ≤ newsz then oldsz else newsz) ∧
        ∃ free', Deallocation s t roots free free' r (pages newsz) (pages oldsz)) exc := by
  rw [deallocuvm]
  by_cases larger : oldsz ≤ newsz
  · have order := BitVec.le_def.mp larger
    rw [if_pos larger]
    refine ⟨(if_pos larger).symm, free, deallocation_empty sound ?_⟩
    unfold pages
    omega
  · have order : newsz.toNat < oldsz.toNat := BitVec.lt_def.mp (BitVec.not_le.mp larger)
    have small : oldsz.toNat ≤ 2 ^ 47 := below.resolve_right larger
    have start : (PGROUNDUP newsz).toNat = pages newsz * 4096 := toNat_PGROUNDUP (by omega)
    have page : (PGROUNDUP newsz).toNat / 4096 = pages newsz := by omega
    rw [if_neg larger]
    refine wp_call (deallocuvmLoop_spec root small _ (PGROUNDUP newsz) s free sound ?_ ?_ ?_) ?_
    · unfold Aligned
      omega
    · rw [BitVec.toNat_sub, page]
      unfold pages at start ⊢
      omega
    · rwa [page]
    · rintro _ t ⟨free', unmapped⟩
      rw [page] at unmapped
      exact ⟨(if_neg larger).symm, free', unmapped⟩

/-! ## The guard page -/

theorem clear_user (pte : AddrT) :
    PTE_ADDR (pte &&& ~~~PTE_U) = PTE_ADDR pte ∧
      (pte &&& ~~~PTE_U &&& PTE_P ≠ 0 ↔ pte &&& PTE_P ≠ 0) := by
  have mask : ~~~PTE_U &&& ~~~(0xFFF : AddrT) = ~~~(0xFFF : AddrT) := by decide
  have bit : ~~~PTE_U &&& PTE_P = PTE_P := by decide
  constructor
  · rw [PTE_ADDR, BitVec.and_assoc, mask, PTE_ADDR]
  · rw [BitVec.and_assoc, bit]

theorem clearpteu_spec (sound : Sound s roots free) (root : r ∈ roots)
    (user : User va) (missing : follow (child s) r (tablePath va) = none → exc .clearpteu) :
    wp (clearpteu r va) s (fun _ t => Effect s t roots free free [] ∧
      ∀ r' ∈ roots, ∀ va', User va' → pteWord t r' va' =
        if r' = r ∧ vpn va' = vpn va then pteWord s r' va' &&& ~~~PTE_U else pteWord s r' va') exc := by
  rw [clearpteu, wp_bind, wp_walkpgdir_false]
  cases here : follow (child s) r (tablePath va) with
  | none => exact missing here
  | some pgtab =>
    have entry : s.page pgtab (PTX va) = pteWord s r va := by simp only [pteWord, here]
    simp only [Option.map_some, wp_bind, wp_get, entry]
    obtain ⟨address, present⟩ := clear_user (pteWord s r va)
    refine ⟨leaf_flags sound root user here rfl present address, ?_⟩
    grind [leaf_words, pteWord_congr]

end Xv6Tracing.Vm
