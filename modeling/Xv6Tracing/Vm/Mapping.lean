import Xv6Tracing.Vm.Walk

/-!
# What mapping and unmapping do

Pre- and postconditions of `mappages`, `allocuvm`, `deallocuvm` and `clearpteu`.
Each turn of their loops writes one entry of the last level, so it changes the word
of one page.
-/

set_option autoImplicit false

namespace Xv6Tracing.Vm

open Lib

variable {s t u : Memory} {roots free free' free'' : List AddrT} {r p q f va w : AddrT}

/-! ## One entry -/

section Leaf

variable {pgtab : AddrT} (sound : Sound s roots free) (root : r ∈ roots) (user : User va)
  (here : follow (child s) r (tablePath va) = some pgtab)
  (result : t = s.setWord pgtab (PTX va) w)

include sound root user here result

omit sound root user here in
theorem leaf_rows (p : AddrT) (j : BitVec 9) (other : ¬ (p = pgtab ∧ j = PTX va)) :
    t.page p j = s.page p j := by
  rw [result, Memory.setWord_page, if_neg other]

omit sound root user here in
theorem leaf_word : t.page pgtab (PTX va) = w := by
  rw [result, Memory.setWord_page, if_pos ⟨rfl, rfl⟩]

theorem leaf_words (r' : AddrT) (root' : r' ∈ roots) (va' : AddrT) (user' : User va') :
    pteWord t r' va' = if r' = r ∧ vpn va' = vpn va then w else pteWord s r' va' := by
  rw [pteWord_leaf sound root (userPath_indexPath user) here (leaf_rows result) rfl root' user',
    leaf_word result, ← indexPath_eq]
  simp only [indexPath_inj user' user]

theorem leaf_follow {r' : AddrT} {path : List (BitVec 9)} (root' : r' ∈ roots)
    (valid : UserPath path) (short : path.length ≤ 3) :
    follow (child t) r' path = follow (child s) r' path := by
  apply follow_entry_other sound root (userPath_indexPath user) here (leaf_rows result) root' valid
  rintro ⟨-, whole⟩
  have := whole.length_le
  simp [tablePath] at this
  omega

theorem leaf_table : Table t roots p ↔ Table s roots p := by
  constructor
  · rintro ⟨r', root', path, valid, short, found⟩
    exact ⟨r', root', path, valid, short,
      (leaf_follow sound root user here result root' valid short).symm.trans found⟩
  · rintro ⟨r', root', path, valid, short, found⟩
    exact ⟨r', root', path, valid, short,
      (leaf_follow sound root user here result root' valid short).trans found⟩

theorem leaf_effect {extra : List AddrT} (after : Sound t roots free)
    (balance : ∀ p, Owned t roots p ↔ Owned s roots p ∨ p ∈ extra) :
    Effect s t roots free free extra where
  sound := after
  balance p := by rw [balance p]; tauto
  tables p := (leaf_table sound root user here result).mpr
  fresh p member := Or.inl ((leaf_table sound root user here result).mp member)
  rows p notTable _ _ := by
    funext j
    apply leaf_rows result
    rintro ⟨rfl, -⟩
    exact notTable ⟨r, root, tablePath va, userPath_tablePath user, le_refl 3, here⟩
  kernel r' root' j _ := by
    apply leaf_rows result
    rintro ⟨rfl, -⟩
    have := (sound.unaliased r root r' root' (tablePath va) [] r' (userPath_tablePath user)
      userPath_nil here rfl).2
    simp [tablePath] at this
  consts := by
    rw [result]
    exact ⟨rfl, rfl, rfl⟩

theorem leaf_map (absent : pteWord s r va &&& PTE_P = 0) (present : w &&& PTE_P ≠ 0)
    (nobody : ¬ Owned s roots (P2V (PTE_ADDR w))) (notFree : P2V (PTE_ADDR w) ∉ free) :
    Effect s t roots free free [P2V (PTE_ADDR w)] := by
  have rows := leaf_rows result
  have valid : UserPath (tablePath va ++ [PTX va]) := userPath_indexPath user
  have empty : child s pgtab (PTX va) = none := by
    apply child_eq_none
    simpa only [pteWord, here] using absent
  have entry : child t pgtab (PTX va) = some (P2V (PTE_ADDR w)) := by
    have written := leaf_word result
    rw [child_eq_some (written ▸ present), written]
  have tip : ∀ j, UserPath (tablePath va ++ [PTX va] ++ [j]) →
      child t (P2V (PTE_ADDR w)) j = none := fun j long => absurd long.1 (by simp [tablePath])
  apply leaf_effect sound root user here result
  · exact sound.attach root valid here rows empty entry tip nobody notFree
      (fun upper => absurd upper (by simp [tablePath])) (by rw [result]; rfl) (by rw [result]; rfl)
  · intro p
    rw [owned_attach sound root valid here rows empty entry tip, List.mem_singleton]

theorem leaf_flags (present : w &&& PTE_P ≠ 0 ↔ pteWord s r va &&& PTE_P ≠ 0)
    (same : PTE_ADDR w = PTE_ADDR (pteWord s r va)) : Effect s t roots free free [] := by
  have before : s.page pgtab (PTX va) = pteWord s r va := by simp only [pteWord, here]
  have entry : child t pgtab (PTX va) = child s pgtab (PTX va) := by
    unfold child
    rw [leaf_word result, before, same]
    exact if_congr present rfl rfl
  have paths : SamePaths s t roots := fun r' _ path _ => follow_same (leaf_rows result) entry
  apply leaf_effect sound root user here result
  · exact sound.of_paths paths (linked_entry sound root (userPath_indexPath user) here
      (leaf_rows result) (by rw [result]; rfl)) (by rw [result]; rfl)
  · intro p
    simp [paths.owned_iff]

end Leaf

theorem freed_tables (nobody : ¬ Owned s roots f) (member : Table s roots p) :
    (freed s f).page p = s.page p := by
  rw [freed_page, if_neg]
  rintro rfl
  exact nobody member.owned

theorem Sound.give (sound : Sound s roots free) (nobody : ¬ Owned s roots f) (notFree : f ∉ free)
    (usable : Usable s.kend f) : Sound (freed s f) roots (f :: free) := by
  have paths : SamePaths s (freed s f) roots :=
    samePaths_of_tables fun p => freed_tables nobody
  exact {
    linked := by
      refine ⟨rfl, usable.ne_zero, ?_⟩
      rw [freed_page, if_pos rfl]
      apply sound.linked.congr
      intro p member
      rw [freed_page, if_neg]
      rintro rfl
      exact notFree member
    nodup := List.nodup_cons.mpr ⟨notFree, sound.nodup⟩
    usable := by
      intro p member
      rcases List.mem_cons.mp member with rfl | old
      · exact usable
      · exact sound.usable p old
    tables := fun p member => sound.tables p (paths.table_iff.mp member)
    unaliased := by
      intro r root r' root' path path' p valid valid' found found'
      rw [paths r root path valid] at found
      rw [paths r' root' path' valid'] at found'
      exact sound.unaliased r root r' root' path path' p valid valid' found found'
    apart := by
      intro p owned member
      rcases List.mem_cons.mp member with rfl | old
      · exact nobody (paths.owned_iff.mp owned)
      · exact sound.apart p (paths.owned_iff.mp owned) old }

theorem leaf_unmap {pgtab : AddrT} (sound : Sound s roots free) (root : r ∈ roots)
    (user : User va) (here : follow (child s) r (tablePath va) = some pgtab)
    (present : pteWord s r va &&& PTE_P ≠ 0) (frame : f = P2V (PTE_ADDR (pteWord s r va)))
    (usable : Usable s.kend f) (result : t = (freed s f).setWord pgtab (PTX va) 0) :
    Effect s t roots free (f :: free) [] ∧ ∀ r' ∈ roots, ∀ va', User va' →
      pteWord t r' va' = if r' = r ∧ vpn va' = vpn va then 0 else pteWord s r' va' := by
  have before : s.page pgtab (PTX va) = pteWord s r va := by simp only [pteWord, here]
  have entry : child s pgtab (PTX va) = some f := by
    rw [child_eq_some (before ▸ present), before, frame]
  have owned : Owned s roots f := by
    refine ⟨r, root, indexPath va, userPath_indexPath user, ?_⟩
    rw [follow_indexPath, if_pos present, frame]
  have isTable : Table s roots pgtab :=
    ⟨r, root, tablePath va, userPath_tablePath user, le_refl 3, here⟩
  have other : pgtab ≠ f := by
    rintro rfl
    have same := (sound.unaliased r root r root (tablePath va) (indexPath va) pgtab
      (userPath_tablePath user) (userPath_indexPath user) here
      (by rw [follow_indexPath, if_pos present, frame])).2
    simp [tablePath, indexPath] at same
  -- Clearing first gives the same memory, and a frame that belongs to nobody.
  let cleared : Memory := s.setWord pgtab (PTX va) 0
  have commute : t = freed cleared f := by
    have pages : ((freed s f).setWord pgtab (PTX va) 0).page = (freed cleared f).page := by
      funext p j
      simp only [Memory.setWord_page, freed_page, cleared]
      by_cases freedPage : p = f
      · subst freedPage
        simp only [other.symm, false_and, if_false, if_true]
        rfl
      · simp only [if_neg freedPage, Memory.setWord_page]
    rw [result]
    exact Memory.ext pages rfl rfl rfl rfl
  have written : cleared = s.setWord pgtab (PTX va) 0 := rfl
  have rows := leaf_rows written
  have none : child cleared pgtab (PTX va) = none :=
    child_eq_none (by rw [leaf_word written]; exact BitVec.zero_and)
  have owned_cleared : ∀ p, Owned cleared roots p ↔ Owned s roots p ∧ p ≠ f := fun p =>
    owned_detach sound root (userPath_indexPath user) here rows rfl entry none
  have between : Sound cleared roots free :=
    sound.detach root (userPath_indexPath user) here rows rfl none rfl rfl
  have nobody : ¬ Owned cleared roots f := fun still => ((owned_cleared f).mp still).2 rfl
  have table_cleared : ∀ p, Table cleared roots p ↔ Table s roots p := fun p =>
    leaf_table sound root user here rfl
  have paths : SamePaths cleared t roots := by
    rw [commute]
    exact samePaths_of_tables fun p => freed_tables nobody
  have first := leaf_words sound root user here written
  refine ⟨⟨?_, ?_, ?_, ?_, ?_, ?_, ?_⟩, ?_⟩
  · rw [commute]
    exact between.give nobody (sound.apart f owned) usable
  · intro p
    grind [paths.owned_iff]
  · intro p member
    exact paths.table_iff.mpr ((table_cleared p).mpr member)
  · intro p member
    exact Or.inl ((table_cleared p).mp (paths.table_iff.mp member))
  · grind [freed_page]
  · intro r' root' j _
    have isRoot : Table cleared roots r' := ⟨r', root', [], userPath_nil, by simp, rfl⟩
    rw [commute, freed_tables nobody isRoot]
    apply rows
    rintro ⟨rfl, -⟩
    have same := (sound.unaliased r root r' root' (tablePath va) [] r' (userPath_tablePath user)
      userPath_nil here rfl).2
    simp [tablePath] at same
  · rw [result]
    exact ⟨rfl, rfl, rfl⟩
  · intro r' root' va' user'
    rw [← first r' root' va' user', commute]
    exact pteWord_of_tables (fun p => freed_tables nobody) root' user'

/-! ## Mapping -/

/-- The page at `va` was unmapped and now has the word `w`. -/
structure Mapped (s t : Memory) (roots free free' : List AddrT) (r va w : AddrT) : Prop where
  effect : Effect s t roots free free' [P2V (PTE_ADDR w)]
  suffix : free' <:+ free
  used : free.length ≤ free'.length + 3
  unmapped : pteWord s r va &&& PTE_P = 0
  words : ∀ r' ∈ roots, ∀ va', User va' →
    pteWord t r' va' = if r' = r ∧ vpn va' = vpn va then w else pteWord s r' va'

variable {exc : Halt → Prop} {post : Bool → Memory → Prop} {pa : AddrT}

theorem mappagesLoop_turn {last perm : AddrT} {fuel : Nat} (sound : Sound s roots free) (root : r ∈ roots) (user : User va)
    (nobody : ¬ Owned s roots (P2V (PTE_ADDR (pa ||| perm ||| PTE_P))))
    (notFree : P2V (PTE_ADDR (pa ||| perm ||| PTE_P)) ∉ free)
    (oom : free.length < 3 → exc .outOfMemory) (remap : pteWord s r va &&& PTE_P ≠ 0 → exc .remap)
    (rest : ∀ t free', Mapped s t roots free free' r va (pa ||| perm ||| PTE_P) →
      wp (if va = last then pure true
        else mappagesLoop r last perm fuel (va + PGSIZE) (pa + PGSIZE)) t post exc) :
    wp (mappagesLoop r last perm (fuel + 1) va pa) s post exc := by
  refine wp_call (walkpgdir_spec sound root user oom) ?_
  rintro _ u ⟨pgtab, free', rfl, walked, here⟩
  have entry : u.page pgtab (PTX va) = pteWord s r va := by
    rw [← walked.words r root va user]
    simp only [pteWord, here]
  simp only [wp_bind, wp_get, entry]
  by_cases present : pteWord s r va &&& PTE_P ≠ 0
  · rw [if_pos present]
    exact remap present
  · rw [if_neg present, wp_bind]
    apply rest _ free'
    have nobody' : ¬ Owned u roots (P2V (PTE_ADDR (pa ||| perm ||| PTE_P))) := by
      intro owned
      have := (walked.effect.balance _).mp (Or.inl owned)
      simp [nobody, notFree] at this
    have notFree' : P2V (PTE_ADDR (pa ||| perm ||| PTE_P)) ∉ free' := fun member =>
      notFree (walked.suffix.subset member)
    have absent : pteWord u r va &&& PTE_P = 0 := by
      rw [walked.words r root va user]
      exact not_not.mp present
    have step := leaf_map walked.effect.sound root user here rfl absent (present_or _) nobody'
      notFree'
    refine ⟨?_, walked.suffix, walked.used, not_not.mp present, ?_⟩
    · exact walked.effect.trans step fun p member => Or.inr member
    · intro r' root' va' user'
      rw [leaf_words walked.effect.sound root user here rfl r' root' va' user',
        walked.words r' root' va' user']

theorem mappages_page {perm : CInt}
    (sound : Sound s roots free) (root : r ∈ roots) (user : User va) (aligned : Aligned va)
    (word : w = pa ||| perm.signExtend 64 ||| PTE_P)
    (nobody : ¬ Owned s roots (P2V (PTE_ADDR w))) (notFree : P2V (PTE_ADDR w) ∉ free)
    (oom : free.length < 3 → exc .outOfMemory) (remap : pteWord s r va &&& PTE_P ≠ 0 → exc .remap)
    (done : ∀ t free', Mapped s t roots free free' r va w → post true t) :
    wp (mappages r va PGSIZE pa perm) s post exc := by
  have first : PGROUNDDOWN va = va := by
    rw [← BitVec.toNat_inj, toNat_PGROUNDDOWN]
    unfold Aligned at aligned
    omega
  have last : PGROUNDDOWN (va + PGSIZE - 1) = va := by
    unfold Aligned at aligned
    unfold User at user
    rw [← BitVec.toNat_inj, toNat_PGROUNDDOWN, BitVec.toNat_sub, BitVec.toNat_add, toNat_PGSIZE]
    have one : (1 : AddrT).toNat = 1 := rfl
    rw [one]
    omega
  subst word
  simp only [mappages, first, last, BitVec.sub_self, BitVec.toNat_zero, Nat.zero_div]
  apply mappagesLoop_turn sound root user nobody notFree oom remap
  intro t free' mapped
  rw [if_pos rfl]
  exact done t free' mapped

end Xv6Tracing.Vm
