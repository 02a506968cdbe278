import Xv6Tracing.Vm.Lifetime

/-!
# The first free list

`kinit1` puts every page of a range on the free list, `kvmalloc` takes the kernel's
two tables from it.
-/

set_option autoImplicit false

namespace Xv6Tracing.Vm

open Lib

variable {s t : Memory} {roots free : List AddrT} {p q : AddrT}

def Managed (vstart vend v : AddrT) : Prop :=
  Aligned v ∧ vstart.toNat ≤ v.toNat ∧ v.toNat + 4096 ≤ vend.toNat

theorem sound_none (empty : s.freelist = 0) : Sound s [] [] where
  linked := empty
  nodup := List.nodup_nil
  usable := by simp
  tables := by rintro p ⟨r, root, -⟩; simp at root
  unaliased := by intro r root; simp at root
  apart := by rintro p ⟨r, root, -⟩; simp at root

theorem freerangeLoop_spec {vend : AddrT} {exc : Halt → Prop} (top : vend.toNat < 2 ^ 64 - 4096)
    (refused : exc .kfree) : ∀ (fuel : Nat) (p : AddrT) (s : Memory) (free : List AddrT),
    Sound s [] free → Aligned p → (vend.toNat - p.toNat) / 4096 < fuel →
    (∀ q ∈ free, q.toNat < p.toNat) →
    wp (freerangeLoop vend fuel p) s (fun _ t => ∃ free', Sound t [] free' ∧
      (∀ v, v ∈ free' ↔ v ∈ free ∨ Managed p vend v) ∧ t.kend = s.kend) exc := by
  intro fuel
  induction fuel with
  | zero => intro p s free _ _ enough; omega
  | succ fuel ih =>
    intro p s free sound aligned enough earlier
    have next : (p + PGSIZE).toNat = (p.toNat + 4096) % 2 ^ 64 := by
      rw [BitVec.toNat_add, toNat_PGSIZE]
    rw [freerangeLoop]
    generalize p + PGSIZE = p' at next ⊢
    by_cases more : p' ≤ vend
    · have bound : p'.toNat ≤ vend.toNat := BitVec.le_def.mp more
      rw [if_pos more, wp_bind]
      apply wp_kfree
      · intro _
        exact refused
      · intro usable
        -- The last page below 2^64 is refused, so the sum does not wrap.
        have noWrap : p.toNat + 4096 < 2 ^ 64 := by
          have small : (V2P p).toNat < PHYSTOP.toNat := BitVec.lt_def.mp usable.2.2
          have base : KERNBASE.toNat = 0xFFFF800000000000 := rfl
          have physical : PHYSTOP.toNat = 0xE000000 := rfl
          rw [V2P, BitVec.toNat_sub, base, physical] at small
          omega
        rw [Nat.mod_eq_of_lt noWrap] at next
        have notFree : p ∉ free := fun member => absurd (earlier p member) (lt_irrefl _)
        have nobody : ¬ Owned s [] p := by
          rintro ⟨r, root, -⟩
          simp at root
        have after : Sound (freed s p) [] (p :: free) := sound.give nobody notFree usable
        have aligned' : Aligned p' := by
          unfold Aligned at aligned ⊢
          omega
        have earlier' : ∀ q ∈ p :: free, q.toNat < p'.toNat := by grind
        refine wp_mono (ih p' _ _ after aligned' (by omega) earlier') ?_
        rintro _ t ⟨free', later, members, kend⟩
        refine ⟨free', later, ?_, kend⟩
        intro v
        rw [members v, List.mem_cons, or_assoc, or_left_comm]
        apply or_congr Iff.rfl
        constructor
        · rintro (rfl | ⟨alignedV, lower, upper⟩)
          · exact ⟨aligned, le_refl _, by omega⟩
          · exact ⟨alignedV, by omega, upper⟩
        · rintro ⟨alignedV, lower, upper⟩
          by_cases same : v = p
          · exact Or.inl same
          · refine Or.inr ⟨alignedV, ?_, upper⟩
            have other : v.toNat ≠ p.toNat := fun equal => same (BitVec.toNat_inj.mp equal)
            unfold Aligned at aligned alignedV
            omega
    · have short : vend.toNat < p'.toNat := BitVec.lt_def.mp (BitVec.not_le.mp more)
      rw [if_neg more]
      refine ⟨free, sound, ?_, rfl⟩
      intro v
      constructor
      · exact Or.inl
      · rintro (member | ⟨-, lower, upper⟩)
        · exact member
        · omega

theorem aligned_PGROUNDUP (sz : AddrT) : Aligned (PGROUNDUP sz) := by
  have rounded : PGROUNDUP sz = PGROUNDDOWN (sz + (PGSIZE - 1)) := rfl
  rw [Aligned, rounded, toNat_PGROUNDDOWN]
  omega

theorem kinit1_spec {vstart vend : AddrT} {exc : Halt → Prop} (top : vend.toNat < 2 ^ 64 - 4096)
    (refused : exc .kfree) :
    wp (kinit1 vstart vend) s (fun _ t => ∃ free, Sound t [] free ∧
      (∀ v, v ∈ free ↔ Managed (PGROUNDUP vstart) vend v) ∧ t.kend = s.kend) exc := by
  rw [kinit1, wp_bind, wp_modify, freerange]
  have fuel : (vend.toNat - (PGROUNDUP vstart).toNat) / 4096 <
      (vend - PGROUNDUP vstart).toNat / 4096 + 1 := by
    rw [BitVec.toNat_sub]
    omega
  have aligned := aligned_PGROUNDUP vstart
  generalize (vend - PGROUNDUP vstart).toNat / 4096 + 1 = turns at fuel ⊢
  generalize PGROUNDUP vstart = start at *
  refine wp_mono (freerangeLoop_spec top refused turns start _ [] (sound_none rfl) aligned fuel
    (by simp)) ?_
  rintro _ t ⟨free, sound, members, kend⟩
  exact ⟨free, sound, fun v => by simpa using members v, kend⟩

section Returned

-- The elaborator is not to run `kinit1`.
attribute [local irreducible] wp

theorem kinit1_sound {vstart vend : AddrT} {x : Unit} (top : vend.toNat < 2 ^ 64 - 4096)
    (done : kinit1 vstart vend s = .ok (x, t)) :
    ∃ free, Sound t [] free ∧ (∀ v, v ∈ free ↔ Managed (PGROUNDUP vstart) vend v) ∧
      t.kend = s.kend := by
  have call := @kinit1_spec s vstart vend (fun _ => True) top trivial
  exact wp_ok call done

theorem kvmalloc_spec {exc : Halt → Prop} (sound : Sound s [] free) (oom : exc .outOfMemory) :
    wp kvmalloc s (fun _ t => ∃ rest, free = t.kpml4 :: t.kpdpt :: rest ∧ Sound t [] rest ∧
      t.kend = s.kend) exc := by
  rw [kvmalloc, wp_bind]
  refine wp_kalloc sound (fun _ => oom) ?_
  rintro kpml4 free rfl
  have first : Sound (takenPage s kpml4 fun _ => 0) [] free := takenPage_sound sound
  rw [wp_bind, zeroPage, wp_modify, wp_bind]
  refine wp_kalloc first (fun _ => oom) ?_
  rintro kpdpt rest rfl
  have second : Sound (takenPage (takenPage s kpml4 fun _ => 0) kpdpt fun _ => 0) [] rest :=
    takenPage_sound first
  have distinct := sound.nodup
  simp only [List.nodup_cons, List.mem_cons, not_or] at distinct
  simp only [zeroPage, setWord, wp_bind, wp_modify]
  refine ⟨rest, rfl, second.keep ?_ rfl rfl, rfl⟩
  -- Only the two tables are written.
  rintro p (⟨r, root, -⟩ | member)
  · exact absurd root List.not_mem_nil
  · have other : p ≠ kpml4 ∧ p ≠ kpdpt :=
      ⟨fun same => distinct.1.2 (same ▸ member), fun same => distinct.2.1 (same ▸ member)⟩
    funext j
    simp only [Memory.setWord_page, other.1, other.2, false_and, if_false]
    rfl

end Returned

end Xv6Tracing.Vm
