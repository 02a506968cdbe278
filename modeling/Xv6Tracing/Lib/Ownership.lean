import Mathlib.Tactic

/-!
# Ownership of blocks

Holders of an arbitrary type hold numbered blocks, each at most one; a holder
without a block has 0.  `Owns own used` says that the blocks in use are exactly
the held ones and that no block has two holders.
-/

set_option autoImplicit false

namespace Xv6Tracing.Lib

variable {ι : Type} {own : ι → Nat} {used used' : Nat → Prop}

structure Owns (own : ι → Nat) (used : Nat → Prop) : Prop where
  held : ∀ b, used b ↔ b ≠ 0 ∧ ∃ x, own x = b
  apart : ∀ x y, own x ≠ 0 → own x = own y → x = y

namespace Owns

theorem used_own (owns : Owns own used) {x : ι} (holds : own x ≠ 0) : used (own x) :=
  (owns.held _).mpr ⟨holds, x, rfl⟩

theorem own_ne (owns : Owns own used) {b : Nat} (unused : ¬used b) (nonzero : b ≠ 0) (x : ι) :
    own x ≠ b := by
  intro holds
  exact unused ((owns.held b).mpr ⟨nonzero, x, holds⟩)

theorem congr (owns : Owns own used) (same : ∀ b, used' b ↔ used b) : Owns own used' where
  held b := (same b).trans (owns.held b)
  apart := owns.apart

variable [DecidableEq ι]

theorem take (owns : Owns own used) {x : ι} {b : Nat} (without : own x = 0) (nonzero : b ≠ 0)
    (unused : ¬used b) : Owns (Function.update own x b) (fun c => c = b ∨ used c) := by
  have other : ∀ y, own y ≠ b := owns.own_ne unused nonzero
  refine ⟨fun c => ?_, fun y z holds same => ?_⟩
  · constructor
    · rintro (rfl | inUse)
      · exact ⟨nonzero, x, Function.update_self ..⟩
      · obtain ⟨pos, y, holds⟩ := (owns.held c).mp inUse
        refine ⟨pos, y, ?_⟩
        rw [Function.update_of_ne (by rintro rfl; exact pos (holds.symm.trans without))]
        exact holds
    · rintro ⟨pos, y, holds⟩
      by_cases mine : y = x
      · subst mine
        rw [Function.update_self] at holds
        exact Or.inl holds.symm
      · rw [Function.update_of_ne mine] at holds
        exact Or.inr ((owns.held c).mpr ⟨pos, y, holds⟩)
  · by_cases first : y = x
    · by_cases second : z = x
      · rw [first, second]
      · subst first
        rw [Function.update_self, Function.update_of_ne second] at same
        exact absurd same.symm (other z)
    · rw [Function.update_of_ne first] at holds same
      by_cases second : z = x
      · subst second
        rw [Function.update_self] at same
        exact absurd same (other y)
      · rw [Function.update_of_ne second] at same
        exact owns.apart y z holds same

end Owns

end Xv6Tracing.Lib
