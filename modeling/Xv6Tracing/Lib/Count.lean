import Mathlib.Tactic
import Mathlib.Data.Fintype.Card

/-!
# Counting the members of a finite family that are in some condition

A counter that a program keeps by hand is right when it equals `countP`; the
lemmas say how the count moves when one member changes.
-/

set_option autoImplicit false

namespace Xv6Tracing.Lib

open Function (update update_eq_self update_idem update_of_ne update_self)

universe u v

section Count

variable {P : Type u} [Fintype P] {A : Type v} (good : A → Prop) [DecidablePred good]

def countP (f : P → A) : Nat := (Finset.univ.filter fun p => good (f p)).card

variable {good}

variable {f : P → A} {p : P} {a : A}

theorem countP_congr {g : P → A} (same : ∀ p, good (f p) ↔ good (g p)) :
    countP good f = countP good g := by
  simp only [countP, same]

theorem countP_eq_zero (zero : countP good f = 0) (p : P) : ¬ good (f p) := by
  intro holds
  have member : p ∈ Finset.univ.filter fun q => good (f q) := by simp [holds]
  rw [Finset.card_eq_zero.mp zero] at member
  simp at member

theorem countP_pos (holds : good (f p)) : 0 < countP good f := by
  apply Finset.card_pos.mpr
  exact ⟨p, by simp [holds]⟩

theorem exists_of_countP_pos (positive : 0 < countP good f) : ∃ p, good (f p) := by
  obtain ⟨p, member⟩ := Finset.card_pos.mp positive
  exact ⟨p, (Finset.mem_filter.mp member).2⟩

theorem eq_of_countP_eq_one (one : countP good f = 1) {q : P} (holdsP : good (f p))
    (holdsQ : good (f q)) : q = p := by
  obtain ⟨r, only⟩ := Finset.card_eq_one.mp one
  have atP : p ∈ Finset.univ.filter fun q => good (f q) := by simp [holdsP]
  have atQ : q ∈ Finset.univ.filter fun q => good (f q) := by simp [holdsQ]
  rw [only, Finset.mem_singleton] at atP atQ
  exact atQ.trans atP.symm

variable [DecidableEq P]

theorem countP_update_enter (before : ¬ good (f p))
    (after : good a) : countP good (update f p a) = countP good f + 1 := by
  have grown : (Finset.univ.filter fun q => good (update f p a q)) =
      insert p (Finset.univ.filter fun q => good (f q)) := by
    ext q
    by_cases same : q = p
    · subst same
      simp [after]
    · simp [same]
  rw [countP, grown, Finset.card_insert_of_notMem (by simp [before])]
  rfl

theorem countP_update_leave (before : good (f p))
    (after : ¬ good a) : countP good (update f p a) + 1 = countP good f := by
  have back : update (update f p a) p (f p) = f := by
    rw [update_idem, update_eq_self]
  have grown := countP_update_enter (f := update f p a) (p := p) (a := f p)
    (by simpa using after) before
  rw [back] at grown
  exact grown.symm

theorem countP_update_same (same : good (f p) ↔ good a) :
    countP good (update f p a) = countP good f := by
  apply countP_congr
  intro q
  by_cases here : q = p
  · subst here
    simp [same]
  · simp [here]

end Count

/-! ## Reference counts

`entry` says which object a member refers to, if any. -/

section References

variable {P : Type u} [Fintype P] [DecidableEq P] {A : Type v} {B : Type*} [DecidableEq B]
  {entry : A → Option B} {f g : P → A} {p : P} {a : A} {b : B}

theorem references_same (changed : g = update f p a) (same : entry (f p) = entry a)
    (c : B) : countP (fun x => entry x = some c) g = countP (fun x => entry x = some c) f := by
  rw [changed]
  exact countP_update_same (by rw [same])

theorem references_add (changed : g = update f p a) (before : entry (f p) = none)
    (after : entry a = some b) (c : B) :
    countP (fun x => entry x = some c) g =
      countP (fun x => entry x = some c) f + if c = b then 1 else 0 := by
  rw [changed]
  split
  · rename_i same
    subst same
    exact countP_update_enter (by rw [before]; simp) after
  · rename_i other
    exact countP_update_same (by simp [before, after, Ne.symm other])

theorem references_drop (changed : g = update f p a) (before : entry (f p) = some b)
    (after : entry a = none) (c : B) :
    countP (fun x => entry x = some c) g + (if c = b then 1 else 0) =
      countP (fun x => entry x = some c) f := by
  rw [changed]
  split
  · rename_i same
    subst same
    exact countP_update_leave before (by rw [after]; simp)
  · rename_i other
    rw [Nat.add_zero]
    exact countP_update_same (by simp [before, after, Ne.symm other])

end References

section Update

variable {P : Type u} [DecidableEq P] {A : Type v} {f g : P → A} {p : P} {a : A}

theorem update_cases (changed : g = update f p a) (q : P) :
    q = p ∧ g q = a ∨ q ≠ p ∧ g q = f q := by
  subst changed
  by_cases here : q = p
  · subst here
    exact Or.inl ⟨rfl, update_self ..⟩
  · exact Or.inr ⟨here, update_of_ne here ..⟩

theorem exists_update_same (good : A → Prop) (same : good (f p) ↔ good a) :
    (∃ q, good (update f p a q)) ↔ ∃ q, good (f q) := by
  apply exists_congr
  intro q
  by_cases here : q = p
  · subst here
    simp [same]
  · simp [here]

end Update

section Sum

variable {P : Type u} [DecidableEq P]

/-- Two sums whose terms agree but at one place differ as those two terms do. -/
theorem sum_differ_at_mem {f g : P → Nat} {places : Finset P} {p : P} (mem : p ∈ places)
    (others : ∀ q, q ≠ p → f q = g q) :
    ∑ q ∈ places, f q + g p = ∑ q ∈ places, g q + f p := by
  have rest : ∑ q ∈ places.erase p, f q = ∑ q ∈ places.erase p, g q :=
    Finset.sum_congr rfl fun q member => others q (Finset.ne_of_mem_erase member)
  have splitF := Finset.add_sum_erase places f mem
  have splitG := Finset.add_sum_erase places g mem
  omega

theorem sum_differ_at [Fintype P] {f g : P → Nat} (p : P) (others : ∀ q, q ≠ p → f q = g q) :
    ∑ q, f q + g p = ∑ q, g q + f p :=
  sum_differ_at_mem (Finset.mem_univ p) others

end Sum

end Xv6Tracing.Lib
