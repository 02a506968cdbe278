import Mathlib.Tactic

/-!
# Singly linked lists

A list of nodes in memory is a pointer to the first one and a `next` field in each.
-/

set_option autoImplicit false

namespace Xv6Tracing.Lib

universe u

variable {B : Type u} {next next' : B → Option B} {head : Option B} {l : List B} {b c : B}

/-- The nodes from `head` on are those of the list. -/
def Linked (next : B → Option B) : Option B → List B → Prop
  | head, [] => head = none
  | head, b :: l => head = some b ∧ Linked next (next b) l

section

variable (linked : Linked next head l)

include linked

theorem Linked.head?_eq : head = l.head? := by
  cases l with
  | nil => exact linked
  | cons b l => exact linked.1

theorem Linked.congr (same : ∀ b ∈ l, next' b = next b) :
    Linked next' head l := by
  induction l generalizing head with
  | nil => exact linked
  | cons b l ih =>
    refine ⟨linked.1, ?_⟩
    rw [same b List.mem_cons_self]
    exact ih linked.2 fun c member => same c (List.mem_cons_of_mem b member)

theorem Linked.next_mem (member : b ∈ l) (follows : next b = some c) :
    c ∈ l := by
  induction l generalizing head with
  | nil => cases member
  | cons d l ih =>
    rcases List.mem_cons.mp member with rfl | later
    · have first := linked.2.head?_eq
      rw [follows] at first
      exact List.mem_cons_of_mem b (List.mem_of_head? first.symm)
    · exact List.mem_cons_of_mem d (ih linked.2 later)

theorem Linked.append [DecidableEq B] (nodup : l.Nodup)
    (member : b ∈ l) (last : next b = none) (new : c ∉ l) (ends : next c = none) :
    Linked (Function.update next b (some c)) head (l ++ [c]) := by
  induction l generalizing head with
  | nil => cases member
  | cons d l ih =>
    obtain ⟨first, rest⟩ := linked
    obtain ⟨apart, nodup⟩ := List.nodup_cons.mp nodup
    have newTail : c ∉ l := fun there => new (List.mem_cons_of_mem d there)
    refine ⟨first, ?_⟩
    rcases List.mem_cons.mp member with rfl | later
    · have empty : l = [] := by
        have none := rest.head?_eq
        rw [last] at none
        exact List.head?_eq_none_iff.mp none.symm
      have other : c ≠ b := fun same => new (same ▸ List.mem_cons_self)
      subst empty
      rw [Function.update_self]
      exact ⟨rfl, (Function.update_of_ne other _ _).trans ends⟩
    · have other : d ≠ b := fun same => apart (same ▸ later)
      rw [Function.update_of_ne other]
      exact ih rest nodup later newTail

end

end Xv6Tracing.Lib
