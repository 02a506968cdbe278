import Mathlib.Tactic

/-!
# Locks and program points

A lock has at most one holder, and a thread holds it exactly at the program points
of a critical section.  Each thread moves from point to point on its own.
-/

set_option autoImplicit false

namespace Xv6Tracing.Lib

variable {T Point : Type}

def Excl (inside : Point → Bool) (lock : Option T) (pc : T → Point) : Prop :=
  ∀ t, inside (pc t) = true ↔ lock = some t

variable {inside : Point → Bool} {lock : Option T} {pc : T → Point}

variable {t : T} {next : Point}

theorem Excl.unique (excl : Excl inside lock pc) {u : T} (first : inside (pc t) = true)
    (second : inside (pc u) = true) : t = u := by
  have holder := (excl t).mp first
  rw [(excl u).mp second] at holder
  exact (Option.some.inj holder).symm

theorem Excl.outside (excl : Excl inside lock pc) {u : T} (other : u ≠ t)
    (first : inside (pc t) = true) : inside (pc u) = false := by
  by_contra found
  exact other (excl.unique (Bool.eq_true_of_not_eq_false found) first)

theorem Excl.free (excl : Excl inside lock pc) (free : lock = none) (t : T) :
    inside (pc t) = false := by
  by_contra found
  have holder := (excl t).mp (Bool.eq_true_of_not_eq_false found)
  rw [free] at holder
  cases holder

variable [DecidableEq T]

theorem Excl.stay (excl : Excl inside lock pc)
    (same : inside next = inside (pc t)) : Excl inside lock (Function.update pc t next) := by
  intro u
  by_cases self : u = t
  · subst self
    rw [Function.update_self, same]
    exact excl u
  · rw [Function.update_of_ne self]
    exact excl u

theorem Excl.take (excl : Excl inside lock pc) (free : lock = none)
    (enters : inside next = true) : Excl inside (some t) (Function.update pc t next) := by
  intro u
  by_cases self : u = t
  · subst self
    rw [Function.update_self]
    exact iff_of_true enters rfl
  · rw [Function.update_of_ne self, excl.free free u]
    exact iff_of_false (by simp) (fun same => self (Option.some.inj same).symm)

theorem Excl.give (excl : Excl inside lock pc) (holds : inside (pc t) = true) (leaves : inside next = false) :
    Excl inside (none : Option T) (Function.update pc t next) := by
  intro u
  by_cases self : u = t
  · subst self
    rw [Function.update_self, leaves]
    simp
  · rw [Function.update_of_ne self, excl.outside self holds]
    simp

end Xv6Tracing.Lib
