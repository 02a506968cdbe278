import Mathlib.Tactic

/-!
# Runs of a partial step function

A system is a step function that may stop.  `run` chains it over a list of
operations.  `Along` says that every step taken meets a condition in the state
before it, `Throughout` that every state reached, the first included, is good.
-/

set_option autoImplicit false

namespace Xv6Tracing.Lib

universe u v w

section Run

variable {State : Type u} {Op : Type v} (step : State → Op → Option State)

def run : State → List Op → Option State
  | s, [] => some s
  | s, op :: ops =>
    match step s op with
    | none => none
    | some t => run t ops

def Along (cond : State → Op → Prop) : State → List Op → Prop
  | _, [] => True
  | s, op :: ops => cond s op ∧ ∀ t, step s op = some t → Along cond t ops

def Throughout (good : State → Prop) : State → List Op → Prop
  | s, [] => good s
  | s, op :: ops => good s ∧ ∀ t, step s op = some t → Throughout good t ops

instance decidableAlong (cond : State → Op → Prop) [∀ s op, Decidable (cond s op)] :
    ∀ (ops : List Op) (s : State), Decidable (Along step cond s ops)
  | [], _ => isTrue trivial
  | op :: ops, s =>
    match taken : step s op with
    | none => decidable_of_iff (cond s op) (by simp [Along, taken])
    | some t =>
      have : Decidable (Along step cond t ops) := decidableAlong cond ops t
      decidable_of_iff (cond s op ∧ Along step cond t ops) (by simp [Along, taken])

instance decidableThroughout (good : State → Prop) [DecidablePred good] :
    ∀ (ops : List Op) (s : State), Decidable (Throughout step good s ops)
  | [], s => inferInstanceAs (Decidable (good s))
  | op :: ops, s =>
    match taken : step s op with
    | none => decidable_of_iff (good s) (by simp [Throughout, taken])
    | some t =>
      have : Decidable (Throughout step good t ops) := decidableThroughout good ops t
      decidable_of_iff (good s ∧ Throughout step good t ops) (by simp [Throughout, taken])

variable {step}

variable {ops : List Op} {cond : State → Op → Prop} {inv good : State → Prop}

theorem run_cons_of_step {s t : State} {op : Op} (taken : step s op = some t) :
    run step s (op :: ops) = run step t ops := by
  simp [run, taken]

theorem run_cons_eq_some {s u : State} {op : Op} (success : run step s (op :: ops) = some u) :
    ∃ t, step s op = some t ∧ run step t ops = some u := by
  rw [run] at success
  cases taken : step s op with
  | none => simp [taken] at success
  | some t => exact ⟨t, rfl, by simpa [taken] using success⟩

theorem along_congr {cond' : State → Op → Prop} (same : ∀ s op, cond s op ↔ cond' s op) :
    ∀ (ops : List Op) (s : State), Along step cond s ops ↔ Along step cond' s ops := by
  intro ops
  induction ops with
  | nil => intro s; exact Iff.rfl
  | cons op ops ih =>
    intro s
    simp only [Along, same s op, ih]

section

variable (kept : ∀ s op t, inv s → cond s op → step s op = some t → inv t)

include kept

/-- An invariant kept by the steps that meet a condition holds throughout every
run whose steps all meet it. -/
theorem throughout_of_along
    (implies : ∀ s, inv s → good s) :
    ∀ (ops : List Op) (s : State), inv s → Along step cond s ops →
      Throughout step good s ops := by
  intro ops
  induction ops with
  | nil => intro s holds _; exact implies s holds
  | cons op ops ih =>
    intro s holds meets
    refine ⟨implies s holds, ?_⟩
    intro t taken
    exact ih t (kept s op t holds meets.1 taken) (meets.2 t taken)

/-- When a step that misses the condition always leads to a bad state, the
condition is exactly what keeps a run good. -/
theorem throughout_iff_along
    (implies : ∀ s, inv s → good s)
    (needed : ∀ s op, inv s → ¬ cond s op → ∃ t, step s op = some t ∧ ¬ good t) :
    ∀ (ops : List Op) (s : State), inv s →
      (Throughout step good s ops ↔ Along step cond s ops) := by
  intro ops s holds
  refine ⟨?_, throughout_of_along kept implies ops s holds⟩
  induction ops generalizing s with
  | nil => intro _; trivial
  | cons op ops ih =>
    intro good
    have meets : cond s op := by
      by_contra misses
      obtain ⟨t, taken, bad⟩ := needed s op holds misses
      have goodNext := good.2 t taken
      cases ops with
      | nil => exact bad goodNext
      | cons _ _ => exact bad goodNext.1
    exact ⟨meets, fun t taken => ih t (kept s op t holds meets taken) (good.2 t taken)⟩

theorem run_invariant_along :
    ∀ (ops : List Op) (s u : State), inv s → Along step cond s ops →
      run step s ops = some u → inv u := by
  intro ops
  induction ops with
  | nil =>
    intro s u holds _ success
    cases Option.some.inj success
    exact holds
  | cons op ops ih =>
    intro s u holds meets success
    obtain ⟨t, taken, rest⟩ := run_cons_eq_some success
    exact ih t u (kept s op t holds meets.1 taken) (meets.2 t taken) rest

end

theorem along_of_forall {cond : Op → Prop} (meets : ∀ op ∈ ops, cond op)
    (s : State) : Along step (fun _ op => cond op) s ops := by
  induction ops generalizing s with
  | nil => trivial
  | cons op ops ih =>
    rw [List.forall_mem_cons] at meets
    exact ⟨meets.1, fun t _ => ih meets.2 t⟩

theorem along_true (ops : List Op) (s : State) : Along step (fun _ _ => True) s ops := by
  induction ops generalizing s with
  | nil => trivial
  | cons op ops ih => exact ⟨trivial, fun t _ => ih t⟩

section

variable (kept : ∀ s op t, inv s → step s op = some t → inv t)

include kept

theorem along_invariant
    (implies : ∀ s op, inv s → cond s op) :
    ∀ (ops : List Op) (s : State), inv s → Along step cond s ops := by
  intro ops
  induction ops with
  | nil => intro s _; trivial
  | cons op ops ih =>
    intro s holds
    exact ⟨implies s op holds, fun t taken => ih t (kept s op t holds taken)⟩

theorem throughout_invariant (implies : ∀ s, inv s → good s)
    (ops : List Op) (s : State) (holds : inv s) : Throughout step good s ops :=
  throughout_of_along (fun s op t holds _ taken => kept s op t holds taken) implies ops s holds
    (along_true ops s)

theorem run_invariant
    (ops : List Op) (s u : State) (holds : inv s) (success : run step s ops = some u) :
    inv u :=
  run_invariant_along (fun s op t holds _ taken => kept s op t holds taken) ops s u holds
    (along_true ops s) success

end

/-- What a run uses up stays within the bound on all of its operations
together. -/
theorem along_of_budget {used : State → Nat} {weight : Op → Nat} {bound : Nat}
    (grows : ∀ s op t, step s op = some t → used t ≤ used s + weight op) :
    ∀ (ops : List Op) (s : State), used s + (ops.map weight).sum ≤ bound →
      Along step (fun s op => used s + weight op ≤ bound) s ops := by
  intro ops
  induction ops with
  | nil => intro s _; trivial
  | cons op ops ih =>
    intro s enough
    rw [List.map_cons, List.sum_cons] at enough
    refine ⟨by omega, fun t taken => ih t ?_⟩
    have := grows s op t taken
    omega

/-- Steps that use up a size make a run no longer than the size at its start. -/
theorem length_le_of_run {size : State → Nat} (kept : ∀ s op t, inv s → step s op = some t → inv t)
    (less : ∀ s op t, inv s → step s op = some t → size t < size s) :
    ∀ (ops : List Op) (s u : State), inv s → run step s ops = some u → ops.length ≤ size s := by
  intro ops
  induction ops with
  | nil => intro s u _ _; exact Nat.zero_le _
  | cons op ops ih =>
    intro s u holds success
    obtain ⟨t, taken, rest⟩ := run_cons_eq_some success
    have first := less s op t holds taken
    have later := ih t u (kept s op t holds taken) rest
    rw [List.length_cons]
    omega

/-! ## Refinement -/

inductive Steps {Abs : Type w} (allowed : Abs → Op → Abs → Prop) : Abs → List Op → Abs → Prop
  | nil (a : Abs) : Steps allowed a [] a
  | cons {a b c : Abs} {op : Op} {ops : List Op} (first : allowed a op b)
      (rest : Steps allowed b ops c) : Steps allowed a (op :: ops) c

/-- Steps that the abstract system can follow make runs that it can follow. -/
theorem run_refines {Abs : Type w} {allowed : Abs → Op → Abs → Prop} {rel : State → Abs → Prop}
    (follows : ∀ s a op t, rel s a → cond s op → step s op = some t →
      ∃ b, allowed a op b ∧ rel t b) :
    ∀ (ops : List Op) (s u : State) (a : Abs), rel s a → Along step cond s ops →
      run step s ops = some u → ∃ b, Steps allowed a ops b ∧ rel u b := by
  intro ops
  induction ops with
  | nil =>
    intro s u a related _ success
    cases Option.some.inj success
    exact ⟨a, .nil a, related⟩
  | cons op ops ih =>
    intro s u a related meets success
    obtain ⟨t, taken, rest⟩ := run_cons_eq_some success
    obtain ⟨b, first, related'⟩ := follows s a op t related meets.1 taken
    obtain ⟨c, later, last⟩ := ih t u b related' (meets.2 t taken) rest
    exact ⟨c, .cons first later, last⟩

end Run

end Xv6Tracing.Lib
