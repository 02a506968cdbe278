import Mathlib.Tactic

/-!
# Pre- and postconditions of programs that may stop

A program reads and writes a state and may stop with a reason.  `wp m s post exc`
says that `m`, started in `s`, ends with a value and a state that meet `post`, or
stops with a reason that meets `exc`.
-/

set_option autoImplicit false

namespace Xv6Tracing.Lib

variable {σ ε α β : Type}

abbrev Prog (σ ε α : Type) : Type := StateT σ (Except ε) α

def wp (m : Prog σ ε α) (s : σ) (post : α → σ → Prop) (exc : ε → Prop) : Prop :=
  match m s with
  | .ok (a, t) => post a t
  | .error e => exc e

section Rules

variable {post : α → σ → Prop} {exc : ε → Prop} {s : σ}

@[simp] theorem wp_pure (a : α) : wp (pure a) s post exc ↔ post a s := Iff.rfl

@[simp] theorem wp_throw (e : ε) : wp (throw e : Prog σ ε α) s post exc ↔ exc e := Iff.rfl

@[simp] theorem wp_get {after : σ → σ → Prop} :
    wp (get : Prog σ ε σ) s after exc ↔ after s s := Iff.rfl

variable {after : PUnit → σ → Prop} {m : Prog σ ε α}

@[simp] theorem wp_set (t : σ) :
    wp (set t : Prog σ ε PUnit) s after exc ↔ after ⟨⟩ t := Iff.rfl

@[simp] theorem wp_modify (f : σ → σ) :
    wp (modify f : Prog σ ε PUnit) s after exc ↔ after ⟨⟩ (f s) := Iff.rfl

@[simp] theorem wp_bind {f : α → Prog σ ε β} {after : β → σ → Prop} :
    wp (m >>= f) s after exc ↔ wp m s (fun a t => wp (f a) t after exc) exc := by
  simp only [wp, bind, StateT.bind, Except.bind]
  cases m s with
  | error e => rfl
  | ok r => rfl

@[simp] theorem wp_discard :
    wp (discard m) s after exc ↔ wp m s (fun _ t => after ⟨⟩ t) exc := by
  simp only [wp, discard, Functor.mapConst, StateT.map, Function.comp_apply, bind, Except.bind]
  cases m s with
  | error e => rfl
  | ok r => rfl

theorem wp_conseq {post' : α → σ → Prop} {exc' : ε → Prop}
    (first : wp m s post exc) (implies : ∀ a t, post a t → post' a t)
    (stops : ∀ e, exc e → exc' e) : wp m s post' exc' := by
  unfold wp at first ⊢
  split at first
  · exact implies _ _ first
  · exact stops _ first

theorem wp_mono {post' : α → σ → Prop} (first : wp m s post exc)
    (implies : ∀ a t, post a t → post' a t) : wp m s post' exc :=
  wp_conseq first implies fun _ stopped => stopped

theorem wp_call {f : α → Prog σ ε β} {after : β → σ → Prop}
    (first : wp m s post exc) (rest : ∀ a t, post a t → wp (f a) t after exc) :
    wp (m >>= f) s after exc :=
  wp_bind.mpr (wp_mono first rest)

theorem wp_ok {a : α} {t : σ} (holds : wp m s post exc)
    (success : m s = .ok (a, t)) : post a t := by
  simpa only [wp, success] using holds

end Rules

def zoom {τ δ : Type} (part : τ → σ) (put : σ → τ → τ) (err : ε → δ) (m : Prog σ ε α) :
    Prog τ δ α := fun s =>
  match m (part s) with
  | .ok (a, t) => .ok (a, put t s)
  | .error e => .error (err e)

variable {m : Prog σ ε α} {post : α → σ → Prop} {s : σ}

theorem wp_zoom {τ δ : Type} {part : τ → σ} {put : σ → τ → τ} {err : ε → δ}
    {s : τ} {post : α → τ → Prop} {exc : δ → Prop} :
    wp (zoom part put err m) s post exc ↔
      wp m (part s) (fun a t => post a (put t s)) fun e => exc (err e) := by
  unfold wp zoom
  cases m (part s) with
  | error e => rfl
  | ok result => rfl

theorem wp_and {post' : α → σ → Prop} {exc : ε → Prop}
    (first : wp m s post exc) (second : wp m s post' exc) :
    wp m s (fun a t => post a t ∧ post' a t) exc := by
  unfold wp at first second ⊢
  split
  · rename_i done
    rw [done] at first second
    exact ⟨first, second⟩
  · rename_i failed
    rw [failed] at first
    exact first

def stops (m : Prog σ ε α) (s : σ) : Option ε :=
  match m s with
  | .ok _ => none
  | .error e => some e

theorem wp_stops {exc : ε → Prop} {e : ε}
    (holds : wp m s post exc) (stopped : stops m s = some e) : exc e := by
  unfold wp at holds
  unfold stops at stopped
  split at stopped
  · cases stopped
  · rename_i failed
    cases stopped
    rw [failed] at holds
    exact holds

theorem exists_of_wp (holds : wp m s post fun _ => False) : ∃ a t, m s = .ok (a, t) ∧ post a t := by
  unfold wp at holds
  split at holds
  · exact ⟨_, _, by assumption, holds⟩
  · exact absurd holds not_false

def returns (m : Prog σ ε α) (s : σ) (check : α → σ → Bool) : Bool :=
  match m s with
  | .ok (a, t) => check a t
  | .error _ => false

theorem exists_of_returns {check : α → σ → Bool}
    (passes : returns m s check = true) : ∃ a t, m s = .ok (a, t) ∧ check a t = true := by
  unfold returns at passes
  split at passes
  · exact ⟨_, _, by assumption, passes⟩
  · cases passes

/-! ## What a program leaves alone -/

def Keeps {γ : Type} (part : σ → γ) (m : Prog σ ε α) : Prop :=
  ∀ s, wp m s (fun _ t => part t = part s) fun _ => True

section Keeps

variable {γ : Type} {part : σ → γ}

theorem keeps_pure (a : α) : Keeps part (pure a : Prog σ ε α) := fun _ => rfl

theorem keeps_throw (e : ε) : Keeps part (throw e : Prog σ ε α) := fun _ => trivial

theorem keeps_modify {f : σ → σ} (same : ∀ s, part (f s) = part s) :
    Keeps part (modify f : Prog σ ε PUnit) := same

theorem Keeps.bind {m : Prog σ ε α} {f : α → Prog σ ε β} (first : Keeps part m)
    (rest : ∀ a, Keeps part (f a)) : Keeps part (m >>= f) := by
  intro s
  refine wp_call (first s) fun a t kept => ?_
  exact wp_mono (rest a t) fun _ _ kept' => kept'.trans kept

theorem keeps_get_bind {f : σ → Prog σ ε β}
    (rest : ∀ s, wp (f s) s (fun _ t => part t = part s) fun _ => True) :
    Keeps part (get >>= f) := by
  intro s
  rw [wp_bind, wp_get]
  exact rest s

end Keeps

end Xv6Tracing.Lib
