import Xv6Tracing.Lib.Mutex
import Xv6Tracing.Sched.Moves

/-!
# Which CPU has which process

A CPU that holds `ptable.lock` may have chosen a process, be about to leave one, or
execute one; the others execute processes that are `RUNNING`.  No two CPUs have the same
process, and a thread that no CPU executes waits where it gave up its CPU.
-/

set_option autoImplicit false

namespace Xv6Tracing.Sched

open Function (update update_eq_self update_of_ne update_self)

open Lib

variable {C K L : Type}

/-! ## The invariant -/

def Alive (state : ProcState) : Prop :=
  state = .SLEEPING ∨ state = .RUNNABLE ∨ state = .RUNNING

@[simp] theorem not_alive_unused : ¬ Alive .UNUSED := by simp [Alive]

@[simp] theorem not_alive_embryo : ¬ Alive .EMBRYO := by simp [Alive]

@[simp] theorem not_alive_zombie : ¬ Alive .ZOMBIE := by simp [Alive]

theorem alive_running : Alive .RUNNING := Or.inr (Or.inr rfl)

def Loc.proc : Loc K L → Option (Fin NPROC)
  | .picked p | .loaded p | .marked p | .back p | .kernel p | .thread p => some p
  | _ => none

def Loc.table : Loc K L → Option (Fin NPROC)
  | .loaded p | .marked p | .back p | .thread p => some p
  | _ => none

def Loc.stack : Loc K L → Option (Fin NPROC)
  | .thread p => some p
  | _ => none

def Loc.Allows (pc : Pc K L) : Loc K L → ProcState → Prop
  | .picked _, state | .loaded _, state => state = .RUNNABLE
  | .marked _, state => state = .RUNNING
  | .back _, state | .kernel _, state =>
    state = .RUNNABLE ∨ state = .SLEEPING ∨ state = .ZOMBIE
  | .thread _, state => state = pc.state
  | _, _ => False

/-- Whether a CPU holds `ptable.lock`. -/
def Core.inside (s : Core C K L) (c : C) : Bool :=
  match s.loc c with
  | .idle => false
  | .handler pc => pc.inside
  | .thread p => (s.pc p).inside
  | _ => true

inductive Pc.Resumes : Pc K L → Prop
  | yieldRelease (ret : Pc K L) : Resumes (.yieldRelease ret)
  | sleepTidy (lk : Lk L) (ret : Pc K L) : Resumes (.sleepTidy lk ret)
  | forkret : Resumes .forkret

theorem Pc.Resumes.inside {pc : Pc K L} (resumes : pc.Resumes) : pc.inside = true := by
  cases resumes <;> rfl

theorem Pc.Resumes.state {pc : Pc K L} (resumes : pc.Resumes) : pc.state = .RUNNING := by
  cases resumes <;> rfl

structure Placed (s : Core C K L) : Prop where
  lock : Excl id s.lk s.inside
  proc : ∀ c, s.proc c = (s.loc c).proc
  allows : ∀ c p, (s.loc c).proc = some p → (s.loc c).Allows (s.pc p) (s.state p)
  unique : ∀ c d p, (s.loc c).proc = some p → (s.loc d).proc = some p → c = d
  running : ∀ p, s.state p = .RUNNING → ∃ c, (s.loc c).proc = some p
  parked : ∀ p, Alive (s.state p) → (∀ c, s.loc c ≠ .thread p) →
    s.context p = s.pc p ∧ (s.pc p).Resumes
  wf : ∀ p, (s.pc p).Wf
  handler : ∀ c pc, s.loc c = .handler pc → pc.Wf ∧ pc.work = .none

/-! ## Code moves -/

section Code

variable {s : Core C K L} {c : C} {old new : Pc K L}

theorem code_cases (here : s.code c = some old) :
    s.loc c = .handler old ∨ ∃ p, s.loc c = .thread p ∧ s.pc p = old := by
  unfold Core.code at here
  split at here
  · rename_i p at_
    exact Or.inr ⟨p, at_, Option.some.inj here⟩
  · rename_i pc at_
    rw [Option.some.inj here] at at_
    exact Or.inl at_
  · cases here

theorem inside_of_code (here : s.code c = some old) : s.inside c = old.inside := by
  rcases code_cases here with at_ | ⟨p, at_, rfl⟩
  · rw [Core.inside, at_]
  · rw [Core.inside, at_]

theorem Placed.wf_of_code (placed : Placed s) (here : s.code c = some old) : old.Wf := by
  rcases code_cases here with at_ | ⟨p, at_, rfl⟩
  · exact (placed.handler c old at_).1
  · exact placed.wf p

variable [DecidableEq C]

variable {p : Fin NPROC} {u : Core C K L}

theorem goto_thread (at_ : s.loc c = .thread p) :
    s.goto c new = { s with pc := update s.pc p new } := by
  rw [Core.goto, at_]

theorem goto_handler (at_ : s.loc c = .handler old) :
    s.goto c new = { s with loc := update s.loc c (.handler new) } := by
  rw [Core.goto, at_]

/-- A move of the code on CPU `c` to `new`, where `u` is the state but for that. -/
structure CodeMove (s u : Core C K L) (c : C) (new : Pc K L) : Prop where
  loc : u.loc = s.loc
  proc : u.proc = s.proc
  pc : ∀ d p, s.loc d = .thread p → u.pc p = s.pc p
  wf : ∀ p, (u.pc p).Wf
  newWf : new.Wf
  lock : Excl id u.lk (Function.update s.inside c new.inside)
  own : ∀ p, s.loc c = .thread p → u.state p = new.state
  keep : ∀ d p, d ≠ c → (s.loc d).proc = some p → u.state p = s.state p
  running : ∀ p, u.state p = .RUNNING → s.state p = .RUNNING
  parked : ∀ p, Alive (u.state p) → (∀ d, s.loc d ≠ .thread p) →
    u.context p = u.pc p ∧ (u.pc p).Resumes

omit [DecidableEq C] in
theorem Placed.other_thread (placed : Placed s) {d : C} (here : s.loc c = .thread p)
    (other : d ≠ c) : (s.loc d).proc ≠ some p := by
  intro same
  exact other (placed.unique d c p same (by rw [here]; rfl))

theorem Placed.thread (placed : Placed s)
    (here : s.loc c = .thread p) (move : CodeMove s u c new) : Placed (u.goto c new) := by
  have at_ : u.loc c = .thread p := by rw [move.loc, here]
  have apart := fun d other => placed.other_thread (d := d) here other
  rw [goto_thread at_]
  have inside : ({ u with pc := update u.pc p new } : Core C K L).inside =
      update s.inside c new.inside := by
    funext d
    by_cases self : d = c
    · subst self
      simp only [Core.inside, at_, update_self]
    · rw [update_of_ne self]
      have differs := apart d self
      unfold Core.inside
      rw [move.loc]
      cases place : s.loc d with
      | thread q =>
        rw [place] at differs
        have other : q ≠ p := fun same => differs (congrArg some same)
        simp only [update_of_ne other, move.pc d q place]
      | _ => rfl
  refine ⟨inside ▸ move.lock, ?_, ?_, ?_, ?_, ?_, ?_, ?_⟩
  · intro d
    rw [move.proc, move.loc]
    exact placed.proc d
  · intro d q chosen
    dsimp only at chosen ⊢
    rw [move.loc] at chosen ⊢
    by_cases self : d = c
    · subst self
      rw [here] at chosen ⊢
      cases chosen
      rw [update_self]
      exact move.own p here
    · have other : q ≠ p := by
        rintro rfl
        exact apart d self chosen
      have allowed := placed.allows d q chosen
      rw [move.keep d q self chosen]
      cases place : s.loc d with
      | thread q' =>
        rw [place] at chosen allowed
        cases chosen
        rw [update_of_ne other, move.pc d q place]
        exact allowed
      | _ =>
        rw [place] at allowed
        exact allowed
  · rw [move.loc]
    exact placed.unique
  · intro q runs
    rw [move.loc]
    exact placed.running q (move.running q runs)
  · intro q alive away
    rw [move.loc] at away
    have other : q ≠ p := by
      rintro rfl
      exact away c here
    dsimp only
    rw [update_of_ne other]
    exact move.parked q alive away
  · intro q
    dsimp only
    by_cases self : q = p
    · rw [self, update_self]
      exact move.newWf
    · rw [update_of_ne self]
      exact move.wf q
  · rw [move.loc]
    exact placed.handler

theorem Placed.handles (placed : Placed s) (here : s.loc c = .handler old)
    (move : CodeMove s u c new) (work : new.work = .none) : Placed (u.goto c new) := by
  have at_ : u.loc c = .handler old := by rw [move.loc, here]
  rw [goto_handler at_, move.loc]
  have proc : ∀ d, (update s.loc c (.handler new) d).proc = (s.loc d).proc := by
    intro d
    by_cases self : d = c
    · rw [self, update_self, here]
      rfl
    · rw [update_of_ne self]
  have thread : ∀ d p, update s.loc c (.handler new) d = .thread p ↔
      s.loc d = .thread p := by
    intro d p
    by_cases self : d = c
    · rw [self, update_self, here]
      simp only [reduceCtorEq]
    · rw [update_of_ne self]
  have inside : ({ u with loc := update s.loc c (.handler new) } : Core C K L).inside =
      update s.inside c new.inside := by
    funext d
    by_cases self : d = c
    · subst self
      simp only [Core.inside, update_self]
    · simp only [Core.inside, update_of_ne self]
      cases place : s.loc d with
      | thread q => simp only [move.pc d q place]
      | _ => rfl
  refine ⟨inside ▸ move.lock, ?_, ?_, ?_, ?_, ?_, move.wf, ?_⟩
  · intro d
    rw [move.proc]
    exact (placed.proc d).trans (proc d).symm
  · intro d q chosen
    dsimp only at chosen ⊢
    rw [proc] at chosen
    have self : d ≠ c := by
      rintro rfl
      rw [here] at chosen
      cases chosen
    have allowed := placed.allows d q chosen
    rw [update_of_ne self, move.keep d q self chosen]
    cases place : s.loc d with
    | thread q' =>
      rw [place] at chosen allowed
      cases chosen
      rw [move.pc d q place]
      exact allowed
    | _ =>
      rw [place] at allowed
      exact allowed
  · intro d e q first second
    dsimp only at first second
    rw [proc] at first second
    exact placed.unique d e q first second
  · intro q runs
    obtain ⟨d, chosen⟩ := placed.running q (move.running q runs)
    exact ⟨d, (proc d).trans chosen⟩
  · intro q alive away
    exact move.parked q alive fun d at' => away d ((thread d q).mpr at')
  · intro d pc at'
    dsimp only at at'
    by_cases self : d = c
    · rw [self, update_self] at at'
      cases at'
      exact ⟨move.newWf, work⟩
    · rw [update_of_ne self] at at'
      exact placed.handler d pc at'

theorem Placed.code (placed : Placed s) (here : s.code c = some old)
    (move : CodeMove s u c new) (work : old.work = .none → new.work = .none) :
    Placed (u.goto c new) := by
  rcases code_cases here with at_ | ⟨p, at_, -⟩
  · exact placed.handles at_ move (work (placed.handler c old at_).2)
  · exact placed.thread at_ move

end Code

/-! ## What the CPUs know of each other -/

section Placement

variable {s : Core C K L} {c d : C} {p : Fin NPROC}

theorem Placed.outside (placed : Placed s) (outside : s.inside c = false)
    (chosen : (s.loc c).proc = some p) : s.loc c = .thread p ∧ s.state p = .RUNNING := by
  have allowed := placed.allows c p chosen
  unfold Core.inside at outside
  cases place : s.loc c with
  | thread q =>
    rw [place] at chosen allowed outside
    cases chosen
    exact ⟨rfl, allowed.trans (Pc.state_of_outside outside)⟩
  | idle | handler =>
    rw [place] at chosen
    cases chosen
  | _ =>
    rw [place] at outside
    cases outside

theorem Placed.elsewhere (placed : Placed s) (held : s.inside c = true) (other : d ≠ c)
    (chosen : (s.loc d).proc = some p) : s.loc d = .thread p ∧ s.state p = .RUNNING :=
  placed.outside (placed.lock.outside other held) chosen

theorem Placed.nowhere (placed : Placed s)
    (state : s.state p = .EMBRYO ∨ s.state p = .UNUSED) : (s.loc c).proc ≠ some p := by
  intro chosen
  have allowed := placed.allows c p chosen
  cases place : s.loc c with
  | thread q =>
    rw [place] at allowed
    have kind : (s.pc p).state ≠ .EMBRYO ∧ (s.pc p).state ≠ .UNUSED := by
      unfold Pc.state
      split <;> decide
    rcases state with new | new <;> rw [new] at allowed
    · exact kind.1 allowed.symm
    · exact kind.2 allowed.symm
  | idle | scan | handler =>
    rw [place] at chosen
    cases chosen
  | _ =>
    rw [place] at allowed
    simp only [Loc.Allows] at allowed
    rcases state with new | new <;> rw [new] at allowed <;> simp at allowed

theorem Placed.state_of_code (placed : Placed s) {old : Pc K L} (at_ : s.loc c = .thread p)
    (here : s.code c = some old) : s.state p = old.state := by
  have allowed := placed.allows c p (by rw [at_]; rfl)
  rw [Core.code, at_] at here
  rw [at_] at allowed
  rw [← Option.some.inj here]
  exact allowed

end Placement

/-! ## Placement after code moves -/

section CodeMoves

variable [DecidableEq C] {s : Core C K L} {c : C} {old new : Pc K L}

theorem Placed.shift (placed : Placed s) (here : s.code c = some old) (shift : Passes old new)
    {lk : Option C} {locks : L → Option C}
    (lock : Excl id lk (update s.inside c new.inside)) :
    Placed (({ s with lk := lk, locks := locks }).goto c new) := by
  have wf := placed.wf_of_code here
  refine placed.code here ⟨rfl, rfl, fun _ _ _ => rfl, placed.wf, shift.wf wf, lock, ?_,
    fun _ _ _ _ => rfl, fun _ runs => runs, placed.parked⟩ fun none => shift.work.trans none
  intro p at_
  exact (placed.state_of_code at_ here).trans (shift.before.trans (shift.after wf).symm)

theorem Placed.stays (placed : Placed s) (here : s.code c = some old)
    (inside : new.inside = old.inside) :
    Excl id s.lk (update s.inside c new.inside) :=
  placed.lock.stay (inside.trans (inside_of_code here).symm)

/-- A state changes to `RUNNABLE` from `SLEEPING` only, and under the lock. -/
theorem Placed.wakes (placed : Placed s) (here : s.code c = some old) (shift : Shift old new)
    (inside : old.inside = true ∧ new.inside = true) {state : Fin NPROC → ProcState}
    (woken : ∀ p, state p = s.state p ∨ s.state p = .SLEEPING ∧ state p = .RUNNABLE) :
    Placed (({ s with state := state }).goto c new) := by
  have wf := placed.wf_of_code here
  have held : s.inside c = true := (inside_of_code here).trans inside.1
  have awake : ∀ p, s.state p = .RUNNING → state p = .RUNNING := by
    intro p runs
    rcases woken p with same | ⟨asleep, -⟩
    · exact same.trans runs
    · rw [runs] at asleep
      cases asleep
  refine placed.code here ⟨rfl, rfl, fun _ _ _ => rfl, placed.wf, shift.wf wf,
    placed.stays here (inside.2.trans inside.1.symm), fun p at_ => ?_, fun d p other chosen => ?_,
    fun p runs => ?_, fun p alive away => ?_⟩ fun none => shift.work.trans none
  · rw [shift.after wf]
    exact awake p ((placed.state_of_code at_ here).trans shift.before)
  · have runs := (placed.elsewhere held other chosen).2
    exact (awake p runs).trans runs.symm
  · rcases woken p with same | ⟨-, runnable⟩
    · exact same.symm.trans runs
    · exact absurd (runnable.symm.trans runs) (by decide)
  · refine placed.parked p ?_ away
    rcases woken p with same | ⟨asleep, -⟩
    · exact same ▸ alive
    · exact Or.inl asleep

/-- The process that gives up its CPU changes its own state, under the lock. -/
theorem Placed.marks (placed : Placed s) (here : s.code c = some old) {resume : Pc K L}
    {q : Fin NPROC} (own : s.proc c = some q) (inside : old.inside = true)
    (wf : (Pc.sched resume).Wf) (work : resume.work = old.work) :
    Placed (({ s with
      state := update s.state q (Pc.sched resume).state }).goto c (.sched resume)) := by
  rw [placed.proc] at own
  have at_ : s.loc c = .thread q := by
    rcases code_cases here with handled | ⟨p, at_, -⟩
    · rw [handled] at own
      cases own
    · rw [at_] at own ⊢
      exact congrArg Loc.thread (Option.some.inj own)
  have stopped : (Pc.sched resume).state ≠ .RUNNING := by
    cases wf.1 <;> simp only [Pc.state, ne_eq, reduceCtorEq, not_false_eq_true]
  refine placed.code here ⟨rfl, rfl, fun _ _ _ => rfl, placed.wf, wf,
    placed.stays here inside.symm, fun p at' => ?_, fun d p other chosen => ?_, fun p runs => ?_,
    fun p alive away => ?_⟩ fun none => work.trans none
  · rw [at_] at at'
    cases at'
    exact update_self ..
  · have differs : p ≠ q := by
      rintro rfl
      exact placed.other_thread at_ other chosen
    exact update_of_ne differs ..
  · dsimp only at runs
    by_cases self : p = q
    · rw [self, update_self] at runs
      exact absurd runs stopped
    · rwa [update_of_ne self] at runs
  · have differs : p ≠ q := by
      rintro rfl
      exact away c at_
    dsimp only at alive
    rw [update_of_ne differs] at alive
    exact placed.parked p alive away

end CodeMoves

/-! ## Placement after moves of the scheduler -/

section Scheduling

variable [DecidableEq C] {s : Core C K L} {c : C} {p : Fin NPROC}

/-- A CPU in `scheduler` moves on to `place`, with the state of its process changed. -/
structure SchedMove (s u : Core C K L) (c : C) (place : Loc K L) : Prop where
  loc : u.loc = Function.update s.loc c place
  proc : u.proc = Function.update s.proc c place.proc
  pc : u.pc = s.pc
  context : u.context = s.context
  others : ∀ p, place.proc ≠ some p → u.state p = s.state p
  allows : ∀ p, place.proc = some p → place.Allows (s.pc p) (u.state p)
  away : ∀ d p, d ≠ c → place.proc = some p → (s.loc d).proc ≠ some p
  lost : ∀ p, (s.loc c).proc = some p → s.state p = .RUNNING → place.proc = some p
  alive : ∀ p, Alive (u.state p) → Alive (s.state p)
  thread : ∀ p, s.loc c ≠ .thread p ∧ place ≠ .thread p
  handler : ∀ pc, place = .handler pc → pc.Wf ∧ pc.work = .none

/-- Whether a CPU in `scheduler` or in a handler holds the lock. -/
def Loc.inside : Loc K L → Bool
  | .idle => false
  | .handler pc => pc.inside
  | _ => true

theorem Placed.sched (placed : Placed s) {u : Core C K L} (place : Loc K L)
    (move : SchedMove s u c place)
    (lock : Excl id u.lk (update s.inside c place.inside)) : Placed u := by
  have elsewhere : ∀ d, d ≠ c → u.loc d = s.loc d := by
    intro d other
    rw [move.loc, update_of_ne other]
  have here : u.loc c = place := by rw [move.loc, update_self]
  have inside : u.inside = update s.inside c place.inside := by
    funext d
    by_cases self : d = c
    · subst self
      rw [update_self, Core.inside, here]
      cases place with
      | thread p => exact absurd rfl (move.thread p).2
      | _ => rfl
    · rw [update_of_ne self, Core.inside, Core.inside, elsewhere d self, move.pc]
  refine ⟨inside ▸ lock, ?_, ?_, ?_, ?_, ?_, move.pc ▸ placed.wf, ?_⟩
  · intro d
    by_cases self : d = c
    · rw [self, here, move.proc, update_self]
    · rw [elsewhere d self, move.proc, update_of_ne self]
      exact placed.proc d
  · intro d q chosen
    rw [move.pc]
    by_cases self : d = c
    · subst self
      rw [here] at chosen ⊢
      exact move.allows q chosen
    · rw [elsewhere d self] at chosen ⊢
      rw [move.others q fun same => move.away d q self same chosen]
      exact placed.allows d q chosen
  · intro d e q first second
    by_cases atD : d = c
    · by_cases atE : e = c
      · rw [atD, atE]
      · rw [atD, here] at first
        rw [elsewhere e atE] at second
        exact absurd second (move.away e q atE first)
    · by_cases atE : e = c
      · rw [atE, here] at second
        rw [elsewhere d atD] at first
        exact absurd first (move.away d q atD second)
      · rw [elsewhere d atD] at first
        rw [elsewhere e atE] at second
        exact placed.unique d e q first second
  · intro q runs
    by_cases mine : place.proc = some q
    · exact ⟨c, by rw [here, mine]⟩
    · rw [move.others q mine] at runs
      obtain ⟨d, chosen⟩ := placed.running q runs
      have other : d ≠ c := by
        rintro rfl
        exact mine (move.lost q chosen runs)
      exact ⟨d, by rw [elsewhere d other, chosen]⟩
  · intro q alive away
    rw [move.context, move.pc]
    refine placed.parked q (move.alive q alive) fun d => ?_
    by_cases self : d = c
    · rw [self]
      exact (move.thread q).1
    · rw [← elsewhere d self]
      exact away d
  · intro d pc at_
    by_cases self : d = c
    · rw [self, here] at at_
      exact move.handler pc at_
    · rw [elsewhere d self] at at_
      exact placed.handler d pc at_

omit [DecidableEq C] in
theorem Placed.only_thread (placed : Placed s) (chosen : (s.loc c).proc = some p)
    (notThread : s.loc c ≠ .thread p) (d : C) : s.loc d ≠ .thread p := by
  intro at_
  have same : d = c := placed.unique d c p (by rw [at_]; rfl) chosen
  subst same
  exact notThread at_

omit [DecidableEq C] in
/-- The thread that is switched to goes on where it was switched away from. -/
theorem Placed.resumes (placed : Placed s) (here : s.loc c = .marked p) :
    s.context p = s.pc p ∧ (s.pc p).Resumes := by
  have chosen : (s.loc c).proc = some p := by rw [here]; rfl
  have runs : s.state p = .RUNNING := by
    have allowed := placed.allows c p chosen
    rw [here] at allowed
    exact allowed
  refine placed.parked p (Or.inr (Or.inr runs)) (placed.only_thread chosen ?_)
  rw [here]
  simp only [ne_eq, reduceCtorEq, not_false_eq_true]

theorem Placed.swtchIn (placed : Placed s) (here : s.loc c = .marked p) :
    Placed { s with
      pc := update s.pc p (s.context p)
      stack := update s.stack c (some (s.kstack p))
      loc := update s.loc c (.thread p) } := by
  obtain ⟨context, resumes⟩ := placed.resumes here
  have held : s.inside c = true := by rw [Core.inside, here]
  have inside := resumes.inside
  have state := resumes.state
  have chosen : (s.loc c).proc = some p := by rw [here]; rfl
  have allowed := placed.allows c p chosen
  rw [here] at allowed
  have proc : ∀ d, (update s.loc c (.thread p) d).proc = (s.loc d).proc := by
    intro d
    by_cases self : d = c
    · rw [self, update_self, here]
      rfl
    · rw [update_of_ne self]
  rw [context, update_eq_self]
  refine ⟨?_, fun d => (placed.proc d).trans (proc d).symm, fun d q => ?_, fun d e q => ?_,
    fun q runs => ?_, fun q alive away => ?_, placed.wf, fun d pc at_ => ?_⟩
  · have same : ({ s with
        pc := s.pc
        stack := update s.stack c (some (s.kstack p))
        loc := update s.loc c (.thread p) } : Core C K L).inside = s.inside := by
      funext d
      by_cases self : d = c
      · subst self
        simp only [Core.inside, update_self, inside, here]
      · simp only [Core.inside, update_of_ne self]
    rw [same]
    exact placed.lock
  · dsimp only
    rw [proc]
    intro chosen'
    by_cases self : d = c
    · rw [self] at chosen'
      rw [self, update_self]
      rw [chosen] at chosen'
      cases chosen'
      exact Eq.trans allowed state.symm
    · rw [update_of_ne self]
      exact placed.allows d q chosen'
  · dsimp only
    rw [proc, proc]
    exact placed.unique d e q
  · obtain ⟨d, chosen'⟩ := placed.running q runs
    exact ⟨d, (proc d).trans chosen'⟩
  · refine placed.parked q alive fun d at_ => ?_
    have self : d ≠ c := by
      rintro rfl
      rw [here] at at_
      cases at_
    exact away d (by dsimp only; rw [update_of_ne self, at_])
  · dsimp only at at_
    by_cases self : d = c
    · rw [self, update_self] at at_
      cases at_
    · rw [update_of_ne self] at at_
      exact placed.handler d pc at_

theorem Placed.swtchOut (placed : Placed s) {resume : Pc K L} (here : s.loc c = .thread p)
    (pc : s.pc p = .sched resume) :
    Placed { s with
      context := update s.context p resume
      pc := update s.pc p resume
      loc := update s.loc c (.back p)
      stack := update s.stack c none } := by
  have wf := placed.wf p
  rw [pc] at wf
  have chosen : (s.loc c).proc = some p := by rw [here]; rfl
  have state := placed.allows c p chosen
  rw [here] at state
  have state : s.state p = (s.pc p).state := state
  rw [pc] at state
  have proc : ∀ d, (update s.loc c (.back p) d).proc = (s.loc d).proc := by
    intro d
    by_cases self : d = c
    · rw [self, update_self, here]
      rfl
    · rw [update_of_ne self]
  have other : ∀ d q, d ≠ c → (s.loc d).proc = some q → q ≠ p := by
    rintro d q away chosen' rfl
    exact away (placed.unique d c q chosen' chosen)
  refine ⟨?_, fun d => (placed.proc d).trans (proc d).symm, fun d q => ?_, fun d e q => ?_,
    fun q runs => ?_, fun q alive away => ?_, fun q => ?_, fun d pc at_ => ?_⟩
  · have same : ({ s with
        context := update s.context p resume
        pc := update s.pc p resume
        loc := update s.loc c (.back p)
        stack := update s.stack c none } : Core C K L).inside = s.inside := by
      funext d
      by_cases self : d = c
      · subst self
        simp only [Core.inside, update_self, here, pc, Pc.inside]
      · simp only [Core.inside, update_of_ne self]
        cases place : s.loc d with
        | thread q =>
          have differs := other d q self (by rw [place]; rfl)
          simp only [update_of_ne differs]
        | _ => rfl
    rw [same]
    exact placed.lock
  · dsimp only
    rw [proc]
    intro chosen'
    by_cases self : d = c
    · rw [self] at chosen'
      rw [self, update_self]
      rw [chosen] at chosen'
      cases chosen'
      rw [state]
      cases wf.1 <;> simp only [Loc.Allows, Pc.state, reduceCtorEq, or_true, true_or]
    · rw [update_of_ne self, update_of_ne (other d q self chosen')]
      exact placed.allows d q chosen'
  · dsimp only
    rw [proc, proc]
    exact placed.unique d e q
  · obtain ⟨d, chosen'⟩ := placed.running q runs
    exact ⟨d, (proc d).trans chosen'⟩
  · dsimp only
    by_cases self : q = p
    · rw [self, update_self, update_self]
      refine ⟨rfl, ?_⟩
      rw [self] at alive
      have alive : Alive (s.state p) := alive
      rw [state] at alive
      cases wf.1 with
      | yieldRelease ret => exact .yieldRelease ret
      | sleepTidy lk ret => exact .sleepTidy lk ret
      | zombie => simp only [Alive, Pc.state, reduceCtorEq, or_self] at alive
    · rw [update_of_ne self, update_of_ne self]
      refine placed.parked q alive fun d at_ => ?_
      have away' : d ≠ c := by
        rintro rfl
        rw [here] at at_
        cases at_
        exact self rfl
      exact away d (by dsimp only; rw [update_of_ne away', at_])
  · dsimp only
    by_cases self : q = p
    · rw [self, update_self]
      exact wf.2
    · rw [update_of_ne self]
      exact placed.wf q
  · dsimp only at at_
    by_cases self : d = c
    · rw [self, update_self] at at_
      cases at_
    · rw [update_of_ne self] at at_
      exact placed.handler d pc at_

end Scheduling

end Xv6Tracing.Sched
