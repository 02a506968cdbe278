import Xv6Tracing.Sched.Exclusive

/-!
# Sleepers and wakers

Sleepers test the condition of a channel under its lock and, where it is false, call
`sleep` with that lock; wakers change the condition and call `wakeup` under the lock.
`sleep` takes `ptable.lock` before it releases the other lock, so between the test and the
state `SLEEPING` the sleeper holds one of the two, and `wakeup` needs both.
-/

set_option autoImplicit false

namespace Xv6Tracing.Sched

open Function (update update_of_ne update_self)

open Lib

variable {C K L : Type} [DecidableEq C] [DecidableEq K] [DecidableEq L]

/-! ## What is claimed -/

/-- What happened since process `p` last tested the condition of `k`. -/
def since (history : List (Event K)) (p : Fin NPROC) (k : K) : List (Event K) :=
  history.takeWhile fun event => decide (event ≠ .tested p k)

/-- Sleepers on `chan` call `sleep(chan, lk)` after testing its condition under `lk`, and
wakers change the condition and wake up under `lk`.  `wait` and `exit` use the address of
a process as a channel, under `ptable.lock`. -/
def Disciplined (procChan : Fin NPROC → K) (chan : K) (lk : Lk L) (s : World C K L)
    (move : C × Op K L) : Prop :=
  match s.code move.1, move.2 with
  | some (.hold lk' _), .test k => k = chan → lk' = lk
  | some (.hold lk' _), .change k _ => k = chan → lk' = lk
  | some (.hold lk' _), .wakeup k => k = chan → lk' = lk
  | some (.hold _ _), .sleep k => k ≠ chan
  | some (.tested lk' k' _), .sleep k => k = chan → lk' = lk ∧ k' = chan
  | some (.tested _ _ _), .change k _ => k ≠ chan
  | some _, .wakeup k => k ≠ chan
  | some .waitScan, .go | some .exitWake, .go | some .exitPass, .go =>
    (∃ p, procChan p = chan) → lk = .ptable
  | _, _ => True

/-- With both locks free, nobody sleeps on `chan` although its condition was made true, and
its wakeup performed, after they last tested it. -/
def NoLostWakeup (chan : K) (lk : Lk L) (s : World C K L) : Prop :=
  s.lk = none → (∀ l, lk = .other l → s.locks l = none) →
    ∀ p, s.state p = .SLEEPING → s.chan p = some chan →
      ¬ (Event.changed chan true ∈ since s.history p chan ∧
        Event.woken chan ∈ since s.history p chan)

/-! ## The history -/

variable {k : K} {p : Fin NPROC} {history : List (Event K)} {e : Event K}

theorem mem_since_cons {event : Event K}
    (member : e ∈ since (event :: history) p k) : e = event ∨ e ∈ since history p k := by
  unfold since at member ⊢
  rw [List.takeWhile_cons] at member
  split at member
  · exact List.mem_cons.mp member
  · cases member

theorem mem_since_append {events : List (Event K)}
    (member : e ∈ since (events ++ history) p k) : e ∈ events ∨ e ∈ since history p k := by
  induction events with
  | nil => exact Or.inr member
  | cons event events ih => grind [mem_since_cons]

theorem since_tested (history : List (Event K)) (p : Fin NPROC) (k : K) :
    since (.tested p k :: history) p k = [] := by
  rw [since, List.takeWhile_cons, if_neg]
  simp

/-! ## The other spin locks -/

/-- Whether the code on CPU `c` holds the lock `l`. -/
def Core.holding (s : Core C K L) (l : L) (c : C) : Bool :=
  decide ((s.code c).bind Pc.holds = some l)

def Guarded (s : Core C K L) : Prop := ∀ l, Excl id (s.locks l) (s.holding l)

section Locks

variable {s t u : Core C K L} {c d : C} {old new : Pc K L}

omit [DecidableEq K] [DecidableEq L] in
theorem code_goto (here : s.code c = some old) (loc : u.loc = s.loc) :
    (u.goto c new).code c = some new := by
  rcases code_cases here with at_ | ⟨p, at_, -⟩
  · rw [goto_handler (loc ▸ at_), Core.code]
    simp only [update_self]
  · rw [goto_thread (loc ▸ at_), Core.code]
    simp only [loc, at_, update_self]

omit [DecidableEq K] [DecidableEq L] in
theorem Placed.code_goto_other (placed : Placed s) (here : s.code c = some old)
    (loc : u.loc = s.loc) (pc : ∀ d p, s.loc d = .thread p → u.pc p = s.pc p) (other : d ≠ c) :
    (u.goto c new).code d = s.code d := by
  have same : u.code d = s.code d := by
    unfold Core.code
    rw [loc]
    cases place : s.loc d with
    | thread q => exact congrArg some (pc d q place)
    | _ => rfl
  rw [← same]
  rcases code_cases here with at_ | ⟨p, at_, -⟩
  · rw [goto_handler (loc ▸ at_)]
    simp only [Core.code, update_of_ne other]
  · rw [goto_thread (loc ▸ at_)]
    unfold Core.code
    rw [loc]
    cases place : s.loc d with
    | thread q =>
      have differs : q ≠ p := by
        rintro rfl
        exact placed.other_thread at_ other (by rw [place]; rfl)
      simp only [update_of_ne differs]
    | _ => rfl

omit [DecidableEq K] [DecidableEq L] in
theorem code_of_scheduler (place : Loc K L) (loc : u.loc = update s.loc c place)
    (pc : u.pc = s.pc) (other : d ≠ c) : u.code d = s.code d := by
  unfold Core.code
  rw [loc, update_of_ne other, pc]

omit [DecidableEq K] [DecidableEq L] in
theorem goto_loc_other (other : d ≠ c) : (u.goto c new).loc d = u.loc d := by
  unfold Core.goto
  split
  · rfl
  · exact update_of_ne other ..

omit [DecidableEq K] in
theorem Move.loc_other (move : Move s c t) (other : d ≠ c) : t.loc d = s.loc d := by
  cases move <;> first | exact goto_loc_other other | exact update_of_ne other ..

variable {p : Fin NPROC}

omit [DecidableEq K] [DecidableEq L] in
theorem goto_thread_self (at_ : (u.goto c new).loc c = .thread p) :
    u.loc c = .thread p := by
  unfold Core.goto at at_
  split at at_
  · exact at_
  · dsimp only at at_
    rw [update_self] at at_
    cases at_

omit [DecidableEq K] in
theorem Move.thread_self (move : Move s c t) (here : s.code c = some old)
    (at_ : t.loc c = .thread p) : s.loc c = .thread p := by
  have code : ∀ {place : Loc K L}, s.loc c = place → (∀ p, place ≠ .thread p) →
      (∀ pc, place ≠ .handler pc) → False := by
    intro place loc thread handler
    rcases code_cases here with found | ⟨q, found, -⟩
    · exact handler old (loc.symm.trans found)
    · exact thread q (loc.symm.trans found)
  cases move with
  | swtchOut resume q r loc pc own =>
    dsimp only at at_
    rw [update_self] at at_
    cases at_
  | leave loc =>
    dsimp only at at_
    rw [update_self] at at_
    cases at_
  | enter loc | lock loc | skip i loc | unlock i loc | pick i q loc | switchuvm q loc
  | running q loc | swtchIn q loc | switchkvm q loc | drop q loc =>
    exact (code loc (by simp) (by simp)).elim
  | _ =>
    have before := goto_thread_self at_
    exact before

omit [DecidableEq K] in
theorem Consistent.code_other (consistent : Consistent s) (move : Move s c t) (other : d ≠ c) :
    t.code d = s.code d := by
  have placed := consistent.placed
  cases move with
  | stack np pg here page free =>
    obtain ⟨p, -, -, ⟨embryo, -⟩, -⟩ := consistent.working here rfl
    refine placed.code_goto_other here rfl (fun e q at_ => ?_) other
    have differs : q ≠ np := by
      rintro rfl
      exact placed.nowhere (c := e) (Or.inl embryo) (by rw [at_]; rfl)
    exact update_of_ne differs ..
  | swtchOut resume p q here pc own =>
    unfold Core.code
    dsimp only
    rw [update_of_ne other]
    cases place : s.loc d with
    | thread r =>
      have differs : r ≠ p := by
        rintro rfl
        exact placed.other_thread here other (by rw [place]; rfl)
      simp only [update_of_ne differs]
    | _ => rfl
  | swtchIn p here => grind [placed.resumes, code_of_scheduler]
  | enter here | leave here | lock here | skip i here | unlock i here | pick i p here
  | switchuvm p here | running p here | switchkvm p here | drop p here =>
    exact code_of_scheduler _ rfl rfl other
  | turn old new here | takeOther l old new here | giveOther l old new here | take old new here
  | give old new here | wake old new here | mark old resume q here | alloc q np here
  | noStack np here | noTable np here | table np pg here | run np here | found q z here
  | freeStack z here | freeTable z here | reset z here =>
    exact placed.code_goto_other here rfl (fun _ _ _ => rfl) other

omit [DecidableEq K] [DecidableEq L] in
theorem goto_locks : (u.goto c new).locks = u.locks := by
  unfold Core.goto
  split <;> rfl

omit [DecidableEq K] in
theorem Consistent.holds_self (consistent : Consistent s) (move : Move s c t) :
    t.locks = s.locks ∧ (t.code c).bind Pc.holds = (s.code c).bind Pc.holds ∨
      (∃ l, s.locks l = none ∧ (s.code c).bind Pc.holds = none ∧
        t.locks = update s.locks l (some c) ∧ (t.code c).bind Pc.holds = some l) ∨
      ∃ l, s.locks l = some c ∧ (s.code c).bind Pc.holds = some l ∧
        t.locks = update s.locks l none ∧ (t.code c).bind Pc.holds = none := by
  have placed := consistent.placed
  have moved : ∀ {u : Core C K L} {old new : Pc K L}, s.code c = some old → u.loc = s.loc →
      ((u.goto c new).code c).bind Pc.holds = new.holds := by
    intro u old new here loc
    rw [code_goto here loc]
    rfl
  have same : ∀ {u : Core C K L} {old new : Pc K L}, s.code c = some old → u.loc = s.loc →
      u.locks = s.locks → new.holds = old.holds → (u.goto c new).locks = s.locks ∧
        ((u.goto c new).code c).bind Pc.holds = (s.code c).bind Pc.holds := by
    intro u old new here loc locks holds
    rw [goto_locks, moved here loc, here]
    exact ⟨locks, holds⟩
  have none : ∀ {place : Loc K L}, s.loc c = place → (∀ p, place ≠ .thread p) →
      (∀ pc, place ≠ .handler pc) → s.code c = none := by
    intro place here thread handler
    unfold Core.code
    rw [here]
    cases place with
    | thread p => exact absurd rfl (thread p)
    | handler pc => exact absurd rfl (handler pc)
    | _ => rfl
  cases move with
  | turn old new here shift | take old new here shift | give old new here shift
  | wake old new here shift =>
    exact Or.inl (same here rfl rfl (shift.holds (placed.wf_of_code here)))
  | takeOther l old new here passes inside before after unheld =>
    grind [goto_locks, placed.wf_of_code]
  | giveOther l old new here passes inside before after held =>
    refine Or.inr (Or.inr ⟨l, held, ?_, goto_locks, ?_⟩)
    · rw [here]
      exact before
    · refine Eq.trans ?_ (after (placed.wf_of_code here))
      exact moved here rfl
  | mark old resume q here own before inside wf work holds =>
    exact Or.inl (same here rfl rfl holds.symm)
  | alloc q np here | noStack np here | stack np pg here | noTable np here | table np pg here
  | run np here | found q z here | freeStack z here | freeTable z here | reset z here =>
    exact Or.inl (same here rfl rfl rfl)
  | swtchOut resume p q here pc own =>
    refine Or.inl ⟨rfl, ?_⟩
    simp only [Core.code, update_self, here, pc]
    rfl
  | swtchIn p here =>
    obtain ⟨context, resumes⟩ := placed.resumes here
    refine Or.inl ⟨rfl, ?_⟩
    rw [none here (by simp) (by simp)]
    simp only [Core.code, update_self, context]
    cases at_ : s.pc p <;> rw [at_] at resumes <;> first | rfl | cases resumes
  | enter here =>
    refine Or.inl ⟨rfl, ?_⟩
    rw [none here (by simp) (by simp)]
    simp only [Core.code, update_self]
    rfl
  | leave here =>
    refine Or.inl ⟨rfl, ?_⟩
    simp only [Core.code, update_self, here]
    rfl
  | lock here | skip i here | unlock i here | pick i p here | switchuvm p here | running p here
  | switchkvm p here | drop p here =>
    refine Or.inl ⟨rfl, ?_⟩
    rw [none here (by simp) (by simp)]
    simp only [Core.code, update_self]

omit [DecidableEq K] in
theorem Consistent.guarded (consistent : Consistent s) (guarded : Guarded s) (move : Move s c t) :
    Guarded t := by
  intro l
  have others : ∀ d, d ≠ c → t.holding l d = s.holding l d := by
    intro d other
    rw [Core.holding, Core.holding, consistent.code_other move other]
  have holding : t.holding l = update (s.holding l) c (t.holding l c) := by grind
  rw [holding]
  rcases consistent.holds_self move with ⟨locks, same⟩ | ⟨l', free, before, locks, after⟩ |
    ⟨l', held, before, locks, after⟩
  · rw [locks]
    refine (guarded l).stay ?_
    rw [Core.holding, Core.holding, same]
  · by_cases self : l = l'
    · subst self
      rw [locks, update_self]
      exact (guarded l).take free (by rw [Core.holding, after]; exact decide_eq_true rfl)
    · rw [locks, update_of_ne self]
      refine (guarded l).stay ?_
      rw [Core.holding, Core.holding, after, before]
      simp [Ne.symm self]
  · by_cases self : l = l'
    · subst self
      rw [locks, update_self]
      exact (guarded l).give (t := c) (by rw [id, Core.holding, before]; exact decide_eq_true rfl)
        (by rw [id, Core.holding, after]; simp)
    · rw [locks, update_of_ne self]
      refine (guarded l).stay ?_
      rw [Core.holding, Core.holding, after, before]
      simp [Ne.symm self]

end Locks

/-! ## What a step does to sleepers -/

section Sleepers

variable {procChan : Fin NPROC → K} {chan : K} {lk : Lk L} {s t : World C K L} {c : C}

/-- Between the test of the condition of `chan` and the state `SLEEPING`, also while
others are woken up. -/
def Pc.Window (chan : K) (lk : Lk L) : Pc K L → Prop
  | .tested lk' k _ => lk' = lk ∧ k = chan
  | .sleepRelease k _ _ | .sleepChan k _ _ | .sleepMark k _ _ => k = chan
  | .wake _ ret | .wakeRelease ret => ret.Window chan lk
  | _ => False

/-- The code of a step that neither puts a process to sleep nor wakes up `chan`. -/
structure Quiet (chan : K) (lk : Lk L) (s t : World C K L) (c : C) : Prop where
  history : ∃ events, t.history = events ++ s.history ∧ Event.woken chan ∉ events
  chans : ∀ p, t.chan p = s.chan p ∨ s.proc c = some p ∧ t.chan p = none
  asleep : ∀ p, t.state p = .SLEEPING → s.state p = .SLEEPING
  window : ∀ new, t.code c = some new → new.Window chan lk → ∃ old, s.code c = some old ∧
    (old.Window chan lk ∨ ∀ p, s.proc c = some p → Event.woken chan ∉ since t.history p chan)
  mark : ∀ k lk' ret, t.code c ≠ some (.sleepMark k lk' ret)
  waker : ∀ ret, t.code c = some (.wake chan ret) →
    ∃ l r, lk = .other l ∧ ret = .hold (.other l) r

inductive Story (chan : K) (lk : Lk L) (s t : World C K L) (c : C) : Prop
  | quiet (still : Quiet chan lk s t c)
  | prepare (q : Fin NPROC) (k : K) (lk' : Lk L) (ret : Pc K L) (own : s.proc c = some q)
      (before : s.code c = some (.sleepChan k lk' ret))
      (after : t.code c = some (.sleepMark k lk' ret))
      (chans : t.chan = Function.update s.chan q (some k)) (state : t.state = s.state)
      (history : t.history = s.history)
  | asleep (q : Fin NPROC) (k : K) (lk' : Lk L) (ret : Pc K L) (own : s.proc c = some q)
      (before : s.code c = some (.sleepMark k lk' ret))
      (after : t.code c = some (.sched (.sleepTidy lk' ret)))
      (chans : t.chan = s.chan) (state : t.state = Function.update s.state q .SLEEPING)
      (history : t.history = s.history)
  | wake (old : Pc K L) (before : s.code c = some old) (inside : old.inside = true)
      (holds : ∀ l, lk = .other l → old.holds = some l) (window : ¬ old.Window chan lk)
      (after : ∀ new, t.code c = some new → ¬ new.Window chan lk ∧
        (∀ k ret, new ≠ .wake k ret) ∧ ∀ k lk' ret, new ≠ .sleepMark k lk' ret)
      (chans : t.chan = s.chan)
      (state : ∀ p, t.state p = .SLEEPING → s.state p = .SLEEPING ∧ s.chan p ≠ some chan)

structure Sleepers (chan : K) (lk : Lk L) (s : World C K L) : Prop where
  consistent : Consistent s.toCore
  guarded : Guarded s.toCore
  window : ∀ c p, s.loc c = .thread p → (s.pc p).Window chan lk →
    Event.woken chan ∉ since s.history p chan
  asleep : ∀ p, s.state p = .SLEEPING → s.chan p = some chan →
    Event.woken chan ∉ since s.history p chan
  mark : ∀ c p k lk' ret, s.loc c = .thread p → s.pc p = .sleepMark k lk' ret →
    s.chan p = some k
  waker : ∀ c ret, s.code c = some (.wake chan ret) →
    ∃ l r, lk = .other l ∧ ret = .hold (.other l) r

variable {p : Fin NPROC}

omit [DecidableEq C] [DecidableEq K] [DecidableEq L] in
theorem code_of_thread (at_ : s.loc c = .thread p) :
    s.code c = some (s.pc p) := by
  rw [Core.code, at_]

variable {d : C}

omit [DecidableEq C] [DecidableEq K] [DecidableEq L] in
theorem thread_of_code (at_ : t.loc d = .thread p)
    (loc : t.loc d = s.loc d) (same : t.code d = s.code d) :
    s.loc d = .thread p ∧ s.pc p = t.pc p := by
  rw [loc] at at_
  rw [code_of_thread at_, code_of_thread (loc.trans at_)] at same
  exact ⟨at_, (Option.some.inj same).symm⟩

omit [DecidableEq C] in
/-- While a waker holds both locks nobody else is between test and sleep. -/
theorem Sleepers.alone (sleepers : Sleepers chan lk s) {old : Pc K L}
    (before : s.code c = some old) (inside : old.inside = true)
    (holds : ∀ l, lk = .other l → old.holds = some l)
    (at_ : s.loc d = .thread p) (window : (s.pc p).Window chan lk) : d = c := by
  have code := code_of_thread at_
  have held : s.toCore.inside c = true := (inside_of_code before).trans inside
  have taken : (s.pc p).inside = true → d = c := fun mine =>
    sleepers.consistent.placed.lock.unique ((inside_of_code code).trans mine) held
  cases at_' : s.pc p with
  | tested lk' k ret =>
    rw [at_'] at window code taken
    obtain ⟨rfl, -⟩ := window
    cases lk' with
    | ptable => exact taken rfl
    | other l =>
      have mine : s.toCore.holding l d = true := by
        rw [Core.holding, code]
        exact decide_eq_true rfl
      have theirs : s.toCore.holding l c = true := by
        rw [Core.holding, before]
        exact decide_eq_true (holds l rfl)
      exact (sleepers.guarded l).unique mine theirs
  | sleepRelease k l ret | sleepChan k lk' ret | sleepMark k lk' ret | wake k ret
  | wakeRelease ret =>
    rw [at_'] at taken
    exact taken rfl
  | _ =>
    rw [at_'] at window
    exact absurd window not_false

omit [DecidableEq C] [DecidableEq L] in
theorem since_still {events : List (Event K)}
    (history : t.history = events ++ s.history) (noWake : Event.woken chan ∉ events)
    (before : Event.woken chan ∉ since s.history p chan) :
    Event.woken chan ∉ since t.history p chan := by
  intro member
  rw [history] at member
  exact (mem_since_append member).elim noWake before

theorem Sleepers.step (sleepers : Sleepers chan lk s) (move : Move s.toCore c t.toCore)
    (story : Story chan lk s t c) : Sleepers chan lk t := by
  have placed := sleepers.consistent.placed
  have others : ∀ {d p}, d ≠ c → t.loc d = .thread p → s.loc d = .thread p ∧ s.pc p = t.pc p :=
    fun other at_ => thread_of_code at_ (move.loc_other other)
      (sleepers.consistent.code_other move other)
  -- the process of another CPU is not the mover's
  have apart : ∀ {d p q}, d ≠ c → s.loc d = .thread p → s.proc c = some q → p ≠ q := by
    rintro d p q other at_ own rfl
    rw [placed.proc] at own
    exact other (placed.unique d c p (by rw [at_]; rfl) own)
  have own : ∀ {p}, s.loc c = .thread p → s.proc c = some p := fun at_ => by
    rw [placed.proc, at_]
    rfl
  have wakers : ∀ d ret, d ≠ c → t.code d = some (.wake chan ret) →
      ∃ l r, lk = .other l ∧ ret = .hold (.other l) r := by
    intro d ret other code
    rw [sleepers.consistent.code_other move other] at code
    exact sleepers.waker d ret code
  refine ⟨sleepers.consistent.move move, sleepers.consistent.guarded sleepers.guarded move, ?_, ?_,
    ?_, ?_⟩
  · -- between test and sleep
    intro d p at_ window
    cases story with
    | quiet still =>
      obtain ⟨events, history, noWake⟩ := still.history
      by_cases self : d = c
      · subst self
        obtain ⟨old, code, ways⟩ := still.window _ (code_of_thread at_) window
        grind [move.thread_self, code_of_thread, since_still, Sleepers]
      grind [since_still, Sleepers]
    | prepare q k lk' ret owns before after chans state history =>
      rw [history]
      by_cases self : d = c
      · subst self
        have loc := move.thread_self before at_
        rw [code_of_thread at_] at after
        rw [Option.some.inj after] at window
        rw [code_of_thread loc] at before
        refine sleepers.window d p loc ?_
        rw [Option.some.inj before]
        exact window
      · obtain ⟨loc, pc⟩ := others self at_
        exact sleepers.window d p loc (pc ▸ window)
    | asleep q k lk' ret owns before after chans state history =>
      rw [history]
      by_cases self : d = c
      · subst self
        rw [code_of_thread at_] at after
        rw [Option.some.inj after] at window
        exact absurd window not_false
      · obtain ⟨loc, pc⟩ := others self at_
        exact sleepers.window d p loc (pc ▸ window)
    | wake old before inside holds noWindow after chans state =>
      by_cases self : d = c
      · subst self
        exact absurd window (after _ (code_of_thread at_)).1
      · obtain ⟨loc, pc⟩ := others self at_
        exact absurd (sleepers.alone before inside holds loc (pc ▸ window)) self
  · -- asleep
    intro p asleep on
    cases story with
    | quiet still => grind [still.history, still.chans, since_still, still.asleep, Sleepers]
    | prepare q k lk' ret owns before after chans state history =>
      rw [history]
      have differs : p ≠ q := by
        rintro rfl
        have at_ := (placed.caller before owns).1
        have runs := placed.state_of_code at_ before
        rw [state, runs] at asleep
        cases asleep
      rw [chans, update_of_ne differs] at on
      rw [state] at asleep
      exact sleepers.asleep p asleep on
    | asleep q k lk' ret owns before after chans state history =>
      rw [history]
      rw [chans] at on
      by_cases self : p = q
      · subst self
        obtain ⟨at_, pc⟩ := placed.caller before owns
        have mine := sleepers.mark c p k lk' ret at_ pc
        rw [on] at mine
        cases mine
        refine sleepers.window c p at_ ?_
        rw [pc]
        exact rfl
      · rw [state, update_of_ne self] at asleep
        exact sleepers.asleep p asleep on
    | wake old before inside holds noWindow after chans state =>
      rw [chans] at on
      exact absurd on (state p asleep).2
  · -- the channel is set
    intro d p k' lk'' ret' at_ pc
    by_cases self : d = c
    · subst self
      have code := code_of_thread at_
      rw [pc] at code
      cases story with
      | quiet still => exact absurd code (still.mark k' lk'' ret')
      | prepare q k lk' ret owns before after chans state history =>
        rw [after] at code
        cases code
        have loc := move.thread_self before at_
        rw [own loc] at owns
        cases owns
        rw [chans, update_self]
      | asleep q k lk' ret owns before after chans state history =>
        rw [after] at code
        cases code
      | wake old before inside holds noWindow after chans state =>
        exact absurd rfl ((after _ code).2.2 k' lk'' ret')
    · obtain ⟨loc, same⟩ := others self at_
      have before := sleepers.mark d p k' lk'' ret' loc (same.trans pc)
      cases story with
      | quiet still => grind [still.chans]
      | prepare q k lk' ret owns _ after chans state history =>
        rw [chans, update_of_ne (apart self loc owns), before]
      | asleep q k lk' ret owns _ after chans state history => rw [chans, before]
      | wake old _ inside holds noWindow after chans state => rw [chans, before]
  · -- the wakers
    intro d ret code
    by_cases self : d = c
    · subst self
      cases story with
      | quiet still => exact still.waker ret code
      | prepare q k lk' ret' owns before after chans state history =>
        rw [after] at code
        cases code
      | asleep q k lk' ret' owns before after chans state history =>
        rw [after] at code
        cases code
      | wake old before inside holds noWindow after chans state =>
        exact absurd rfl ((after _ code).2.1 chan ret)
    · exact wakers d ret self code

end Sleepers

end Xv6Tracing.Sched
