import Xv6Tracing.Process.Attribution

/-!
# The dashboard

The main loop of `trace.c` with the boards that it draws.
-/

set_option autoImplicit false

namespace Xv6Tracing.Trace

open Ktrace Process Lib

/-- What the command line and `getpid` set. -/
structure Options where
  filter_type : CInt
  filter_pid : CInt
  limit : CInt
  display_rows : CInt
  self_pid : CInt

structure Counts where
  sys_count : CInt
  proc_count : CInt
  mem_count : CInt
  trap_count : CInt
deriving DecidableEq

def Counts.update (c : Counts) (event : TraceEvent) : Counts :=
  if event.type = TRACE_TYPE_SYSCALL then { c with sys_count := c.sys_count + 1 }
  else if event.type = TRACE_TYPE_PROC then { c with proc_count := c.proc_count + 1 }
  else if event.type = TRACE_TYPE_MEM then { c with mem_count := c.mem_count + 1 }
  else if event.type = TRACE_TYPE_TRAP then { c with trap_count := c.trap_count + 1 }
  else c

/-- What `drawBoard` puts on the screen. -/
structure Board where
  filter_type : CInt
  filter_pid : CInt
  limit : CInt
  captured : CInt
  overwritten : Uint
  showing : Counts
  total : Counts
  rows : List TraceEvent

/-- The variables of `main`, and the boards drawn, the last one first. -/
structure Dash where
  recent : Fin 32 → TraceEvent
  recent_count : Nat
  recent_start : Fin 32
  seen : CInt
  activity : Fin 50 → CInt
  activity_pos : Fin 50
  last_tick : CInt
  overwritten : Uint
  showing : Counts
  total : Counts
  drawn : List Board

def initial (blank : TraceEvent) : Dash where
  recent _ := blank
  recent_count := 0
  recent_start := 0
  seen := 0
  activity _ := 0
  activity_pos := 0
  last_tick := -1
  overwritten := 0
  showing := ⟨0, 0, 0, 0⟩
  total := ⟨0, 0, 0, 0⟩
  drawn := []

def drawBoard (o : Options) (s : Dash) : Dash :=
  let count := min s.recent_count (min o.display_rows.toInt.toNat 32)
  { s with drawn := ⟨o.filter_type, o.filter_pid, o.limit, s.seen, s.overwritten, s.showing, s.total,
      (List.range count).map fun i => s.recent (s.recent_start + Fin.ofNat 32 i)⟩ :: s.drawn }

def advance : Nat → Dash → Dash
  | 0, s => s
  | n + 1, s =>
    advance n { s with
      activity_pos := s.activity_pos + 1
      activity := Function.update s.activity (s.activity_pos + 1) 0 }

/-- The graph moves on to `now`.  An event's ticks are compared as a `uint`. -/
def passTo (later : CInt → CInt → Bool) (now : CInt) (s : Dash) : Dash :=
  let last := if s.last_tick = -1 then now else s.last_tick
  if later last now then
    { advance (if (now - last).toInt > 50 then 50 else (now - last).toInt.toNat) s with
      last_tick := now }
  else { s with last_tick := last }

def remember (event : TraceEvent) (s : Dash) : Dash :=
  if s.recent_count < 32 then
    { s with
      recent := Function.update s.recent (Fin.ofNat 32 s.recent_count) event
      recent_count := s.recent_count + 1 }
  else
    { s with
      recent := Function.update s.recent s.recent_start event
      recent_start := s.recent_start + 1 }

/-- What `traceread` returned, for 0 with the two values of `uptime` after it. -/
inductive Read where
  | failed
  | idle (uptime now : CInt)
  | event (event : TraceEvent)

/-- One turn of the loop; `none` is its end. -/
def step (o : Options) (s : Dash) (read : Read) : Option Dash :=
  if ¬ (o.limit = 0 ∨ s.seen.slt o.limit) then none
  else match read with
  | .failed => none
  | .idle uptime now =>
    if o.limit = 0 ∧ s.recent_count > 0 then none
    else if o.limit = 0 ∧ s.seen = 0 ∧ (uptime - s.last_tick).toInt > 10 then none
    else
      let t := passTo BitVec.slt now s
      some (if s.last_tick ≠ -1 ∧ s.last_tick.slt now then drawBoard o t else t)
  | .event event =>
    let s := { s with total := s.total.update event, overwritten := event.overwritten }
    if want_event event o.filter_type o.filter_pid o.self_pid then
      let s := passTo BitVec.ult event.ticks { s with showing := s.showing.update event }
      let s := { s with
        activity := Function.update s.activity s.activity_pos (s.activity s.activity_pos + 1) }
      let s := drawBoard o (remember event s)
      some { s with seen := s.seen + 1 }
    else some s

def accepted (o : Options) : List Read → List TraceEvent
  | [] => []
  | .event e :: reads =>
    if want_event e o.filter_type o.filter_pid o.self_pid then e :: accepted o reads
    else accepted o reads
  | _ :: reads => accepted o reads

/-- The board is up to date with the events accepted. -/
structure Current (o : Options) (events : List TraceEvent) (b : Board) : Prop where
  captured : b.captured = BitVec.ofNat 32 events.length
  sum : b.captured = b.showing.sys_count + b.showing.proc_count + b.showing.mem_count +
    b.showing.trap_count
  rows : b.rows = events.drop (events.length - o.display_rows.toInt.toNat)

variable {o : Options} {s t : Dash} {read : Read}

theorem advance_seen (n : Nat) : (advance n s).seen = s.seen := by
  induction n generalizing s with
  | zero => rfl
  | succ n ih => exact ih

theorem passTo_seen (later : CInt → CInt → Bool) (now : CInt) :
    (passTo later now s).seen = s.seen := by
  unfold passTo
  generalize (if s.last_tick = -1 then now else s.last_tick) = last
  dsimp only
  split
  · exact advance_seen _
  · rfl

theorem remember_seen (e : TraceEvent) : (remember e s).seen = s.seen := by
  unfold remember
  split <;> rfl

/-- An accepted event draws a board with the number of those before it. -/
theorem step_accepted {e : TraceEvent}
    (wanted : want_event e o.filter_type o.filter_pid o.self_pid = true)
    (taken : step o s (.event e) = some t) :
    t.seen = s.seen + 1 ∧ ∃ b, t.drawn.head? = some b ∧ b.captured = s.seen := by
  simp only [step, wanted, if_true] at taken
  split at taken
  · cases taken
  · cases taken
    simp only [drawBoard, remember_seen, passTo_seen, List.head?_cons]
    exact ⟨trivial, _, rfl, rfl⟩

theorem step_seen (taken : step o s read = some t) :
    t.seen = s.seen + BitVec.ofNat 32 (accepted o [read]).length := by
  cases read with
  | failed => simp [step] at taken
  | idle uptime now =>
    simp only [step] at taken
    split_ifs at taken <;> cases taken <;> simp [drawBoard, passTo_seen, accepted]
  | event e =>
    by_cases wanted : want_event e o.filter_type o.filter_pid o.self_pid = true
    · simpa [accepted, wanted] using (step_accepted wanted taken).1
    · simp only [step, wanted] at taken
      split at taken <;> cases taken
      simp [accepted, wanted]

theorem accepted_cons (reads : List Read) :
    accepted o (read :: reads) = accepted o [read] ++ accepted o reads := by
  cases read with
  | event e =>
    simp only [accepted]
    split <;> rfl
  | _ => rfl

theorem run_seen {reads : List Read} (ran : run (step o) s reads = some t) :
    t.seen = s.seen + BitVec.ofNat 32 (accepted o reads).length := by
  induction reads generalizing s with
  | nil =>
    cases ran
    simp [accepted]
  | cons read reads ih =>
    simp only [run] at ran
    split at ran
    · cases ran
    · rename_i u taken
      rw [ih ran, step_seen taken, accepted_cons reads, List.length_append, BitVec.ofNat_add,
        BitVec.add_assoc]

/-- `drawBoard` comes before `seen++`: the board that an accepted event draws is never up
to date. -/
theorem board_never_current (o : Options) (blank : TraceEvent) (reads : List Read) (s t : Dash)
    (e : TraceEvent) (ran : run (step o) (initial blank) reads = some s)
    (wanted : want_event e o.filter_type o.filter_pid o.self_pid = true)
    (taken : step o s (.event e) = some t) :
    ∃ b, t.drawn.head? = some b ∧ ¬ Current o (accepted o reads ++ [e]) b := by
  obtain ⟨-, b, drawn, captured⟩ := step_accepted wanted taken
  refine ⟨b, drawn, fun current => ?_⟩
  have shown := current.captured
  rw [captured, run_seen ran, List.length_append, BitVec.ofNat_add] at shown
  simp [initial] at shown

/-- An event of process 5. -/
def sample : TraceEvent where
  seq := 1
  ticks := 7
  type := TRACE_TYPE_SYSCALL
  pid := 5
  arg0 := 0
  arg1 := 0
  arg2 := 0
  comm := ⟨List.replicate 16 0, rfl, by decide⟩
  event := ⟨List.replicate 16 0, rfl, by decide⟩
  overwritten := 0

def tenEvents : Options := ⟨0, -1, 10, 15, 3⟩

theorem board_never_current_first :
    ∃ t b, step tenEvents (initial sample) (.event sample) = some t ∧ t.drawn.head? = some b ∧
      ¬ Current tenEvents [sample] b := by
  obtain ⟨t, taken⟩ : ∃ t, step tenEvents (initial sample) (.event sample) = some t := ⟨_, rfl⟩
  obtain ⟨b, drawn, stale⟩ :=
    board_never_current tenEvents sample [] (initial sample) t sample rfl (by decide) taken
  exact ⟨t, b, taken, drawn, stale⟩

theorem first_board_shows_none :
    ¬ ∀ t b, step tenEvents (initial sample) (.event sample) = some t →
      t.drawn.head? = some b → Current tenEvents [sample] b := by
  intro current
  obtain ⟨t, taken⟩ : ∃ t, step tenEvents (initial sample) (.event sample) = some t := ⟨_, rfl⟩
  obtain ⟨-, b, drawn, captured⟩ := step_accepted (by decide) taken
  have shown := (current t b taken drawn).captured
  rw [captured] at shown
  exact absurd shown (by decide)

theorem step_of_ended (ended : ¬ (o.limit = 0 ∨ s.seen.slt o.limit)) : step o s read = none :=
  if_pos ended

section Live

variable (live : 0 < o.limit.toInt)

include live

theorem goes_on_iff (within : s.seen.toNat ≤ o.limit.toNat) :
    (o.limit = 0 ∨ s.seen.slt o.limit) ↔ s.seen.toNat < o.limit.toNat := by
  have positive : o.limit ≠ 0 := by
    rintro zero
    simp [zero] at live
  have limit := BitVec.toInt_eq_toNat_cond o.limit
  have seen := BitVec.toInt_eq_toNat_cond s.seen
  have bound := o.limit.isLt
  rw [or_iff_right positive, BitVec.slt_iff_toInt_lt]
  split_ifs at limit seen <;> omega

theorem step_within_limit (within : s.seen.toNat ≤ o.limit.toNat)
    (taken : step o s read = some t) :
    t.seen.toNat = s.seen.toNat + (accepted o [read]).length ∧ t.seen.toNat ≤ o.limit.toNat := by
  have below : s.seen.toNat < o.limit.toNat := by
    rw [← goes_on_iff live within]
    by_contra ended
    rw [step_of_ended ended] at taken
    cases taken
  have one : (accepted o [read]).length ≤ 1 := by
    cases read <;> simp only [accepted] <;> (try split) <;> simp
  have counted := congrArg BitVec.toNat (step_seen taken)
  rw [BitVec.toNat_add, BitVec.toNat_ofNat] at counted
  omega

theorem run_within_limit {reads : List Read} (within : s.seen.toNat ≤ o.limit.toNat)
    (ran : run (step o) s reads = some t) :
    t.seen.toNat = s.seen.toNat + (accepted o reads).length ∧ t.seen.toNat ≤ o.limit.toNat := by
  induction reads generalizing s with
  | nil =>
    cases ran
    exact ⟨rfl, within⟩
  | cons read reads ih =>
    obtain ⟨u, taken, rest⟩ := run_cons_eq_some ran
    obtain ⟨first, within⟩ := step_within_limit live within taken
    obtain ⟨later, within⟩ := ih within rest
    rw [accepted_cons, List.length_append]
    exact ⟨by omega, within⟩

end Live

/-- In live mode the loop ends exactly when it has accepted `limit` events. -/
theorem live_loop_ends_at_limit (o : Options) (blank : TraceEvent) (reads : List Read) (s : Dash)
    (live : 0 < o.limit.toInt) (ran : run (step o) (initial blank) reads = some s) :
    (accepted o reads).length ≤ o.limit.toNat ∧
      ((∀ read, step o s read = none) ↔ (accepted o reads).length = o.limit.toNat) := by
  obtain ⟨counted, within⟩ := run_within_limit live (Nat.zero_le _) ran
  have seen : s.seen.toNat = (accepted o reads).length := counted.trans (Nat.zero_add _)
  have goes := goes_on_iff live within
  refine ⟨seen ▸ within, fun ended => ?_, fun all read => ?_⟩
  · by_contra fewer
    have next := ended (.event blank)
    rw [step, if_neg (not_not.mpr (goes.mpr (by omega)))] at next
    dsimp only at next
    split at next <;> cases next
  · exact step_of_ended fun on => absurd (goes.mp on) (by omega)

theorem live_loop_ends_at_limit_first : (accepted tenEvents [.event sample]).length ≤ 10 := by
  obtain ⟨t, ran⟩ : ∃ t, run (step tenEvents) (initial sample) [.event sample] = some t := ⟨_, rfl⟩
  exact (live_loop_ends_at_limit tenEvents sample _ t (by decide) ran).1

end Xv6Tracing.Trace
