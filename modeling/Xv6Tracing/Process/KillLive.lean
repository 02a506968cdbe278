import Xv6Tracing.Process.Sections

/-!
# Which slots `kill` reaches

`kill` looks at the pid of every slot and at nothing else.  A free slot has pid 0 and
`killed` clear: `wait` resets both, and the failure paths of `fork`, which do not, are
never taken because `kalloc` does not return 0.
-/

set_option autoImplicit false

namespace Xv6Tracing.Ptable

open Process Lib

def Clean (p : Proc) : Prop := p.state = .UNUSED → p.pid = 0 ∧ p.killed = false

structure CleanSlots (s : Procs) : Prop where
  nonNull : NonNull s.kernel
  clean : ∀ j, Clean (s.proc j)

/-- `kill(pid)` finds a process exactly when one that is not `UNUSED` has the pid,
and leaves the free slots alone. -/
structure KillExact (k : Kernel) (pid : CInt) : Prop where
  found : (kill k pid).1 = 0 ↔ ∃ j, (k.proc j).state ≠ .UNUSED ∧ (k.proc j).pid = pid
  unused : ∀ j, (k.proc j).state = .UNUSED → (kill k pid).2.proc j = k.proc j

def Names (k : Kernel) (pid : CInt) : Prop := pid ≠ 0 ∨ ∀ j, (k.proc j).state ≠ .UNUSED

/-- `newborn` is about the slot `fork` takes, in the section that takes it. -/
structure KillsLive (s : Procs) : Prop where
  kills : ∀ pid, Names s.kernel pid → KillExact s.kernel pid
  unused : ∀ j, (s.proc j).state = .UNUSED → (s.proc j).killed = false
  newborn : ∀ i np t, s.pc i = .outside → step s (.fork i) = some t → t.pc i = .forking np →
    (t.proc np).state = .EMBRYO ∧ (t.proc np).killed = false

variable {k : Kernel} {s t : Procs}

theorem killExact_of_names (clean : ∀ j, Clean (k.proc j)) {pid : CInt}
    (names : Names k pid) : KillExact k pid := by
  have live : ∀ j, (k.proc j).pid = pid → (k.proc j).state ≠ .UNUSED := by
    intro j same unused
    rcases names with nonzero | full
    · exact nonzero (same.symm.trans (clean j unused).1)
    · exact full j unused
  constructor
  · unfold kill
    grind
  · intro j unused
    unfold kill
    grind [setProc_proc_of_ne]

theorem Quiet.was_unused (slots : Quiet s t) {j : Fin NPROC}
    (free : (t.proc j).state = .UNUSED) : (s.proc j).state = .UNUSED := by
  rcases slots.state j with same | ⟨-, up⟩
  · rwa [← same]
  · simp [Up, free] at up

theorem clean_of_live {p : Proc} (live : p.state ≠ .UNUSED) : Clean p :=
  fun unused => absurd unused live

/-- Every step but a `kill` of the free slots' pid keeps the free slots clean. -/
theorem cleanSlots_step {op : ProcOp} (holds : CleanSlots s)
    (names : ∀ i pid, op = .kill i pid → Names s.kernel pid) (taken : step s op = some t) :
    CleanSlots t := by
  have clean := holds.clean
  cases step_move taken with
  | quiet slots unused =>
    refine ⟨slots.nonNull holds.nonNull, fun j free => ?_⟩
    rw [unused j (slots.was_unused free)]
    exact clean j (slots.was_unused free)
  | @kill i pid same =>
    subst same
    have slots := quiet_kill s pid
    refine ⟨slots.nonNull holds.nonNull, fun j free => ?_⟩
    have was := slots.was_unused free
    have same := (killExact_of_names clean (names i pid rfl)).unused j was
    rw [kernel_proc, same]
    exact clean j was
  | @allocated i np _ _ _ proc _ frame =>
    refine ⟨frame.nonNull holds.nonNull, fun j => ?_⟩
    rw [proc]
    grind [clean_of_live]
  | failed null => exact absurd holds.nonNull null
  | @copied i np _ _ _ filled others _ frame =>
    refine ⟨frame.nonNull holds.nonNull, fun j => ?_⟩
    grind [Clean, filled.state, filled.pid, filled.killed]
  | @started i np _ _ proc _ frame =>
    refine ⟨frame.nonNull holds.nonNull, fun j => ?_⟩
    rw [proc]
    grind [clean_of_live]
  | @exited i _ _ _ slots _ frame =>
    refine ⟨frame.nonNull holds.nonNull, fun j free => ?_⟩
    have other : j ≠ i := by
      rintro rfl
      rw [slots.zombie] at free
      cases free
    have was : (s.proc j).state = .UNUSED := by grind [slots.state]
    rw [slots.pid, slots.killed]
    exact clean j was
  | @reaped i l _ _ _ _ reset others _ frame =>
    refine ⟨frame.nonNull holds.nonNull, fun j => ?_⟩
    by_cases freed : j = l
    · subst freed
      exact fun _ => ⟨reset.pid, reset.killed⟩
    · rw [others j freed]
      exact clean j
  | refused _ _ kernel => exact ⟨by rw [kernel]; exact holds.nonNull, fun j => by
    unfold Procs.proc; rw [kernel]; exact clean j⟩
  | @waits i _ _ _ proc _ frame =>
    refine ⟨frame.nonNull holds.nonNull, fun j => ?_⟩
    rw [proc]
    grind [clean_of_live]

theorem killsLive_of_clean (holds : CleanSlots s) : KillsLive s where
  kills _ names := killExact_of_names holds.clean names
  unused j free := (holds.clean j free).2
  newborn := by
    intro i np t here taken forking
    cases step_move taken with
    | quiet slots _ =>
      rw [slots.pc, here] at forking
      cases forking
    | @allocated _ new _ _ unused proc _ _ _ pc =>
      rw [pc, Function.update_self] at forking
      cases forking
      rw [proc, Function.update_self]
      exact ⟨rfl, (holds.clean np unused).2⟩

theorem cleanSlots_boot {r : Fin NPROC} (booted : Booted k r) :
    CleanSlots (boot k) := by
  refine ⟨booted.nonNull, fun j => ?_⟩
  by_cases first : j = r
  · subst first
    exact clean_of_live (by simp [boot, Procs.proc, booted.state])
  · have unused : (boot k).proc j = Proc.unused := booted.others j first
    rw [unused]
    exact fun _ => ⟨rfl, rfl⟩

/-- In every run whose calls of `kill` do not ask for the pid of the free slots,
`kill` reaches live processes only. -/
theorem kill_reaches_live (kend : AddrT) (freelist : List AddrT) (setup : List PageCall)
    (nonNull : ∀ v ∈ freelist, v ≠ 0) (k : Kernel) (started : main kend freelist setup = some k)
    (ops : List ProcOp)
    (names : Along step (fun s op => ∀ i pid, op = .kill i pid → Names s.kernel pid) (boot k) ops) :
    Throughout step KillsLive (boot k) ops := by
  obtain ⟨r, booted⟩ := main_booted nonNull started
  exact throughout_of_along (fun _ _ _ holds meets taken => cleanSlots_step holds meets taken)
    (fun _ => killsLive_of_clean) ops (boot k) (cleanSlots_boot booted) names

def firstKill : List ProcOp := [.schedule 0, .kill 0 1, .fork 0]

theorem kill_reaches_live_of_own_pid :
    ∃ k, main (KERNBASE + 0x200000) tenPages firstSetup = some k ∧
      (run step (boot k) firstKill).isSome ∧ Throughout step KillsLive (boot k) firstKill := by
  have runs : ((main (KERNBASE + 0x200000) tenPages firstSetup).bind
      fun k => run step (boot k) firstKill).isSome := by decide +kernel
  obtain ⟨t, ran⟩ := Option.isSome_iff_exists.mp runs
  obtain ⟨k, started, ran⟩ := Option.bind_eq_some_iff.mp ran
  refine ⟨k, started, by rw [ran]; rfl, ?_⟩
  apply kill_reaches_live _ tenPages firstSetup tenPages_nonNull k started firstKill
  refine ⟨by simp, fun _ _ => ⟨?_, fun _ _ => ⟨by simp, fun _ _ => trivial⟩⟩⟩
  rintro i pid ⟨⟩
  exact Or.inl (by decide)

/-- The first process calls `kill(0)`: it is told that the process was found, and
the slot of the child it forks next has `killed` set. -/
theorem kill_zero_marks_free_slot :
    ∃ k s t, main (KERNBASE + 0x200000) tenPages firstSetup = some k ∧
      run step (boot k) [.schedule 0] = some s ∧
      (kill s.kernel 0).1 = 0 ∧ (∀ j, (s.proc j).state ≠ .UNUSED → (s.proc j).pid ≠ 0) ∧
      (s.proc 1).state = .UNUSED ∧ ((kill s.kernel 0).2.proc 1).killed = true ∧
      run step s [.kill 0 0, .fork 0] = some t ∧
      t.pc 0 = .forking 1 ∧ (t.proc 1).killed = true := by
  have runs : ((main (KERNBASE + 0x200000) tenPages firstSetup).bind fun k =>
      (run step (boot k) [.schedule 0]).bind fun s =>
        (run step s [.kill 0 0, .fork 0]).map fun t =>
          decide ((kill s.kernel 0).1 = 0 ∧
            (∀ j, (s.proc j).state ≠ .UNUSED → (s.proc j).pid ≠ 0) ∧
            (s.proc 1).state = .UNUSED ∧ ((kill s.kernel 0).2.proc 1).killed = true ∧
            t.pc 0 = .forking 1 ∧ (t.proc 1).killed = true)) = some true := by decide +kernel
  obtain ⟨k, started, runs⟩ := Option.bind_eq_some_iff.mp runs
  obtain ⟨s, scheduled, runs⟩ := Option.bind_eq_some_iff.mp runs
  obtain ⟨t, ran, facts⟩ := Option.map_eq_some_iff.mp runs
  obtain ⟨found, live, free, marked, forking, killed⟩ := of_decide_eq_true facts
  exact ⟨k, s, t, started, scheduled, found, live, free, marked, ran, forking, killed⟩

end Xv6Tracing.Ptable
