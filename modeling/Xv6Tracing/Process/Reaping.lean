import Xv6Tracing.Process.Sections

/-!
# Who reaps whom

What the calls of `wait` return, told by the history alone: every pid is that of one
process, which is returned by one call at most, to its forker or, once that has exited,
to init.  A process asleep in `wait` has no zombie child because `exit` wakes the parent
up and, for children it passes on, init.
-/

set_option autoImplicit false

namespace Xv6Tracing.Ptable

open Function (update update_of_ne update_self)

open Process Lib

/-! ## What is proved of a history -/

def Returned (before : List ProcEvent) (pid : CInt) : Prop :=
  ∃ waiter killed, .returned waiter pid killed ∈ before

/-- `parent` forked `child`, or is init and the forker has exited. -/
def ChildOf (init : CInt) (before : List ProcEvent) (parent child : CInt) : Prop :=
  ∃ forker, .forked forker child ∈ before ∧
    (.exited forker ∈ before ∧ parent = init ∨ .exited forker ∉ before ∧ parent = forker)

/-- The last event against those before it.  A call of `wait` that returns -1 was
made by a process that has been killed or whose children have all been returned
before; any other returns a child that has exited, for the first time. -/
def EventExact (init : CInt) (before : List ProcEvent) : ProcEvent → Prop
  | .forked _ child => ∀ forker, .forked forker child ∉ before
  | .exited pid => .exited pid ∉ before
  | .returned waiter ret killed =>
    if ret = -1 then
      killed = true ∨ ∀ child, ChildOf init before waiter child → Returned before child
    else .exited ret ∈ before ∧ ¬ Returned before ret ∧ ChildOf init before waiter ret

def Exact (init : CInt) : List ProcEvent → Prop
  | [] => True
  | event :: before => EventExact init before event ∧ Exact init before

def initPid (s : Procs) : CInt := pidOf (s.kernel.current s.kernel.initproc)

structure ReapsExactly (s : Procs) : Prop where
  history : Exact (initPid s) s.history
  distinct : ∀ i j, (s.proc i).state ≠ .UNUSED → (s.proc j).state ≠ .UNUSED →
    (s.proc i).pid = (s.proc j).pid → i = j
  awake : ∀ i j, s.pc i = .waiting → (s.proc i).state = .SLEEPING →
    (s.proc j).parent = some i → (s.proc j).state ≠ .ZOMBIE

/-! ## The table -/

def Pc.Owns (pc : Pc) (np : Fin NPROC) : Prop := pc = .forking np ∨ pc = .starting np

structure Table (s : Procs) (r : Fin NPROC) : Prop where
  nonNull : NonNull s.kernel
  initproc : s.kernel.initproc = some r
  initUp : Up (s.proc r)
  small : s.kernel.nextpid.toNat ≤ 2 ^ 31 + 1
  pid_lt : ∀ j, (s.proc j).state ≠ .UNUSED → (s.proc j).pid.toNat < s.kernel.nextpid.toNat
  distinct : ∀ i j, (s.proc i).state ≠ .UNUSED → (s.proc j).state ≠ .UNUSED →
    (s.proc i).pid = (s.proc j).pid → i = j
  unused : ∀ j, (s.proc j).state = .UNUSED → (s.proc j).parent = none
  initParent : (s.proc r).parent = none
  parentUp : ∀ j p, (s.proc j).parent = some p → p ≠ j ∧ Up (s.proc p)
  pcUp : ∀ i, s.pc i ≠ .outside → Up (s.proc i)
  embryo : ∀ i np, (s.pc i).Owns np → (s.proc np).state = .EMBRYO
  forking : ∀ i np, s.pc i = .forking np → (s.proc np).parent = none
  owner : ∀ i j np, (s.pc i).Owns np → (s.pc j).Owns np → i = j
  sleeper : ∀ i, s.pc i = .waiting → (s.proc i).state = .SLEEPING → s.chan i = some (.proc i)
  awake : ∀ i j, s.pc i = .waiting → (s.proc i).state = .SLEEPING →
    (s.proc j).parent = some i → (s.proc j).state ≠ .ZOMBIE

theorem of_update {α β : Type} [DecidableEq α] {f g : α → β} {a : α} {b : β}
    (changed : f = update g a b) : f a = b ∧ ∀ x, x ≠ a → f x = g x := by
  subst changed
  exact ⟨update_self .., fun x other => update_of_ne other ..⟩

theorem not_up {p : Proc} (idle : p.state = .UNUSED ∨ p.state = .EMBRYO ∨ p.state = .ZOMBIE) :
    ¬ Up p := by
  unfold Up
  rcases idle with state | state | state <;> simp [state]

variable {s t : Procs} {r : Fin NPROC} {k : Kernel}

theorem Quiet.state_iff (slots : Quiet s t) {state : ProcState} (j : Fin NPROC)
    (idle : state = .UNUSED ∨ state = .EMBRYO ∨ state = .ZOMBIE) :
    (t.proc j).state = state ↔ (s.proc j).state = state := by
  rcases slots.state j with same | ⟨before, after⟩
  · rw [same]
  · constructor
    · rintro rfl
      exact absurd after (not_up idle)
    · rintro rfl
      exact absurd before (not_up idle)

theorem Quiet.up (slots : Quiet s t) {j : Fin NPROC} (up : Up (s.proc j)) :
    Up (t.proc j) := by
  rcases slots.state j with same | ⟨-, up⟩
  · simpa [Up, same] using up
  · exact up

section Step

variable {s t : Procs} {r : Fin NPROC}

theorem table_of_quiet (table : Table s r) (slots : Quiet s t) : Table t r := by
  have unused := fun j => slots.state_iff j (Or.inl rfl)
  have embryo := fun j => slots.state_iff j (Or.inr (Or.inl rfl))
  have zombie := fun j => slots.state_iff j (Or.inr (Or.inr rfl))
  exact {
    nonNull := slots.nonNull table.nonNull
    initproc := slots.initproc.trans table.initproc
    initUp := slots.up table.initUp
    small := by rw [slots.nextpid]; exact table.small
    pid_lt := by simpa only [slots.pid, slots.nextpid, ne_eq, unused] using table.pid_lt
    distinct := by simpa only [slots.pid, ne_eq, unused] using table.distinct
    unused := by simpa only [slots.parent, unused] using table.unused
    initParent := (slots.parent r).trans table.initParent
    parentUp := by
      intro j p child
      rw [slots.parent] at child
      obtain ⟨other, up⟩ := table.parentUp j p child
      exact ⟨other, slots.up up⟩
    pcUp := by
      intro i inside
      rw [slots.pc] at inside
      exact slots.up (table.pcUp i inside)
    embryo := by simpa only [slots.pc, embryo] using table.embryo
    forking := by simpa only [slots.pc, slots.parent] using table.forking
    owner := by simpa only [slots.pc] using table.owner
    sleeper := by
      intro i waiting asleep
      rw [slots.pc] at waiting
      obtain ⟨before, chan⟩ := slots.sleeper i waiting asleep
      rw [chan]
      exact table.sleeper i waiting before
    awake := by
      intro i j waiting asleep child
      rw [slots.pc] at waiting
      rw [slots.parent] at child
      rw [ne_eq, zombie]
      exact table.awake i j waiting (slots.sleeper i waiting asleep).1 child }

variable {i np : Fin NPROC}

section

variable (table : Table s r)

include table

theorem table_of_allocated
    (running : (s.proc i).state = .RUNNING) (unused : (s.proc np).state = .UNUSED)
    (proc : t.proc = update s.proc np
      { s.proc np with state := .EMBRYO, pid := s.kernel.nextpid })
    (room : s.kernel.nextpid.toNat ≤ 2 ^ 31)
    (nextpid : t.kernel.nextpid.toNat = s.kernel.nextpid.toNat + 1) (frame : Frame s t)
    (chan : t.chan = s.chan) (pc : t.pc = update s.pc i (.forking np)) : Table t r := by
  obtain ⟨own, others⟩ := of_update proc
  obtain ⟨pcOwn, pcOthers⟩ := of_update pc
  have up : ∀ j, Up (s.proc j) → Up (t.proc j) := by
    intro j before
    rw [others j (by rintro rfl; exact not_up (Or.inl unused) before)]
    exact before
  have parent : ∀ j, (t.proc j).parent = (s.proc j).parent := by
    intro j
    by_cases new : j = np
    · rw [new, own]
    · rw [others j new]
  exact {
    nonNull := frame.nonNull table.nonNull
    initproc := frame.initproc.trans table.initproc
    initUp := up r table.initUp
    small := by omega
    pid_lt := by
      intro j used
      by_cases new : j = np
      · subst new
        rw [own]
        show s.kernel.nextpid.toNat < t.kernel.nextpid.toNat
        omega
      · rw [others j new] at used ⊢
        have := table.pid_lt j used
        omega
    distinct := by grind [Table]
    unused := by grind [Table]
    initParent := (parent r).trans table.initParent
    parentUp := by grind [Table]
    pcUp := by grind [Table, up_of_running]
    embryo := by grind [Table, Pc.Owns]
    forking := by grind [Table]
    owner := by grind [Table, Pc.Owns]
    sleeper := by grind [Table]
    awake := by grind [Table] }

theorem table_of_copied
    (running : (s.proc i).state = .RUNNING) (here : s.pc i = .forking np)
    (filled : Filled (s.proc np) (t.proc np) i) (others : ∀ l, l ≠ np → t.proc l = s.proc l)
    (nextpid : t.kernel.nextpid = s.kernel.nextpid) (frame : Frame s t)
    (chan : t.chan = s.chan) (pc : t.pc = update s.pc i (.starting np)) : Table t r := by
  have embryo := table.embryo i np (Or.inl here)
  obtain ⟨pcOwn, pcOthers⟩ := of_update pc
  have upOther : ∀ j, Up (s.proc j) → j ≠ np := by
    rintro j before rfl
    exact not_up (Or.inr (Or.inl embryo)) before
  have up : ∀ j, Up (s.proc j) → Up (t.proc j) := fun j before => by
    rw [others j (upOther j before)]
    exact before
  exact {
    nonNull := frame.nonNull table.nonNull
    initproc := frame.initproc.trans table.initproc
    initUp := up r table.initUp
    small := by rw [nextpid]; exact table.small
    pid_lt := by grind [Table, Filled]
    distinct := by grind [Table, Filled]
    unused := by grind [Table, Filled]
    initParent := by
      rw [others r (upOther r table.initUp)]
      exact table.initParent
    parentUp := by grind [Table, Filled, up_of_running]
    pcUp := by grind [Table, up_of_running]
    embryo := by grind [Table, Pc.Owns, Filled]
    forking := by grind [Table, Pc.Owns]
    owner := by grind [Table, Pc.Owns]
    sleeper := by grind [Table]
    awake := by grind [Table, Filled] }

theorem table_of_started (here : s.pc i = .starting np)
    (proc : t.proc = update s.proc np { s.proc np with state := .RUNNABLE })
    (nextpid : t.kernel.nextpid = s.kernel.nextpid) (frame : Frame s t)
    (chan : t.chan = s.chan) (pc : t.pc = update s.pc i .outside) : Table t r := by
  have embryo := table.embryo i np (Or.inr here)
  obtain ⟨own, others⟩ := of_update proc
  obtain ⟨pcOwn, pcOthers⟩ := of_update pc
  have upOther : ∀ j, Up (s.proc j) → j ≠ np := by
    rintro j before rfl
    exact not_up (Or.inr (Or.inl embryo)) before
  have up : ∀ j, Up (s.proc j) → Up (t.proc j) := fun j before => by
    rw [others j (upOther j before)]
    exact before
  have parent : ∀ j, (t.proc j).parent = (s.proc j).parent := by
    intro j
    by_cases new : j = np
    · rw [new, own]
    · rw [others j new]
  exact {
    nonNull := frame.nonNull table.nonNull
    initproc := frame.initproc.trans table.initproc
    initUp := up r table.initUp
    small := by rw [nextpid]; exact table.small
    pid_lt := by grind [Table]
    distinct := by grind [Table]
    unused := by grind [Table]
    initParent := (parent r).trans table.initParent
    parentUp := by grind [Table]
    pcUp := by grind [Table]
    embryo := by grind [Table, Pc.Owns]
    forking := by grind [Table]
    owner := by grind [Table, Pc.Owns]
    sleeper := by grind [Table]
    awake := by grind [Table] }

/-- `exit`: a parent asleep in `wait` is woken up, and init when it gets a zombie. -/
theorem table_of_exited (here : s.pc i = .outside)
    (running : (s.proc i).state = .RUNNING)
    (notInit : s.kernel.initproc ≠ some i) (slots : Exited s t i)
    (nextpid : t.kernel.nextpid = s.kernel.nextpid) (frame : Frame s t)
    (chan : t.chan = s.chan) (pc : t.pc = s.pc) : Table t r := by
  have other : r ≠ i := by
    rintro rfl
    exact notInit table.initproc
  have state := slots.state
  have up : ∀ j, j ≠ i → Up (s.proc j) → Up (t.proc j) := by grind [Up]
  have parent : ∀ j, (t.proc j).parent =
      if (s.proc j).parent = some i then some r else (s.proc j).parent := by
    intro j
    rw [slots.parent, table.initproc]
  exact {
    nonNull := frame.nonNull table.nonNull
    initproc := frame.initproc.trans table.initproc
    initUp := up r other table.initUp
    small := by rw [nextpid]; exact table.small
    pid_lt := by grind [Table, Exited]
    distinct := by grind [Table, Exited]
    unused := by grind [Table, Exited]
    initParent := by grind [Table]
    parentUp := by grind [Table]
    pcUp := by grind [Table]
    embryo := by
      rw [pc]
      grind [Table, Exited]
    forking := by
      intro a np owns
      rw [pc] at owns
      simp [parent, table.forking a np owns]
    owner := by simpa only [pc] using table.owner
    sleeper := by
      rw [pc, chan]
      grind [Table, Exited]
    awake := by
      intro a j waiting asleep child zombie
      have waitingBefore : s.pc a = .waiting := by rw [← pc]; exact waiting
      have awayFromExit : a ≠ i := by
        rintro rfl
        rw [here] at waitingBefore
        cases waitingBefore
      have asleepBefore : (s.proc a).state = .SLEEPING := by
        rcases state a awayFromExit with same | ⟨sleeping, -⟩
        · rwa [← same]
        · exact sleeping
      have onItself := table.sleeper a waitingBefore asleepBefore
      rw [parent] at child
      by_cases exiting : j = i
      · -- the process that exits: its parent has been woken up
        subst exiting
        rw [if_neg fun own => (table.parentUp j j own).1 rfl] at child
        exact slots.parentWoken a awayFromExit child onItself asleep
      · have zombieBefore : (s.proc j).state = .ZOMBIE := by
          rcases state j exiting with same | ⟨-, runnable⟩
          · rwa [← same]
          · rw [runnable] at zombie
            cases zombie
        split at child
        · -- a zombie passed on to init
          rename_i orphan
          cases child
          exact slots.initWoken r j other table.initproc orphan zombieBefore onItself asleep
        · exact table.awake a j waitingBefore asleepBefore child zombieBefore }

theorem table_of_reaped {j : Fin NPROC}
    (zombie : (s.proc j).state = .ZOMBIE) (reset : Reset (t.proc j))
    (others : ∀ l, l ≠ j → t.proc l = s.proc l)
    (nextpid : t.kernel.nextpid = s.kernel.nextpid) (frame : Frame s t)
    (chan : t.chan = s.chan) (pc : t.pc = update s.pc i .outside) : Table t r := by
  obtain ⟨pcOwn, pcOthers⟩ := of_update pc
  have upOther : ∀ l, Up (s.proc l) → l ≠ j := by
    rintro l before rfl
    exact not_up (Or.inr (Or.inr zombie)) before
  have up : ∀ l, Up (s.proc l) → Up (t.proc l) := fun l before => by
    rw [others l (upOther l before)]
    exact before
  exact {
    nonNull := frame.nonNull table.nonNull
    initproc := frame.initproc.trans table.initproc
    initUp := up r table.initUp
    small := by rw [nextpid]; exact table.small
    pid_lt := by grind [Table, Reset]
    distinct := by grind [Table, Reset]
    unused := by grind [Table, Reset]
    initParent := by
      rw [others r (upOther r table.initUp)]
      exact table.initParent
    parentUp := by grind [Table, Reset]
    pcUp := by grind [Table]
    embryo := by grind [Table, Pc.Owns, Reset]
    forking := by grind [Table, Reset]
    owner := by grind [Table, Pc.Owns]
    sleeper := by grind [Table, Reset]
    awake := by grind [Table, Reset] }

theorem table_of_refused (kernel : t.kernel = s.kernel)
    (chan : t.chan = s.chan) (pc : t.pc = update s.pc i .outside) : Table t r := by
  have proc : ∀ j, t.proc j = s.proc j := fun j => congrFun (congrArg Kernel.proc kernel) j
  obtain ⟨pcOwn, pcOthers⟩ := of_update pc
  exact {
    nonNull := by rw [kernel]; exact table.nonNull
    initproc := by rw [kernel]; exact table.initproc
    initUp := by rw [proc]; exact table.initUp
    small := by rw [kernel]; exact table.small
    pid_lt := by simpa only [proc, kernel] using table.pid_lt
    distinct := by simpa only [proc] using table.distinct
    unused := by simpa only [proc] using table.unused
    initParent := by rw [proc]; exact table.initParent
    parentUp := by simpa only [proc] using table.parentUp
    pcUp := by grind [Table]
    embryo := by grind [Table, Pc.Owns]
    forking := by grind [Table]
    owner := by grind [Table, Pc.Owns]
    sleeper := by grind [Table]
    awake := by grind [Table] }

theorem table_of_waits (running : (s.proc i).state = .RUNNING)
    (noZombie : ∀ j, (s.proc j).parent = some i → (s.proc j).state ≠ .ZOMBIE)
    (proc : t.proc = update s.proc i { s.proc i with state := .SLEEPING })
    (nextpid : t.kernel.nextpid = s.kernel.nextpid) (frame : Frame s t)
    (chan : t.chan = update s.chan i (some (.proc i)))
    (pc : t.pc = update s.pc i .waiting) : Table t r := by
  obtain ⟨own, others⟩ := of_update proc
  obtain ⟨pcOwn, pcOthers⟩ := of_update pc
  obtain ⟨chanOwn, chanOthers⟩ := of_update chan
  have upOwn : Up (t.proc i) := Or.inl (by rw [own])
  have up : ∀ j, Up (s.proc j) → Up (t.proc j) := by grind
  have parent : ∀ j, (t.proc j).parent = (s.proc j).parent := by grind
  exact {
    nonNull := frame.nonNull table.nonNull
    initproc := frame.initproc.trans table.initproc
    initUp := up r table.initUp
    small := by rw [nextpid]; exact table.small
    pid_lt := by grind [Table]
    distinct := by grind [Table]
    unused := by grind [Table]
    initParent := (parent r).trans table.initParent
    parentUp := by grind [Table]
    pcUp := by grind [Table]
    embryo := by grind [Table, Pc.Owns]
    forking := by grind [Table]
    owner := by grind [Table, Pc.Owns]
    sleeper := by grind [Table]
    awake := by grind [Table] }

end

end Step

def forks : ProcOp → Nat
  | .fork _ => 1
  | _ => 0

def Room (s : Procs) (op : ProcOp) : Prop := s.kernel.nextpid.toNat + forks op ≤ 2 ^ 31 + 1

theorem nextpid_succ {old new : CInt} (next : new = old + 1) (room : old.toNat ≤ 2 ^ 31) :
    new.toNat = old.toNat + 1 := by
  subst next
  bv_omega

variable {op : ProcOp} {pid : CInt} {before : List ProcEvent}

theorem table_step (table : Table s r)
    (room : Room s op) (taken : step s op = some t) : Table t r := by
  cases step_move taken with
  | quiet slots _ => exact table_of_quiet table slots
  | kill same => exact table_of_quiet table (same ▸ quiet_kill s _)
  | allocated running _ unused proc nextpid frame chan pc _ =>
    have small := Nat.le_of_succ_le_succ room
    exact table_of_allocated table running unused proc small (nextpid_succ nextpid small) frame
      chan pc
  | failed null => exact absurd table.nonNull null
  | copied running here filled others nextpid frame chan pc _ =>
    exact table_of_copied table running here filled others nextpid frame chan pc
  | started _ here proc nextpid frame chan pc _ =>
    exact table_of_started table here proc nextpid frame chan pc
  | exited running here notInit slots nextpid frame chan pc _ =>
    exact table_of_exited table here running notInit slots nextpid frame chan pc
  | reaped _ _ zombie reset others nextpid frame chan pc _ =>
    exact table_of_reaped table zombie reset others nextpid frame chan pc
  | refused _ _ kernel chan pc _ => exact table_of_refused table kernel chan pc
  | waits running noZombie proc nextpid frame chan pc _ =>
    exact table_of_waits table running noZombie proc nextpid frame chan pc

/-! ## The history and the table -/

/-- The slot `p` is that of the forker, or of init once the forker has exited. -/
def Parent (s : Procs) (r : Fin NPROC) (forker : CInt) (p : Fin NPROC) : Prop :=
  .exited forker ∈ s.history ∧ p = r ∨ .exited forker ∉ s.history ∧ (s.proc p).pid = forker

structure Recorded (s : Procs) (r : Fin NPROC) : Prop where
  exact : Exact (s.proc r).pid s.history
  returned : ∀ pid, pid ≠ -1 → Returned s.history pid →
    pid.toNat < s.kernel.nextpid.toNat ∧ ∀ j, (s.proc j).state ≠ .UNUSED → (s.proc j).pid ≠ pid
  exited : ∀ pid, .exited pid ∈ s.history →
    pid ≠ -1 ∧ (Returned s.history pid ∨ ∃ j, (s.proc j).state = .ZOMBIE ∧ (s.proc j).pid = pid)
  zombie : ∀ j, (s.proc j).state = .ZOMBIE → .exited (s.proc j).pid ∈ s.history
  forked : ∀ forker child, .forked forker child ∈ s.history →
    child.toNat < s.kernel.nextpid.toNat ∧ (Returned s.history child ∨
      ∃ j p, (s.proc j).pid = child ∧ (s.proc j).parent = some p ∧ Parent s r forker p)
  parent : ∀ j p, (s.proc j).parent = some p →
    ∃ forker, .forked forker (s.proc j).pid ∈ s.history ∧ Parent s r forker p
  unborn : ∀ i np, s.pc i = .forking np → ∀ forker, .forked forker (s.proc np).pid ∉ s.history

theorem Returned.cons (returned : Returned before pid)
    (event : ProcEvent) : Returned (event :: before) pid := by
  obtain ⟨waiter, killed, member⟩ := returned
  exact ⟨waiter, killed, List.mem_cons_of_mem event member⟩

theorem Returned.of_cons {event : ProcEvent} (returned : Returned (event :: before) pid)
    (other : ∀ waiter killed, event ≠ .returned waiter pid killed) : Returned before pid := by
  obtain ⟨waiter, killed, member⟩ := returned
  rcases List.mem_cons.mp member with same | old
  · exact absurd same.symm (other waiter killed)
  · exact ⟨waiter, killed, old⟩

section Step

variable {s t : Procs} {r : Fin NPROC}

theorem Table.pid_ne (table : Table s r) {j : Fin NPROC} (used : (s.proc j).state ≠ .UNUSED) :
    (s.proc j).pid ≠ -1 := by
  intro same
  have lt := table.pid_lt j used
  have small := table.small
  rw [same, show (-1 : CInt).toNat = 2 ^ 32 - 1 from rfl] at lt
  omega

theorem used_of_up {p : Proc} (up : Up p) : p.state ≠ .UNUSED := fun unused =>
  not_up (Or.inl unused) up

variable {i : Fin NPROC}

section

variable (recorded : Recorded s r)

include recorded

theorem Recorded.not_exited (table : Table s r)
    (up : Up (s.proc i)) : .exited (s.proc i).pid ∉ s.history := by
  intro exited
  obtain ⟨other, gone | ⟨j, zombie, same⟩⟩ := recorded.exited _ exited
  · exact (recorded.returned _ other gone).2 i (used_of_up up) rfl
  · cases table.distinct j i (by simp [zombie]) (used_of_up up) same
    exact not_up (Or.inr (Or.inr zombie)) up

theorem recorded_of_same (history : t.history = s.history)
    (nextpid : t.kernel.nextpid = s.kernel.nextpid)
    (pid : ∀ j, (t.proc j).pid = (s.proc j).pid)
    (parent : ∀ j, (t.proc j).parent = (s.proc j).parent)
    (unused : ∀ j, (t.proc j).state = .UNUSED ↔ (s.proc j).state = .UNUSED)
    (zombie : ∀ j, (t.proc j).state = .ZOMBIE ↔ (s.proc j).state = .ZOMBIE)
    (forking : ∀ i np, t.pc i = .forking np → s.pc i = .forking np) : Recorded t r := by
  have parents : ∀ forker p, Parent t r forker p ↔ Parent s r forker p := by
    intro forker p
    simp only [Parent, history, pid]
  exact {
    exact := by simpa only [history, pid] using recorded.exact
    returned := by simpa only [history, pid, nextpid, ne_eq, unused] using recorded.returned
    exited := by simpa only [history, pid, zombie] using recorded.exited
    zombie := by simpa only [history, pid, zombie] using recorded.zombie
    forked := by simpa only [history, pid, nextpid, parent, parents] using recorded.forked
    parent := by simpa only [history, pid, parent, parents] using recorded.parent
    unborn := by
      intro i np here
      rw [history, pid]
      exact recorded.unborn i np (forking i np here) }

variable {np : Fin NPROC}

section

variable (table : Table s r)

include table

theorem recorded_of_allocated (unused : (s.proc np).state = .UNUSED)
    (proc : t.proc = update s.proc np
      { s.proc np with state := .EMBRYO, pid := s.kernel.nextpid })
    (nextpid : t.kernel.nextpid.toNat = s.kernel.nextpid.toNat + 1)
    (pc : t.pc = update s.pc i (.forking np)) (history : t.history = s.history) :
    Recorded t r := by
  obtain ⟨own, others⟩ := of_update proc
  have upOther : ∀ j, Up (s.proc j) → j ≠ np := by
    rintro j before rfl
    exact not_up (Or.inl unused) before
  have noParent := table.unused np unused
  have parents : ∀ j p forker, (s.proc j).parent = some p → Parent s r forker p →
      Parent t r forker p := by
    intro j p forker child
    unfold Parent
    rw [history, others p (upOther p (table.parentUp j p child).2)]
    exact id
  exact {
    exact := by
      rw [history, others r (upOther r table.initUp)]
      exact recorded.exact
    returned := by
      intro pid valid returned
      rw [history] at returned
      obtain ⟨lt, gone⟩ := recorded.returned pid valid returned
      refine ⟨by omega, fun j used => ?_⟩
      by_cases new : j = np
      · subst new
        rw [own]
        show s.kernel.nextpid ≠ pid
        rintro rfl
        exact lt_irrefl _ lt
      · rw [others j new] at used ⊢
        exact gone j used
    exited := by
      intro pid exited
      rw [history] at exited ⊢
      obtain ⟨valid, returned | ⟨j, zombie, same⟩⟩ := recorded.exited pid exited
      · exact ⟨valid, Or.inl returned⟩
      · have other : j ≠ np := by
          rintro rfl
          rw [unused] at zombie
          cases zombie
        exact ⟨valid, Or.inr ⟨j, by rw [others j other]; exact ⟨zombie, same⟩⟩⟩
    zombie := by
      intro j zombie
      have other : j ≠ np := by
        rintro rfl
        rw [own] at zombie
        cases zombie
      rw [others j other] at zombie ⊢
      rw [history]
      exact recorded.zombie j zombie
    forked := by
      intro forker child forked
      rw [history] at forked ⊢
      obtain ⟨lt, returned | ⟨j, p, same, parent, which⟩⟩ := recorded.forked forker child forked
      · exact ⟨by omega, Or.inl returned⟩
      · have other : j ≠ np := by
          rintro rfl
          rw [noParent] at parent
          cases parent
        refine ⟨by omega, Or.inr ⟨j, p, ?_, ?_, parents j p forker parent which⟩⟩
        · rw [others j other]
          exact same
        · rw [others j other]
          exact parent
    parent := by
      intro j p child
      have other : j ≠ np := by
        rintro rfl
        rw [own] at child
        rw [noParent] at child
        cases child
      rw [others j other] at child ⊢
      obtain ⟨forker, forked, which⟩ := recorded.parent j p child
      exact ⟨forker, history ▸ forked, parents j p forker child which⟩
    unborn := by
      intro a new here forker
      rw [history]
      by_cases caller : a = i
      · subst caller
        rw [pc, update_self] at here
        cases here
        rw [own]
        intro forked
        exact lt_irrefl _ (recorded.forked forker _ forked).1
      · rw [pc, update_of_ne caller] at here
        have other : new ≠ np := by
          rintro rfl
          rw [table.embryo a new (Or.inl here)] at unused
          cases unused
        rw [others new other]
        exact recorded.unborn a new here forker }

theorem recorded_of_copied
    (running : (s.proc i).state = .RUNNING) (here : s.pc i = .forking np)
    (filled : Filled (s.proc np) (t.proc np) i) (others : ∀ l, l ≠ np → t.proc l = s.proc l)
    (nextpid : t.kernel.nextpid = s.kernel.nextpid)
    (pc : t.pc = update s.pc i (.starting np))
    (history : t.history = .forked (s.proc i).pid (s.proc np).pid :: s.history) :
    Recorded t r := by
  have embryo := table.embryo i np (Or.inl here)
  have pid : ∀ j, (t.proc j).pid = (s.proc j).pid := by
    intro j
    by_cases new : j = np
    · rw [new, filled.pid]
    · rw [others j new]
  have state : ∀ j, (t.proc j).state = (s.proc j).state := by
    intro j
    by_cases new : j = np
    · rw [new, filled.state]
    · rw [others j new]
  have exited : ∀ p, .exited p ∈ t.history ↔ .exited p ∈ s.history := by
    intro p
    simp [history]
  have returned : ∀ p, Returned t.history p ↔ Returned s.history p := by
    intro p
    simp [Returned, history]
  have parents : ∀ forker p, Parent t r forker p ↔ Parent s r forker p := by
    intro forker p
    simp only [Parent, exited, pid]
  have noParent := table.forking i np here
  exact {
    exact := by
      rw [history, pid]
      exact ⟨recorded.unborn i np here, recorded.exact⟩
    returned := by simpa only [returned, pid, nextpid, ne_eq, state] using recorded.returned
    exited := by simpa only [exited, returned, pid, state] using recorded.exited
    zombie := by simpa only [exited, pid, state] using recorded.zombie
    forked := by
      intro forker child forked
      rw [nextpid]
      rw [history] at forked
      rcases List.mem_cons.mp forked with same | old
      · cases same
        refine ⟨table.pid_lt np (by simp [embryo]), Or.inr ⟨np, i, pid np, filled.parent, ?_⟩⟩
        rw [parents]
        exact Or.inr ⟨recorded.not_exited table (up_of_running running), rfl⟩
      · obtain ⟨lt, gone | ⟨j, p, same, parent, which⟩⟩ := recorded.forked forker child old
        · exact ⟨lt, Or.inl ((returned child).mpr gone)⟩
        · have other : j ≠ np := by
            rintro rfl
            rw [noParent] at parent
            cases parent
          refine ⟨lt, Or.inr ⟨j, p, (pid j).trans same, ?_, (parents forker p).mpr which⟩⟩
          rw [others j other]
          exact parent
    parent := by
      intro j p child
      rw [pid, history]
      by_cases new : j = np
      · subst new
        rw [filled.parent] at child
        cases child
        refine ⟨(s.proc i).pid, List.mem_cons_self, ?_⟩
        rw [parents]
        exact Or.inr ⟨recorded.not_exited table (up_of_running running), rfl⟩
      · rw [others j new] at child
        obtain ⟨forker, forked, which⟩ := recorded.parent j p child
        exact ⟨forker, List.mem_cons_of_mem _ forked, (parents forker p).mpr which⟩
    unborn := by
      intro a new forking forker forked
      by_cases caller : a = i
      · subst caller
        rw [pc, update_self] at forking
        cases forking
      · rw [pc, update_of_ne caller] at forking
        rw [history, pid] at forked
        rcases List.mem_cons.mp forked with same | old
        · -- the pids of two slots in use differ, and no two callers work on one slot
          injection same with _ same
          have newEmbryo := table.embryo a new (Or.inl forking)
          rw [table.distinct new np (by simp [newEmbryo]) (by simp [embryo]) same] at forking
          exact caller (table.owner a i np (Or.inl forking) (Or.inl here))
        · exact recorded.unborn a new forking forker old }

/-- A parent of `i` is in the table under its own pid, or has exited and is init. -/
theorem recorded_of_exited
    (running : (s.proc i).state = .RUNNING) (notInit : s.kernel.initproc ≠ some i)
    (slots : Exited s t i) (nextpid : t.kernel.nextpid = s.kernel.nextpid) (pc : t.pc = s.pc)
    (history : t.history = .exited (s.proc i).pid :: s.history) : Recorded t r := by
  have up := up_of_running running
  have other : r ≠ i := by
    rintro rfl
    exact notInit table.initproc
  have forked : ∀ f c, .forked f c ∈ t.history ↔ .forked f c ∈ s.history := by
    intro f c
    simp [history]
  have returned : ∀ p, Returned t.history p ↔ Returned s.history p := by
    intro p
    simp [Returned, history]
  have parent : ∀ j, (t.proc j).parent =
      if (s.proc j).parent = some i then some r else (s.proc j).parent := by
    intro j
    rw [slots.parent, table.initproc]
  have unused : ∀ j, (t.proc j).state = .UNUSED ↔ (s.proc j).state = .UNUSED := by
    intro j
    by_cases own : j = i
    · simp [own, slots.zombie, running]
    · rcases slots.state j own with same | ⟨sleeping, runnable⟩
      · rw [same]
      · simp [sleeping, runnable]
  have zombie : ∀ j, (t.proc j).state = .ZOMBIE ↔ j = i ∨ (s.proc j).state = .ZOMBIE := by
    intro j
    by_cases own : j = i
    · simp [own, slots.zombie]
    · rcases slots.state j own with same | ⟨sleeping, runnable⟩
      · simp [same, own]
      · simp [sleeping, runnable, own]
  -- the new parent of a child of `j`'s forker
  have passed : ∀ j p forker, (s.proc j).parent = some p → Parent s r forker p →
      Parent t r forker (if p = i then r else p) := by
    intro j p forker child which
    unfold Parent
    rw [history]
    rcases which with ⟨gone, rfl⟩ | ⟨present, same⟩
    · rw [if_neg other]
      exact Or.inl ⟨List.mem_cons_of_mem _ gone, rfl⟩
    · by_cases own : p = i
      · subst own same
        rw [if_pos rfl]
        exact Or.inl ⟨List.mem_cons_self, rfl⟩
      · rw [if_neg own]
        refine Or.inr ⟨?_, (slots.pid p).trans same⟩
        intro gone
        rcases List.mem_cons.mp gone with exiting | old
        · injection exiting with exiting
          rw [← same] at exiting
          exact own (table.distinct p i (used_of_up (table.parentUp j p child).2) (used_of_up up)
            exiting)
        · exact present old
  exact {
    exact := by
      rw [history, slots.pid]
      exact ⟨recorded.not_exited table up, recorded.exact⟩
    returned := by simpa only [returned, slots.pid, nextpid, ne_eq, unused] using recorded.returned
    exited := by
      intro pid gone
      simp only [returned, zombie, slots.pid]
      rw [history] at gone
      rcases List.mem_cons.mp gone with exiting | old
      · cases exiting
        exact ⟨table.pid_ne (used_of_up up), Or.inr ⟨i, Or.inl rfl, rfl⟩⟩
      · obtain ⟨valid, gone | ⟨j, was, same⟩⟩ := recorded.exited pid old
        · exact ⟨valid, Or.inl gone⟩
        · exact ⟨valid, Or.inr ⟨j, Or.inr was, same⟩⟩
    zombie := by
      intro j now
      rw [slots.pid, history]
      rcases (zombie j).mp now with rfl | was
      · exact List.mem_cons_self
      · exact List.mem_cons_of_mem _ (recorded.zombie j was)
    forked := by
      intro forker child member
      rw [forked] at member
      rw [nextpid, returned]
      obtain ⟨lt, gone | ⟨j, p, same, child, which⟩⟩ := recorded.forked forker child member
      · exact ⟨lt, Or.inl gone⟩
      · refine ⟨lt, Or.inr ⟨j, _, (slots.pid j).trans same, ?_, passed j p forker child which⟩⟩
        rw [parent, child]
        by_cases own : p = i <;> simp [own]
    parent := by
      intro j p child
      rw [slots.pid]
      obtain ⟨q, was, rfl⟩ : ∃ q, (s.proc j).parent = some q ∧ p = if q = i then r else q := by
        rw [parent] at child
        split at child
        · rename_i orphan
          exact ⟨i, orphan, by simpa using child.symm⟩
        · rename_i kept
          exact ⟨p, child, by rw [if_neg]; rintro rfl; exact kept child⟩
      obtain ⟨forker, member, which⟩ := recorded.parent j q was
      exact ⟨forker, (forked _ _).mpr member, passed j q forker was which⟩
    unborn := by
      intro a np here forker
      rw [forked, slots.pid]
      rw [pc] at here
      exact recorded.unborn a np here forker }

theorem recorded_of_reaped {j : Fin NPROC}
    (child : (s.proc j).parent = some i) (zombie : (s.proc j).state = .ZOMBIE)
    (reset : Reset (t.proc j)) (others : ∀ l, l ≠ j → t.proc l = s.proc l)
    (nextpid : t.kernel.nextpid = s.kernel.nextpid)
    (pc : t.pc = update s.pc i .outside)
    (history : t.history =
      .returned (s.proc i).pid (s.proc j).pid (s.proc i).killed :: s.history) :
    Recorded t r := by
  have used : (s.proc j).state ≠ .UNUSED := by simp [zombie]
  have upOther : ∀ l, Up (s.proc l) → l ≠ j := by
    rintro l before rfl
    exact not_up (Or.inr (Or.inr zombie)) before
  have exited : ∀ p, .exited p ∈ t.history ↔ .exited p ∈ s.history := by
    intro p
    simp [history]
  have forked : ∀ f c, .forked f c ∈ t.history ↔ .forked f c ∈ s.history := by
    intro f c
    simp [history]
  have now : Returned t.history (s.proc j).pid := by
    rw [history]
    exact ⟨_, _, List.mem_cons_self⟩
  have still : ∀ p, Returned s.history p → Returned t.history p := by
    intro p returned
    rw [history]
    exact returned.cons _
  have parents : ∀ l p forker, (s.proc l).parent = some p →
      (Parent t r forker p ↔ Parent s r forker p) := by
    intro l p forker parent
    simp only [Parent, exited, others p (upOther p (table.parentUp l p parent).2)]
  exact {
    exact := by
      rw [history, others r (upOther r table.initUp)]
      refine ⟨?_, recorded.exact⟩
      obtain ⟨forker, forked, which⟩ := recorded.parent j i child
      simp only [EventExact, table.pid_ne used, if_false]
      refine ⟨recorded.zombie j zombie, ?_, forker, forked, ?_⟩
      · exact fun returned => (recorded.returned _ (table.pid_ne used) returned).2 j used rfl
      · rcases which with ⟨gone, rfl⟩ | ⟨present, same⟩
        · exact Or.inl ⟨gone, rfl⟩
        · exact Or.inr ⟨present, same⟩
    returned := by
      intro pid valid returned
      rw [nextpid]
      have live : ∀ l, (t.proc l).state ≠ .UNUSED → l ≠ j := by
        rintro l usedNow rfl
        exact usedNow reset.state
      by_cases own : pid = (s.proc j).pid
      · subst own
        refine ⟨table.pid_lt j used, fun l usedNow same => ?_⟩
        have other := live l usedNow
        rw [others l other] at usedNow same
        exact other (table.distinct l j usedNow used same)
      · have before : Returned s.history pid := by
          rw [history] at returned
          refine returned.of_cons fun waiter killed same => own ?_
          injection same with _ same
          exact same.symm
        obtain ⟨lt, gone⟩ := recorded.returned pid valid before
        refine ⟨lt, fun l usedNow => ?_⟩
        have other := live l usedNow
        rw [others l other] at usedNow ⊢
        exact gone l usedNow
    exited := by
      intro pid gone
      rw [exited] at gone
      obtain ⟨valid, returned | ⟨l, was, same⟩⟩ := recorded.exited pid gone
      · exact ⟨valid, Or.inl (still pid returned)⟩
      · by_cases own : l = j
        · subst own same
          exact ⟨valid, Or.inl now⟩
        · exact ⟨valid, Or.inr ⟨l, by rw [others l own]; exact ⟨was, same⟩⟩⟩
    zombie := by
      intro l was
      have other : l ≠ j := by
        rintro rfl
        rw [reset.state] at was
        cases was
      rw [others l other] at was ⊢
      exact (exited _).mpr (recorded.zombie l was)
    forked := by
      intro forker born member
      rw [forked] at member
      rw [nextpid]
      obtain ⟨lt, gone | ⟨l, p, same, parent, which⟩⟩ := recorded.forked forker born member
      · exact ⟨lt, Or.inl (still born gone)⟩
      · by_cases own : l = j
        · subst own same
          exact ⟨lt, Or.inl now⟩
        · refine ⟨lt, Or.inr ⟨l, p, ?_, ?_, (parents l p forker parent).mpr which⟩⟩
          · rw [others l own]
            exact same
          · rw [others l own]
            exact parent
    parent := by
      intro l p parent
      have other : l ≠ j := by
        rintro rfl
        rw [reset.parent] at parent
        cases parent
      rw [others l other] at parent ⊢
      obtain ⟨forker, member, which⟩ := recorded.parent l p parent
      exact ⟨forker, (forked _ _).mpr member, (parents l p forker parent).mpr which⟩
    unborn := by
      intro a np here forker
      rw [forked]
      by_cases caller : a = i
      · subst caller
        rw [pc, update_self] at here
        cases here
      · rw [pc, update_of_ne caller] at here
        have other : np ≠ j := by
          rintro rfl
          rw [table.embryo a np (Or.inl here)] at zombie
          cases zombie
        rw [others np other]
        exact recorded.unborn a np here forker }

/-- A `wait` that returns -1 to a process that has not been killed: no slot has
it for a parent, so all its children have been returned. -/
theorem all_returned
    (running : (s.proc i).state = .RUNNING) (childless : ∀ j, (s.proc j).parent ≠ some i)
    (child : CInt) (own : ChildOf (s.proc r).pid s.history (s.proc i).pid child) :
    Returned s.history child := by
  have used := used_of_up (up_of_running running)
  obtain ⟨forker, forked, which⟩ := own
  obtain ⟨-, returned | ⟨j, p, same, parent, slot⟩⟩ := recorded.forked forker child forked
  · exact returned
  · exfalso
    suffices same : p = i by
      subst same
      exact childless j parent
    have parentUsed := used_of_up (table.parentUp j p parent).2
    rcases which with ⟨gone, isInit⟩ | ⟨present, isForker⟩
    · rcases slot with ⟨-, rfl⟩ | ⟨present, -⟩
      · exact table.distinct p i parentUsed used isInit.symm
      · exact absurd gone present
    · rcases slot with ⟨gone, -⟩ | ⟨-, isParent⟩
      · exact absurd gone present
      · exact table.distinct p i parentUsed used (isParent.trans isForker.symm)

theorem recorded_of_refused
    (running : (s.proc i).state = .RUNNING)
    (reason : (∀ j, (s.proc j).parent ≠ some i) ∨ (s.proc i).killed = true)
    (kernel : t.kernel = s.kernel) (pc : t.pc = update s.pc i .outside)
    (history : t.history = .returned (s.proc i).pid (-1) (s.proc i).killed :: s.history) :
    Recorded t r := by
  have proc : ∀ j, t.proc j = s.proc j := fun j => congrFun (congrArg Kernel.proc kernel) j
  have exited : ∀ p, .exited p ∈ t.history ↔ .exited p ∈ s.history := by
    intro p
    simp [history]
  have forked : ∀ f c, .forked f c ∈ t.history ↔ .forked f c ∈ s.history := by
    intro f c
    simp [history]
  have still : ∀ p, Returned s.history p → Returned t.history p := by
    intro p returned
    rw [history]
    exact returned.cons _
  have parents : ∀ forker p, Parent t r forker p ↔ Parent s r forker p := by
    intro forker p
    simp only [Parent, exited, proc]
  exact {
    exact := by
      rw [history, proc]
      refine ⟨?_, recorded.exact⟩
      simp only [EventExact, if_true]
      rcases reason with childless | killed
      · exact Or.inr (all_returned recorded table running childless)
      · exact Or.inl killed
    returned := by
      intro pid valid returned
      simp only [kernel, proc]
      rw [history] at returned
      apply recorded.returned pid valid
      refine returned.of_cons fun waiter killed same => valid ?_
      injection same with _ same
      exact same.symm
    exited := by
      intro pid gone
      rw [exited] at gone
      simp only [proc]
      obtain ⟨valid, returned | zombie⟩ := recorded.exited pid gone
      · exact ⟨valid, Or.inl (still pid returned)⟩
      · exact ⟨valid, Or.inr zombie⟩
    zombie := by simpa only [exited, proc] using recorded.zombie
    forked := by
      intro forker child member
      rw [forked] at member
      simp only [kernel, proc, parents]
      obtain ⟨lt, returned | slot⟩ := recorded.forked forker child member
      · exact ⟨lt, Or.inl (still child returned)⟩
      · exact ⟨lt, Or.inr slot⟩
    parent := by simpa only [forked, proc, parents] using recorded.parent
    unborn := by
      intro a np here forker
      rw [forked, proc]
      by_cases caller : a = i
      · subst caller
        rw [pc, update_self] at here
        cases here
      · rw [pc, update_of_ne caller] at here
        exact recorded.unborn a np here forker }

end

end

end Step

theorem recorded_step (recorded : Recorded s r)
    (table : Table s r) (room : Room s op) (taken : step s op = some t) : Recorded t r := by
  have quiet : ∀ u, Quiet s u → Recorded u r := fun u slots =>
    recorded_of_same recorded slots.history slots.nextpid slots.pid slots.parent
      (fun j => slots.state_iff j (Or.inl rfl)) (fun j => slots.state_iff j (Or.inr (Or.inr rfl)))
      (fun i np here => by rwa [slots.pc] at here)
  cases step_move taken with
  | quiet slots _ => exact quiet t slots
  | kill same => exact quiet t (same ▸ quiet_kill s _)
  | allocated _ _ unused proc nextpid _ _ pc history =>
    exact recorded_of_allocated recorded table unused proc
      (nextpid_succ nextpid (Nat.le_of_succ_le_succ room)) pc history
  | failed null => exact absurd table.nonNull null
  | copied running here filled others nextpid _ _ pc history =>
    exact recorded_of_copied recorded table running here filled others nextpid pc history
  | @started i np _ here proc nextpid _ _ pc history =>
    have embryo := table.embryo i np (Or.inr here)
    refine recorded_of_same recorded history nextpid ?_ ?_ ?_ ?_ ?_
    · intro j; rw [proc]; by_cases new : j = np <;> simp [new]
    · intro j; rw [proc]; by_cases new : j = np <;> simp [new]
    · intro j; rw [proc]; by_cases new : j = np <;> simp [new, embryo]
    · intro j; rw [proc]; by_cases new : j = np <;> simp [new, embryo]
    · intro a new forking
      by_cases caller : a = i
      · simp [pc, caller] at forking
      · simpa [pc, caller] using forking
  | exited running _ notInit slots nextpid _ _ pc history =>
    exact recorded_of_exited recorded table running notInit slots nextpid pc history
  | reaped _ child zombie reset others nextpid _ _ pc history =>
    exact recorded_of_reaped recorded table child zombie reset others nextpid pc history
  | refused running reason kernel _ pc history =>
    exact recorded_of_refused recorded table running reason kernel pc history
  | @waits i _ running _ proc nextpid _ _ pc history =>
    refine recorded_of_same recorded history nextpid ?_ ?_ ?_ ?_ ?_
    · intro j; rw [proc]; by_cases own : j = i <;> simp [own]
    · intro j; rw [proc]; by_cases own : j = i <;> simp [own]
    · intro j; rw [proc]; by_cases own : j = i <;> simp [own, running]
    · intro j; rw [proc]; by_cases own : j = i <;> simp [own, running]
    · intro a new forking
      by_cases caller : a = i
      · simp [pc, caller] at forking
      · simpa [pc, caller] using forking

/-! ## Every run -/

theorem Booted.no_parent (booted : Booted k r) (j : Fin NPROC) :
    ((boot k).proc j).parent = none := by
  show (k.proc j).parent = none
  by_cases first : j = r
  · rw [first]
    exact booted.parent
  · rw [booted.others j first]
    rfl

theorem table_boot (booted : Booted k r) : Table (boot k) r := by
  have state : ((boot k).proc r).state = .RUNNABLE := booted.state
  have pid : ((boot k).proc r).pid = 1 := booted.pid
  have parent := booted.no_parent
  have used : ∀ j, ((boot k).proc j).state ≠ .UNUSED → j = r := by
    intro j used
    by_contra other
    have unused : (boot k).proc j = Proc.unused := booted.others j other
    exact used (by rw [unused]; rfl)
  exact {
    nonNull := booted.nonNull
    initproc := booted.initproc
    initUp := Or.inr (Or.inl state)
    small := by
      show k.nextpid.toNat ≤ _
      rw [booted.nextpid]
      decide
    pid_lt := by
      intro j live
      rw [used j live, pid]
      show _ < k.nextpid.toNat
      rw [booted.nextpid]
      decide
    distinct := fun i j live live' _ => (used i live).trans (used j live').symm
    unused := fun j _ => parent j
    initParent := parent r
    parentUp := fun j p child => by rw [parent] at child; cases child
    pcUp := fun i inside => absurd rfl inside
    embryo := by rintro i np (owns | owns) <;> cases owns
    forking := by rintro i np ⟨⟩
    owner := by rintro i j np (owns | owns) <;> cases owns
    sleeper := by rintro i ⟨⟩
    awake := by rintro i j ⟨⟩ }

theorem recorded_boot (booted : Booted k r) :
    Recorded (boot k) r := by
  have none : ∀ e : ProcEvent, e ∉ (boot k).history := fun e => List.not_mem_nil
  refine ⟨trivial, ?_, ?_, ?_, ?_, ?_, ?_⟩
  · rintro pid _ ⟨waiter, killed, member⟩
    exact absurd member (none _)
  · exact fun pid member => absurd member (none _)
  · intro j zombie
    by_cases first : j = r
    · have state : ((boot k).proc j).state = .RUNNABLE := first ▸ booted.state
      rw [state] at zombie
      cases zombie
    · have unused : (boot k).proc j = Proc.unused := booted.others j first
      rw [unused] at zombie
      cases zombie
  · exact fun forker child member => absurd member (none _)
  · intro j p child
    rw [booted.no_parent] at child
    cases child
  · rintro i np ⟨⟩

theorem reapsExactly_of (table : Table s r) (recorded : Recorded s r) : ReapsExactly s where
  history := by
    have init : initPid s = (s.proc r).pid := by
      rw [initPid, table.initproc]
      rfl
    rw [init]
    exact recorded.exact
  distinct := table.distinct
  awake := table.awake

/-- Each call of `fork` takes one pid at most. -/
theorem nextpid_step (s : Procs) (op : ProcOp) (t : Procs) (taken : step s op = some t) :
    t.kernel.nextpid.toNat ≤ s.kernel.nextpid.toNat + forks op := by
  cases step_move taken with
  | quiet slots _ => rw [slots.nextpid]; omega
  | @kill _ pid same => rw [same, (quiet_kill s pid).nextpid]; omega
  | allocated _ _ _ _ nextpid => rw [nextpid, forks]; bv_omega
  | failed _ nextpid => rw [nextpid]; omega
  | copied _ _ _ _ nextpid => rw [nextpid]; omega
  | started _ _ _ nextpid => rw [nextpid]; omega
  | exited _ _ _ _ nextpid => rw [nextpid]; omega
  | reaped _ _ _ _ _ nextpid => rw [nextpid]; omega
  | refused _ _ kernel => rw [kernel]; omega
  | waits _ _ _ nextpid => rw [nextpid]; omega

theorem ledger_step (r : Fin NPROC) (s : Procs) (op : ProcOp) (t : Procs)
    (holds : Table s r ∧ Recorded s r) (room : Room s op) (taken : step s op = some t) :
    Table t r ∧ Recorded t r :=
  ⟨table_step holds.1 room taken, recorded_step holds.2 holds.1 room taken⟩

/-- Every run with fewer than 2^31 calls of `fork`. -/
theorem reaping_exact (kend : AddrT) (freelist : List AddrT) (setup : List PageCall)
    (nonNull : ∀ v ∈ freelist, v ≠ 0) (k : Kernel) (started : main kend freelist setup = some k)
    (ops : List ProcOp) (few : (ops.map forks).sum < 2 ^ 31) :
    Throughout step ReapsExactly (boot k) ops := by
  obtain ⟨r, booted⟩ := main_booted nonNull started
  have budget : (boot k).kernel.nextpid.toNat + (ops.map forks).sum ≤ 2 ^ 31 + 1 := by
    have first : (boot k).kernel.nextpid.toNat = 2 := congrArg BitVec.toNat booted.nextpid
    omega
  exact throughout_of_along (ledger_step r) (fun _ holds => reapsExactly_of holds.1 holds.2) ops
    (boot k) ⟨table_boot booted, recorded_boot booted⟩
    (along_of_budget nextpid_step ops (boot k) budget)

/-- A parent is another process and up; init is up and has no parent. -/
def ParentsUp (s : Procs) : Prop :=
  ∃ r, s.kernel.initproc = some r ∧ Up (s.proc r) ∧ (s.proc r).parent = none ∧
    ∀ j p, (s.proc j).parent = some p → p ≠ j ∧ Up (s.proc p) ∧ (s.proc j).state ≠ .UNUSED

theorem parents_stay_up (kend : AddrT) (freelist : List AddrT) (setup : List PageCall)
    (nonNull : ∀ v ∈ freelist, v ≠ 0) (k : Kernel) (started : main kend freelist setup = some k)
    (ops : List ProcOp) (few : (ops.map forks).sum < 2 ^ 31) :
    Throughout step ParentsUp (boot k) ops := by
  obtain ⟨r, booted⟩ := main_booted nonNull started
  have budget : (boot k).kernel.nextpid.toNat + (ops.map forks).sum ≤ 2 ^ 31 + 1 := by
    have first : (boot k).kernel.nextpid.toNat = 2 := congrArg BitVec.toNat booted.nextpid
    omega
  refine throughout_of_along (ledger_step r) (fun s holds => ?_) ops (boot k)
    ⟨table_boot booted, recorded_boot booted⟩ (along_of_budget nextpid_step ops (boot k) budget)
  have table := holds.1
  refine ⟨r, table.initproc, table.initUp, table.initParent, fun j p parent => ?_⟩
  obtain ⟨other, up⟩ := table.parentUp j p parent
  refine ⟨other, up, fun unused => ?_⟩
  rw [table.unused j unused] at parent
  cases parent

def oneChild : List ProcOp :=
  [.schedule 0, .fork 0, .forkCopy 0 [.kalloc], .forkRun 0, .wait 0 [], .schedule 1, .exit 1,
   .schedule 0, .wait 0 []]

theorem reaping_exact_of_one_child :
    ∃ k t, main (KERNBASE + 0x200000) tenPages firstSetup = some k ∧
      run step (boot k) oneChild = some t ∧
      t.history = [.returned 1 2 false, .exited 2, .forked 1 2] ∧
      Throughout step ReapsExactly (boot k) oneChild := by
  have runs : ((main (KERNBASE + 0x200000) tenPages firstSetup).bind
      fun k => run step (boot k) oneChild).map Procs.history =
        some [.returned 1 2 false, .exited 2, .forked 1 2] := by decide +kernel
  obtain ⟨t, ran, history⟩ := Option.map_eq_some_iff.mp runs
  obtain ⟨k, started, ran⟩ := Option.bind_eq_some_iff.mp ran
  exact ⟨k, t, started, ran, history,
    reaping_exact _ tenPages firstSetup tenPages_nonNull k started oneChild (by decide)⟩

theorem parents_stay_up_of_one_child :
    ∃ k, main (KERNBASE + 0x200000) tenPages firstSetup = some k ∧
      Throughout step ParentsUp (boot k) oneChild := by
  have starts : (main (KERNBASE + 0x200000) tenPages firstSetup).isSome = true := by decide +kernel
  obtain ⟨k, started⟩ := Option.isSome_iff_exists.mp starts
  exact ⟨k, started,
    parents_stay_up _ tenPages firstSetup tenPages_nonNull k started oneChild (by decide)⟩

end Xv6Tracing.Ptable
