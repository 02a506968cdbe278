import Xv6Tracing.Process.Attribution

/-!
# The process table, one critical section at a time

`fork`, `exit`, `wait`, `kill`, `sleep`, `wakeup` and the scheduler of `proc.c` for any
number of running processes.  A step is one critical section of `ptable.lock`, or what
`fork` does to its new slot without the lock.

The state keeps a history, latest event first: who forked whom, who exited, and
what each call of `wait` returned.
-/

set_option autoImplicit false

namespace Xv6Tracing.Ptable

open Function (update update_of_ne update_self)

open Process Lib

/-- What a process sleeps on: a process, in `wait`, or something else. -/
inductive Chan where
  | proc (i : Fin NPROC)
  | other (addr : AddrT)
deriving DecidableEq, Repr

/-- Where a process is: outside of `fork` and `wait`; in `fork` with a new slot;
in `fork` with a child that is complete but not yet `RUNNABLE`; in the loop of
`wait`. -/
inductive Pc where
  | outside
  | forking (np : Fin NPROC)
  | starting (np : Fin NPROC)
  | waiting
deriving DecidableEq, Repr

/-- `killed` is the caller's `killed` when `wait` returned. -/
inductive ProcEvent where
  | forked (parent child : CInt)
  | exited (pid : CInt)
  | returned (waiter ret : CInt) (killed : Bool)
deriving DecidableEq, Repr

/-- A channel of `none` is the null pointer. -/
structure Procs where
  kernel : Kernel
  chan : Fin NPROC → Option Chan
  pc : Fin NPROC → Pc
  history : List ProcEvent

def Procs.proc (s : Procs) (i : Fin NPROC) : Proc := s.kernel.proc i

def Procs.setProc (s : Procs) (i : Fin NPROC) (p : Proc) : Procs :=
  { s with kernel := s.kernel.setProc i p }

def Procs.setPc (s : Procs) (i : Fin NPROC) (pc : Pc) : Procs :=
  { s with pc := Function.update s.pc i pc }

def Procs.setChan (s : Procs) (i : Fin NPROC) (chan : Option Chan) : Procs :=
  { s with chan := Function.update s.chan i chan }

/-! ## fork -/

def allocSection (k : Kernel) : Option (Fin NPROC × Kernel) :=
  (firstUnused k).map fun np =>
    (np, { k.setProc np { k.proc np with state := .EMBRYO, pid := k.nextpid } with
      nextpid := k.nextpid + 1 })

/-- The page calls of `copyuvm`.  It returns 0 when a `kalloc` does. -/
def copyCalls (ctx : Ctx) : List PageCall → Kernel → Option (Bool × Kernel)
  | [], k => some (true, k)
  | .kalloc :: rest, k => do
      let (page, k) ← kalloc k ctx
      let (copied, k) ← copyCalls ctx rest k
      some (decide (page ≠ 0) && copied, k)
  | .kfree v :: rest, k => do
      let k ← kfree k ctx v
      copyCalls ctx rest k

/-- `np->state = UNUSED` where `fork` or `allocproc` fails; nothing else of the
slot is reset but its stack. -/
def giveUp (k : Kernel) (np : Fin NPROC) : Kernel :=
  k.setProc np { k.proc np with kstack := 0, state := .UNUSED }

/-- `fork` from the end of that section to where the child is complete; `false`
is the return value -1. -/
def forkCopy (k : Kernel) (caller np : Fin NPROC) (copying : List PageCall) :
    Option (Bool × Kernel) := do
  let (kstack, k) ← kalloc k (some caller)
  if kstack = 0 then some (false, giveUp k np)
  else
    let k := k.setProc np { k.proc np with kstack := kstack }
    let (copied, k) ← copyCalls (some caller) copying k
    if copied then
      some (true, k.setProc np { childOf caller (k.proc caller) (k.proc np) with
        state := (k.proc np).state })
    else
      let k ← kfree k (some caller) (k.proc np).kstack
      some (false, giveUp k np)

def forkRun (k : Kernel) (caller np : Fin NPROC) : Kernel :=
  let k := k.setProc np { k.proc np with state := .RUNNABLE }
  k.record (some caller) TRACE_TYPE_PROC (k.proc np).pid (k.proc caller).pid 0 0 "fork"

/-! ## Sleeping, exiting and waiting -/

def wokenBy (s : Procs) (chan : Option Chan) (i : Fin NPROC) : Proc :=
  if (s.proc i).state = .SLEEPING ∧ s.chan i = chan then { s.proc i with state := .RUNNABLE }
  else s.proc i

def wakeup1 (s : Procs) (chan : Option Chan) : Procs :=
  { s with kernel := { s.kernel with proc := wokenBy s chan } }

/-- `sleep` from where it holds `ptable.lock` to the switch. -/
def sleepOn (s : Procs) (i : Fin NPROC) (chan : Chan) : Procs :=
  (s.setChan i (some chan)).setProc i { s.proc i with state := .SLEEPING }

def HasZombie (s : Procs) (i : Fin NPROC) : Prop :=
  ∃ j, (s.proc j).parent = some i ∧ (s.proc j).state = .ZOMBIE

instance (s : Procs) (i : Fin NPROC) : Decidable (HasZombie s i) :=
  inferInstanceAs (Decidable (∃ j, (s.proc j).parent = some i ∧ (s.proc j).state = .ZOMBIE))

/-- Pass abandoned children to init, which is woken up once for each zombie among
them. -/
def passChildren (s : Procs) (i : Fin NPROC) : Procs :=
  let t := { s with kernel := reparent s.kernel i }
  if HasZombie s i then wakeup1 t (t.kernel.initproc.map Chan.proc) else t

def exitSection (s : Procs) (i : Fin NPROC) : Procs :=
  let s := wakeup1 s ((s.proc i).parent.map Chan.proc)
  let s := passChildren s i
  s.setProc i { s.proc i with state := .ZOMBIE }

/-- `exit` up to where it takes `ptable.lock`. -/
def exitClose (s : Procs) (i : Fin NPROC) : Procs :=
  let k := s.kernel.record (some i) TRACE_TYPE_PROC (s.proc i).pid 0 0 0 "exit"
  { s with kernel := k.setProc i { k.proc i with ofile := fun _ => none, cwd := none } }

def exit (s : Procs) (i : Fin NPROC) : Option Procs :=
  if s.kernel.initproc = some i then none
  else
    some { exitSection (exitClose s i) i with history := .exited (s.proc i).pid :: s.history }

def wait (s : Procs) (i : Fin NPROC) (freeing : List PageCall) : Option Procs := do
  let (ret, k) ← Process.wait s.kernel i freeing
  match ret with
  | some ret =>
    some { s.setPc i .outside with
      kernel := k
      history := .returned (s.proc i).pid ret (s.proc i).killed :: s.history }
  | none => some (({ s with kernel := k }.setChan i (some (.proc i))).setPc i .waiting)

/-! ## Steps -/

inductive ProcOp where
  | fork (i : Fin NPROC)
  | forkCopy (i : Fin NPROC) (copying : List PageCall)
  | forkRun (i : Fin NPROC)
  | exit (i : Fin NPROC)
  | wait (i : Fin NPROC) (freeing : List PageCall)
  | kill (i : Fin NPROC) (pid : CInt)
  | fault (i : Fin NPROC)
  | sleep (i : Fin NPROC) (addr : AddrT)
  | wakeup (addr : AddrT)
  | yield (i : Fin NPROC)
  | schedule (i : Fin NPROC)
  | pages (ctx : Ctx) (calls : List PageCall)

def runStep (s : Procs) (i : Fin NPROC) (op : ProcOp) : Option Procs :=
  match op, s.pc i with
  | .fork _, .outside =>
    match allocSection s.kernel with
    | none => some s
    | some (np, k) => some ({ s with kernel := k }.setPc i (.forking np))
  | .forkCopy _ copying, .forking np =>
    match forkCopy s.kernel i np copying with
    | none => none
    | some (false, k) => some ({ s with kernel := k }.setPc i .outside)
    | some (true, k) => some { s.setPc i (.starting np) with
        kernel := k
        history := .forked (s.proc i).pid (s.proc np).pid :: s.history }
  | .forkRun _, .starting np =>
    some ({ s with kernel := forkRun s.kernel i np }.setPc i .outside)
  | .exit _, .outside => exit s i
  | .wait _ freeing, .outside | .wait _ freeing, .waiting => wait s i freeing
  | .kill _ pid, .outside => some { s with kernel := (kill s.kernel pid).2 }
  | .fault _, .outside => some (s.setProc i { s.proc i with killed := true })
  | .sleep _ addr, .outside => some (sleepOn s i (.other addr))
  | .yield _, _ => some (s.setProc i { s.proc i with state := .RUNNABLE })
  | _, _ => none

/-- One step.  `wakeup` may come from an interrupt; a process that is scheduled
again clears its channel, as `sleep` does after the switch.  `pages` is the rest
of the kernel using the allocator. -/
def step (s : Procs) (op : ProcOp) : Option Procs :=
  match op with
  | .wakeup addr => some (wakeup1 s (some (.other addr)))
  | .pages ctx calls => (pageCalls ctx calls s.kernel).map fun k => { s with kernel := k }
  | .schedule i =>
    if (s.proc i).state = .RUNNABLE then
      some ((s.setChan i none).setProc i { s.proc i with state := .RUNNING })
    else none
  | .fork i | .forkCopy i _ | .forkRun i | .exit i | .wait i _ | .kill i _ | .fault i | .sleep i _
  | .yield i => if (s.proc i).state = .RUNNING then runStep s i op else none

def boot (k : Kernel) : Procs where
  kernel := k
  chan := fun _ => none
  pc := fun _ => .outside
  history := []

/-! ## The page allocator -/

def NonNull (k : Kernel) : Prop := ∀ v ∈ k.kmem.freelist, v ≠ 0

structure PagesOnly (k t : Kernel) : Prop where
  proc : t.proc = k.proc
  initproc : t.initproc = k.initproc
  nextpid : t.nextpid = k.nextpid
  nonNull : NonNull k → NonNull t

variable {k : Kernel} {ctx : Ctx} {p : Proc} {s t : Procs} {j i : Fin NPROC}
    {copying : List PageCall}

theorem PagesOnly.trans {t u : Kernel} (first : PagesOnly k t) (second : PagesOnly t u) :
    PagesOnly k u where
  proc := second.proc.trans first.proc
  initproc := second.initproc.trans first.initproc
  nextpid := second.nextpid.trans first.nextpid
  nonNull := second.nonNull ∘ first.nonNull

theorem kalloc_pages {t : Kernel} {page : AddrT}
    (run : kalloc k ctx = some (page, t)) : PagesOnly k t ∧ (NonNull k → page ≠ 0) := by
  simp only [kalloc] at run
  split at run
  · cases run
  · rename_i first rest free
    have here : NonNull k → first ≠ 0 := fun nonNull => nonNull first (by simp [free])
    have others : NonNull k → ∀ v ∈ rest, v ≠ 0 :=
      fun nonNull v member => nonNull v (by simp [free, member])
    split at run
    · cases run
      exact ⟨⟨rfl, rfl, rfl, others⟩, here⟩
    · cases run
      exact ⟨⟨rfl, rfl, rfl, others⟩, here⟩

theorem kfree_pages {t : Kernel} {v : AddrT} (run : kfree k ctx v = some t) :
    PagesOnly k t := by
  simp only [kfree] at run
  split at run
  · cases run
  · rename_i tested
    have nonzero : v ≠ 0 := by
      rintro rfl
      exact tested (Or.inr (Or.inr (by decide)))
    have all : NonNull k → ∀ w ∈ v :: k.kmem.freelist, w ≠ 0 := by
      intro nonNull w member
      rcases List.mem_cons.mp member with rfl | old
      · exact nonzero
      · exact nonNull w old
    split at run
    · cases run
      exact ⟨rfl, rfl, rfl, all⟩
    · cases run
      exact ⟨rfl, rfl, rfl, all⟩

theorem pageCalls_pages {calls : List PageCall} {t : Kernel}
    (run : pageCalls ctx calls k = some t) : PagesOnly k t := by
  induction calls generalizing k with
  | nil =>
    cases run
    exact ⟨rfl, rfl, rfl, id⟩
  | cons call calls ih =>
    obtain ⟨k', first, rest⟩ := Option.bind_eq_some_iff.mp run
    have head : PagesOnly k k' := by
      cases call with
      | kalloc =>
        obtain ⟨⟨page, _⟩, alloc, rfl⟩ := Option.map_eq_some_iff.mp first
        exact (kalloc_pages alloc).1
      | kfree v => exact kfree_pages first
    exact head.trans (ih rest)

/-- `copyuvm` returns 0 only where the free list holds a null pointer. -/
theorem copyCalls_pages {calls : List PageCall} {t : Kernel} {copied : Bool}
    (run : copyCalls ctx calls k = some (copied, t)) :
    PagesOnly k t ∧ (NonNull k → copied = true) := by
  induction calls generalizing k copied with
  | nil =>
    cases run
    exact ⟨⟨rfl, rfl, rfl, id⟩, fun _ => rfl⟩
  | cons call calls ih =>
    cases call with
    | kalloc =>
      obtain ⟨⟨page, k'⟩, alloc, run⟩ := Option.bind_eq_some_iff.mp run
      obtain ⟨⟨rest, t'⟩, later, result⟩ := Option.bind_eq_some_iff.mp run
      cases result
      obtain ⟨head, nonzero⟩ := kalloc_pages alloc
      grind [head.trans, head.nonNull]
    | kfree v =>
      obtain ⟨k', free, later⟩ := Option.bind_eq_some_iff.mp run
      have head := kfree_pages free
      obtain ⟨tail, all⟩ := ih later
      exact ⟨head.trans tail, fun nonNull => all (head.nonNull nonNull)⟩

/-! ## What a step can be -/

def Up (p : Proc) : Prop := p.state = .SLEEPING ∨ p.state = .RUNNABLE ∨ p.state = .RUNNING

theorem up_of_running (running : p.state = .RUNNING) : Up p := Or.inr (Or.inr running)

structure Frame (s t : Procs) : Prop where
  initproc : t.kernel.initproc = s.kernel.initproc
  nonNull : NonNull s.kernel → NonNull t.kernel

theorem PagesOnly.frame (pages : PagesOnly s.kernel k)
    (initproc : t.kernel.initproc = k.initproc) (kmem : t.kernel.kmem = k.kmem) : Frame s t := by
  refine ⟨initproc.trans pages.initproc, fun nonNull v member => ?_⟩
  rw [kmem] at member
  exact pages.nonNull nonNull v member

structure Quiet (s t : Procs) : Prop extends Frame s t where
  nextpid : t.kernel.nextpid = s.kernel.nextpid
  pc : t.pc = s.pc
  history : t.history = s.history
  pid : ∀ j, (t.proc j).pid = (s.proc j).pid
  parent : ∀ j, (t.proc j).parent = (s.proc j).parent
  state : ∀ j, (t.proc j).state = (s.proc j).state ∨ Up (s.proc j) ∧ Up (t.proc j)
  sleeper : ∀ j, s.pc j = .waiting → (t.proc j).state = .SLEEPING →
    (s.proc j).state = .SLEEPING ∧ t.chan j = s.chan j

/-- The slot of a new process once `fork` has filled it in. -/
structure Filled (np slot : Proc) (caller : Fin NPROC) : Prop where
  state : slot.state = np.state
  pid : slot.pid = np.pid
  killed : slot.killed = np.killed
  parent : slot.parent = some caller

/-- The slot that `wait` has freed. -/
structure Reset (slot : Proc) : Prop where
  state : slot.state = .UNUSED
  pid : slot.pid = 0
  killed : slot.killed = false
  parent : slot.parent = none

/-- The slots after `exit`, which wakes up nobody but the parent of `i` and, when
a child of `i` is a zombie, init. -/
structure Exited (s t : Procs) (i : Fin NPROC) : Prop where
  zombie : (t.proc i).state = .ZOMBIE
  pid : ∀ j, (t.proc j).pid = (s.proc j).pid
  killed : ∀ j, (t.proc j).killed = (s.proc j).killed
  parent : ∀ j, (t.proc j).parent =
    if (s.proc j).parent = some i then s.kernel.initproc else (s.proc j).parent
  state : ∀ j, j ≠ i → (t.proc j).state = (s.proc j).state ∨
    (s.proc j).state = .SLEEPING ∧ (t.proc j).state = .RUNNABLE
  parentWoken : ∀ j, j ≠ i → (s.proc i).parent = some j → s.chan j = some (.proc j) →
    (t.proc j).state ≠ .SLEEPING
  initWoken : ∀ r j, r ≠ i → s.kernel.initproc = some r → (s.proc j).parent = some i →
    (s.proc j).state = .ZOMBIE → s.chan r = some (.proc r) → (t.proc r).state ≠ .SLEEPING

/-- The cases of `step`, each with the tests that lead to it. -/
inductive Move (s t : Procs) : ProcOp → Prop where
  | quiet {op : ProcOp} (slots : Quiet s t)
      (unused : ∀ j, (s.proc j).state = .UNUSED → t.proc j = s.proc j) : Move s t op
  | kill {i : Fin NPROC} {pid : CInt}
      (same : t = { s with kernel := (kill s.kernel pid).2 }) : Move s t (.kill i pid)
  | allocated {i np : Fin NPROC} (running : (s.proc i).state = .RUNNING)
      (here : s.pc i = .outside) (unused : (s.proc np).state = .UNUSED)
      (proc : t.proc = Function.update s.proc np
        { s.proc np with state := .EMBRYO, pid := s.kernel.nextpid })
      (nextpid : t.kernel.nextpid = s.kernel.nextpid + 1) (frame : Frame s t)
      (chan : t.chan = s.chan) (pc : t.pc = Function.update s.pc i (.forking np))
      (history : t.history = s.history) : Move s t (.fork i)
  | failed {i : Fin NPROC} {copying : List PageCall} (null : ¬ NonNull s.kernel)
      (nextpid : t.kernel.nextpid = s.kernel.nextpid) : Move s t (.forkCopy i copying)
  | copied {i np : Fin NPROC} {copying : List PageCall}
      (running : (s.proc i).state = .RUNNING) (here : s.pc i = .forking np)
      (filled : Filled (s.proc np) (t.proc np) i) (others : ∀ l, l ≠ np → t.proc l = s.proc l)
      (nextpid : t.kernel.nextpid = s.kernel.nextpid) (frame : Frame s t)
      (chan : t.chan = s.chan) (pc : t.pc = Function.update s.pc i (.starting np))
      (history : t.history = .forked (s.proc i).pid (s.proc np).pid :: s.history) :
      Move s t (.forkCopy i copying)
  | started {i np : Fin NPROC} (running : (s.proc i).state = .RUNNING)
      (here : s.pc i = .starting np)
      (proc : t.proc = Function.update s.proc np { s.proc np with state := .RUNNABLE })
      (nextpid : t.kernel.nextpid = s.kernel.nextpid) (frame : Frame s t)
      (chan : t.chan = s.chan) (pc : t.pc = Function.update s.pc i .outside)
      (history : t.history = s.history) : Move s t (.forkRun i)
  | exited {i : Fin NPROC} (running : (s.proc i).state = .RUNNING) (here : s.pc i = .outside)
      (notInit : s.kernel.initproc ≠ some i) (slots : Exited s t i)
      (nextpid : t.kernel.nextpid = s.kernel.nextpid) (frame : Frame s t)
      (chan : t.chan = s.chan) (pc : t.pc = s.pc)
      (history : t.history = .exited (s.proc i).pid :: s.history) : Move s t (.exit i)
  | reaped {i j : Fin NPROC} {freeing : List PageCall}
      (running : (s.proc i).state = .RUNNING) (child : (s.proc j).parent = some i)
      (zombie : (s.proc j).state = .ZOMBIE) (reset : Reset (t.proc j))
      (others : ∀ l, l ≠ j → t.proc l = s.proc l)
      (nextpid : t.kernel.nextpid = s.kernel.nextpid) (frame : Frame s t)
      (chan : t.chan = s.chan) (pc : t.pc = Function.update s.pc i .outside)
      (history : t.history =
        .returned (s.proc i).pid (s.proc j).pid (s.proc i).killed :: s.history) :
      Move s t (.wait i freeing)
  | refused {i : Fin NPROC} {freeing : List PageCall} (running : (s.proc i).state = .RUNNING)
      (reason : (∀ j, (s.proc j).parent ≠ some i) ∨ (s.proc i).killed = true)
      (kernel : t.kernel = s.kernel) (chan : t.chan = s.chan)
      (pc : t.pc = Function.update s.pc i .outside)
      (history : t.history = .returned (s.proc i).pid (-1) (s.proc i).killed :: s.history) :
      Move s t (.wait i freeing)
  | waits {i : Fin NPROC} {freeing : List PageCall} (running : (s.proc i).state = .RUNNING)
      (noZombie : ∀ j, (s.proc j).parent = some i → (s.proc j).state ≠ .ZOMBIE)
      (proc : t.proc = Function.update s.proc i { s.proc i with state := .SLEEPING })
      (nextpid : t.kernel.nextpid = s.kernel.nextpid) (frame : Frame s t)
      (chan : t.chan = Function.update s.chan i (some (.proc i)))
      (pc : t.pc = Function.update s.pc i .waiting) (history : t.history = s.history) :
      Move s t (.wait i freeing)

section Slots

variable (s : Procs) (i j : Fin NPROC) (p : Proc)

theorem setProc_proc : (s.setProc i p).proc = update s.proc i p := rfl

theorem kernel_proc (k : Kernel) : ({ s with kernel := k } : Procs).proc = k.proc := rfl

theorem wakeup1_proc (chan : Option Chan) : (wakeup1 s chan).proc j = wokenBy s chan j := rfl

@[simp] theorem wokenBy_pid (chan : Option Chan) : (wokenBy s chan j).pid = (s.proc j).pid := by
  unfold wokenBy; split <;> rfl

@[simp] theorem wokenBy_killed (chan : Option Chan) :
    (wokenBy s chan j).killed = (s.proc j).killed := by
  unfold wokenBy; split <;> rfl

@[simp] theorem wokenBy_parent (chan : Option Chan) :
    (wokenBy s chan j).parent = (s.proc j).parent := by
  unfold wokenBy; split <;> rfl

end Slots

theorem wokenBy_cases (s : Procs) (chan : Option Chan) (j : Fin NPROC) :
    wokenBy s chan j = s.proc j ∧ ((s.proc j).state = .SLEEPING → s.chan j ≠ chan) ∨
      (s.proc j).state = .SLEEPING ∧ wokenBy s chan j = { s.proc j with state := .RUNNABLE } := by
  unfold wokenBy
  split
  · rename_i asleep
    exact Or.inr ⟨asleep.1, rfl⟩
  · rename_i stays
    exact Or.inl ⟨rfl, fun sleeping same => stays ⟨sleeping, same⟩⟩

structure Wakes (s t : Procs) : Prop where
  pid : ∀ j, (t.proc j).pid = (s.proc j).pid
  killed : ∀ j, (t.proc j).killed = (s.proc j).killed
  parent : ∀ j, (t.proc j).parent = (s.proc j).parent
  state : ∀ j, (t.proc j).state = (s.proc j).state ∨
    (s.proc j).state = .SLEEPING ∧ (t.proc j).state = .RUNNABLE

theorem Wakes.not_sleeping (wakes : Wakes s t)
    (awake : (s.proc j).state ≠ .SLEEPING) : (t.proc j).state ≠ .SLEEPING := by
  rcases wakes.state j with same | ⟨sleeping, -⟩
  · rwa [same]
  · exact absurd sleeping awake

theorem wakes_wakeup1 (s : Procs) (chan : Option Chan) : Wakes s (wakeup1 s chan) := by
  refine ⟨fun j => wokenBy_pid s j chan, fun j => wokenBy_killed s j chan,
    fun j => wokenBy_parent s j chan, fun j => ?_⟩
  rcases wokenBy_cases s chan j with ⟨same, -⟩ | ⟨sleeping, woken⟩
  · exact Or.inl (congrArg Proc.state same)
  · exact Or.inr ⟨sleeping, congrArg Proc.state woken⟩

theorem wakeup1_awake {chan : Option Chan} (here : s.chan j = chan) :
    ((wakeup1 s chan).proc j).state ≠ .SLEEPING := by
  intro asleep
  rcases wokenBy_cases s chan j with ⟨same, other⟩ | ⟨-, woken⟩
  · rw [wakeup1_proc, same] at asleep
    exact other asleep here
  · rw [wakeup1_proc, woken] at asleep
    cases asleep

theorem quiet_wakeup1 (s : Procs) (chan : Option Chan) : Quiet s (wakeup1 s chan) := by
  have wakes := wakes_wakeup1 s chan
  refine ⟨⟨rfl, id⟩, rfl, rfl, rfl, wakes.pid, wakes.parent, ?_, ?_⟩
  · intro j
    rcases wakes.state j with same | ⟨sleeping, runnable⟩
    · exact Or.inl same
    · exact Or.inr ⟨Or.inl sleeping, Or.inr (Or.inl runnable)⟩
  · intro j _ asleep
    by_contra changed
    exact wakes.not_sleeping (fun sleeping => changed ⟨sleeping, rfl⟩) asleep

theorem quiet_setProc (kernel : t.kernel = s.kernel.setProc i p) (pid : p.pid = (s.proc i).pid)
    (parent : p.parent = (s.proc i).parent)
    (state : p.state = (s.proc i).state ∨ Up (s.proc i) ∧ Up p)
    (sleeper : s.pc i = .waiting → p.state = .SLEEPING →
      (s.proc i).state = .SLEEPING ∧ t.chan i = s.chan i)
    (pc : t.pc = s.pc) (history : t.history = s.history)
    (chan : ∀ j, j ≠ i → t.chan j = s.chan j) : Quiet s t := by
  have proc : t.proc = update s.proc i p := by
    funext j
    exact congrFun (congrArg Kernel.proc kernel) j
  have frame : Frame s t := ⟨by rw [kernel]; rfl, fun nonNull => by rw [kernel]; exact nonNull⟩
  refine ⟨frame, by rw [kernel]; rfl, pc, history, ?_, ?_, ?_, ?_⟩ <;> intro j <;>
    rw [proc] <;> by_cases same : j = i
  · subst same; simpa using pid
  · simp [same]
  · subst same; simpa using parent
  · simp [same]
  · subst same; simpa using state
  · simp [same]
  · subst same; simpa using sleeper
  · simpa [same] using fun _ sleeping => ⟨sleeping, chan j same⟩

theorem quiet_kill (s : Procs) (pid : CInt) :
    Quiet s { s with kernel := (kill s.kernel pid).2 } := by
  unfold kill
  split
  · exact ⟨⟨rfl, id⟩, rfl, rfl, rfl, fun _ => rfl, fun _ => rfl, fun _ => Or.inl rfl,
      fun _ _ sleeping => ⟨sleeping, rfl⟩⟩
  · rename_i i found
    refine quiet_setProc (s := s) (i := i) rfl rfl rfl ?_ ?_ rfl rfl fun _ _ => rfl
    · show (if (s.proc i).state = .SLEEPING then ProcState.RUNNABLE else (s.proc i).state) = _ ∨ _
      split
      · rename_i sleeping
        exact Or.inr ⟨Or.inl sleeping, Or.inr (Or.inl (if_pos sleeping))⟩
      · exact Or.inl rfl
    · grind

@[simp] theorem reparent_pid (k : Kernel) (i j : Fin NPROC) :
    ((reparent k i).proc j).pid = (k.proc j).pid := by
  simp only [reparent]; split <;> rfl

@[simp] theorem reparent_killed (k : Kernel) (i j : Fin NPROC) :
    ((reparent k i).proc j).killed = (k.proc j).killed := by
  simp only [reparent]; split <;> rfl

@[simp] theorem reparent_state (k : Kernel) (i j : Fin NPROC) :
    ((reparent k i).proc j).state = (k.proc j).state := by
  simp only [reparent]; split <;> rfl

@[simp] theorem reparent_parent (k : Kernel) (i j : Fin NPROC) :
    ((reparent k i).proc j).parent =
      if (k.proc j).parent = some i then k.initproc else (k.proc j).parent := by
  simp only [reparent]
  split <;> rfl

/-- What the end of `exit` leaves alone. -/
structure Rest (s t : Procs) : Prop where
  initproc : t.kernel.initproc = s.kernel.initproc
  nextpid : t.kernel.nextpid = s.kernel.nextpid
  kmem : t.kernel.kmem = s.kernel.kmem
  chan : t.chan = s.chan
  pc : t.pc = s.pc

theorem exitSection_rest (s : Procs) (i : Fin NPROC) : Rest s (exitSection s i) := by
  simp only [exitSection, passChildren]
  split
  · exact ⟨rfl, rfl, rfl, rfl, rfl⟩
  · exact ⟨rfl, rfl, rfl, rfl, rfl⟩

theorem exitSection_exited (s : Procs) (i : Fin NPROC) : Exited s (exitSection s i) i := by
  set woken := wakeup1 s ((s.proc i).parent.map Chan.proc) with woken_eq
  have first : Wakes s woken := wakes_wakeup1 s _
  set passed : Procs := { woken with kernel := reparent woken.kernel i }
  set last := passChildren woken i with last_eq
  have second : Wakes passed last := by
    rw [last_eq, passChildren]
    split
    · exact wakes_wakeup1 passed _
    · exact ⟨fun _ => rfl, fun _ => rfl, fun _ => rfl, fun _ => Or.inl rfl⟩
  have result : (exitSection s i).proc =
      update last.proc i { last.proc i with state := .ZOMBIE } := by
    rw [exitSection, setProc_proc]
  have others : ∀ j, j ≠ i → (exitSection s i).proc j = last.proc j := by
    intro j other
    rw [result, update_of_ne other]
  have fields : ∀ j, ((exitSection s i).proc j).pid = (last.proc j).pid ∧
      ((exitSection s i).proc j).killed = (last.proc j).killed ∧
      ((exitSection s i).proc j).parent = (last.proc j).parent := by
    intro j
    rw [result]
    by_cases same : j = i
    · subst same; simp
    · simp [same]
  constructor
  · rw [result, update_self]
  · intro j
    rw [(fields j).1, second.pid, ← first.pid]
    exact reparent_pid woken.kernel i j
  · intro j
    rw [(fields j).2.1, second.killed, ← first.killed]
    exact reparent_killed woken.kernel i j
  · intro j
    rw [(fields j).2.2, second.parent, ← first.parent]
    exact reparent_parent woken.kernel i j
  · intro j other
    rw [others j other]
    have middle : (passed.proc j).state = (woken.proc j).state := reparent_state woken.kernel i j
    grind [second.state, first.state]
  · intro j other parent here
    rw [others j other]
    apply second.not_sleeping
    rw [show (passed.proc j).state = (woken.proc j).state from reparent_state woken.kernel i j]
    apply wakeup1_awake
    rw [parent]
    exact here
  · intro r j other init child zombie here
    rw [others r other]
    have orphaned : HasZombie woken i := by
      refine ⟨j, (first.parent j).trans child, ?_⟩
      grind [first.state]
    rw [last_eq, passChildren, if_pos orphaned]
    apply wakeup1_awake
    show s.chan r = s.kernel.initproc.map Chan.proc
    rw [init]
    exact here

theorem exitClose_proc (s : Procs) (i j : Fin NPROC) :
    (exitClose s i).proc j = { s.proc j with
      ofile := if j = i then fun _ => none else (s.proc j).ofile
      cwd := if j = i then none else (s.proc j).cwd } := by
  by_cases same : j = i
  · subst same; simp [exitClose, Procs.proc]
  · simp [exitClose, Procs.proc, same, Kernel.setProc]

/-- The tests of `exit` do not look at the open files it has closed before. -/
theorem exited_of_closed (slots : Exited (exitClose s i) t i) :
    Exited s t i := by
  have pid : ∀ j, ((exitClose s i).proc j).pid = (s.proc j).pid := by simp [exitClose_proc]
  have killed : ∀ j, ((exitClose s i).proc j).killed = (s.proc j).killed := by
    simp [exitClose_proc]
  have parent : ∀ j, ((exitClose s i).proc j).parent = (s.proc j).parent := by
    simp [exitClose_proc]
  have state : ∀ j, ((exitClose s i).proc j).state = (s.proc j).state := by
    simp [exitClose_proc]
  constructor
  · exact slots.zombie
  · exact fun j => (slots.pid j).trans (pid j)
  · exact fun j => (slots.killed j).trans (killed j)
  · intro j
    rw [slots.parent, parent]
    rfl
  · intro j other
    rw [← state]
    exact slots.state j other
  · intro j other own
    rw [← parent] at own
    exact slots.parentWoken j other own
  · intro r j other init child zombie
    rw [← parent] at child
    rw [← state] at zombie
    exact slots.initWoken r j other init child zombie

theorem exit_move (running : (s.proc i).state = .RUNNING)
    (here : s.pc i = .outside) (run : exit s i = some t) : Move s t (.exit i) := by
  unfold exit at run
  split at run
  · cases run
  · rename_i notInit
    cases run
    have rest := exitSection_rest (exitClose s i) i
    have slots := exited_of_closed (exitSection_exited (exitClose s i) i)
    generalize exitSection (exitClose s i) i = u at rest slots
    refine .exited running here notInit ?_ rest.nextpid ⟨rest.initproc, ?_⟩ rest.chan rest.pc rfl
    · exact ⟨slots.zombie, slots.pid, slots.killed, slots.parent, slots.state, slots.parentWoken,
        slots.initWoken⟩
    · intro nonNull v member
      rw [rest.kmem] at member
      exact nonNull v member

theorem forkCopy_filled {t : Kernel} {np : Fin NPROC}
    (run : forkCopy k i np copying = some (true, t)) :
    Filled (k.proc np) (t.proc np) i ∧ (∀ l, l ≠ np → t.proc l = k.proc l) ∧
      t.nextpid = k.nextpid ∧ t.initproc = k.initproc ∧ (NonNull k → NonNull t) := by
  obtain ⟨⟨kstack, k₁⟩, alloc, rest⟩ := Option.bind_eq_some_iff.mp run
  obtain ⟨first, -⟩ := kalloc_pages alloc
  simp only at rest
  split at rest
  · cases rest
  · obtain ⟨⟨copied, k₂⟩, copies, rest⟩ := Option.bind_eq_some_iff.mp rest
    obtain ⟨second, -⟩ := copyCalls_pages copies
    simp only at rest
    split at rest
    · cases rest
      have procs : k₂.proc = update k.proc np { k.proc np with kstack := kstack } := by
        rw [second.proc, Kernel.setProc, first.proc]
      refine ⟨?_, ?_, second.nextpid.trans first.nextpid, second.initproc.trans first.initproc,
        fun nonNull => second.nonNull (first.nonNull nonNull)⟩
      · rw [setProc_proc_self, procs, update_self]
        exact ⟨rfl, rfl, rfl, rfl⟩
      · intro l other
        rw [setProc_proc_of_ne _ _ _ _ other, procs, update_of_ne other]
    · obtain ⟨k₃, -, rest⟩ := Option.bind_eq_some_iff.mp rest
      cases rest

/-- `fork` fails only where the free list holds a null pointer. -/
theorem forkCopy_failed {t : Kernel} {np : Fin NPROC}
    (run : forkCopy k i np copying = some (false, t)) :
    ¬ NonNull k ∧ t.nextpid = k.nextpid := by
  obtain ⟨⟨kstack, k₁⟩, alloc, rest⟩ := Option.bind_eq_some_iff.mp run
  obtain ⟨first, nonzero⟩ := kalloc_pages alloc
  simp only at rest
  split at rest
  · rename_i null
    cases rest
    exact ⟨fun nonNull => nonzero nonNull null, first.nextpid⟩
  · obtain ⟨⟨copied, k₂⟩, copies, rest⟩ := Option.bind_eq_some_iff.mp rest
    obtain ⟨second, all⟩ := copyCalls_pages copies
    simp only at rest
    split at rest
    · cases rest
    · rename_i incomplete
      obtain ⟨k₃, free, rest⟩ := Option.bind_eq_some_iff.mp rest
      cases rest
      refine ⟨fun nonNull => incomplete (all (first.nonNull nonNull)), ?_⟩
      exact (kfree_pages free).nextpid.trans (second.nextpid.trans first.nextpid)

theorem zombieChild_spec (found : zombieChild k i = some j) :
    (k.proc j).parent = some i ∧ (k.proc j).state = .ZOMBIE := by
  simpa using List.find?_some found

theorem no_zombieChild (none : zombieChild k i = none)
    (j : Fin NPROC) (child : (k.proc j).parent = some i) : (k.proc j).state ≠ .ZOMBIE := by
  have all := List.find?_eq_none.mp none j (List.mem_finRange j)
  simpa [child] using all

theorem wait_move {freeing : List PageCall}
    (running : (s.proc i).state = .RUNNING) (run : wait s i freeing = some t) :
    Move s t (.wait i freeing) := by
  obtain ⟨⟨ret, k⟩, called, rest⟩ := Option.bind_eq_some_iff.mp run
  simp only [Process.wait] at called
  split at called
  · rename_i j found
    obtain ⟨child, zombie⟩ := zombieChild_spec found
    obtain ⟨k₁, free, called⟩ := Option.bind_eq_some_iff.mp called
    obtain ⟨k₂, frees, called⟩ := Option.bind_eq_some_iff.mp called
    have pages := (kfree_pages free).trans (pageCalls_pages frees)
    cases called
    cases rest
    refine .reaped running child zombie ?_ ?_ pages.nextpid (pages.frame rfl rfl) rfl rfl rfl
    · show Reset ((k₂.setProc j _).proc j)
      rw [setProc_proc_self]
      exact ⟨rfl, rfl, rfl, rfl⟩
    · intro l other
      show (k₂.setProc j _).proc l = _
      rw [setProc_proc_of_ne _ _ _ _ other, pages.proc]
      rfl
  · rename_i none
    split at called
    · rename_i reason
      cases called
      cases rest
      exact .refused running reason rfl rfl rfl rfl
    · cases called
      cases rest
      exact .waits running (no_zombieChild none) rfl rfl ⟨rfl, id⟩ rfl rfl rfl

theorem fork_move (running : (s.proc i).state = .RUNNING)
    (run : runStep s i (.fork i) = some t) : Move s t (.fork i) := by
  cases here : s.pc i <;> simp only [runStep, here, reduceCtorEq] at run
  cases found : firstUnused s.kernel with
  | none =>
    simp only [allocSection, found, Option.map_none, Option.some.injEq] at run
    subst run
    exact .quiet ⟨⟨rfl, id⟩, rfl, rfl, rfl, fun _ => rfl, fun _ => rfl, fun _ => Or.inl rfl,
      fun _ _ sleeping => ⟨sleeping, rfl⟩⟩ fun _ _ => rfl
  | some np =>
    simp only [allocSection, found, Option.map_some, Option.some.injEq] at run
    subst run
    exact .allocated running here (firstUnused_spec found) rfl rfl ⟨rfl, id⟩ rfl rfl rfl

theorem forkCopy_move (running : (s.proc i).state = .RUNNING)
    (run : runStep s i (.forkCopy i copying) = some t) : Move s t (.forkCopy i copying) := by
  cases here : s.pc i <;> simp only [runStep, here, reduceCtorEq] at run
  rename_i np
  split at run
  · cases run
  · rename_i failed
    obtain ⟨null, nextpid⟩ := forkCopy_failed failed
    cases run
    exact .failed null nextpid
  · rename_i k complete
    obtain ⟨filled, others, nextpid, initproc, nonNull⟩ := forkCopy_filled complete
    cases run
    exact .copied running here filled others nextpid ⟨initproc, nonNull⟩ rfl rfl rfl

theorem switch_move {op : ProcOp}
    (up : Up (s.proc i)) (kernel : t.kernel = s.kernel.setProc i p) (slots : Quiet s t) :
    Move s t op := by
  refine .quiet slots fun j unused => ?_
  have other : j ≠ i := by
    rintro rfl
    simp [Up, unused] at up
  have proc : t.proc j = (s.kernel.setProc i p).proc j := congrFun (congrArg Kernel.proc kernel) j
  rw [proc, setProc_proc_of_ne _ _ _ _ other]
  rfl

theorem step_move {op : ProcOp} (taken : step s op = some t) : Move s t op := by
  cases op with
  | wakeup addr =>
    cases taken
    refine .quiet (quiet_wakeup1 s _) fun j unused => ?_
    rcases wokenBy_cases s (some (.other addr)) j with ⟨same, -⟩ | ⟨sleeping, -⟩
    · exact same
    · rw [unused] at sleeping
      cases sleeping
  | pages ctx calls =>
    obtain ⟨k, run, rfl⟩ := Option.map_eq_some_iff.mp taken
    have pages := pageCalls_pages run
    have proc : ∀ j, k.proc j = s.proc j := fun j => congrFun pages.proc j
    refine .quiet ⟨⟨pages.initproc, pages.nonNull⟩, pages.nextpid, rfl, rfl, ?_, ?_, ?_, ?_⟩
      fun j _ => proc j
    · exact fun j => congrArg Proc.pid (proc j)
    · exact fun j => congrArg Proc.parent (proc j)
    · exact fun j => Or.inl (congrArg Proc.state (proc j))
    · exact fun j _ sleeping => ⟨(congrArg Proc.state (proc j)).symm.trans sleeping, rfl⟩
  | schedule i =>
    simp only [step] at taken
    split at taken
    · rename_i runnable
      cases taken
      have up : Up (s.proc i) := Or.inr (Or.inl runnable)
      refine switch_move up rfl
        (quiet_setProc rfl rfl rfl (Or.inr ⟨up, up_of_running rfl⟩) ?_ rfl rfl ?_)
      · rintro - ⟨⟩
      · intro j other
        exact update_of_ne other _ _
    · cases taken
  | fork i =>
    simp only [step] at taken
    split at taken
    · exact fork_move ‹_› taken
    · cases taken
  | forkCopy i copying =>
    simp only [step] at taken
    split at taken
    · exact forkCopy_move ‹_› taken
    · cases taken
  | forkRun i =>
    simp only [step] at taken
    split at taken
    · rename_i running
      cases here : s.pc i <;> simp only [runStep, here, reduceCtorEq] at taken
      cases taken
      exact .started running here rfl rfl ⟨rfl, id⟩ rfl rfl rfl
    · cases taken
  | exit i =>
    simp only [step] at taken
    split at taken
    · rename_i running
      cases here : s.pc i <;> simp only [runStep, here, reduceCtorEq] at taken
      exact exit_move running here taken
    · cases taken
  | wait i freeing =>
    simp only [step] at taken
    split at taken
    · rename_i running
      cases here : s.pc i <;> simp only [runStep, here, reduceCtorEq] at taken
      · exact wait_move running taken
      · exact wait_move running taken
    · cases taken
  | kill i pid =>
    simp only [step] at taken
    split at taken
    · cases here : s.pc i <;> simp only [runStep, here, reduceCtorEq] at taken
      cases taken
      exact .kill rfl
    · cases taken
  | fault i =>
    simp only [step] at taken
    split at taken
    · rename_i running
      cases here : s.pc i <;> simp only [runStep, here, reduceCtorEq] at taken
      cases taken
      refine switch_move (up_of_running running) rfl
        (quiet_setProc rfl rfl rfl (Or.inl rfl) ?_ rfl rfl fun _ _ => rfl)
      exact fun _ sleeping => ⟨sleeping, rfl⟩
    · cases taken
  | sleep i addr =>
    simp only [step] at taken
    split at taken
    · rename_i running
      cases here : s.pc i <;> simp only [runStep, here, reduceCtorEq] at taken
      cases taken
      refine switch_move (up_of_running running) rfl (quiet_setProc rfl rfl rfl
        (Or.inr ⟨up_of_running running, Or.inl rfl⟩) ?_ rfl rfl ?_)
      · intro waiting
        rw [here] at waiting
        cases waiting
      · intro j other
        exact update_of_ne other _ _
    · cases taken
  | yield i =>
    simp only [step] at taken
    split at taken
    · rename_i running
      cases taken
      refine switch_move (up_of_running running) rfl (quiet_setProc rfl rfl rfl
        (Or.inr ⟨up_of_running running, Or.inr (Or.inl rfl)⟩) ?_ rfl rfl fun _ _ => rfl)
      rintro - ⟨⟩
    · cases taken

/-! ## The first process -/

/-- The table that `main` leaves. -/
structure Booted (k : Kernel) (r : Fin NPROC) : Prop where
  initproc : k.initproc = some r
  nextpid : k.nextpid = 2
  nonNull : NonNull k
  state : (k.proc r).state = .RUNNABLE
  pid : (k.proc r).pid = 1
  killed : (k.proc r).killed = false
  parent : (k.proc r).parent = none
  others : ∀ j, j ≠ r → k.proc j = Proc.unused

theorem main_booted {kend : AddrT} {freelist : List AddrT} {setup : List PageCall}
    (nonNull : ∀ v ∈ freelist, v ≠ 0) (started : main kend freelist setup = some k) :
    ∃ r, Booted k r := by
  obtain ⟨⟨found, k₁⟩, alloc, rest⟩ := Option.bind_eq_some_iff.mp started
  cases found with
  | none => cases rest
  | some r =>
    obtain ⟨k₂, calls, final⟩ := Option.bind_eq_some_iff.mp rest
    simp only [allocproc] at alloc
    split at alloc
    · cases alloc
    · rename_i np _
      obtain ⟨⟨kstack, k₀⟩, stack, alloc⟩ := Option.bind_eq_some_iff.mp alloc
      obtain ⟨first, -⟩ := kalloc_pages stack
      have second := pageCalls_pages calls
      simp only at alloc
      split at alloc
      · cases alloc
      · cases alloc
        cases final
        have procs : k₂.proc = update (fun _ => Proc.unused) r
            { Proc.unused with state := .EMBRYO, pid := 1, kstack := kstack } := by
          rw [second.proc, Kernel.setProc, first.proc]
          simp [Kernel.setProc]
        have own := congrFun procs r
        rw [update_self] at own
        refine ⟨r, second.initproc, second.nextpid.trans first.nextpid, ?_, ?_, ?_, ?_, ?_, ?_⟩
        · exact second.nonNull (first.nonNull nonNull)
        · rw [setProc_proc_self]
        · rw [setProc_proc_self, own]
        · rw [setProc_proc_self, own]
          rfl
        · rw [setProc_proc_self, own]
          rfl
        · intro j other
          rw [setProc_proc_of_ne _ _ _ _ other, procs, update_of_ne other]

theorem tenPages_nonNull : ∀ v ∈ tenPages, v ≠ 0 := by
  intro v member
  simp only [tenPages, List.mem_map, List.mem_range] at member
  obtain ⟨i, small, rfl⟩ := member
  interval_cases i <;> decide

end Xv6Tracing.Ptable
