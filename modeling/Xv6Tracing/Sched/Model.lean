import Xv6Tracing.Lib.Run
import Xv6Tracing.Params

/-!
# The scheduler, one instruction at a time

`scheduler`, `sched`, `yield`, `sleep`, `wakeup`, `kill`, `fork`, `forkret`, `exit` and
`wait` of `proc.c` on any number of CPUs.  A CPU is in the loop of `scheduler`, in an
interrupt handler there, or executes the kernel thread of a process.  A CPU holds
`ptable.lock`, and `swtch` hands it over: what one thread acquires another releases.

Critical sections of other spin locks appear as `hold`: code that tests and changes
conditions, sleeps and wakes up.  An interrupt may come in wherever no spin lock is
held; its handler may take locks and, for the timer, call `yield`.
-/

set_option autoImplicit false

namespace Xv6Tracing.Sched

open Lib

inductive Lk (L : Type) where
  | ptable
  | other (l : L)
deriving DecidableEq, Repr

/-- Where a kernel thread is.  `ret` is where it goes on after the call. -/
inductive Pc (K L : Type) where
  /-- Outside the calls below, with no spin lock. -/
  | user
  /-- In a critical section of `lk`. -/
  | hold (lk : Lk L) (ret : Pc K L)
  /-- The same, right after the condition of channel `k` was found false. -/
  | tested (lk : Lk L) (k : K) (ret : Pc K L)
  | yieldMark (ret : Pc K L)
  | yieldRelease (ret : Pc K L)
  /-- In `sched`, to go on at `resume` after `swtch`. -/
  | sched (resume : Pc K L)
  | sleepRelease (k : K) (l : L) (ret : Pc K L)
  | sleepChan (k : K) (lk : Lk L) (ret : Pc K L)
  | sleepMark (k : K) (lk : Lk L) (ret : Pc K L)
  | sleepTidy (lk : Lk L) (ret : Pc K L)
  | sleepUnlock (l : L) (ret : Pc K L)
  | sleepLock (l : L) (ret : Pc K L)
  | wake (k : K) (ret : Pc K L)
  | wakeRelease (ret : Pc K L)
  | killMark (pid : Nat)
  | killRelease
  | allocMark
  | allocRelease (np : Option (Fin NPROC))
  | allocStack (np : Fin NPROC)
  | forkCopy (np : Fin NPROC)
  | forkSet (np : Fin NPROC)
  | forkRun (np : Fin NPROC)
  | exitWake
  | exitPass
  | exitMark
  /-- After the last `sched` of `exit`. -/
  | zombie
  | waitScan
  | waitStack (z : Fin NPROC)
  | waitTable (z : Fin NPROC)
  | waitReset (z : Fin NPROC)
  | waitRelease
  | forkret
deriving DecidableEq, Repr

/-- Where a CPU is: in `scheduler` before it takes the lock, in the loop over the
table, with a process chosen (`proc` set, its page table loaded, marked `RUNNING`), back
from it (before `switchkvm`, before `proc = 0`); in a handler; or in a thread. -/
inductive Loc (K L : Type) where
  | idle
  | scan (i : Nat)
  | picked (p : Fin NPROC)
  | loaded (p : Fin NPROC)
  | marked (p : Fin NPROC)
  | back (p : Fin NPROC)
  | kernel (p : Fin NPROC)
  | handler (pc : Pc K L)
  | thread (p : Fin NPROC)
deriving DecidableEq, Repr

inductive Event (K : Type) where
  | tested (p : Fin NPROC) (k : K)
  | changed (k : K) (value : Bool)
  | woken (k : K)
deriving DecidableEq, Repr

/-- The fields of the processes and of the CPUs that decide which thread runs where, and
the spin locks, `lk` being `ptable.lock`.  A page of 0 is a null pointer.  `cr3` is `none`
for `kpml4`, and `stack` for the stack of the scheduler.  `pc` holds the registers of a
kernel thread, `context` what `swtch` saved of them.  `free` are the pages of the free list;
`table` is the page table that a process owns, which `pgdir` may outlive. -/
structure Core (C K L : Type) where
  lk : Option C
  locks : L → Option C
  loc : C → Loc K L
  proc : C → Option (Fin NPROC)
  cr3 : C → Option Nat
  stack : C → Option Nat
  state : Fin NPROC → ProcState
  kstack : Fin NPROC → Nat
  pgdir : Fin NPROC → Nat
  context : Fin NPROC → Pc K L
  pc : Fin NPROC → Pc K L
  table : Fin NPROC → Nat
  free : Nat → Bool

structure World (C K L : Type) extends Core C K L where
  pid : Fin NPROC → Nat
  parent : Fin NPROC → Option (Fin NPROC)
  chan : Fin NPROC → Option K
  killed : Fin NPROC → Bool
  nextpid : Nat
  initproc : Fin NPROC
  cond : K → Bool
  history : List (Event K)

/-- What a CPU does next where there is a choice: which call is made, how a condition
changes, which page `kalloc` returns (0 where it fails). -/
inductive Op (K L : Type) where
  | go
  | enter
  | leave
  | acquire (lk : Lk L)
  | release
  | test (k : K)
  | change (k : K) (value : Bool)
  | sleep (k : K)
  | wakeup (k : K)
  | yield
  | kill (pid : Nat)
  | fork
  | exit
  | wait
  | page (pg : Nat)
deriving DecidableEq, Repr

section Steps

variable {C K L : Type} [DecidableEq C] [DecidableEq K] [DecidableEq L]

def Core.goto (s : Core C K L) (c : C) (pc : Pc K L) : Core C K L :=
  match s.loc c with
  | .thread p => { s with pc := Function.update s.pc p pc }
  | _ => { s with loc := Function.update s.loc c (.handler pc) }

def World.goto (s : World C K L) (c : C) (pc : Pc K L) : World C K L :=
  { s with toCore := s.toCore.goto c pc }

/-- `acquire(&ptable.lock)`, which waits while another holds it. -/
def World.take (s : World C K L) (c : C) : Option (World C K L) :=
  if s.lk = none then some { s with lk := some c } else none

/-- `release(&ptable.lock)`, which panics where the CPU does not hold it. -/
def World.give (s : World C K L) (c : C) : Option (World C K L) :=
  if s.lk = some c then some { s with lk := none } else none

def World.takeOther (s : World C K L) (c : C) (l : L) : Option (World C K L) :=
  if s.locks l = none then some { s with locks := Function.update s.locks l (some c) } else none

def World.giveOther (s : World C K L) (c : C) (l : L) : Option (World C K L) :=
  if s.locks l = some c then some { s with locks := Function.update s.locks l none } else none

def World.record (s : World C K L) (event : Event K) : World C K L :=
  { s with history := event :: s.history }

/-! ## The process table -/

/-- The state of a process after `wakeup1(chan)`. -/
def wokenBy (s : World C K L) (chan : Option K) (p : Fin NPROC) : ProcState :=
  if s.state p = .SLEEPING ∧ s.chan p = chan then .RUNNABLE else s.state p

def wakeup1 (s : World C K L) (chan : Option K) : World C K L :=
  { s with
    state := wokenBy s chan
    history := (chan.map Event.woken).toList ++ s.history }

def firstProc (test : Fin NPROC → Bool) : Option (Fin NPROC) :=
  (List.finRange NPROC).find? test

def killLoop (s : World C K L) (pid : Nat) : World C K L :=
  match firstProc fun p => s.pid p = pid with
  | none => s
  | some p =>
    { s with
      killed := Function.update s.killed p true
      state := Function.update s.state p
        (if s.state p = .SLEEPING then .RUNNABLE else s.state p) }

def passChildren (procChan : Fin NPROC → K) (s : World C K L) (q : Fin NPROC) : World C K L :=
  let t := { s with
    parent := fun p => if s.parent p = some q then some s.initproc else s.parent p }
  if ∃ p, s.parent p = some q ∧ s.state p = .ZOMBIE then
    wakeup1 (t.record (.changed (procChan s.initproc) true)) (some (procChan s.initproc))
  else t

/-- The loop of `wait` over the table, and where it leads. -/
def waitLoop (procChan : Fin NPROC → K) (s : World C K L) (q : Fin NPROC) : Pc K L :=
  match firstProc fun p => s.parent p = some q ∧ s.state p = .ZOMBIE with
  | some z => .waitStack z
  | none =>
    if (∀ p, s.parent p ≠ some q) ∨ s.killed q = true then .waitRelease
    else .sleepChan (procChan q) .ptable .waitScan

/-! ## Threads -/

/-- Whether a thread there holds `ptable.lock`. -/
def Pc.inside : Pc K L → Bool
  | .hold .ptable _ | .tested .ptable _ _ => true
  | .hold (.other _) _ | .tested (.other _) _ _ => false
  | .user | .sleepLock _ _ | .allocStack _ | .forkCopy _ | .forkSet _ | .forkRun _ => false
  | _ => true

def Pc.holds : Pc K L → Option L
  | .hold (.other l) _ | .tested (.other l) _ _ | .sleepRelease _ l _ => some l
  | .wake _ ret | .wakeRelease ret => ret.holds
  | _ => none

def Pc.Unlocked (pc : Pc K L) : Prop := pc.inside = false ∧ pc.holds = none

instance (pc : Pc K L) : Decidable pc.Unlocked :=
  inferInstanceAs (Decidable (pc.inside = false ∧ pc.holds = none))

/-- `sleep(k, lk)` to where it holds only `ptable.lock`; it panics without a process. -/
def sleepStart (s : World C K L) (c : C) (k : K) (lk : Lk L) (ret : Pc K L) :
    Option (World C K L) :=
  if s.proc c = none then none
  else
    match lk with
    | .ptable => some (s.goto c (.sleepChan k .ptable ret))
    | .other l => (s.take c).map (·.goto c (.sleepRelease k l ret))

/-- `swtch(&proc->context, cpu->scheduler)`, with the checks of `sched`. -/
def swtchOut (s : World C K L) (c : C) (resume : Pc K L) : Option (World C K L) :=
  match s.proc c, s.loc c with
  | some q, .thread p =>
    if s.lk = some c ∧ s.state q ≠ .RUNNING then
      some { s with
        context := Function.update s.context q resume
        pc := Function.update s.pc p resume
        loc := Function.update s.loc c (.back p)
        stack := Function.update s.stack c none }
    else none
  | _, _ => none

def allocSection (s : World C K L) (c : C) : World C K L :=
  match firstProc fun p => s.state p = .UNUSED with
  | none => s.goto c (.allocRelease none)
  | some np =>
    ({ s with
      state := Function.update s.state np .EMBRYO
      pid := Function.update s.pid np s.nextpid
      nextpid := s.nextpid + 1 }).goto c (.allocRelease (some np))

/-- The next step of a thread whose process is `q`, where there is no choice. -/
def threadStep (procChan : Fin NPROC → K) (s : World C K L) (c : C) (q : Fin NPROC) :
    Pc K L → Option (World C K L)
  | .yieldMark ret =>
    some (({ s with state := Function.update s.state q .RUNNABLE }).goto c
      (.sched (.yieldRelease ret)))
  | .yieldRelease ret => (s.give c).map (·.goto c ret)
  | .sched resume => swtchOut s c resume
  | .sleepRelease k l ret => (s.giveOther c l).map (·.goto c (.sleepChan k (.other l) ret))
  | .sleepChan k lk ret =>
    some (({ s with chan := Function.update s.chan q (some k) }).goto c (.sleepMark k lk ret))
  | .sleepMark _ lk ret =>
    some (({ s with state := Function.update s.state q .SLEEPING }).goto c
      (.sched (.sleepTidy lk ret)))
  | .sleepTidy .ptable ret =>
    some (({ s with chan := Function.update s.chan q none }).goto c ret)
  | .sleepTidy (.other l) ret =>
    some (({ s with chan := Function.update s.chan q none }).goto c (.sleepUnlock l ret))
  | .sleepUnlock l ret => (s.give c).map (·.goto c (.sleepLock l ret))
  | .sleepLock l ret => (s.takeOther c l).map (·.goto c ret)
  | .killMark pid => some ((killLoop s pid).goto c .killRelease)
  | .killRelease => (s.give c).map (·.goto c .user)
  | .allocMark => some (allocSection s c)
  | .allocRelease none => (s.give c).map (·.goto c .user)
  | .allocRelease (some np) => (s.give c).map (·.goto c (.allocStack np))
  | .forkSet np =>
    some (({ s with parent := Function.update s.parent np (some q) }).goto c (.forkRun np))
  | .forkRun np =>
    some (({ s with state := Function.update s.state np .RUNNABLE }).goto c .user)
  | .exitWake => some ((wakeup1 s ((s.parent q).map procChan)).goto c .exitPass)
  | .exitPass => some ((passChildren procChan s q).goto c .exitMark)
  | .exitMark =>
    let t := { s with state := Function.update s.state q .ZOMBIE }
    match s.parent q with
    | none => some (t.goto c (.sched .zombie))
    | some p => some ((t.record (.changed (procChan p) true)).goto c (.sched .zombie))
  | .waitScan => some ((s.record (.tested q (procChan q))).goto c (waitLoop procChan s q))
  | .waitStack z =>
    some (({ s with
      free := Function.update s.free (s.kstack z) true
      kstack := Function.update s.kstack z 0 }).goto c (.waitTable z))
  | .waitTable z =>
    some (({ s with
      free := Function.update s.free (s.pgdir z) true
      table := Function.update s.table z 0 }).goto c (.waitReset z))
  | .waitReset z =>
    some (({ s with
      pid := Function.update s.pid z 0
      parent := Function.update s.parent z none
      killed := Function.update s.killed z false
      state := Function.update s.state z .UNUSED }).goto c .waitRelease)
  | .waitRelease => (s.give c).map (·.goto c .user)
  | .forkret => (s.give c).map (·.goto c .user)
  | _ => none

/-- `allocproc` and `fork` where they allocate; 0 is a failed allocation. -/
def pageStep (s : World C K L) (c : C) (pg : Nat) : Pc K L → Option (World C K L)
  | .allocStack np =>
    if pg = 0 then
      some (({ s with
        kstack := Function.update s.kstack np 0
        state := Function.update s.state np .UNUSED }).goto c .user)
    else if s.free pg then
      some (({ s with
        free := Function.update s.free pg false
        kstack := Function.update s.kstack np pg
        context := Function.update s.context np .forkret
        pc := Function.update s.pc np .forkret }).goto c (.forkCopy np))
    else none
  | .forkCopy np =>
    if pg = 0 then
      some (({ s with
        free := Function.update s.free (s.kstack np) true
        pgdir := Function.update s.pgdir np 0
        kstack := Function.update s.kstack np 0
        state := Function.update s.state np .UNUSED }).goto c .user)
    else if s.free pg then
      some (({ s with
        free := Function.update s.free pg false
        pgdir := Function.update s.pgdir np pg
        table := Function.update s.table np pg }).goto c (.forkSet np))
    else none
  | _ => none

def callStep (s : World C K L) (c : C) (q : Fin NPROC) (pc : Pc K L) :
    Op K L → Option (World C K L)
  | .yield => if pc.Unlocked then (s.take c).map (·.goto c (.yieldMark pc)) else none
  | .kill pid => if pc = .user then (s.take c).map (·.goto c (.killMark pid)) else none
  | .fork => if pc = .user then (s.take c).map (·.goto c .allocMark) else none
  | .exit =>
    if pc = .user ∧ q ≠ s.initproc then (s.take c).map (·.goto c .exitWake) else none
  | .wait => if pc = .user then (s.take c).map (·.goto c .waitScan) else none
  | .page pg => pageStep s c pg pc
  | _ => none

def sectionStep (s : World C K L) (c : C) : Pc K L → Op K L → Option (World C K L)
  | .hold .ptable ret, .release => (s.give c).map (·.goto c ret)
  | .hold (.other l) ret, .release => (s.giveOther c l).map (·.goto c ret)
  | .hold lk ret, .test k =>
    let t := match s.proc c with
      | none => s
      | some p => s.record (.tested p k)
    some (t.goto c (if s.cond k then .hold lk ret else .tested lk k ret))
  | .tested lk _ ret, .go => some (s.goto c (.hold lk ret))
  | .hold lk ret, .change k value =>
    some (({ s with cond := Function.update s.cond k value }.record (.changed k value)).goto c
      (.hold lk ret))
  | .tested lk k' ret, .change k value =>
    some (({ s with cond := Function.update s.cond k value }.record (.changed k value)).goto c
      (.tested lk k' ret))
  | .hold lk ret, .sleep k => sleepStart s c k lk (.hold lk ret)
  | .tested lk _ ret, .sleep k => sleepStart s c k lk (.hold lk ret)
  | .hold .ptable ret, .wakeup k => some ((wakeup1 s (some k)).goto c (.hold .ptable ret))
  | .tested .ptable k' ret, .wakeup k =>
    some ((wakeup1 s (some k)).goto c (.tested .ptable k' ret))
  | .wake k ret, .go => some ((wakeup1 s (some k)).goto c (.wakeRelease ret))
  | .wakeRelease ret, .go => (s.give c).map (·.goto c ret)
  | pc, .wakeup k =>
    if pc.inside = false then (s.take c).map (·.goto c (.wake k pc)) else none
  | pc, .acquire .ptable =>
    if pc.Unlocked then (s.take c).map (·.goto c (.hold .ptable pc)) else none
  | pc, .acquire (.other l) =>
    if pc.Unlocked then (s.takeOther c l).map (·.goto c (.hold (.other l) pc)) else none
  | _, _ => none

/-- A step of the code on CPU `c`: of a critical section, or of the process. -/
def codeStep (procChan : Fin NPROC → K) (s : World C K L) (c : C) (pc : Pc K L) (op : Op K L) :
    Option (World C K L) :=
  match sectionStep s c pc op, s.proc c with
  | some t, _ => some t
  | none, none => none
  | none, some q => if op = .go then threadStep procChan s c q pc else callStep s c q pc op

/-! ## The scheduler -/

def schedulerStep (s : World C K L) (c : C) : Loc K L → Option (World C K L)
  | .idle => (s.take c).map fun t => { t with loc := Function.update t.loc c (.scan 0) }
  | .scan i =>
    if inTable : i < NPROC then
      if s.state ⟨i, inTable⟩ = .RUNNABLE then
        some { s with
          proc := Function.update s.proc c (some ⟨i, inTable⟩)
          loc := Function.update s.loc c (.picked ⟨i, inTable⟩) }
      else some { s with loc := Function.update s.loc c (.scan (i + 1)) }
    else (s.give c).map fun t => { t with loc := Function.update t.loc c .idle }
  | .picked p =>
    if s.pgdir p = 0 then none
    else
      some { s with
        cr3 := Function.update s.cr3 c (some (s.pgdir p))
        loc := Function.update s.loc c (.loaded p) }
  | .loaded p =>
    some { s with
      state := Function.update s.state p .RUNNING
      loc := Function.update s.loc c (.marked p) }
  | .marked p =>
    some { s with
      pc := Function.update s.pc p (s.context p)
      stack := Function.update s.stack c (some (s.kstack p))
      loc := Function.update s.loc c (.thread p) }
  | .back p =>
    some { s with
      cr3 := Function.update s.cr3 c none
      loc := Function.update s.loc c (.kernel p) }
  | .kernel p =>
    some { s with
      proc := Function.update s.proc c none
      loc := Function.update s.loc c (.scan (p.val + 1)) }
  | _ => none

def step (procChan : Fin NPROC → K) (s : World C K L) (move : C × Op K L) :
    Option (World C K L) :=
  match s.loc move.1, move.2 with
  | .thread p, op => codeStep procChan s move.1 (s.pc p) op
  | .handler .user, .leave => some { s with loc := Function.update s.loc move.1 .idle }
  | .handler pc, op => codeStep procChan s move.1 pc op
  | .idle, .enter => some { s with loc := Function.update s.loc move.1 (.handler .user) }
  | place, .go => schedulerStep s move.1 place
  | _, _ => none

end Steps

end Xv6Tracing.Sched
