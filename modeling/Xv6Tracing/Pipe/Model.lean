import Xv6Tracing.Lib.Circular
import Xv6Tracing.Lib.Run
import Xv6Tracing.Params

/-!
# One pipe and its processes

`pipewrite`, `piperead` and `pipeclose` of `pipe.c` with the `sleep`, `wakeup` and
`kill` of `proc.c` that they meet, for any number of processes on one pipe.  A step
is one access to a lock or to the data that it protects.

`sched` hands `ptable.lock` to the scheduler, which releases it; a process made runnable
gets it back before it goes on in `sleep`.  Freeing the pipe's page is left out.
-/

set_option autoImplicit false

namespace Xv6Tracing.Pipes

open Lib

def PIPESIZE : Nat := 512

instance : NeZero PIPESIZE := ⟨by decide⟩

/-- `struct pipe` without its lock. -/
structure Pipe where
  data : Fin PIPESIZE → Uchar
  nread : Uint
  nwrite : Uint
  readopen : Bool
  writeopen : Bool

def Pipe.Empty (p : Pipe) : Prop := p.nread = p.nwrite

def Pipe.Full (p : Pipe) : Prop := p.nwrite = p.nread + BitVec.ofNat 32 PIPESIZE

instance (p : Pipe) : Decidable p.Empty := inferInstanceAs (Decidable (p.nread = p.nwrite))

instance (p : Pipe) : Decidable p.Full :=
  inferInstanceAs (Decidable (p.nwrite = p.nread + BitVec.ofNat 32 PIPESIZE))

/-- `p->data[p->nwrite++ % PIPESIZE] = byte` -/
def Pipe.put (p : Pipe) (byte : Uchar) : Pipe :=
  { p with
    data := Function.update p.data (cell PIPESIZE p.nwrite) byte
    nwrite := p.nwrite + 1 }

/-- `p->data[p->nread % PIPESIZE]` -/
def Pipe.next (p : Pipe) : Uchar := p.data (cell PIPESIZE p.nread)

def Pipe.close (p : Pipe) (writable : Bool) : Pipe :=
  if writable then { p with writeopen := false } else { p with readopen := false }

/-- What a process sleeps on, `&p->nread` or `&p->nwrite`. -/
inductive Chan where
  | nread | nwrite
deriving DecidableEq, Repr

/-- The arguments `addr` and `n` of `pipewrite`. -/
structure Buffer where
  addr : Nat → Uchar
  n : CInt

inductive WakeSite where
  | writeFull (w : Buffer) (i : Nat)
  | writeEnd (w : Buffer)
  | readEnd (n : CInt) (i : Nat)
  | close (writable : Bool)

def WakeSite.chan : WakeSite → Chan
  | .writeFull _ _ | .writeEnd _ => .nread
  | .readEnd _ _ => .nwrite
  | .close writable => if writable then .nread else .nwrite

inductive SleepSite where
  | write (w : Buffer) (i : Nat)
  | read (n : CInt)

def SleepSite.chan : SleepSite → Chan
  | .write _ _ => .nwrite
  | .read _ => .nread

/-- What comes next in `wakeup`: `acquire(&ptable.lock)`, `wakeup1`, `release`. -/
inductive Waking where
  | acquire | wake | release
deriving DecidableEq, Repr

/-- What comes next in `sleep`: `acquire(&ptable.lock)`, `release(lk)`, the change of
state and `sched`, the return from `sched`, `release(&ptable.lock)`, `acquire(lk)`. -/
inductive Sleeping where
  | acquire | unlock | mark | off | tidy | relock
deriving DecidableEq, Repr

inductive Pc (T : Type) where
  | idle
  | writeEnter (w : Buffer)
  | writeNext (w : Buffer) (i : Nat)
  | writeTest (w : Buffer) (i : Nat)
  | writeStop (w : Buffer) (i : Nat)
  | writeExit (ret : CInt)
  | readEnter (n : CInt)
  | readTest (n : CInt)
  | readStop (n : CInt)
  | readCopy (n : CInt) (i : Nat)
  | readExit (n ret : CInt)
  | closeEnter (writable : Bool)
  | closeMark (writable : Bool)
  | closeExit
  | waking (site : WakeSite) (next : Waking)
  | sleeping (site : SleepSite) (next : Sleeping)
  | killing (victim : T) (next : Waking)

/-- `asleep` is the channel of a `SLEEPING` process.  The rest is history: who has
stored bytes since it last woke the readers, the bytes stored, the bytes of each
finished read and those of the read that is copying. -/
structure World (T : Type) where
  pipe : Pipe
  lk : Option T
  ptable : Option T
  pc : T → Pc T
  asleep : T → Option Chan
  killed : T → Bool
  unannounced : T → Bool
  stored : List Uchar
  reads : List (List Uchar)
  copying : List Uchar

inductive Call (T : Type) where
  | write (w : Buffer)
  | read (n : CInt)
  | close (writable : Bool)
  | kill (victim : T)

def Call.enter {T : Type} : Call T → Pc T
  | .write w => .writeEnter w
  | .read n => .readEnter n
  | .close writable => .closeEnter writable
  | .kill victim => .killing victim .acquire

def WakeSite.after {T : Type} : WakeSite → Pc T
  | .writeFull w i => .sleeping (.write w i) .acquire
  | .writeEnd w => .writeExit w.n
  | .readEnd n i => .readExit n (BitVec.ofNat 32 i)
  | .close _ => .closeExit

def SleepSite.after {T : Type} : SleepSite → Pc T
  | .write w i => .writeTest w i
  | .read n => .readTest n

section Steps

variable {T : Type} [DecidableEq T]

def World.goto (s : World T) (t : T) (pc : Pc T) : World T :=
  { s with pc := Function.update s.pc t pc }

def lockPipe (s : World T) (t : T) (pc : Pc T) : Option (World T) :=
  if s.lk = none then some ({ s with lk := some t }.goto t pc) else none

def unlockPipe (s : World T) (t : T) (pc : Pc T) : Option (World T) :=
  some ({ s with lk := none }.goto t pc)

def lockTable (s : World T) (t : T) (pc : Pc T) : Option (World T) :=
  if s.ptable = none then some ({ s with ptable := some t }.goto t pc) else none

def unlockTable (s : World T) (t : T) (pc : Pc T) : Option (World T) :=
  some ({ s with ptable := none }.goto t pc)

def wakeup1 (s : World T) (chan : Chan) : World T :=
  { s with asleep := fun u => if s.asleep u = some chan then none else s.asleep u }

def wakingStep (s : World T) (t : T) (site : WakeSite) : Waking → Option (World T)
  | .acquire => lockTable s t (.waking site .wake)
  | .wake =>
    some ({ wakeup1 s site.chan with
      unannounced := if site.chan = Chan.nread then Function.update s.unannounced t false
        else s.unannounced }.goto t (.waking site .release))
  | .release => unlockTable s t site.after

def sleepingStep (s : World T) (t : T) (site : SleepSite) : Sleeping → Option (World T)
  | .acquire => lockTable s t (.sleeping site .unlock)
  | .unlock => unlockPipe s t (.sleeping site .mark)
  | .mark =>
    unlockTable { s with asleep := Function.update s.asleep t (some site.chan) } t
      (.sleeping site .off)
  | .off => if s.asleep t = none then lockTable s t (.sleeping site .tidy) else none
  | .tidy => unlockTable s t (.sleeping site .relock)
  | .relock => lockPipe s t site.after

def killingStep (s : World T) (t victim : T) : Waking → Option (World T)
  | .acquire => lockTable s t (.killing victim .wake)
  | .wake =>
    some ({ s with
      killed := Function.update s.killed victim true
      asleep := Function.update s.asleep victim none }.goto t (.killing victim .release))
  | .release => unlockTable s t .idle

def step (s : World T) (op : T × Call T) : Option (World T) :=
  let t := op.1
  match s.pc t with
  | .idle => some (s.goto t op.2.enter)
  | .writeEnter w => lockPipe s t (.writeNext w 0)
  | .writeNext w i =>
    if (i : Int) < w.n.toInt then some (s.goto t (.writeTest w i))
    else some (s.goto t (.waking (.writeEnd w) .acquire))
  | .writeTest w i =>
    if s.pipe.Full then some (s.goto t (.writeStop w i))
    else
      some ({ s with
        pipe := s.pipe.put (w.addr i)
        unannounced := Function.update s.unannounced t true
        stored := s.stored ++ [w.addr i] }.goto t (.writeNext w (i + 1)))
  | .writeStop w i =>
    if s.pipe.readopen = false ∨ s.killed t then some (s.goto t (.writeExit (-1)))
    else some (s.goto t (.waking (.writeFull w i) .acquire))
  | .writeExit _ => unlockPipe s t .idle
  | .readEnter n => lockPipe s t (.readTest n)
  | .readTest n =>
    if s.pipe.Empty ∧ s.pipe.writeopen then some (s.goto t (.readStop n))
    else some (s.goto t (.readCopy n 0))
  | .readStop n =>
    if s.killed t then some (s.goto t (.readExit n (-1)))
    else some (s.goto t (.sleeping (.read n) .acquire))
  | .readCopy n i =>
    if (i : Int) < n.toInt ∧ ¬ s.pipe.Empty then
      some ({ s with
        pipe := { s.pipe with nread := s.pipe.nread + 1 }
        copying := s.copying ++ [s.pipe.next] }.goto t (.readCopy n (i + 1)))
    else
      some ({ s with
        reads := s.reads ++ [s.copying]
        copying := [] }.goto t (.waking (.readEnd n i) .acquire))
  | .readExit _ _ => unlockPipe s t .idle
  | .closeEnter writable => lockPipe s t (.closeMark writable)
  | .closeMark writable =>
    some ({ s with pipe := s.pipe.close writable }.goto t (.waking (.close writable) .acquire))
  | .closeExit => unlockPipe s t .idle
  | .waking site next => wakingStep s t site next
  | .sleeping site next => sleepingStep s t site next
  | .killing victim next => killingStep s t victim next

end Steps

/-- What `pipealloc` makes, with processes that are not yet in a call. -/
def pipealloc (T : Type) (data : Fin PIPESIZE → Uchar) (killed : T → Bool) : World T where
  pipe := ⟨data, 0, 0, true, true⟩
  lk := none
  ptable := none
  pc := fun _ => .idle
  asleep := fun _ => none
  killed := killed
  unannounced := fun _ => false
  stored := []
  reads := []
  copying := []

end Xv6Tracing.Pipes
