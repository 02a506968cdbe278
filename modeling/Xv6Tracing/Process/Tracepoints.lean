import Xv6Tracing.Lib.Run
import Xv6Tracing.Ktrace.Buffer

/-!
# Where the kernel records events

The seven calls of `traceevent` and the functions around them: the allocator of
`kalloc.c`, `fork`, `exit` and `wait` of `proc.c`, `trap`, and the end of `syscall`.  A
step is one such function run by one of the running processes, or with `proc == 0`.

What a function does to page tables reaches the allocator as a list of page calls, which
each step carries.  A sleeping process may be woken at any time.
-/

set_option autoImplicit false

namespace Xv6Tracing.Process

open Ktrace Vm Lib

def TRACE_TYPE_SYSCALL : CInt := 1
def TRACE_TYPE_PROC : CInt := 2
def TRACE_TYPE_TRAP : CInt := 3
def TRACE_TYPE_MEM : CInt := 4

structure Kmem where
  use_lock : Bool
  freelist : List AddrT

/-- `cause` is history: for each slot of the trace buffer written since
`traceinit`, the current process of the call that wrote it, as it was then. -/
structure Kernel where
  proc : Fin NPROC → Proc
  initproc : Option (Fin NPROC)
  nextpid : CInt
  kend : AddrT
  kmem : Kmem
  ticks : Uint
  buf : TraceBuffer
  cause : Fin TRACE_BUF_SIZE → Option (Option Proc)

/-- The current process of a CPU, `0` when it runs none. -/
abbrev Ctx := Option (Fin NPROC)

def Kernel.current (k : Kernel) (ctx : Ctx) : Option Proc := ctx.map k.proc

/-- `proc ? proc->pid : 0` -/
def pidOf : Option Proc → CInt
  | some p => p.pid
  | none => 0

def Kernel.setProc (k : Kernel) (i : Fin NPROC) (p : Proc) : Kernel :=
  { k with proc := Function.update k.proc i p }

def Kernel.record (k : Kernel) (ctx : Ctx) (type pid arg0 arg1 arg2 : CInt) (name : String) :
    Kernel :=
  { k with
    buf := traceevent k.buf ⟨k.ticks, k.current ctx, type, pid, arg0, arg1, arg2, some (cstr name)⟩
    cause :=
      if k.buf.enabled then Function.update k.cause (slot k.buf.seq) (some (k.current ctx))
      else k.cause }

/-! ## The page allocator -/

/-- The conversion of a 64-bit argument to an `int` parameter. -/
def toCInt (word : BitVec 64) : CInt := word.setWidth 32

/-- `panic("kfree")` is `none`. -/
def kfree (k : Kernel) (ctx : Ctx) (v : AddrT) : Option Kernel :=
  if v % PGSIZE ≠ 0 ∨ v < k.kend ∨ V2P v ≥ PHYSTOP then none
  else
    let k := { k with kmem := { k.kmem with freelist := v :: k.kmem.freelist } }
    if k.kmem.use_lock then
      some (k.record ctx TRACE_TYPE_MEM (pidOf (k.current ctx)) (toCInt (V2P v)) 0 0 "kfree")
    else some k

/-- `panic("Out of memory!")` is `none`. -/
def kalloc (k : Kernel) (ctx : Ctx) : Option (AddrT × Kernel) :=
  match k.kmem.freelist with
  | [] => none
  | r :: next =>
    let k := { k with kmem := { k.kmem with freelist := next } }
    if k.kmem.use_lock ∧ r ≠ 0 then
      some (r, k.record ctx TRACE_TYPE_MEM (pidOf (k.current ctx)) (toCInt (V2P r)) 0 0 "kalloc")
    else some (r, k)

inductive PageCall where
  | kalloc
  | kfree (v : AddrT)

def pageCall (k : Kernel) (ctx : Ctx) : PageCall → Option Kernel
  | .kalloc => (kalloc k ctx).map Prod.snd
  | .kfree v => kfree k ctx v

def pageCalls (ctx : Ctx) : List PageCall → Kernel → Option Kernel
  | [], k => some k
  | call :: rest, k => do
      let k ← pageCall k ctx call
      pageCalls ctx rest k

/-! ## Processes -/

/-- The first slot with `state == UNUSED`. -/
def firstUnused (k : Kernel) : Option (Fin NPROC) :=
  (List.finRange NPROC).find? fun i => decide ((k.proc i).state = .UNUSED)

/-- The inner `none` is the return value 0. -/
def allocproc (k : Kernel) (ctx : Ctx) : Option (Option (Fin NPROC) × Kernel) :=
  match firstUnused k with
  | none => some (none, k)
  | some np => do
      let k := { k.setProc np { k.proc np with state := .EMBRYO, pid := k.nextpid } with
        nextpid := k.nextpid + 1 }
      let (kstack, k) ← kalloc k ctx
      if kstack = 0 then
        some (none, k.setProc np { k.proc np with kstack := 0, state := .UNUSED })
      else some (some np, k.setProc np { k.proc np with kstack := kstack })

/-- What `fork` copies from the caller `p` to the new process. -/
def childOf (caller : Fin NPROC) (p np : Proc) : Proc :=
  { np with
    sz := p.sz
    parent := some caller
    tf := { p.tf with rax := 0 }
    ofile := fun fd => if (p.ofile fd).isSome then p.ofile fd else np.ofile fd
    cwd := p.cwd
    name := np.name.fill p.name.bytes
    state := .RUNNABLE }

/-- `copying` and `copied` are the page calls and the outcome of `copyuvm`. -/
def fork (k : Kernel) (caller : Fin NPROC) (copying : List PageCall) (copied : Bool) :
    Option (CInt × Kernel) := do
  let (found, k) ← allocproc k (some caller)
  match found with
  | none => some (-1, k)
  | some np =>
    let k ← pageCalls (some caller) copying k
    if copied then
      let k := k.setProc np (childOf caller (k.proc caller) (k.proc np))
      let pid := (k.proc np).pid
      some (pid,
        k.record (some caller) TRACE_TYPE_PROC pid (k.proc caller).pid 0 0 "fork")
    else
      let k ← kfree k (some caller) (k.proc np).kstack
      some (-1, k.setProc np { k.proc np with kstack := 0, state := .UNUSED })

def reparent (k : Kernel) (i : Fin NPROC) : Kernel :=
  { k with proc := fun j =>
      if (k.proc j).parent = some i then { k.proc j with parent := k.initproc } else k.proc j }

/-- `closing` are the page calls of the `fileclose` calls (a pipe's page). -/
def exit (k : Kernel) (i : Fin NPROC) (closing : List PageCall) : Option Kernel :=
  if k.initproc = some i then none
  else do
    let k := k.record (some i) TRACE_TYPE_PROC (k.proc i).pid 0 0 0 "exit"
    let k ← pageCalls (some i) closing k
    let k := reparent (k.setProc i { k.proc i with ofile := fun _ => none, cwd := none }) i
    some (k.setProc i { k.proc i with state := .ZOMBIE })

def zombieChild (k : Kernel) (i : Fin NPROC) : Option (Fin NPROC) :=
  (List.finRange NPROC).find? fun j =>
    decide ((k.proc j).parent = some i ∧ (k.proc j).state = .ZOMBIE)

/-- `p->name[0] = 0` -/
def clearName (name : CharBuf 16) : CharBuf 16 where
  bytes := name.bytes.set 0 0
  length_eq := by simp [name.length_eq]
  terminated := by
    have positive : 0 < name.bytes.length := by rw [name.length_eq]; decide
    exact List.mem_set positive 0

/-- The result is the pid returned, or `none` when the caller goes to sleep.
`freeing` are the page calls of `freevm`. -/
def wait (k : Kernel) (i : Fin NPROC) (freeing : List PageCall) :
    Option (Option CInt × Kernel) :=
  match zombieChild k i with
  | some j => do
      let pid := (k.proc j).pid
      let k ← kfree k (some i) (k.proc j).kstack
      let k ← pageCalls (some i) freeing k
      some (some pid, k.setProc j { k.proc j with
        kstack := 0
        pid := 0
        parent := none
        name := clearName (k.proc j).name
        killed := false
        state := .UNUSED })
  | none =>
    if (∀ j, (k.proc j).parent ≠ some i) ∨ (k.proc i).killed then some (some (-1), k)
    else some (none, k.setProc i { k.proc i with state := .SLEEPING })

def kill (k : Kernel) (pid : CInt) : CInt × Kernel :=
  match (List.finRange NPROC).find? fun i => decide ((k.proc i).pid = pid) with
  | none => (-1, k)
  | some i =>
    (0, k.setProc i { k.proc i with
      killed := true
      state := if (k.proc i).state = .SLEEPING then .RUNNABLE else (k.proc i).state })

/-- The program name `exec` saves: the path after its last slash. -/
def lastElem (path : List Uchar) : List Uchar :=
  (path.reverse.takeWhile (· ≠ 0x2f)).reverse

/-- A successful `exec`; `loading` are its page calls, `argc` and `argv` what it
puts on the new stack. -/
def exec (k : Kernel) (i : Fin NPROC) (path : List Uchar) (sz argc argv : AddrT)
    (loading : List PageCall) : Option Kernel := do
  let k ← pageCalls (some i) loading k
  some (k.setProc i { k.proc i with
    sz := sz
    tf := { (k.proc i).tf with rdi := argc, rsi := argv }
    name := (k.proc i).name.fill (lastElem (cText path)) })

/-! ## Traps and system calls -/

def T_ILLOP : BitVec 64 := 6
def T_PGFLT : BitVec 64 := 14
def T_IRQ0 : BitVec 64 := 32
def IRQ_TIMER : BitVec 64 := 0

/-- The interrupts `trap` hands to a device driver or ignores: IDE and the
spurious second one, keyboard, COM1, and the two spurious vectors. -/
def deviceInterrupts : List (BitVec 64) :=
  [T_IRQ0 + 14, T_IRQ0 + 15, T_IRQ0 + 1, T_IRQ0 + 4, T_IRQ0 + 7, T_IRQ0 + 31]

def trapName (trapno : BitVec 64) : String :=
  if trapno = T_PGFLT then "pagefault" else if trapno = T_ILLOP then "illegalop" else "usertrap"

/-- The `switch` of `trap`; `user` is `(tf->cs & 3) == DPL_USER`. -/
def trapSwitch (k : Kernel) (ctx : Ctx) (trapno err : BitVec 64) (user cpu0 : Bool) :
    Option Kernel :=
  if trapno = T_IRQ0 + IRQ_TIMER then
    some (if cpu0 then { k with ticks := k.ticks + 1 } else k)
  else if trapno ∈ deviceInterrupts then some k
  else
    match ctx with
    | none => none
    | some i =>
      if user then
        let k := k.record (some i) TRACE_TYPE_TRAP (k.proc i).pid (toCInt trapno) (toCInt err) 0
          (trapName trapno)
        some (k.setProc i { k.proc i with killed := true })
      else none

/-- `trap` up to where it returns or gives up the CPU; the check it makes after
`yield` is a step of its own, an `exit`. -/
def trap (k : Kernel) (ctx : Ctx) (trapno err : BitVec 64) (user cpu0 : Bool)
    (closing : List PageCall) : Option Kernel := do
  let k ← trapSwitch k ctx trapno err user cpu0
  match ctx with
  | none => some k
  | some i =>
    if (k.proc i).killed ∧ user then exit k i closing
    else if (k.proc i).state = .RUNNING ∧ trapno = T_IRQ0 + IRQ_TIMER then
      some (k.setProc i { k.proc i with state := .RUNNABLE })
    else some k

def syscallnames : List (Option String) :=
  [none, some "fork", some "exit", some "wait", some "pipe", some "read", some "kill",
   some "exec", some "fstat", some "chdir", some "dup", some "getpid", some "sbrk", some "sleep",
   some "uptime", some "open", some "write", some "mknod", some "unlink", some "link",
   some "mkdir", some "close", some "traceread", some "vidclear", some "vidputc", some "vidputs"]

/-- The calls `syscall` does not trace: traceread, vidclear, vidputc, vidputs,
sleep, getpid and uptime. -/
def untraced : List (BitVec 64) := [22, 23, 24, 25, 13, 11, 14]

/-- `syscall` from where `syscalls[num]()` has returned `ret` to its end.  The
call itself is made of the other steps. -/
def syscallEnd (k : Kernel) (i : Fin NPROC) (num ret : BitVec 64) (start_ticks : Uint)
    (closing : List PageCall) : Option Kernel :=
  let k :=
    match (syscallnames[num.toNat]?).join with
    | some name =>
      let k := k.setProc i { k.proc i with tf := { (k.proc i).tf with rax := ret } }
      if num ∈ untraced then k
      else k.record (some i) TRACE_TYPE_SYSCALL (k.proc i).pid (toCInt num) (toCInt ret)
        (k.ticks - start_ticks) name
    | none => k.setProc i { k.proc i with tf := { (k.proc i).tf with rax := -1 } }
  if (k.proc i).killed then exit k i closing else some k

/-! ## Steps -/

inductive KernelOp where
  | kalloc (ctx : Ctx)
  | kfree (ctx : Ctx) (v : AddrT)
  | fork (i : Fin NPROC) (copying : List PageCall) (copied : Bool)
  | exit (i : Fin NPROC) (closing : List PageCall)
  | wait (i : Fin NPROC) (freeing : List PageCall)
  | kill (i : Fin NPROC) (pid : CInt)
  | exec (i : Fin NPROC) (path : List Uchar) (sz argc argv : AddrT) (loading : List PageCall)
  | trap (ctx : Ctx) (trapno err : BitVec 64) (user cpu0 : Bool) (closing : List PageCall)
  | syscallEnd (i : Fin NPROC) (num ret : BitVec 64) (start_ticks : Uint)
      (closing : List PageCall)
  | traceread (i : Fin NPROC) (pgdir : Pgdir) (mem : Mem) (dst : AddrT) (max_events : CInt)
  | schedule (i : Fin NPROC)
  | sleep (i : Fin NPROC)
  | wakeup (i : Fin NPROC)

def KernelOp.ctx : KernelOp → Ctx
  | .kalloc ctx | .kfree ctx _ | .trap ctx _ _ _ _ _ => ctx
  | .fork i _ _ | .exit i _ | .wait i _ | .kill i _ | .exec i _ _ _ _ _ | .syscallEnd i _ _ _ _
  | .traceread i _ _ _ _ | .sleep i => some i
  | .schedule _ | .wakeup _ => none

def Kernel.Runs (k : Kernel) : Ctx → Prop
  | none => True
  | some i => (k.proc i).state = .RUNNING

instance (k : Kernel) : ∀ ctx, Decidable (k.Runs ctx)
  | none => inferInstanceAs (Decidable True)
  | some i => inferInstanceAs (Decidable ((k.proc i).state = .RUNNING))

/-- A change of the process state by the scheduler, `sleep` or `wakeup`. -/
def switchState (k : Kernel) (i : Fin NPROC) (src dst : ProcState) : Option Kernel :=
  if (k.proc i).state = src then some (k.setProc i { k.proc i with state := dst }) else none

def effect (k : Kernel) : KernelOp → Option Kernel
  | .kalloc ctx => pageCall k ctx .kalloc
  | .kfree ctx v => pageCall k ctx (.kfree v)
  | .fork i copying copied => (fork k i copying copied).map Prod.snd
  | .exit i closing => exit k i closing
  | .wait i freeing => (wait k i freeing).map Prod.snd
  | .kill _ pid => some (kill k pid).2
  | .exec i path sz argc argv loading => exec k i path sz argc argv loading
  | .trap ctx trapno err user cpu0 closing => trap k ctx trapno err user cpu0 closing
  | .syscallEnd i num ret start_ticks closing => syscallEnd k i num ret start_ticks closing
  | .traceread _ pgdir mem dst max_events =>
    (traceread pgdir k.buf mem dst max_events).map fun r => { k with buf := r.buf }
  | .schedule i => switchState k i .RUNNABLE .RUNNING
  | .sleep i => switchState k i .RUNNING .SLEEPING
  | .wakeup i => switchState k i .SLEEPING .RUNNABLE

def step (k : Kernel) (op : KernelOp) : Option Kernel :=
  if k.Runs op.ctx then effect k op else none

/-- Set up the first user process; `setup` are the page calls of `setupkvm` and
`inituvm`.  `namei("/")` puts the root directory into the first entry of the
empty inode cache. -/
def userinit (k : Kernel) (setup : List PageCall) : Option Kernel := do
  let (found, k) ← allocproc k none
  match found with
  | none => none
  | some i =>
    let k ← pageCalls none setup { k with initproc := some i }
    some (k.setProc i { k.proc i with
      sz := PGSIZE * 2
      tf := ⟨0, 0, 0, 0, 0, 0, 0⟩
      name := (k.proc i).name.fill (cstr "initcode")
      cwd := some 0
      state := .RUNNABLE })

/-- `main`: the trace buffer is initialised, then `kinit2` sets `use_lock`, then
the first process is made.  `freelist` is what `kinit1` and the set-up so far
left free. -/
def main (kend : AddrT) (freelist : List AddrT) (setup : List PageCall) : Option Kernel :=
  userinit
    { proc := fun _ => Proc.unused
      initproc := none
      nextpid := 1
      kend := kend
      kmem := ⟨true, freelist⟩
      ticks := 0
      buf := traceinit TraceBuffer.bss
      cause := fun _ => none } setup

end Xv6Tracing.Process
