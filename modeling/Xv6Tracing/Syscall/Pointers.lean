import Xv6Tracing.File.Table

/-!
# Buffer pointers of system calls

`argint`, `argaddr` and `argptr` of `syscall.c`, and the five system calls that
take a buffer: `sys_read`, `sys_write`, `sys_fstat`, `sys_pipe` and
`sys_traceread`.  Each is modelled up to the call of its worker.

`argptr` returns an `addr_t`, which is unsigned, and its callers test it with
`< 0`.  The local pointer it fills is not initialised; its value before the
call is a parameter of the model.
-/

set_option autoImplicit false

namespace Xv6Tracing.Syscall

open Process Ftable Ktrace

def fetcharg (tf : TrapFrame) (n : Fin 6) : AddrT :=
  match n with
  | 0 => tf.rdi
  | 1 => tf.rsi
  | 2 => tf.rdx
  | 3 => tf.r10
  | 4 => tf.r8
  | 5 => tf.r9

/-- `argint` never fails: the register cut to an `int`. -/
def argint (tf : TrapFrame) (n : Fin 6) : CInt := (fetcharg tf n).setWidth 32

/-- The test of `argptr`.  `(uint)i+size` is computed in 32 bits and then
compared with the 64-bit size. -/
def PointerRejected (sz i : AddrT) (size : CInt) : Prop :=
  size.toInt < 0 ∨ sz ≤ (i.setWidth 32 : Uint).setWidth 64 ∨
    sz < ((i.setWidth 32 : Uint) + size).setWidth 64

instance (sz i : AddrT) (size : CInt) : Decidable (PointerRejected sz i size) :=
  inferInstanceAs (Decidable (_ ∨ _ ∨ _))

/-- The return value and the value of `*pp` afterwards; `pp` is the value before. -/
def argptr (tf : TrapFrame) (sz : AddrT) (n : Fin 6) (pp : AddrT) (size : CInt) : AddrT × AddrT :=
  if PointerRejected sz (fetcharg tf n) size then (-1, pp) else (0, fetcharg tf n)

def argfd (s : Files) (i : Fin NPROC) (n : Fin 6) : Option (Fin NFILE) :=
  let fd := argint (s.kernel.proc i).tf n
  if inRange : 0 ≤ fd.toInt ∧ fd.toInt.toNat < NOFILE then
    (s.kernel.proc i).ofile ⟨fd.toInt.toNat, inRange.2⟩
  else none

inductive Worker where
  | fileread (f : Fin NFILE) (addr : AddrT) (n : CInt)
  | filewrite (f : Fin NFILE) (addr : AddrT) (n : CInt)
  | filestat (f : Fin NFILE) (st : AddrT)
  | storeFds (fd : AddrT) (fd0 fd1 : Fin NOFILE)
  | traceread (event : AddrT) (max_events : CInt)

def Worker.pointer : Worker → AddrT
  | .fileread _ addr _ => addr
  | .filewrite _ addr _ => addr
  | .filestat _ st => st
  | .storeFds fd _ _ => fd
  | .traceread event _ => event

/-- How a call ends as far as it is modelled: it has returned, it calls its
worker, or the kernel panicked. -/
inductive Outcome where
  | returned (ret : CInt) (s : Files)
  | handed (worker : Worker) (s : Files)
  | halted

/-- The common shape of `sys_read` and `sys_write`. -/
def sysTransfer (worker : Fin NFILE → AddrT → CInt → Worker) (s : Files) (i : Fin NPROC)
    (p : AddrT) : Outcome :=
  match argfd s i 0 with
  | none => .returned (-1) s
  | some f =>
    let n := argint (s.kernel.proc i).tf 2
    let (ret, p) := argptr (s.kernel.proc i).tf (s.kernel.proc i).sz 1 p n
    if ret < 0 then .returned (-1) s else .handed (worker f p n) s

def sys_read : Files → Fin NPROC → AddrT → Outcome := sysTransfer .fileread

def sys_write : Files → Fin NPROC → AddrT → Outcome := sysTransfer .filewrite

/-- `sizeof(struct stat)` -/
def STAT_SIZE : Nat := 20

def sys_fstat (s : Files) (i : Fin NPROC) (st : AddrT) : Outcome :=
  match argfd s i 0 with
  | none => .returned (-1) s
  | some f =>
    let (ret, st) := argptr (s.kernel.proc i).tf (s.kernel.proc i).sz 1 st
      (BitVec.ofNat 32 STAT_SIZE)
    if ret < 0 then .returned (-1) s else .handed (.filestat f st) s

/-- The end of `sys_pipe` when a descriptor was not to be had. -/
def closeBoth (s : Files) (i : Fin NPROC) (rf wf : Fin NFILE) : Outcome :=
  match (fileclose s (some i) rf).bind fun s => fileclose s (some i) wf with
  | none => .halted
  | some s => .returned (-1) s

def sys_pipe (s : Files) (i : Fin NPROC) (fd : AddrT) : Outcome :=
  let (ret, fd) := argptr (s.kernel.proc i).tf (s.kernel.proc i).sz 0 fd 8
  if ret < 0 then .returned (-1) s
  else
    match pipealloc s (some i) with
    | none => .halted
    | some (none, s) => .returned (-1) s
    | some (some (rf, wf), s) =>
      match fdalloc s i rf with
      | none => closeBoth s i rf wf
      | some (fd0, s) =>
        match fdalloc s i wf with
        | none => closeBoth (s.setOfile i fd0 none) i rf wf
        | some (fd1, s) => .handed (.storeFds fd fd0 fd1) s

/-- `max_events * sizeof(struct trace_event)`: a 64-bit product, cut to the
`int` parameter of `argptr`. -/
def eventBytes (max_events : CInt) : CInt :=
  ((max_events.signExtend 64) * BitVec.ofNat 64 EVENT_SIZE).setWidth 32

def sys_traceread (s : Files) (i : Fin NPROC) (event : AddrT) : Outcome :=
  let max_events := argint (s.kernel.proc i).tf 1
  if max_events.toInt ≤ 0 then .returned 0 s
  else
    let (ret, event) := argptr (s.kernel.proc i).tf (s.kernel.proc i).sz 0 event
      (eventBytes max_events)
    if ret < 0 then .returned (-1) s else .handed (.traceread event max_events) s

inductive PointerCall where
  | read | write | fstat | pipe | traceread
deriving DecidableEq, Repr

def PointerCall.run : PointerCall → Files → Fin NPROC → AddrT → Outcome
  | .read => sys_read
  | .write => sys_write
  | .fstat => sys_fstat
  | .pipe => sys_pipe
  | .traceread => sys_traceread

def PointerCall.pointer (call : PointerCall) (tf : TrapFrame) : AddrT :=
  match call with
  | .read | .write | .fstat => fetcharg tf 1
  | .pipe | .traceread => fetcharg tf 0

def PointerCall.size (call : PointerCall) (tf : TrapFrame) : Int :=
  match call with
  | .read | .write => (argint tf 2).toInt
  | .fstat => STAT_SIZE
  | .pipe => 8
  | .traceread => EVENT_SIZE * (argint tf 1).toInt

/-- The `int` it passes to `argptr` for that number. -/
def PointerCall.sizeArg (call : PointerCall) (tf : TrapFrame) : CInt :=
  match call with
  | .read | .write => argint tf 2
  | .fstat => BitVec.ofNat 32 STAT_SIZE
  | .pipe => 8
  | .traceread => eventBytes (argint tf 1)

/-- The range `[p, p + size)` lies inside `[0, sz)`. -/
def InProcess (sz p : AddrT) (size : Int) : Prop :=
  ∀ a : Nat, p.toNat ≤ a → (a : Int) < p.toNat + size → a < sz.toNat

def Worker.call : Worker → PointerCall
  | .fileread .. => .read
  | .filewrite .. => .write
  | .filestat .. => .fstat
  | .storeFds .. => .pipe
  | .traceread .. => .traceread

section Contract

variable (s : Files) (i : Fin NPROC) (call : PointerCall)

def ReturnsEarly : Prop :=
  match call with
  | .read | .write | .fstat => argfd s i 0 = none
  | .pipe => False
  | .traceread => (argint (s.kernel.proc i).tf 1).toInt ≤ 0

/-- The pointer passes the test of `argptr`, and its range ends below 4 GiB. -/
def PlainPointer : Prop :=
  (call.pointer (s.kernel.proc i).tf).toNat + call.size (s.kernel.proc i).tf < 2 ^ 32 ∧
    ¬ PointerRejected (s.kernel.proc i).sz (call.pointer (s.kernel.proc i).tf)
      (call.sizeArg (s.kernel.proc i).tf)

/-- The call returned -1 and changed nothing, or its worker gets the register
with a range inside the process. -/
def PointerContract (outcome : Outcome) : Prop :=
  outcome = .returned (-1) s ∨
    ∃ worker t, outcome = .handed worker t ∧
      worker.pointer = call.pointer (s.kernel.proc i).tf ∧
      InProcess (s.kernel.proc i).sz worker.pointer (call.size (s.kernel.proc i).tf)

/-- The ways a call is meant to end.  `sys_traceread` has nothing to do for no
events, and `sys_pipe` fails late when it cannot get two files, two descriptors
or a page; its process table is then as before. -/
inductive Designed : Outcome → Prop where
  | badDescriptor (takesFd : call = .read ∨ call = .write ∨ call = .fstat)
      (closed : argfd s i 0 = none) : Designed (.returned (-1) s)
  | nothingWanted (isRead : call = .traceread)
      (none : (argint (s.kernel.proc i).tf 1).toInt ≤ 0) : Designed (.returned 0 s)
  | handed (worker : Worker) (t : Files) (own : worker.call = call)
      (pointer : worker.pointer = call.pointer (s.kernel.proc i).tf)
      (inside : InProcess (s.kernel.proc i).sz worker.pointer (call.size (s.kernel.proc i).tf))
      (unchanged : call ≠ .pipe → t = s) : Designed (.handed worker t)
  | pipeRefused (isPipe : call = .pipe) (t : Files) (procs : t.kernel.proc = s.kernel.proc)
      (short : ¬ TwoFiles s ∨ ¬ TwoFds s i) : Designed (.returned (-1) t)
  | outOfPages (isPipe : call = .pipe) (empty : s.kernel.kmem.freelist = []) : Designed .halted

end Contract

/-! ## The test of `argptr` -/

variable {sizeArg : CInt} {sz p : AddrT}

/-- Below 4 GiB nothing is cut off, and the test means what it says. -/
theorem inProcess_of_accepted {size : Int}
    (same : (sizeArg.toNat : Int) = size) (below : p.toNat + size < 2 ^ 32)
    (accepted : ¬ PointerRejected sz p sizeArg) : InProcess sz p size := by
  have small : p.toNat + sizeArg.toNat < 2 ^ 32 := by omega
  have stop : ¬ sz < ((p.setWidth 32 : Uint) + sizeArg).setWidth 64 :=
    fun past => accepted (Or.inr (Or.inr past))
  have fits : (((p.setWidth 32 : Uint) + sizeArg).setWidth 64 : AddrT).toNat =
      p.toNat + sizeArg.toNat := by
    simp only [BitVec.toNat_setWidth, BitVec.toNat_add]
    omega
  rw [BitVec.lt_def, fits] at stop
  intro a _ inside
  omega

theorem toNat_of_accepted
    (accepted : ¬ PointerRejected sz p sizeArg) : (sizeArg.toNat : Int) = sizeArg.toInt := by
  have nonneg : ¬ sizeArg.toInt < 0 := fun negative => accepted (Or.inl negative)
  rw [BitVec.toInt_eq_toNat_cond] at nonneg ⊢
  split at nonneg
  · rename_i low
    rw [if_pos low]
  · omega

/-- The byte count of `sys_traceread` is exact when it is below 4 GiB. -/
theorem toNat_eventBytes {max_events : CInt} (positive : 0 < max_events.toInt)
    (below : EVENT_SIZE * max_events.toInt < 2 ^ 32) :
    ((eventBytes max_events).toNat : Int) = EVENT_SIZE * max_events.toInt := by
  have low : max_events.toInt = max_events.toNat := by
    rw [BitVec.toInt_eq_toNat_cond] at positive ⊢
    split at positive
    · rename_i low
      rw [if_pos low]
    · omega
  have sign : max_events.msb = false := by
    rw [BitVec.msb_eq_toInt]
    simp
    omega
  rw [low] at below ⊢
  simp only [eventBytes, EVENT_SIZE, BitVec.signExtend_eq_setWidth_of_msb_false sign,
    BitVec.toNat_setWidth, BitVec.toNat_mul, BitVec.toNat_ofNat] at below ⊢
  omega

theorem argptr_of_accepted {tf : TrapFrame} {n : Fin 6} {pp : AddrT} {size : CInt}
    (accepted : ¬ PointerRejected sz (fetcharg tf n) size) :
    argptr tf sz n pp size = (0, fetcharg tf n) := by
  rw [argptr, if_neg accepted]

/-- The callers' test of an unsigned result with `< 0`. -/
theorem not_addr_lt_zero (ret : AddrT) : ¬ ret < 0 := by
  rw [BitVec.lt_def]
  simp

/-! ## The five calls -/

section Calls

variable {s : Files} {i : Fin NPROC} (p : AddrT)

theorem sysTransfer_designed {call : PointerCall} {worker : Fin NFILE → AddrT → CInt → Worker}
    (own : ∀ f addr n, (worker f addr n).call = call)
    (address : ∀ f addr n, (worker f addr n).pointer = addr)
    (transfers : call = .read ∨ call = .write)
    (plain : argfd s i 0 = none ∨ PlainPointer s i call) :
    Designed s i call (sysTransfer worker s i p) := by
  simp only [sysTransfer]
  cases fd : argfd s i 0 with
  | none => exact .badDescriptor (transfers.imp_right Or.inl) fd
  | some f =>
    obtain ⟨below, accepted⟩ := plain.resolve_left (by simp [fd])
    -- Both calls take pointer and count from the same registers.
    have register : call.pointer (s.kernel.proc i).tf = fetcharg (s.kernel.proc i).tf 1 := by
      rcases transfers with rfl | rfl <;> rfl
    have count : call.size (s.kernel.proc i).tf = (argint (s.kernel.proc i).tf 2).toInt := by
      rcases transfers with rfl | rfl <;> rfl
    have countArg : call.sizeArg (s.kernel.proc i).tf = argint (s.kernel.proc i).tf 2 := by
      rcases transfers with rfl | rfl <;> rfl
    rw [register, countArg] at accepted
    rw [register, count] at below
    simp only [argptr_of_accepted accepted, not_addr_lt_zero, if_false]
    refine .handed _ s (own _ _ _) (by rw [address, register]) ?_ (fun _ => rfl)
    rw [address, count]
    exact inProcess_of_accepted (toNat_of_accepted accepted) below accepted

theorem sys_fstat_designed (plain : argfd s i 0 = none ∨ PlainPointer s i .fstat) :
    Designed s i .fstat (sys_fstat s i p) := by
  simp only [sys_fstat]
  cases fd : argfd s i 0 with
  | none => exact .badDescriptor (Or.inr (Or.inr rfl)) fd
  | some f =>
    obtain ⟨below, accepted⟩ := plain.resolve_left (by simp [fd])
    simp only [PointerCall.pointer, PointerCall.size, PointerCall.sizeArg] at below accepted
    simp only [argptr_of_accepted accepted, not_addr_lt_zero, if_false]
    exact .handed (.filestat f _) s rfl rfl (inProcess_of_accepted rfl below accepted)
      (fun _ => rfl)

theorem sys_traceread_designed
    (plain : (argint (s.kernel.proc i).tf 1).toInt ≤ 0 ∨ PlainPointer s i .traceread) :
    Designed s i .traceread (sys_traceread s i p) := by
  simp only [sys_traceread]
  by_cases none : (argint (s.kernel.proc i).tf 1).toInt ≤ 0
  · rw [if_pos none]
    exact .nothingWanted rfl none
  · rw [if_neg none]
    obtain ⟨below, accepted⟩ := plain.resolve_left none
    simp only [PointerCall.pointer, PointerCall.size, PointerCall.sizeArg] at below accepted
    simp only [argptr_of_accepted accepted, not_addr_lt_zero, if_false]
    have positive : 0 < (argint (s.kernel.proc i).tf 1).toInt := by omega
    have total : EVENT_SIZE * (argint (s.kernel.proc i).tf 1).toInt < 2 ^ 32 := by omega
    exact .handed (.traceread _ _) s rfl rfl
      (inProcess_of_accepted (toNat_eventBytes positive total) below accepted) (fun _ => rfl)

variable {page : AddrT} {rf wf : Fin NFILE} {t : Files}

theorem closeBoth_newPipe (new : NewPipe t rf wf page) :
    ∃ u, closeBoth t i rf wf = .returned (-1) u ∧ u.kernel.proc = t.kernel.proc := by
  obtain ⟨u, closed, procs⟩ := close_newPipe (some i) new
  exact ⟨u, by rw [closeBoth, closed], procs⟩

theorem NewPipe.setOfile (new : NewPipe t rf wf page) (fd : Fin NOFILE) (f : Option (Fin NFILE)) :
    NewPipe (t.setOfile i fd f) rf wf page :=
  ⟨new.distinct, new.reader, new.writer, new.bothOpen, new.page_ok⟩

theorem sys_pipe_designed (wf : WellFormed s) (plain : PlainPointer s i .pipe) :
    Designed s i .pipe (sys_pipe s i p) := by
  obtain ⟨below, accepted⟩ := plain
  simp only [PointerCall.pointer, PointerCall.size, PointerCall.sizeArg] at below accepted
  simp only [sys_pipe, argptr_of_accepted accepted, not_addr_lt_zero, if_false]
  have ends := pipealloc_ends s (some i) wf
  generalize pipealloc s (some i) = allocated at ends ⊢
  cases ends with
  | refused t procs short => exact .pipeRefused rfl t procs (Or.inl short)
  | halted empty => exact .outOfPages rfl empty
  | made rf wf page t new procs =>
    simp only
    cases first : fdalloc t i rf with
    | none =>
      obtain ⟨u, ended, same⟩ := closeBoth_newPipe (i := i) new
      simp only [ended]
      refine .pipeRefused rfl u (same.trans procs) (Or.inr ?_)
      rintro ⟨a, _, _, free, _⟩
      exact fdalloc_none first a (by rw [procs]; exact free)
    | some r =>
      obtain ⟨fd0, t₁⟩ := r
      obtain ⟨free0, rfl⟩ := fdalloc_spec first
      simp only
      cases second : fdalloc (t.setOfile i fd0 (some rf)) i wf with
      | none =>
        obtain ⟨u, ended, same⟩ := closeBoth_newPipe (i := i)
          (NewPipe.setOfile (i := i) (NewPipe.setOfile (i := i) new fd0 (some rf)) fd0 none)
        simp only [ended]
        have restored := (same.trans (setOfile_undo t i fd0 (some rf) free0)).trans procs
        refine .pipeRefused rfl u restored (Or.inr ?_)
        have others : ∀ fd, (s.kernel.proc i).ofile fd = none → fd = fd0 := by
          intro fd free
          by_contra other
          apply fdalloc_none second fd
          simp only [Files.setOfile, setProc_proc_self, Function.update_of_ne other, procs]
          exact free
        rintro ⟨a, b, distinct, freeA, freeB⟩
        exact distinct ((others a freeA).trans (others b freeB).symm)
      | some r =>
        obtain ⟨fd1, t₂⟩ := r
        exact .handed (.storeFds _ fd0 fd1) t₂ rfl rfl
          (inProcess_of_accepted rfl below accepted) (fun other => absurd rfl other)

end Calls

def oneProcess (tf : TrapFrame) : Files where
  kernel :=
    { proc := fun _ => { Proc.unused with
        sz := 8192
        state := .RUNNING
        pid := 1
        tf := tf
        ofile := fun fd => if fd = 0 then some 0 else none }
      initproc := some 0
      nextpid := 2
      kend := KERNBASE + 0x200000
      kmem := ⟨true, tenPages⟩
      ticks := 0
      buf := traceinit TraceBuffer.bss
      cause := fun _ => none }
  ftable := fun f => ⟨if f = 0 then .FD_INODE else .FD_NONE, if f = 0 then 1 else 0,
    true, true, 0, some 1, 0⟩
  pipe := fun _ => ⟨0, 0, false, false⟩

theorem oneProcess_wellFormed (tf : TrapFrame) : WellFormed (oneProcess tf) := by
  refine ⟨?_, ?_⟩
  · intro v member
    obtain ⟨j, bound, rfl⟩ := List.mem_map.mp member
    have small := List.mem_range.mp bound
    simp only [Freeable, oneProcess]
    interval_cases j <;> decide
  · intro f idle
    by_cases first : f = 0
    · simp [oneProcess, first] at idle
    · simp [oneProcess, first]

end Xv6Tracing.Syscall
