import Xv6Tracing.Fs.Calls
import Xv6Tracing.Syscall.Pointers

/-!
# Open files of processes

What `open`, `dup`, `close`, `pipe`, `fork` and `exit` do to file structures,
descriptors and pipes, each run to its end.  The inode that `sys_open` has found or
made, if any, is a parameter; what becomes of it is in `Fs.Calls`.  So are the number
of pages that `copyuvm` takes and whether it succeeds.
-/

set_option autoImplicit false

namespace Xv6Tracing.Ftable

open Process

/-- `panic("filedup")` is `none`. -/
def filedup (s : Files) (f : Fin NFILE) : Option Files :=
  if (s.ftable f).ref < 1 then none
  else some (s.setFile f { s.ftable f with ref := (s.ftable f).ref + 1 })

def openFd (s : Files) (p : Fin NPROC) (fd : CInt) : Option (Fin NOFILE × Fin NFILE) :=
  if inRange : fd.toInt ≥ 0 ∧ fd.toInt.toNat < NOFILE then
    ((s.kernel.proc p).ofile ⟨fd.toInt.toNat, inRange.2⟩).map fun f =>
      (⟨fd.toInt.toNat, inRange.2⟩, f)
  else none

def sys_open (s : Files) (p : Fin NPROC) (found : Option (Fin NINODE)) (omode : CInt) :
    Option Files :=
  match found with
  | none => some s
  | some ip =>
    match filealloc s with
    | none => some s
    | some (f, s) =>
      match fdalloc s p f with
      | none => fileclose s (some p) f
      | some (_, s) => some (s.setFile f (Fs.openedFile ip omode (s.ftable f)))

def sys_dup (s : Files) (p : Fin NPROC) (fd : CInt) : Option Files :=
  match openFd s p fd with
  | none => some s
  | some (_, f) =>
    match fdalloc s p f with
    | none => some s
    | some (_, s) => filedup s f

def sys_close (s : Files) (p : Fin NPROC) (fd : CInt) : Option Files :=
  match openFd s p fd with
  | none => some s
  | some (fd, f) => fileclose (s.setOfile p fd none) (some p) f

/-- The loop of `fork` over the descriptors still to be copied; the child gets them
all at the end. -/
def dupAll (p : Fin NPROC) : List (Fin NOFILE) → Files → Option Files
  | [], s => some s
  | fd :: rest, s =>
    match (s.kernel.proc p).ofile fd with
    | none => dupAll p rest s
    | some f => (filedup s f).bind (dupAll p rest)

def fork (s : Files) (p : Fin NPROC) (pages : Nat) (copied : Bool) :
    Option (Option (Fin NPROC) × Files) := do
  let (found, k) ← allocproc s.kernel (some p)
  match found with
  | none => some (none, { s with kernel := k })
  | some np =>
    let k ← pageCalls (some p) (List.replicate pages .kalloc) k
    if copied then
      let s ← dupAll p (List.finRange NOFILE) { s with kernel := k }
      let k := s.kernel.setProc np (childOf p (s.kernel.proc p) (s.kernel.proc np))
      some (some np, { s with
        kernel := k.record (some p) TRACE_TYPE_PROC (k.proc np).pid (k.proc p).pid 0 0 "fork" })
    else
      let k ← kfree k (some p) (k.proc np).kstack
      some (none, { s with
        kernel := k.setProc np { k.proc np with kstack := 0, state := .UNUSED } })

/-- The loop of `exit` over the descriptors still to be closed. -/
def closeAll (p : Fin NPROC) : List (Fin NOFILE) → Files → Option Files
  | [], s => some s
  | fd :: rest, s =>
    match (s.kernel.proc p).ofile fd with
    | none => closeAll p rest s
    | some f => (fileclose s (some p) f).bind fun s => closeAll p rest (s.setOfile p fd none)

/-- `exit` up to `sched`; `panic("init exiting")` is `none`. -/
def exit (s : Files) (p : Fin NPROC) : Option Files :=
  if s.kernel.initproc = some p then none
  else do
    let k := s.kernel
    let s ← closeAll p (List.finRange NOFILE) { s with
      kernel := k.record (some p) TRACE_TYPE_PROC (k.proc p).pid 0 0 0 "exit" }
    let k := reparent (s.kernel.setProc p { s.kernel.proc p with cwd := none }) p
    some { s with kernel := k.setProc p { k.proc p with state := .ZOMBIE } }

/-- `fd` of `pipe` is what the pointer of `sys_pipe` holds before `argptr` sets it. -/
inductive FileOp where
  | open_ (p : Fin NPROC) (found : Option (Fin NINODE)) (omode : CInt)
  | dup (p : Fin NPROC) (fd : CInt)
  | close (p : Fin NPROC) (fd : CInt)
  | pipe (p : Fin NPROC) (fd : AddrT)
  | fork (p : Fin NPROC) (pages : Nat) (copied : Bool)
  | exit (p : Fin NPROC)

def FileOp.caller : FileOp → Fin NPROC
  | .open_ p _ _ | .dup p _ | .close p _ | .pipe p _ | .fork p _ _ | .exit p => p

def call (s : Files) : FileOp → Option Files
  | .open_ p found omode => sys_open s p found omode
  | .dup p fd => sys_dup s p fd
  | .close p fd => sys_close s p fd
  | .pipe p fd =>
    match Syscall.sys_pipe s p fd with
    | .returned _ s => some s
    | .handed _ s => some s
    | .halted => none
  | .fork p pages copied => (fork s p pages copied).map Prod.snd
  | .exit p => exit s p

def Started (p : Proc) : Prop :=
  p.state = .SLEEPING ∨ p.state = .RUNNABLE ∨ p.state = .RUNNING

instance (p : Proc) : Decidable (Started p) := inferInstanceAs (Decidable (_ ∨ _ ∨ _))

def step (s : Files) (op : FileOp) : Option Files :=
  if Started (s.kernel.proc op.caller) then call s op else none

end Xv6Tracing.Ftable
