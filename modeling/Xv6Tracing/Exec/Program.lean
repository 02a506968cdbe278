import Xv6Tracing.Exec.Copyout
import Xv6Tracing.Fs.Consistent

/-!
# exec

The whole of `exec.c`: the path, the loader, the stack with its guard page, the arguments
and the commit.  What `readi` gives of an inode is a parameter.  The argument strings lie
in the old address space, which `exec` reads and does not write to.  `switchuvm` loads the
page table register and is left out.
-/

set_option autoImplicit false

namespace Xv6Tracing.Exec

open Lib Vm Process
open Fs (FS namei ilock iunlockput begin_op end_op)

def MAXARG : Nat := 32

structure Trapframe where
  rax : BitVec 64
  rbx : BitVec 64
  rcx : BitVec 64
  rdx : BitVec 64
  rbp : BitVec 64
  rsi : BitVec 64
  rdi : BitVec 64
  r8 : BitVec 64
  r9 : BitVec 64
  r10 : BitVec 64
  r11 : BitVec 64
  r12 : BitVec 64
  r13 : BitVec 64
  r14 : BitVec 64
  r15 : BitVec 64
  trapno : BitVec 64
  err : BitVec 64
  rip : BitVec 64
  cs : BitVec 64
  rflags : BitVec 64
  rsp : BitVec 64
  ss : BitVec 64
deriving DecidableEq, Repr

/-- The file system, memory, and what `exec` uses of the process. -/
structure Machine where
  fs : FS
  mem : Memory
  pgdir : AddrT
  sz : AddrT
  name : List Uchar
  tf : Trapframe

/-- Why `exec` does not return. -/
inductive Stop where
  | fs (halt : Fs.Halt)
  | vm (halt : Vm.Halt)
  | copy (fault : Fault)
deriving DecidableEq, Repr

abbrev ExecM (α : Type) : Type := Prog Machine Stop α

variable {α : Type}

def onFs (call : Fs.FsM α) : ExecM α :=
  zoom Machine.fs (fun fs m => { m with fs := fs }) .fs call

def onVm (call : VmM α) : ExecM α :=
  zoom Machine.mem (fun mem m => { m with mem := mem }) .vm call

def onLoad (call : LoadM α) : ExecM α :=
  zoom (fun m => ⟨m.mem, []⟩) (fun l m => { m with mem := l.mem }) .vm call

def onCopy (call : CopyM α) : ExecM α :=
  zoom Machine.mem (fun mem m => { m with mem := mem }) .copy call

/-- A string of a process; its length is an `int`, as memory is small. -/
structure CStr where
  bytes : List Uchar
  noNul : 0 ∉ bytes
  short : bytes.length + 1 < 2 ^ 31

def CStr.strlen (s : CStr) : CInt := BitVec.ofNat 32 s.bytes.length

/-- Argument strings are pushed from the top of the stack; `ustack` has the addresses of
those that were.  `none` is `goto bad`. -/
def pushArgs (pgdir : AddrT) : List CStr → AddrT → List AddrT → ExecM (Option (AddrT × List AddrT))
  | [], sp, ustack => return some (sp, ustack)
  | arg :: argv, sp, ustack =>
    if MAXARG ≤ ustack.length then return none
    else do
      let sp := (sp - (arg.strlen + 1).signExtend 64) &&& ~~~7
      let copied ← onCopy (copyout pgdir sp (arg.bytes ++ [0]))
      if copied.toInt < 0 then return none
      else pushArgs pgdir argv sp (ustack ++ [sp])

def nameLoop (last : List Uchar) : List Uchar → List Uchar
  | [] => last
  | c :: s => nameLoop (if c = Fs.SLASH then s else last) s

def bad (pgdir : Option AddrT) (ip : Option (Fin NINODE)) : ExecM CInt := do
  match pgdir with
  | none => pure ()
  | some pgdir => onVm (freevm pgdir)
  match ip with
  | none => pure ()
  | some ip => do
      onFs (iunlockput ip)
      onFs end_op
  return -1

def commitImage (path : List Uchar) (elf : Elfhdr) (pgdir sz oldpgdir sp : AddrT)
    (ustack : List AddrT) : ExecM CInt := do
  let argc : AddrT := BitVec.ofNat 64 ustack.length
  modify fun m => { m with tf := { m.tf with rdi := argc, rsi := sp - (argc + 1) * 8 } }
  let sp := sp - (1 + argc + 1) * 8
  let copied ← onCopy (copyout pgdir sp ((0xffffffffffffffff :: ustack ++ [0]).flatMap leBytes))
  if copied.toInt < 0 then bad (some pgdir) none
  else do
    modify fun m => { m with name := safestrcpy m.name (nameLoop path path) 16 }
    modify fun m => { m with
      pgdir := pgdir
      sz := sz
      tf := { m.tf with rip := elf.entry, rcx := elf.entry, rsp := sp } }
    onVm (freevm oldpgdir)
    return 0

def setStack (path : List Uchar) (argv : List CStr) (elf : Elfhdr) (pgdir sz oldpgdir : AddrT) :
    ExecM CInt := do
  let sz := PGROUNDUP sz
  let sz ← onVm (allocuvm pgdir sz (sz + 2 * PGSIZE))
  if sz = 0 then bad (some pgdir) none
  else do
    onVm (clearpteu pgdir (sz - 2 * PGSIZE))
    match ← pushArgs pgdir argv sz [] with
    | none => bad (some pgdir) none
    | some (sp, ustack) => commitImage path elf pgdir sz oldpgdir sp ustack

def exec (p : Fin NPROC) (read : Nat → Uint → Uint → Option (List Uchar)) (path : List Uchar)
    (argv : List CStr) : ExecM CInt := do
  let m ← get
  let oldpgdir := m.pgdir
  onFs begin_op
  match ← onFs (namei p path) with
  | none => do
      onFs end_op
      return -1
  | some ip => do
      onFs (ilock ip)
      let m ← get
      match ← onLoad (readLoader (read (m.fs.icache ip).inum)).load with
      | .bad pgdir => bad pgdir (some ip)
      | .program elf pgdir sz => do
          onFs (iunlockput ip)
          onFs end_op
          setStack path argv elf pgdir sz oldpgdir

end Xv6Tracing.Exec
