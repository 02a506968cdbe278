import Xv6Tracing.CTypes

/-!
# Kernel parameters and the process structure

The constants of `param.h`, `mmu.h` and `memlayout.h` that the modelled code
uses, and `struct proc` of `proc.h`.  Pointers into the kernel's static tables
are indices into them, an inode pointer into the inode cache.
-/

set_option autoImplicit false

namespace Xv6Tracing

def NPROC : Nat := 64

def NOFILE : Nat := 16

def NFILE : Nat := 100

def NINODE : Nat := 50

def MAXOPBLOCKS : Nat := 10

def LOGSIZE : Nat := MAXOPBLOCKS * 3

instance neZeroTwo : NeZero 2 := ⟨by decide⟩

instance : NeZero NPROC := ⟨by decide⟩

instance : NeZero NOFILE := ⟨by decide⟩

instance : NeZero NFILE := ⟨by decide⟩

instance : NeZero NINODE := ⟨by decide⟩

def PGSIZE : AddrT := 4096

def KERNBASE : AddrT := 0xFFFF800000000000

def PHYSTOP : AddrT := 0xE000000

def PGROUNDDOWN (a : AddrT) : AddrT := a &&& ~~~(PGSIZE - 1)

def P2V (a : AddrT) : AddrT := a + KERNBASE

def V2P (a : AddrT) : AddrT := a - KERNBASE

inductive ProcState where
  | UNUSED | EMBRYO | SLEEPING | RUNNABLE | RUNNING | ZOMBIE
deriving DecidableEq, Repr

structure TrapFrame where
  rax : BitVec 64
  rdi : BitVec 64
  rsi : BitVec 64
  rdx : BitVec 64
  r10 : BitVec 64
  r8 : BitVec 64
  r9 : BitVec 64
deriving DecidableEq, Repr

structure Proc where
  sz : AddrT
  kstack : AddrT
  state : ProcState
  pid : CInt
  parent : Option (Fin NPROC)
  tf : TrapFrame
  killed : Bool
  ofile : Fin NOFILE → Option (Fin NFILE)
  cwd : Option (Fin NINODE)
  name : CharBuf 16

def Proc.unused : Proc where
  sz := 0
  kstack := 0
  state := .UNUSED
  pid := 0
  parent := none
  tf := ⟨0, 0, 0, 0, 0, 0, 0⟩
  killed := false
  ofile := fun _ => none
  cwd := none
  name := CharBuf.copy 15 []

end Xv6Tracing
