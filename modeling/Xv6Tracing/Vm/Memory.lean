import Xv6Tracing.Lib.Wp
import Xv6Tracing.Vm.Copyout

/-!
# Physical pages

Memory as the kernel addresses it through its direct map: a page is named by its
kernel address and holds 512 words.  `kalloc.c` keeps the free pages in a list
that is threaded through their first words.  The events that `kalloc` and `kfree`
record and their lock are left out.
-/

set_option autoImplicit false

namespace Xv6Tracing.Vm

open Lib

/-- `kend` is the linker's `end`; the index of a word in its page has 9 bits. -/
@[ext] structure Memory where
  page : AddrT → BitVec 9 → AddrT
  freelist : AddrT
  kpml4 : AddrT
  kpdpt : AddrT
  kend : AddrT

inductive Halt where
  | outOfMemory | kfree | remap | loaduvmAlign | loaduvmExist | freevm | clearpteu
  | copyuvmExist | copyuvmPresent | endless
deriving DecidableEq, Repr

abbrev VmM (α : Type) : Type := Prog Memory Halt α

def Memory.setPage (s : Memory) (p : AddrT) (row : BitVec 9 → AddrT) : Memory :=
  { s with page := Function.update s.page p row }

def Memory.setWord (s : Memory) (p : AddrT) (i : BitVec 9) (word : AddrT) : Memory :=
  s.setPage p (Function.update (s.page p) i word)

theorem Memory.setPage_page (s : Memory) (p : AddrT) (row : BitVec 9 → AddrT) (p' : AddrT) :
    (s.setPage p row).page p' = if p' = p then row else s.page p' := by
  simp only [Memory.setPage, Function.update_apply]

theorem Memory.setWord_page (s : Memory) (p : AddrT) (i : BitVec 9) (word p' : AddrT)
    (j : BitVec 9) :
    (s.setWord p i word).page p' j = if p' = p ∧ j = i then word else s.page p' j := by
  simp only [Memory.setWord, Memory.setPage_page]
  by_cases page : p' = p
  · subst page
    simp [Function.update_apply]
  · simp [page]

def setWord (p : AddrT) (i : BitVec 9) (word : AddrT) : VmM Unit :=
  modify fun s => s.setWord p i word

def zeroPage (p : AddrT) : VmM Unit := modify fun s => s.setPage p fun _ => 0

def PGROUNDUP (sz : AddrT) : AddrT := (sz + (PGSIZE - 1)) &&& ~~~(PGSIZE - 1)

def Usable (kend v : AddrT) : Prop := v % PGSIZE = 0 ∧ kend ≤ v ∧ V2P v < PHYSTOP

instance (kend v : AddrT) : Decidable (Usable kend v) := by unfold Usable; infer_instance

def junk (next : AddrT) : BitVec 9 → AddrT :=
  Function.update (fun _ => 0x0101010101010101) 0 next

def kfree (v : AddrT) : VmM Unit := do
  let s ← get
  if v % PGSIZE ≠ 0 ∨ v < s.kend ∨ PHYSTOP ≤ V2P v then throw .kfree
  else set { s.setPage v (junk s.freelist) with freelist := v }

def kalloc : VmM AddrT := do
  let s ← get
  if s.freelist ≠ 0 then do
    set { s with freelist := s.page s.freelist 0 }
    return s.freelist
  else throw .outOfMemory

/-- The loop of `freerange`, one page for a unit of fuel. -/
def freerangeLoop (vend : AddrT) : Nat → AddrT → VmM Unit
  | 0, _ => throw .endless
  | fuel + 1, p =>
    if p + PGSIZE ≤ vend then do
      kfree p
      freerangeLoop vend fuel (p + PGSIZE)
    else return

def freerange (vstart vend : AddrT) : VmM Unit :=
  freerangeLoop vend ((vend - PGROUNDUP vstart).toNat / 4096 + 1) (PGROUNDUP vstart)

def kinit1 (vstart vend : AddrT) : VmM Unit := do
  modify fun s => { s with freelist := 0 }
  freerange vstart vend

end Xv6Tracing.Vm
