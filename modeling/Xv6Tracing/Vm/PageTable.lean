import Xv6Tracing.Vm.Memory

/-!
# Four-level page tables

The functions of `vm.c` that build, change, copy and free page tables.  A pointer
to an entry is the table's page and an index.  Each loop has a bound on its turns;
a run that reaches the bound stands for a loop without end.
-/

set_option autoImplicit false

namespace Xv6Tracing.Vm

open Lib

def PTE_W : AddrT := 0x002
def PTE_PWT : AddrT := 0x008
def PTE_PCD : AddrT := 0x010
def PTE_PS : AddrT := 0x080
def PTE_FLAGS (pte : AddrT) : AddrT := pte &&& 0xFFF

def PMX (va : AddrT) : BitVec 9 := (va >>> 39).setWidth 9
def PDPX (va : AddrT) : BitVec 9 := (va >>> 30).setWidth 9
def PDX (va : AddrT) : BitVec 9 := (va >>> 21).setWidth 9
def PTX (va : AddrT) : BitVec 9 := (va >>> 12).setWidth 9

def indices (n : Nat) : List (BitVec 9) := (List.range n).map (BitVec.ofNat 9)

/-! ## Walking -/

/-- One level of `walkpgdir`: the table that an entry points to, allocated when it
is missing and `alloc` is set. -/
def walkLevel (table : AddrT) (i : BitVec 9) (alloc : Bool) : VmM (Option AddrT) := do
  let s ← get
  if s.page table i &&& PTE_P ≠ 0 then return some (P2V (PTE_ADDR (s.page table i)))
  else if alloc = false then return none
  else do
    let next ← kalloc
    if next = 0 then return none
    else do
      zeroPage next
      setWord table i (V2P next ||| PTE_P ||| PTE_W ||| PTE_U)
      return some next

def walkpgdir (pml4 va : AddrT) (alloc : Bool) : VmM (Option (AddrT × BitVec 9)) := do
  match ← walkLevel pml4 (PMX va) alloc with
  | none => return none
  | some pdp =>
    match ← walkLevel pdp (PDPX va) alloc with
    | none => return none
    | some pd =>
      match ← walkLevel pd (PDX va) alloc with
      | none => return none
      | some pgtab => return some (pgtab, PTX va)

/-- `false` is the return value -1. -/
def mappagesLoop (pgdir last perm : AddrT) : Nat → AddrT → AddrT → VmM Bool
  | 0, _, _ => throw .endless
  | fuel + 1, a, pa => do
      match ← walkpgdir pgdir a true with
      | none => return false
      | some (pgtab, i) => do
          let s ← get
          if s.page pgtab i &&& PTE_P ≠ 0 then throw .remap
          else do
            setWord pgtab i (pa ||| perm ||| PTE_P)
            if a = last then return true
            else mappagesLoop pgdir last perm fuel (a + PGSIZE) (pa + PGSIZE)

def mappages (pgdir va size pa : AddrT) (perm : CInt) : VmM Bool :=
  let a := PGROUNDDOWN va
  let last := PGROUNDDOWN (va + size - 1)
  mappagesLoop pgdir last (perm.signExtend 64) ((last - a).toNat / 4096 + 1) a pa

/-! ## The kernel's part -/

def setupkvm : VmM AddrT := do
  let pml4 ← kalloc
  zeroPage pml4
  let s ← get
  setWord pml4 256 (V2P s.kpdpt ||| PTE_P ||| PTE_W)
  return pml4

def kvmalloc : VmM Unit := do
  let kpml4 ← kalloc
  zeroPage kpml4
  let kpdpt ← kalloc
  zeroPage kpdpt
  setWord kpml4 (PMX KERNBASE) (V2P kpdpt ||| PTE_P ||| PTE_W)
  setWord kpdpt 0 (0 ||| PTE_PS ||| PTE_P ||| PTE_W)
  setWord kpdpt 3 (0xC0000000 ||| PTE_PS ||| PTE_P ||| PTE_W ||| PTE_PWT ||| PTE_PCD)
  modify fun s => { s with kpml4 := kpml4, kpdpt := kpdpt }

/-! ## User memory -/

def deallocuvmLoop (pgdir oldsz : AddrT) : Nat → AddrT → VmM Unit
  | 0, _ => throw .endless
  | fuel + 1, a =>
    if a < oldsz then do
      match ← walkpgdir pgdir a false with
      | none => deallocuvmLoop pgdir oldsz fuel (a + PGSIZE)
      | some (pgtab, i) => do
          let s ← get
          let pte := s.page pgtab i
          if pte &&& PTE_P ≠ 0 then
            if PTE_ADDR pte = 0 then throw .kfree
            else do
              kfree (P2V (PTE_ADDR pte))
              setWord pgtab i 0
              deallocuvmLoop pgdir oldsz fuel (a + PGSIZE)
          else deallocuvmLoop pgdir oldsz fuel (a + PGSIZE)
    else return

def deallocuvm (pgdir oldsz newsz : AddrT) : VmM AddrT := do
  if oldsz ≤ newsz then return oldsz
  else do
    let a := PGROUNDUP newsz
    deallocuvmLoop pgdir oldsz ((oldsz - a).toNat / 4096 + 2) a
    return newsz

def allocuvmLoop (pgdir oldsz newsz : AddrT) : Nat → AddrT → VmM AddrT
  | 0, _ => throw .endless
  | fuel + 1, a =>
    if a < newsz then do
      let mem ← kalloc
      if mem = 0 then do
        discard (deallocuvm pgdir newsz oldsz)
        return 0
      else do
        zeroPage mem
        if ← mappages pgdir a PGSIZE (V2P mem) (BitVec.setWidth 32 (PTE_W ||| PTE_U)) then
          allocuvmLoop pgdir oldsz newsz fuel (a + PGSIZE)
        else do
          discard (deallocuvm pgdir newsz oldsz)
          kfree mem
          return 0
    else return newsz

def allocuvm (pgdir oldsz newsz : AddrT) : VmM AddrT := do
  if KERNBASE ≤ newsz then return 0
  else if newsz < oldsz then return oldsz
  else
    let a := PGROUNDUP oldsz
    allocuvmLoop pgdir oldsz newsz ((newsz - a).toNat / 4096 + 2) a

def clearpteu (pgdir uva : AddrT) : VmM Unit := do
  match ← walkpgdir pgdir uva false with
  | none => throw .clearpteu
  | some (pgtab, i) => do
      let s ← get
      setWord pgtab i (s.page pgtab i &&& ~~~PTE_U)

/-! ## Whole tables -/

/-- A loop of `freevm`: `free` is called for what each present entry points to. -/
def freeEntries (free : AddrT → VmM Unit) (table : AddrT) : List (BitVec 9) → VmM Unit
  | [] => return
  | i :: rest => do
      let s ← get
      if s.page table i &&& PTE_P ≠ 0 then do
        free (P2V (PTE_ADDR (s.page table i)))
        freeEntries free table rest
      else freeEntries free table rest

def freePt (pt : AddrT) : VmM Unit := do
  freeEntries kfree pt (indices 512)
  kfree pt

def freePd (pd : AddrT) : VmM Unit := do
  freeEntries freePt pd (indices 512)
  kfree pd

def freePdp (pdp : AddrT) : VmM Unit := do
  freeEntries freePd pdp (indices 512)
  kfree pdp

def freevm (pml4 : AddrT) : VmM Unit := do
  if pml4 = 0 then throw .freevm
  else do
    freeEntries freePdp pml4 (indices 256)
    kfree pml4

def copyuvmLoop (pgdir d sz : AddrT) : Nat → AddrT → VmM Bool
  | 0, _ => throw .endless
  | fuel + 1, i =>
    if i < sz then do
      match ← walkpgdir pgdir i false with
      | none => throw .copyuvmExist
      | some (pgtab, k) => do
          let s ← get
          let pte := s.page pgtab k
          if pte &&& PTE_P = 0 then throw .copyuvmPresent
          else do
            let mem ← kalloc
            if mem = 0 then return false
            else do
              modify fun s => s.setPage mem (s.page (P2V (PTE_ADDR pte)))
              if ← mappages d i PGSIZE (V2P mem) ((PTE_FLAGS pte).setWidth 32) then
                copyuvmLoop pgdir d sz fuel (i + PGSIZE)
              else return false
    else return true

/-- `none` is the null pointer. -/
def copyuvm (pgdir : AddrT) (sz : Uint) : VmM (Option AddrT) := do
  let d ← setupkvm
  if d = 0 then return none
  else
    let size : AddrT := sz.setWidth 64
    if ← copyuvmLoop pgdir d size (size.toNat / 4096 + 2) PGSIZE then return some d
    else do
      freevm d
      return none

end Xv6Tracing.Vm
