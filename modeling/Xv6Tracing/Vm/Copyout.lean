import Xv6Tracing.Params

/-!
# Copying to user memory

`uva2ka` and `copyout` of `vm.c`.  A page table is given by what
`walkpgdir(pgdir, va, 0)` finds in it: the entry for the page, or nothing when
an intermediate table is missing.  The source dereferences that pointer without
a test, so a missing table is a fault inside the kernel and not a failed copy.
-/

set_option autoImplicit false

namespace Xv6Tracing.Vm

abbrev Mem := AddrT → Uchar

/-- `walkpgdir(pgdir, va, 0)`, as the content of the entry it points to. -/
abbrev Pgdir := AddrT → Option AddrT

def PTE_P : AddrT := 0x001
def PTE_U : AddrT := 0x004
def PTE_ADDR (pte : AddrT) : AddrT := pte &&& ~~~(0xFFF : AddrT)

/-- What `uva2ka` answers: a kernel fault, a null pointer or a kernel address. -/
inductive Uva where
  | fault
  | null
  | page (ka : AddrT)
deriving DecidableEq, Repr

def uva2ka (pgdir : Pgdir) (uva : AddrT) : Uva :=
  match pgdir uva with
  | none => .fault
  | some pte =>
    if pte &&& PTE_P = 0 then .null
    else if pte &&& PTE_U = 0 then .null
    else .page (P2V (PTE_ADDR pte))

/-- `memmove` of a kernel object to a page the object does not overlap. -/
def memmoveTo (mem : Mem) (dst : AddrT) (bytes : List Uchar) : Mem := fun a =>
  if (a - dst).toNat < bytes.length then bytes.getD (a - dst).toNat 0 else mem a

/-- One round of the loop of `copyout` per unit of fuel.  A round copies at
least one byte, so the length of the data is fuel enough. -/
def copyoutLoop (pgdir : Pgdir) : Nat → Mem → AddrT → List Uchar → Option (CInt × Mem)
  | _, mem, _, [] => some (0, mem)
  | 0, mem, _, _ :: _ => some (0, mem)
  | fuel + 1, mem, va, byte :: bytes =>
    let va0 := PGROUNDDOWN va
    match uva2ka pgdir va0 with
    | .fault => none
    | .null => some (-1, mem)
    | .page pa0 =>
      let n := min (PGSIZE - (va - va0)).toNat (byte :: bytes).length
      copyoutLoop pgdir fuel (memmoveTo mem (pa0 + (va - va0)) ((byte :: bytes).take n))
        (va0 + PGSIZE) ((byte :: bytes).drop n)

/-- Copy bytes to user address `va` in page table `pgdir`; `none` is a fault of
the kernel on a missing page-table page. -/
def copyout (pgdir : Pgdir) (mem : Mem) (va : AddrT) (bytes : List Uchar) :
    Option (CInt × Mem) :=
  copyoutLoop pgdir bytes.length mem va bytes

theorem masked_add (va mask : AddrT) : (va &&& ~~~mask) + (va &&& mask) = va := by
  have disjoint : (va &&& ~~~mask) &&& (va &&& mask) = 0 := by
    ext i _
    simp only [BitVec.getElem_and, BitVec.getElem_not]
    cases va[i] <;> cases mask[i] <;> simp
  rw [BitVec.add_eq_or_of_and_eq_zero _ _ disjoint]
  ext i _
  simp only [BitVec.getElem_or, BitVec.getElem_and, BitVec.getElem_not]
  cases va[i] <;> cases mask[i] <;> rfl

theorem sub_PGROUNDDOWN (va : AddrT) : va - PGROUNDDOWN va = va &&& 0xFFF := by
  have whole := masked_add va 0xFFF
  have mask : PGROUNDDOWN va = va &&& ~~~(0xFFF : AddrT) := rfl
  grind

theorem page_room (va : AddrT) : 0 < (PGSIZE - (va - PGROUNDDOWN va)).toNat := by
  rw [sub_PGROUNDDOWN]
  have small : (va &&& 0xFFF : AddrT).toNat ≤ 4095 := by
    rw [BitVec.toNat_and]
    exact Nat.and_le_right
  have size : (PGSIZE : AddrT).toNat = 4096 := rfl
  rw [BitVec.toNat_sub]
  omega

theorem copyoutLoop_fuel (pgdir : Pgdir) : ∀ (fuel : Nat) (mem : Mem) (va : AddrT)
    (bytes : List Uchar), bytes.length ≤ fuel →
      copyoutLoop pgdir fuel mem va bytes = copyout pgdir mem va bytes := by
  have both : ∀ (fuel fuel' : Nat) (mem : Mem) (va : AddrT) (bytes : List Uchar),
      bytes.length ≤ fuel → bytes.length ≤ fuel' →
        copyoutLoop pgdir fuel mem va bytes = copyoutLoop pgdir fuel' mem va bytes := by
    intro fuel
    induction fuel with
    | zero =>
      intro fuel' mem va bytes enough _
      have empty : bytes = [] := List.eq_nil_of_length_eq_zero (Nat.le_zero.mp enough)
      subst empty
      cases fuel' <;> rfl
    | succ fuel ih =>
      intro fuel' mem va bytes enough enough'
      cases bytes with
      | nil => cases fuel' <;> rfl
      | cons byte bytes =>
        cases fuel' with
        | zero => simp at enough'
        | succ fuel' =>
          simp only [copyoutLoop]
          cases uva2ka pgdir (PGROUNDDOWN va) with
          | fault => rfl
          | null => rfl
          | page pa0 =>
            have room := page_room va
            simp only [List.length_cons] at enough enough'
            apply ih <;> simp only [List.length_drop, List.length_cons] <;> omega
  intro fuel mem va bytes enough
  exact both fuel bytes.length mem va bytes enough le_rfl

theorem copyout_cons (pgdir : Pgdir) (mem : Mem) (va : AddrT) (byte : Uchar)
    (bytes : List Uchar) :
    copyout pgdir mem va (byte :: bytes) =
      match uva2ka pgdir (PGROUNDDOWN va) with
      | .fault => none
      | .null => some (-1, mem)
      | .page pa0 =>
        let n := min (PGSIZE - (va - PGROUNDDOWN va)).toNat (byte :: bytes).length
        copyout pgdir
          (memmoveTo mem (pa0 + (va - PGROUNDDOWN va)) ((byte :: bytes).take n))
          (PGROUNDDOWN va + PGSIZE) ((byte :: bytes).drop n) := by
  rw [copyout, List.length_cons, copyoutLoop]
  cases uva2ka pgdir (PGROUNDDOWN va) with
  | fault => rfl
  | null => rfl
  | page pa0 =>
    have room := page_room va
    apply copyoutLoop_fuel
    simp only [List.length_drop, List.length_cons]
    omega

/-- The answer of `copyout` to a given destination, whatever is copied. -/
def copyoutRet (pgdir : Pgdir) (va : AddrT) (len : Nat) : Option CInt :=
  (copyout pgdir (fun _ => 0) va (List.replicate len 0)).map Prod.fst

/-- Whether a copy succeeds depends on the page table, the address and the
length, never on the data or on what memory holds. -/
theorem copyout_ret (pgdir : Pgdir) (mem : Mem) (va : AddrT) (bytes : List Uchar) :
    (copyout pgdir mem va bytes).map Prod.fst = copyoutRet pgdir va bytes.length := by
  have same : ∀ (n : Nat) (mem mem' : Mem) (va : AddrT) (bytes bytes' : List Uchar),
      bytes.length ≤ n → bytes.length = bytes'.length →
        (copyout pgdir mem va bytes).map Prod.fst =
          (copyout pgdir mem' va bytes').map Prod.fst := by
    intro n
    induction n with
    | zero =>
      intro mem mem' va bytes bytes' bound lengths
      have empty : bytes = [] := List.eq_nil_of_length_eq_zero (Nat.le_zero.mp bound)
      subst empty
      have empty' : bytes' = [] := List.eq_nil_of_length_eq_zero lengths.symm
      subst empty'
      rfl
    | succ n ih =>
      intro mem mem' va bytes bytes' bound lengths
      cases bytes with
      | nil =>
        have empty' : bytes' = [] := List.eq_nil_of_length_eq_zero lengths.symm
        subst empty'
        rfl
      | cons byte bytes =>
        cases bytes' with
        | nil => simp at lengths
        | cons byte' bytes' =>
          rw [copyout_cons, copyout_cons]
          cases uva2ka pgdir (PGROUNDDOWN va) with
          | fault => rfl
          | null => rfl
          | page pa0 => grind [page_room]
  exact same bytes.length mem _ va bytes _ le_rfl (by simp)

theorem copyoutRet_of_mapped (pgdir : Pgdir) (mapped : ∀ va, ∃ ka, uva2ka pgdir va = .page ka)
    (va : AddrT) (len : Nat) : copyoutRet pgdir va len = some 0 := by
  have loop : ∀ (fuel : Nat) (mem : Mem) (va : AddrT) (bytes : List Uchar),
      (copyoutLoop pgdir fuel mem va bytes).map Prod.fst = some 0 := by
    intro fuel
    induction fuel with
    | zero => intro mem va bytes; cases bytes <;> rfl
    | succ fuel ih =>
      intro mem va bytes
      cases bytes with
      | nil => rfl
      | cons byte bytes =>
        obtain ⟨ka, found⟩ := mapped (PGROUNDDOWN va)
        simp only [copyoutLoop, found]
        exact ih _ _ _
  exact loop _ _ _ _

def flatPgdir : Pgdir := fun _ => some (PTE_P ||| PTE_U)

theorem flatPgdir_mapped (va : AddrT) : ∃ ka, uva2ka flatPgdir va = .page ka :=
  ⟨P2V (PTE_ADDR (PTE_P ||| PTE_U)), by simp only [uva2ka, flatPgdir]; decide⟩

def emptyPgdir : Pgdir := fun _ => some 0

end Xv6Tracing.Vm
