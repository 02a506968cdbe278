import Xv6Tracing.Vm.PageTable

/-!
# Addresses and their parts

Rounding, entries and indices as arithmetic on natural numbers.  Below `2^47` the
four indices of an address and its page number determine each other.
-/

set_option autoImplicit false

namespace Xv6Tracing.Vm

open Lib

/-! ## Rounding -/

theorem toNat_low (a : AddrT) : (a &&& 0xFFF : AddrT).toNat = a.toNat % 4096 := by
  rw [BitVec.toNat_and]
  exact Nat.and_two_pow_sub_one_eq_mod a.toNat 12

theorem toNat_PGROUNDDOWN (a : AddrT) : (PGROUNDDOWN a).toNat = a.toNat / 4096 * 4096 := by
  have low := congrArg BitVec.toNat (sub_PGROUNDDOWN a)
  rw [toNat_low] at low
  bv_omega

theorem toNat_PTE_ADDR (pte : AddrT) : (PTE_ADDR pte).toNat = pte.toNat / 4096 * 4096 :=
  toNat_PGROUNDDOWN pte

theorem toNat_PTE_FLAGS (pte : AddrT) : (PTE_FLAGS pte).toNat = pte.toNat % 4096 := toNat_low pte

@[simp] theorem toNat_PGSIZE : PGSIZE.toNat = 4096 := rfl

theorem toNat_PGROUNDUP {sz : AddrT} (room : sz.toNat ≤ 2 ^ 64 - 4096) :
    (PGROUNDUP sz).toNat = (sz.toNat + 4095) / 4096 * 4096 := by
  have rounded : PGROUNDUP sz = PGROUNDDOWN (sz + (PGSIZE - 1)) := rfl
  have mask : (PGSIZE - 1).toNat = 4095 := rfl
  rw [rounded, toNat_PGROUNDDOWN, BitVec.toNat_add, mask, Nat.mod_eq_of_lt (by omega)]

theorem toNat_add_PGSIZE {a : AddrT} (room : a.toNat < 2 ^ 64 - 4096) :
    (a + PGSIZE).toNat = a.toNat + 4096 := by
  rw [BitVec.toNat_add, toNat_PGSIZE, Nat.mod_eq_of_lt (by omega)]

/-! ## Entries -/

@[simp] theorem P2V_V2P (v : AddrT) : P2V (V2P v) = v := by
  simp [P2V, V2P]

@[simp] theorem V2P_P2V (a : AddrT) : V2P (P2V a) = a := by
  simp [P2V, V2P]

def Aligned (v : AddrT) : Prop := v.toNat % 4096 = 0

instance (v : AddrT) : Decidable (Aligned v) := inferInstanceAs (Decidable (v.toNat % 4096 = 0))

theorem aligned_iff (v : AddrT) : v % PGSIZE = 0 ↔ Aligned v := by
  rw [← BitVec.toNat_inj, BitVec.toNat_umod]
  rfl

variable {v flags va : AddrT}

variable {kend pa va' : AddrT}

theorem Usable.aligned (usable : Usable kend v) : Aligned v :=
  (aligned_iff v).mp usable.1

theorem Usable.ne_zero (usable : Usable kend v) : v ≠ 0 := by
  rintro rfl
  exact absurd usable.2.2 (by decide)

theorem aligned_V2P (aligned : Aligned v) : Aligned (V2P v) := by
  unfold Aligned at aligned ⊢
  have base : KERNBASE.toNat = 0xFFFF800000000000 := rfl
  rw [V2P, BitVec.toNat_sub, base]
  omega

theorem PTE_ADDR_or (aligned : Aligned pa) (small : flags.toNat < 4096) :
    PTE_ADDR (pa ||| flags) = pa := by
  have shifted : (pa.toNat ||| flags.toNat) / 4096 = pa.toNat / 4096 := by
    change _ / 2 ^ 12 = _ / 2 ^ 12
    rw [← Nat.shiftRight_eq_div_pow, Nat.shiftRight_or_distrib, Nat.shiftRight_eq_div_pow,
      Nat.shiftRight_eq_div_pow, Nat.div_eq_of_lt small, Nat.or_zero]
  rw [← BitVec.toNat_inj, toNat_PTE_ADDR, BitVec.toNat_or, shifted]
  unfold Aligned at aligned
  omega

theorem PTE_FLAGS_or (aligned : Aligned pa) (small : flags.toNat < 4096) :
    PTE_FLAGS (pa ||| flags) = flags := by
  rw [← BitVec.toNat_inj, toNat_PTE_FLAGS, BitVec.toNat_or]
  change (pa.toNat ||| flags.toNat) % 2 ^ 12 = flags.toNat
  have low : pa.toNat % 2 ^ 12 = 0 := aligned
  rw [Nat.or_mod_two_pow, low, Nat.zero_or, Nat.mod_eq_of_lt small]

theorem P2V_PTE_ADDR_V2P (aligned : Aligned v) (small : flags.toNat < 4096) :
    P2V (PTE_ADDR (V2P v ||| flags)) = v := by
  rw [PTE_ADDR_or (aligned_V2P aligned) small, P2V_V2P]

theorem present_iff (pte : AddrT) : pte &&& PTE_P ≠ 0 ↔ pte.getLsbD 0 = true := by
  constructor
  · intro present
    grind [PTE_P]
  · intro bit zero
    have cleared := congrArg (fun w : AddrT => w.getLsbD 0) zero
    simp only [BitVec.getLsbD_and, bit] at cleared
    exact absurd cleared (by decide)

theorem present_or (x : AddrT) : (x ||| PTE_P) &&& PTE_P ≠ 0 := by
  rw [present_iff]
  simp [PTE_P]

/-! ## Indices -/

def vpn (va : AddrT) : Nat := va.toNat / 4096

def indexPath (va : AddrT) : List (BitVec 9) := [PMX va, PDPX va, PDX va, PTX va]

theorem toNat_PMX (va : AddrT) : (PMX va).toNat = vpn va / 2 ^ 27 % 512 := by
  simp only [PMX, BitVec.toNat_setWidth, BitVec.toNat_ushiftRight, Nat.shiftRight_eq_div_pow, vpn]
  omega

theorem toNat_PDPX (va : AddrT) : (PDPX va).toNat = vpn va / 2 ^ 18 % 512 := by
  simp only [PDPX, BitVec.toNat_setWidth, BitVec.toNat_ushiftRight, Nat.shiftRight_eq_div_pow, vpn]
  omega

theorem toNat_PDX (va : AddrT) : (PDX va).toNat = vpn va / 2 ^ 9 % 512 := by
  simp only [PDX, BitVec.toNat_setWidth, BitVec.toNat_ushiftRight, Nat.shiftRight_eq_div_pow, vpn]
  omega

theorem toNat_PTX (va : AddrT) : (PTX va).toNat = vpn va % 512 := by
  simp only [PTX, BitVec.toNat_setWidth, BitVec.toNat_ushiftRight, Nat.shiftRight_eq_div_pow, vpn]

def User (va : AddrT) : Prop := va.toNat < 2 ^ 47

theorem PMX_lt (user : User va) : (PMX va).toNat < 256 := by
  unfold User at user
  rw [toNat_PMX, vpn]
  omega

theorem indexPath_congr (page : vpn va = vpn va') :
    indexPath va = indexPath va' := by
  simp only [indexPath, List.cons.injEq, ← BitVec.toNat_inj, toNat_PMX, toNat_PDPX, toNat_PDX,
    toNat_PTX, page, and_self]

theorem indexPath_inj (user : User va) (user' : User va') :
    indexPath va = indexPath va' ↔ vpn va = vpn va' := by
  refine ⟨?_, indexPath_congr⟩
  simp only [indexPath, List.cons.injEq, ← BitVec.toNat_inj, toNat_PMX, toNat_PDPX, toNat_PDX,
    toNat_PTX, vpn]
  unfold User at user user'
  omega

theorem exists_user {k : Nat} (small : k < 2 ^ 35) : ∃ va, User va ∧ vpn va = k := by
  refine ⟨BitVec.ofNat 64 (4096 * k), ?_, ?_⟩
  · rw [User, BitVec.toNat_ofNat]
    omega
  · rw [vpn, BitVec.toNat_ofNat]
    omega

theorem vpn_lt (user : User va) : vpn va < 2 ^ 35 := by
  unfold User at user
  unfold vpn
  omega

end Xv6Tracing.Vm
