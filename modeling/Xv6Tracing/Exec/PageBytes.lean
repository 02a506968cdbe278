import Xv6Tracing.Exec.Loader

/-!
# Bytes of pages

Pages hold words; files and strings are bytes.  A page read back byte by byte after
bytes were stored in it.
-/

set_option autoImplicit false

namespace Xv6Tracing.Exec

open Lib Vm

def byteAt (row : BitVec 9 → AddrT) (k : Nat) : Uchar :=
  (row (BitVec.ofNat 9 (k / 8))).extractLsb' (8 * (k % 8)) 8

def pageOf (f : Nat → Uchar) : BitVec 9 → AddrT := fun i =>
  leWord 64 ((List.range 8).map fun j => f (8 * i.toNat + j))

def storeAt (row : BitVec 9 → AddrT) (off : Nat) (bytes : List Uchar) : BitVec 9 → AddrT := fun i =>
  leWord 64 ((List.range 8).map fun j =>
    if off ≤ 8 * i.toNat + j ∧ 8 * i.toNat + j < off + bytes.length then
      bytes.getD (8 * i.toNat + j - off) 0
    else byteAt row (8 * i.toNat + j))

theorem leWord_bit {w : Nat} (bytes : List Uchar) : ∀ {k : Nat}, k < w →
    (leWord w bytes).getLsbD k = (bytes.getD (k / 8) 0).getLsbD (k % 8) := by
  induction bytes with
  | nil => intro k _; simp [leWord]
  | cons byte rest ih =>
    intro k inside
    have split : leWord w (byte :: rest) = leWord w rest <<< 8 ||| byte.setWidth w := rfl
    rw [split, BitVec.getLsbD_or, BitVec.getLsbD_shiftLeft, BitVec.getLsbD_setWidth]
    by_cases first : k < 8
    · have zero : k / 8 = 0 := by omega
      have low : k % 8 = k := by omega
      simp [first, zero, low, inside]
    · have next : k / 8 = (k - 8) / 8 + 1 := by omega
      have low : k % 8 = (k - 8) % 8 := by omega
      have high : byte.getLsbD k = false := BitVec.getLsbD_of_ge byte k (by omega)
      rw [ih (by omega), next, low, high]
      simp [first, inside]

section Reads

variable {row : BitVec 9 → AddrT} {k : Nat} {bytes : List Uchar}

theorem byteAt_pageOf {f : Nat → Uchar} (inside : k < 4096) : byteAt (pageOf f) k = f k := by
  have index : (BitVec.ofNat 9 (k / 8)).toNat = k / 8 := by
    rw [BitVec.toNat_ofNat]
    omega
  have whole : 8 * (k / 8) + k % 8 = k := by omega
  refine BitVec.eq_of_getLsbD_eq fun i bound => ?_
  rw [byteAt, pageOf, index, BitVec.getLsbD_extractLsb', leWord_bit _ (by omega)]
  have place : (8 * (k % 8) + i) / 8 = k % 8 := by omega
  have bit : (8 * (k % 8) + i) % 8 = i := by omega
  rw [place, bit, List.getD_eq_getElem?_getD, List.getElem?_map,
    List.getElem?_range (by omega), Option.map_some, Option.getD_some, whole]
  simp [bound]

theorem byteAt_storeAt {off : Nat} (inside : k < 4096) :
    byteAt (storeAt row off bytes) k =
      if off ≤ k ∧ k < off + bytes.length then bytes.getD (k - off) 0 else byteAt row k :=
  byteAt_pageOf (f := fun k =>
    if off ≤ k ∧ k < off + bytes.length then bytes.getD (k - off) 0 else byteAt row k) inside

/-- A page read after bytes of the file were stored at its beginning. -/
theorem byteAt_storeBytes (inside : k < 4096) :
    byteAt (storeBytes row bytes) k = bytes.getD k (byteAt row k) := by
  have page : storeBytes row bytes = pageOf fun k => bytes.getD k (byteAt row k) := by
    funext i
    have same : ∀ j ∈ List.range 8, bytes.getD (8 * i.toNat + j) ((row i).extractLsb' (8 * j) 8) =
        bytes.getD (8 * i.toNat + j) (byteAt row (8 * i.toNat + j)) := by
      intro j member
      have less : j < 8 := List.mem_range.mp member
      have word : (8 * i.toNat + j) / 8 = i.toNat := by omega
      have byte : (8 * i.toNat + j) % 8 = j := by omega
      rw [byteAt, word, byte, BitVec.ofNat_toNat, BitVec.setWidth_eq]
    rw [storeBytes, pageOf, List.map_congr_left same]
  rw [page, byteAt_pageOf inside]

theorem byteAt_zero (k : Nat) : byteAt (fun _ => 0) k = 0 := by
  simp [byteAt]

end Reads

end Xv6Tracing.Exec
