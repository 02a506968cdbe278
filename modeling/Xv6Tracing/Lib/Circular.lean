import Mathlib.Tactic
import Mathlib.Data.BitVec

/-!
# Circular arrays with 32-bit indices

An array of `n` cells whose indices are unsigned 32-bit counters, taken modulo `n`
where `n` divides `2^32`, so that the counters may wrap around.  `Holds data i q`
says that the cells from index `i` on hold the list `q`.
-/

set_option autoImplicit false

namespace Xv6Tracing.Lib

variable {α : Type} {n : Nat} [NeZero n]

def cell (n : Nat) [NeZero n] (i : BitVec 32) : Fin n := Fin.ofNat n i.toNat

theorem cell_add (divides : n ∣ 2 ^ 32) (i : BitVec 32) (j : Nat) :
    (cell n (i + BitVec.ofNat 32 j)).val = (i.toNat + j) % n := by
  simp only [cell, Fin.ofNat, BitVec.toNat_add, BitVec.toNat_ofNat, Nat.add_mod_mod]
  exact Nat.mod_mod_of_dvd _ divides

theorem cell_ne (divides : n ∣ 2 ^ 32) (i : BitVec 32) {j k : Nat} (less : j < k)
    (small : k < n) : cell n (i + BitVec.ofNat 32 j) ≠ cell n (i + BitVec.ofNat 32 k) := by
  intro same
  have values := congrArg Fin.val same
  rw [cell_add divides, cell_add divides] at values
  have close : j ≡ k [MOD n] := Nat.ModEq.add_left_cancel' i.toNat values
  have equal := close.eq_of_lt_of_lt (lt_trans less small) small
  omega

def Holds (data : Fin n → α) (i : BitVec 32) (q : List α) : Prop :=
  ∀ j b, q[j]? = some b → data (cell n (i + BitVec.ofNat 32 j)) = b

theorem holds_nil (data : Fin n → α) (i : BitVec 32) : Holds data i [] := by
  intro j b found
  simp at found

variable {q : List α} {i : BitVec 32} {data : Fin n → α}

theorem Holds.head {b : α} (holds : Holds data i (b :: q)) : data (cell n i) = b := by
  have first := holds 0 b rfl
  rwa [BitVec.add_zero] at first

theorem Holds.tail {b : α} (holds : Holds data i (b :: q)) : Holds data (i + 1) q := by
  intro j c found
  have shifted := holds (j + 1) c (by simpa using found)
  rwa [Nat.add_comm, BitVec.ofNat_add, ← BitVec.add_assoc] at shifted

theorem Holds.take {rest : List α} (holds : Holds data i (q ++ rest)) : Holds data i q := by
  intro j b found
  apply holds j b
  rw [List.getElem?_append_left (List.getElem?_eq_some_iff.mp found).1]
  exact found

theorem Holds.push (divides : n ∣ 2 ^ 32) (holds : Holds data i q) (room : q.length < n) (b : α) :
    Holds (Function.update data (cell n (i + BitVec.ofNat 32 q.length)) b) i (q ++ [b]) := by
  intro j c found
  by_cases old : j < q.length
  · rw [List.getElem?_append_left old] at found
    rw [Function.update_of_ne (cell_ne divides i old room)]
    exact holds j c found
  · have last : j = q.length := by
      have bound := (List.getElem?_eq_some_iff.mp found).1
      rw [List.length_append, List.length_singleton] at bound
      omega
    subst last
    rw [List.getElem?_concat_length] at found
    rw [Function.update_self]
    exact Option.some.inj found

def slice (data : Fin n → α) (i : BitVec 32) (k : Nat) : List α :=
  (List.range k).map fun j => data (cell n (i + BitVec.ofNat 32 j))

theorem Holds.slice_eq (holds : Holds data i q) : slice data i q.length = q := by
  apply List.ext_getElem?
  intro j
  rw [slice, List.getElem?_map]
  by_cases inside : j < q.length
  · rw [List.getElem?_range inside, List.getElem?_eq_getElem inside, Option.map_some]
    exact congrArg some (holds j q[j] (List.getElem?_eq_getElem inside))
  · have outside : q.length ≤ j := Nat.le_of_not_lt inside
    rw [List.getElem?_eq_none outside, List.getElem?_eq_none (by simpa using outside)]
    rfl

theorem Holds.drop {rest : List α}
    (holds : Holds data i (q ++ rest)) : Holds data (i + BitVec.ofNat 32 q.length) rest := by
  intro j b found
  rw [BitVec.add_assoc, ← BitVec.ofNat_add]
  apply holds
  rwa [List.getElem?_append_right (Nat.le_add_right _ _), Nat.add_sub_cancel_left]

end Xv6Tracing.Lib
