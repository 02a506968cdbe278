import Mathlib.Tactic
import Mathlib.Data.BitVec
import Mathlib.Data.List.GetD

/-!
# Byte arrays and files made of blocks

An array of bytes is a function of the position.  `read` and `write` move lists
of bytes, `leBytes` and `ofLe` are the little-endian encoding of words, and a file
is a list of blocks, each at the place a map gives for its index.
-/

set_option autoImplicit false

namespace Xv6Tracing.Lib

abbrev Byte := BitVec 8

abbrev Bytes := Nat → Byte

namespace Bytes

variable (b : Bytes)

def read (off n : Nat) : List Byte := (List.range n).map fun j => b (off + j)

def write (off : Nat) (src : List Byte) : Bytes := fun k =>
  if off ≤ k ∧ k < off + src.length then src.getD (k - off) 0 else b k

@[simp] theorem length_read (off n : Nat) : (b.read off n).length = n := by simp [read]

theorem getElem_read (off n j : Nat) (inside : j < (b.read off n).length) :
    (b.read off n)[j] = b (off + j) := by
  simp [read]

variable {off : Nat} {src : List Byte}

theorem read_congr {b c : Bytes} {n : Nat} (same : ∀ j < n, b (off + j) = c (off + j)) :
    b.read off n = c.read off n := by
  apply List.map_congr_left
  intro j member
  exact same j (List.mem_range.mp member)

theorem read_add (off m n : Nat) : b.read off (m + n) = b.read off m ++ b.read (off + m) n := by
  simp only [read, List.range_add, List.map_append, List.map_map]
  congr 1
  apply List.map_congr_left
  intro j _
  simp only [Function.comp_apply, Nat.add_assoc]

theorem write_inside {k : Nat} (above : off ≤ k)
    (below : k < off + src.length) : b.write off src k = src.getD (k - off) 0 :=
  if_pos ⟨above, below⟩

theorem write_outside {k : Nat} (apart : k < off ∨ off + src.length ≤ k) :
    b.write off src k = b k :=
  if_neg (by omega)

@[simp] theorem write_nil (off : Nat) : b.write off [] = b := by
  funext k
  exact b.write_outside (by simp only [List.length_nil]; omega)

theorem write_append (off : Nat) (first second : List Byte) :
    (b.write off first).write (off + first.length) second = b.write off (first ++ second) := by
  funext k
  by_cases late : off + first.length ≤ k ∧ k < off + first.length + second.length
  · rw [write_inside _ late.1 late.2,
      write_inside _ (by omega) (by rw [List.length_append]; omega),
      List.getD_append_right _ _ _ _ (by omega)]
    congr 1
    omega
  · rw [write_outside _ (by omega)]
    by_cases early : off ≤ k ∧ k < off + first.length
    · rw [write_inside _ early.1 early.2,
        write_inside _ early.1 (by rw [List.length_append]; omega),
        List.getD_append _ _ _ _ (by omega)]
    · rw [write_outside _ (by omega), write_outside _ (by rw [List.length_append]; omega)]

theorem read_write_self (off : Nat) (src : List Byte) :
    (b.write off src).read off src.length = src := by
  apply List.ext_getElem
  · exact length_read _ _ _
  · intro j _ inside
    rw [getElem_read, write_inside _ (by omega) (by omega), Nat.add_sub_cancel_left,
      List.getD_eq_getElem _ _ inside]

theorem read_write_apart {n start : Nat} (apart : start + n ≤ off ∨ off + src.length ≤ start) :
    (b.write off src).read start n = b.read start n := by
  apply read_congr
  intro j inside
  exact b.write_outside (by omega)

end Bytes

/-! ## Little-endian words -/

/-- The `n` low bytes of a number, the lowest first. -/
def leBytes : Nat → Nat → List Byte
  | 0, _ => []
  | n + 1, value => BitVec.ofNat 8 value :: leBytes n (value / 256)

def ofLe : List Byte → Nat
  | [] => 0
  | byte :: rest => byte.toNat + 256 * ofLe rest

@[simp] theorem length_leBytes (n value : Nat) : (leBytes n value).length = n := by
  induction n generalizing value with
  | zero => rfl
  | succ n ih => simp only [leBytes, List.length_cons, ih]

theorem ofLe_leBytes (n value : Nat) : ofLe (leBytes n value) = value % 256 ^ n := by
  induction n generalizing value with
  | zero => simp only [leBytes, ofLe, pow_zero, Nat.mod_one]
  | succ n ih =>
    have low : (BitVec.ofNat 8 value).toNat = value % 256 := BitVec.toNat_ofNat value 8
    rw [leBytes, ofLe, ih, low, pow_succ', Nat.mod_mul]

theorem ofLe_replicate_zero (n : Nat) : ofLe (List.replicate n 0) = 0 := by
  induction n with
  | zero => rfl
  | succ n ih =>
    rw [List.replicate_succ, ofLe, ih]
    rfl

/-! ## Files made of blocks -/

section BlockFile

variable {size : Nat} {disk disk' : Nat → Bytes} {place place' : Nat → Nat}

/-- The byte at a position of the file whose block `n` is at `place n`. -/
def fileByte (size : Nat) (disk : Nat → Bytes) (place : Nat → Nat) : Bytes := fun p =>
  disk (place (p / size)) (p % size)

theorem fileByte_congr {p : Nat} (same : disk' (place' (p / size)) = disk (place (p / size))) :
    fileByte size disk' place' p = fileByte size disk place p := by
  simp only [fileByte, same]

theorem fileByte_write (place : Nat → Nat) {n off p : Nat} {src : List Byte} (pos : 0 < size)
    (fits : off + src.length ≤ size)
    (apart : p / size ≠ n → place (p / size) ≠ place n) :
    fileByte size (Function.update disk (place n) ((disk (place n)).write off src)) place p =
      (fileByte size disk place).write (n * size + off) src p := by
  have split := Nat.div_add_mod p size
  have small := Nat.mod_lt p pos
  simp only [fileByte]
  by_cases same : p / size = n
  · rw [same] at split ⊢
    rw [mul_comm] at split
    rw [Function.update_self]
    by_cases inside : off ≤ p % size ∧ p % size < off + src.length
    · rw [Bytes.write_inside _ inside.1 inside.2, Bytes.write_inside _ (by omega) (by omega)]
      congr 1
      omega
    · rw [Bytes.write_outside _ (by omega), Bytes.write_outside _ (by omega), fileByte, same]
  · rw [Function.update_of_ne (apart same)]
    symm
    apply Bytes.write_outside (fileByte size disk place)
    rcases Nat.lt_or_gt_of_ne same with before | after
    · have below : p < n * size := Nat.div_lt_iff_lt_mul pos |>.mp before
      exact Or.inl (by omega)
    · have above : (n + 1) * size ≤ p := (Nat.le_div_iff_mul_le pos).mp after
      rw [add_mul] at above
      exact Or.inr (by omega)

end BlockFile

end Xv6Tracing.Lib
