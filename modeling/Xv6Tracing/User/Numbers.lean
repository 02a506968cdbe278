import Mathlib.Data.Nat.Digits.Lemmas
import Xv6Tracing.CTypes

/-!
# Printing numbers

`itoa` and `itox` of the dashboard (`trace.c`) and `print_d`, which `printf.c` and
`console.c` have in the same words.
-/

set_option autoImplicit false

namespace Xv6Tracing.Numbers

def digitChar (d : Nat) : Uchar := (cstr "0123456789abcdef").getD d 0

def minus : Uchar := 0x2d

/-- `while(val > 0 && i < sizeof(temp)-1)`, with `room` bytes of `temp` left for digits;
`'0' + val % 10` is the digit of that number. -/
def itoaLoop : Nat → CInt → List Uchar
  | 0, _ => []
  | room + 1, val =>
    if 0 < val.toInt then digitChar (val.srem 10).toNat :: itoaLoop room (val.sdiv 10) else []

def itoa (val : CInt) : List Uchar :=
  let neg := val.toInt < 0
  let val := if neg then -val else val
  if val = 0 then [digitChar 0]
  else
    let temp := itoaLoop 15 val
    (if neg ∧ temp.length < 15 then temp ++ [minus] else temp).reverse

def itoxLoop : Nat → Uint → List Uchar
  | 0, _ => []
  | room + 1, val => if 0 < val then digitChar (val % 16).toNat :: itoxLoop room (val / 16) else []

def itox (val : Uint) : List Uchar :=
  if val = 0 then [digitChar 0] else (itoxLoop 15 val).reverse

/-- The `do` loop of `print_d`; `none` is a store past the end of `buf`. -/
def print_dLoop : Nat → BitVec 64 → Option (List Uchar)
  | 0, _ => none
  | room + 1, x =>
    if x.sdiv 10 ≠ 0 then (print_dLoop room (x.sdiv 10)).map (digitChar (x.srem 10).toNat :: ·)
    else some [digitChar (x.srem 10).toNat]

/-- The characters that `print_d` gives to `putc` or `consputc`. -/
def print_d (v : CInt) : Option (List Uchar) := do
  let x : BitVec 64 := v.signExtend 64
  let buf ← print_dLoop 16 (if v.toInt < 0 then -x else x)
  if v.toInt < 0 then
    if buf.length < 16 then some (buf ++ [minus]).reverse else none
  else some buf.reverse

/-! ## The meaning of a string of digits -/

/-- The digits of a number, the first one not 0 unless it is the only one. -/
def numeral (base n : Nat) : List Uchar :=
  (if n = 0 then [0] else Nat.digits base n).reverse.map digitChar

def decimal (v : Int) : List Uchar :=
  (if v < 0 then [minus] else []) ++ numeral 10 v.natAbs

def digitValue (c : Uchar) : Nat := (cstr "0123456789abcdef").idxOf c

def readHex (s : List Uchar) : Nat := s.foldl (fun n c => 16 * n + digitValue c) 0

theorem digitValue_digitChar : ∀ d < 16, digitValue (digitChar d) = d := by decide

theorem readHex_numeral (n : Nat) : readHex (numeral 16 n) = n := by
  have value : ∀ l : List Nat, (∀ d ∈ l, d < 16) →
      readHex (l.reverse.map digitChar) = Nat.ofDigits 16 l := by
    intro l
    induction l with
    | nil => intro _; rfl
    | cons d l ih =>
      intro small
      have rest := ih fun e member => small e (List.mem_cons_of_mem d member)
      rw [List.reverse_cons, List.map_append, readHex, List.foldl_append, ← readHex, rest,
        Nat.ofDigits_cons]
      show 16 * _ + digitValue (digitChar d) = _
      rw [digitValue_digitChar d (small d List.mem_cons_self)]
      omega
  rw [numeral]
  split
  · rename_i zero
    rw [zero]
    rfl
  · rw [value _ fun d member => Nat.digits_lt_base (by decide) member, Nat.ofDigits_digits]

variable {n : Nat} {v : CInt}

theorem head_numeral (nonzero : n ≠ 0) : (numeral 16 n).head? ≠ some (digitChar 0) := by
  have last := Nat.getLast_digit_ne_zero 16 nonzero
  rw [numeral, if_neg nonzero, List.head?_map, List.head?_reverse,
    List.getLast?_eq_getLast_of_ne_nil (Nat.digits_ne_nil_iff_ne_zero.mpr nonzero)]
  intro same
  have value := congrArg digitValue (Option.some.inj same)
  rw [digitValue_digitChar _ (Nat.digits_lt_base (by decide) (List.getLast_mem _)),
    digitValue_digitChar 0 (by decide)] at value
  exact last value

/-! ## The loops -/

section Nonnegative

variable {w : Nat} {x y : BitVec w} (left : x.msb = false) (right : y.msb = false)

include left right

theorem toNat_sdiv_of_nonneg : (x.sdiv y).toNat = x.toNat / y.toNat := by
  rw [BitVec.sdiv_eq, left, right]
  rfl

theorem toNat_srem_of_nonneg : (x.srem y).toNat = x.toNat % y.toNat := by
  rw [BitVec.srem_eq, left, right]
  rfl

end Nonnegative

theorem itoaLoop_eq (room : Nat) (val : CInt) (nonneg : 0 ≤ val.toInt)
    (fits : val.toNat < 10 ^ room) :
    itoaLoop room val = (Nat.digits 10 val.toNat).map digitChar := by
  induction room generalizing val with
  | zero =>
    rw [show val.toNat = 0 by omega]
    rfl
  | succ room ih =>
    rw [itoaLoop]
    split
    · rename_i positive
      have msb : val.msb = false := by
        rw [BitVec.msb_eq_toInt]
        exact decide_eq_false (by omega)
      have quotient : (val.sdiv 10).toNat = val.toNat / 10 := toNat_sdiv_of_nonneg msb rfl
      have digit : (val.srem 10).toNat = val.toNat % 10 := toNat_srem_of_nonneg msb rfl
      have toInt : val.toInt = val.toNat := BitVec.toInt_eq_toNat_of_msb msb
      rw [Nat.digits_def' (by decide) (by omega), List.map_cons, digit, ih _ ?_ ?_, quotient]
      · rw [BitVec.toInt_eq_toNat_cond, quotient]
        have := val.isLt
        split <;> omega
      · rw [quotient]
        omega
    · rename_i zero
      have : val.toNat = 0 := by
        rw [BitVec.toInt_eq_toNat_cond] at zero nonneg
        split at zero <;> split at nonneg <;> omega
      rw [this]
      rfl

theorem itoxLoop_eq (room : Nat) (val : Uint) (fits : val.toNat < 16 ^ room) :
    itoxLoop room val = (Nat.digits 16 val.toNat).map digitChar := by
  induction room generalizing val with
  | zero =>
    rw [show val.toNat = 0 by omega]
    rfl
  | succ room ih =>
    rw [itoxLoop]
    split
    · rename_i positive
      have nonzero : 0 < val.toNat := positive
      rw [Nat.digits_def' (by decide) nonzero, List.map_cons, ih _ (by simp; omega)]
      rfl
    · rename_i zero
      have : val.toNat = 0 := Nat.eq_zero_of_not_pos zero
      rw [this]
      rfl

theorem print_dLoop_ends {x : BitVec 64} (nonneg : x.msb = false) (small : x.toNat < 10) :
    x.sdiv 10 = 0 := by
  apply BitVec.eq_of_toNat_eq
  rw [toNat_sdiv_of_nonneg nonneg rfl]
  exact Nat.div_eq_of_lt small

theorem digits_of_small (small : n < 10) :
    (if n = 0 then [0] else Nat.digits 10 n) = [n] := by
  split
  · rename_i zero
    rw [zero]
  · rename_i nonzero
    exact Nat.digits_of_lt 10 n nonzero small

theorem print_dLoop_eq (room : Nat) (x : BitVec 64) (nonneg : x.msb = false)
    (fits : x.toNat < 10 ^ (room + 1)) :
    print_dLoop (room + 1) x = some ((if x.toNat = 0 then [0] else Nat.digits 10 x.toNat).map
      digitChar) := by
  induction room generalizing x with
  | zero =>
    have small : x.toNat < 10 := by simpa using fits
    have digit : (x.srem 10).toNat = x.toNat % 10 := toNat_srem_of_nonneg nonneg rfl
    rw [print_dLoop, if_neg (by simpa using print_dLoop_ends nonneg small), digit,
      Nat.mod_eq_of_lt small, digits_of_small small]
    rfl
  | succ room ih =>
    have quotient : (x.sdiv 10).toNat = x.toNat / 10 := toNat_sdiv_of_nonneg nonneg rfl
    have digit : (x.srem 10).toNat = x.toNat % 10 := toNat_srem_of_nonneg nonneg rfl
    rw [print_dLoop, digit]
    by_cases small : x.toNat < 10
    · rw [if_neg (by simpa using print_dLoop_ends nonneg small), Nat.mod_eq_of_lt small,
        digits_of_small small]
      rfl
    · have more : x.sdiv 10 ≠ 0 := by
        intro zero
        rw [zero] at quotient
        have : (0 : BitVec 64).toNat = 0 := rfl
        omega
      have msb : (x.sdiv 10).msb = false := by
        rw [BitVec.msb_eq_false_iff_two_mul_lt] at nonneg ⊢
        omega
      rw [if_pos more, ih _ msb (by rw [quotient]; omega), quotient, if_neg (by omega),
        if_neg (by omega), Nat.digits_def' (by decide : 1 < 10) (by omega : 0 < x.toNat)]
      rfl

/-! ## The numbers -/

theorem numeral_ne_nil (base n : Nat) : numeral base n ≠ [] := by
  rw [numeral]
  split
  · simp
  · rename_i nonzero
    simpa [Nat.digits_eq_nil_iff_eq_zero] using nonzero

/-- An `int` is the number of its absolute value, with the sign taken off in 32 bits for
every value but the smallest, and in 64 bits for every value. -/
theorem natAbs_of_nonneg (nonneg : 0 ≤ v.toInt) : v.toNat = v.toInt.natAbs := by
  rw [BitVec.toInt_eq_toNat_cond] at nonneg ⊢
  have := v.isLt
  split at nonneg <;> split <;> omega

theorem natAbs_of_neg (neg : v.toInt < 0) : (-v).toNat = v.toInt.natAbs := by
  rw [BitVec.toNat_neg]
  rw [BitVec.toInt_eq_toNat_cond] at neg ⊢
  have := v.isLt
  split at neg <;> split <;> omega

theorem neg_nonneg (neg : v.toInt < 0) (other : v ≠ BitVec.intMin 32) :
    0 ≤ (-v).toInt := by
  have value := natAbs_of_neg neg
  have differs : v.toNat ≠ 2 ^ 31 := fun same => other (BitVec.eq_of_toNat_eq same)
  rw [BitVec.toInt_eq_toNat_cond] at neg ⊢
  rw [BitVec.toInt_eq_toNat_cond] at value
  have := v.isLt
  split at neg <;> split <;> omega

theorem natAbs_lt (v : CInt) : v.toInt.natAbs < 10 ^ 10 := by
  have := v.isLt
  rw [BitVec.toInt_eq_toNat_cond]
  split <;> omega

theorem numeral_eq {base : Nat} (nonzero : n ≠ 0) :
    numeral base n = ((Nat.digits base n).map digitChar).reverse := by
  rw [numeral, if_neg nonzero, List.map_reverse]

theorem itoa_eq (other : v ≠ BitVec.intMin 32) : itoa v = decimal v.toInt := by
  have bound := natAbs_lt v
  unfold itoa decimal
  by_cases neg : v.toInt < 0
  · have value := natAbs_of_neg neg
    have nonzero : -v ≠ 0 := by
      intro zero
      rw [zero] at value
      simp at value
      omega
    have loop := itoaLoop_eq 15 (-v) (neg_nonneg neg other) (by omega)
    have short : (Nat.digits 10 v.toInt.natAbs).length ≤ 10 :=
      (Nat.digits_length_le_iff (by decide) _).mpr bound
    rw [value] at loop
    simp only [neg, if_true, nonzero, if_false, loop, List.length_map]
    rw [if_pos ⟨trivial, by omega⟩, List.reverse_append, numeral_eq (by omega)]
    rfl
  · have value := natAbs_of_nonneg (not_lt.mp neg)
    simp only [neg, if_false, false_and, List.nil_append]
    split
    · rename_i zero
      rw [zero]
      rfl
    · rename_i nonzero
      have differs : v.toNat ≠ 0 := fun zero => nonzero (BitVec.eq_of_toNat_eq zero)
      rw [itoaLoop_eq 15 v (not_lt.mp neg) (by omega), value, numeral_eq (by omega)]

theorem itoa_intMin : itoa (BitVec.intMin 32) ≠ decimal (BitVec.intMin 32).toInt := by
  have short : itoa (BitVec.intMin 32) = [minus] := by decide
  have sign : decimal (BitVec.intMin 32).toInt =
      minus :: numeral 10 (BitVec.intMin 32).toInt.natAbs := rfl
  rw [short, sign]
  intro same
  exact numeral_ne_nil _ _ (List.cons.inj same).2.symm

theorem print_d_eq (v : CInt) : print_d v = some (decimal v.toInt) := by
  have bound := natAbs_lt v
  have wide : (v.signExtend 64).toInt = v.toInt := BitVec.toInt_signExtend_of_le (by decide)
  set x : BitVec 64 := if v.toInt < 0 then -v.signExtend 64 else v.signExtend 64 with x_eq
  -- 64 bits hold the absolute value of every `int`
  have value : x.toNat = v.toInt.natAbs := by
    rw [x_eq]
    rw [BitVec.toInt_eq_toNat_cond] at wide
    have := (v.signExtend 64).isLt
    split
    · rw [BitVec.toNat_neg]
      split at wide <;> omega
    · split at wide <;> omega
  have loop := print_dLoop_eq 15 x (by rw [BitVec.msb_eq_false_iff_two_mul_lt]; omega) (by omega)
  have short : (if x.toNat = 0 then [0] else Nat.digits 10 x.toNat).length ≤ 10 := by
    rw [value]
    split
    · simp
    · exact (Nat.digits_length_le_iff (by decide) _).mpr bound
  have digits : ((if x.toNat = 0 then [0] else Nat.digits 10 x.toNat).map digitChar).reverse =
      numeral 10 v.toInt.natAbs := by
    rw [numeral, List.map_reverse, value]
  rw [print_d, ← x_eq, loop]
  unfold decimal
  simp only [Option.bind_eq_bind, Option.bind_some, List.length_map]
  split
  · rw [if_pos (by omega), List.reverse_append, digits]
    rfl
  · rw [digits]
    rfl

theorem itox_eq (x : Uint) : itox x = numeral 16 x.toNat := by
  rw [itox]
  split
  · rename_i zero
    rw [zero]
    rfl
  · rename_i nonzero
    have differs : x.toNat ≠ 0 := fun zero => nonzero (BitVec.eq_of_toNat_eq zero)
    rw [itoxLoop_eq 15 x (by have := x.isLt; omega), numeral_eq differs]

theorem length_itoaLoop_le (room : Nat) (val : CInt) : (itoaLoop room val).length ≤ room := by
  induction room generalizing val with
  | zero => exact le_rfl
  | succ room ih =>
    rw [itoaLoop]
    split
    · exact Nat.succ_le_succ (ih _)
    · exact Nat.zero_le _

theorem length_itoa_lt (v : CInt) : (itoa v).length < 16 := by
  simp only [itoa]
  generalize (if v.toInt < 0 then -v else v) = val
  have loop := length_itoaLoop_le 15 val
  by_cases zero : val = 0
  · rw [if_pos zero]
    decide
  · rw [if_neg zero, List.length_reverse]
    split
    · rw [List.length_append, List.length_singleton]
      omega
    · omega

theorem length_itox_lt (x : Uint) : (itox x).length < 16 := by
  have bound := x.isLt
  rw [itox_eq, numeral, List.length_map, List.length_reverse]
  split
  · decide
  · have := (Nat.digits_length_le_iff (k := 8) (by decide : 1 < 16) x.toNat).mpr (by omega)
    omega

/-- `itoa` and `print_d` write the same canonical number for every value but the smallest,
whose sign `itoa` cannot take off in 32 bits; `itox` is right for every value. -/
theorem itoa_agrees_iff (v : CInt) (x : Uint) :
    (itoa v = decimal v.toInt ∧ print_d v = some (decimal v.toInt) ∧ (itoa v).length < 16 ∧
      readHex (itox x) = x.toNat ∧ (x ≠ 0 → (itox x).head? ≠ some (digitChar 0)) ∧
      (itox x).length < 16) ↔ v ≠ BitVec.intMin 32 := by
  constructor
  · rintro ⟨canonical, -⟩ rfl
    exact itoa_intMin canonical
  · intro other
    have hex := itox_eq x
    refine ⟨itoa_eq other, print_d_eq v, length_itoa_lt v, ?_, ?_, length_itox_lt x⟩
    · rw [hex, readHex_numeral]
    · intro nonzero
      rw [hex]
      exact head_numeral fun zero => nonzero (BitVec.eq_of_toNat_eq zero)

theorem itoa_drops_smallest : ¬ (itoa 0x80000000 = decimal (0x80000000 : CInt).toInt ∧
      print_d 0x80000000 = some (decimal (0x80000000 : CInt).toInt) ∧
      (itoa 0x80000000).length < 16 ∧ readHex (itox 0) = (0 : Uint).toNat ∧
      ((0 : Uint) ≠ 0 → (itox 0).head? ≠ some (digitChar 0)) ∧ (itox 0).length < 16) := by
  rintro ⟨canonical, -⟩
  exact itoa_intMin canonical

end Xv6Tracing.Numbers
