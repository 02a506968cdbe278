import Mathlib.Tactic
import Mathlib.Data.BitVec

/-!
# C data of the kernel

The integer types of `types.h`, NUL-terminated character arrays, and the string
routine of `string.c` the tracer copies names with.  An `int` and a `uint` are
both 32 bits; where the source reads one as signed, the model reads `toInt`.
-/

set_option autoImplicit false

namespace Xv6Tracing

abbrev Uchar := BitVec 8

abbrev Uint := BitVec 32

abbrev CInt := BitVec 32

abbrev AddrT := BitVec 64

def cstr (text : String) : List Uchar :=
  text.toList.map fun c => BitVec.ofNat 8 c.toNat

def le32 (word : BitVec 32) : List Uchar :=
  [word.extractLsb' 0 8, word.extractLsb' 8 8, word.extractLsb' 16 8, word.extractLsb' 24 8]

@[simp] theorem length_le32 (word : BitVec 32) : (le32 word).length = 4 := rfl

/-! ## NUL-terminated character arrays -/

/-- A `char[size]` that holds a C string: it always has a NUL byte. -/
structure CharBuf (size : Nat) where
  bytes : List Uchar
  length_eq : bytes.length = size
  terminated : 0 ∈ bytes
deriving DecidableEq

def cText (bytes : List Uchar) : List Uchar := bytes.takeWhile (· ≠ 0)

@[simp] theorem cText_nil : cText [] = [] := rfl

theorem cText_cons_zero (rest : List Uchar) : cText (0 :: rest) = [] := by
  simp [cText]

theorem cText_cons_of_ne (byte : Uchar) (rest : List Uchar) (nonzero : byte ≠ 0) :
    cText (byte :: rest) = byte :: cText rest := by
  simp only [cText]
  exact List.takeWhile_cons_of_pos (by simpa using nonzero)

def CharBuf.text {size : Nat} (buf : CharBuf size) : List Uchar := cText buf.bytes

theorem CharBuf.length_text_lt {size : Nat} (buf : CharBuf size) : buf.text.length < size := by
  have shorter : ∀ bytes : List Uchar, 0 ∈ bytes → (cText bytes).length < bytes.length := by
    intro bytes
    induction bytes with
    | nil => intro member; simp at member
    | cons byte rest ih =>
      intro member
      by_cases zero : byte = 0
      · rw [zero, cText_cons_zero]
        simp
      · have later : 0 ∈ rest := (List.mem_cons.mp member).resolve_left (Ne.symm zero)
        rw [cText_cons_of_ne byte rest zero]
        simpa using ih later
  have := shorter buf.bytes buf.terminated
  rwa [buf.length_eq] at this

/-- The copying loop of `safestrcpy` with `count` more characters allowed: after
the loop one more byte is set to NUL, also when the loop stopped on a NUL. -/
def safestrcpyLoop : Nat → List Uchar → List Uchar → List Uchar
  | _, [], _ => []
  | 0, _ :: dst, _ => 0 :: dst
  | count + 1, _ :: dst, src =>
    if src.headD 0 ≠ 0 then src.headD 0 :: safestrcpyLoop count dst src.tail
    else 0 :: match dst with
      | [] => []
      | _ :: dst => 0 :: dst

def safestrcpy (dst src : List Uchar) (count : Nat) : List Uchar :=
  if count = 0 then dst else safestrcpyLoop (count - 1) dst src

theorem length_safestrcpyLoop : ∀ (count : Nat) (dst src : List Uchar),
    (safestrcpyLoop count dst src).length = dst.length := by
  intro count dst
  induction dst generalizing count with
  | nil => intro src; cases count <;> simp [safestrcpyLoop]
  | cons byte dst ih =>
    intro src
    cases count with
    | zero => simp [safestrcpyLoop]
    | succ count =>
      by_cases zero : src.headD 0 = 0
      · cases dst <;> simp only [safestrcpyLoop, zero, ne_eq, not_true_eq_false, if_false,
          List.length_cons]
      · simp only [safestrcpyLoop, ne_eq, zero, not_false_eq_true, if_true,
          List.length_cons, ih]

theorem zero_mem_safestrcpyLoop : ∀ (count : Nat) (dst src : List Uchar),
    count < dst.length → 0 ∈ safestrcpyLoop count dst src := by
  intro count
  induction count with
  | zero =>
    intro dst src room
    cases dst with
    | nil => simp at room
    | cons byte dst => simp [safestrcpyLoop]
  | succ count ih =>
    intro dst src room
    cases dst with
    | nil => simp at room
    | cons byte dst =>
      by_cases zero : src.headD 0 = 0
      · simp only [safestrcpyLoop, zero, ne_eq, not_true_eq_false, if_false]
        exact List.mem_cons_self
      · simp only [safestrcpyLoop, ne_eq, zero, not_false_eq_true, if_true]
        exact List.mem_cons_of_mem _ (ih dst src.tail (by simpa using room))

/-- What the copy leaves in the destination, read back as a string. -/
theorem cText_safestrcpyLoop : ∀ (count : Nat) (dst src : List Uchar),
    count < dst.length → cText (safestrcpyLoop count dst src) = (cText src).take count := by
  intro count
  induction count with
  | zero =>
    intro dst src room
    cases dst with
    | nil => simp at room
    | cons byte dst => simp only [safestrcpyLoop, cText_cons_zero, List.take_zero]
  | succ count ih =>
    intro dst src room
    cases dst with
    | nil => simp at room
    | cons byte dst =>
      have smaller : count < dst.length := by simpa using room
      cases src with
      | nil =>
        simp only [safestrcpyLoop, List.headD_nil, ne_eq, not_true_eq_false, if_false,
          cText_cons_zero, cText_nil, List.take_nil]
      | cons c src =>
        by_cases zero : c = 0
        · simp only [safestrcpyLoop, List.headD_cons, zero, ne_eq, not_true_eq_false,
            if_false, cText_cons_zero, List.take_nil]
        · simp only [safestrcpyLoop, List.headD_cons, ne_eq, zero, not_false_eq_true,
            if_true, List.tail_cons]
          rw [cText_cons_of_ne _ _ zero, cText_cons_of_ne _ _ zero, ih dst src smaller,
            List.take_succ_cons]

/-- An array overwritten by `safestrcpy` with its own size: what is left of the
old contents stands after the NUL. -/
def CharBuf.fill {size : Nat} (dst : CharBuf (size + 1)) (src : List Uchar) :
    CharBuf (size + 1) where
  bytes := safestrcpy dst.bytes src (size + 1)
  length_eq := by simp [safestrcpy, length_safestrcpyLoop, dst.length_eq]
  terminated := by
    simp only [safestrcpy, Nat.add_one_ne_zero, if_false, Nat.add_sub_cancel]
    exact zero_mem_safestrcpyLoop _ _ _ (by simp [dst.length_eq])

theorem CharBuf.text_fill {size : Nat} (dst : CharBuf (size + 1)) (src : List Uchar) :
    (dst.fill src).text = (cText src).take size := by
  simp only [CharBuf.text, CharBuf.fill, safestrcpy, Nat.add_one_ne_zero, if_false,
    Nat.add_sub_cancel]
  exact cText_safestrcpyLoop _ _ _ (by simp [dst.length_eq])

def CharBuf.cleared (size : Nat) : CharBuf (size + 1) where
  bytes := List.replicate (size + 1) 0
  length_eq := List.length_replicate
  terminated := by simp

/-- A cleared array filled by `safestrcpy`, as the tracer fills names. -/
def CharBuf.copy (size : Nat) (src : List Uchar) : CharBuf (size + 1) :=
  (CharBuf.cleared size).fill src

theorem CharBuf.text_copy (size : Nat) (src : List Uchar) :
    (CharBuf.copy size src).text = (cText src).take size :=
  CharBuf.text_fill _ src

/-- Copying one array's string to a second one of the same size loses nothing. -/
theorem CharBuf.text_copy_buf (size : Nat) (buf : CharBuf (size + 1)) :
    (CharBuf.copy size buf.bytes).text = buf.text := by
  rw [CharBuf.text_copy]
  have short := buf.length_text_lt
  exact List.take_of_length_le (Nat.lt_succ_iff.mp short)

end Xv6Tracing
