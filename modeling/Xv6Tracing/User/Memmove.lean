import Xv6Tracing.Vm.Copyout

/-!
# The two copies of memmove

The kernel's `memmove` (`string.c`) copies downwards when the destination begins inside
the source; the user library's (`ulib.c`) always copies upwards.
-/

set_option autoImplicit false

namespace Xv6Tracing.Memmove

open Function (update)
open Vm (Mem)

def place (base : AddrT) (i : Nat) : AddrT := base + BitVec.ofNat 64 i

/-- `while(n-- > 0) *d++ = *s++;` -/
def copyUp (mem : Mem) (d s : AddrT) : Nat → Mem
  | 0 => mem
  | n + 1 => copyUp (update mem d (mem s)) (d + 1) (s + 1) n

/-- `while(n-- > 0) *--d = *--s;` -/
def copyDown (mem : Mem) (d s : AddrT) : Nat → Mem
  | 0 => mem
  | n + 1 => copyDown (update mem (d - 1) (mem (s - 1))) (d - 1) (s - 1) n

namespace Kernel

def memmove (mem : Mem) (dst src : AddrT) (n : Uint) : Mem :=
  if src < dst ∧ src + n.setWidth 64 > dst then
    copyDown mem (dst + n.setWidth 64) (src + n.setWidth 64) n.toNat
  else copyUp mem dst src n.toNat

end Kernel

namespace User

/-- `ulib.c`, where the length is an `int`. -/
def memmove (mem : Mem) (vdst vsrc : AddrT) (n : CInt) : Mem :=
  copyUp mem vdst vsrc n.toInt.toNat

end User

/-- The destination holds the bytes that the source held, and nothing else changed. -/
structure Moved (mem mem' : Mem) (dst src : AddrT) (n : Nat) : Prop where
  copied : ∀ i < n, mem' (place dst i) = mem (place src i)
  frame : ∀ a, (∀ i < n, a ≠ place dst i) → mem' a = mem a

/-- The source bytes repeat at the distance of a destination that begins inside the
source. -/
def Repeats (mem : Mem) (dst src : AddrT) (n : Nat) : Prop :=
  src < dst → ∀ i, dst.toNat + i < src.toNat + n → mem (place dst i) = mem (place src i)

variable {mem : Mem} {d s : AddrT} {n i j : Nat}

@[simp] theorem place_zero : place d 0 = d := by simp [place]

theorem place_succ (base : AddrT) : place base (i + 1) = place (base + 1) i := by
  simp only [place, BitVec.ofNat_add]
  ac_rfl

theorem place_eq_iff (left : s.toNat + i < 2 ^ 64) (right : d.toNat + j < 2 ^ 64) :
    place s i = place d j ↔ s.toNat + i = d.toNat + j := by
  have toNat : ∀ {b : AddrT} {k : Nat}, b.toNat + k < 2 ^ 64 → (place b k).toNat = b.toNat + k := by
    intro b k bound
    rw [place, BitVec.toNat_add, BitVec.toNat_ofNat, Nat.mod_eq_of_lt (by omega : k < 2 ^ 64),
      Nat.mod_eq_of_lt bound]
  rw [← BitVec.toNat_inj, toNat left, toNat right]

theorem place_shift (bound : d.toNat + i < 2 ^ 64) (above : s < d) :
    place s (d.toNat - s.toNat + i) = place d i := by
  have order : s.toNat < d.toNat := above
  rw [place_eq_iff (by omega) bound]
  omega

/-! ## Upwards -/

theorem copyUp_succ : copyUp mem d s (n + 1) =
    update (copyUp mem d s n) (place d n) (copyUp mem d s n (place s n)) := by
  induction n generalizing mem d s with
  | zero => simp [copyUp]
  | succ n ih =>
    rw [copyUp, ih, place_succ, place_succ]
    rfl

theorem copyUp_frame {a : AddrT} (outside : ∀ i < n, a ≠ place d i) :
    copyUp mem d s n a = mem a := by
  induction n with
  | zero => rfl
  | succ n ih =>
    rw [copyUp_succ, Function.update_of_ne (outside n n.lt_succ_self)]
    exact ih fun i below => outside i (by omega)

theorem copyUp_place (bound : d.toNat + n < 2 ^ 64) (below : i < n) :
    copyUp mem d s n (place d i) = copyUp mem d s i (place s i) := by
  induction n with
  | zero => omega
  | succ n ih =>
    rw [copyUp_succ]
    rcases Nat.lt_succ_iff_lt_or_eq.mp below with earlier | rfl
    · rw [Function.update_of_ne, ih (by omega) earlier]
      rw [Ne, place_eq_iff (by omega) (by omega)]
      omega
    · rw [Function.update_self]

/-- A turn that reads a byte stored by an earlier turn copies it once more. -/
theorem copyUp_again (bound : d.toNat + n < 2 ^ 64) (above : s < d)
    (inside : d.toNat + i < s.toNat + n) :
    copyUp mem d s n (place d (d.toNat - s.toNat + i)) = copyUp mem d s n (place d i) := by
  have order : s.toNat < d.toNat := above
  rw [copyUp_place bound (by omega), place_shift (by omega) above,
    copyUp_place (by omega) (by omega), copyUp_place bound (by omega)]

theorem copyUp_moved_iff (bound : d.toNat + n < 2 ^ 64) (source : s.toNat + n < 2 ^ 64) :
    Moved mem (copyUp mem d s n) d s n ↔ Repeats mem d s n := by
  constructor
  · intro moved above i inside
    have order : s.toNat < d.toNat := above
    rw [← moved.copied i (by omega), ← copyUp_again bound above inside,
      moved.copied _ (by omega), place_shift (by omega) above]
  · intro repeats
    refine ⟨fun i => ?_, fun a => copyUp_frame⟩
    -- a byte stored earlier in the destination is an earlier byte of the source
    induction i using Nat.strong_induction_on with
    | _ i ih =>
      intro below
      rw [copyUp_place bound below]
      by_cases stored : s < d ∧ d.toNat ≤ s.toNat + i
      · obtain ⟨above, reached⟩ := stored
        have order : s.toNat < d.toNat := above
        obtain ⟨k, rfl⟩ : ∃ k, i = d.toNat - s.toNat + k := ⟨i - (d.toNat - s.toNat), by omega⟩
        rw [place_shift (by omega) above, repeats above k (by omega), ← ih k (by omega) (by omega),
          copyUp_place (by omega) (by omega), copyUp_place bound (by omega)]
      · refine copyUp_frame fun j earlier => ?_
        rw [Ne, place_eq_iff (by omega) (by omega)]
        intro same
        exact stored ⟨show s.toNat < d.toNat by omega, by omega⟩

/-! ## Downwards -/

theorem place_pred (base : AddrT) : place base (n + 1) - 1 = place base n := by
  simp only [place, BitVec.ofNat_add]
  rw [← BitVec.add_assoc]
  exact BitVec.add_sub_cancel _ _

theorem copyDown_moved (bound : d.toNat + n < 2 ^ 64) (source : s.toNat + n < 2 ^ 64)
    (above : s < d) : Moved mem (copyDown mem (place d n) (place s n) n) d s n := by
  have order : s.toNat < d.toNat := above
  induction n generalizing mem with
  | zero => exact ⟨fun i below => absurd below (by omega), fun a _ => rfl⟩
  | succ n ih =>
    rw [copyDown, place_pred, place_pred]
    have rest := @ih (update mem (place d n) (mem (place s n))) (by omega) (by omega)
    constructor
    · intro i below
      rcases Nat.lt_succ_iff_lt_or_eq.mp below with earlier | rfl
      · rw [rest.copied i earlier, Function.update_of_ne]
        rw [Ne, place_eq_iff (by omega) (by omega)]
        omega
      · rw [rest.frame, Function.update_self]
        intro j smaller
        rw [Ne, place_eq_iff (by omega) (by omega)]
        omega
    · intro a outside
      rw [rest.frame a fun i below => outside i (by omega),
        Function.update_of_ne (outside n n.lt_succ_self)]

theorem Kernel.memmove_moved (dst src : AddrT) (n : Uint) (dstEnd : dst.toNat + n.toNat < 2 ^ 64)
    (srcEnd : src.toNat + n.toNat < 2 ^ 64) :
    Moved mem (Kernel.memmove mem dst src n) dst src n.toNat := by
  have width : n.setWidth 64 = BitVec.ofNat 64 n.toNat := by
    apply BitVec.eq_of_toNat_eq
    simp
  have last : (src + n.setWidth 64).toNat = src.toNat + n.toNat := by
    rw [width, BitVec.toNat_add, BitVec.toNat_ofNat, Nat.mod_eq_of_lt (by omega : n.toNat < 2 ^ 64),
      Nat.mod_eq_of_lt srcEnd]
  rw [Kernel.memmove]
  split
  · rename_i inside
    rw [width]
    exact copyDown_moved dstEnd srcEnd inside.1
  · rename_i apart
    refine (copyUp_moved_iff dstEnd srcEnd).mpr fun above i inside => absurd ⟨above, ?_⟩ apart
    show dst.toNat < (src + n.setWidth 64).toNat
    omega

/-- The kernel's `memmove` moves every range; the user library's one exactly those whose
bytes repeat where source and destination overlap upwards. -/
theorem memmove_moves_iff (mem : Mem) (dst src : AddrT) (n : Uint)
    (dstEnd : dst.toNat + n.toNat < 2 ^ 64) (srcEnd : src.toNat + n.toNat < 2 ^ 64) :
    (Moved mem (Kernel.memmove mem dst src n) dst src n.toNat ∧
      (0 ≤ n.toInt → Moved mem (User.memmove mem dst src n) dst src n.toNat)) ↔
      (0 ≤ n.toInt → Repeats mem dst src n.toNat) := by
  have user : 0 ≤ n.toInt →
      (Moved mem (User.memmove mem dst src n) dst src n.toNat ↔ Repeats mem dst src n.toNat) := by
    intro nonneg
    have count : n.toInt.toNat = n.toNat := by
      rw [BitVec.toInt_eq_toNat_of_msb, Int.toNat_natCast]
      rw [BitVec.toInt_eq_toNat_cond] at nonneg
      exact BitVec.msb_eq_false_iff_two_mul_lt.mpr (by omega)
    rw [User.memmove, count]
    exact copyUp_moved_iff dstEnd srcEnd
  constructor
  · rintro ⟨-, moved⟩ nonneg
    exact (user nonneg).mp (moved nonneg)
  · intro repeats
    exact ⟨Kernel.memmove_moved dst src n dstEnd srcEnd,
      fun nonneg => (user nonneg).mpr (repeats nonneg)⟩

/-- Memory whose bytes are the low bytes of their addresses. -/
def counting : Mem := fun a => a.setWidth 8

theorem memmove_moves_disjoint :
    (Moved counting (Kernel.memmove counting 0x2000 0x1000 2) 0x2000 0x1000 2 ∧
      (0 ≤ (2 : Uint).toInt →
        Moved counting (User.memmove counting 0x2000 0x1000 2) 0x2000 0x1000 2)) :=
  (memmove_moves_iff counting 0x2000 0x1000 2 (by decide) (by decide)).mpr
    fun _ _ i inside => absurd inside (by simp; omega)

theorem user_memmove_overlapping :
    ¬ (Moved counting (Kernel.memmove counting 0x1001 0x1000 2) 0x1001 0x1000 2 ∧
      (0 ≤ (2 : Uint).toInt →
        Moved counting (User.memmove counting 0x1001 0x1000 2) 0x1001 0x1000 2)) := by
  rintro ⟨-, moved⟩
  have second := (moved (by decide)).copied 1 (by decide)
  revert second
  decide

end Xv6Tracing.Memmove
