import Mathlib
import Xv6Tracing.Exec.Failure

/-!
# What main is called with

The strings lie below one another from the top of the stack page on, and below them the
pointer array and a return address.  What was pushed first is not overwritten by what
comes later.
-/

set_option autoImplicit false

namespace Xv6Tracing.Exec

open Lib Vm Growproc Process

variable {argv : List CStr} {arg : CStr} {sp top i k ptr a : Nat} {image : Nat → Uchar}
  {byte : Uchar} {m : Machine}

/-! ## Where strings are -/

theorem argBytes_cons (arg : CStr) (argv : List CStr) :
    argBytes (arg :: argv) = arg.slot + argBytes argv := by
  simp [argBytes]

theorem argBytes_aligned (argv : List CStr) : argBytes argv % 8 = 0 := by
  induction argv with
  | nil => rfl
  | cons arg argv ih =>
    rw [argBytes_cons, CStr.slot]
    omega

theorem CStr.lt_slot (arg : CStr) : arg.bytes.length < arg.slot := by
  unfold CStr.slot
  omega

def CStr.span (arg : CStr) (start : Nat) : Set Nat := Set.Ico start (start + arg.bytes.length + 1)

theorem pointers_bounds : ∀ (argv : List CStr) (sp i : Nat), argBytes argv ≤ sp →
    (pointers sp argv)[i]? = some ptr → argv[i]? = some arg →
    sp ≤ ptr + argBytes argv ∧ ptr + arg.slot ≤ sp := by
  intro argv
  induction argv with
  | nil => intro sp i _ found; cases found
  | cons head argv ih =>
    intro sp i room found at_i
    rw [argBytes_cons] at room ⊢
    cases i with
    | zero =>
      cases found
      cases at_i
      omega
    | succ i =>
      have bounds := ih (sp - head.slot) i (by omega) found at_i
      omega

theorem spans_apart : ∀ (argv : List CStr) (sp : Nat), argBytes argv ≤ sp →
    (List.zipWith CStr.span argv (pointers sp argv)).Pairwise Disjoint ∧
      ∀ span ∈ List.zipWith CStr.span argv (pointers sp argv),
        span ⊆ Set.Ico (sp - argBytes argv) sp := by
  intro argv
  induction argv with
  | nil => exact fun _ _ => ⟨List.Pairwise.nil, nofun⟩
  | cons arg argv ih =>
    intro sp room
    rw [argBytes_cons] at room
    have inside := arg.lt_slot
    obtain ⟨apart, below⟩ := ih (sp - arg.slot) (by omega)
    have first : arg.span (sp - arg.slot) ⊆ Set.Ico (sp - arg.slot) sp :=
      Set.Ico_subset_Ico_right (by omega)
    refine ⟨List.pairwise_cons.mpr ⟨fun span member => ?_, apart⟩, fun span member => ?_⟩
    · refine Set.disjoint_left.mpr fun x here there => ?_
      have lower := (first here).1
      have upper := (below span member there).2
      omega
    · rw [argBytes_cons]
      rcases List.mem_cons.mp member with rfl | later
      · exact first.trans (Set.Ico_subset_Ico_left (by omega))
      · exact (below span later).trans (Set.Ico_subset_Ico (by omega) (by omega))

/-! ## What is read there -/

variable {bytes : List Uchar} {start : Nat}

theorem overwritten_outside
    (outside : a < start ∨ start + bytes.length ≤ a) : overwritten image start bytes a = image a :=
  if_neg fun inside => by omega

theorem overwritten_inside (here : bytes[k]? = some byte) :
    overwritten image start bytes (start + k) = byte := by
  have inside := (List.getElem?_eq_some_iff.mp here).1
  rw [overwritten, if_pos (by omega), Nat.add_sub_cancel_left, List.getD_eq_getElem?_getD, here]
  rfl

theorem pushedImage_above : ∀ (argv : List CStr) (image : Nat → Uchar) (sp : Nat),
    argBytes argv ≤ sp → sp ≤ a → pushedImage image sp argv a = image a := by
  intro argv
  induction argv with
  | nil => exact fun _ _ _ _ => rfl
  | cons arg argv ih =>
    intro image sp room above
    rw [argBytes_cons] at room
    have inside := arg.lt_slot
    rw [pushedImage, ih _ _ (by omega) (by omega)]
    refine overwritten_outside (Or.inr ?_)
    rw [List.length_append, List.length_singleton]
    omega

theorem pushedImage_string : ∀ (argv : List CStr) (image : Nat → Uchar) (sp i : Nat),
    argBytes argv ≤ sp → (pointers sp argv)[i]? = some ptr → argv[i]? = some arg →
    (arg.bytes ++ [0])[k]? = some byte → pushedImage image sp argv (ptr + k) = byte := by
  intro argv
  induction argv with
  | nil => intro image sp i _ found; cases found
  | cons head argv ih =>
    intro image sp i room found at_i here
    rw [argBytes_cons] at room
    cases i with
    | zero =>
      cases found
      cases at_i
      rw [pushedImage, pushedImage_above _ _ _ (by omega) (by omega)]
      exact overwritten_inside here
    | succ i => exact ih _ _ i (by omega) found at_i here

theorem flatMap_leBytes_get : ∀ (words : List AddrT) (i : Nat) {word : AddrT},
    words[i]? = some word → (leBytes word)[k]? = some byte →
    (words.flatMap leBytes)[8 * i + k]? = some byte := by
  intro words
  induction words with
  | nil => intro i _ found; cases found
  | cons head words ih =>
    intro i word found here
    rw [List.flatMap_cons]
    cases i with
    | zero => grind
    | succ i => grind [length_leBytes]

theorem finalImage_string (room : argBytes argv + 8 * (argv.length + 2) ≤ top)
    (found : (pointers top argv)[i]? = some ptr) (at_i : argv[i]? = some arg)
    (here : (arg.bytes ++ [0])[k]? = some byte) : finalImage image top argv (ptr + k) = byte := by
  have bounds := pointers_bounds argv top i (by omega) found at_i
  rw [finalImage, overwritten_outside (Or.inr (by rw [length_argArray]; omega))]
  exact pushedImage_string argv image top i (by omega) found at_i here

theorem finalImage_word {word : AddrT} (found : (argArray top argv)[i]? = some word)
    (here : (leBytes word)[k]? = some byte) :
    finalImage image top argv (top - argBytes argv - 8 * (argv.length + 2) + 8 * i + k) = byte := by
  rw [finalImage, Nat.add_assoc _ (8 * i) k]
  exact overwritten_inside (flatMap_leBytes_get _ i found here)

/-! ## The new program -/

def Reads (m : Machine) (va : Nat) (bytes : List Uchar) : Prop :=
  ∀ k byte, bytes[k]? = some byte → Accessible m.mem m.pgdir (BitVec.ofNat 64 (va + k)) ∧
    userByte m.mem m.pgdir (BitVec.ofNat 64 (va + k)) = byte

/-- The stack of a new program, for strings at `ptrs`. -/
structure ArgumentsPassed (m : Machine) (argv : List CStr) (ptrs : List AddrT) : Prop where
  argc : m.tf.rdi.toNat = argv.length
  count : ptrs.length = argv.length
  words : ∀ (i : Nat) (ptr : AddrT), ptrs[i]? = some ptr → Reads m (m.tf.rsi.toNat + 8 * i) (leBytes ptr)
  strings : ∀ (i : Nat) (ptr : AddrT) (arg : CStr), ptrs[i]? = some ptr → argv[i]? = some arg →
    Reads m ptr.toNat (arg.bytes ++ [0])
  null : Reads m (m.tf.rsi.toNat + 8 * argv.length) (leBytes 0)
  rsp : m.tf.rsp = m.tf.rsi - 8
  aligned : m.tf.rsp.toNat % 8 = 0
  returnAddress : Reads m m.tf.rsp.toNat (leBytes 0xffffffffffffffff)
  apart : (Set.Ico m.tf.rsp.toNat (m.tf.rsi.toNat + 8 * (argv.length + 1)) ::
    List.zipWith CStr.span argv (ptrs.map BitVec.toNat)).Pairwise Disjoint
  stack : ∀ span ∈ Set.Ico m.tf.rsp.toNat (m.tf.rsi.toNat + 8 * (argv.length + 1)) ::
    List.zipWith CStr.span argv (ptrs.map BitVec.toNat),
      span ⊆ Set.Ico (m.sz.toNat - 4096) m.sz.toNat
  guard : ∀ va : AddrT, m.sz.toNat ≤ va.toNat + 8192 → va.toNat + 4096 < m.sz.toNat →
    ¬ Accessible m.mem m.pgdir va

section Program

variable {elf : Elfhdr} {size : Nat} (installed : Installed m argv elf size image)
include installed

theorem Installed.reads {va : Nat} {bytes : List Uchar} (low : m.sz.toNat ≤ va + 4096)
    (high : va + bytes.length ≤ m.sz.toNat)
    (same : ∀ k byte, bytes[k]? = some byte → finalImage image m.sz.toNat argv (va + k) = byte) :
    Reads m va bytes := by
  intro k byte here
  have inside := (List.getElem?_eq_some_iff.mp here).1
  have small := installed.small
  have aligned := installed.sz
  have value : (BitVec.ofNat 64 (va + k)).toNat = va + k := by
    rw [BitVec.toNat_ofNat]
    omega
  have user : User (BitVec.ofNat 64 (va + k)) := by
    unfold User
    omega
  have readable : Accessible m.mem m.pgdir (BitVec.ofNat 64 (va + k)) := by
    refine (installed.accessible _ user).mpr ?_
    rw [vpn, pages, value]
    omega
  refine ⟨readable, ?_⟩
  rw [installed.bytes _ user readable.2.1, value]
  exact same k byte here

theorem Installed.readsWord {word : AddrT}
    (found : (argArray m.sz.toNat argv)[i]? = some word) :
    Reads m (m.tf.rsp.toNat + 8 * i) (leBytes word) := by
  have inside := (List.getElem?_eq_some_iff.mp found).1
  have length : (argArray m.sz.toNat argv).length = argv.length + 2 := by
    simp [argArray, length_pointers]
  have fits := installed.fits
  have rsp := installed.rsp
  have aligned := installed.sz
  refine installed.reads (by omega) (by rw [length_leBytes]; omega) fun k byte here => ?_
  rw [rsp]
  exact finalImage_word found here

theorem Installed.toNat_pointer (found : (pointers m.sz.toNat argv)[i]? = some ptr) :
    (BitVec.ofNat 64 ptr).toNat = ptr := by
  have inside := (List.getElem?_eq_some_iff.mp found).1
  rw [length_pointers] at inside
  have fits := installed.fits
  have small := installed.small
  have aligned := installed.sz
  have bounds := pointers_bounds argv m.sz.toNat i (by omega) found
    (List.getElem?_eq_getElem inside)
  rw [BitVec.toNat_ofNat]
  omega

theorem Installed.map_pointers :
    ((pointers m.sz.toNat argv).map (BitVec.ofNat 64)).map BitVec.toNat =
      pointers m.sz.toNat argv := by
  rw [List.map_map]
  refine (List.map_congr_left fun ptr member => ?_).trans (List.map_id' _)
  obtain ⟨i, found⟩ := List.mem_iff_getElem?.mp member
  exact installed.toNat_pointer found

theorem Installed.passed :
    ArgumentsPassed m argv ((pointers m.sz.toNat argv).map (BitVec.ofNat 64)) := by
  have fits := installed.fits
  have aligned := installed.sz
  have rsi := installed.rsi
  have rsp := installed.rsp
  have words := argBytes_aligned argv
  have below : m.tf.rsi.toNat = m.tf.rsp.toNat + 8 := by omega
  have shifted : ∀ i, m.tf.rsi.toNat + 8 * i = m.tf.rsp.toNat + 8 * (i + 1) := fun i => by omega
  obtain ⟨apart, inside⟩ := spans_apart argv m.sz.toNat (by omega)
  refine {
    argc := installed.rdi
    count := by rw [List.length_map, length_pointers]
    words := ?_, strings := ?_, null := ?_, rsp := ?_, aligned := ?_, returnAddress := ?_
    apart := ?_, stack := ?_, guard := ?_ }
  · intro i ptr found
    rw [shifted]
    refine installed.readsWord ?_
    rw [argArray, List.cons_append, List.getElem?_cons_succ, List.getElem?_append_left]
    · exact found
    · exact (List.getElem?_eq_some_iff.mp found).1
  · intro i ptr arg found at_i
    rw [List.getElem?_map] at found
    obtain ⟨start, at_start, rfl⟩ := Option.map_eq_some_iff.mp found
    have bounds := pointers_bounds argv m.sz.toNat i (by omega) at_start at_i
    have length := arg.lt_slot
    rw [installed.toNat_pointer at_start]
    refine installed.reads (by omega) ?_ fun k byte here => ?_
    · rw [List.length_append, List.length_singleton]
      omega
    · exact finalImage_string (by omega) at_start at_i here
  · rw [shifted]
    refine installed.readsWord ?_
    rw [argArray, List.cons_append, List.getElem?_cons_succ, List.getElem?_append_right]
    · simp [length_pointers]
    · simp [length_pointers]
  · bv_omega
  · omega
  · exact installed.readsWord (i := 0) rfl
  · rw [installed.map_pointers]
    refine List.pairwise_cons.mpr ⟨fun span member => ?_, apart⟩
    grind
  · rw [installed.map_pointers]
    grind
  · intro va lower upper readable
    have excluded := ((installed.accessible va readable.1).mp readable).2
    unfold vpn pages at excluded
    omega

end Program

/-- After a successful `exec` the new program finds its arguments on its stack. -/
theorem exec_passes_arguments (m m' : Machine) (roots free : List AddrT) (p : Fin NPROC)
    (read : Nat → Uint → Uint → Option (List Uchar)) (path : List Uchar) (argv : List CStr)
    (sane : Sane m roots free) (succeeded : exec p read path argv m = .ok (0, m')) :
    ∃ ptrs, ArgumentsPassed m' argv ptrs := by
  have ends := wp_ok (exec_spec sane p read path argv) succeeded
  generalize ret : (0 : CInt) = result at ends
  cases ends with
  | failed => exact absurd ret (by decide)
  | done _ _ _ _ _ _ _ _ _ installed => exact ⟨_, installed.passed⟩

/-- Two arguments, the first of which fills its words. -/
theorem exec_passes_arguments_two : ∃ m' ptrs,
    exec 0 readSegment (cstr "/a") [manyAs 7 (by decide), manyAs 1 (by decide)] newProcess =
        .ok (0, m') ∧ m'.tf.rdi = 2 ∧
      ArgumentsPassed m' [manyAs 7 (by decide), manyAs 1 (by decide)] ptrs := by
  obtain ⟨free, sane⟩ := newProcess_sane
  have succeeds : returns (exec 0 readSegment (cstr "/a") [manyAs 7 (by decide),
      manyAs 1 (by decide)]) newProcess (fun ret m' => decide (ret = 0 ∧ m'.tf.rdi = 2)) = true := by
    decide +kernel
  obtain ⟨ret, m', succeeded, result⟩ := exists_of_returns succeeds
  obtain ⟨rfl, rdi⟩ := of_decide_eq_true result
  obtain ⟨ptrs, passed⟩ := exec_passes_arguments newProcess m' _ free 0 readSegment _ _ sane succeeded
  exact ⟨m', ptrs, succeeded, rdi, passed⟩

end Xv6Tracing.Exec
