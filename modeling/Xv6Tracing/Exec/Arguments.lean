import Xv6Tracing.Exec.Stack

/-!
# Pushing arguments

Each argument string takes a whole number of words below the one before it.  All of them
go to the stack page, or `exec` gives up.
-/

set_option autoImplicit false

namespace Xv6Tracing.Exec

open Lib Vm Growproc

/-! ## Where strings go -/

def CStr.slot (arg : CStr) : Nat := (arg.bytes.length + 8) / 8 * 8

def argBytes (argv : List CStr) : Nat := (argv.map CStr.slot).sum

/-- The addresses of strings that are pushed below `sp`. -/
def pointers : Nat → List CStr → List Nat
  | _, [] => []
  | sp, arg :: argv => (sp - arg.slot) :: pointers (sp - arg.slot) argv

/-- The image after strings were pushed below `sp`. -/
def pushedImage : (Nat → Uchar) → Nat → List CStr → Nat → Uchar
  | image, _, [] => image
  | image, sp, arg :: argv =>
    pushedImage (overwritten image (sp - arg.slot) (arg.bytes ++ [0])) (sp - arg.slot) argv

theorem toNat_and_not_seven (x : AddrT) : (x &&& ~~~7).toNat = x.toNat / 8 * 8 := by
  have low : (x &&& 7 : AddrT).toNat = x.toNat % 8 := by
    rw [BitVec.toNat_and]
    exact Nat.and_two_pow_sub_one_eq_mod x.toNat 3
  have whole := masked_add x 7
  generalize x &&& ~~~(7 : AddrT) = high at whole ⊢
  generalize x &&& (7 : AddrT) = rest at whole low
  bv_omega

theorem CStr.toNat_strlen_succ (arg : CStr) :
    ((arg.strlen + 1).signExtend 64).toNat = arg.bytes.length + 1 := by
  have short := arg.short
  have value : (arg.strlen + 1).toNat = arg.bytes.length + 1 := by
    have one : (1 : CInt).toNat = 1 := rfl
    rw [CStr.strlen, BitVec.toNat_add, BitVec.toNat_ofNat, one]
    omega
  have positive : (arg.strlen + 1).msb = false := by
    rw [BitVec.msb_eq_false_iff_two_mul_lt, value]
    omega
  rw [BitVec.signExtend_eq_setWidth_of_msb_false positive, BitVec.toNat_setWidth, value]
  omega

/-- `(sp - (strlen(arg) + 1)) & ~(sizeof(addr_t)-1)` -/
def CStr.below (arg : CStr) (sp : AddrT) : AddrT :=
  (sp - (arg.strlen + 1).signExtend 64) &&& ~~~7

variable {sp : AddrT} {arg : CStr}

theorem CStr.toNat_below (aligned : sp.toNat % 8 = 0) (room : arg.bytes.length + 1 ≤ sp.toNat) :
    arg.slot ≤ sp.toNat ∧ (arg.below sp).toNat = sp.toNat - arg.slot := by
  have bound := sp.isLt
  rw [CStr.below, toNat_and_not_seven, BitVec.toNat_sub, CStr.toNat_strlen_succ, CStr.slot]
  omega

theorem CStr.below_wraps (small : sp.toNat < 2 ^ 30)
    (short : sp.toNat < arg.bytes.length + 1) : 2 ^ 64 - 2 ^ 39 ≤ (arg.below sp).toNat := by
  have bound := arg.short
  rw [CStr.below, toNat_and_not_seven, BitVec.toNat_sub, CStr.toNat_strlen_succ]
  omega

/-! ## The loop -/

section Push

variable {s : Memory} {free free' : List AddrT} {r sz : AddrT} {α : Type}

variable {m : Machine}

variable {exc : Stop → Prop} {post : α → Machine → Prop} {t : Memory} {image : Nat → Uchar}
    {ustack : List AddrT} {sp : AddrT} {argv : List CStr}

theorem wp_onCopy {call : CopyM α} :
    wp (onCopy call) m post exc ↔
      wp call m.mem (fun a t => post a { m with mem := t }) fun e => exc (.copy e) := wp_zoom

theorem wp_onVm {call : VmM α} :
    wp (onVm call) m post exc ↔
      wp call m.mem (fun a t => post a { m with mem := t }) fun e => exc (.vm e) := wp_zoom

structure PushEnd (s : Memory) (free free' : List AddrT) (r sz : AddrT) (m : Machine)
    (argv : List CStr) (sp : AddrT) (ustack : List AddrT) (image : Nat → Uchar)
    (res : Option (AddrT × List AddrT)) (m' : Machine) : Prop where
  others : m' = { m with mem := m'.mem }
  staged : ∃ image', Staged s m'.mem free free' r sz image' ∧ ∀ sp' ustack',
    res = some (sp', ustack') → image' = pushedImage image sp.toNat argv
  stack : ∀ sp' ustack', res = some (sp', ustack') → sz.toNat ≤ sp'.toNat + 4096 ∧
    sp'.toNat + argBytes argv = sp.toNat ∧
      ustack'.map BitVec.toNat = ustack.map BitVec.toNat ++ pointers sp.toNat argv ∧
        ustack'.length ≤ MAXARG

theorem Staged.pushFails {image₀ : Nat → Uchar} (staged : Staged s t free free' r sz image) :
    PushEnd s free free' r sz m argv sp ustack image₀ none { m with mem := t } :=
  ⟨rfl, ⟨image, staged, nofun⟩, nofun⟩

theorem PushEnd.cons {m' : Machine} {arg : CStr} {next : AddrT} {image' : Nat → Uchar} {res : Option (AddrT × List AddrT)} (room : arg.slot ≤ sp.toNat) (next_eq : next.toNat = sp.toNat - arg.slot)
    (image_eq : image' = overwritten image next.toNat (arg.bytes ++ [0]))
    (rest : PushEnd s free free' r sz { m with mem := t } argv next (ustack ++ [next]) image' res m') :
    PushEnd s free free' r sz m (arg :: argv) sp ustack image res m' := by
  obtain ⟨others, ⟨last, staged, images⟩, stack⟩ := rest
  refine ⟨others, ⟨last, staged, fun sp' ustack' found => ?_⟩, fun sp' ustack' found => ?_⟩
  · rw [images sp' ustack' found, image_eq, pushedImage, next_eq]
  · obtain ⟨above, total, list, few⟩ := stack sp' ustack' found
    refine ⟨above, ?_, ?_, few⟩
    · have sum : argBytes (arg :: argv) = arg.slot + argBytes argv := by simp [argBytes]
      omega
    · rw [list, List.map_append, List.append_assoc, pointers, next_eq]
      simp [next_eq]

theorem pushArgs_spec : ∀ (argv : List CStr) (sp : AddrT) (ustack : List AddrT)
    (image : Nat → Uchar) (m : Machine), Staged s m.mem free free' r sz image →
    sp.toNat % 8 = 0 → sp.toNat ≤ sz.toNat → sz.toNat ≤ sp.toNat + 4096 →
    ustack.length ≤ MAXARG →
    wp (pushArgs r argv sp ustack) m (PushEnd s free free' r sz m argv sp ustack image)
      fun _ => True := by
  intro argv
  induction argv with
  | nil =>
    intro sp ustack image m staged _ _ above few
    refine ⟨rfl, ⟨image, staged, fun _ _ _ => rfl⟩, fun sp' ustack' found => ?_⟩
    cases found
    exact ⟨above, by simp [argBytes], by simp [pointers], few⟩
  | cons arg argv ih =>
    intro sp ustack image m staged aligned inside above few
    rw [pushArgs]
    by_cases many : MAXARG ≤ ustack.length
    · rw [if_pos many]
      exact staged.pushFails
    rw [if_neg many, wp_bind, wp_onCopy]
    change wp (copyout r (arg.below sp) (arg.bytes ++ [0])) m.mem _ _
    have small := staged.size_lt
    have nonempty : arg.bytes ++ [0] ≠ [] := by simp
    have length : (arg.bytes ++ [0]).length = arg.bytes.length + 1 := by simp
    by_cases room : arg.bytes.length + 1 ≤ sp.toNat
    · obtain ⟨fits, value⟩ := CStr.toNat_below aligned room
      have slot : arg.bytes.length + 1 ≤ arg.slot ∧ arg.slot < arg.bytes.length + 9 := by
        unfold CStr.slot
        omega
      have spec : wp (copyout r (arg.below sp) (arg.bytes ++ [0])) m.mem
          (Copied m.mem r (arg.below sp) (arg.bytes ++ [0])) fun _ => False :=
        staged.copyout_spec (by omega)
      refine wp_conseq spec ?_ fun _ => False.elim
      intro ret t copied
      obtain ⟨image', after, success⟩ := staged.copied copied
      by_cases low : (arg.below sp).toNat + 4096 < sz.toNat
      · have failed : ret = -1 := staged.copied_guard copied (by omega) low nonempty (by omega)
        rw [failed]
        exact after.pushFails
      · have done : ret = 0 := staged.copied_top copied (by omega) (by omega)
        rw [done]
        refine wp_mono (ih (arg.below sp) _ image' { m with mem := t } after ?_ (by omega) (by omega)
          ?_) fun res m' rest => rest.cons fits value (success done)
        · rw [CStr.below, toNat_and_not_seven]
          omega
        · rw [List.length_append, List.length_singleton]
          omega
    · exact wp_conseq (staged.copyout_wraps (CStr.below_wraps (by omega) (by omega)) nonempty)
        (fun _ _ impossible => impossible) fun _ _ => trivial

end Push

end Xv6Tracing.Exec
