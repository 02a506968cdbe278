import Xv6Tracing.Exec.Program

/-!
# The stack of a new program

Above the loaded segments there are a guard page and one page of stack.  Strings are
copied to the stack from its top down.  A copy that does not fit comes to the guard page
and fails; one that would begin below address 0 reads through a null pointer.
-/

set_option autoImplicit false

namespace Xv6Tracing.Exec

open Lib Vm Growproc

variable {s t u : Memory} {free free' : List AddrT} {r sz va : AddrT} {frame : Nat → AddrT}
  {written : List AddrT} {image : Nat → Uchar} {low : Prop} {bytes : List Uchar} {ret : CInt}

/-- A complete address space of `sz` bytes, made from free pages of `s`: the second page
from the top is the guard page. -/
structure Staged (s t : Memory) (free free' : List AddrT) (r sz : AddrT) (image : Nat → Uchar) :
    Prop where
  sound : Sound t [r] free'
  usable : ∀ p ∈ free, Usable s.kend p
  kend : t.kend = s.kend
  balance : ∀ p, Owned t [r] p ∨ p ∈ free' ↔ p ∈ free
  kernel : ∀ i : BitVec 9, 256 ≤ i.toNat → t.page r i = rootRow s.kpdpt i
  kept : ∀ p, p ∉ free → p ≠ P2V 0 → t.page p = s.page p
  whole : sz.toNat = 4096 * pages sz
  top : 3 ≤ pages sz
  room : pages sz ≤ physPages + 1
  present : ∀ va, User va → (Present t r va ↔ 1 ≤ vpn va ∧ vpn va < pages sz)
  accessible : ∀ va, User va →
    (Accessible t r va ↔ (1 ≤ vpn va ∧ vpn va < pages sz) ∧ vpn va + 2 ≠ pages sz)
  bytes : ∀ va, User va → Present t r va → userByte t r va = image va.toNat

/-! ## The guard page -/

theorem user_newWord (q : AddrT) : newWord q &&& PTE_U ≠ 0 := by
  intro zero
  have bit := congrArg (fun w : AddrT => w.getLsbD 2) zero
  simp [newWord, PTE_W, PTE_U, PTE_P] at bit

theorem Loading.resize {sz' : AddrT} (loading : Loading s t free free' r sz frame written image low)
    (same : pages sz' = pages sz) : Loading s t free free' r sz' frame written image low := by
  obtain ⟨sound, usable, kend, suffix, used, start, room, mapped, frames, balance, kernel, kept,
    logged, bytes, blank⟩ := loading
  rw [← same] at used start room mapped frames logged bytes blank
  exact ⟨sound, usable, kend, suffix, used, start, room, mapped, frames, balance, kernel, kept,
    logged, bytes, blank⟩

/-- The loaded program with two more pages, of which `clearpteu` has closed the first. -/
theorem Loading.staged (loading : Loading s t free free' r sz frame written image low)
    (whole : sz.toNat = 4096 * pages sz) (top : 3 ≤ pages sz)
    (effect : Effect t u [r] free' free' [])
    (words : ∀ va, User va → pteWord u r va =
      if vpn va + 2 = pages sz then pteWord t r va &&& ~~~PTE_U else pteWord t r va) :
    Staged s u free free' r sz image := by
  have mapped : ∀ va, User va → (Present u r va ↔ 1 ≤ vpn va ∧ vpn va < pages sz) := by
    grind [Present, clear_user, present_newWord, Loading]
  have frames : ∀ va, User va → Present u r va → frameOf u r va = frame (vpn va) := by
    intro va user present
    obtain ⟨lower, upper⟩ := (mapped va user).mp present
    have address : PTE_ADDR (pteWord u r va) = PTE_ADDR (newWord (frame (vpn va))) := by
      grind [clear_user, Loading]
    rw [frameOf, address, (loading.frames _ lower upper).2.2]
  exact {
    sound := effect.sound
    usable := loading.usable
    kend := effect.consts.1.trans loading.kend
    balance := by
      intro p
      rw [effect.balance p, loading.balance p]
      simp
    kernel := by
      intro i upper
      rw [effect.kernel r List.mem_cons_self i upper, loading.kernel i upper]
    kept := by grind [loading.table, Loading, Effect]
    whole := whole
    top := top
    room := loading.room
    present := mapped
    accessible := by grind [Accessible, user_newWord, Loading]
    bytes := by
      intro va user present
      obtain ⟨lower, upper⟩ := (mapped va user).mp present
      have taken := (loading.frames _ lower upper).2.1
      rw [userByte, frames va user present,
        effect.rows _ (loading.not_table lower upper) taken taken,
        loading.bytes _ lower upper _ (by omega)]
      congr 1
      unfold vpn
      omega }

/-! ## Copies to the new address space -/

def overwritten (image : Nat → Uchar) (start : Nat) (bytes : List Uchar) (a : Nat) : Uchar :=
  if start ≤ a ∧ a < start + bytes.length then bytes.getD (a - start) 0 else image a

section Copies

variable (staged : Staged s t free free' r sz image)
include staged

theorem Staged.size_lt : sz.toNat < 2 ^ 30 := by
  have whole := staged.whole
  have room := staged.room
  unfold physPages at room
  omega

/-- Up to the top every page has its page table, the first page that of the second. -/
theorem Staged.has_table (below : va.toNat < sz.toNat) :
    User va ∧ follow (child t) r (tablePath va) ≠ none := by
  have small := staged.size_lt
  have whole := staged.whole
  have top := staged.top
  have mapped : ∀ va : AddrT, User va → 1 ≤ vpn va → vpn va < pages sz →
      follow (child t) r (tablePath va) ≠ none := by
    intro va user lower upper none
    have present := (staged.present va user).mpr ⟨lower, upper⟩
    unfold Present pteWord at present
    rw [none] at present
    exact present BitVec.zero_and
  have user : User va := by
    unfold User
    omega
  refine ⟨user, ?_⟩
  by_cases lower : 1 ≤ vpn va
  · refine mapped va user lower ?_
    unfold vpn
    omega
  · have second : tablePath va = tablePath 0x1000 := by
      have zero : vpn va = 0 := by omega
      have one : vpn 0x1000 = 1 := by decide
      simp only [tablePath, List.cons.injEq, ← BitVec.toNat_inj, toNat_PMX, toNat_PDPX, toNat_PDX,
        zero, one]
      decide
    rw [second]
    refine mapped 0x1000 ?_ ?_ ?_
    · exact (by decide : (0x1000 : AddrT).toNat < 2 ^ 47)
    · decide
    · have one : vpn 0x1000 = 1 := by decide
      omega

theorem Staged.walkable {len : Nat} (inside : va.toNat + len ≤ sz.toNat) :
    Walkable t r va len := by
  intro k less _
  have small := staged.size_lt
  refine staged.has_table ?_
  rw [toNat_byteAddr (by omega)]
  omega

theorem Staged.copyout_spec (inside : va.toNat + bytes.length ≤ sz.toNat) :
    wp (copyout r va bytes) t (Copied t r va bytes) fun _ => False :=
  copyoutLoop_spec List.mem_cons_self bytes.length t va bytes staged.sound (le_refl _)
    (staged.walkable inside)

theorem Staged.copied_top (copied : Copied t r va bytes ret u)
    (inside : va.toNat + bytes.length ≤ sz.toNat) (above : sz.toNat ≤ va.toNat + 4096) :
    ret = 0 := by
  cases copied with
  | all => rfl
  | part u k less refused _ =>
    have small := staged.size_lt
    have whole := staged.whole
    have top := staged.top
    have value : (byteAddr va k).toNat = va.toNat + k := toNat_byteAddr (by omega)
    refine absurd ((staged.accessible _ ?_).mpr ?_) refused
    · unfold User
      omega
    · unfold vpn
      omega

/-- A copy that begins below the top page and reaches the guard page fails. -/
theorem Staged.copied_guard (copied : Copied t r va bytes ret u)
    (inside : va.toNat + bytes.length ≤ sz.toNat) (below : va.toNat + 4096 < sz.toNat)
    (nonempty : bytes ≠ []) (reaches : sz.toNat < va.toNat + bytes.length + 8192) : ret = -1 := by
  cases copied with
  | part => rfl
  | all u pages =>
    have small := staged.size_lt
    have whole := staged.whole
    have some : 0 < bytes.length := List.length_pos_of_ne_nil nonempty
    obtain ⟨k, less, guard⟩ : ∃ k < bytes.length, (va.toNat + k) / 4096 + 2 = Vm.pages sz := by
      by_cases before : va.toNat + 8192 < sz.toNat
      · exact ⟨sz.toNat - 8192 - va.toNat, by omega, by omega⟩
      · exact ⟨0, some, by omega⟩
    have value : (byteAddr va k).toNat = va.toNat + k := toNat_byteAddr (by omega)
    have user : User (byteAddr va k) := by
      unfold User
      omega
    have outside := ((staged.accessible _ user).mp (pages k less)).2
    unfold vpn at outside
    rw [value] at outside
    exact absurd guard outside

/-- A copy to the top of the address range reads through a null pointer. -/
theorem Staged.copyout_wraps (high : 2 ^ 64 - 2 ^ 39 ≤ va.toNat) (nonempty : bytes ≠ [])
    {post : CInt → Memory → Prop} : wp (copyout r va bytes) t post fun fault => fault = .nullPte := by
  obtain ⟨byte, rest, rfl⟩ := List.exists_cons_of_ne_nil nonempty
  have last : (PMX (PGROUNDDOWN va)).toNat = 511 := by
    have bound := va.isLt
    rw [toNat_PMX, vpn, toNat_PGROUNDDOWN]
    omega
  have empty : child t r (PMX (PGROUNDDOWN va)) = none := by
    apply child_eq_none
    have other : PMX (PGROUNDDOWN va) ≠ 256 := by
      intro same
      rw [same] at last
      exact absurd last (by decide)
    rw [staged.kernel _ (by omega), rootRow, Function.update_of_ne other]
    exact BitVec.zero_and
  have missing : walked t r (PGROUNDDOWN va) = none := by
    rw [walked_eq, tablePath, follow, empty]
    rfl
  unfold copyout copyoutLoop
  dsimp only [List.length_cons]
  rw [wp_bind, wp_get]
  have fault : uva2ka (walked t r) (PGROUNDDOWN va) = .fault := by
    rw [uva2ka, missing]
  rw [fault]
  exact rfl

theorem Staged.copied (copied : Copied t r va bytes ret u) : ∃ image',
    Staged s u free free' r sz image' ∧ (ret = 0 → image' = overwritten image va.toNat bytes) := by
  have root : r ∈ [r] := List.mem_cons_self
  have touched : Touched t u r va bytes.length := by
    cases copied <;> assumption
  have own : ∀ p, u.page p ≠ t.page p → Owned t [r] p ∧ ¬ Table t [r] p := by
    intro p changed
    obtain ⟨k, -, ⟨user, present, -⟩, rfl⟩ := touched.pages p changed
    exact ⟨owned_frame root user present, staged.sound.frame_not_table root user present⟩
  have tables : ∀ p, Table t [r] p → u.page p = t.page p := by
    intro p table
    by_contra changed
    exact (own p changed).2 table
  have kend : u.kend = t.kend := touched.consts.2.1
  have words : ∀ va', User va' → pteWord u r va' = pteWord t r va' :=
    fun va' user => pteWord_of_tables tables root user
  have present : ∀ va', User va' → (Present u r va' ↔ Present t r va') := by
    intro va' user
    rw [Present, words va' user, Present]
  have after : ∀ image', (∀ va', User va' → Present u r va' → userByte u r va' = image' va'.toNat) →
      Staged s u free free' r sz image' := by
    intro image' bytes
    exact { staged with
      sound := by grind [staged.sound.keep, touched.consts.1, staged.sound.apart]
      kend := kend.trans staged.kend
      balance := fun p => by
        rw [(samePaths_of_tables tables).owned_iff]
        exact staged.balance p
      kernel := fun i upper => by
        rw [tables r ⟨r, root, [], userPath_nil, by decide, rfl⟩]
        exact staged.kernel i upper
      kept := by
        intro p other notZero
        rw [← staged.kept p other notZero]
        by_contra changed
        exact other ((staged.balance p).mp (Or.inl (own p changed).1))
      present := fun va' user => (present va' user).trans (staged.present va' user)
      accessible := fun va' user => by
        unfold Accessible
        rw [present va' user, words va' user]
        exact staged.accessible va' user
      bytes := bytes }
  cases copied with
  | all u _ _ holds =>
    refine ⟨overwritten image va.toNat bytes, after _ ?_, fun _ => rfl⟩
    intro va' user here
    have before := (present va' user).mp here
    rw [holds va' user before, staged.bytes va' user before]
    rfl
  | part u =>
    refine ⟨fun a => userByte u r (BitVec.ofNat 64 a), after _ ?_, fun zero => absurd zero (by decide)⟩
    intro va' _ _
    simp

end Copies

end Xv6Tracing.Exec
