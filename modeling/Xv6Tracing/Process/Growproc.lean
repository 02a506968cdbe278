import Xv6Tracing.Exec.LoaderSafety

/-!
# Changing the size of a process

`growproc` of `proc.c` on the page tables of `vm.c`.  The size that `allocuvm` and
`deallocuvm` return is also their error code, and `sz + n` is a 64-bit sum.
-/

set_option autoImplicit false

namespace Xv6Tracing.Growproc

open Lib Vm Exec

/-- Memory and what `growproc` uses of `proc`. -/
structure Proc where
  mem : Memory
  pgdir : AddrT
  sz : AddrT

abbrev ProcM (α : Type) : Type := Prog Proc Halt α

def onMem {α : Type} (call : VmM α) : ProcM α := fun p =>
  match call p.mem with
  | .ok (x, mem) => .ok (x, { p with mem := mem })
  | .error e => .error e

/-- `proc->sz = sz; switchuvm(proc); return 0`: `switchuvm` loads the same page table
again. -/
def commit (sz : AddrT) : ProcM CInt := do
  modify fun p => { p with sz := sz }
  return 0

def growproc (n : BitVec 64) : ProcM CInt := do
  let p ← get
  if 0 < n.toInt then do
    let sz ← onMem (allocuvm p.pgdir p.sz (p.sz + n))
    if sz = 0 then return -1 else commit sz
  else if n.toInt < 0 then do
    let sz ← onMem (deallocuvm p.pgdir p.sz (p.sz + n))
    if sz = 0 then return -1 else commit sz
  else commit p.sz

/-! ## Address spaces -/

variable {s t : Memory} {roots free free' : List AddrT} {r sz newsz va : AddrT}

def frameOf (s : Memory) (r va : AddrT) : AddrT := P2V (PTE_ADDR (pteWord s r va))

def Present (s : Memory) (r va : AddrT) : Prop := pteWord s r va &&& PTE_P ≠ 0

/-- The mapped user pages are those from the second page up to `sz`, and their frames are
pages that the allocator manages. -/
structure AddressSpace (s : Memory) (roots free : List AddrT) (r sz : AddrT) : Prop where
  sound : Sound s roots free
  root : r ∈ roots
  kernel : KERNBASE < s.kend
  mapped : ∀ va, User va → (Present s r va ↔ 1 ≤ vpn va ∧ vpn va < pages sz)
  frames : ∀ va, User va → Present s r va → Usable s.kend (frameOf s r va)

section

variable (space : AddressSpace s roots free r sz)

include space

theorem AddressSpace.pages_le :
    pages sz ≤ 1 + physPages := by
  refine mapped_le space.sound space.root (fun va user lower upper => ?_) (by decide)
  have present := (space.mapped va user).mpr ⟨lower, upper⟩
  exact ⟨present, space.frames va user present⟩

theorem AddressSpace.sz_lt : sz.toNat < 2 ^ 30 := by
  have few := space.pages_le
  unfold pages physPages at few
  omega

theorem AddressSpace.address_ne_zero (user : User va)
    (present : Present s r va) : PTE_ADDR (pteWord s r va) ≠ 0 := by
  intro zero
  have usable := space.frames va user present
  rw [frameOf, zero] at usable
  have above := BitVec.le_def.mp usable.2.1
  have kernel := BitVec.lt_def.mp space.kernel
  have first : (P2V 0).toNat = KERNBASE.toNat := by decide
  omega

theorem AddressSpace.frame_apart (user : User va)
    (present : Present s r va) : frameOf s r va ∉ free ∧ ¬ Table s roots (frameOf s r va) :=
  ⟨space.sound.apart _ (owned_frame space.root user present),
    space.sound.frame_not_table space.root user present⟩

end

theorem space_setupkvm (sound : Sound s roots (r :: free)) (kernel : KERNBASE < s.kend) :
    AddressSpace (takenPage s r (rootRow s.kpdpt)) (r :: roots) free r PGSIZE := by
  have empty : ∀ va, User va → ¬ Present (takenPage s r (rootRow s.kpdpt)) r va := by
    intro va user present
    unfold Present pteWord at present
    cases found : follow (child (takenPage s r (rootRow s.kpdpt))) r (tablePath va) with
    | none =>
      rw [found] at present
      exact present BitVec.zero_and
    | some pgtab =>
      have root := ((follow_newRoot (userPath_tablePath user)).mp found).1
      exact absurd root (by simp [tablePath])
  refine ⟨sound_newRoot sound, List.mem_cons_self, kernel, fun va user => ?_,
    fun va user present => absurd present (empty va user)⟩
  have one : pages PGSIZE = 1 := by decide
  exact iff_of_false (empty va user) (by omega)

/-! ## What a call leaves -/

/-- The size is `newsz`, whose pages are mapped.  Pages below both sizes are as before,
new ones are cleared. -/
structure Resized (s t : Memory) (roots : List AddrT) (r sz newsz : AddrT) : Prop where
  space : ∃ free', AddressSpace t roots free' r newsz
  kept : ∀ va, User va → 1 ≤ vpn va → vpn va < min (pages sz) (pages newsz) →
    pteWord t r va = pteWord s r va ∧ t.page (frameOf t r va) = s.page (frameOf s r va)
  zero : ∀ va, User va → pages sz ≤ vpn va → vpn va < pages newsz →
    ∀ i, t.page (frameOf t r va) i = 0

section

variable (space : AddressSpace s roots free r sz)

include space

theorem AddressSpace.resized_refl :
    Resized s s roots r sz sz :=
  ⟨⟨free, space⟩, fun _ _ _ _ => ⟨rfl, rfl⟩, fun _ _ _ _ => by omega⟩

theorem AddressSpace.allocated {frame : Nat → AddrT}
    (some : 1 ≤ pages sz) (larger : pages sz ≤ pages newsz)
    (allocation : Allocation s t roots free free' r (pages sz) (pages newsz) frame) :
    Resized s t roots r sz newsz := by
  have effect := allocation.effect
  have words := allocation.words r space.root
  have old : ∀ va, User va → vpn va < pages sz → pteWord t r va = pteWord s r va := by
    intro va user below
    rw [words va user, if_neg (by omega)]
  have new : ∀ va, User va → pages sz ≤ vpn va → vpn va < pages newsz →
      pteWord t r va = newWord (frame (vpn va)) ∧ frameOf t r va = frame (vpn va) := by
    intro va user lower upper
    have word := (words va user).trans (if_pos ⟨rfl, lower, upper⟩)
    refine ⟨word, ?_⟩
    rw [frameOf, word]
    exact (allocation.frames _ lower upper).2.2.2
  have above : ∀ va, User va → pages newsz ≤ vpn va → pteWord t r va = pteWord s r va := by
    intro va user lower
    rw [words va user, if_neg (by omega)]
  refine ⟨⟨free', effect.sound, space.root, by rw [effect.consts.1]; exact space.kernel, ?_, ?_⟩,
    ?_, ?_⟩
  · grind [Present, present_newWord, AddressSpace]
  · intro va user present
    rw [effect.consts.1]
    by_cases inside : pages sz ≤ vpn va ∧ vpn va < pages newsz
    · rw [(new va user inside.1 inside.2).2]
      exact space.sound.usable _ (allocation.frames _ inside.1 inside.2).1
    · have same : pteWord t r va = pteWord s r va := by
        rw [words va user, if_neg (by omega)]
      rw [frameOf, same]
      refine space.frames va user ?_
      rwa [Present, ← same]
  · intro va user lower upper
    have below : vpn va < pages sz := by omega
    have same := old va user below
    obtain ⟨notFree, notTable⟩ := space.frame_apart user ((space.mapped va user).mpr ⟨lower, below⟩)
    refine ⟨same, ?_⟩
    rw [show frameOf t r va = frameOf s r va by rw [frameOf, same, frameOf]]
    exact effect.rows _ notTable notFree fun member => notFree (allocation.suffix.subset member)
  · intro va user lower upper i
    rw [(new va user lower upper).2, (allocation.frames _ lower upper).2.2.1]

theorem AddressSpace.deallocated
    (smaller : pages newsz ≤ pages sz)
    (deallocation : Deallocation s t roots free free' r (pages newsz) (pages sz)) :
    Resized s t roots r sz newsz := by
  have effect := deallocation.effect
  have words := deallocation.words r space.root
  have below : ∀ va, User va → vpn va < pages newsz → pteWord t r va = pteWord s r va := by
    intro va user upper
    rw [words va user, if_neg (by omega)]
  have gone : ∀ va, User va → pages newsz ≤ vpn va → ¬ Present t r va := by
    grind [Present, AddressSpace]
  have after : ∀ va, User va → (Present t r va ↔ 1 ≤ vpn va ∧ vpn va < pages newsz) := by
    grind [Present, AddressSpace]
  have frames : ∀ va, User va → Present t r va → frameOf t r va = frameOf s r va ∧
      Present s r va := by
    intro va user present
    have same := below va user ((after va user).mp present).2
    rw [frameOf, same, frameOf]
    refine ⟨rfl, ?_⟩
    rwa [Present, ← same]
  have result : AddressSpace t roots free' r newsz := by
    refine ⟨effect.sound, space.root, by rw [effect.consts.1]; exact space.kernel, after, ?_⟩
    grind [effect.consts.1, AddressSpace]
  refine ⟨⟨free', result⟩, ?_, fun va user lower upper => by omega⟩
  intro va user lower upper
  have inside : vpn va < pages newsz := by omega
  have present := (after va user).mpr ⟨lower, inside⟩
  obtain ⟨same, before⟩ := frames va user present
  obtain ⟨notFree, notTable⟩ := space.frame_apart user before
  refine ⟨below va user inside, ?_⟩
  rw [same]
  refine effect.rows _ notTable notFree ?_
  rw [← same]
  exact (result.frame_apart user present).1

end

/-! ## growproc -/

theorem wp_onMem {α : Type} {call : VmM α} {p : Proc} {post : α → Proc → Prop} {exc : Halt → Prop} :
    wp (onMem call) p post exc ↔ wp call p.mem (fun x t => post x { p with mem := t }) exc := by
  unfold wp onMem
  cases call p.mem with
  | error e => rfl
  | ok result => rfl

section Cases

variable {n : BitVec 64}

theorem ne_zero_of_toNat {x : AddrT} (nonzero : x.toNat ≠ 0) : x ≠ 0 := by
  rintro rfl
  exact nonzero rfl

theorem toNat_add_toInt (size : sz.toNat < 2 ^ 30) (stays : 0 ≤ (sz.toNat : Int) + n.toInt) :
    ((sz + n).toNat : Int) = sz.toNat + n.toInt := by
  have bound := n.isLt
  rw [BitVec.toInt_eq_toNat_cond] at stays ⊢
  rw [BitVec.toNat_add]
  split at stays <;> split <;> omega

theorem growproc_grows (space : AddressSpace s roots free r sz) (some : sz ≠ 0)
    (grows : 0 < n.toInt) (enough : 4 * (pages (sz + n) - pages sz) ≤ free.length) :
    wp (growproc n) ⟨s, r, sz⟩ (fun ret p => ret = 0 ∧ p.pgdir = r ∧
      (p.sz.toNat : Int) = sz.toNat + n.toInt ∧ Resized s p.mem roots r sz p.sz)
      fun _ => False := by
  have size := space.sz_lt
  have sum := toNat_add_toInt (n := n) size (by omega)
  have upper : n.toInt < 2 ^ 63 := BitVec.toInt_lt
  have nonempty : sz.toNat ≠ 0 := fun zero => some (BitVec.eq_of_toNat_eq zero)
  have kernel : KERNBASE.toNat = 2 ^ 64 - 2 ^ 47 := rfl
  have below : sz + n < KERNBASE := BitVec.lt_def.mpr (by omega)
  have first : 1 ≤ pages sz := by
    unfold pages
    omega
  have more : pages sz ≤ pages (sz + n) := by
    unfold pages
    omega
  have few := usable_length space.sound.nodup space.sound.usable
  have room := space.pages_le
  have bound : 4096 * (pages sz + free.length) ≤ 2 ^ 47 := by
    unfold physPages at few room
    omega
  have notLess : ¬ sz + n < sz := fun less => by
    have := BitVec.lt_def.mp less
    omega
  have nonzero : sz + n ≠ 0 := ne_zero_of_toNat (by omega)
  unfold growproc
  rw [wp_bind, wp_get, if_pos grows, wp_bind, wp_onMem]
  dsimp only
  refine wp_mono (allocuvm_spec space.sound space.root below (Or.inr bound)
    (fun short => absurd short (by omega)) ?_) ?_
  · rintro ⟨va, user, lower, -, present⟩
    have mapped := (space.mapped va user).mp present
    omega
  · rintro res t ⟨rfl, free', frame, allocation⟩
    rw [if_neg notLess, if_neg nonzero]
    exact ⟨rfl, rfl, sum, space.allocated first more allocation⟩

theorem deallocuvm_smaller (newsz : AddrT) (space : AddressSpace s roots free r sz)
    (smaller : newsz.toNat < sz.toNat) :
    wp (deallocuvm r sz newsz) s (fun res t => res = newsz ∧ Resized s t roots r sz newsz)
      fun _ => False := by
  have size := space.sz_lt
  have less : ¬ sz ≤ newsz := fun le => by
    have := BitVec.le_def.mp le
    omega
  refine wp_mono (deallocuvm_spec space.sound space.root (Or.inl (by omega)) ?_) ?_
  · rintro ⟨va, user, -, -, present, zero | unusable⟩
    · exact space.address_ne_zero user present zero
    · exact unusable (space.frames va user present)
  · rintro res t ⟨rfl, free', deallocation⟩
    rw [if_neg less]
    refine ⟨rfl, space.deallocated ?_ deallocation⟩
    unfold pages
    omega

section

variable (space : AddressSpace s roots free r sz)

include space

theorem growproc_shrinks (shrinks : n.toInt < 0)
    (stays : 0 < (sz.toNat : Int) + n.toInt) :
    wp (growproc n) ⟨s, r, sz⟩ (fun ret p => ret = 0 ∧ p.pgdir = r ∧
      (p.sz.toNat : Int) = sz.toNat + n.toInt ∧ Resized s p.mem roots r sz p.sz)
      fun _ => False := by
  have sum := toNat_add_toInt (n := n) space.sz_lt stays.le
  have nonzero : sz + n ≠ 0 := ne_zero_of_toNat (by omega)
  unfold growproc
  rw [wp_bind, wp_get, if_neg (by omega), if_pos shrinks, wp_bind, wp_onMem]
  dsimp only
  refine wp_conseq (deallocuvm_smaller (sz + n) space (by omega)) ?_ (fun _ => False.elim)
  rintro res t ⟨rfl, resized⟩
  rw [if_neg nonzero]
  exact ⟨rfl, rfl, sum, resized⟩

/-- All memory given back: the pages are gone, and the call fails. -/
theorem growproc_all (some : sz ≠ 0) (all : n = -sz) :
    wp (growproc n) ⟨s, r, sz⟩ (fun ret p => ret = -1 ∧ p.sz = sz ∧
      ∀ va, User va → ¬ Present p.mem r va) fun _ => False := by
  have size := space.sz_lt
  have nonempty : sz.toNat ≠ 0 := fun zero => some (BitVec.eq_of_toNat_eq zero)
  have negative : n.toInt < 0 := by
    rw [all, BitVec.toInt_neg, BitVec.toInt_eq_toNat_cond, if_pos (by omega)]
    rw [Int.bmod_def]
    omega
  have zero : sz + n = 0 := by
    rw [all, BitVec.add_right_neg]
    rfl
  unfold growproc
  rw [wp_bind, wp_get, if_neg (by omega), if_pos negative, wp_bind, wp_onMem]
  dsimp only
  refine wp_conseq (deallocuvm_smaller (sz + n) space ?_) ?_ (fun _ => False.elim)
  · rw [zero]
    exact Nat.pos_of_ne_zero nonempty
  · rintro res t ⟨rfl, resized⟩
    rw [if_pos zero]
    refine ⟨rfl, rfl, fun va user present => ?_⟩
    obtain ⟨free', after⟩ := resized.space
    have mapped := (after.mapped va user).mp present
    rw [zero] at mapped
    have none : pages 0 = 0 := by decide
    omega

/-- More than all memory given back: nothing happens, and the call succeeds. -/
theorem growproc_below (some : sz ≠ 0)
    (below : (sz.toNat : Int) + n.toInt < 0) :
    wp (growproc n) ⟨s, r, sz⟩ (fun ret p => ret = 0 ∧ p = ⟨s, r, sz⟩) fun _ => False := by
  have size := space.sz_lt
  have larger : sz ≤ sz + n := by
    have bound := n.isLt
    have least : -2 ^ 63 ≤ n.toInt := BitVec.le_toInt n
    rw [BitVec.toInt_eq_toNat_cond] at below least
    rw [BitVec.le_def, BitVec.toNat_add]
    split at below <;> omega
  unfold growproc
  rw [wp_bind, wp_get, if_neg (by omega), if_pos (by omega), wp_bind, wp_onMem, deallocuvm,
    if_pos larger, wp_pure, if_neg some]
  exact ⟨rfl, rfl⟩

end

end Cases

theorem tenPages_space : ∃ (s : Memory) (free : List AddrT) (r : AddrT),
    AddressSpace s [r] free r PGSIZE ∧ free.length = 9 :=
  ⟨_, _, _, space_setupkvm tenPagesList_sound (by decide +kernel), rfl⟩

section Sample

-- The elaborator is not to run the calls.
attribute [local irreducible] growproc

end Sample

end Xv6Tracing.Growproc
