import Xv6Tracing.Fs.Calls

/-!
# References and locks inside a call

While a call runs it holds references and locks of its own.  `Within base held locked s`
says that `s` is `base` with these on top: `base` has what the call has done so far, and
what it will leave behind once it has put every inode back.
-/

set_option autoImplicit false

namespace Xv6Tracing.Fs

open Lib Process Ftable

/-- An inode is cached once, and a valid copy agrees with an allocated inode. -/
structure CacheOk (s : FS) : Prop where
  unique : ∀ a b, 0 < (s.icache a).ref → 0 < (s.icache b).ref →
    (s.icache a).inum = (s.icache b).inum → a = b
  copy : ∀ a, 0 < (s.icache a).ref → (s.icache a).valid = true →
    (s.icache a).toAttr = (s.disk (s.icache a).inum).toAttr ∧ (s.icache a).type ≠ .free

abbrev Handle := Fin NINODE × Nat

def refsTo (held : Multiset Handle) (a : Fin NINODE) : Nat := held.countP fun h => h.1 = a

theorem refsTo_zero (a : Fin NINODE) : refsTo 0 a = 0 := Multiset.countP_zero _

theorem refsTo_cons_self (held : Multiset Handle) (a : Fin NINODE) (i : Nat) :
    refsTo ((a, i) ::ₘ held) a = refsTo held a + 1 := by
  simp [refsTo]

variable {a b : Fin NINODE} {i : Nat}

theorem refsTo_cons_of_ne (held : Multiset Handle) (i : Nat) (other : b ≠ a) :
    refsTo ((a, i) ::ₘ held) b = refsTo held b := by
  simp [refsTo, Ne.symm other]

theorem refsTo_pos {held : Multiset Handle} (mem : (a, i) ∈ held) :
    0 < refsTo held a := Multiset.countP_pos.mpr ⟨_, mem, rfl⟩

structure Within (base : FS) (held : Multiset Handle) (locked : Finset (Fin NINODE)) (s : FS) :
    Prop where
  files : s.files = base.files
  ninodes : s.ninodes = base.ninodes
  disk : s.disk = base.disk
  ref : ∀ a, (s.icache a).ref = (base.icache a).ref + refsTo held a
  kept : ∀ a, 0 < (base.icache a).ref → (s.icache a).inum = (base.icache a).inum
  keptValid : ∀ a, 0 < (base.icache a).ref → (base.icache a).valid = true →
    (s.icache a).valid = true
  handle : ∀ h ∈ held, (s.icache h.1).inum = h.2
  lock : ∀ a, (s.icache a).locked = true ↔ a ∈ locked
  lockValid : ∀ a ∈ locked, (s.icache a).valid = true
  lockHeld : ∀ a ∈ locked, ∃ i, (a, i) ∈ held
  cache : CacheOk s

def Referenced (base : FS) (inum : Nat) : Prop :=
  ∃ a, 0 < (base.icache a).ref ∧ (base.icache a).inum = inum

section Facts

variable {base s : FS} {held : Multiset Handle} {locked : Finset (Fin NINODE)}
  {a : Fin NINODE} {i : Nat}

section

variable (within : Within base held locked s)

include within

theorem Within.ref_pos (mem : (a, i) ∈ held) :
    0 < (s.icache a).ref := by
  have counted := refsTo_pos mem
  rw [within.ref]
  omega

theorem Within.origin (inUse : 0 < (s.icache a).ref) :
    Referenced base (s.icache a).inum ∨ (a, (s.icache a).inum) ∈ held := by
  by_cases positive : 0 < (base.icache a).ref
  · exact Or.inl ⟨a, positive, (within.kept a positive).symm⟩
  · rw [within.ref] at inUse
    have counted : 0 < refsTo held a := by omega
    obtain ⟨h, member, here⟩ := Multiset.countP_pos.mp counted
    right
    rw [← here, within.handle h member]
    exact member

theorem Within.not_held (zero : (s.icache a).ref = 0) :
    (base.icache a).ref = 0 ∧ ∀ h ∈ held, h.1 ≠ a := by
  rw [within.ref] at zero
  refine ⟨by omega, ?_⟩
  intro h member same
  have counted := refsTo_pos member
  rw [same] at counted
  omega

section

variable (mem : (a, i) ∈ held)

include mem

theorem Within.copy
    (isLocked : a ∈ locked) :
    (s.icache a).toAttr = (base.disk i).toAttr ∧ (base.disk i).type ≠ .free := by
  obtain ⟨same, typed⟩ := within.cache.copy a (within.ref_pos mem) (within.lockValid a isLocked)
  have inum : (s.icache a).inum = i := within.handle (a, i) mem
  rw [inum, within.disk] at same
  rw [same] at typed
  exact ⟨same, typed⟩

theorem Within.type
    (isLocked : a ∈ locked) : (s.icache a).type = (base.disk i).type := by
  rw [(within.copy mem isLocked).1]

theorem Within.dirents :
    s.dirents a = (base.disk i).dirents := by
  rw [FS.dirents, within.handle (a, i) mem, within.disk]

theorem Within.same_entry {b : Fin NINODE} (other : (b, i) ∈ held) : a = b :=
  within.cache.unique a b (within.ref_pos mem) (within.ref_pos other)
    ((within.handle _ mem).trans (within.handle _ other).symm)

theorem Within.base_entry
    (referenced : Referenced base i) : 0 < (base.icache a).ref := by
  obtain ⟨b, positive, inum⟩ := referenced
  have here : (s.icache b).inum = i := (within.kept b positive).trans inum
  have bPos : 0 < (s.icache b).ref := by rw [within.ref]; omega
  have same : b = a := within.cache.unique b a bPos (within.ref_pos mem)
    (here.trans (within.handle _ mem).symm)
  exact same ▸ positive

end

end

end Facts

/-! ## One cache entry changes -/

@[simp] theorem setInode_self (s : FS) (a : Fin NINODE) (ip : Inode) :
    (s.setInode a ip).icache a = ip := by simp [FS.setInode]

theorem setInode_of_ne (s : FS) (ip : Inode) (other : b ≠ a) :
    (s.setInode a ip).icache b = s.icache b := by simp [FS.setInode, other]

section Update

variable {base s : FS} {held : Multiset Handle} {locked : Finset (Fin NINODE)}
  {a : Fin NINODE} {ip : Inode}

theorem setInode_forall (good : Fin NINODE → Inode → Prop) (here : good a ip)
    (others : ∀ b, b ≠ a → good b (s.icache b)) (b : Fin NINODE) :
    good b ((s.setInode a ip).icache b) := by
  by_cases same : b = a
  · rw [same, setInode_self]
    exact here
  · rw [setInode_of_ne s ip same]
    exact others b same

/-- An entry in use may change its lock, its valid bit and its copy. -/
theorem CacheOk.setInode (cache : CacheOk s) (inUse : 0 < (s.icache a).ref)
    (inum : ip.inum = (s.icache a).inum)
    (copy : ip.valid = true → ip.toAttr = (s.disk ip.inum).toAttr ∧ ip.type ≠ .free) :
    CacheOk (s.setInode a ip) where
  unique := by
    have number : ∀ b, ((s.setInode a ip).icache b).inum = (s.icache b).inum :=
      setInode_forall (fun b slot => slot.inum = (s.icache b).inum) inum fun _ _ => rfl
    have wasUsed : ∀ b, 0 < ((s.setInode a ip).icache b).ref → 0 < (s.icache b).ref :=
      setInode_forall (fun b slot => 0 < slot.ref → 0 < (s.icache b).ref) (fun _ => inUse)
        fun _ _ positive => positive
    intro b c usedB usedC same
    rw [number, number] at same
    exact cache.unique b c (wasUsed b usedB) (wasUsed c usedC) same
  copy := setInode_forall (fun _ slot => 0 < slot.ref → slot.valid = true →
    slot.toAttr = (s.disk slot.inum).toAttr ∧ slot.type ≠ .free) (fun _ => copy)
    fun b _ => cache.copy b

theorem Within.recount (within : Within base held locked s) {held' : Multiset Handle} {ref : Nat}
    (inUse : 0 < (s.icache a).ref) (count : ref = (base.icache a).ref + refsTo held' a)
    (others : ∀ b, b ≠ a → refsTo held' b = refsTo held b)
    (handle : ∀ h ∈ held', (s.icache h.1).inum = h.2)
    (lockHeld : ∀ b ∈ locked, ∃ i, (b, i) ∈ held') :
    Within base held' locked (s.setInode a { s.icache a with ref := ref }) where
  files := within.files
  ninodes := within.ninodes
  disk := within.disk
  ref := by
    refine setInode_forall (fun b slot => slot.ref = (base.icache b).ref + refsTo held' b)
      count ?_
    intro b other
    rw [within.ref, others b other]
  kept := setInode_forall (fun b slot => 0 < (base.icache b).ref → slot.inum =
    (base.icache b).inum) (within.kept a) fun b _ => within.kept b
  keptValid := setInode_forall (fun b slot => 0 < (base.icache b).ref →
    (base.icache b).valid = true → slot.valid = true) (within.keptValid a)
    fun b _ => within.keptValid b
  handle := by
    intro h member
    rw [← handle h member]
    refine setInode_forall (fun b slot => slot.inum = (s.icache b).inum) ?_ ?_ h.1
    · rfl
    · exact fun _ _ => rfl
  lock := setInode_forall (fun b slot => slot.locked = true ↔ b ∈ locked) (within.lock a)
    fun b _ => within.lock b
  lockValid := setInode_forall (fun b slot => b ∈ locked → slot.valid = true)
    (within.lockValid a) fun b _ => within.lockValid b
  lockHeld := lockHeld
  cache := within.cache.setInode inUse rfl fun valid => within.cache.copy a inUse valid

theorem Within.bump (within : Within base held locked s) (inUse : 0 < (s.icache a).ref) :
    Within base ((a, (s.icache a).inum) ::ₘ held) locked
      (s.setInode a { s.icache a with ref := (s.icache a).ref + 1 }) := by
  refine within.recount inUse ?_ ?_ ?_ ?_
  · rw [refsTo_cons_self, within.ref]
    omega
  · intro b other
    exact refsTo_cons_of_ne held _ other
  · intro h member
    rcases Multiset.mem_cons.mp member with rfl | old
    · rfl
    · exact within.handle h old
  · intro b isLocked
    obtain ⟨i, old⟩ := within.lockHeld b isLocked
    exact ⟨i, Multiset.mem_cons_of_mem old⟩

theorem Within.drop {i : Nat} (within : Within base ((a, i) ::ₘ held) locked s)
    (still : a ∈ locked → ∃ j, (a, j) ∈ held) :
    Within base held locked
      (s.setInode a { s.icache a with ref := (s.icache a).ref - 1 }) := by
  have inUse := within.ref_pos (Multiset.mem_cons_self (a, i) held)
  refine within.recount inUse ?_ ?_ ?_ ?_
  · rw [within.ref, refsTo_cons_self]
    omega
  · intro b other
    exact (refsTo_cons_of_ne held i other).symm
  · intro h member
    exact within.handle h (Multiset.mem_cons_of_mem member)
  · intro b isLocked
    obtain ⟨j, old⟩ := within.lockHeld b isLocked
    rcases Multiset.mem_cons.mp old with same | old
    · cases same
      exact still isLocked
    · exact ⟨j, old⟩

end Update

/-! ## The disk changes -/

@[simp] theorem setDisk_self (s : FS) (i : Nat) (dip : Dinode) : (s.setDisk i dip).disk i = dip := by
  simp [FS.setDisk]

theorem setDisk_of_ne (s : FS) (dip : Dinode) {j : Nat} (other : j ≠ i) :
    (s.setDisk i dip).disk j = s.disk j := by simp [FS.setDisk, other]

section Disk

variable {base s : FS} {held : Multiset Handle} {locked : Finset (Fin NINODE)}
  {a : Fin NINODE} {i : Nat}

theorem Within.setDisk (within : Within base held locked s) {dip : Dinode}
    (copies : ∀ b, 0 < (s.icache b).ref → (s.icache b).inum = i →
      dip.toAttr = (base.disk i).toAttr) :
    Within (base.setDisk i dip) held locked (s.setDisk i dip) where
  files := within.files
  ninodes := within.ninodes
  disk := by simp only [FS.setDisk, within.disk]
  ref := within.ref
  kept := within.kept
  keptValid := within.keptValid
  handle := within.handle
  lock := within.lock
  lockValid := within.lockValid
  lockHeld := within.lockHeld
  cache := by
    refine ⟨within.cache.unique, ?_⟩
    intro b inUse valid
    obtain ⟨copy, typed⟩ := within.cache.copy b inUse valid
    refine ⟨?_, typed⟩
    show (s.icache b).toAttr = ((s.setDisk i dip).disk (s.icache b).inum).toAttr
    by_cases here : (s.icache b).inum = i
    · rw [copy, here, within.disk, setDisk_self, copies b inUse here]
    · rw [copy, setDisk_of_ne s dip here]

theorem CacheOk.setDisk_others (cache : CacheOk s) (inUse : 0 < (s.icache a).ref) (dip : Dinode)
    {b : Fin NINODE} (other : b ≠ a) (bUsed : 0 < (s.icache b).ref)
    (valid : (s.icache b).valid = true) :
    (s.icache b).toAttr = ((s.setDisk (s.icache a).inum dip).disk (s.icache b).inum).toAttr ∧
      (s.icache b).type ≠ .free := by
  have apart : (s.icache b).inum ≠ (s.icache a).inum :=
    fun same => other (cache.unique b a bUsed inUse same)
  rw [setDisk_of_ne s dip apart]
  exact cache.copy b bUsed valid

theorem Within.setAttr (within : Within base held locked s) (mem : (a, i) ∈ held) (attr : Attr)
    (typed : attr.type ≠ .free) :
    Within (base.setDisk i { base.disk i with toAttr := attr }) held locked
      ((s.setInode a { s.icache a with toAttr := attr }).setDisk i
        { s.disk i with toAttr := attr }) where
  files := within.files
  ninodes := within.ninodes
  disk := by simp only [FS.setDisk, FS.setInode, within.disk]
  ref := setInode_forall (fun b slot => slot.ref = (base.icache b).ref + refsTo held b)
    (within.ref a) fun b _ => within.ref b
  kept := setInode_forall (fun b slot => 0 < (base.icache b).ref → slot.inum =
    (base.icache b).inum) (within.kept a) fun b _ => within.kept b
  keptValid := setInode_forall (fun b slot => 0 < (base.icache b).ref →
    (base.icache b).valid = true → slot.valid = true) (within.keptValid a)
    fun b _ => within.keptValid b
  handle := by
    intro h member
    rw [← within.handle h member]
    refine setInode_forall (fun b slot => slot.inum = (s.icache b).inum) ?_ ?_ h.1
    · rfl
    · exact fun _ _ => rfl
  lock := setInode_forall (fun b slot => slot.locked = true ↔ b ∈ locked) (within.lock a)
    fun b _ => within.lock b
  lockValid := setInode_forall (fun b slot => b ∈ locked → slot.valid = true)
    (within.lockValid a) fun b _ => within.lockValid b
  lockHeld := within.lockHeld
  cache := by
    have inUse := within.ref_pos mem
    have inum : (s.icache a).inum = i := within.handle (a, i) mem
    have number : ∀ b, ((s.setInode a { s.icache a with toAttr := attr }).icache b).inum =
        (s.icache b).inum := by
      refine setInode_forall (fun b slot => slot.inum = (s.icache b).inum) ?_ ?_
      · rfl
      · exact fun _ _ => rfl
    have used : ∀ b, ((s.setInode a { s.icache a with toAttr := attr }).icache b).ref =
        (s.icache b).ref := by
      refine setInode_forall (fun b slot => slot.ref = (s.icache b).ref) ?_ ?_
      · rfl
      · exact fun _ _ => rfl
    refine ⟨?_, ?_⟩
    · intro b c usedB usedC same
      have usedB : 0 < ((s.setInode a { s.icache a with toAttr := attr }).icache b).ref := usedB
      have usedC : 0 < ((s.setInode a { s.icache a with toAttr := attr }).icache c).ref := usedC
      have same : ((s.setInode a { s.icache a with toAttr := attr }).icache b).inum =
        ((s.setInode a { s.icache a with toAttr := attr }).icache c).inum := same
      rw [number, number] at same
      rw [used] at usedB usedC
      exact within.cache.unique b c usedB usedC same
    · refine setInode_forall (fun b slot => 0 < slot.ref → slot.valid = true → slot.toAttr =
        ((s.setDisk i { s.disk i with toAttr := attr }).disk slot.inum).toAttr ∧
          slot.type ≠ .free) ?_ ?_
      · intro _ _
        show attr = ((s.setDisk i { s.disk i with toAttr := attr }).disk (s.icache a).inum).toAttr ∧
          attr.type ≠ .free
        rw [inum, setDisk_self]
        exact ⟨rfl, typed⟩
      · intro b other bUsed valid
        rw [← inum]
        exact within.cache.setDisk_others inUse _ other bUsed valid

theorem Within.free (within : Within base ((a, i) ::ₘ held) locked s) (unlocked : a ∉ locked)
    (alone : (s.icache a).ref = 1) (attr : Attr) (dip : Dinode) :
    Within (base.setDisk i dip) held locked
      ((s.setInode a { s.icache a with toAttr := attr, valid := false, ref := 0 }).setDisk i dip) := by
  have mem : (a, i) ∈ (a, i) ::ₘ held := Multiset.mem_cons_self _ _
  have inUse := within.ref_pos mem
  have inum : (s.icache a).inum = i := within.handle (a, i) mem
  have counted := within.ref a
  rw [refsTo_cons_self, alone] at counted
  have noBase : (base.icache a).ref = 0 := by omega
  have noHeld : refsTo held a = 0 := by omega
  have others : ∀ h ∈ held, h.1 ≠ a := by
    intro h member same
    have positive := refsTo_pos member
    rw [same] at positive
    omega
  refine ⟨within.files, within.ninodes, ?_, ?_, ?_, ?_, ?_, ?_, ?_, ?_, ?_, ?_⟩
  · simp only [FS.setDisk, FS.setInode, within.disk]
  · refine setInode_forall (fun b slot => slot.ref = (base.icache b).ref + refsTo held b) ?_ ?_
    · rw [noBase, noHeld]
    · intro b other
      rw [within.ref, refsTo_cons_of_ne held i other]
  · refine setInode_forall (fun b slot => 0 < (base.icache b).ref →
      slot.inum = (base.icache b).inum) ?_ fun b _ => within.kept b
    intro positive
    omega
  · refine setInode_forall (fun b slot => 0 < (base.icache b).ref →
      (base.icache b).valid = true → slot.valid = true) ?_ fun b _ => within.keptValid b
    intro positive
    omega
  · intro h member
    show ((s.setInode a _).icache h.1).inum = h.2
    rw [setInode_of_ne s _ (others h member)]
    exact within.handle h (Multiset.mem_cons_of_mem member)
  · exact setInode_forall (fun b slot => slot.locked = true ↔ b ∈ locked) (within.lock a)
      fun b _ => within.lock b
  · exact setInode_forall (fun b slot => b ∈ locked → slot.valid = true)
      (fun isLocked => absurd isLocked unlocked) fun b _ => within.lockValid b
  · intro b isLocked
    obtain ⟨j, old⟩ := within.lockHeld b isLocked
    rcases Multiset.mem_cons.mp old with same | old
    · cases same
      exact absurd isLocked unlocked
    · exact ⟨j, old⟩
  · intro b c usedB usedC same
    have elsewhere : ∀ b, 0 < ((s.setInode a { s.icache a with
        toAttr := attr, valid := false, ref := 0 }).icache b).ref → b ≠ a := by
      rintro b positive rfl
      simp at positive
    have notB := elsewhere b usedB
    have notC := elsewhere c usedC
    simp only [FS.setDisk, setInode_of_ne s _ notB, setInode_of_ne s _ notC] at usedB usedC same
    exact within.cache.unique b c usedB usedC same
  · refine setInode_forall (fun b slot => 0 < slot.ref → slot.valid = true → slot.toAttr =
      ((s.setDisk i dip).disk slot.inum).toAttr ∧ slot.type ≠ .free) ?_ ?_
    · intro positive
      exact absurd positive (Nat.lt_irrefl 0)
    · intro b other bUsed valid
      rw [← inum]
      exact within.cache.setDisk_others inUse dip other bUsed valid

end Disk

/-! ## A cache entry is recycled -/

section Recycle

variable {base s : FS} {held : Multiset Handle}
  {locked : Finset (Fin NINODE)} {a : Fin NINODE} {i : Nat}

theorem cached_spec (found : cached s i = some a) :
    0 < (s.icache a).ref ∧ (s.icache a).inum = i := by
  simpa using List.find?_some found

theorem cached_none (missing : cached s i = none) (b : Fin NINODE) (inUse : 0 < (s.icache b).ref) :
    (s.icache b).inum ≠ i := by
  have no := List.find?_eq_none.mp missing b (List.mem_finRange b)
  simp only [decide_eq_true_eq, not_and] at no
  exact no inUse

theorem emptySlot_spec (found : emptySlot s = some a) : (s.icache a).ref = 0 := by
  simpa using List.find?_some found

theorem Within.recycle (within : Within base held locked s) (missing : cached s i = none)
    (empty : (s.icache a).ref = 0) :
    Within base ((a, i) ::ₘ held) locked
      (s.setInode a { s.icache a with inum := i, ref := 1, valid := false }) := by
  obtain ⟨noBase, others⟩ := within.not_held empty
  have counted := within.ref a
  have unlocked : a ∉ locked := by
    intro isLocked
    obtain ⟨j, mem⟩ := within.lockHeld a isLocked
    exact others _ mem rfl
  refine ⟨within.files, within.ninodes, within.disk, ?_, ?_, ?_, ?_, ?_, ?_, ?_,
    ?_, ?_⟩
  · refine setInode_forall (fun b slot => slot.ref = (base.icache b).ref +
      refsTo ((a, i) ::ₘ held) b) ?_ ?_
    · rw [refsTo_cons_self]
      show 1 = _
      omega
    · intro b other
      rw [refsTo_cons_of_ne held i other, within.ref]
  · refine setInode_forall (fun b slot => 0 < (base.icache b).ref →
      slot.inum = (base.icache b).inum) ?_ fun b _ => within.kept b
    intro positive
    omega
  · refine setInode_forall (fun b slot => 0 < (base.icache b).ref →
      (base.icache b).valid = true → slot.valid = true) ?_ fun b _ => within.keptValid b
    intro positive
    omega
  · intro h member
    rcases Multiset.mem_cons.mp member with rfl | old
    · rw [setInode_self]
    · rw [setInode_of_ne s _ (others h old)]
      exact within.handle h old
  · exact setInode_forall (fun b slot => slot.locked = true ↔ b ∈ locked) (within.lock a)
      fun b _ => within.lock b
  · exact setInode_forall (fun b slot => b ∈ locked → slot.valid = true)
      (fun isLocked => absurd isLocked unlocked) fun b _ => within.lockValid b
  · intro b isLocked
    obtain ⟨j, old⟩ := within.lockHeld b isLocked
    exact ⟨j, Multiset.mem_cons_of_mem old⟩
  · have fresh : ∀ b, b ≠ a → 0 < (s.icache b).ref → (s.icache b).inum ≠ i :=
      fun b _ inUse => cached_none missing b inUse
    intro b c usedB usedC same
    by_cases hereB : b = a <;> by_cases hereC : c = a
    · rw [hereB, hereC]
    · rw [hereB, setInode_self, setInode_of_ne s _ hereC] at same
      rw [setInode_of_ne s _ hereC] at usedC
      exact absurd same.symm (fresh c hereC usedC)
    · rw [hereC, setInode_self, setInode_of_ne s _ hereB] at same
      rw [setInode_of_ne s _ hereB] at usedB
      exact absurd same (fresh b hereB usedB)
    · rw [setInode_of_ne s _ hereB] at usedB same
      rw [setInode_of_ne s _ hereC] at usedC same
      exact within.cache.unique b c usedB usedC same
  · exact setInode_forall (fun _ slot => 0 < slot.ref → slot.valid = true →
      slot.toAttr = (s.disk slot.inum).toAttr ∧ slot.type ≠ .free)
      (fun _ valid => absurd valid (by simp)) fun b _ => within.cache.copy b

end Recycle

end Xv6Tracing.Fs
