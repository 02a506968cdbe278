import Xv6Tracing.Fs.Within

/-!
# What the inode functions do

One specification for each function of `fs.c`, in terms of what a call holds.
The reasons to stop are all tolerated but one: `ilock` finds no type only where
the caller's tolerance says so.
-/

set_option autoImplicit false

namespace Xv6Tracing.Fs

open Lib Process Ftable

variable {exc : Halt → Prop} {base s : FS} {held : Multiset Handle}
  {locked : Finset (Fin NINODE)} {a : Fin NINODE} {i : Nat}

/-! ## Inodes -/

theorem iget_spec (others : ∀ h, h ≠ .ilockNoType → exc h) (within : Within base held locked s)
    (i : Nat) :
    wp (iget i) s (fun a t => Within base ((a, i) ::ₘ held) locked t) exc := by
  simp only [iget, wp_bind, wp_get]
  cases found : cached s i with
  | some a => grind [cached_spec, wp_bind, wp_set, wp_pure, within.bump]
  | none =>
    cases empty : emptySlot s with
    | none => exact others _ (by simp)
    | some a =>
      simp only [wp_bind, wp_set, wp_pure]
      exact within.recycle found (emptySlot_spec empty)

theorem idup_spec (within : Within base held locked s) (inUse : 0 < (base.icache a).ref) :
    wp (idup a) s (fun b t => b = a ∧
      Within base ((a, (base.icache a).inum) ::ₘ held) locked t) exc := by
  simp only [idup, modifyInode, wp_bind, wp_modify, wp_pure, true_and]
  rw [← within.kept a inUse]
  apply within.bump
  rw [within.ref]
  omega

theorem ilock_spec (others : ∀ h, h ≠ .ilockNoType → exc h) (within : Within base held locked s)
    (mem : (a, i) ∈ held) (noType : (base.disk i).type = .free → exc .ilockNoType) :
    wp (ilock a) s (fun _ t => Within base held (insert a locked) t ∧ a ∉ locked) exc := by
  have inUse := within.ref_pos mem
  have inum : (s.icache a).inum = i := within.handle (a, i) mem
  -- Both ways to succeed leave a valid copy in a locked entry.
  have done : ∀ attr : Attr, attr = (base.disk i).toAttr → attr.type ≠ .free →
      Within base held (insert a locked)
        (s.setInode a { s.icache a with toAttr := attr, locked := true, valid := true }) := by
    intro attr copy typed
    refine ⟨within.files, within.ninodes, within.disk, ?_, ?_, ?_, ?_, ?_, ?_,
      ?_, ?_⟩
    · exact setInode_forall (fun b slot => slot.ref = (base.icache b).ref + refsTo held b)
        (within.ref a) fun b _ => within.ref b
    · exact setInode_forall (fun b slot => 0 < (base.icache b).ref → slot.inum =
        (base.icache b).inum) (within.kept a) fun b _ => within.kept b
    · exact setInode_forall (fun b slot => 0 < (base.icache b).ref →
        (base.icache b).valid = true → slot.valid = true) (fun _ _ => rfl)
        fun b _ => within.keptValid b
    · intro h member
      rw [← within.handle h member]
      refine setInode_forall (fun b slot => slot.inum = (s.icache b).inum) ?_ ?_ h.1
      · rfl
      · exact fun _ _ => rfl
    · refine setInode_forall (fun b slot => slot.locked = true ↔ b ∈ insert a locked) (by simp) ?_
      intro b other
      rw [Finset.mem_insert, within.lock]
      exact (or_iff_right other).symm
    · refine setInode_forall (fun b slot => b ∈ insert a locked → slot.valid = true)
        (fun _ => rfl) ?_
      intro b other isLocked
      exact within.lockValid b (Finset.mem_of_mem_insert_of_ne isLocked other)
    · grind [Within]
    · grind [within.cache.setInode, Within]
  simp only [ilock, modifyInode, wp_bind, wp_get]
  split
  · exact others _ (by simp)
  split
  · exact others _ (by simp)
  rename_i unlocked
  have unlocked : a ∉ locked := fun isLocked => unlocked ((within.lock a).mpr isLocked)
  simp only [wp_bind, wp_modify]
  split
  · grind [within.cache.copy, wp_pure, Within]
  · have twice : ∀ first second : Inode, (s.setInode a first).setInode a second =
        s.setInode a second := by
      intro first second
      simp [FS.setInode]
    have onDisk : s.disk (s.icache a).inum = base.disk i := by rw [inum, within.disk]
    simp only [wp_bind, wp_modify, setInode_self, twice, onDisk]
    split
    · rename_i free
      exact noType free
    · rename_i typed
      exact ⟨done _ rfl typed, unlocked⟩

section

variable (within : Within base held locked s)

include within

theorem iunlock_spec (isLocked : a ∈ locked) :
    wp (iunlock a) s (fun _ t => Within base held (locked.erase a) t ∧
      (t.icache a).valid = true) exc := by
  obtain ⟨i, mem⟩ := within.lockHeld a isLocked
  have inUse := within.ref_pos mem
  have isSet : (s.icache a).locked = true := (within.lock a).mpr isLocked
  have valid := within.lockValid a isLocked
  have holding : ¬ ((s.icache a).locked = false ∨ (s.icache a).ref < 1) := by
    rw [isSet]
    simp
    omega
  simp only [iunlock, modifyInode, wp_bind, wp_get]
  rw [if_neg holding]
  simp only [wp_modify, setInode_self]
  refine ⟨⟨within.files, within.ninodes, within.disk, ?_, ?_, ?_, ?_, ?_, ?_,
    ?_, ?_⟩, valid⟩
  · exact setInode_forall (fun b slot => slot.ref = (base.icache b).ref + refsTo held b)
      (within.ref a) fun b _ => within.ref b
  · exact setInode_forall (fun b slot => 0 < (base.icache b).ref → slot.inum =
      (base.icache b).inum) (within.kept a) fun b _ => within.kept b
  · exact setInode_forall (fun b slot => 0 < (base.icache b).ref →
      (base.icache b).valid = true → slot.valid = true) (within.keptValid a)
      fun b _ => within.keptValid b
  · intro h member
    rw [← within.handle h member]
    refine setInode_forall (fun b slot => slot.inum = (s.icache b).inum) ?_ ?_ h.1
    · rfl
    · exact fun _ _ => rfl
  · refine setInode_forall (fun b slot => slot.locked = true ↔ b ∈ locked.erase a) (by simp) ?_
    intro b other
    rw [Finset.mem_erase, within.lock]
    exact (and_iff_right other).symm
  · exact setInode_forall (fun b slot => b ∈ locked.erase a → slot.valid = true)
      (fun _ => valid) fun b _ still => within.lockValid b (Finset.mem_of_mem_erase still)
  · exact fun b still => within.lockHeld b (Finset.mem_of_mem_erase still)
  · exact within.cache.setInode inUse rfl fun valid => within.cache.copy a inUse valid

theorem setAttr_spec (mem : (a, i) ∈ held)
    (isLocked : a ∈ locked) {f : Attr → Attr} (typed : ∀ attr, (f attr).type = attr.type) :
    wp (setAttr a f) s (fun _ t => Within
      (base.setDisk i { base.disk i with toAttr := f (base.disk i).toAttr }) held locked t) exc := by
  obtain ⟨copy, allocated⟩ := within.copy mem isLocked
  have inum : (s.icache a).inum = i := within.handle (a, i) mem
  simp only [setAttr, modifyInode, iupdate, wp_bind, wp_modify, setInode_self]
  rw [← copy, ← inum]
  have updated := within.setAttr mem (f (s.icache a).toAttr)
    (by rw [typed, copy]; exact allocated)
  rw [← inum] at updated
  exact updated

theorem writeDirent_spec (mem : (a, i) ∈ held) (off : Nat)
    (de : Dirent) :
    wp (writeDirent a off de) s (fun _ t => Within (base.setDisk i { base.disk i with
      dirents := if off < (base.disk i).dirents.length then (base.disk i).dirents.set off de
        else (base.disk i).dirents ++ [de] }) held locked t) exc := by
  have inum : (s.icache a).inum = i := within.handle (a, i) mem
  simp only [writeDirent, wp_modify, inum, within.disk]
  exact within.setDisk fun _ _ _ => rfl

end

/-! ## Giving an inode back -/

def Dinode.freed (dip : Dinode) : Dinode := { dip with type := .free, dirents := [] }

def Anchored (base : FS) (held : Multiset Handle) (i : Nat) : Prop :=
  (base.disk i).type ≠ .free →
    (base.disk i).nlink ≠ 0 ∨ Referenced base i ∨ ∃ b, (b, i) ∈ held

theorem Anchored.cons (anchored : Anchored base held i) (h : Handle) :
    Anchored base (h ::ₘ held) i := by
  intro typed
  rcases anchored typed with links | referenced | ⟨b, mem⟩
  · exact Or.inl links
  · exact Or.inr (Or.inl referenced)
  · exact Or.inr (Or.inr ⟨b, Multiset.mem_cons_of_mem mem⟩)

section

variable (within : Within base ((a, i) ::ₘ held) locked s)

include within

theorem iput_keep
    (still : a ∈ locked → ∃ j, (a, j) ∈ held) (anchored : Anchored base held i) :
    wp (iput a) s (fun _ t => Within base held locked t) exc := by
  have mem : (a, i) ∈ (a, i) ::ₘ held := Multiset.mem_cons_self _ _
  have counted := within.ref a
  rw [refsTo_cons_self] at counted
  have kept : ¬ ((s.icache a).ref = 1 ∧ (s.icache a).valid = true ∧ (s.icache a).nlink = 0) := by
    rintro ⟨one, valid, noLinks⟩
    obtain ⟨copy, typed⟩ := within.cache.copy a (within.ref_pos mem) valid
    have inum : (s.icache a).inum = i := within.handle (a, i) mem
    rw [inum, within.disk] at copy
    rw [copy] at typed noLinks
    rcases anchored typed with links | referenced | ⟨b, other⟩
    · exact links noLinks
    · have positive := within.base_entry mem referenced
      omega
    · have same := within.same_entry mem (Multiset.mem_cons_of_mem other)
      have positive := refsTo_pos other
      rw [← same] at positive
      omega
  simp only [iput, modifyInode, wp_bind, wp_get, if_neg kept, wp_modify]
  exact within.drop still

theorem iput_free (unlocked : a ∉ locked)
    (valid : (s.icache a).valid = true) (noLinks : (base.disk i).nlink = 0)
    (unreferenced : ¬ Referenced base i) (alone : ∀ b, (b, i) ∉ held) :
    wp (iput a) s (fun _ t => Within (base.setDisk i (base.disk i).freed) held locked t) exc := by
  have mem : (a, i) ∈ (a, i) ::ₘ held := Multiset.mem_cons_self _ _
  have inum : (s.icache a).inum = i := within.handle (a, i) mem
  have counted := within.ref a
  rw [refsTo_cons_self] at counted
  obtain ⟨copy, -⟩ := within.cache.copy a (within.ref_pos mem) valid
  rw [inum, within.disk] at copy
  have noBase : (base.icache a).ref = 0 := by
    by_contra positive
    have positive : 0 < (base.icache a).ref := Nat.pos_of_ne_zero positive
    exact unreferenced ⟨a, positive, (within.kept a positive).symm.trans inum⟩
  have noHeld : refsTo held a = 0 := by
    by_contra positive
    obtain ⟨h, member, here⟩ := Multiset.countP_pos.mp (Nat.pos_of_ne_zero positive)
    grind [Within]
  have one : (s.icache a).ref = 1 := by omega
  have last : (s.icache a).ref = 1 ∧ (s.icache a).valid = true ∧ (s.icache a).nlink = 0 :=
    ⟨one, valid, by rw [copy]; exact noLinks⟩
  have freed := within.free unlocked one { (base.disk i).toAttr with type := .free }
    (base.disk i).freed
  simp only [iput, itrunc, iupdate, modifyInode, wp_bind, wp_get, if_pos last, wp_modify]
  simp only [FS.setDisk, FS.setInode, Function.update_self, Function.update_idem, inum, one, copy,
    Dinode.freed] at freed ⊢
  exact freed

theorem iunlockput_keep (isLocked : a ∈ locked)
    (anchored : Anchored base held i) :
    wp (iunlockput a) s (fun _ t => Within base held (locked.erase a) t) exc := by
  refine wp_call (iunlock_spec within isLocked) ?_
  rintro _ t ⟨within, -⟩
  exact iput_keep within (fun isLocked => absurd isLocked (Finset.notMem_erase a locked)) anchored

end

/-! ### When nothing else is locked -/

theorem ilock_only (others : ∀ h, h ≠ .ilockNoType → exc h)
    (within : Within base ((a, i) ::ₘ held) ∅ s)
    (noType : (base.disk i).type = .free → exc .ilockNoType) :
    wp (ilock a) s (fun _ t => Within base ((a, i) ::ₘ held) {a} t) exc := by
  refine wp_mono (ilock_spec others within (Multiset.mem_cons_self _ _) noType) ?_
  rintro _ t ⟨within, -⟩
  rwa [insert_empty_eq] at within

theorem iunlock_only (within : Within base held {a} s) :
    wp (iunlock a) s (fun _ t => Within base held ∅ t ∧ (t.icache a).valid = true) exc := by
  refine wp_mono (iunlock_spec within (Finset.mem_singleton_self a)) ?_
  intro _ t unlocked
  rwa [Finset.erase_singleton] at unlocked

theorem iunlockput_only (within : Within base ((a, i) ::ₘ held) {a} s)
    (anchored : Anchored base held i) :
    wp (iunlockput a) s (fun _ t => Within base held ∅ t) exc := by
  refine wp_call (iunlock_only within) ?_
  rintro _ t ⟨within, -⟩
  exact iput_keep within (by simp) anchored

/-! ## Directories -/

theorem dirlookup_spec (others : ∀ h, h ≠ .ilockNoType → exc h)
    (within : Within base held locked s) (mem : (a, i) ∈ held) (isLocked : a ∈ locked)
    (name : Name) :
    wp (dirlookup a name) s (fun found t => (base.disk i).type = .T_DIR ∧
      match found with
      | none => Within base held locked t ∧ lookupFrom name 0 (base.disk i).dirents = none
      | some (b, off) => ∃ j, Within base ((b, j) ::ₘ held) locked t ∧
          lookupFrom name 0 (base.disk i).dirents = some (off, j)) exc := by
  simp only [dirlookup, wp_bind, wp_get, within.type mem isLocked, within.dirents mem]
  split
  · exact others _ (by simp)
  rename_i isDir
  rw [not_not] at isDir
  cases found : lookupFrom name 0 (base.disk i).dirents with
  | none => exact ⟨isDir, within, rfl⟩
  | some entry =>
    obtain ⟨off, j⟩ := entry
    refine wp_call (iget_spec others within j) ?_
    intro b t within
    exact ⟨isDir, j, within, rfl⟩

def addEntry (dirents : List Dirent) (de : Dirent) : List Dirent :=
  if emptyDirent dirents < dirents.length then dirents.set (emptyDirent dirents) de
  else dirents ++ [de]

theorem dirlink_spec (others : ∀ h, h ≠ .ilockNoType → exc h)
    (before : Within base held locked s) (mem : (a, i) ∈ held) (isLocked : a ∈ locked)
    (name : Name) (inum : Nat) (anchored : ∀ j, Anchored base held j) :
    wp (dirlink a name inum) s (fun linked t => (base.disk i).type = .T_DIR ∧
      if linked then
        lookupFrom name 0 (base.disk i).dirents = none ∧
          Within (base.setDisk i { base.disk i with
            dirents := addEntry (base.disk i).dirents ⟨inum % 2 ^ 16, name.take DIRSIZ⟩ })
            held locked t
      else Within base held locked t) exc := by
  refine wp_call (dirlookup_spec others before mem isLocked name) ?_
  rintro (_ | ⟨b, off⟩) t ⟨isDir, found⟩
  · obtain ⟨within, missing⟩ := found
    simp only [wp_bind, wp_get, within.dirents mem]
    split
    · exact others _ (by simp)
    · refine wp_call (writeDirent_spec within mem _ _) ?_
      intro _ t within
      exact ⟨isDir, missing, within⟩
  · obtain ⟨j, within, present⟩ := found
    refine wp_call (iput_keep within (before.lockHeld b) (anchored j)) ?_
    intro _ t within
    exact ⟨isDir, within⟩

theorem freeInum_spec {s : FS} {inum : Nat} (found : freeInum s = some inum) :
    1 ≤ inum ∧ inum < s.ninodes ∧ (s.disk inum).type = .free := by
  have member := List.mem_range.mp (List.mem_of_find?_eq_some found)
  have tested := List.find?_some found
  simp only [decide_eq_true_eq] at tested
  exact ⟨tested.1, member, tested.2⟩

theorem ialloc_spec (others : ∀ h, h ≠ .ilockNoType → exc h) (within : Within base held locked s)
    (type : InodeType)
    (unused : ∀ j, (base.disk j).type = .free → ¬ Referenced base j ∧ ∀ b, (b, j) ∉ held) :
    wp (ialloc type) s (fun b t => ∃ j, 1 ≤ j ∧ j < base.ninodes ∧ (base.disk j).type = .free ∧
      Within (base.setDisk j ⟨⟨type, 0, 0, 0⟩, []⟩) ((b, j) ::ₘ held) locked t) exc := by
  simp only [ialloc, wp_bind, wp_get]
  cases found : freeInum s with
  | none => exact others _ (by simp)
  | some j =>
    obtain ⟨positive, small, free⟩ := freeInum_spec found
    rw [within.ninodes] at small
    rw [within.disk] at free
    obtain ⟨unreferenced, alone⟩ := unused j free
    simp only [wp_bind, wp_set]
    refine wp_mono (iget_spec others (within.setDisk ?_) j) ?_
    · intro b inUse here
      grind [within.origin]
    · intro b t within
      exact ⟨j, positive, small, free, within⟩

/-! ## Paths -/

/-- Where the loop of `namex` ends on a disk that does not change. -/
def resolveLoop (disk : Nat → Dinode) (nameiparent : Bool) : Nat → Nat → List Uchar →
    Option (Nat × Name)
  | 0, _, _ => none
  | fuel + 1, i, path =>
    match skipelem path with
    | none => if nameiparent then none else some (i, [])
    | some (name, path) =>
      if (disk i).type ≠ .T_DIR then none
      else if nameiparent ∧ path = [] then some (i, name)
      else
        match lookupFrom name 0 (disk i).dirents with
        | none => none
        | some (_, next) => resolveLoop disk nameiparent fuel next path

def pathStart (s : FS) (p : Fin NPROC) (path : List Uchar) : Option Nat :=
  if path.headD 0 = SLASH then some ROOTINO
  else (s.files.kernel.proc p).cwd.map fun cwd => (s.icache cwd).inum

def resolve (s : FS) (p : Fin NPROC) (path : List Uchar) (nameiparent : Bool) :
    Option (Nat × Name) :=
  (pathStart s p path).bind fun i => resolveLoop s.disk nameiparent (path.length + 1) i path

/-- A set of inodes that lookups do not leave and that have a type, or else the
missing type is tolerated. -/
structure SafeWalk (disk : Nat → Dinode) (exc : Halt → Prop) (safe : Nat → Prop) : Prop where
  typed : ∀ j, safe j → (disk j).type = .free → exc .ilockNoType
  closed : ∀ d name off j, safe d → (disk d).type = .T_DIR →
    lookupFrom name 0 (disk d).dirents = some (off, j) → safe j

theorem skipelem_shorter {path rest : List Uchar} {name : Name}
    (found : skipelem path = some (name, rest)) : rest.length < path.length := by
  simp only [skipelem] at found
  split at found
  · simp at found
  · rename_i nonempty
    simp only [Option.some.injEq, Prod.mk.injEq] at found
    obtain ⟨-, rfl⟩ := found
    have start : (path.dropWhile (· = SLASH)).length ≤ path.length :=
      (List.dropWhile_sublist _).length_le
    generalize trimmed : path.dropWhile (· = SLASH) = elems at nonempty start ⊢
    cases elems with
    | nil => exact absurd rfl nonempty
    | cons byte tail =>
      have notSlash : byte ≠ SLASH := by
        have head := List.head_dropWhile_not (fun c : Uchar => decide (c = SLASH)) (l := path)
          (by rw [trimmed]; simp)
        simpa [trimmed] using head
      rw [List.dropWhile_cons_of_pos (by simpa using notSlash)]
      calc ((tail.dropWhile (· ≠ SLASH)).dropWhile (· = SLASH)).length
          ≤ (tail.dropWhile (· ≠ SLASH)).length := (List.dropWhile_sublist _).length_le
        _ ≤ tail.length := (List.dropWhile_sublist _).length_le
        _ < path.length := by simpa using start

theorem namexLoop_spec (others : ∀ h, h ≠ .ilockNoType → exc h) {safe : Nat → Prop}
    (walk : SafeWalk base.disk exc safe) (anchored : ∀ j, Anchored base held j)
    (parent : Bool) (fuel : Nat) :
    ∀ (s : FS) (a : Fin NINODE) (i : Nat) (path : List Uchar), path.length < fuel → safe i →
      Within base ((a, i) ::ₘ held) ∅ s →
      wp (namexLoop parent fuel a path) s (fun r t =>
        match r with
        | none => Within base held ∅ t ∧ resolveLoop base.disk parent fuel i path = none
        | some (b, name) => ∃ j, safe j ∧ Within base ((b, j) ::ₘ held) ∅ t ∧
            resolveLoop base.disk parent fuel i path = some (j, name)) exc := by
  induction fuel with
  | zero =>
    intro s a i path enough
    exact absurd enough (Nat.not_lt_zero _)
  | succ fuel ih =>
    intro s a i path enough isSafe within
    have mem : (a, i) ∈ (a, i) ::ₘ held := Multiset.mem_cons_self _ _
    have alone : a ∈ ({a} : Finset (Fin NINODE)) := Finset.mem_singleton_self a
    simp only [namexLoop, resolveLoop]
    cases next : skipelem path with
    | none =>
      cases parent with
      | true =>
        simp only [if_true]
        refine wp_call (iput_keep within (by simp) (anchored i)) ?_
        intro _ t within
        exact ⟨within, trivial⟩
      | false =>
        simp only [Bool.false_eq_true, if_false]
        exact ⟨i, isSafe, within, rfl⟩
    | some elem =>
      obtain ⟨name, rest⟩ := elem
      have shorter := skipelem_shorter next
      refine wp_call (ilock_only others within (walk.typed i isSafe)) ?_
      intro _ t within
      simp only [wp_bind, wp_get, within.type mem alone]
      split
      · rename_i notDir
        refine wp_call (iunlockput_only within (anchored i)) ?_
        intro _ t within
        exact ⟨within, rfl⟩
      rename_i isDir
      rw [not_not] at isDir
      split
      · rename_i last
        refine wp_call (iunlock_only within) ?_
        rintro _ t ⟨within, -⟩
        exact ⟨i, isSafe, within, rfl⟩
      · refine wp_call (dirlookup_spec others within mem alone name) ?_
        rintro (_ | ⟨b, off⟩) t ⟨-, found⟩
        · obtain ⟨within, missing⟩ := found
          refine wp_call (iunlockput_only within (anchored i)) ?_
          intro _ t within
          rw [missing]
          exact ⟨within, rfl⟩
        · obtain ⟨j, within, present⟩ := found
          rw [Multiset.cons_swap] at within
          refine wp_call (iunlockput_only within ((anchored i).cons (b, j))) ?_
          grind [SafeWalk]

end Xv6Tracing.Fs
