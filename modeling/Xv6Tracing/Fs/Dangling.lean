import Xv6Tracing.Fs.Consistent

/-!
# Dangling directory entries

An entry that a lookup can come across names an allocated inode, unless a
directory has been freed while the `..` of a removed directory still names it.
Removing a directory takes its `..` out of its parent's link count, and a process
that stays in it keeps the directory itself but not the parent.
-/

set_option autoImplicit false

namespace Xv6Tracing.Fs

open Lib Process Ftable

def cwdInum (s : FS) (p : Fin NPROC) : Option Nat :=
  (s.files.kernel.proc p).cwd.map fun a => (s.icache a).inum

/-- A path lookup, and `ilock` of what it found. -/
def lookup (p : Fin NPROC) (path : List Uchar) (nameiparent : Bool) : FsM Unit := do
  match ← namex p path nameiparent with
  | none => return
  | some (ip, _) => ilock ip

def PathStart (s : FS) (i : Nat) : Prop := i = ROOTINO ∨ ∃ p, cwdInum s p = some i

structure NoDangling (s : FS) : Prop where
  entries : ∀ d, Reach s.disk (PathStart s) d → (s.disk d).type = .T_DIR →
    ∀ de ∈ (s.disk d).dirents, de.inum ≠ 0 → (s.disk de.inum).type ≠ .free
  lookups : ∀ p path parent, stops (lookup p path parent) s ≠ some .ilockNoType

/-- The call makes no directory inside a removed one, and removes no directory
that is `..` of a current directory. -/
def StrandsNobody (s : FS) (op : FsOp) : Prop :=
  MakesInTree s op ∧ ∀ i ∈ removes s op, ∀ p, ∀ c ∈ cwdInum s p, (s.disk c).parent ≠ i

instance (s : FS) (op : FsOp) : Decidable (StrandsNobody s op) :=
  inferInstanceAs (Decidable (_ ∧ ∀ i ∈ removes s op, ∀ p, ∀ c ∈ cwdInum s p, _))

/-! ## Homes -/

/-- A directory that has not been removed, or whose `..` has not. -/
def Home (disk : Inodes) (c : Nat) : Prop := (disk c).Live ∨ (disk (disk c).parent).Live

def Homes (v : View) : Prop := ∀ p c, v.uses (.inl p) = some c → Home v.disk c

section Keep

variable {n : Nat} {v w : View} {c i : Nat}

theorem freeDisk_home {disk : Inodes} (noLinks : (disk i).nlink = 0) (other : c ≠ i)
    (home : Home disk c) : Home (freeDisk disk i) c := by
  rw [Home, freeDisk_live noLinks, freeDisk_other other, freeDisk_live noLinks]
  exact home

theorem View.Release.keeps_homes (release : v.Release i w) (homes : Homes v) : Homes w := by
  obtain ⟨disk, released, rfl⟩ := release
  cases released with
  | kept => exact homes
  | freed noLinks unused =>
    intro p c uses
    refine freeDisk_home noLinks ?_ (homes p c uses)
    rintro rfl
    exact unused ⟨_, uses⟩

variable (tree : Tree n v)
include tree

variable {d : Nat}

theorem Creating.home {name : Name} {type : InodeType} {major minor : Short}
    (creating : Creating n v.disk d i name type) (old : c ≠ i) (home : Home v.disk c) :
    Home (createDisk v.disk d i name type major minor) c := by
  rcases home with live | above
  · exact Or.inl ((creating.live_old old).mpr live)
  · grind [above.typed, creating.parent_old, tree.shape, creating.live_old, Creating, Home]

theorem Linking.home {name : Name} (linking : Linking v.disk d i name)
    (isDir : (v.disk c).type = .T_DIR) (home : Home v.disk c) :
    Home (linkDisk v.disk d i name) c := by
  rw [Home, linking.live_iff, linking.parent_eq tree.shape isDir, linking.live_iff]
  exact home

theorem Unlinking.home {k : Nat} (unlinking : Unlinking v.disk d i k)
    (isDir : (v.disk c).type = .T_DIR)
    (apart : (v.disk i).type = .T_DIR → (v.disk c).parent ≠ i) (home : Home v.disk c) :
    Home (unlinkDisk v.disk d i (k + 2)) c := by
  have liveIff : ∀ {x}, x ≠ i →
      ((unlinkDisk v.disk d i (k + 2) x).Live ↔ (v.disk x).Live) :=
    unlinking.live_iff tree.shape tree.linked
  by_cases isTarget : c = i
  · grind [tree.linked.down, unlinking.named, unlinking.parent_eq, tree.shape, Unlinking, Home]
  · rcases home with live | above
    · exact Or.inl ((liveIff isTarget).mpr live)
    · grind [above.1, unlinking.parent_eq, tree.shape, Home]

variable (homes : Homes v)
include homes

theorem Edit.keeps_homes {event : Event} (edit : Edit n v event w)
    (apart : ∀ d i, event = .unlink d i → (v.disk i).type = .T_DIR →
      ∀ p c, v.uses (.inl p) = some c → (v.disk c).parent ≠ i)
    (enters : ∀ p j, event = .chdir p j → Home v.disk j) : Homes w := by
  have dirs := tree.owned.cwds
  cases edit with
  | create creating =>
    intro p c uses
    refine creating.home tree ?_ (homes p c uses)
    rintro rfl
    exact tree.owned.held c ⟨_, uses⟩ creating.free
  | link linking =>
    intro p c uses
    exact linking.home tree (dirs p c uses) (homes p c uses)
  | unlink unlinking release =>
    refine release.keeps_homes ?_
    intro p c uses
    exact unlinking.home tree (dirs p c uses) (fun kind => apart _ _ rfl kind p c uses)
      (homes p c uses)
  | @chdir p i j w was isDir release =>
    refine release.keeps_homes ?_
    intro q c uses
    by_cases same : q = p
    · subst same
      have entered : some j = some c := by simpa [View.setUse] using uses
      cases entered
      exact enters q j rfl
    · exact homes q c (by simpa [View.setUse, same] using uses)

omit tree in
theorem Hold.keeps_homes (hold : Hold v w) : Homes w := by
  cases hold with
  | open_ =>
    intro p c uses
    exact homes p c (by simpa [View.setUse] using uses)
  | @leave u i w was release =>
    refine release.keeps_homes ?_
    intro p c uses
    by_cases same : .inl p = u
    · subst same
      simp [View.setUse] at uses
    · exact homes p c (by simpa [View.setUse, same] using uses)

end Keep

/-! ## Lookups -/

def Safe (disk : Inodes) (i : Nat) : Prop :=
  (disk i).type ≠ .free ∧ ((disk i).type = .T_DIR → Home disk i)

section Lookup

variable {s : FS} {d i : Nat}

theorem Safe.entry {n : Nat} {disk : Inodes} (shape : Shape n disk) (linked : Linked n disk)
    (safe : Safe disk d) (isDir : (disk d).type = .T_DIR) {de : Dirent}
    (member : de ∈ (disk d).dirents) (used : de.inum ≠ 0) : Safe disk de.inum := by
  rcases (shape.dots d isDir).entry_cases member with self | parent | named
  · rw [self]
    exact safe
  · have above : (disk (disk d).parent).Live := by
      rcases safe.2 isDir with live | above
      · exact linked.parent_live live
      · exact above
    rw [parent]
    exact ⟨above.typed, fun _ => Or.inl above⟩
  · exact ⟨linked.typed d _ isDir used named,
      fun kind => Or.inl (linked.live_of_named shape isDir used named kind)⟩

variable (consistent : Consistent s) (homes : Homes s.view)

theorem Consistent.safe_root (consistent : Consistent s) : Safe s.disk ROOTINO :=
  ⟨consistent.linked.root.typed, fun _ => Or.inl consistent.linked.root⟩

include consistent in
theorem Homes.safe_cwd (homes : Homes s.view) {p : Fin NPROC} (cwd : cwdInum s p = some i) :
    Safe s.disk i :=
  ⟨consistent.tree.owned.held i ⟨.inl p, cwd⟩, fun _ => homes p i cwd⟩

theorem Consistent.safeWalk (consistent : Consistent s) :
    SafeWalk s.disk (· ≠ .ilockNoType) (Safe s.disk) where
  typed j safe free := absurd free safe.1
  closed := by
    intro d name off j safe isDir found
    grind [lookupFrom_some, safe.entry, consistent.shape, consistent.linked]

theorem resolveLoop_safe {disk : Inodes} {exc : Halt → Prop} {safe : Nat → Prop}
    (walk : SafeWalk disk exc safe) (parent : Bool) (fuel : Nat) :
    ∀ (i : Nat) (path : List Uchar) (j : Nat) (name : Name), safe i →
      resolveLoop disk parent fuel i path = some (j, name) → safe j := by
  induction fuel with
  | zero => intro i path j name _ found; cases found
  | succ fuel ih =>
    intro i path j name isSafe found
    rw [resolveLoop] at found
    grind [SafeWalk]

include consistent homes

theorem Homes.resolve_safe {p : Fin NPROC} {path : List Uchar} {parent : Bool} {name : Name}
    (found : resolve s p path parent = some (i, name)) : Safe s.disk i := by
  obtain ⟨start, isStart, found⟩ := Option.bind_eq_some_iff.mp found
  refine resolveLoop_safe consistent.safeWalk parent _ start path i name ?_ found
  rw [pathStart] at isStart
  split at isStart
  · cases isStart
    exact consistent.safe_root
  · exact homes.safe_cwd consistent isStart

theorem Homes.safe_of_reach (reach : Reach s.disk (PathStart s) i) : Safe s.disk i := by
  induction reach with
  | start first =>
    rcases first with rfl | ⟨p, cwd⟩
    · exact consistent.safe_root
    · exact homes.safe_cwd consistent cwd
  | step above isDir entry used ih =>
    exact ih.entry consistent.shape consistent.linked isDir entry used

theorem Homes.noDangling : NoDangling s where
  entries := by
    intro d reach isDir de member used
    have safe := homes.safe_of_reach consistent reach
    exact (safe.entry consistent.shape consistent.linked isDir member used).1
  lookups := by
    intro p path parent stopped
    have settled := consistent.quiet.settled
    have spec : wp (lookup p path parent) s (fun _ _ => True) (· ≠ .ilockNoType) := by
      refine wp_call (namex_spec (fun _ other => other) consistent.safeWalk consistent.safe_root
        (fun p i cwd => homes.safe_cwd consistent cwd) settled
        (consistent.tree.anchored settled 0) consistent.quiet.within p path parent) ?_
      rintro (_ | ⟨b, name⟩) t found
      · trivial
      · obtain ⟨j, safe, within, -⟩ := found
        exact wp_mono (ilock_only (fun _ other => other) within fun free => absurd free safe.1)
          fun _ _ _ => trivial
    exact wp_stops spec stopped rfl

end Lookup

/-! ## Runs -/

theorem Done.homes {s t : FS} {op : FsOp} (done : Done s (May s op) t) (consistent : Consistent s)
    (homes : Homes s.view) (harmless : StrandsNobody s op) : Homes t.view := by
  have start : Tree s.ninodes s.view ∧ Homes s.view := ⟨consistent.tree, homes⟩
  refine (done.2.change.preserves (fun v => Tree s.ninodes v ∧ Homes v) start ?_ ?_).2
  · intro event u allowed edit
    refine ⟨edit.keeps_tree consistent.tree, edit.keeps_homes consistent.tree homes ?_ ?_⟩
    · rintro d i rfl kind p c uses
      exact harmless.2 i (allowed kind) p c uses
    · rintro p j rfl
      obtain ⟨path, name, -, found⟩ := allowed
      have safe := homes.resolve_safe consistent found
      cases edit with
      | chdir was isDir release => exact safe.2 isDir
  · rintro u w ⟨tree, homes⟩ hold
    exact ⟨hold.keeps_tree tree, hold.keeps_homes homes⟩

/-- From a consistent image no entry dangles, and no lookup finds an inode
without a type, through every run whose calls strand nobody. -/
theorem no_entry_dangles (s : FS) (ops : List FsOp) (consistent : Consistent s)
    (homes : Homes s.view) (harmless : Along step StrandsNobody s ops) :
    Throughout step NoDangling s ops := by
  have kept : ∀ s op t, Consistent s ∧ Homes s.view → StrandsNobody s op → step s op = some t →
      Consistent t ∧ Homes t.view := by
    rintro s op t ⟨consistent, homes⟩ harmless taken
    have done := consistent.step_done harmless.1 taken
    exact ⟨done.consistent consistent, done.homes consistent homes harmless⟩
  exact throughout_of_along kept (fun _ both => both.2.noDangling both.1) ops s
    ⟨consistent, homes⟩ harmless

theorem rootOnly_homes : Homes rootOnly.view := by
  have all : ∀ p, rootOnly.view.uses (.inl p) = none ∨
      rootOnly.view.uses (.inl p) = some ROOTINO := by decide +kernel
  intro p c uses
  rcases all p with none | some
  · rw [none] at uses
    cases uses
  · rw [some] at uses
    cases uses
    exact Or.inl rootOnly_consistent.linked.root

def homecoming : List FsOp :=
  [.mkdir 0 (some (cstr "a")), .mkdir 0 (some (cstr "a/b")), .chdir 0 (some (cstr "a/b")),
    .unlink 1 (some (cstr "a/b")), .open_ 0 (some (cstr "f")) O_CREATE,
    .chdir 0 (some (cstr "../..")), .unlink 1 (some (cstr "a")), .exit 1]

theorem no_entry_dangles_homecoming :
    (run step rootOnly homecoming).isSome = true ∧ Along step StrandsNobody rootOnly homecoming ∧
      Throughout step NoDangling rootOnly homecoming := by
  have harmless : Along step StrandsNobody rootOnly homecoming := by decide +kernel
  refine ⟨by decide +kernel, harmless, ?_⟩
  exact no_entry_dangles rootOnly homecoming rootOnly_consistent rootOnly_homes harmless

def stranded : List FsOp :=
  [.mkdir 0 (some (cstr "a")), .mkdir 0 (some (cstr "a/b")), .chdir 0 (some (cstr "a/b")),
    .unlink 1 (some (cstr "a/b")), .unlink 1 (some (cstr "a"))]

/-- A process makes a directory in its removed current directory, enters it and
removes it. -/
def buried : List FsOp :=
  [.mkdir 0 (some (cstr "a")), .chdir 0 (some (cstr "a")), .unlink 1 (some (cstr "a")),
    .mkdir 0 (some (cstr "b")), .chdir 0 (some (cstr "b")), .unlink 0 (some (cstr "../b"))]

/-- The `..` of the first process names a free inode, and opening it stops the
kernel. -/
def Stuck (t : FS) : Prop :=
  cwdInum t 0 = some 3 ∧ ⟨2, cstr ".."⟩ ∈ (t.disk 3).dirents ∧ (t.disk 3).type = .T_DIR ∧
    (t.disk 2).type = .free ∧
    stops (call (.open_ 0 (some (cstr "..")) O_RDONLY)) t = some .ilockNoType

instance (t : FS) : Decidable (Stuck t) := inferInstanceAs (Decidable (_ ∧ _))

theorem Stuck.dangling {t : FS} (stuck : Stuck t) : ¬ NoDangling t := by
  obtain ⟨cwd, entry, isDir, free, -⟩ := stuck
  intro none
  exact none.entries 3 (.start (Or.inr ⟨0, cwd⟩)) isDir _ entry (by simp) free

/-- Both runs end with an entry that dangles. -/
theorem stranded_process_panics : Consistent rootOnly ∧ Homes rootOnly.view ∧
    (∃ t, run step rootOnly stranded = some t ∧ Stuck t ∧ ¬ NoDangling t) ∧
    ∃ t, run step rootOnly buried = some t ∧ Stuck t ∧ ¬ NoDangling t := by
  have ends : ∀ ops ∈ [stranded, buried],
      (run step rootOnly ops).any (fun t => decide (Stuck t)) = true := by decide +kernel
  have reached : ∀ ops ∈ [stranded, buried],
      ∃ t, run step rootOnly ops = some t ∧ Stuck t ∧ ¬ NoDangling t := by
    intro ops member
    obtain ⟨t, ran, stuck⟩ := (Option.any_eq_true _ _).mp (ends ops member)
    have stuck := of_decide_eq_true stuck
    exact ⟨t, ran, stuck, stuck.dangling⟩
  exact ⟨rootOnly_consistent, rootOnly_homes, reached stranded (by simp), reached buried (by simp)⟩

end Xv6Tracing.Fs
