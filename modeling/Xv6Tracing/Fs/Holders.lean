import Xv6Tracing.Fs.Removal

/-!
# Who uses the inodes

The file system as its users see it: the inodes on the disk, the current directory of
each process and the inode of each open file.  A system call makes at most one change to
names and current directories, and then opens or closes files; this module says what each
of these keeps.
-/

set_option autoImplicit false

namespace Xv6Tracing.Fs

abbrev User : Type := Fin NPROC ⊕ Fin NFILE

structure View where
  disk : Inodes
  uses : User → Option Nat

namespace View

def Held (v : View) (i : Nat) : Prop := ∃ u, v.uses u = some i

def setUse (v : View) (u : User) (c : Option Nat) : View :=
  { v with uses := Function.update v.uses u c }

end View

/-- A reference to `i` goes, and the inode with it unless it has a link or is
still used. -/
inductive Released (used : Prop) (disk : Inodes) (i : Nat) : Inodes → Prop where
  | kept (needed : (disk i).nlink ≠ 0 ∨ used) : Released used disk i disk
  | freed (noLinks : (disk i).nlink = 0) (unused : ¬ used) : Released used disk i (freeDisk disk i)

/-- A view after one of its references to `i` is gone. -/
def View.Release (v : View) (i : Nat) (w : View) : Prop :=
  ∃ disk, Released (v.Held i) v.disk i disk ∧ w = { v with disk := disk }

inductive Event where
  | create (d i : Nat) (type : InodeType)
  | link (d i : Nat)
  | unlink (d i : Nat)
  | chdir (p : Fin NPROC) (i : Nat)

inductive Edit (n : Nat) (v : View) : Event → View → Prop where
  | create {d i : Nat} {name : Name} {type : InodeType} {major minor : Short}
      (creating : Creating n v.disk d i name type) :
      Edit n v (.create d i type) { v with disk := createDisk v.disk d i name type major minor }
  | link {d i : Nat} {name : Name} (linking : Linking v.disk d i name) :
      Edit n v (.link d i) { v with disk := linkDisk v.disk d i name }
  | unlink {d i k : Nat} {w : View} (unlinking : Unlinking v.disk d i k)
      (release : View.Release { v with disk := unlinkDisk v.disk d i (k + 2) } i w) :
      Edit n v (.unlink d i) w
  | chdir {p : Fin NPROC} {i j : Nat} {w : View} (was : v.uses (.inl p) = some i)
      (isDir : (v.disk j).type = .T_DIR) (release : (v.setUse (.inl p) (some j)).Release i w) :
      Edit n v (.chdir p j) w

inductive Hold (v : View) : View → Prop where
  | open_ {f : Fin NFILE} {i : Nat} (unused : v.uses (.inr f) = none)
      (typed : (v.disk i).type ≠ .free) : Hold v (v.setUse (.inr f) (some i))
  | leave {u : User} {i : Nat} {w : View} (was : v.uses u = some i)
      (release : (v.setUse u none).Release i w) : Hold v w

/-- A call whose change, if it makes one, is of the kinds in `may`. -/
def Change (n : Nat) (may : Event → Prop) (v w : View) : Prop :=
  ∃ u, (u = v ∨ ∃ event, may event ∧ Edit n v event u) ∧ Relation.ReflTransGen Hold u w

section Rules

variable {n : Nat} {may : Event → Prop} {v u w : View}

theorem Change.none : Change n may v v := ⟨v, Or.inl rfl, .refl⟩

theorem Change.edit {event : Event} (allowed : may event) (edit : Edit n v event w) :
    Change n may v w := ⟨w, Or.inr ⟨event, allowed, edit⟩, .refl⟩

theorem Change.hold (first : Change n may v u) (hold : Hold u w) : Change n may v w := by
  obtain ⟨x, edited, holds⟩ := first
  exact ⟨x, edited, holds.tail hold⟩

theorem Change.preserves (inv : View → Prop) (change : Change n may v w) (start : inv v)
    (edits : ∀ event u, may event → Edit n v event u → inv u)
    (holds : ∀ u w, inv u → Hold u w → inv w) : inv w := by
  obtain ⟨u, edited, chain⟩ := change
  have first : inv u := by
    rcases edited with rfl | ⟨event, allowed, edit⟩
    · exact start
    · exact edits event u allowed edit
  induction chain with
  | refl => exact first
  | tail _ hold ih => exact holds _ _ ih hold

end Rules

/-! ## Users and references -/

section Held

variable {v : View} {u : User} {i x : Nat} {c : Option Nat}

theorem View.setUse_setUse (v : View) (u : User) (b c : Option Nat) :
    (v.setUse u b).setUse u c = v.setUse u c := by
  simp only [View.setUse, Function.update_idem]

theorem View.held_setUse (held : (v.setUse u c).Held x) : v.Held x ∨ c = some x := by
  obtain ⟨other, uses⟩ := held
  by_cases same : other = u
  · subst same
    exact Or.inr (by simpa [View.setUse] using uses)
  · exact Or.inl ⟨other, by simpa [View.setUse, same] using uses⟩

theorem View.held_of_setUse (was : ∀ i, v.uses u = some i → x ≠ i) (held : v.Held x) :
    (v.setUse u c).Held x := by
  obtain ⟨other, uses⟩ := held
  refine ⟨other, ?_⟩
  have apart : other ≠ u := by
    rintro rfl
    exact was x uses rfl
  simpa [View.setUse, apart] using uses

end Held

/-! ## The tree and its users -/

/-- Inodes in use are allocated, those without links have a user, and current
directories are directories. -/
structure Owned (v : View) : Prop where
  orphan : ∀ i, (v.disk i).type ≠ .free → (v.disk i).nlink = 0 → v.Held i
  held : ∀ i, v.Held i → (v.disk i).type ≠ .free
  cwds : ∀ p i, v.uses (.inl p) = some i → (v.disk i).type = .T_DIR

structure Tree (n : Nat) (v : View) : Prop where
  shape : Shape n v.disk
  linked : Linked n v.disk
  owned : Owned v

section Keep

variable {n : Nat} {v w : View} {i : Nat}

theorem Tree.withDisk {disk : Inodes} (shape : Shape n disk) (linked : Linked n disk)
    (orphan : ∀ x, (disk x).type ≠ .free → (disk x).nlink = 0 → v.Held x)
    (held : ∀ x, v.Held x → (disk x).type ≠ .free)
    (cwds : ∀ p x, v.uses (.inl p) = some x → (disk x).type = .T_DIR) : Tree n { v with disk := disk } :=
  ⟨shape, linked, orphan, held, cwds⟩

/-- Releasing the one inode that may lack both links and users. -/
theorem View.Release.keeps_tree (release : v.Release i w) (shape : Shape n v.disk)
    (linked : Linked n v.disk) (typed : (v.disk i).type ≠ .free)
    (orphan : ∀ x, x ≠ i → (v.disk x).type ≠ .free → (v.disk x).nlink = 0 → v.Held x)
    (held : ∀ x, v.Held x → (v.disk x).type ≠ .free)
    (cwds : ∀ p x, v.uses (.inl p) = some x → (v.disk x).type = .T_DIR) : Tree n w := by
  obtain ⟨disk, released, rfl⟩ := release
  cases released with
  | kept needed =>
    refine ⟨shape, linked, ?_, held, cwds⟩
    intro x allocated noLinks
    by_cases here : x = i
    · subst here
      exact needed.resolve_left fun links => links noLinks
    · exact orphan x here allocated noLinks
  | freed noLinks unused =>
    have others : ∀ x, v.Held x → freeDisk v.disk i x = v.disk x := by
      intro x inUse
      refine freeDisk_other ?_
      rintro rfl
      exact unused inUse
    refine Tree.withDisk (freeDisk_shape shape)
      (freeDisk_linked shape linked typed noLinks) ?_ ?_ ?_
    · intro x allocated noLinks
      grind [ne_of_freeDisk_typed, freeDisk_other]
    · intro x inUse
      rw [others x inUse]
      exact held x inUse
    · intro p x cwd
      rw [others x ⟨.inl p, cwd⟩]
      exact cwds p x cwd

variable (tree : Tree n v)
include tree

variable {d : Nat}

theorem Creating.keeps_tree {name : Name} {type : InodeType} {major minor : Short}
    (creating : Creating n v.disk d i name type) :
    Tree n { v with disk := createDisk v.disk d i name type major minor } := by
  have old : ∀ x, v.Held x → x ≠ i := by
    rintro x held rfl
    exact tree.owned.held x held creating.free
  refine Tree.withDisk (creating.keeps_shape tree.shape)
    (creating.keeps_linked tree.shape tree.linked) ?_ ?_ ?_
  · intro x typed noLinks
    by_cases isNew : x = i
    · subst isNew
      rw [creating.at_new] at noLinks
      simp [newInode] at noLinks
    · rw [creating.type_old isNew] at typed
      rw [creating.nlink_old isNew] at noLinks
      exact tree.owned.orphan x typed (by omega)
  · intro x held
    rw [creating.type_old (old x held)]
    exact tree.owned.held x held
  · intro p x cwd
    rw [creating.type_old (old x ⟨.inl p, cwd⟩)]
    exact tree.owned.cwds p x cwd

theorem Linking.keeps_tree {name : Name} (linking : Linking v.disk d i name) :
    Tree n { v with disk := linkDisk v.disk d i name } := by
  refine Tree.withDisk (linking.keeps_shape tree.shape)
    (linking.keeps_linked tree.shape tree.linked) ?_ ?_ ?_
  · grind [linking.type_eq, linking.nlink_eq, tree.owned.orphan]
  · intro x held
    rw [linking.type_eq]
    exact tree.owned.held x held
  · intro p x cwd
    rw [linking.type_eq]
    exact tree.owned.cwds p x cwd

theorem Unlinking.nlink_zero {k x : Nat} (unlinking : Unlinking v.disk d i k) (other : x ≠ i)
    (noLinks : (unlinkDisk v.disk d i (k + 2) x).nlink = 0) : (v.disk x).nlink = 0 := by
  have balance := unlinking.nlink_eq tree.shape tree.linked other
  by_cases lost : (v.disk i).type = .T_DIR ∧ d = x
  · grind [unlinking.dir_two, tree.shape, tree.linked]
  · rw [if_neg lost, noLinks] at balance
    omega

theorem Unlinking.keeps_tree {k : Nat} (unlinking : Unlinking v.disk d i k)
    (release : View.Release { v with disk := unlinkDisk v.disk d i (k + 2) } i w) : Tree n w := by
  refine release.keeps_tree (unlinking.keeps_shape tree.shape)
    (unlinking.keeps_linked tree.shape tree.linked) ?_ ?_ ?_ ?_
  · grind [unlinking.type_eq, tree.linked.typed, unlinking.named, Unlinking]
  · intro x other typed noLinks
    rw [unlinking.type_eq] at typed
    exact tree.owned.orphan x typed (unlinking.nlink_zero tree other noLinks)
  · intro x held
    show (unlinkDisk v.disk d i (k + 2) x).type ≠ .free
    rw [unlinking.type_eq]
    exact tree.owned.held x held
  · grind [unlinking.type_eq, tree.owned.cwds]

theorem Tree.setUse {u : User} {c : Option Nat} (was : v.uses u = some i)
    (typed : ∀ j, c = some j → (v.disk j).type ≠ .free)
    (isDir : ∀ p j, u = .inl p → c = some j → (v.disk j).type = .T_DIR)
    (release : (v.setUse u c).Release i w) : Tree n w := by
  refine release.keeps_tree tree.shape tree.linked (tree.owned.held i ⟨u, was⟩) ?_ ?_ ?_
  · intro x other allocated noLinks
    refine View.held_of_setUse ?_ (tree.owned.orphan x allocated noLinks)
    rintro j uses rfl
    exact other (Option.some.inj (uses.symm.trans was))
  · intro x held
    rcases View.held_setUse held with old | new
    · exact tree.owned.held x old
    · exact typed x new
  · intro p x cwd
    by_cases same : .inl p = u
    · exact isDir p x same.symm (by simpa [View.setUse, same] using cwd)
    · exact tree.owned.cwds p x (by simpa [View.setUse, same] using cwd)

theorem Edit.keeps_tree {event : Event} (edit : Edit n v event w) : Tree n w := by
  cases edit with
  | create creating => exact creating.keeps_tree tree
  | link linking => exact linking.keeps_tree tree
  | unlink unlinking release => exact unlinking.keeps_tree tree release
  | chdir was isDir release =>
    refine tree.setUse was ?_ ?_ release
    · rintro j ⟨⟩
      rw [isDir]
      simp
    · rintro p j - ⟨⟩
      exact isDir

theorem Hold.keeps_tree (hold : Hold v w) : Tree n w := by
  cases hold with
  | @open_ f i unused typed =>
    refine ⟨tree.shape, tree.linked, ?_, ?_, ?_⟩
    · intro x allocated noLinks
      refine View.held_of_setUse ?_ (tree.owned.orphan x allocated noLinks)
      intro j uses
      rw [unused] at uses
      cases uses
    · intro x held
      rcases View.held_setUse held with old | new
      · exact tree.owned.held x old
      · cases new
        exact typed
    · intro p x cwd
      exact tree.owned.cwds p x (by simpa [View.setUse] using cwd)
  | leave was release =>
    refine tree.setUse was ?_ ?_ release
    · rintro j ⟨⟩
    · rintro p j - ⟨⟩

theorem Change.keeps_tree {may : Event → Prop} (change : Change n may v w) : Tree n w :=
  change.preserves (Tree n) tree (fun _ _ _ edit => edit.keeps_tree tree) fun _ _ tree hold =>
    hold.keeps_tree tree

end Keep

end Xv6Tracing.Fs
