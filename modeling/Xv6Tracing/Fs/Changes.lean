import Xv6Tracing.Fs.Tree

/-!
# Adding names

A call can make a new inode with its first name, or give an old one another
name.  Both keep the form of the inodes and the tree.
-/

set_option autoImplicit false

namespace Xv6Tracing.Fs

open Function (update update_of_ne update_self)

open Lib

section Create

def newInode (d i : Nat) (type : InodeType) (major minor : Short) : Dinode :=
  ⟨⟨type, major, minor, 1⟩, if type = .T_DIR then [⟨i, cstr "."⟩, ⟨d, cstr ".."⟩] else []⟩

def withNew (dip : Dinode) (i : Nat) (name : Name) (type : InodeType) : Dinode :=
  Dinode.add { dip with nlink := if type = .T_DIR then dip.nlink + 1 else dip.nlink } ⟨i, name⟩

def createDisk (disk : Inodes) (d i : Nat) (name : Name) (type : InodeType) (major minor : Short) :
    Inodes :=
  Function.update (Function.update disk i (newInode d i type major minor)) d
    (withNew (disk d) i name type)

/-- A directory gets a new inode; a new directory is not made in a removed one. -/
structure Creating (n : Nat) (disk : Inodes) (d i : Nat) (name : Name) (type : InodeType) :
    Prop where
  isDir : (disk d).type = .T_DIR
  plain : name ≠ cstr "." ∧ name ≠ cstr ".."
  free : (disk i).type = .free
  positive : 1 ≤ i
  inside : i < n
  typed : type ≠ .free
  attached : type = .T_DIR → (disk d).nlink ≠ 0

variable {n : Nat} {disk : Inodes} {d i : Nat} {name : Name} {type : InodeType}
  {major minor : Short}

theorem Creating.apart (creating : Creating n disk d i name type) : i ≠ d := by
  rintro rfl
  have free := creating.free
  rw [creating.isDir] at free
  simp at free

theorem Creating.ne_root (creating : Creating n disk d i name type) (linked : Linked n disk) :
    i ≠ ROOTINO := by
  rintro rfl
  exact linked.root.typed creating.free

theorem createDisk_dir : createDisk disk d i name type major minor d =
    withNew (disk d) i name type := update_self _ _ _

theorem createDisk_other {x : Nat} (notNew : x ≠ i) (notDir : x ≠ d) :
    createDisk disk d i name type major minor x = disk x := by
  rw [createDisk, update_of_ne notDir, update_of_ne notNew]

section At

variable (creating : Creating n disk d i name type)
include creating

theorem Creating.at_new : createDisk disk d i name type major minor i =
    newInode d i type major minor := by
  rw [createDisk, update_of_ne creating.apart, update_self]

theorem Creating.type_new :
    (createDisk disk d i name type major minor i).type = type := by
  rw [creating.at_new]
  rfl

variable {x y : Nat}

theorem Creating.type_old (old : x ≠ i) :
    (createDisk disk d i name type major minor x).type = (disk x).type := by
  by_cases isDir : x = d
  · subst isDir
    rw [createDisk_dir]
    rfl
  · rw [createDisk_other old isDir]

theorem Creating.live_old (old : x ≠ i) :
    (createDisk disk d i name type major minor x).Live ↔ (disk x).Live := by
  by_cases isDir : x = d
  · subst isDir
    rw [createDisk_dir]
    simp only [withNew, Dinode.add, Dinode.Live]
    grind [creating.attached]
  · rw [createDisk_other old isDir]

theorem Creating.names_new :
    (createDisk disk d i name type major minor i).names y = 0 := by
  rw [creating.at_new]
  simp only [newInode, Dinode.names, Dinode.entries]
  split <;> rfl

variable (shape : Shape n disk)
include shape

theorem Creating.dots (nlink : Nat) : Dinode.Dots { disk d with nlink := nlink } d :=
  (shape.dots d creating.isDir).of_dirents rfl

theorem Creating.parent_old (old : x ≠ i) :
    (createDisk disk d i name type major minor x).parent = (disk x).parent := by
  by_cases isDir : x = d
  · subst isDir
    rw [createDisk_dir, withNew, (creating.dots shape _).parent_add]
    rfl
  · rw [createDisk_other old isDir]

theorem Creating.names_dir (nonzero : y ≠ 0) :
    (createDisk disk d i name type major minor d).names y =
      (disk d).names y + if i = y then 1 else 0 := by
  rw [createDisk_dir, withNew, (creating.dots shape _).names_add _ nonzero]
  rfl

theorem Creating.names_le (nonzero : y ≠ 0) (old : x ≠ i) :
    (disk x).names y ≤ (createDisk disk d i name type major minor x).names y := by
  by_cases isDir : x = d
  · subst isDir
    rw [creating.names_dir shape nonzero]
    omega
  · rw [createDisk_other old isDir]

theorem Creating.names_old (nonzero : y ≠ 0) (oldName : y ≠ i) :
    (createDisk disk d i name type major minor x).names y = (disk x).names y := by
  by_cases isNew : x = i
  · have plain := shape.plain i (by rw [creating.free]; simp)
    rw [isNew, creating.names_new, Dinode.names_of_plain plain]
  · grind [creating.names_dir, createDisk_other]

theorem Creating.keeps_shape : Shape n (createDisk disk d i name type major minor) where
  small := shape.small
  range := by
    intro x typed
    by_cases isNew : x = i
    · rw [isNew]
      exact ⟨creating.positive, creating.inside⟩
    · rw [creating.type_old isNew] at typed
      exact shape.range x typed
  plain := by
    intro x notDir
    by_cases isNew : x = i
    · subst isNew
      rw [creating.type_new] at notDir
      rw [creating.at_new]
      simp [newInode, notDir]
    · grind [creating.type_old, creating.isDir, createDisk_other, shape.plain]
  dots := by
    intro x isDir
    by_cases isNew : x = i
    · subst isNew
      rw [creating.type_new] at isDir
      have up := (shape.dots d creating.isDir).self
      have positive := creating.positive
      rw [creating.at_new]
      refine ⟨⟨[], ?_⟩, by omega, ?_, ?_⟩
      · simp [newInode, isDir, Dinode.parent]
      · simpa [newInode, isDir, Dinode.parent] using up
      · simp [newInode, isDir, Dinode.entries]
    · rw [creating.type_old isNew] at isDir
      by_cases here : x = d
      · subst here
        rw [createDisk_dir]
        exact (creating.dots shape _).add creating.plain
      · rw [createDisk_other isNew here]
        exact shape.dots x isDir

theorem Creating.linkCount (nonzero : y ≠ 0) :
    linkCount n (createDisk disk d i name type major minor) y =
      Fs.linkCount n disk y + (if i = y then 1 else 0) + if type = .T_DIR ∧ d = y then 1 else 0 := by
  have first := linkCount_update disk creating.inside (newInode d i type major minor) y
  have second := linkCount_update (update disk i (newInode d i type major minor))
    (shape.dir_lt creating.isDir) (withNew (disk d) i name type) y
  rw [update_of_ne (Ne.symm creating.apart)] at second
  have oldNew : (disk i).links y = 0 :=
    links_of_not_dir (by rw [creating.free]; simp) y
  have new : (newInode d i type major minor).links y =
      if type = .T_DIR ∧ d = y then 1 else 0 := by
    by_cases makesDir : type = .T_DIR
    · simp [Dinode.links, newInode, makesDir, Dinode.names, Dinode.entries, Dinode.parent]
    · simp [Dinode.links, newInode, makesDir]
  have dir : (withNew (disk d) i name type).links y =
      (disk d).links y + if i = y then 1 else 0 := by
    have names : (createDisk disk d i name type major minor d).names y = _ :=
      creating.names_dir shape nonzero
    have parent : (createDisk disk d i name type major minor d).parent = _ :=
      creating.parent_old shape (Ne.symm creating.apart)
    have live : (createDisk disk d i name type major minor d).Live ↔ _ :=
      creating.live_old (Ne.symm creating.apart)
    rw [createDisk_dir] at names parent live
    have kind : (withNew (disk d) i name type).type = .T_DIR := creating.isDir
    have links : (withNew (disk d) i name type).nlink ≠ 0 ↔ (disk d).nlink ≠ 0 := by
      simpa only [Dinode.Live, kind, creating.isDir, true_and] using live
    rw [Dinode.links, Dinode.links, if_pos kind, if_pos creating.isDir, names, parent]
    simp only [links]
    omega
  show Fs.linkCount n (update _ d _) y = _
  omega

omit shape in
theorem Creating.nlink_old (old : x ≠ i) :
    (createDisk disk d i name type major minor x).nlink =
      (disk x).nlink + if type = .T_DIR ∧ d = x then 1 else 0 := by
  by_cases isDir : x = d
  · subst isDir
    rw [createDisk_dir]
    by_cases makesDir : type = .T_DIR <;> simp [withNew, Dinode.add, makesDir]
  · rw [createDisk_other old isDir, if_neg fun both => isDir both.2.symm, Nat.add_zero]

variable (linked : Linked n disk)
include linked

theorem Creating.linkCount_new :
    Fs.linkCount n (createDisk disk d i name type major minor) i =
      (createDisk disk d i name type major minor i).nlink := by
  have positive := creating.positive
  rw [creating.linkCount shape (by omega), linked.linkCount_free (by omega) creating.free,
    if_pos rfl, if_neg fun both => creating.apart both.2.symm, creating.at_new]
  rfl

theorem Creating.keeps_linked : Linked n (createDisk disk d i name type major minor) where
  root := by
    rw [creating.live_old (Ne.symm (creating.ne_root linked))]
    exact linked.root
  rootParent := by
    rw [creating.parent_old shape (Ne.symm (creating.ne_root linked))]
    exact linked.rootParent
  up := by
    intro x live notRoot
    by_cases isNew : x = i
    · subst isNew
      have makesDir : type = .T_DIR := by
        have kind := live.1
        rwa [creating.type_new] at kind
      have parent : (createDisk disk d x name type major minor x).parent = d := by
        rw [creating.at_new]
        simp [newInode, makesDir, Dinode.parent]
      have positive := creating.positive
      rw [parent, creating.live_old (Ne.symm creating.apart),
        creating.names_dir shape (by omega), if_pos rfl]
      exact ⟨⟨creating.isDir, creating.attached makesDir⟩, Nat.succ_pos _⟩
    · rw [creating.live_old isNew] at live
      obtain ⟨above, entry⟩ := linked.up x live notRoot
      have nonzero := (shape.range x live.typed).1
      have oldParent : (disk x).parent ≠ i := by
        intro same
        rw [same] at above
        exact above.typed creating.free
      rw [creating.parent_old shape isNew, creating.live_old oldParent]
      exact ⟨above, Nat.lt_of_lt_of_le entry (creating.names_le shape (by omega) oldParent)⟩
  typed := by
    intro x y isDir nonzero entry
    by_cases newName : y = i
    · rw [newName, creating.type_new]
      exact creating.typed
    · grind [creating.names_old, creating.type_old, shape.plain, Dinode.names_of_plain,
        linked.typed]
  down := by
    intro x y isDir nonzero entry target
    have notNew : x ≠ i := by
      rintro rfl
      rw [creating.names_new] at entry
      exact Nat.lt_irrefl 0 entry
    rw [creating.type_old notNew] at isDir
    have noOld : (disk x).names i = 0 := by grind [creating.positive, linked.typed, creating.free]
    by_cases newName : y = i
    · subst newName
      rw [creating.type_new] at target
      have here : x = d := by
        by_contra elsewhere
        rw [createDisk_other notNew elsewhere, noOld] at entry
        exact Nat.lt_irrefl 0 entry
      subst here
      refine ⟨?_, ?_, creating.ne_root linked, ?_⟩
      · rw [creating.live_old notNew]
        exact ⟨creating.isDir, creating.attached target⟩
      · rw [creating.at_new]
        simp [newInode, target, Dinode.parent]
      · rw [creating.names_dir shape nonzero, if_pos rfl, noOld]
    grind [creating.names_old, creating.type_old, creating.live_old, creating.parent_old,
        linked.down]
  enough := by
    intro y typed
    by_cases isNew : y = i
    · rw [isNew, creating.linkCount_new shape linked]
    · rw [creating.type_old isNew] at typed
      have nonzero := (shape.range y typed).1
      rw [creating.linkCount shape (by omega), if_neg (Ne.symm isNew), creating.nlink_old isNew]
      have old := linked.enough y typed
      omega
  exact_ := by
    intro y isDir
    by_cases isNew : y = i
    · rw [isNew, creating.linkCount_new shape linked]
    · rw [creating.type_old isNew] at isDir
      have nonzero := (shape.dots y isDir).self
      rw [creating.linkCount shape nonzero, if_neg (Ne.symm isNew), creating.nlink_old isNew,
        linked.exact_ y isDir]
      omega
  below := by
    have older : ∀ x, (disk x).Live → Below (createDisk disk d i name type major minor) x := by
      intro x live
      refine (linked.below x live).transfer (fun _ => True) ?_ live.1 trivial
      intro x y isDir nonzero entry _ _
      have old : x ≠ i := by
        rintro rfl
        rw [creating.free] at isDir
        simp at isDir
      rw [creating.type_old old]
      exact ⟨trivial, isDir, Nat.lt_of_lt_of_le entry (creating.names_le shape nonzero old)⟩
    intro x live
    by_cases isNew : x = i
    · subst isNew
      have makesDir : type = .T_DIR := by
        have kind := live.1
        rwa [creating.type_new] at kind
      have positive := creating.positive
      refine .step (older d ⟨creating.isDir, creating.attached makesDir⟩) ?_ (by omega) ?_
      · rw [creating.type_old (Ne.symm creating.apart)]
        exact creating.isDir
      · rw [creating.names_dir shape (by omega), if_pos rfl]
        exact Nat.succ_pos _
    · rw [creating.live_old isNew] at live
      exact older x live

end At

end Create

/-! ## Names of files -/

theorem Linked.of_same_dirs {n : Nat} {disk disk' : Inodes} (linked : Linked n disk)
    (shape : Shape n disk) (types : ∀ x, (disk' x).type = (disk x).type)
    (lives : ∀ x, (disk' x).Live ↔ (disk x).Live)
    (parents : ∀ x, (disk x).type = .T_DIR → (disk' x).parent = (disk x).parent)
    (names : ∀ x y, (disk x).type = .T_DIR → y ≠ 0 → (disk y).type = .T_DIR →
      (disk' x).names y = (disk x).names y)
    (typed : ∀ x y, (disk x).type = .T_DIR → y ≠ 0 → 0 < (disk' x).names y →
      (disk y).type ≠ .free)
    (enough : ∀ y, (disk y).type ≠ .free → linkCount n disk' y ≤ (disk' y).nlink)
    (exact_ : ∀ y, (disk y).type = .T_DIR → linkCount n disk' y = (disk' y).nlink) :
    Linked n disk' where
  root := (lives _).mpr linked.root
  rootParent := by
    rw [parents _ linked.root.1]
    exact linked.rootParent
  up := by
    intro x live notRoot
    rw [lives] at live
    have nonzero := (shape.dots x live.1).self
    obtain ⟨above, entry⟩ := linked.up x live notRoot
    rw [parents x live.1, lives, names _ x above.1 nonzero live.1]
    exact ⟨above, entry⟩
  typed := by
    intro x y isDir nonzero entry
    rw [types] at isDir ⊢
    exact typed x y isDir nonzero entry
  down := by grind [linked.down]
  enough := by
    intro y typed
    rw [types] at typed
    exact enough y typed
  exact_ := by
    intro y isDir
    rw [types] at isDir
    exact exact_ y isDir
  below := by
    intro x live
    rw [lives] at live
    refine (linked.below x live).transfer (fun _ => True) ?_ live.1 trivial
    grind

section Link

def linkDisk (disk : Inodes) (d i : Nat) (name : Name) : Inodes :=
  Function.update (Function.update disk i { disk i with nlink := (disk i).nlink + 1 }) d
    ((disk d).add ⟨i, name⟩)

structure Linking (disk : Inodes) (d i : Nat) (name : Name) : Prop where
  isDir : (disk d).type = .T_DIR
  plain : name ≠ cstr "." ∧ name ≠ cstr ".."
  typed : (disk i).type ≠ .free
  notDir : (disk i).type ≠ .T_DIR

variable {n : Nat} {disk : Inodes} {d i : Nat} {name : Name}

theorem Linking.apart (linking : Linking disk d i name) : i ≠ d := by
  rintro rfl
  exact linking.notDir linking.isDir

theorem linkDisk_dir : linkDisk disk d i name d = (disk d).add ⟨i, name⟩ :=
  update_self _ _ _

variable {x : Nat}

theorem linkDisk_other (notFile : x ≠ i) (notDir : x ≠ d) :
    linkDisk disk d i name x = disk x := by
  rw [linkDisk, update_of_ne notDir, update_of_ne notFile]

variable (linking : Linking disk d i name)
include linking

theorem Linking.at_file : linkDisk disk d i name i =
    { disk i with nlink := (disk i).nlink + 1 } := by
  rw [linkDisk, update_of_ne linking.apart, update_self]

theorem Linking.type_eq (x : Nat) : (linkDisk disk d i name x).type = (disk x).type := by
  by_cases isFile : x = i
  · rw [isFile, linking.at_file]
  · by_cases isDir : x = d
    · rw [isDir, linkDisk_dir]
      rfl
    · rw [linkDisk_other isFile isDir]

theorem Linking.nlink_eq (x : Nat) : (linkDisk disk d i name x).nlink =
    (disk x).nlink + if i = x then 1 else 0 := by
  by_cases isFile : x = i
  · rw [isFile, linking.at_file, if_pos rfl]
  · rw [if_neg (Ne.symm isFile)]
    by_cases isDir : x = d
    · rw [isDir, linkDisk_dir]
      rfl
    · rw [linkDisk_other isFile isDir]
      rfl

theorem Linking.live_iff (x : Nat) : (linkDisk disk d i name x).Live ↔ (disk x).Live := by
  rw [Dinode.Live, Dinode.Live, linking.type_eq]
  grind [linking.notDir, linking.nlink_eq]

variable (shape : Shape n disk)
include shape

theorem Linking.parent_eq (isDir : (disk x).type = .T_DIR) :
    (linkDisk disk d i name x).parent = (disk x).parent := by
  have notFile : x ≠ i := by
    rintro rfl
    exact linking.notDir isDir
  by_cases here : x = d
  · rw [here, linkDisk_dir]
    exact (shape.dots d linking.isDir).parent_add _
  · rw [linkDisk_other notFile here]

theorem Linking.names_eq {y : Nat} (nonzero : y ≠ 0) :
    (linkDisk disk d i name x).names y =
      (disk x).names y + if d = x ∧ i = y then 1 else 0 := by
  by_cases here : x = d
  · subst here
    rw [linkDisk_dir, (shape.dots x linking.isDir).names_add _ nonzero]
    simp
  · rw [if_neg fun both => here both.1.symm, Nat.add_zero]
    by_cases isFile : x = i
    · rw [isFile, linking.at_file]
      rfl
    · rw [linkDisk_other isFile here]

theorem Linking.linkCount {y : Nat} (nonzero : y ≠ 0) :
    linkCount n (linkDisk disk d i name) y = Fs.linkCount n disk y + if i = y then 1 else 0 := by
  have first := linkCount_update disk (shape.range i linking.typed).2
    { disk i with nlink := (disk i).nlink + 1 } y
  have second := linkCount_update
    (update disk i { disk i with nlink := (disk i).nlink + 1 })
    (shape.dir_lt linking.isDir) ((disk d).add ⟨i, name⟩) y
  rw [update_of_ne (Ne.symm linking.apart)] at second
  have file : (disk i).links y = 0 := links_of_not_dir linking.notDir y
  have file' : Dinode.links { disk i with nlink := (disk i).nlink + 1 } y = 0 :=
    if_neg linking.notDir
  have dir : ((disk d).add ⟨i, name⟩).links y = (disk d).links y + if i = y then 1 else 0 :=
    (shape.dots d linking.isDir).links_add linking.isDir _ nonzero
  show Fs.linkCount n (update _ d _) y = _
  omega

theorem Linking.keeps_shape : Shape n (linkDisk disk d i name) where
  small := shape.small
  range := by
    intro x typed
    rw [linking.type_eq] at typed
    exact shape.range x typed
  plain := by grind [linking.type_eq, linking.isDir, linking.at_file, shape.plain, linkDisk_other]
  dots := by
    intro x isDir
    rw [linking.type_eq] at isDir
    have notFile : x ≠ i := by
      rintro rfl
      exact linking.notDir isDir
    by_cases here : x = d
    · subst here
      rw [linkDisk_dir]
      exact (shape.dots x isDir).add linking.plain
    · rw [linkDisk_other notFile here]
      exact shape.dots x isDir

theorem Linking.keeps_linked (linked : Linked n disk) : Linked n (linkDisk disk d i name) := by
  refine linked.of_same_dirs shape linking.type_eq linking.live_iff
    (fun x isDir => linking.parent_eq shape isDir) ?_ ?_ ?_ ?_
  · intro x y _ nonzero target
    rw [linking.names_eq shape nonzero, if_neg, Nat.add_zero]
    rintro ⟨-, rfl⟩
    exact linking.notDir target
  · intro x y isDir nonzero entry
    rw [linking.names_eq shape nonzero] at entry
    by_cases isFile : i = y
    · exact isFile ▸ linking.typed
    · rw [if_neg fun both => isFile both.2] at entry
      exact linked.typed x y isDir nonzero entry
  · intro y typed
    have nonzero := (shape.range y typed).1
    rw [linking.linkCount shape (by omega), linking.nlink_eq]
    have old := linked.enough y typed
    omega
  · intro y isDir
    rw [linking.linkCount shape (shape.dots y isDir).self, linking.nlink_eq,
      linked.exact_ y isDir]

end Link

end Xv6Tracing.Fs
