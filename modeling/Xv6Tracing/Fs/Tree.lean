import Xv6Tracing.Lib.Count
import Xv6Tracing.Fs.Specs

/-!
# The directory tree

The inodes on the disk as a graph: directories that have links hang together as a tree
below the root, those without links have been removed and are there for those who still
use them, and the link counts account for the entries.
-/

set_option autoImplicit false

namespace Xv6Tracing.Fs

open Lib

abbrev Inodes := Nat → Dinode

namespace Dinode

variable (dip : Dinode)

def entries : List Dirent := dip.dirents.drop 2

def names (i : Nat) : Nat := dip.entries.countP fun de => decide (de.inum = i)

def parent : Nat :=
  match dip.dirents with
  | _ :: dotdot :: _ => dotdot.inum
  | _ => 0

def Live : Prop := dip.type = .T_DIR ∧ dip.nlink ≠ 0

instance : Decidable dip.Live := inferInstanceAs (Decidable (_ ∧ _))

/-- The links that a directory gives to an inode: its entries, and `..` while it
has not been removed. -/
def links (i : Nat) : Nat :=
  if dip.type = .T_DIR then dip.names i + if dip.nlink ≠ 0 ∧ dip.parent = i then 1 else 0 else 0

/-- A directory starts with `.` and `..`, and no other entry has these names. -/
structure Dots (d : Nat) : Prop where
  start : ∃ rest, dip.dirents = ⟨d, cstr "."⟩ :: ⟨dip.parent, cstr ".."⟩ :: rest
  self : d ≠ 0
  up : dip.parent ≠ 0
  plain : ∀ de ∈ dip.entries, de.inum ≠ 0 → de.name ≠ cstr "." ∧ de.name ≠ cstr ".."

end Dinode

def linkCount (n : Nat) (disk : Inodes) (i : Nat) : Nat := ∑ d ∈ Finset.range n, (disk d).links i

inductive Below (disk : Inodes) : Nat → Prop where
  | root : Below disk ROOTINO
  | step {d i : Nat} (above : Below disk d) (isDir : (disk d).type = .T_DIR) (nonzero : i ≠ 0)
      (entry : 0 < (disk d).names i) : Below disk i

inductive Reach (disk : Inodes) (start : Nat → Prop) : Nat → Prop where
  | start {i : Nat} (first : start i) : Reach disk start i
  | step {d : Nat} {de : Dirent} (above : Reach disk start d) (isDir : (disk d).type = .T_DIR)
      (entry : de ∈ (disk d).dirents) (used : de.inum ≠ 0) : Reach disk start de.inum

structure Shape (n : Nat) (disk : Inodes) : Prop where
  small : n ≤ 2 ^ 16
  range : ∀ i, (disk i).type ≠ .free → 1 ≤ i ∧ i < n
  plain : ∀ i, (disk i).type ≠ .T_DIR → (disk i).dirents = []
  dots : ∀ d, (disk d).type = .T_DIR → (disk d).Dots d

structure Linked (n : Nat) (disk : Inodes) : Prop where
  root : (disk ROOTINO).Live
  rootParent : (disk ROOTINO).parent = ROOTINO
  up : ∀ d, (disk d).Live → d ≠ ROOTINO →
    (disk (disk d).parent).Live ∧ 0 < (disk (disk d).parent).names d
  typed : ∀ d i, (disk d).type = .T_DIR → i ≠ 0 → 0 < (disk d).names i → (disk i).type ≠ .free
  down : ∀ d i, (disk d).type = .T_DIR → i ≠ 0 → 0 < (disk d).names i → (disk i).type = .T_DIR →
    (disk d).Live ∧ (disk i).parent = d ∧ i ≠ ROOTINO ∧ (disk d).names i = 1
  enough : ∀ i, (disk i).type ≠ .free → linkCount n disk i ≤ (disk i).nlink
  exact_ : ∀ i, (disk i).type = .T_DIR → linkCount n disk i = (disk i).nlink
  below : ∀ d, (disk d).Live → Below disk d

/-! ## Small facts -/

section Facts

variable {n : Nat} {disk : Inodes} {d i : Nat}

variable {dip : Dinode}

theorem Dinode.Live.typed (live : dip.Live) : dip.type ≠ .free := by
  rw [live.1]
  simp

theorem Dinode.Dots.of_dirents {dip' : Dinode} (dots : dip.Dots d)
    (same : dip'.dirents = dip.dirents) : dip'.Dots d := by
  obtain ⟨start, self, up, plain⟩ := dots
  simp only [Dinode.parent, Dinode.entries] at start up plain
  constructor
  all_goals simpa only [Dinode.parent, Dinode.entries, same]

theorem Dinode.names_of_plain (plain : dip.dirents = []) (i : Nat) :
    dip.names i = 0 := by
  simp [Dinode.names, Dinode.entries, plain]

theorem Dinode.names_pos {i : Nat} (positive : 0 < dip.names i) :
    ∃ de ∈ dip.entries, de.inum = i := by
  obtain ⟨de, member, inum⟩ := List.countP_pos_iff.mp positive
  exact ⟨de, member, by simpa using inum⟩

variable {de : Dirent}

theorem Dinode.names_pos_of_mem (member : de ∈ dip.entries) :
    0 < dip.names de.inum :=
  List.countP_pos_iff.mpr ⟨de, member, by simp⟩

/-- An entry in use is `.`, `..`, or one that `names` counts. -/
theorem Dinode.Dots.entry_cases (dots : dip.Dots d) (member : de ∈ dip.dirents) :
    de.inum = d ∨ de.inum = dip.parent ∨ 0 < dip.names de.inum := by
  obtain ⟨rest, start⟩ := dots.start
  have entries : dip.entries = rest := by rw [Dinode.entries, start]; rfl
  rw [start] at member
  rcases List.mem_cons.mp member with rfl | member
  · exact Or.inl rfl
  rcases List.mem_cons.mp member with rfl | member
  · exact Or.inr (Or.inl rfl)
  · rw [← entries] at member
    exact Or.inr (Or.inr (Dinode.names_pos_of_mem member))

theorem Shape.dir_lt (shape : Shape n disk) (isDir : (disk d).type = .T_DIR) : d < n :=
  (shape.range d (by rw [isDir]; simp)).2

theorem links_of_not_dir (notDir : dip.type ≠ .T_DIR) (i : Nat) :
    dip.links i = 0 := if_neg notDir

theorem linkCount_update (disk : Inodes) {k : Nat} (inside : k < n) (dip : Dinode) (i : Nat) :
    linkCount n (Function.update disk k dip) i + (disk k).links i =
      linkCount n disk i + dip.links i := by
  have sums := sum_differ_at_mem (f := fun d => (Function.update disk k dip d).links i)
    (g := fun d => (disk d).links i) (Finset.mem_range.mpr inside)
    fun q other => by rw [Function.update_of_ne other]
  simpa only [linkCount, Function.update_self] using sums

theorem links_le_linkCount (disk : Inodes) (inside : d < n) (i : Nat) :
    (disk d).links i ≤ linkCount n disk i :=
  Finset.single_le_sum (f := fun d => (disk d).links i) (fun _ _ => Nat.zero_le _)
    (Finset.mem_range.mpr inside)

/-- The way down to a directory is still there after a change that keeps the
entries for directories along it. -/
theorem Below.transfer {disk' : Inodes} (goal : Nat → Prop)
    (keep : ∀ x y, (disk x).type = .T_DIR → y ≠ 0 → 0 < (disk x).names y →
      (disk y).type = .T_DIR → goal y →
        goal x ∧ (disk' x).type = .T_DIR ∧ 0 < (disk' x).names y)
    {y : Nat} (below : Below disk y) : (disk y).type = .T_DIR → goal y → Below disk' y := by
  induction below with
  | root => exact fun _ _ => .root
  | step above isDir nonzero entry ih => grind [Below]

theorem linkCount_eq_zero (none : ∀ d, (disk d).links i = 0) : linkCount n disk i = 0 :=
  Finset.sum_eq_zero fun d _ => none d

section

variable (linked : Linked n disk)

include linked

theorem Linked.nlink_pos (shape : Shape n disk)
    (isDir : (disk d).type = .T_DIR) (nonzero : i ≠ 0) (entry : 0 < (disk d).names i) :
    (disk i).nlink ≠ 0 := by
  have bound := linked.enough i (linked.typed d i isDir nonzero entry)
  have gives := links_le_linkCount disk (shape.dir_lt isDir) i
  rw [Dinode.links, if_pos isDir] at gives
  omega

theorem Linked.live_of_named (shape : Shape n disk)
    (isDir : (disk d).type = .T_DIR) (nonzero : i ≠ 0) (entry : 0 < (disk d).names i)
    (target : (disk i).type = .T_DIR) : (disk i).Live :=
  ⟨target, linked.nlink_pos shape isDir nonzero entry⟩

/-- The parent of a directory that has not been removed has not been removed. -/
theorem Linked.parent_live (live : (disk d).Live) :
    (disk (disk d).parent).Live := by
  by_cases isRoot : d = ROOTINO
  · rw [isRoot, linked.rootParent]
    exact linked.root
  · exact (linked.up d live isRoot).1

theorem Linked.linkCount_free (nonzero : i ≠ 0)
    (free : (disk i).type = .free) : linkCount n disk i = 0 := by
  apply linkCount_eq_zero
  intro d
  by_cases isDir : (disk d).type = .T_DIR
  · have noEntry : (disk d).names i = 0 := by
      by_contra entry
      exact linked.typed d i isDir nonzero (Nat.pos_of_ne_zero entry) free
    have noParent : ¬ ((disk d).nlink ≠ 0 ∧ (disk d).parent = i) := by
      rintro ⟨links, parent⟩
      have live := linked.parent_live (d := d) ⟨isDir, links⟩
      rw [parent] at live
      exact live.typed free
    rw [Dinode.links, if_pos isDir, noEntry, if_neg noParent]
  · exact links_of_not_dir isDir i

end

end Facts

/-! ## Looking up, adding and clearing entries -/

section Entries

theorem strncmp_self (n : Nat) : ∀ p : List Uchar, strncmp n p p = 0 := by
  induction n with
  | zero => intro p; rfl
  | succ n ih =>
    intro p
    rw [strncmp]
    split
    · exact ih p.tail
    · simp

theorem strncmp_take (n : Nat) : ∀ p q : List Uchar, strncmp n (p.take n) q = strncmp n p q := by
  induction n with
  | zero => intro p q; rfl
  | succ n ih =>
    intro p q
    cases p with
    | nil => rfl
    | cons byte rest =>
      show (if byte ≠ 0 ∧ byte = q.headD 0 then strncmp n (rest.take n) q.tail
        else (byte.toNat : Int) - (q.headD 0).toNat) =
        if byte ≠ 0 ∧ byte = q.headD 0 then strncmp n rest q.tail
        else (byte.toNat : Int) - (q.headD 0).toNat
      rw [ih]

variable {name : Name} {l : List Dirent}

/-- A name that a directory does not have is not the name of any of its entries. -/
theorem take_ne_of_namecmp {other : Name} (differs : namecmp name other ≠ 0) :
    name.take DIRSIZ ≠ other := by
  rintro rfl
  apply differs
  have same := strncmp_self DIRSIZ (name.take DIRSIZ)
  rwa [strncmp_take] at same

variable {start i : Nat} {first de : Dirent}

theorem lookupFrom_some {off j : Nat} (found : lookupFrom name start l = some (off, j)) :
    j ≠ 0 ∧ ∃ k de, off = start + k ∧ l[k]? = some de ∧ de.inum = j ∧ namecmp name de.name = 0 := by
  induction l generalizing start with
  | nil => simp [lookupFrom] at found
  | cons de rest ih =>
    rw [lookupFrom] at found
    split at found
    · obtain ⟨nonzero, k, de', place, at_, inum, same⟩ := ih found
      exact ⟨nonzero, k + 1, de', by omega, by simpa using at_, inum, same⟩
    · rename_i used
      split at found
      · rename_i same
        simp only [Option.some.injEq, Prod.mk.injEq] at found
        obtain ⟨rfl, rfl⟩ := found
        exact ⟨used, 0, de, rfl, rfl, rfl, same⟩
      · obtain ⟨nonzero, k, de', place, at_, inum, same⟩ := ih found
        exact ⟨nonzero, k + 1, de', by omega, by simpa using at_, inum, same⟩

theorem lookupFrom_none (missing : lookupFrom name start l = none) :
    ∀ de ∈ l, de.inum ≠ 0 → namecmp name de.name ≠ 0 := by
  induction l generalizing start with
  | nil => simp
  | cons de rest ih =>
    intro de' member used
    rw [lookupFrom] at missing
    grind

theorem addEntry_cons_used (used : first.inum ≠ 0) (l : List Dirent) (de : Dirent) :
    addEntry (first :: l) de = first :: addEntry l de := by
  simp only [addEntry, emptyDirent, if_neg used, List.length_cons, Nat.add_lt_add_iff_right]
  split <;> rfl

theorem addEntry_cons_empty (unused : first.inum = 0) (l : List Dirent)
    (de : Dirent) : addEntry (first :: l) de = de :: l := by
  simp [addEntry, emptyDirent, unused]

theorem mem_addEntry {e : Dirent} (member : e ∈ addEntry l de) :
    e ∈ l ∨ e = de := by
  induction l with
  | nil => exact Or.inr (by simpa [addEntry, emptyDirent] using member)
  | cons first rest ih => grind [addEntry_cons_empty, addEntry_cons_used]

theorem countP_addEntry (l : List Dirent) (de : Dirent) (nonzero : i ≠ 0) :
    (addEntry l de).countP (fun e => decide (e.inum = i)) =
      l.countP (fun e => decide (e.inum = i)) + if de.inum = i then 1 else 0 := by
  induction l with
  | nil => simp [addEntry, emptyDirent, List.countP_cons]
  | cons first rest ih => grind [addEntry_cons_empty, addEntry_cons_used]

/-- Clearing an entry takes one away from those that name its inode. -/
theorem countP_set_empty {k : Nat} (at_ : l[k]? = some de) (nonzero : i ≠ 0) :
    (l.set k ⟨0, []⟩).countP (fun e => decide (e.inum = i)) + (if de.inum = i then 1 else 0) =
      l.countP (fun e => decide (e.inum = i)) := by
  induction l generalizing k with
  | nil => simp at at_
  | cons first rest ih =>
    cases k with
    | zero => grind
    | succ k => grind

end Entries

namespace Dinode

def add (dip : Dinode) (de : Dirent) : Dinode := { dip with dirents := addEntry dip.dirents de }

def clear (dip : Dinode) (off : Nat) : Dinode :=
  { dip with dirents := dip.dirents.set off ⟨0, []⟩ }

variable {dip : Dinode} {d : Nat}

theorem Dots.dirents_add (dots : dip.Dots d) (de : Dirent) :
    (dip.add de).dirents =
      ⟨d, cstr "."⟩ :: ⟨dip.parent, cstr ".."⟩ :: addEntry dip.entries de := by
  obtain ⟨rest, start⟩ := dots.start
  have entries : dip.entries = rest := by rw [Dinode.entries, start]; rfl
  rw [entries, Dinode.add]
  show addEntry dip.dirents de = _
  rw [start, addEntry_cons_used dots.self, addEntry_cons_used dots.up]

theorem Dots.parent_add (dots : dip.Dots d) (de : Dirent) : (dip.add de).parent = dip.parent := by
  rw [Dinode.parent, dots.dirents_add de]

theorem Dots.entries_add (dots : dip.Dots d) (de : Dirent) :
    (dip.add de).entries = addEntry dip.entries de := by
  rw [Dinode.entries, dots.dirents_add de]
  rfl

variable {i : Nat}

theorem Dots.names_add (dots : dip.Dots d) (de : Dirent) (nonzero : i ≠ 0) :
    (dip.add de).names i = dip.names i + if de.inum = i then 1 else 0 := by
  rw [Dinode.names, dots.entries_add de, countP_addEntry _ _ nonzero]
  rfl

theorem Dots.links_add (dots : dip.Dots d) (isDir : dip.type = .T_DIR) (de : Dirent)
    (nonzero : i ≠ 0) : (dip.add de).links i = dip.links i + if de.inum = i then 1 else 0 := by
  have parent := dots.parent_add de
  have names := dots.names_add de nonzero
  have kind : (dip.add de).type = .T_DIR := isDir
  have nlink : (dip.add de).nlink = dip.nlink := rfl
  simp only [Dinode.links, if_pos kind, if_pos isDir, parent, names, nlink]
  omega

variable {de : Dirent}

theorem Dots.add (dots : dip.Dots d)
    (plain : de.name ≠ cstr "." ∧ de.name ≠ cstr "..") : (dip.add de).Dots d := by
  refine ⟨⟨addEntry dip.entries de, ?_⟩, dots.self, ?_, ?_⟩
  · rw [dots.parent_add de]
    exact dots.dirents_add de
  · rw [dots.parent_add de]
    exact dots.up
  · grind [dots.entries_add, mem_addEntry, dots.plain]

theorem Dots.parent_clear (dots : dip.Dots d) (k : Nat) : (dip.clear (k + 2)).parent = dip.parent := by
  obtain ⟨rest, start⟩ := dots.start
  rw [Dinode.parent, Dinode.clear]
  simp only [start, List.set_cons_succ]

theorem entries_clear (dip : Dinode) (k : Nat) :
    (dip.clear (k + 2)).entries = dip.entries.set k ⟨0, []⟩ := by
  simp only [Dinode.entries, Dinode.clear, List.drop_set]
  simp

theorem names_clear {k : Nat} (at_ : dip.entries[k]? = some de) (nonzero : i ≠ 0) :
    (dip.clear (k + 2)).names i + (if de.inum = i then 1 else 0) = dip.names i := by
  rw [Dinode.names, entries_clear]
  exact countP_set_empty at_ nonzero

theorem Dots.clear (dots : dip.Dots d) (k : Nat) : (dip.clear (k + 2)).Dots d := by
  have parent := dots.parent_clear k
  obtain ⟨rest, start⟩ := dots.start
  refine ⟨⟨rest.set k ⟨0, []⟩, ?_⟩, dots.self, ?_, ?_⟩
  · rw [parent]
    simp only [Dinode.clear, start, List.set_cons_succ]
  · rw [parent]
    exact dots.up
  grind [entries_clear, dots.plain]

end Dinode

end Xv6Tracing.Fs
