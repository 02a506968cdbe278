import Xv6Tracing.Fs.Consistent

/-!
# Link counts

The link count of an inode against the entries that name it in directories that a path
from the root can reach.  The two agree as long as no call puts a name into a removed
directory, which a process that is still in it can go on using.
-/

set_option autoImplicit false

namespace Xv6Tracing.Fs

open Lib Process Ftable

/-- The entries of a directory, other than `.`, that name an inode. -/
def Dinode.namings (dip : Dinode) (i : Nat) : Nat :=
  dip.dirents.countP fun de => decide (de.inum = i ∧ de.name ≠ cstr ".")

abbrev FromRoot (s : FS) : Nat → Prop := Reach s.disk (· = ROOTINO)

open Classical in
/-- The entries other than `.` that name an inode in directories reachable from
the root. -/
noncomputable def namesFromRoot (s : FS) (i : Nat) : Nat :=
  ∑ d ∈ Finset.range s.ninodes,
    if FromRoot s d ∧ (s.disk d).type = .T_DIR then (s.disk d).namings i else 0

structure LinkCounts (s : FS) : Prop where
  counted : ∀ i, (s.disk i).type ≠ .free → (s.disk i).nlink = namesFromRoot s i
  reachable : ∀ i, (s.disk i).type ≠ .free → 0 < (s.disk i).nlink → FromRoot s i
  unused : ∀ i, (s.disk i).nlink = 0 →
    (∀ a, 0 < (s.icache a).ref → (s.icache a).inum ≠ i) → (s.disk i).type = .free

def NamesInTree (s : FS) (op : FsOp) : Prop := ∀ d ∈ adds s op, (s.disk d).nlink ≠ 0

instance (s : FS) (op : FsOp) : Decidable (NamesInTree s op) :=
  inferInstanceAs (Decidable (∀ d ∈ adds s op, _))

/-! ## Counts that are exact -/

structure Exact (n : Nat) (disk : Inodes) : Prop where
  counted : ∀ i, (disk i).type ≠ .free → linkCount n disk i = (disk i).nlink
  empty : ∀ d, (disk d).type = .T_DIR → (disk d).nlink = 0 → ∀ i, i ≠ 0 → (disk d).names i = 0

section Keep

variable {n : Nat} {v w : View} {disk : Inodes} {i : Nat}

theorem freeDisk_exact (shape : Shape n disk) (exact : Exact n disk)
    (typed : (disk i).type ≠ .free) (noLinks : (disk i).nlink = 0) :
    Exact n (freeDisk disk i) where
  counted := by
    intro y kind
    have other := ne_of_freeDisk_typed kind
    rw [freeDisk_other other] at kind ⊢
    have nonzero := (shape.range y kind).1
    have none : (disk i).links y = 0 := by grind [Dinode.links, Exact]
    grind [freeDisk_linkCount, Exact]
  empty := by grind [ne_of_freeDisk_dir, freeDisk_other, Exact]

theorem View.Release.keeps_exact (release : v.Release i w) (shape : Shape n v.disk)
    (exact : Exact n v.disk) (typed : (v.disk i).type ≠ .free) : Exact n w.disk := by
  obtain ⟨disk, released, rfl⟩ := release
  cases released with
  | kept => exact exact
  | freed noLinks => exact freeDisk_exact shape exact typed noLinks

variable (tree : Tree n v) (exact : Exact n v.disk)
include tree exact

variable {d : Nat}

theorem Creating.keeps_exact {name : Name} {type : InodeType} {major minor : Short}
    (creating : Creating n v.disk d i name type) (attached : (v.disk d).nlink ≠ 0) :
    Exact n (createDisk v.disk d i name type major minor) where
  counted := by
    intro y typed
    by_cases isNew : y = i
    · rw [isNew]
      exact creating.linkCount_new tree.shape tree.linked
    · rw [creating.type_old isNew] at typed
      have nonzero := (tree.shape.range y typed).1
      rw [creating.linkCount tree.shape (by omega), creating.nlink_old isNew,
        exact.counted y typed, if_neg (Ne.symm isNew), Nat.add_zero]
  empty := by
    intro x isDir noLinks y nonzero
    by_cases isNew : x = i
    · rw [isNew, creating.at_new] at noLinks
      simp [newInode] at noLinks
    · grind [creating.nlink_old, createDisk_other, exact.empty]

theorem Linking.keeps_exact {name : Name} (linking : Linking v.disk d i name)
    (attached : (v.disk d).nlink ≠ 0) : Exact n (linkDisk v.disk d i name) where
  counted := by
    intro y typed
    rw [linking.type_eq] at typed
    have nonzero := (tree.shape.range y typed).1
    rw [linking.linkCount tree.shape (by omega), linking.nlink_eq, exact.counted y typed]
  empty := by grind [linking.type_eq, linking.nlink_eq, linking.names_eq, tree.shape, exact.empty]

theorem Unlinking.keeps_exact {k : Nat} (unlinking : Unlinking v.disk d i k) :
    Exact n (unlinkDisk v.disk d i (k + 2)) where
  counted := by
    intro y typed
    rw [unlinking.type_eq] at typed
    have nonzero := (tree.shape.range y typed).1
    have count := unlinking.linkCount tree.shape tree.linked (y := y) (by omega)
    have old := exact.counted y typed
    by_cases isTarget : y = i
    · subst isTarget
      grind [unlinkDisk_target, Unlinking]
    grind [unlinking.nlink_eq, tree.shape, tree.linked]
  empty := by
    intro x isDir noLinks y nonzero
    rw [unlinking.type_eq] at isDir
    have none : (v.disk x).names y = 0 := by
      by_cases isTarget : x = i
      · subst isTarget
        exact unlinking.empty isDir y nonzero
      · exact exact.empty x isDir (unlinking.nlink_zero tree isTarget noLinks) y nonzero
    have bound := unlinking.names_le (x := x) nonzero
    omega

/-- Links stay accounted for when the directory that gets a name has links. -/
theorem Edit.keeps_exact {event : Event} (edit : Edit n v event w)
    (created : ∀ d i type, event = .create d i type → (v.disk d).nlink ≠ 0)
    (linked : ∀ d i, event = .link d i → (v.disk d).nlink ≠ 0) : Exact n w.disk := by
  cases edit with
  | create creating => exact creating.keeps_exact tree exact (created _ _ _ rfl)
  | link linking => exact linking.keeps_exact tree exact (linked _ _ rfl)
  | @unlink d i k w unlinking release =>
    refine release.keeps_exact (unlinking.keeps_shape tree.shape)
      (unlinking.keeps_exact tree exact) ?_
    show (unlinkDisk v.disk d i (k + 2) i).type ≠ .free
    rw [unlinking.type_eq]
    exact tree.linked.typed d i unlinking.isDir unlinking.nonzero unlinking.named
  | chdir was isDir release =>
    exact release.keeps_exact tree.shape exact (tree.owned.held _ ⟨_, was⟩)

theorem Hold.keeps_exact (hold : Hold v w) : Exact n w.disk := by
  cases hold with
  | open_ => exact exact
  | leave was release => exact release.keeps_exact tree.shape exact (tree.owned.held _ ⟨_, was⟩)

end Keep

/-! ## Counts from the root -/

theorem Dinode.Dots.namings {dip : Dinode} {d i : Nat} (dots : dip.Dots d) (nonzero : i ≠ 0) :
    dip.namings i = dip.names i + if dip.parent = i then 1 else 0 := by
  have plain := dots.plain
  obtain ⟨rest, start⟩ := dots.start
  have entries : dip.entries = rest := by rw [Dinode.entries, start]; rfl
  have same : rest.countP (fun de => decide (de.inum = i ∧ de.name ≠ cstr ".")) =
      rest.countP fun de => decide (de.inum = i) := by
    refine List.countP_congr ?_
    intro de member
    simp only [decide_eq_true_eq, and_iff_left_iff_imp]
    intro inum
    rw [← entries] at member
    exact (plain de member (by omega)).1
  have differ : cstr ".." ≠ cstr "." := by decide
  rw [Dinode.namings, Dinode.names, entries, start, List.countP_cons, List.countP_cons, same]
  simp [differ]

section FromRoot

variable {s : FS} {d i : Nat}

theorem Linked.typed_of_reach {n : Nat} {disk : Inodes} (linked : Linked n disk)
    (shape : Shape n disk) (reach : Reach disk (· = ROOTINO) i) :
    (disk i).type ≠ .free ∧ ((disk i).type = .T_DIR → (disk i).Live) := by
  induction reach with
  | start first =>
    rw [first]
    exact ⟨linked.root.typed, fun _ => linked.root⟩
  | @step d de above isDir entry used ih =>
    have live := ih.2 isDir
    rcases (shape.dots d isDir).entry_cases entry with self | parent | named
    · rw [self]
      exact ih
    · have above := linked.parent_live live
      rw [parent]
      exact ⟨above.typed, fun _ => above⟩
    · exact ⟨linked.typed d _ isDir used named, linked.live_of_named shape isDir used named⟩

theorem Below.reach {disk : Inodes} (below : Below disk i) : Reach disk (· = ROOTINO) i := by
  induction below with
  | root => exact .start rfl
  | step above isDir nonzero entry ih =>
    obtain ⟨de, member, rfl⟩ := Dinode.names_pos entry
    exact .step ih isDir (List.mem_of_mem_drop member) nonzero

variable (consistent : Consistent s)
include consistent

/-- The directories that a path reaches are those that have not been removed. -/
theorem Consistent.fromRoot_iff : FromRoot s d ∧ (s.disk d).type = .T_DIR ↔ (s.disk d).Live := by
  have linked := consistent.linked
  constructor
  · rintro ⟨reach, isDir⟩
    exact (linked.typed_of_reach consistent.shape reach).2 isDir
  · intro live
    exact ⟨(linked.below d live).reach, live.1⟩

theorem Consistent.namesFromRoot_eq (nonzero : i ≠ 0) : namesFromRoot s i =
    ∑ d ∈ Finset.range s.ninodes, if (s.disk d).Live then (s.disk d).links i else 0 := by
  refine Finset.sum_congr rfl ?_
  intro d _
  by_cases live : (s.disk d).Live
  · rw [if_pos (consistent.fromRoot_iff.mpr live), if_pos live, Dinode.links, if_pos live.1,
      (consistent.shape.dots d live.1).namings nonzero]
    simp only [live.2, ne_eq, not_false_eq_true, true_and]
  · rw [if_neg fun reach => live (consistent.fromRoot_iff.mp reach), if_neg live]

theorem Consistent.linkCounts (exact : Exact s.ninodes s.disk) : LinkCounts s := by
  have linked := consistent.linked
  have shape := consistent.shape
  refine ⟨?_, ?_, ?_⟩
  · intro i typed
    have nonzero := (shape.range i typed).1
    rw [consistent.namesFromRoot_eq (by omega), ← exact.counted i typed, linkCount]
    refine Finset.sum_congr rfl ?_
    intro d _
    split
    · rfl
    · rename_i removed
      by_cases isDir : (s.disk d).type = .T_DIR
      · have noLinks : (s.disk d).nlink = 0 := by
          by_contra links
          exact removed ⟨isDir, links⟩
        rw [Dinode.links, if_pos isDir, exact.empty d isDir noLinks i (by omega),
          if_neg fun both => both.1 noLinks]
      · exact links_of_not_dir isDir i
  · intro i typed links
    by_cases isDir : (s.disk i).type = .T_DIR
    · exact (linked.below i ⟨isDir, by omega⟩).reach
    · -- A link of a file is an entry in a directory that has not been removed.
      have nonzero := (shape.range i typed).1
      rw [← exact.counted i typed] at links
      obtain ⟨d, -, gives⟩ := Finset.exists_ne_zero_of_sum_ne_zero (Nat.ne_of_gt links)
      have dirIsDir : (s.disk d).type = .T_DIR := by
        by_contra notDir
        exact gives (links_of_not_dir notDir i)
      have notParent : ¬ ((s.disk d).nlink ≠ 0 ∧ (s.disk d).parent = i) := by
        rintro ⟨live, parent⟩
        have above := linked.parent_live (d := d) ⟨dirIsDir, live⟩
        rw [parent] at above
        exact isDir above.1
      rw [Dinode.links, if_pos dirIsDir, if_neg notParent, Nat.add_zero] at gives
      have live : (s.disk d).Live := by
        refine ⟨dirIsDir, ?_⟩
        intro noLinks
        exact gives (exact.empty d dirIsDir noLinks i (by omega))
      obtain ⟨de, member, rfl⟩ := Dinode.names_pos (Nat.pos_of_ne_zero gives)
      exact .step (linked.below d live).reach dirIsDir (List.mem_of_mem_drop member) (by omega)
  · intro i noLinks unreferenced
    by_contra typed
    obtain ⟨a, inUse, inum⟩ :=
      consistent.quiet.settled.referenced.mpr (consistent.tree.owned.orphan i typed noLinks)
    exact unreferenced a inUse inum

/-- No link is left over for the entries of a removed directory. -/
theorem Consistent.exact (counts : LinkCounts s) : Exact s.ninodes s.disk := by
  have linked := consistent.linked
  have shape := consistent.shape
  have bound : ∀ i d, (if (s.disk d).Live then (s.disk d).links i else 0) ≤ (s.disk d).links i := by
    intro i d
    split <;> omega
  refine ⟨?_, ?_⟩
  · intro i typed
    have nonzero := (shape.range i typed).1
    refine Nat.le_antisymm (linked.enough i typed) ?_
    rw [counts.counted i typed, consistent.namesFromRoot_eq (by omega), linkCount]
    exact Finset.sum_le_sum fun d _ => bound i d
  · intro d isDir noLinks i nonzero
    by_contra entry
    have typed := linked.typed d i isDir nonzero (Nat.pos_of_ne_zero entry)
    have removed : ¬ (s.disk d).Live := fun live => live.2 noLinks
    have less : namesFromRoot s i < linkCount s.ninodes s.disk i := by
      rw [consistent.namesFromRoot_eq nonzero, linkCount]
      refine Finset.sum_lt_sum (fun d _ => bound i d)
        ⟨d, Finset.mem_range.mpr (shape.dir_lt isDir), ?_⟩
      rw [if_neg removed, Dinode.links, if_pos isDir]
      exact Nat.add_pos_left (Nat.pos_of_ne_zero entry) _
    have enough := linked.enough i typed
    rw [counts.counted i typed] at enough
    omega

end FromRoot

/-! ## Runs -/

def Accounted (s : FS) : Prop := Consistent s ∧ Exact s.ninodes s.disk

theorem Done.exact {s t : FS} {op : FsOp} (done : Done s (May s op) t) (consistent : Consistent s)
    (exact : Exact s.ninodes s.disk) (inTree : NamesInTree s op) : Exact t.ninodes t.disk := by
  rw [done.2.ninodes]
  have start : Tree s.ninodes s.view ∧ Exact s.ninodes s.view.disk := ⟨consistent.tree, exact⟩
  refine (done.2.change.preserves (fun v => Tree s.ninodes v ∧ Exact s.ninodes v.disk) start
    ?_ ?_).2
  · intro event u allowed edit
    refine ⟨edit.keeps_tree consistent.tree, edit.keeps_exact consistent.tree exact ?_ ?_⟩
    · rintro d i type rfl
      exact inTree d allowed.1
    · rintro d i rfl
      exact inTree d allowed
  · rintro u w ⟨tree, exact⟩ hold
    exact ⟨hold.keeps_tree tree, hold.keeps_exact tree exact⟩

/-- From a consistent image whose link counts are right, the link counts stay
right through every run that puts no name into a removed directory. -/
theorem link_counts_kept (s : FS) (ops : List FsOp) (consistent : Consistent s)
    (counts : LinkCounts s) (inTree : Along step NamesInTree s ops) :
    Throughout step LinkCounts s ops := by
  have kept : ∀ s op t, Accounted s → NamesInTree s op → step s op = some t → Accounted t := by
    rintro s op t ⟨consistent, exact⟩ inTree taken
    have done := consistent.step_done (fun _ => inTree) taken
    exact ⟨done.consistent consistent, done.exact consistent exact inTree⟩
  exact throughout_of_along kept (fun _ accounted => accounted.1.linkCounts accounted.2) ops s
    ⟨consistent, consistent.exact counts⟩ inTree

theorem rootOnly_linkCounts : LinkCounts rootOnly := by
  refine rootOnly_consistent.linkCounts ⟨?_, fun d _ _ i _ => rootOnly_names d i⟩
  intro i typed
  rw [rootOnly_typed typed]
  decide +kernel

def removal : List FsOp :=
  [.mkdir 0 (some (cstr "a")), .open_ 0 (some (cstr "a/f")) O_CREATE,
    .link 1 (some (cstr "a/f")) (some (cstr "g")), .chdir 0 (some (cstr "a")),
    .unlink 1 (some (cstr "a/f")), .unlink 1 (some (cstr "a")), .open_ 0 (some (cstr "..")) O_RDONLY]

theorem link_counts_kept_removal :
    (run step rootOnly removal).isSome = true ∧ Along step NamesInTree rootOnly removal ∧
      Throughout step LinkCounts rootOnly removal := by
  have inTree : Along step NamesInTree rootOnly removal := by decide +kernel
  refine ⟨by decide +kernel, inTree, ?_⟩
  exact link_counts_kept rootOnly removal rootOnly_consistent rootOnly_linkCounts inTree

/-- A process makes a file in its current directory, which another has removed. -/
def lostFile : List FsOp :=
  [.mkdir 0 (some (cstr "a")), .chdir 0 (some (cstr "a")), .unlink 1 (some (cstr "a")),
    .open_ 0 (some (cstr "f")) O_CREATE]

/-- The file has a link, but no path from the root leads to it. -/
theorem lost_file_has_a_link : Consistent rootOnly ∧ LinkCounts rootOnly ∧
    ∃ t, run step rootOnly lostFile = some t ∧ (t.disk 3).type = .T_FILE ∧ (t.disk 3).nlink = 1 ∧
      ¬ FromRoot t 3 ∧ ¬ LinkCounts t := by
  refine ⟨rootOnly_consistent, rootOnly_linkCounts, ?_⟩
  have ends : (run step rootOnly lostFile).any (fun t => decide ((t.disk 3).type = .T_FILE ∧
      (t.disk 3).nlink = 1 ∧ ∀ de ∈ (t.disk ROOTINO).dirents, de.inum = 0 ∨ de.inum = ROOTINO)) =
      true := by decide +kernel
  obtain ⟨t, ran, facts⟩ := (Option.any_eq_true _ _).mp ends
  obtain ⟨isFile, one, onlyRoot⟩ := of_decide_eq_true facts
  have unreachable : ¬ FromRoot t 3 := by
    have closed : ∀ i, FromRoot t i → i = ROOTINO := by
      intro i reach
      induction reach with
      | start first => exact first
      | @step d de above isDir entry used ih =>
        rw [ih] at entry
        exact (onlyRoot de entry).resolve_left used
    exact fun reach => absurd (closed 3 reach) (by decide)
  refine ⟨t, ran, isFile, one, unreachable, ?_⟩
  intro counts
  exact unreachable (counts.reachable 3 (by rw [isFile]; simp) (by omega))

end Xv6Tracing.Fs
