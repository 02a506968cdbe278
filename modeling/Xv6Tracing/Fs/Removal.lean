import Xv6Tracing.Fs.Changes

/-!
# Removing names and inodes

`unlink` takes a name away, and gives an inode without links back to the disk
once nobody uses it.  Removing a directory takes its `..` out of the count of
its parent's links although the entry stays.
-/

set_option autoImplicit false

namespace Xv6Tracing.Fs

open Function (update update_of_ne update_self)

open Lib

/-! ## Taking a name away -/

section Unlink

/-- The directory after an entry for `target` is cleared. -/
def without (dip target : Dinode) (off : Nat) : Dinode :=
  Dinode.clear { dip with nlink := if target.type = .T_DIR then dip.nlink - 1 else dip.nlink } off

def unlinkDisk (disk : Inodes) (d i off : Nat) : Inodes :=
  Function.update (Function.update disk d (without (disk d) (disk i) off)) i
    { disk i with nlink := (disk i).nlink - 1 }

/-- The entry `k` after `.` and `..` names `i`, and `i` is no directory or an
empty one. -/
structure Unlinking (disk : Inodes) (d i k : Nat) : Prop where
  isDir : (disk d).type = .T_DIR
  entry : ∃ de, (disk d).entries[k]? = some de ∧ de.inum = i
  nonzero : i ≠ 0
  apart : i ≠ d
  empty : (disk i).type = .T_DIR → ∀ y, y ≠ 0 → (disk i).names y = 0

variable {n : Nat} {disk : Inodes} {d i k : Nat}

theorem unlinkDisk_target : unlinkDisk disk d i (k + 2) i =
    { disk i with nlink := (disk i).nlink - 1 } := update_self _ _ _

variable {x y : Nat}

theorem unlinkDisk_other (notTarget : x ≠ i) (notDir : x ≠ d) :
    unlinkDisk disk d i (k + 2) x = disk x := by
  rw [unlinkDisk, update_of_ne notTarget, update_of_ne notDir]

variable (unlinking : Unlinking disk d i k)
include unlinking

theorem Unlinking.at_dir : unlinkDisk disk d i (k + 2) d =
    without (disk d) (disk i) (k + 2) := by
  rw [unlinkDisk, update_of_ne (Ne.symm unlinking.apart), update_self]

theorem Unlinking.named : 0 < (disk d).names i := by
  obtain ⟨de, at_, inum⟩ := unlinking.entry
  exact List.countP_pos_iff.mpr ⟨de, List.mem_of_getElem? at_, by simpa using inum⟩

theorem Unlinking.type_eq (x : Nat) : (unlinkDisk disk d i (k + 2) x).type = (disk x).type := by
  by_cases isTarget : x = i
  · rw [isTarget, unlinkDisk_target]
  · by_cases isDir : x = d
    · rw [isDir, unlinking.at_dir]
      rfl
    · rw [unlinkDisk_other isTarget isDir]

theorem Unlinking.names_dir (nonzero : y ≠ 0) :
    (unlinkDisk disk d i (k + 2) d).names y + (if i = y then 1 else 0) = (disk d).names y := by
  obtain ⟨de, at_, rfl⟩ := unlinking.entry
  rw [unlinking.at_dir, without]
  refine Dinode.names_clear ?_ nonzero
  exact at_

omit unlinking in
theorem unlinkDisk_names_other (elsewhere : x ≠ d) :
    (unlinkDisk disk d i (k + 2) x).names y = (disk x).names y := by
  by_cases isTarget : x = i
  · rw [isTarget, unlinkDisk_target]
    rfl
  · rw [unlinkDisk_other isTarget elsewhere]

theorem Unlinking.names_le (nonzero : y ≠ 0) :
    (unlinkDisk disk d i (k + 2) x).names y ≤ (disk x).names y := by
  by_cases here : x = d
  · rw [here, ← unlinking.names_dir nonzero]
    omega
  · rw [unlinkDisk_names_other here]

theorem Unlinking.names_eq (nonzero : y ≠ 0) (other : y ≠ i) :
    (unlinkDisk disk d i (k + 2) x).names y = (disk x).names y := by
  by_cases here : x = d
  · have balance := unlinking.names_dir nonzero
    rw [if_neg (Ne.symm other), Nat.add_zero] at balance
    rw [here, balance]
  · rw [unlinkDisk_names_other here]

variable (shape : Shape n disk)
include shape

theorem Unlinking.parent_eq (x : Nat) :
    (unlinkDisk disk d i (k + 2) x).parent = (disk x).parent := by
  by_cases isTarget : x = i
  · rw [isTarget, unlinkDisk_target]
    rfl
  · by_cases here : x = d
    · rw [here, unlinking.at_dir, without]
      refine (Dinode.Dots.parent_clear (d := d) ?_ k).trans rfl
      exact (shape.dots d unlinking.isDir).of_dirents rfl
    · rw [unlinkDisk_other isTarget here]

theorem Unlinking.keeps_shape : Shape n (unlinkDisk disk d i (k + 2)) where
  small := shape.small
  range := by
    intro x typed
    rw [unlinking.type_eq] at typed
    exact shape.range x typed
  plain := by
    intro x notDir
    rw [unlinking.type_eq] at notDir
    have elsewhere : x ≠ d := by
      rintro rfl
      exact notDir unlinking.isDir
    by_cases isTarget : x = i
    · subst isTarget
      rw [unlinkDisk_target]
      exact shape.plain x notDir
    · rw [unlinkDisk_other isTarget elsewhere]
      exact shape.plain x notDir
  dots := by
    intro x isDir
    rw [unlinking.type_eq] at isDir
    have dots := shape.dots x isDir
    by_cases isTarget : x = i
    · subst isTarget
      rw [unlinkDisk_target]
      exact dots.of_dirents rfl
    · by_cases here : x = d
      · subst here
        rw [unlinking.at_dir, without]
        refine Dinode.Dots.clear ?_ k
        exact dots.of_dirents rfl
      · rw [unlinkDisk_other isTarget here]
        exact dots

variable (linked : Linked n disk)
include linked

theorem Unlinking.target_one (target : (disk i).type = .T_DIR) : (disk i).nlink = 1 := by
  have nonzero := unlinking.nonzero
  obtain ⟨-, parent, notRoot, once⟩ := linked.down d i unlinking.isDir nonzero unlinking.named target
  have only : ∀ x, x ≠ d → (disk x).links i = 0 := by
    intro x elsewhere
    by_cases isDir : (disk x).type = .T_DIR
    · have noEntry : (disk x).names i = 0 := by
        by_contra entry
        have down := linked.down x i isDir nonzero (Nat.pos_of_ne_zero entry) target
        exact elsewhere (down.2.1.symm.trans parent)
      have noParent : ¬ ((disk x).nlink ≠ 0 ∧ (disk x).parent = i) := by
        rintro ⟨links, above⟩
        have isRoot : x ≠ ROOTINO := by
          rintro rfl
          exact notRoot (above.symm.trans linked.rootParent)
        have entry := (linked.up x ⟨isDir, links⟩ isRoot).2
        rw [above, unlinking.empty target x (shape.dots x isDir).self] at entry
        exact Nat.lt_irrefl 0 entry
      rw [Dinode.links, if_pos isDir, noEntry, if_neg noParent]
    · exact links_of_not_dir isDir i
  have here : (disk d).links i = 1 := by
    have noParent : ¬ ((disk d).nlink ≠ 0 ∧ (disk d).parent = i) := by
      rintro ⟨links, above⟩
      have isRoot : d ≠ ROOTINO := by
        rintro rfl
        exact notRoot (above.symm.trans linked.rootParent)
      have entry := (linked.up d ⟨unlinking.isDir, links⟩ isRoot).2
      rw [above, unlinking.empty target d (shape.dots d unlinking.isDir).self] at entry
      exact Nat.lt_irrefl 0 entry
    rw [Dinode.links, if_pos unlinking.isDir, once, if_neg noParent]
  rw [← linked.exact_ i target, Fs.linkCount, Finset.sum_eq_single d]
  · exact here
  · exact fun x _ elsewhere => only x elsewhere
  · intro outside
    exact absurd (Finset.mem_range.mpr (shape.dir_lt unlinking.isDir)) outside

theorem Unlinking.dir_two (target : (disk i).type = .T_DIR) : 2 ≤ (disk d).nlink := by
  have nonzero := unlinking.nonzero
  obtain ⟨live, parent, notRoot, -⟩ :=
    linked.down d i unlinking.isDir nonzero unlinking.named target
  have targetLive := linked.live_of_named shape unlinking.isDir nonzero unlinking.named target
  have mine : (disk i).links d = 1 := by
    rw [Dinode.links, if_pos target, if_pos ⟨targetLive.2, parent⟩,
      unlinking.empty target d (shape.dots d unlinking.isDir).self]
  -- Counted without `i`, the entry for `d` above it, or the root's own `..`, is left.
  have without_ := linkCount_update disk (shape.dir_lt target) { disk i with type := .free } d
  have none : Dinode.links { disk i with type := .free } d = 0 := if_neg (by simp)
  have rest : 1 ≤ Fs.linkCount n (update disk i { disk i with type := .free }) d := by
    have from_ : ∀ x, x ≠ i → (disk x).type = .T_DIR → 1 ≤ (disk x).links d →
        1 ≤ Fs.linkCount n (update disk i { disk i with type := .free }) d := by
      intro x elsewhere isDir gives
      have bound := links_le_linkCount (update disk i { disk i with type := .free })
        (shape.dir_lt isDir) d
      rw [update_of_ne elsewhere] at bound
      omega
    by_cases isRoot : d = ROOTINO
    · apply from_ d (Ne.symm unlinking.apart) unlinking.isDir
      rw [Dinode.links, if_pos unlinking.isDir,
        if_pos ⟨live.2, by rw [isRoot]; exact linked.rootParent⟩]
      omega
    · obtain ⟨above, entry⟩ := linked.up d live isRoot
      apply from_ (disk d).parent _ above.1
      · rw [Dinode.links, if_pos above.1]
        omega
      · intro same
        rw [same, unlinking.empty target d (shape.dots d unlinking.isDir).self] at entry
        exact Nat.lt_irrefl 0 entry
  have total := linked.exact_ d unlinking.isDir
  omega

theorem Unlinking.target_not_live : ¬ (unlinkDisk disk d i (k + 2) i).Live := by
  rintro ⟨kind, links⟩
  rw [unlinking.type_eq] at kind
  rw [unlinkDisk_target] at links
  have one := unlinking.target_one shape linked kind
  simp only at links
  omega

theorem Unlinking.live_iff (notTarget : x ≠ i) :
    (unlinkDisk disk d i (k + 2) x).Live ↔ (disk x).Live := by
  by_cases here : x = d
  · subst here
    rw [unlinking.at_dir]
    by_cases target : (disk i).type = .T_DIR
    · have two := unlinking.dir_two shape linked target
      simp only [Dinode.Live, without, Dinode.clear, target, if_true, unlinking.isDir]
      rw [true_and, true_and]
      omega
    · simp only [Dinode.Live, without, Dinode.clear, target, if_false]
  · rw [unlinkDisk_other notTarget here]

theorem Unlinking.nlink_eq (notTarget : x ≠ i) :
    (unlinkDisk disk d i (k + 2) x).nlink + (if (disk i).type = .T_DIR ∧ d = x then 1 else 0) =
      (disk x).nlink := by
  by_cases here : x = d
  · subst here
    rw [unlinking.at_dir]
    by_cases target : (disk i).type = .T_DIR
    · have two := unlinking.dir_two shape linked target
      simp only [without, Dinode.clear, target, if_true, and_self]
      omega
    · simp [without, Dinode.clear, target]
  · rw [unlinkDisk_other notTarget here, if_neg fun both => here both.2.symm, Nat.add_zero]

theorem Unlinking.links_dir (nonzero : y ≠ 0) :
    (unlinkDisk disk d i (k + 2) d).links y + (if i = y then 1 else 0) = (disk d).links y := by
  have names := unlinking.names_dir nonzero
  have parent := unlinking.parent_eq shape d
  have live := unlinking.live_iff shape linked (Ne.symm unlinking.apart)
  have kind : (unlinkDisk disk d i (k + 2) d).type = .T_DIR := by
    rw [unlinking.type_eq]
    exact unlinking.isDir
  have links : (unlinkDisk disk d i (k + 2) d).nlink ≠ 0 ↔ (disk d).nlink ≠ 0 := by
    simpa only [Dinode.Live, kind, unlinking.isDir, true_and] using live
  simp only [Dinode.links, if_pos kind, if_pos unlinking.isDir, parent, links]
  omega

theorem Unlinking.links_target (nonzero : y ≠ 0) :
    (unlinkDisk disk d i (k + 2) i).links y +
      (if (disk i).type = .T_DIR ∧ d = y then 1 else 0) = (disk i).links y := by
  by_cases target : (disk i).type = .T_DIR
  · have one := unlinking.target_one shape linked target
    have parent :=
      (linked.down d i unlinking.isDir unlinking.nonzero unlinking.named target).2.1
    have empty := unlinking.empty target y nonzero
    have noNames : (unlinkDisk disk d i (k + 2) i).names y = 0 := by
      rw [unlinkDisk_names_other unlinking.apart, empty]
    have kind : (unlinkDisk disk d i (k + 2) i).type = .T_DIR := by
      rw [unlinking.type_eq]
      exact target
    have noLinks : (unlinkDisk disk d i (k + 2) i).nlink = 0 := by
      rw [unlinkDisk_target]
      simp only
      omega
    simp [Dinode.links, kind, target, noNames, noLinks, empty, one, parent]
  · have notDir : (unlinkDisk disk d i (k + 2) i).type ≠ .T_DIR := by
      rw [unlinking.type_eq]
      exact target
    rw [links_of_not_dir notDir, links_of_not_dir target, if_neg fun both => target both.1]

theorem Unlinking.linkCount (nonzero : y ≠ 0) :
    Fs.linkCount n (unlinkDisk disk d i (k + 2)) y + (if i = y then 1 else 0) +
      (if (disk i).type = .T_DIR ∧ d = y then 1 else 0) = Fs.linkCount n disk y := by
  have typed := linked.typed d i unlinking.isDir unlinking.nonzero unlinking.named
  have first := linkCount_update disk (shape.dir_lt unlinking.isDir)
    (unlinkDisk disk d i (k + 2) d) y
  have second := linkCount_update (update disk d (unlinkDisk disk d i (k + 2) d))
    (shape.range i typed).2 (unlinkDisk disk d i (k + 2) i) y
  have whole : update (update disk d (unlinkDisk disk d i (k + 2) d)) i
      (unlinkDisk disk d i (k + 2) i) = unlinkDisk disk d i (k + 2) := by
    rw [unlinking.at_dir, unlinkDisk_target]
    rfl
  rw [update_of_ne unlinking.apart, whole] at second
  have dir := unlinking.links_dir shape linked nonzero
  have target := unlinking.links_target shape linked nonzero
  omega

theorem Unlinking.enough (typed : (disk y).type ≠ .free) :
    Fs.linkCount n (unlinkDisk disk d i (k + 2)) y ≤ (unlinkDisk disk d i (k + 2) y).nlink := by
  have nonzero := (shape.range y typed).1
  have count := unlinking.linkCount shape linked (y := y) (by omega)
  have old := linked.enough y typed
  by_cases isTarget : y = i
  · subst isTarget
    rw [if_pos rfl] at count
    rw [unlinkDisk_target]
    simp only
    omega
  · have nlink := unlinking.nlink_eq shape linked isTarget
    omega

theorem Unlinking.exact_ (isDir : (disk y).type = .T_DIR) :
    Fs.linkCount n (unlinkDisk disk d i (k + 2)) y = (unlinkDisk disk d i (k + 2) y).nlink := by
  have count := unlinking.linkCount shape linked (shape.dots y isDir).self
  have old := linked.exact_ y isDir
  by_cases isTarget : y = i
  · subst isTarget
    have elsewhere : ¬ ((disk y).type = .T_DIR ∧ d = y) := fun both => unlinking.apart both.2.symm
    rw [if_pos rfl, if_neg elsewhere] at count
    rw [unlinkDisk_target]
    simp only
    omega
  · have nlink := unlinking.nlink_eq shape linked isTarget
    rw [if_neg (Ne.symm isTarget)] at count
    omega

theorem Unlinking.keeps_linked : Linked n (unlinkDisk disk d i (k + 2)) := by
  by_cases target : (disk i).type = .T_DIR
  · obtain ⟨-, -, notRoot, -⟩ :=
      linked.down d i unlinking.isDir unlinking.nonzero unlinking.named target
    refine ⟨?_, ?_, ?_, ?_, ?_, ?_, ?_, ?_⟩
    · rw [unlinking.live_iff shape linked (Ne.symm notRoot)]
      exact linked.root
    · rw [unlinking.parent_eq shape]
      exact linked.rootParent
    · intro x live isRoot
      have notTarget : x ≠ i := by
        rintro rfl
        exact unlinking.target_not_live shape linked live
      rw [unlinking.live_iff shape linked notTarget] at live
      obtain ⟨above, entry⟩ := linked.up x live isRoot
      have self := (shape.dots x live.1).self
      have aboveOther : (disk x).parent ≠ i := by
        intro same
        rw [same, unlinking.empty target x self] at entry
        exact Nat.lt_irrefl 0 entry
      rw [unlinking.parent_eq shape, unlinking.live_iff shape linked aboveOther,
        unlinking.names_eq self notTarget]
      exact ⟨above, entry⟩
    · intro x y isDir nonzero entry
      rw [unlinking.type_eq] at isDir ⊢
      exact linked.typed x y isDir nonzero
        (Nat.lt_of_lt_of_le entry (unlinking.names_le nonzero))
    · intro x y isDir nonzero entry kind
      rw [unlinking.type_eq] at isDir kind
      have old := Nat.lt_of_lt_of_le entry (unlinking.names_le nonzero)
      obtain ⟨live, parent, other, once⟩ := linked.down x y isDir nonzero old kind
      have notTarget : x ≠ i := by
        rintro rfl
        rw [unlinking.empty target y nonzero] at old
        exact Nat.lt_irrefl 0 old
      rw [unlinking.live_iff shape linked notTarget, unlinking.parent_eq shape]
      refine ⟨live, parent, other, ?_⟩
      have bound := unlinking.names_le (x := x) nonzero
      omega
    · intro y typed
      rw [unlinking.type_eq] at typed
      exact unlinking.enough shape linked typed
    · intro y isDir
      rw [unlinking.type_eq] at isDir
      exact unlinking.exact_ shape linked isDir
    · intro x live
      have notTarget : x ≠ i := by
        rintro rfl
        exact unlinking.target_not_live shape linked live
      rw [unlinking.live_iff shape linked notTarget] at live
      refine (linked.below x live).transfer (fun x => x ≠ i) ?_ live.1 notTarget
      intro x y isDir nonzero entry _ other
      rw [unlinking.type_eq, unlinking.names_eq nonzero other]
      refine ⟨?_, isDir, entry⟩
      rintro rfl
      rw [unlinking.empty target y nonzero] at entry
      exact Nat.lt_irrefl 0 entry
  · refine linked.of_same_dirs shape unlinking.type_eq ?_ (fun x _ => unlinking.parent_eq shape x)
      ?_ ?_ (fun y typed => unlinking.enough shape linked typed)
      fun y isDir => unlinking.exact_ shape linked isDir
    · intro x
      by_cases isTarget : x = i
      · rw [isTarget]
        exact iff_of_false (unlinking.target_not_live shape linked) fun live => target live.1
      · exact unlinking.live_iff shape linked isTarget
    · intro x y _ nonzero kind
      refine unlinking.names_eq nonzero ?_
      rintro rfl
      exact target kind
    · intro x y isDir nonzero entry
      exact linked.typed x y isDir nonzero
        (Nat.lt_of_lt_of_le entry (unlinking.names_le nonzero))

end Unlink

/-! ## Giving an inode back -/

section Free

def freeDisk (disk : Inodes) (i : Nat) : Inodes := Function.update disk i (disk i).freed

variable {n : Nat} {disk : Inodes} {i : Nat}

theorem freeDisk_self : freeDisk disk i i = (disk i).freed := update_self _ _ _

variable {x : Nat}

theorem freeDisk_other (other : x ≠ i) : freeDisk disk i x = disk x :=
  update_of_ne other _ _

theorem ne_of_freeDisk_typed (typed : (freeDisk disk i x).type ≠ .free) : x ≠ i := by
  rintro rfl
  rw [freeDisk_self] at typed
  exact typed rfl

theorem ne_of_freeDisk_dir (isDir : (freeDisk disk i x).type = .T_DIR) : x ≠ i :=
  ne_of_freeDisk_typed (by rw [isDir]; simp)

theorem freeDisk_shape (shape : Shape n disk) : Shape n (freeDisk disk i) where
  small := shape.small
  range := by
    intro x typed
    rw [freeDisk_other (ne_of_freeDisk_typed typed)] at typed
    exact shape.range x typed
  plain := by
    intro x notDir
    by_cases here : x = i
    · rw [here, freeDisk_self]
      rfl
    · rw [freeDisk_other here] at notDir ⊢
      exact shape.plain x notDir
  dots := by
    intro x isDir
    have other := ne_of_freeDisk_dir isDir
    rw [freeDisk_other other] at isDir ⊢
    exact shape.dots x isDir

variable (shape : Shape n disk) (linked : Linked n disk) (typed : (disk i).type ≠ .free)
  (noLinks : (disk i).nlink = 0)

include noLinks in
theorem ne_of_live (live : (disk x).Live) : x ≠ i := by
  rintro rfl
  exact live.2 noLinks

include noLinks in
theorem freeDisk_live : (freeDisk disk i x).Live ↔ (disk x).Live := by
  by_cases here : x = i
  · rw [here, freeDisk_self]
    exact iff_of_false (fun live => absurd live.1 (by simp [Dinode.freed]))
      fun live => live.2 noLinks
  · rw [freeDisk_other here]

include shape typed in
theorem freeDisk_linkCount (y : Nat) :
    linkCount n (freeDisk disk i) y + (disk i).links y = linkCount n disk y := by
  have count := linkCount_update disk (shape.range i typed).2 (disk i).freed y
  have none : (disk i).freed.links y = 0 := links_of_not_dir (by simp [Dinode.freed]) y
  rw [none, Nat.add_zero] at count
  exact count

include linked noLinks in
theorem removed_links {y : Nat} (nonzero : y ≠ 0) (isDir : (disk y).type = .T_DIR) :
    (disk i).links y = 0 := by
  by_cases kind : (disk i).type = .T_DIR
  · have noEntry : (disk i).names y = 0 := by
      by_contra entry
      exact (linked.down i y kind nonzero (Nat.pos_of_ne_zero entry) isDir).1.2 noLinks
    rw [Dinode.links, if_pos kind, noEntry, if_neg fun both => both.1 noLinks]
  · exact links_of_not_dir kind y

include shape linked noLinks in
theorem ne_of_named {d y : Nat} (isDir : (disk d).type = .T_DIR) (nonzero : y ≠ 0)
    (entry : 0 < (disk d).names y) : y ≠ i := by
  rintro rfl
  exact linked.nlink_pos shape isDir nonzero entry noLinks

include shape linked typed noLinks in
theorem freeDisk_linked : Linked n (freeDisk disk i) where
  root := (freeDisk_live noLinks).mpr linked.root
  rootParent := by
    rw [freeDisk_other (ne_of_live noLinks linked.root)]
    exact linked.rootParent
  up := by
    intro x live isRoot
    rw [freeDisk_live noLinks] at live
    obtain ⟨above, entry⟩ := linked.up x live isRoot
    rw [freeDisk_other (ne_of_live noLinks live), freeDisk_live noLinks,
      freeDisk_other (ne_of_live noLinks above)]
    exact ⟨above, entry⟩
  typed := by
    intro d y isDir nonzero entry
    have other := ne_of_freeDisk_dir isDir
    rw [freeDisk_other other] at isDir entry
    rw [freeDisk_other (ne_of_named shape linked noLinks isDir nonzero entry)]
    exact linked.typed d y isDir nonzero entry
  down := by
    intro d y isDir nonzero entry kind
    have other := ne_of_freeDisk_dir isDir
    rw [freeDisk_other other] at isDir entry
    rw [freeDisk_other (ne_of_freeDisk_dir kind)] at kind
    rw [freeDisk_live noLinks, freeDisk_other other,
      freeDisk_other (ne_of_named shape linked noLinks isDir nonzero entry)]
    exact linked.down d y isDir nonzero entry kind
  enough := by
    intro y kind
    have count := freeDisk_linkCount shape typed y
    have other := ne_of_freeDisk_typed kind
    rw [freeDisk_other other] at kind ⊢
    have old := linked.enough y kind
    omega
  exact_ := by
    intro y isDir
    have count := freeDisk_linkCount shape typed y
    have other := ne_of_freeDisk_dir isDir
    rw [freeDisk_other other] at isDir ⊢
    rw [removed_links linked noLinks (shape.dots y isDir).self isDir, Nat.add_zero] at count
    rw [count]
    exact linked.exact_ y isDir
  below := by
    intro x live
    rw [freeDisk_live noLinks] at live
    refine (linked.below x live).transfer (fun _ => True) ?_ live.1 trivial
    intro x y isDir nonzero entry kind _
    have above := (linked.down x y isDir nonzero entry kind).1
    rw [freeDisk_other (ne_of_live noLinks above)]
    exact ⟨trivial, isDir, entry⟩

end Free

end Xv6Tracing.Fs
