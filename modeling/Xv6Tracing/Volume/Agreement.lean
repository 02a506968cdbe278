import Xv6Tracing.Syscall.Pointers
import Xv6Tracing.Volume.Filled
import Xv6Tracing.Volume.Reading

/-!
# mkfs and the kernel agree on the file format

Files that `mkfs` appends to, in any order and in pieces of any size, are read by
the kernel as the pieces in the order of the appends.
-/

set_option autoImplicit false

namespace Xv6Tracing.Volume.Mkfs

open Lib

inductive BuildOp where
  | ialloc (type : Short)
  | iappend (inum : Nat) (p : List Uchar)

def buildOp : BuildOp → MkfsM Unit
  | .ialloc type => discard (ialloc type)
  | .iappend inum p => iappend inum p

def build : List BuildOp → MkfsM Unit
  | [] => return
  | op :: rest => do
      buildOp op
      build rest

/-- Inodes are allocated before anything is appended to them, as directories or
files, and there are enough of them; `next` is the next one. -/
def WellFormed : Nat → List BuildOp → Prop
  | _, [] => True
  | next, .ialloc type :: rest =>
    next < NINODES ∧ (type = T_DIR ∨ type = T_FILE) ∧ WellFormed (next + 1) rest
  | next, .iappend inum _ :: rest => (1 ≤ inum ∧ inum < next) ∧ WellFormed next rest

def allocs : List BuildOp → Nat
  | [] => 0
  | .ialloc _ :: rest => allocs rest + 1
  | .iappend _ _ :: rest => allocs rest

/-- The pieces appended to inode `i`, one after the other. -/
def appendedTo (i : Nat) : List BuildOp → List Uchar
  | [] => []
  | .ialloc _ :: rest => appendedTo i rest
  | .iappend inum p :: rest => (if inum = i then p else []) ++ appendedTo i rest

theorem build_spec : ∀ (ops : List BuildOp) {img : Image} {types : Nat → Short}
    {files : Nat → List Uchar}, Filled img types files → (∀ i, types i ≠ T_DEV) →
    WellFormed img.freeinode ops →
    (∀ i, (files i ++ appendedTo i ops).length ≤ MAXFILE * BSIZE) →
    nmeta + blocksOf (fun i => files i ++ appendedTo i ops) ≤ FSSIZE →
    wp (build ops) img (fun _ img' => ∃ types', Filled img' types'
      (fun i => files i ++ appendedTo i ops) ∧ (∀ i, types' i ≠ T_DEV) ∧
      img'.freeinode = img.freeinode + allocs ops) (fun _ => False) := by
  intro ops
  induction ops with
  | nil =>
    intro img types files filled plain _ _ _
    simp only [build, wp_pure, appendedTo, List.append_nil]
    exact ⟨types, filled, plain, rfl⟩
  | cons op rest ih =>
    intro img types files filled plain formed each all
    cases op with
    | ialloc type =>
      obtain ⟨room, kind, formed⟩ := formed
      have nonzero : type ≠ 0 ∧ type ≠ T_DEV := by rcases kind with rfl | rfl <;> decide
      simp only [build, buildOp, wp_bind, wp_discard]
      refine wp_mono (ialloc_spec filled type nonzero.1 room) ?_
      rintro inum img' ⟨-, next, filled'⟩
      refine wp_mono (ih filled' ?_ (by rwa [next]) each all) ?_
      · intro i
        grind
      · rintro - img'' ⟨types', result, plain', last⟩
        exact ⟨types', result, plain', by rw [last, next, allocs]; omega⟩
    | iappend inum p =>
      obtain ⟨range, formed⟩ := formed
      have exists_ : inum < NINODES := lt_of_lt_of_le range.2 filled.inodes.2
      have inUse : types inum ≠ 0 := (filled.allocated inum exists_).mpr range
      have first : ∀ i, files i ++ appendedTo i (.iappend inum p :: rest) =
          Function.update files inum (files inum ++ p) i ++ appendedTo i rest := by
        intro i
        by_cases mine : i = inum
        · subst mine
          rw [Function.update_self, appendedTo, if_pos rfl, List.append_assoc]
        · rw [Function.update_of_ne mine, appendedTo, if_neg (Ne.symm mine), List.nil_append]
      simp only [first] at each all ⊢
      have here := each inum
      rw [Function.update_self, List.length_append, List.length_append] at here
      have less : blocksOf (Function.update files inum (files inum ++ p)) ≤ blocksOf (fun i =>
          Function.update files inum (files inum ++ p) i ++ appendedTo i rest) :=
        blocksOf_mono fun i => by rw [List.length_append]; omega
      simp only [build, buildOp, wp_bind]
      refine wp_mono (iappend_spec filled exists_ inUse (by omega) (by omega)) ?_
      rintro - img' ⟨next, filled'⟩
      refine wp_mono (ih filled' plain (by rwa [next]) each all) ?_
      rintro - img'' ⟨types', result, plain', last⟩
      exact ⟨types', result, plain', by rw [last, next, allocs]⟩

/-! ## Reading in the kernel -/

/-- `ilock(ip); readi(ip, dst, 0, ip->size)` -/
def readWhole (a : Fin NINODE) : VolM (Option (List Uchar)) := do
  ilock a
  let s ← get
  readi a 0 (s.icache a).size

/-- An entry of the inode cache for inode `i` that has not been read in yet. -/
def Fresh (s : Vol) (a : Fin NINODE) (i : Nat) : Prop :=
  (s.icache a).inum = i ∧ 1 ≤ (s.icache a).ref ∧ (s.icache a).locked = false ∧
    (s.icache a).valid = false

def Mounted (s : Vol) (img : Image) : Prop := s.disk = img.disk ∧ s.sb = superAt img.disk

variable {i : Nat} {files : Nat → List Uchar} {types : Nat → Short} {img : Image}

theorem Filled.whole (filled : Filled img types files) (exists_ : i < NINODES) (inUse : types i ≠ 0)
    (onDisk : img.freeblock ≤ FSSIZE) : Whole (dinodeAt sb img.disk i) img.disk where
  size := by
    rw [filled.size exists_ inUse]
    exact filled.fits i exists_
  mapped bn below := by
    have fits := filled.fits i exists_
    rw [filled.size exists_ inUse] at below
    have inRange : bn < MAXFILE := by
      by_contra large
      have := Nat.mul_le_mul_right BSIZE (Nat.le_of_not_lt large)
      omega
    have held := ((filled.extent i exists_ inUse).blocks bn inRange).mpr below
    rwa [holding_of exists_ (filled.type_ne exists_ inUse) (placeOf_lt inRange)] at held
  onDisk k place := by
    by_cases none : (dinodeAt sb img.disk i).addr img.disk k = 0
    · rw [none]
      decide
    · rw [← holding_of exists_ (filled.type_ne exists_ inUse) place] at none ⊢
      have inUse := filled.building.owns.used_own none
      omega

theorem readWhole_spec
    (filled : Filled img types files) (exists_ : i < NINODES) (inUse : types i ≠ 0)
    (plain : types i ≠ T_DEV) (onDisk : img.freeblock ≤ FSSIZE) {s : Vol} {a : Fin NINODE}
    (mounted : Mounted s img) (fresh : Fresh s a i) :
    wp (readWhole a) s (fun r _ => r = some (files i)) (fun _ => False) := by
  obtain ⟨number, ref, unlocked, invalid⟩ := fresh
  have super : s.sb = sb := mounted.2.trans filled.super
  have low := iblock_low exists_
  have high : nmeta < FSSIZE := by decide
  have kind := filled.type_ne exists_ inUse
  have zero : (0 : Uint).toNat = 0 := rfl
  have dinode : dinodeAt s.sb s.disk (s.icache a).inum = dinodeAt sb img.disk i := by
    rw [super, number, mounted.1]
  unfold readWhole
  refine wp_bind.mpr (ilock_fresh ref unlocked invalid ?_ ?_ ?_)
  · rw [super, number]
    exact lt_trans low.2 high
  · rwa [dinode]
  · simp only [wp_bind, wp_get, dinode]
    refine wp_mono (readi_spec ?_ ?_ ?_ ?_) ?_
    · simp only [Vol.setInode, Function.update_self, mounted.1]
      exact filled.whole exists_ inUse onDisk
    · simp only [Vol.setInode, Function.update_self]
      rwa [filled.types_eq i exists_]
    · exact Nat.zero_le _
    · rw [zero, Nat.zero_add]
      exact BitVec.isLt _
    · rintro r t ⟨rfl, -⟩
      simp only [Vol.setInode, Function.update_self, mounted.1, zero, Nat.sub_zero, Nat.min_self]
      exact congrArg some (filled.contents i exists_ inUse)

/-- Whatever `mkfs` appends to the inodes, in any order and in pieces of any size, as
long as it fits: the kernel reads each inode as the pieces appended to it. -/
theorem kernel_reads_appends (ops : List BuildOp) (formed : WellFormed 1 ops)
    (each : ∀ i, (appendedTo i ops).length ≤ MAXFILE * BSIZE)
    (all : nmeta + ∑ i ∈ Finset.range NINODES, blocksFor (appendedTo i ops).length ≤ FSSIZE) :
    ∃ img, build ops blank = .ok ((), img) ∧
      ∀ i, 1 ≤ i → i ≤ allocs ops → ∀ (s : Vol) (a : Fin NINODE), Mounted s img → Fresh s a i →
        ∃ t, readWhole a s = .ok (some (appendedTo i ops), t) := by
  have built := build_spec ops blank_filled (fun _ => by decide) formed each all
  obtain ⟨⟨⟩, img, ends, types, filled, plain, last⟩ := exists_of_wp built
  refine ⟨img, ends, fun i positive below s a mounted fresh => ?_⟩
  have first : blank.freeinode = 1 := rfl
  have range : 1 ≤ i ∧ i < img.freeinode := by omega
  have exists_ : i < NINODES := lt_of_lt_of_le range.2 filled.inodes.2
  have inUse : types i ≠ 0 := (filled.allocated i exists_).mpr range
  have onDisk : img.freeblock ≤ FSSIZE := by
    rw [filled.count]
    exact all
  have whole := readWhole_spec filled exists_ inUse (plain i) onDisk mounted fresh
  obtain ⟨r, t, read, rfl⟩ := exists_of_wp whole
  exact ⟨t, read⟩

def sampleOps : List BuildOp :=
  [.ialloc T_DIR, .ialloc T_FILE, .iappend 2 (cstr "one "), .iappend 1 (cstr "."),
    .iappend 2 (cstr "two")]

/-- A kernel that has looked up inode `i` of an image and not read it yet. -/
def mount (img : Image) (i : Nat) : Vol where
  files := Syscall.oneProcess ⟨0, 0, 0, 0, 0, 0, 0⟩
  sb := superAt img.disk
  disk := img.disk
  icache := fun _ => ⟨Dinode.zero, i, 1, false, false⟩
  outstanding := 0
  input := []

theorem kernel_reads_appends_sample :
    WellFormed 1 sampleOps ∧ ∃ img t, build sampleOps blank = .ok ((), img) ∧
      readWhole 0 (mount img 2) = .ok (some (cstr "one two"), t) := by
  have formed : WellFormed 1 sampleOps := by simp [WellFormed, sampleOps, NINODES]
  have each : ∀ i, (appendedTo i sampleOps).length ≤ MAXFILE * BSIZE := by
    intro i
    have short : (appendedTo i sampleOps).length ≤ 8 := by
      simp only [sampleOps, appendedTo]
      split <;> split <;> decide
    exact short.trans (by decide)
  obtain ⟨img, ends, reads⟩ := kernel_reads_appends sampleOps formed each (by decide +kernel)
  obtain ⟨t, read⟩ := reads 2 (by decide) (by decide) (mount img 2) 0 ⟨rfl, rfl⟩
    ⟨rfl, le_rfl, rfl, rfl⟩
  exact ⟨formed, img, t, ends, read⟩

end Xv6Tracing.Volume.Mkfs
