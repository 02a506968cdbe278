import Xv6Tracing.Volume.NewImage

/-!
# Consistency of a new image

What the kernel relies on when it mounts the image of `mkfs`: no inode has a hole,
no block is used twice or outside the data area, the bit map says which blocks are
in use, and the root directory names the files.
-/

set_option autoImplicit false

namespace Xv6Tracing.Volume.Mkfs

open Lib

/-! ## Directory entries -/

/-- The first `n` entries in the bytes of a directory. -/
def direntsOf : Nat → List Uchar → List (Short × List Uchar)
  | 0, _ => []
  | n + 1, bytes =>
    (shortAt bytes 0, (bytes.drop 2).take DIRSIZ) :: direntsOf n (bytes.drop sizeofDirent)

def liveDirents (bytes : List Uchar) : List (Short × List Uchar) :=
  (direntsOf (bytes.length / sizeofDirent) bytes).filter fun de => decide (de.1 ≠ 0)

theorem direntsOf_cons (n inum : Nat) (name rest : List Uchar) :
    direntsOf (n + 1) (dirent inum name ++ rest) =
      (BitVec.ofNat 16 inum, storedName name) :: direntsOf n rest := by
  have number : ∀ tail : List Uchar,
      shortAt (ofShort (BitVec.ofNat 16 inum) ++ tail) 0 = BitVec.ofNat 16 inum := by
    intro tail
    rw [shortAt, List.drop_zero, List.take_left' (length_ofShort _)]
    exact word_ofLe_leBytes _ (by norm_num)
  have name_ : ((dirent inum name ++ rest).drop 2).take DIRSIZ = storedName name := by
    rw [dirent, List.append_assoc, List.drop_left' (length_ofShort _),
      List.take_left' (length_storedName _)]
  rw [direntsOf, name_, List.drop_left' (length_dirent _ _), dirent, xshort_eq, List.append_assoc,
    number]

theorem direntsOf_append (k : Nat) (rest : List Uchar) : ∀ (files : List HostFile) (next : Nat),
    direntsOf (files.length + k) (entriesFrom next files ++ rest) =
      (files.mapIdx fun j file => (BitVec.ofNat 16 (next + j), storedName file.imageName)) ++
        direntsOf k rest := by
  intro files
  induction files with
  | nil =>
    intro next
    simp [entriesFrom]
  | cons file others ih =>
    intro next
    have count : (file :: others).length + k = others.length + k + 1 := by
      rw [List.length_cons]
      omega
    rw [count, entriesFrom, List.append_assoc, direntsOf_cons, ih, List.mapIdx_cons,
      List.cons_append]
    simp only [Nat.add_zero, Nat.add_assoc, Nat.add_comm 1]

theorem direntsOf_zero : ∀ (k m : Nat), ∀ de ∈ direntsOf k (List.replicate m 0), de.1 = 0 := by
  intro k
  induction k with
  | zero => simp [direntsOf]
  | succ k ih =>
    intro m de member
    simp only [direntsOf, List.mem_cons, List.drop_replicate] at member
    rcases member with rfl | later
    · simp only [shortAt, List.drop_zero, List.take_replicate, ofLe_replicate_zero]
      rfl
    · exact ih _ de later

def rootDirents (files : List HostFile) : List (Short × List Uchar) :=
  (BitVec.ofNat 16 ROOTINO, storedName (cstr ".")) ::
    (BitVec.ofNat 16 ROOTINO, storedName (cstr "..")) ::
    files.mapIdx fun j file => (BitVec.ofNat 16 (2 + j), storedName file.imageName)

theorem imageContents_root (files : List HostFile) : imageContents files ROOTINO =
    dirent ROOTINO (cstr ".") ++ (dirent ROOTINO (cstr "..") ++ entriesFrom 2 files) := by
  rw [imageContents, withFiles, if_pos rfl, Function.update_self, List.append_assoc]

theorem length_imageContents_root (files : List HostFile) :
    (imageContents files ROOTINO).length = sizeofDirent * (files.length + 2) := by
  rw [imageContents_root, List.length_append, List.length_append, length_dirent, length_dirent,
    length_entriesFrom]
  unfold sizeofDirent
  omega

variable {files : List HostFile}

/-- The entries in use, with any number of blank entries behind them. -/
theorem liveDirents_root (count : files.length ≤ NINODES - 2) (k : Nat) :
    liveDirents (imageContents files ROOTINO ++ List.replicate (sizeofDirent * k) 0) =
      rootDirents files := by
  have entries : (imageContents files ROOTINO ++
      List.replicate (sizeofDirent * k) (0 : Uchar)).length / sizeofDirent =
      files.length + k + 1 + 1 := by
    rw [List.length_append, length_imageContents_root, List.length_replicate]
    unfold sizeofDirent
    omega
  have all : direntsOf (files.length + k + 1 + 1)
      (imageContents files ROOTINO ++ List.replicate (sizeofDirent * k) 0) =
      rootDirents files ++ direntsOf k (List.replicate (sizeofDirent * k) 0) := by
    rw [imageContents_root, List.append_assoc, List.append_assoc, direntsOf_cons, direntsOf_cons,
      direntsOf_append]
    rfl
  have numbers : ∀ de ∈ rootDirents files, decide (de.1 ≠ 0) = true := by
    intro de member
    rw [decide_eq_true_eq]
    rcases List.mem_cons.mp member with rfl | member
    · decide
    · rcases List.mem_cons.mp member with rfl | member
      · decide
      · obtain ⟨j, inside, rfl⟩ := List.mem_mapIdx.mp member
        intro zero
        have value := congrArg BitVec.toNat zero
        grind [NINODES]
  rw [liveDirents, entries, all, List.filter_append, List.filter_eq_self.mpr numbers,
    List.filter_eq_nil_iff.mpr, List.append_nil]
  intro de member
  rw [decide_eq_true_eq, not_not]
  exact direntsOf_zero _ _ de member

/-! ## Consistency -/

/-- The blocks of the files, the root directory included, and of the metadata. -/
def blocksNeeded (files : List HostFile) : Nat :=
  nmeta + blocksFor (sizeofDirent * (files.length + 2)) +
    (files.map fun file => blocksFor file.bytes.length).sum

theorem sum_files (files : List HostFile) : ∀ m, files.length ≤ m →
    ∑ k ∈ Finset.range m, blocksFor (((files[k]?).map HostFile.bytes).getD []).length =
      (files.map fun file => blocksFor file.bytes.length).sum := by
  have none : blocksFor 0 = 0 := by decide
  induction files with
  | nil =>
    intro m _
    simp [none]
  | cons file rest ih =>
    intro m enough
    rw [List.length_cons] at enough
    obtain ⟨m, rfl⟩ : ∃ l, m = l + 1 := ⟨m - 1, by omega⟩
    rw [Finset.sum_range_succ']
    simp only [List.getElem?_cons_succ, List.map_cons, List.sum_cons]
    rw [ih m (by omega), Nat.add_comm]
    rfl

theorem blocksOf_imageContents (count : files.length ≤ NINODES - 2) :
    nmeta + blocksOf (imageContents files) = blocksNeeded files := by
  have none : blocksFor 0 = 0 := by decide
  have size : NINODES = NINODES - 2 + 1 + 1 := by decide
  have first : imageContents files 0 = [] := rfl
  have root : imageContents files (0 + 1) = imageContents files ROOTINO := rfl
  have later : ∀ k, imageContents files (k + 1 + 1) =
      ((files[k]?).map HostFile.bytes).getD [] := by
    intro k
    rw [imageContents, withFiles, if_neg (by unfold ROOTINO; omega), if_pos (by omega)]
    rfl
  rw [blocksOf, size, Finset.sum_range_succ', Finset.sum_range_succ', first, root,
    length_imageContents_root, List.length_nil, none, Nat.add_zero]
  simp only [later]
  rw [sum_files files _ count, blocksNeeded]
  omega

structure Room (files : List HostFile) : Prop where
  count : files.length ≤ NINODES - 2
  each : ∀ file ∈ files, file.bytes.length ≤ MAXFILE * BSIZE
  all : blocksNeeded files ≤ FSSIZE

theorem Room.fits (room : Room files) : Fits (imageContents files) where
  each i := by
    by_cases root : i = ROOTINO
    · have count := room.count
      rw [root, length_imageContents_root]
      simp only [sizeofDirent, NINODES, MAXFILE, NDIRECT, NINDIRECT, BSIZE] at count ⊢
      omega
    · rw [imageContents, withFiles, if_neg root]
      grind [Room]
  all := by
    rw [blocksOf_imageContents room.count]
    exact room.all

structure ImageOk (disk : Disk) (files : List HostFile) : Prop where
  blocks : ∀ i < NINODES, (dinodeAt sb disk i).type ≠ 0 →
    ∀ bn < ((dinodeAt sb disk i).size.toNat + BSIZE - 1) / BSIZE,
      (dinodeAt sb disk i).addr disk (placeOf bn) ≠ 0
  distinct : ∀ i < NINODES, ∀ j < NINODES, (dinodeAt sb disk i).type ≠ 0 →
    (dinodeAt sb disk j).type ≠ 0 → ∀ k < NPLACES, ∀ l < NPLACES,
      (dinodeAt sb disk i).addr disk k ≠ 0 →
      (dinodeAt sb disk i).addr disk k = (dinodeAt sb disk j).addr disk l → i = j ∧ k = l
  area : ∀ i < NINODES, (dinodeAt sb disk i).type ≠ 0 → ∀ k < NPLACES,
    (dinodeAt sb disk i).addr disk k ≠ 0 →
      nmeta ≤ (dinodeAt sb disk i).addr disk k ∧ (dinodeAt sb disk i).addr disk k < FSSIZE
  bitmap : ∀ b < FSSIZE, usedAt sb disk b = true ↔
    b < nmeta ∨ ∃ i < NINODES, (dinodeAt sb disk i).type ≠ 0 ∧ ∃ k < NPLACES,
      (dinodeAt sb disk i).addr disk k = b
  root : (dinodeAt sb disk ROOTINO).type = T_DIR ∧
    liveDirents ((dinodeAt sb disk ROOTINO).contents disk) = rootDirents files

section Finished

variable {disk : Disk} {types : Nat → Short} {files : List HostFile}

theorem Finished.inUse (finished : Finished disk types files) {i : Nat} (exists_ : i < NINODES)
    (allocated : (dinodeAt sb disk i).type ≠ 0) : types i ≠ 0 := by
  rwa [← finished.types_eq i exists_]

/-- A block index below the rounded size of a directory that does not end at a block
boundary is below its size. -/
theorem below_of_roundedUp {n bn : Nat} (offBoundary : n % 32 ≠ 0)
    (below : bn < (roundedUp (sizeofDirent * n) + BSIZE - 1) / BSIZE) :
    bn * BSIZE < sizeofDirent * n := by
  simp only [roundedUp, sizeofDirent, BSIZE] at below ⊢
  omega

section

variable (finished : Finished disk types files)

include finished

theorem Finished.blocks (fits : Fits (imageContents files))
    (offBoundary : (files.length + 2) % 32 ≠ 0) {i : Nat} (exists_ : i < NINODES)
    (allocated : (dinodeAt sb disk i).type ≠ 0) {bn : Nat}
    (below : bn < ((dinodeAt sb disk i).size.toNat + BSIZE - 1) / BSIZE) :
    (dinodeAt sb disk i).addr disk (placeOf bn) ≠ 0 := by
  have inUse := finished.inUse exists_ allocated
  have inside : bn * BSIZE < (imageContents files i).length := by
    rw [finished.size i exists_ inUse] at below
    split at below
    · rename_i root
      rw [root, length_imageContents_root] at below ⊢
      exact below_of_roundedUp offBoundary below
    · simp only [BSIZE] at below ⊢
      omega
  have inRange : bn < MAXFILE := by
    have limit := fits.each i
    by_contra large
    have := Nat.mul_le_mul_right BSIZE (Nat.le_of_not_lt large)
    omega
  have held := ((finished.extent i exists_ inUse).blocks bn inRange).mpr inside
  rwa [holding_of exists_ allocated (placeOf_lt inRange)] at held

/-- The root directory read by the kernel: the entries, then blank ones. -/
theorem Finished.contents_root
    (offBoundary : (files.length + 2) % 32 ≠ 0) (count : files.length ≤ NINODES - 2) :
    (dinodeAt sb disk ROOTINO).contents disk = imageContents files ROOTINO ++
      List.replicate (sizeofDirent * (32 - (files.length + 2) % 32)) 0 := by
  have inUse : types ROOTINO ≠ 0 := by
    rw [finished.root]
    decide
  have length := length_imageContents_root files
  have size : (dinodeAt sb disk ROOTINO).size.toNat =
      (imageContents files ROOTINO).length + sizeofDirent * (32 - (files.length + 2) % 32) := by
    rw [finished.size ROOTINO (by decide) inUse, if_pos rfl, length]
    simp only [roundedUp, sizeofDirent, BSIZE]
    omega
  rw [Dinode.contents, size, Bytes.read_add, finished.read ROOTINO (by decide) inUse, Nat.zero_add]
  congr 1
  apply List.eq_replicate_iff.mpr
  refine ⟨Bytes.length_read .., ?_⟩
  intro byte member
  obtain ⟨j, inside, rfl⟩ := List.mem_iff_getElem.mp member
  rw [Bytes.length_read] at inside
  rw [Bytes.getElem_read]
  apply finished.tail _ _ _ (Nat.le_add_right _ _)
  -- the blank entries lie in the last block of the directory
  set p := (imageContents files ROOTINO).length + j with position
  have block : p / BSIZE * BSIZE < (imageContents files ROOTINO).length := by
    rw [position, length]
    rw [length] at position
    simp only [sizeofDirent, BSIZE] at inside position ⊢
    omega
  have inRange : p / BSIZE < MAXFILE := by
    rw [length] at block
    simp only [sizeofDirent, NINODES, MAXFILE, NDIRECT, NINDIRECT, BSIZE] at block count ⊢
    omega
  exact ((finished.extent ROOTINO (by decide) inUse).blocks _ inRange).mpr block

theorem Finished.imageOk (room : Room files)
    (offBoundary : (files.length + 2) % 32 ≠ 0) : ImageOk disk files where
  blocks i exists_ allocated bn below :=
    finished.blocks room.fits offBoundary exists_ allocated below
  distinct i inRange j inRange' allocated allocated' k place l place' nonzero same := by
    rw [← holding_of inRange allocated place] at nonzero same
    rw [← holding_of inRange' allocated' place'] at same
    exact Prod.mk.inj (finished.owns.apart _ _ nonzero same)
  area i inRange allocated k place nonzero := by
    rw [← holding_of inRange allocated place] at nonzero ⊢
    have inUse := finished.owns.used_own nonzero
    have all := room.fits.all
    omega
  bitmap b inRange := by
    rw [finished.bitmap b inRange, decide_eq_true_eq]
    constructor
    · intro inUse
      by_cases low : b < nmeta
      · exact Or.inl low
      · obtain ⟨nonzero, ⟨i, k⟩, held⟩ := (finished.owns.held b).mp ⟨Nat.le_of_not_lt low, inUse⟩
        have valid : i < NINODES ∧ (dinodeAt sb disk i).type ≠ 0 ∧ k < NPLACES := by
          by_contra invalid
          exact nonzero (held.symm.trans (if_neg invalid))
        grind [holding_of]
    · rintro (low | ⟨i, exists_, allocated, k, place, held⟩)
      · omega
      · by_cases zero : b = 0
        · have positive : 0 < nmeta := by decide
          omega
        · rw [← holding_of exists_ allocated place] at held
          exact ((finished.owns.held b).mpr ⟨zero, _, held⟩).2
  root := by
    refine ⟨(finished.types_eq _ (by decide)).trans finished.root, ?_⟩
    rw [finished.contents_root offBoundary room.count]
    exact liveDirents_root room.count _

/-- The block that rounding up adds to a directory that ends at a block boundary. -/
theorem Finished.hole (room : Room files)
    (boundary : (files.length + 2) % 32 = 0) :
    let bn := sizeofDirent * (files.length + 2) / BSIZE
    bn < ((dinodeAt sb disk ROOTINO).size.toNat + BSIZE - 1) / BSIZE ∧
      (dinodeAt sb disk ROOTINO).addr disk (placeOf bn) = 0 := by
  intro bn
  have count := room.count
  have inUse : types ROOTINO ≠ 0 := by
    rw [finished.root]
    decide
  have kind : (dinodeAt sb disk ROOTINO).type ≠ 0 := by
    rwa [finished.types_eq _ (by decide)]
  have length := length_imageContents_root files
  constructor
  · rw [finished.size ROOTINO (by decide) inUse, if_pos rfl, length]
    simp only [bn, roundedUp, sizeofDirent, BSIZE]
    omega
  · have inRange : bn < MAXFILE := by
      simp only [bn, sizeofDirent, NINODES, MAXFILE, NDIRECT, NINDIRECT, BSIZE] at count ⊢
      omega
    have block := (finished.extent ROOTINO (by decide) inUse).blocks bn inRange
    rw [length, holding_of (by decide) kind (placeOf_lt inRange)] at block
    by_contra held
    have below := block.mp held
    simp only [bn, sizeofDirent, BSIZE] at below
    omega

end

end Finished

theorem main_ends (room : Room files) :
    (main files blank = .error .slash ∧ ∃ file ∈ files, SLASH ∈ file.name) ∨
      ∃ img types, main files blank = .ok ((), img) ∧ Finished img.disk types files := by
  have spec := main_spec room.count room.fits
  unfold wp at spec
  split at spec
  · rename_i result img ends
    obtain ⟨types, finished⟩ := spec
    exact Or.inr ⟨img, types, ends, finished⟩
  · rename_i e stopped
    obtain ⟨rfl, slash⟩ := spec
    exact Or.inl ⟨stopped, slash⟩

/-- Empty files whose names are the letters from `a` on. -/
def emptyFiles (n : Nat) : List HostFile :=
  (List.range n).map fun k => ⟨[BitVec.ofNat 8 (97 + k)], []⟩

theorem emptyFiles_room {n : Nat} (few : n ≤ 30) : Room (emptyFiles n) where
  count := by
    simp only [emptyFiles, List.length_map, List.length_range, NINODES]
    omega
  each file member := by
    obtain ⟨k, -, rfl⟩ := List.mem_map.mp member
    exact Nat.zero_le _
  all := by
    interval_cases n <;> decide

end Xv6Tracing.Volume.Mkfs
