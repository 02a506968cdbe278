import Xv6Tracing.Volume.Filled

/-!
# The image that mkfs writes

After the files are in, `main` rounds the size of the root directory up and writes
the bit map.  Every inode then has a block for each index below its size, except
that rounding up adds a whole block to a root directory that ends at a block
boundary, and that block has no address.
-/

set_option autoImplicit false

namespace Xv6Tracing.Volume.Mkfs

open Function (update update_eq_self update_idem update_of_ne update_self)

open Lib

/-! ## The files -/

@[simp] theorem length_storedName (name : List Uchar) : (storedName name).length = DIRSIZ := by
  rw [storedName, List.length_append, List.length_replicate, List.length_take]
  omega

@[simp] theorem length_dirent (inum : Nat) (name : List Uchar) :
    (dirent inum name).length = sizeofDirent := by
  rw [dirent, List.length_append, length_ofShort, length_storedName]
  rfl

def HostFile.bytes (file : HostFile) : List Uchar := file.reads.flatten

/-- The directory entries of files with inodes from `next` on. -/
def entriesFrom : Nat → List HostFile → List Uchar
  | _, [] => []
  | next, file :: rest => dirent next file.imageName ++ entriesFrom (next + 1) rest

theorem length_entriesFrom (files : List HostFile) : ∀ next,
    (entriesFrom next files).length = sizeofDirent * files.length := by
  induction files with
  | nil => intro next; rfl
  | cons file rest ih =>
    intro next
    rw [entriesFrom, List.length_append, length_dirent, ih, List.length_cons, Nat.mul_succ,
      Nat.add_comm]

/-- What the inodes hold once the files are added, with inodes from `next` on. -/
def withFiles (contents : Nat → List Uchar) (next : Nat) (files : List HostFile) (i : Nat) :
    List Uchar :=
  if i = ROOTINO then contents i ++ entriesFrom next files
  else if next ≤ i then ((files[i - next]?).map HostFile.bytes).getD []
  else contents i

theorem withFiles_cons {contents : Nat → List Uchar} {next : Nat} (root : ROOTINO < next)
    (file : HostFile) (rest : List HostFile) :
    withFiles contents next (file :: rest) =
      withFiles (update (update contents ROOTINO
        (contents ROOTINO ++ dirent next file.imageName)) next file.bytes) (next + 1) rest := by
  funext i
  unfold withFiles
  by_cases first : i = ROOTINO
  · subst first
    rw [if_pos rfl, if_pos rfl, update_of_ne root.ne, update_self, entriesFrom,
      List.append_assoc]
  · grind

section Populate

variable {img : Image} {types : Nat → Short} {contents : Nat → List Uchar}

/-- `final` bounds what the inodes will hold; it fits. -/
structure Fits (final : Nat → List Uchar) : Prop where
  each : ∀ i, (final i).length ≤ MAXFILE * BSIZE
  all : nmeta + blocksOf final ≤ FSSIZE

variable {final : Nat → List Uchar}

theorem iappend_fits (fits : Fits final) {i : Nat} {p : List Uchar}
    (filled : Filled img types contents) (exists_ : i < NINODES) (inUse : types i ≠ 0)
    (below : ∀ j, (update contents i (contents i ++ p) j).length ≤ (final j).length) :
    wp (iappend i p) img (fun _ img' => img'.freeinode = img.freeinode ∧
      Filled img' types (update contents i (contents i ++ p))) (fun _ => False) := by
  have here := (below i).trans (fits.each i)
  rw [update_self, List.length_append] at here
  have sum := blocksOf_mono below
  have all := fits.all
  exact iappend_spec filled exists_ inUse here (by omega)

theorem appendAll_spec (fits : Fits final) {i : Nat}
    (exists_ : i < NINODES) (inUse : types i ≠ 0) : ∀ (reads : List (List Uchar)) {img : Image}
    {contents : Nat → List Uchar}, Filled img types contents →
    (∀ j, (update contents i (contents i ++ reads.flatten) j).length ≤ (final j).length) →
    wp (appendAll i reads) img (fun _ img' => img'.freeinode = img.freeinode ∧
      Filled img' types (update contents i (contents i ++ reads.flatten)))
      (fun _ => False) := by
  intro reads
  induction reads with
  | nil =>
    intro img contents filled _
    rw [appendAll, wp_pure, List.flatten_nil, List.append_nil, update_eq_self]
    exact ⟨rfl, filled⟩
  | cons buf rest ih =>
    intro img contents filled below
    have whole : update contents i (contents i ++ (buf :: rest).flatten) =
        update (update contents i (contents i ++ buf)) i
          (update contents i (contents i ++ buf) i ++ rest.flatten) := by
      rw [update_self, update_idem, List.flatten_cons, List.append_assoc]
    rw [whole] at below ⊢
    have start : ∀ j, (update contents i (contents i ++ buf) j).length ≤
        (final j).length := by
      intro j
      refine le_trans ?_ (below j)
      by_cases mine : j = i
      · subst mine
        simp only [update_self, List.length_append]
        omega
      · simp only [update_of_ne mine, le_refl]
    refine wp_call (iappend_fits fits filled exists_ inUse start) ?_
    grind

def Refused (files : List HostFile) (e : Stop) : Prop := e = .slash ∧ ∃ file ∈ files, SLASH ∈ file.name

def withFile (contents : Nat → List Uchar) (next : Nat) (file : HostFile) : Nat → List Uchar :=
  Function.update (Function.update contents ROOTINO
    (contents ROOTINO ++ dirent next file.imageName)) next file.bytes

theorem addFile_spec (fits : Fits final) {file : HostFile}
    (filled : Filled img types contents) (root : types ROOTINO = T_DIR)
    (room : img.freeinode < NINODES)
    (below : ∀ j, (withFile contents img.freeinode file j).length ≤ (final j).length) :
    wp (addFile ROOTINO file) img (fun _ img' => ∃ types',
      Filled img' types' (withFile contents img.freeinode file) ∧ types' ROOTINO = T_DIR ∧
      img'.freeinode = img.freeinode + 1) (Refused [file]) := by
  have rootRange := (filled.allocated ROOTINO (by decide)).mp (by rw [root]; decide)
  have other : ROOTINO ≠ img.freeinode := rootRange.2.ne
  have empty : contents img.freeinode = [] := by
    apply filled.free _ room
    by_contra inUse
    exact lt_irrefl _ ((filled.allocated _ room).mp inUse).2
  unfold addFile
  split
  · rename_i slash
    exact ⟨rfl, file, List.mem_singleton_self _, slash⟩
  · suffices completes : wp _ img (fun _ img' => ∃ types',
        Filled img' types' (withFile contents img.freeinode file) ∧ types' ROOTINO = T_DIR ∧
        img'.freeinode = img.freeinode + 1) (fun _ => False) from
      wp_conseq completes (fun _ _ holds => holds) fun _ stopped => stopped.elim
    refine wp_call (ialloc_spec filled T_FILE (by decide) room) ?_
    rintro inum img₁ ⟨rfl, next, filled₁⟩
    have root₁ : update types img.freeinode T_FILE ROOTINO = T_DIR := by
      rwa [update_of_ne other]
    have new₁ : update types img.freeinode T_FILE img.freeinode ≠ 0 := by
      rw [update_self]
      decide
    have start : ∀ j, (update contents ROOTINO
        (contents ROOTINO ++ dirent img.freeinode file.imageName) j).length ≤ (final j).length := by
      intro j
      by_cases mine : j = img.freeinode
      · rw [mine, update_of_ne other.symm, empty]
        exact Nat.zero_le _
      · have bound := below j
        rwa [withFile, update_of_ne mine] at bound
    refine wp_call (iappend_fits fits filled₁ (by decide) (by rw [root₁]; decide) start) ?_
    rintro - img₂ ⟨next₂, filled₂⟩
    have whole : withFile contents img.freeinode file = update
        (update contents ROOTINO
          (contents ROOTINO ++ dirent img.freeinode file.imageName)) img.freeinode
        (update contents ROOTINO
          (contents ROOTINO ++ dirent img.freeinode file.imageName) img.freeinode ++
          file.reads.flatten) := by
      rw [update_of_ne other.symm, empty, List.nil_append]
      rfl
    rw [whole] at below ⊢
    grind [wp_mono, appendAll_spec]

theorem length_le_withFiles {contents : Nat → List Uchar} {next : Nat} (files : List HostFile)
    (unused : ∀ i, next ≤ i → contents i = []) (i : Nat) :
    (contents i).length ≤ (withFiles contents next files i).length := by
  unfold withFiles
  split
  · rw [List.length_append]
    omega
  · split
    · rename_i later
      rw [unused i later]
      exact Nat.zero_le _
    · exact le_rfl

theorem addFiles_spec : ∀ (files : List HostFile) {img : Image} {types : Nat → Short}
    {contents : Nat → List Uchar}, Filled img types contents → types ROOTINO = T_DIR →
    img.freeinode + files.length ≤ NINODES → (∀ i, img.freeinode ≤ i → contents i = []) →
    Fits (withFiles contents img.freeinode files) →
    wp (addFiles ROOTINO files) img (fun _ img' => ∃ types',
      Filled img' types' (withFiles contents img.freeinode files) ∧ types' ROOTINO = T_DIR ∧
      img'.freeinode = img.freeinode + files.length) (Refused files) := by
  intro files
  induction files with
  | nil =>
    intro img types contents filled root _ unused _
    have same : withFiles contents img.freeinode [] = contents := by
      funext i
      unfold withFiles
      split
      · rw [entriesFrom, List.append_nil]
      · split
        · rename_i later
          rw [unused i later]
          rfl
        · rfl
    rw [same]
    exact ⟨types, filled, root, rfl⟩
  | cons file rest ih =>
    intro img types contents filled root room unused fits
    have rootRange := (filled.allocated ROOTINO (by decide)).mp (by rw [root]; decide)
    have unused' : ∀ i, img.freeinode + 1 ≤ i → withFile contents img.freeinode file i = [] := by
      intro i above
      rw [withFile, update_of_ne (by omega), update_of_ne (by omega)]
      exact unused i (by omega)
    rw [withFiles_cons rootRange.2] at fits ⊢
    rw [List.length_cons] at room ⊢
    refine wp_call (wp_conseq (addFile_spec fits filled root (by omega)
      (length_le_withFiles rest unused')) (fun _ _ holds => holds) ?_) ?_
    · rintro e ⟨slash, file', member, has⟩
      rw [List.mem_singleton.mp member] at has
      exact ⟨slash, file, List.mem_cons_self, has⟩
    · rintro - img' ⟨types', filled', root', next⟩
      rw [← next] at unused' fits ⊢
      refine wp_conseq (ih filled' root' (by omega) unused' fits) ?_ ?_
      · rintro - img'' ⟨types'', filled'', root'', next''⟩
        exact ⟨types'', filled'', root'', by omega⟩
      · rintro e ⟨slash, file', member, has⟩
        exact ⟨slash, file', List.mem_cons_of_mem _ member, has⟩

def imageContents (files : List HostFile) : Nat → List Uchar :=
  withFiles (Function.update (fun _ => []) ROOTINO
    (dirent ROOTINO (cstr ".") ++ dirent ROOTINO (cstr ".."))) 2 files

theorem populate_spec {files : List HostFile} (count : files.length ≤ NINODES - 2)
    (fits : Fits (imageContents files)) :
    wp (populate files) blank (fun rootino img => rootino = ROOTINO ∧
      ∃ types, Filled img types (imageContents files) ∧ types ROOTINO = T_DIR) (Refused files) := by
  set dot := dirent ROOTINO (cstr ".") with dot_eq
  set dots := dot ++ dirent ROOTINO (cstr "..") with dots_eq
  have room : 2 + files.length ≤ NINODES := by
    unfold NINODES at count ⊢
    omega
  have root : (imageContents files ROOTINO).length = dots.length + (entriesFrom 2 files).length := by
    rw [imageContents, withFiles, if_pos rfl, update_self, List.length_append]
  have below : ∀ bytes : List Uchar, bytes.length ≤ dots.length →
      ∀ j, (update (fun _ => []) ROOTINO bytes j).length ≤ (imageContents files j).length := by
    intro bytes short j
    by_cases mine : j = ROOTINO
    · rw [mine, update_self, root]
      omega
    · rw [update_of_ne mine]
      exact Nat.zero_le _
  have completes : ∀ {α : Type} {m : MkfsM α} {img : Image} {post : α → Image → Prop},
      wp m img post (fun _ => False) → wp m img post (Refused files) := fun holds =>
    wp_conseq holds (fun _ _ done => done) fun _ stopped => stopped.elim
  unfold populate
  refine wp_call (completes (ialloc_spec blank_filled T_DIR (by decide) (by decide))) ?_
  rintro inum img₁ ⟨isRoot, next₁, filled₁⟩
  have first : blank.freeinode = ROOTINO := rfl
  rw [first] at isRoot next₁ filled₁
  subst isRoot
  rw [if_neg (not_not.mpr rfl)]
  have root₁ : update (fun _ => (0 : Short)) ROOTINO T_DIR ROOTINO = T_DIR :=
    update_self ..
  have inUse₁ : update (fun _ => (0 : Short)) ROOTINO T_DIR ROOTINO ≠ 0 := by
    rw [root₁]
    decide
  refine wp_call (completes (iappend_fits fits filled₁ (by decide) inUse₁
    (below dot (by rw [dots_eq, List.length_append]; omega)))) ?_
  rintro - img₂ ⟨next₂, filled₂⟩
  rw [List.nil_append] at filled₂
  have again : update (update (fun _ => ([] : List Uchar)) ROOTINO dot) ROOTINO
      (update (fun _ => ([] : List Uchar)) ROOTINO dot ROOTINO ++
        dirent ROOTINO (cstr "..")) = update (fun _ => []) ROOTINO dots := by
    rw [update_self, update_idem]
  refine wp_call (completes (iappend_fits fits filled₂ (by decide) inUse₁
    (by rw [again]; exact below dots le_rfl))) ?_
  rintro - img₃ ⟨next₃, filled₃⟩
  rw [again] at filled₃
  have next : img₃.freeinode = 2 := by
    rw [next₃, next₂, next₁]
    rfl
  refine wp_call (addFiles_spec files filled₃ root₁ (by rw [next]; exact room) ?_
    (by rw [next]; exact fits)) ?_
  · intro i above
    rw [next] at above
    exact update_of_ne (by unfold ROOTINO; omega) _ _
  · rintro - img₄ ⟨types, filled₄, root₄, -⟩
    rw [next] at filled₄
    exact ⟨rfl, types, filled₄, root₄⟩

end Populate

/-! ## The root directory's size and the bit map -/

theorem iblock_lt_bmap {i : Nat} (exists_ : i < NINODES) : IBLOCK sb i < sb.bmapstart := by
  simp only [IBLOCK, sb, NINODES, IPB, BSIZE, nlog, LOGSIZE, MAXOPBLOCKS, ninodeblocks] at exists_ ⊢
  omega

theorem isUsed_foldl (bi : Nat) : ∀ (marks : List Nat) (data : Bytes),
    isUsed (marks.foldl markUsed data) bi = (decide (bi ∈ marks) || isUsed data bi) := by
  intro marks
  induction marks with
  | nil => intro data; simp
  | cons mark rest ih => grind [isUsed_markUsed]

theorem usedAt_balloc (disk : Disk) (used : Nat) {b : Nat} (exists_ : b < FSSIZE) :
    usedAt sb (update disk sb.bmapstart ((List.range used).foldl markUsed fun _ => 0)) b =
      decide (b < used) := by
  have block : BBLOCK sb b = sb.bmapstart := by
    simp only [BBLOCK, BPB, BSIZE, FSSIZE] at exists_ ⊢
    omega
  have index : b % BPB = b := by
    apply Nat.mod_eq_of_lt
    simp only [BPB, BSIZE, FSSIZE] at exists_ ⊢
    omega
  have clear : isUsed (fun _ => 0) b = false := by simp [isUsed]
  rw [usedAt, block, index, update_self, isUsed_foldl, clear, Bool.or_false]
  simp only [List.mem_range]

def roundedUp (off : Nat) : Nat := (off / BSIZE + 1) * BSIZE

/-- What is on the disk when `mkfs` ends. -/
structure Finished (disk : Disk) (types : Nat → Short) (files : List HostFile) : Prop where
  types_eq : ∀ i < NINODES, (dinodeAt sb disk i).type = types i
  root : types ROOTINO = T_DIR
  size : ∀ i < NINODES, types i ≠ 0 → (dinodeAt sb disk i).size.toNat =
    if i = ROOTINO then roundedUp (imageContents files i).length
    else (imageContents files i).length
  owns : Owns (holding NINODES (dinodeAt sb disk) disk)
    (fun b => nmeta ≤ b ∧ b < nmeta + blocksOf (imageContents files))
  extent : ∀ i < NINODES, types i ≠ 0 →
    Extent (dinodeAt sb disk) disk i (imageContents files i).length
  read : ∀ i < NINODES, types i ≠ 0 →
    ((dinodeAt sb disk i).byte disk).read 0 (imageContents files i).length = imageContents files i
  tail : ∀ i p, Mapped NINODES (dinodeAt sb disk) disk i p → (imageContents files i).length ≤ p →
    (dinodeAt sb disk i).byte disk p = 0
  bitmap : ∀ b < FSSIZE, usedAt sb disk b = decide (b < nmeta + blocksOf (imageContents files))

def closeImage (img : Image) : Disk :=
  let din := dinodeAt sb img.disk ROOTINO
  let rounded := { din with size := BitVec.ofNat 32 (roundedUp din.size.toNat) }
  Function.update
    (Function.update img.disk (IBLOCK sb ROOTINO)
      (putDinode (img.disk (IBLOCK sb ROOTINO)) ROOTINO rounded))
    sb.bmapstart ((List.range img.freeblock).foldl markUsed fun _ => 0)

theorem roundedUp_lt {off : Nat} (fits : off ≤ MAXFILE * BSIZE) : roundedUp off < 2 ^ 32 := by
  simp only [roundedUp, MAXFILE, NDIRECT, NINDIRECT, BSIZE] at fits ⊢
  omega

theorem finished_closeImage {img : Image} {types : Nat → Short} {files : List HostFile}
    (filled : Filled img types (imageContents files)) (root : types ROOTINO = T_DIR) :
    Finished (closeImage img) types files := by
  set view := dinodeAt sb img.disk with view_eq
  set rounded : Dinode :=
    { view ROOTINO with size := BitVec.ofNat 32 (roundedUp (view ROOTINO).size.toNat) }
    with rounded_eq
  have inode : ∀ j < NINODES, dinodeAt sb (closeImage img) j =
      if j = ROOTINO then rounded else view j := by
    intro j inRange
    have outside : dinodeAt sb (closeImage img) j = dinodeAt sb (update img.disk
        (IBLOCK sb ROOTINO) (putDinode (img.disk (IBLOCK sb ROOTINO)) ROOTINO rounded)) j :=
      dinodeAt_congr sb (update_of_ne (iblock_lt_bmap inRange).ne _ _)
    rw [outside]
    split
    · rename_i mine
      rw [mine, dinodeAt_put_self]
    · rename_i other
      rw [dinodeAt_put_other _ _ other]
  have views : ∀ j < NINODES, (dinodeAt sb (closeImage img) j).type = (view j).type ∧
      (dinodeAt sb (closeImage img) j).addrs = (view j).addrs := by
    intro j inRange
    rw [inode j inRange]
    split
    · rename_i mine
      rw [mine]
      exact ⟨rfl, rfl⟩
    · exact ⟨rfl, rfl⟩
  have high : ∀ b, nmeta ≤ b → closeImage img b = img.disk b := by
    intro b above
    have low := iblock_low (by decide : ROOTINO < NINODES)
    have bmap : sb.bmapstart < nmeta := by decide
    unfold closeImage
    rw [update_of_ne (by omega), update_of_ne (by omega)]
  have addrs_eq : ∀ j < NINODES, (view j).type ≠ 0 →
      (dinodeAt sb (closeImage img) j).addrs = (view j).addrs :=
    fun j inRange _ => (views j inRange).2
  have same : holding NINODES (dinodeAt sb (closeImage img)) (closeImage img) =
      holding NINODES view img.disk :=
    holding_apart addrs_eq (filled.building.high high) fun j inRange => by
      rw [(views j inRange).1]
  have sameByte : ∀ {j p}, Mapped NINODES view img.disk j p →
      (dinodeAt sb (closeImage img) j).byte (closeImage img) p = (view j).byte img.disk p :=
    byte_apart addrs_eq (filled.building.high high)
  have last : img.freeblock = nmeta + blocksOf (imageContents files) := filled.count
  have mapped : ∀ i < NINODES, types i ≠ 0 → ∀ p < (imageContents files i).length,
      Mapped NINODES view img.disk i p := fun i inRange inUse p below =>
    (filled.extent i inRange inUse).mapped (filled.fits i inRange) below
  refine ⟨fun i inRange => ?_, root, fun i inRange inUse => ?_, ?_, fun i inRange inUse => ?_,
    fun i inRange inUse => ?_, fun i p here above => ?_, fun b inRange => ?_⟩
  · rw [(views i inRange).1, filled.types_eq i inRange]
  · grind [filled.size, roundedUp_lt, Filled]
  · rw [same, ← last]
    exact filled.building.owns
  · exact (filled.extent i inRange inUse).congr fun k => by rw [same]
  · conv_rhs => rw [← filled.read inRange inUse]
    apply Bytes.read_congr
    intro p below
    rw [Nat.zero_add]
    exact sameByte (mapped i inRange inUse p below)
  · unfold Mapped at here
    rw [same] at here
    rw [sameByte here]
    exact filled.tail i p here above
  · rw [closeImage, usedAt_balloc _ _ inRange, last]

theorem main_spec {files : List HostFile} (count : files.length ≤ NINODES - 2)
    (fits : Fits (imageContents files)) :
    wp (main files) blank (fun _ img => ∃ types, Finished img.disk types files)
      (Refused files) := by
  unfold main
  refine wp_call (populate_spec count fits) ?_
  rintro rootino img ⟨rfl, types, filled, root⟩
  have last : img.freeblock = nmeta + blocksOf (imageContents files) := filled.count
  have small : ¬BSIZE * 8 ≤ img.freeblock := by
    have all := fits.all
    simp only [BSIZE, FSSIZE] at all ⊢
    omega
  simp only [fixRoot, rinode, winode, balloc, rsect, wsect, xint_eq, bind_assoc, pure_bind,
    wp_bind, wp_get, wp_modify, if_neg small]
  exact ⟨types, finished_closeImage filled root⟩

end Xv6Tracing.Volume.Mkfs
