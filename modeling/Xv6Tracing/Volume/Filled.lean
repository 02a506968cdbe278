import Xv6Tracing.Volume.Append

/-!
# The image between two calls of mkfs

What every sequence of `ialloc` and `iappend` keeps: each inode holds the bytes
appended to it, in its own blocks, and `freeblock` has moved by exactly the blocks
these files need.
-/

set_option autoImplicit false

namespace Xv6Tracing.Volume.Mkfs

open Function (update update_eq_self update_of_ne update_self)

open Lib


theorem iblock_low {i : Nat} (exists_ : i < NINODES) : 2 ≤ IBLOCK sb i ∧ IBLOCK sb i < nmeta := by
  simp only [IBLOCK, sb, NINODES, IPB, BSIZE, nmeta, nlog, LOGSIZE, MAXOPBLOCKS, ninodeblocks,
    nbitmap, FSSIZE] at exists_ ⊢
  omega

/-- The inodes have the given types, 0 for those not allocated yet, and hold the
given bytes. -/
structure Filled (img : Image) (types : Nat → Short) (files : Nat → List Uchar) : Prop where
  building : Building img (dinodeAt sb img.disk)
  super : superAt img.disk = sb
  types_eq : ∀ i < NINODES, (dinodeAt sb img.disk i).type = types i
  allocated : ∀ i < NINODES, types i ≠ 0 ↔ 1 ≤ i ∧ i < img.freeinode
  free : ∀ i < NINODES, types i = 0 → files i = []
  extent : ∀ i < NINODES, types i ≠ 0 → Extent (dinodeAt sb img.disk) img.disk i (files i).length
  contents : ∀ i < NINODES, types i ≠ 0 → (dinodeAt sb img.disk i).contents img.disk = files i
  tail : ∀ i p, Mapped NINODES (dinodeAt sb img.disk) img.disk i p → (files i).length ≤ p →
    (dinodeAt sb img.disk i).byte img.disk p = 0
  fits : ∀ i < NINODES, (files i).length ≤ MAXFILE * BSIZE
  count : img.freeblock = nmeta + ∑ i ∈ Finset.range NINODES, blocksFor (files i).length
  inodes : 1 ≤ img.freeinode ∧ img.freeinode ≤ NINODES

section Filling

variable {img : Image} {types : Nat → Short} {files : Nat → List Uchar} {i : Nat}

theorem Dinode.length_contents (d : Dinode) (disk : Disk) :
    (d.contents disk).length = d.size.toNat := Bytes.length_read ..

theorem Filled.size (filled : Filled img types files) (exists_ : i < NINODES)
    (allocated : types i ≠ 0) : (dinodeAt sb img.disk i).size.toNat = (files i).length := by
  rw [← Dinode.length_contents, filled.contents i exists_ allocated]

theorem Filled.read (filled : Filled img types files) (exists_ : i < NINODES)
    (allocated : types i ≠ 0) :
    ((dinodeAt sb img.disk i).byte img.disk).read 0 (files i).length = files i := by
  have whole := filled.contents i exists_ allocated
  rwa [Dinode.contents, filled.size exists_ allocated] at whole

variable {view : Nat → Dinode}

theorem Extent.mapped {disk : Disk} {size p : Nat}
    (extent : Extent view disk i size) (fits : size ≤ MAXFILE * BSIZE) (below : p < size) :
    Mapped NINODES view disk i p := by
  have inRange : p / BSIZE < MAXFILE := Nat.div_lt_of_lt_mul (by rw [Nat.mul_comm]; omega)
  refine (extent.blocks _ inRange).mpr (lt_of_le_of_lt ?_ below)
  exact Nat.div_mul_le_self p BSIZE

theorem superAt_congr {disk disk' : Disk} (same : disk' 1 = disk 1) :
    superAt disk' = superAt disk := by
  rw [superAt, superAt, same]

theorem Building.high {disk' : Disk} (building : Building img view)
    (high : ∀ b, nmeta ≤ b → disk' b = img.disk b) (x : Nat × Nat)
    (held : holding NINODES view img.disk x ≠ 0) :
    disk' (holding NINODES view img.disk x) = img.disk (holding NINODES view img.disk x) :=
  high _ (building.owns.used_own held).1

theorem Building.congr {img' : Image} {view' : Nat → Dinode} (building : Building img view)
    (same : holding NINODES view' img'.disk = holding NINODES view img.disk)
    (blocks : img'.freeblock = img.freeblock)
    (high : ∀ b, nmeta ≤ b → img'.disk b = img.disk b) : Building img' view' where
  owns := by
    rw [same, blocks]
    exact building.owns
  blank b above := by
    rw [blocks] at above
    rw [high b (building.low.trans above), building.blank b above]
  low := by
    rw [blocks]
    exact building.low

/-- Writing back the inode `i` as `d`, where the rest of the image is as it should be. -/
theorem filled_winode {d : Dinode} (building : Building img view)
    (exists_ : i < NINODES) (here : d.type = (view i).type) (addrs : d.addrs = (view i).addrs)
    (others : ∀ j < NINODES, j ≠ i → dinodeAt sb img.disk j = view j)
    (super : superAt img.disk = sb)
    (types_eq : ∀ j < NINODES, (view j).type = types j)
    (sizes : ∀ j < NINODES, types j ≠ 0 →
      (if j = i then d else view j).size.toNat = (files j).length)
    (allocated : ∀ j < NINODES, types j ≠ 0 ↔ 1 ≤ j ∧ j < img.freeinode)
    (free : ∀ j < NINODES, types j = 0 → files j = [])
    (extent : ∀ j < NINODES, types j ≠ 0 → Extent view img.disk j (files j).length)
    (bytes : ∀ j < NINODES, types j ≠ 0 →
      ((view j).byte img.disk).read 0 (files j).length = files j)
    (tail : ∀ j p, Mapped NINODES view img.disk j p → (files j).length ≤ p →
      (view j).byte img.disk p = 0)
    (fits : ∀ j < NINODES, (files j).length ≤ MAXFILE * BSIZE)
    (count : img.freeblock = nmeta + ∑ j ∈ Finset.range NINODES, blocksFor (files j).length)
    (inodes : 1 ≤ img.freeinode ∧ img.freeinode ≤ NINODES) :
    let disk := update img.disk (IBLOCK sb i) (putDinode (img.disk (IBLOCK sb i)) i d)
    Filled ⟨disk, img.freeinode, img.freeblock⟩ types files := by
  intro disk
  have low := iblock_low exists_
  have inode : ∀ j < NINODES, dinodeAt sb disk j = if j = i then d else view j := by
    grind [dinodeAt_put_self, dinodeAt_put_other]
  have views : ∀ j < NINODES, (dinodeAt sb disk j).type = (view j).type ∧
      (dinodeAt sb disk j).addrs = (view j).addrs := by
    intro j inRange
    rw [inode j inRange]
    split
    · rename_i mine
      rw [mine]
      exact ⟨here, addrs⟩
    · exact ⟨rfl, rfl⟩
  have high : ∀ b, nmeta ≤ b → disk b = img.disk b := fun b above =>
    update_of_ne (by omega) _ _
  have addrs_eq : ∀ j < NINODES, (view j).type ≠ 0 → (dinodeAt sb disk j).addrs = (view j).addrs :=
    fun j inRange _ => (views j inRange).2
  have same : holding NINODES (dinodeAt sb disk) disk = holding NINODES view img.disk :=
    holding_apart addrs_eq (building.high high) fun j inRange => by rw [(views j inRange).1]
  have sameByte : ∀ {j p}, Mapped NINODES view img.disk j p →
      (dinodeAt sb disk j).byte disk p = (view j).byte img.disk p :=
    byte_apart addrs_eq (building.high high)
  refine ⟨?_, ?_, ?_, allocated, free, ?_, ?_, ?_, fits, count, inodes⟩
  · exact building.congr same rfl high
  · exact (superAt_congr (update_of_ne (by omega) _ _)).trans super
  · intro j inRange
    rw [(views j inRange).1, types_eq j inRange]
  · intro j inRange inUse
    exact (extent j inRange inUse).congr fun k => by rw [same]
  · intro j inRange inUse
    rw [Dinode.contents, inode j inRange, sizes j inRange inUse, ← inode j inRange,
      ← bytes j inRange inUse]
    simp only [Bytes.length_read]
    apply Bytes.read_congr
    intro p below
    rw [Nat.zero_add]
    exact sameByte ((extent j inRange inUse).mapped (fits j inRange) below)
  · intro j p mapped above
    unfold Mapped at mapped
    rw [same] at mapped
    rw [sameByte mapped]
    exact tail j p mapped above

theorem Filled.type_ne (filled : Filled img types files) (exists_ : i < NINODES)
    (inUse : types i ≠ 0) : (dinodeAt sb img.disk i).type ≠ 0 := by
  rwa [filled.types_eq i exists_]

def blocksOf (files : Nat → List Uchar) : Nat :=
  ∑ i ∈ Finset.range NINODES, blocksFor (files i).length

theorem ialloc_spec (filled : Filled img types files) (type : Short) (sort_ : type ≠ 0)
    (room : img.freeinode < NINODES) :
    wp (ialloc type) img (fun inum img' =>
      inum = img.freeinode ∧ img'.freeinode = img.freeinode + 1 ∧
      Filled img' (update types img.freeinode type) files) (fun _ => False) := by
  have positive := filled.inodes.1
  set new : Dinode := { Dinode.zero with type := type, nlink := 1 } with new_eq
  set view := update (dinodeAt sb img.disk) img.freeinode new with view_eq
  have unused : types img.freeinode = 0 := by
    by_contra inUse
    have := ((filled.allocated _ room).mp inUse).2
    omega
  have free : (dinodeAt sb img.disk img.freeinode).type = 0 := by
    rw [filled.types_eq _ room, unused]
  have same : holding NINODES view img.disk = holding NINODES (dinodeAt sb img.disk) img.disk :=
    holding_new free fun _ => rfl
  have building : Building ⟨img.disk, img.freeinode + 1, img.freeblock⟩ view :=
    filled.building.congr same rfl fun _ _ => rfl
  have empty : files img.freeinode = [] := filled.free _ room unused
  have self : view img.freeinode = new := update_self ..
  unfold ialloc winode
  simp only [rsect, wsect, xint_eq, xshort_eq, bind_assoc, pure_bind, wp_bind, wp_get, wp_set,
    wp_modify, wp_pure]
  refine ⟨trivial, trivial, filled_winode building room (by rw [self]) (by rw [self])
    (fun j _ other => by rw [view_eq, update_of_ne other]) filled.super
    (fun j inRange => ?_) (fun j inRange inUse => ?_) (fun j inRange => ?_)
    (fun j inRange none => ?_) (fun j inRange inUse => ?_) (fun j inRange inUse => ?_)
    (fun j p mapped above => ?_) filled.fits filled.count ⟨by simp, room⟩⟩
  all_goals by_cases mine : j = img.freeinode
  · subst mine
    rw [self, update_self]
  · rw [view_eq, update_of_ne mine, update_of_ne mine, filled.types_eq j inRange]
  · subst mine
    rw [if_pos rfl, empty]
    rfl
  · grind [filled.size]
  · subst mine
    rw [update_self]
    exact ⟨fun _ => ⟨positive, Nat.lt_succ_self _⟩, fun _ => sort_⟩
  · rw [update_of_ne mine, filled.allocated j inRange]
    simp only
    omega
  · subst mine
    exact empty
  · rw [update_of_ne mine] at none
    exact filled.free j inRange none
  · subst mine
    rw [empty]
    exact Extent.empty fun k => by rw [same, holding_free free]
  · rw [update_of_ne mine] at inUse
    exact (filled.extent j inRange inUse).congr fun k => by rw [same]
  · subst mine
    rw [empty]
    rfl
  · rw [update_of_ne mine] at inUse
    rw [view_eq, update_of_ne mine, filled.read inRange inUse]
  · subst mine
    unfold Mapped at mapped
    rw [same, holding_free free] at mapped
    exact absurd rfl mapped
  · unfold Mapped at mapped
    rw [same] at mapped
    rw [view_eq, update_of_ne mine]
    exact filled.tail j p mapped above

theorem blocksOf_eq (exists_ : i < NINODES) (bytes : List Uchar) :
    blocksOf (update files i bytes) =
      blocksFor bytes.length + ∑ j ∈ (Finset.range NINODES).erase i, blocksFor (files j).length := by
  rw [blocksOf, ← Finset.add_sum_erase _ _ (Finset.mem_range.mpr exists_), update_self]
  congr 1
  apply Finset.sum_congr rfl
  intro j member
  rw [update_of_ne (Finset.ne_of_mem_erase member)]

theorem iappend_spec (filled : Filled img types files) (exists_ : i < NINODES)
    (inUse : types i ≠ 0) {p : List Uchar}
    (fits : (files i).length + p.length ≤ MAXFILE * BSIZE)
    (room : nmeta + blocksOf (update files i (files i ++ p)) ≤ FSSIZE) :
    wp (iappend i p) img (fun _ img' =>
      img'.freeinode = img.freeinode ∧
      Filled img' types (update files i (files i ++ p))) (fun _ => False) := by
  set view := dinodeAt sb img.disk with view_eq
  set rest := ∑ j ∈ (Finset.range NINODES).erase i, blocksFor (files j).length with rest_eq
  have size : (view i).size.toNat = (files i).length := filled.size exists_ inUse
  have before : blocksOf files = blocksFor (files i).length + rest := by
    rw [rest_eq, ← blocksOf_eq exists_ (files i), update_eq_self]
  have after : blocksOf (update files i (files i ++ p)) =
      blocksFor ((files i).length + p.length) + rest := by
    rw [blocksOf_eq exists_, List.length_append]
  have count : img.freeblock = nmeta + blocksOf files := filled.count
  have kind := filled.type_ne exists_ inUse
  have sum : img.freeblock = nmeta + rest + blocksFor (files i).length := by omega
  have loop := iappendLoop_spec p.length filled.building exists_ kind
    (filled.extent i exists_ inUse) le_rfl fits sum (by omega)
  have start : iappend i p = (do
      let din ← rinode i
      let grown ← iappendLoop p.length din din.size.toNat p
      winode i { grown.1 with size := BitVec.ofNat 32 grown.2 }) := by
    simp only [iappend, xint_eq]
  rw [start]
  simp only [rinode, rsect, bind_assoc, pure_bind, wp_bind, wp_get]
  change wp (iappendLoop p.length (view i) (view i).size.toNat p) img _ _
  rw [size]
  refine wp_mono loop ?_
  rintro ⟨din, off⟩ img' ⟨end_, appended⟩
  simp only at end_ appended
  subst end_
  have kept : ∀ j < NINODES, dinodeAt sb img'.disk j = view j := fun j inRange =>
    dinodeAt_congr sb (appended.low _ (iblock_low inRange).2)
  have fields := appended.wrote.fields
  rw [update_self] at fields
  have size' : (BitVec.ofNat 32 ((files i).length + p.length)).toNat =
      (files i).length + p.length := by
    rw [BitVec.toNat_ofNat]
    apply Nat.mod_eq_of_lt
    simp only [MAXFILE, NDIRECT, NINDIRECT, BSIZE] at fits
    omega
  unfold winode
  simp only [rsect, wsect, bind_assoc, pure_bind, wp_bind, wp_get, wp_modify]
  refine ⟨appended.freeinode, filled_winode appended.building exists_ (by rw [update_self])
    (by rw [update_self]) (fun j inRange other => ?_) ?_ (fun j inRange => ?_)
    (fun j inRange inUse => ?_) ?_ (fun j inRange none => ?_) (fun j inRange inUse => ?_)
    (fun j inRange inUse => ?_) (fun j q mapped above => ?_) (fun j inRange => ?_) ?_ ?_⟩
  · rw [kept j inRange, update_of_ne other]
  · rw [superAt_congr (appended.low 1 (by decide)), filled.super]
  · grind [Filled]
  · by_cases mine : j = i
    · subst mine
      rw [if_pos rfl, update_self, List.length_append]
      exact size'
    · rw [if_neg mine, update_of_ne mine, update_of_ne mine]
      exact filled.size inRange inUse
  · rw [appended.freeinode]
    exact filled.allocated
  · rw [update_of_ne (by rintro rfl; exact inUse none)]
    exact filled.free j inRange none
  · by_cases mine : j = i
    · subst mine
      rw [update_self, List.length_append]
      exact appended.extent
    · rw [update_of_ne mine]
      refine (filled.extent j inRange inUse).congr fun k => ?_
      by_cases held : holding NINODES view img.disk (j, k) = 0
      · by_contra differs
        rw [held] at differs
        exact mine (appended.wrote.fresh (j, k) held differs).1
      · exact appended.wrote.keep (j, k) held
  · by_cases mine : j = i
    · subst mine
      have now : update files j (files j ++ p) j = files j ++ p := update_self ..
      rw [now, List.length_append,
        appended.wrote.append fun q below => (filled.extent j inRange inUse).mapped
          (filled.fits j inRange) below, filled.read inRange inUse]
    · have other : update files i (files i ++ p) j = files j :=
        update_of_ne mine _ _
      rw [other,
        appended.wrote.read_other mine fun q below => (filled.extent j inRange inUse).mapped
          (filled.fits j inRange) below, filled.read inRange inUse]
  · by_cases mine : j = i
    · subst mine
      grind [appended.wrote.written, Bytes.write_outside, appended.wrote.blank, Filled]
    · have other : update files i (files i ++ p) j = files j :=
        update_of_ne mine _ _
      rw [other] at above
      have before : Mapped NINODES view img.disk j q := by
        intro none
        exact mine (appended.wrote.fresh _ none mapped).1
      rw [appended.wrote.elsewhere j q mine before]
      exact filled.tail j q before above
  · grind [Filled]
  · rw [appended.freeblock]
    change _ = nmeta + blocksOf (update files i (files i ++ p))
    omega
  · rw [appended.freeinode]
    exact filled.inodes

end Filling

/-! ## The first image -/

theorem blocksOf_mono {files files' : Nat → List Uchar}
    (le : ∀ i, (files i).length ≤ (files' i).length) : blocksOf files ≤ blocksOf files' :=
  Finset.sum_le_sum fun i _ => blocksFor_mono (le i)

theorem blank_disk {b : Nat} (other : b ≠ 1) : blank.disk b = fun _ => 0 := by
  simp only [blank, update_of_ne other]

theorem dinodeAt_blank {i : Nat} (exists_ : i < NINODES) :
    dinodeAt sb blank.disk i = Dinode.zero := by
  have low := iblock_low exists_
  have zeros : Bytes.read (fun _ => 0) (64 * (i % IPB)) 64 = List.replicate 64 0 := by
    simp [Bytes.read]
  rw [dinodeAt, blank_disk (by omega), zeros, Dinode.ofBytes, Dinode.zero, Dinode.mk.injEq]
  simp only [shortAt, uintAt, List.drop_replicate, List.take_replicate, ofLe_replicate_zero]
  exact ⟨rfl, rfl, rfl, rfl, rfl, rfl⟩

theorem blank_filled : Filled blank (fun _ => 0) (fun _ => []) where
  building := by
    have none : ∀ x, holding NINODES (dinodeAt sb blank.disk) blank.disk x = 0 := by
      intro x
      refine if_neg fun valid => valid.2.1 ?_
      rw [dinodeAt_blank valid.1]
      rfl
    refine ⟨⟨fun b => ?_, fun x y held => absurd (none x) held⟩, fun b above => ?_, le_rfl⟩
    · simp only [none, exists_const]
      have same : blank.freeblock = nmeta := rfl
      rw [same]
      omega
    · have high : nmeta ≤ b := above
      have start : 1 < nmeta := by decide
      exact blank_disk (by omega)
  super := by
    have bytes : (blank.disk 1).read 0 28 = sbBytes := Bytes.read_write_self _ 0 sbBytes
    rw [superAt, bytes]
    decide
  types_eq i exists_ := by
    rw [dinodeAt_blank exists_]
    rfl
  allocated i _ := by
    have first : blank.freeinode = 1 := rfl
    simp only [ne_eq, not_true_eq_false, first, false_iff]
    omega
  free _ _ _ := rfl
  extent _ _ inUse := absurd rfl inUse
  contents _ _ inUse := absurd rfl inUse
  tail i p mapped := by
    have valid := mapped.valid
    rw [dinodeAt_blank valid.1] at valid
    exact absurd rfl valid.2.1
  fits _ _ := Nat.zero_le _
  count := by simp [blocksFor_eq, blank]
  inodes := ⟨le_rfl, by decide⟩

end Xv6Tracing.Volume.Mkfs
