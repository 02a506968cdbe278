import Xv6Tracing.Volume.Reading
import Xv6Tracing.Volume.Writing

/-!
# Allocation of blocks in the kernel

`Kept` says what `balloc`, `bfree` and `bmap` rely on: the bit map marks the
metadata blocks and, of the data blocks, exactly those that some allocated inode
has, each once.  The inodes are those of a `view`: an inode whose cached copy is
ahead of the disk appears there as it is cached.
-/

set_option autoImplicit false

namespace Xv6Tracing.Volume

open Function (update update_eq_self update_idem update_of_ne update_self)

open Lib

/-- Block `b` of the data area is marked in the bit map. -/
def InUse (sb : Superblock) (disk : Disk) (b : Nat) : Prop :=
  sb.datastart ≤ b ∧ b < sb.size ∧ usedAt sb disk b = true

variable {disk disk' : Disk} {sb : Superblock} {b : Nat}

theorem inUse_congr (marks : ∀ c < sb.size, usedAt sb disk' c = usedAt sb disk c) (c : Nat) :
    InUse sb disk' c ↔ InUse sb disk c := by
  unfold InUse
  constructor
  · rintro ⟨above, inRange, marked⟩
    exact ⟨above, inRange, by rwa [marks c inRange] at marked⟩
  · rintro ⟨above, inRange, marked⟩
    exact ⟨above, inRange, by rwa [marks c inRange]⟩

structure Kept (sb : Superblock) (disk : Disk) (view : Nat → Dinode) : Prop where
  layout : Layout sb
  super : superAt disk = sb
  owns : Owns (holding sb.ninodes view disk) (InUse sb disk)
  reserved : ∀ b < sb.datastart, usedAt sb disk b = true

section Regions

variable {sb : Superblock}

theorem Layout.iblock (layout : Layout sb) {i : Nat} (exists_ : i < sb.ninodes) :
    2 ≤ IBLOCK sb i ∧ IBLOCK sb i < sb.bmapstart := by
  have start := layout.inodes
  have room := layout.bitmap
  simp only [IBLOCK, IPB, BSIZE] at room ⊢
  omega

theorem Layout.bblock (layout : Layout sb) {b : Nat} (exists_ : b < sb.size) :
    sb.bmapstart ≤ BBLOCK sb b ∧ BBLOCK sb b < sb.datastart := by
  have room := layout.data
  simp only [BBLOCK, BPB, BSIZE] at room ⊢
  omega

theorem Layout.bmap_low (layout : Layout sb) : 2 ≤ sb.bmapstart :=
  layout.inodes.trans (le_trans (Nat.le_add_right _ _) layout.bitmap)

theorem size_lt {disk : Disk} (super : superAt disk = sb) : sb.size < 2 ^ 32 := by
  rw [← super]
  exact BitVec.isLt _

end Regions

/-! ## A new block -/

/-- What `balloc` does to the disk: `b` was free, is marked now, and is zero. -/
structure NewBlock (sb : Superblock) (disk disk' : Disk) (b : Nat) : Prop where
  data : sb.datastart ≤ b
  exists_ : b < sb.size
  free : usedAt sb disk b = false
  zero : disk' b = fun _ => 0
  marks : ∀ c < sb.size, usedAt sb disk' c = (decide (c = b) || usedAt sb disk c)
  others : ∀ c, c ≠ b → c ≠ BBLOCK sb b → disk' c = disk c

variable {s : Vol} {a : Fin NINODE} {view : Nat → Dinode}

theorem freeBit_some {data : Bytes} {size bi : Nat} (found : freeBit data b size = some bi) :
    bi < BPB ∧ b + bi < size ∧ isUsed data bi = false := by
  unfold freeBit at found
  have member := List.mem_of_find?_eq_some found
  have holds := List.find?_some found
  simp only [Bool.and_eq_true, decide_eq_true_eq, Bool.not_eq_true'] at holds
  exact ⟨List.mem_range.mp member, holds⟩

def NoBlock (e : Halt) : Prop := e = .ballocOut ∨ e = .incorrectBlockno

theorem newBlock_of_freeBit (layout : Layout sb)
    (reserved : ∀ b < sb.datastart, usedAt sb disk b = true) {group bi : Nat}
    (found : freeBit (disk (BBLOCK sb (group * BPB))) (group * BPB) sb.size = some bi) :
    NewBlock sb disk (update (update disk (BBLOCK sb (group * BPB))
        (markUsed (disk (BBLOCK sb (group * BPB))) bi)) (group * BPB + bi) fun _ => 0)
      (group * BPB + bi) := by
  obtain ⟨small, exists_, free⟩ := freeBit_some found
  set b := group * BPB + bi with block
  have positive : 0 < BPB := by decide
  have quotient : b / BPB = group := by
    rw [block, Nat.mul_comm, Nat.mul_add_div positive, Nat.div_eq_of_lt small, Nat.add_zero]
  have index : b % BPB = bi := by
    rw [block, Nat.mul_comm, Nat.mul_add_mod, Nat.mod_eq_of_lt small]
  have home : BBLOCK sb (group * BPB) = BBLOCK sb b := by
    rw [BBLOCK, BBLOCK, quotient, Nat.mul_div_cancel _ positive]
  have unused : usedAt sb disk b = false := by
    rw [usedAt, ← home, index]
    exact free
  have data : sb.datastart ≤ b := by
    by_contra low
    have marked := reserved b (by omega)
    rw [unused] at marked
    exact Bool.false_ne_true marked
  rw [home]
  refine ⟨data, exists_, unused, update_self .., fun c inRange => ?_,
    fun c other notMap => ?_⟩
  · have apart : BBLOCK sb c ≠ b := by
      have low := (layout.bblock inRange).2
      omega
    rw [usedAt_congr sb (update_of_ne apart _ _)]
    have marked := usedAt_markUsed sb disk b c
    rwa [index] at marked
  · rw [update_of_ne other, update_of_ne notMap]

theorem ballocFrom_spec (layout : Layout s.sb) (small : s.sb.size < 2 ^ 32)
    (reserved : ∀ b < s.sb.datastart, usedAt s.sb s.disk b = true) (groups : List Nat) :
    wp (ballocFrom groups) s (fun r t => ∃ disk', t = { s with disk := disk' } ∧
      NewBlock s.sb s.disk disk' r.toNat) NoBlock := by
  induction groups with
  | nil =>
    rw [ballocFrom, wp_throw]
    exact Or.inl rfl
  | cons group rest ih =>
    unfold ballocFrom
    simp only [wp_bind, wp_get]
    refine bread_any (Or.inr rfl) ?_
    split
    · rename_i bi found
      have new := newBlock_of_freeBit layout reserved found
      have number : (BitVec.ofNat 32 (group * BPB + bi)).toNat = group * BPB + bi := by
        rw [BitVec.toNat_ofNat]
        exact Nat.mod_eq_of_lt (lt_trans new.exists_ small)
      simp only [log_write, bzero, wp_bind, wp_modify]
      refine bread_any (Or.inr rfl) ?_
      simp only [wp_pure, number]
      exact ⟨_, rfl, new⟩
    · exact ih

theorem balloc_spec (kept : Kept s.sb s.disk view) :
    wp balloc s (fun r t => ∃ disk', t = { s with disk := disk' } ∧
      NewBlock s.sb s.disk disk' r.toNat) NoBlock :=
  ballocFrom_spec kept.layout (size_lt kept.super) kept.reserved _

theorem Kept.data_same (kept : Kept s.sb s.disk view)
    (new : NewBlock s.sb s.disk disk' b) (x : Nat × Nat)
    (held : holding s.sb.ninodes view s.disk x ≠ 0) :
    disk' (holding s.sb.ninodes view s.disk x) = s.disk (holding s.sb.ninodes view s.disk x) := by
  obtain ⟨high, -, marked⟩ := kept.owns.used_own held
  have low := (kept.layout.bblock new.exists_).2
  apply new.others
  · intro same
    rw [same, new.free] at marked
    exact Bool.false_ne_true marked
  · omega

theorem NewBlock.unused (new : NewBlock sb disk disk' b) : ¬InUse sb disk b := by
  rintro ⟨-, -, marked⟩
  rw [new.free] at marked
  exact Bool.false_ne_true marked

theorem Kept.take (kept : Kept s.sb s.disk view) {disk'' : Disk}
    {view' : Nat → Dinode} {x : Nat × Nat} (new : NewBlock s.sb s.disk disk' b)
    (without : holding s.sb.ninodes view s.disk x = 0)
    (now : holding s.sb.ninodes view' disk'' =
      update (holding s.sb.ninodes view s.disk) x b)
    (low : ∀ c < s.sb.datastart, disk'' c = disk' c) : Kept s.sb disk'' view' := by
  have start := kept.layout.bmap_low
  have marks : ∀ c < s.sb.size, usedAt s.sb disk'' c = (decide (c = b) || usedAt s.sb s.disk c) := by
    intro c inRange
    rw [usedAt_congr s.sb (low _ (kept.layout.bblock inRange).2), new.marks c inRange]
  refine ⟨kept.layout, ?_, ?_, fun c below => ?_⟩
  · have first := (kept.layout.bblock new.exists_)
    have data := new.data
    have same : disk'' 1 = s.disk 1 := by
      rw [low 1 (by omega), new.others 1 (by omega) (by omega)]
    rw [superAt, same]
    exact kept.super
  · rw [now]
    have data := new.data
    have exists_ := new.exists_
    have positive : b ≠ 0 := by
      have := (kept.layout.bblock new.exists_)
      omega
    refine (kept.owns.take without positive new.unused).congr fun c => ?_
    grind [InUse]
  · have inRange : c < s.sb.size := lt_of_lt_of_le below kept.layout.nonempty
    rw [marks c inRange, kept.reserved c below, Bool.or_true]

/-! ## A block for a file -/

/-- The cached inode `a` and the disk changed, nothing else. -/
def Vol.put (s : Vol) (a : Fin NINODE) (d : Dinode) (disk : Disk) : Vol :=
  { s with
    disk := disk
    icache := Function.update s.icache a { s.icache a with toDinode := d } }

@[simp] theorem Vol.put_put (s : Vol) (a : Fin NINODE) (d d' : Dinode) (disk disk' : Disk) :
    (s.put a d disk).put a d' disk' = s.put a d' disk' := by
  simp [Vol.put]

@[simp] theorem Vol.put_self (s : Vol) (a : Fin NINODE) :
    s.put a (s.icache a).toDinode s.disk = s := by
  simp [Vol.put]

@[simp] theorem Vol.put_disk (s : Vol) (a : Fin NINODE) (d : Dinode) (disk : Disk) :
    (s.put a d disk).disk = disk := rfl

@[simp] theorem Vol.put_sb (s : Vol) (a : Fin NINODE) (d : Dinode) (disk : Disk) :
    (s.put a d disk).sb = s.sb := rfl

@[simp] theorem Vol.put_icache_self (s : Vol) (a : Fin NINODE) (d : Dinode) (disk : Disk) :
    (s.put a d disk).icache a = { s.icache a with toDinode := d } := update_self ..

/-- Inode `i`, cached in `a`, got addresses in some of the given places. -/
structure Extends (s : Vol) (i : Nat) (places : Nat → Prop) (view : Nat → Dinode) (d : Dinode)
    (disk' : Disk) : Prop where
  grows : Grows s.sb.ninodes i places view s.disk (Function.update view i d) disk'
  kept : Kept s.sb disk' (Function.update view i d)
  inodes : ∀ j < s.sb.ninodes, disk' (IBLOCK s.sb j) = s.disk (IBLOCK s.sb j)

section Mapping

variable {i : Nat}

theorem Extends.refl {places : Nat → Prop} (kept : Kept s.sb s.disk view) :
    Extends s i places view (view i) s.disk := by
  refine ⟨?_, ?_, fun _ _ => rfl⟩ <;> rw [update_eq_self]
  · exact Grows.refl
  · exact kept

theorem NewBlock.inodes {sb : Superblock} {disk disk' : Disk} {b : Nat} (layout : Layout sb)
    (new : NewBlock sb disk disk' b) {j : Nat} (exists_ : j < sb.ninodes) :
    disk' (IBLOCK sb j) = disk (IBLOCK sb j) := by
  have inode := layout.iblock exists_
  have map := layout.bblock new.exists_
  have data := new.data
  exact new.others _ (by omega) (by omega)

theorem loadAddr_spec (kept : Kept s.sb s.disk view) (cached : view i = (s.icache a).toDinode)
    (exists_ : i < s.sb.ninodes) (allocated : (view i).type ≠ 0) (k : Fin (NDIRECT + 1)) :
    wp (loadAddr a k) s (fun r t => ∃ d disk', t = s.put a d disk' ∧
      Extends s i (· = k.val) view d disk' ∧ r = d.addrs k ∧ r ≠ 0) NoBlock := by
  unfold loadAddr
  simp only [wp_bind, wp_get]
  split
  · rename_i without
    rw [← cached] at without
    refine wp_call (balloc_spec kept) ?_
    rintro r t ⟨disk', rfl, new⟩
    have before : holding s.sb.ninodes view s.disk (i, k.val) = 0 := by
      grind [holding_of, NPLACES, Dinode.addr_direct]
    have frame : Grows s.sb.ninodes i (· = k.val) view s.disk view disk' :=
      Grows.frame (kept.data_same new)
    have same : holding s.sb.ninodes view disk' = holding s.sb.ninodes view s.disk :=
      holding_congr fun j => kept.data_same new (j, NDIRECT)
    obtain ⟨grows, now⟩ := Grows.assign exists_ allocated without new.zero
    rw [same] at now
    have nonzero : r ≠ 0 := by
      rintro rfl
      have data := new.data
      have low := (kept.layout.bblock new.exists_).2
      change s.sb.datastart ≤ 0 at data
      omega
    simp only [modifyInode, wp_bind, wp_modify, wp_pure]
    refine ⟨(view i).setAddr k r, disk', ?_, ⟨frame.trans grows, ?_, ?_⟩, ?_, nonzero⟩
    · rw [cached]
      rfl
    · exact kept.take new before now fun _ _ => rfl
    · exact fun j inRange => new.inodes kept.layout inRange
    · rw [Dinode.setAddr_addrs, update_self]
  · rename_i has
    rw [wp_pure]
    refine ⟨(s.icache a).toDinode, s.disk, (s.put_self a).symm, ?_, rfl, has⟩
    rw [← cached]
    exact Extends.refl kept

theorem loadEntry_spec (kept : Kept s.sb s.disk view) (exists_ : i < s.sb.ninodes)
    (allocated : (view i).type ≠ 0) (has : (view i).addrs indirect ≠ 0) {j : Nat}
    (inRange : j < NINDIRECT) :
    wp (loadEntry ((view i).addrs indirect).toNat j) s (fun r t => ∃ disk',
      t = { s with disk := disk' } ∧ Extends s i (· = NDIRECT + 1 + j) view (view i) disk' ∧
      r.toNat = holding s.sb.ninodes view disk' (i, NDIRECT + 1 + j) ∧ r ≠ 0) NoBlock := by
  have entry : ∀ disk : Disk, holding s.sb.ninodes view disk (i, NDIRECT + 1 + j) =
      (indirectAt (disk ((view i).addrs indirect).toNat) j).toNat := by
    intro disk
    rw [holding_of exists_ allocated (by unfold NPLACES; omega), Dinode.addr_entry _ has]
  have table : holding s.sb.ninodes view s.disk (i, NDIRECT) = ((view i).addrs indirect).toNat :=
    holding_indirect exists_ allocated
  have held : holding s.sb.ninodes view s.disk (i, NDIRECT) ≠ 0 := by
    rw [table]
    exact toNat_ne_zero has
  unfold loadEntry
  refine wp_bind.mpr (bread_any (Or.inr rfl) ?_)
  split
  · rename_i without
    have before : holding s.sb.ninodes view s.disk (i, NDIRECT + 1 + j) = 0 := by
      rw [entry, without]
      rfl
    refine wp_call (balloc_spec kept) ?_
    rintro r t ⟨disk', rfl, new⟩
    have kept_ := kept.data_same new
    have sameTable : disk' ((view i).addrs indirect).toNat =
        s.disk ((view i).addrs indirect).toNat := by
      rw [← table]
      exact kept_ _ held
    have same : holding s.sb.ninodes view disk' = holding s.sb.ninodes view s.disk :=
      holding_congr fun l => kept_ (l, NDIRECT)
    have frame : Grows s.sb.ninodes i (· = NDIRECT + 1 + j) view s.disk view disk' :=
      Grows.frame kept_
    have owns : Owns (holding s.sb.ninodes view disk') (InUse s.sb s.disk) := by
      rw [same]
      exact kept.owns
    obtain ⟨grows, now⟩ := Grows.entry (b := r) owns exists_ allocated inRange has
      (by rw [sameTable]; exact without) new.zero new.unused
    rw [same] at now
    have nonzero : r ≠ 0 := by
      rintro rfl
      have data := new.data
      have low := (kept.layout.bblock new.exists_).2
      change s.sb.datastart ≤ 0 at data
      omega
    have high : s.sb.datastart ≤ ((view i).addrs indirect).toNat := by
      rw [← table]
      exact (kept.owns.used_own held).1
    simp only [wp_bind, wp_modify, wp_pure]
    refine ⟨_, rfl, ⟨?_, ?_, fun l inRange => ?_⟩, ?_, nonzero⟩
    · rw [update_eq_self]
      exact frame.trans grows
    · rw [update_eq_self]
      exact kept.take new before now fun c below => update_of_ne (by omega) _ _
    · have inode := kept.layout.iblock inRange
      have map := kept.layout.bblock new.exists_
      rw [update_of_ne (by omega)]
      exact new.inodes kept.layout inRange
    · rw [now, update_self]
  · rename_i present
    rw [wp_pure]
    exact ⟨s.disk, rfl, Extends.refl kept, (entry s.disk).symm, present⟩

theorem bmap_spec (kept : Kept s.sb s.disk view) (cached : view i = (s.icache a).toDinode)
    (exists_ : i < s.sb.ninodes) (allocated : (view i).type ≠ 0) {bn : Nat}
    (inRange : bn < MAXFILE) :
    wp (bmap a bn) s (fun r t => ∃ d disk', t = s.put a d disk' ∧
      Extends s i (Needs bn) view d disk' ∧ r ≠ 0 ∧
      r.toNat = holding s.sb.ninodes (update view i d) disk' (i, placeOf bn)) NoBlock := by
  unfold bmap
  split
  · rename_i direct
    have place : placeOf bn = bn := if_pos direct
    refine wp_mono (loadAddr_spec kept cached exists_ allocated _) ?_
    rintro r t ⟨d, disk', rfl, extended, rfl, nonzero⟩
    have kind : (update view i d i).type ≠ 0 := by
      rw [extended.grows.fields]
      exact allocated
    refine ⟨d, disk', rfl, ⟨extended.grows.weaken ?_, extended.kept, extended.inodes⟩, nonzero, ?_⟩
    · exact fun k here => Or.inl (here.trans place.symm)
    · rw [place, holding_of exists_ kind (by unfold NPLACES; omega), update_self,
        Dinode.addr_direct]
  · rename_i far
    obtain ⟨j, rfl⟩ := Nat.exists_eq_add_of_le (Nat.le_of_not_lt far)
    have place : placeOf (NDIRECT + j) = NDIRECT + 1 + j := by
      rw [placeOf, if_neg far]
      omega
    have small : j < NINDIRECT := by
      unfold MAXFILE at inRange
      omega
    rw [Nat.add_sub_cancel_left, if_pos small]
    refine wp_call (loadAddr_spec kept cached exists_ allocated indirect) ?_
    rintro r t ⟨d, disk', rfl, extended, rfl, nonzero⟩
    have self : update view i d i = d := update_self ..
    have kind : (update view i d i).type ≠ 0 := by
      rw [extended.grows.fields]
      exact allocated
    have second := loadEntry_spec (s := s.put a d disk') extended.kept exists_ kind
      (by rwa [self]) small
    rw [self] at second
    refine wp_mono second ?_
    rintro r t ⟨disk'', rfl, extended', at_, nonzero'⟩
    simp only [Vol.put_sb] at extended' at_
    refine ⟨d, disk'', rfl, ⟨?_, ?_, fun l inside => ?_⟩, nonzero', ?_⟩
    · have later := extended'.grows
      simp only [Vol.put_sb, Vol.put_disk, update_idem] at later
      refine (extended.grows.weaken ?_).trans (later.weaken ?_)
      · exact fun k here => Or.inr ⟨here, Nat.le_add_right _ _⟩
      · exact fun k here => Or.inl (here.trans place.symm)
    · have later := extended'.kept
      simpa only [Vol.put_sb, update_idem] using later
    · exact (extended'.inodes l inside).trans (extended.inodes l inside)
    · rw [place, at_]

end Mapping

end Xv6Tracing.Volume
