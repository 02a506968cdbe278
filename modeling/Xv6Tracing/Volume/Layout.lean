import Xv6Tracing.Lib.Bytes
import Xv6Tracing.CTypes

/-!
# The disk format

The structures of `fs.h` as they lie on the disk: super block, inodes, free bit
map, block addresses and directory entries.  A disk gives each block its bytes,
of which the first `BSIZE` are used.  Block numbers are natural numbers and are
not cut to 32 bits: the regions of the disks considered end below `2^32`.
-/

set_option autoImplicit false

namespace Xv6Tracing.Volume

open Lib

def ROOTINO : Nat := 1
def BSIZE : Nat := 512
def FSSIZE : Nat := 1000
def NDIRECT : Nat := 12
def NINDIRECT : Nat := 128
def MAXFILE : Nat := NDIRECT + NINDIRECT
/-- `sizeof(struct dinode)` is 64. -/
def IPB : Nat := BSIZE / 64
def BPB : Nat := BSIZE * 8
def DIRSIZ : Nat := 14
def sizeofDirent : Nat := 16

abbrev Short := BitVec 16

def T_DIR : Short := 1
def T_FILE : Short := 2
def T_DEV : Short := 3

abbrev Disk := Nat → Bytes

/-! ## Fields of C structures -/

def shortAt (bytes : List Uchar) (off : Nat) : Short :=
  BitVec.ofNat 16 (ofLe ((bytes.drop off).take 2))

def uintAt (bytes : List Uchar) (off : Nat) : Uint :=
  BitVec.ofNat 32 (ofLe ((bytes.drop off).take 4))

def ofShort (x : Short) : List Uchar := leBytes 2 x.toNat

def ofUint (x : Uint) : List Uchar := leBytes 4 x.toNat

@[simp] theorem length_ofShort (x : Short) : (ofShort x).length = 2 := rfl

@[simp] theorem length_ofUint (x : Uint) : (ofUint x).length = 4 := rfl

theorem word_ofLe_leBytes {w n : Nat} (x : BitVec w) (width : 2 ^ w = 256 ^ n) :
    BitVec.ofNat w (ofLe (leBytes n x.toNat)) = x := by
  rw [ofLe_leBytes, ← width, Nat.mod_eq_of_lt x.isLt, BitVec.ofNat_toNat, BitVec.setWidth_eq]

/-! ## The super block -/

structure Superblock where
  size : Nat
  nblocks : Nat
  ninodes : Nat
  nlog : Nat
  logstart : Nat
  inodestart : Nat
  bmapstart : Nat
deriving DecidableEq, Repr

def Superblock.ofBytes (bytes : List Uchar) : Superblock where
  size := (uintAt bytes 0).toNat
  nblocks := (uintAt bytes 4).toNat
  ninodes := (uintAt bytes 8).toNat
  nlog := (uintAt bytes 12).toNat
  logstart := (uintAt bytes 16).toNat
  inodestart := (uintAt bytes 20).toNat
  bmapstart := (uintAt bytes 24).toNat

def Superblock.datastart (sb : Superblock) : Nat := sb.size - sb.nblocks

def superAt (disk : Disk) : Superblock := Superblock.ofBytes ((disk 1).read 0 28)

/-- The regions come in the order that `fs.h` gives, each as large as it must be. -/
structure Layout (sb : Superblock) : Prop where
  inodes : 2 ≤ sb.inodestart
  bitmap : sb.inodestart + (sb.ninodes + IPB - 1) / IPB ≤ sb.bmapstart
  data : sb.bmapstart + (sb.size + BPB - 1) / BPB ≤ sb.datastart
  nonempty : sb.datastart ≤ sb.size

/-! ## Inodes -/

structure Dinode where
  type : Short
  major : Short
  minor : Short
  nlink : Short
  size : Uint
  addrs : Fin (NDIRECT + 1) → Uint
deriving DecidableEq

def Dinode.zero : Dinode := ⟨0, 0, 0, 0, 0, fun _ => 0⟩

def Dinode.ofBytes (bytes : List Uchar) : Dinode where
  type := shortAt bytes 0
  major := shortAt bytes 2
  minor := shortAt bytes 4
  nlink := shortAt bytes 6
  size := uintAt bytes 8
  addrs k := uintAt bytes (12 + 4 * k)

def Dinode.toBytes (d : Dinode) : List Uchar :=
  ofShort d.type ++ ofShort d.major ++ ofShort d.minor ++ ofShort d.nlink ++ ofUint d.size ++
    (List.finRange (NDIRECT + 1)).flatMap fun k => ofUint (d.addrs k)

@[simp] theorem Dinode.length_toBytes (d : Dinode) : d.toBytes.length = 64 := rfl

theorem Dinode.uintAt_toBytes_addrs (d : Dinode) (k : Fin (NDIRECT + 1)) :
    uintAt d.toBytes (12 + 4 * k) = d.addrs k := by
  have cut : (d.toBytes.drop (12 + 4 * k)).take 4 = ofUint (d.addrs k) := by
    revert k
    simp only [NDIRECT]
    intro k
    fin_cases k <;> rfl
  rw [uintAt, cut]
  exact word_ofLe_leBytes _ (by norm_num)

theorem Dinode.ofBytes_toBytes (d : Dinode) : Dinode.ofBytes d.toBytes = d := by
  have shorts : ∀ x : Short, BitVec.ofNat 16 (ofLe (ofShort x)) = x :=
    fun x => word_ofLe_leBytes x (by norm_num)
  have uints : ∀ x : Uint, BitVec.ofNat 32 (ofLe (ofUint x)) = x :=
    fun x => word_ofLe_leBytes x (by norm_num)
  have addrs : (Dinode.ofBytes d.toBytes).addrs = d.addrs := funext d.uintAt_toBytes_addrs
  have sameType : (Dinode.ofBytes d.toBytes).type = d.type := shorts d.type
  have sameMajor : (Dinode.ofBytes d.toBytes).major = d.major := shorts d.major
  have sameMinor : (Dinode.ofBytes d.toBytes).minor = d.minor := shorts d.minor
  have sameNlink : (Dinode.ofBytes d.toBytes).nlink = d.nlink := shorts d.nlink
  have sameSize : (Dinode.ofBytes d.toBytes).size = d.size := uints d.size
  cases d
  rw [Dinode.mk.injEq]
  exact ⟨sameType, sameMajor, sameMinor, sameNlink, sameSize, addrs⟩

section Inodes

variable (sb : Superblock) (disk : Disk)

/-- Block containing inode `i`. -/
def IBLOCK (i : Nat) : Nat := i / IPB + sb.inodestart

def dinodeAt (i : Nat) : Dinode :=
  Dinode.ofBytes ((disk (IBLOCK sb i)).read (64 * (i % IPB)) 64)

/-- `*dip = d` in the block of inode `i`. -/
def putDinode (data : Bytes) (i : Nat) (d : Dinode) : Bytes :=
  data.write (64 * (i % IPB)) d.toBytes

theorem dinodeAt_congr {disk disk' : Disk} {i : Nat}
    (same : disk' (IBLOCK sb i) = disk (IBLOCK sb i)) : dinodeAt sb disk' i = dinodeAt sb disk i := by
  simp only [dinodeAt, same]

theorem dinodeAt_put_self (i : Nat) (d : Dinode) :
    dinodeAt sb (Function.update disk (IBLOCK sb i) (putDinode (disk (IBLOCK sb i)) i d)) i = d := by
  have same := (disk (IBLOCK sb i)).read_write_self (64 * (i % IPB)) d.toBytes
  rw [Dinode.length_toBytes] at same
  rw [dinodeAt, Function.update_self, putDinode, same, Dinode.ofBytes_toBytes]

theorem dinodeAt_put_other {i j : Nat} (other : j ≠ i) (d : Dinode) :
    dinodeAt sb (Function.update disk (IBLOCK sb i) (putDinode (disk (IBLOCK sb i)) i d)) j =
      dinodeAt sb disk j := by
  by_cases sameBlock : IBLOCK sb j = IBLOCK sb i
  · have apart : j % IPB ≠ i % IPB := by
      intro sameIndex
      have quotients : j / IPB = i / IPB := by simpa [IBLOCK] using sameBlock
      apply other
      rw [← Nat.div_add_mod j IPB, ← Nat.div_add_mod i IPB, quotients, sameIndex]
    rw [dinodeAt, dinodeAt, sameBlock, Function.update_self, putDinode,
      Bytes.read_write_apart _ (by rw [Dinode.length_toBytes]; omega)]
  · exact dinodeAt_congr sb (Function.update_of_ne sameBlock _ _)

end Inodes

/-! ## The free bit map -/

def mask (bi : Nat) : Uchar := 1#8 <<< (bi % 8)

def isUsed (data : Bytes) (bi : Nat) : Bool := decide (data (bi / 8) &&& mask bi ≠ 0#8)

def markUsed (data : Bytes) (bi : Nat) : Bytes :=
  Function.update data (bi / 8) (data (bi / 8) ||| mask bi)

def markFree (data : Bytes) (bi : Nat) : Bytes :=
  Function.update data (bi / 8) (data (bi / 8) &&& ~~~mask bi)

theorem getLsbD_mask (bi n : Nat) : (mask bi).getLsbD n = decide (n = bi % 8) := by
  have small : bi % 8 < 8 := Nat.mod_lt _ (by norm_num)
  rw [mask, BitVec.getLsbD_shiftLeft, BitVec.getLsbD_one, Bool.eq_iff_iff]
  simp only [Bool.and_eq_true, decide_eq_true_eq, Bool.not_eq_true', decide_eq_false_iff_not]
  omega

theorem isUsed_eq (data : Bytes) (bi : Nat) : isUsed data bi = (data (bi / 8)).getLsbD (bi % 8) := by
  have small : bi % 8 < 8 := Nat.mod_lt _ (by norm_num)
  rw [isUsed, Bool.eq_iff_iff, decide_eq_true_eq]
  constructor
  · intro nonzero
    by_contra clear
    apply nonzero
    apply BitVec.eq_of_getLsbD_eq
    grind [getLsbD_mask]
  · intro set zero
    have both : (data (bi / 8) &&& mask bi).getLsbD (bi % 8) = true := by
      rw [BitVec.getLsbD_and, set, getLsbD_mask, decide_eq_true rfl, Bool.and_true]
    rw [zero, BitVec.getLsbD_zero] at both
    exact Bool.false_ne_true both

theorem isUsed_markUsed (data : Bytes) (bi c : Nat) :
    isUsed (markUsed data bi) c = (decide (c = bi) || isUsed data c) := by
  simp only [isUsed_eq, markUsed]
  by_cases sameByte : c / 8 = bi / 8
  · grind [getLsbD_mask]
  · rw [Function.update_of_ne sameByte, decide_eq_false (by omega), Bool.false_or]

section Bitmap

variable (sb : Superblock) (disk : Disk)

/-- Block of the free map containing the bit of block `b`. -/
def BBLOCK (b : Nat) : Nat := b / BPB + sb.bmapstart

def usedAt (b : Nat) : Bool := isUsed (disk (BBLOCK sb b)) (b % BPB)

theorem usedAt_congr {disk disk' : Disk} {b : Nat}
    (same : disk' (BBLOCK sb b) = disk (BBLOCK sb b)) : usedAt sb disk' b = usedAt sb disk b := by
  simp only [usedAt, same]

theorem usedAt_update {b c : Nat} {data : Bytes} :
    usedAt sb (Function.update disk (BBLOCK sb b) data) c =
      if c / BPB = b / BPB then isUsed data (c % BPB) else usedAt sb disk c := by
  by_cases sameBlock : c / BPB = b / BPB
  · rw [if_pos sameBlock, usedAt, BBLOCK, BBLOCK, sameBlock, Function.update_self]
  · rw [if_neg sameBlock]
    exact usedAt_congr sb (Function.update_of_ne (by simpa [BBLOCK] using sameBlock) _ _)

theorem block_eq_iff {b c : Nat} (sameBlock : c / BPB = b / BPB) :
    c % BPB = b % BPB ↔ c = b := by
  constructor
  · intro sameIndex
    rw [← Nat.div_add_mod c BPB, ← Nat.div_add_mod b BPB, sameBlock, sameIndex]
  · intro same
    rw [same]

theorem usedAt_markUsed (b c : Nat) :
    usedAt sb (Function.update disk (BBLOCK sb b) (markUsed (disk (BBLOCK sb b)) (b % BPB))) c =
      (decide (c = b) || usedAt sb disk c) := by
  rw [usedAt_update]
  split
  · rename_i sameBlock
    simp only [isUsed_markUsed, block_eq_iff sameBlock, usedAt, BBLOCK, sameBlock]
  · rw [decide_eq_false (by rintro rfl; contradiction), Bool.false_or]

end Bitmap

end Xv6Tracing.Volume
