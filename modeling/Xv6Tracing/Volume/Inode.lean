import Xv6Tracing.Lib.Wp
import Xv6Tracing.File.Table
import Xv6Tracing.Volume.Blocks

/-!
# Blocks and inodes in the kernel

The block and inode functions of `fs.c` over the bytes of the disk, run by one process at
a time, with one device.  `disk` is the disk as it appears through the buffer cache and
the log.  A block number from `FSSIZE` on stops the kernel in `idestart`.

The only device with a driver is the console.  What its reads will return is a
list in the state; the text that is written to it is not kept.
-/

set_option autoImplicit false

namespace Xv6Tracing.Volume

open Lib Process Ftable

def CONSOLE : Short := 1

/-- An entry of the inode cache; `valid` is `I_VALID`. -/
structure Inode extends Dinode where
  inum : Nat
  ref : Nat
  locked : Bool
  valid : Bool
deriving DecidableEq

structure Vol where
  files : Files
  sb : Superblock
  disk : Disk
  icache : Fin NINODE → Inode
  outstanding : Nat
  input : List (Option (List Uchar))

/-- Why a call does not complete: a panic, a wait that nobody ends, or the use of a
null pointer.  `halted` stands for what stops the file table or the page allocator
below it. -/
inductive Halt where
  | incorrectBlockno | ballocOut | freeingFree | bmapRange
  | igetNoInodes | ilockRef | ilockNoType | iunlock | iallocNoInodes
  | dirlookupNotDir | dirlookupRead | dirlinkRead | dirlink
  | unlinkNlink | isdirempty | unlinkWritei | createDots | createDirlink
  | fileread | filewrite | shortFilewrite | initExiting | asleep | null | halted
deriving DecidableEq, Repr

abbrev VolM (α : Type) : Type := Prog Vol Halt α

def Vol.setInode (s : Vol) (a : Fin NINODE) (ip : Inode) : Vol :=
  { s with icache := Function.update s.icache a ip }

def modifyInode (a : Fin NINODE) (f : Inode → Inode) : VolM Unit :=
  modify fun s => s.setInode a (f (s.icache a))

/-! ## Blocks -/

def bread (b : Nat) : VolM Bytes := do
  if FSSIZE ≤ b then throw .incorrectBlockno
  else return (← get).disk b

def log_write (b : Nat) (data : Bytes) : VolM Unit :=
  modify fun s => { s with disk := Function.update s.disk b data }

def bzero (bno : Nat) : VolM Unit := do
  let _ ← bread bno
  log_write bno fun _ => 0

/-- The inner loop of `balloc`: the first free block that this block of the bit map
has a bit for. -/
@[irreducible] def freeBit (data : Bytes) (b size : Nat) : Option Nat :=
  (List.range BPB).find? fun bi => decide (b + bi < size) && !isUsed data bi

/-- The outer loop of `balloc`, over the blocks of the bit map. -/
def ballocFrom : List Nat → VolM Uint
  | [] => throw .ballocOut
  | group :: rest => do
      let sb := (← get).sb
      let b := group * BPB
      let data ← bread (BBLOCK sb b)
      match freeBit data b sb.size with
      | some bi => do
          log_write (BBLOCK sb b) (markUsed data bi)
          bzero (b + bi)
          return BitVec.ofNat 32 (b + bi)
      | none => ballocFrom rest

def balloc : VolM Uint := do
  ballocFrom (List.range (((← get).sb.size + BPB - 1) / BPB))

def bfree (b : Nat) : VolM Unit := do
  let first ← bread 1
  modify fun s => { s with sb := Superblock.ofBytes (first.read 0 28) }
  let sb := (← get).sb
  let data ← bread (BBLOCK sb b)
  let bi := b % BPB
  if isUsed data bi = false then throw .freeingFree
  else log_write (BBLOCK sb b) (markFree data bi)

/-! ## Inodes -/

def cached (s : Vol) (inum : Nat) : Option (Fin NINODE) :=
  (List.finRange NINODE).find? fun a => decide (0 < (s.icache a).ref ∧ (s.icache a).inum = inum)

def emptySlot (s : Vol) : Option (Fin NINODE) :=
  (List.finRange NINODE).find? fun a => decide ((s.icache a).ref = 0)

def iget (inum : Nat) : VolM (Fin NINODE) := do
  let s ← get
  match cached s inum with
  | some a => do
      set (s.setInode a { s.icache a with ref := (s.icache a).ref + 1 })
      return a
  | none =>
    match emptySlot s with
    | none => throw .igetNoInodes
    | some a => do
        set (s.setInode a { s.icache a with inum := inum, ref := 1, valid := false })
        return a

def idup (a : Fin NINODE) : VolM (Fin NINODE) := do
  modifyInode a fun ip => { ip with ref := ip.ref + 1 }
  return a

def ilock (a : Fin NINODE) : VolM Unit := do
  let s ← get
  if (s.icache a).ref < 1 then throw .ilockRef
  else if (s.icache a).locked then throw .asleep
  else do
    modifyInode a fun ip => { ip with locked := true }
    if (s.icache a).valid then return
    else
      let inum := (s.icache a).inum
      let data ← bread (IBLOCK s.sb inum)
      let dip := Dinode.ofBytes (data.read (64 * (inum % IPB)) 64)
      modifyInode a fun ip => { ip with toDinode := dip, valid := true }
      if dip.type = 0 then throw .ilockNoType else return

def iunlock (a : Fin NINODE) : VolM Unit := do
  let s ← get
  if (s.icache a).locked = false ∨ (s.icache a).ref < 1 then throw .iunlock
  else modifyInode a fun ip => { ip with locked := false }

def iupdate (a : Fin NINODE) : VolM Unit := do
  let s ← get
  let ip := s.icache a
  let data ← bread (IBLOCK s.sb ip.inum)
  log_write (IBLOCK s.sb ip.inum) (putDinode data ip.inum ip.toDinode)

/-- `addrs[k]`, with a new block put there if it has none. -/
def loadAddr (a : Fin NINODE) (k : Fin (NDIRECT + 1)) : VolM Uint := do
  let s ← get
  if (s.icache a).addrs k = 0 then do
    let b ← balloc
    modifyInode a fun ip => { ip with toDinode := ip.toDinode.setAddr k b }
    return b
  else return (s.icache a).addrs k

/-- Entry `j` of the indirect block, with a new block put there if it has none. -/
def loadEntry (table : Nat) (j : Nat) : VolM Uint := do
  let data ← bread table
  if indirectAt data j = 0 then do
    let b ← balloc
    modify fun s =>
      { s with disk := Function.update s.disk table (putIndirect (s.disk table) j b) }
    return b
  else return indirectAt data j

def bmap (a : Fin NINODE) (bn : Nat) : VolM Uint := do
  if direct : bn < NDIRECT then loadAddr a ⟨bn, Nat.lt_succ_of_lt direct⟩
  else if bn - NDIRECT < NINDIRECT then do
    let table ← loadAddr a indirect
    loadEntry table.toNat (bn - NDIRECT)
  else throw .bmapRange

/-- The loop of `itrunc` over the direct blocks. -/
def freeDirect (a : Fin NINODE) : List (Fin (NDIRECT + 1)) → VolM Unit
  | [] => return
  | k :: rest => do
      let s ← get
      if (s.icache a).addrs k ≠ 0 then do
        bfree ((s.icache a).addrs k).toNat
        modifyInode a fun ip => { ip with toDinode := ip.toDinode.setAddr k 0 }
      freeDirect a rest

/-- The loop of `itrunc` over the entries of the indirect block. -/
def freeEntries (data : Bytes) : List Nat → VolM Unit
  | [] => return
  | j :: rest => do
      if indirectAt data j ≠ 0 then bfree (indirectAt data j).toNat
      freeEntries data rest

def itrunc (a : Fin NINODE) : VolM Unit := do
  freeDirect a ((List.finRange NDIRECT).map Fin.castSucc)
  let s ← get
  if (s.icache a).addrs indirect ≠ 0 then do
    let table := ((s.icache a).addrs indirect).toNat
    let data ← bread table
    freeEntries data (List.range NINDIRECT)
    bfree table
    modifyInode a fun ip => { ip with toDinode := ip.toDinode.setAddr indirect 0 }
  modifyInode a fun ip => { ip with size := 0 }
  iupdate a

def iput (a : Fin NINODE) : VolM Unit := do
  let s ← get
  if (s.icache a).ref = 1 ∧ (s.icache a).valid ∧ (s.icache a).nlink = 0 then do
    itrunc a
    modifyInode a fun ip => { ip with type := 0 }
    iupdate a
    modifyInode a fun ip => { ip with valid := false }
  modifyInode a fun ip => { ip with ref := ip.ref - 1 }

def iunlockput (a : Fin NINODE) : VolM Unit := do
  iunlock a
  iput a

/-- The loop of `ialloc` from the given inode numbers on. -/
def iallocFrom (type : Short) : List Nat → VolM (Fin NINODE)
  | [] => throw .iallocNoInodes
  | inum :: rest => do
      let sb := (← get).sb
      let data ← bread (IBLOCK sb inum)
      if (Dinode.ofBytes (data.read (64 * (inum % IPB)) 64)).type = 0 then do
        log_write (IBLOCK sb inum) (putDinode data inum { Dinode.zero with type := type })
        iget inum
      else iallocFrom type rest

def ialloc (type : Short) : VolM (Fin NINODE) := do
  iallocFrom type ((List.range (← get).sb.ninodes).drop 1)

/-! ## Contents -/

def consoleread (a : Fin NINODE) (n : Nat) : VolM (Option (List Uchar)) := do
  iunlock a
  let s ← get
  match s.input with
  | [] => throw .asleep
  | result :: rest => do
      set { s with input := rest }
      ilock a
      return result.map (List.take n)

def consolewrite (a : Fin NINODE) (n : Nat) : VolM (Option Nat) := do
  iunlock a
  ilock a
  return some n

/-- The loop of `readi`, with a bound on its turns: each reads a byte at least. -/
def readiLoop (a : Fin NINODE) : Nat → Nat → Nat → VolM (List Uchar)
  | 0, _, _ => return []
  | fuel + 1, off, n =>
    if n = 0 then return []
    else do
      let b ← bmap a (off / BSIZE)
      let data ← bread b.toNat
      let m := min n (BSIZE - off % BSIZE)
      let rest ← readiLoop a fuel (off + m) (n - m)
      return data.read (off % BSIZE) m ++ rest

/-- The bytes read; `none` is -1. -/
def readi (a : Fin NINODE) (off n : Uint) : VolM (Option (List Uchar)) := do
  let s ← get
  let ip := s.icache a
  if ip.type = T_DEV then
    if ip.major = CONSOLE then consoleread a n.toNat else return none
  else if ip.size < off ∨ off + n < off then return none
  else do
    let n := if ip.size < off + n then ip.size - off else n
    let bytes ← readiLoop a n.toNat off.toNat n.toNat
    return some bytes

/-- The loop of `writei`, with a bound on its turns. -/
def writeiLoop (a : Fin NINODE) : Nat → Nat → List Uchar → VolM Unit
  | 0, _, _ => return
  | fuel + 1, off, src =>
    if src = [] then return
    else do
      let b ← bmap a (off / BSIZE)
      let data ← bread b.toNat
      let m := min src.length (BSIZE - off % BSIZE)
      log_write b.toNat (data.write (off % BSIZE) (src.take m))
      writeiLoop a fuel (off + m) (src.drop m)

/-- The bytes to write are given whole, so `n` is their number, and the test for the
wrap of `off + n` is that of the 32-bit sum.  `none` is -1. -/
def writei (a : Fin NINODE) (src : List Uchar) (off : Uint) : VolM (Option Nat) := do
  let s ← get
  let ip := s.icache a
  let n := src.length
  if ip.type = T_DEV then
    if ip.major = CONSOLE then consolewrite a n else return none
  else if ip.size < off ∨ 2 ^ 32 ≤ off.toNat + n then return none
  else if MAXFILE * BSIZE < off.toNat + n then return none
  else do
    writeiLoop a n off.toNat src
    let s ← get
    if 0 < n ∧ (s.icache a).size.toNat < off.toNat + n then do
      modifyInode a fun ip => { ip with size := BitVec.ofNat 32 (off.toNat + n) }
      iupdate a
    return some n

end Xv6Tracing.Volume
