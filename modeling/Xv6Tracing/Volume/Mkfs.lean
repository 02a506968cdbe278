import Xv6Tracing.Lib.Wp
import Xv6Tracing.Params
import Xv6Tracing.Volume.Blocks

/-!
# mkfs

The program that builds the first disk image.  The image is a map from sectors to
their bytes, zero where `mkfs` has written nothing yet.  The host is little-endian, so a
structure in memory has the bytes it has on disk.  A host file is its name and what
`read` returns for it, call by call.
-/

set_option autoImplicit false

namespace Xv6Tracing.Volume.Mkfs

open Lib

def NINODES : Nat := 200

def nbitmap : Nat := FSSIZE / (BSIZE * 8) + 1
def ninodeblocks : Nat := NINODES / IPB + 1
def nlog : Nat := LOGSIZE
def nmeta : Nat := 2 + nlog + ninodeblocks + nbitmap
def nblocks : Nat := FSSIZE - nmeta

structure Image where
  disk : Disk
  freeinode : Nat
  freeblock : Nat

/-- A failed assertion or a name that `main` refuses. -/
inductive Stop where
  | fileTooLarge | rootino | slash | bitmapTooLarge
deriving DecidableEq, Repr

abbrev MkfsM (α : Type) : Type := Prog Image Stop α

/-! ## Byte order -/

def xshort (x : Short) : Short :=
  BitVec.ofNat 16 (ofLe [x.setWidth 8, (x >>> 8).setWidth 8])

def xint (x : Uint) : Uint :=
  BitVec.ofNat 32 (ofLe [x.setWidth 8, (x >>> 8).setWidth 8, (x >>> 16).setWidth 8,
    (x >>> 24).setWidth 8])

/-! ## Sectors and inodes -/

def sb : Superblock where
  size := FSSIZE
  nblocks := nblocks
  ninodes := NINODES
  nlog := nlog
  logstart := 2
  inodestart := 2 + nlog
  bmapstart := 2 + nlog + ninodeblocks

def sbBytes : List Uchar :=
  ofUint (xint (BitVec.ofNat 32 sb.size)) ++ ofUint (xint (BitVec.ofNat 32 sb.nblocks)) ++
    ofUint (xint (BitVec.ofNat 32 sb.ninodes)) ++ ofUint (xint (BitVec.ofNat 32 sb.nlog)) ++
    ofUint (xint (BitVec.ofNat 32 sb.logstart)) ++ ofUint (xint (BitVec.ofNat 32 sb.inodestart)) ++
    ofUint (xint (BitVec.ofNat 32 sb.bmapstart))

def rsect (sec : Nat) : MkfsM Bytes := do
  return (← get).disk sec

def wsect (sec : Nat) (buf : Bytes) : MkfsM Unit :=
  modify fun img => { img with disk := Function.update img.disk sec buf }

def winode (inum : Nat) (din : Dinode) : MkfsM Unit := do
  let bn := IBLOCK sb inum
  let buf ← rsect bn
  wsect bn (putDinode buf inum din)

def rinode (inum : Nat) : MkfsM Dinode := do
  let buf ← rsect (IBLOCK sb inum)
  return Dinode.ofBytes (buf.read (64 * (inum % IPB)) 64)

def ialloc (type : Short) : MkfsM Nat := do
  let img ← get
  let inum := img.freeinode
  set { img with freeinode := inum + 1 }
  winode inum { Dinode.zero with type := xshort type, nlink := xshort 1, size := xint 0 }
  return inum

/-- `freeblock++` -/
def nextBlock : MkfsM Uint := do
  let img ← get
  set { img with freeblock := img.freeblock + 1 }
  return BitVec.ofNat 32 img.freeblock

/-- `addrs[k]`, with the next block put there if it has none. -/
def loadAddr (din : Dinode) (k : Fin (NDIRECT + 1)) : MkfsM Dinode := do
  if xint (din.addrs k) = 0 then do
    let b ← nextBlock
    return din.setAddr k (xint b)
  else return din

/-- The address in entry `j` of the indirect block, with the next block put there if
it has none. -/
def loadEntry (din : Dinode) (j : Nat) : MkfsM Nat := do
  let table := (xint (din.addrs indirect)).toNat
  let buf ← rsect table
  if indirectAt buf j = 0 then do
    let b ← nextBlock
    wsect table (putIndirect buf j (xint b))
    return (xint (xint b)).toNat
  else return (xint (indirectAt buf j)).toNat

/-- The sector of block `fbn` of the file, and the inode with its address. -/
def mapBlock (din : Dinode) (fbn : Nat) : MkfsM (Dinode × Nat) := do
  if direct : fbn < NDIRECT then do
    let k : Fin (NDIRECT + 1) := ⟨fbn, Nat.lt_succ_of_lt direct⟩
    let din ← loadAddr din k
    return (din, (xint (din.addrs k)).toNat)
  else do
    let din ← loadAddr din indirect
    let x ← loadEntry din (fbn - NDIRECT)
    return (din, x)

/-- The loop of `iappend`, with a bound on its turns: each writes a byte at least. -/
def iappendLoop : Nat → Dinode → Nat → List Uchar → MkfsM (Dinode × Nat)
  | 0, din, off, _ => return (din, off)
  | fuel + 1, din, off, p =>
    if p = [] then return (din, off)
    else if MAXFILE ≤ off / BSIZE then throw .fileTooLarge
    else do
      let (din, x) ← mapBlock din (off / BSIZE)
      let n1 := min p.length ((off / BSIZE + 1) * BSIZE - off)
      let buf ← rsect x
      wsect x (buf.write (off - off / BSIZE * BSIZE) (p.take n1))
      iappendLoop fuel din (off + n1) (p.drop n1)

def iappend (inum : Nat) (p : List Uchar) : MkfsM Unit := do
  let din ← rinode inum
  let (din, off) ← iappendLoop p.length din (xint din.size).toNat p
  winode inum { din with size := xint (BitVec.ofNat 32 off) }

def balloc (used : Nat) : MkfsM Unit := do
  if BSIZE * 8 ≤ used then throw .bitmapTooLarge
  else wsect sb.bmapstart ((List.range used).foldl markUsed fun _ => 0)

/-! ## The program -/

/-- The 14 bytes that `strncpy` leaves in a cleared `de.name`. -/
def storedName (name : List Uchar) : List Uchar :=
  (name.take DIRSIZ) ++ List.replicate (DIRSIZ - (name.take DIRSIZ).length) 0

def dirent (inum : Nat) (name : List Uchar) : List Uchar :=
  ofShort (xshort (BitVec.ofNat 16 inum)) ++ storedName name

structure HostFile where
  name : List Uchar
  reads : List (List Uchar)

def HostFile.imageName (file : HostFile) : List Uchar :=
  if file.name.headD 0 = 0x5f then file.name.tail else file.name

def SLASH : Uchar := 0x2f

/-- `while((cc = read(fd, buf, sizeof(buf))) > 0) iappend(inum, buf, cc);` -/
def appendAll (inum : Nat) : List (List Uchar) → MkfsM Unit
  | [] => return
  | buf :: rest => do
      iappend inum buf
      appendAll inum rest

def addFile (rootino : Nat) (file : HostFile) : MkfsM Unit := do
  if SLASH ∈ file.name then throw .slash
  else do
    let inum ← ialloc T_FILE
    iappend rootino (dirent inum file.imageName)
    appendAll inum file.reads

def addFiles (rootino : Nat) : List HostFile → MkfsM Unit
  | [] => return
  | file :: rest => do
      addFile rootino file
      addFiles rootino rest

def blank : Image where
  disk := Function.update (fun _ _ => 0) 1 (Bytes.write (fun _ => 0) 0 sbBytes)
  freeinode := 1
  freeblock := nmeta

/-- The root directory with `.`, `..` and the files. -/
def populate (files : List HostFile) : MkfsM Nat := do
  let rootino ← ialloc T_DIR
  if rootino ≠ ROOTINO then throw .rootino
  else do
    iappend rootino (dirent rootino (cstr "."))
    iappend rootino (dirent rootino (cstr ".."))
    addFiles rootino files
    return rootino

def fixRoot (rootino : Nat) : MkfsM Unit := do
  let din ← rinode rootino
  let off := (xint din.size).toNat
  winode rootino { din with size := xint (BitVec.ofNat 32 ((off / BSIZE + 1) * BSIZE)) }

def main (files : List HostFile) : MkfsM Unit := do
  let rootino ← populate files
  fixRoot rootino
  balloc (← get).freeblock

end Xv6Tracing.Volume.Mkfs
