import Xv6Tracing.Lib.Wp
import Xv6Tracing.File.Table

/-!
# Inodes, directories and path names

The inode, directory and path functions of `fs.c`, run by one process at a time, with
one device and a buffer cache that always has the inodes.

An image of `FSSIZE` blocks has room for fewer than `2^15` directory entries, so the
`short` link count is a natural number here.  A directory's contents are its entries,
one for 16 bytes of its size; other contents are not looked at.  Disk blocks are not
counted: a call that stops for want of a block completes here, which only adds runs.
-/

set_option autoImplicit false

namespace Xv6Tracing.Fs

open Lib Process Ftable

def ROOTINO : Nat := 1
def DIRSIZ : Nat := 14

/-- `MAXFILE*BSIZE / sizeof(struct dirent)` -/
def MAXDIRENTS : Nat := (12 + 128) * 512 / 16

abbrev Short := BitVec 16

/-- `type` of an inode; 0 marks a free one. -/
inductive InodeType where
  | free | T_DIR | T_FILE | T_DEV
deriving DecidableEq, Repr

/-- The bytes of a `char[DIRSIZ]` up to its NUL, if it has one. -/
abbrev Name := List Uchar

structure Dirent where
  inum : Nat
  name : Name
deriving DecidableEq, Repr

/-- The fields that `ilock` and `iupdate` copy. -/
structure Attr where
  type : InodeType
  major : Short
  minor : Short
  nlink : Nat
deriving DecidableEq, Repr

structure Dinode extends Attr where
  dirents : List Dirent
deriving DecidableEq, Repr

/-- An entry of the inode cache; `valid` is `I_VALID`. -/
structure Inode extends Attr where
  inum : Nat
  ref : Nat
  locked : Bool
  valid : Bool
deriving DecidableEq, Repr

structure FS where
  files : Files
  ninodes : Nat
  disk : Nat → Dinode
  icache : Fin NINODE → Inode
  outstanding : Nat

/-- Why a call does not complete: a panic, a wait for a lock that the caller
itself holds, or the use of a null pointer.  `halted` stands for what stops the
file table, a panic of `fileclose` or of the page allocator below it. -/
inductive Halt where
  | igetNoInodes | ilockRef | ilockNoType | iunlock | iallocNoInodes
  | dirlookupNotDir | dirlink | unlinkNlink | createDots | createDirlink | initExiting
  | asleep | null | halted
deriving DecidableEq, Repr

abbrev FsM (α : Type) : Type := Prog FS Halt α

def FS.setInode (s : FS) (a : Fin NINODE) (ip : Inode) : FS :=
  { s with icache := Function.update s.icache a ip }

def FS.setDisk (s : FS) (inum : Nat) (dip : Dinode) : FS :=
  { s with disk := Function.update s.disk inum dip }

def modifyInode (a : Fin NINODE) (f : Inode → Inode) : FsM Unit :=
  modify fun s => s.setInode a (f (s.icache a))

/-! ## Inodes -/

def cached (s : FS) (inum : Nat) : Option (Fin NINODE) :=
  (List.finRange NINODE).find? fun a => decide (0 < (s.icache a).ref ∧ (s.icache a).inum = inum)

def emptySlot (s : FS) : Option (Fin NINODE) :=
  (List.finRange NINODE).find? fun a => decide ((s.icache a).ref = 0)

def iget (inum : Nat) : FsM (Fin NINODE) := do
  let s ← get
  match cached s inum with
  | some a => do
      set (s.setInode a { s.icache a with ref := (s.icache a).ref + 1 })
      return a
  | none =>
    match emptySlot s with
    | none => throw .igetNoInodes
    | some a => do
        set (s.setInode a { s.icache a with inum := inum, ref := 1, valid := false })
        return a

def idup (a : Fin NINODE) : FsM (Fin NINODE) := do
  modifyInode a fun ip => { ip with ref := ip.ref + 1 }
  return a

def ilock (a : Fin NINODE) : FsM Unit := do
  let s ← get
  if (s.icache a).ref < 1 then throw .ilockRef
  else if (s.icache a).locked then throw .asleep
  else do
    modifyInode a fun ip => { ip with locked := true }
    if (s.icache a).valid then return
    else
      let dip := s.disk (s.icache a).inum
      modifyInode a fun ip => { ip with toAttr := dip.toAttr, valid := true }
      if dip.type = .free then throw .ilockNoType else return

def iunlock (a : Fin NINODE) : FsM Unit := do
  let s ← get
  if (s.icache a).locked = false ∨ (s.icache a).ref < 1 then throw .iunlock
  else modifyInode a fun ip => { ip with locked := false }

def iupdate (a : Fin NINODE) : FsM Unit :=
  modify fun s =>
    let ip := s.icache a
    s.setDisk ip.inum { s.disk ip.inum with toAttr := ip.toAttr }

def itrunc (a : Fin NINODE) : FsM Unit := do
  modify fun s =>
    let inum := (s.icache a).inum
    s.setDisk inum { s.disk inum with dirents := [] }
  iupdate a

def iput (a : Fin NINODE) : FsM Unit := do
  let s ← get
  if (s.icache a).ref = 1 ∧ (s.icache a).valid ∧ (s.icache a).nlink = 0 then do
    itrunc a
    modifyInode a fun ip => { ip with type := .free }
    iupdate a
    modifyInode a fun ip => { ip with valid := false }
  modifyInode a fun ip => { ip with ref := ip.ref - 1 }

def iunlockput (a : Fin NINODE) : FsM Unit := do
  iunlock a
  iput a

def freeInum (s : FS) : Option Nat :=
  (List.range s.ninodes).find? fun inum => decide (1 ≤ inum ∧ (s.disk inum).type = .free)

def ialloc (type : InodeType) : FsM (Fin NINODE) := do
  let s ← get
  match freeInum s with
  | none => throw .iallocNoInodes
  | some inum => do
      set (s.setDisk inum ⟨⟨type, 0, 0, 0⟩, []⟩)
      iget inum

/-! ## Directories -/

def strncmp : Nat → List Uchar → List Uchar → Int
  | 0, _, _ => 0
  | n + 1, p, q =>
    if p.headD 0 ≠ 0 ∧ p.headD 0 = q.headD 0 then strncmp n p.tail q.tail
    else (p.headD 0).toNat - (q.headD 0).toNat

def namecmp (s t : Name) : Int := strncmp DIRSIZ s t

/-- The loop of `dirlookup` from the entry `off` on: the first entry in use with
that name, and the inode it names. -/
def lookupFrom (name : Name) : Nat → List Dirent → Option (Nat × Nat)
  | _, [] => none
  | off, de :: rest =>
    if de.inum = 0 then lookupFrom name (off + 1) rest
    else if namecmp name de.name = 0 then some (off, de.inum)
    else lookupFrom name (off + 1) rest

def FS.dirents (s : FS) (a : Fin NINODE) : List Dirent := (s.disk (s.icache a).inum).dirents

def writeDirent (a : Fin NINODE) (off : Nat) (de : Dirent) : FsM Unit :=
  modify fun s =>
    let inum := (s.icache a).inum
    let old := (s.disk inum).dirents
    s.setDisk inum { s.disk inum with
      dirents := if off < old.length then old.set off de else old ++ [de] }

def dirlookup (dp : Fin NINODE) (name : Name) : FsM (Option (Fin NINODE × Nat)) := do
  let s ← get
  if (s.icache dp).type ≠ .T_DIR then throw .dirlookupNotDir
  else
    match lookupFrom name 0 (s.dirents dp) with
    | none => return none
    | some (off, inum) => do
        let ip ← iget inum
        return some (ip, off)

def emptyDirent : List Dirent → Nat
  | [] => 0
  | de :: rest => if de.inum = 0 then 0 else emptyDirent rest + 1

/-- `false` is the return value -1. -/
def dirlink (dp : Fin NINODE) (name : Name) (inum : Nat) : FsM Bool := do
  match ← dirlookup dp name with
  | some (ip, _) => do
      iput ip
      return false
  | none => do
      let s ← get
      let off := emptyDirent (s.dirents dp)
      if MAXDIRENTS ≤ off then throw .dirlink
      else do
        writeDirent dp off ⟨inum % 2 ^ 16, name.take DIRSIZ⟩
        return true

/-! ## Paths -/

def SLASH : Uchar := 0x2f

/-- The next path element, cut to `DIRSIZ` bytes, and the path after it. -/
def skipelem (path : List Uchar) : Option (Name × List Uchar) :=
  let path := path.dropWhile (· = SLASH)
  if path = [] then none
  else
    let elem := path.takeWhile (· ≠ SLASH)
    some (elem.take DIRSIZ, (path.dropWhile (· ≠ SLASH)).dropWhile (· = SLASH))

/-- The loop of `namex`, with a bound on its turns.  The result has the last
path element when the parent was asked for. -/
def namexLoop (nameiparent : Bool) : Nat → Fin NINODE → List Uchar →
    FsM (Option (Fin NINODE × Name))
  | 0, _, _ => return none
  | fuel + 1, ip, path =>
    match skipelem path with
    | none =>
      if nameiparent then do
        iput ip
        return none
      else return some (ip, [])
    | some (name, path) => do
        ilock ip
        let s ← get
        if (s.icache ip).type ≠ .T_DIR then do
          iunlockput ip
          return none
        else if nameiparent ∧ path = [] then do
          iunlock ip
          return some (ip, name)
        else
          match ← dirlookup ip name with
          | none => do
              iunlockput ip
              return none
          | some (next, _) => do
              iunlockput ip
              namexLoop nameiparent fuel next path

def namex (p : Fin NPROC) (path : List Uchar) (nameiparent : Bool) :
    FsM (Option (Fin NINODE × Name)) := do
  let s ← get
  let ip ←
    if path.headD 0 = SLASH then iget ROOTINO
    else
      match (s.files.kernel.proc p).cwd with
      | none => throw .null
      | some cwd => idup cwd
  namexLoop nameiparent (path.length + 1) ip path

def namei (p : Fin NPROC) (path : List Uchar) : FsM (Option (Fin NINODE)) := do
  let r ← namex p path false
  return r.map Prod.fst

def nameiparent (p : Fin NPROC) (path : List Uchar) : FsM (Option (Fin NINODE × Name)) :=
  namex p path true

end Xv6Tracing.Fs
