import Xv6Tracing.Fs.Inode

/-!
# File-system system calls

The calls of `sysfile.c` that change names, current directories or open files,
and `exit`, each run to its end by one process.  A path is what `argstr` made of
the argument, `none` when it refused it.
-/

set_option autoImplicit false

namespace Xv6Tracing.Fs

open Lib Process Ftable

def O_RDONLY : CInt := 0x000
def O_WRONLY : CInt := 0x001
def O_RDWR : CInt := 0x002
def O_CREATE : CInt := 0x200

/-- `begin_op`; with no other operation in progress it does not wait. -/
def begin_op : FsM Unit := modify fun s => { s with outstanding := s.outstanding + 1 }

def end_op : FsM Unit := modify fun s => { s with outstanding := s.outstanding - 1 }

def setFiles (files : Files) : FsM Unit := modify fun s => { s with files := files }

/-- Assignments to fields of an inode followed by `iupdate`. -/
def setAttr (a : Fin NINODE) (f : Attr → Attr) : FsM Unit := do
  modifyInode a fun ip => { ip with toAttr := f ip.toAttr }
  iupdate a

def Attr.link (attr : Attr) : Attr := { attr with nlink := attr.nlink + 1 }

def Attr.unlink (attr : Attr) : Attr := { attr with nlink := attr.nlink - 1 }

/-! ## Open files -/

/-- The file table's part of `fileclose`, then the inode's. -/
def fileclose (p : Fin NPROC) (f : Fin NFILE) : FsM Unit := do
  let s ← get
  let ff := s.files.ftable f
  match Ftable.fileclose s.files (some p) f with
  | none => throw .halted
  | some files => do
      setFiles files
      if ff.ref = 1 ∧ ff.type = .FD_INODE then
        match ff.ip with
        | none => throw .null
        | some ip => do
            begin_op
            iput ip
            end_op
      else return

/-- `filealloc` and `fdalloc` of `sys_open`; a file without a descriptor is
closed again. -/
def openFile (p : Fin NPROC) : FsM (Option (Fin NFILE × Fin NOFILE)) := do
  let s ← get
  match filealloc s.files with
  | none => return none
  | some (f, files) =>
    match fdalloc files p f with
    | none => do
        setFiles files
        fileclose p f
        return none
    | some (fd, files) => do
        setFiles files
        return some (f, fd)

/-! ## Names -/

def isdirempty (dirents : List Dirent) : Bool := (dirents.drop 2).all fun de => decide (de.inum = 0)

def createDots (ip dp : Fin NINODE) : FsM Unit := do
  let s ← get
  if ← dirlink ip (cstr ".") (s.icache ip).inum then
    if ← dirlink ip (cstr "..") (s.icache dp).inum then return
    else throw .createDots
  else throw .createDots

def createNew (dp : Fin NINODE) (name : Name) (type : InodeType) (major minor : Short) :
    FsM (Fin NINODE) := do
  let ip ← ialloc type
  ilock ip
  setAttr ip fun attr => { attr with major := major, minor := minor, nlink := 1 }
  if type = .T_DIR then do
    setAttr dp Attr.link
    createDots ip dp
  let s ← get
  if ← dirlink dp name (s.icache ip).inum then do
    iunlockput dp
    return ip
  else throw .createDirlink

def create (p : Fin NPROC) (path : List Uchar) (type : InodeType) (major minor : Short) :
    FsM (Option (Fin NINODE)) := do
  match ← nameiparent p path with
  | none => return none
  | some (dp, name) => do
      ilock dp
      match ← dirlookup dp name with
      | some (ip, _) => do
          iunlockput dp
          ilock ip
          let s ← get
          if type = .T_FILE ∧ (s.icache ip).type = .T_FILE then return some ip
          else do
            iunlockput ip
            return none
      | none => do
          let ip ← createNew dp name type major minor
          return some ip

/-! ## The calls -/

/-- The inode that `sys_open` opens, locked. -/
def openInode (p : Fin NPROC) (path : List Uchar) (omode : CInt) : FsM (Option (Fin NINODE)) := do
  if omode &&& O_CREATE ≠ 0 then create p path .T_FILE 0 0
  else
    match ← namei p path with
    | none => return none
    | some ip => do
        ilock ip
        let s ← get
        if (s.icache ip).type = .T_DIR ∧ omode ≠ O_RDONLY then do
          iunlockput ip
          return none
        else return some ip

def openedFile (ip : Fin NINODE) (omode : CInt) (file : File) : File :=
  { file with
    type := .FD_INODE
    ip := some ip
    off := 0
    readable := decide (omode &&& O_WRONLY = 0)
    writable := decide (omode &&& O_WRONLY ≠ 0 ∨ omode &&& O_RDWR ≠ 0) }

def sys_open (p : Fin NPROC) (path : Option (List Uchar)) (omode : CInt) : FsM CInt := do
  match path with
  | none => return -1
  | some path => do
      begin_op
      match ← openInode p path omode with
      | none => do
          end_op
          return -1
      | some ip =>
        match ← openFile p with
        | none => do
            iunlockput ip
            end_op
            return -1
        | some (f, fd) => do
            iunlock ip
            end_op
            let s ← get
            setFiles (s.files.setFile f (openedFile ip omode (s.files.ftable f)))
            return BitVec.ofNat 32 fd.val

/-- `sys_mkdir` and `sys_mknod` after their arguments. -/
def sysCreate (p : Fin NPROC) (path : Option (List Uchar)) (type : InodeType)
    (major minor : Short) : FsM CInt := do
  begin_op
  match path with
  | none => do
      end_op
      return -1
  | some path =>
    match ← create p path type major minor with
    | none => do
        end_op
        return -1
    | some ip => do
        iunlockput ip
        end_op
        return 0

def sys_mkdir (p : Fin NPROC) (path : Option (List Uchar)) : FsM CInt :=
  sysCreate p path .T_DIR 0 0

def sys_mknod (p : Fin NPROC) (path : Option (List Uchar)) (major minor : CInt) : FsM CInt :=
  sysCreate p path .T_DEV (major.setWidth 16) (minor.setWidth 16)

/-- The second half of `sys_link`: the new name for the inode `ip`. -/
def linkName (p : Fin NPROC) (ip : Fin NINODE) (new : List Uchar) : FsM Bool := do
  match ← nameiparent p new with
  | none => return false
  | some (dp, name) => do
      ilock dp
      let s ← get
      let linked ← dirlink dp name (s.icache ip).inum
      iunlockput dp
      return linked

def sys_link (p : Fin NPROC) (old new : Option (List Uchar)) : FsM CInt := do
  match old, new with
  | some old, some new => do
      begin_op
      match ← namei p old with
      | none => do
          end_op
          return -1
      | some ip => do
          ilock ip
          let s ← get
          if (s.icache ip).type = .T_DIR then do
            iunlockput ip
            end_op
            return -1
          else do
            setAttr ip Attr.link
            iunlock ip
            if ← linkName p ip new then do
              iput ip
              end_op
              return 0
            else do
              ilock ip
              setAttr ip Attr.unlink
              iunlockput ip
              end_op
              return -1
  | _, _ => return -1

/-- `sys_unlink` once the entry is found and both inodes are locked. -/
def unlinkEntry (dp ip : Fin NINODE) (off : Nat) : FsM CInt := do
  let s ← get
  if (s.icache ip).nlink < 1 then throw .unlinkNlink
  else if (s.icache ip).type = .T_DIR ∧ isdirempty (s.dirents ip) = false then do
    iunlockput ip
    iunlockput dp
    end_op
    return -1
  else do
    writeDirent dp off ⟨0, []⟩
    if (s.icache ip).type = .T_DIR then setAttr dp Attr.unlink
    iunlockput dp
    setAttr ip Attr.unlink
    iunlockput ip
    end_op
    return 0

def sys_unlink (p : Fin NPROC) (path : Option (List Uchar)) : FsM CInt := do
  match path with
  | none => return -1
  | some path => do
      begin_op
      match ← nameiparent p path with
      | none => do
          end_op
          return -1
      | some (dp, name) => do
          ilock dp
          if namecmp name (cstr ".") = 0 ∨ namecmp name (cstr "..") = 0 then do
            iunlockput dp
            end_op
            return -1
          else
            match ← dirlookup dp name with
            | none => do
                iunlockput dp
                end_op
                return -1
            | some (ip, off) => do
                ilock ip
                unlinkEntry dp ip off

def setCwd (p : Fin NPROC) (cwd : Option (Fin NINODE)) : FsM Unit :=
  modify fun s => { s with files := { s.files with
    kernel := s.files.kernel.setProc p { s.files.kernel.proc p with cwd := cwd } } }

/-- `iput(proc->cwd)` -/
def putCwd (p : Fin NPROC) : FsM Unit := do
  let s ← get
  match (s.files.kernel.proc p).cwd with
  | none => throw .null
  | some cwd => iput cwd

def sys_chdir (p : Fin NPROC) (path : Option (List Uchar)) : FsM CInt := do
  begin_op
  match path with
  | none => do
      end_op
      return -1
  | some path =>
    match ← namei p path with
    | none => do
        end_op
        return -1
    | some ip => do
        ilock ip
        let s ← get
        if (s.icache ip).type ≠ .T_DIR then do
          iunlockput ip
          end_op
          return -1
        else do
          iunlock ip
          putCwd p
          end_op
          setCwd p (some ip)
          return 0

def openFd (s : FS) (p : Fin NPROC) (fd : CInt) : Option (Fin NOFILE × Fin NFILE) :=
  if inRange : 0 ≤ fd.toInt ∧ fd.toInt.toNat < NOFILE then
    ((s.files.kernel.proc p).ofile ⟨fd.toInt.toNat, inRange.2⟩).map fun f =>
      (⟨fd.toInt.toNat, inRange.2⟩, f)
  else none

def sys_close (p : Fin NPROC) (fd : CInt) : FsM CInt := do
  let s ← get
  match openFd s p fd with
  | none => return -1
  | some (fd, f) => do
      setFiles (s.files.setOfile p fd none)
      fileclose p f
      return 0

/-- The loop of `exit` over the descriptors still to be closed. -/
def closeAll (p : Fin NPROC) : List (Fin NOFILE) → FsM Unit
  | [] => return
  | fd :: rest => do
      let s ← get
      match (s.files.kernel.proc p).ofile fd with
      | none => closeAll p rest
      | some f => do
          fileclose p f
          modify fun s => { s with files := s.files.setOfile p fd none }
          closeAll p rest

def exit (p : Fin NPROC) : FsM Unit := do
  let s ← get
  if s.files.kernel.initproc = some p then throw .initExiting
  else do
    let k := s.files.kernel
    setFiles { s.files with
      kernel := k.record (some p) TRACE_TYPE_PROC (k.proc p).pid 0 0 0 "exit" }
    closeAll p (List.finRange NOFILE)
    begin_op
    putCwd p
    end_op
    setCwd p none
    modify fun s =>
      let k := reparent s.files.kernel p
      { s with files := { s.files with
        kernel := k.setProc p { k.proc p with state := .ZOMBIE } } }

inductive FsOp where
  | open_ (p : Fin NPROC) (path : Option (List Uchar)) (omode : CInt)
  | mkdir (p : Fin NPROC) (path : Option (List Uchar))
  | mknod (p : Fin NPROC) (path : Option (List Uchar)) (major minor : CInt)
  | link (p : Fin NPROC) (old new : Option (List Uchar))
  | unlink (p : Fin NPROC) (path : Option (List Uchar))
  | chdir (p : Fin NPROC) (path : Option (List Uchar))
  | close (p : Fin NPROC) (fd : CInt)
  | exit (p : Fin NPROC)

def FsOp.caller : FsOp → Fin NPROC
  | .open_ p _ _ | .mkdir p _ | .mknod p _ _ _ | .link p _ _ | .unlink p _ | .chdir p _
  | .close p _ | .exit p => p

def call : FsOp → FsM Unit
  | .open_ p path omode => discard (sys_open p path omode)
  | .mkdir p path => discard (sys_mkdir p path)
  | .mknod p path major minor => discard (sys_mknod p path major minor)
  | .link p old new => discard (sys_link p old new)
  | .unlink p path => discard (sys_unlink p path)
  | .chdir p path => discard (sys_chdir p path)
  | .close p fd => discard (sys_close p fd)
  | .exit p => exit p

def step (s : FS) (op : FsOp) : Option FS :=
  if (s.files.kernel.proc op.caller).state = .RUNNING then
    match call op s with
    | .ok (_, t) => some t
    | .error _ => none
  else none

end Xv6Tracing.Fs
