import Xv6Tracing.Fs.Calls

/-!
# Path lookups and the log

Looking up a path, locking inodes and putting them back neither begins nor ends an
operation of the log.
-/

set_option autoImplicit false

namespace Xv6Tracing.Fs

open Lib Process Ftable

theorem keeps_modifyInode (a : Fin NINODE) (f : Inode → Inode) :
    Keeps FS.outstanding (modifyInode a f) := keeps_modify fun _ => rfl

theorem keeps_iget (inum : Nat) : Keeps FS.outstanding (iget inum) := by
  refine keeps_get_bind fun s => ?_
  split
  · exact rfl
  · split
    · exact trivial
    · exact rfl

section

variable (a : Fin NINODE)

include a

theorem keeps_idup : Keeps FS.outstanding (idup a) :=
  (keeps_modifyInode a _).bind fun _ => keeps_pure a

theorem keeps_ilock : Keeps FS.outstanding (ilock a) := by
  refine keeps_get_bind fun s => ?_
  split
  · exact trivial
  · split
    · exact trivial
    · refine ((keeps_modifyInode a _).bind fun _ => ?_) s
      split
      · exact keeps_pure _
      · refine (keeps_modifyInode a _).bind fun _ => ?_
        split
        · exact keeps_throw _
        · exact keeps_pure _

theorem keeps_iunlock : Keeps FS.outstanding (iunlock a) := by
  refine keeps_get_bind fun s => ?_
  split
  · exact trivial
  · exact keeps_modifyInode a _ s

theorem keeps_iupdate : Keeps FS.outstanding (iupdate a) :=
  keeps_modify fun _ => rfl

theorem keeps_itrunc : Keeps FS.outstanding (itrunc a) :=
  (keeps_modify fun _ => rfl).bind fun _ => keeps_iupdate a

theorem keeps_iput : Keeps FS.outstanding (iput a) := by
  refine keeps_get_bind fun s => ?_
  dsimp only
  split
  · exact ((keeps_itrunc a).bind fun _ => (keeps_modifyInode a _).bind fun _ =>
      (keeps_iupdate a).bind fun _ => (keeps_modifyInode a _).bind fun _ =>
        keeps_modifyInode a _) s
  · exact keeps_modifyInode a _ s

theorem keeps_iunlockput : Keeps FS.outstanding (iunlockput a) :=
  (keeps_iunlock a).bind fun _ => keeps_iput a

end

theorem keeps_dirlookup (dp : Fin NINODE) (name : Name) :
    Keeps FS.outstanding (dirlookup dp name) := by
  refine keeps_get_bind fun s => ?_
  split
  · exact trivial
  · split
    · exact rfl
    · exact ((keeps_iget _).bind fun _ => keeps_pure _) s

theorem keeps_namexLoop (parent : Bool) : ∀ (fuel : Nat) (ip : Fin NINODE) (path : List Uchar),
    Keeps FS.outstanding (namexLoop parent fuel ip path) := by
  intro fuel
  induction fuel with
  | zero => intro ip path; exact keeps_pure _
  | succ fuel ih =>
    intro ip path
    unfold namexLoop
    split
    · split
      · exact (keeps_iput ip).bind fun _ => keeps_pure _
      · exact keeps_pure _
    · refine (keeps_ilock ip).bind fun _ => keeps_get_bind fun s => ?_
      split
      · exact ((keeps_iunlockput ip).bind fun _ => keeps_pure _) s
      · split
        · exact ((keeps_iunlock ip).bind fun _ => keeps_pure _) s
        · refine ((keeps_dirlookup ip _).bind fun found => ?_) s
          cases found with
          | none => exact (keeps_iunlockput ip).bind fun _ => keeps_pure _
          | some entry => exact (keeps_iunlockput ip).bind fun _ => ih entry.1 _

theorem keeps_namei (p : Fin NPROC) (path : List Uchar) : Keeps FS.outstanding (namei p path) := by
  refine Keeps.bind (keeps_get_bind fun s => ?_) fun _ => keeps_pure _
  dsimp only
  split
  · exact ((keeps_iget _).bind fun ip => keeps_namexLoop false _ ip path) s
  · split
    · exact trivial
    · exact ((keeps_idup _).bind fun ip => keeps_namexLoop false _ ip path) s

end Xv6Tracing.Fs
