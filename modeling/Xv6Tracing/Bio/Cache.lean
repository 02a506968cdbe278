import Xv6Tracing.Lib.Count
import Xv6Tracing.Lib.Ring
import Xv6Tracing.Lib.Run

/-!
# The buffer cache

`bget`, `bread`, `bwrite` and `brelse` of `bio.c`, what `log_write` does to the buffer,
and `iderw` of `memide.c`.  A step is one critical section of `bcache.lock`, taking or
releasing a buffer's sleep lock, one call of `iderw`, or one change of a locked buffer.

Any number of buffers is in use at once, each by a caller that is at some point between
`bget` and the end of `brelse`; a process, or a commit, is several callers.  A caller
that changes the data calls `bwrite` or `log_write` before `brelse`.
-/

set_option autoImplicit false

namespace Xv6Tracing.Bio

open Lib

universe u

/-- `MAXOPBLOCKS*3` -/
def NBUF : Nat := 30

/-- `struct buf`; `valid` and `dirty` are `B_VALID` and `B_DIRTY`. -/
structure Buf (D : Type) where
  valid : Bool
  dirty : Bool
  dev : Nat
  blockno : Nat
  locked : Bool
  refcnt : Nat
  data : D

/-- Where a caller is: it has no buffer; `bget` has found one and waits for its lock;
it has the lock but `bread` has not looked at `B_VALID`; `bread` has returned; the data
have been changed since; `brelse` has released the lock.  The block is the one the
caller asked for. -/
inductive Pc where
  | none
  | waiting (b : Fin NBUF) (dev blockno : Nat)
  | loading (b : Fin NBUF) (dev blockno : Nat)
  | holding (b : Fin NBUF) (dev blockno : Nat)
  | changed (b : Fin NBUF) (dev blockno : Nat)
  | released (b : Fin NBUF)
deriving DecidableEq, Repr

def Pc.entry : Pc → Option (Fin NBUF)
  | .none => Option.none
  | .waiting b _ _ | .loading b _ _ | .holding b _ _ | .changed b _ _ | .released b => some b

def Pc.lock : Pc → Option (Fin NBUF)
  | .loading b _ _ | .holding b _ _ | .changed b _ _ => some b
  | .none | .waiting _ _ _ | .released _ => Option.none

def Pc.asked : Pc → Option (Fin NBUF × Nat × Nat)
  | .waiting b dev blockno | .loading b dev blockno | .holding b dev blockno
  | .changed b dev blockno => some (b, dev, blockno)
  | .none | .released _ => Option.none

def Pc.dirtied : Pc → Option (Fin NBUF)
  | .changed b _ _ => some b
  | .none | .waiting _ _ _ | .loading _ _ _ | .holding _ _ _ | .released _ => Option.none

/-- `written` is history: what was last written to each block of the disk by `bwrite`
or `log_write`, or the block itself if nothing was. -/
structure Bcache (R : Type u) (D : Type) where
  disksize : Nat
  disk : Nat → D
  buf : Fin NBUF → Buf D
  links : Links (Fin NBUF)
  pc : R → Pc
  written : Nat → D

/-- `binit` puts the buffers in front of the list one after the other. -/
def binit (R : Type u) {D : Type} (disksize : Nat) (disk : Nat → D) (zero : D) : Bcache R D where
  disksize := disksize
  disk := disk
  buf := fun _ => ⟨false, false, 0, 0, false, 0, zero⟩
  links := (List.finRange NBUF).foldl Links.pushFront Links.empty
  pc := fun _ => .none
  written := disk

section Steps

variable {R : Type u} [DecidableEq R] {D : Type}

def Bcache.setPc (s : Bcache R D) (r : R) (pc : Pc) : Bcache R D :=
  { s with pc := Function.update s.pc r pc }

def Bcache.setBuf (s : Bcache R D) (b : Fin NBUF) (bp : Buf D) : Bcache R D :=
  { s with buf := Function.update s.buf b bp }

/-- The first loop of `bget`: is the block cached? -/
def lookup (s : Bcache R D) (dev blockno : Nat) : Option (Fin NBUF) :=
  (walk s.links.next (NBUF + 1) (s.links.next none)).find? fun b =>
    decide ((s.buf b).dev = dev ∧ (s.buf b).blockno = blockno)

def victim (s : Bcache R D) : Option (Fin NBUF) :=
  (walk s.links.prev (NBUF + 1) (s.links.prev none)).find? fun b =>
    decide ((s.buf b).refcnt = 0 ∧ (s.buf b).dirty = false)

/-- The critical section of `bget`; `none` is `panic("bget: no buffers")`. -/
def bget (s : Bcache R D) (r : R) (dev blockno : Nat) : Option (Bcache R D) :=
  match lookup s dev blockno with
  | some b =>
    some ((s.setBuf b { s.buf b with refcnt := (s.buf b).refcnt + 1 }).setPc r
      (.waiting b dev blockno))
  | none =>
    match victim s with
    | none => none
    | some b =>
      some ((s.setBuf b { s.buf b with
        dev := dev, blockno := blockno, valid := false, dirty := false, refcnt := 1 }).setPc r
          (.waiting b dev blockno))

/-- `acquiresleep`, which waits while another caller has the lock. -/
def acquire (s : Bcache R D) (r : R) (b : Fin NBUF) (dev blockno : Nat) : Option (Bcache R D) :=
  if (s.buf b).locked then none
  else some ((s.setBuf b { s.buf b with locked := true }).setPc r (.loading b dev blockno))

/-- Sync the buffer with the disk; the panics are `none`. -/
def iderw (s : Bcache R D) (b : Fin NBUF) : Option (Bcache R D) :=
  let bp := s.buf b
  if bp.locked = false then none
  else if bp.valid = true ∧ bp.dirty = false then none
  else if bp.dev ≠ 1 then none
  else if s.disksize ≤ bp.blockno then none
  else if bp.dirty then
    some { s.setBuf b { bp with dirty := false, valid := true } with
      disk := Function.update s.disk bp.blockno bp.data }
  else some (s.setBuf b { bp with data := s.disk bp.blockno, valid := true })

def load (s : Bcache R D) (r : R) (b : Fin NBUF) (dev blockno : Nat) : Option (Bcache R D) :=
  if (s.buf b).valid then some (s.setPc r (.holding b dev blockno))
  else (iderw s b).map fun s => s.setPc r (.holding b dev blockno)

def change (s : Bcache R D) (r : R) (b : Fin NBUF) (dev blockno : Nat) (data : D) : Bcache R D :=
  (s.setBuf b { s.buf b with data := data }).setPc r (.changed b dev blockno)

def Bcache.write (s : Bcache R D) (b : Fin NBUF) : Bcache R D :=
  { s with written := Function.update s.written (s.buf b).blockno (s.buf b).data }

def bwrite (s : Bcache R D) (r : R) (b : Fin NBUF) (dev blockno : Nat) : Option (Bcache R D) :=
  (iderw (s.setBuf b { s.buf b with dirty := true }) b).map fun s =>
    (s.write b).setPc r (.holding b dev blockno)

/-- `b->flags |= B_DIRTY`; the rest of `log_write` concerns the log. -/
def log_write (s : Bcache R D) (r : R) (b : Fin NBUF) (dev blockno : Nat) : Bcache R D :=
  ((s.setBuf b { s.buf b with dirty := true }).write b).setPc r (.holding b dev blockno)

def release (s : Bcache R D) (r : R) (b : Fin NBUF) : Option (Bcache R D) :=
  if (s.buf b).locked then some ((s.setBuf b { s.buf b with locked := false }).setPc r (.released b))
  else none

def brelse (s : Bcache R D) (r : R) (b : Fin NBUF) : Bcache R D :=
  let t := (s.setBuf b { s.buf b with refcnt := (s.buf b).refcnt - 1 }).setPc r .none
  if (t.buf b).refcnt = 0 then { t with links := (t.links.unlink b).pushFront b } else t

inductive Op (R : Type u) (D : Type) where
  | bget (r : R) (dev blockno : Nat)
  | acquire (r : R)
  | load (r : R)
  | change (r : R) (data : D)
  | bwrite (r : R)
  | log_write (r : R)
  | release (r : R)
  | brelse (r : R)

def step (s : Bcache R D) : Op R D → Option (Bcache R D)
  | .bget r dev blockno => if s.pc r = .none then bget s r dev blockno else none
  | .acquire r =>
    match s.pc r with
    | .waiting b dev blockno => acquire s r b dev blockno
    | _ => none
  | .load r =>
    match s.pc r with
    | .loading b dev blockno => load s r b dev blockno
    | _ => none
  | .change r data =>
    match s.pc r with
    | .holding b dev blockno | .changed b dev blockno => some (change s r b dev blockno data)
    | _ => none
  | .bwrite r =>
    match s.pc r with
    | .holding b dev blockno | .changed b dev blockno => bwrite s r b dev blockno
    | _ => none
  | .log_write r =>
    match s.pc r with
    | .holding b dev blockno | .changed b dev blockno => some (log_write s r b dev blockno)
    | _ => none
  | .release r =>
    match s.pc r with
    | .holding b _ _ => release s r b
    | _ => none
  | .brelse r =>
    match s.pc r with
    | .released b => some (brelse s r b)
    | _ => none

end Steps

end Xv6Tracing.Bio
