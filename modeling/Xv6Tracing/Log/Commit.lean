import Xv6Tracing.Params
import Xv6Tracing.Lib.Store

/-!
# The redo log on disk

`write_log`, `write_head`, `install_trans`, `read_head`, `commit` and
`recover_from_log` of `log.c`.  Each is the list of its single-block disk
writes in issue order, so that a crash is a prefix.  The store's view is what
`bread` returns; `bwrite` writes it through.
-/

set_option autoImplicit false

namespace Xv6Tracing.Log

open Lib

abbrev BlockNo := BitVec 32

/-- A block of `BSIZE` = 512 bytes, as 32-bit words. -/
abbrev Block := Fin 128 → BitVec 32

abbrev Disk := BlockNo → Block

/-- `log.start` and `log.size`.  Block numbers in the log do not overflow an `int`. -/
structure LogArea where
  start : BlockNo
  size : Nat
  fits : start.toNat + size < 2 ^ 31

/-- The log area `mkfs` lays out: `nlog` is `LOGSIZE`, from block 2 on. -/
def mkfsLog : LogArea := ⟨2, LOGSIZE, by decide⟩

/-- The log block of the entry `tail`: `log.start+tail+1`. -/
def LogArea.slot (log : LogArea) (tail : Nat) : BlockNo := log.start + BitVec.ofNat 32 (tail + 1)

def LogArea.Holds (log : LogArea) (b : BlockNo) : Prop :=
  log.start.toNat ≤ b.toNat ∧ b.toNat < log.start.toNat + log.size

/-- `struct logheader`; `n` is the length of `block`. -/
structure LogHeader where
  block : List BlockNo
  bounded : block.length ≤ LOGSIZE

def LogHeader.empty : LogHeader := ⟨[], Nat.zero_le _⟩

/-- The header buffer after `write_head` filled it in; words past the entries
keep what they held. -/
def headBlock (lh : LogHeader) (old : Block) : Block := fun word =>
  if word = 0 then BitVec.ofNat 32 lh.block.length
  else (lh.block[word.val - 1]?).getD (old word)

/-- The on-disk `n`, an `int`. -/
def headCount (head : Block) : Int := (head 0).toInt

/-- `read_head`.  A count above `LOGSIZE` would run over the end of
`log.lh.block`; it has no result. -/
def read_head (head : Block) : Option LogHeader :=
  if bounded : (headCount head).toNat ≤ LOGSIZE then
    some ⟨(List.range (headCount head).toNat).map fun i => head (Fin.ofNat 128 (i + 1)),
      by simpa using bounded⟩
  else none

/-! ## The writes, in order -/

inductive DiskWrite where
  | copy (src dst : BlockNo)
  | head (lh : LogHeader)

def perform (log : LogArea) (s : Store BlockNo Block) : DiskWrite → Store BlockNo Block
  | .copy src dst => s.copy (src, dst)
  | .head lh => s.put log.start (headBlock lh (s.cache log.start))

def performAll (log : LogArea) (writes : List DiskWrite) (s : Store BlockNo Block) :
    Store BlockNo Block :=
  writes.foldl (perform log) s

def LogArea.entries (log : LogArea) (lh : LogHeader) : List (BlockNo × BlockNo) :=
  lh.block.zipIdx.map fun entry => (entry.1, log.slot entry.2)

def write_log (log : LogArea) (lh : LogHeader) : List DiskWrite :=
  (log.entries lh).map fun entry => .copy entry.1 entry.2

def install_trans (log : LogArea) (lh : LogHeader) : List DiskWrite :=
  (log.entries lh).map fun entry => .copy entry.2 entry.1

def write_head (lh : LogHeader) : List DiskWrite := [.head lh]

def commit (log : LogArea) (lh : LogHeader) : List DiskWrite :=
  if 0 < lh.block.length then
    write_log log lh ++ write_head lh ++ install_trans log lh ++ write_head .empty
  else []

/-- The writes of `recover_from_log` on a disk whose header has been read. -/
def recover_from_log (log : LogArea) (disk : Disk) : Option (List DiskWrite) :=
  (read_head (disk log.start)).map fun lh => install_trans log lh ++ write_head .empty

/-! ## Crashes and reboots -/

def crashedCommit (log : LogArea) (lh : LogHeader) (k : Nat) (s : Store BlockNo Block) : Disk :=
  (performAll log ((commit log lh).take k) s).disk

/-- A reboot cut off after `k` disk writes of its recovery. -/
def crashedReboot (log : LogArea) (k : Nat) (disk : Disk) : Option Disk :=
  (recover_from_log log disk).map fun writes =>
    (performAll log (writes.take k) (Store.boot disk)).disk

/-- One reboot after the other, each cut off after the given number of writes. -/
def crashedReboots (log : LogArea) : List Nat → Disk → Option Disk
  | [], disk => some disk
  | k :: ks, disk => do
      let disk ← crashedReboot log k disk
      crashedReboots log ks disk

def completeReboot (log : LogArea) (disk : Disk) : Option Disk :=
  (recover_from_log log disk).map fun writes => (performAll log writes (Store.boot disk)).disk

end Xv6Tracing.Log
