import Xv6Tracing.Log.Commit

/-!
# Group commit

`begin_op`, `log_write` and `end_op` of `log.c`, and the commit that `end_op`
runs without the lock, for any number of processes.  A step is one critical
section of `log.lock`, the unlocked test at the start of `log_write`, or one
move of the committing process, which issues at most one disk write.

A process begins no second operation between `begin_op` and `end_op`.
-/

set_option autoImplicit false

namespace Xv6Tracing.Log

universe u

/-- Where the committing process is in `commit` and the end of `end_op`. -/
inductive CommitPc where
  | start
  | write_log (tail : Nat)
  | write_head
  | install_trans (tail : Nat)
  | clear
  | erase
  | finish
deriving DecidableEq, Repr

/-- Where a process is: outside; back in the loop of `begin_op` after a wakeup;
asleep there; in an operation; inside `log_write` past its test; committing. -/
inductive Pc where
  | idle
  | retry
  | sleeping
  | inOp
  | logging (b : BlockNo)
  | committing (stage : CommitPc)
deriving DecidableEq, Repr

/-- Between the end of `begin_op` and the start of `end_op`. -/
def Pc.InOp : Pc → Prop
  | .inOp | .logging _ => True
  | _ => False

instance : DecidablePred Pc.InOp := fun pc =>
  match pc with
  | .inOp | .logging _ => isTrue trivial
  | .idle | .retry | .sleeping | .committing _ => isFalse id

inductive LogPanic where
  | tooBig
  | outsideOfTrans
  | committing
deriving DecidableEq, Repr

/-- The in-memory log.  The last four fields are history: the blocks logged so
far by each operation in progress; those logged by operations of the open group
that have called `end_op`; and, of the last commit, the header it took and the
blocks that ended operations had logged, with the disk writes it has issued. -/
structure LogState (P : Type u) where
  outstanding : Int
  committing : Bool
  lh : LogHeader
  pc : P → Pc
  panic : Option LogPanic
  current : P → Finset BlockNo
  ended : Finset BlockNo
  txn : LogHeader
  sources : Finset BlockNo
  issued : List DiskWrite

section Steps

variable {P : Type u} [DecidableEq P]

def LogState.initial (P : Type u) : LogState P where
  outstanding := 0
  committing := false
  lh := .empty
  pc := fun _ => .idle
  panic := none
  current := fun _ => ∅
  ended := ∅
  txn := .empty
  sources := ∅
  issued := []

def LogState.setPc (s : LogState P) (p : P) (pc : Pc) : LogState P :=
  { s with pc := Function.update s.pc p pc }

/-- `wakeup(&log)`: every sleeper is back in the loop of `begin_op`. -/
def LogState.wakeup (s : LogState P) : LogState P :=
  { s with pc := fun p => if s.pc p = .sleeping then .retry else s.pc p }

def begin_op (s : LogState P) (p : P) : LogState P :=
  if s.committing then s.setPc p .sleeping
  else if (s.lh.block.length : Int) + (s.outstanding + 1) * MAXOPBLOCKS > LOGSIZE then
    s.setPc p .sleeping
  else { s.setPc p .inOp with outstanding := s.outstanding + 1 }

/-- The test of `log_write`, made without the lock. -/
def log_write (log : LogArea) (s : LogState P) (p : P) (b : BlockNo) : LogState P :=
  if LOGSIZE ≤ s.lh.block.length ∨ (log.size : Int) - 1 ≤ s.lh.block.length then
    { s with panic := some .tooBig }
  else if s.outstanding < 1 then { s with panic := some .outsideOfTrans }
  else s.setPc p (.logging b)

/-- The header with the block in it; an entry past the end of the array has no
defined result. -/
def LogHeader.insert (lh : LogHeader) (b : BlockNo) : Option LogHeader :=
  if b ∈ lh.block then some lh
  else if room : lh.block.length < LOGSIZE then
    some ⟨lh.block ++ [b], by simpa using room⟩
  else none

/-- The locked part of `log_write`. -/
def append (s : LogState P) (p : P) (b : BlockNo) : Option (LogState P) :=
  (s.lh.insert b).map fun lh =>
    { s.setPc p .inOp with
      lh := lh
      current := Function.update s.current p (insert b (s.current p)) }

def end_op (s : LogState P) (p : P) : LogState P :=
  let ended : LogState P :=
    { s with
      outstanding := s.outstanding - 1
      current := Function.update s.current p ∅
      ended := s.ended ∪ s.current p }
  if s.committing then { ended with panic := some .committing }
  else if ended.outstanding = 0 then
    { ended.setPc p (.committing .start) with
      committing := true
      txn := s.lh
      sources := ended.ended
      issued := [] }
  else ended.wakeup.setPc p .idle

/-- One move of `commit` or of the end of `end_op`. -/
def commitStep (log : LogArea) (s : LogState P) (p : P) : CommitPc → LogState P
  | .start =>
    s.setPc p (.committing (if 0 < s.lh.block.length then .write_log 0 else .finish))
  | .write_log tail =>
    match s.lh.block[tail]? with
    | some b =>
      { s.setPc p (.committing (.write_log (tail + 1))) with
        issued := s.issued ++ [.copy b (log.slot tail)] }
    | none => s.setPc p (.committing .write_head)
  | .write_head =>
    { s.setPc p (.committing (.install_trans 0)) with issued := s.issued ++ [.head s.lh] }
  | .install_trans tail =>
    match s.lh.block[tail]? with
    | some b =>
      { s.setPc p (.committing (.install_trans (tail + 1))) with
        issued := s.issued ++ [.copy (log.slot tail) b] }
    | none => s.setPc p (.committing .clear)
  | .clear =>
    { s.setPc p (.committing .erase) with lh := .empty, ended := ∅ }
  | .erase =>
    { s.setPc p (.committing .finish) with issued := s.issued ++ [.head s.lh] }
  | .finish => { s.wakeup.setPc p .idle with committing := false }

inductive LogOp (P : Type u) where
  | begin_op (p : P)
  | wake (p : P)
  | log_write (p : P) (b : BlockNo)
  | append (p : P)
  | end_op (p : P)
  | commit (p : P)

/-- One step of one process.  `wake` is a wakeup for another reason, a `kill`. -/
def step (log : LogArea) (s : LogState P) (op : LogOp P) : Option (LogState P) :=
  if s.panic.isSome then none
  else
    match op with
    | .begin_op p => if s.pc p = .idle ∨ s.pc p = .retry then some (begin_op s p) else none
    | .wake p => if s.pc p = .sleeping then some (s.setPc p .retry) else none
    | .log_write p b => if s.pc p = .inOp then some (log_write log s p b) else none
    | .append p =>
      match s.pc p with
      | .logging b => append s p b
      | _ => none
    | .end_op p => if s.pc p = .inOp then some (end_op s p) else none
    | .commit p =>
      match s.pc p with
      | .committing stage => some (commitStep log s p stage)
      | _ => none

/-! ## What a step can be -/

/-- The cases of `step`, each with the tests that lead to it. -/
inductive Move (log : LogArea) (s : LogState P) : LogOp P → LogState P → Prop where
  | refused (p : P) (outside : s.pc p = .idle ∨ s.pc p = .retry)
      (full : s.committing = true ∨
        (LOGSIZE : Int) < s.lh.block.length + (s.outstanding + 1) * MAXOPBLOCKS) :
      Move log s (.begin_op p) (s.setPc p .sleeping)
  | admitted (p : P) (outside : s.pc p = .idle ∨ s.pc p = .retry) (open_ : s.committing = false)
      (room : (s.lh.block.length : Int) + (s.outstanding + 1) * MAXOPBLOCKS ≤ LOGSIZE) :
      Move log s (.begin_op p) { s.setPc p .inOp with outstanding := s.outstanding + 1 }
  | woken (p : P) (asleep : s.pc p = .sleeping) : Move log s (.wake p) (s.setPc p .retry)
  | tooBig (p : P) (b : BlockNo) (here : s.pc p = .inOp)
      (full : LOGSIZE ≤ s.lh.block.length ∨ (log.size : Int) - 1 ≤ s.lh.block.length) :
      Move log s (.log_write p b) { s with panic := some .tooBig }
  | outsideOfTrans (p : P) (b : BlockNo) (here : s.pc p = .inOp) (none : s.outstanding < 1) :
      Move log s (.log_write p b) { s with panic := some .outsideOfTrans }
  | tested (p : P) (b : BlockNo) (here : s.pc p = .inOp)
      (room : (s.lh.block.length : Int) < log.size - 1) :
      Move log s (.log_write p b) (s.setPc p (.logging b))
  | appended (p : P) (b : BlockNo) (lh : LogHeader) (here : s.pc p = .logging b)
      (inserted : s.lh.insert b = some lh) :
      Move log s (.append p) { s.setPc p .inOp with
        lh := lh
        current := Function.update s.current p (insert b (s.current p)) }
  | panicked (p : P) (here : s.pc p = .inOp) (busy : s.committing = true) :
      Move log s (.end_op p) { s with
        outstanding := s.outstanding - 1
        current := Function.update s.current p ∅
        ended := s.ended ∪ s.current p
        panic := some .committing }
  | last (p : P) (here : s.pc p = .inOp) (open_ : s.committing = false)
      (alone : s.outstanding = 1) :
      Move log s (.end_op p) { s.setPc p (.committing .start) with
        outstanding := 0
        current := Function.update s.current p ∅
        ended := s.ended ∪ s.current p
        committing := true
        txn := s.lh
        sources := s.ended ∪ s.current p
        issued := [] }
  | left (p : P) (here : s.pc p = .inOp) (open_ : s.committing = false)
      (others : s.outstanding ≠ 1) :
      Move log s (.end_op p) { s.wakeup.setPc p .idle with
        outstanding := s.outstanding - 1
        current := Function.update s.current p ∅
        ended := s.ended ∪ s.current p }
  | commit (p : P) (stage : CommitPc) (here : s.pc p = .committing stage) :
      Move log s (.commit p) (commitStep log s p stage)

theorem step_move {log : LogArea} {s t : LogState P} {op : LogOp P}
    (taken : step log s op = some t) : s.panic = none ∧ Move log s op t := by
  unfold step at taken
  split at taken
  · simp at taken
  · rename_i running
    refine ⟨by simpa using running, ?_⟩
    cases op with
    | begin_op p =>
      simp only at taken
      split at taken
      · rename_i outside
        cases Option.some.inj taken
        rw [begin_op]
        split
        · rename_i busy
          exact .refused p outside (Or.inl busy)
        · rename_i idle
          split
          · rename_i full
            exact .refused p outside (Or.inr full)
          · rename_i room
            exact .admitted p outside (by simpa using idle) (by omega)
      · simp at taken
    | wake p =>
      simp only at taken
      split at taken
      · rename_i asleep
        cases Option.some.inj taken
        exact .woken p asleep
      · simp at taken
    | log_write p b =>
      simp only at taken
      split at taken
      · rename_i here
        cases Option.some.inj taken
        rw [log_write]
        split
        · rename_i full
          exact .tooBig p b here full
        · rename_i room
          split
          · rename_i none
            exact .outsideOfTrans p b here none
          · exact .tested p b here (by omega)
      · simp at taken
    | append p =>
      simp only at taken
      split at taken
      · rename_i b here
        obtain ⟨lh, inserted, rfl⟩ := Option.map_eq_some_iff.mp taken
        exact .appended p b lh here inserted
      · simp at taken
    | end_op p =>
      simp only at taken
      split at taken
      · rename_i here
        cases Option.some.inj taken
        simp only [end_op]
        split
        · rename_i busy
          exact .panicked p here busy
        · rename_i idle
          have open_ : s.committing = false := by simpa using idle
          split
          · rename_i zero
            have alone : s.outstanding = 1 := by omega
            simp only [alone]
            exact .last p here open_ alone
          · rename_i more
            exact .left p here open_ (by omega)
      · simp at taken
    | commit p =>
      simp only at taken
      split at taken
      · rename_i stage here
        cases Option.some.inj taken
        exact .commit p stage here
      · simp at taken

end Steps

end Xv6Tracing.Log
