import Xv6Tracing.Ktrace.Fifo

/-!
# Reads that fail

`traceread` moves `readseq` before it calls `copyout`.  When the copy fails the
event is neither delivered nor unread nor counted as overwritten.  A failed
read therefore always loses one event, and the accounting of a run is exact if
and only if no read of it comes to a copy that fails.
-/

set_option autoImplicit false

namespace Xv6Tracing.Ktrace

open Vm Lib

/-- What a read whose copy `k` is the first to fail has to leave: the number
copied as its result, and the event that failed and all later ones unread, for
the next reads to deliver in order. -/
structure KeepsFrom (buf : TraceBuffer) (k : Nat) (r : ReadResult) : Prop where
  ret : r.ret = if k = 0 then -1 else BitVec.ofNat 32 k
  readseq : r.buf.readseq = buf.readseq + BitVec.ofNat 32 k
  unread : r.buf.oldest r.buf.unread = (buf.oldest buf.unread).drop k
  next : ∀ pgdir dst max_events r', 0 < max_events.toInt →
    (∀ i, i < wanted r.buf max_events → CopySucceeds pgdir dst i) →
    traceread pgdir r.buf r.mem dst max_events = some r' →
      r'.copied = ((buf.oldest buf.unread).drop k).take max_events.toInt.toNat

def FailedReadKeeps (w : World) : TraceOp → Prop
  | .event _ => True
  | .read pgdir dst max_events =>
    0 < max_events.toInt → ∀ k, k < wanted w.buf max_events →
      (∀ i, i < k → CopySucceeds pgdir dst i) → CopyFails pgdir dst k →
      ∀ r, traceread pgdir w.buf w.mem dst max_events = some r → KeepsFrom w.buf k r

/-- The call comes to no copy that fails: among the events it goes for there is
none whose copy fails after all earlier ones succeeded. -/
def NoCopyFails (w : World) : TraceOp → Prop
  | .event _ => True
  | .read pgdir dst max_events =>
    ∀ k, k < wanted w.buf max_events → (∀ i, i < k → CopySucceeds pgdir dst i) →
      ¬ CopyFails pgdir dst k

theorem ofNat_ne_ofNat_succ (a : Uint) (k : Nat) :
    a + BitVec.ofNat 32 (k + 1) ≠ a + BitVec.ofNat 32 k := by
  rw [BitVec.ofNat_add]
  generalize BitVec.ofNat 32 k = b
  bv_omega

theorem wanted_pos_of_lt {buf : TraceBuffer} {max_events : CInt} {k : Nat}
    (attempted : k < wanted buf max_events) : 0 < max_events.toInt := by
  simp only [wanted] at attempted
  omega

/-- No read that comes to a failing copy keeps the event it could not copy. -/
theorem failedReadKeeps_iff (w : World) (op : TraceOp) :
    FailedReadKeeps w op ↔ NoCopyFails w op := by
  cases op with
  | event call => exact Iff.rfl
  | read pgdir dst max_events =>
    constructor
    · intro keeps k attempted succeed fails
      have positive := wanted_pos_of_lt attempted
      obtain ⟨r, call, _, _, bufEq⟩ := traceread_of_fail pgdir w.buf w.mem dst max_events
        positive k attempted succeed fails
      have kept := (keeps positive k attempted succeed fails r call).readseq
      rw [bufEq] at kept
      exact ofNat_ne_ofNat_succ _ _ kept
    · intro none positive k attempted succeed fails
      exact absurd fails (none k attempted succeed)

/-- A read that has a result and comes to no failing copy copied all it went for. -/
theorem copiesSucceed_of_step {w w' : World} {op : TraceOp} (none : NoCopyFails w op)
    (stepped : step w op = some w') : CopiesSucceed w op := by
  cases op with
  | event call => trivial
  | read pgdir dst max_events =>
    intro i bound
    have positive := wanted_pos_of_lt bound
    simp only [step] at stepped
    cases call : traceread pgdir w.buf w.mem dst max_events with
    | none => simp [call] at stepped
    | some r =>
      obtain ⟨done, _, succeed, outcome⟩ :=
        traceread_spec pgdir w.buf w.mem dst max_events r call positive
      cases outcome with
      | drained all _ _ _ =>
        apply succeed
        rw [all]
        exact bound
      | refused less _ refusal _ _ =>
        rw [Nat.zero_add] at refusal
        exact absurd refusal (none done less succeed)

def Refined (w : World) : Prop := ∃ fifo, RefinesFifo w fifo

theorem refined_step (w : World) (op : TraceOp) (w' : World) (refined : Refined w)
    (none : NoCopyFails w op) (stepped : step w op = some w') : Refined w' := by
  obtain ⟨fifo, refines⟩ := refined
  have succeed := copiesSucceed_of_step none stepped
  cases op with
  | event call =>
    obtain ⟨w'', stepped', _, refines'⟩ := refinesFifo_event refines call
    cases Option.some.inj (stepped.symm.trans stepped')
    exact ⟨_, refines'⟩
  | read pgdir dst max_events => grind [refinesFifo_read, Refined]

/-- A run of reads and writes loses no event to a failed copy, and accounts for
every event at every point, exactly when none of its reads comes to a copy that
fails. -/
theorem failed_copies_lose_nothing_iff (buf : TraceBuffer) (mem : Mem) (ops : List TraceOp) :
    (Along step FailedReadKeeps (boot buf mem) ops ∧
        Throughout step Accounted (boot buf mem) ops) ↔
      Along step NoCopyFails (boot buf mem) ops := by
  constructor
  · intro holds
    exact (along_congr failedReadKeeps_iff ops _).mp holds.1
  · intro none
    refine ⟨(along_congr failedReadKeeps_iff ops _).mpr none, ?_⟩
    exact throughout_of_along refined_step (fun w ⟨_, refines⟩ => refines.accounted) ops
      (boot buf mem) ⟨_, refinesFifo_boot buf mem⟩ none

/-- One recorded event and one read to a page that is not present: the event is
recorded, yet it is neither delivered, nor unread, nor counted as overwritten. -/
theorem failed_copy_loses_event :
    ¬ (Along step FailedReadKeeps (boot TraceBuffer.bss fun _ => 0)
          [.event kernelCall, .read emptyPgdir 4096 1] ∧
        Throughout step Accounted (boot TraceBuffer.bss fun _ => 0)
          [.event kernelCall, .read emptyPgdir 4096 1]) := by
  rintro ⟨-, accounted⟩
  obtain ⟨-, afterEvent⟩ := accounted
  obtain ⟨-, afterRead⟩ := afterEvent _ rfl
  have final : Accounted _ := afterRead _ rfl
  exact absurd final (by decide)

end Xv6Tracing.Ktrace
