import Xv6Tracing.Ktrace.CopyFailure

/-!
# The loss count a reader sees

`traceevent` copies the loss counter into the event before it decides whether
this very event pushes the oldest one out.  After a drain the last event
delivered therefore reports one loss too few exactly when it was recorded into
a full ring.
-/

set_option autoImplicit false

namespace Xv6Tracing.Ktrace

open Vm Lib

/-- How many events were unread when the last `traceevent` call of a run was
made; nothing when the run has no such call. -/
def unreadAtLastEvent : World → List TraceOp → Option Nat
  | _, [] => none
  | w, op :: ops =>
    match step w op with
    | none => none
    | some w' =>
      match unreadAtLastEvent w' ops, op with
      | some n, _ => some n
      | none, .event _ => some w.buf.unread
      | none, .read _ _ _ => none

/-- The last recorded event carries the loss counter from before its own call. -/
def LastEventCarries (w : World) (unread : Nat) : Prop :=
  ∃ e, w.recorded.getLast? = some e ∧
    w.buf.overwritten = e.overwritten + if unread < TRACE_BUF_SIZE then 0 else 1

variable {fifo : DropFifo Nat} {w : World}

theorem traceevent_overwritten (refines : RefinesFifo w fifo) (call : EventCall) :
    (traceevent w.buf call).overwritten =
      w.buf.overwritten + if w.buf.unread < TRACE_BUF_SIZE then 0 else 1 := by
  have unread := refines.unread_eq
  have bounded := refines.tracks.bounded
  rw [traceevent_of_refines refines call, unread, refines.overwritten]
  by_cases room : fifo.queue.length < TRACE_BUF_SIZE
  · rw [DropFifo.push_of_lt _ _ _ room, if_pos room]
    simp
  · have full : fifo.queue.length = TRACE_BUF_SIZE := by omega
    cases shape : fifo.queue with
    | nil => rw [shape] at full; simp [TRACE_BUF_SIZE] at full
    | cons oldest rest =>
      rw [DropFifo.push_of_full _ _ _ oldest rest shape full, ← shape, if_neg room]
      simp only [List.length_append, List.length_singleton, BitVec.ofNat_add]
      rfl

/-- Over a whole run: either no event was recorded and the counter stands, or
the last one carries the counter as it was before its own call. -/
theorem lastEvent_run : ∀ (ops : List TraceOp) (w w' : World), Refined w →
    Along step CopiesSucceed w ops → run step w ops = some w' →
      (unreadAtLastEvent w ops = none ∧ w'.recorded = w.recorded ∧
          w'.buf.overwritten = w.buf.overwritten) ∨
        ∃ unread, unreadAtLastEvent w ops = some unread ∧ LastEventCarries w' unread := by
  intro ops
  induction ops with
  | nil =>
    intro w w' _ _ finished
    cases Option.some.inj finished
    exact Or.inl ⟨rfl, rfl, rfl⟩
  | cons op ops ih =>
    intro w w' refined copies finished
    obtain ⟨fifo, refines⟩ := refined
    obtain ⟨succeed, later⟩ := copies
    cases op with
    | event call =>
      obtain ⟨w₁, stepped, recorded, refines₁⟩ := refinesFifo_event refines call
      rw [run_cons_of_step stepped] at finished
      right
      rcases ih w₁ w' ⟨_, refines₁⟩ (later w₁ stepped) finished with
        ⟨noEvent, recordedEq, counterEq⟩ | ⟨unread, found, carries⟩
      · refine ⟨w.buf.unread, ?_, newEvent w.buf call, ?_, ?_⟩
        · simp only [unreadAtLastEvent, stepped, noEvent]
        · rw [recordedEq, recorded, List.getLast?_concat]
        · have bufEq : w₁.buf = traceevent w.buf call := by
            cases Option.some.inj stepped
            rfl
          rw [counterEq, bufEq, traceevent_overwritten refines call]
          rfl
      · refine ⟨unread, ?_, carries⟩
        simp only [unreadAtLastEvent, stepped, found]
    | read pgdir dst max_events =>
      obtain ⟨w₁, stepped, recorded, refines₁⟩ :=
        refinesFifo_read refines pgdir dst max_events succeed
      obtain ⟨mem, stepped'⟩ := step_read_of_succeed w pgdir dst max_events succeed
      have counter : w₁.buf.overwritten = w.buf.overwritten := by
        cases Option.some.inj (stepped.symm.trans stepped')
        rfl
      rw [run_cons_of_step stepped] at finished
      rcases ih w₁ w' ⟨_, refines₁⟩ (later w₁ stepped) finished with
        ⟨noEvent, recordedEq, counterEq⟩ | ⟨unread, found, carries⟩
      · left
        refine ⟨?_, by rw [recordedEq, recorded], by rw [counterEq, counter]⟩
        simp only [unreadAtLastEvent, stepped, noEvent]
      · right
        refine ⟨unread, ?_, carries⟩
        simp only [unreadAtLastEvent, stepped, found]

theorem getLast?_oldest (refines : RefinesFifo w fifo) (some_unread : 0 < w.buf.unread) :
    (w.buf.oldest w.buf.unread).getLast? = w.recorded.getLast? := by
  have le := refines.queue_le
  have unread := refines.unread_eq
  have last := refines.unread_event (w.buf.unread - 1) (by omega)
  have index : w.recorded.length - fifo.queue.length + (w.buf.unread - 1) =
      w.recorded.length - 1 := by omega
  rw [index] at last
  rw [List.getLast?_eq_getElem?, List.getLast?_eq_getElem?, last]
  simp only [TraceBuffer.oldest, List.length_map, List.length_range]
  rw [List.getElem?_map, List.getElem?_range (by omega)]
  rfl

theorem drained_read (refines : RefinesFifo w fifo)
    (pgdir : Pgdir) (dst : AddrT) (max_events : CInt) (r : ReadResult)
    (succeed : CopiesSucceed w (.read pgdir dst max_events))
    (call : traceread pgdir w.buf w.mem dst max_events = some r)
    (delivers : r.copied ≠ []) (drained : r.buf.readseq = r.buf.seq) :
    0 < w.buf.unread ∧ r.copied = w.buf.oldest w.buf.unread := by
  have positive : 0 < max_events.toInt := by
    by_contra nonpos
    rw [traceread, if_pos (by omega)] at call
    cases Option.some.inj call
    exact delivers rfl
  obtain ⟨r', call', _, copied, bufEq⟩ :=
    traceread_of_succeed pgdir w.buf w.mem dst max_events positive succeed
  cases Option.some.inj (call.symm.trans call')
  have some_unread : 0 < w.buf.unread := by
    by_contra none
    have : wanted w.buf max_events = 0 := by simp only [wanted]; omega
    rw [copied, this] at delivers
    exact delivers rfl
  refine ⟨some_unread, ?_⟩
  have bounded := refines.tracks.bounded
  have unread := refines.unread_eq
  simp only [TRACE_BUF_SIZE] at bounded
  have all : wanted w.buf max_events = w.buf.unread := by
    rw [bufEq] at drained
    simp only at drained
    have small : wanted w.buf max_events ≤ w.buf.unread := Nat.min_le_right _ _
    grind [TraceBuffer.unread]
  rw [copied, all]

/-- At a drain, the number of events never delivered is what the last event
reports, and one more when that event was recorded into a full ring. -/
theorem lost_eq_report (buf : TraceBuffer) (mem : Mem) (ops : List TraceOp)
    (pgdir : Pgdir) (dst : AddrT) (max_events : CInt) (w : World) (r : ReadResult)
    (e : TraceEvent)
    (copies : Along step CopiesSucceed (boot buf mem) ops)
    (finished : run step (boot buf mem) ops = some w)
    (succeed : CopiesSucceed w (.read pgdir dst max_events))
    (call : traceread pgdir w.buf w.mem dst max_events = some r)
    (last : r.copied.getLast? = some e) (drained : r.buf.readseq = r.buf.seq) :
    ∃ unread, unreadAtLastEvent (boot buf mem) ops = some unread ∧
      BitVec.ofNat 32 (w.recorded.length - (w.delivered ++ r.copied).length) =
        e.overwritten + if unread < TRACE_BUF_SIZE then 0 else 1 := by
  obtain ⟨w₀, finished₀, refines⟩ :=
    refinesFifo_run ops (boot buf mem) FifoSpec.boot (refinesFifo_boot buf mem) rfl copies
  cases Option.some.inj (finished.symm.trans finished₀)
  have delivers : r.copied ≠ [] := by
    intro none
    rw [none] at last
    simp at last
  obtain ⟨some_unread, copied⟩ :=
    drained_read refines pgdir dst max_events r succeed call delivers drained
  -- the events never delivered are the ones the full ring dropped
  have lost : BitVec.ofNat 32 (w.recorded.length - (w.delivered ++ r.copied).length) =
      w.buf.overwritten := by
    have total := refines.tracks.length_eq
    have delivered : w.delivered.length = (FifoSpec.boot.run ops).fifo.delivered.length := by
      have := congrArg List.length refines.delivered
      simpa using this
    have unread := refines.unread_eq
    rw [List.length_range] at total
    rw [refines.overwritten, List.length_append, copied]
    simp only [TraceBuffer.oldest, List.length_map, List.length_range]
    congr 1
    omega
  rw [lost]
  rw [copied, getLast?_oldest refines some_unread] at last
  have start : Refined (boot buf mem) := ⟨_, refinesFifo_boot buf mem⟩
  rcases lastEvent_run ops (boot buf mem) w start copies finished with
    ⟨_, recordedEq, _⟩ | ⟨unread, found, e', last', counter⟩
  · rw [recordedEq] at last
    simp [boot] at last
  · cases Option.some.inj (last.symm.trans last')
    exact ⟨unread, found, counter⟩

/-- After a run whose copies succeed and that ends with a read which delivers
at least one event and empties the buffer, the loss count of the last event
delivered is the number of recorded events never delivered if and only if the
last `traceevent` call of the run found fewer than 128 events unread. -/
theorem loss_report_exact_iff (buf : TraceBuffer) (mem : Mem) (ops : List TraceOp)
    (pgdir : Pgdir) (dst : AddrT) (max_events : CInt) (w : World) (r : ReadResult)
    (e : TraceEvent)
    (copies : Along step CopiesSucceed (boot buf mem) ops)
    (finished : run step (boot buf mem) ops = some w)
    (succeed : CopiesSucceed w (.read pgdir dst max_events))
    (call : traceread pgdir w.buf w.mem dst max_events = some r)
    (last : r.copied.getLast? = some e) (drained : r.buf.readseq = r.buf.seq) :
    e.overwritten =
        BitVec.ofNat 32 (w.recorded.length - (w.delivered ++ r.copied).length) ↔
      ∃ unread, unreadAtLastEvent (boot buf mem) ops = some unread ∧
        unread < TRACE_BUF_SIZE := by
  obtain ⟨unread, found, lost⟩ := lost_eq_report buf mem ops pgdir dst max_events w r e copies
    finished succeed call last drained
  rw [found, lost]
  by_cases room : unread < TRACE_BUF_SIZE
  · simp [room]
  · simp only [room, if_false, Option.some.injEq, exists_eq_left', iff_false]
    bv_omega

/-! ## Drains of runs that only record -/

/-- After `count + 1` events and nothing else, a read of 128 drains the buffer. -/
theorem drain_after_events (count : Nat) :
    ∃ w r e, Along step CopiesSucceed (boot TraceBuffer.bss fun _ => 0)
        (List.replicate (count + 1) (.event kernelCall)) ∧
      run step (boot TraceBuffer.bss fun _ => 0)
        (List.replicate (count + 1) (.event kernelCall)) = some w ∧
      CopiesSucceed w (.read flatPgdir 4096 128) ∧
      traceread flatPgdir w.buf w.mem 4096 128 = some r ∧
      r.copied.getLast? = some e ∧ r.buf.readseq = r.buf.seq := by
  have copies : ∀ (count : Nat) (w : World),
      Along step CopiesSucceed w (List.replicate count (.event kernelCall)) := by
    intro count
    induction count with
    | zero => intro w; trivial
    | succ count ih => intro w; exact ⟨trivial, fun w' _ => ih w'⟩
  obtain ⟨w, finished, refines⟩ := refinesFifo_run _ _ FifoSpec.boot
    (refinesFifo_boot TraceBuffer.bss fun _ => 0) rfl (copies (count + 1) _)
  have succeed := copiesSucceed_flatPgdir w 4096 128
  obtain ⟨r, call, _, copied, bufEq⟩ :=
    traceread_of_succeed flatPgdir w.buf w.mem 4096 128 (by decide) succeed
  have bounded := refines.tracks.bounded
  rw [← refines.unread_eq] at bounded
  have all : wanted w.buf 128 = w.buf.unread := Nat.min_eq_right bounded
  rw [all] at copied bufEq
  have queued : ∀ (n : Nat) (spec : FifoSpec),
      (spec.run (List.replicate (n + 1) (.event kernelCall))).fifo.queue ≠ [] := by
    intro n
    induction n with
    | zero =>
      intro spec none
      have := congrArg List.length none
      simp [FifoSpec.run, FifoSpec.step, DropFifo.push, TRACE_BUF_SIZE] at this
      omega
    | succ n ih =>
      intro spec
      rw [List.replicate_succ, FifoSpec.run_cons]
      exact ih _
  have some_unread : 0 < w.buf.unread := by
    rw [refines.unread_eq]
    exact List.length_pos_iff.mpr (queued count FifoSpec.boot)
  have drained : r.buf.readseq = r.buf.seq := by
    rw [bufEq]
    simp only [TraceBuffer.unread, BitVec.ofNat_toNat, BitVec.setWidth_eq]
    bv_omega
  cases last : r.copied.getLast? with
  | some e => exact ⟨w, r, e, copies (count + 1) _, finished, succeed, call, last, drained⟩
  | none => grind [TraceBuffer.oldest]

theorem loss_report_exact_after_one_event :
    ∃ w r e, run step (boot TraceBuffer.bss fun _ => 0) [.event kernelCall] = some w ∧
      traceread flatPgdir w.buf w.mem 4096 128 = some r ∧ r.copied.getLast? = some e ∧
      r.buf.readseq = r.buf.seq ∧
      e.overwritten = BitVec.ofNat 32 (w.recorded.length - (w.delivered ++ r.copied).length) := by
  obtain ⟨w, r, e, copies, finished, succeed, call, last, drained⟩ := drain_after_events 0
  refine ⟨w, r, e, finished, call, last, drained, ?_⟩
  exact (loss_report_exact_iff _ _ _ _ _ _ w r e copies finished succeed call last drained).mpr
    ⟨0, rfl, by decide⟩

/-- 129 events into a ring of 128, then a drain: one event is lost, and the last
event delivered does not say so. -/
theorem loss_report_one_short :
    ∃ w r e, Along step CopiesSucceed (boot TraceBuffer.bss fun _ => 0)
        (List.replicate 129 (.event kernelCall)) ∧
      run step (boot TraceBuffer.bss fun _ => 0)
        (List.replicate 129 (.event kernelCall)) = some w ∧
      CopiesSucceed w (.read flatPgdir 4096 128) ∧
      traceread flatPgdir w.buf w.mem 4096 128 = some r ∧ r.copied.getLast? = some e ∧
      r.buf.readseq = r.buf.seq ∧
      e.overwritten ≠
        BitVec.ofNat 32 (w.recorded.length - (w.delivered ++ r.copied).length) := by
  obtain ⟨w, r, e, copies, finished, succeed, call, last, drained⟩ := drain_after_events 128
  refine ⟨w, r, e, copies, finished, succeed, call, last, drained, ?_⟩
  obtain ⟨unread, found, lost⟩ := lost_eq_report _ _ _ _ _ _ w r e copies finished succeed call
    last drained
  have full : unreadAtLastEvent (boot TraceBuffer.bss fun _ => 0)
      (List.replicate 129 (.event kernelCall)) = some 128 := by
    decide +kernel
  cases Option.some.inj (found.symm.trans full)
  rw [lost, if_neg (by decide)]
  bv_omega

end Xv6Tracing.Ktrace
