import Xv6Tracing.Lib.DropFifo
import Xv6Tracing.Ktrace.World

/-!
# The trace buffer refines a drop-oldest queue

The abstract queue holds the numbers of the recorded events, counted without
bound from 0; the buffer holds the events themselves in slot `s % 128` and
counts modulo 2^32.  Since 128 divides 2^32, the slot of an event does not
depend on how often the counters have wrapped.
-/

set_option autoImplicit false

namespace Xv6Tracing.Ktrace

open Vm Lib

structure FifoSpec where
  fifo : DropFifo Nat
  next : Nat

def FifoSpec.step (spec : FifoSpec) : TraceOp → FifoSpec
  | .event _ => ⟨spec.fifo.push TRACE_BUF_SIZE spec.next, spec.next + 1⟩
  | .read _ _ max_events => ⟨spec.fifo.pop max_events.toInt.toNat, spec.next⟩

def FifoSpec.boot : FifoSpec := ⟨DropFifo.empty, 0⟩

def FifoSpec.run (spec : FifoSpec) (ops : List TraceOp) : FifoSpec := ops.foldl FifoSpec.step spec

theorem FifoSpec.run_cons (spec : FifoSpec) (op : TraceOp) (ops : List TraceOp) :
    spec.run (op :: ops) = (spec.step op).run ops := rfl

/-- The world is in the abstract state `fifo`. -/
structure RefinesFifo (w : World) (fifo : DropFifo Nat) : Prop where
  enabled : w.buf.enabled = true
  tracks : fifo.Tracks TRACE_BUF_SIZE (List.range w.recorded.length)
  seq : w.buf.seq = BitVec.ofNat 32 w.recorded.length
  readseq : w.buf.readseq = BitVec.ofNat 32 (w.recorded.length - fifo.queue.length)
  overwritten : w.buf.overwritten = BitVec.ofNat 32 fifo.dropped.length
  slots : ∀ i, i < w.recorded.length → w.recorded.length ≤ i + TRACE_BUF_SIZE →
    w.recorded[i]? = some (w.buf.events (slot (BitVec.ofNat 32 i)))
  numbered : ∀ i e, w.recorded[i]? = some e → e.seq = BitVec.ofNat 32 i
  delivered : w.delivered.map some = fifo.delivered.map fun i => w.recorded[i]?

/-! ## Counters modulo 2^32 -/

theorem slot_ofNat (i : Nat) : (slot (BitVec.ofNat 32 i)).val = i % TRACE_BUF_SIZE := by
  simp only [slot, BitVec.toNat_ofNat, TRACE_BUF_SIZE]
  exact Nat.mod_mod_of_dvd i (by decide)

theorem slot_ne_of_lt (i n : Nat) (before : i < n) (near : n < i + TRACE_BUF_SIZE) :
    slot (BitVec.ofNat 32 i) ≠ slot (BitVec.ofNat 32 n) := by
  intro same
  have values := congrArg Fin.val same
  rw [slot_ofNat, slot_ofNat] at values
  simp only [TRACE_BUF_SIZE] at values near
  omega

theorem toNat_ofNat_sub (n u : Nat) (le : u ≤ n) (small : u < 2 ^ 32) :
    (BitVec.ofNat 32 n - BitVec.ofNat 32 (n - u)).toNat = u := by
  simp only [BitVec.toNat_sub, BitVec.toNat_ofNat]
  omega

theorem ofNat_sub_size (n : Nat) (enough : TRACE_BUF_SIZE ≤ n) :
    BitVec.ofNat 32 n - BitVec.ofNat 32 TRACE_BUF_SIZE = BitVec.ofNat 32 (n - TRACE_BUF_SIZE) := by
  apply BitVec.eq_of_toNat_eq
  simp only [TRACE_BUF_SIZE] at enough ⊢
  simp only [BitVec.toNat_sub, BitVec.toNat_ofNat]
  omega

/-! ## Consequences of the refinement -/

section Refines

variable {w : World} {fifo : DropFifo Nat}

section

variable (refines : RefinesFifo w fifo)

include refines

theorem RefinesFifo.queue_le :
    fifo.queue.length ≤ w.recorded.length := by
  have := refines.tracks.length_eq
  simp only [List.length_range] at this
  omega

theorem RefinesFifo.unread_eq :
    w.buf.unread = fifo.queue.length := by
  have bounded := refines.tracks.bounded
  simp only [TRACE_BUF_SIZE] at bounded
  rw [TraceBuffer.unread, refines.seq, refines.readseq]
  exact toNat_ofNat_sub _ _ refines.queue_le (by omega)

theorem RefinesFifo.queue_eq :
    fifo.queue = List.range' (w.recorded.length - fifo.queue.length) fifo.queue.length := by
  have le := refines.queue_le
  have suffixEq := refines.tracks.queue_eq_drop
  rw [List.length_range, List.range_eq_range', List.drop_range'] at suffixEq
  have rest : w.recorded.length - (w.recorded.length - fifo.queue.length) =
      fifo.queue.length := by omega
  rw [rest, Nat.zero_add, Nat.mul_one] at suffixEq
  exact suffixEq

theorem RefinesFifo.unread_event (i : Nat)
    (waiting : i < fifo.queue.length) :
    w.recorded[w.recorded.length - fifo.queue.length + i]? =
      some (w.buf.events (slot (w.buf.readseq + BitVec.ofNat 32 i))) := by
  have le := refines.queue_le
  have bounded := refines.tracks.bounded
  rw [refines.readseq, ← BitVec.ofNat_add]
  exact refines.slots _ (by omega) (by omega)

theorem RefinesFifo.oldest_eq (count : Nat) :
    (w.buf.oldest (min count w.buf.unread)).map some =
      (fifo.queue.take count).map fun i => w.recorded[i]? := by
  rw [refines.unread_eq]
  have front : fifo.queue.take count =
      List.range' (w.recorded.length - fifo.queue.length) (min count fifo.queue.length) := by
    nth_rewrite 1 [refines.queue_eq]
    rcases Nat.le_total count fifo.queue.length with h | h
    · rw [List.take_range'_of_length_ge h, Nat.min_eq_left h]
    · rw [List.take_range'_of_length_le h, Nat.min_eq_right h]
  rw [front, List.range'_eq_map_range, TraceBuffer.oldest, List.map_map, List.map_map]
  apply List.map_congr_left
  intro i member
  have bound : i < fifo.queue.length := by
    have := List.mem_range.mp member
    omega
  exact (refines.unread_event i bound).symm

theorem RefinesFifo.delivered_lt (i : Nat)
    (member : i ∈ fifo.delivered) : i < w.recorded.length := by
  have all := refines.tracks.accounting.mem_iff (a := i)
  simp only [List.mem_append, List.mem_range] at all
  exact all.mp (Or.inl (Or.inr member))

end

end Refines

/-! ## Every step keeps the refinement -/

theorem refinesFifo_boot (buf : TraceBuffer) (mem : Mem) :
    RefinesFifo (boot buf mem) DropFifo.empty where
  enabled := rfl
  tracks := DropFifo.tracks_empty _
  seq := rfl
  readseq := rfl
  overwritten := rfl
  slots := by intro i bound; simp [boot] at bound
  numbered := by intro i e found; simp [boot] at found
  delivered := rfl

variable {fifo : DropFifo Nat} {w : World}

theorem traceevent_of_refines (refines : RefinesFifo w fifo) (call : EventCall) :
    traceevent w.buf call =
      { w.buf with
        events := Function.update w.buf.events (slot w.buf.seq) (newEvent w.buf call)
        seq := BitVec.ofNat 32 (w.recorded.length + 1)
        readseq := BitVec.ofNat 32
          (w.recorded.length + 1 - (fifo.push TRACE_BUF_SIZE w.recorded.length).queue.length)
        overwritten := BitVec.ofNat 32
          (fifo.push TRACE_BUF_SIZE w.recorded.length).dropped.length } := by
  have le := refines.queue_le
  have bounded := refines.tracks.bounded
  have seqNext : w.buf.seq + 1 = BitVec.ofNat 32 (w.recorded.length + 1) := by
    rw [refines.seq, BitVec.ofNat_add]
    rfl
  have ahead : (BitVec.ofNat 32 (w.recorded.length + 1) - w.buf.readseq).toNat =
      fifo.queue.length + 1 := by
    have gap : w.recorded.length - fifo.queue.length =
        w.recorded.length + 1 - (fifo.queue.length + 1) := by omega
    rw [refines.readseq, gap]
    exact toNat_ofNat_sub _ _ (by omega) (by simp only [TRACE_BUF_SIZE] at bounded; omega)
  rw [traceevent, if_pos refines.enabled, advanceReader]
  simp only [TraceBuffer.unread, seqNext, ahead]
  by_cases room : fifo.queue.length < TRACE_BUF_SIZE
  · rw [if_neg (by omega), DropFifo.push_of_lt _ _ _ room]
    have gap : w.recorded.length + 1 - (fifo.queue ++ [w.recorded.length]).length =
        w.recorded.length - fifo.queue.length := by
      simp only [List.length_append, List.length_singleton]
      omega
    rw [gap, ← refines.readseq, ← refines.overwritten]
  · -- the ring is full: the reader moves one event forward
    have full : fifo.queue.length = TRACE_BUF_SIZE := by omega
    cases shape : fifo.queue with
    | nil => rw [shape] at full; simp [TRACE_BUF_SIZE] at full
    | cons oldest rest =>
      rw [if_pos (by rw [← shape]; omega), DropFifo.push_of_full _ _ _ oldest rest shape full]
      have restLength : rest.length + 1 = TRACE_BUF_SIZE := by
        rw [← full, shape, List.length_cons]
      have lossNext : w.buf.overwritten + 1 = BitVec.ofNat 32 (fifo.dropped.length + 1) := by
        rw [refines.overwritten, BitVec.ofNat_add]
        rfl
      simp only [List.length_append, List.length_singleton, restLength, lossNext]
      rw [ofNat_sub_size _ (by omega)]

theorem getElem?_append_new {α : Type} (xs : List α) (x : α) (i : Nat) (bound : i < xs.length) :
    (xs ++ [x])[i]? = xs[i]? := List.getElem?_append_left bound

theorem refinesFifo_event (refines : RefinesFifo w fifo) (call : EventCall) :
    ∃ w', step w (.event call) = some w' ∧ w'.recorded = w.recorded ++ [newEvent w.buf call] ∧
      RefinesFifo w' (fifo.push TRACE_BUF_SIZE w.recorded.length) := by
  refine ⟨_, rfl, by simp only [refines.enabled, if_true], ?_⟩
  simp only [refines.enabled, if_true]
  rw [traceevent_of_refines refines call]
  have length : (w.recorded ++ [newEvent w.buf call]).length = w.recorded.length + 1 := by simp
  constructor
  · exact refines.enabled
  · simp only [length, List.range_succ]
    exact refines.tracks.push _
  · simp only [length]
  · simp only [length]
  · rfl
  · intro i bound recent
    simp only [length] at bound recent
    by_cases last : i = w.recorded.length
    · rw [last, ← refines.seq]
      simp
    · have before : i < w.recorded.length := by omega
      have kept := slot_ne_of_lt i w.recorded.length before (by omega)
      simp only [refines.seq]
      rw [getElem?_append_new _ _ _ before, Function.update_of_ne kept]
      exact refines.slots i before (by omega)
  · intro i e found
    by_cases before : i < w.recorded.length
    · rw [getElem?_append_new _ _ _ before] at found
      exact refines.numbered i e found
    · have bound := (List.getElem?_eq_some_iff.mp found).1
      simp only [length] at bound
      have last : i = w.recorded.length := by omega
      subst last
      simp only [List.getElem?_concat_length, Option.some.injEq] at found
      rw [← found]
      exact refines.seq
  · simp only [DropFifo.push_delivered]
    rw [refines.delivered]
    apply List.map_congr_left
    intro i member
    exact (getElem?_append_new _ _ _ (refines.delivered_lt i member)).symm

theorem refinesFifo_read (refines : RefinesFifo w fifo)
    (pgdir : Pgdir) (dst : AddrT) (max_events : CInt)
    (succeed : CopiesSucceed w (.read pgdir dst max_events)) :
    ∃ w', step w (.read pgdir dst max_events) = some w' ∧ w'.recorded = w.recorded ∧
      RefinesFifo w' (fifo.pop max_events.toInt.toNat) := by
  obtain ⟨mem, stepped⟩ := step_read_of_succeed w pgdir dst max_events succeed
  refine ⟨_, stepped, rfl, ?_⟩
  have le := refines.queue_le
  have unread := refines.unread_eq
  constructor
  · exact refines.enabled
  · exact refines.tracks.pop _
  · exact refines.seq
  · simp only [DropFifo.pop_queue, List.length_drop]
    rw [refines.readseq, ← BitVec.ofNat_add, wanted, unread]
    congr 1
    omega
  · exact refines.overwritten
  · exact refines.slots
  · exact refines.numbered
  · simp only [DropFifo.pop_delivered, List.map_append]
    rw [refines.delivered, wanted, refines.oldest_eq]

theorem refinesFifo_run : ∀ (ops : List TraceOp) (w : World) (spec : FifoSpec),
    RefinesFifo w spec.fifo → spec.next = w.recorded.length → Along step CopiesSucceed w ops →
      ∃ w', run step w ops = some w' ∧ RefinesFifo w' (spec.run ops).fifo := by
  intro ops
  induction ops with
  | nil => intro w spec refines _ _; exact ⟨w, rfl, refines⟩
  | cons op ops ih =>
    intro w spec refines next copies
    obtain ⟨succeed, later⟩ := copies
    cases op with
    | event call =>
      obtain ⟨w', stepped, recorded, refines'⟩ := refinesFifo_event refines call
      rw [← next] at refines'
      rw [run_cons_of_step stepped, FifoSpec.run_cons]
      refine ih w' (spec.step (.event call)) refines' ?_ (later w' stepped)
      simp [FifoSpec.step, recorded, next]
    | read pgdir dst max_events =>
      obtain ⟨w', stepped, recorded, refines'⟩ :=
        refinesFifo_read refines pgdir dst max_events succeed
      rw [run_cons_of_step stepped, FifoSpec.run_cons]
      refine ih w' (spec.step (.read pgdir dst max_events)) refines' ?_ (later w' stepped)
      simp [FifoSpec.step, recorded, next]

/-! ## The buffer as its users see it -/

/-- The abstract queue after a run of calls from `traceinit`. -/
def fifoAfter (ops : List TraceOp) : DropFifo Nat := (FifoSpec.boot.run ops).fifo

theorem traceread_of_refines (refines : RefinesFifo w fifo)
    (pgdir : Pgdir) (dst : AddrT) (max_events : CInt) (positive : 0 < max_events.toInt)
    (succeed : CopiesSucceed w (.read pgdir dst max_events)) :
    ∃ r, traceread pgdir w.buf w.mem dst max_events = some r ∧
      r.ret = BitVec.ofNat 32 (min max_events.toInt.toNat fifo.queue.length) ∧
      r.copied.map some =
        (fifo.queue.take max_events.toInt.toNat).map fun i => w.recorded[i]? := by
  obtain ⟨r, call, ret, copied, _⟩ :=
    traceread_of_succeed pgdir w.buf w.mem dst max_events positive succeed
  refine ⟨r, call, ?_, ?_⟩
  · rw [ret, wanted, refines.unread_eq]
  · rw [copied, wanted, refines.oldest_eq]

def Accounted (w : World) : Prop :=
  BitVec.ofNat 32 w.recorded.length =
    BitVec.ofNat 32 w.delivered.length + BitVec.ofNat 32 w.buf.unread + w.buf.overwritten

instance (w : World) : Decidable (Accounted w) :=
  inferInstanceAs (Decidable (BitVec.ofNat 32 w.recorded.length =
    BitVec.ofNat 32 w.delivered.length + BitVec.ofNat 32 w.buf.unread + w.buf.overwritten))

theorem RefinesFifo.accounted (refines : RefinesFifo w fifo) :
    Accounted w := by
  have total := refines.tracks.length_eq
  have copied : w.delivered.length = fifo.delivered.length := by
    have := congrArg List.length refines.delivered
    simpa using this
  rw [List.length_range] at total
  rw [Accounted, refines.unread_eq, refines.overwritten, copied, total, ← BitVec.ofNat_add,
    ← BitVec.ofNat_add]
  congr 1
  omega

def kernelCall : EventCall := ⟨0, none, 4, 0, 0, 0, 0, some (cstr "kalloc")⟩

theorem copiesSucceed_flatPgdir (w : World) (dst : AddrT) (max_events : CInt) :
    CopiesSucceed w (.read flatPgdir dst max_events) := fun _ _ =>
  copyoutRet_of_mapped flatPgdir flatPgdir_mapped _ _

end Xv6Tracing.Ktrace
