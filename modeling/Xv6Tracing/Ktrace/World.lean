import Xv6Tracing.Lib.Run
import Xv6Tracing.Ktrace.Buffer

/-!
# Runs of the trace buffer

The calls of `traceevent` and `traceread` in the order in which they take
`traceBuffer.lock`.  The world keeps beside the buffer and memory the two
histories every accounting is about: the events recorded and the events
delivered, each in order.
-/

set_option autoImplicit false

namespace Xv6Tracing.Ktrace

open Vm Lib

inductive TraceOp where
  | event (call : EventCall)
  | read (pgdir : Pgdir) (dst : AddrT) (max_events : CInt)

structure World where
  buf : TraceBuffer
  mem : Mem
  recorded : List TraceEvent
  delivered : List TraceEvent

/-- The state `traceinit` leaves, whatever the buffer held before. -/
def boot (buf : TraceBuffer) (mem : Mem) : World := ⟨traceinit buf, mem, [], []⟩

/-- One call.  It has no result when `copyout` faults in the kernel. -/
def step (w : World) : TraceOp → Option World
  | .event call =>
    some { w with
      buf := traceevent w.buf call
      recorded := if w.buf.enabled then w.recorded ++ [newEvent w.buf call] else w.recorded }
  | .read pgdir dst max_events =>
    match traceread pgdir w.buf w.mem dst max_events with
    | none => none
    | some r => some { w with
        buf := r.buf
        mem := r.mem
        delivered := w.delivered ++ r.copied }

/-- How many events a read of `max_events` goes for: the loop of `traceread`
stops at `max_events` or when nothing is unread. -/
def wanted (buf : TraceBuffer) (max_events : CInt) : Nat :=
  min max_events.toInt.toNat buf.unread

def CopiesSucceed (w : World) : TraceOp → Prop
  | .event _ => True
  | .read pgdir dst max_events =>
    ∀ i, i < wanted w.buf max_events → CopySucceeds pgdir dst i

/-! ## What a read does -/

theorem traceread_spec (pgdir : Pgdir) (buf : TraceBuffer) (mem : Mem) (dst : AddrT)
    (max_events : CInt) (r : ReadResult)
    (run : traceread pgdir buf mem dst max_events = some r) (positive : 0 < max_events.toInt) :
    ∃ done, r.copied = buf.oldest done ∧ (∀ i, i < done → CopySucceeds pgdir dst i) ∧
      ReadOutcome pgdir dst max_events.toInt.toNat 0 buf r done := by
  rw [traceread, if_neg (by omega)] at run
  obtain ⟨done, copied, succeeded, outcome⟩ := tracereadLoop_spec pgdir dst _ 0 buf mem r run
  refine ⟨done, copied, ?_, outcome⟩
  intro i bound
  simpa using succeeded i bound

theorem traceread_keeps (pgdir : Pgdir) (buf : TraceBuffer) (mem : Mem) (dst : AddrT)
    (max_events : CInt) (r : ReadResult)
    (run : traceread pgdir buf mem dst max_events = some r) :
    ∃ readseq, r.buf = { buf with readseq := readseq } := by
  by_cases positive : 0 < max_events.toInt
  · obtain ⟨done, _, _, outcome⟩ := traceread_spec pgdir buf mem dst max_events r run positive
    cases outcome with
    | drained _ _ bufEq _ => exact ⟨_, bufEq⟩
    | refused _ _ _ bufEq _ => exact ⟨_, bufEq⟩
  · rw [traceread, if_pos (by omega)] at run
    cases Option.some.inj run
    exact ⟨buf.readseq, rfl⟩

theorem tracereadLoop_total (pgdir : Pgdir) (dst : AddrT) : ∀ (left count : Nat)
    (buf : TraceBuffer) (mem : Mem),
    (∀ i, i < min left buf.unread → (∀ j, j < i → CopySucceeds pgdir dst (count + j)) →
      CopySucceeds pgdir dst (count + i) ∨ CopyFails pgdir dst (count + i)) →
      ∃ r, tracereadLoop pgdir dst left count buf mem = some r := by
  intro left
  induction left with
  | zero => intro count buf mem _; exact ⟨_, rfl⟩
  | succ left ih =>
    intro count buf mem answered
    by_cases empty : buf.readseq = buf.seq
    · exact ⟨⟨BitVec.ofNat 32 count, buf, mem, [], false⟩, by
        simp only [tracereadLoop, if_pos empty]⟩
    · have shorter := unread_moved buf empty
      have first := answered 0 (by omega) (by simp)
      have answer := copyout_ret pgdir mem (entryAddr dst count)
        (buf.events (slot buf.readseq)).bytes
      rw [TraceEvent.length_bytes] at answer
      simp only [CopySucceeds, CopyFails, Nat.add_zero] at first
      cases call : copyout pgdir mem (entryAddr dst count)
          (buf.events (slot buf.readseq)).bytes with
      | none =>
        rw [call] at answer
        rcases first with h | h <;> simp [h] at answer
      | some pair =>
        obtain ⟨ret, mem'⟩ := pair
        rw [call, Option.map_some] at answer
        rcases first with h | h
        · have retEq : ret = 0 := Option.some.inj (answer.trans h)
          subst ret
          obtain ⟨r, rest⟩ := ih (count + 1) { buf with readseq := buf.readseq + 1 } mem' (by
            intro i bound earlier
            have index : count + 1 + i = count + (i + 1) := by omega
            rw [index]
            apply answered (i + 1) (by omega)
            intro j jBound
            cases j with
            | zero => exact h
            | succ j =>
              have := earlier j (by omega)
              rwa [Nat.add_right_comm, Nat.add_assoc] at this)
          refine ⟨{ r with copied := buf.events (slot buf.readseq) :: r.copied }, ?_⟩
          simp only [tracereadLoop, if_neg empty, call]
          rw [if_neg (by decide), rest]
        · have retEq : ret = -1 := Option.some.inj (answer.trans h)
          subst ret
          refine ⟨⟨if 0 < count then BitVec.ofNat 32 count else -1,
            { buf with readseq := buf.readseq + 1 }, mem', [], true⟩, ?_⟩
          simp only [tracereadLoop, if_neg empty, call]
          rw [if_pos (by decide)]

/-- A read whose copies succeed takes the oldest events it goes for, returns
their number and moves `readseq` past them. -/
theorem traceread_of_succeed (pgdir : Pgdir) (buf : TraceBuffer) (mem : Mem) (dst : AddrT)
    (max_events : CInt) (positive : 0 < max_events.toInt)
    (succeed : ∀ i, i < wanted buf max_events → CopySucceeds pgdir dst i) :
    ∃ r, traceread pgdir buf mem dst max_events = some r ∧
      r.ret = BitVec.ofNat 32 (wanted buf max_events) ∧
      r.copied = buf.oldest (wanted buf max_events) ∧
      r.buf = { buf with
        readseq := buf.readseq + BitVec.ofNat 32 (wanted buf max_events) } := by
  obtain ⟨r, loop⟩ := tracereadLoop_total pgdir dst max_events.toInt.toNat 0 buf mem (by
    intro i bound _
    rw [Nat.zero_add]
    exact Or.inl (succeed i bound))
  have call : traceread pgdir buf mem dst max_events = some r := by
    rw [traceread, if_neg (by omega), loop]
  obtain ⟨done, copied, _, outcome⟩ := traceread_spec pgdir buf mem dst max_events r call positive
  cases outcome with
  | drained all failed bufEq ret =>
    have doneEq : done = wanted buf max_events := all
    subst doneEq
    exact ⟨r, call, by simpa using ret, copied, bufEq⟩
  | refused less _ refusal _ _ =>
    rw [Nat.zero_add] at refusal
    exact absurd (succeed done less) (not_copySucceeds_of_copyFails pgdir dst done refusal)

/-- A read whose copy number `k` is the first to fail returns `k`, or -1 when
that is 0, but has moved `readseq` past the event it could not copy. -/
theorem traceread_of_fail (pgdir : Pgdir) (buf : TraceBuffer) (mem : Mem) (dst : AddrT)
    (max_events : CInt) (positive : 0 < max_events.toInt) (k : Nat)
    (attempted : k < wanted buf max_events)
    (succeed : ∀ i, i < k → CopySucceeds pgdir dst i) (fails : CopyFails pgdir dst k) :
    ∃ r, traceread pgdir buf mem dst max_events = some r ∧
      r.ret = (if 0 < k then BitVec.ofNat 32 k else -1) ∧ r.copied = buf.oldest k ∧
      r.buf = { buf with readseq := buf.readseq + BitVec.ofNat 32 (k + 1) } := by
  have refuted : ∀ i, i < k → ¬ CopyFails pgdir dst i := fun i bound failure =>
    not_copySucceeds_of_copyFails pgdir dst i failure (succeed i bound)
  have stuck := not_copySucceeds_of_copyFails pgdir dst k fails
  obtain ⟨r, loop⟩ := tracereadLoop_total pgdir dst max_events.toInt.toNat 0 buf mem (by
    intro i _ earlier
    simp only [Nat.zero_add] at earlier ⊢
    rcases Nat.lt_trichotomy i k with h | h | h
    · exact Or.inl (succeed i h)
    · rw [h]
      exact Or.inr fails
    · exact absurd (earlier k h) stuck)
  have call : traceread pgdir buf mem dst max_events = some r := by
    rw [traceread, if_neg (by omega), loop]
  obtain ⟨done, copied, earlier, outcome⟩ :=
    traceread_spec pgdir buf mem dst max_events r call positive
  cases outcome with
  | drained all _ _ _ =>
    have past : k < done := by
      rw [all]
      exact attempted
    exact absurd (earlier k past) stuck
  | refused less _ refusal bufEq ret => grind

theorem wanted_of_nonpos (buf : TraceBuffer) (max_events : CInt) (nonpos : max_events.toInt ≤ 0) :
    wanted buf max_events = 0 := by
  simp only [wanted]
  omega

/-- The same for every `max_events`, as a step of the world. -/
theorem step_read_of_succeed (w : World) (pgdir : Pgdir) (dst : AddrT) (max_events : CInt)
    (succeed : CopiesSucceed w (.read pgdir dst max_events)) :
    ∃ mem, step w (.read pgdir dst max_events) = some { w with
      buf := { w.buf with
        readseq := w.buf.readseq + BitVec.ofNat 32 (wanted w.buf max_events) }
      mem := mem
      delivered := w.delivered ++ w.buf.oldest (wanted w.buf max_events) } := by
  by_cases positive : 0 < max_events.toInt
  · obtain ⟨r, run, _, copied, bufEq⟩ :=
      traceread_of_succeed pgdir w.buf w.mem dst max_events positive succeed
    refine ⟨r.mem, ?_⟩
    simp only [step, run, copied, bufEq]
  · have none := wanted_of_nonpos w.buf max_events (by omega)
    refine ⟨w.mem, ?_⟩
    simp only [step, traceread, if_pos (not_lt.mp positive), none]
    simp [TraceBuffer.oldest]

end Xv6Tracing.Ktrace
