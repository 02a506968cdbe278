import Xv6Tracing.Vm.Copyout

/-!
# The kernel trace buffer

`struct trace_event` of `trace.h` and the ring of `ktrace.c`: `traceinit`,
`traceevent` and `traceread`.  The three run under `traceBuffer.lock`, so each
call is one step.  `ReadResult` carries beside the source's results which
events were copied out and whether a copy failed.
-/

set_option autoImplicit false

namespace Xv6Tracing.Ktrace

open Vm

def TRACE_BUF_SIZE : Nat := 128

instance : NeZero TRACE_BUF_SIZE := ⟨by decide⟩

structure TraceEvent where
  seq : Uint
  ticks : Uint
  type : CInt
  pid : CInt
  arg0 : CInt
  arg1 : CInt
  arg2 : CInt
  comm : CharBuf 16
  event : CharBuf 16
  overwritten : Uint
deriving DecidableEq

def TraceEvent.bytes (e : TraceEvent) : List Uchar :=
  le32 e.seq ++ le32 e.ticks ++ le32 e.type ++ le32 e.pid ++ le32 e.arg0 ++ le32 e.arg1 ++
    le32 e.arg2 ++ e.comm.bytes ++ e.event.bytes ++ le32 e.overwritten

/-- `sizeof(struct trace_event)` -/
def EVENT_SIZE : Nat := 64

theorem TraceEvent.length_bytes (e : TraceEvent) : e.bytes.length = EVENT_SIZE := by
  simp [TraceEvent.bytes, e.comm.length_eq, e.event.length_eq, EVENT_SIZE]

def TraceEvent.zero : TraceEvent :=
  ⟨0, 0, 0, 0, 0, 0, 0, CharBuf.copy 15 [], CharBuf.copy 15 [], 0⟩

structure TraceBuffer where
  enabled : Bool
  seq : Uint
  readseq : Uint
  overwritten : Uint
  events : Fin TRACE_BUF_SIZE → TraceEvent

/-- The slot of a sequence number: `seq % TRACE_BUF_SIZE`. -/
def slot (seq : Uint) : Fin TRACE_BUF_SIZE :=
  ⟨seq.toNat % TRACE_BUF_SIZE, Nat.mod_lt _ (by decide)⟩

/-- `seq - readseq` of the source: how many events are unread. -/
def TraceBuffer.unread (buf : TraceBuffer) : Nat := (buf.seq - buf.readseq).toNat

/-- The buffer before `traceinit`: static storage, all zero. -/
def TraceBuffer.bss : TraceBuffer := ⟨false, 0, 0, 0, fun _ => TraceEvent.zero⟩

def traceinit (buf : TraceBuffer) : TraceBuffer :=
  { buf with enabled := true, seq := 0, readseq := 0, overwritten := 0 }

/-- One call of `traceevent`: its arguments and the two globals it reads. -/
structure EventCall where
  ticks : Uint
  proc : Option Proc
  type : CInt
  pid : CInt
  arg0 : CInt
  arg1 : CInt
  arg2 : CInt
  name : Option (List Uchar)

/-- `comm` of an event: the name of the current process, or `kernel`. -/
def commOf (proc : Option Proc) : CharBuf 16 :=
  match proc with
  | some p => if 0 < p.pid.toInt then CharBuf.copy 15 p.name.bytes
      else CharBuf.copy 15 (cstr "kernel")
  | none => CharBuf.copy 15 (cstr "kernel")

def newEvent (buf : TraceBuffer) (call : EventCall) : TraceEvent where
  seq := buf.seq
  ticks := call.ticks
  type := call.type
  pid := call.pid
  arg0 := call.arg0
  arg1 := call.arg1
  arg2 := call.arg2
  comm := commOf call.proc
  event := CharBuf.copy 15 (call.name.getD [])
  overwritten := buf.overwritten

/-- If the writer gets more than 128 events ahead, move `readseq` forward to
the oldest event still available. -/
def advanceReader (buf : TraceBuffer) : TraceBuffer :=
  if TRACE_BUF_SIZE < buf.unread then
    { buf with
      readseq := buf.seq - BitVec.ofNat 32 TRACE_BUF_SIZE
      overwritten := buf.overwritten + 1 }
  else buf

def traceevent (buf : TraceBuffer) (call : EventCall) : TraceBuffer :=
  if buf.enabled then
    advanceReader
      { buf with
        events := Function.update buf.events (slot buf.seq) (newEvent buf call)
        seq := buf.seq + 1 }
  else buf

structure ReadResult where
  ret : CInt
  buf : TraceBuffer
  mem : Mem
  copied : List TraceEvent
  failed : Bool

def entryAddr (dst : AddrT) (count : Nat) : AddrT := dst + BitVec.ofNat 64 (EVENT_SIZE * count)

/-- The loop of `traceread` with `left = max_events - count` rounds to go.
`readseq` has moved when `copyout` is called. -/
def tracereadLoop (pgdir : Pgdir) (dst : AddrT) :
    Nat → Nat → TraceBuffer → Mem → Option ReadResult
  | 0, count, buf, mem => some ⟨BitVec.ofNat 32 count, buf, mem, [], false⟩
  | left + 1, count, buf, mem =>
    if buf.readseq = buf.seq then some ⟨BitVec.ofNat 32 count, buf, mem, [], false⟩
    else
      let event := buf.events (slot buf.readseq)
      let moved := { buf with readseq := buf.readseq + 1 }
      match copyout pgdir mem (entryAddr dst count) event.bytes with
      | none => none
      | some (ret, mem) =>
        if ret.toInt < 0 then
          some ⟨if 0 < count then BitVec.ofNat 32 count else -1, moved, mem, [], true⟩
        else
          match tracereadLoop pgdir dst left (count + 1) moved mem with
          | none => none
          | some rest => some { rest with copied := event :: rest.copied }

def traceread (pgdir : Pgdir) (buf : TraceBuffer) (mem : Mem) (dst : AddrT)
    (max_events : CInt) : Option ReadResult :=
  if max_events.toInt ≤ 0 then some ⟨0, buf, mem, [], false⟩
  else tracereadLoop pgdir dst max_events.toInt.toNat 0 buf mem

/-! ## What one call does -/

@[simp] theorem advanceReader_enabled (buf : TraceBuffer) :
    (advanceReader buf).enabled = buf.enabled := by
  simp only [advanceReader]
  split <;> rfl

@[simp] theorem advanceReader_events (buf : TraceBuffer) :
    (advanceReader buf).events = buf.events := by
  simp only [advanceReader]
  split <;> rfl

theorem copyoutRet_cases (pgdir : Pgdir) (va : AddrT) (len : Nat) :
    copyoutRet pgdir va len = none ∨ copyoutRet pgdir va len = some 0 ∨
      copyoutRet pgdir va len = some (-1) := by
  have loop : ∀ (fuel : Nat) (mem : Mem) (va : AddrT) (bytes : List Uchar),
      (copyoutLoop pgdir fuel mem va bytes).map Prod.fst = none ∨
        (copyoutLoop pgdir fuel mem va bytes).map Prod.fst = some 0 ∨
        (copyoutLoop pgdir fuel mem va bytes).map Prod.fst = some (-1) := by
    intro fuel
    induction fuel with
    | zero =>
      intro mem va bytes
      cases bytes <;> exact Or.inr (Or.inl rfl)
    | succ fuel ih =>
      intro mem va bytes
      cases bytes with
      | nil => exact Or.inr (Or.inl rfl)
      | cons byte bytes =>
        simp only [copyoutLoop]
        cases uva2ka pgdir (PGROUNDDOWN va) with
        | fault => exact Or.inl rfl
        | null => exact Or.inr (Or.inr rfl)
        | page pa0 => exact ih _ _ _
  exact loop _ _ _ _

/-- The copy of the `i`-th event of a read succeeds. -/
def CopySucceeds (pgdir : Pgdir) (dst : AddrT) (i : Nat) : Prop :=
  copyoutRet pgdir (entryAddr dst i) EVENT_SIZE = some 0

/-- The copy of the `i`-th event of a read is refused. -/
def CopyFails (pgdir : Pgdir) (dst : AddrT) (i : Nat) : Prop :=
  copyoutRet pgdir (entryAddr dst i) EVENT_SIZE = some (-1)

instance (pgdir : Pgdir) (dst : AddrT) (i : Nat) : Decidable (CopySucceeds pgdir dst i) :=
  inferInstanceAs (Decidable (copyoutRet pgdir (entryAddr dst i) EVENT_SIZE = some 0))

instance (pgdir : Pgdir) (dst : AddrT) (i : Nat) : Decidable (CopyFails pgdir dst i) :=
  inferInstanceAs (Decidable (copyoutRet pgdir (entryAddr dst i) EVENT_SIZE = some (-1)))

theorem not_copySucceeds_of_copyFails (pgdir : Pgdir) (dst : AddrT) (i : Nat)
    (fails : CopyFails pgdir dst i) : ¬ CopySucceeds pgdir dst i := by
  intro succeeds
  have := fails.symm.trans succeeds
  simp at this

/-- The `count` oldest unread events, in the order of their sequence numbers. -/
def TraceBuffer.oldest (buf : TraceBuffer) (count : Nat) : List TraceEvent :=
  (List.range count).map fun i => buf.events (slot (buf.readseq + BitVec.ofNat 32 i))

/-- What a read that copied `done` events and then stopped leaves behind. -/
inductive ReadOutcome (pgdir : Pgdir) (dst : AddrT) (left count : Nat) (buf : TraceBuffer)
    (r : ReadResult) (done : Nat) : Prop where
  | drained (all : done = min left buf.unread) (failed : r.failed = false)
      (bufEq : r.buf = { buf with readseq := buf.readseq + BitVec.ofNat 32 done })
      (ret : r.ret = BitVec.ofNat 32 (count + done))
  | refused (some : done < min left buf.unread) (failed : r.failed = true)
      (refusal : CopyFails pgdir dst (count + done))
      (bufEq : r.buf = { buf with readseq := buf.readseq + BitVec.ofNat 32 (done + 1) })
      (ret : r.ret = if 0 < count + done then BitVec.ofNat 32 (count + done) else -1)

theorem unread_eq_zero_iff (buf : TraceBuffer) : buf.unread = 0 ↔ buf.readseq = buf.seq := by
  simp only [TraceBuffer.unread]
  constructor
  · intro h
    bv_omega
  · intro h
    simp [h]

theorem unread_moved (buf : TraceBuffer) (unread : buf.readseq ≠ buf.seq) :
    TraceBuffer.unread { buf with readseq := buf.readseq + 1 } + 1 = buf.unread := by
  simp only [TraceBuffer.unread]
  bv_omega

theorem oldest_succ (buf : TraceBuffer) (count : Nat) :
    buf.oldest (count + 1) =
      buf.events (slot buf.readseq) ::
        TraceBuffer.oldest { buf with readseq := buf.readseq + 1 } count := by
  simp only [TraceBuffer.oldest, List.range_succ_eq_map, List.map_cons, List.map_map]
  congr 1
  · simp
  · apply List.map_congr_left
    intro i _
    simp only [Function.comp]
    congr 2
    rw [BitVec.add_assoc]
    congr 1
    rw [Nat.succ_eq_add_one, BitVec.ofNat_add, BitVec.add_comm]
    rfl

theorem add_one_add_ofNat (a : Uint) (n : Nat) :
    a + 1 + BitVec.ofNat 32 n = a + BitVec.ofNat 32 (n + 1) := by
  rw [BitVec.ofNat_add]
  bv_omega

/-- The loop copies the oldest events one after the other, until enough are
copied, none is left, or a copy fails; a failed copy has moved `readseq` too. -/
theorem tracereadLoop_spec (pgdir : Pgdir) (dst : AddrT) : ∀ (left count : Nat)
    (buf : TraceBuffer) (mem : Mem) (r : ReadResult),
    tracereadLoop pgdir dst left count buf mem = some r →
      ∃ done, r.copied = buf.oldest done ∧
        (∀ i, i < done → CopySucceeds pgdir dst (count + i)) ∧
        ReadOutcome pgdir dst left count buf r done := by
  intro left
  induction left with
  | zero =>
    intro count buf mem r run
    simp only [tracereadLoop, Option.some.injEq] at run
    subst r
    refine ⟨0, rfl, by simp, .drained (by simp) rfl ?_ rfl⟩
    simp
  | succ left ih =>
    intro count buf mem r run
    simp only [tracereadLoop] at run
    by_cases empty : buf.readseq = buf.seq
    · rw [if_pos empty] at run
      cases Option.some.inj run
      have none := (unread_eq_zero_iff buf).mpr empty
      exact ⟨0, rfl, by simp, .drained (by simp [none]) rfl (by simp) rfl⟩
    · rw [if_neg empty] at run
      have shorter := unread_moved buf empty
      have answer := copyout_ret pgdir mem (entryAddr dst count)
        (buf.events (slot buf.readseq)).bytes
      rw [TraceEvent.length_bytes] at answer
      cases call : copyout pgdir mem (entryAddr dst count)
          (buf.events (slot buf.readseq)).bytes with
      | none => simp [call] at run
      | some pair =>
        obtain ⟨ret, mem'⟩ := pair
        rw [call] at answer
        simp only [call] at run
        simp only [Option.map_some] at answer
        rcases copyoutRet_cases pgdir (entryAddr dst count) EVENT_SIZE with h | h | h
        · rw [h] at answer
          simp at answer
        · -- the copy succeeded: the rest of the loop starts one event later
          have retEq : ret = 0 := Option.some.inj (answer.trans h)
          subst ret
          rw [if_neg (by decide)] at run
          cases rest : tracereadLoop pgdir dst left (count + 1)
              { buf with readseq := buf.readseq + 1 } mem' with
          | none => simp only [rest, reduceCtorEq] at run
          | some r' =>
            simp only [rest, Option.some.injEq] at run
            obtain ⟨done, copied, succeeded, outcome⟩ := ih _ _ _ _ rest
            refine ⟨done + 1, ?_, ?_, ?_⟩
            · rw [← run, oldest_succ, copied]
            · intro i bound
              cases i with
              | zero => exact h
              | succ i =>
                have := succeeded i (by omega)
                rwa [Nat.add_right_comm, Nat.add_assoc] at this
            · cases outcome with
              | drained all failed bufEq retEq =>
                refine .drained (by omega) (by rw [← run]; exact failed) ?_ ?_
                · rw [← run]
                  simp only [bufEq, add_one_add_ofNat]
                · rw [← run]
                  simp only [retEq, Nat.add_right_comm, Nat.add_assoc]
              | refused less failed refusal bufEq retEq =>
                have index : count + 1 + done = count + (done + 1) := by omega
                refine .refused (by omega) (by rw [← run]; exact failed)
                  (by rwa [index] at refusal) ?_ ?_
                · rw [← run]
                  simp only [bufEq, add_one_add_ofNat]
                · rw [← run]
                  simp only [retEq, index]
        · -- the copy failed, with `readseq` already past the event
          have retEq : ret = -1 := Option.some.inj (answer.trans h)
          subst ret
          rw [if_pos (by decide)] at run
          cases Option.some.inj run
          refine ⟨0, rfl, by simp, .refused (by omega) rfl h ?_ rfl⟩
          simp

end Xv6Tracing.Ktrace
