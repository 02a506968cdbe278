import Xv6Tracing.Pipe.Locks

/-!
# Pipes are first in, first out

The bytes that have been stored and not yet read stand in the circular buffer from
`nread` on, and what has been read is what was stored before them.  A read that
returns 0 found the write end closed and the buffer empty, and keeps `p->lock` up to
where it returns.
-/

set_option autoImplicit false

namespace Xv6Tracing.Pipes

open Lib

theorem pipesize_divides : PIPESIZE ∣ 2 ^ 32 := by decide

/-! ## The buffer as a queue -/

/-- The buffer holds `q`. -/
structure Contents (p : Pipe) (q : List Uchar) : Prop where
  bytes : Holds p.data p.nread q
  count : p.nwrite = p.nread + BitVec.ofNat 32 q.length
  bounded : q.length ≤ PIPESIZE

variable {q : List Uchar} {p : Pipe}

section

variable (contents : Contents p q)

include contents

theorem Contents.room (room : ¬ p.Full) :
    q.length < PIPESIZE := by
  refine lt_of_le_of_ne contents.bounded ?_
  intro full
  apply room
  rw [Pipe.Full, contents.count, full]

theorem Contents.length_eq :
    (p.nwrite - p.nread).toNat = q.length := by
  have small : q.length < 2 ^ 32 := lt_of_le_of_lt contents.bounded (by decide)
  rw [contents.count, BitVec.add_comm, BitVec.add_sub_cancel, BitVec.toNat_ofNat]
  exact Nat.mod_eq_of_lt small

theorem Contents.empty_iff :
    p.Empty ↔ q = [] := by
  constructor
  · intro empty
    have none : q.length = 0 := by
      rw [← contents.length_eq, ← empty, BitVec.sub_self]
      rfl
    exact List.length_eq_zero_iff.mp none
  · intro empty
    rw [Pipe.Empty, contents.count, empty]
    exact (BitVec.add_zero _).symm

theorem Contents.put (room : ¬ p.Full)
    (byte : Uchar) : Contents (p.put byte) (q ++ [byte]) where
  bytes := by
    have pushed := contents.bytes.push pipesize_divides (contents.room room) byte
    rwa [← contents.count] at pushed
  count := by
    rw [List.length_append, List.length_singleton, BitVec.ofNat_add, ← BitVec.add_assoc]
    exact congrArg (· + 1) contents.count
  bounded := by
    rw [List.length_append, List.length_singleton]
    exact contents.room room

end

theorem Contents.next {byte : Uchar} (contents : Contents p (byte :: q)) :
    p.next = byte ∧ Contents { p with nread := p.nread + 1 } q := by
  refine ⟨contents.bytes.head, contents.bytes.tail, ?_, ?_⟩
  · have count := contents.count
    rw [List.length_cons, Nat.add_comm, BitVec.ofNat_add, ← BitVec.add_assoc] at count
    exact count
  · have bounded := contents.bounded
    rw [List.length_cons] at bounded
    exact Nat.le_of_succ_le bounded

/-! ## The reads -/

section

variable {T : Type}

/-- What a process that holds `p->lock` knows about its read. -/
def Pc.Reading (s : World T) : Pc T → Prop
  | .readCopy n i =>
    s.copying.length = i ∧ i ≤ n.toInt.toNat ∧ (i = 0 → s.pipe.Empty → s.pipe.writeopen = false)
  | .waking (.readEnd n i) _ =>
    s.copying = [] ∧ i ≤ n.toInt.toNat ∧ s.reads.getLast?.map List.length = some i ∧
      (0 < n.toInt → i = 0 → s.pipe.Empty ∧ s.pipe.writeopen = false)
  | .readExit n ret =>
    s.copying = [] ∧ (ret = -1 ∨
      s.reads.getLast?.map List.length = some ret.toNat ∧ ret.toNat ≤ n.toInt.toNat ∧
        (0 < n.toInt → ret.toNat = 0 → s.pipe.Empty ∧ s.pipe.writeopen = false))
  | pc => pc.inside = true → s.copying = []

variable {s t : World T} {old new : Pc T} {u : T}

theorem Pc.Reading.congr {pc : Pc T} (reading : pc.Reading s)
    (pipe : t.pipe = s.pipe) (copying : t.copying = s.copying) (reads : t.reads = s.reads) :
    pc.Reading t := by
  unfold Pc.Reading at reading ⊢
  rw [pipe, copying, reads]
  exact reading

theorem Pc.reading_of_outside {pc : Pc T} (outside : pc.inside = false) :
    pc.Reading s := by
  unfold Pc.Reading
  split
  · cases outside
  · cases outside
  · cases outside
  · intro inside
    rw [outside] at inside
    cases inside

structure Fifo (s : World T) : Prop where
  locked : Locked s
  queue : ∃ q, s.stored = s.reads.flatten ++ s.copying ++ q ∧ Contents s.pipe q
  reading : ∀ u, (s.pc u).Reading s
  between : s.lk = none → s.copying = []

theorem Turn.reading (how : Turn s u old new) (reading : old.Reading s) : new.Reading s := by
  cases how with
  | enter call => exact Pc.reading_of_outside (inside_enter call)
  | ready n ready =>
    refine ⟨?_, Nat.zero_le _, fun _ => ready⟩
    rw [reading rfl]
    rfl
  | killed n => exact ⟨reading rfl, Or.inl rfl⟩
  | more | written | full | abandon | await | empty | rest => exact fun _ => reading rfl

theorem Entry.reading (how : Entry old new) (still : s.copying = []) : new.Reading s := by
  cases how with
  | relock site => cases site <;> exact fun _ => still
  | _ => exact fun _ => still

theorem Leave.still (how : Leave old new) (reading : old.Reading s) : s.copying = [] := by
  cases how with
  | read n ret => exact reading.1
  | _ => exact reading rfl

theorem reading_waking {site : WakeSite} {next : Waking} (next' : Waking)
    (reading : (Pc.waking site next : Pc T).Reading s) :
    (Pc.waking site next' : Pc T).Reading s := by
  cases site with
  | readEnd n i => exact reading
  | _ => exact fun _ => reading rfl

theorem TableEntry.reading (how : TableEntry s u old new)
    (reading : old.Reading s) : new.Reading s := by
  cases how with
  | waking site => exact reading_waking .wake reading
  | sleeping site => exact fun _ => reading rfl
  | off site => exact Pc.reading_of_outside rfl
  | killing victim => exact Pc.reading_of_outside rfl

theorem reading_wakeAfter {site : WakeSite} {next : Waking}
    (reading : (Pc.waking site next : Pc T).Reading s) : (site.after : Pc T).Reading s := by
  cases site with
  | readEnd n i =>
    obtain ⟨still, bounded, last, atEnd⟩ := reading
    have small : i < 2 ^ 32 := by
      have := n.toInt_lt
      omega
    have value : (BitVec.ofNat 32 i).toNat = i := by
      rw [BitVec.toNat_ofNat]
      exact Nat.mod_eq_of_lt small
    refine ⟨still, Or.inr ?_⟩
    rw [value]
    exact ⟨last, bounded, atEnd⟩
  | _ => exact fun _ => reading rfl

theorem TableLeave.reading (how : TableLeave old new)
    (reading : old.Reading s) : new.Reading s := by
  cases how with
  | waking site => exact reading_wakeAfter reading
  | sleeping site => exact Pc.reading_of_outside rfl
  | killing victim => exact Pc.reading_of_outside rfl

variable [DecidableEq T]

section

variable (fifo : Fifo s)

include fifo

theorem Fifo.reading_self (move : Move s u t) :
    (t.pc u).Reading t := by
  have reading := fifo.reading u
  cases move with
  | turn how =>
    rw [goto_pc]
    exact (how.reading reading).congr rfl rfl rfl
  | lock how free =>
    rw [goto_pc]
    exact how.reading (fifo.between free)
  | unlock how =>
    rw [goto_pc]
    exact Pc.reading_of_outside how.inside_new
  | lockTable how =>
    rw [goto_pc]
    exact (how.reading reading).congr rfl rfl rfl
  | unlockTable how =>
    rw [goto_pc]
    exact (how.reading reading).congr rfl rfl rfl
  | put w i here =>
    rw [here] at reading
    rw [goto_pc]
    exact fun _ => reading rfl
  | copy n i here more =>
    rw [here] at reading
    rw [goto_pc]
    refine ⟨?_, by omega, fun zero => absurd zero (Nat.succ_ne_zero i)⟩
    change (s.copying ++ [s.pipe.next]).length = i + 1
    rw [List.length_append, List.length_singleton, reading.1]
  | finish n i here done =>
    rw [here] at reading
    obtain ⟨length, bounded, open'⟩ := reading
    rw [goto_pc]
    refine ⟨rfl, bounded, ?_, ?_⟩
    · change (s.reads ++ [s.copying]).getLast?.map List.length = some i
      rw [List.getLast?_concat, Option.map_some, length]
    · intro positive zero
      have empty := done (by omega)
      exact ⟨empty, open' zero empty⟩
  | close writable here =>
    rw [here] at reading
    rw [goto_pc]
    exact fun _ => reading rfl
  | wake site here =>
    rw [here] at reading
    rw [goto_pc]
    exact (reading_waking .release reading).congr rfl rfl rfl
  | mark site here =>
    rw [goto_pc]
    exact Pc.reading_of_outside rfl
  | kill victim here =>
    rw [goto_pc]
    exact Pc.reading_of_outside rfl

/-- While `u` holds `p->lock` the others are outside; while it does not it changes
nothing that a read depends on. -/
theorem Fifo.reading_other {v : T} (move : Move s u t)
    (other : v ≠ u) : (t.pc v).Reading t := by
  rw [move.pc_other other]
  by_cases held : (s.pc u).inside = true
  · exact Pc.reading_of_outside (fifo.locked.pipe.outside other held)
  · obtain ⟨pipe, copying, reads⟩ := move.pipe_of_outside (Bool.eq_false_of_not_eq_true held)
    exact (fifo.reading v).congr pipe copying reads

theorem Fifo.queue_move (move : Move s u t) :
    ∃ q, t.stored = t.reads.flatten ++ t.copying ++ q ∧ Contents t.pipe q := by
  obtain ⟨q, stored, contents⟩ := fifo.queue
  cases move with
  | put w i here room =>
    refine ⟨q ++ [w.addr i], ?_, contents.put room (w.addr i)⟩
    change s.stored ++ [w.addr i] = _
    rw [stored, List.append_assoc]
    rfl
  | copy n i here more bytes =>
    cases q with
    | nil => exact absurd (contents.empty_iff.mpr rfl) bytes
    | cons byte q =>
      obtain ⟨next, rest⟩ := contents.next
      refine ⟨q, ?_, rest⟩
      change s.stored = s.reads.flatten ++ (s.copying ++ [s.pipe.next]) ++ q
      rw [stored, next]
      simp
  | finish n i here done =>
    refine ⟨q, ?_, contents⟩
    change s.stored = (s.reads ++ [s.copying]).flatten ++ [] ++ q
    rw [stored]
    simp
  | close writable here =>
    refine ⟨q, stored, ?_⟩
    cases writable
    · exact ⟨contents.bytes, contents.count, contents.bounded⟩
    · exact ⟨contents.bytes, contents.count, contents.bounded⟩
  | _ => exact ⟨q, stored, contents⟩

theorem Fifo.between_move (move : Move s u t)
    (free : t.lk = none) : t.copying = [] := by
  by_cases held : (s.pc u).inside = true
  · have holder := (fifo.locked.pipe u).mp held
    cases move with
    | unlock how => exact how.still (fifo.reading u)
    | lock how => cases free
    | _ => exact absurd (holder.symm.trans free) (by simp)
  · have outside := Bool.eq_false_of_not_eq_true held
    rw [(move.pipe_of_outside outside).2.1]
    apply fifo.between
    cases move with
    | unlock how => exact absurd how.inside_old held
    | lock how => cases free
    | _ => exact free

theorem Fifo.move (move : Move s u t) : Fifo t where
  locked := fifo.locked.move move
  queue := fifo.queue_move move
  reading := by
    intro v
    by_cases self : v = u
    · subst self
      exact fifo.reading_self move
    · exact fifo.reading_other move self
  between := fifo.between_move move

end

omit [DecidableEq T] in
theorem fifo_pipealloc (data : Fin PIPESIZE → Uchar) (killed : T → Bool) :
    Fifo (pipealloc T data killed) where
  locked := locked_pipealloc data killed
  queue := ⟨[], rfl, holds_nil data 0, rfl, Nat.zero_le _⟩
  reading := fun _ => Pc.reading_of_outside rfl
  between := fun _ => rfl

/-! ## First in, first out -/

/-- The buffer holds at most 512 bytes.  What the finished reads copied out, and what
the one in progress has, is the beginning of what was stored, and the rest is in the
buffer.  A read about to return has copied out as many bytes as it returns, and when
that is none although some were wanted, the write end is closed and every byte has
been read. -/
structure InOrder (s : World T) : Prop where
  bounded : (s.pipe.nwrite - s.pipe.nread).toNat ≤ PIPESIZE
  finished : s.reads.flatten <+: s.stored
  unread : ∃ q, s.stored = s.reads.flatten ++ s.copying ++ q ∧
    q.length = (s.pipe.nwrite - s.pipe.nread).toNat
  returned : ∀ u n ret, s.pc u = .readExit n ret → ret ≠ -1 →
    ∃ bytes, s.reads.getLast? = some bytes ∧ ret.toNat = bytes.length
  atEnd : ∀ u n, s.pc u = .readExit n 0 → 0 < n.toInt →
    s.pipe.writeopen = false ∧ s.reads.flatten = s.stored

omit [DecidableEq T] in
theorem Fifo.inOrder (fifo : Fifo s) : InOrder s := by
  obtain ⟨q, stored, contents⟩ := fifo.queue
  constructor
  · rw [contents.length_eq]
    exact contents.bounded
  · rw [stored, List.append_assoc]
    exact List.prefix_append _ _
  · exact ⟨q, stored, contents.length_eq.symm⟩
  · intro u n ret here success
    have reading := fifo.reading u
    rw [here] at reading
    grind [reading.2]
  · intro u n here positive
    have reading := fifo.reading u
    rw [here] at reading
    obtain ⟨still, failed | ⟨-, -, atEnd⟩⟩ := reading
    · exact absurd failed (by decide)
    · grind [contents.empty_iff.mp]

/-- Every interleaving of writes, reads, closes and kills on a new pipe hands the
bytes on in order. -/
theorem pipe_fifo (data : Fin PIPESIZE → Uchar) (killed : T → Bool) (ops : List (T × Call T)) :
    Throughout step InOrder (pipealloc T data killed) ops := by
  have kept : ∀ (s : World T) (op : T × Call T) (t : World T), Fifo s → step s op = some t →
      Fifo t := by
    intro s op t fifo taken
    exact fifo.move (step_move taken)
  exact throughout_invariant kept (fun _ fifo => fifo.inOrder) ops _ (fifo_pipealloc data killed)

end

end Xv6Tracing.Pipes
