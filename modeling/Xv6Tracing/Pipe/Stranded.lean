import Xv6Tracing.Pipe.Locks

/-!
# Nobody is left asleep on a pipe

A process that sleeps on `&p->nread` or `&p->nwrite`, or is about to, has nothing to
do, or the holder of `p->lock` still owes it a `wakeup` before it lets the lock go.
The exception is a `pipewrite` that returns -1: a writer that has stored bytes, finds the
pipe full and has been killed, or finds the read end closed, owes a `wakeup(&p->nread)`.
-/

set_option autoImplicit false

namespace Xv6Tracing.Pipes

open Lib

def Blocked (p : Pipe) : Chan → Prop
  | .nread => p.Empty ∧ p.writeopen = true
  | .nwrite => p.Full ∧ p.readopen = true

section

variable {T : Type}

/-- What a process on its way to `sleep` has tested under `p->lock`. -/
def Pc.Waits (p : Pipe) : Pc T → Prop
  | .writeStop _ _ => p.Full
  | .waking (.writeFull _ _) _ => Blocked p .nwrite
  | .readStop _ => Blocked p .nread
  | .sleeping site .acquire => Blocked p site.chan
  | .sleeping site .unlock => Blocked p site.chan
  | _ => True

/-- From here the process calls `wakeup(chan)` before it lets `p->lock` go.  The flag
says that it has stored bytes since it last woke the readers. -/
def Pc.Owes (stored : Bool) (chan : Chan) : Pc T → Prop
  | .writeNext _ _ | .writeTest _ _ | .writeStop _ _ => chan = .nread ∧ stored = true
  | .readCopy _ _ => chan = .nwrite
  | .waking site .acquire => site.chan = chan
  | .waking site .wake => site.chan = chan
  | _ => False

def Settled (s : World T) (chan : Chan) : Prop :=
  Blocked s.pipe chan ∨ ∃ v, s.lk = some v ∧ (s.pc v).Owes (s.unannounced v) chan

structure Awaited (s : World T) : Prop where
  locked : Locked s
  waits : ∀ u, (s.pc u).Waits s.pipe
  marked : ∀ u site, s.pc u = .sleeping site .mark → Settled s site.chan
  asleep : ∀ u chan, s.asleep u = some chan → Settled s chan

def Announces (s : World T) (op : T × Call T) : Prop :=
  ∀ w i, s.pc op.1 = .writeStop w i → s.unannounced op.1 = true →
    s.pipe.readopen = true ∧ s.killed op.1 = false

/-! ## Tests stay true -/

variable {p : Pipe} {old new : Pc T} {u v : T} {s t : World T} {chan : Chan} {stored : Bool}
    {op : T × Call T}

theorem Pc.waits_of_outside {pc : Pc T} (outside : pc.inside = false) :
    pc.Waits p := by
  unfold Pc.Waits
  split
  all_goals trivial

theorem waits_waking {site : WakeSite} {next : Waking} (next' : Waking)
    (waits : (Pc.waking site next : Pc T).Waits p) : (Pc.waking site next' : Pc T).Waits p := by
  cases site with
  | writeFull w i => exact waits
  | _ => trivial

theorem Turn.waits (how : Turn s u old new) (waits : old.Waits s.pipe) : new.Waits s.pipe := by
  cases how with
  | enter call => exact Pc.waits_of_outside (inside_enter call)
  | full w i full => exact full
  | await w i isOpen => exact ⟨waits, isOpen⟩
  | empty n empty isOpen => exact ⟨empty, isOpen⟩
  | rest n => exact waits
  | _ => trivial

theorem Entry.waits (how : Entry old new) : new.Waits p := by
  cases how with
  | relock site => cases site <;> trivial
  | _ => trivial

theorem TableEntry.waits (how : TableEntry s u old new)
    (waits : old.Waits s.pipe) : new.Waits s.pipe := by
  cases how with
  | waking site => exact waits_waking .wake waits
  | sleeping site => exact waits
  | _ => trivial

theorem TableLeave.waits (how : TableLeave old new) (waits : old.Waits p) : new.Waits p := by
  cases how with
  | waking site =>
    cases site with
    | writeFull w i => exact waits
    | _ => trivial
  | _ => trivial

/-! ## Debts are kept -/

theorem Turn.owes (how : Turn s u old new) (owes : old.Owes stored chan)
    (announces : ∀ w i, old = .writeStop w i → stored = true →
      s.pipe.readopen = true ∧ s.killed u = false) : new.Owes stored chan := by
  cases how with
  | more w i => exact owes
  | written w i => exact owes.1.symm
  | full w i => exact owes
  | abandon w i stop =>
    obtain ⟨isOpen, alive⟩ := announces w i rfl owes.2
    simp [isOpen, alive] at stop
  | await w i => exact owes.1.symm
  | _ => exact owes.elim

theorem Leave.not_owes (how : Leave old new) :
    ¬ old.Owes stored chan := by
  cases how <;> exact fun owes => owes

theorem TableEntry.owes
    (how : TableEntry s u old new) (owes : old.Owes stored chan) : new.Owes stored chan := by
  cases how with
  | waking site => exact owes
  | _ => exact owes.elim

theorem TableLeave.not_owes (how : TableLeave old new) : ¬ old.Owes stored chan := by
  cases how <;> exact fun owes => owes

variable [DecidableEq T]

theorem Move.unannounced_other (move : Move s u t) (other : v ≠ u) :
    t.unannounced v = s.unannounced v := by
  cases move with
  | put => exact Function.update_of_ne other _ _
  | wake site =>
    change (if site.chan = Chan.nread then Function.update s.unannounced u false
      else s.unannounced) v = _
    split
    · exact Function.update_of_ne other _ _
    · rfl
  | _ => rfl

theorem Move.lk_other (locked : Locked s) (move : Move s u t)
    (held : s.lk = some v) (other : v ≠ u) : t.lk = some v := by
  cases move with
  | lock how free => exact absurd (free.symm.trans held) (by simp)
  | unlock how =>
    have mine := (locked.pipe u).mp how.inside_old
    rw [held] at mine
    exact absurd (Option.some.inj mine) other
  | _ => exact held

theorem Move.owes_self (move : Move s op.1 t) (announces : Announces s op) (held : s.lk = some op.1)
    (owes : (s.pc op.1).Owes (s.unannounced op.1) chan)
    (other : ∀ site, s.pc op.1 = .waking site .wake → site.chan ≠ chan) :
    t.lk = some op.1 ∧ (t.pc op.1).Owes (t.unannounced op.1) chan := by
  cases move with
  | turn how =>
    refine ⟨held, ?_⟩
    rw [goto_pc]
    exact how.owes owes announces
  | lock how free => exact absurd (free.symm.trans held) (by simp)
  | unlock how => exact absurd owes how.not_owes
  | lockTable how =>
    refine ⟨held, ?_⟩
    rw [goto_pc]
    exact how.owes owes
  | unlockTable how => exact absurd owes how.not_owes
  | put w i here =>
    rw [here] at owes
    refine ⟨held, ?_⟩
    rw [goto_pc]
    exact ⟨owes.1, Function.update_self ..⟩
  | copy n i here =>
    rw [here] at owes
    refine ⟨held, ?_⟩
    rw [goto_pc]
    exact owes
  | finish n i here =>
    rw [here] at owes
    refine ⟨held, ?_⟩
    rw [goto_pc]
    exact owes.symm
  | close writable here =>
    rw [here] at owes
    exact owes.elim
  | wake site here =>
    rw [here] at owes
    exact absurd owes (other site here)
  | mark site here =>
    rw [here] at owes
    exact owes.elim
  | kill victim here =>
    rw [here] at owes
    exact owes.elim

/-- A step that gives sleepers something to do makes its process owe them a
`wakeup`. -/
theorem Move.blocked (locked : Locked s)
    (move : Move s u t) (blocked : Blocked s.pipe chan) : Settled t chan := by
  have holder : (s.pc u).inside = true → s.lk = some u := (locked.pipe u).mp
  cases move with
  | put w i here room =>
    cases chan with
    | nread =>
      refine Or.inr ⟨u, holder (by rw [here]; rfl), ?_⟩
      rw [goto_pc]
      exact ⟨rfl, Function.update_self ..⟩
    | nwrite => exact absurd blocked.1 room
  | copy n i here more bytes =>
    cases chan with
    | nread => exact absurd blocked.1 bytes
    | nwrite =>
      refine Or.inr ⟨u, holder (by rw [here]; rfl), ?_⟩
      rw [goto_pc]
      exact rfl
  | close writable here =>
    have owed : writable = (chan == .nread) → Settled (World.goto
        { s with pipe := s.pipe.close writable } u (.waking (.close writable) .acquire)) chan := by
      intro same
      refine Or.inr ⟨u, holder (by rw [here]; rfl), ?_⟩
      rw [goto_pc, same]
      cases chan <;> rfl
    cases writable <;> cases chan
    · exact Or.inl blocked
    · exact owed rfl
    · exact owed rfl
    · exact Or.inl blocked
  | _ => exact Or.inl blocked

theorem Settled.move (settled : Settled s chan)
    (locked : Locked s) (announces : Announces s op) (move : Move s op.1 t)
    (other : ∀ site, s.pc op.1 = .waking site .wake → site.chan ≠ chan) : Settled t chan := by
  rcases settled with blocked | ⟨v, held, owes⟩
  · exact move.blocked locked blocked
  · by_cases self : v = op.1
    · subst self
      exact Or.inr ⟨op.1, move.owes_self announces held owes other⟩
    · refine Or.inr ⟨v, move.lk_other locked held self, ?_⟩
      rw [move.pc_other self, move.unannounced_other self]
      exact owes

/-! ## The invariant -/

theorem Awaited.waits_self (awaited : Awaited s) (move : Move s u t) :
    (t.pc u).Waits t.pipe := by
  have waits := awaited.waits u
  cases move with
  | turn how =>
    rw [goto_pc]
    exact how.waits waits
  | lock how =>
    rw [goto_pc]
    exact how.waits
  | unlock how =>
    rw [goto_pc]
    exact Pc.waits_of_outside how.inside_new
  | lockTable how =>
    rw [goto_pc]
    exact how.waits waits
  | unlockTable how =>
    rw [goto_pc]
    exact how.waits waits
  | wake site here =>
    rw [here] at waits
    rw [goto_pc]
    exact waits_waking .release waits
  | put | copy | finish | close | mark | kill =>
    rw [goto_pc]
    trivial

theorem Awaited.waits_move (awaited : Awaited s) (move : Move s u t)
    (v : T) : (t.pc v).Waits t.pipe := by
  by_cases self : v = u
  · subst self
    exact awaited.waits_self move
  · grind [move.pc_other, Pc.waits_of_outside, awaited.locked.pipe.outside, move.pipe_of_outside,
      Awaited]

theorem Move.mark_self {site : SleepSite} (move : Move s u t)
    (here : t.pc u = .sleeping site .mark) :
    s.pc u = .sleeping site .unlock ∧ t.pipe = s.pipe := by
  cases move with
  | turn how =>
    rw [goto_pc] at here
    generalize s.pc u = old at how
    cases how with
    | enter call => cases call <;> cases here
    | _ => cases here
  | lock how =>
    rw [goto_pc] at here
    generalize s.pc u = old at how
    cases how with
    | relock site => cases site <;> cases here
    | _ => cases here
  | unlock how =>
    rw [goto_pc] at here
    refine ⟨?_, rfl⟩
    generalize s.pc u = old at how ⊢
    cases how with
    | unlock site =>
      cases here
      rfl
    | _ => cases here
  | lockTable how =>
    rw [goto_pc] at here
    generalize s.pc u = old at how
    cases how <;> cases here
  | unlockTable how =>
    rw [goto_pc] at here
    generalize s.pc u = old at how
    cases how with
    | waking site => cases site <;> cases here
    | _ => cases here
  | put | copy | finish | close | wake | mark | kill =>
    rw [goto_pc] at here
    cases here

theorem Awaited.marked_move (awaited : Awaited s)
    (announces : Announces s op) (move : Move s op.1 t) (v : T) (site : SleepSite)
    (here : t.pc v = .sleeping site .mark) : Settled t site.chan := by
  by_cases self : v = op.1
  · subst self
    obtain ⟨tested, pipe⟩ := move.mark_self here
    have blocked := awaited.waits op.1
    rw [tested] at blocked
    refine Or.inl ?_
    rw [pipe]
    exact blocked
  · rw [move.pc_other self] at here
    refine (awaited.marked v site here).move awaited.locked announces move ?_
    -- a process about to sleep holds `ptable.lock`, so nobody is in `wakeup1`
    intro other waking
    have mine : (s.pc v).table = true := by rw [here]; rfl
    have theirs : (s.pc op.1).table = true := by rw [waking]; rfl
    exact absurd (awaited.locked.table.unique mine theirs) self

/-- Who is asleep after a step was, and was not woken, or has just gone to sleep. -/
theorem Move.asleep (move : Move s u t) (sleeps : t.asleep v = some chan) :
    (s.asleep v = some chan ∨ ∃ site, s.pc u = .sleeping site .mark ∧ site.chan = chan) ∧
      ∀ site, s.pc u = .waking site .wake → site.chan ≠ chan := by
  cases move with
  | wake site here =>
    change (if s.asleep v = some site.chan then none else s.asleep v) = some chan at sleeps
    grind
  | mark site here =>
    refine ⟨?_, fun site' here' => by cases here.symm.trans here'⟩
    change Function.update s.asleep u (some site.chan) v = some chan at sleeps
    grind
  | kill victim here =>
    refine ⟨Or.inl ?_, fun site' here' => by cases here.symm.trans here'⟩
    change Function.update s.asleep victim none v = some chan at sleeps
    grind
  | turn how =>
    refine ⟨Or.inl sleeps, fun site here => ?_⟩
    rw [here] at how
    cases how
  | lock how =>
    refine ⟨Or.inl sleeps, fun site here => ?_⟩
    rw [here] at how
    cases how
  | unlock how =>
    refine ⟨Or.inl sleeps, fun site here => ?_⟩
    rw [here] at how
    cases how
  | lockTable how =>
    refine ⟨Or.inl sleeps, fun site here => ?_⟩
    rw [here] at how
    cases how
  | unlockTable how =>
    refine ⟨Or.inl sleeps, fun site here => ?_⟩
    rw [here] at how
    cases how
  | put _ _ here | copy _ _ here | finish _ _ here | close _ here =>
    exact ⟨Or.inl sleeps, fun site here' => by cases here.symm.trans here'⟩

theorem Awaited.move (awaited : Awaited s)
    (announces : Announces s op) (move : Move s op.1 t) : Awaited t where
  locked := awaited.locked.move move
  waits := awaited.waits_move move
  marked := awaited.marked_move announces move
  asleep := by
    intro v chan sleeps
    obtain ⟨before, other⟩ := move.asleep sleeps
    have settled : Settled s chan := by grind [Awaited]
    exact settled.move awaited.locked announces move other

omit [DecidableEq T] in
theorem awaited_pipealloc (data : Fin PIPESIZE → Uchar) (killed : T → Bool) :
    Awaited (pipealloc T data killed) where
  locked := locked_pipealloc data killed
  waits := fun _ => trivial
  marked := by
    intro u site here
    cases here
  asleep := by
    intro u chan sleeps
    cases sleeps

/-! ## No process is stranded -/

/-- While both locks are free, who sleeps on `&p->nread` has no bytes to read and an
open write end, and who sleeps on `&p->nwrite` has no space and an open read end. -/
def NotStranded (s : World T) : Prop :=
  s.lk = none → s.ptable = none → ∀ u,
    (s.asleep u = some .nread →
      (s.pipe.nwrite - s.pipe.nread).toNat = 0 ∧ s.pipe.writeopen = true) ∧
    (s.asleep u = some .nwrite →
      (s.pipe.nwrite - s.pipe.nread).toNat = PIPESIZE ∧ s.pipe.readopen = true)

omit [DecidableEq T] in
theorem Settled.blocked (settled : Settled s chan) (free : s.lk = none) : Blocked s.pipe chan := by
  rcases settled with blocked | ⟨v, held, -⟩
  · exact blocked
  · rw [free] at held
    cases held

omit [DecidableEq T] in
theorem Awaited.notStranded (awaited : Awaited s) : NotStranded s := by
  intro free _ u
  constructor
  · intro sleeps
    obtain ⟨empty, isOpen⟩ := (awaited.asleep u .nread sleeps).blocked free
    rw [← empty, BitVec.sub_self]
    exact ⟨rfl, isOpen⟩
  · intro sleeps
    obtain ⟨full, isOpen⟩ := (awaited.asleep u .nwrite sleeps).blocked free
    rw [full, BitVec.add_comm, BitVec.add_sub_cancel]
    exact ⟨rfl, isOpen⟩

/-- Nobody is stranded in a run in which every writer that has stored bytes and finds
the pipe full is alive and has a reader. -/
theorem never_stranded (data : Fin PIPESIZE → Uchar) (killed : T → Bool)
    (ops : List (T × Call T))
    (announces : Along step Announces (pipealloc T data killed) ops) :
    Throughout step NotStranded (pipealloc T data killed) ops := by
  have kept : ∀ (s : World T) (op : T × Call T) (t : World T), Awaited s → Announces s op →
      step s op = some t → Awaited t := by
    intro s op t awaited announces taken
    exact awaited.move announces (step_move taken)
  exact throughout_of_along kept (fun _ awaited => awaited.notStranded) ops _
    (awaited_pipealloc data killed) announces

end

/-! ## The writer that gives up -/

/-- Process 0 reads from the empty pipe and goes to sleep.  Process 1 starts to write
600 bytes, process 2 kills it, and process 1 goes on for as many steps. -/
def writerKilled (writes : Nat) : List (Fin 3 × Call (Fin 3)) :=
  let writer := (1, .write ⟨fun _ => 0, 600⟩)
  List.replicate 7 (0, .read 1) ++ List.replicate 2 writer ++ List.replicate 4 (2, .kill 1) ++
    List.replicate writes writer

instance (s : World (Fin 3)) (op : Fin 3 × Call (Fin 3)) : Decidable (Announces s op) :=
  match here : s.pc op.1 with
  | .writeStop _ _ =>
    decidable_of_iff (s.unannounced op.1 = true →
      s.pipe.readopen = true ∧ s.killed op.1 = false) (by simp [Announces, here])
  | .idle | .writeEnter _ | .writeNext _ _ | .writeTest _ _ | .writeExit _ | .readEnter _
  | .readTest _ | .readStop _ | .readCopy _ _ | .readExit _ _ | .closeEnter _ | .closeMark _
  | .closeExit | .waking _ _ | .sleeping _ _ | .killing _ _ =>
    isTrue (fun _ _ there => by simp [here] at there)

instance (s : World (Fin 3)) : Decidable (NotStranded s) := by
  unfold NotStranded
  infer_instance

/-- After 512 bytes the writer gives up: the pipe is full, both locks are free, and the
reader sleeps. -/
theorem killed_writer_strands_reader :
    ¬ Throughout step NotStranded (pipealloc (Fin 3) (fun _ => 0) (fun _ => false))
      (writerKilled 1028) := by
  decide +kernel

theorem never_stranded_sample :
    Along step Announces (pipealloc (Fin 3) (fun _ => 0) (fun _ => false)) (writerKilled 20) ∧
    Throughout step NotStranded (pipealloc (Fin 3) (fun _ => 0) (fun _ => false))
      (writerKilled 20) := by
  have announces : Along step Announces (pipealloc (Fin 3) (fun _ => 0) (fun _ => false))
      (writerKilled 20) := by decide +kernel
  exact ⟨announces, never_stranded _ _ _ announces⟩

end Xv6Tracing.Pipes
