import Xv6Tracing.Sched.Model

/-!
# What a step does to threads and CPUs

Every step of a CPU is one of the moves of `Move`, told by what it does to the lock, the
states, the pages and the place of the code, whatever call it belongs to.
-/

set_option autoImplicit false

namespace Xv6Tracing.Sched

open Lib

variable {C K L : Type}

/-! ## Program points -/

def Pc.Back (lk : Lk L) (ret : Pc K L) : Prop :=
  lk = .ptable ∧ ret = .waitScan ∨ ∃ r, ret = .hold lk r

inductive Pc.Parked : Pc K L → Prop
  | yieldRelease (ret : Pc K L) : Parked (.yieldRelease ret)
  | sleepTidy (lk : Lk L) (ret : Pc K L) : Parked (.sleepTidy lk ret)
  | zombie : Parked .zombie

def Pc.Wf : Pc K L → Prop
  | .hold _ ret | .tested _ _ ret | .yieldMark ret | .yieldRelease ret => ret.Unlocked ∧ ret.Wf
  | .sched resume => resume.Parked ∧ resume.Wf
  | .sleepRelease _ l ret | .sleepUnlock l ret | .sleepLock l ret => ret.Back (.other l) ∧ ret.Wf
  | .sleepChan _ lk ret | .sleepMark _ lk ret | .sleepTidy lk ret => ret.Back lk ∧ ret.Wf
  | .wake _ ret | .wakeRelease ret => ret.inside = false ∧ ret.Wf
  | _ => True

def Pc.state : Pc K L → ProcState
  | .sched (.yieldRelease _) => .RUNNABLE
  | .sched (.sleepTidy _ _) => .SLEEPING
  | .sched _ => .ZOMBIE
  | _ => .RUNNING

variable {pc : Pc K L}

theorem Pc.state_of_outside (outside : pc.inside = false) :
    pc.state = .RUNNING := by
  cases pc with
  | sched resume => cases outside
  | _ => rfl

theorem Pc.Back.state {lk : Lk L} {ret : Pc K L} (back : ret.Back lk) : ret.state = .RUNNING := by
  rcases back with ⟨-, rfl⟩ | ⟨r, rfl⟩ <;> rfl

/-- A slot that a thread works on: in `fork`, new, with its stack, and with its page
table; in `wait`, a zombie, without its stack, and without its page table. -/
inductive Work where
  | none
  | bare (np : Fin NPROC)
  | stacked (np : Fin NPROC)
  | complete (np : Fin NPROC)
  | reap (z : Fin NPROC)
  | unstacked (z : Fin NPROC)
  | untabled (z : Fin NPROC)

def Work.slot : Work → Option (Fin NPROC)
  | .none => Option.none
  | .bare p | .stacked p | .complete p | .reap p | .unstacked p | .untabled p => some p

def Pc.work : Pc K L → Work
  | .hold _ ret | .tested _ _ ret | .yieldMark ret | .yieldRelease ret => ret.work
  | .sched resume => resume.work
  | .sleepRelease _ _ ret | .sleepUnlock _ ret | .sleepLock _ ret => ret.work
  | .sleepChan _ _ ret | .sleepMark _ _ ret | .sleepTidy _ ret => ret.work
  | .wake _ ret | .wakeRelease ret => ret.work
  | .allocRelease (some np) | .allocStack np => .bare np
  | .forkCopy np => .stacked np
  | .forkSet np | .forkRun np => .complete np
  | .waitStack z => .reap z
  | .waitTable z => .unstacked z
  | .waitReset z => .untabled z
  | _ => .none

def Work.Reaps : Work → Prop
  | .reap _ | .unstacked _ | .untabled _ => True
  | _ => False

/-- `wait` is not interrupted while it takes a process down. -/
theorem Pc.reaps_cases (wf : pc.Wf) (reaps : pc.work.Reaps) :
    ∃ z, pc = .waitStack z ∨ pc = .waitTable z ∨ pc = .waitReset z := by
  induction pc with
  | waitStack z => exact ⟨z, Or.inl rfl⟩
  | waitTable z => exact ⟨z, Or.inr (Or.inl rfl)⟩
  | waitReset z => exact ⟨z, Or.inr (Or.inr rfl)⟩
  | hold lk ret ih | tested lk k ret ih | yieldMark ret ih | yieldRelease ret ih =>
    obtain ⟨z, rfl | rfl | rfl⟩ := ih wf.2 reaps <;> cases wf.1.1
  | sched resume ih => obtain ⟨z, rfl | rfl | rfl⟩ := ih wf.2 reaps <;> cases wf.1
  | sleepRelease k l ret ih | sleepUnlock l ret ih | sleepLock l ret ih | sleepChan k lk ret ih
  | sleepMark k lk ret ih | sleepTidy lk ret ih =>
    obtain ⟨z, rfl | rfl | rfl⟩ := ih wf.2 reaps <;>
      rcases wf.1 with ⟨-, impossible⟩ | ⟨r, impossible⟩ <;> cases impossible
  | wake k ret ih | wakeRelease ret ih =>
    obtain ⟨z, rfl | rfl | rfl⟩ := ih wf.2 reaps <;> cases wf.1
  | allocRelease np =>
    cases np with
    | none => cases reaps
    | some np => cases reaps
  | _ => cases reaps

structure Passes (old new : Pc K L) : Prop where
  wf : old.Wf → new.Wf
  before : old.state = .RUNNING
  after : old.Wf → new.state = .RUNNING
  work : new.work = old.work

/-- The same, and it takes or releases no spin lock but `ptable.lock`. -/
structure Shift (old new : Pc K L) : Prop extends Passes old new where
  holds : old.Wf → new.holds = old.holds

def Core.code (s : Core C K L) (c : C) : Option (Pc K L) :=
  match s.loc c with
  | .thread p => some (s.pc p)
  | .handler pc => some pc
  | _ => none

section Table

variable {s t : World C K L} {c : C}

variable {f : World C K L → World C K L}

theorem of_take (success : (s.take c).map f = some t) :
    s.lk = none ∧ t = f { s with lk := some c } := by
  unfold World.take at success
  split at success
  · rename_i free
    cases success
    exact ⟨free, rfl⟩
  · cases success

theorem of_takeOther [DecidableEq L] {l : L} (success : (s.takeOther c l).map f = some t) :
    s.locks l = none ∧ t = f { s with locks := Function.update s.locks l (some c) } := by
  unfold World.takeOther at success
  split at success
  · rename_i free
    cases success
    exact ⟨free, rfl⟩
  · cases success

theorem woken_wakeup1 [DecidableEq K] (chan : Option K) (p : Fin NPROC) :
    (wakeup1 s chan).state p = s.state p ∨
      s.state p = .SLEEPING ∧ (wakeup1 s chan).state p = .RUNNABLE := by
  change wokenBy s chan p = _ ∨ _ ∧ wokenBy s chan p = _
  unfold wokenBy
  split
  · rename_i asleep
    exact Or.inr ⟨asleep.1, rfl⟩
  · exact Or.inl rfl

end Table

section Moves

variable [DecidableEq C] [DecidableEq L]

/-- The moves of CPU `c`. -/
inductive Move (s : Core C K L) (c : C) : Core C K L → Prop
  | turn (old new : Pc K L) (here : s.code c = some old) (shift : Shift old new)
      (inside : old.Wf → new.inside = old.inside) : Move s c (s.goto c new)
  | takeOther (l : L) (old new : Pc K L) (here : s.code c = some old) (passes : Passes old new)
      (inside : old.Wf → new.inside = old.inside) (before : old.holds = none)
      (after : old.Wf → new.holds = some l) (free : s.locks l = none) :
      Move s c (({ s with locks := Function.update s.locks l (some c) }).goto c new)
  | giveOther (l : L) (old new : Pc K L) (here : s.code c = some old) (passes : Passes old new)
      (inside : old.Wf → new.inside = old.inside) (before : old.holds = some l)
      (after : old.Wf → new.holds = none) (held : s.locks l = some c) :
      Move s c (({ s with locks := Function.update s.locks l none }).goto c new)
  | take (old new : Pc K L) (here : s.code c = some old) (shift : Shift old new)
      (outside : old.inside = false) (inside : new.inside = true) (free : s.lk = none) :
      Move s c (({ s with lk := some c }).goto c new)
  | give (old new : Pc K L) (here : s.code c = some old) (shift : Shift old new)
      (inside : old.inside = true) (outside : old.Wf → new.inside = false)
      (held : s.lk = some c) : Move s c (({ s with lk := none }).goto c new)
  | wake (old new : Pc K L) (here : s.code c = some old) (shift : Shift old new)
      (inside : old.inside = true ∧ new.inside = true) (state : Fin NPROC → ProcState)
      (woken : ∀ p, state p = s.state p ∨ s.state p = .SLEEPING ∧ state p = .RUNNABLE) :
      Move s c (({ s with state := state }).goto c new)
  | mark (old resume : Pc K L) (q : Fin NPROC) (here : s.code c = some old)
      (own : s.proc c = some q) (before : old.state = .RUNNING) (inside : old.inside = true)
      (wf : old.Wf → (Pc.sched resume).Wf) (work : resume.work = old.work)
      (holds : old.holds = none) :
      Move s c (({ s with
        state := Function.update s.state q (Pc.sched resume).state }).goto c (.sched resume))
  | swtchOut (resume : Pc K L) (p q : Fin NPROC) (here : s.loc c = .thread p)
      (pc : s.pc p = .sched resume) (own : s.proc c = some q) :
      Move s c { s with
        context := Function.update s.context q resume
        pc := Function.update s.pc p resume
        loc := Function.update s.loc c (.back p)
        stack := Function.update s.stack c none }
  | alloc (q np : Fin NPROC) (here : s.code c = some .allocMark) (own : s.proc c = some q)
      (unused : s.state np = .UNUSED) :
      Move s c (({ s with state := Function.update s.state np .EMBRYO }).goto c
        (.allocRelease (some np)))
  | noStack (np : Fin NPROC) (here : s.code c = some (.allocStack np)) :
      Move s c (({ s with
        kstack := Function.update s.kstack np 0
        state := Function.update s.state np .UNUSED }).goto c .user)
  | stack (np : Fin NPROC) (pg : Nat) (here : s.code c = some (.allocStack np)) (page : pg ≠ 0)
      (free : s.free pg = true) :
      Move s c (({ s with
        free := Function.update s.free pg false
        kstack := Function.update s.kstack np pg
        context := Function.update s.context np .forkret
        pc := Function.update s.pc np .forkret }).goto c (.forkCopy np))
  | noTable (np : Fin NPROC) (here : s.code c = some (.forkCopy np)) :
      Move s c (({ s with
        free := Function.update s.free (s.kstack np) true
        pgdir := Function.update s.pgdir np 0
        kstack := Function.update s.kstack np 0
        state := Function.update s.state np .UNUSED }).goto c .user)
  | table (np : Fin NPROC) (pg : Nat) (here : s.code c = some (.forkCopy np)) (page : pg ≠ 0)
      (free : s.free pg = true) :
      Move s c (({ s with
        free := Function.update s.free pg false
        pgdir := Function.update s.pgdir np pg
        table := Function.update s.table np pg }).goto c (.forkSet np))
  | run (np : Fin NPROC) (here : s.code c = some (.forkRun np)) :
      Move s c (({ s with state := Function.update s.state np .RUNNABLE }).goto c .user)
  | found (q z : Fin NPROC) (here : s.code c = some .waitScan) (own : s.proc c = some q)
      (zombie : s.state z = .ZOMBIE) :
      Move s c (s.goto c (.waitStack z))
  | freeStack (z : Fin NPROC) (here : s.code c = some (.waitStack z)) :
      Move s c (({ s with
        free := Function.update s.free (s.kstack z) true
        kstack := Function.update s.kstack z 0 }).goto c (.waitTable z))
  | freeTable (z : Fin NPROC) (here : s.code c = some (.waitTable z)) :
      Move s c (({ s with
        free := Function.update s.free (s.pgdir z) true
        table := Function.update s.table z 0 }).goto c (.waitReset z))
  | reset (z : Fin NPROC) (here : s.code c = some (.waitReset z)) :
      Move s c (({ s with state := Function.update s.state z .UNUSED }).goto c .waitRelease)
  | enter (here : s.loc c = .idle) :
      Move s c { s with loc := Function.update s.loc c (.handler .user) }
  | leave (here : s.loc c = .handler .user) :
      Move s c { s with loc := Function.update s.loc c .idle }
  | lock (here : s.loc c = .idle) (free : s.lk = none) :
      Move s c { s with lk := some c, loc := Function.update s.loc c (.scan 0) }
  | skip (i : Nat) (here : s.loc c = .scan i) :
      Move s c { s with loc := Function.update s.loc c (.scan (i + 1)) }
  | unlock (i : Nat) (here : s.loc c = .scan i) (held : s.lk = some c) :
      Move s c { s with lk := none, loc := Function.update s.loc c .idle }
  | pick (i : Nat) (p : Fin NPROC) (here : s.loc c = .scan i) (runnable : s.state p = .RUNNABLE) :
      Move s c { s with
        proc := Function.update s.proc c (some p)
        loc := Function.update s.loc c (.picked p) }
  | switchuvm (p : Fin NPROC) (here : s.loc c = .picked p) :
      Move s c { s with
        cr3 := Function.update s.cr3 c (some (s.pgdir p))
        loc := Function.update s.loc c (.loaded p) }
  | running (p : Fin NPROC) (here : s.loc c = .loaded p) :
      Move s c { s with
        state := Function.update s.state p .RUNNING
        loc := Function.update s.loc c (.marked p) }
  | swtchIn (p : Fin NPROC) (here : s.loc c = .marked p) :
      Move s c { s with
        pc := Function.update s.pc p (s.context p)
        stack := Function.update s.stack c (some (s.kstack p))
        loc := Function.update s.loc c (.thread p) }
  | switchkvm (p : Fin NPROC) (here : s.loc c = .back p) :
      Move s c { s with
        cr3 := Function.update s.cr3 c none
        loc := Function.update s.loc c (.kernel p) }
  | drop (p : Fin NPROC) (here : s.loc c = .kernel p) :
      Move s c { s with
        proc := Function.update s.proc c none
        loc := Function.update s.loc c (.scan (p.val + 1)) }

/-! ## Every step is a move -/

section Inversion

variable {s t : World C K L} {c : C}

variable {f : World C K L → World C K L}

omit [DecidableEq L] in
theorem of_give (success : (s.give c).map f = some t) :
    s.lk = some c ∧ t = f { s with lk := none } := by
  unfold World.give at success
  split at success
  · rename_i held
    cases success
    exact ⟨held, rfl⟩
  · cases success

variable {old pc : Pc K L} {op : Op K L} {q : Fin NPROC}

theorem take_move (new : Pc K L) (here : s.code c = some old) (shift : Shift old new)
    (outside : old.inside = false) (inside : new.inside = true)
    (success : (s.take c).map (fun u => u.goto c new) = some t) : Move s.toCore c t.toCore := by
  obtain ⟨free, rfl⟩ := of_take success
  exact .take old new here shift outside inside free

theorem give_move (new : Pc K L) (here : s.code c = some old) (shift : Shift old new)
    (inside : old.inside = true) (outside : old.Wf → new.inside = false)
    (success : (s.give c).map (fun u => u.goto c new) = some t) : Move s.toCore c t.toCore := by
  obtain ⟨held, rfl⟩ := of_give success
  exact .give old new here shift inside outside held

theorem of_giveOther {l : L} (success : (s.giveOther c l).map f = some t) :
    s.locks l = some c ∧ t = f { s with locks := Function.update s.locks l none } := by
  unfold World.giveOther at success
  split at success
  · rename_i held
    cases success
    exact ⟨held, rfl⟩
  · cases success

theorem sleepStart_move {k : K} {lk : Lk L} {ret : Pc K L}
    (here : s.code c = some old) (kind : old = .hold lk ret ∨ ∃ k', old = .tested lk k' ret)
    (success : sleepStart s c k lk (.hold lk ret) = some t) : Move s.toCore c t.toCore := by
  have shift : ∀ new : Pc K L, new.work = ret.work → new.state = .RUNNING →
      (ret.Unlocked ∧ ret.Wf → new.Wf) → new.holds = (Pc.hold lk ret).holds → Shift old new := by
    intro new work state wf holds
    rcases kind with rfl | ⟨k', rfl⟩
    · exact ⟨⟨wf, rfl, fun _ => state, work⟩, fun _ => holds⟩
    · refine ⟨⟨wf, rfl, fun _ => state, work⟩, fun _ => holds.trans ?_⟩
      cases lk <;> rfl
  unfold sleepStart at success
  split at success
  · cases success
  cases lk with
  | ptable =>
    cases success
    refine .turn old _ here (shift _ rfl rfl (fun wf => ⟨Or.inr ⟨_, rfl⟩, wf⟩) rfl) fun _ => ?_
    rcases kind with rfl | ⟨k', rfl⟩ <;> rfl
  | other l =>
    obtain ⟨free, rfl⟩ := of_take success
    refine .take old _ here (shift _ rfl rfl (fun wf => ⟨Or.inr ⟨_, rfl⟩, wf⟩) rfl) ?_ rfl free
    rcases kind with rfl | ⟨k', rfl⟩ <;> rfl

variable [DecidableEq K]

theorem sectionStep_move (here : s.code c = some pc)
    (success : sectionStep s c pc op = some t) : Move s.toCore c t.toCore := by
  unfold sectionStep at success
  split at success
  · rename_i ret
    exact give_move ret here
      ⟨⟨fun wf => wf.2, rfl, fun wf => Pc.state_of_outside wf.1.1, rfl⟩, fun wf => wf.1.2⟩ rfl
      (fun wf => wf.1.1) success
  · rename_i l ret
    obtain ⟨held, rfl⟩ := of_giveOther success
    exact .giveOther l _ _ here
      ⟨fun wf => wf.2, rfl, fun wf => Pc.state_of_outside wf.1.1, rfl⟩ (fun wf => wf.1.1) rfl
      (fun wf => wf.1.2) held
  · rename_i lk ret k
    have moved : ∀ u : World C K L, u.toCore = s.toCore →
        Move s.toCore c (u.goto c (if s.cond k then .hold lk ret else .tested lk k ret)).toCore := by
      intro u same
      change Move s.toCore c (u.toCore.goto c _)
      rw [same]
      split
      · exact .turn _ _ here ⟨⟨id, rfl, fun _ => rfl, rfl⟩, fun _ => rfl⟩ fun _ => rfl
      · refine .turn _ _ here ⟨⟨id, rfl, fun _ => rfl, rfl⟩, fun _ => ?_⟩ fun _ => ?_
        · cases lk <;> rfl
        · cases lk <;> rfl
    cases success
    apply moved
    cases s.proc c <;> rfl
  · rename_i lk k ret
    cases success
    refine .turn _ _ here ⟨⟨id, rfl, fun _ => rfl, rfl⟩, fun _ => ?_⟩ fun _ => ?_
    · cases lk <;> rfl
    · cases lk <;> rfl
  · rename_i lk ret k value
    cases success
    exact .turn _ _ here ⟨⟨id, rfl, fun _ => rfl, rfl⟩, fun _ => rfl⟩ fun _ => rfl
  · rename_i lk k' ret k value
    cases success
    exact .turn _ _ here ⟨⟨id, rfl, fun _ => rfl, rfl⟩, fun _ => rfl⟩ fun _ => rfl
  · exact sleepStart_move here (Or.inl rfl) success
  · exact sleepStart_move here (Or.inr ⟨_, rfl⟩) success
  · rename_i ret k
    cases success
    exact .wake _ _ here ⟨⟨id, rfl, fun _ => rfl, rfl⟩, fun _ => rfl⟩ ⟨rfl, rfl⟩ _
      (woken_wakeup1 _)
  · rename_i k' ret k
    cases success
    exact .wake _ _ here ⟨⟨id, rfl, fun _ => rfl, rfl⟩, fun _ => rfl⟩ ⟨rfl, rfl⟩ _
      (woken_wakeup1 _)
  · rename_i k ret
    cases success
    exact .wake (.wake k ret) (.wakeRelease ret) here
      ⟨⟨id, rfl, fun _ => rfl, rfl⟩, fun _ => rfl⟩ ⟨rfl, rfl⟩ _ (woken_wakeup1 _)
  · rename_i ret
    exact give_move ret here
      ⟨⟨fun wf => wf.2, rfl, fun wf => Pc.state_of_outside wf.1, rfl⟩, fun _ => rfl⟩ rfl
      (fun wf => wf.1) success
  · split at success
    · rename_i outside
      obtain ⟨free, rfl⟩ := of_take success
      exact .take _ _ here
        ⟨⟨fun wf => ⟨outside, wf⟩, Pc.state_of_outside outside, fun _ => rfl, rfl⟩, fun _ => rfl⟩
        outside rfl free
    · cases success
  · split at success
    · rename_i unlocked
      obtain ⟨free, rfl⟩ := of_take success
      exact .take _ _ here
        ⟨⟨fun wf => ⟨unlocked, wf⟩, Pc.state_of_outside unlocked.1, fun _ => rfl, rfl⟩,
          fun _ => unlocked.2.symm⟩
        unlocked.1 rfl free
    · cases success
  · split at success
    · rename_i unlocked
      obtain ⟨free, rfl⟩ := of_takeOther success
      exact .takeOther _ _ _ here
        ⟨fun wf => ⟨unlocked, wf⟩, Pc.state_of_outside unlocked.1, fun _ => rfl, rfl⟩
        (fun _ => unlocked.1.symm) unlocked.2 (fun _ => rfl) free
    · cases success
  · cases success

omit [DecidableEq K] in
theorem swtchOut_move {resume : Pc K L} (here : s.code c = some (.sched resume))
    (success : swtchOut s c resume = some t) : Move s.toCore c t.toCore := by
  unfold swtchOut at success
  split at success
  · rename_i q p own at_
    split at success
    · cases success
      refine .swtchOut resume p q at_ ?_ own
      rw [Core.code, at_] at here
      exact Option.some.inj here
    · cases success
  · cases success

omit [DecidableEq C] [DecidableEq K] [DecidableEq L] in
theorem firstProc_spec {test : Fin NPROC → Bool} {p : Fin NPROC}
    (found : firstProc test = some p) : test p = true :=
  List.find?_some found

omit [DecidableEq K] in
theorem allocSection_move (here : s.code c = some .allocMark) (own : s.proc c = some q) :
    Move s.toCore c (allocSection s c).toCore := by
  unfold allocSection
  split
  · exact .turn _ _ here ⟨⟨id, rfl, fun _ => rfl, rfl⟩, fun _ => rfl⟩ fun _ => rfl
  · rename_i np found
    exact .alloc q np here own (of_decide_eq_true (firstProc_spec found))

omit [DecidableEq C] [DecidableEq K] [DecidableEq L] in
theorem woken_killLoop (pid : Nat) (p : Fin NPROC) :
    (killLoop s pid).state p = s.state p ∨
      s.state p = .SLEEPING ∧ (killLoop s pid).state p = .RUNNABLE := by
  unfold killLoop
  split
  · exact Or.inl rfl
  · grind

omit [DecidableEq C] [DecidableEq K] [DecidableEq L] in
theorem killLoop_core (pid : Nat) :
    (killLoop s pid).toCore = { s.toCore with state := (killLoop s pid).state } := by
  unfold killLoop
  split <;> rfl

omit [DecidableEq C] [DecidableEq L] in
theorem passChildren_core (procChan : Fin NPROC → K) (q : Fin NPROC) :
    (passChildren procChan s q).toCore =
      { s.toCore with state := (passChildren procChan s q).state } := by
  unfold passChildren
  dsimp only
  split <;> rfl

omit [DecidableEq C] [DecidableEq L] in
theorem woken_passChildren (procChan : Fin NPROC → K) (q p : Fin NPROC) :
    (passChildren procChan s q).state p = s.state p ∨
      s.state p = .SLEEPING ∧ (passChildren procChan s q).state p = .RUNNABLE := by
  unfold passChildren
  dsimp only
  split
  · exact woken_wakeup1 _ p
  · exact Or.inl rfl

omit [DecidableEq K] in
theorem waitLoop_move (procChan : Fin NPROC → K)
    (here : s.code c = some .waitScan) (own : s.proc c = some q) :
    Move s.toCore c (s.toCore.goto c (waitLoop procChan s q)) := by
  unfold waitLoop
  split
  · rename_i z found
    have both := of_decide_eq_true (firstProc_spec found)
    exact .found q z here own both.2
  · split
    · exact .turn _ _ here ⟨⟨id, rfl, fun _ => rfl, rfl⟩, fun _ => rfl⟩ fun _ => rfl
    · exact .turn _ _ here
        ⟨⟨fun _ => ⟨Or.inl ⟨rfl, rfl⟩, trivial⟩, rfl, fun _ => rfl, rfl⟩, fun _ => rfl⟩ fun _ => rfl

theorem threadStep_move (procChan : Fin NPROC → K)
    (here : s.code c = some pc) (own : s.proc c = some q)
    (success : threadStep procChan s c q pc = some t) : Move s.toCore c t.toCore := by
  cases pc with
  | yieldMark ret =>
    cases success
    exact .mark _ (.yieldRelease ret) q here own rfl rfl (fun wf => ⟨.yieldRelease ret, wf⟩) rfl
      rfl
  | yieldRelease ret =>
    exact give_move ret here
      ⟨⟨fun wf => wf.2, rfl, fun wf => Pc.state_of_outside wf.1.1, rfl⟩, fun wf => wf.1.2⟩ rfl
      (fun wf => wf.1.1) success
  | sched resume => exact swtchOut_move here success
  | sleepRelease k l ret =>
    obtain ⟨held, rfl⟩ := of_giveOther success
    exact .giveOther l _ _ here ⟨id, rfl, fun _ => rfl, rfl⟩ (fun _ => rfl) rfl (fun _ => rfl) held
  | sleepChan k lk ret =>
    cases success
    exact .turn _ _ here ⟨⟨id, rfl, fun _ => rfl, rfl⟩, fun _ => rfl⟩ fun _ => rfl
  | sleepMark k lk ret =>
    cases success
    exact .mark _ (.sleepTidy lk ret) q here own rfl rfl (fun wf => ⟨.sleepTidy lk ret, wf⟩) rfl
      rfl
  | sleepTidy lk ret =>
    cases lk with
    | ptable =>
      cases success
      refine .turn _ _ here ⟨⟨fun wf => wf.2, rfl, fun wf => wf.1.state, rfl⟩, fun wf => ?_⟩
        fun wf => ?_
      · obtain ⟨⟨-, rfl⟩ | ⟨r, rfl⟩, -⟩ := wf <;> rfl
      · obtain ⟨⟨-, rfl⟩ | ⟨r, rfl⟩, -⟩ := wf <;> rfl
    | other l =>
      cases success
      exact .turn _ _ here ⟨⟨id, rfl, fun _ => rfl, rfl⟩, fun _ => rfl⟩ fun _ => rfl
  | sleepUnlock l ret =>
    exact give_move (.sleepLock l ret) here ⟨⟨id, rfl, fun _ => rfl, rfl⟩, fun _ => rfl⟩ rfl (fun _ => rfl) success
  | sleepLock l ret =>
    obtain ⟨free, rfl⟩ := of_takeOther success
    have returns : (Pc.sleepLock l ret).Wf → ∃ r, ret = .hold (.other l) r := by
      rintro ⟨⟨impossible, -⟩ | found, -⟩
      · cases impossible
      · exact found
    refine .takeOther l _ _ here ⟨fun wf => wf.2, rfl, fun wf => wf.1.state, rfl⟩ (fun wf => ?_) rfl
      (fun wf => ?_) free
    · obtain ⟨r, rfl⟩ := returns wf
      rfl
    · obtain ⟨r, rfl⟩ := returns wf
      rfl
  | killMark pid =>
    cases success
    change Move s.toCore c ((killLoop s pid).toCore.goto c _)
    rw [killLoop_core]
    exact .wake (.killMark pid) .killRelease here ⟨⟨id, rfl, fun _ => rfl, rfl⟩, fun _ => rfl⟩ ⟨rfl, rfl⟩ _
      (woken_killLoop pid)
  | killRelease =>
    exact give_move .user here ⟨⟨id, rfl, fun _ => rfl, rfl⟩, fun _ => rfl⟩ rfl (fun _ => rfl) success
  | allocMark =>
    cases success
    exact allocSection_move here own
  | allocRelease np =>
    cases np with
    | none =>
      exact give_move .user here ⟨⟨id, rfl, fun _ => rfl, rfl⟩, fun _ => rfl⟩ rfl (fun _ => rfl) success
    | some np =>
      exact give_move (.allocStack np) here ⟨⟨id, rfl, fun _ => rfl, rfl⟩, fun _ => rfl⟩ rfl (fun _ => rfl) success
  | forkSet np =>
    cases success
    exact .turn _ _ here ⟨⟨id, rfl, fun _ => rfl, rfl⟩, fun _ => rfl⟩ fun _ => rfl
  | forkRun np =>
    cases success
    exact .run np here
  | exitWake =>
    cases success
    exact .wake .exitWake .exitPass here ⟨⟨id, rfl, fun _ => rfl, rfl⟩, fun _ => rfl⟩ ⟨rfl, rfl⟩ _
      (woken_wakeup1 _)
  | exitPass =>
    cases success
    change Move s.toCore c ((passChildren procChan s q).toCore.goto c _)
    rw [passChildren_core]
    exact .wake .exitPass .exitMark here ⟨⟨id, rfl, fun _ => rfl, rfl⟩, fun _ => rfl⟩ ⟨rfl, rfl⟩ _
      (woken_passChildren procChan q)
  | exitMark =>
    have moved := Move.mark .exitMark .zombie q here own rfl rfl (fun _ => ⟨.zombie, trivial⟩)
      rfl rfl
    cases parent : s.parent q with
    | none | some p =>
      simp only [threadStep, parent] at success
      cases success
      exact moved
  | waitScan =>
    cases success
    exact waitLoop_move procChan here own
  | waitStack z =>
    cases success
    exact .freeStack z here
  | waitTable z =>
    cases success
    exact .freeTable z here
  | waitReset z =>
    cases success
    exact .reset z here
  | waitRelease =>
    exact give_move .user here ⟨⟨id, rfl, fun _ => rfl, rfl⟩, fun _ => rfl⟩ rfl (fun _ => rfl) success
  | forkret =>
    exact give_move .user here ⟨⟨id, rfl, fun _ => rfl, rfl⟩, fun _ => rfl⟩ rfl (fun _ => rfl) success
  | _ => cases success

omit [DecidableEq K] in
theorem pageStep_move {pg : Nat} (here : s.code c = some pc)
    (success : pageStep s c pg pc = some t) : Move s.toCore c t.toCore := by
  unfold pageStep at success
  split at success
  · rename_i np
    split at success
    · cases success
      exact .noStack np here
    · rename_i page
      split at success
      · rename_i free
        cases success
        exact .stack np pg here page free
      · cases success
  · rename_i np
    split at success
    · cases success
      exact .noTable np here
    · rename_i page
      split at success
      · rename_i free
        cases success
        exact .table np pg here page free
      · cases success
  · cases success

theorem callStep_move (here : s.code c = some pc)
    (success : callStep s c q pc op = some t) : Move s.toCore c t.toCore := by
  -- the calls made from `user`
  have called : ∀ new : Pc K L, new.Wf → new.inside = true → new.state = .RUNNING →
      new.work = .none → new.holds = none → pc = .user → (s.take c).map (fun u => u.goto c new) = some t →
      Move s.toCore c t.toCore := by
    rintro new wf inside running work holds rfl taken
    exact take_move new here ⟨⟨fun _ => wf, rfl, fun _ => running, work⟩, fun _ => holds⟩ rfl inside
      taken
  unfold callStep at success
  split at success
  · split at success
    · rename_i unlocked
      exact take_move (.yieldMark pc) here
        ⟨⟨fun wf => ⟨unlocked, wf⟩, Pc.state_of_outside unlocked.1, fun _ => rfl, rfl⟩,
          fun _ => unlocked.2.symm⟩
        unlocked.1 rfl success
    · cases success
  · split at success
    · rename_i user
      exact called (.killMark _) trivial rfl rfl rfl rfl user success
    · cases success
  · split at success
    · rename_i user
      exact called .allocMark trivial rfl rfl rfl rfl user success
    · cases success
  · split at success
    · rename_i user
      exact called .exitWake trivial rfl rfl rfl rfl user.1 success
    · cases success
  · split at success
    · rename_i user
      exact called .waitScan trivial rfl rfl rfl rfl user success
    · cases success
  · exact pageStep_move here success
  · cases success

theorem codeStep_move (procChan : Fin NPROC → K)
    (here : s.code c = some pc) (success : codeStep procChan s c pc op = some t) :
    Move s.toCore c t.toCore := by
  unfold codeStep at success
  split at success
  · rename_i section_
    cases success
    exact sectionStep_move here section_
  · cases success
  · grind [threadStep_move, callStep_move]

omit [DecidableEq K] in
theorem schedulerStep_move {place : Loc K L} (here : s.loc c = place)
    (success : schedulerStep s c place = some t) : Move s.toCore c t.toCore := by
  unfold schedulerStep at success
  split at success
  · obtain ⟨free, rfl⟩ := of_take success
    exact .lock here free
  · rename_i i
    split at success
    · rename_i inTable
      split at success
      · rename_i runnable
        cases success
        exact .pick i ⟨i, inTable⟩ here runnable
      · cases success
        exact .skip i here
    · obtain ⟨held, rfl⟩ := of_give success
      exact .unlock i here held
  · rename_i p
    split at success
    · cases success
    · cases success
      exact .switchuvm p here
  · rename_i p
    cases success
    exact .running p here
  · rename_i p
    cases success
    exact .swtchIn p here
  · rename_i p
    cases success
    exact .switchkvm p here
  · rename_i p
    cases success
    exact .drop p here
  · cases success

theorem step_move (procChan : Fin NPROC → K)
    (success : step procChan s (c, op) = some t) : Move s.toCore c t.toCore := by
  unfold step at success
  split at success
  · rename_i p here
    exact codeStep_move procChan (by rw [Core.code, here]) success
  · rename_i here _
    cases success
    exact .leave here
  · rename_i pc here _
    exact codeStep_move procChan (by rw [Core.code, here]) success
  · rename_i here _
    cases success
    exact .enter here
  · exact schedulerStep_move rfl success
  · cases success

end Inversion

end Moves

end Xv6Tracing.Sched
