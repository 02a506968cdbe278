import Xv6Tracing.Sched.Pages

/-!
# Slots of the process table, built up and taken down

What `fork` and `wait` do to a slot that no CPU has keeps which CPU has which process,
which pages a process owns, and what a CPU has loaded.
-/

set_option autoImplicit false

namespace Xv6Tracing.Sched

open Function (update update_eq_self update_of_ne update_self)

open Lib

variable {C K L : Type}

structure Loaded (s : Core C K L) : Prop where
  cr3 : ∀ c, s.cr3 c = (s.loc c).table.map s.pgdir
  stack : ∀ c, s.stack c = (s.loc c).stack.map s.kstack

structure Consistent (s : Core C K L) : Prop where
  placed : Placed s
  paged : Paged s
  loaded : Loaded s

variable {p : Fin NPROC} {place : Loc K L}

theorem Loc.proc_of_table (loaded : place.table = some p) :
    place.proc = some p := by
  cases place <;> first | exact loaded | cases loaded

theorem Loc.proc_of_stack (used : place.stack = some p) :
    place.proc = some p := by
  cases place <;> first | exact used | cases used

section Code

variable [DecidableEq C] {s u : Core C K L} {c : C} {old new : Pc K L}

theorem Loaded.code (loaded : Loaded s) (here : s.code c = some old) (loc : u.loc = s.loc)
    (cr3 : u.cr3 = s.cr3) (stack : u.stack = s.stack)
    (pages : ∀ d p, (s.loc d).proc = some p → u.pgdir p = s.pgdir p ∧ u.kstack p = s.kstack p) :
    Loaded (u.goto c new) := by
  have tables : ∀ d, s.cr3 d = (s.loc d).table.map u.pgdir := by
    intro d
    rw [loaded.cr3]
    cases at_ : (s.loc d).table with
    | none => rfl
    | some p => rw [Option.map_some, Option.map_some, (pages d p (Loc.proc_of_table at_)).1]
  have kstacks : ∀ d, s.stack d = (s.loc d).stack.map u.kstack := by
    intro d
    rw [loaded.stack]
    cases at_ : (s.loc d).stack with
    | none => rfl
    | some p => rw [Option.map_some, Option.map_some, (pages d p (Loc.proc_of_stack at_)).2]
  rcases code_cases here with at_ | ⟨p, at_, -⟩
  · rw [goto_handler (loc ▸ at_)]
    constructor
    · intro d
      dsimp only
      rw [cr3, tables, loc]
      by_cases self : d = c
      · rw [self, update_self, at_]
        rfl
      · rw [update_of_ne self]
    · intro d
      dsimp only
      rw [stack, kstacks, loc]
      by_cases self : d = c
      · rw [self, update_self, at_]
        rfl
      · rw [update_of_ne self]
  · rw [goto_thread (loc ▸ at_)]
    constructor
    · intro d
      dsimp only
      rw [cr3, tables, loc]
    · intro d
      dsimp only
      rw [stack, kstacks, loc]

theorem Paged.code (paged : Paged s) (placed : Placed s) (here : s.code c = some old)
    (work : new.work = old.work) (loc : u.loc = s.loc) (pc : u.pc = s.pc)
    (context : u.context = s.context) (kstack : u.kstack = s.kstack) (pgdir : u.pgdir = s.pgdir)
    (table : u.table = s.table) (free : u.free = s.free)
    (alive : ∀ p, Alive (u.state p) ↔ Alive (s.state p))
    (dead : ∀ p state, ¬ Alive state → (u.state p = state ↔ s.state p = state)) :
    Paged (u.goto c new) := by
  rcases code_cases here with at_ | ⟨p, at_, rfl⟩
  · rw [goto_handler (loc ▸ at_)]
    exact paged.congr kstack pgdir table free (fun q => by rw [pc])
      (fun q _ => ⟨congrFun context q, congrFun pc q⟩) alive dead
  · rw [goto_thread (loc ▸ at_)]
    refine paged.congr kstack pgdir table free (fun q => ?_) (fun q new => ⟨congrFun context q, ?_⟩)
      alive dead
    · dsimp only
      by_cases self : q = p
      · rw [self, update_self, work]
      · rw [update_of_ne self, pc]
    · have other : q ≠ p := by
        rintro rfl
        exact placed.nowhere (c := c) (Or.inl new) (by rw [at_]; rfl)
      dsimp only
      rw [update_of_ne other, pc]

end Code

/-! ## Slots built up and taken down -/

section Slots

variable {s u : Core C K L} {c : C} {old new : Pc K L} {p x : Fin NPROC}

/-- The thread of `p`, on CPU `c`, goes on from `old` to `new`, and `u` is the state but
for that: it differs from `s` in slot `x` and in which pages are free. -/
structure SlotStep (s u : Core C K L) (c : C) (p x : Fin NPROC) (old new : Pc K L) : Prop where
  loc : s.loc c = .thread p
  pc : s.pc p = old
  before : old.state = .RUNNING
  after : new.state = .RUNNING
  wf : new.Wf
  inside : new.inside = old.inside
  dead : ¬ Alive (s.state x)
  away : ∀ d, (s.loc d).proc ≠ some x
  frame : u.loc = s.loc ∧ u.proc = s.proc ∧ u.lk = s.lk ∧ u.cr3 = s.cr3 ∧ u.stack = s.stack
  others : ∀ q, q ≠ x → u.state q = s.state q ∧ u.kstack q = s.kstack q ∧
    u.pgdir q = s.pgdir q ∧ u.table q = s.table q ∧ u.context q = s.context q ∧ u.pc q = s.pc q
  rests : (u.pc x).work = .none ∧ (u.pc x).Wf
  stopped : u.state x ≠ .RUNNING
  parked : Alive (u.state x) → u.Whole x ∧ u.context x = u.pc x ∧ (u.pc x).Resumes
  oldSlot : ∀ y, old.work.slot = some y → y = x
  newSlot : ∀ y, new.work.slot = some y → y = x
  alone : ∀ q, q ≠ p → (s.pc q).work.slot ≠ some x
  holds : new.work.Holds u
  zombie : u.state x = .ZOMBIE → u.Whole x ∨ new.work.slot = some x
  unused : u.state x = .UNUSED → u.kstack x = 0 ∧ u.table x = 0
  page : ∀ b, u.page (x, b) ≠ 0 → u.page (x, b) = s.page (x, b) ∨ s.free (u.page (x, b)) = true
  apart : u.kstack x ≠ 0 → u.kstack x ≠ u.table x
  taken : ∀ b, u.page (x, b) ≠ 0 → u.free (u.page (x, b)) = false
  kept : ∀ y : Fin NPROC × Bool, y.1 ≠ x → s.page y ≠ 0 → u.free (s.page y) = false

theorem SlotStep.distinct (step : SlotStep s u c p x old new) : p ≠ x := by
  rintro rfl
  exact step.away c (by rw [step.loc]; rfl)

theorem SlotStep.slotMove (step : SlotStep s u c p x old new) (placed : Placed s) :
    SlotMove s { u with pc := update u.pc p new } p x old new := by
  have differs := step.distinct
  have rests : update u.pc p new x = u.pc x := update_of_ne differs.symm ..
  have runs : s.state p = .RUNNING := by
    have allowed := placed.allows c p (by rw [step.loc]; rfl)
    rw [step.loc] at allowed
    have state : s.state p = (s.pc p).state := allowed
    rw [state, step.pc, step.before]
  refine ⟨runs ▸ alive_running, step.dead, step.pc, update_self .., fun q notP notX => ?_,
    fun q notX => ?_, ?_, step.oldSlot, step.newSlot, step.alone, ?_, fun alive => ?_, step.zombie,
    step.unused, step.page, step.apart, step.taken, step.kept⟩
  · obtain ⟨-, -, -, -, -, pc⟩ := step.others q notX
    dsimp only
    rw [update_of_ne notP, pc]
  · obtain ⟨state, kstack, pgdir, table, context, -⟩ := step.others q notX
    exact ⟨state, kstack, pgdir, table, context⟩
  · dsimp only
    rw [rests]
    exact step.rests.1
  · have holds := step.holds
    have slot := step.newSlot
    cases work : new.work with
    | stacked y =>
      rw [work] at holds slot
      rw [slot y rfl] at holds ⊢
      simpa only [Work.Holds, rests] using holds
    | complete y =>
      rw [work] at holds slot
      rw [slot y rfl] at holds ⊢
      simpa only [Work.Holds, Core.Whole, rests] using holds
    | _ =>
      rw [work] at holds
      exact holds
  · exact (step.parked alive).1

theorem Consistent.slot [DecidableEq C] (consistent : Consistent s)
    (step : SlotStep s u c p x old new) : Consistent (u.goto c new) := by
  obtain ⟨loc, proc, lk, cr3, stack⟩ := step.frame
  have here : s.code c = some old := by
    rw [Core.code, step.loc]
    exact congrArg some step.pc
  refine ⟨?_, ?_, ?_⟩
  · refine consistent.placed.thread step.loc ?_
    have thread : ∀ d q, s.loc d = .thread q → q ≠ x := by
      rintro d q at_ rfl
      exact step.away d (by rw [at_]; rfl)
    refine ⟨loc, proc, fun d q at_ => (step.others q (thread d q at_)).2.2.2.2.2, fun q => ?_,
      step.wf, lk ▸ consistent.placed.stays here step.inside, fun q at_ => ?_, fun d q _ chosen => ?_,
      fun q runs => ?_, fun q alive gone => ?_⟩
    · by_cases self : q = x
      · rw [self]
        exact step.rests.2
      · rw [(step.others q self).2.2.2.2.2]
        exact consistent.placed.wf q
    · rw [(step.others q (thread c q at_)).1, step.after,
        consistent.placed.state_of_code at_ here, step.before]
    · have other : q ≠ x := by
        rintro rfl
        exact step.away d chosen
      exact (step.others q other).1
    · by_cases self : q = x
      · rw [self] at runs
        exact absurd runs step.stopped
      · rwa [(step.others q self).1] at runs
    · by_cases self : q = x
      · rw [self] at alive ⊢
        exact (step.parked alive).2
      · obtain ⟨state, -, -, -, context, pc⟩ := step.others q self
        rw [state] at alive
        rw [pc, context]
        exact consistent.placed.parked q alive gone
  · rw [goto_thread (loc ▸ step.loc)]
    exact consistent.paged.slot (step.slotMove consistent.placed)
  · refine consistent.loaded.code here loc cr3 stack fun d q chosen => ?_
    have other : q ≠ x := by
      rintro rfl
      exact step.away d chosen
    obtain ⟨-, kstack, pgdir, -⟩ := step.others q other
    exact ⟨pgdir, kstack⟩

/-! ### Who works on a slot -/

theorem Placed.worker (placed : Placed s) (here : s.code c = some old) (works : old.work ≠ .none) :
    ∃ p, s.loc c = .thread p ∧ s.pc p = old := by
  rcases code_cases here with at_ | found
  · exact absurd (placed.handler c old at_).2 works
  · exact found

variable {q : Fin NPROC}

theorem Placed.caller (placed : Placed s) (here : s.code c = some old)
    (own : s.proc c = some q) : s.loc c = .thread q ∧ s.pc q = old := by
  rw [placed.proc] at own
  rcases code_cases here with at_ | ⟨p, at_, pc⟩
  · rw [at_] at own
    cases own
  · rw [at_] at own
    cases own
    exact ⟨at_, pc⟩

theorem Work.Holds.state {work : Work} (holds : work.Holds s) (slot : work.slot = some x) :
    s.state x = .EMBRYO ∨ s.state x = .ZOMBIE ∧ work.Reaps := by
  cases work <;> cases slot
  · exact Or.inl holds.1
  · exact Or.inl holds.1
  · exact Or.inl holds.1
  · exact Or.inr ⟨holds.1, trivial⟩
  · exact Or.inr ⟨holds.1, trivial⟩
  · exact Or.inr ⟨holds.1, trivial⟩

theorem Paged.unused_alone (paged : Paged s) (unused : s.state x = .UNUSED) (q : Fin NPROC) :
    (s.pc q).work.slot ≠ some x := by
  intro slot
  rcases (paged.work q).state slot with state | ⟨state, -⟩ <;> rw [unused] at state <;> cases state

theorem Paged.alone (paged : Paged s) (slot : (s.pc p).work.slot = some x) (q : Fin NPROC)
    (other : q ≠ p) : (s.pc q).work.slot ≠ some x :=
  fun works => other (paged.worker q p x works slot)

theorem Consistent.reaper (consistent : Consistent s) (held : s.inside c = true)
    (loc : s.loc c = .thread p) (zombie : s.state x = .ZOMBIE)
    (slot : (s.pc q).work.slot = some x) : q = p := by
  have reaps : (s.pc q).work.Reaps := by
    rcases (consistent.paged.work q).state slot with state | ⟨-, reaps⟩
    · rw [zombie] at state
      cases state
    · exact reaps
  obtain ⟨z, at_⟩ := Pc.reaps_cases (consistent.placed.wf q) reaps
  have alive : Alive (s.state q) := by
    by_contra dead
    rw [consistent.paged.idle q dead] at reaps
    exact reaps
  have executing : ∃ d, s.loc d = .thread q := by
    by_contra nowhere
    obtain ⟨-, resumes⟩ := consistent.placed.parked q alive fun d at' => nowhere ⟨d, at'⟩
    rcases at_ with at_ | at_ | at_ <;> rw [at_] at resumes <;> cases resumes
  obtain ⟨d, loc'⟩ := executing
  have inside : s.inside d = true := by
    have same : s.inside d = (s.pc q).inside := by rw [Core.inside, loc']
    rw [same]
    rcases at_ with at_ | at_ | at_ <;> rw [at_] <;> rfl
  have same : d = c := consistent.placed.lock.unique inside held
  rw [same, loc] at loc'
  exact (Loc.thread.inj loc').symm

theorem Placed.zombie_away (placed : Placed s) (here : s.code c = some old)
    (inside : old.inside = true) (before : old.state = .RUNNING) (zombie : s.state x = .ZOMBIE)
    (d : C) : (s.loc d).proc ≠ some x := by
  intro chosen
  by_cases self : d = c
  · subst self
    rcases code_cases here with at_ | ⟨p, at_, -⟩
    · rw [at_] at chosen
      cases chosen
    · have state := placed.state_of_code at_ here
      rw [at_] at chosen
      cases chosen
      rw [zombie, before] at state
      cases state
  · have state := (placed.elsewhere ((inside_of_code here).trans inside) self chosen).2
    rw [zombie] at state
    cases state

/-! ### The calls -/

section Calls

variable [DecidableEq C] {np z : Fin NPROC}

theorem Consistent.alloc (consistent : Consistent s) {q : Fin NPROC}
    (here : s.code c = some .allocMark) (own : s.proc c = some q)
    (unused : s.state np = .UNUSED) :
    Consistent (({ s with state := update s.state np .EMBRYO }).goto c
      (.allocRelease (some np))) := by
  obtain ⟨loc, pc⟩ := consistent.placed.caller here own
  have dead : ¬ Alive (s.state np) := unused ▸ not_alive_unused
  obtain ⟨kstack, table⟩ := consistent.paged.unused np unused
  refine consistent.slot (p := q) (x := np) {
    loc := loc, pc := pc, before := rfl, after := rfl, wf := trivial, inside := rfl, dead := dead
    away := fun d => consistent.placed.nowhere (Or.inr unused)
    frame := ⟨rfl, rfl, rfl, rfl, rfl⟩
    others := fun r other => ⟨update_of_ne other .., rfl, rfl, rfl, rfl, rfl⟩
    rests := ⟨consistent.paged.idle np dead, consistent.placed.wf np⟩
    stopped := ?_, parked := ?_
    oldSlot := fun y slot => ?_
    newSlot := fun y slot => (Option.some.inj slot).symm
    alone := fun r _ => consistent.paged.unused_alone unused r
    holds := ⟨update_self .., kstack, table⟩
    zombie := fun _ => Or.inr rfl
    unused := fun _ => ⟨kstack, table⟩
    page := fun b _ => Or.inl rfl
    apart := fun held => absurd kstack held
    taken := fun b held => consistent.paged.taken (np, b) held
    kept := fun y _ held => consistent.paged.taken y held }
  · dsimp only
    rw [update_self]
    decide
  · dsimp only
    rw [update_self]
    exact fun alive => absurd alive not_alive_embryo
  · cases slot

omit [DecidableEq C] in
theorem Consistent.working (consistent : Consistent s) (here : s.code c = some old)
    (slot : old.work.slot = some x) :
    ∃ p, s.loc c = .thread p ∧ s.pc p = old ∧ old.work.Holds s ∧
      (∀ q, q ≠ p → (s.pc q).work.slot ≠ some x) ∧ (s.pc x).work = .none ∧ (s.pc x).Wf ∧
      ¬ Alive (s.state x) := by
  obtain ⟨p, loc, pc⟩ := consistent.placed.worker here fun none => by
    rw [none] at slot
    cases slot
  have holds := consistent.paged.work p
  have slot' : (s.pc p).work.slot = some x := by rw [pc, slot]
  have dead : ¬ Alive (s.state x) := by
    rcases holds.state slot' with state | ⟨state, -⟩ <;> rw [state]
    · exact not_alive_embryo
    · exact not_alive_zombie
  rw [pc] at holds
  exact ⟨p, loc, pc, holds, consistent.paged.alone slot', consistent.paged.idle x dead,
    consistent.placed.wf x, dead⟩

section

variable (consistent : Consistent s)

include consistent

theorem Consistent.noStack (here : s.code c = some (.allocStack np)) :
    Consistent (({ s with
      kstack := update s.kstack np 0
      state := update s.state np .UNUSED }).goto c .user) := by
  obtain ⟨p, loc, pc, ⟨embryo, kstack, table⟩, alone, rests, wf, dead⟩ :=
    consistent.working here rfl
  have same : update s.kstack np 0 = s.kstack := by
    rw [← kstack, update_eq_self]
  rw [same]
  refine consistent.slot (p := p) (x := np) {
    loc := loc, pc := pc, before := rfl, after := rfl, wf := trivial, inside := rfl, dead := dead
    away := fun d => consistent.placed.nowhere (Or.inl embryo)
    frame := ⟨rfl, rfl, rfl, rfl, rfl⟩
    others := fun r other => ⟨update_of_ne other .., rfl, rfl, rfl, rfl, rfl⟩
    rests := ⟨rests, wf⟩
    stopped := ?_, parked := ?_
    oldSlot := fun y slot => (Option.some.inj slot).symm
    newSlot := fun y slot => ?_
    alone := alone
    holds := trivial
    zombie := ?_
    unused := fun _ => ⟨kstack, table⟩
    page := fun b _ => Or.inl rfl
    apart := fun held => absurd kstack held
    taken := fun b held => consistent.paged.taken (np, b) held
    kept := fun y _ held => consistent.paged.taken y held }
  · dsimp only
    rw [update_self]
    decide
  · dsimp only
    rw [update_self]
    exact fun alive => absurd alive not_alive_unused
  · cases slot
  · dsimp only
    rw [update_self]
    exact ProcState.noConfusion

variable {pg : Nat}

theorem Consistent.stack
    (here : s.code c = some (.allocStack np)) (nonzero : pg ≠ 0) (free : s.free pg = true) :
    Consistent (({ s with
      free := update s.free pg false
      kstack := update s.kstack np pg
      context := update s.context np .forkret
      pc := update s.pc np .forkret }).goto c (.forkCopy np)) := by
  obtain ⟨p, loc, pc, ⟨embryo, kstack, table⟩, alone, rests, wf, dead⟩ :=
    consistent.working here rfl
  refine consistent.slot (p := p) (x := np) {
    loc := loc, pc := pc, before := rfl, after := rfl, wf := trivial, inside := rfl, dead := dead
    away := fun d => consistent.placed.nowhere (Or.inl embryo)
    frame := ⟨rfl, rfl, rfl, rfl, rfl⟩
    others := fun r other => ⟨rfl, update_of_ne other .., rfl, rfl,
      update_of_ne other .., update_of_ne other ..⟩
    rests := ?_, stopped := ?_
    parked := fun alive => absurd alive dead
    oldSlot := fun y slot => (Option.some.inj slot).symm
    newSlot := fun y slot => (Option.some.inj slot).symm
    alone := alone
    holds := ?_
    zombie := fun _ => Or.inr rfl
    unused := fun unused => ?_
    page := fun b held => ?_
    apart := ?_
    taken := fun b held => ?_
    kept := fun y _ held => ?_ }
  · dsimp only
    rw [update_self]
    exact ⟨rfl, trivial⟩
  · exact embryo ▸ (by decide)
  · simp only [Work.Holds, Pc.work, update_self]
    exact ⟨embryo, nonzero, table, trivial, trivial⟩
  · exact absurd (embryo.symm.trans unused) (by decide)
  · cases b
    · refine Or.inr ?_
      simpa only [Core.page, Bool.false_eq_true, if_false, update_self] using free
    · exact Or.inl rfl
  · dsimp only
    rw [update_self, table]
    exact fun held => held
  · cases b
    · simp only [Core.page, Bool.false_eq_true, if_false, update_self]
    · exact absurd table held
  · dsimp only
    by_cases same : s.page y = pg
    · rw [same, update_self]
    · rw [update_of_ne same]
      exact consistent.paged.taken y held

theorem Consistent.noTable (here : s.code c = some (.forkCopy np)) :
    Consistent (({ s with
      free := update s.free (s.kstack np) true
      pgdir := update s.pgdir np 0
      kstack := update s.kstack np 0
      state := update s.state np .UNUSED }).goto c .user) := by
  obtain ⟨p, loc, pc, ⟨embryo, kstack, table, -⟩, alone, rests, wf, dead⟩ :=
    consistent.working here rfl
  refine consistent.slot (p := p) (x := np) {
    loc := loc, pc := pc, before := rfl, after := rfl, wf := trivial, inside := rfl, dead := dead
    away := fun d => consistent.placed.nowhere (Or.inl embryo)
    frame := ⟨rfl, rfl, rfl, rfl, rfl⟩
    others := fun r other => ⟨update_of_ne other .., update_of_ne other ..,
      update_of_ne other .., rfl, rfl, rfl⟩
    rests := ⟨rests, wf⟩
    stopped := ?_, parked := ?_
    oldSlot := fun y slot => (Option.some.inj slot).symm
    newSlot := fun y slot => ?_
    alone := alone
    holds := trivial
    zombie := ?_
    unused := fun _ => ⟨update_self .., table⟩
    page := fun b held => ?_
    apart := fun held => absurd (update_self ..) held
    taken := fun b held => ?_
    kept := fun y other held => ?_ }
  · dsimp only
    rw [update_self]
    decide
  · dsimp only
    rw [update_self]
    exact fun alive => absurd alive not_alive_unused
  · cases slot
  · dsimp only
    rw [update_self]
    exact ProcState.noConfusion
  · cases b
    · exact absurd (update_self ..) held
    · exact absurd table held
  · cases b
    · exact absurd (update_self ..) held
    · exact absurd table held
  · have differs : s.page y ≠ s.kstack np := by
      intro same
      have equal := consistent.paged.apart y (np, false) held same
      exact other (congrArg Prod.fst equal)
    dsimp only
    rw [update_of_ne differs]
    exact consistent.paged.taken y held

theorem Consistent.table
    (here : s.code c = some (.forkCopy np)) (nonzero : pg ≠ 0) (free : s.free pg = true) :
    Consistent (({ s with
      free := update s.free pg false
      pgdir := update s.pgdir np pg
      table := update s.table np pg }).goto c (.forkSet np)) := by
  obtain ⟨p, loc, pc, ⟨embryo, kstack, table, context, registers⟩, alone, rests, wf, dead⟩ :=
    consistent.working here rfl
  have stackTaken : s.free (s.kstack np) = false := consistent.paged.taken (np, false) kstack
  refine consistent.slot (p := p) (x := np) {
    loc := loc, pc := pc, before := rfl, after := rfl, wf := trivial, inside := rfl, dead := dead
    away := fun d => consistent.placed.nowhere (Or.inl embryo)
    frame := ⟨rfl, rfl, rfl, rfl, rfl⟩
    others := fun r other => ⟨rfl, rfl, update_of_ne other ..,
      update_of_ne other .., rfl, rfl⟩
    rests := ⟨rests, wf⟩
    stopped := embryo ▸ (by decide)
    parked := fun alive => absurd alive dead
    oldSlot := fun y slot => (Option.some.inj slot).symm
    newSlot := fun y slot => (Option.some.inj slot).symm
    alone := alone
    holds := ?_
    zombie := fun _ => Or.inr rfl
    unused := fun unused => ?_
    page := fun b held => ?_
    apart := fun _ same => ?_
    taken := fun b held => ?_
    kept := fun y _ held => ?_ }
  · simp only [Work.Holds, Pc.work, Core.Whole, update_self]
    exact ⟨embryo, ⟨kstack, nonzero, trivial⟩, context, registers⟩
  · exact absurd (embryo.symm.trans unused) (by decide)
  · cases b
    · exact Or.inl rfl
    · refine Or.inr ?_
      simpa only [Core.page, if_true, update_self] using free
  · dsimp only at same
    rw [update_self] at same
    rw [same, free] at stackTaken
    cases stackTaken
  · have apart : s.kstack np ≠ pg := by
      intro same
      rw [same, free] at stackTaken
      cases stackTaken
    cases b
    · simp only [Core.page, Bool.false_eq_true, if_false, update_of_ne apart]
      exact stackTaken
    · simp only [Core.page, if_true, update_self]
  · dsimp only
    by_cases same : s.page y = pg
    · rw [same, update_self]
    · rw [update_of_ne same]
      exact consistent.paged.taken y held

theorem Consistent.run (here : s.code c = some (.forkRun np)) :
    Consistent (({ s with
      state := update s.state np .RUNNABLE }).goto c .user) := by
  obtain ⟨p, loc, pc, ⟨embryo, whole, context, registers⟩, alone, rests, wf, dead⟩ :=
    consistent.working here rfl
  refine consistent.slot (p := p) (x := np) {
    loc := loc, pc := pc, before := rfl, after := rfl, wf := trivial, inside := rfl, dead := dead
    away := fun d => consistent.placed.nowhere (Or.inl embryo)
    frame := ⟨rfl, rfl, rfl, rfl, rfl⟩
    others := fun r other => ⟨update_of_ne other .., rfl, rfl, rfl, rfl, rfl⟩
    rests := ⟨rests, wf⟩
    stopped := ?_
    parked := fun _ => ⟨whole, ?_, ?_⟩
    oldSlot := fun y slot => (Option.some.inj slot).symm
    newSlot := fun y slot => ?_
    alone := alone
    holds := trivial
    zombie := ?_, unused := ?_
    page := fun b _ => Or.inl rfl
    apart := fun held same => ?_
    taken := fun b held => consistent.paged.taken (np, b) held
    kept := fun y _ held => consistent.paged.taken y held }
  · dsimp only
    rw [update_self]
    decide
  · dsimp only
    rw [context, registers]
  · dsimp only
    rw [registers]
    exact .forkret
  · cases slot
  · dsimp only
    rw [update_self]
    exact ProcState.noConfusion
  · dsimp only
    rw [update_self]
    exact ProcState.noConfusion
  · have equal := consistent.paged.apart (np, false) (np, true) held same
    cases equal

theorem Consistent.found {q : Fin NPROC}
    (here : s.code c = some .waitScan) (own : s.proc c = some q) (zombie : s.state z = .ZOMBIE) :
    Consistent (s.goto c (.waitStack z)) := by
  obtain ⟨loc, pc⟩ := consistent.placed.caller here own
  have held : s.inside c = true := inside_of_code here
  have dead : ¬ Alive (s.state z) := zombie ▸ not_alive_zombie
  have alone : ∀ r, (s.pc r).work.slot ≠ some z := by
    intro r slot
    have same := consistent.reaper held loc zombie slot
    rw [same, pc] at slot
    cases slot
  have whole : s.Whole z := (consistent.paged.zombie z zombie).resolve_right fun ⟨r, slot⟩ =>
    alone r slot
  exact consistent.slot (p := q) (x := z) {
    loc := loc, pc := pc, before := rfl, after := rfl, wf := trivial, inside := rfl, dead := dead
    away := consistent.placed.zombie_away here rfl rfl zombie
    frame := ⟨rfl, rfl, rfl, rfl, rfl⟩
    others := fun r other => ⟨rfl, rfl, rfl, rfl, rfl, rfl⟩
    rests := ⟨consistent.paged.idle z dead, consistent.placed.wf z⟩
    stopped := fun runs => absurd (zombie.symm.trans runs) (by decide)
    parked := fun alive => absurd alive dead
    oldSlot := fun y slot => by cases slot
    newSlot := fun y slot => (Option.some.inj slot).symm
    alone := fun r _ => alone r
    holds := ⟨zombie, whole⟩
    zombie := fun _ => Or.inl whole
    unused := fun unused => absurd (zombie.symm.trans unused) (by decide)
    page := fun b _ => Or.inl rfl
    apart := fun held same => by
      have equal := consistent.paged.apart (z, false) (z, true) held same
      cases equal
    taken := fun b held => consistent.paged.taken (z, b) held
    kept := fun y _ held => consistent.paged.taken y held }

theorem Consistent.freeStack (here : s.code c = some (.waitStack z)) :
    Consistent (({ s with
      free := update s.free (s.kstack z) true
      kstack := update s.kstack z 0 }).goto c (.waitTable z)) := by
  obtain ⟨p, loc, pc, ⟨zombie, whole⟩, alone, rests, wf, dead⟩ := consistent.working here rfl
  refine consistent.slot (p := p) (x := z) {
    loc := loc, pc := pc, before := rfl, after := rfl, wf := trivial, inside := rfl, dead := dead
    away := consistent.placed.zombie_away here rfl rfl zombie
    frame := ⟨rfl, rfl, rfl, rfl, rfl⟩
    others := fun r other => ⟨rfl, update_of_ne other .., rfl, rfl, rfl, rfl⟩
    rests := ⟨rests, wf⟩
    stopped := fun runs => absurd (zombie.symm.trans runs) (by decide)
    parked := fun alive => absurd alive dead
    oldSlot := fun y slot => (Option.some.inj slot).symm
    newSlot := fun y slot => (Option.some.inj slot).symm
    alone := alone
    holds := ⟨zombie, update_self .., whole.2⟩
    zombie := fun _ => Or.inr rfl
    unused := fun unused => absurd (zombie.symm.trans unused) (by decide)
    page := fun b held => ?_
    apart := fun held => absurd (update_self ..) held
    taken := fun b held => ?_
    kept := fun y other held => ?_ }
  · cases b
    · exact absurd (update_self ..) held
    · exact Or.inl rfl
  · cases b
    · exact absurd (update_self ..) held
    · have differs : s.table z ≠ s.kstack z := by
        intro same
        cases consistent.paged.apart (z, true) (z, false) held same
      simp only [Core.page, if_true, update_of_ne differs]
      exact consistent.paged.taken (z, true) held
  · have differs : s.page y ≠ s.kstack z := by
      intro same
      have equal := consistent.paged.apart y (z, false) held same
      exact other (congrArg Prod.fst equal)
    dsimp only
    rw [update_of_ne differs]
    exact consistent.paged.taken y held

theorem Consistent.freeTable (here : s.code c = some (.waitTable z)) :
    Consistent (({ s with
      free := update s.free (s.pgdir z) true
      table := update s.table z 0 }).goto c (.waitReset z)) := by
  obtain ⟨p, loc, pc, ⟨zombie, kstack, table, pgdir⟩, alone, rests, wf, dead⟩ :=
    consistent.working here rfl
  refine consistent.slot (p := p) (x := z) {
    loc := loc, pc := pc, before := rfl, after := rfl, wf := trivial, inside := rfl, dead := dead
    away := consistent.placed.zombie_away here rfl rfl zombie
    frame := ⟨rfl, rfl, rfl, rfl, rfl⟩
    others := fun r other => ⟨rfl, rfl, rfl, update_of_ne other .., rfl, rfl⟩
    rests := ⟨rests, wf⟩
    stopped := fun runs => absurd (zombie.symm.trans runs) (by decide)
    parked := fun alive => absurd alive dead
    oldSlot := fun y slot => (Option.some.inj slot).symm
    newSlot := fun y slot => (Option.some.inj slot).symm
    alone := alone
    holds := ⟨zombie, kstack, update_self ..⟩
    zombie := fun _ => Or.inr rfl
    unused := fun unused => absurd (zombie.symm.trans unused) (by decide)
    page := fun b held => ?_
    apart := fun held => absurd kstack held
    taken := fun b held => ?_
    kept := fun y other held => ?_ }
  · cases b
    · exact absurd kstack held
    · exact absurd (update_self ..) held
  · cases b
    · exact absurd kstack held
    · exact absurd (update_self ..) held
  · have differs : s.page y ≠ s.pgdir z := by
      intro same
      rw [pgdir] at same
      have equal := consistent.paged.apart y (z, true) held same
      exact other (congrArg Prod.fst equal)
    dsimp only
    rw [update_of_ne differs]
    exact consistent.paged.taken y held

theorem Consistent.reset (here : s.code c = some (.waitReset z)) :
    Consistent (({ s with
      state := update s.state z .UNUSED }).goto c .waitRelease) := by
  obtain ⟨p, loc, pc, ⟨zombie, kstack, table⟩, alone, rests, wf, dead⟩ :=
    consistent.working here rfl
  refine consistent.slot (p := p) (x := z) {
    loc := loc, pc := pc, before := rfl, after := rfl, wf := trivial, inside := rfl, dead := dead
    away := consistent.placed.zombie_away here rfl rfl zombie
    frame := ⟨rfl, rfl, rfl, rfl, rfl⟩
    others := fun r other => ⟨update_of_ne other .., rfl, rfl, rfl, rfl, rfl⟩
    rests := ⟨rests, wf⟩
    stopped := ?_, parked := ?_
    oldSlot := fun y slot => (Option.some.inj slot).symm
    newSlot := fun y slot => ?_
    alone := alone
    holds := trivial
    zombie := ?_
    unused := fun _ => ⟨kstack, table⟩
    page := fun b _ => Or.inl rfl
    apart := fun held => absurd kstack held
    taken := fun b held => consistent.paged.taken (z, b) held
    kept := fun y _ held => consistent.paged.taken y held }
  · dsimp only
    rw [update_self]
    decide
  · dsimp only
    rw [update_self]
    exact fun alive => absurd alive not_alive_unused
  · cases slot
  · dsimp only
    rw [update_self]
    exact ProcState.noConfusion

end

end Calls

end Slots

end Xv6Tracing.Sched
