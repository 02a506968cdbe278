import Xv6Tracing.Sched.Slots

/-!
# No process runs on two CPUs

Every move of a CPU keeps which CPU has which process, which pages a process owns, and
what a CPU has loaded, so they hold in every run from boot.
-/

set_option autoImplicit false

namespace Xv6Tracing.Sched

open Function (update update_eq_self update_of_ne update_self)

open Lib

variable {C K L : Type}

/-! ## The scheduler -/

section Scheduler

variable [DecidableEq C] {s u : Core C K L} {c : C} {p : Fin NPROC}

theorem Loaded.sched (loaded : Loaded s) (place : Loc K L)
    (loc : u.loc = update s.loc c place) (pgdir : u.pgdir = s.pgdir)
    (kstack : u.kstack = s.kstack) (cr3 : u.cr3 c = place.table.map s.pgdir)
    (stack : u.stack c = place.stack.map s.kstack)
    (others : ∀ d, d ≠ c → u.cr3 d = s.cr3 d ∧ u.stack d = s.stack d) : Loaded u := by
  constructor
  · intro d
    rw [loc, pgdir]
    grind [Loaded]
  · intro d
    rw [loc, kstack]
    grind [Loaded]

omit [DecidableEq C] in
theorem Paged.sched (paged : Paged s) (state : u.state = s.state) (kstack : u.kstack = s.kstack)
    (pgdir : u.pgdir = s.pgdir) (table : u.table = s.table) (free : u.free = s.free)
    (pc : u.pc = s.pc) (context : u.context = s.context) : Paged u :=
  paged.congr kstack pgdir table free (fun q => by rw [pc])
    (fun q _ => ⟨congrFun context q, congrFun pc q⟩) (fun q => by rw [state])
    fun q _ _ => by rw [state]

variable {place : Loc K L}

theorem Consistent.bare (consistent : Consistent s)
    (before : (s.loc c).proc = none) (after : place.proc = none) {lk : Option C}
    (lock : Excl id lk (update s.inside c place.inside))
    (handler : ∀ pc, place = .handler pc → pc.Wf ∧ pc.work = .none) :
    Consistent { s with lk := lk, loc := update s.loc c place } := by
  have thread : ∀ {place : Loc K L} (q : Fin NPROC), place.proc = none → place ≠ .thread q := by
    rintro place q none rfl
    cases none
  have tables : ∀ place : Loc K L, place.proc = none → place.table = none ∧ place.stack = none := by
    intro place none
    cases place <;> first | exact ⟨rfl, rfl⟩ | cases none
  refine ⟨consistent.placed.sched place (c := c) ⟨rfl, ?_, rfl, rfl, fun _ _ => rfl,
    fun q some => ?_, fun d q _ some => ?_, fun q some => ?_, fun _ alive => alive,
    fun q => ⟨thread q before, thread q after⟩, handler⟩ lock,
    consistent.paged.sched rfl rfl rfl rfl rfl rfl rfl, ?_⟩
  · rw [after, ← before, ← consistent.placed.proc, update_eq_self]
  · rw [after] at some
    cases some
  · rw [after] at some
    cases some
  · rw [before] at some
    cases some
  · refine consistent.loaded.sched place (c := c) rfl rfl rfl ?_ ?_
      fun d _ => ⟨rfl, rfl⟩
    · rw [consistent.loaded.cr3, (tables _ before).1, (tables _ after).1]
    · rw [consistent.loaded.stack, (tables _ before).2, (tables _ after).2]

omit [DecidableEq C] in
theorem inside_of_loc (here : s.loc c = place) (thread : ∀ p, place ≠ .thread p) :
    s.inside c = place.inside := by
  rw [Core.inside, here]
  cases place with
  | thread p => exact absurd rfl (thread p)
  | _ => rfl

theorem Consistent.pick (consistent : Consistent s) {i : Nat} (here : s.loc c = .scan i)
    (runnable : s.state p = .RUNNABLE) :
    Consistent { s with
      proc := update s.proc c (some p)
      loc := update s.loc c (.picked p) } := by
  have held : s.inside c = true := inside_of_loc here nofun
  refine ⟨consistent.placed.sched (.picked p) (c := c) ⟨rfl, rfl, rfl, rfl, fun _ _ => rfl,
    ?_, ?_, ?_, fun _ alive => alive, fun q => ⟨?_, ?_⟩, ?_⟩ (consistent.placed.lock.stay held.symm),
    consistent.paged.sched rfl rfl rfl rfl rfl rfl rfl, ?_⟩
  · rintro q ⟨rfl⟩
    exact runnable
  · rintro d q other ⟨rfl⟩ chosen
    have state := (consistent.placed.elsewhere held other chosen).2
    rw [runnable] at state
    cases state
  · intro q chosen
    rw [here] at chosen
    cases chosen
  · rw [here]
    nofun
  · nofun
  · nofun
  · refine consistent.loaded.sched (.picked p) (c := c) rfl rfl rfl ?_ ?_
      fun d _ => ⟨rfl, rfl⟩
    · rw [consistent.loaded.cr3, here]
      rfl
    · rw [consistent.loaded.stack, here]
      rfl

/-- A CPU in `scheduler` that keeps its process, whose state may change. -/
theorem Consistent.keeps (consistent : Consistent s) (place : Loc K L) (state : ProcState)
    (before : (s.loc c).proc = some p) (after : place.proc = some p)
    (thread : ∀ q, s.loc c ≠ .thread q ∧ place ≠ .thread q) (inside : place.inside = s.inside c)
    (allows : place.Allows (s.pc p) state)
    (kept : state = s.state p ∨ Alive (s.state p) ∧ Alive state) :
    Consistent { s with
      state := update s.state p state
      cr3 := update s.cr3 c (place.table.map s.pgdir)
      loc := update s.loc c place } := by
  have alive : ∀ q, Alive (update s.state p state q) ↔ Alive (s.state q) := by grind
  have stack : ∀ {place : Loc K L}, (∀ q, place ≠ .thread q) → place.stack = none := by
    intro place away
    cases place with
    | thread q => exact absurd rfl (away q)
    | _ => rfl
  refine ⟨consistent.placed.sched place (c := c) ⟨rfl, ?_, rfl, rfl, fun q other => ?_,
    fun q mine => ?_, fun d q other mine => ?_, fun q mine _ => ?_, fun q => (alive q).mp, thread, ?_⟩
    (consistent.placed.lock.stay inside),
    consistent.paged.congr rfl rfl rfl rfl (fun _ => rfl) (fun _ _ => ⟨rfl, rfl⟩) alive
      fun q state' dead => ?_, ?_⟩
  · rw [after, ← before, ← consistent.placed.proc, update_eq_self]
  · have differs : q ≠ p := by
      rintro rfl
      exact other after
    exact update_of_ne differs ..
  · rw [after] at mine
    cases mine
    dsimp only
    rw [update_self]
    exact allows
  · rw [after] at mine
    cases mine
    exact fun chosen => other (consistent.placed.unique d c p chosen before)
  · rw [before] at mine
    cases mine
    exact after
  · rintro pc rfl
    cases after
  · grind
  · grind [consistent.loaded.sched, consistent.loaded.stack]

omit [DecidableEq C] in
theorem Consistent.state_at (consistent : Consistent s) (here : s.loc c = place)
    (chosen : place.proc = some p) : place.Allows (s.pc p) (s.state p) := by
  have allowed := consistent.placed.allows c p (by rw [here, chosen])
  rwa [here] at allowed

section

variable (consistent : Consistent s)

include consistent

theorem Consistent.switchuvm (here : s.loc c = .picked p) :
    Consistent { s with
      cr3 := update s.cr3 c (some (s.pgdir p))
      loc := update s.loc c (.loaded p) } := by
  have allowed := consistent.state_at here rfl
  have next := consistent.keeps (c := c) (p := p) (.loaded p) _ (by rw [here]; rfl) rfl
    (fun q => ⟨by rw [here]; nofun, nofun⟩) (inside_of_loc here nofun).symm allowed (Or.inl rfl)
  rwa [update_eq_self] at next

theorem Consistent.running (here : s.loc c = .loaded p) :
    Consistent { s with
      state := update s.state p .RUNNING
      loc := update s.loc c (.marked p) } := by
  have runnable : s.state p = .RUNNABLE := consistent.state_at here rfl
  have cr3 : s.cr3 c = some (s.pgdir p) := by
    rw [consistent.loaded.cr3, here]
    rfl
  have next := consistent.keeps (c := c) (p := p) (.marked p) .RUNNING
    (by rw [here]; rfl) rfl (fun q => ⟨by rw [here]; nofun, nofun⟩)
    (inside_of_loc here nofun).symm rfl
    (Or.inr ⟨runnable ▸ Or.inr (Or.inl rfl), alive_running⟩)
  change Consistent { s with
    state := update s.state p .RUNNING
    cr3 := update s.cr3 c (some (s.pgdir p))
    loc := update s.loc c (.marked p) } at next
  rwa [← cr3, update_eq_self] at next

theorem Consistent.switchkvm (here : s.loc c = .back p) :
    Consistent { s with
      cr3 := update s.cr3 c none
      loc := update s.loc c (.kernel p) } := by
  have allowed := consistent.state_at here rfl
  have next := consistent.keeps (c := c) (p := p) (.kernel p) _ (by rw [here]; rfl) rfl
    (fun q => ⟨by rw [here]; nofun, nofun⟩) (inside_of_loc here nofun).symm allowed (Or.inl rfl)
  rwa [update_eq_self] at next

theorem Consistent.drop (here : s.loc c = .kernel p) {i : Nat} :
    Consistent { s with
      proc := update s.proc c none
      loc := update s.loc c (.scan i) } := by
  have allowed : s.state p = .RUNNABLE ∨ s.state p = .SLEEPING ∨ s.state p = .ZOMBIE :=
    consistent.state_at here rfl
  have held : s.inside c = true := inside_of_loc here nofun
  refine ⟨consistent.placed.sched (.scan i) (c := c) ⟨rfl, rfl, rfl, rfl, fun _ _ => rfl,
    nofun, nofun, ?_, fun _ alive => alive, fun q => ⟨by rw [here]; nofun, nofun⟩, nofun⟩
    (consistent.placed.lock.stay held.symm),
    consistent.paged.sched rfl rfl rfl rfl rfl rfl rfl, ?_⟩
  · intro q chosen runs
    rw [here] at chosen
    cases chosen
    rw [runs] at allowed
    simp at allowed
  · refine consistent.loaded.sched (.scan i) (c := c) rfl rfl rfl ?_ ?_
      fun d _ => ⟨rfl, rfl⟩
    · rw [consistent.loaded.cr3, here]
      rfl
    · rw [consistent.loaded.stack, here]
      rfl

theorem Consistent.swtchIn (here : s.loc c = .marked p) :
    Consistent { s with
      pc := update s.pc p (s.context p)
      stack := update s.stack c (some (s.kstack p))
      loc := update s.loc c (.thread p) } := by
  have context := (consistent.placed.resumes here).1
  refine ⟨consistent.placed.swtchIn here, ?_, ?_⟩
  · refine consistent.paged.sched rfl rfl rfl rfl rfl ?_ rfl
    dsimp only
    rw [context, update_eq_self]
  · refine consistent.loaded.sched (.thread p) (c := c) rfl rfl rfl ?_
      (update_self ..) fun d other => ⟨rfl, update_of_ne other ..⟩
    rw [consistent.loaded.cr3, here]
    rfl

theorem Consistent.swtchOut {resume : Pc K L}
    (here : s.loc c = .thread p) (pc : s.pc p = .sched resume) {q : Fin NPROC}
    (own : s.proc c = some q) :
    Consistent { s with
      context := update s.context q resume
      pc := update s.pc p resume
      loc := update s.loc c (.back p)
      stack := update s.stack c none } := by
  rw [consistent.placed.proc, here] at own
  cases own
  refine ⟨consistent.placed.swtchOut here pc, ?_, ?_⟩
  · refine consistent.paged.congr rfl rfl rfl rfl (fun r => ?_) (fun r new => ?_)
      (fun _ => Iff.rfl) fun _ _ _ => Iff.rfl
    · dsimp only
      by_cases self : r = p
      · rw [self, update_self, pc]
        rfl
      · rw [update_of_ne self]
    · have other : r ≠ p := by
        rintro rfl
        exact consistent.placed.nowhere (c := c) (Or.inl new) (by rw [here]; rfl)
      dsimp only
      rw [update_of_ne other, update_of_ne other]
      exact ⟨rfl, rfl⟩
  · refine consistent.loaded.sched (.back p) (c := c) rfl rfl rfl ?_
      (update_self ..) fun d other => ⟨rfl, update_of_ne other ..⟩
    rw [consistent.loaded.cr3, here]
    rfl

end

end Scheduler

/-! ## Every move keeps the invariant -/

section Invariant

variable [DecidableEq C] {s t : Core C K L} {c : C}

variable {old : Pc K L}

section

variable (consistent : Consistent s)

include consistent

theorem Consistent.shift {new : Pc K L}
    (here : s.code c = some old) (shift : Passes old new) {lk : Option C} {locks : L → Option C}
    (lock : Excl id lk (update s.inside c new.inside)) :
    Consistent (({ s with lk := lk, locks := locks }).goto c new) where
  placed := consistent.placed.shift here shift lock
  paged := consistent.paged.code consistent.placed here shift.work rfl rfl rfl rfl rfl rfl rfl
    (fun _ => Iff.rfl) fun _ _ _ => Iff.rfl
  loaded := consistent.loaded.code here rfl rfl rfl fun _ _ _ => ⟨rfl, rfl⟩

theorem Consistent.wakes {new : Pc K L}
    (here : s.code c = some old) (shift : Shift old new)
    (inside : old.inside = true ∧ new.inside = true) {state : Fin NPROC → ProcState}
    (woken : ∀ p, state p = s.state p ∨ s.state p = .SLEEPING ∧ state p = .RUNNABLE) :
    Consistent (({ s with state := state }).goto c new) where
  placed := consistent.placed.wakes here shift inside woken
  paged := by
    refine consistent.paged.code consistent.placed here shift.work rfl rfl rfl rfl rfl rfl rfl
      (fun p => ?_) fun p state' dead => ?_
    · dsimp only
      rcases woken p with same | ⟨asleep, runnable⟩
      · rw [same]
      · exact iff_of_true (Or.inr (Or.inl runnable)) (Or.inl asleep)
    · dsimp only
      rcases woken p with same | ⟨asleep, runnable⟩
      · rw [same]
      · refine iff_of_false ?_ ?_
        · rintro rfl
          exact dead (Or.inr (Or.inl runnable))
        · rintro rfl
          exact dead (Or.inl asleep)
  loaded := consistent.loaded.code here rfl rfl rfl fun _ _ _ => ⟨rfl, rfl⟩

theorem Consistent.marks {resume : Pc K L} {q : Fin NPROC}
    (here : s.code c = some old) (own : s.proc c = some q) (before : old.state = .RUNNING)
    (inside : old.inside = true) (wf : (Pc.sched resume).Wf) (work : resume.work = old.work) :
    Consistent (({ s with
      state := update s.state q (Pc.sched resume).state }).goto c (.sched resume)) := by
  obtain ⟨loc, pc⟩ := consistent.placed.caller here own
  have runs : s.state q = .RUNNING := (consistent.placed.state_of_code loc here).trans before
  refine ⟨consistent.placed.marks here own inside wf work, ?_,
    consistent.loaded.code here rfl rfl rfl fun _ _ _ => ⟨rfl, rfl⟩⟩
  -- still alive, or now a zombie
  have stays : ∀ state : ProcState, Alive state →
      Paged (({ s with state := update s.state q state }).goto c (.sched resume)) := by
    intro state alive
    refine consistent.paged.code consistent.placed here work rfl rfl rfl rfl rfl rfl rfl
      (fun p => ?_) fun p state' dead => ?_
    · dsimp only
      grind [alive_running]
    · dsimp only
      grind [alive_running]
  cases wf.1 with
  | yieldRelease ret => exact stays .RUNNABLE (Or.inr (Or.inl rfl))
  | sleepTidy lk ret => exact stays .SLEEPING (Or.inl rfl)
  | zombie =>
    have moved : ({ s with state := update s.state q .ZOMBIE } : Core C K L).goto c
        (.sched .zombie) = { s with
          state := update s.state q .ZOMBIE
          pc := update s.pc q (.sched .zombie) } := goto_thread loc
    have gone := consistent.paged.exits (p := q) (runs ▸ alive_running)
      (by rw [pc, ← work]; rfl) (rfl : (Pc.sched .zombie : Pc K L).work = .none)
    rw [← moved] at gone
    exact gone

theorem Consistent.move [DecidableEq L] (move : Move s c t) : Consistent t := by
  have lock := consistent.placed.lock
  cases move with
  | turn old new here shift inside =>
    have wf := consistent.placed.wf_of_code here
    exact consistent.shift here shift.toPasses (consistent.placed.stays here (inside wf))
  | takeOther l old new here passes inside before after free =>
    have wf := consistent.placed.wf_of_code here
    exact consistent.shift here passes (consistent.placed.stays here (inside wf))
  | giveOther l old new here passes inside before after held =>
    have wf := consistent.placed.wf_of_code here
    exact consistent.shift here passes (consistent.placed.stays here (inside wf))
  | take old new here shift outside inside free =>
    exact consistent.shift here shift.toPasses (lock.take free inside)
  | give old new here shift inside outside held =>
    have wf := consistent.placed.wf_of_code here
    exact consistent.shift here shift.toPasses
      (lock.give ((inside_of_code here).trans inside) (outside wf))
  | wake old new here shift inside state woken => exact consistent.wakes here shift inside woken
  | mark old resume q here own before inside wf work holds =>
    exact consistent.marks here own before inside (wf (consistent.placed.wf_of_code here)) work
  | swtchOut resume p q here pc own => exact consistent.swtchOut here pc own
  | alloc q np here own unused => exact consistent.alloc here own unused
  | noStack np here => exact consistent.noStack here
  | stack np pg here page free => exact consistent.stack here page free
  | noTable np here => exact consistent.noTable here
  | table np pg here page free => exact consistent.table here page free
  | run np here => exact consistent.run here
  | found q z here own zombie => exact consistent.found here own zombie
  | freeStack z here => exact consistent.freeStack here
  | freeTable z here => exact consistent.freeTable here
  | reset z here => exact consistent.reset here
  | enter here =>
    refine consistent.bare (by rw [here]; rfl) rfl
      (lock.stay (inside_of_loc here nofun).symm) ?_
    rintro pc ⟨rfl⟩
    exact ⟨trivial, rfl⟩
  | leave here =>
    exact consistent.bare (by rw [here]; rfl) rfl
      (lock.stay (inside_of_loc here nofun).symm) nofun
  | lock here free => exact consistent.bare (by rw [here]; rfl) rfl (lock.take free rfl) nofun
  | skip i here =>
    exact consistent.bare (by rw [here]; rfl) rfl
      (lock.stay (inside_of_loc here nofun).symm) nofun
  | unlock i here held =>
    exact consistent.bare (by rw [here]; rfl) rfl
      (lock.give (inside_of_loc here nofun) rfl) nofun
  | pick i p here runnable => exact consistent.pick here runnable
  | switchuvm p here => exact consistent.switchuvm here
  | running p here => exact consistent.running here
  | swtchIn p here => exact consistent.swtchIn here
  | switchkvm p here => exact consistent.switchkvm here
  | drop p here => exact consistent.drop here

end

end Invariant

/-! ## Runs -/

/-- Every CPU is before its first pass over the table, and the first process is ready. -/
structure Booted (s : World C K L) : Prop where
  lk : s.lk = none
  locks : ∀ l, s.locks l = none
  idle : ∀ c, s.loc c = .idle ∧ s.proc c = none ∧ s.cr3 c = none ∧ s.stack c = none
  init : s.state s.initproc = .RUNNABLE ∧ s.context s.initproc = .forkret
  registers : ∀ p, s.pc p = if p = s.initproc then .forkret else .user
  pages : s.Whole s.initproc ∧ s.kstack s.initproc ≠ s.table s.initproc
  taken : s.free (s.kstack s.initproc) = false ∧ s.free (s.table s.initproc) = false
  others : ∀ p, p ≠ s.initproc → s.state p = .UNUSED ∧ s.kstack p = 0 ∧ s.table p = 0

theorem Booted.work {s : World C K L} (booted : Booted s) (p : Fin NPROC) :
    (s.pc p).work = .none ∧ (s.pc p).Wf := by
  rw [booted.registers]
  split
  · exact ⟨rfl, trivial⟩
  · exact ⟨rfl, trivial⟩

theorem Booted.consistent {s : World C K L} (booted : Booted s) : Consistent s.toCore := by
  have loc := fun c => (booted.idle c).1
  have unused : ∀ {p}, s.state p ≠ .UNUSED → p = s.initproc := by
    intro p used
    by_contra other
    exact used (booted.others p other).1
  have page : ∀ x : Fin NPROC × Bool, s.page x ≠ 0 → x.1 = s.initproc := by
    grind [Core.page, Booted]
  have placed : Placed s.toCore := by
    refine ⟨fun c => ?_, fun c => ?_, fun c p chosen => ?_, fun c d p chosen => ?_, fun p runs => ?_,
      fun p alive _ => ?_, fun p => (booted.work p).2, fun c pc at_ => ?_⟩
    · rw [booted.lk, Core.inside, loc]
      exact iff_of_false Bool.false_ne_true (by simp)
    · rw [(booted.idle c).2.1, loc]
      rfl
    · rw [loc] at chosen
      cases chosen
    · rw [loc] at chosen
      cases chosen
    · have first := unused (p := p) (by rw [runs]; decide)
      rw [first, booted.init.1] at runs
      cases runs
    · have first := unused (p := p) fun none => not_alive_unused (none ▸ alive)
      rw [booted.registers, if_pos first, first, booted.init.2]
      exact ⟨rfl, .forkret⟩
    · rw [loc] at at_
      cases at_
  have paged : Paged s.toCore := by
    refine ⟨fun p alive => ?_, fun p zombie => ?_, fun p none => ?_, fun p => ?_,
      fun p q np works => ?_, fun p _ => (booted.work p).1, fun x y held same => ?_, fun x held => ?_⟩
    · rw [unused (p := p) fun none => not_alive_unused (none ▸ alive)]
      exact booted.pages.1
    · rw [unused (p := p) (by rw [zombie]; decide), booted.init.1] at zombie
      cases zombie
    · refine (booted.others p ?_).2
      rintro rfl
      rw [booted.init.1] at none
      cases none
    · rw [(booted.work p).1]
      trivial
    · rw [(booted.work p).1] at works
      cases works
    · have first := page x held
      have second := page y (same ▸ held)
      obtain ⟨x, a⟩ := x
      obtain ⟨y, b⟩ := y
      cases first
      cases second
      cases a <;> cases b
      · rfl
      · exact absurd same booted.pages.2
      · exact absurd same.symm booted.pages.2
      · rfl
    · have first := page x held
      obtain ⟨x, b⟩ := x
      cases first
      cases b
      · exact booted.taken.1
      · exact booted.taken.2
  refine ⟨placed, paged, fun c => ?_, fun c => ?_⟩
  · rw [(booted.idle c).2.2.1, loc]
    rfl
  · rw [(booted.idle c).2.2.2, loc]
    rfl

/-- While `ptable.lock` is free, the processes that are `RUNNING` are those that are current
on a CPU, each on one.  No process is executed by two CPUs.  Where `wait` frees the stack
and the page table of a zombie, no CPU is on that stack or has that table loaded. -/
structure Exclusive (s : Core C K L) : Prop where
  running : s.lk = none → ∀ p, s.state p = .RUNNING → ∃! c, s.proc c = some p
  current : s.lk = none → ∀ c p, s.proc c = some p → s.state p = .RUNNING
  once : ∀ c d p, s.loc c = .thread p → s.loc d = .thread p → c = d
  stack : ∀ c q z, s.loc c = .thread q → s.pc q = .waitStack z →
    ∀ d, s.stack d ≠ some (s.kstack z) ∧ s.cr3 d ≠ some (s.pgdir z)
  table : ∀ c q z, s.loc c = .thread q → s.pc q = .waitTable z →
    ∀ d, s.cr3 d ≠ some (s.pgdir z)

/-- No CPU has the pages of a zombie that `wait` takes down. -/
theorem Consistent.unloaded {s : Core C K L} (consistent : Consistent s) {c : C}
    {z : Fin NPROC} {old : Pc K L} (here : s.code c = some old) (inside : old.inside = true)
    (before : old.state = .RUNNING) (zombie : s.state z = .ZOMBIE) (d : C) :
    (s.kstack z ≠ 0 → s.stack d ≠ some (s.kstack z)) ∧
      (s.table z ≠ 0 → s.pgdir z = s.table z → s.cr3 d ≠ some (s.pgdir z)) := by
  have away := consistent.placed.zombie_away here inside before zombie d
  constructor
  · intro held loaded
    rw [consistent.loaded.stack, Option.map_eq_some_iff] at loaded
    obtain ⟨p, used, same⟩ := loaded
    have equal := consistent.paged.apart (z, false) (p, false) held same.symm
    cases equal
    exact away (Loc.proc_of_stack used)
  · intro held owned loaded
    rw [consistent.loaded.cr3, Option.map_eq_some_iff] at loaded
    obtain ⟨p, used, same⟩ := loaded
    have chosen := Loc.proc_of_table used
    have runs : s.state p = .RUNNING := by
      by_cases self : d = c
      · subst self
        rcases code_cases here with at_ | ⟨q, at_, -⟩
        · rw [at_] at chosen
          cases chosen
        · have state := consistent.placed.state_of_code at_ here
          rw [at_] at chosen
          cases chosen
          exact state.trans before
      · exact (consistent.placed.elsewhere ((inside_of_code here).trans inside) self chosen).2
    have own := (consistent.paged.alive p (runs ▸ alive_running)).2.2
    rw [own, owned] at same
    have equal := consistent.paged.apart (z, true) (p, true) held same.symm
    cases equal
    exact away chosen

theorem Consistent.exclusive {s : Core C K L} (consistent : Consistent s) : Exclusive s where
  running := by
    intro free p runs
    obtain ⟨c, chosen⟩ := consistent.placed.running p runs
    refine ⟨c, (consistent.placed.proc c).trans chosen, fun d chosen' => ?_⟩
    grind [consistent.placed.proc, consistent.placed.unique]
  current := by
    intro free c p chosen
    rw [consistent.placed.proc] at chosen
    exact (consistent.placed.outside (consistent.placed.lock.free free c) chosen).2
  once := by
    intro c d p first second
    exact consistent.placed.unique c d p (by rw [first]; rfl) (by rw [second]; rfl)
  stack := by
    intro c q z loc pc d
    have here : s.code c = some (.waitStack z) := by
      rw [Core.code, loc]
      exact congrArg some pc
    obtain ⟨p, -, -, ⟨zombie, kstack, table, pgdir⟩, -⟩ := consistent.working here rfl
    have unloaded := consistent.unloaded here rfl rfl zombie d
    exact ⟨unloaded.1 kstack, unloaded.2 table pgdir⟩
  table := by
    intro c q z loc pc d
    have here : s.code c = some (.waitTable z) := by
      rw [Core.code, loc]
      exact congrArg some pc
    obtain ⟨p, -, -, ⟨zombie, kstack, table, pgdir⟩, -⟩ := consistent.working here rfl
    exact (consistent.unloaded here rfl rfl zombie d).2 table pgdir

/-- Exclusive execution, in every interleaving of any number of CPUs. -/
theorem execution_is_exclusive [DecidableEq C] [DecidableEq K] [DecidableEq L]
    (procChan : Fin NPROC → K) (s : World C K L) (booted : Booted s) (moves : List (C × Op K L)) :
    Throughout (step procChan) (fun t => Exclusive t.toCore) s moves := by
  have kept : ∀ (s : World C K L) (move : C × Op K L) (t : World C K L), Consistent s.toCore →
      step procChan s move = some t → Consistent t.toCore :=
    fun _ _ _ consistent taken => consistent.move (step_move procChan taken)
  exact throughout_invariant kept (fun _ consistent => consistent.exclusive) moves s
    booted.consistent

/-- A process that is alive has a kernel stack and a page table that no other process has and
that are not free.  A CPU executes a thread on its stack, with its page table; no two CPUs
are on one stack. -/
structure OwnPages (s : Core C K L) : Prop where
  own : ∀ p, Alive (s.state p) → ∀ b, s.page (p, b) ≠ 0 ∧ s.free (s.page (p, b)) = false ∧
    ∀ x, s.page x = s.page (p, b) → x = (p, b)
  loaded : ∀ c p, s.loc c = .thread p →
    s.stack c = some (s.kstack p) ∧ s.cr3 c = some (s.pgdir p)
  once : ∀ c d p, Alive (s.state p) → s.stack c = some (s.kstack p) →
    s.stack d = some (s.kstack p) → c = d

theorem Consistent.ownPages {s : Core C K L} (consistent : Consistent s) : OwnPages s where
  own := by
    intro p alive b
    obtain ⟨stack, table, -⟩ := consistent.paged.alive p alive
    have held : s.page (p, b) ≠ 0 := by
      cases b
      · exact stack
      · exact table
    refine ⟨held, consistent.paged.taken _ held, fun x same => ?_⟩
    exact (consistent.paged.apart _ x held same.symm).symm
  loaded := by
    intro c p here
    rw [consistent.loaded.stack, consistent.loaded.cr3, here]
    exact ⟨rfl, rfl⟩
  once := by
    intro c d p alive first second
    have own : ∀ e, s.stack e = some (s.kstack p) → (s.loc e).proc = some p := by
      intro e used
      rw [consistent.loaded.stack, Option.map_eq_some_iff] at used
      obtain ⟨q, used, same⟩ := used
      have held := (consistent.paged.alive p alive).1
      cases consistent.paged.apart (p, false) (q, false) held same.symm
      exact Loc.proc_of_stack used
    exact consistent.placed.unique c d p (own c first) (own d second)

/-- Two CPUs and the first process, with the stack in page 1 and the page table in page 2. -/
def twoCpus : World Bool Nat Unit where
  lk := none
  loc := fun _ => .idle
  proc := fun _ => none
  cr3 := fun _ => none
  stack := fun _ => none
  state := fun p => if p = 0 then .RUNNABLE else .UNUSED
  kstack := fun p => if p = 0 then 1 else 0
  pgdir := fun p => if p = 0 then 2 else 0
  context := fun p => if p = 0 then .forkret else .user
  pc := fun p => if p = 0 then .forkret else .user
  table := fun p => if p = 0 then 2 else 0
  free := fun page => decide (2 < page)
  locks := fun _ => none
  pid := fun p => if p = 0 then 1 else 0
  parent := fun _ => none
  chan := fun _ => none
  killed := fun _ => false
  nextpid := 2
  initproc := 0
  cond := fun _ => false
  history := []

theorem twoCpus_booted : Booted twoCpus where
  lk := rfl
  locks := fun _ => rfl
  idle := fun _ => ⟨rfl, rfl, rfl, rfl⟩
  init := ⟨rfl, rfl⟩
  registers := fun _ => rfl
  pages := ⟨⟨by decide, by decide, rfl⟩, by decide⟩
  taken := ⟨rfl, rfl⟩
  others := by
    intro p other
    exact ⟨if_neg other, if_neg other, if_neg other⟩

/-- The first process forks on one CPU, the child runs and exits on the other, which goes
on to the end of the table, and the first process waits for it. -/
def forkExitWait : List (Bool × Op Nat Unit) :=
  List.replicate 6 (false, .go) ++
    [(false, .fork), (false, .go), (false, .go), (false, .page 3), (false, .page 4),
      (false, .go), (false, .go)] ++
    List.replicate 7 (true, .go) ++ [(true, .exit)] ++ List.replicate 69 (true, .go) ++
    [(false, .wait), (false, .go)]

theorem execution_is_exclusive_at_wait :
    Throughout (step fun p => p.val) (fun t => Exclusive t.toCore) twoCpus forkExitWait ∧
      (run (step fun p => p.val) twoCpus forkExitWait).map (fun t => t.pc 0) =
        some (.waitStack 1) :=
  ⟨execution_is_exclusive _ twoCpus twoCpus_booted forkExitWait, by decide +kernel⟩

end Xv6Tracing.Sched
