import Xv6Tracing.Sched.Placement

/-!
# Which process owns which pages

Every process owns a kernel stack and a page table, no two own the same page, and no page
of theirs is free.  `fork` builds up the pages of a slot that only it works on, and `wait`
takes down those of a zombie.
-/

set_option autoImplicit false

namespace Xv6Tracing.Sched

open Function (update update_of_ne update_self)

open Lib

variable {C K L : Type}

def Core.Whole (s : Core C K L) (p : Fin NPROC) : Prop :=
  s.kstack p ≠ 0 ∧ s.table p ≠ 0 ∧ s.pgdir p = s.table p

def Work.Holds (s : Core C K L) : Work → Prop
  | .none => True
  | .bare np => s.state np = .EMBRYO ∧ s.kstack np = 0 ∧ s.table np = 0
  | .stacked np => s.state np = .EMBRYO ∧ s.kstack np ≠ 0 ∧ s.table np = 0 ∧
      s.context np = .forkret ∧ s.pc np = .forkret
  | .complete np => s.state np = .EMBRYO ∧ s.Whole np ∧
      s.context np = .forkret ∧ s.pc np = .forkret
  | .reap z => s.state z = .ZOMBIE ∧ s.Whole z
  | .unstacked z => s.state z = .ZOMBIE ∧ s.kstack z = 0 ∧ s.table z ≠ 0 ∧ s.pgdir z = s.table z
  | .untabled z => s.state z = .ZOMBIE ∧ s.kstack z = 0 ∧ s.table z = 0

def Core.page (s : Core C K L) (x : Fin NPROC × Bool) : Nat :=
  if x.2 then s.table x.1 else s.kstack x.1

structure Paged (s : Core C K L) : Prop where
  alive : ∀ p, Alive (s.state p) → s.Whole p
  zombie : ∀ p, s.state p = .ZOMBIE → s.Whole p ∨ ∃ q, (s.pc q).work.slot = some p
  unused : ∀ p, s.state p = .UNUSED → s.kstack p = 0 ∧ s.table p = 0
  work : ∀ p, (s.pc p).work.Holds s
  worker : ∀ p q np, (s.pc p).work.slot = some np → (s.pc q).work.slot = some np → p = q
  idle : ∀ p, ¬ Alive (s.state p) → (s.pc p).work = .none
  apart : ∀ x y, s.page x ≠ 0 → s.page x = s.page y → x = y
  taken : ∀ x, s.page x ≠ 0 → s.free (s.page x) = false

section Pages

variable {s u : Core C K L} {c : C} {p np z : Fin NPROC}

/-- Moves that keep the pages, what the threads work on, and which slots are new, in use
or zombies. -/
theorem Paged.congr (paged : Paged s) (kstack : u.kstack = s.kstack) (pgdir : u.pgdir = s.pgdir)
    (table : u.table = s.table) (free : u.free = s.free)
    (work : ∀ p, (u.pc p).work = (s.pc p).work)
    (embryo : ∀ p, s.state p = .EMBRYO → u.context p = s.context p ∧ u.pc p = s.pc p)
    (alive : ∀ p, Alive (u.state p) ↔ Alive (s.state p))
    (dead : ∀ p state, ¬ Alive state → (u.state p = state ↔ s.state p = state)) : Paged u := by
  have page : u.page = s.page := by
    funext x
    rw [Core.page, Core.page, table, kstack]
  have whole : ∀ p, u.Whole p ↔ s.Whole p := by
    intro p
    rw [Core.Whole, Core.Whole, kstack, table, pgdir]
  have new : ∀ p, u.state p = .EMBRYO ↔ s.state p = .EMBRYO := fun p =>
    dead p .EMBRYO not_alive_embryo
  have zombie : ∀ p, u.state p = .ZOMBIE ↔ s.state p = .ZOMBIE := fun p =>
    dead p .ZOMBIE not_alive_zombie
  have unused : ∀ p, u.state p = .UNUSED ↔ s.state p = .UNUSED := fun p =>
    dead p .UNUSED not_alive_unused
  refine ⟨fun p => ?_, fun p => ?_, fun p => ?_, fun p => ?_, fun p q np => ?_, fun p => ?_, ?_, ?_⟩
  · rw [alive, whole]
    exact paged.alive p
  · simp only [zombie, whole, work]
    exact paged.zombie p
  · rw [unused, kstack, table]
    exact paged.unused p
  · have holds := paged.work p
    rw [work]
    cases at_ : (s.pc p).work with
    | none => trivial
    | bare np =>
      rw [at_] at holds
      simpa only [Work.Holds, new, kstack, table] using holds
    | stacked np =>
      rw [at_] at holds
      obtain ⟨context, pc⟩ := embryo np holds.1
      simpa only [Work.Holds, new, kstack, table, context, pc] using holds
    | complete np =>
      rw [at_] at holds
      obtain ⟨context, pc⟩ := embryo np holds.1
      simpa only [Work.Holds, new, whole, context, pc] using holds
    | reap z =>
      rw [at_] at holds
      simpa only [Work.Holds, zombie, whole] using holds
    | unstacked z =>
      rw [at_] at holds
      simpa only [Work.Holds, zombie, kstack, table, pgdir] using holds
    | untabled z =>
      rw [at_] at holds
      simpa only [Work.Holds, zombie, kstack, table] using holds
  · rw [work, work]
    exact paged.worker p q np
  · rw [alive, work]
    exact paged.idle p
  · rw [page]
    exact paged.apart
  · rw [page, free]
    exact paged.taken

/-- The thread of `p` goes on from `old` to `new` and changes nothing but slot `x`, which
has no thread that runs. -/
structure SlotMove (s t : Core C K L) (p x : Fin NPROC) (old new : Pc K L) : Prop where
  worker : Alive (s.state p)
  slot : ¬ Alive (s.state x)
  before : s.pc p = old
  after : t.pc p = new
  pc : ∀ q, q ≠ p → q ≠ x → t.pc q = s.pc q
  others : ∀ q, q ≠ x → t.state q = s.state q ∧ t.kstack q = s.kstack q ∧
    t.pgdir q = s.pgdir q ∧ t.table q = s.table q ∧ t.context q = s.context q
  rests : (t.pc x).work = .none
  oldSlot : ∀ y, old.work.slot = some y → y = x
  newSlot : ∀ y, new.work.slot = some y → y = x
  alone : ∀ q, q ≠ p → (s.pc q).work.slot ≠ some x
  holds : new.work.Holds t
  alive : Alive (t.state x) → t.Whole x
  zombie : t.state x = .ZOMBIE → t.Whole x ∨ new.work.slot = some x
  unused : t.state x = .UNUSED → t.kstack x = 0 ∧ t.table x = 0
  page : ∀ b, t.page (x, b) ≠ 0 → t.page (x, b) = s.page (x, b) ∨ s.free (t.page (x, b)) = true
  apart : t.kstack x ≠ 0 → t.kstack x ≠ t.table x
  taken : ∀ b, t.page (x, b) ≠ 0 → t.free (t.page (x, b)) = false
  kept : ∀ y : Fin NPROC × Bool, y.1 ≠ x → s.page y ≠ 0 → t.free (s.page y) = false

variable {t : Core C K L} {x : Fin NPROC} {old new : Pc K L}

section

variable (move : SlotMove s t p x old new)

include move

theorem SlotMove.distinct : p ≠ x := by
  rintro rfl
  exact move.slot move.worker

theorem SlotMove.page_other {y : Fin NPROC × Bool}
    (other : y.1 ≠ x) : t.page y = s.page y := by
  obtain ⟨-, kstack, -, table, -⟩ := move.others y.1 other
  rw [Core.page, Core.page, table, kstack]

theorem SlotMove.whole_other {q : Fin NPROC}
    (other : q ≠ x) : t.Whole q ↔ s.Whole q := by
  obtain ⟨-, kstack, pgdir, table, -⟩ := move.others q other
  rw [Core.Whole, Core.Whole, table, kstack, pgdir]

theorem SlotMove.holds_other {work : Work}
    (holds : work.Holds s) (other : work.slot ≠ some x) : work.Holds t := by
  have embryo : ∀ y, s.state y = .EMBRYO → y ≠ p := by
    rintro y new rfl
    have alive := move.worker
    rw [new] at alive
    exact not_alive_embryo alive
  cases work with
  | none => trivial
  | bare y =>
    have away : y ≠ x := fun same => other (congrArg some same)
    obtain ⟨state, kstack, pgdir, table, context⟩ := move.others y away
    simpa only [Work.Holds, state, kstack, table] using holds
  | stacked y =>
    have away : y ≠ x := fun same => other (congrArg some same)
    obtain ⟨state, kstack, pgdir, table, context⟩ := move.others y away
    have pc := move.pc y (embryo y holds.1) away
    simpa only [Work.Holds, state, kstack, table, context, pc] using holds
  | complete y =>
    have away : y ≠ x := fun same => other (congrArg some same)
    obtain ⟨state, kstack, pgdir, table, context⟩ := move.others y away
    have pc := move.pc y (embryo y holds.1) away
    simpa only [Work.Holds, state, move.whole_other away, context, pc] using holds
  | reap y =>
    have away : y ≠ x := fun same => other (congrArg some same)
    obtain ⟨state, kstack, pgdir, table, context⟩ := move.others y away
    simpa only [Work.Holds, state, move.whole_other away] using holds
  | unstacked y =>
    have away : y ≠ x := fun same => other (congrArg some same)
    obtain ⟨state, kstack, pgdir, table, context⟩ := move.others y away
    simpa only [Work.Holds, state, kstack, table, pgdir] using holds
  | untabled y =>
    have away : y ≠ x := fun same => other (congrArg some same)
    obtain ⟨state, kstack, pgdir, table, context⟩ := move.others y away
    simpa only [Work.Holds, state, kstack, table] using holds

end

theorem SlotMove.slot_other (paged : Paged s) (move : SlotMove s t p x old new) {q : Fin NPROC}
    (other : q ≠ p) : (t.pc q).work = (s.pc q).work := by
  by_cases self : q = x
  · rw [self, move.rests, paged.idle x move.slot]
  · rw [move.pc q other self]

theorem SlotMove.pages_apart (paged : Paged s) (move : SlotMove s t p x old new)
    {y z : Fin NPROC × Bool} (held : t.page y ≠ 0) (same : t.page y = t.page z) : y = z := by
  -- a page of the slot is not one of another slot
  have away : ∀ b (z : Fin NPROC × Bool), z.1 ≠ x → t.page (x, b) ≠ 0 →
      t.page (x, b) ≠ t.page z := by
    intro b z other held same
    rw [move.page_other other] at same
    rcases move.page b held with kept | fresh
    · have equal := paged.apart (x, b) z (kept ▸ held) (kept ▸ same)
      exact other (congrArg Prod.fst equal).symm
    · have taken := paged.taken z (same ▸ held)
      rw [← same, fresh] at taken
      cases taken
  by_cases first : y.1 = x
  · by_cases second : z.1 = x
    · obtain ⟨y, a⟩ := y
      obtain ⟨z, b⟩ := z
      cases first
      cases second
      cases a <;> cases b
      · rfl
      · exact absurd same (move.apart held)
      · have held' : t.page (y, false) ≠ 0 := same ▸ held
        exact absurd same.symm (move.apart held')
      · rfl
    · obtain ⟨y, a⟩ := y
      cases first
      exact absurd same (away a z second held)
  · by_cases second : z.1 = x
    · obtain ⟨z, b⟩ := z
      cases second
      exact absurd same.symm (away b y first (same ▸ held))
    · rw [move.page_other first] at held
      rw [move.page_other first, move.page_other second] at same
      exact paged.apart y z held same

theorem Paged.slot (paged : Paged s) (move : SlotMove s t p x old new) : Paged t where
  alive := by
    intro q alive
    by_cases self : q = x
    · rw [self] at alive ⊢
      exact move.alive alive
    · rw [(move.others q self).1] at alive
      exact (move.whole_other self).mpr (paged.alive q alive)
  zombie := by
    intro q zombie
    by_cases self : q = x
    · rw [self] at zombie ⊢
      exact (move.zombie zombie).imp id fun mine => ⟨p, by rw [move.after, mine]⟩
    · rw [(move.others q self).1] at zombie
      rcases paged.zombie q zombie with whole | ⟨r, works⟩
      · exact Or.inl ((move.whole_other self).mpr whole)
      · have other : r ≠ p := by
          rintro rfl
          rw [move.before] at works
          exact self (move.oldSlot q works)
        exact Or.inr ⟨r, by rw [move.slot_other paged other, works]⟩
  unused := by
    intro q unused
    by_cases self : q = x
    · rw [self] at unused ⊢
      exact move.unused unused
    · obtain ⟨state, kstack, -, table, -⟩ := move.others q self
      rw [state] at unused
      rw [kstack, table]
      exact paged.unused q unused
  work := by
    intro q
    by_cases self : q = p
    · rw [self, move.after]
      exact move.holds
    · rw [move.slot_other paged self]
      exact move.holds_other (paged.work q) (move.alone q self)
  worker := by
    intro q r y first second
    by_cases atQ : q = p
    · by_cases atR : r = p
      · rw [atQ, atR]
      · rw [atQ, move.after] at first
        rw [move.slot_other paged atR, move.newSlot y first] at second
        exact absurd second (move.alone r atR)
    · by_cases atR : r = p
      · rw [atR, move.after] at second
        rw [move.slot_other paged atQ, move.newSlot y second] at first
        exact absurd first (move.alone q atQ)
      · rw [move.slot_other paged atQ] at first
        rw [move.slot_other paged atR] at second
        exact paged.worker q r y first second
  idle := by
    intro q dead
    have other : q ≠ p := by
      rintro rfl
      rw [(move.others q move.distinct).1] at dead
      exact dead move.worker
    by_cases self : q = x
    · rw [self]
      exact move.rests
    · rw [(move.others q self).1] at dead
      rw [move.pc q other self]
      exact paged.idle q dead
  apart := fun _ _ held same => move.pages_apart paged held same
  taken := by
    intro y held
    by_cases self : y.1 = x
    · obtain ⟨y, b⟩ := y
      cases self
      exact move.taken b held
    · rw [move.page_other self] at held ⊢
      exact move.kept y self held

theorem Paged.exits (paged : Paged s) (alive : Alive (s.state p)) (before : (s.pc p).work = .none)
    (after : old.work = .none) :
    Paged { s with
      state := update s.state p .ZOMBIE
      pc := update s.pc p old } := by
  have works : ∀ q, (update s.pc p old q).work = (s.pc q).work := by
    intro q
    by_cases self : q = p
    · rw [self, update_self, before, after]
    · rw [update_of_ne self]
  have away : ∀ {y state}, s.state y = state → ¬ Alive state → y ≠ p := by
    rintro y state at_ dead rfl
    exact dead (at_ ▸ alive)
  refine ⟨fun q => ?_, fun q => ?_, fun q => ?_, fun q => ?_, fun q r y => ?_, fun q => ?_,
    paged.apart, paged.taken⟩
  · dsimp only
    intro alive'
    by_cases self : q = p
    · rw [self, update_self] at alive'
      exact absurd alive' not_alive_zombie
    · rw [update_of_ne self] at alive'
      exact paged.alive q alive'
  · dsimp only
    simp only [works]
    intro zombie
    by_cases self : q = p
    · rw [self]
      exact Or.inl (paged.alive p alive)
    · rw [update_of_ne self] at zombie
      exact paged.zombie q zombie
  · dsimp only
    intro unused
    by_cases self : q = p
    · rw [self, update_self] at unused
      cases unused
    · rw [update_of_ne self] at unused
      exact paged.unused q unused
  · dsimp only
    rw [works]
    have holds := paged.work q
    cases at_ : (s.pc q).work with
    | none => trivial
    | bare y =>
      rw [at_] at holds
      simpa only [Work.Holds, update_of_ne (away holds.1 not_alive_embryo)] using holds
    | stacked y =>
      rw [at_] at holds
      simpa only [Work.Holds, update_of_ne (away holds.1 not_alive_embryo)] using holds
    | complete y =>
      rw [at_] at holds
      simpa only [Work.Holds, Core.Whole, update_of_ne (away holds.1 not_alive_embryo)]
        using holds
    | reap y =>
      rw [at_] at holds
      simpa only [Work.Holds, Core.Whole, update_of_ne (away holds.1 not_alive_zombie)]
        using holds
    | unstacked y =>
      rw [at_] at holds
      simpa only [Work.Holds, update_of_ne (away holds.1 not_alive_zombie)] using holds
    | untabled y =>
      rw [at_] at holds
      simpa only [Work.Holds, update_of_ne (away holds.1 not_alive_zombie)] using holds
  · dsimp only
    rw [works, works]
    exact paged.worker q r y
  · dsimp only
    rw [works]
    intro dead'
    by_cases self : q = p
    · rw [self]
      exact before
    · rw [update_of_ne self] at dead'
      exact paged.idle q dead'

end Pages

end Xv6Tracing.Sched
