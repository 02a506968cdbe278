import Xv6Tracing.Log.Isolation

/-!
# Admission to the log

`begin_op` reserves `MAXOPBLOCKS` blocks for every operation and admits one
while `LOGSIZE` are enough.  `log_write` panics when the header has reached
`log.size - 1` entries.  `mkfs` makes the log `LOGSIZE` blocks long with its
header, so the last block that `begin_op` gives away is not there.
-/

set_option autoImplicit false

namespace Xv6Tracing.Log

open Lib

universe u

variable {P : Type u} [Fintype P] [DecidableEq P]

/-- No operation logs more than `limit` distinct blocks. -/
def WithinBudget (limit : Nat) (s : LogState P) : LogOp P → Prop
  | .log_write p b => (insert b (s.current p)).card ≤ limit
  | _ => True

/-- A call of `log_write` finds fewer than `nlog - 1` distinct blocks logged by
the operations of the open group. -/
def GroupHasRoom (log : LogArea) (s : LogState P) : LogOp P → Prop
  | .log_write p _ =>
    s.panic = none → s.pc p = .inOp → (s.group.card : Int) < log.size - 1
  | _ => True

def NotTooBig (s : LogState P) : Prop := s.panic ≠ some .tooBig

instance : DecidablePred (NotTooBig (P := P)) := fun s =>
  inferInstanceAs (Decidable (s.panic ≠ some .tooBig))

instance (limit : Nat) (s : LogState P) : ∀ op, Decidable (WithinBudget limit s op)
  | .log_write p b => inferInstanceAs (Decidable ((insert b (s.current p)).card ≤ limit))
  | .begin_op _ | .wake _ | .append _ | .end_op _ | .commit _ =>
    inferInstanceAs (Decidable True)

variable {s : LogState P} {log : LogArea} {p : P}

omit [DecidableEq P] in
theorem Inv.length_eq_card (inv : Inv log s) :
    s.lh.block.length = s.group.card := by
  rw [← inv.holding.content, List.toFinset_card_of_nodup inv.holding.nodup]

/-! ## The exact condition -/

structure Roomy (log : LogArea) (s : LogState P) : Prop where
  inv : Inv log s
  notTooBig : NotTooBig s

theorem roomy_step (s : LogState P) (op : LogOp P) (t : LogState P)
    (roomy : Roomy log s) (small : log.size ≤ LOGSIZE) (room : GroupHasRoom log s op)
    (taken : step log s op = some t) : Roomy log t := by
  refine ⟨inv_step s op t roomy.inv taken, ?_⟩
  obtain ⟨running, move⟩ := step_move taken
  have kept : s.panic ≠ some .tooBig := by simp [running]
  cases move with
  | tooBig p b here full =>
    have length := roomy.inv.length_eq_card
    have room := room running here
    omega
  | outsideOfTrans p b here none => simp [NotTooBig]
  | panicked p here busy => simp [NotTooBig]
  | commit p stage here =>
    have same : (commitStep log s p stage).panic = s.panic := by
      cases stage <;> simp only [commitStep] <;> (try split) <;> rfl
    rw [NotTooBig, same]
    exact kept
  | refused p outside full => exact kept
  | admitted p outside open_ room => exact kept
  | woken p asleep => exact kept
  | tested p b here room => exact kept
  | appended p b lh here inserted => exact kept
  | last p here open_ alone => exact kept
  | left p here open_ others => exact kept

omit [Fintype P] in
theorem log_write_tooBig (b : BlockNo) (running : s.panic = none) (here : s.pc p = .inOp)
    (full : (log.size : Int) - 1 ≤ s.lh.block.length) :
    step log s (.log_write p b) = some { s with panic := some .tooBig } := by
  simp [step, running, here, log_write, full]

theorem noRoom_panics (s : LogState P) (op : LogOp P) (roomy : Roomy log s)
    (noRoom : ¬ GroupHasRoom log s op) : ∃ t, step log s op = some t ∧ ¬ NotTooBig t := by
  cases op with
  | log_write p b =>
    simp only [GroupHasRoom, Classical.not_imp, not_lt] at noRoom
    obtain ⟨running, here, full⟩ := noRoom
    rw [← roomy.inv.length_eq_card] at full
    exact ⟨_, log_write_tooBig b running here full, fun notTooBig => notTooBig rfl⟩
  | begin_op p => exact absurd trivial noRoom
  | wake p => exact absurd trivial noRoom
  | append p => exact absurd trivial noRoom
  | end_op p => exact absurd trivial noRoom
  | commit p => exact absurd trivial noRoom

/-! ## The reservation -/

def reserve (limit : Nat) (s : LogState P) (p : P) : Nat :=
  if (s.pc p).InOp then limit - (s.current p).card else 0

structure Reserved (limit bound : Nat) (s : LogState P) : Prop where
  total : s.lh.block.length + ∑ p, reserve limit s p ≤ bound
  pending : ∀ p b, s.pc p = .logging b → (insert b (s.current p)).card ≤ limit

/-- The admission test of `begin_op` keeps the bound: `k` operations in progress
with `n` blocks logged, none when the operation is the first of its group. -/
def Admits (limit bound : Nat) : Prop :=
  ∀ n k : Nat, 0 < k → (k = 1 → n = 0) → n + k * MAXOPBLOCKS ≤ LOGSIZE → n + k * limit ≤ bound

omit [Fintype P] [DecidableEq P] in
theorem reserve_outside (limit : Nat) (outside : ¬ (s.pc p).InOp) :
    reserve limit s p = 0 := if_neg outside

omit [Fintype P] [DecidableEq P] in
theorem reserve_inside {limit : Nat} (inside : (s.pc p).InOp) :
    reserve limit s p = limit - (s.current p).card := if_pos inside

omit [Fintype P] [DecidableEq P] in
theorem reserve_congr (limit : Nat) {t : LogState P} {q : P}
    (place : (t.pc q).InOp ↔ (s.pc q).InOp) (current : t.current q = s.current q) :
    reserve limit t q = reserve limit s q := by
  simp only [reserve, place, current]

omit [DecidableEq P] in
theorem sum_reserve_le (limit : Nat) (s : LogState P) :
    ∑ p, reserve limit s p ≤ countP Pc.InOp s.pc * limit := by
  have each : ∑ p, reserve limit s p ≤ ∑ p, if (s.pc p).InOp then limit else 0 := by
    apply Finset.sum_le_sum
    intro p _
    simp only [reserve]
    split
    · exact Nat.sub_le _ _
    · exact Nat.le_refl _
  have total : (∑ p, if (s.pc p).InOp then limit else 0) = countP Pc.InOp s.pc * limit := by
    rw [← Finset.sum_filter, Finset.sum_const, smul_eq_mul]
    rfl
  exact each.trans total.le

section Reservation

variable {log : LogArea} {limit bound : Nat} {s t : LogState P}

omit [DecidableEq P] in
/-- A step that leaves the operations in progress and their blocks alone, and
does not lengthen the header. -/
theorem Reserved.of_same (reserved : Reserved limit bound s)
    (places : ∀ q, (t.pc q).InOp ↔ (s.pc q).InOp) (current : t.current = s.current)
    (length : t.lh.block.length ≤ s.lh.block.length)
    (pending : ∀ p b, t.pc p = .logging b → (insert b (s.current p)).card ≤ limit) :
    Reserved limit bound t := by
  refine ⟨?_, ?_⟩
  · grind [reserve_congr, Reserved]
  · rw [current]
    exact pending

variable {p : P} {b : BlockNo}

theorem Reserved.admitted (reserved : Reserved limit bound s) (inv : Inv log s)
    (admits : Admits limit bound) (outside : s.pc p = .idle ∨ s.pc p = .retry)
    (open_ : s.committing = false)
    (room : (s.lh.block.length : Int) + (s.outstanding + 1) * MAXOPBLOCKS ≤ LOGSIZE) :
    Reserved limit bound { s.setPc p .inOp with outstanding := s.outstanding + 1 } := by
  obtain ⟨notIn, _⟩ := outside_of_idle outside
  refine ⟨?_, ?_⟩
  · have others : ∀ q, q ≠ p →
        reserve limit { s.setPc p .inOp with outstanding := s.outstanding + 1 } q =
          reserve limit s q := by
      intro q other
      simp [reserve, LogState.setPc, other]
    have sum := sum_differ_at p others
    have before := reserve_outside limit notIn
    have after : reserve limit { s.setPc p .inOp with outstanding := s.outstanding + 1 } p ≤
        limit := by
      rw [reserve_inside (by simp [LogState.setPc, Pc.InOp])]
      exact Nat.sub_le _ _
    have active := sum_reserve_le limit s
    have count := inv.counted.count
    -- The first operation of a group finds the log empty.
    have first : countP Pc.InOp s.pc + 1 = 1 → s.lh.block.length = 0 := by
      intro one
      have zero : s.outstanding = 0 := by omega
      rw [inv.holding.quiet open_ zero]
      rfl
    have fits := admits s.lh.block.length (countP Pc.InOp s.pc + 1) (Nat.succ_pos _) first
      (by rw [count] at room; exact_mod_cast room)
    rw [Nat.add_one_mul] at fits
    show s.lh.block.length + ∑ q, reserve limit
      { s.setPc p .inOp with outstanding := s.outstanding + 1 } q ≤ bound
    omega
  · exact fun q b => setPc_forall (fun q place => place = .logging b →
      (insert b (s.current q)).card ≤ limit) (by simp) (fun q _ => reserved.pending q b) q

omit [DecidableEq P] in
theorem current_subset (inv : Inv log s) (p : P) (member : b ∈ s.current p) :
    b ∈ s.lh.block := by
  rw [← List.mem_toFinset, inv.holding.content, mem_group]
  exact Or.inr ⟨p, member⟩

theorem insert_length {lh lh' : LogHeader} (inserted : lh.insert b = some lh') :
    lh'.block.length = lh.block.length ∨ lh'.block.length = lh.block.length + 1 ∧ b ∉ lh.block := by
  simp only [LogHeader.insert] at inserted
  split at inserted
  · cases Option.some.inj inserted
    exact Or.inl rfl
  · grind

theorem Reserved.appended (reserved : Reserved limit bound s) (inv : Inv log s) {lh : LogHeader} (here : s.pc p = .logging b)
    (inserted : s.lh.insert b = some lh) :
    Reserved limit bound { s.setPc p .inOp with
      lh := lh
      current := Function.update s.current p (insert b (s.current p)) } := by
  refine ⟨?_, ?_⟩
  · have others : ∀ q, q ≠ p → reserve limit { s.setPc p .inOp with
        lh := lh
        current := Function.update s.current p (insert b (s.current p)) } q =
          reserve limit s q := by
      intro q other
      simp [reserve, LogState.setPc, other]
    have sum := sum_differ_at p others
    have before : reserve limit s p = limit - (s.current p).card :=
      reserve_inside (by rw [here]; trivial)
    have after : reserve limit { s.setPc p .inOp with
        lh := lh
        current := Function.update s.current p (insert b (s.current p)) } p =
          limit - (insert b (s.current p)).card := by
      rw [reserve_inside (by simp [LogState.setPc, Pc.InOp])]
      simp
    have within := reserved.pending p b here
    have grows : (s.current p).card ≤ (insert b (s.current p)).card :=
      Finset.card_le_card (Finset.subset_insert b _)
    have total := reserved.total
    show lh.block.length + _ ≤ bound
    rcases insert_length inserted with same | ⟨longer, fresh⟩
    · omega
    · grind [current_subset]
  · intro q c at_
    have other : q ≠ p := by
      rintro rfl
      simp [LogState.setPc] at at_
    grind [setPc_pc_of_ne, Reserved]

theorem Reserved.ended (reserved : Reserved limit bound s) (length : t.lh = s.lh)
    (gone : ¬ (t.pc p).InOp) (places : ∀ q, q ≠ p → ((t.pc q).InOp ↔ (s.pc q).InOp))
    (current : ∀ q, q ≠ p → t.current q = s.current q)
    (pending : ∀ q b, t.pc q = .logging b → s.pc q = .logging b) : Reserved limit bound t := by
  refine ⟨?_, ?_⟩
  · have sum := sum_differ_at p fun q other =>
      reserve_congr limit (places q other) (current q other)
    have after := reserve_outside limit gone
    have total := reserved.total
    rw [length]
    omega
  · intro q b at_
    have other : q ≠ p := by
      rintro rfl
      rw [at_] at gone
      exact gone trivial
    rw [current q other]
    exact reserved.pending q b (pending q b at_)

end Reservation

/-! ## Every step keeps the reservation -/

section Step

variable {log : LogArea} {limit bound : Nat} {s t : LogState P}

omit [DecidableEq P] in
theorem Inv.nobody (inv : Inv log s) (zero : s.outstanding = 0) (p : P) : ¬ (s.pc p).InOp := by
  rw [inv.counted.count] at zero
  exact countP_eq_zero (by exact_mod_cast zero) p

omit [Fintype P] in
theorem commitStep_frame (log : LogArea) (s : LogState P) (p : P) (stage : CommitPc) :
    (commitStep log s p stage).lh.block.length ≤ s.lh.block.length ∧
      (commitStep log s p stage).current = s.current ∧
      (commitStep log s p stage).outstanding = s.outstanding := by
  cases stage with
  | clear => exact ⟨Nat.zero_le _, rfl, rfl⟩
  | write_log tail =>
    simp only [commitStep]
    split <;> exact ⟨Nat.le_refl _, rfl, rfl⟩
  | install_trans tail =>
    simp only [commitStep]
    split <;> exact ⟨Nat.le_refl _, rfl, rfl⟩
  | start => exact ⟨Nat.le_refl _, rfl, rfl⟩
  | write_head => exact ⟨Nat.le_refl _, rfl, rfl⟩
  | erase => exact ⟨Nat.le_refl _, rfl, rfl⟩
  | finish => exact ⟨Nat.le_refl _, rfl, rfl⟩

variable {p : P}

omit [Fintype P] [DecidableEq P] in
theorem wakeup_logging {b : BlockNo} (here : s.wakeup.pc p = .logging b) :
    s.pc p = .logging b := by
  by_cases asleep : s.pc p = .sleeping
  · simp [LogState.wakeup, asleep] at here
  · simpa [LogState.wakeup, asleep] using here

theorem Reserved.setPc_outside (reserved : Reserved limit bound s) {place : Pc}
    (before : ¬ (s.pc p).InOp) (after : ¬ place.InOp) :
    Reserved limit bound (s.setPc p place) := by
  refine reserved.of_same ?_ rfl (Nat.le_refl _) ?_
  · intro q
    by_cases same : q = p
    · rw [same, setPc_pc_self]
      exact iff_of_false after before
    · rw [setPc_pc_of_ne same]
  · intro q b here
    by_cases same : q = p
    · rw [same, setPc_pc_self] at here
      rw [here] at after
      exact absurd trivial after
    · rw [setPc_pc_of_ne same] at here
      exact reserved.pending q b here

theorem Reserved.tested (reserved : Reserved limit bound s) {b : BlockNo}
    (here : s.pc p = .inOp) (within : (insert b (s.current p)).card ≤ limit) :
    Reserved limit bound (s.setPc p (.logging b)) := by
  refine reserved.of_same ?_ rfl (Nat.le_refl _) ?_
  · intro q
    by_cases same : q = p
    · rw [same, setPc_pc_self, here]
      exact Iff.rfl
    · rw [setPc_pc_of_ne same]
  · grind [setPc_pc_self, setPc_pc_of_ne, Reserved]

theorem reserved_step (op : LogOp P) (admits : Admits limit bound) (inv : Inv log s)
    (reserved : Reserved limit bound s) (within : WithinBudget limit s op)
    (taken : step log s op = some t) : Reserved limit bound t := by
  have next := inv_step s op t inv taken
  obtain ⟨_, move⟩ := step_move taken
  cases move with
  | refused p outside full =>
    exact reserved.setPc_outside (outside_of_idle outside).1 id
  | admitted p outside open_ room => exact reserved.admitted inv admits outside open_ room
  | woken p asleep => exact reserved.setPc_outside (by rw [asleep]; exact id) id
  | tooBig p b here full => exact ⟨reserved.total, reserved.pending⟩
  | outsideOfTrans p b here none => exact ⟨reserved.total, reserved.pending⟩
  | tested p b here room => exact reserved.tested here within
  | appended p b lh here inserted => exact reserved.appended inv here inserted
  | panicked p here busy =>
    exact absurd (by rw [here]; trivial) (inv.not_inOp busy p)
  | last p here open_ alone =>
    refine reserved.ended (p := p) rfl ?_ ?_ ?_ ?_
    · exact next.not_inOp rfl p
    · intro q other
      show ((s.setPc p (.committing .start)).pc q).InOp ↔ _
      rw [setPc_pc_of_ne other]
    · intro q other
      exact Function.update_of_ne other _ _
    · intro q b at_
      exact absurd (by rw [at_]; trivial) (next.not_inOp rfl q)
  | left p here open_ others =>
    refine reserved.ended (p := p) rfl ?_ ?_ ?_ ?_
    · show ¬ ((s.wakeup.setPc p .idle).pc p).InOp
      rw [setPc_pc_self]
      exact id
    · intro q other
      show ((s.wakeup.setPc p .idle).pc q).InOp ↔ _
      rw [setPc_pc_of_ne other, wakeup_inOp]
    · intro q other
      exact Function.update_of_ne other _ _
    · intro q b at_
      have at_ : (s.wakeup.setPc p .idle).pc q = .logging b := at_
      have other : q ≠ p := by
        rintro rfl
        simp at at_
      rw [setPc_pc_of_ne other] at at_
      exact wakeup_logging at_
  | commit p stage here =>
    obtain ⟨length, current, out⟩ := commitStep_frame log s p stage
    have zero := inv.flagged.exclusive (inv.flagged.of_stage (by rw [here]; rfl)).1
    have before := inv.nobody zero
    have after := next.nobody (out.trans zero)
    refine reserved.of_same (fun q => iff_of_false (after q) (before q)) current length ?_
    intro q b at_
    exact absurd (by rw [at_]; trivial) (after q)

end Step

/-! ## Sufficient budgets -/

omit [DecidableEq P] in
theorem reserved_initial (limit bound : Nat) : Reserved limit bound (LogState.initial P) := by
  refine ⟨?_, ?_⟩
  · have none : ∀ p, reserve limit (LogState.initial P) p = 0 := fun _ => reserve_outside limit id
    rw [Finset.sum_congr rfl fun p _ => none p]
    simp [LogState.initial, LogHeader.empty]
  · intro p b here
    simp [LogState.initial] at here

/-- With nine blocks for each operation the header stays below `LOGSIZE - 1`. -/
theorem admits_nine : Admits 9 (LOGSIZE - 2) := by
  intro n k positive first room
  simp only [MAXOPBLOCKS, LOGSIZE] at room ⊢
  omega

omit [DecidableEq P] in
/-- The log in use, with the budgets that `begin_op` has given. -/
structure Budgeted (log : LogArea) (limit bound : Nat) (s : LogState P) : Prop where
  inv : Inv log s
  reserved : Reserved limit bound s

omit [DecidableEq P] in
theorem budgeted_initial (log : LogArea) (limit bound : Nat) :
    Budgeted log limit bound (LogState.initial P) :=
  ⟨inv_initial log, reserved_initial limit bound⟩

theorem budgeted_step {limit bound : Nat} (admits : Admits limit bound)
    (s : LogState P) (op : LogOp P) (t : LogState P) (budgeted : Budgeted log limit bound s)
    (within : WithinBudget limit s op) (taken : step log s op = some t) :
    Budgeted log limit bound t :=
  ⟨inv_step s op t budgeted.inv taken,
    reserved_step op admits budgeted.inv budgeted.reserved within taken⟩

/-! ## The panic -/

omit [DecidableEq P] in
/-- A step within budgets of nine finds room in the log of `mkfs`. -/
theorem Budgeted.groupHasRoom (budgeted : Budgeted mkfsLog 9 (LOGSIZE - 2) s)
    (op : LogOp P) : GroupHasRoom mkfsLog s op := by
  cases op with
  | log_write p b =>
    intro _ _
    have total := budgeted.reserved.total
    rw [← budgeted.inv.length_eq_card]
    simp only [mkfsLog, LOGSIZE, MAXOPBLOCKS] at total ⊢
    omega
  | begin_op p => trivial
  | wake p => trivial
  | append p => trivial
  | end_op p => trivial
  | commit p => trivial

/-- With the log of `mkfs`, `log_write` never panics with "too big a
transaction" exactly when each call finds room for the blocks of its group; nine
blocks for each operation, one less than `MAXOPBLOCKS`, are always enough. -/
theorem log_write_never_too_big_iff (ops : List (LogOp P)) :
    (Throughout (step mkfsLog) NotTooBig (LogState.initial P) ops ↔
      Along (step mkfsLog) (GroupHasRoom mkfsLog) (LogState.initial P) ops) ∧
    (Along (step mkfsLog) (WithinBudget (MAXOPBLOCKS - 1)) (LogState.initial P) ops →
      Throughout (step mkfsLog) NotTooBig (LogState.initial P) ops) := by
  have start : Roomy mkfsLog (LogState.initial P) := 
    ⟨inv_initial mkfsLog, by simp [NotTooBig, LogState.initial]⟩
  have kept := fun (s : LogState P) op t (roomy : Roomy mkfsLog s) room taken =>
    roomy_step s op t roomy (Nat.le_refl _) room taken
  refine ⟨throughout_iff_along kept (fun _ roomy => roomy.notTooBig) noRoom_panics ops _ start, ?_⟩
  have keptBoth : ∀ (s : LogState P) op t,
      Roomy mkfsLog s ∧ Budgeted mkfsLog 9 (LOGSIZE - 2) s → WithinBudget 9 s op →
        step mkfsLog s op = some t → Roomy mkfsLog t ∧ Budgeted mkfsLog 9 (LOGSIZE - 2) t := by
    intro s op t both within taken
    exact ⟨kept s op t both.1 (both.2.groupHasRoom op) taken,
      budgeted_step admits_nine s op t both.2 within taken⟩
  exact throughout_of_along keptBoth (fun _ both => both.1.notTooBig) ops _
    ⟨start, budgeted_initial _ _ _⟩

def threeFullOperations : List (LogOp (Fin 3)) :=
  (List.finRange 3).map .begin_op ++
    (List.finRange 3).flatMap fun p =>
      (List.range 10).flatMap fun i =>
        [.log_write p (BitVec.ofNat 32 (100 + 10 * p.val + i)), .append p]

/-- The three are admitted, and the last `log_write` panics. -/
theorem three_full_operations_panic :
    Along (step mkfsLog) (WithinBudget MAXOPBLOCKS) (LogState.initial (Fin 3))
        threeFullOperations ∧
      ¬ Throughout (step mkfsLog) NotTooBig (LogState.initial (Fin 3)) threeFullOperations := by
  decide +kernel

end Xv6Tracing.Log
