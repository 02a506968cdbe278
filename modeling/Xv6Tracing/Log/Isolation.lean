import Xv6Tracing.Lib.Run
import Xv6Tracing.Lib.Count
import Xv6Tracing.Log.Group

/-!
# Isolation of the group commit

The commit runs without `log.lock`.  What protects it is the flag `committing`
together with the counter `outstanding`: while one process commits, no other is
in an operation, so the header it works on does not move.
-/

set_option autoImplicit false

namespace Xv6Tracing.Log

open Lib

universe u

variable {P : Type u} [Fintype P] [DecidableEq P]

def Pc.stage : Pc → Option CommitPc
  | .committing stage => some stage
  | _ => none

def LogState.group (s : LogState P) : Finset BlockNo :=
  s.ended ∪ Finset.univ.biUnion s.current

/-- How far the commit of `txn` has come at each stage, in disk writes. -/
def StageOk (log : LogArea) (s : LogState P) : CommitPc → Prop
  | .start => s.lh = s.txn ∧ s.issued = []
  | .write_log tail =>
    s.lh = s.txn ∧ 0 < s.txn.block.length ∧ s.issued = (write_log log s.txn).take tail
  | .write_head => s.lh = s.txn ∧ 0 < s.txn.block.length ∧ s.issued = write_log log s.txn
  | .install_trans tail =>
    s.lh = s.txn ∧ 0 < s.txn.block.length ∧
      s.issued = write_log log s.txn ++ write_head s.txn ++ (install_trans log s.txn).take tail
  | .clear =>
    s.lh = s.txn ∧ 0 < s.txn.block.length ∧
      s.issued = write_log log s.txn ++ write_head s.txn ++ install_trans log s.txn
  | .erase =>
    s.lh = .empty ∧ 0 < s.txn.block.length ∧
      s.issued = write_log log s.txn ++ write_head s.txn ++ install_trans log s.txn
  | .finish => s.lh = .empty ∧ s.issued = commit log s.txn

/-- `outstanding` counts the operations in progress, and only they have logged
blocks that are not yet those of an ended operation. -/
structure Counted (s : LogState P) : Prop where
  count : s.outstanding = countP Pc.InOp s.pc
  outside : ∀ p, ¬ (s.pc p).InOp → s.current p = ∅

/-- `committing` is set exactly while one process commits, and then no
operation is in progress. -/
structure Flagged (s : LogState P) : Prop where
  open_ : s.committing = false → ∀ p, (s.pc p).stage = none
  busy : s.committing = true → ∃ p, ∀ q, q ≠ p → (s.pc q).stage = none
  exclusive : s.committing = true → s.outstanding = 0

structure Holding (log : LogArea) (s : LogState P) : Prop where
  nodup : s.lh.block.Nodup
  content : s.lh.block.toFinset = s.group
  quiet : s.committing = false → s.outstanding = 0 → s.lh = .empty
  txnNodup : s.txn.block.Nodup
  txnContent : s.txn.block.toFinset = s.sources
  stages : ∀ p stage, (s.pc p).stage = some stage → StageOk log s stage

/-- Someone is left to wake a sleeper, and `end_op` has not panicked. -/
structure Awaited (s : LogState P) : Prop where
  sleepers : ∀ p, s.pc p = .sleeping → s.committing = true ∨ 0 < s.outstanding
  noPanic : s.panic ≠ some .committing

structure Inv (log : LogArea) (s : LogState P) : Prop where
  counted : Counted s
  flagged : Flagged s
  holding : Holding log s
  awaited : Awaited s

/-! ## Small facts -/

section Facts

variable {P : Type u} (s : LogState P) (p q : P) (pc : Pc)

theorem wakeup_inOp : (s.wakeup.pc q).InOp ↔ (s.pc q).InOp := by
  by_cases asleep : s.pc q = .sleeping <;> simp [LogState.wakeup, asleep, Pc.InOp]

theorem wakeup_stage : (s.wakeup.pc q).stage = (s.pc q).stage := by
  by_cases asleep : s.pc q = .sleeping <;> simp [LogState.wakeup, asleep, Pc.stage]

theorem wakeup_not_sleeping : s.wakeup.pc q ≠ .sleeping := by
  by_cases asleep : s.pc q = .sleeping <;> simp [LogState.wakeup, asleep]

variable [DecidableEq P]

@[simp] theorem setPc_pc_self : (s.setPc p pc).pc p = pc := by simp [LogState.setPc]

variable {pc : Pc} {p : P} {s : LogState P}

theorem setPc_pc_of_ne {q : P} (other : q ≠ p) :
    (s.setPc p pc).pc q = s.pc q := by simp [LogState.setPc, other]

/-- What holds of the old and of the new place of `p`, and of everyone else,
holds after the move. -/
theorem setPc_forall (good : P → Pc → Prop) (here : good p pc)
    (others : ∀ q, q ≠ p → good q (s.pc q)) (q : P) : good q ((s.setPc p pc).pc q) := by
  by_cases same : q = p
  · subst same
    rw [setPc_pc_self]
    exact here
  · rw [setPc_pc_of_ne same]
    exact others q same

end Facts

variable {b : BlockNo} {s t : LogState P} {stage : CommitPc} {p : P} {log : LogArea}

omit [DecidableEq P] in
theorem mem_group :
    b ∈ s.group ↔ b ∈ s.ended ∨ ∃ p, b ∈ s.current p := by
  simp [LogState.group]

omit [Fintype P] [DecidableEq P] in
/-- A committing process has the flag set, and is the only one. -/
theorem Flagged.of_stage (flagged : Flagged s) (here : (s.pc p).stage = some stage) :
    s.committing = true ∧ ∀ q, q ≠ p → (s.pc q).stage = none := by
  have busy : s.committing = true := by
    by_contra idle
    have := flagged.open_ (by simpa using idle) p
    simp [here] at this
  refine ⟨busy, ?_⟩
  obtain ⟨r, only⟩ := flagged.busy busy
  have isR : p = r := by
    by_contra other
    have := only p other
    simp [here] at this
  rw [isR]
  exact only

omit [DecidableEq P] in
theorem Inv.not_inOp (inv : Inv log s) (busy : s.committing = true) (p : P) : ¬ (s.pc p).InOp := by
  have zero := inv.flagged.exclusive busy
  rw [inv.counted.count] at zero
  exact countP_eq_zero (by exact_mod_cast zero) p

omit [DecidableEq P] in
theorem Inv.open_of_inOp (inv : Inv log s) (here : (s.pc p).InOp) : s.committing = false := by
  by_contra busy
  exact inv.not_inOp (by simpa using busy) p here

/-! ## What keeps each part -/

omit [DecidableEq P] in
theorem Counted.of_same (counted : Counted s)
    (places : ∀ q, (t.pc q).InOp ↔ (s.pc q).InOp) (out : t.outstanding = s.outstanding)
    (current : t.current = s.current) : Counted t := by
  refine ⟨?_, ?_⟩
  · rw [out, counted.count, countP_congr places]
  · intro p outside
    rw [current]
    exact counted.outside p fun here => outside ((places p).mpr here)

omit [Fintype P] [DecidableEq P] in
theorem Flagged.of_same (flagged : Flagged s)
    (stages : ∀ q, (t.pc q).stage = (s.pc q).stage) (flag : t.committing = s.committing)
    (out : s.committing = true → t.outstanding = s.outstanding) : Flagged t := by
  refine ⟨?_, ?_, ?_⟩
  · intro open_ p
    rw [stages]
    exact flagged.open_ (flag ▸ open_) p
  · intro busy
    obtain ⟨p, only⟩ := flagged.busy (flag ▸ busy)
    exact ⟨p, fun q other => (stages q).trans (only q other)⟩
  · grind [Flagged]

structure SameLog (s t : LogState P) : Prop where
  lh : t.lh = s.lh
  group : t.group = s.group
  txn : t.txn = s.txn
  sources : t.sources = s.sources
  issued : t.issued = s.issued

omit [DecidableEq P] in
theorem StageOk.of_same (same : SameLog s t) (ok : StageOk log s stage) : StageOk log t stage := by
  cases stage <;> simpa only [StageOk, same.lh, same.txn, same.issued] using ok

omit [DecidableEq P] in
theorem Holding.of_same (holding : Holding log s)
    (same : SameLog s t) (stages : ∀ q, (t.pc q).stage = (s.pc q).stage)
    (quiet : t.committing = false → t.outstanding = 0 → s.committing = false ∧ s.outstanding = 0) :
    Holding log t where
  nodup := by rw [same.lh]; exact holding.nodup
  content := by rw [same.lh, same.group]; exact holding.content
  quiet := by
    intro open_ zero
    rw [same.lh]
    exact holding.quiet (quiet open_ zero).1 (quiet open_ zero).2
  txnNodup := by rw [same.txn]; exact holding.txnNodup
  txnContent := by rw [same.txn, same.sources]; exact holding.txnContent
  stages := by
    intro p stage here
    rw [stages] at here
    exact (holding.stages p stage here).of_same same

theorem insert_spec {lh lh' : LogHeader} (inserted : lh.insert b = some lh')
    (nodup : lh.block.Nodup) :
    lh'.block.Nodup ∧ lh'.block.toFinset = insert b lh.block.toFinset := by
  simp only [LogHeader.insert] at inserted
  split at inserted
  · rename_i member
    cases Option.some.inj inserted
    exact ⟨nodup, (Finset.insert_eq_self.mpr (List.mem_toFinset.mpr member)).symm⟩
  · rename_i fresh
    split at inserted
    · cases Option.some.inj inserted
      refine ⟨List.nodup_append.mpr ⟨nodup, by simp, ?_⟩, ?_⟩
      · intro a member c single
        rw [List.mem_singleton] at single
        rw [single]
        rintro rfl
        exact fresh member
      · ext c
        simp only [List.toFinset_append, List.toFinset_cons, List.toFinset_nil,
          Finset.mem_union, Finset.mem_insert, List.mem_toFinset, Finset.notMem_empty, or_false]
        exact or_comm
    · simp at inserted

/-- Logging a block adds it to the group; ending an operation moves its blocks
over to the ended ones. -/
theorem group_append (ended : t.ended = s.ended)
    (current : t.current = Function.update s.current p (insert b (s.current p))) :
    t.group = insert b s.group := by
  ext c
  rw [mem_group, Finset.mem_insert, mem_group, ended, current]
  constructor
  · grind
  · rintro (rfl | old | ⟨q, member⟩)
    · exact Or.inr ⟨p, by simp⟩
    · exact Or.inl old
    · by_cases here : q = p
      · subst here
        exact Or.inr ⟨q, by simp [member]⟩
      · exact Or.inr ⟨q, by simpa [here] using member⟩

theorem group_end (ended : t.ended = s.ended ∪ s.current p)
    (current : t.current = Function.update s.current p ∅) : t.group = s.group := by
  ext c
  rw [mem_group, mem_group, ended, current, Finset.mem_union]
  constructor
  · rintro ((old | mine) | ⟨q, member⟩)
    · exact Or.inl old
    · exact Or.inr ⟨p, mine⟩
    grind
  · rintro (old | ⟨q, member⟩)
    · exact Or.inl (Or.inl old)
    · by_cases here : q = p
      · subst here
        exact Or.inl (Or.inr member)
      · exact Or.inr ⟨q, by simpa [here] using member⟩

/-! ## Steps -/

section Moves

variable {log : LogArea} {s : LogState P}

variable {p : P} {b : BlockNo} {lh : LogHeader}

variable {pc : Pc} {stage : CommitPc} {tail : Nat}

/-- A move of one process between places outside any operation and any commit. -/
theorem Inv.setPc_outside (inv : Inv log s) (before : ¬ (s.pc p).InOp)
    (after : ¬ pc.InOp) (noStage : (s.pc p).stage = none) (noStage' : pc.stage = none)
    (awaited : pc = .sleeping → s.committing = true ∨ 0 < s.outstanding) :
    Inv log (s.setPc p pc) where
  counted := inv.counted.of_same
    (setPc_forall (fun q place => place.InOp ↔ (s.pc q).InOp)
      (by simp only [before, after]) fun q _ => Iff.rfl) rfl rfl
  flagged := inv.flagged.of_same
    (setPc_forall (fun q place => place.stage = (s.pc q).stage)
      (noStage'.trans noStage.symm) fun q _ => rfl) rfl fun _ => rfl
  holding := inv.holding.of_same ⟨rfl, rfl, rfl, rfl, rfl⟩
    (setPc_forall (fun q place => place.stage = (s.pc q).stage)
      (noStage'.trans noStage.symm) fun q _ => rfl) fun open_ zero => ⟨open_, zero⟩
  awaited := ⟨setPc_forall (fun _ place => place = .sleeping →
      s.committing = true ∨ 0 < s.outstanding) awaited fun q _ => inv.awaited.sleepers q,
    inv.awaited.noPanic⟩

theorem outside_of_idle (outside : pc = .idle ∨ pc = .retry) :
    ¬ pc.InOp ∧ pc.stage = none := by
  rcases outside with rfl | rfl <;> exact ⟨id, rfl⟩

omit [DecidableEq P] in
theorem Inv.outstanding_nonneg (inv : Inv log s) : 0 ≤ s.outstanding := by
  rw [inv.counted.count]
  exact Int.natCast_nonneg _

omit [DecidableEq P] in
theorem Inv.outstanding_pos (inv : Inv log s) (here : (s.pc p).InOp) :
    0 < s.outstanding := by
  rw [inv.counted.count]
  exact_mod_cast countP_pos here

/-- `begin_op` goes to sleep only when someone is left to wake it: with no
operation in progress the log is empty and has room. -/
theorem Inv.refused (inv : Inv log s) (outside : s.pc p = .idle ∨ s.pc p = .retry)
    (full : s.committing = true ∨
      (LOGSIZE : Int) < s.lh.block.length + (s.outstanding + 1) * MAXOPBLOCKS) :
    Inv log (s.setPc p .sleeping) := by
  obtain ⟨notIn, noStage⟩ := outside_of_idle outside
  apply inv.setPc_outside notIn id noStage rfl
  intro _
  rcases full with busy | full
  · exact Or.inl busy
  · by_cases busy : s.committing = true
    · exact Or.inl busy
    · right
      have nonneg := inv.outstanding_nonneg
      rcases Int.lt_or_eq_of_le nonneg with positive | zero
      · exact positive
      · have empty := inv.holding.quiet (by simpa using busy) zero.symm
        rw [empty, ← zero] at full
        exact absurd full (by decide)

theorem Inv.admitted (inv : Inv log s) (outside : s.pc p = .idle ∨ s.pc p = .retry)
    (open_ : s.committing = false) :
    Inv log { s.setPc p .inOp with outstanding := s.outstanding + 1 } := by
  obtain ⟨notIn, noStage⟩ := outside_of_idle outside
  have nonneg := inv.outstanding_nonneg
  have stages : ∀ q, ((s.setPc p .inOp).pc q).stage = (s.pc q).stage :=
    setPc_forall (fun q place => place.stage = (s.pc q).stage) noStage.symm
      fun q _ => rfl
  refine ⟨⟨?_, ?_⟩, ?_, ?_, ⟨?_, inv.awaited.noPanic⟩⟩
  · simp only [LogState.setPc]
    rw [countP_update_enter (a := Pc.inOp) notIn trivial, inv.counted.count]
    push_cast
    ring
  · exact setPc_forall (fun q place => ¬ place.InOp → s.current q = ∅)
      (fun outside => absurd trivial outside) fun q _ => inv.counted.outside q
  · exact inv.flagged.of_same stages rfl fun busy => by simp [open_] at busy
  · refine inv.holding.of_same ⟨rfl, rfl, rfl, rfl, rfl⟩ stages ?_
    intro _ zero
    have zero : s.outstanding + 1 = 0 := zero
    omega
  · intro q _
    right
    show 0 < s.outstanding + 1
    omega

omit [DecidableEq P] in
theorem Inv.panicked (inv : Inv log s) {panic : LogPanic} (other : panic ≠ .committing) :
    Inv log { s with panic := some panic } :=
  ⟨⟨inv.counted.count, inv.counted.outside⟩,
    ⟨inv.flagged.open_, inv.flagged.busy, inv.flagged.exclusive⟩,
    inv.holding.of_same ⟨rfl, rfl, rfl, rfl, rfl⟩ (fun _ => rfl) fun open_ zero => ⟨open_, zero⟩,
    ⟨inv.awaited.sleepers, fun same => other (Option.some.inj same)⟩⟩

section

variable (inv : Inv log s)

include inv

theorem Inv.tested (here : s.pc p = .inOp) :
    Inv log (s.setPc p (.logging b)) := by
  have places : ∀ q, ((s.setPc p (.logging b)).pc q).InOp ↔ (s.pc q).InOp :=
    setPc_forall (fun q place => place.InOp ↔ (s.pc q).InOp) (by simp [here, Pc.InOp])
      fun q _ => Iff.rfl
  have stages : ∀ q, ((s.setPc p (.logging b)).pc q).stage = (s.pc q).stage :=
    setPc_forall (fun q place => place.stage = (s.pc q).stage) (by simp [here, Pc.stage])
      fun q _ => rfl
  refine ⟨inv.counted.of_same places rfl rfl, inv.flagged.of_same stages rfl fun _ => rfl,
    inv.holding.of_same ⟨rfl, rfl, rfl, rfl, rfl⟩ stages fun open_ zero => ⟨open_, zero⟩,
    ⟨?_, inv.awaited.noPanic⟩⟩
  exact setPc_forall (fun _ place => place = .sleeping →
    s.committing = true ∨ 0 < s.outstanding) (by simp) fun q _ => inv.awaited.sleepers q

theorem Inv.appended
    (here : s.pc p = .logging b) (inserted : s.lh.insert b = some lh) :
    Inv log { s.setPc p .inOp with
      lh := lh
      current := Function.update s.current p (insert b (s.current p)) } := by
  have inOp : (s.pc p).InOp := by rw [here]; trivial
  have open_ := inv.open_of_inOp inOp
  have positive := inv.outstanding_pos inOp
  obtain ⟨nodup, content⟩ := insert_spec inserted inv.holding.nodup
  have stages : ∀ q, ((s.setPc p .inOp).pc q).stage = (s.pc q).stage :=
    setPc_forall (fun q place => place.stage = (s.pc q).stage) (by simp [here, Pc.stage])
      fun q _ => rfl
  have places : ∀ q, ((s.setPc p .inOp).pc q).InOp ↔ (s.pc q).InOp :=
    setPc_forall (fun q place => place.InOp ↔ (s.pc q).InOp) (by simp [here, Pc.InOp])
      fun q _ => Iff.rfl
  refine ⟨⟨?_, ?_⟩, inv.flagged.of_same stages rfl fun _ => rfl, ⟨nodup, ?_, ?_,
    inv.holding.txnNodup, inv.holding.txnContent, ?_⟩, ⟨?_, inv.awaited.noPanic⟩⟩
  · exact inv.counted.count.trans (congrArg _ (countP_congr places).symm)
  · grind [inv.counted.outside]
  · rw [content, inv.holding.content]
    symm
    exact group_append rfl rfl
  · intro _ zero
    have zero : s.outstanding = 0 := zero
    omega
  · intro q stage at_
    rw [stages q, inv.flagged.open_ open_ q] at at_
    simp at at_
  · exact setPc_forall (fun _ place => place = .sleeping →
      s.committing = true ∨ 0 < s.outstanding) (by simp) fun q _ => inv.awaited.sleepers q

theorem Inv.last (here : s.pc p = .inOp)
    (open_ : s.committing = false) (alone : s.outstanding = 1) :
    Inv log { s.setPc p (.committing .start) with
      outstanding := 0
      current := Function.update s.current p ∅
      ended := s.ended ∪ s.current p
      committing := true
      txn := s.lh
      sources := s.ended ∪ s.current p
      issued := [] } := by
  have inOp : (s.pc p).InOp := by rw [here]; trivial
  have one : countP Pc.InOp s.pc = 1 := by exact_mod_cast inv.counted.count.symm.trans alone
  have only : ∀ q, q ≠ p → ¬ (s.pc q).InOp :=
    fun q other inside => other (eq_of_countP_eq_one one inOp inside)
  -- Nobody else has logged anything that is not ended yet.
  have sources : s.lh.block.toFinset = s.ended ∪ s.current p := by
    rw [inv.holding.content]
    ext b
    rw [mem_group, Finset.mem_union]
    refine or_congr_right ⟨?_, fun mine => ⟨p, mine⟩⟩
    rintro ⟨q, member⟩
    by_cases same : q = p
    · rw [← same]
      exact member
    · rw [inv.counted.outside q (only q same)] at member
      simp at member
  refine ⟨⟨?_, ?_⟩, ⟨by simp, ?_, fun _ => rfl⟩, ⟨inv.holding.nodup, ?_, by simp,
    inv.holding.nodup, sources, ?_⟩, ⟨fun _ _ => Or.inl rfl, inv.awaited.noPanic⟩⟩
  · have left := countP_update_leave (a := Pc.committing .start) inOp id
    simp only [LogState.setPc]
    omega
  · grind [inv.counted.outside]
  · intro _
    refine ⟨p, fun q other => ?_⟩
    grind [setPc_pc_of_ne, inv.flagged.open_]
  · refine inv.holding.content.trans ?_
    symm
    exact group_end rfl rfl
  · intro q stage at_
    by_cases same : q = p
    · subst same
      simp only [LogState.setPc, Function.update_self, Pc.stage, Option.some.injEq] at at_
      subst at_
      exact ⟨rfl, rfl⟩
    · simp only [LogState.setPc, Function.update_of_ne same] at at_
      rw [inv.flagged.open_ open_ q] at at_
      simp at at_

theorem Inv.left (here : s.pc p = .inOp)
    (open_ : s.committing = false) (others : s.outstanding ≠ 1) :
    Inv log { s.wakeup.setPc p .idle with
      outstanding := s.outstanding - 1
      current := Function.update s.current p ∅
      ended := s.ended ∪ s.current p } := by
  have inOp : (s.pc p).InOp := by rw [here]; trivial
  have stages : ∀ q, ((s.wakeup.setPc p .idle).pc q).stage = (s.pc q).stage :=
    setPc_forall (fun q place => place.stage = (s.pc q).stage) (by simp [here, Pc.stage])
      fun q _ => wakeup_stage s q
  have same : countP Pc.InOp s.wakeup.pc = countP Pc.InOp s.pc := countP_congr (wakeup_inOp s)
  refine ⟨⟨?_, ?_⟩, inv.flagged.of_same stages rfl (fun busy => by simp [open_] at busy),
    inv.holding.of_same ⟨rfl, group_end rfl rfl, rfl, rfl, rfl⟩ stages ?_,
    ⟨?_, inv.awaited.noPanic⟩⟩
  · have left := countP_update_leave (a := Pc.idle) ((wakeup_inOp s p).mpr inOp) id
    have count := inv.counted.count
    show s.outstanding - 1 = (countP Pc.InOp (Function.update s.wakeup.pc p .idle) : Int)
    omega
  · grind [inv.counted.outside, setPc_pc_of_ne, wakeup_inOp]
  · intro _ zero
    have zero : s.outstanding - 1 = 0 := zero
    omega
  · exact setPc_forall (fun _ place => place = .sleeping →
      s.committing = true ∨ 0 < s.outstanding - 1) (by simp)
      fun q _ asleep => absurd asleep (wakeup_not_sleeping s q)

theorem Inv.advance {next : CommitPc} {t : LogState P}
    (here : s.pc p = .committing stage) (pc : t.pc = (s.setPc p (.committing next)).pc)
    (flag : t.committing = s.committing) (out : t.outstanding = s.outstanding)
    (current : t.current = s.current) (panic : t.panic = s.panic) (txn : t.txn = s.txn)
    (sources : t.sources = s.sources)
    (header : t.lh = s.lh ∧ t.ended = s.ended ∨ t.lh = .empty ∧ t.ended = ∅)
    (ok : StageOk log t next) : Inv log t := by
  have atP : (s.pc p).stage = some stage := by rw [here]; rfl
  obtain ⟨busy, only⟩ := inv.flagged.of_stage atP
  have notIn := inv.not_inOp busy
  have empty : ∀ q, s.current q = ∅ := fun q => inv.counted.outside q (notIn q)
  have otherPc : ∀ q, q ≠ p → t.pc q = s.pc q := by
    intro q other
    rw [pc]
    exact setPc_pc_of_ne other
  have ownPc : t.pc p = .committing next := by rw [pc, setPc_pc_self]
  refine ⟨inv.counted.of_same ?_ out current, ⟨?_, ?_, ?_⟩, ⟨?_, ?_, ?_, ?_, ?_, ?_⟩, ⟨?_, ?_⟩⟩
  · intro q
    by_cases same : q = p
    · subst same
      rw [ownPc]
      exact ⟨False.elim, fun inside => absurd inside (notIn q)⟩
    · rw [otherPc q same]
  · intro open_
    rw [flag, busy] at open_
    simp at open_
  · intro _
    exact ⟨p, fun q other => by rw [otherPc q other]; exact only q other⟩
  · intro _
    rw [out]
    exact inv.flagged.exclusive busy
  · rcases header with ⟨lh, _⟩ | ⟨lh, _⟩
    · rw [lh]
      exact inv.holding.nodup
    · rw [lh]
      exact List.nodup_nil
  · rcases header with ⟨lh, ended⟩ | ⟨lh, ended⟩
    · rw [lh, inv.holding.content]
      simp only [LogState.group, ended, current]
    · rw [lh]
      symm
      rw [LogHeader.empty, List.toFinset_nil, Finset.eq_empty_iff_forall_notMem]
      intro b
      rw [mem_group]
      simp [ended, current, empty]
  · intro open_
    rw [flag, busy] at open_
    simp at open_
  · rw [txn]
    exact inv.holding.txnNodup
  · rw [txn, sources]
    exact inv.holding.txnContent
  · intro q stage' at_
    by_cases same : q = p
    · subst same
      rw [ownPc] at at_
      cases Option.some.inj at_
      exact ok
    · rw [otherPc q same, only q same] at at_
      simp at at_
  · intro q _
    exact Or.inl (flag.trans busy)
  · rw [panic]
    exact inv.awaited.noPanic

theorem Inv.finished (here : s.pc p = .committing .finish) :
    Inv log { s.wakeup.setPc p .idle with committing := false } := by
  have atP : (s.pc p).stage = some .finish := by rw [here]; rfl
  obtain ⟨busy, only⟩ := inv.flagged.of_stage atP
  have notIn := inv.not_inOp busy
  have empty : s.lh = .empty := (inv.holding.stages p .finish atP).1
  have noStage : ∀ q, ((s.wakeup.setPc p .idle).pc q).stage = none :=
    setPc_forall (fun _ place => place.stage = none) rfl
      fun q other => (wakeup_stage s q).trans (only q other)
  refine ⟨inv.counted.of_same ?_ rfl rfl, ⟨fun _ => noStage, by simp, by simp⟩,
    ⟨inv.holding.nodup, inv.holding.content, fun _ _ => empty, inv.holding.txnNodup,
      inv.holding.txnContent, ?_⟩, ⟨?_, inv.awaited.noPanic⟩⟩
  · exact setPc_forall (fun q place => place.InOp ↔ (s.pc q).InOp)
      ⟨False.elim, fun inside => absurd inside (notIn p)⟩ fun q _ => wakeup_inOp s q
  · grind
  · exact setPc_forall (fun _ place => place = .sleeping →
      false = true ∨ 0 < s.outstanding) (by simp)
      fun q _ asleep => absurd asleep (wakeup_not_sleeping s q)

end

theorem LogHeader.eq_empty (nothing : ¬ 0 < lh.block.length) : lh = .empty := by
  obtain ⟨block, bounded⟩ := lh
  have nil : block = [] := List.length_eq_zero_iff.mp (by simpa using nothing)
  subst nil
  rfl

theorem take_entries_succ (make : BlockNo × BlockNo → DiskWrite) (entry : lh.block[tail]? = some b) :
    ((log.entries lh).map make).take tail ++ [make (b, log.slot tail)] =
      ((log.entries lh).map make).take (tail + 1) := by
  rw [List.take_add_one]
  congr 1
  simp [LogArea.entries, List.getElem?_zipIdx, entry]

theorem take_entries_all (make : BlockNo × BlockNo → DiskWrite) (past : lh.block[tail]? = none) :
    ((log.entries lh).map make).take tail = (log.entries lh).map make := by
  apply List.take_of_length_le
  simpa [LogArea.entries] using List.getElem?_eq_none_iff.mp past

theorem Inv.commitStep (inv : Inv log s)
    (here : s.pc p = .committing stage) : Inv log (commitStep log s p stage) := by
  have atP : (s.pc p).stage = some stage := by rw [here]; rfl
  have ok := inv.holding.stages p stage atP
  cases stage with
  | start =>
    obtain ⟨taken, none⟩ := ok
    refine inv.advance here rfl rfl rfl rfl rfl rfl rfl (Or.inl ⟨rfl, rfl⟩) ?_
    split
    · rename_i some
      refine ⟨taken, ?_, none⟩
      show 0 < s.txn.block.length
      rw [← taken]
      exact some
    · rename_i nothing
      have empty := LogHeader.eq_empty nothing
      refine ⟨empty, none.trans ?_⟩
      show [] = commit log s.txn
      rw [← taken, empty]
      rfl
  | write_log tail =>
    obtain ⟨taken, some, issued⟩ := ok
    simp only [Log.commitStep]
    split
    · rename_i b entry
      refine inv.advance here rfl rfl rfl rfl rfl rfl rfl (Or.inl ⟨rfl, rfl⟩)
        ⟨taken, some, ?_⟩
      show s.issued ++ [.copy b (log.slot tail)] = (write_log log s.txn).take (tail + 1)
      rw [issued]
      rw [taken] at entry
      exact take_entries_succ (fun entry => .copy entry.1 entry.2) entry
    · rename_i past
      refine inv.advance here rfl rfl rfl rfl rfl rfl rfl (Or.inl ⟨rfl, rfl⟩)
        ⟨taken, some, issued.trans ?_⟩
      rw [taken] at past
      exact take_entries_all _ past
  | write_head =>
    obtain ⟨taken, some, issued⟩ := ok
    refine inv.advance here rfl rfl rfl rfl rfl rfl rfl (Or.inl ⟨rfl, rfl⟩) ⟨taken, some, ?_⟩
    show s.issued ++ [.head s.lh] = _
    rw [issued, taken, List.take_zero, List.append_nil]
    rfl
  | install_trans tail =>
    obtain ⟨taken, some, issued⟩ := ok
    simp only [Log.commitStep]
    split
    · rename_i b entry
      refine inv.advance here rfl rfl rfl rfl rfl rfl rfl (Or.inl ⟨rfl, rfl⟩)
        ⟨taken, some, ?_⟩
      show s.issued ++ [.copy (log.slot tail) b] = write_log log s.txn ++ write_head s.txn ++
        (install_trans log s.txn).take (tail + 1)
      rw [issued, List.append_assoc]
      rw [taken] at entry
      congr 1
      exact take_entries_succ (fun entry => .copy entry.2 entry.1) entry
    · rename_i past
      refine inv.advance here rfl rfl rfl rfl rfl rfl rfl (Or.inl ⟨rfl, rfl⟩)
        ⟨taken, some, issued.trans ?_⟩
      rw [taken] at past
      exact congrArg _ (take_entries_all _ past)
  | clear =>
    obtain ⟨_, some, issued⟩ := ok
    exact inv.advance here rfl rfl rfl rfl rfl rfl rfl (Or.inr ⟨rfl, rfl⟩)
      ⟨rfl, some, issued⟩
  | erase =>
    obtain ⟨empty, some, issued⟩ := ok
    refine inv.advance here rfl rfl rfl rfl rfl rfl rfl (Or.inl ⟨rfl, rfl⟩) ⟨empty, ?_⟩
    show s.issued ++ [.head s.lh] = commit log s.txn
    rw [issued, empty, commit, if_pos some]
    rfl
  | finish => exact inv.finished here

theorem inv_step (s : LogState P) (op : LogOp P) (t : LogState P) (inv : Inv log s)
    (taken : step log s op = some t) : Inv log t := by
  obtain ⟨_, move⟩ := step_move taken
  cases move with
  | refused p outside full => exact inv.refused outside full
  | admitted p outside open_ room => exact inv.admitted outside open_
  | woken p asleep =>
    exact inv.setPc_outside (by rw [asleep]; exact id) id (by rw [asleep]; rfl) rfl (by simp)
  | tooBig p b here full => exact inv.panicked (by decide)
  | outsideOfTrans p b here none => exact inv.panicked (by decide)
  | tested p b here room => exact inv.tested here
  | appended p b lh here inserted => exact inv.appended here inserted
  | panicked p here busy =>
    exact absurd (show (s.pc p).InOp by rw [here]; trivial) (inv.not_inOp busy p)
  | last p here open_ alone => exact inv.last here open_ alone
  | left p here open_ others => exact inv.left here open_ others
  | commit p stage here => exact inv.commitStep here

end Moves

/-! ## Whole runs -/

omit [DecidableEq P] in
theorem inv_initial (log : LogArea) : Inv log (LogState.initial P) := by
  refine ⟨⟨?_, fun _ _ => rfl⟩, ⟨fun _ _ => rfl, by simp [LogState.initial],
    by simp [LogState.initial]⟩, ⟨List.nodup_nil, ?_, fun _ _ => rfl, List.nodup_nil, rfl, ?_⟩,
    ⟨?_, by simp [LogState.initial]⟩⟩
  · have none : countP Pc.InOp (fun _ : P => Pc.idle) = 0 := by
      rw [countP, Finset.card_eq_zero, Finset.filter_eq_empty_iff]
      exact fun _ _ => id
    rw [LogState.initial, none]
    rfl
  · symm
    rw [LogState.initial, LogHeader.empty, List.toFinset_nil,
      Finset.eq_empty_iff_forall_notMem]
    intro b
    rw [mem_group]
    simp
  · intro p stage at_
    simp [LogState.initial, Pc.stage] at at_
  · intro p asleep
    simp [LogState.initial] at asleep

omit [Fintype P] [DecidableEq P] in
/-- At every stage the writes issued so far are the first of the commit's. -/
theorem StageOk.issued_initial (ok : StageOk log s stage) : s.issued <+: commit log s.txn := by
  cases stage with
  | start =>
    rw [ok.2]
    exact List.nil_prefix
  | write_log tail =>
    rw [ok.2.2, commit, if_pos ok.2.1]
    exact (List.take_prefix _ _).trans (by simp [List.append_assoc])
  | write_head =>
    rw [ok.2.2, commit, if_pos ok.2.1]
    simp [List.append_assoc]
  | install_trans tail =>
    rw [ok.2.2, commit, if_pos ok.2.1]
    exact ((List.prefix_append_right_inj _).mpr (List.take_prefix _ _)).trans
      (List.prefix_append _ _)
  | clear =>
    rw [ok.2.2, commit, if_pos ok.2.1]
    exact List.prefix_append _ _
  | erase =>
    rw [ok.2.2, commit, if_pos ok.2.1]
    exact List.prefix_append _ _
  | finish => rw [ok.2]

/-- The guarantee of the log's design.  While a commit runs no operation is in
progress, none is admitted and none logs a block; between groups the log is
empty; a commit issues the writes that install the header it took, which holds
each block logged by an operation that called `end_op` once, and no other; and
a sleeper has somebody to wake it. -/
structure Isolated (log : LogArea) (s : LogState P) : Prop where
  exclusive : s.committing = true → s.outstanding = 0 ∧ ∀ p, ¬ (s.pc p).InOp
  closed : s.committing = true → ∀ p, (∀ b, step log s (.log_write p b) = none) ∧
    step log s (.append p) = none ∧
      ∀ t, step log s (.begin_op p) = some t → ¬ (t.pc p).InOp
  quiet : s.outstanding = 0 → s.committing = false → s.lh.block = []
  noPanic : s.panic ≠ some .committing
  exact_ : ∀ p stage, s.pc p = .committing stage →
    s.txn.block.Nodup ∧ s.txn.block.toFinset = s.sources ∧ s.issued <+: commit log s.txn ∧
      (stage = .finish → s.issued = commit log s.txn)
  sleepers : ∀ p, s.pc p = .sleeping → s.committing = true ∨ 0 < s.outstanding

theorem Inv.isolated (inv : Inv log s) : Isolated log s where
  exclusive := fun busy => ⟨inv.flagged.exclusive busy, inv.not_inOp busy⟩
  closed := by
    intro busy p
    have notIn := inv.not_inOp busy p
    refine ⟨?_, ?_, ?_⟩
    · intro b
      cases taken : step log s (.log_write p b) with
      | none => rfl
      | some t =>
        obtain ⟨_, move⟩ := step_move taken
        have here : s.pc p = .inOp := by
          cases move with
          | tooBig _ _ here _ => exact here
          | outsideOfTrans _ _ here _ => exact here
          | tested _ _ here _ => exact here
        exact absurd (by rw [here]; trivial) notIn
    · cases taken : step log s (.append p) with
      | none => rfl
      | some t =>
        obtain ⟨_, move⟩ := step_move taken
        cases move with
        | appended _ b lh here inserted => exact absurd (by rw [here]; trivial) notIn
    · intro t taken
      have after := inv_step s _ t inv taken
      obtain ⟨_, move⟩ := step_move taken
      cases move with
      | refused _ outside full => exact after.not_inOp busy p
      | admitted _ outside open_ room => simp [busy] at open_
  quiet := by
    intro zero open_
    rw [inv.holding.quiet open_ zero]
    rfl
  noPanic := inv.awaited.noPanic
  exact_ := by
    intro p stage here
    have ok := inv.holding.stages p stage (by rw [here]; rfl)
    refine ⟨inv.holding.txnNodup, inv.holding.txnContent, ok.issued_initial, ?_⟩
    rintro rfl
    exact ok.2
  sleepers := inv.awaited.sleepers

/-- Whatever the processes do, and in whatever order their critical sections
and the moves of a commit come, every state reached is isolated. -/
theorem group_commit_isolated (log : LogArea) (ops : List (LogOp P)) :
    Throughout (step log) (Isolated log) (LogState.initial P) ops := by
  have always : Along (step log) (fun _ _ => True) (LogState.initial P) ops :=
    along_true ops (LogState.initial P)
  exact throughout_of_along (fun s op t inv _ taken => inv_step s op t inv taken)
    (fun s inv => inv.isolated) ops (LogState.initial P) (inv_initial log) always

end Xv6Tracing.Log
