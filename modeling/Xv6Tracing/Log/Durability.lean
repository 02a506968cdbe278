import Xv6Tracing.Log.CrashAtomicity
import Xv6Tracing.Log.Isolation

/-!
# Crashes in the middle of a group commit

The processes of `Log.Group` over the disk of `Log.Commit`.  `base` is the store at the
last `end_op` that began a commit; what the log has issued since then is on the disk.
-/

set_option autoImplicit false

namespace Xv6Tracing.Log

open Lib

universe u

structure Machine (P : Type u) where
  log : LogState P
  base : Store BlockNo Block

variable {P : Type u} {area : LogArea} {m n : Machine P} {t : LogState P}

def Machine.initial (P : Type u) (image : Disk) : Machine P := ⟨.initial P, .boot image⟩

def Machine.disk (area : LogArea) (m : Machine P) : Disk :=
  (performAll area m.log.issued m.base).disk

def Machine.goOn (area : LogArea) (m : Machine P) (cache : Disk) (t : LogState P) : Machine P :=
  ⟨t, if t.committing ∧ ¬ m.log.committing then ⟨cache, m.disk area⟩ else m.base⟩

/-- A step of the log, with what the buffer cache has for each block at that time. -/
def machineStep [DecidableEq P] (area : LogArea) (m : Machine P) (op : LogOp P × Disk) :
    Option (Machine P) :=
  (step area m.log op.1).map (m.goOn area op.2)

/-- The header names home blocks, and they fit. -/
def Fits (area : LogArea) (m : Machine P) (_ : LogOp P × Disk) : Prop :=
  (∀ b ∈ m.log.lh.block, ¬ area.Holds b) ∧ m.log.lh.block.length < area.size

instance (b : BlockNo) : Decidable (area.Holds b) := inferInstanceAs (Decidable (_ ∧ _))

instance (op : LogOp P × Disk) : Decidable (Fits area m op) :=
  @instDecidableAnd _ _ (List.decidableBAll _ _) (Nat.decLt _ _)

/-- After a crash here, and recoveries of which the last one completes, the last commit is
there as a whole or not at all, and it is there if its `end_op` is over. -/
def Survives (area : LogArea) (m : Machine P) : Prop :=
  ∀ crashes, ∃ disk,
    (crashedReboots area crashes (m.disk area)).bind (completeReboot area) = some disk ∧
    Recovered area m.log.txn m.base m.log.issued.length disk ∧
    (m.log.committing = false → ∀ b ∈ m.log.txn.block, disk b = m.base.cache b)

structure OnDisk [Fintype P] (area : LogArea) (m : Machine P) : Prop where
  inv : Inv area m.log
  txn : Transaction area m.log.txn
  clear : headCount (m.base.disk area.start) = 0
  cut : m.log.issued <+: commit area m.log.txn
  whole : m.log.committing = false → m.log.issued = commit area m.log.txn

variable [Fintype P]

section

variable (on : OnDisk area m)

include on

theorem OnDisk.survives : Survives area m := by
  intro crashes
  have cut : m.disk area = crashedCommit area m.log.txn m.log.issued.length m.base := by
    rw [crashedCommit, ← List.prefix_iff_eq_take.mp on.cut]
    rfl
  obtain ⟨disk, ends, recovered⟩ := crash_recovers on.txn on.clear m.log.issued.length crashes
  refine ⟨disk, cut ▸ ends, recovered, fun ended b member => recovered.durable ?_ b member⟩
  rw [on.whole ended, commit, if_pos (List.length_pos_of_mem member)]
  simp only [write_log, LogArea.entries, List.length_append, List.length_map, List.length_zipIdx,
    write_head, List.length_singleton]
  omega

theorem OnDisk.begins {cache : Disk} {op : LogOp P × Disk} (inv : Inv area t)
    (fits : Fits area m op) (open_ : m.log.committing = false) (begun : t.committing = true)
    (txn : t.txn = m.log.lh) (issued : t.issued = []) : OnDisk area (m.goOn area cache t) := by
  have base : (m.goOn area cache t).base = ⟨cache, m.disk area⟩ := if_pos ⟨begun, by simp [open_]⟩
  have installed := commit_installs (s := m.base) on.txn on.clear
  rw [← on.whole open_] at installed
  refine ⟨inv, ?_, base ▸ installed.clear, issued ▸ List.nil_prefix, fun ended => ?_⟩
  · exact ⟨txn ▸ on.inv.holding.nodup, txn ▸ fits.1, txn ▸ fits.2⟩
  · exact absurd (begun.symm.trans ended) (by decide)

theorem OnDisk.goesOn {cache : Disk} (inv : Inv area t) (txn : t.txn = m.log.txn)
    (old : t.committing = true → m.log.committing = true) (cut : t.issued <+: commit area t.txn)
    (whole : t.committing = false → t.issued = commit area t.txn) :
    OnDisk area (m.goOn area cache t) := by
  have base : (m.goOn area cache t).base = m.base := if_neg fun new => new.2 (old new.1)
  exact ⟨inv, txn ▸ on.txn, base ▸ on.clear, cut, whole⟩

variable [DecidableEq P]

theorem OnDisk.commit {cache : Disk} {p : P} {stage : CommitPc}
    (here : m.log.pc p = .committing stage) (inv : Inv area (commitStep area m.log p stage)) :
    OnDisk area (m.goOn area cache (commitStep area m.log p stage)) := by
  have place : (m.log.pc p).stage = some stage := by rw [here]; rfl
  have txn : (commitStep area m.log p stage).txn = m.log.txn := by
    cases stage <;> simp only [commitStep] <;> (try split) <;> rfl
  have ends : stage = .finish ∧ (commitStep area m.log p stage).issued = m.log.issued ∨
      ∃ next, (commitStep area m.log p stage).pc p = .committing next := by
    cases stage <;> simp only [commitStep] <;> (try split) <;> simp [LogState.setPc, LogState.wakeup]
  refine on.goesOn inv txn (fun _ => (on.inv.flagged.of_stage place).1) ?_ ?_
  · rcases ends with ⟨-, same⟩ | ⟨next, there⟩
    · exact same ▸ txn ▸ on.cut
    · exact (inv.isolated.exact_ p next there).2.2.1
  · intro ended
    rcases ends with ⟨rfl, same⟩ | ⟨next, there⟩
    · exact same.trans ((on.inv.holding.stages p _ place).2.trans (txn ▸ rfl))
    · have still := inv.flagged.open_ ended p
      rw [there] at still
      cases still

theorem OnDisk.step {op : LogOp P × Disk} (fits : Fits area m op)
    (taken : machineStep area m op = some n) : OnDisk area n := by
  obtain ⟨t, stepped, rfl⟩ := Option.map_eq_some_iff.mp taken
  have inv := inv_step m.log op.1 t on.inv stepped
  obtain ⟨op, cache⟩ := op
  obtain ⟨-, move⟩ := step_move stepped
  cases move with
  | last p here open_ alone => exact on.begins inv fits open_ rfl rfl rfl
  | commit p stage here => exact on.commit here inv
  | _ => exact on.goesOn inv rfl id on.cut on.whole

end

variable [DecidableEq P]

/-- Whatever the processes do, and wherever in it the machine stops, recovery finds every
commit as a whole or not at all, and every one whose `end_op` is over. -/
theorem group_commit_survives_crashes (area : LogArea) (image : Disk) (room : 0 < area.size)
    (clear : headCount (image area.start) = 0) (ops : List (LogOp P × Disk))
    (fits : Along (machineStep area) (Fits area) (Machine.initial P image) ops) :
    Throughout (machineStep area) (Survives area) (Machine.initial P image) ops := by
  have start : OnDisk area (Machine.initial P image) :=
    ⟨inv_initial area, ⟨List.nodup_nil, by rintro b ⟨⟩, room⟩, clear, List.nil_prefix, fun _ => rfl⟩
  exact throughout_of_along (fun _ _ _ on fits taken => on.step fits taken)
    (fun _ on => on.survives) ops _ start fits

/-- One block is logged, and the commit stops after its first write. -/
def cutShort : List (LogOp Unit × Disk) :=
  [.begin_op (), .log_write () 40, .append (), .end_op (), .commit (), .commit ()].map
    fun op => (op, fun _ _ => 7)

theorem group_commit_survives_cutShort :
    (run (machineStep mkfsLog) (.initial Unit fun _ _ => 0) cutShort).isSome = true ∧
      Throughout (machineStep mkfsLog) (Survives mkfsLog) (.initial Unit fun _ _ => 0) cutShort := by
  refine ⟨by decide +kernel, ?_⟩
  exact group_commit_survives_crashes mkfsLog _ (by decide) (by decide) cutShort (by decide +kernel)

end Xv6Tracing.Log
