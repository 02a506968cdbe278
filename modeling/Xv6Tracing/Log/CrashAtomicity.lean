import Xv6Tracing.Lib.Run
import Xv6Tracing.Log.Commit

/-!
# Crash atomicity of the log

A disk in the middle of a commit, or of any number of cut-off recoveries after
it, is in one of three phases: the header is still clear and every home block
is old; the header names the transaction and the log holds its blocks; or the
header is clear again and every home block is new.  Each write of `commit` and
of `recover_from_log` stays in the phase or goes to the next one.
-/

set_option autoImplicit false

namespace Xv6Tracing.Log

open Lib

/-- What `log_write` and its callers guarantee of a header that is committed:
distinct home blocks outside the log, and room for their copies. -/
structure Transaction (log : LogArea) (lh : LogHeader) : Prop where
  distinct : lh.block.Nodup
  home : ∀ b ∈ lh.block, ¬ log.Holds b
  room : lh.block.length < log.size

/-! ## The log area -/

variable {tail : Nat} {disk : Disk}

section

variable (log : LogArea)

include log

theorem LogArea.toNat_slot (room : tail + 1 < log.size) :
    (log.slot tail).toNat = log.start.toNat + (tail + 1) := by
  have fits := log.fits
  simp only [LogArea.slot, BitVec.toNat_add, BitVec.toNat_ofNat]
  omega

theorem LogArea.holds_slot (room : tail + 1 < log.size) :
    log.Holds (log.slot tail) := by
  rw [LogArea.Holds, log.toNat_slot room]
  omega

theorem LogArea.slot_ne_start (room : tail + 1 < log.size) :
    log.slot tail ≠ log.start := by
  intro same
  have := log.toNat_slot room
  rw [same] at this
  omega

theorem LogArea.slot_inj {i j : Nat} (roomI : i + 1 < log.size)
    (roomJ : j + 1 < log.size) (same : log.slot i = log.slot j) : i = j := by
  have atI := log.toNat_slot roomI
  have atJ := log.toNat_slot roomJ
  rw [same] at atI
  omega

theorem LogArea.holds_start (room : 0 < log.size) : log.Holds log.start :=
  ⟨Nat.le_refl _, by omega⟩

end

theorem LogArea.mem_entries {log : LogArea} {lh : LogHeader} {entry : BlockNo × BlockNo}
    (member : entry ∈ log.entries lh) :
    ∃ tail, tail < lh.block.length ∧ entry.1 ∈ lh.block ∧ entry.2 = log.slot tail := by
  obtain ⟨⟨b, tail⟩, inside, rfl⟩ := List.mem_map.mp member
  obtain ⟨_, bound, eq⟩ := List.mem_zipIdx inside
  refine ⟨tail, by simpa using bound, ?_, rfl⟩
  rw [eq]
  exact List.getElem_mem _

theorem LogArea.entries_fst (log : LogArea) (lh : LogHeader) :
    (log.entries lh).map Prod.fst = lh.block := by
  simp [LogArea.entries, Function.comp_def]

@[simp] theorem LogArea.length_entries (log : LogArea) (lh : LogHeader) :
    (log.entries lh).length = lh.block.length := by
  simp [LogArea.entries]

namespace Transaction

variable {log : LogArea} {lh : LogHeader} (txn : Transaction log lh)
include txn

theorem holds_entry {entry : BlockNo × BlockNo} (member : entry ∈ log.entries lh) :
    log.Holds entry.2 ∧ entry.2 ≠ log.start := by
  obtain ⟨tail, bound, _, eq⟩ := LogArea.mem_entries member
  have room : tail + 1 < log.size := by
    have := txn.room
    omega
  rw [eq]
  exact ⟨log.holds_slot room, log.slot_ne_start room⟩

theorem home_entry {entry : BlockNo × BlockNo} (member : entry ∈ log.entries lh) :
    ¬ log.Holds entry.1 := by
  obtain ⟨_, _, home, _⟩ := LogArea.mem_entries member
  exact txn.home entry.1 home

theorem slots_nodup : ((log.entries lh).map Prod.snd).Nodup := by
  have slots : (log.entries lh).map Prod.snd = (List.range lh.block.length).map log.slot := by
    simp only [LogArea.entries, List.map_map]
    rw [List.range_eq_range', ← List.zipIdx_map_snd 0 lh.block, List.map_map]
    rfl
  rw [slots]
  apply List.Nodup.map_on _ List.nodup_range
  intro i memberI j memberJ same
  have room := txn.room
  have boundI := List.mem_range.mp memberI
  have boundJ := List.mem_range.mp memberJ
  exact log.slot_inj (by omega) (by omega) same

theorem holds_start : log.Holds log.start :=
  log.holds_start (Nat.zero_lt_of_lt txn.room)

end Transaction

/-! ## The header block -/

@[simp] theorem headCount_headBlock (lh : LogHeader) (old : Block) :
    headCount (headBlock lh old) = lh.block.length := by
  have small : lh.block.length ≤ 30 := lh.bounded
  simp only [headCount, headBlock, if_true]
  rw [BitVec.toInt_eq_toNat_cond, BitVec.toNat_ofNat]
  split <;> omega

theorem read_head_headBlock (lh : LogHeader) (old : Block) :
    read_head (headBlock lh old) = some lh := by
  have small : lh.block.length ≤ 30 := lh.bounded
  have entries : ((List.range lh.block.length).map fun i =>
      headBlock lh old (Fin.ofNat 128 (i + 1))) = lh.block := by
    apply List.ext_getElem
    · simp
    · intro i boundL boundR
      have index : (Fin.ofNat 128 (i + 1)).val = i + 1 := by
        rw [Fin.val_ofNat]
        omega
      have notFirst : Fin.ofNat 128 (i + 1) ≠ 0 := by
        intro zero
        have := congrArg Fin.val zero
        rw [index] at this
        simp at this
      simp only [List.getElem_map, List.getElem_range, headBlock, if_neg notFirst, index,
        Nat.add_sub_cancel, List.getElem?_eq_getElem boundR, Option.getD_some]
  have count : (headCount (headBlock lh old)).toNat = lh.block.length := by simp
  simp only [read_head, count, lh.bounded, dif_pos, entries]

theorem read_head_of_clear {head : Block} (clear : headCount head = 0) :
    read_head head = some .empty := by
  simp [read_head, clear, LogHeader.empty]

theorem recover_of_clear {log : LogArea} (clear : headCount (disk log.start) = 0) :
    recover_from_log log disk = some (write_head .empty) := by
  simp [recover_from_log, read_head_of_clear clear, install_trans, LogArea.entries,
    LogHeader.empty]

/-! ## Performing a pass -/

theorem performAll_append (log : LogArea) (first second : List DiskWrite)
    (s : Store BlockNo Block) :
    performAll log (first ++ second) s = performAll log second (performAll log first s) :=
  List.foldl_append

theorem performAll_copies (log : LogArea) (pairs : List (BlockNo × BlockNo))
    (s : Store BlockNo Block) :
    performAll log (pairs.map fun pair => .copy pair.1 pair.2) s = s.copies pairs :=
  List.foldl_map

theorem performAll_install (log : LogArea) (lh : LogHeader) (k : Nat) (s : Store BlockNo Block) :
    performAll log ((install_trans log lh).take k) s =
      s.copies (((log.entries lh).take k).map Prod.swap) := by
  rw [install_trans, ← List.map_take, ← performAll_copies, List.map_map]
  rfl

/-! ## The phases -/

section Phases

variable (log : LogArea) (lh : LogHeader) (s : Store BlockNo Block)

/-- Nothing is committed: the header is clear and no block outside the log has
changed since the commit began in `s`. -/
structure Old (disk : Disk) : Prop where
  clear : headCount (disk log.start) = 0
  unchanged : ∀ b, ¬ log.Holds b → disk b = s.disk b

/-- The transaction is committed: the header names it and the log holds what
the cache held.  Its home blocks may be old or new. -/
structure Committed (disk : Disk) : Prop where
  head : read_head (disk log.start) = some lh
  logged : ∀ entry ∈ log.entries lh, disk entry.2 = s.cache entry.1
  unchanged : ∀ b, ¬ log.Holds b → b ∉ lh.block → disk b = s.disk b

structure New (disk : Disk) : Prop where
  clear : headCount (disk log.start) = 0
  installed : ∀ b ∈ lh.block, disk b = s.cache b
  unchanged : ∀ b, ¬ log.Holds b → b ∉ lh.block → disk b = s.disk b

end Phases

variable {log : LogArea} {lh : LogHeader} {s : Store BlockNo Block}

/-- Writing a clear header, or being cut off before it, leaves a clear header
and every other block as it was. -/
theorem clear_cut {t : Store BlockNo Block} (clear : headCount (t.disk log.start) = 0)
    (k : Nat) :
    headCount ((performAll log ((write_head .empty).take k) t).disk log.start) = 0 ∧
      ∀ b, b ≠ log.start → (performAll log ((write_head .empty).take k) t).disk b = t.disk b := by
  cases k with
  | zero => exact ⟨clear, fun b _ => rfl⟩
  | succ k =>
    simp only [write_head, List.take_succ_cons, List.take_nil, performAll, List.foldl_cons,
      List.foldl_nil, perform]
    refine ⟨?_, fun b other => Store.put_disk_of_ne t _ other⟩
    rw [Store.put_disk_self, headCount_headBlock]
    rfl

section

variable (txn : Transaction log lh)

include txn

theorem ne_start_of_home {b : BlockNo} (home : ¬ log.Holds b) :
    b ≠ log.start := by
  rintro rfl
  exact home txn.holds_start

theorem write_log_cut (clear : headCount (s.disk log.start) = 0)
    (k : Nat) : Old log s (performAll log ((write_log log lh).take k) s).disk := by
  rw [write_log, ← List.map_take, performAll_copies]
  have kept : ∀ b, (∀ entry ∈ log.entries lh, entry.2 ≠ b) →
      (s.copies ((log.entries lh).take k)).disk b = s.disk b := by
    intro b untouched
    exact (Store.copies_of_not_target _ s b
      fun entry member => untouched entry (List.mem_of_mem_take member)).2
  refine ⟨?_, ?_⟩
  · rw [kept _ fun entry member => (txn.holds_entry member).2]
    exact clear
  · intro b home
    apply kept
    intro entry member same
    apply home
    rw [← same]
    exact (txn.holds_entry member).1

/-- After `write_log` and the header write the transaction is committed, and
the cached log blocks hold its contents. -/
theorem committed_after_head :
    Committed log lh s (performAll log (write_log log lh ++ write_head lh) s).disk ∧
      ∀ entry ∈ log.entries lh,
        (performAll log (write_log log lh ++ write_head lh) s).cache entry.2 =
          s.cache entry.1 := by
  have apart : ∀ source ∈ log.entries lh, ∀ target ∈ log.entries lh, source.1 ≠ target.2 := by
    intro source sourceMember target targetMember same
    apply txn.home_entry sourceMember
    rw [same]
    exact (txn.holds_entry targetMember).1
  have logged : ∀ entry ∈ log.entries lh, _ := fun entry member =>
    Store.copies_target (log.entries lh) s txn.slots_nodup apart entry member
  rw [performAll_append, write_log, performAll_copies]
  simp only [write_head, performAll, List.foldl_cons, List.foldl_nil, perform]
  refine ⟨⟨?_, ?_, ?_⟩, ?_⟩
  · rw [Store.put_disk_self]
    exact read_head_headBlock lh _
  · intro entry member
    rw [Store.put_disk_of_ne _ _ (txn.holds_entry member).2]
    exact (logged entry member).2
  · intro b home _
    rw [Store.put_disk_of_ne _ _ (ne_start_of_home txn home)]
    apply (Store.copies_of_not_target _ s b _).2
    intro entry member same
    apply home
    rw [← same]
    exact (txn.holds_entry member).1
  · intro entry member
    rw [Store.put_cache_of_ne _ _ (txn.holds_entry member).2]
    exact (logged entry member).1

/-- From a committed disk whose view of the log is right, a prefix of
`install_trans` and the clearing of the header stays committed until that last
write, and is then done.  Both `commit` and `recover_from_log` end like this. -/
theorem install_cut {t : Store BlockNo Block}
    (committed : Committed log lh s t.disk)
    (view : ∀ entry ∈ log.entries lh, t.cache entry.2 = s.cache entry.1) (k : Nat) :
    (k ≤ lh.block.length → Committed log lh s
        (performAll log ((install_trans log lh ++ write_head .empty).take k) t).disk) ∧
      (lh.block.length < k → New log lh s
        (performAll log ((install_trans log lh ++ write_head .empty).take k) t).disk) := by
  have length : (install_trans log lh).length = lh.block.length := by simp [install_trans]
  rw [List.take_append, length, performAll_append, performAll_install]
  -- A block of the log, or one the transaction does not name, is no target.
  have kept : ∀ b, b ∉ lh.block →
      (t.copies (((log.entries lh).take k).map Prod.swap)).disk b = t.disk b := by
    intro b other
    apply (Store.copies_of_not_target _ t b _).2
    intro pair member same
    obtain ⟨entry, inside, rfl⟩ := List.mem_map.mp member
    obtain ⟨_, _, home, _⟩ := LogArea.mem_entries (List.mem_of_mem_take inside)
    exact other (same ▸ home)
  have logKept : ∀ b, log.Holds b →
      (t.copies (((log.entries lh).take k).map Prod.swap)).disk b = t.disk b :=
    fun b holds => kept b fun member => txn.home b member holds
  constructor
  · intro early
    rw [Nat.sub_eq_zero_of_le early, List.take_zero]
    refine ⟨?_, ?_, ?_⟩
    · change read_head ((t.copies _).disk log.start) = some lh
      rw [logKept _ txn.holds_start]
      exact committed.head
    · intro entry member
      exact (logKept _ (txn.holds_entry member).1).trans (committed.logged entry member)
    · intro b home other
      exact (kept b other).trans (committed.unchanged b home other)
  · intro late
    obtain ⟨rest, lateEq⟩ : ∃ rest, k - lh.block.length = rest + 1 :=
      ⟨k - lh.block.length - 1, by omega⟩
    have all : (log.entries lh).take k = log.entries lh :=
      List.take_of_length_le (by rw [LogArea.length_entries]; omega)
    rw [lateEq, all]
    rw [all] at kept
    simp only [write_head, List.take_succ_cons, List.take_nil, performAll, List.foldl_cons,
      List.foldl_nil, perform]
    refine ⟨?_, ?_, ?_⟩
    · rw [Store.put_disk_self, headCount_headBlock]
      rfl
    · intro b member
      rw [Store.put_disk_of_ne _ _ (ne_start_of_home txn (txn.home b member))]
      rw [← log.entries_fst lh] at member
      obtain ⟨entry, inside, rfl⟩ := List.mem_map.mp member
      have targets : (((log.entries lh).map Prod.swap).map Prod.snd).Nodup := by
        grind [log.entries_fst, Transaction]
      have apart : ∀ source ∈ (log.entries lh).map Prod.swap,
          ∀ target ∈ (log.entries lh).map Prod.swap, source.1 ≠ target.2 := by
        intro source sourceMember target targetMember same
        obtain ⟨from_, fromMember, rfl⟩ := List.mem_map.mp sourceMember
        obtain ⟨to_, toMember, rfl⟩ := List.mem_map.mp targetMember
        apply txn.home_entry toMember
        have same' : from_.2 = to_.1 := same
        rw [← same']
        exact (txn.holds_entry fromMember).1
      have copied := (Store.copies_target ((log.entries lh).map Prod.swap) t targets apart
        entry.swap (List.mem_map_of_mem inside)).2
      exact copied.trans (view entry inside)
    grind [Store.put_disk_of_ne, ne_start_of_home, Committed]

end

/-! ## Recovery -/

theorem old_reboot (txn : Transaction log lh) (old : Old log s disk) (k : Nat) :
    ∃ disk', crashedReboot log k disk = some disk' ∧ Old log s disk' := by
  obtain ⟨clear, others⟩ := clear_cut (t := Store.boot disk) old.clear k
  refine ⟨_, by rw [crashedReboot, recover_of_clear old.clear]; rfl, clear, ?_⟩
  intro b home
  exact (others b (ne_start_of_home txn home)).trans (old.unchanged b home)

theorem new_reboot (txn : Transaction log lh) (new : New log lh s disk) (k : Nat) :
    ∃ disk', crashedReboot log k disk = some disk' ∧ New log lh s disk' := by
  obtain ⟨clear, others⟩ := clear_cut (t := Store.boot disk) new.clear k
  refine ⟨_, by rw [crashedReboot, recover_of_clear new.clear]; rfl, clear, ?_, ?_⟩
  · intro b member
    exact (others b (ne_start_of_home txn (txn.home b member))).trans (new.installed b member)
  · intro b home other
    exact (others b (ne_start_of_home txn home)).trans (new.unchanged b home other)

theorem committed_reboot (txn : Transaction log lh)
    (committed : Committed log lh s disk) (k : Nat) :
    ∃ disk', crashedReboot log k disk = some disk' ∧
      (k ≤ lh.block.length → Committed log lh s disk') ∧
      (lh.block.length < k → New log lh s disk') := by
  refine ⟨_, by rw [crashedReboot, recover_from_log, committed.head]; rfl, ?_⟩
  exact install_cut txn (t := Store.boot disk) committed committed.logged k

def Durable (log : LogArea) (lh : LogHeader) (s : Store BlockNo Block) (disk : Disk) : Prop :=
  Committed log lh s disk ∨ New log lh s disk

theorem durable_reboot (txn : Transaction log lh) (durable : Durable log lh s disk)
    (k : Nat) : ∃ disk', crashedReboot log k disk = some disk' ∧ Durable log lh s disk' := by
  rcases durable with committed | new
  · obtain ⟨disk', run, early, late⟩ := committed_reboot txn committed k
    grind [Durable]
  · obtain ⟨disk', run, new'⟩ := new_reboot txn new k
    exact ⟨disk', run, Or.inr new'⟩

theorem crashedReboots_keep {phase : Disk → Prop}
    (kept : ∀ disk k, phase disk → ∃ disk', crashedReboot log k disk = some disk' ∧ phase disk')
    (ks : List Nat) (disk : Disk) (holds : phase disk) :
    ∃ disk', crashedReboots log ks disk = some disk' ∧ phase disk' := by
  induction ks generalizing disk with
  | nil => exact ⟨disk, rfl, holds⟩
  | cons k ks ih =>
    obtain ⟨next, run, holds'⟩ := kept disk k holds
    obtain ⟨disk', rest, final⟩ := ih next holds'
    exact ⟨disk', by rw [crashedReboots, run]; exact rest, final⟩

theorem completeReboot_eq (log : LogArea) (disk : Disk) (k : Nat) (lh : LogHeader)
    (head : read_head (disk log.start) = some lh) (enough : lh.block.length < k) :
    completeReboot log disk = crashedReboot log k disk := by
  simp only [completeReboot, crashedReboot, recover_from_log, head, Option.map_some]
  rw [List.take_of_length_le]
  simp [install_trans, write_head]
  omega

theorem old_complete (txn : Transaction log lh) (old : Old log s disk) :
    ∃ disk', completeReboot log disk = some disk' ∧ Old log s disk' := by
  rw [completeReboot_eq log disk 1 .empty (read_head_of_clear old.clear) Nat.zero_lt_one]
  exact old_reboot txn old 1

theorem durable_complete (txn : Transaction log lh) (durable : Durable log lh s disk) :
    ∃ disk', completeReboot log disk = some disk' ∧ New log lh s disk' := by
  rcases durable with committed | new
  · rw [completeReboot_eq log disk (lh.block.length + 1) lh committed.head (Nat.lt_succ_self _)]
    obtain ⟨disk', run, _, late⟩ := committed_reboot txn committed (lh.block.length + 1)
    exact ⟨disk', run, late (Nat.lt_succ_self _)⟩
  · rw [completeReboot_eq log disk 1 .empty (read_head_of_clear new.clear) Nat.zero_lt_one]
    exact new_reboot txn new 1

/-! ## The commit -/

theorem crashedCommit_early (txn : Transaction log lh)
    (clear : headCount (s.disk log.start) = 0) {k : Nat} (early : k ≤ lh.block.length) :
    Old log s (crashedCommit log lh k s) := by
  by_cases some : 0 < lh.block.length
  · have writes : (commit log lh).take k = (write_log log lh).take k := by
      rw [commit, if_pos some, List.append_assoc, List.append_assoc,
        List.take_append_of_le_length]
      simpa [write_log] using early
    rw [crashedCommit, writes]
    exact write_log_cut txn clear k
  · have writes : (commit log lh).take k = [] := by simp [commit, some]
    rw [crashedCommit, writes]
    exact ⟨clear, fun b _ => rfl⟩

theorem crashedCommit_late (txn : Transaction log lh)
    (clear : headCount (s.disk log.start) = 0) {k : Nat} (late : lh.block.length < k) :
    Durable log lh s (crashedCommit log lh k s) := by
  by_cases some : 0 < lh.block.length
  · have length : (write_log log lh ++ write_head lh).length = lh.block.length + 1 := by
      simp [write_log, write_head]
    have head : (write_log log lh ++ write_head lh).take k = write_log log lh ++ write_head lh :=
      List.take_of_length_le (by rw [length]; omega)
    obtain ⟨committed, view⟩ := committed_after_head (s := s) txn
    obtain ⟨before, after⟩ := install_cut txn committed view (k - (lh.block.length + 1))
    rw [crashedCommit, commit, if_pos some, List.append_assoc, List.take_append, head, length,
      performAll_append]
    rcases Nat.lt_or_ge lh.block.length (k - (lh.block.length + 1)) with more | less
    · exact Or.inr (after more)
    · exact Or.inl (before less)
  · have nothing : lh.block = [] := List.length_eq_zero_iff.mp (by omega)
    have writes : (commit log lh).take k = [] := by simp [commit, nothing]
    rw [crashedCommit, writes]
    refine Or.inr ⟨clear, ?_, fun b _ _ => rfl⟩
    rw [nothing]
    simp

/-- What a disk must look like once a recovery has completed: all home blocks
old or all new, everything else outside the log unchanged, the header clear. -/
structure Recovered (log : LogArea) (lh : LogHeader) (s : Store BlockNo Block) (k : Nat)
    (disk : Disk) : Prop where
  atomic : (∀ b ∈ lh.block, disk b = s.disk b) ∨ (∀ b ∈ lh.block, disk b = s.cache b)
  durable : lh.block.length < k → ∀ b ∈ lh.block, disk b = s.cache b
  unchanged : ∀ b, ¬ log.Holds b → b ∉ lh.block → disk b = s.disk b
  clear : headCount (disk log.start) = 0

theorem crash_recovers (txn : Transaction log lh) (clear : headCount (s.disk log.start) = 0)
    (k : Nat) (crashes : List Nat) :
    ∃ disk, (crashedReboots log crashes (crashedCommit log lh k s)).bind (completeReboot log) =
        some disk ∧ Recovered log lh s k disk := by
  rcases Nat.lt_or_ge lh.block.length k with late | early
  · obtain ⟨crashed, reboots, durable⟩ :=
      crashedReboots_keep (fun disk k durable => durable_reboot txn durable k) crashes _
        (crashedCommit_late txn clear late)
    obtain ⟨disk, complete, new⟩ := durable_complete txn durable
    refine ⟨disk, by rw [reboots]; exact complete, ?_⟩
    exact ⟨Or.inr new.installed, fun _ => new.installed, new.unchanged, new.clear⟩
  · obtain ⟨crashed, reboots, old⟩ :=
      crashedReboots_keep (fun disk k old => old_reboot txn old k) crashes _
        (crashedCommit_early txn clear early)
    obtain ⟨disk, complete, old⟩ := old_complete txn old
    refine ⟨disk, by rw [reboots]; exact complete, ?_⟩
    exact ⟨Or.inl fun b member => old.unchanged b (txn.home b member),
      fun late => absurd late (Nat.not_lt.mpr early), fun b home _ => old.unchanged b home,
      old.clear⟩

theorem commit_installs (txn : Transaction log lh) (clear : headCount (s.disk log.start) = 0) :
    New log lh s (performAll log (commit log lh) s).disk := by
  by_cases some : 0 < lh.block.length
  · obtain ⟨committed, view⟩ := committed_after_head (s := s) txn
    have installed := (install_cut txn committed view (lh.block.length + 1)).2
      (Nat.lt_succ_self _)
    rw [List.take_of_length_le (by simp [install_trans, write_head])] at installed
    rw [commit, if_pos some, List.append_assoc, performAll_append]
    exact installed
  · have nothing : lh.block = [] := List.length_eq_zero_iff.mp (by omega)
    rw [commit, if_neg some]
    refine ⟨clear, ?_, fun b _ _ => rfl⟩
    rw [nothing]
    simp

/-! ## Histories of a disk -/

/-- One commit, of the blocks `lh` names with the contents the buffer cache has
for them.  With `crash` it is cut off after that many disk writes, and so are
the recoveries of the next reboots, until one completes. -/
structure LogEvent where
  lh : LogHeader
  contents : BlockNo → Block
  crash : Option (Nat × List Nat)

def logStep (log : LogArea) (disk : Disk) (event : LogEvent) : Option Disk :=
  match event.crash with
  | none => some (performAll log (commit log event.lh) ⟨event.contents, disk⟩).disk
  | some (k, crashes) =>
    (crashedReboots log crashes (crashedCommit log event.lh k ⟨event.contents, disk⟩)).bind
      (completeReboot log)

/-- The event ends, as it should: with the whole transaction installed, or after
a crash with the whole of it or nothing. -/
def EndsAtomically (log : LogArea) (disk : Disk) (event : LogEvent) : Prop :=
  ∃ disk', logStep log disk event = some disk' ∧
    match event.crash with
    | none => New log event.lh ⟨event.contents, disk⟩ disk'
    | some (k, _) => Recovered log event.lh ⟨event.contents, disk⟩ k disk'

theorem endsAtomically_of_clear {event : LogEvent}
    (txn : Transaction log event.lh) (clear : headCount (disk log.start) = 0) :
    EndsAtomically log disk event := by
  obtain ⟨lh, contents, crash⟩ := event
  cases crash with
  | none => exact ⟨_, rfl, commit_installs txn clear⟩
  | some crash => exact crash_recovers (s := ⟨contents, disk⟩) txn clear crash.1 crash.2

theorem clear_of_endsAtomically {event : LogEvent} {disk' : Disk}
    (ends : EndsAtomically log disk event) (taken : logStep log disk event = some disk') :
    headCount (disk' log.start) = 0 := by
  obtain ⟨final, run, outcome⟩ := ends
  cases Option.some.inj (run.symm.trans taken)
  cases crash : event.crash with
  | none =>
    simp only [crash] at outcome
    exact outcome.clear
  | some cut =>
    simp only [crash] at outcome
    exact outcome.clear

/-- From an image with a clear log header on, through any history of commits,
crashes after any disk write of a commit, and reboots cut off after any disk
write of their recovery, every transaction is installed as a whole or not at
all. -/
theorem log_crash_atomic (log : LogArea) (image : Disk)
    (clear : headCount (image log.start) = 0) (history : List LogEvent)
    (txns : ∀ event ∈ history, Transaction log event.lh) :
    Along (logStep log) (EndsAtomically log) image history := by
  induction history generalizing image with
  | nil => trivial
  | cons event history ih =>
    have ends := endsAtomically_of_clear (txns event List.mem_cons_self) clear
    refine ⟨ends, fun disk taken => ?_⟩
    grind [clear_of_endsAtomically]

/-- A commit of two blocks cut off right after its header write, followed by two
reboots cut off in their recovery. -/
def twoBlocksCut : LogEvent := ⟨⟨[40, 41], by decide⟩, fun _ _ => 7, some (3, [1, 2])⟩

theorem two_blocks_survive_three_crashes :
    Along (logStep mkfsLog) (EndsAtomically mkfsLog) (fun _ _ => 0)
      [twoBlocksCut, { twoBlocksCut with crash := none }] := by
  apply log_crash_atomic
  · rfl
  · have txn : Transaction mkfsLog twoBlocksCut.lh := by
      refine ⟨by decide, ?_, by decide⟩
      intro b member
      simp only [twoBlocksCut, List.mem_cons, List.not_mem_nil, or_false] at member
      rcases member with rfl | rfl <;> simp [LogArea.Holds, mkfsLog, LOGSIZE, MAXOPBLOCKS]
    grind

end Xv6Tracing.Log
