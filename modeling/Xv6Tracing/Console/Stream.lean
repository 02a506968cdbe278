import Xv6Tracing.Console.Discipline

/-!
# The stream that the readers share

Every committed byte was taken by one read or is still in the buffer, in the order in
which it was typed.  A read that has taken a full buffer without a newline may sleep
again, and another read may take the next bytes, so the order is not that of the calls.
-/

set_option autoImplicit false

namespace Xv6Tracing.ConsoleInput

open Function (update update_of_ne update_self)

open Lib

section

variable {T : Type}

structure Going (s : Console T) (rd : Reader) : Prop where
  id : rd.id < s.calls
  taken : taken rd.id s.log = rd.dst
  count : rd.dst.length + rd.n = rd.size.toInt.toNat
  plain : ctrl 'D' ∉ rd.dst

structure Done (s : Console T) (d : Read) : Prop where
  ret : d.ret = BitVec.ofNat 32 d.dst.length
  finished : Over s.committed s.log d.id d.size.toInt.toNat d.dst d.stop
  notGoing : ∀ t rd, s.reader t = some rd → rd.id ≠ d.id

def Known (s : Console T) (id : Nat) : Prop :=
  (∃ d ∈ s.done, d.id = id) ∨ ∃ t rd, s.reader t = some rd ∧ rd.id = id

structure Ordered (s : Console T) : Prop where
  line : ∃ q edit, Line s.input q edit ∧ s.committed = s.log.map Prod.snd ++ q
  known : ∀ entry ∈ s.log, Known s entry.1
  going : ∀ t rd, s.reader t = some rd → Going s rd
  apart : ∀ t u rd rd', s.reader t = some rd → s.reader u = some rd' → rd.id = rd'.id → t = u
  done : ∀ d ∈ s.done, Done s d
  older : ∀ d ∈ s.done, d.id < s.calls
  once : (s.done.map Read.id).Nodup
  eof : ∀ id, (id, ctrl 'D') ∈ s.log → ∃ d ∈ s.done, d.id = id ∧ d.dst = []

/-! ## Typing -/

theorem Over.more {committed : List Uchar} {log : List (Nat × Uchar)} {id target : Nat}
    {dst : List Uchar} {stop : Nat} (finished : Over committed log id target dst stop)
    (typed : List Uchar) : Over (committed ++ typed) log id target dst stop where
  taken := finished.taken
  ends := by
    intro positive
    rcases finished.ends positive with line | size | eof
    · exact Or.inl line
    · exact Or.inr (Or.inl size)
    · refine Or.inr (Or.inr ?_)
      rw [List.getElem?_append_left (List.getElem?_eq_some_iff.mp eof).1]
      exact eof

variable {q edit new : List Uchar} {s : Console T} {rd : Reader} {t : T}

theorem Ordered.typed (ordered : Ordered s) {input : Input}
    {asleep : T → Bool} {added : List Uchar} (line : Line input q edit)
    (stream : s.committed ++ added = s.log.map Prod.snd ++ q) :
    Ordered { s with input := input, asleep := asleep, committed := s.committed ++ added } where
  line := ⟨q, edit, line, stream⟩
  known := ordered.known
  going := by
    intro t rd reading
    obtain ⟨id, taken, count, plain⟩ := ordered.going t rd reading
    exact ⟨id, taken, count, plain⟩
  apart := ordered.apart
  done := by
    intro d member
    obtain ⟨ret, finished, notGoing⟩ := ordered.done d member
    exact ⟨ret, finished.more added, notGoing⟩
  older := ordered.older
  once := ordered.once
  eof := ordered.eof

theorem Ordered.edited (ordered : Ordered s) {input : Input}
    (keeps : ∀ q edit, Line s.input q edit → ∃ edit', Line input q edit') :
    Ordered { s with input := input } := by
  obtain ⟨q, edit, line, stream⟩ := ordered.line
  obtain ⟨edit', line'⟩ := keeps q edit line
  have same : Ordered { s with
      input := input, asleep := s.asleep, committed := s.committed ++ [] } :=
    ordered.typed line' (by simpa using stream)
  rwa [List.append_nil] at same

theorem Ordered.committed (ordered : Ordered s) {c : Uchar}
    (room : s.input.e - s.input.r < BitVec.ofNat 32 INPUT_BUF) :
    Ordered (commit { s with input := s.input.put c }) := by
  obtain ⟨q, edit, line, stream⟩ := ordered.line
  obtain ⟨line', typed⟩ := line.commit room c
  refine ordered.typed line' ?_
  rw [typed, stream, List.append_assoc]

theorem Ordered.typeChar (ordered : Ordered s) (c : Uchar) :
    Ordered (typeChar s c) := by
  rw [ConsoleInput.typeChar]
  split
  · exact ordered
  split
  · exact ordered.edited (fun q edit line => killLine_line _ line)
  split
  · split
    · rename_i more
      exact ordered.edited (fun q edit line => line.backspace more)
    · exact ordered
  split
  · rename_i room
    dsimp only
    generalize (if c = carriageReturn then newline else c) = c
    split
    · exact ordered.committed room.2
    · rename_i open'
      have notFull := (not_or.mp (not_or.mp open').2).2
      exact ordered.edited (fun q edit line => ⟨_, line.put room.2 notFull⟩)
  · exact ordered

theorem Ordered.consoleintr (ordered : Ordered s) (typed : List Uchar) :
    Ordered (consoleintr s typed) := by
  induction typed generalizing s with
  | nil => exact ordered
  | cons c typed ih => exact ih (ordered.typeChar c)

/-! ## Reading -/

/-- A reader adds to the log what it took; the others' reads are as they were. -/
theorem Ordered.other_taken (ordered : Ordered s) {u : T} {rd' : Reader}
    (mine : s.reader t = some rd) (theirs : s.reader u = some rd') (differ : u ≠ t)
    (new : List Uchar) :
    taken rd'.id (s.log ++ new.map (Prod.mk rd.id)) = taken rd'.id s.log := by
  refine taken_append_other ?_ s.log new
  intro same
  exact differ (ordered.apart u t rd' rd theirs mine same)

theorem Ordered.done_over (ordered : Ordered s)
    (mine : s.reader t = some rd) {d : Read} (member : d ∈ s.done) (new : List Uchar) :
    Over s.committed (s.log ++ new.map (Prod.mk rd.id)) d.id d.size.toInt.toNat d.dst d.stop := by
  obtain ⟨-, finished, notGoing⟩ := ordered.done d member
  refine ⟨?_, finished.ends⟩
  rw [taken_append_other (fun same => notGoing t rd mine same.symm)]
  exact finished.taken

theorem mem_log_new {log : List (Nat × Uchar)} {id : Nat}
    {entry : Nat × Uchar} (member : entry ∈ log ++ new.map (Prod.mk id)) :
    entry ∈ log ∨ entry.1 = id := by
  rcases List.mem_append.mp member with old | added
  · exact Or.inl old
  · obtain ⟨c, -, rfl⟩ := List.mem_map.mp added
    exact Or.inr rfl

variable [DecidableEq T]

theorem Ordered.sleeps (ordered : Ordered s) (mine : s.reader t = some rd) {h : Hand} {n : Nat}
    (grown : h.log = s.log ++ new.map (Prod.mk rd.id))
    (holding : Holding s.committed rd.id rd.size.toInt.toNat n h q edit) :
    Ordered { s with
      input := h.input
      log := h.log
      reader := update s.reader t (some { rd with n := n, dst := h.dst })
      asleep := update s.asleep t true } where
  line := ⟨q, edit, holding.line, holding.stream⟩
  known := by
    intro entry member
    rw [grown] at member
    have old : Known s entry.1 := by
      rcases mem_log_new member with old | same
      · exact ordered.known entry old
      · exact Or.inr ⟨t, rd, mine, same.symm⟩
    rcases old with done | ⟨u, rd', theirs, same⟩
    · exact Or.inl done
    · by_cases self : u = t
      · subst self
        rw [mine] at theirs
        cases theirs
        exact Or.inr ⟨u, _, update_self .., same⟩
      · exact Or.inr ⟨u, rd', (update_of_ne self ..).trans theirs, same⟩
  going := by
    intro u rd' theirs
    by_cases self : u = t
    · subst self
      cases (update_self ..).symm.trans theirs
      exact ⟨(ordered.going u rd mine).id, holding.taken, holding.count, holding.plain⟩
    · have theirs : s.reader u = some rd' := (update_of_ne self ..).symm.trans theirs
      obtain ⟨id, taken, count, plain⟩ := ordered.going u rd' theirs
      refine ⟨id, ?_, count, plain⟩
      change ConsoleInput.taken rd'.id h.log = rd'.dst
      rw [grown, ordered.other_taken mine theirs self, taken]
  apart := by
    have before : ∀ u rd', update s.reader t
        (some { rd with n := n, dst := h.dst }) u = some rd' →
        ∃ old, s.reader u = some old ∧ old.id = rd'.id := by
      intro u rd' found
      by_cases self : u = t
      · subst self
        cases (update_self ..).symm.trans found
        exact ⟨rd, mine, rfl⟩
      · exact ⟨rd', (update_of_ne self ..).symm.trans found, rfl⟩
    intro u v rd₁ rd₂ first second same
    obtain ⟨old₁, found₁, same₁⟩ := before u rd₁ first
    obtain ⟨old₂, found₂, same₂⟩ := before v rd₂ second
    exact ordered.apart u v old₁ old₂ found₁ found₂ (by rw [same₁, same₂, same])
  done := by
    intro d member
    obtain ⟨ret, -, notGoing⟩ := ordered.done d member
    refine ⟨ret, grown ▸ ordered.done_over mine member new, ?_⟩
    intro u rd' found
    by_cases self : u = t
    · subst self
      cases (update_self ..).symm.trans found
      exact notGoing u rd mine
    · exact notGoing u rd' ((update_of_ne self ..).symm.trans found)
  older := ordered.older
  once := ordered.once
  eof := by
    intro id member
    change (id, ctrl 'D') ∈ h.log at member
    by_cases self : id = rd.id
    · subst self
      rw [← mem_taken, holding.taken] at member
      exact absurd member holding.plain
    · rw [grown] at member
      exact ordered.eof id ((mem_log_new member).resolve_right self)

theorem Ordered.returns (ordered : Ordered s)
    (mine : s.reader t = some rd) {h : Hand} {n stop : Nat}
    (line : Line h.input q edit) (stream : s.committed = h.log.map Prod.snd ++ q)
    (grown : h.log = s.log ++ new.map (Prod.mk rd.id))
    (count : h.dst.length + n = rd.size.toInt.toNat)
    (finished : Over s.committed h.log rd.id rd.size.toInt.toNat h.dst stop) :
    Ordered { s with
      input := h.input
      log := h.log
      reader := update s.reader t none
      done := s.done ++
        [⟨rd.id, rd.size, h.dst, BitVec.ofNat 32 (rd.size.toInt.toNat - n), stop⟩] } := by
  have before : ∀ u rd', update s.reader t none u = some rd' →
      u ≠ t ∧ s.reader u = some rd' := by
    intro u rd' found
    by_cases self : u = t
    · subst self
      cases (update_self ..).symm.trans found
    · exact ⟨self, (update_of_ne self ..).symm.trans found⟩
  constructor
  case line => exact ⟨q, edit, line, stream⟩
  case known =>
    intro entry member
    change entry ∈ h.log at member
    rw [grown] at member
    have old : Known s entry.1 := by
      rcases mem_log_new member with old | same
      · exact ordered.known entry old
      · exact Or.inr ⟨t, rd, mine, same.symm⟩
    rcases old with ⟨d, earlier, same⟩ | ⟨u, rd', theirs, same⟩
    · exact Or.inl ⟨d, List.mem_append_left _ earlier, same⟩
    · by_cases self : u = t
      · subst self
        rw [mine] at theirs
        cases theirs
        exact Or.inl ⟨_, List.mem_append_right _ (List.mem_singleton_self _), same⟩
      · exact Or.inr ⟨u, rd', (update_of_ne self ..).trans theirs, same⟩
  case going =>
    intro u rd' found
    obtain ⟨self, theirs⟩ := before u rd' found
    obtain ⟨id, taken, count, plain⟩ := ordered.going u rd' theirs
    refine ⟨id, ?_, count, plain⟩
    change ConsoleInput.taken rd'.id h.log = rd'.dst
    rw [grown, ordered.other_taken mine theirs self, taken]
  case apart =>
    intro u v rd₁ rd₂ first second same
    exact ordered.apart u v rd₁ rd₂ (before u rd₁ first).2 (before v rd₂ second).2 same
  case done =>
    intro d member
    rcases List.mem_append.mp member with earlier | last
    · obtain ⟨ret, -, notGoing⟩ := ordered.done d earlier
      exact ⟨ret, grown ▸ ordered.done_over mine earlier new,
        fun u rd' found => notGoing u rd' (before u rd' found).2⟩
    · cases List.mem_singleton.mp last
      have got : rd.size.toInt.toNat - n = h.dst.length := by omega
      refine ⟨congrArg (BitVec.ofNat 32) got, finished, ?_⟩
      intro u rd' found same
      obtain ⟨self, theirs⟩ := before u rd' found
      exact self (ordered.apart u t rd' rd theirs mine same)
  case older =>
    intro d member
    rcases List.mem_append.mp member with earlier | last
    · exact ordered.older d earlier
    · cases List.mem_singleton.mp last
      exact (ordered.going t rd mine).id
  case once =>
    rw [List.map_append, List.nodup_append]
    refine ⟨ordered.once, List.nodup_singleton _, ?_⟩
    intro id earlier other last same
    obtain ⟨d, member, rfl⟩ := List.mem_map.mp earlier
    rw [List.map_singleton, List.mem_singleton] at last
    exact (ordered.done d member).notGoing t rd mine (last.symm.trans same.symm)
  case eof =>
    intro id member
    change (id, ctrl 'D') ∈ h.log at member
    by_cases self : id = rd.id
    · subst self
      rw [← mem_taken] at member
      rcases finished.taken with ⟨taken, plain⟩ | ⟨nothing, -⟩
      · rw [taken] at member
        exact absurd member plain
      · exact ⟨_, List.mem_append_right _ (List.mem_singleton_self _), rfl, nothing⟩
    · rw [grown] at member
      obtain ⟨d, earlier, same, nothing⟩ :=
        ordered.eof id ((mem_log_new member).resolve_right self)
      exact ⟨d, List.mem_append_left _ earlier, same, nothing⟩

theorem Ordered.readSection (ordered : Ordered s)
    (mine : s.reader t = some rd) : Ordered (readSection s t false rd) := by
  obtain ⟨q, edit, line, stream⟩ := ordered.line
  obtain ⟨id, taken, count, plain⟩ := ordered.going t rd mine
  have holding : Holding s.committed rd.id rd.size.toInt.toNat rd.n
      ⟨s.input, s.log, rd.dst⟩ q edit := ⟨line, stream, taken, count, plain⟩
  obtain ⟨q', new, line', stream', grown, ends⟩ := readLoop_reads rd.n holding
  simp only [ConsoleInput.readSection]
  generalize readLoop false rd.id rd.size.toInt.toNat rd.n ⟨s.input, s.log, rd.dst⟩ = result
    at line' stream' grown ends ⊢
  obtain ⟨h, outcome⟩ := result
  cases outcome with
  | sleeps n => exact ordered.sleeps mine grown ends
  | returns n stop => exact ordered.returns mine line' stream' grown ends.1 ends.2
  | killed => exact ends.elim

theorem Ordered.enter (ordered : Ordered s) (idle : s.reader t = none) (size : CInt) :
    Ordered (enter s t ⟨s.calls, size, size.toInt.toNat, []⟩) := by
  have fresh : ∀ id, Known s id → id < s.calls := by
    rintro id (⟨d, member, rfl⟩ | ⟨u, rd, found, rfl⟩)
    · exact ordered.older d member
    · exact (ordered.going u rd found).id
  have before : ∀ u rd', update s.reader t
      (some ⟨s.calls, size, size.toInt.toNat, []⟩) u = some rd' →
      u = t ∧ rd' = ⟨s.calls, size, size.toInt.toNat, []⟩ ∨ s.reader u = some rd' := by
    intro u rd' found
    by_cases self : u = t
    · subst self
      rw [update_self] at found
      exact Or.inl ⟨rfl, (Option.some.inj found).symm⟩
    · exact Or.inr ((update_of_ne self ..).symm.trans found)
  constructor
  case line => exact ordered.line
  case known =>
    intro entry member
    rcases ordered.known entry member with done | ⟨u, rd, found, same⟩
    · exact Or.inl done
    · have self : u ≠ t := by
        rintro rfl
        rw [idle] at found
        cases found
      exact Or.inr ⟨u, rd, (update_of_ne self ..).trans found, same⟩
  case going =>
    intro u rd' found
    rcases before u rd' found with ⟨-, rfl⟩ | old
    · have none := taken_of_new (fun entry member => fresh _ (ordered.known entry member))
      exact ⟨Nat.lt_succ_self _, none, Nat.zero_add _, List.not_mem_nil⟩
    · obtain ⟨id, taken, count, plain⟩ := ordered.going u rd' old
      exact ⟨Nat.lt_succ_of_lt id, taken, count, plain⟩
  case apart =>
    intro u v rd₁ rd₂ first second same
    rcases before u rd₁ first with ⟨rfl, rfl⟩ | old₁
    · rcases before v rd₂ second with ⟨rfl, -⟩ | old₂
      · rfl
      · exact absurd same (Nat.ne_of_gt (ordered.going v rd₂ old₂).id)
    · rcases before v rd₂ second with ⟨rfl, rfl⟩ | old₂
      · exact absurd same (Nat.ne_of_lt (ordered.going u rd₁ old₁).id)
      · exact ordered.apart u v rd₁ rd₂ old₁ old₂ same
  case done =>
    intro d member
    obtain ⟨ret, finished, notGoing⟩ := ordered.done d member
    refine ⟨ret, finished, ?_⟩
    intro u rd' found
    rcases before u rd' found with ⟨-, rfl⟩ | old
    · exact Nat.ne_of_gt (ordered.older d member)
    · exact notGoing u rd' old
  case older =>
    intro d member
    exact Nat.lt_succ_of_lt (ordered.older d member)
  case once => exact ordered.once
  case eof => exact ordered.eof

def ConsoleOp.Alive : ConsoleOp T → Prop
  | .intr _ => True
  | .read _ _ killed => killed = false
  | .resume _ killed => killed = false

theorem Ordered.step {t : Console T} {op : ConsoleOp T} (ordered : Ordered s)
    (alive : op.Alive) (taken : step s op = some t) : Ordered t := by
  cases op with
  | intr typed =>
    cases taken
    exact ordered.consoleintr typed
  | read u size killed =>
    cases alive
    simp only [ConsoleInput.step] at taken
    split at taken
    · cases taken
    · rename_i idle
      cases taken
      exact (ordered.enter idle size).readSection (update_self ..)
  | resume u killed =>
    cases alive
    simp only [ConsoleInput.step] at taken
    split at taken
    · cases taken
    · rename_i rd mine
      split at taken
      · cases taken
      · cases taken
        exact ordered.readSection mine

omit [DecidableEq T] in
theorem ordered_initial (buf : Fin INPUT_BUF → Uchar) : Ordered (Console.initial T buf) := by
  have line : Line ⟨buf, 0, 0, 0⟩ [] [] := ⟨holds_nil buf 0, rfl, rfl, Nat.zero_le _, fun _ => rfl⟩
  constructor
  case line => exact ⟨[], [], line, rfl⟩
  case once => exact List.nodup_nil
  case known | done | older | eof =>
    intro _ member
    cases member
  case going =>
    intro t rd found
    cases found
  case apart =>
    intro t u rd rd' found
    cases found

/-! ## What the discipline is -/

/-- `r ≤ w ≤ e ≤ r + 128`, counted from `r`, and a full buffer is committed.  What has
been committed is what the reads have taken, in the order in which they took it, and
then what stands in the buffer up to `w`.  Every read has what it took without the `^D`,
and ended at a newline, at its size or at a `^D`.  A read that took a `^D` took nothing
else and returned 0. -/
structure Disciplined (s : Console T) : Prop where
  indices : (s.input.w - s.input.r).toNat ≤ (s.input.e - s.input.r).toNat ∧
    (s.input.e - s.input.r).toNat ≤ INPUT_BUF
  notWedged : s.input.e = s.input.r + BitVec.ofNat 32 INPUT_BUF → s.input.w = s.input.e
  stream : s.committed =
    s.log.map Prod.snd ++ slice s.input.buf s.input.r (s.input.w - s.input.r).toNat
  readers : ∀ entry ∈ s.log, Known s entry.1
  going : ∀ t rd, s.reader t = some rd →
    rd.dst = (taken rd.id s.log).filter (· ≠ ctrl 'D')
  returned : ∀ d ∈ s.done, d.dst = (taken d.id s.log).filter (· ≠ ctrl 'D') ∧
    d.ret = BitVec.ofNat 32 d.dst.length
  ends : ∀ d ∈ s.done, 0 < d.size.toInt → d.dst.getLast? = some newline ∨
    d.dst.length = d.size.toInt.toNat ∨ s.committed[d.stop]? = some (ctrl 'D')
  eof : ∀ id, (id, ctrl 'D') ∈ s.log →
    taken id s.log = [ctrl 'D'] ∧ ∃ d ∈ s.done, d.id = id ∧ d.ret = 0
  once : (s.done.map Read.id).Nodup

theorem filter_plain {c : Uchar} {bytes : List Uchar} (plain : c ∉ bytes) :
    bytes.filter (· ≠ c) = bytes := by
  rw [List.filter_eq_self]
  intro b member
  rw [decide_eq_true_eq]
  rintro rfl
  exact plain member

omit [DecidableEq T] in
theorem Ordered.disciplined (ordered : Ordered s) : Disciplined s := by
  obtain ⟨q, edit, line, stream⟩ := ordered.line
  constructor
  case indices =>
    rw [line.queue_length, line.edit_length]
    exact ⟨by simp, line.bounded⟩
  case notWedged =>
    intro full
    have length := line.edit_length
    rw [full, toNat_offset _ le_rfl] at length
    rw [line.edited_write, line.notWedged length.symm]
    exact (BitVec.add_zero _).symm
  case stream =>
    rw [line.queue_length, line.bytes.take.slice_eq]
    exact stream
  case readers => exact ordered.known
  case going =>
    intro t rd found
    obtain ⟨-, taken, -, plain⟩ := ordered.going t rd found
    rw [taken, filter_plain plain]
  case returned =>
    intro d member
    obtain ⟨ret, ⟨has, -⟩, -⟩ := ordered.done d member
    refine ⟨?_, ret⟩
    rcases has with ⟨taken, plain⟩ | ⟨nothing, taken⟩
    · rw [taken, filter_plain plain]
    · rw [taken, nothing]
      rfl
  case ends =>
    intro d member positive
    exact (ordered.done d member).finished.ends (by omega)
  case eof =>
    intro id member
    obtain ⟨d, finished, rfl, nothing⟩ := ordered.eof id member
    obtain ⟨ret, ⟨has, -⟩, -⟩ := ordered.done d finished
    rw [nothing] at ret has
    refine ⟨?_, d, finished, rfl, ret⟩
    rcases has with ⟨none, -⟩ | ⟨-, taken⟩
    · rw [← mem_taken, none] at member
      cases member
    · exact taken
  case once => exact ordered.once

/-! ## History only grows -/

omit [DecidableEq T] in
theorem typeChar_grows (s : Console T) (c : Uchar) :
    s.committed <+: (typeChar s c).committed ∧ (typeChar s c).log = s.log := by
  unfold typeChar
  split
  · exact ⟨List.prefix_rfl, rfl⟩
  split
  · exact ⟨List.prefix_rfl, rfl⟩
  split
  · split <;> exact ⟨List.prefix_rfl, rfl⟩
  split
  · dsimp only
    generalize (if c = carriageReturn then newline else c) = c
    split
    · exact ⟨List.prefix_append _ _, rfl⟩
    · exact ⟨List.prefix_rfl, rfl⟩
  · exact ⟨List.prefix_rfl, rfl⟩

omit [DecidableEq T] in
theorem consoleintr_grows (s : Console T) (typed : List Uchar) :
    s.committed <+: (consoleintr s typed).committed ∧ (consoleintr s typed).log = s.log := by
  induction typed generalizing s with
  | nil => exact ⟨List.prefix_rfl, rfl⟩
  | cons c typed ih =>
    obtain ⟨first, same⟩ := typeChar_grows s c
    obtain ⟨rest, same'⟩ := ih (typeChar s c)
    exact ⟨first.trans rest, same'.trans same⟩

theorem readLoop_grows (killed : Bool) (id target n : Nat) (h : Hand) :
    h.log <+: (readLoop killed id target n h).1.log := by
  induction n generalizing h with
  | zero => exact List.prefix_rfl
  | succ n ih =>
    rw [readLoop]
    split
    · exact List.prefix_rfl
    dsimp only
    split
    · split
      · exact List.prefix_rfl
      · exact List.prefix_append _ _
    · split
      · exact List.prefix_append _ _
      · refine List.IsPrefix.trans ?_ (ih _)
        exact List.prefix_append _ _

theorem readSection_grows (s : Console T) (t : T) (killed : Bool) (rd : Reader) :
    (readSection s t killed rd).committed = s.committed ∧
      s.log <+: (readSection s t killed rd).log := by
  have grows := readLoop_grows killed rd.id rd.size.toInt.toNat rd.n ⟨s.input, s.log, rd.dst⟩
  simp only [readSection]
  split <;> exact ⟨rfl, grows⟩

theorem step_grows {t : Console T} {op : ConsoleOp T} (taken : step s op = some t) :
    s.committed <+: t.committed ∧ s.log <+: t.log := by
  cases op with
  | intr typed =>
    cases taken
    obtain ⟨grows, same⟩ := consoleintr_grows s typed
    exact ⟨grows, same ▸ List.prefix_rfl⟩
  | read u size killed =>
    simp only [step] at taken
    split at taken
    · cases taken
    · cases taken
      obtain ⟨same, grows⟩ := readSection_grows
        (enter s u ⟨s.calls, size, size.toInt.toNat, []⟩) u killed
        ⟨s.calls, size, size.toInt.toNat, []⟩
      exact ⟨same ▸ List.prefix_rfl, grows⟩
  | resume u killed =>
    simp only [step] at taken
    split at taken
    · cases taken
    · split at taken
      · cases taken
      · cases taken
        obtain ⟨same, grows⟩ := readSection_grows s u killed _
        exact ⟨same ▸ List.prefix_rfl, grows⟩

/-- Readers that are not killed and whatever is typed keep the discipline, and no step
takes back what was committed or read. -/
theorem console_discipline (buf : Fin INPUT_BUF → Uchar) (ops : List (ConsoleOp T))
    (alive : ∀ op ∈ ops, op.Alive) :
    Throughout step Disciplined (Console.initial T buf) ops ∧
      ∀ (s t : Console T) (op : ConsoleOp T), step s op = some t →
        s.committed <+: t.committed ∧ s.log <+: t.log := by
  have kept : ∀ (s : Console T) (op : ConsoleOp T) (t : Console T), Ordered s → op.Alive →
      step s op = some t → Ordered t := by
    intro s op t ordered alive taken
    exact ordered.step alive taken
  refine ⟨?_, fun s t op taken => step_grows taken⟩
  exact throughout_of_along kept (fun _ ordered => ordered.disciplined) ops _
    (ordered_initial buf) (along_of_forall alive _)

end

/-! ## A read that is overtaken -/

/-- Process 0 wants 200 bytes and takes the 128 that fill the buffer.  Process 1 reads
the line after them, and process 0 the next one. -/
def overtaken : List (ConsoleOp (Fin 2)) :=
  [.read 0 200 false, .intr (List.replicate 128 0x61), .resume 0 false, .read 1 10 false,
    .intr [0x78, newline], .resume 1 false, .resume 0 false, .intr [0x79, newline],
    .resume 0 false]

theorem console_discipline_overtaken :
    (∀ op ∈ overtaken, op.Alive) ∧
      Throughout step Disciplined (Console.initial (Fin 2) (fun _ => 0)) overtaken := by
  have alive : ∀ op ∈ overtaken, op.Alive := by
    intro op member
    simp only [overtaken, List.mem_cons, List.not_mem_nil, or_false] at member
    rcases member with rfl | rfl | rfl | rfl | rfl | rfl | rfl | rfl | rfl <;>
      simp [ConsoleOp.Alive]
  exact ⟨alive, (console_discipline _ overtaken alive).1⟩

def splitsStream (s : Console (Fin 2)) : Bool :=
  match s.done with
  | [a, b] =>
    s.input.r = s.input.w ∧ a.dst ++ b.dst ≠ s.committed.filter (· ≠ ctrl 'D') ∧
      b.dst ++ a.dst ≠ s.committed.filter (· ≠ ctrl 'D')
  | _ => false

/-- Both reads have returned, the buffer is empty, and in neither order are the bytes of
the two reads the committed ones. -/
theorem overtaken_read_splits_stream :
    ∃ s a b, run step (Console.initial (Fin 2) (fun _ => 0)) overtaken = some s ∧
      s.done = [a, b] ∧ s.input.r = s.input.w ∧
      a.dst ++ b.dst ≠ s.committed.filter (· ≠ ctrl 'D') ∧
      b.dst ++ a.dst ≠ s.committed.filter (· ≠ ctrl 'D') := by
  have checked : (run step (Console.initial (Fin 2) (fun _ => 0)) overtaken).map splitsStream =
      some true := by decide +kernel
  obtain ⟨s, reached, splits⟩ := Option.map_eq_some_iff.mp checked
  unfold splitsStream at splits
  split at splits
  · rename_i a b done
    exact ⟨s, a, b, reached, done, of_decide_eq_true splits⟩
  · cases splits

end Xv6Tracing.ConsoleInput
