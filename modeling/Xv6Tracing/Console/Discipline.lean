import Xv6Tracing.Console.Input

/-!
# The line discipline

Between `r` and `w` the buffer holds the committed bytes that no read has taken yet,
between `w` and `e` the line that is being typed.  Editing moves `e` within its part;
a full buffer is always committed.  Each read keeps what it took, and a `^D` ends the
read that sees it: it stays in the buffer unless the read has nothing to return.
-/

set_option autoImplicit false

namespace Xv6Tracing.ConsoleInput

open Lib

theorem input_buf_divides : INPUT_BUF ∣ 2 ^ 32 := by decide

/-! ## The buffer -/

/-- The buffer holds the committed bytes `q` and then the line `edit`. -/
structure Line (input : Input) (q edit : List Uchar) : Prop where
  bytes : Holds input.buf input.r (q ++ edit)
  write : input.w = input.r + BitVec.ofNat 32 q.length
  edited : input.e = input.r + BitVec.ofNat 32 (q ++ edit).length
  bounded : (q ++ edit).length ≤ INPUT_BUF
  notWedged : (q ++ edit).length = INPUT_BUF → edit = []

theorem toNat_offset (i : BitVec 32) {k : Nat} (small : k ≤ INPUT_BUF) :
    (i + BitVec.ofNat 32 k - i).toNat = k := by
  have fits : k < 2 ^ 32 := lt_of_le_of_lt small (by decide)
  rw [BitVec.add_comm, BitVec.add_sub_cancel, BitVec.toNat_ofNat]
  exact Nat.mod_eq_of_lt fits

section

variable {input : Input} {q edit : List Uchar}

section

variable (line : Line input q edit)

include line

theorem Line.edit_length :
    (input.e - input.r).toNat = (q ++ edit).length := by
  rw [line.edited]
  exact toNat_offset _ line.bounded

theorem Line.queue_length : (input.w - input.r).toNat = q.length := by
  have shorter : q.length ≤ (q ++ edit).length := by simp
  rw [line.write]
  exact toNat_offset _ (shorter.trans line.bounded)

theorem Line.edited_write :
    input.e = input.w + BitVec.ofNat 32 edit.length := by
  rw [line.edited, line.write, List.length_append, BitVec.ofNat_add, BitVec.add_assoc]

theorem Line.edit_ne_nil (more : input.e ≠ input.w) : edit ≠ [] := by
  rintro rfl
  apply more
  rw [line.edited_write]
  exact BitVec.add_zero _

theorem Line.backspace (more : input.e ≠ input.w) :
    ∃ edit', Line { input with e := input.e - 1 } q edit' := by
  obtain ⟨edit', last, rfl⟩ := (List.eq_nil_or_concat' edit).resolve_left (line.edit_ne_nil more)
  have length : (q ++ (edit' ++ [last])).length = (q ++ edit').length + 1 := by
    simp only [List.length_append, List.length_singleton]
    omega
  have bounded := line.bounded
  refine ⟨edit', ?_, line.write, ?_, by omega, by omega⟩
  · have bytes := line.bytes
    rw [← List.append_assoc] at bytes
    exact bytes.take
  · change input.e - 1 = _
    rw [line.edited, length, BitVec.ofNat_add, ← BitVec.add_assoc]
    exact BitVec.add_sub_cancel _ _

end

theorem killLine_line (k : Nat) {input : Input} {q edit : List Uchar} (line : Line input q edit) :
    ∃ edit', Line (killLine k input) q edit' := by
  induction k generalizing input edit with
  | zero => exact ⟨edit, line⟩
  | succ k ih =>
    rw [killLine]
    split
    · rename_i more
      obtain ⟨edit', shorter⟩ := line.backspace more.1
      exact ih shorter
    · exact ⟨edit, line⟩

section

variable (line : Line input q edit)

include line

theorem Line.room
    (room : input.e - input.r < BitVec.ofNat 32 INPUT_BUF) : (q ++ edit).length < INPUT_BUF := by
  rw [← line.edit_length]
  exact room

theorem Line.push
    (room : input.e - input.r < BitVec.ofNat 32 INPUT_BUF) (c : Uchar) :
    Holds (input.put c).buf input.r (q ++ (edit ++ [c])) ∧
      (input.put c).e = input.r + BitVec.ofNat 32 (q ++ (edit ++ [c])).length ∧
      (q ++ (edit ++ [c])).length ≤ INPUT_BUF := by
  have space := line.room room
  rw [← List.append_assoc]
  refine ⟨?_, ?_, ?_⟩
  · have pushed := line.bytes.push input_buf_divides space c
    rwa [← line.edited] at pushed
  · rw [List.length_append, List.length_singleton, BitVec.ofNat_add, ← BitVec.add_assoc,
      ← line.edited]
    rfl
  · rw [List.length_append, List.length_singleton]
    exact space

theorem Line.put
    (room : input.e - input.r < BitVec.ofNat 32 INPUT_BUF) {c : Uchar}
    (notFull : (input.put c).e ≠ input.r + BitVec.ofNat 32 INPUT_BUF) :
    Line (input.put c) q (edit ++ [c]) := by
  obtain ⟨bytes, edited, bounded⟩ := line.push room c
  refine ⟨bytes, line.write, edited, bounded, ?_⟩
  intro full
  rw [edited, full] at notFull
  exact absurd rfl notFull

theorem Line.commit
    (room : input.e - input.r < BitVec.ofNat 32 INPUT_BUF) (c : Uchar) :
    Line { input.put c with w := (input.put c).e } (q ++ (edit ++ [c])) [] ∧
      slice (input.put c).buf (input.put c).w ((input.put c).e - (input.put c).w).toNat =
        edit ++ [c] := by
  obtain ⟨bytes, edited, bounded⟩ := line.push room c
  constructor
  · refine ⟨?_, edited, ?_, ?_, fun _ => rfl⟩
    · rwa [List.append_nil]
    · rwa [List.append_nil]
    · rwa [List.append_nil]
  · have added : (input.put c).e = input.w + BitVec.ofNat 32 (edit ++ [c]).length := by
      rw [edited, line.write, List.length_append, BitVec.ofNat_add, BitVec.add_assoc]
    have shorter : (edit ++ [c]).length ≤ INPUT_BUF := by
      have split : (q ++ (edit ++ [c])).length = q.length + (edit ++ [c]).length :=
        List.length_append
      omega
    have typed := bytes.drop
    rw [← line.write] at typed
    change slice (input.put c).buf input.w ((input.put c).e - input.w).toNat = edit ++ [c]
    rw [added, toNat_offset _ shorter]
    exact typed.slice_eq

end

theorem Line.next {b : Uchar} (line : Line input (b :: q) edit) :
    input.buf (cell INPUT_BUF input.r) = b ∧ Line { input with r := input.r + 1 } q edit := by
  have length : (b :: q ++ edit).length = (q ++ edit).length + 1 := by simp
  have bounded := line.bounded
  refine ⟨line.bytes.head, line.bytes.tail, ?_, ?_, by omega, by omega⟩
  · have write := line.write
    rwa [List.length_cons, Nat.add_comm, BitVec.ofNat_add, ← BitVec.add_assoc] at write
  · have edited := line.edited
    rwa [length, Nat.add_comm, BitVec.ofNat_add, ← BitVec.add_assoc] at edited

end

/-! ## One read -/

/-- The bytes that the read `id` has taken, in order. -/
def taken (id : Nat) (log : List (Nat × Uchar)) : List Uchar :=
  (log.filter fun entry => entry.1 == id).map Prod.snd

theorem taken_append_self (id : Nat) (log : List (Nat × Uchar)) (new : List Uchar) :
    taken id (log ++ new.map (Prod.mk id)) = taken id log ++ new := by
  simp [taken, List.filter_append, List.filter_map, Function.comp_def]

variable {id target : Nat} {q edit committed : List Uchar} {h : Hand}

theorem taken_append_other {other : Nat} (differs : other ≠ id) (log : List (Nat × Uchar))
    (new : List Uchar) : taken other (log ++ new.map (Prod.mk id)) = taken other log := by
  have apart : ¬ id = other := fun same => differs same.symm
  simp [taken, List.filter_append, List.filter_map, Function.comp_def, apart]

theorem taken_of_new {log : List (Nat × Uchar)} (older : ∀ entry ∈ log, entry.1 < id) :
    taken id log = [] := by
  have none : log.filter (fun entry => entry.1 == id) = [] := by
    rw [List.filter_eq_nil_iff]
    intro entry member same
    have := older entry member
    rw [beq_iff_eq] at same
    omega
  rw [taken, none]
  rfl

theorem mem_taken {c : Uchar} {log : List (Nat × Uchar)} :
    c ∈ taken id log ↔ (id, c) ∈ log := by
  simp [taken]

/-- A read that is going on has what it took, and `n` bytes to go. -/
structure Holding (committed : List Uchar) (id target n : Nat) (h : Hand) (q edit : List Uchar) :
    Prop where
  line : Line h.input q edit
  stream : committed = h.log.map Prod.snd ++ q
  taken : taken id h.log = h.dst
  count : h.dst.length + n = target
  plain : ctrl 'D' ∉ h.dst

/-- A read that is over has what it took, or it took a `^D` and has nothing.  It ended
at a newline, with as many bytes as it wanted, or at a `^D`. -/
structure Over (committed : List Uchar) (log : List (Nat × Uchar)) (id target : Nat)
    (dst : List Uchar) (stop : Nat) : Prop where
  taken : taken id log = dst ∧ ctrl 'D' ∉ dst ∨ dst = [] ∧ taken id log = [ctrl 'D']
  ends : 0 < target → dst.getLast? = some newline ∨ dst.length = target ∨
    committed[stop]? = some (ctrl 'D')

def Ends (committed : List Uchar) (id target : Nat) (q edit : List Uchar) (h : Hand) :
    Outcome → Prop
  | .sleeps n => Holding committed id target n h q edit
  | .returns n stop => h.dst.length + n = target ∧ Over committed h.log id target h.dst stop
  | .killed => False

structure Reads (committed : List Uchar) (id target : Nat) (edit : List Uchar)
    (log : List (Nat × Uchar)) (result : Hand × Outcome) (q new : List Uchar) : Prop where
  line : Line result.1.input q edit
  stream : committed = result.1.log.map Prod.snd ++ q
  grown : result.1.log = log ++ new.map (Prod.mk id)
  ends : Ends committed id target q edit result.1 result.2

theorem Holding.copy {n : Nat} {c : Uchar} (holding : Holding committed id target (n + 1) h (c :: q) edit)
    (plain : c ≠ ctrl 'D') :
    Holding committed id target n
      ⟨{ h.input with r := h.input.r + 1 }, h.log ++ [(id, c)], h.dst ++ [c]⟩ q edit where
  line := holding.line.next.2
  stream := by
    rw [holding.stream, List.map_append, List.append_assoc]
    rfl
  taken := by
    rw [← holding.taken]
    exact taken_append_self id h.log [c]
  count := by
    have count := holding.count
    rw [List.length_append, List.length_singleton]
    omega
  plain := by grind [Holding]

/-- A `^D` is put back by a read that has something to return, and taken by one that
has nothing. -/
theorem Holding.atEof {n : Nat} (holding : Holding committed id target (n + 1) h (ctrl 'D' :: q) edit) :
    committed[h.log.length]? = some (ctrl 'D') ∧
      Over committed h.log id target h.dst h.log.length ∧
      (¬ n + 1 < target →
        Over committed (h.log ++ [(id, ctrl 'D')]) id target h.dst h.log.length) := by
  have seen : committed[h.log.length]? = some (ctrl 'D') := by
    rw [holding.stream, List.getElem?_append_right (by simp)]
    simp
  refine ⟨seen, ⟨Or.inl ⟨holding.taken, holding.plain⟩, fun _ => Or.inr (Or.inr seen)⟩, ?_⟩
  intro first
  have count := holding.count
  have nothing : h.dst = [] := by
    apply List.length_eq_zero_iff.mp
    omega
  refine ⟨Or.inr ⟨nothing, ?_⟩, fun _ => Or.inr (Or.inr seen)⟩
  have both := taken_append_self id h.log [ctrl 'D']
  rw [holding.taken, nothing] at both
  exact both

theorem readLoop_reads (n : Nat) (holding : Holding committed id target n h q edit) :
    ∃ q' new, Reads committed id target edit h.log (readLoop false id target n h) q' new := by
  induction n generalizing h q with
  | zero =>
    have count : h.dst.length = target := holding.count
    have finished : Over committed h.log id target h.dst h.log.length :=
      ⟨Or.inl ⟨holding.taken, holding.plain⟩, fun _ => Or.inr (Or.inl count)⟩
    exact ⟨q, [], holding.line, holding.stream, by simp [readLoop], holding.count, finished⟩
  | succ n ih =>
    rw [readLoop]
    split
    · exact ⟨q, [], holding.line, holding.stream, by simp, holding⟩
    · rename_i some
      cases q with
      | nil => exact absurd (holding.line.write.trans (BitVec.add_zero _)).symm some
      | cons c q =>
        obtain ⟨here, next⟩ := holding.line.next
        dsimp only
        rw [here]
        split
        · rename_i eof
          subst eof
          obtain ⟨seen, back, first⟩ := holding.atEof
          split
          · refine ⟨ctrl 'D' :: q, [], ?_, holding.stream, by simp, holding.count, back⟩
            rw [BitVec.add_sub_cancel]
            exact holding.line
          · rename_i only
            refine ⟨q, [ctrl 'D'], next, ?_, rfl, holding.count, first only⟩
            rw [holding.stream, List.map_append, List.append_assoc]
            rfl
        · rename_i plain
          have copied := holding.copy plain
          split
          · rename_i line
            have finished : Over committed (h.log ++ [(id, c)]) id target (h.dst ++ [c])
                (h.log ++ [(id, c)]).length :=
              ⟨Or.inl ⟨copied.taken, copied.plain⟩, fun _ => Or.inl (by simp [line])⟩
            exact ⟨q, [c], copied.line, copied.stream, rfl, copied.count, finished⟩
          · obtain ⟨q', new, reads⟩ := ih copied
            refine ⟨q', c :: new, reads.line, reads.stream, ?_, reads.ends⟩
            rw [reads.grown, List.append_assoc]
            rfl

end Xv6Tracing.ConsoleInput
