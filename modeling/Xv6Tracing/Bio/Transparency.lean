import Xv6Tracing.Bio.Cache

/-!
# The buffer cache is transparent

Whatever is evicted in between, `bread` returns what was last written to the block.
A buffer that differs from the disk is dirty, and a dirty buffer is not evicted; the
blocks of two buffers differ because `bget` walks along all of the list before it
recycles a buffer.
-/

set_option autoImplicit false

namespace Xv6Tracing.Bio

open Function (update update_eq_self update_of_ne update_self)

open Lib

universe u

variable {R : Type u} {D : Type} {s t : Bcache R D}

def Listed (links : Links (Fin NBUF)) : Prop :=
  ∃ l, l.Perm (List.finRange NBUF) ∧ Ring links l

def Dirtied (s : Bcache R D) (b : Fin NBUF) : Prop := ∃ r, (s.pc r).dirtied = some b

/-- What the cache promises.  A buffer in use or dirty keeps its block; `bget` runs
out of buffers only when there is no other one; and a caller that has called `bread`
for a block of the disk sees what was last written to it. -/
structure Transparent [DecidableEq R] (s : Bcache R D) : Prop where
  unique : ∀ a b, (s.buf a).dev = 1 → (s.buf b).dev = 1 →
    (s.buf a).blockno = (s.buf b).blockno → a = b
  kept : ∀ op t, step s op = some t → ∀ b, 0 < (s.buf b).refcnt ∨ (s.buf b).dirty = true →
    (t.buf b).dev = (s.buf b).dev ∧ (t.buf b).blockno = (s.buf b).blockno
  list : Listed s.links
  full : ∀ r dev blockno, s.pc r = .none → step s (.bget r dev blockno) = none →
    ∀ b, 0 < (s.buf b).refcnt ∨ (s.buf b).dirty = true
  reads : ∀ r b dev blockno, s.pc r = .holding b dev blockno →
    dev = 1 ∧ (s.buf b).dev = dev ∧ (s.buf b).blockno = blockno ∧
      (s.buf b).data = s.written blockno

structure Sound [Fintype R] (s : Bcache R D) : Prop where
  list : Listed s.links
  refcnt : ∀ b, (s.buf b).refcnt = countP (fun pc : Pc => pc.entry = some b) s.pc
  asked : ∀ r b dev blockno, (s.pc r).asked = some (b, dev, blockno) →
    (s.buf b).dev = dev ∧ (s.buf b).blockno = blockno
  unique : ∀ a b, (s.buf a).dev = 1 → (s.buf b).dev = 1 →
    (s.buf a).blockno = (s.buf b).blockno → a = b
  lock : ∀ r b, (s.pc r).lock = some b → (s.buf b).locked = true
  holder : ∀ q r b, (s.pc q).lock = some b → (s.pc r).lock = some b → q = r
  loaded : ∀ r b dev blockno, s.pc r = .holding b dev blockno ∨ s.pc r = .changed b dev blockno →
    (s.buf b).valid = true
  valid : ∀ b, (s.buf b).valid = true → (s.buf b).dev = 1
  dirty : ∀ b, (s.buf b).dirty = true → (s.buf b).valid = true
  agree : ∀ b, (s.buf b).valid = true → ¬ Dirtied s b →
    (s.buf b).data = s.written (s.buf b).blockno
  stored : ∀ blockno, s.disk blockno ≠ s.written blockno →
    ∃ b, (s.buf b).dirty = true ∧ (s.buf b).blockno = blockno

theorem listed_binit (disksize : Nat) (disk : Nat → D) (zero : D) :
    Listed (binit R disksize disk zero).links := by
  have all : ∀ (l done : List (Fin NBUF)) (links : Links (Fin NBUF)), Ring links done →
      (done ++ l).Nodup → Ring (l.foldl Links.pushFront links) (l.reverse ++ done) := by
    intro l
    induction l with
    | nil => intro done links ring _; simpa using ring
    | cons b l ih =>
      intro done links ring nodup
      have absent : b ∉ done := by
        intro member
        exact (List.nodup_append'.mp nodup).2.2 member (by simp)
      have rest := ih (b :: done) (links.pushFront b) (ring.pushFront absent)
        (List.nodup_middle.mp nodup)
      simpa using rest
  refine ⟨(List.finRange NBUF).reverse, List.reverse_perm _, ?_⟩
  simpa [binit] using all (List.finRange NBUF) [] Links.empty ring_empty
    (by simpa using List.nodup_finRange NBUF)

variable {l : List (Fin NBUF)} {pc : Pc}

theorem Listed.mem (perm : l.Perm (List.finRange NBUF)) (b : Fin NBUF) :
    b ∈ l := perm.mem_iff.mpr (List.mem_finRange b)

theorem Listed.move {links : Links (Fin NBUF)} (listed : Listed links) (b : Fin NBUF) :
    Listed ((links.unlink b).pushFront b) := by
  obtain ⟨l, perm, ring⟩ := listed
  obtain ⟨l₁, l₂, rfl⟩ := List.append_of_mem (Listed.mem perm b)
  have absent : b ∉ l₁ ++ l₂ := by simpa using ring.not_mem
  exact ⟨b :: (l₁ ++ l₂), List.perm_middle.symm.trans perm, ring.unlink.pushFront absent⟩

theorem Listed.length (perm : l.Perm (List.finRange NBUF)) :
    l.length < NBUF + 1 := by
  rw [perm.length_eq, List.length_finRange]
  omega

variable {b : Fin NBUF} {dev blockno : Nat} {r : R}

theorem lookup_spec (found : lookup s dev blockno = some b) :
    (s.buf b).dev = dev ∧ (s.buf b).blockno = blockno := by
  simpa [lookup] using List.find?_some found

theorem lookup_none (listed : Listed s.links)
    (missing : lookup s dev blockno = none) (b : Fin NBUF) :
    ¬ ((s.buf b).dev = dev ∧ (s.buf b).blockno = blockno) := by
  obtain ⟨l, perm, ring⟩ := listed
  rw [lookup, ring.walk_next (Listed.length perm)] at missing
  simpa using List.find?_eq_none.mp missing b (Listed.mem perm b)

theorem victim_spec (found : victim s = some b) :
    (s.buf b).refcnt = 0 ∧ (s.buf b).dirty = false := by
  simpa [victim] using List.find?_some found

theorem victim_none (listed : Listed s.links) (missing : victim s = none) (b : Fin NBUF) :
    0 < (s.buf b).refcnt ∨ (s.buf b).dirty = true := by
  obtain ⟨l, perm, ring⟩ := listed
  rw [victim, ring.walk_prev (Listed.length perm)] at missing
  have := List.find?_eq_none.mp missing b (List.mem_reverse.mpr (Listed.mem perm b))
  simp only [decide_eq_true_eq, not_and, Bool.not_eq_false] at this
  rcases Nat.eq_zero_or_pos (s.buf b).refcnt with zero | positive
  · exact Or.inr (this zero)
  · exact Or.inl positive

/-! ## The steps -/

theorem lock_of_dirtied (dirtied : pc.dirtied = some b) :
    pc.lock = some b := by
  cases pc <;> simp_all [Pc.dirtied, Pc.lock]

theorem entry_of_asked (asked : pc.asked = some (b, dev, blockno)) : pc.entry = some b := by
  cases pc <;> simp_all [Pc.asked, Pc.entry]

theorem iderw_cases (done : iderw s b = some t) :
    (s.buf b).dev = 1 ∧
      ((s.buf b).dirty = true ∧
        t = { s.setBuf b { s.buf b with dirty := false, valid := true } with
          disk := update s.disk (s.buf b).blockno (s.buf b).data } ∨
      (s.buf b).dirty = false ∧
        t = s.setBuf b { s.buf b with data := s.disk (s.buf b).blockno, valid := true }) := by
  simp only [iderw] at done
  split_ifs at done with h₁ h₂ dev h₄ dirty
  · cases done
    exact ⟨not_not.mp dev, Or.inl ⟨dirty, rfl⟩⟩
  · cases done
    exact ⟨not_not.mp dev, Or.inr ⟨by simpa using dirty, rfl⟩⟩

variable [Fintype R]

theorem Sound.refcnt_pos (sound : Sound s)
    (here : (s.pc r).entry = some b) : 0 < (s.buf b).refcnt := by
  rw [sound.refcnt]
  exact countP_pos (p := r) here

theorem Sound.not_dirtied (sound : Sound s)
    (here : (s.pc r).lock = some b) (clean : (s.pc r).dirtied = none) : ¬ Dirtied s b := by
  rintro ⟨q, dirtied⟩
  cases sound.holder q r b (lock_of_dirtied dirtied) here
  rw [dirtied] at clean
  cases clean

/-- A block without a dirty buffer is on disk as it was last written. -/
theorem Sound.on_disk (sound : Sound s) (dev : (s.buf b).dev = 1)
    (clean : (s.buf b).dirty = false) : s.disk (s.buf b).blockno = s.written (s.buf b).blockno := by
  by_contra differs
  obtain ⟨a, dirty, same⟩ := sound.stored _ differs
  rw [sound.unique a b (sound.valid a (sound.dirty a dirty)) dev same, clean] at dirty
  cases dirty

theorem Sound.stored_of_kept (sound : Sound s) (disk : t.disk = s.disk)
    (written : t.written = s.written)
    (kept : ∀ b, (s.buf b).dirty = true →
      (t.buf b).dirty = true ∧ (t.buf b).blockno = (s.buf b).blockno)
    (blockno : Nat) (differs : t.disk blockno ≠ t.written blockno) :
    ∃ b, (t.buf b).dirty = true ∧ (t.buf b).blockno = blockno := by
  rw [disk, written] at differs
  obtain ⟨b, dirty, same⟩ := sound.stored blockno differs
  exact ⟨b, (kept b dirty).1, (kept b dirty).2.trans same⟩

variable [DecidableEq R]

section Update

variable {r : R} {pc : Pc} (pcs : t.pc = Function.update s.pc r pc)

include pcs

omit [Fintype R] in
theorem dirtied_iff (same : (s.pc r).dirtied = pc.dirtied) (b : Fin NBUF) :
    Dirtied t b ↔ Dirtied s b := by
  rw [Dirtied, pcs]
  exact exists_update_same (fun pc : Pc => pc.dirtied = some b) (by rw [same])

variable {b : Fin NBUF} {dev blockno : Nat} {bp : Buf D}

omit [Fintype R] in
theorem dirtied_others (here : (s.pc r).lock = some b) (c : Fin NBUF)
    (other : c ≠ b) : Dirtied s c → Dirtied t c := by
  rintro ⟨q, dirtied⟩
  refine ⟨q, ?_⟩
  rw [pcs, update_of_ne]
  · exact dirtied
  · rintro rfl
    have := lock_of_dirtied dirtied
    rw [here] at this
    exact other (Option.some.inj this).symm

section

variable (sound : Sound s)

include sound

/-- A caller that got no buffer, and buffers that hold the blocks they held. -/
theorem Sound.asked_of_kept
    (same : ∀ x, pc.asked = some x → (s.pc r).asked = some x)
    (kept : ∀ b, (t.buf b).dev = (s.buf b).dev ∧ (t.buf b).blockno = (s.buf b).blockno)
    (q : R) (b : Fin NBUF) (dev blockno : Nat) (asked : (t.pc q).asked = some (b, dev, blockno)) :
    (t.buf b).dev = dev ∧ (t.buf b).blockno = blockno := by
  rw [(kept b).1, (kept b).2]
  rcases update_cases pcs q with ⟨rfl, now⟩ | ⟨-, now⟩
  · rw [now] at asked
    exact sound.asked q b dev blockno (same _ asked)
  · rw [now] at asked
    exact sound.asked q b dev blockno asked

theorem sound_of_found
    (before : s.pc r = .none) (after : pc = .waiting b dev blockno)
    (bufs : t.buf = update s.buf b bp)
    (more : bp = { s.buf b with refcnt := (s.buf b).refcnt + 1 })
    (found : (s.buf b).dev = dev ∧ (s.buf b).blockno = blockno) (links : t.links = s.links)
    (disk : t.disk = s.disk) (written : t.written = s.written) : Sound t := by
  have dirtied := dirtied_iff pcs (by rw [before, after]; rfl)
  have cases := update_cases pcs
  have entries := update_cases bufs
  exact {
    list := by rw [links]; exact sound.list
    refcnt := by
      intro c
      rw [references_add pcs (b := b) (by rw [before]; rfl) (by rw [after]; rfl)]
      grind [Sound]
    asked := by grind [Sound, Pc.asked]
    unique := by grind [Sound]
    lock := by grind [Sound, Pc.lock]
    holder := by grind [Sound, Pc.lock]
    loaded := by grind [Sound]
    valid := by grind [Sound]
    dirty := by grind [Sound]
    agree := by grind [Sound]
    stored := sound.stored_of_kept disk written (by grind) }

theorem sound_of_recycled
    (before : s.pc r = .none) (after : pc = .waiting b dev blockno)
    (bufs : t.buf = update s.buf b bp)
    (new : bp = { s.buf b with
      dev := dev, blockno := blockno, valid := false, dirty := false, refcnt := 1 })
    (unused : (s.buf b).refcnt = 0) (clean : (s.buf b).dirty = false)
    (missing : ∀ a, ¬ ((s.buf a).dev = dev ∧ (s.buf a).blockno = blockno))
    (links : t.links = s.links) (disk : t.disk = s.disk) (written : t.written = s.written) :
    Sound t := by
  have dirtied := dirtied_iff pcs (by rw [before, after]; rfl)
  have nobody : ∀ q, (s.pc q).entry ≠ some b := by
    intro q here
    have := sound.refcnt_pos here
    omega
  have cases := update_cases pcs
  have entries := update_cases bufs
  exact {
    list := by rw [links]; exact sound.list
    refcnt := by
      intro c
      rw [references_add pcs (b := b) (by rw [before]; rfl) (by rw [after]; rfl)]
      grind [Sound]
    asked := by grind [Sound, Pc.asked, entry_of_asked]
    unique := by grind [Sound]
    lock := by grind [Sound, Pc.lock, Pc.entry]
    holder := by grind [Sound, Pc.lock]
    loaded := by grind [Sound, Pc.entry]
    valid := by grind [Sound]
    dirty := by grind [Sound]
    agree := by grind [Sound]
    stored := sound.stored_of_kept disk written (by grind) }

theorem sound_of_acquired
    (before : s.pc r = .waiting b dev blockno) (after : pc = .loading b dev blockno)
    (bufs : t.buf = update s.buf b bp) (taken : bp = { s.buf b with locked := true })
    (free : (s.buf b).locked = false) (links : t.links = s.links)
    (disk : t.disk = s.disk) (written : t.written = s.written) : Sound t := by
  have dirtied := dirtied_iff pcs (by rw [before, after]; rfl)
  have cases := update_cases pcs
  have entries := update_cases bufs
  exact {
    list := by rw [links]; exact sound.list
    refcnt := by
      intro c
      rw [references_same pcs (by rw [before, after]; rfl)]
      grind [Sound]
    asked := sound.asked_of_kept pcs (by simp [before, after, Pc.asked]) (by grind)
    unique := by grind [Sound]
    lock := by grind [Sound, Pc.lock]
    holder := by grind [Sound, Pc.lock]
    loaded := by grind [Sound]
    valid := by grind [Sound]
    dirty := by grind [Sound]
    agree := by grind [Sound]
    stored := sound.stored_of_kept disk written (by grind) }

theorem sound_of_loaded
    (before : s.pc r = .loading b dev blockno) (after : pc = .holding b dev blockno)
    (bufs : t.buf = update s.buf b bp)
    (read : bp = s.buf b ∧ (s.buf b).valid = true ∨
      bp = { s.buf b with data := s.disk (s.buf b).blockno, valid := true } ∧
        (s.buf b).dev = 1 ∧ (s.buf b).dirty = false)
    (links : t.links = s.links) (disk : t.disk = s.disk) (written : t.written = s.written) :
    Sound t := by
  have dirtied := dirtied_iff pcs (by rw [before, after]; rfl)
  have fresh : (s.buf b).dev = 1 → (s.buf b).dirty = false →
      s.disk (s.buf b).blockno = s.written (s.buf b).blockno := sound.on_disk
  have cases := update_cases pcs
  have entries := update_cases bufs
  exact {
    list := by rw [links]; exact sound.list
    refcnt := by
      intro c
      rw [references_same pcs (by rw [before, after]; rfl)]
      grind [Sound]
    asked := sound.asked_of_kept pcs (by simp [before, after, Pc.asked]) (by grind)
    unique := by grind [Sound]
    lock := by grind [Sound, Pc.lock]
    holder := by grind [Sound, Pc.lock]
    loaded := by grind [Sound]
    valid := by grind [Sound]
    dirty := by grind [Sound]
    agree := by grind [Sound]
    stored := sound.stored_of_kept disk written (by grind) }

theorem sound_of_change {data : D}
    (before : s.pc r = .holding b dev blockno ∨ s.pc r = .changed b dev blockno)
    (after : pc = .changed b dev blockno) (bufs : t.buf = update s.buf b bp)
    (wrote : bp = { s.buf b with data := data }) (links : t.links = s.links)
    (disk : t.disk = s.disk) (written : t.written = s.written) : Sound t := by
  have shape : (s.pc r).entry = some b ∧ (s.pc r).lock = some b ∧
      (s.pc r).asked = some (b, dev, blockno) := by
    rcases before with here | here <;> rw [here] <;> exact ⟨rfl, rfl, rfl⟩
  have mine : Dirtied t b := ⟨r, by rw [pcs, update_self, after]; rfl⟩
  have others := dirtied_others pcs shape.2.1
  have cases := update_cases pcs
  have entries := update_cases bufs
  exact {
    list := by rw [links]; exact sound.list
    refcnt := by
      intro c
      rw [references_same pcs (by rw [shape.1, after]; rfl)]
      grind [Sound]
    asked := sound.asked_of_kept pcs (fun x asked => by
      rw [after] at asked
      exact shape.2.2.trans asked) (by grind)
    unique := by grind [Sound]
    lock := by grind [Sound, Pc.lock]
    holder := by grind [Sound, Pc.lock]
    loaded := by grind [Sound]
    valid := by grind [Sound]
    dirty := by grind [Sound]
    agree := by grind [Sound]
    stored := sound.stored_of_kept disk written (by grind) }

/-- `bwrite` or `log_write`: the data are the last written, and they are on the disk or
the buffer is dirty. -/
theorem sound_of_written
    (before : s.pc r = .holding b dev blockno ∨ s.pc r = .changed b dev blockno)
    (after : pc = .holding b dev blockno) (bufs : t.buf = update s.buf b bp)
    (marked : bp = { s.buf b with dirty := bp.dirty, valid := true })
    (links : t.links = s.links)
    (disk : t.disk = s.disk ∧ bp.dirty = true ∨
      t.disk = update s.disk (s.buf b).blockno (s.buf b).data)
    (written : t.written = update s.written (s.buf b).blockno (s.buf b).data) :
    Sound t := by
  have shape : (s.pc r).entry = some b ∧ (s.pc r).lock = some b ∧
      (s.pc r).asked = some (b, dev, blockno) := by
    rcases before with here | here <;> rw [here] <;> exact ⟨rfl, rfl, rfl⟩
  have others := dirtied_others pcs shape.2.1
  have valid := sound.loaded r b dev blockno before
  have own : t.written (s.buf b).blockno = (s.buf b).data := by rw [written, update_self]
  have cases := update_cases pcs
  have entries := update_cases bufs
  exact {
    list := by rw [links]; exact sound.list
    refcnt := by
      intro c
      rw [references_same pcs (by rw [shape.1, after]; rfl)]
      grind [Sound]
    asked := sound.asked_of_kept pcs (fun x asked => by
      rw [after] at asked
      exact shape.2.2.trans asked) (by grind)
    unique := by grind [Sound]
    lock := by grind [Sound, Pc.lock]
    holder := by grind [Sound, Pc.lock]
    loaded := by grind [Sound]
    valid := by grind [Sound]
    dirty := by grind [Sound]
    agree := by
      intro c validC clean
      rcases entries c with ⟨rfl, now⟩ | ⟨other, now⟩
      · rw [now, marked]
        exact own.symm
      · rw [now] at validC ⊢
        have apart : (s.buf c).blockno ≠ (s.buf b).blockno := fun same =>
          other (sound.unique c b (sound.valid c validC) (sound.valid b valid) same)
        rw [written, update_of_ne apart]
        exact sound.agree c validC fun dirtied => clean (others c other dirtied)
    stored := by
      intro n differs
      by_cases here : n = (s.buf b).blockno
      · subst here
        rcases disk with ⟨-, dirty⟩ | disk
        · refine ⟨b, ?_⟩
          rw [bufs, update_self, marked]
          exact ⟨dirty, rfl⟩
        · rw [disk, update_self, own] at differs
          exact absurd rfl differs
      · have same : t.disk n = s.disk n := by
          rcases disk with ⟨disk, -⟩ | disk
          · rw [disk]
          · rw [disk, update_of_ne here]
        rw [same, written, update_of_ne here] at differs
        obtain ⟨a, dirty, block⟩ := sound.stored n differs
        have other : a ≠ b := by
          rintro rfl
          exact here block.symm
        refine ⟨a, ?_⟩
        rw [bufs, update_of_ne other]
        exact ⟨dirty, block⟩ }

theorem sound_of_released
    (before : s.pc r = .holding b dev blockno) (after : pc = .released b)
    (bufs : t.buf = update s.buf b bp) (freed : bp = { s.buf b with locked := false })
    (links : t.links = s.links) (disk : t.disk = s.disk) (written : t.written = s.written) :
    Sound t := by
  have dirtied := dirtied_iff pcs (by rw [before, after]; rfl)
  have cases := update_cases pcs
  have entries := update_cases bufs
  exact {
    list := by rw [links]; exact sound.list
    refcnt := by
      intro c
      rw [references_same pcs (by rw [before, after]; rfl)]
      grind [Sound]
    asked := sound.asked_of_kept pcs (by simp [before, after, Pc.asked]) (by grind)
    unique := by grind [Sound]
    lock := by grind [Sound, Pc.lock]
    holder := by grind [Sound, Pc.lock]
    loaded := by grind [Sound]
    valid := by grind [Sound]
    dirty := by grind [Sound]
    agree := by grind [Sound]
    stored := sound.stored_of_kept disk written (by grind) }

theorem sound_of_brelse (before : s.pc r = .released b) (after : pc = .none)
    (bufs : t.buf = update s.buf b bp)
    (less : bp = { s.buf b with refcnt := (s.buf b).refcnt - 1 }) (links : Listed t.links)
    (disk : t.disk = s.disk) (written : t.written = s.written) : Sound t := by
  have dirtied := dirtied_iff pcs (by rw [before, after]; rfl)
  have cases := update_cases pcs
  have entries := update_cases bufs
  exact {
    list := links
    refcnt := by
      intro c
      have count := references_drop pcs (show (s.pc r).entry = some b by rw [before]; rfl)
        (by rw [after]; rfl) c
      grind [Sound]
    asked := sound.asked_of_kept pcs (by simp [before, after, Pc.asked]) (by grind)
    unique := by grind [Sound]
    lock := by grind [Sound, Pc.lock]
    holder := by grind [Sound, Pc.lock]
    loaded := by grind [Sound]
    valid := by grind [Sound]
    dirty := by grind [Sound]
    agree := by grind [Sound]
    stored := sound.stored_of_kept disk written (by grind) }

end

end Update

section

variable (sound : Sound s)

include sound

theorem sound_bget (before : s.pc r = .none)
    (taken : bget s r dev blockno = some t) : Sound t := by
  unfold bget at taken
  split at taken
  · rename_i b found
    cases taken
    exact sound_of_found (s := s) rfl sound before rfl rfl rfl (lookup_spec found) rfl rfl rfl
  · rename_i missing
    split at taken
    · cases taken
    · rename_i b found
      cases taken
      obtain ⟨unused, clean⟩ := victim_spec found
      exact sound_of_recycled (s := s) rfl sound before rfl rfl rfl unused clean
        (lookup_none sound.list missing) rfl rfl rfl

theorem sound_load
    (before : s.pc r = .loading b dev blockno) (taken : load s r b dev blockno = some t) :
    Sound t := by
  unfold load at taken
  split at taken
  · rename_i valid
    cases taken
    exact sound_of_loaded (s := s) rfl sound before rfl (update_eq_self b s.buf).symm
      (Or.inl ⟨rfl, valid⟩) rfl rfl rfl
  · rename_i invalid
    obtain ⟨u, done, rfl⟩ := Option.map_eq_some_iff.mp taken
    obtain ⟨onDisk, ⟨dirty, -⟩ | ⟨clean, rfl⟩⟩ := iderw_cases done
    · exact absurd (sound.dirty b dirty) invalid
    · exact sound_of_loaded (s := s) rfl sound before rfl rfl (Or.inr ⟨rfl, onDisk, clean⟩) rfl rfl
        rfl

theorem sound_bwrite
    (before : s.pc r = .holding b dev blockno ∨ s.pc r = .changed b dev blockno)
    (taken : bwrite s r b dev blockno = some t) : Sound t := by
  obtain ⟨u, done, result⟩ := Option.map_eq_some_iff.mp taken
  obtain ⟨-, ⟨-, rfl⟩ | ⟨clean, -⟩⟩ := iderw_cases done
  · have bufs : t.buf =
        update s.buf b { s.buf b with dirty := false, valid := true } := by
      simp [← result, Bcache.write, Bcache.setBuf, Bcache.setPc]
    have disk : t.disk = update s.disk (s.buf b).blockno (s.buf b).data := by
      simp [← result, Bcache.write, Bcache.setBuf, Bcache.setPc]
    have written : t.written = update s.written (s.buf b).blockno (s.buf b).data := by
      simp [← result, Bcache.write, Bcache.setBuf, Bcache.setPc]
    exact sound_of_written (s := s) (congrArg Bcache.pc result).symm sound before rfl bufs rfl
      (congrArg Bcache.links result).symm (Or.inr disk) written
  · simp [Bcache.setBuf] at clean

theorem sound_log_write
    (before : s.pc r = .holding b dev blockno ∨ s.pc r = .changed b dev blockno) :
    Sound (log_write s r b dev blockno) := by
  have valid := sound.loaded r b dev blockno before
  refine sound_of_written (s := s) (b := b) rfl sound before rfl rfl ?_ rfl
    (Or.inl ⟨rfl, rfl⟩) ?_
  · rw [← valid]
  · simp [log_write, Bcache.write, Bcache.setBuf, Bcache.setPc]

theorem sound_step {op : Op R D} (taken : step s op = some t) : Sound t := by
  cases op with
  | bget r dev blockno =>
    simp only [step] at taken
    split at taken
    · exact sound_bget sound ‹_› taken
    · cases taken
  | acquire r =>
    cases here : s.pc r <;> simp only [step, here, reduceCtorEq] at taken
    unfold acquire at taken
    split at taken
    · cases taken
    · rename_i b dev blockno free
      cases taken
      exact sound_of_acquired (s := s) rfl sound here rfl rfl rfl (by simpa using free) rfl rfl
        rfl
  | load r =>
    cases here : s.pc r <;> simp only [step, here, reduceCtorEq] at taken
    exact sound_load sound here taken
  | change r data =>
    cases here : s.pc r <;> simp only [step, here, reduceCtorEq] at taken
    all_goals cases taken
    · exact sound_of_change (s := s) rfl sound (Or.inl here) rfl rfl rfl rfl rfl rfl
    · exact sound_of_change (s := s) rfl sound (Or.inr here) rfl rfl rfl rfl rfl rfl
  | bwrite r =>
    cases here : s.pc r <;> simp only [step, here, reduceCtorEq] at taken
    · exact sound_bwrite sound (Or.inl here) taken
    · exact sound_bwrite sound (Or.inr here) taken
  | log_write r =>
    cases here : s.pc r <;> simp only [step, here, reduceCtorEq] at taken
    all_goals cases taken
    · exact sound_log_write sound (Or.inl here)
    · exact sound_log_write sound (Or.inr here)
  | release r =>
    cases here : s.pc r <;> simp only [step, here, reduceCtorEq] at taken
    unfold release at taken
    split at taken
    · cases taken
      exact sound_of_released (s := s) rfl sound here rfl rfl rfl rfl rfl rfl
    · cases taken
  | brelse r =>
    cases here : s.pc r <;> simp only [step, here, reduceCtorEq] at taken
    cases taken
    simp only [brelse]
    split
    · exact sound_of_brelse (s := s) rfl sound here rfl rfl rfl (sound.list.move _) rfl rfl
    · exact sound_of_brelse (s := s) rfl sound here rfl rfl rfl sound.list rfl rfl

end

omit [DecidableEq R] in
theorem sound_binit (disksize : Nat) (disk : Nat → D) (zero : D) :
    Sound (binit R disksize disk zero) where
  list := listed_binit disksize disk zero
  refcnt b := by
    have none : countP (fun pc : Pc => pc.entry = some b) (binit R disksize disk zero).pc = 0 := by
      apply Finset.card_eq_zero.mpr
      simp [binit, Pc.entry]
    rw [none]
    rfl
  asked := by rintro r b dev blockno ⟨⟩
  unique := by rintro a b ⟨⟩
  lock := by rintro r b ⟨⟩
  holder := by rintro q r b ⟨⟩
  loaded := by rintro r b dev blockno (⟨⟨⟩⟩ | ⟨⟨⟩⟩)
  valid := by rintro b ⟨⟩
  dirty := by rintro b ⟨⟩
  agree := by rintro b ⟨⟩
  stored := fun _ differs => absurd rfl differs

omit [Fintype R] [DecidableEq R] in
theorem buf_kept {bp : Buf D} (bufs : t.buf = update s.buf b bp)
    (dev : bp.dev = (s.buf b).dev) (blockno : bp.blockno = (s.buf b).blockno) (c : Fin NBUF) :
    (t.buf c).dev = (s.buf c).dev ∧ (t.buf c).blockno = (s.buf c).blockno := by
  rcases update_cases bufs c with ⟨rfl, now⟩ | ⟨-, now⟩
  · rw [now]
    exact ⟨dev, blockno⟩
  · rw [now]
    exact ⟨rfl, rfl⟩

omit [Fintype R] [DecidableEq R] in
theorem iderw_kept (done : iderw s b = some t) (c : Fin NBUF) :
    (t.buf c).dev = (s.buf c).dev ∧ (t.buf c).blockno = (s.buf c).blockno := by
  obtain ⟨-, ⟨-, rfl⟩ | ⟨-, rfl⟩⟩ := iderw_cases done
  · exact buf_kept rfl (by rfl) (by rfl) c
  · exact buf_kept rfl (by rfl) (by rfl) c

omit [Fintype R] in
/-- Only `bget` gives a buffer another block, and only one that is unused and clean. -/
theorem block_kept {op : Op R D} (taken : step s op = some t) (c : Fin NBUF)
    (busy : 0 < (s.buf c).refcnt ∨ (s.buf c).dirty = true) :
    (t.buf c).dev = (s.buf c).dev ∧ (t.buf c).blockno = (s.buf c).blockno := by
  cases op with
  | bget r dev blockno =>
    simp only [step, bget] at taken
    split at taken
    · split at taken
      · cases taken
        exact buf_kept rfl (by rfl) (by rfl) c
      · split at taken
        · cases taken
        · rename_i b found
          cases taken
          obtain ⟨unused, clean⟩ := victim_spec found
          have other : c ≠ b := by grind
          simp [Bcache.setPc, Bcache.setBuf, other]
    · cases taken
  | acquire r =>
    cases here : s.pc r <;> simp only [step, here, reduceCtorEq, acquire] at taken
    split at taken
    · cases taken
    · cases taken
      exact buf_kept rfl (by rfl) (by rfl) c
  | load r =>
    cases here : s.pc r <;> simp only [step, here, reduceCtorEq, load] at taken
    split at taken
    · cases taken
      exact ⟨rfl, rfl⟩
    · obtain ⟨u, done, rfl⟩ := Option.map_eq_some_iff.mp taken
      exact iderw_kept done c
  | change r data =>
    cases here : s.pc r <;> simp only [step, here, reduceCtorEq] at taken
    all_goals cases taken
    · exact buf_kept rfl (by rfl) (by rfl) c
    · exact buf_kept rfl (by rfl) (by rfl) c
  | bwrite r =>
    have written : ∀ b dev blockno, bwrite s r b dev blockno = some t →
        (t.buf c).dev = (s.buf c).dev ∧ (t.buf c).blockno = (s.buf c).blockno := by
      intro b dev blockno wrote
      obtain ⟨u, done, rfl⟩ := Option.map_eq_some_iff.mp wrote
      have marked := buf_kept (s := s) (t := s.setBuf b { s.buf b with dirty := true })
        rfl (by rfl) (by rfl) c
      have stored := iderw_kept done c
      exact ⟨stored.1.trans marked.1, stored.2.trans marked.2⟩
    cases here : s.pc r <;> simp only [step, here, reduceCtorEq] at taken
    · exact written _ _ _ taken
    · exact written _ _ _ taken
  | log_write r =>
    cases here : s.pc r <;> simp only [step, here, reduceCtorEq] at taken
    all_goals cases taken
    · exact buf_kept rfl (by rfl) (by rfl) c
    · exact buf_kept rfl (by rfl) (by rfl) c
  | release r =>
    cases here : s.pc r <;> simp only [step, here, reduceCtorEq, release] at taken
    split at taken
    · cases taken
      exact buf_kept rfl (by rfl) (by rfl) c
    · cases taken
  | brelse r =>
    cases here : s.pc r <;> simp only [step, here, reduceCtorEq] at taken
    cases taken
    simp only [brelse]
    split
    · exact buf_kept rfl (by rfl) (by rfl) c
    · exact buf_kept rfl (by rfl) (by rfl) c

theorem transparent_of_sound (sound : Sound s) : Transparent s where
  unique := sound.unique
  kept op t taken b busy := block_kept taken b busy
  list := sound.list
  full r dev blockno idle stops := by
    simp only [step, idle, if_true, bget] at stops
    grind [victim_none, Sound]
  reads r b dev blockno here := by
    have asked := sound.asked r b dev blockno (by rw [here]; rfl)
    have valid := sound.loaded r b dev blockno (Or.inl here)
    have clean := sound.not_dirtied (r := r) (b := b) (by rw [here]; rfl) (by rw [here]; rfl)
    refine ⟨asked.1.symm.trans (sound.valid b valid), asked.1, asked.2, ?_⟩
    rw [sound.agree b valid clean, asked.2]

end Xv6Tracing.Bio
