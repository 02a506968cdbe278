import Xv6Tracing.Lib.Run
import Xv6Tracing.Vm.Boot

/-!
# Page tables as flat maps

To user addresses a page table is a map from page numbers to frames and flags.  The
operations of `vm.c` on one table are followed by the same operations on such a map.
`deallocuvm` frees frames, so one handed to `mappages` may be in no other use.
-/

set_option autoImplicit false

namespace Xv6Tracing.Vm

open Lib

variable {s t u : Memory} {roots free free' : List AddrT} {r p q f va w : AddrT}

def entryOf (pte : AddrT) : Option (AddrT × AddrT) :=
  if pte &&& PTE_P ≠ 0 then some (PTE_ADDR pte, PTE_FLAGS pte) else none

def lookup (s : Memory) (pgdir va : AddrT) : Option (AddrT × AddrT) :=
  match walkpgdir pgdir va false s with
  | .ok (some (pgtab, i), t) => entryOf (t.page pgtab i)
  | _ => none

theorem lookup_eq : lookup s r va = entryOf (pteWord s r va) := by
  have walk : wp (walkpgdir r va false) s (fun res t =>
      res = (follow (child s) r (tablePath va)).map (fun pgtab => (pgtab, PTX va)) ∧ t = s)
      (fun _ => False) := wp_walkpgdir_false.mpr ⟨rfl, rfl⟩
  unfold wp at walk
  unfold lookup pteWord
  split at walk
  · rename_i res t done
    obtain ⟨rfl, rfl⟩ := walk
    rw [done]
    cases follow (child t) r (tablePath va) with
    | none => exact (if_neg (not_not.mpr BitVec.zero_and)).symm
    | some pgtab => rfl
  · exact walk.elim

/-! ## The operations -/

inductive MapOp where
  | mappages (va size pa : AddrT) (perm : CInt)
  | allocuvm (oldsz newsz : AddrT)
  | deallocuvm (oldsz newsz : AddrT)
  | clearpteu (uva : AddrT)
deriving DecidableEq, Repr

def MapOp.call (pgdir : AddrT) : MapOp → VmM Unit
  | .mappages va size pa perm => discard (Vm.mappages pgdir va size pa perm)
  | .allocuvm oldsz newsz => discard (Vm.allocuvm pgdir oldsz newsz)
  | .deallocuvm oldsz newsz => discard (Vm.deallocuvm pgdir oldsz newsz)
  | .clearpteu uva => Vm.clearpteu pgdir uva

def mapStep (pgdir : AddrT) (s : Memory) (op : MapOp) : Option Memory :=
  match op.call pgdir s with
  | .ok (_, t) => some t
  | .error _ => none

def MapOp.User : MapOp → Prop
  | .mappages va size _ _ =>
    Vm.User va ∧ Vm.User (va + size - 1) ∧ vpn va ≤ vpn (va + size - 1)
  | .allocuvm _ newsz => newsz.toNat ≤ 2 ^ 47
  | .deallocuvm oldsz newsz => oldsz.toNat ≤ 2 ^ 47 ∨ oldsz ≤ newsz
  | .clearpteu uva => Vm.User uva

instance (op : MapOp) : Decidable op.User := by
  cases op <;> unfold MapOp.User <;> unfold Vm.User <;> infer_instance

/-- The entry that `mappages` writes for the page with number `k`. -/
def mappedWord (va pa : AddrT) (perm : CInt) (k : Nat) : AddrT :=
  (pa + BitVec.ofNat 64 (4096 * (k - vpn va))) ||| perm.signExtend 64 ||| PTE_P

def InUse (s : Memory) (pgdir p : AddrT) : Prop :=
  (∃ free, Linked s.page s.freelist free ∧ p ∈ free) ∨ Owned s [pgdir] p

/-- The frames handed to `mappages` are in no other use and differ. -/
def MapOp.Fresh (s : Memory) (pgdir : AddrT) : MapOp → Prop
  | .mappages va size pa perm => ∀ k, vpn va ≤ k → k ≤ vpn (va + size - 1) →
      ¬ InUse s pgdir (P2V (PTE_ADDR (mappedWord va pa perm k))) ∧
        ∀ k', vpn va ≤ k' → k' ≤ vpn (va + size - 1) →
          PTE_ADDR (mappedWord va pa perm k) = PTE_ADDR (mappedWord va pa perm k') → k = k'
  | _ => True

/-! ## The map -/

abbrev Flat := Nat → Option (AddrT × AddrT)

/-- The operations on a map.  Which frames `allocuvm` gets is up to the allocator;
they are in no other use. -/
inductive FlatStep (m : Flat) : MapOp → Flat → Prop
  | mappages (va size pa : AddrT) (perm : CInt)
      (unmapped : ∀ k, vpn va ≤ k → k ≤ vpn (va + size - 1) → m k = none) :
      FlatStep m (.mappages va size pa perm) fun k =>
        if vpn va ≤ k ∧ k ≤ vpn (va + size - 1) then entryOf (mappedWord va pa perm k) else m k
  | allocuvm (oldsz newsz : AddrT) (frame : Nat → AddrT)
      (unmapped : ∀ k, pages oldsz ≤ k → k < pages newsz → m k = none)
      (fresh : ∀ k, pages oldsz ≤ k → k < pages newsz → ∀ k' flags, m k' ≠ some (frame k, flags)) :
      FlatStep m (.allocuvm oldsz newsz) fun k =>
        if pages oldsz ≤ k ∧ k < pages newsz then some (frame k, PTE_W ||| PTE_U ||| PTE_P)
        else m k
  | deallocuvm (oldsz newsz : AddrT) :
      FlatStep m (.deallocuvm oldsz newsz) fun k =>
        if pages newsz ≤ k ∧ k < pages oldsz then none else m k
  | clearpteu (uva : AddrT) :
      FlatStep m (.clearpteu uva) fun k =>
        if k = vpn uva then (m k).map fun entry => (entry.1, entry.2 &&& ~~~PTE_U) else m k

/-! ## Mapping a range -/

/-- What `mappages` leaves: the words of its pages are new, all others as before. -/
structure RangeMapped (s t : Memory) (roots : List AddrT) (r : AddrT) (lo hi : Nat)
    (word : Nat → AddrT) : Prop where
  sound : ∃ free', Sound t roots free'
  kernel : t.page r 256 = s.page r 256
  unmapped : ∀ va, User va → lo ≤ vpn va → vpn va ≤ hi → pteWord s r va &&& PTE_P = 0
  words : ∀ va, User va →
    pteWord t r va = if lo ≤ vpn va ∧ vpn va ≤ hi then word (vpn va) else pteWord s r va

variable {word : Nat → AddrT}

theorem Mapped.range (root : r ∈ roots)
    (mapped : Mapped s t roots free free' r va w) (first : word (vpn va) = w) :
    RangeMapped s t roots r (vpn va) (vpn va + 0) word where
  sound := ⟨free', mapped.effect.sound⟩
  kernel := mapped.effect.kernel r root 256 (by decide)
  unmapped va' user' lower upper := by
    rw [pteWord_congr (show vpn va' = vpn va by omega)]
    exact mapped.unmapped
  words va' user' := by
    rw [mapped.words r root va' user']
    grind

theorem Mapped.range_cons {n : Nat} (root : r ∈ roots)
    (mapped : Mapped s t roots free free' r va w) (first : word (vpn va) = w)
    (rest : RangeMapped t u roots r (vpn va + 1) (vpn va + 1 + n) word) :
    RangeMapped s u roots r (vpn va) (vpn va + 1 + n) word where
  sound := rest.sound
  kernel := rest.kernel.trans (mapped.effect.kernel r root 256 (by decide))
  unmapped va' user' lower upper := by grind [pteWord_congr, Mapped, RangeMapped]
  words va' user' := by grind [Mapped, RangeMapped]

theorem mappagesLoop_spec {last perm : AddrT} (root : r ∈ roots) : ∀ (n : Nat) (a pa : AddrT)
    (s : Memory) (free : List AddrT) (word : Nat → AddrT), Sound s roots free →
    a.toNat + 4096 * n < 2 ^ 47 → last.toNat = a.toNat + 4096 * n →
    (∀ j ≤ n, word (vpn a + j) = (pa + BitVec.ofNat 64 (4096 * j)) ||| perm ||| PTE_P) →
    (∀ j ≤ n, ¬ Owned s roots (P2V (PTE_ADDR (word (vpn a + j)))) ∧
      P2V (PTE_ADDR (word (vpn a + j))) ∉ free) →
    (∀ j ≤ n, ∀ j' ≤ n, PTE_ADDR (word (vpn a + j)) = PTE_ADDR (word (vpn a + j')) → j = j') →
    wp (mappagesLoop r last perm (n + 1) a pa) s
      (fun _ t => RangeMapped s t roots r (vpn a) (vpn a + n) word) (fun _ => True) := by
  intro n
  induction n with
  | zero =>
    intro a pa s free word sound room isLast word_eq fresh _
    have user : User a := by
      unfold User
      omega
    have first : word (vpn a) = pa ||| perm ||| PTE_P := by simpa using word_eq 0 le_rfl
    have unused := fresh 0 le_rfl
    rw [Nat.add_zero, first] at unused
    apply mappagesLoop_turn sound root user unused.1 unused.2 (fun _ => trivial) (fun _ => trivial)
    intro t free' mapped
    rw [if_pos (BitVec.toNat_inj.mp (by omega))]
    exact mapped.range root first
  | succ n ih =>
    intro a pa s free word sound room isLast word_eq fresh distinct
    have user : User a := by
      unfold User
      omega
    have first : word (vpn a) = pa ||| perm ||| PTE_P := by
      simpa using word_eq 0 (Nat.zero_le _)
    have unused := fresh 0 (Nat.zero_le _)
    rw [Nat.add_zero, first] at unused
    apply mappagesLoop_turn sound root user unused.1 unused.2 (fun _ => trivial) (fun _ => trivial)
    intro t free' mapped
    have more : a ≠ last := by
      rintro rfl
      omega
    have next : (a + PGSIZE).toNat = a.toNat + 4096 := toNat_add_PGSIZE (by omega)
    have nextPage : vpn (a + PGSIZE) = vpn a + 1 := by
      unfold vpn
      omega
    have shift : ∀ j, vpn (a + PGSIZE) + j = vpn a + (j + 1) := fun j => by omega
    rw [if_neg more]
    refine wp_mono (ih (a + PGSIZE) (pa + PGSIZE) t free' word mapped.effect.sound (by omega)
      (by omega) ?_ ?_ ?_) ?_
    · intro j bound
      rw [shift, word_eq (j + 1) (by omega), Nat.mul_succ, Nat.add_comm (4096 * j),
        BitVec.ofNat_add, BitVec.add_assoc]
      rfl
    · intro j bound
      rw [shift]
      obtain ⟨nobody, notFree⟩ := fresh (j + 1) (by omega)
      refine ⟨?_, fun member => notFree (mapped.suffix.subset member)⟩
      intro owned
      rcases (mapped.effect.balance _).mp (Or.inl owned) with (old | listed) | same
      · exact nobody old
      · exact notFree listed
      · have equal := congrArg V2P (List.mem_singleton.mp same)
        rw [V2P_P2V, V2P_P2V, ← first] at equal
        have := distinct (j + 1) (by omega) 0 (Nat.zero_le _) (by simpa using equal)
        omega
    · intro j bound j' bound' same
      rw [shift, shift] at same
      have := distinct (j + 1) (by omega) (j' + 1) (by omega) same
      omega
    · grind [mapped.range_cons]

theorem mappages_spec {size pa : AddrT} {perm : CInt} (sound : Sound s [r] free)
    (user : (MapOp.mappages va size pa perm).User)
    (fresh : (MapOp.mappages va size pa perm).Fresh s r) :
    wp (mappages r va size pa perm) s (fun _ t => RangeMapped s t [r] r (vpn va)
      (vpn (va + size - 1)) (mappedWord va pa perm)) (fun _ => True) := by
  obtain ⟨lower, upper, order⟩ := user
  have first := toNat_PGROUNDDOWN va
  have last := toNat_PGROUNDDOWN (va + size - 1)
  have start : vpn (PGROUNDDOWN va) = vpn va := by
    unfold vpn
    omega
  have turns : (PGROUNDDOWN (va + size - 1) - PGROUNDDOWN va).toNat / 4096 =
      vpn (va + size - 1) - vpn va := by
    rw [BitVec.toNat_sub]
    unfold vpn User at *
    omega
  have range : ∀ j ≤ vpn (va + size - 1) - vpn va,
      vpn va ≤ vpn va + j ∧ vpn va + j ≤ vpn (va + size - 1) := fun j bound => by omega
  simp only [mappages, turns]
  refine wp_mono (mappagesLoop_spec List.mem_cons_self _ _ _ s free (mappedWord va pa perm) sound
    ?_ ?_ ?_ ?_ ?_) ?_
  · unfold vpn User at *
    omega
  · unfold vpn at *
    omega
  · intro j bound
    rw [start, mappedWord, Nat.add_sub_cancel_left]
  · intro j bound
    obtain ⟨after, before⟩ := range j bound
    have unused := (fresh _ after before).1
    rw [start]
    exact ⟨fun owned => unused (Or.inr owned),
      fun listed => unused (Or.inl ⟨free, sound.linked, listed⟩)⟩
  · intro j bound j' bound' same
    obtain ⟨after, before⟩ := range j bound
    obtain ⟨after', before'⟩ := range j' bound'
    rw [start] at same
    have := (fresh _ after before).2 _ after' before' same
    omega
  · intro _ t mapped
    rwa [start, Nat.add_sub_cancel' order] at mapped

/-! ## The refinement -/

theorem entryOf_eq_none : entryOf w = none ↔ w &&& PTE_P = 0 := by
  unfold entryOf
  split_ifs with present
  · simpa using present
  · simpa using present

theorem entryOf_newWord (aligned : Aligned q) :
    entryOf (newWord q) = some (V2P q, PTE_W ||| PTE_U ||| PTE_P) := by
  have word : newWord q = V2P q ||| (PTE_W ||| PTE_U ||| PTE_P) := BitVec.or_assoc _ _ _
  have pa := aligned_V2P aligned
  have present : newWord q &&& PTE_P ≠ 0 := present_or _
  rw [entryOf, if_pos present, word, PTE_ADDR_or pa (by decide), PTE_FLAGS_or pa (by decide)]

theorem entryOf_clear_user :
    entryOf (w &&& ~~~PTE_U) = (entryOf w).map fun entry => (entry.1, entry.2 &&& ~~~PTE_U) := by
  obtain ⟨address, present⟩ := clear_user w
  have flags : PTE_FLAGS (w &&& ~~~PTE_U) = PTE_FLAGS w &&& ~~~PTE_U := by
    rw [PTE_FLAGS, PTE_FLAGS, BitVec.and_assoc, BitVec.and_comm (~~~PTE_U), BitVec.and_assoc]
  unfold entryOf
  rw [if_congr present rfl rfl, address, flags]
  split_ifs <;> rfl

structure Tracks (r kernel : AddrT) (s : Memory) (m : Flat) : Prop where
  sound : ∃ free, Sound s [r] free
  words : ∀ va, User va → entryOf (pteWord s r va) = m (vpn va)
  beyond : ∀ k, 2 ^ 35 ≤ k → m k = none
  kernel : s.page r 256 = kernel

variable {kernel : AddrT} {m : Flat}

section

variable (tracks : Tracks r kernel s m)

include tracks

theorem follows_mappages {size pa : AddrT} {perm : CInt}
    (user : (MapOp.mappages va size pa perm).User)
    (fresh : (MapOp.mappages va size pa perm).Fresh s r) :
    wp (mappages r va size pa perm) s (fun _ t =>
      ∃ m', FlatStep m (.mappages va size pa perm) m' ∧ Tracks r kernel t m') (fun _ => True) := by
  obtain ⟨free, sound⟩ := tracks.sound
  refine wp_mono (mappages_spec sound user fresh) ?_
  intro _ t mapped
  have top := vpn_lt user.2.1
  refine ⟨_, .mappages va size pa perm ?_, mapped.sound, ?_, ?_, mapped.kernel.trans tracks.kernel⟩
  · intro k lower upper
    obtain ⟨va', user', rfl⟩ := exists_user (show k < 2 ^ 35 by omega)
    rw [← tracks.words va' user', entryOf_eq_none]
    exact mapped.unmapped va' user' lower upper
  · intro va' user'
    rw [mapped.words va' user']
    split_ifs
    · rfl
    · exact tracks.words va' user'
  · intro k large
    rw [if_neg (by omega)]
    exact tracks.beyond k large

variable {oldsz newsz : AddrT}

theorem follows_allocuvm (user : (MapOp.allocuvm oldsz newsz).User) :
    wp (allocuvm r oldsz newsz) s (fun _ t =>
      ∃ m', FlatStep m (.allocuvm oldsz newsz) m' ∧ Tracks r kernel t m') (fun _ => True) := by
  obtain ⟨free, sound⟩ := tracks.sound
  have root : r ∈ [r] := List.mem_cons_self
  have small : newsz.toNat ≤ 2 ^ 47 := user
  have below : newsz < KERNBASE := by
    rw [BitVec.lt_def]
    exact lt_of_le_of_lt small (by decide)
  have top : pages newsz ≤ 2 ^ 35 := by
    unfold pages
    omega
  refine wp_mono (allocuvm_spec sound root below (Or.inl small) (fun _ => trivial)
    (fun _ => trivial)) ?_
  rintro _ t ⟨-, free', frame, allocated⟩
  refine ⟨_, .allocuvm oldsz newsz (fun k => V2P (frame k)) ?_ ?_,
    ⟨free', allocated.effect.sound⟩, ?_, ?_, ?_⟩
  · intro k lower upper
    obtain ⟨va', user', rfl⟩ := exists_user (show k < 2 ^ 35 by omega)
    rw [← tracks.words va' user', entryOf_eq_none]
    exact allocated.unmapped va' user' lower upper
  · intro k lower upper k' flags mapped
    have within : k' < 2 ^ 35 := by
      by_contra large
      rw [tracks.beyond k' (by omega)] at mapped
      cases mapped
    obtain ⟨va', user', rfl⟩ := exists_user within
    rw [← tracks.words va' user', entryOf] at mapped
    split_ifs at mapped with present
    have owned := owned_frame root user' present
    rw [(Prod.mk.inj (Option.some.inj mapped)).1, P2V_V2P] at owned
    exact sound.apart _ owned (allocated.frames k lower upper).1
  · intro va' user'
    rw [allocated.words r root va' user']
    by_cases range : pages oldsz ≤ vpn va' ∧ vpn va' < pages newsz
    · have member := (allocated.frames _ range.1 range.2).1
      rw [if_pos ⟨rfl, range⟩, if_pos range, entryOf_newWord (sound.usable _ member).aligned]
    · rw [if_neg fun both => range both.2, if_neg range]
      exact tracks.words va' user'
  · intro k large
    rw [if_neg (by omega)]
    exact tracks.beyond k large
  · exact (allocated.effect.kernel r root 256 (by decide)).trans tracks.kernel

theorem follows_deallocuvm (user : (MapOp.deallocuvm oldsz newsz).User) :
    wp (deallocuvm r oldsz newsz) s (fun _ t =>
      ∃ m', FlatStep m (.deallocuvm oldsz newsz) m' ∧ Tracks r kernel t m') (fun _ => True) := by
  obtain ⟨free, sound⟩ := tracks.sound
  have root : r ∈ [r] := List.mem_cons_self
  refine wp_mono (deallocuvm_spec sound root user (fun _ => trivial)) ?_
  rintro _ t ⟨-, free', unmapped⟩
  refine ⟨_, .deallocuvm oldsz newsz, ⟨free', unmapped.effect.sound⟩, ?_, ?_, ?_⟩
  · grind [unmapped.words, entryOf_eq_none, Tracks]
  · intro k large
    split_ifs
    · rfl
    · exact tracks.beyond k large
  · exact (unmapped.effect.kernel r root 256 (by decide)).trans tracks.kernel

theorem follows_clearpteu (user : User va) :
    wp (clearpteu r va) s (fun _ t =>
      ∃ m', FlatStep m (.clearpteu va) m' ∧ Tracks r kernel t m') (fun _ => True) := by
  obtain ⟨free, sound⟩ := tracks.sound
  have root : r ∈ [r] := List.mem_cons_self
  refine wp_mono (clearpteu_spec sound root user (fun _ => trivial)) ?_
  rintro _ t ⟨effect, words⟩
  refine ⟨_, .clearpteu va, ⟨free, effect.sound⟩, ?_, ?_, ?_⟩
  · intro va' user'
    grind [entryOf_clear_user, Tracks]
  · intro k large
    have none := tracks.beyond k large
    split_ifs
    · rw [none]
      rfl
    · exact none
  · exact (effect.kernel r root 256 (by decide)).trans tracks.kernel

theorem follows_step {op : MapOp} (user : op.User)
    (fresh : op.Fresh s r) (taken : mapStep r s op = some t) :
    ∃ m', FlatStep m op m' ∧ Tracks r kernel t m' := by
  have call : wp (op.call r) s (fun _ t => ∃ m', FlatStep m op m' ∧ Tracks r kernel t m')
      (fun _ => True) := by
    cases op with
    | mappages va size pa perm => exact wp_discard.mpr (follows_mappages tracks user fresh)
    | allocuvm oldsz newsz => exact wp_discard.mpr (follows_allocuvm tracks user)
    | deallocuvm oldsz newsz => exact wp_discard.mpr (follows_deallocuvm tracks user)
    | clearpteu uva => exact follows_clearpteu tracks user
  unfold mapStep at taken
  split at taken
  · rename_i done
    cases taken
    exact wp_ok call done
  · cases taken

end

variable {s₀ : Memory}

theorem tracks_setupkvm (allocator : Sound s₀ [] free)
    (fresh : setupkvm s₀ = .ok (r, s)) : Tracks r (s.page r 256) s fun _ => none := by
  obtain ⟨rest, rfl, rfl⟩ := setupkvm_result allocator fresh
  refine ⟨⟨rest, sound_newRoot allocator⟩, ?_, fun _ _ => rfl, rfl⟩
  intro va user
  have missing : follow (child (takenPage s₀ r (rootRow s₀.kpdpt))) r (tablePath va) = none := by
    cases found : follow (child (takenPage s₀ r (rootRow s₀.kpdpt))) r (tablePath va) with
    | none => rfl
    | some p =>
      have := ((follow_newRoot (userPath_tablePath user)).mp found).1
      simp [tablePath] at this
  rw [entryOf_eq_none]
  simp only [pteWord, missing]
  exact BitVec.zero_and

theorem tracks_run {ops : List MapOp} (allocator : Sound s₀ [] free)
    (fresh : setupkvm s₀ = .ok (r, s))
    (user : Along (mapStep r) (fun s op => op.User ∧ op.Fresh s r) s ops)
    (ran : run (mapStep r) s ops = some t) :
    ∃ m, Steps FlatStep (fun _ => none) ops m ∧ Tracks r (s.page r 256) t m := by
  have follows : ∀ u m op u', Tracks r (s.page r 256) u m → op.User ∧ op.Fresh u r →
      mapStep r u op = some u' → ∃ m', FlatStep m op m' ∧ Tracks r (s.page r 256) u' m' :=
    fun u m op u' tracks cond taken => follows_step tracks cond.1 cond.2 taken
  exact run_refines follows ops s t (fun _ => none) (tracks_setupkvm allocator fresh) user ran

/-- Walking the tables gives what the map gives, after every run of calls with user
addresses in which frames are not used twice; the kernel's entry stays. -/
theorem page_tables_flat (s₀ s t : Memory) (free : List AddrT) (r : AddrT) (ops : List MapOp)
    (allocator : Sound s₀ [] free) (fresh : setupkvm s₀ = .ok (r, s))
    (user : Along (mapStep r) (fun s op => op.User ∧ op.Fresh s r) s ops)
    (ran : run (mapStep r) s ops = some t) :
    ∃ m, Steps FlatStep (fun _ => none) ops m ∧
      (∀ va, User va → lookup t r va = m (vpn va)) ∧ t.page r 256 = s.page r 256 := by
  obtain ⟨m, steps, tracks⟩ := tracks_run allocator fresh user ran
  exact ⟨m, steps, fun va user => lookup_eq.trans (tracks.words va user), tracks.kernel⟩

/-! ## Ten pages -/

def tenPageMachine : Memory :=
  ⟨fun _ _ => 0, 0, 0, 0, P2V PHYSTOP - 10 * PGSIZE⟩

def tenPages : Memory :=
  match kinit1 tenPageMachine.kend (P2V PHYSTOP) tenPageMachine with
  | .ok (_, t) => t
  | .error _ => tenPageMachine

def tenPagesTable : AddrT × Memory :=
  match setupkvm tenPages with
  | .ok table => table
  | .error _ => (0, tenPages)

theorem tenPages_sound : ∃ free, Sound tenPages [] free := by
  unfold tenPages
  split
  · rename_i done
    obtain ⟨free, sound, -⟩ := kinit1_sound (by decide +kernel) done
    exact ⟨free, sound⟩
  · exact ⟨[], sound_none rfl⟩

theorem tenPages_setupkvm : setupkvm tenPages = .ok tenPagesTable := by
  have returns : (stops setupkvm tenPages).isNone = true := by decide +kernel
  unfold stops at returns
  unfold tenPagesTable
  split at returns
  · rename_i done
    rw [done]
  · cases returns

def rootMapped : List MapOp :=
  [.mappages 0x1000 PGSIZE (V2P tenPagesTable.1) (BitVec.setWidth 32 (PTE_W ||| PTE_U)),
    .deallocuvm 0x2000 0x1000]

def rootMappedEnd : Memory := (run (mapStep tenPagesTable.1) tenPagesTable.2 rootMapped).getD tenPages

theorem rootMapped_run :
    run (mapStep tenPagesTable.1) tenPagesTable.2 rootMapped = some rootMappedEnd := by
  have returns : (run (mapStep tenPagesTable.1) tenPagesTable.2 rootMapped).isSome = true := by
    decide +kernel
  obtain ⟨t, done⟩ := Option.isSome_iff_exists.mp returns
  rw [rootMappedEnd, done]
  rfl

/-- `deallocuvm` frees the root, and the kernel's entry is overwritten. -/
theorem mapped_root_is_overwritten : ∃ (s₀ s t : Memory) (free : List AddrT) (r : AddrT)
    (ops : List MapOp), Sound s₀ [] free ∧ setupkvm s₀ = .ok (r, s) ∧ (∀ op ∈ ops, op.User) ∧
      run (mapStep r) s ops = some t ∧ t.page r 256 ≠ s.page r 256 := by
  obtain ⟨free, sound⟩ := tenPages_sound
  exact ⟨tenPages, tenPagesTable.2, rootMappedEnd, free, tenPagesTable.1, rootMapped, sound,
    tenPages_setupkvm, by decide +kernel, rootMapped_run, by decide +kernel⟩

/-- A page mapped to a frame that the allocator does not manage, and memory that
grows, gets a guard page and shrinks again. -/
def sampleOps : List MapOp :=
  [.mappages 0x1000 PGSIZE 0x5000 (BitVec.setWidth 32 (PTE_W ||| PTE_U)),
    .allocuvm 0x2000 0x4000, .clearpteu 0x2000, .deallocuvm 0x4000 0x3000]

def sampleEnd : Memory := (run (mapStep tenPagesTable.1) tenPagesTable.2 sampleOps).getD tenPages

/-- A page that `kfree` refuses is not in use after `setupkvm`. -/
theorem not_inUse_setupkvm (allocator : Sound s₀ [] free)
    (fresh : setupkvm s₀ = .ok (r, s)) (refused : ¬ Usable s₀.kend p) : ¬ InUse s r p := by
  obtain ⟨rest, rfl, rfl⟩ := setupkvm_result allocator fresh
  have sound : Sound (takenPage s₀ r (rootRow s₀.kpdpt)) [r] rest := sound_newRoot allocator
  rintro (⟨free', linked, member⟩ | owned)
  · rw [linked.unique sound.linked] at member
    exact refused (sound.usable p member)
  · rcases (owned_newRoot allocator).mp owned with rfl | ⟨r', root, -⟩
    · exact refused (allocator.usable p List.mem_cons_self)
    · simp at root

theorem sampleOps_run :
    run (mapStep tenPagesTable.1) tenPagesTable.2 sampleOps = some sampleEnd := by
  have returns : (run (mapStep tenPagesTable.1) tenPagesTable.2 sampleOps).isSome = true := by
    decide +kernel
  obtain ⟨t, done⟩ := Option.isSome_iff_exists.mp returns
  rw [sampleEnd, done]
  rfl

theorem sampleOps_user (sound : Sound tenPages [] free) :
    Along (mapStep tenPagesTable.1) (fun s op => op.User ∧ op.Fresh s tenPagesTable.1)
      tenPagesTable.2 sampleOps := by
  have users : ∀ op ∈ sampleOps, op.User := by decide +kernel
  have unused : ∀ k, vpn 0x1000 ≤ k → k ≤ vpn (0x1000 + PGSIZE - 1) → k = 1 := by
    have first : vpn 0x1000 = 1 := by decide +kernel
    have last : vpn (0x1000 + PGSIZE - 1) = 1 := by decide +kernel
    rw [first, last]
    omega
  refine ⟨⟨users _ (by simp [sampleOps]), ?_⟩, fun _ _ => ⟨⟨users _ (by simp [sampleOps]), trivial⟩,
    fun _ _ => ⟨⟨users _ (by simp [sampleOps]), trivial⟩, fun _ _ =>
      ⟨⟨users _ (by simp [sampleOps]), trivial⟩, fun _ _ => trivial⟩⟩⟩⟩
  intro k lower upper
  obtain rfl := unused k lower upper
  refine ⟨not_inUse_setupkvm sound tenPages_setupkvm (by decide +kernel), ?_⟩
  intro k' lower' upper' _
  exact (unused k' lower' upper').symm

theorem page_tables_flat_sample : ∃ m, Steps FlatStep (fun _ => none) sampleOps m ∧
    (∀ va, User va → lookup sampleEnd tenPagesTable.1 va = m (vpn va)) ∧
      sampleEnd.page tenPagesTable.1 256 = tenPagesTable.2.page tenPagesTable.1 256 := by
  obtain ⟨free, sound⟩ := tenPages_sound
  exact page_tables_flat tenPages tenPagesTable.2 sampleEnd free tenPagesTable.1 sampleOps sound
    tenPages_setupkvm (sampleOps_user sound) sampleOps_run

end Xv6Tracing.Vm
