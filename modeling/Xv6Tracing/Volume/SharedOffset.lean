import Xv6Tracing.Lib.Mutex
import Xv6Tracing.Syscall.Pointers
import Xv6Tracing.Volume.Sound

/-!
# Calls of filewrite through one file structure

The loop of `filewrite` for an inode, with any number of calls at once on one file
structure.  A step is what one call does between two points at which another may run.
`writei` is one step, inside the inode lock.  `begin_op` and `end_op` only count; a wait
in `begin_op` is a call that takes no step.
-/

set_option autoImplicit false

namespace Xv6Tracing.Volume.SharedOffset

open Lib

/-- `((LOGSIZE-1-1-2) / 2) * 512` -/
def max : Nat := (LOGSIZE - 1 - 1 - 2) / 2 * 512

/-- Where a call is, with the local `i` and, after `writei`, its result. -/
inductive Pc where
  | start
  | loop (i : Nat)
  | begun (i : Nat)
  | locked (i : Nat)
  | wrote (i : Nat) (r : Option Nat)
  | moved (i : Nat) (r : Option Nat)
  | unlocked (i : Nat) (r : Option Nat)
  | ended (i : Nat) (r : Option Nat)
  | returned (ok : Bool)
deriving DecidableEq, Repr

/-- The volume, `f->off`, where each call is, who holds the inode lock, and which
call wrote what, in the order of the writes. -/
structure World (ι : Type) where
  vol : Vol
  off : Uint
  pc : ι → Pc
  lk : Option ι
  written : List (ι × List Uchar)

def chunk (src : List Uchar) (i : Nat) : List Uchar := (src.drop i).take max

variable {ι : Type} [DecidableEq ι]

def World.goto (s : World ι) (c : ι) (pc : Pc) : World ι :=
  { s with pc := Function.update s.pc c pc }

/-- The next step of call `c`, which writes the bytes `src c` to the inode cached in
`a`; `none` while it waits and after a panic. -/
def step (a : Fin NINODE) (src : ι → List Uchar) (s : World ι) (c : ι) : Option (World ι) :=
  match s.pc c with
  | .start => some (s.goto c (.loop 0))
  | .loop i =>
    if i < (src c).length then
      some (({ s with vol := { s.vol with outstanding := s.vol.outstanding + 1 } }).goto c
        (.begun i))
    else some (s.goto c (.returned (decide (i = (src c).length))))
  | .begun i =>
    if (s.vol.icache a).locked then none
    else
      match ilock a s.vol with
      | .error _ => none
      | .ok (_, vol) => some (({ s with vol := vol, lk := some c }).goto c (.locked i))
  | .locked i =>
    match writei a (chunk (src c) i) s.off s.vol with
    | .error _ => none
    | .ok (none, vol) => some (({ s with vol := vol }).goto c (.wrote i none))
    | .ok (some r, vol) =>
      some (({ s with vol := vol, written := s.written ++ [(c, chunk (src c) i)] }).goto c
        (.wrote i (some r)))
  | .wrote i r => some (({ s with off := s.off + BitVec.ofNat 32 (r.getD 0) }).goto c (.moved i r))
  | .moved i r =>
    match iunlock a s.vol with
    | .error _ => none
    | .ok (_, vol) => some (({ s with vol := vol, lk := none }).goto c (.unlocked i r))
  | .unlocked i r =>
    some (({ s with vol := { s.vol with outstanding := s.vol.outstanding - 1 } }).goto c
      (.ended i r))
  | .ended i none => some (s.goto c (.returned (decide (i = (src c).length))))
  | .ended i (some r) =>
    if r = (chunk (src c) i).length then some (s.goto c (.loop (i + r))) else none
  | .returned _ => none

/-! ## What a call has written -/

def World.pieces (s : World ι) (c : ι) : List (List Uchar) :=
  (s.written.filter fun piece => decide (piece.1 = c)).map Prod.snd

def Progress (src bytes : List Uchar) : Pc → Prop
  | .start => bytes = []
  | .loop i | .begun i | .locked i => i ≤ src.length ∧ bytes = src.take i
  | .wrote i r | .moved i r | .unlocked i r | .ended i r =>
    r = none ∧ bytes = src.take i ∧ i ≤ src.length ∨
      r = some (chunk src i).length ∧ bytes = src.take (i + (chunk src i).length) ∧
        i + (chunk src i).length ≤ src.length
  | .returned ok => ok = true → bytes = src

theorem length_chunk_le (src : List Uchar) (i : Nat) : (chunk src i).length ≤ max :=
  List.length_take_le _ _

theorem take_chunk (src : List Uchar) (i : Nat) :
    src.take i ++ chunk src i = src.take (i + (chunk src i).length) := by
  rw [List.take_add, chunk, List.length_take, ← List.take_eq_take_min]

variable {i : Nat} {src : ι → List Uchar} {a : Fin NINODE}

theorem add_length_chunk_le {src : List Uchar} (inside : i ≤ src.length) :
    i + (chunk src i).length ≤ src.length := by
  rw [chunk, List.length_take, List.length_drop]
  omega

/-! ## What a step can do -/

inductive Turn (src : List Uchar) : Pc → Pc → Prop
  | start : Turn src .start (.loop 0)
  | begin_op (i : Nat) (more : i < src.length) : Turn src (.loop i) (.begun i)
  | finish (i : Nat) : Turn src (.loop i) (.returned (decide (i = src.length)))
  | end_op (i : Nat) (r : Option Nat) : Turn src (.unlocked i r) (.ended i r)
  | failed (i : Nat) : Turn src (.ended i none) (.returned (decide (i = src.length)))
  | next (i : Nat) : Turn src (.ended i (some (chunk src i).length))
      (.loop (i + (chunk src i).length))

/-- The steps of call `c`. -/
inductive Move (a : Fin NINODE) (src : ι → List Uchar) (s : World ι) (c : ι) : World ι → Prop
  | turn (count : Nat) (new : Pc) (how : Turn (src c) (s.pc c) new) :
      Move a src s c (({ s with vol := { s.vol with outstanding := count } }).goto c new)
  | lock (i : Nat) (vol : Vol) (here : s.pc c = .begun i)
      (free : (s.vol.icache a).locked = false) (success : ilock a s.vol = .ok ((), vol)) :
      Move a src s c (({ s with vol := vol, lk := some c }).goto c (.locked i))
  | refuse (i : Nat) (vol : Vol) (here : s.pc c = .locked i)
      (success : writei a (chunk (src c) i) s.off s.vol = .ok (none, vol)) :
      Move a src s c (({ s with vol := vol }).goto c (.wrote i none))
  | write (i r : Nat) (vol : Vol) (here : s.pc c = .locked i)
      (success : writei a (chunk (src c) i) s.off s.vol = .ok (some r, vol)) :
      Move a src s c (({ s with
        vol := vol, written := s.written ++ [(c, chunk (src c) i)] }).goto c (.wrote i (some r)))
  | advance (i : Nat) (r : Option Nat) (here : s.pc c = .wrote i r) :
      Move a src s c (({ s with off := s.off + BitVec.ofNat 32 (r.getD 0) }).goto c (.moved i r))
  | unlock (i : Nat) (r : Option Nat) (vol : Vol) (here : s.pc c = .moved i r)
      (success : iunlock a s.vol = .ok ((), vol)) :
      Move a src s c (({ s with vol := vol, lk := none }).goto c (.unlocked i r))

theorem Move.of_step {s t : World ι} {c : ι}
    (taken : step a src s c = some t) : Move a src s c t := by
  unfold step at taken
  split at taken
  · rename_i here
    cases taken
    exact .turn s.vol.outstanding _ (here ▸ .start)
  · rename_i i here
    split at taken
    · rename_i more
      cases taken
      exact .turn _ _ (here ▸ .begin_op i more)
    · cases taken
      exact .turn s.vol.outstanding _ (here ▸ .finish i)
  · rename_i i here
    split at taken
    · cases taken
    · rename_i free
      split at taken
      · cases taken
      · rename_i success
        cases taken
        exact .lock i _ here (Bool.eq_false_of_not_eq_true free) success
  · rename_i i here
    split at taken
    · cases taken
    · rename_i success
      cases taken
      exact .refuse i _ here success
    · rename_i success
      cases taken
      exact .write i _ _ here success
  · rename_i i r here
    cases taken
    exact .advance i r here
  · rename_i i r here
    split at taken
    · cases taken
    · rename_i success
      cases taken
      exact .unlock i r _ here success
  · rename_i i r here
    cases taken
    exact .turn _ _ (here ▸ .end_op i r)
  · rename_i i here
    cases taken
    exact .turn s.vol.outstanding _ (here ▸ .failed i)
  · rename_i i r here
    split at taken
    · rename_i whole
      cases taken
      subst whole
      exact .turn s.vol.outstanding _ (here ▸ .next i)
    · cases taken
  · cases taken

/-! ## The inode -/

/-- Slot `a` of the inode cache is for the regular file `i` of a sound disk. -/
structure Regular (a : Fin NINODE) (i : Nat) (vol : Vol) : Prop where
  sound : Sound vol.sb vol.disk
  inum : (vol.icache a).inum = i
  exists_ : i < vol.sb.ninodes
  ref : 1 ≤ (vol.icache a).ref
  kind : (dinodeAt vol.sb vol.disk i).type = T_FILE
  cached : (vol.icache a).valid = true → (vol.icache a).toDinode = dinodeAt vol.sb vol.disk i

section Inode

variable {a : Fin NINODE} {i : Nat} {vol vol' : Vol}

theorem Regular.loaded (regular : Regular a i vol) :
    vol.loaded a = dinodeAt vol.sb vol.disk i := by
  unfold Vol.loaded
  split
  · rename_i valid
    exact regular.cached valid
  · rw [regular.inum]

theorem Regular.ilock (regular : Regular a i vol) (success : ilock a vol = .ok ((), vol')) :
    Regular a i vol' ∧ vol'.sb = vol.sb ∧ vol'.disk = vol.disk ∧ (vol'.icache a).locked = true ∧
      (vol'.icache a).valid = true := by
  have spec : wp (Volume.ilock a) vol (fun _ t => t = vol.setInode a
      ⟨vol.loaded a, (vol.icache a).inum, (vol.icache a).ref, true, true⟩) fun _ => True :=
    ilock_spec (fun _ => trivial) (fun _ => trivial) (fun _ => trivial) (fun _ _ => trivial)
      fun _ _ _ => rfl
  rw [wp_ok spec success, regular.loaded]
  refine ⟨⟨regular.sound, ?_, regular.exists_, ?_, regular.kind, fun _ => ?_⟩, rfl, rfl, ?_, ?_⟩ <;>
    simp only [Vol.setInode, Function.update_self]
  · exact regular.inum
  · exact regular.ref

theorem Regular.iunlock (regular : Regular a i vol) (success : iunlock a vol = .ok ((), vol')) :
    Regular a i vol' ∧ vol'.sb = vol.sb ∧ vol'.disk = vol.disk ∧
      (vol'.icache a).locked = false := by
  have spec : wp (Volume.iunlock a) vol (fun _ t => t = vol.setInode a
      { vol.icache a with locked := false }) fun _ => True := by
    unfold Volume.iunlock
    simp only [wp_bind, wp_get]
    split
    · trivial
    · exact rfl
  rw [wp_ok spec success]
  refine ⟨⟨regular.sound, ?_, regular.exists_, ?_, regular.kind, fun valid => ?_⟩, rfl, rfl, ?_⟩ <;>
    simp only [Vol.setInode, Function.update_self] at *
  · exact regular.inum
  · exact regular.ref
  · exact regular.cached valid

theorem read_write_end (b : Bytes) (n : Nat) (src : List Uchar) :
    (b.write n src).read 0 (n + src.length) = b.read 0 n ++ src := by
  rw [Bytes.read_add, Nat.zero_add, Bytes.read_write_self, Bytes.read_write_apart]
  exact Or.inl (by omega)

/-- `writei` at the end of the file either changes nothing or appends. -/
theorem Regular.writei (regular : Regular a i vol) (valid : (vol.icache a).valid = true)
    {src : List Uchar} {off : Uint} {r : Option Nat}
    (atEnd : off.toNat = (dinodeAt vol.sb vol.disk i).size.toNat)
    (success : writei a src off vol = .ok (r, vol')) :
    Regular a i vol' ∧ (vol'.icache a).locked = (vol.icache a).locked ∧
      (vol'.icache a).valid = true ∧
      (r = none ∧ vol' = vol ∨ r = some src.length ∧
        (dinodeAt vol'.sb vol'.disk i).size.toNat = off.toNat + src.length ∧
        (dinodeAt vol'.sb vol'.disk i).contents vol'.disk =
          (dinodeAt vol.sb vol.disk i).contents vol.disk ++ src) := by
  have cached := regular.cached valid
  have kind : (vol.icache a).type = T_FILE := by rw [cached, regular.kind]
  have at_ : (vol.icache a).toDinode = dinodeAt vol.sb vol.disk (vol.icache a).inum := by
    rw [regular.inum, cached]
  have spec := wp_ok (writei_spec regular.sound at_ (regular.inum.symm ▸ regular.exists_)
    (by rw [kind]; decide) (by rw [kind]; decide) src off) success
  rcases spec with ⟨rfl, rfl, -⟩ | ⟨rfl, -, -, d, disk', rfl, written⟩
  · exact ⟨regular, rfl, valid, Or.inl ⟨rfl, rfl⟩⟩
  · rw [regular.inum] at written
    have size : d.size.toNat = off.toNat + src.length := by
      rw [written.size, ← atEnd]
      omega
    have type : d.type = T_FILE := by rw [written.fields, regular.kind]
    refine ⟨⟨written.sound, ?_, regular.exists_, ?_, ?_, fun _ => ?_⟩, ?_, ?_,
      Or.inr ⟨rfl, ?_, ?_⟩⟩ <;>
      simp only [Vol.put_icache_self, Vol.put_sb, Vol.put_disk, written.inode]
    · exact regular.inum
    · exact regular.ref
    · exact type
    · exact valid
    · exact size
    · rw [written.contents, size, read_write_end, Dinode.contents, ← atEnd]

end Inode

/-! ## The invariant -/

def Pc.inside : Pc → Bool
  | .locked _ | .wrote _ _ | .moved _ _ => true
  | _ => false

def Pc.ahead : Pc → Nat
  | .wrote _ r => r.getD 0
  | _ => 0

def World.ahead (s : World ι) : Nat :=
  match s.lk with
  | none => 0
  | some c => (s.pc c).ahead

def World.dinode (s : World ι) (i : Nat) : Dinode := dinodeAt s.vol.sb s.vol.disk i

/-- The file is `base` and then what was written, and the offset is at its end. -/
structure Appending (base : List Uchar) (src : ι → List Uchar) (a : Fin NINODE) (i : Nat)
    (s : World ι) : Prop where
  regular : Regular a i s.vol
  lock : (s.vol.icache a).locked = s.lk.isSome
  valid : s.lk.isSome = true → (s.vol.icache a).valid = true
  excl : Excl Pc.inside s.lk s.pc
  offset : s.off.toNat + s.ahead = (s.dinode i).size.toNat
  contents : (s.dinode i).contents s.vol.disk = base ++ (s.written.map Prod.snd).flatten
  progress : ∀ c, Progress (src c) (s.pieces c).flatten (s.pc c)
  chunks : ∀ piece ∈ s.written, piece.2.length ≤ max

section Step

variable {base : List Uchar} {src : ι → List Uchar} {a : Fin NINODE} {i : Nat} {s t : World ι}
  {c : ι}

variable {old new : Pc} {bytes : List Uchar} {vol : Vol} {j : Nat}

theorem Turn.inside_old (how : Turn bytes old new) :
    old.inside = false := by
  cases how <;> rfl

theorem Turn.inside_new (how : Turn bytes old new) :
    new.inside = false := by
  cases how <;> rfl

theorem Turn.progress {whole : List Uchar} (how : Turn whole old new)
    (progress : Progress whole bytes old) : Progress whole bytes new := by
  cases how with
  | start => exact ⟨Nat.zero_le _, progress⟩
  | begin_op j more => exact progress
  | finish j =>
    intro all
    rw [progress.2, of_decide_eq_true all, List.take_length]
  | end_op j r => exact progress
  | failed j =>
    intro all
    grind [Progress]
  | next j => grind [Progress]

section

variable (appending : Appending base src a i s)

include appending

theorem progress_goto
    (pieces : ∀ u, u ≠ c → t.pieces u = s.pieces u) (pc : t.pc = Function.update s.pc c new)
    (mine : Progress (src c) (t.pieces c).flatten new) (u : ι) :
    Progress (src u) (t.pieces u).flatten (t.pc u) := by
  rw [pc]
  by_cases self : u = c
  · subst self
    rwa [Function.update_self]
  · rw [Function.update_of_ne self, pieces u self]
    exact appending.progress u

theorem Appending.holds
    (inside : (s.pc c).inside = true) : s.lk = some c :=
  (appending.excl c).mp inside

theorem Appending.free
    (unlocked : (s.vol.icache a).locked = false) : s.lk = none := by
  rw [appending.lock] at unlocked
  exact Option.isSome_eq_false_iff.mp unlocked |> Option.isNone_iff_eq_none.mp

theorem Appending.turn (count : Nat)
    (how : Turn (src c) (s.pc c) new) :
    Appending base src a i
      (({ s with vol := { s.vol with outstanding := count } }).goto c new) where
  regular := ⟨appending.regular.sound, appending.regular.inum, appending.regular.exists_,
    appending.regular.ref, appending.regular.kind, appending.regular.cached⟩
  lock := appending.lock
  valid := appending.valid
  excl := appending.excl.stay (how.inside_new.trans how.inside_old.symm)
  offset := by
    have offset := appending.offset
    have same : (({ s with vol := { s.vol with outstanding := count } }).goto c new).ahead =
        s.ahead := by
      unfold World.ahead World.goto
      dsimp only
      cases holder : s.lk with
      | none => rfl
      | some d =>
        have differs : d ≠ c := by
          rintro rfl
          have inside := (appending.excl d).mpr holder
          rw [how.inside_old] at inside
          cases inside
        dsimp only
        rw [Function.update_of_ne differs]
    rw [same]
    exact offset
  contents := appending.contents
  progress := progress_goto appending (fun _ _ => rfl) rfl
    (how.progress (appending.progress c))
  chunks := appending.chunks

theorem Appending.locks
    (here : s.pc c = .begun j) (unlocked : (s.vol.icache a).locked = false)
    (success : ilock a s.vol = .ok ((), vol)) :
    Appending base src a i (({ s with vol := vol, lk := some c }).goto c (.locked j)) := by
  have free := appending.free unlocked
  obtain ⟨regular, sb, disk, locked, valid⟩ := appending.regular.ilock success
  refine ⟨regular, locked, fun _ => valid, appending.excl.take free rfl, ?_, ?_, ?_,
    appending.chunks⟩
  · have offset := appending.offset
    rw [World.ahead, free] at offset
    simp only [World.ahead, World.goto, Function.update_self, Pc.ahead, World.dinode, sb, disk]
    exact offset
  · simp only [World.dinode, World.goto, sb, disk]
    exact appending.contents
  · refine progress_goto appending (fun _ _ => rfl) rfl ?_
    have progress := appending.progress c
    rw [here] at progress
    exact progress

theorem Appending.refuses (here : s.pc c = .locked j)
    (success : writei a (chunk (src c) j) s.off s.vol = .ok (none, vol)) :
    Appending base src a i (({ s with vol := vol }).goto c (.wrote j none)) := by
  have held := appending.holds (c := c) (by rw [here]; rfl)
  have atEnd := appending.offset
  rw [World.ahead, held] at atEnd
  simp only [here, Pc.ahead, Nat.add_zero] at atEnd
  have valid := appending.valid (by rw [held]; rfl)
  obtain ⟨-, -, -, ⟨-, rfl⟩ | ⟨impossible, -⟩⟩ := appending.regular.writei valid atEnd success
  · refine ⟨appending.regular, appending.lock, appending.valid,
      appending.excl.stay (by rw [here]; rfl), ?_, appending.contents, ?_, appending.chunks⟩
    · simp only [World.ahead, World.goto, held, Function.update_self, Pc.ahead]
      exact atEnd
    · refine progress_goto appending (fun _ _ => rfl) rfl ?_
      have progress := appending.progress c
      rw [here] at progress
      exact Or.inl ⟨rfl, progress.2, progress.1⟩
  · cases impossible

theorem Appending.writes {r : Nat}
    (here : s.pc c = .locked j)
    (success : writei a (chunk (src c) j) s.off s.vol = .ok (some r, vol)) :
    Appending base src a i (({ s with
      vol := vol, written := s.written ++ [(c, chunk (src c) j)] }).goto c (.wrote j (some r))) := by
  have held := appending.holds (c := c) (by rw [here]; rfl)
  have atEnd := appending.offset
  rw [World.ahead, held] at atEnd
  simp only [here, Pc.ahead, Nat.add_zero] at atEnd
  have valid := appending.valid (by rw [held]; rfl)
  obtain ⟨regular, locked, valid', ⟨impossible, -⟩ | ⟨whole, size, contents⟩⟩ :=
    appending.regular.writei valid atEnd success
  · cases impossible
  cases whole
  refine ⟨regular, locked.trans appending.lock, fun _ => valid',
    appending.excl.stay (by rw [here]; rfl), ?_, ?_, ?_, ?_⟩
  · simp only [World.ahead, World.goto, held, Function.update_self, Pc.ahead]
    exact size.symm
  · grind [World.dinode, World.goto, Appending]
  · refine progress_goto appending (fun u other => ?_) rfl ?_
    · simp only [World.pieces, World.goto, List.filter_append, List.map_append]
      rw [List.filter_cons_of_neg (by simpa using fun same => other same.symm)]
      simp
    · have progress := appending.progress c
      rw [here] at progress
      refine Or.inr ⟨rfl, ?_, add_length_chunk_le progress.1⟩
      simp only [World.pieces, World.goto, List.filter_append, List.map_append,
        List.flatten_append]
      rw [← take_chunk, ← progress.2]
      simp [World.pieces]
  · intro piece member
    rcases List.mem_append.mp member with old | new
    · exact appending.chunks piece old
    · rw [List.mem_singleton.mp new]
      exact length_chunk_le _ _

variable {r : Option Nat}

theorem Appending.advances (here : s.pc c = .wrote j r) :
    Appending base src a i
      (({ s with off := s.off + BitVec.ofNat 32 (r.getD 0) }).goto c (.moved j r)) := by
  have held := appending.holds (c := c) (by rw [here]; rfl)
  refine ⟨appending.regular, appending.lock, appending.valid,
    appending.excl.stay (by rw [here]; rfl), ?_, appending.contents, ?_, appending.chunks⟩
  · have offset := appending.offset
    rw [World.ahead, held] at offset
    simp only [here, Pc.ahead] at offset
    have bound := (s.dinode i).size.isLt
    simp only [World.ahead, World.goto, held, Function.update_self, Pc.ahead, Nat.add_zero]
    rw [BitVec.toNat_add, BitVec.toNat_ofNat, Nat.add_mod_mod, Nat.mod_eq_of_lt (by omega)]
    exact offset
  · refine progress_goto appending (fun _ _ => rfl) rfl ?_
    have progress := appending.progress c
    rw [here] at progress
    exact progress

theorem Appending.unlocks (here : s.pc c = .moved j r) (success : iunlock a s.vol = .ok ((), vol)) :
    Appending base src a i (({ s with vol := vol, lk := none }).goto c (.unlocked j r)) := by
  have held := appending.holds (c := c) (by rw [here]; rfl)
  obtain ⟨regular, sb, disk, unlocked⟩ := appending.regular.iunlock success
  refine ⟨regular, unlocked, fun some => absurd some Bool.false_ne_true,
    appending.excl.give (by rw [here]; rfl) rfl, ?_, ?_, ?_, appending.chunks⟩
  · grind [World.ahead, Pc.ahead, World.goto, World.dinode, Appending]
  · simp only [World.dinode, World.goto, sb, disk]
    exact appending.contents
  · refine progress_goto appending (fun _ _ => rfl) rfl ?_
    have progress := appending.progress c
    rw [here] at progress
    exact progress

theorem Appending.step (move : Move a src s c t) :
    Appending base src a i t := by
  cases move with
  | turn count new how => exact appending.turn count how
  | lock j vol here free success => exact appending.locks here free success
  | refuse j vol here success => exact appending.refuses here success
  | write j r vol here success => exact appending.writes here success
  | advance j r here => exact appending.advances here
  | unlock j r vol here success => exact appending.unlocks here success

end

end Step

/-! ## Whole runs -/

def launch (ι : Type) (vol : Vol) (off : Uint) : World ι where
  vol := vol
  off := off
  pc := fun _ => .start
  lk := none
  written := []

theorem appending_launch {vol : Vol}
    {off : Uint} (regular : Regular a i vol) (unlocked : (vol.icache a).locked = false)
    (atEnd : off = (dinodeAt vol.sb vol.disk i).size) :
    Appending ((dinodeAt vol.sb vol.disk i).contents vol.disk) src a i (launch ι vol off) where
  regular := regular
  lock := unlocked
  valid := fun some => absurd some Bool.false_ne_true
  excl := fun c => iff_of_false Bool.false_ne_true (fun held => by cases held)
  offset := congrArg BitVec.toNat atEnd
  contents := (List.append_nil _).symm
  progress := fun c => rfl
  chunks := fun piece member => absurd member List.not_mem_nil

def smallVol : Vol where
  files := Syscall.oneProcess ⟨0, 0, 0, 0, 0, 0, 0⟩
  sb := smallSuper
  disk := smallDisk
  icache := fun _ => ⟨Dinode.zero, 2, 1, false, false⟩
  outstanding := 0
  input := []

theorem small_regular : Regular 0 2 smallVol where
  sound := small_sound
  inum := rfl
  exists_ := by decide
  ref := le_rfl
  kind := by decide +kernel
  cached := fun valid => absurd valid Bool.false_ne_true

def smallSrc : Bool → List Uchar
  | false => [1]
  | true => [2, 3]

def smallCalls : List Bool :=
  [false, true, false, true, true, true, true, true, false, true, false, true, false, true, false,
    false, false, false]

end Xv6Tracing.Volume.SharedOffset
