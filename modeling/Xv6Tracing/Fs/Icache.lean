import Xv6Tracing.Lib.Count
import Xv6Tracing.Lib.Run
import Xv6Tracing.Params

/-!
# The inode cache under concurrency

`ialloc`, `iget`, `idup`, `ilock`, `iupdate`, `iunlock` and `iput` of `fs.c`, with one
device.  A step is one critical section of `icache.lock`, one access to a locked buffer,
taking or releasing an inode's sleep lock, or one change of an in-memory inode.

Any number of references is in use at once, each by one caller, which is at some point
of these functions.  The holder of the sleep lock may change any field but the type, and
writes them back with `iupdate` before `iunlock`.
-/

set_option autoImplicit false

namespace Xv6Tracing.Icache

open Function (update update_eq_self update_of_ne update_self)

open Lib

universe u

def NDIRECT : Nat := 12

abbrev Short := BitVec 16

/-- What `struct inode` and `struct dinode` have in common. -/
structure Fields where
  type : Short
  major : Short
  minor : Short
  nlink : Short
  size : Uint
  addrs : Fin (NDIRECT + 1) → Uint
deriving DecidableEq

/-- `memset(dip, 0, sizeof(*dip))` and the type. -/
def Fields.fresh (type : Short) : Fields := ⟨type, 0, 0, 0, 0, fun _ => 0⟩

/-- `struct inode`; `valid` is `I_VALID`. -/
structure Inode where
  inum : Nat
  ref : Nat
  locked : Bool
  valid : Bool
  fields : Fields

/-- Where `iput` is after it has released `icache.lock` to free an inode. -/
inductive Freeing where
  | itrunc
  | truncated
  | clear
  | cleared
  | finish
deriving DecidableEq, Repr

/-- Where the caller with a reference is: it has none; looks for a free inode in
`ialloc`; has marked one allocated and is about to `iget` it; has a reference;
in `ilock` with the lock, about to read the inode; past `ilock`; past it with
changes not written back; in `iput`, freeing the inode. -/
inductive Pc where
  | none
  | scanning (type : Short) (inum : Nat)
  | allocated (inum : Nat)
  | held (a : Fin NINODE)
  | filling (a : Fin NINODE)
  | locked (a : Fin NINODE)
  | dirty (a : Fin NINODE)
  | freeing (a : Fin NINODE) (stage : Freeing)
deriving DecidableEq, Repr

def Pc.entry : Pc → Option (Fin NINODE)
  | .none | .scanning _ _ | .allocated _ => Option.none
  | .held a | .filling a | .locked a | .dirty a | .freeing a _ => some a

def Pc.lock : Pc → Option (Fin NINODE)
  | .filling a | .locked a | .dirty a => some a
  | _ => Option.none

def Pc.freed : Pc → Option (Fin NINODE)
  | .freeing a _ => some a
  | _ => Option.none

def Pc.changed : Pc → Option (Fin NINODE)
  | .dirty a => some a
  | _ => Option.none

/-- `disk` is the inode table in the buffer cache. -/
structure Cache (R : Type u) where
  ninodes : Nat
  disk : Nat → Fields
  inode : Fin NINODE → Inode
  pc : R → Pc

section Steps

variable {R : Type u} [DecidableEq R]

def Cache.setPc (s : Cache R) (r : R) (pc : Pc) : Cache R :=
  { s with pc := Function.update s.pc r pc }

def Cache.setInode (s : Cache R) (a : Fin NINODE) (ip : Inode) : Cache R :=
  { s with inode := Function.update s.inode a ip }

def Cache.setDisk (s : Cache R) (inum : Nat) (dip : Fields) : Cache R :=
  { s with disk := Function.update s.disk inum dip }

/-- One turn of the loop of `ialloc`; `none` is `panic("ialloc: no inodes")`. -/
def ialloc (s : Cache R) (r : R) (type : Short) (inum : Nat) : Option (Cache R) :=
  if inum < s.ninodes then
    if (s.disk inum).type = 0 then
      some ((s.setDisk inum (.fresh type)).setPc r (.allocated inum))
    else some (s.setPc r (.scanning type (inum + 1)))
  else none

def cached (s : Cache R) (inum : Nat) : Option (Fin NINODE) :=
  (List.finRange NINODE).find? fun a => decide (0 < (s.inode a).ref ∧ (s.inode a).inum = inum)

def emptySlot (s : Cache R) : Option (Fin NINODE) :=
  (List.finRange NINODE).find? fun a => decide ((s.inode a).ref = 0)

/-- `none` is `panic("iget: no inodes")`. -/
def iget (s : Cache R) (r : R) (inum : Nat) : Option (Cache R) :=
  match cached s inum with
  | some a => some ((s.setInode a { s.inode a with ref := (s.inode a).ref + 1 }).setPc r (.held a))
  | none =>
    match emptySlot s with
    | none => none
    | some a =>
      some ((s.setInode a { s.inode a with inum := inum, ref := 1, valid := false }).setPc r
        (.held a))

def idup (s : Cache R) (new : R) (a : Fin NINODE) : Cache R :=
  (s.setInode a { s.inode a with ref := (s.inode a).ref + 1 }).setPc new (.held a)

/-- `ilock` up to where it has the lock; it waits while another caller has it. -/
def acquire (s : Cache R) (r : R) (a : Fin NINODE) : Option (Cache R) :=
  if (s.inode a).ref < 1 ∨ (s.inode a).locked then none
  else
    some ((s.setInode a { s.inode a with locked := true }).setPc r
      (if (s.inode a).valid then .locked a else .filling a))

/-- The rest of `ilock` for an entry that is not valid; `none` is
`panic("ilock: no type")`. -/
def fill (s : Cache R) (r : R) (a : Fin NINODE) : Option (Cache R) :=
  let dip := s.disk (s.inode a).inum
  if dip.type = 0 then none
  else some ((s.setInode a { s.inode a with valid := true, fields := dip }).setPc r (.locked a))

def change (s : Cache R) (r : R) (a : Fin NINODE) (fields : Fields) : Cache R :=
  (s.setInode a { s.inode a with
    fields := { fields with type := (s.inode a).fields.type } }).setPc r (.dirty a)

def iupdate (s : Cache R) (a : Fin NINODE) : Cache R :=
  s.setDisk (s.inode a).inum (s.inode a).fields

def iunlock (s : Cache R) (r : R) (a : Fin NINODE) : Option (Cache R) :=
  if (s.inode a).locked = false ∨ (s.inode a).ref < 1 then none
  else some ((s.setInode a { s.inode a with locked := false }).setPc r (.held a))

def iput (s : Cache R) (r : R) (a : Fin NINODE) : Cache R :=
  if (s.inode a).ref = 1 ∧ (s.inode a).valid ∧ (s.inode a).fields.nlink = 0 then
    s.setPc r (.freeing a .itrunc)
  else (s.setInode a { s.inode a with ref := (s.inode a).ref - 1 }).setPc r .none

/-- What `iput` does from there on: `itrunc` frees the blocks and sets the size to
0, then `iupdate`; the type is cleared, then `iupdate`; the second critical
section. -/
def free (s : Cache R) (r : R) (a : Fin NINODE) : Freeing → Cache R
  | .itrunc =>
    (s.setInode a { s.inode a with
      fields := { (s.inode a).fields with size := 0, addrs := fun _ => 0 } }).setPc r
        (.freeing a .truncated)
  | .truncated => (iupdate s a).setPc r (.freeing a .clear)
  | .clear =>
    (s.setInode a { s.inode a with fields := { (s.inode a).fields with type := 0 } }).setPc r
      (.freeing a .cleared)
  | .cleared => (iupdate s a).setPc r (.freeing a .finish)
  | .finish =>
    (s.setInode a { s.inode a with valid := false, ref := (s.inode a).ref - 1 }).setPc r .none

inductive Op (R : Type u) where
  | ialloc (r : R) (type : Short)
  | scan (r : R)
  | iget (r : R) (inum : Nat)
  | idup (r new : R)
  | acquire (r : R)
  | fill (r : R)
  | change (r : R) (fields : Fields)
  | iupdate (r : R)
  | iunlock (r : R)
  | iput (r : R)
  | free (r : R)

def step (s : Cache R) : Op R → Option (Cache R)
  | .ialloc r type => if s.pc r = .none then some (s.setPc r (.scanning type 1)) else none
  | .scan r =>
    match s.pc r with
    | .scanning type inum => ialloc s r type inum
    | _ => none
  | .iget r inum =>
    if s.pc r = .none ∨ s.pc r = .allocated inum then iget s r inum else none
  | .idup r new =>
    match s.pc r, s.pc new with
    | .held a, .none | .locked a, .none | .dirty a, .none => some (idup s new a)
    | _, _ => none
  | .acquire r =>
    match s.pc r with
    | .held a => acquire s r a
    | _ => none
  | .fill r =>
    match s.pc r with
    | .filling a => fill s r a
    | _ => none
  | .change r fields =>
    match s.pc r with
    | .locked a | .dirty a => some (change s r a fields)
    | _ => none
  | .iupdate r =>
    match s.pc r with
    | .locked a | .dirty a => some ((iupdate s a).setPc r (.locked a))
    | _ => none
  | .iunlock r =>
    match s.pc r with
    | .locked a => iunlock s r a
    | _ => none
  | .iput r =>
    match s.pc r with
    | .held a => some (iput s r a)
    | _ => none
  | .free r =>
    match s.pc r with
    | .freeing a stage => some (free s r a stage)
    | _ => none

def Cache.initial (R : Type u) (ninodes : Nat) (disk : Nat → Fields) : Cache R where
  ninodes := ninodes
  disk := disk
  inode := fun _ => ⟨0, 0, false, false, .fresh 0⟩
  pc := fun _ => .none

end Steps

/-! ## The invariant -/

section Invariant

variable {R : Type u} {s t : Cache R}

/-- Whenever `ilock` has returned, the copy is the inode on disk, and allocated. -/
def Coherent (s : Cache R) : Prop :=
  ∀ r a, s.pc r = .locked a →
    (s.inode a).fields = s.disk (s.inode a).inum ∧ (s.inode a).fields.type ≠ 0

def Freed (s : Cache R) (a : Fin NINODE) : Prop := ∃ r, (s.pc r).freed = some a

def Changed (s : Cache R) (a : Fin NINODE) : Prop := ∃ r, (s.pc r).changed = some a

/-- `ref` counts the references, so that the one reference of an inode being freed
is the only one.  The copy of an inode that is neither being freed nor in the
middle of a change is the one on disk. -/
structure Sound [Fintype R] (s : Cache R) : Prop where
  ref : ∀ a, (s.inode a).ref = countP (fun pc : Pc => pc.entry = some a) s.pc
  unique : ∀ a b, 0 < (s.inode a).ref → 0 < (s.inode b).ref →
    (s.inode a).inum = (s.inode b).inum → a = b
  lock : ∀ r a, (s.pc r).lock = some a → (s.inode a).locked = true
  holder : ∀ q r a, (s.pc q).lock = some a → (s.pc r).lock = some a → q = r
  valid : ∀ r a, s.pc r = .locked a ∨ s.pc r = .dirty a → (s.inode a).valid = true
  freed : ∀ a, Freed s a → (s.inode a).ref = 1
  typed : ∀ a, 0 < (s.inode a).ref → (s.inode a).valid = true → ¬ Freed s a →
    (s.inode a).fields.type ≠ 0 ∧ (s.disk (s.inode a).inum).type ≠ 0
  agree : ∀ a, 0 < (s.inode a).ref → (s.inode a).valid = true → ¬ Freed s a → ¬ Changed s a →
    (s.inode a).fields = s.disk (s.inode a).inum

instance [Fintype R] (s : Cache R) (a : Fin NINODE) : Decidable (Freed s a) :=
  inferInstanceAs (Decidable (∃ r, (s.pc r).freed = some a))

/-- No `iput` is between its critical sections, freeing the inode of that number. -/
def Quiescent (s : Cache R) (inum : Nat) : Prop :=
  ∀ a, (s.inode a).inum = inum → ¬ Freed s a

instance [Fintype R] (s : Cache R) (inum : Nat) : Decidable (Quiescent s inum) :=
  inferInstanceAs (Decidable (∀ a, (s.inode a).inum = inum → ¬ Freed s a))

/-- An `iget`, also that of `ialloc`, finds nobody freeing the inode. -/
def GetsQuiescent (s : Cache R) : Op R → Prop
  | .iget _ inum => Quiescent s inum
  | _ => True

instance [Fintype R] (s : Cache R) : ∀ op, Decidable (GetsQuiescent s op)
  | .iget _ inum => inferInstanceAs (Decidable (Quiescent s inum))
  | .ialloc .. | .scan .. | .idup .. | .acquire .. | .fill .. | .change .. | .iupdate ..
  | .iunlock .. | .iput .. | .free .. => isTrue trivial

variable {a : Fin NINODE} {inum : Nat} {r : R}

theorem cached_spec (found : cached s inum = some a) :
    0 < (s.inode a).ref ∧ (s.inode a).inum = inum := by
  simpa [cached] using List.find?_some found

theorem cached_none (missing : cached s inum = none) (a : Fin NINODE)
    (used : 0 < (s.inode a).ref) : (s.inode a).inum ≠ inum := by
  intro same
  have := List.find?_eq_none.mp missing a (List.mem_finRange a)
  simp [used, same] at this

theorem emptySlot_spec (found : emptySlot s = some a) :
    (s.inode a).ref = 0 := by
  simpa [emptySlot] using List.find?_some found

theorem entry_of_freed {pc : Pc} (freed : pc.freed = some a) :
    pc.entry = some a := by
  cases pc <;> simp_all [Pc.freed, Pc.entry]

theorem lock_of_changed {pc : Pc} (changed : pc.changed = some a) :
    pc.lock = some a := by
  cases pc <;> simp_all [Pc.changed, Pc.lock]

variable [Fintype R]

theorem Sound.ref_pos (sound : Sound s) (here : (s.pc r).entry = some a) :
    0 < (s.inode a).ref := by
  rw [sound.ref]
  exact countP_pos (p := r) here

/-- A reference that is not freeing the inode keeps others from freeing it. -/
theorem Sound.not_freed (sound : Sound s)
    (here : (s.pc r).entry = some a) (other : (s.pc r).freed = none) : ¬ Freed s a := by
  rintro ⟨q, freed⟩
  have one := sound.freed a ⟨q, freed⟩
  rw [sound.ref] at one
  cases eq_of_countP_eq_one one here (entry_of_freed freed)
  rw [freed] at other
  cases other

/-- The holder of the lock is the only one to change the inode. -/
theorem Sound.not_changed (sound : Sound s)
    (here : (s.pc r).lock = some a) (clean : (s.pc r).changed = none) : ¬ Changed s a := by
  rintro ⟨q, changed⟩
  cases sound.holder q r a (lock_of_changed changed) here
  rw [changed] at clean
  cases clean

theorem coherent_of_sound (sound : Sound s) : Coherent s := by
  intro r a locked
  have here : (s.pc r).entry = some a := by rw [locked]; rfl
  have free := sound.not_freed here (by rw [locked]; rfl)
  have valid := sound.valid r a (Or.inl locked)
  have clean := sound.not_changed (r := r) (a := a) (by rw [locked]; rfl) (by rw [locked]; rfl)
  exact ⟨sound.agree a (sound.ref_pos here) valid free clean,
    (sound.typed a (sound.ref_pos here) valid free).1⟩

variable [DecidableEq R]

section Update

variable {r : R} {pc : Pc} (pcs : t.pc = Function.update s.pc r pc)

include pcs

omit [Fintype R] in
theorem freed_iff (same : (s.pc r).freed = pc.freed) (b : Fin NINODE) :
    Freed t b ↔ Freed s b := by
  rw [Freed, pcs]
  exact exists_update_same (fun pc : Pc => pc.freed = some b) (by rw [same])

omit [Fintype R] in
theorem changed_iff (same : (s.pc r).changed = pc.changed) (b : Fin NINODE) :
    Changed t b ↔ Changed s b := by
  rw [Changed, pcs]
  exact exists_update_same (fun pc : Pc => pc.changed = some b) (by rw [same])

/-! ### The steps -/

theorem sound_of_outside (sound : Sound s) (before : (s.pc r).entry = none)
    (after : pc.entry = none) (inode : t.inode = s.inode)
    (disk : ∀ inum, (s.disk inum).type ≠ 0 → t.disk inum = s.disk inum) : Sound t := by
  have outside : ∀ {pc : Pc}, pc.entry = none →
      pc.lock = none ∧ pc.freed = none ∧ pc.changed = none := by
    intro pc outside
    cases pc <;> simp_all [Pc.entry, Pc.lock, Pc.freed, Pc.changed]
  obtain ⟨lockBefore, freedBefore, changedBefore⟩ := outside before
  obtain ⟨lockAfter, freedAfter, changedAfter⟩ := outside after
  have freed := freed_iff pcs (freedBefore.trans freedAfter.symm)
  have changed := changed_iff pcs (changedBefore.trans changedAfter.symm)
  have cases := update_cases pcs
  exact {
    ref := by
      intro b
      rw [inode, sound.ref b, references_same pcs (before.trans after.symm)]
    unique := by rw [inode]; exact sound.unique
    lock := by grind [Sound]
    holder := by grind [Sound]
    valid := by grind [Sound, Pc.entry]
    freed := by grind [Sound]
    typed := by grind [Sound]
    agree := by grind [Sound] }

variable {ip : Inode} {a : Fin NINODE}

section

variable (sound : Sound s)

include sound

theorem sound_of_referenced
    (before : (s.pc r).entry = none) (after : pc = .held a)
    (inodes : t.inode = update s.inode a ip)
    (more : ip = { s.inode a with ref := (s.inode a).ref + 1 }) (used : 0 < (s.inode a).ref)
    (notFreed : ¬ Freed s a) (disk : t.disk = s.disk) : Sound t := by
  have outside : (s.pc r).freed = none ∧ (s.pc r).changed = none := by
    cases here : s.pc r <;> simp_all [Pc.entry, Pc.freed, Pc.changed]
  have freed := freed_iff pcs (by rw [outside.1, after]; rfl)
  have changed := changed_iff pcs (by rw [outside.2, after]; rfl)
  have cases := update_cases pcs
  have entries := update_cases inodes
  exact {
    ref := by
      intro b
      rw [references_add pcs before (b := a) (by rw [after]; rfl)]
      grind [Sound]
    unique := by grind [Sound]
    lock := by grind [Sound, Pc.lock]
    holder := by grind [Sound, Pc.lock]
    valid := by grind [Sound]
    freed := by grind [Sound]
    typed := by grind [Sound]
    agree := by grind [Sound] }

theorem sound_of_recycled {inum : Nat}
    (before : (s.pc r).entry = none) (after : pc = .held a)
    (inodes : t.inode = update s.inode a ip)
    (new : ip = { s.inode a with inum := inum, ref := 1, valid := false })
    (unused : (s.inode a).ref = 0)
    (missing : ∀ b, 0 < (s.inode b).ref → (s.inode b).inum ≠ inum) (disk : t.disk = s.disk) :
    Sound t := by
  have outside : (s.pc r).freed = none ∧ (s.pc r).changed = none := by
    cases here : s.pc r <;> simp_all [Pc.entry, Pc.freed, Pc.changed]
  have freed := freed_iff pcs (by rw [outside.1, after]; rfl)
  have changed := changed_iff pcs (by rw [outside.2, after]; rfl)
  have cases := update_cases pcs
  have entries := update_cases inodes
  have nobody : ∀ q, (s.pc q).entry ≠ some a := by
    intro q here
    have := sound.ref_pos here
    omega
  exact {
    ref := by
      intro b
      rw [references_add pcs before (b := a) (by rw [after]; rfl)]
      grind [Sound]
    unique := by grind [Sound]
    lock := by grind [Sound, Pc.lock, Pc.entry]
    holder := by grind [Sound, Pc.lock]
    valid := by grind [Sound, Pc.entry]
    freed := by grind [Sound]
    typed := by grind [Sound]
    agree := by grind [Sound] }

theorem sound_of_acquired (before : s.pc r = .held a)
    (after : pc = if (s.inode a).valid then .locked a else .filling a)
    (inodes : t.inode = update s.inode a ip)
    (taken : ip = { s.inode a with locked := true }) (open_ : (s.inode a).locked = false)
    (disk : t.disk = s.disk) : Sound t := by
  have shape : pc.entry = some a ∧ pc.lock = some a ∧ pc.freed = none ∧ pc.changed = none := by
    rw [after]
    split <;> exact ⟨rfl, rfl, rfl, rfl⟩
  have freed := freed_iff pcs (by rw [before, shape.2.2.1]; rfl)
  have changed := changed_iff pcs (by rw [before, shape.2.2.2]; rfl)
  have cases := update_cases pcs
  have entries := update_cases inodes
  exact {
    ref := by
      intro b
      rw [references_same pcs (by rw [before, shape.1]; rfl)]
      grind [Sound]
    unique := by grind [Sound]
    lock := by grind [Sound]
    holder := by grind [Sound]
    valid := by grind [Sound]
    freed := by grind [Sound]
    typed := by grind [Sound]
    agree := by grind [Sound] }

theorem sound_of_filled (before : s.pc r = .filling a) (after : pc = .locked a)
    (inodes : t.inode = update s.inode a ip)
    (read : ip = { s.inode a with valid := true, fields := s.disk (s.inode a).inum })
    (typed : (s.disk (s.inode a).inum).type ≠ 0) (disk : t.disk = s.disk) : Sound t := by
  have freed := freed_iff pcs (by rw [before, after]; rfl)
  have changed := changed_iff pcs (by rw [before, after]; rfl)
  have cases := update_cases pcs
  have entries := update_cases inodes
  exact {
    ref := by
      intro b
      rw [references_same pcs (by rw [before, after]; rfl)]
      grind [Sound]
    unique := by grind [Sound]
    lock := by grind [Sound, Pc.lock]
    holder := by grind [Sound, Pc.lock]
    valid := by grind [Sound]
    freed := by grind [Sound]
    typed := by grind [Sound]
    agree := by grind [Sound] }

theorem sound_of_change {fields : Fields}
    (before : s.pc r = .locked a ∨ s.pc r = .dirty a) (after : pc = .dirty a)
    (inodes : t.inode = update s.inode a ip)
    (wrote : ip = { s.inode a with
      fields := { fields with type := (s.inode a).fields.type } })
    (disk : t.disk = s.disk) : Sound t := by
  have shape : (s.pc r).entry = some a ∧ (s.pc r).lock = some a ∧ (s.pc r).freed = none := by
    rcases before with here | here <;> rw [here] <;> exact ⟨rfl, rfl, rfl⟩
  have freed := freed_iff pcs (by rw [shape.2.2, after]; rfl)
  have mine : Changed t a := ⟨r, by rw [pcs, update_self, after]; rfl⟩
  have others : ∀ b, b ≠ a → Changed s b → Changed t b := by
    rintro b other ⟨q, changed⟩
    refine ⟨q, ?_⟩
    rw [pcs, update_of_ne]
    · exact changed
    · grind [lock_of_changed]
  have cases := update_cases pcs
  have entries := update_cases inodes
  exact {
    ref := by
      intro b
      rw [references_same pcs (by rw [shape.1, after]; rfl)]
      grind [Sound]
    unique := by grind [Sound]
    lock := by grind [Sound, Pc.lock]
    holder := by grind [Sound, Pc.lock]
    valid := by grind [Sound]
    freed := by grind [Sound]
    typed := by grind [Sound]
    agree := by grind [Sound] }

/-- `iupdate` by the holder of the lock: no other entry in use has that number. -/
theorem sound_of_iupdate
    (before : s.pc r = .locked a ∨ s.pc r = .dirty a) (after : pc = .locked a)
    (inode : t.inode = s.inode)
    (disk : t.disk = update s.disk (s.inode a).inum (s.inode a).fields) : Sound t := by
  have shape : (s.pc r).entry = some a ∧ (s.pc r).lock = some a ∧ (s.pc r).freed = none := by
    rcases before with here | here <;> rw [here] <;> exact ⟨rfl, rfl, rfl⟩
  have freed := freed_iff pcs (by rw [shape.2.2, after]; rfl)
  have others : ∀ b, b ≠ a → Changed s b → Changed t b := by
    rintro b other ⟨q, changed⟩
    refine ⟨q, ?_⟩
    rw [pcs, update_of_ne]
    · exact changed
    · grind [lock_of_changed]
  have used := sound.ref_pos shape.1
  have valid := sound.valid r a before
  have notFreed := sound.not_freed shape.1 shape.2.2
  have cases := update_cases pcs
  have own : t.disk (s.inode a).inum = (s.inode a).fields := by rw [disk, update_self]
  have elsewhere : ∀ b, b ≠ a → 0 < (s.inode b).ref →
      t.disk (s.inode b).inum = s.disk (s.inode b).inum := by
    intro b other usedB
    rw [disk, update_of_ne]
    exact fun same => other (sound.unique b a usedB used same)
  exact {
    ref := by
      intro b
      rw [references_same pcs (by rw [shape.1, after]; rfl), inode, sound.ref]
    unique := by rw [inode]; exact sound.unique
    lock := by grind [Sound, Pc.lock]
    holder := by grind [Sound, Pc.lock]
    valid := by grind [Sound]
    freed := by grind [Sound]
    typed := by
      intro b
      rw [inode, freed]
      grind [Sound]
    agree := by
      intro b
      rw [inode, freed]
      intro usedB validB free clean
      by_cases same : b = a
      · subst same
        exact own.symm
      · rw [elsewhere b same usedB]
        exact sound.agree b usedB validB free fun changed => clean (others b same changed) }

theorem sound_of_iunlock (before : s.pc r = .locked a) (after : pc = .held a)
    (inodes : t.inode = update s.inode a ip)
    (released : ip = { s.inode a with locked := false }) (disk : t.disk = s.disk) : Sound t := by
  have freed := freed_iff pcs (by rw [before, after]; rfl)
  have changed := changed_iff pcs (by rw [before, after]; rfl)
  have cases := update_cases pcs
  have entries := update_cases inodes
  exact {
    ref := by
      intro b
      rw [references_same pcs (by rw [before, after]; rfl)]
      grind [Sound]
    unique := by grind [Sound]
    lock := by grind [Sound, Pc.lock]
    holder := by grind [Sound, Pc.lock]
    valid := by grind [Sound]
    freed := by grind [Sound]
    typed := by grind [Sound]
    agree := by grind [Sound] }

theorem sound_of_dropped (before : s.pc r = .held a) (after : pc = .none)
    (inodes : t.inode = update s.inode a ip)
    (less : ip = { s.inode a with ref := (s.inode a).ref - 1 }) (disk : t.disk = s.disk) :
    Sound t := by
  have here : (s.pc r).entry = some a := by rw [before]; rfl
  have used := sound.ref_pos here
  have notFreed := sound.not_freed here (by rw [before]; rfl)
  have freed := freed_iff pcs (by rw [before, after]; rfl)
  have changed := changed_iff pcs (by rw [before, after]; rfl)
  have cases := update_cases pcs
  have entries := update_cases inodes
  exact {
    ref := by
      intro b
      have count := references_drop pcs here (by rw [after]; rfl) b
      grind [Sound]
    unique := by grind [Sound]
    lock := by grind [Sound, Pc.lock]
    holder := by grind [Sound, Pc.lock]
    valid := by grind [Sound]
    freed := by grind [Sound]
    typed := by grind [Sound]
    agree := by grind [Sound] }

/-- The only reference starts to free the inode, or goes on: whatever becomes of
the copy and of the inode on disk, nobody else looks at them. -/
theorem sound_of_freeing {stage : Freeing}
    (before : s.pc r = .held a ∨ (s.pc r).freed = some a) (one : (s.inode a).ref = 1)
    (after : pc = .freeing a stage) (inodes : t.inode = update s.inode a ip)
    (kept : ip.inum = (s.inode a).inum ∧ ip.ref = (s.inode a).ref ∧
      ip.locked = (s.inode a).locked ∧ ip.valid = (s.inode a).valid)
    (disk : ∀ inum, inum ≠ (s.inode a).inum → t.disk inum = s.disk inum) : Sound t := by
  have here : (s.pc r).entry = some a := by
    rcases before with held | freed
    · rw [held]; rfl
    · exact entry_of_freed freed
  have shape : (s.pc r).lock = none ∧ (s.pc r).changed = none := by
    cases place : s.pc r <;> simp_all [Pc.freed, Pc.lock, Pc.changed]
  have changed := changed_iff pcs (by rw [shape.2, after]; rfl)
  have mine : Freed t a := ⟨r, by rw [pcs, update_self, after]; rfl⟩
  have others : ∀ b, b ≠ a → (Freed t b ↔ Freed s b) := by
    intro b other
    rw [Freed, pcs]
    refine exists_update_same (fun pc : Pc => pc.freed = some b) ?_
    constructor
    · intro freed
      rw [entry_of_freed freed] at here
      exact absurd (Option.some.inj here) other
    · intro freed
      rw [after] at freed
      exact absurd (Option.some.inj freed).symm other
  have elsewhere : ∀ b, b ≠ a → 0 < (s.inode b).ref →
      t.disk (s.inode b).inum = s.disk (s.inode b).inum := by
    intro b other used
    exact disk _ fun same => other (sound.unique b a used (by omega) same)
  have cases := update_cases pcs
  have entries := update_cases inodes
  exact {
    ref := by
      intro b
      rw [references_same pcs (by rw [here, after]; rfl)]
      grind [Sound]
    unique := by grind [Sound]
    lock := by grind [Sound, Pc.lock]
    holder := by grind [Sound, Pc.lock]
    valid := by grind [Sound]
    freed := by grind [Sound]
    typed := by grind [Sound]
    agree := by grind [Sound] }

theorem sound_of_finished (before : (s.pc r).freed = some a) (after : pc = .none)
    (inodes : t.inode = update s.inode a ip)
    (last : ip = { s.inode a with valid := false, ref := (s.inode a).ref - 1 })
    (disk : t.disk = s.disk) : Sound t := by
  have here := entry_of_freed before
  have one := sound.freed a ⟨r, before⟩
  have shape : (s.pc r).lock = none ∧ (s.pc r).changed = none := by
    cases place : s.pc r <;> simp_all [Pc.freed, Pc.lock, Pc.changed]
  have changed := changed_iff pcs (by rw [shape.2, after]; rfl)
  have only : ∀ q, (s.pc q).entry = some a → q = r := by
    intro q there
    rw [sound.ref] at one
    exact eq_of_countP_eq_one one here there
  have gone : ¬ Freed t a := by
    rintro ⟨q, freed⟩
    rcases update_cases pcs q with ⟨-, now⟩ | ⟨other, same⟩
    · rw [now, after] at freed
      cases freed
    · rw [same] at freed
      exact other (only q (entry_of_freed freed))
  have others : ∀ b, b ≠ a → (Freed t b ↔ Freed s b) := by
    intro b other
    rw [Freed, pcs]
    refine exists_update_same (fun pc : Pc => pc.freed = some b) ?_
    rw [before, after]
    simp [Pc.freed, Ne.symm other]
  have cases := update_cases pcs
  have entries := update_cases inodes
  exact {
    ref := by
      intro b
      have count := references_drop pcs here (by rw [after]; rfl) b
      grind [Sound]
    unique := by grind [Sound]
    lock := by grind [Sound, Pc.lock]
    holder := by grind [Sound, Pc.lock]
    valid := by grind [Sound, Pc.entry]
    freed := by grind [Sound]
    typed := by grind [Sound]
    agree := by grind [Sound] }

end

end Update

theorem sound_iget (sound : Sound s) (before : (s.pc r).entry = none)
    (quiescent : Quiescent s inum) (taken : iget s r inum = some t) : Sound t := by
  unfold iget at taken
  split at taken
  · rename_i a found
    cases taken
    obtain ⟨used, number⟩ := cached_spec found
    exact sound_of_referenced (s := s) rfl sound before rfl rfl rfl used (quiescent a number) rfl
  · rename_i missing
    split at taken
    · cases taken
    · rename_i a found
      cases taken
      exact sound_of_recycled (s := s) rfl sound before rfl rfl rfl (emptySlot_spec found)
        (cached_none missing) rfl

theorem sound_step {op : Op R} (sound : Sound s) (quiescent : GetsQuiescent s op)
    (taken : step s op = some t) : Sound t := by
  cases op with
  | ialloc r type =>
    simp only [step] at taken
    split at taken
    · rename_i idle
      cases taken
      exact sound_of_outside (s := s) rfl sound (by rw [idle]; rfl) rfl rfl fun _ _ => rfl
    · cases taken
  | scan r =>
    cases here : s.pc r <;> simp only [step, here, reduceCtorEq] at taken
    rename_i type inum
    have before : (s.pc r).entry = none := by rw [here]; rfl
    unfold ialloc at taken
    split at taken
    · split at taken
      · rename_i free
        cases taken
        refine sound_of_outside (s := s) rfl sound before rfl rfl fun other typed => ?_
        exact update_of_ne (by rintro rfl; exact typed free) _ _
      · cases taken
        exact sound_of_outside (s := s) rfl sound before rfl rfl fun _ _ => rfl
    · cases taken
  | iget r inum =>
    simp only [step] at taken
    split at taken
    · rename_i place
      have before : (s.pc r).entry = none := by
        rcases place with here | here <;> rw [here] <;> rfl
      exact sound_iget sound before quiescent taken
    · cases taken
  | idup r new =>
    obtain ⟨a, here, idle, result⟩ : ∃ a, ((s.pc r).entry = some a ∧ (s.pc r).freed = none) ∧
        s.pc new = .none ∧ t = idup s new a := by
      cases here : s.pc r <;> cases idle : s.pc new <;>
        simp only [step, here, idle, reduceCtorEq, Option.some.injEq] at taken
      all_goals exact ⟨_, ⟨rfl, rfl⟩, rfl, taken.symm⟩
    subst result
    exact sound_of_referenced (s := s) rfl sound (by rw [idle]; rfl) rfl rfl rfl (sound.ref_pos here.1)
      (sound.not_freed here.1 here.2) rfl
  | acquire r =>
    cases here : s.pc r <;> simp only [step, here, reduceCtorEq] at taken
    unfold acquire at taken
    split at taken
    · cases taken
    · rename_i a tests
      cases taken
      have free : (s.inode a).locked = false := by simpa using (not_or.mp tests).2
      exact sound_of_acquired (s := s) rfl sound here rfl rfl rfl free rfl
  | fill r =>
    cases here : s.pc r <;> simp only [step, here, reduceCtorEq] at taken
    simp only [fill] at taken
    split at taken
    · cases taken
    · rename_i a typed
      cases taken
      exact sound_of_filled (s := s) rfl sound here rfl rfl rfl typed rfl
  | change r fields =>
    cases here : s.pc r <;> simp only [step, here, reduceCtorEq] at taken
    all_goals cases taken
    · exact sound_of_change (s := s) rfl sound (Or.inl here) rfl rfl rfl rfl
    · exact sound_of_change (s := s) rfl sound (Or.inr here) rfl rfl rfl rfl
  | iupdate r =>
    cases here : s.pc r <;> simp only [step, here, reduceCtorEq] at taken
    all_goals cases taken
    · exact sound_of_iupdate (s := s) rfl sound (Or.inl here) rfl rfl rfl
    · exact sound_of_iupdate (s := s) rfl sound (Or.inr here) rfl rfl rfl
  | iunlock r =>
    cases here : s.pc r <;> simp only [step, here, reduceCtorEq] at taken
    unfold iunlock at taken
    split at taken
    · cases taken
    · cases taken
      exact sound_of_iunlock (s := s) rfl sound here rfl rfl rfl rfl
  | iput r =>
    cases here : s.pc r <;> simp only [step, here, reduceCtorEq] at taken
    rename_i a
    cases taken
    unfold iput
    split
    · rename_i last
      exact sound_of_freeing (s := s) rfl sound (Or.inl here) last.1 rfl
        (update_eq_self a s.inode).symm ⟨rfl, rfl, rfl, rfl⟩ fun _ _ => rfl
    · exact sound_of_dropped (s := s) rfl sound here rfl rfl rfl rfl
  | free r =>
    cases here : s.pc r <;> simp only [step, here, reduceCtorEq] at taken
    rename_i a stage
    cases taken
    have freeing : (s.pc r).freed = some a := by rw [here]; rfl
    have one := sound.freed a ⟨r, freeing⟩
    have same := (update_eq_self a s.inode).symm
    cases stage with
    | itrunc =>
      exact sound_of_freeing (s := s) rfl sound (Or.inr freeing) one rfl rfl ⟨rfl, rfl, rfl, rfl⟩
        fun _ _ => rfl
    | truncated =>
      exact sound_of_freeing (s := s) rfl sound (Or.inr freeing) one rfl same ⟨rfl, rfl, rfl, rfl⟩
        fun _ other => update_of_ne other _ _
    | clear =>
      exact sound_of_freeing (s := s) rfl sound (Or.inr freeing) one rfl rfl ⟨rfl, rfl, rfl, rfl⟩
        fun _ _ => rfl
    | cleared =>
      exact sound_of_freeing (s := s) rfl sound (Or.inr freeing) one rfl same ⟨rfl, rfl, rfl, rfl⟩
        fun _ other => update_of_ne other _ _
    | finish => exact sound_of_finished (s := s) rfl sound freeing rfl rfl rfl rfl

omit [DecidableEq R] in
theorem sound_initial (ninodes : Nat) (disk : Nat → Fields) :
    Sound (Cache.initial R ninodes disk) where
  ref a := by
    have none : countP (fun pc : Pc => pc.entry = some a) (Cache.initial R ninodes disk).pc = 0 := by
      apply Finset.card_eq_zero.mpr
      simp [Cache.initial, Pc.entry]
    rw [none]
    rfl
  unique a _ used := absurd used (lt_irrefl 0)
  lock := by rintro r a ⟨⟩
  holder := by rintro q r a ⟨⟩
  valid := by rintro r a (⟨⟨⟩⟩ | ⟨⟨⟩⟩)
  freed := by rintro a ⟨r, ⟨⟩⟩
  typed a used := absurd used (lt_irrefl 0)
  agree a used := absurd used (lt_irrefl 0)

/-- As long as no `iget` comes while an `iput` is freeing the inode of that number,
every interleaving keeps the cache coherent. -/
theorem icache_coherent (ninodes : Nat) (disk : Nat → Fields) (ops : List (Op R))
    (quiescent : Along step GetsQuiescent (Cache.initial R ninodes disk) ops) :
    Throughout step Coherent (Cache.initial R ninodes disk) ops :=
  throughout_of_along (fun _ _ _ sound meets taken => sound_step sound meets taken)
    (fun _ => coherent_of_sound) ops (Cache.initial R ninodes disk)
    (sound_initial ninodes disk) quiescent

/-- References are counted, an inode is cached once, and one caller at a time has its lock. -/
structure Counted (s : Cache R) : Prop where
  ref : ∀ a, (s.inode a).ref = countP (fun pc : Pc => pc.entry = some a) s.pc
  unique : ∀ a b, 0 < (s.inode a).ref → 0 < (s.inode b).ref →
    (s.inode a).inum = (s.inode b).inum → a = b
  holder : ∀ q r a, (s.pc q).lock = some a → (s.pc r).lock = some a → q = r

theorem icache_counted (ninodes : Nat) (disk : Nat → Fields) (ops : List (Op R))
    (quiescent : Along step GetsQuiescent (Cache.initial R ninodes disk) ops) :
    Throughout step Counted (Cache.initial R ninodes disk) ops :=
  throughout_of_along (fun _ _ _ sound meets taken => sound_step sound meets taken)
    (fun _ sound => ⟨sound.ref, sound.unique, sound.holder⟩) ops (Cache.initial R ninodes disk)
    (sound_initial ninodes disk) quiescent

end Invariant

/-! ## An inode number used again -/

def twoInodes : Nat → Fields
  | 1 => ⟨1, 0, 0, 1, 512, fun _ => 0⟩
  | 2 => ⟨2, 0, 0, 1, 0, fun _ => 0⟩
  | _ => .fresh 0

def removeFile : List (Op (Fin 2)) :=
  [.iget 0 2, .acquire 0, .fill 0, .change 0 ⟨2, 0, 0, 0, 0, fun _ => 0⟩, .iupdate 0, .iunlock 0,
   .iput 0]

def reuseAfter : List (Op (Fin 2)) :=
  removeFile ++ [.free 0, .free 0, .free 0, .free 0, .free 0,
    .ialloc 1 2, .scan 1, .scan 1, .iget 1 2, .acquire 1, .fill 1]

/-- The new file is made before `iput` has taken `icache.lock` again. -/
def reuseDuring : List (Op (Fin 2)) :=
  removeFile ++ [.free 0, .free 0, .free 0, .free 0,
    .ialloc 1 2, .scan 1, .scan 1, .iget 1 2, .acquire 1]

theorem icache_coherent_reuse :
    (run step (Cache.initial (Fin 2) 3 twoInodes) reuseAfter).isSome ∧
      Throughout step Coherent (Cache.initial (Fin 2) 3 twoInodes) reuseAfter :=
  ⟨by decide +kernel, icache_coherent 3 twoInodes reuseAfter (by decide +kernel)⟩

theorem icache_counted_reuse :
    Throughout step Counted (Cache.initial (Fin 2) 3 twoInodes) reuseAfter :=
  icache_counted 3 twoInodes reuseAfter (by decide +kernel)

/-- `ilock` returns to the creator of the new file with the copy that the old one
left behind: its type is 0, the one on disk is not. -/
theorem reused_inode_is_stale :
    ∃ s, run step (Cache.initial (Fin 2) 3 twoInodes) reuseDuring = some s ∧
      s.pc 1 = .locked 0 ∧ (s.inode 0).fields.type = 0 ∧ (s.disk (s.inode 0).inum).type = 2 := by
  have runs : (run step (Cache.initial (Fin 2) 3 twoInodes) reuseDuring).map (fun s =>
      (s.pc 1, (s.inode 0).fields.type, (s.disk (s.inode 0).inum).type)) =
        some (.locked 0, 0, 2) := by decide +kernel
  obtain ⟨s, ran, facts⟩ := Option.map_eq_some_iff.mp runs
  simp only [Prod.mk.injEq] at facts
  exact ⟨s, ran, facts⟩

end Xv6Tracing.Icache
