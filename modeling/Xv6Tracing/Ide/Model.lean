import Xv6Tracing.Lib.Linked
import Xv6Tracing.Lib.Run
import Xv6Tracing.Params

/-!
# The disk driver

`iderw`, `ideintr` and `idestart` of `ide.c`, for any number of processes and interrupt
handlers.  A step is one access to `idelock`, to the queue or to the controller, so that
every interleaving is a run.

The controller works on one command at a time and then raises one interrupt; a context
that takes it runs `ideintr`.  `sleep` gives `idelock` up and marks the process in one
step, since it has `ptable.lock` in between.  The holder of a buffer's sleep lock does
what it likes with it outside `iderw`; no two locked buffers are for one block.
-/

set_option autoImplicit false

namespace Xv6Tracing.Ide

open Lib

def BSIZE : Nat := 512
def SECTOR_SIZE : Nat := 512
def FSSIZE : Uint := 1000

def IDE_CMD_READ : Uchar := 0x20
def IDE_CMD_WRITE : Uchar := 0x30
def IDE_CMD_RDMUL : Uchar := 0xc4
def IDE_CMD_WRMUL : Uchar := 0xc5

/-- `struct buf`; `valid` and `dirty` are `B_VALID` and `B_DIRTY`. -/
structure Buf (T B D : Type) where
  valid : Bool
  dirty : Bool
  dev : Uint
  blockno : Uint
  lock : Option T
  qnext : Option B
  data : D

/-- What `idestart` writes to the ports `0x1f2` to `0x1f7`, and the data of a write. -/
structure Command (D : Type) where
  nsector : Uchar
  sector0 : Uchar
  sector1 : Uchar
  sector2 : Uchar
  select : Uchar
  command : Uchar
  data : Option D
deriving DecidableEq

abbrev Sector : Type := Bool × Nat

def sectorPerBlock : Uint := BitVec.ofNat 32 (BSIZE / SECTOR_SIZE)

def Buf.command {T B D : Type} (b : Buf T B D) : Command D :=
  let sector := b.blockno * sectorPerBlock
  let read_cmd := if sectorPerBlock = 1 then IDE_CMD_READ else IDE_CMD_RDMUL
  let write_cmd := if sectorPerBlock = 1 then IDE_CMD_WRITE else IDE_CMD_WRMUL
  { nsector := sectorPerBlock.setWidth 8
    sector0 := (sector &&& 0xff).setWidth 8
    sector1 := (sector >>> 8 &&& 0xff).setWidth 8
    sector2 := (sector >>> 16 &&& 0xff).setWidth 8
    select := (0xe0 ||| (b.dev &&& 1) <<< 4 ||| (sector >>> 24 &&& 0x0f)).setWidth 8
    command := if b.dirty then write_cmd else read_cmd
    data := if b.dirty then some b.data else none }

def Command.sector {D : Type} (c : Command D) : Sector :=
  (c.select.getLsbD 4,
    c.sector0.toNat + 2 ^ 8 * c.sector1.toNat + 2 ^ 16 * c.sector2.toNat +
      2 ^ 24 * (c.select &&& 0x0f).toNat)

def Buf.sector {T B D : Type} (b : Buf T B D) : Sector := (b.dev.getLsbD 0, b.blockno.toNat)

/-- What a context does next.  `append b pp` looks at the pointer that `pp` points to:
`idequeue`, or the `qnext` of a buffer. -/
inductive Pc (B : Type) where
  | idle
  | enter (b : B)
  | clear (b : B)
  | append (b : B) (pp : Option B)
  | test (b : B)
  | start (b : B)
  | wait (b : B)
  | sleep (b : B)
  | exit (b : B)
  | intr
  | take
  | read (b : B)
  | mark (b : B)
  | wake (b : B)
  | next
  | restart (b : B)
  | leave
deriving DecidableEq

inductive Panic where
  | notLocked | nothingToDo | noDisk1 | incorrectBlockno
deriving DecidableEq, Repr

/-- The last four fields are history: the requests in the order in which they were put
into the queue, those that were started and those that were completed, and for each
process the number of its request. -/
structure World (T B D : Type) where
  buf : B → Buf T B D
  idequeue : Option B
  idelock : Option T
  havedisk1 : Bool
  busy : Option (Command D)
  register : D
  irq : Nat
  disk : Sector → D
  pc : T → Pc B
  asleep : T → Option B
  panicked : Option Panic
  submitted : List B
  started : List B
  completed : List B
  ticket : T → Nat

section Steps

variable {T B D : Type} [DecidableEq T] [DecidableEq B]

def World.goto (s : World T B D) (t : T) (pc : Pc B) : World T B D :=
  { s with pc := Function.update s.pc t pc }

def World.setBuf (s : World T B D) (b : B) (buf : Buf T B D) : World T B D :=
  { s with buf := Function.update s.buf b buf }

def World.panic (s : World T B D) (why : Panic) : World T B D := { s with panicked := some why }

def World.qnext (s : World T B D) (b : B) : Option B := (s.buf b).qnext

def lockIde (s : World T B D) (t : T) (pc : Pc B) : Option (World T B D) :=
  if s.idelock = none then some ({ s with idelock := some t }.goto t pc) else none

def unlockIde (s : World T B D) (t : T) (pc : Pc B) : Option (World T B D) :=
  some ({ s with idelock := none }.goto t pc)

/-- `idewait` spins while the controller is busy. -/
def idestart (s : World T B D) (t : T) (b : B) (pc : Pc B) : Option (World T B D) :=
  if FSSIZE ≤ (s.buf b).blockno then some (s.panic .incorrectBlockno)
  else if s.busy.isSome then none
  else
    some ({ s with
      busy := some (s.buf b).command
      started := s.started ++ [b] }.goto t pc)

def World.deref (s : World T B D) : Option B → Option B
  | none => s.idequeue
  | some c => s.qnext c

/-- `*pp = b` -/
def World.store (s : World T B D) (pp : Option B) (b : B) : World T B D :=
  match pp with
  | none => { s with idequeue := some b }
  | some c => s.setBuf c { s.buf c with qnext := some b }

def wakeup (s : World T B D) (b : B) : World T B D :=
  { s with asleep := fun u => if s.asleep u = some b then none else s.asleep u }

def advance (s : World T B D) (t : T) : Option (World T B D) :=
  match s.pc t with
  | .idle => none
  | .enter b => lockIde s t (.clear b)
  | .clear b => some ((s.setBuf b { s.buf b with qnext := none }).goto t (.append b none))
  | .append b pp =>
    match s.deref pp with
    | some c => some (s.goto t (.append b (some c)))
    | none =>
      some ({ s.store pp b with
        submitted := s.submitted ++ [b]
        ticket := Function.update s.ticket t s.submitted.length }.goto t (.test b))
  | .test b =>
    if s.idequeue = some b then some (s.goto t (.start b)) else some (s.goto t (.wait b))
  | .start b => idestart s t b (.wait b)
  | .wait b =>
    if (s.buf b).valid = true ∧ (s.buf b).dirty = false then some (s.goto t (.exit b))
    else unlockIde { s with asleep := Function.update s.asleep t (some b) } t (.sleep b)
  | .sleep b => if s.asleep t = none then lockIde s t (.wait b) else none
  | .exit _ => unlockIde s t .idle
  | .intr => lockIde s t .take
  | .take =>
    match s.idequeue with
    | none => some (s.goto t .leave)
    | some b => some ({ s with idequeue := s.qnext b }.goto t (.read b))
  | .read b =>
    if (s.buf b).dirty then some (s.goto t (.mark b))
    else if s.busy.isSome then none
    else some ((s.setBuf b { s.buf b with data := s.register }).goto t (.mark b))
  | .mark b =>
    some ({ s.setBuf b { s.buf b with valid := true, dirty := false } with
      completed := s.completed ++ [b] }.goto t (.wake b))
  | .wake b => some ((wakeup s b).goto t .next)
  | .next =>
    match s.idequeue with
    | none => some (s.goto t .leave)
    | some b => some (s.goto t (.restart b))
  | .restart b => idestart s t b .leave
  | .leave => unlockIde s t .idle

def iderw (s : World T B D) (t : T) (b : B) : World T B D :=
  let bp := s.buf b
  if bp.lock ≠ some t then s.panic .notLocked
  else if bp.valid = true ∧ bp.dirty = false then s.panic .nothingToDo
  else if bp.dev ≠ 0 ∧ s.havedisk1 = false then s.panic .noDisk1
  else s.goto t (.enter b)

def finish (s : World T B D) (c : Command D) : World T B D :=
  match c.data with
  | some data =>
    { s with disk := Function.update s.disk c.sector data, busy := none, irq := s.irq + 1 }
  | none => { s with register := s.disk c.sector, busy := none, irq := s.irq + 1 }

/-- `lock` is `bget` and `acquiresleep`; `change` is anything that the holder does with
the buffer; `kill` makes a sleeping process runnable. -/
inductive Op (T B D : Type) where
  | lock (t : T) (b : B) (dev blockno : Uint) (valid dirty : Bool) (data : D)
  | change (t : T) (b : B) (valid dirty : Bool) (data : D)
  | unlock (t : T) (b : B)
  | iderw (t : T) (b : B)
  | ideintr (t : T)
  | run (t : T)
  | kill (t : T)
  | disk

def World.Unused (s : World T B D) (b : B) (sector : Sector) : Prop :=
  ∀ c, c ≠ b → (s.buf c).lock ≠ none → (s.buf c).sector ≠ sector

instance [Fintype B] (s : World T B D) (b : B) (sector : Sector) : Decidable (s.Unused b sector) :=
  inferInstanceAs (Decidable (∀ _, _))

def step [Fintype B] (s : World T B D) (op : Op T B D) : Option (World T B D) :=
  if s.panicked ≠ none then none
  else
    match op with
    | .lock t b dev blockno valid dirty data =>
      let bp := { s.buf b with
        dev := dev, blockno := blockno, valid := valid, dirty := dirty, data := data,
        lock := some t }
      if s.pc t = .idle ∧ (s.buf b).lock = none ∧ s.Unused b bp.sector then some (s.setBuf b bp)
      else none
    | .change t b valid dirty data =>
      if s.pc t = .idle ∧ (s.buf b).lock = some t then
        some (s.setBuf b { s.buf b with valid := valid, dirty := dirty, data := data })
      else none
    | .unlock t b =>
      if s.pc t = .idle ∧ (s.buf b).lock = some t then
        some (s.setBuf b { s.buf b with lock := none })
      else none
    | .iderw t b => if s.pc t = .idle then some (iderw s t b) else none
    | .ideintr t =>
      if s.pc t = .idle ∧ 0 < s.irq then some ({ s with irq := s.irq - 1 }.goto t .intr) else none
    | .run t => advance s t
    | .kill t => some { s with asleep := Function.update s.asleep t none }
    | .disk =>
      match s.busy with
      | none => none
      | some c => some (finish s c)

end Steps

end Xv6Tracing.Ide
