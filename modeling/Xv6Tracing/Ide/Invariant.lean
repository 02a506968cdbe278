import Xv6Tracing.Ide.Model
import Xv6Tracing.Lib.Mutex

/-!
# What holds between the steps of the driver

Whoever holds `idelock` knows how far the controller is with the first request of the
queue; when nobody does, the first request has been started and has not been taken off
the queue.  A request is the position of a buffer among those that were submitted.
-/

set_option autoImplicit false

namespace Xv6Tracing.Ide

open Lib

section Points

variable {B : Type}

def Pc.inside : Pc B → Bool
  | .idle | .enter _ | .sleep _ | .intr => false
  | _ => true

def Pc.early : Pc B → Bool
  | .intr | .take => true
  | _ => false

def Pc.caller : Pc B → Option B
  | .enter b | .clear b | .append b _ | .test b | .start b | .wait b | .sleep b | .exit b => some b
  | _ => none

def Pc.waits : Pc B → Option B
  | .test b | .start b | .wait b | .sleep b => some b
  | _ => none

theorem Pc.caller_of_waits {pc : Pc B} {b : B} (waits : pc.waits = some b) :
    pc.caller = some b := by
  cases pc <;> first | exact waits | cases waits

end Points

variable {T B D : Type} {s s' : World T B D} {q : List B} {b c : B} {t u : T}

def Buf.content (b : Buf T B D) : Bool × Bool × Uint × Uint × D :=
  (b.valid, b.dirty, b.dev, b.blockno, b.data)

theorem Buf.command_congr {b b' : Buf T B D} (same : b'.content = b.content) :
    b'.command = b.command := by
  obtain ⟨valid, dirty, dev, blockno, lock, qnext, data⟩ := b
  cases same
  rfl

theorem Buf.sector_congr {b b' : Buf T B D} (same : b'.content = b.content) :
    b'.sector = b.sector := by
  obtain ⟨valid, dirty, dev, blockno, lock, qnext, data⟩ := b
  cases same
  rfl

theorem toNat_byte (x : Uint) (k : Nat) :
    ((x >>> k &&& 0xff).setWidth 8 : Uchar).toNat = x.toNat / 2 ^ k % 256 := by
  have mask : (x >>> k &&& 0xff).toNat = x.toNat / 2 ^ k % 256 := by
    rw [BitVec.toNat_and, BitVec.toNat_ushiftRight, Nat.shiftRight_eq_div_pow]
    exact Nat.and_two_pow_sub_one_eq_mod _ 8
  rw [BitVec.toNat_setWidth, mask]
  omega

theorem select_drive (dev sector : Uint) :
    ((0xe0 ||| (dev &&& 1) <<< 4 ||| (sector >>> 24 &&& 0x0f)).setWidth 8 : Uchar).getLsbD 4 =
      dev.getLsbD 0 := by
  simp

theorem select_sector (dev sector : Uint) :
    ((0xe0 ||| (dev &&& 1) <<< 4 ||| (sector >>> 24 &&& 0x0f)).setWidth 8 &&& 0x0f : Uchar) =
      (sector >>> 24 &&& 0x0f).setWidth 8 := by
  ext i inside
  interval_cases i <;> simp

theorem Buf.sector_command (b : Buf T B D) (inRange : b.blockno < FSSIZE) :
    b.command.sector = b.sector := by
  have bound : b.blockno.toNat < 1000 := inRange
  have one : b.blockno * sectorPerBlock = b.blockno := BitVec.mul_one _
  have low : ((b.blockno &&& 0xff).setWidth 8 : Uchar).toNat = b.blockno.toNat / 2 ^ 0 % 256 := by
    have byte := toNat_byte b.blockno 0
    rwa [BitVec.ushiftRight_zero] at byte
  have high : ((b.blockno >>> 24 &&& 0x0f).setWidth 8 : Uchar).toNat = 0 := by
    rw [BitVec.toNat_setWidth, BitVec.toNat_and, BitVec.toNat_ushiftRight,
      Nat.shiftRight_eq_div_pow, Nat.div_eq_of_lt (by omega), Nat.zero_and]
  rw [Command.sector, Buf.sector, Buf.command]
  dsimp only
  rw [one, select_drive, select_sector, low, toNat_byte, toNat_byte, high]
  congr 1
  omega

/-! ## The controller -/

structure Quiet (s : World T B D) : Prop where
  irq : s.irq = 0
  late : ∀ t, (s.pc t).early = false

def Due (s : World T B D) : Prop :=
  s.irq = 1 ∧ (∀ t, (s.pc t).early = false) ∨
    s.irq = 0 ∧ ∃ t, (s.pc t).early = true ∧ ∀ u, (s.pc u).early = true → u = t

def Transferred (s : World T B D) (b : B) : Prop :=
  if (s.buf b).dirty then s.disk (s.buf b).sector = (s.buf b).data
  else s.register = s.disk (s.buf b).sector

def Working (s : World T B D) (b : B) : Prop :=
  (s.buf b).blockno < FSSIZE ∧
    (s.busy = some (s.buf b).command ∧ Quiet s ∨ s.busy = none ∧ Due s ∧ Transferred s b)

structure Settled (s : World T B D) (q : List B) : Prop where
  submitted : s.submitted = s.completed ++ q
  started : s.started = s.completed ++ q.take 1
  still : q = [] → s.busy = none ∧ Quiet s
  working : ∀ b, q.head? = some b → Working s b

structure Unstarted (s : World T B D) (q : List B) : Prop where
  submitted : s.submitted = s.completed ++ q
  started : s.started = s.completed
  busy : s.busy = none
  quiet : Quiet s

/-! ## The requests -/

def Needs (s : World T B D) (b : B) : Prop := ¬ ((s.buf b).valid = true ∧ (s.buf b).dirty = false)

structure Complete (s : World T B D) (b : B) : Prop where
  valid : (s.buf b).valid = true
  clean : (s.buf b).dirty = false
  data : (s.buf b).data = s.disk (s.buf b).sector

/-- The request of a context is for `b`, and is completed or needs to be. -/
structure Waits (s : World T B D) (t : T) (b : B) : Prop where
  request : s.submitted[s.ticket t]? = some b
  state : s.completed.length ≤ s.ticket t ∧ Needs s b ∨
    s.ticket t < s.completed.length ∧ Complete s b

/-- Somebody waits for an uncompleted request for `b`. -/
def Owner (s : World T B D) (b : B) : Prop :=
  ∃ u, (s.pc u).waits = some b ∧ s.completed.length ≤ s.ticket u

structure InHand (s : World T B D) (q : List B) (b : B) : Prop where
  submitted : s.submitted = s.completed ++ b :: q
  started : s.started = s.completed ++ [b]
  busy : s.busy = none
  quiet : Quiet s
  apart : b ∉ q
  owner : Owner s b

/-- What the holder of `idelock` knows. -/
def Holds (s : World T B D) (q : List B) (t : T) : Pc B → Prop
  | .clear b => b ∉ q ∧ Needs s b ∧ Settled s q
  | .append b pp =>
    b ∉ q ∧ Needs s b ∧ s.qnext b = none ∧ (∀ c, pp = some c → c ∈ q) ∧ Settled s q
  | .test b =>
    Waits s t b ∧ (q = [b] ∧ Unstarted s q ∨ q.head? ≠ some b ∧ Settled s q)
  | .start b => Waits s t b ∧ q = [b] ∧ Unstarted s q
  | .wait b => Waits s t b ∧ Settled s q
  | .exit b =>
    s.submitted[s.ticket t]? = some b ∧ s.ticket t < s.completed.length ∧ Complete s b ∧ Settled s q
  | .read b => InHand s q b ∧ Transferred s b
  | .mark b => InHand s q b ∧ (s.buf b).data = s.disk (s.buf b).sector
  | .wake _ | .next => Unstarted s q
  | .restart b => Unstarted s q ∧ q.head? = some b
  | .take | .leave => Settled s q
  | .idle | .enter _ | .sleep _ | .intr => True

structure Sound (s : World T B D) (q : List B) : Prop where
  excl : Excl Pc.inside s.idelock s.pc
  linked : Linked s.qnext s.idequeue q
  nodup : q.Nodup
  blocks : ∀ b c, b ≠ c → (s.buf b).lock ≠ none → (s.buf c).lock ≠ none →
    (s.buf b).sector ≠ (s.buf c).sector
  mine : ∀ t b, (s.pc t).caller = some b → (s.buf b).lock = some t
  owners : ∀ b ∈ q, Owner s b
  entering : ∀ t b, s.pc t = .enter b → b ∉ q ∧ Needs s b
  sleeping : ∀ t b, s.pc t = .sleep b → Waits s t b
  holds : ∀ t, s.idelock = some t → Holds s q t (s.pc t)
  free : s.idelock = none → Settled s q

end Xv6Tracing.Ide
