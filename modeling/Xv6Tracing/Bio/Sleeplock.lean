import Xv6Tracing.Lib.Run
import Xv6Tracing.Params

/-!
# Sleep locks

`acquiresleep`, `releasesleep` and `holdingsleep` of `sleeplock.c` on one lock, each one
step but for the sleep in `acquiresleep`, and the calls that ask `holdingsleep` before they
go on: `iunlock`, `bwrite` and `brelse`.  Others take steps between question and action.
-/

set_option autoImplicit false

namespace Xv6Tracing.Sleeplock

open Lib

/-- The calls that ask; `ref` is that of the inode. -/
inductive Call where
  | iunlock (ref : CInt)
  | bwrite
  | brelse
deriving DecidableEq, Repr

inductive Pc where
  | idle
  | acquiring
  | sleeping
  | granted (call : Call)
deriving DecidableEq, Repr

inductive Event (P : Type) where
  | answered (p : P) (r : Bool) (holder : Option P)
  | tested (p : P) (call : Call) (passed : Bool) (holder : Option P)
  | released (p : P) (holder : Option P)
  | wrote (p : P) (holder : Option P)
deriving DecidableEq, Repr

structure World (P : Type) where
  locked : Bool
  pid : Option P
  pc : P → Pc
  panic : Option Call
  history : List (Event P)

variable {P : Type}

def World.holder (s : World P) : Option P := if s.locked then s.pid else none

inductive Op (P : Type) where
  | acquiresleep (p : P)
  | releasesleep (p : P)
  | holdingsleep (p : P)
  | call (p : P) (call : Call)
  | go (p : P)
deriving DecidableEq, Repr

def Op.caller : Op P → P
  | .acquiresleep p | .releasesleep p | .holdingsleep p | .call p _ | .go p => p

section Step

variable [DecidableEq P]

def World.goto (s : World P) (p : P) (pc : Pc) : World P :=
  { s with pc := Function.update s.pc p pc }

theorem goto_pc (s : World P) (p q : P) (pc : Pc) :
    (s.goto p pc).pc q = if q = p then pc else s.pc q :=
  Function.update_apply ..

def holdingsleep (s : World P) : Bool := s.locked

def releasesleep (s : World P) (p : P) : World P :=
  { s with
    locked := false
    pid := none
    pc := fun q => if s.pc q = .sleeping then .acquiring else s.pc q
    history := s.history ++ [.released p s.holder] }

def acquiresleep (s : World P) (p : P) : World P :=
  if s.locked then s.goto p .sleeping
  else { s.goto p .idle with locked := true, pid := some p }

def ask (s : World P) (p : P) : World P :=
  { s with history := s.history ++ [.answered p (holdingsleep s) s.holder] }

/-- `ip->ref < 1` in `iunlock` -/
def Call.refused : Call → Bool
  | .iunlock ref => ref.slt 1
  | _ => false

/-- The test of `iunlock`, `bwrite` and `brelse`: one that fails panics. -/
def check (s : World P) (p : P) (call : Call) : World P :=
  let passed := holdingsleep s && !call.refused
  let t := { ask s p with history := (ask s p).history ++ [Event.tested p call passed s.holder] }
  if passed then t.goto p (.granted call) else { t with panic := some call }

def proceed (s : World P) (p : P) : Call → World P
  | .bwrite => { s.goto p .idle with history := s.history ++ [.wrote p s.holder] }
  | _ => (releasesleep s p).goto p .idle

def step (s : World P) (op : Op P) : Option (World P) :=
  if s.panic.isSome then none
  else
    match op, s.pc op.caller with
    | .acquiresleep p, .idle => some (s.goto p .acquiring)
    | .releasesleep p, .idle => some ((releasesleep s p).goto p .idle)
    | .holdingsleep p, .idle => some (ask s p)
    | .call p call, .idle => some (check s p call)
    | .go p, .acquiring => some (acquiresleep s p)
    | .go p, .granted call => some (proceed s p call)
    | _, _ => none

def initsleeplock : World P where
  locked := false
  pid := none
  pc := fun _ => .idle
  panic := none
  history := []

/-! ## Ownership -/

/-- `holdingsleep` is right about its caller, a call of a process that does not hold the
lock fails its test, and nobody releases or writes under a lock of another process. -/
def Event.Owned : Event P → Prop
  | .answered p r holder => r = decide (holder = some p)
  | .tested p _ passed holder => holder ≠ some p → passed = false
  | .released p holder => holder = none ∨ holder = some p
  | .wrote p holder => holder = some p

def Effective (s : World P) : Prop := ∀ e ∈ s.history, e.Owned

/-- No process other than the caller holds the lock when it is released or asked about. -/
def Unopposed (s : World P) : Op P → Prop
  | .acquiresleep _ | .go _ => True
  | .releasesleep p | .holdingsleep p | .call p _ => s.holder = none ∨ s.holder = some p

instance (s : World P) (op : Op P) : Decidable (Unopposed s op) := by
  cases op <;> unfold Unopposed <;> infer_instance

structure Sound (s : World P) : Prop where
  effective : Effective s
  given : s.locked = true → s.pid.isSome = true
  granted : ∀ p call, s.pc p = .granted call → s.holder = some p

variable {s t : World P} {p : P} {op : Op P} {call : Call}

theorem Effective.snoc {e : Event P} (effective : Effective s) (owned : e.Owned)
    (history : t.history = s.history ++ [e]) : Effective t := by
  intro other member
  rw [history] at member
  rcases List.mem_append.mp member with old | new
  · exact effective other old
  · rw [List.mem_singleton.mp new]
    exact owned

section

variable (sound : Sound s)

include sound

theorem Sound.holdingsleep_eq (alone : s.holder = none ∨ s.holder = some p) :
    holdingsleep s = decide (s.holder = some p) := by
  unfold holdingsleep
  cases taken : s.locked with
  | false => simp [World.holder, taken]
  | true =>
    have some := sound.given taken
    rcases alone with none | own
    · rw [World.holder, taken, if_pos rfl] at none
      rw [none] at some
      cases some
    · simp [own]

/-- A move that leaves the lock as it is, of a process that is not past a test. -/
theorem Sound.goto {pc : Pc} (plain : ∀ call, pc ≠ .granted call) :
    Sound (s.goto p pc) where
  effective := sound.effective
  given := sound.given
  granted := by
    intro q call at_
    rw [goto_pc] at at_
    split at at_
    · exact absurd at_ (plain call)
    · exact sound.granted q call at_

section

variable (alone : s.holder = none ∨ s.holder = some p)

include alone

theorem Sound.ask :
    Sound (ask s p) where
  effective := sound.effective.snoc (e := .answered p _ s.holder) (sound.holdingsleep_eq alone) rfl
  given := sound.given
  granted := sound.granted

theorem Sound.check :
    Sound (check s p call) := by
  have right := sound.holdingsleep_eq alone
  have fails : ¬ s.holder = some p → (holdingsleep s && !call.refused) = false := by
    intro other
    rw [right, decide_eq_false other, Bool.false_and]
  have effective := (sound.ask alone).effective
  unfold Sleeplock.check
  dsimp only
  split
  · rename_i passed
    have own : s.holder = some p := by
      by_contra other
      rw [fails other] at passed
      cases passed
    refine ⟨effective.snoc (e := .tested p call _ s.holder) fails rfl, sound.given, ?_⟩
    intro q c at_
    rw [goto_pc] at at_
    split at at_
    · rename_i self
      rw [self]
      exact own
    · exact sound.granted q c at_
  · exact ⟨effective.snoc (e := .tested p call _ s.holder) fails rfl, sound.given, sound.granted⟩

theorem Sound.releasesleep
    (past : ∀ q call, s.pc q = .granted call → q = p) :
    Sound ((releasesleep s p).goto p .idle) where
  effective := sound.effective.snoc (e := .released p s.holder) alone rfl
  given := nofun
  granted := by
    intro q call at_
    rw [goto_pc] at at_
    split at at_
    · cases at_
    · rename_i other
      dsimp only [Sleeplock.releasesleep] at at_
      split at at_
      · cases at_
      · exact absurd (past q call at_) other

end

theorem Sound.acquiresleep : Sound (acquiresleep s p) := by
  unfold Sleeplock.acquiresleep
  split
  · exact sound.goto nofun
  · rename_i free
    refine ⟨sound.effective, fun _ => rfl, fun q call at_ => ?_⟩
    change (s.goto p .idle).pc q = .granted call at at_
    rw [goto_pc] at at_
    split at at_
    · cases at_
    · have held := sound.granted q call at_
      rw [World.holder, if_neg free] at held
      cases held

theorem Sound.proceed (here : s.pc p = .granted call) :
    Sound (proceed s p call) := by
  have own := sound.granted p call here
  have past : ∀ q c, s.pc q = .granted c → q = p := by
    intro q c at_
    have other := sound.granted q c at_
    rw [own] at other
    exact (Option.some.inj other).symm
  cases call with
  | bwrite =>
    have moved : Sound (s.goto p .idle) := sound.goto nofun
    exact ⟨moved.effective.snoc (e := .wrote p s.holder) own rfl, moved.given, moved.granted⟩
  | iunlock ref => exact sound.releasesleep (Or.inr own) past
  | brelse => exact sound.releasesleep (Or.inr own) past

theorem Sound.step (alone : Unopposed s op) (stepped : step s op = some t) :
    Sound t := by
  unfold Sleeplock.step at stepped
  split at stepped
  · cases stepped
  · split at stepped
    · cases stepped
      exact sound.goto nofun
    · rename_i q _
      cases stepped
      have past : ∀ p' call, s.pc p' = .granted call → p' = q := by
        intro p' call at_
        have held := sound.granted p' call at_
        rcases alone with none | own
        · rw [none] at held
          cases held
        · exact Option.some.inj (held.symm.trans own)
      exact sound.releasesleep alone past
    · cases stepped
      exact sound.ask alone
    · cases stepped
      exact sound.check alone
    · cases stepped
      exact sound.acquiresleep
    · rename_i here
      cases stepped
      exact sound.proceed here
    · cases stepped

end

theorem sound_initsleeplock : Sound (initsleeplock : World P) where
  effective := nofun
  given := nofun
  granted := nofun

theorem ownership_checks_effective (ops : List (Op P))
    (alone : Along step Unopposed (initsleeplock : World P) ops) :
    Throughout step Effective (initsleeplock : World P) ops :=
  throughout_of_along (fun _ _ _ sound alone stepped => sound.step alone stepped)
    (fun _ sound => sound.effective) ops _ sound_initsleeplock alone

end Step

/-- Process 0 takes the lock, asks and lets go; process 1 has a go afterwards. -/
def takeTurns : List (Op (Fin 2)) :=
  [.acquiresleep 0, .go 0, .holdingsleep 0, .call 0 .brelse, .go 0, .call 1 .brelse]

theorem ownership_checks_effective_in_turn :
    Along step Unopposed (initsleeplock : World (Fin 2)) takeTurns ∧
      Throughout step Effective (initsleeplock : World (Fin 2)) takeTurns := by
  have alone : Along step Unopposed (initsleeplock : World (Fin 2)) takeTurns := by decide
  exact ⟨alone, ownership_checks_effective takeTurns alone⟩

/-- Process 0 has the lock, and process 1 calls `brelse`: it is told that it holds the lock,
and releases it. -/
theorem brelse_releases_for_another :
    ∃ s, run step (initsleeplock : World (Fin 2)) [.acquiresleep 0, .go 0, .call 1 .brelse, .go 1]
        = some s ∧
      s.history = [.answered 1 true (some 0), .tested 1 .brelse true (some 0), .released 1 (some 0)]
      ∧ s.locked = false ∧ s.panic = none :=
  ⟨_, rfl, rfl, rfl, rfl⟩

end Xv6Tracing.Sleeplock
