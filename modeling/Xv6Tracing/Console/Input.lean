import Xv6Tracing.Lib.Circular
import Xv6Tracing.Lib.Run
import Xv6Tracing.Params

/-!
# Console input

`consoleintr` and `consoleread` of `console.c`, for any number of readers.  A step is a
call of `consoleintr`, or what a reader does from where it gets `input.lock` to where it
sleeps or returns.

The state keeps a history: the bytes that have been committed, which read has taken
which byte, and the reads that have returned.
-/

set_option autoImplicit false

namespace Xv6Tracing.ConsoleInput

open Lib

def INPUT_BUF : Nat := 128

instance : NeZero INPUT_BUF := ⟨by decide⟩

def ctrl (x : Char) : Uchar := BitVec.ofNat 8 x.toNat - BitVec.ofNat 8 '@'.toNat

def newline : Uchar := BitVec.ofNat 8 '\n'.toNat

def carriageReturn : Uchar := BitVec.ofNat 8 '\r'.toNat

/-- `input` without its lock -/
structure Input where
  buf : Fin INPUT_BUF → Uchar
  r : Uint
  w : Uint
  e : Uint

/-- A call of `consoleread` that has not returned: `n` bytes are still wanted, `dst`
has been copied out. -/
structure Reader where
  id : Nat
  size : CInt
  n : Nat
  dst : List Uchar

/-- A call of `consoleread` that has returned.  When it last looked at the buffer,
`stop` bytes of the stream had been taken. -/
structure Read where
  id : Nat
  size : CInt
  dst : List Uchar
  ret : CInt
  stop : Nat

structure Console (T : Type) where
  input : Input
  reader : T → Option Reader
  asleep : T → Bool
  calls : Nat
  committed : List Uchar
  log : List (Nat × Uchar)
  done : List Read

/-! ## consoleintr -/

/-- The loop of `^U`.  It takes away at most what stands between `w` and `e`. -/
def killLine : Nat → Input → Input
  | 0, input => input
  | k + 1, input =>
    if input.e ≠ input.w ∧ input.buf (cell INPUT_BUF (input.e - 1)) ≠ newline then
      killLine k { input with e := input.e - 1 }
    else input

def Input.put (input : Input) (c : Uchar) : Input :=
  { input with
    buf := Function.update input.buf (cell INPUT_BUF input.e) c
    e := input.e + 1 }

section

variable {T : Type}

/-- `input.w = input.e; wakeup(&input.r);` -/
def commit (s : Console T) : Console T :=
  { s with
    input := { s.input with w := s.input.e }
    asleep := fun _ => false
    committed := s.committed ++ slice s.input.buf s.input.w (s.input.e - s.input.w).toNat }

/-- The loop body of `consoleintr`.  The reboot of `^Z` and the listing of `^P` do not
touch the input. -/
def typeChar (s : Console T) (c : Uchar) : Console T :=
  if c = ctrl 'Z' ∨ c = ctrl 'P' then s
  else if c = ctrl 'U' then
    { s with input := killLine (s.input.e - s.input.w).toNat s.input }
  else if c = ctrl 'H' ∨ c = 0x7f then
    if s.input.e ≠ s.input.w then { s with input := { s.input with e := s.input.e - 1 } } else s
  else if c ≠ 0 ∧ s.input.e - s.input.r < BitVec.ofNat 32 INPUT_BUF then
    let c := if c = carriageReturn then newline else c
    let s := { s with input := s.input.put c }
    if c = newline ∨ c = ctrl 'D' ∨ s.input.e = s.input.r + BitVec.ofNat 32 INPUT_BUF then
      commit s
    else s
  else s

def consoleintr (s : Console T) (typed : List Uchar) : Console T := typed.foldl typeChar s

/-! ## consoleread -/

/-- What a reader works on while it holds `input.lock`. -/
structure Hand where
  input : Input
  log : List (Nat × Uchar)
  dst : List Uchar

inductive Outcome where
  | sleeps (n : Nat)
  | returns (n stop : Nat)
  | killed

/-- The loop of `consoleread` up to where it sleeps or ends. -/
def readLoop (killed : Bool) (id target : Nat) : Nat → Hand → Hand × Outcome
  | 0, h => (h, .returns 0 h.log.length)
  | n + 1, h =>
    if h.input.r = h.input.w then (h, if killed then .killed else .sleeps (n + 1))
    else
      let c := h.input.buf (cell INPUT_BUF h.input.r)
      let input := { h.input with r := h.input.r + 1 }
      if c = ctrl 'D' then
        if n + 1 < target then
          ({ h with input := { input with r := input.r - 1 } }, .returns (n + 1) h.log.length)
        else
          ({ h with input := input, log := h.log ++ [(id, c)] },
            .returns (n + 1) h.log.length)
      else
        let h := ⟨input, h.log ++ [(id, c)], h.dst ++ [c]⟩
        if c = newline then (h, .returns n h.log.length) else readLoop killed id target n h

variable [DecidableEq T]

/-- What the reader `t` does with the lock.  A size that is not positive ends the loop
at once and gives 0. -/
def readSection (s : Console T) (t : T) (killed : Bool) (rd : Reader) : Console T :=
  let target := rd.size.toInt.toNat
  let (h, outcome) := readLoop killed rd.id target rd.n ⟨s.input, s.log, rd.dst⟩
  let s := { s with input := h.input, log := h.log }
  match outcome with
  | .sleeps n =>
    { s with
      reader := Function.update s.reader t (some { rd with n := n, dst := h.dst })
      asleep := Function.update s.asleep t true }
  | .returns n stop =>
    { s with
      reader := Function.update s.reader t none
      done := s.done ++ [⟨rd.id, rd.size, h.dst, BitVec.ofNat 32 (target - n), stop⟩] }
  | .killed =>
    { s with
      reader := Function.update s.reader t none
      done := s.done ++ [⟨rd.id, rd.size, h.dst, -1, h.log.length⟩] }

def enter (s : Console T) (t : T) (rd : Reader) : Console T :=
  { s with reader := Function.update s.reader t (some rd), calls := s.calls + 1 }

/-- `killed` is `proc->killed` of the reader where it tests it. -/
inductive ConsoleOp (T : Type) where
  | intr (typed : List Uchar)
  | read (t : T) (size : CInt) (killed : Bool)
  | resume (t : T) (killed : Bool)

def step (s : Console T) : ConsoleOp T → Option (Console T)
  | .intr typed => some (consoleintr s typed)
  | .read t size killed =>
    match s.reader t with
    | some _ => none
    | none =>
      let rd : Reader := ⟨s.calls, size, size.toInt.toNat, []⟩
      some (readSection (enter s t rd) t killed rd)
  | .resume t killed =>
    match s.reader t with
    | none => none
    | some rd => if s.asleep t then none else some (readSection s t killed rd)

end

def Console.initial (T : Type) (buf : Fin INPUT_BUF → Uchar) : Console T where
  input := ⟨buf, 0, 0, 0⟩
  reader := fun _ => none
  asleep := fun _ => false
  calls := 0
  committed := []
  log := []
  done := []

end Xv6Tracing.ConsoleInput
