import Xv6Tracing.Lib.Run
import Xv6Tracing.Shell.Cmd

/-!
# Running commands

`runcmd` of `sh.c`, for all the processes that it forks.  A process is a list of system
calls that it is still to make; a step is one of them.  `fork`, `pipe`, `dup` and `open`
succeed as long as there is a free descriptor.
-/

set_option autoImplicit false

namespace Xv6Tracing.Shell

open Lib

/-- What a descriptor refers to: a descriptor that the shell was given, the file of a
`REDIR` node, or an end of the pipe of a `PIPE` node. -/
inductive File where
  | own (fd : Nat)
  | opened (pos : Pos) (file : List Uchar) (mode : CInt)
  | readEnd (pos : Pos)
  | writeEnd (pos : Pos)
deriving DecidableEq, Repr

abbrev Fds : Type := Fin NOFILE → Option File

def fdalloc (fds : Fds) (f : File) : Option (Fin NOFILE × Fds) :=
  match (List.finRange NOFILE).find? fun fd => decide (fds fd = none) with
  | none => none
  | some fd => some (fd, Function.update fds fd (some f))

/-- A system call of `runcmd`, or its recursive call for a node. -/
inductive Act where
  | runcmd (cmd : Cmd) (pos : Pos)
  | close (fd : Fin NOFILE)
  | dup (fd : Fin NOFILE)
  | open_ (pos : Pos) (file : List Uchar) (mode : CInt)
  | fork (child : List Act)
  | wait
  | exec (pos : Pos) (argv : List (List Uchar))
  | exit

inductive Status where
  | running | program (argv : List (List Uchar)) | zombie | reaped
deriving DecidableEq, Repr

/-- `node` is the node whose `runcmd` the process is in. -/
structure Proc where
  parent : Option Nat
  status : Status
  node : Pos
  code : List Act
  fds : Fds

/-- A call of `exec`, with the descriptors at the call. -/
structure ExecCall where
  pos : Pos
  argv : List (List Uchar)
  fds : Fds

/-- `execs` is history. -/
structure World where
  procs : List Proc
  execs : List ExecCall

/-- The body of `runcmd`; a `PIPE` has called `pipe(p)` already. -/
def body (pos : Pos) (p : Fin NOFILE × Fin NOFILE) : Cmd → List Act
  | .EXEC [] => [.exit]
  | .EXEC argv => [.exec pos argv]
  | .REDIR c file mode fd =>
    [.close (fd.castLE (by decide)), .open_ pos file mode, .runcmd c (pos ++ [.cmd])]
  | .LIST l r => [.fork [.runcmd l (pos ++ [.left])], .wait, .runcmd r (pos ++ [.right])]
  | .PIPE l r =>
    [.fork [.close 1, .dup p.2, .close p.1, .close p.2, .runcmd l (pos ++ [.left])],
      .fork [.close 0, .dup p.1, .close p.1, .close p.2, .runcmd r (pos ++ [.right])],
      .close p.1, .close p.2, .wait, .wait, .exit]
  | .BACK c => [.fork [.runcmd c (pos ++ [.cmd])], .exit]

def pipe (fds : Fds) (pos : Pos) : Option ((Fin NOFILE × Fin NOFILE) × Fds) :=
  match fdalloc fds (.readEnd pos) with
  | none => none
  | some (fd0, fds) =>
    match fdalloc fds (.writeEnd pos) with
    | none => none
    | some (fd1, fds) => some ((fd0, fd1), fds)

def Cmd.isPipe : Cmd → Bool
  | .PIPE _ _ => true
  | _ => false

/-- The call of `runcmd` for a node; without descriptors for a pipe it panics. -/
def enter (pr : Proc) (c : Cmd) (pos : Pos) : Proc :=
  if c.isPipe then
    match pipe pr.fds pos with
    | none => { pr with code := [.exit] }
    | some (p, fds) => { pr with node := pos, code := body pos p c, fds := fds }
  else { pr with node := pos, code := body pos (0, 0) c }

def dup (pr : Proc) (fd : Fin NOFILE) : Fds :=
  match pr.fds fd with
  | none => pr.fds
  | some f =>
    match fdalloc pr.fds f with
    | none => pr.fds
    | some (_, fds) => fds

/-- `open(file, mode)`; without a descriptor the process exits. -/
def open_ (pr : Proc) (k : List Act) (f : File) : Proc :=
  match fdalloc pr.fds f with
  | none => { pr with code := [.exit] }
  | some (_, fds) => { pr with code := k, fds := fds }

def World.set (s : World) (i : Nat) (pr : Proc) : World := { s with procs := s.procs.set i pr }

/-- A process exits: its descriptors are closed and its children go to `init`. -/
def terminate (s : World) (i : Nat) (pr : Proc) : World :=
  { s with
    procs := (s.procs.set i { pr with status := .zombie, code := [], fds := fun _ => none }).map
      fun child => if child.parent = some i then { child with parent := none } else child }

def zombieChild (s : World) (i : Nat) : Option Nat :=
  s.procs.findIdx? fun child => decide (child.parent = some i ∧ child.status = .zombie)

def hasChild (s : World) (i : Nat) : Bool :=
  s.procs.any fun child => decide (child.parent = some i ∧ child.status ≠ .reaped)

/-- `wait()`; it returns at once when there is no child. -/
def wait (s : World) (i : Nat) (pr : Proc) (k : List Act) : Option World :=
  match zombieChild s i with
  | some j =>
    match s.procs[j]? with
    | none => none
    | some child => some ((s.set j { child with status := .reaped }).set i { pr with code := k })
  | none => if hasChild s i then none else some (s.set i { pr with code := k })

def act (s : World) (i : Nat) (pr : Proc) (k : List Act) : Act → Option World
  | .runcmd c pos => some (s.set i (enter pr c pos))
  | .close fd => some (s.set i { pr with code := k, fds := Function.update pr.fds fd none })
  | .dup fd => some (s.set i { pr with code := k, fds := dup pr fd })
  | .open_ pos file mode => some (s.set i (open_ pr k (.opened pos file mode)))
  | .fork child =>
    let s := s.set i { pr with code := k }
    some { s with procs := s.procs ++ [{ pr with parent := some i, code := child }] }
  | .wait => wait s i pr k
  | .exec pos argv =>
    let s := s.set i { pr with status := .program argv, code := [] }
    some { s with execs := s.execs ++ [{ pos := pos, argv := argv, fds := pr.fds }] }
  | .exit => some (terminate s i pr)

def step (s : World) (i : Nat) : Option World :=
  match s.procs[i]? with
  | none => none
  | some pr =>
    match pr.status, pr.code with
    | .running, a :: k => act s i pr k a
    | .program _, _ => some (terminate s i pr)
    | _, _ => none

variable {s s' : World} {i : Nat} {pr : Proc}

theorem wait_cases {k : List Act} (waited : wait s i pr k = some s') :
    (∃ j child, s.procs[j]? = some child ∧ child.parent = some i ∧ child.status = .zombie ∧
        s' = (s.set j { child with status := .reaped }).set i { pr with code := k }) ∨
      s' = s.set i { pr with code := k } := by
  unfold wait at waited
  split at waited
  · rename_i j found
    obtain ⟨inside, holds, -⟩ := List.findIdx?_eq_some_iff_getElem.mp found
    grind
  · split at waited
    · cases waited
    · cases waited
      exact Or.inr rfl

theorem step_cases (stepped : step s i = some s') :
    ∃ pr, s.procs[i]? = some pr ∧
      ((pr.status = .running ∧ ∃ a k, pr.code = a :: k ∧ act s i pr k a = some s') ∨
        (∃ argv, pr.status = .program argv) ∧ s' = terminate s i pr) := by
  unfold step at stepped
  split at stepped
  · cases stepped
  · grind

def shell (tree : Cmd) : World where
  procs := [{
    parent := none
    status := .running
    node := []
    code := [.runcmd tree []]
    fds := fun fd => if fd.val < 3 then some (.own fd.val) else none }]
  execs := []

end Xv6Tracing.Shell
