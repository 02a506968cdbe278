import Xv6Tracing.Params

/-!
# Commands of the shell

The trees that `parsecmd` of `sh.c` builds and `runcmd` runs.
-/

set_option autoImplicit false

namespace Xv6Tracing.Shell

def O_RDONLY : CInt := 0x000
def O_WRONLY : CInt := 0x001
def O_CREATE : CInt := 0x200

/-- `struct cmd` and its variants.  The shell redirects the descriptors 0 and 1 only. -/
inductive Cmd where
  | EXEC (argv : List (List Uchar))
  | REDIR (cmd : Cmd) (file : List Uchar) (mode : CInt) (fd : Fin 2)
  | PIPE (left right : Cmd)
  | LIST (left right : Cmd)
  | BACK (cmd : Cmd)
deriving DecidableEq, Repr

inductive Branch where
  | cmd | left | right
deriving DecidableEq, Repr

abbrev Pos : Type := List Branch

def Cmd.child : Cmd → Branch → Option Cmd
  | .REDIR c _ _ _, .cmd => some c
  | .PIPE l _, .left => some l
  | .PIPE _ r, .right => some r
  | .LIST l _, .left => some l
  | .LIST _ r, .right => some r
  | .BACK c, .cmd => some c
  | _, _ => none

def Cmd.node (c : Cmd) : Pos → Option Cmd
  | [] => some c
  | d :: pos => (c.child d).bind fun c => c.node pos

theorem Cmd.node_snoc {c tree : Cmd} {pos : Pos} (here : tree.node pos = some c) (d : Branch) :
    tree.node (pos ++ [d]) = c.child d := by
  induction pos generalizing tree with
  | nil =>
    cases here
    rw [List.nil_append, Cmd.node]
    cases c.child d with
    | none => rfl
    | some c => rfl
  | cons e pos ih =>
    rw [Cmd.node] at here
    obtain ⟨below, step, rest⟩ := Option.bind_eq_some_iff.mp here
    rw [List.cons_append, Cmd.node, step]
    exact ih rest

end Xv6Tracing.Shell
