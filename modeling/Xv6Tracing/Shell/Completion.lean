import Xv6Tracing.Shell.Plumbing

/-!
# Completion

Every run of a command comes to an end, and at its end every `EXEC` leaf has called `exec`
once.  What the processes still have to do is counted in two ways: the calls, which get
fewer with each step, and the leaves, each of which is either still to come or in the
history.
-/

set_option autoImplicit false

namespace Xv6Tracing.Shell

open Lib

variable {tree c : Cmd} {pos here p : Pos} {d : Branch} {s s' : World} {i : Nat} {pr : Proc}
  {k : List Act} {a : Act}

/-! ## Leaves -/

def Cmd.leaves : Cmd → Pos → List Pos
  | .EXEC [], _ => []
  | .EXEC _, pos => [pos]
  | .REDIR c _ _ _, pos => c.leaves (pos ++ [.cmd])
  | .PIPE l r, pos => l.leaves (pos ++ [.left]) ++ r.leaves (pos ++ [.right])
  | .LIST l r, pos => l.leaves (pos ++ [.left]) ++ r.leaves (pos ++ [.right])
  | .BACK c, pos => c.leaves (pos ++ [.cmd])

theorem below_of_mem_leaves (member : p ∈ c.leaves here) : here <+: p := by
  have within : ∀ {pos : Pos} {d : Branch}, pos ++ [d] <+: p → pos <+: p := fun below =>
    (List.prefix_append _ _).trans below
  induction c generalizing here with
  | EXEC argv =>
    cases argv with
    | nil => cases member
    | cons word words =>
      rw [List.mem_singleton.mp member]
  | REDIR c file mode fd ih => exact within (ih member)
  | PIPE l r left right =>
    rcases List.mem_append.mp member with member | member
    · exact within (left member)
    · exact within (right member)
  | LIST l r left right =>
    rcases List.mem_append.mp member with member | member
    · exact within (left member)
    · exact within (right member)
  | BACK c ih => exact within (ih member)

theorem count_leaves_other {e : Branch} (other : e ≠ d) (rest : Pos) :
    (c.leaves (here ++ [e])).count (here ++ d :: rest) = 0 := by
  rw [List.count_eq_zero]
  intro member
  have below := below_of_mem_leaves member
  rw [List.prefix_append_right_inj, List.cons_prefix_cons] at below
  exact other below.1

theorem count_leaves_child {below : Cmd} (step : c.child d = some below) (rest : Pos) :
    (c.leaves here).count (here ++ d :: rest) =
      (below.leaves (here ++ [d])).count ((here ++ [d]) ++ rest) := by
  rw [List.append_assoc, List.singleton_append]
  cases c <;> cases d <;> cases step <;>
    simp only [Cmd.leaves, List.count_append, Nat.add_zero, Nat.zero_add,
      count_leaves_other (Branch.noConfusion : Branch.left ≠ Branch.right),
      count_leaves_other (Branch.noConfusion : Branch.right ≠ Branch.left)]

theorem count_leaves {argv : List (List Uchar)} (words : argv ≠ [])
    (place : c.node pos = some (.EXEC argv)) : (c.leaves here).count (here ++ pos) = 1 := by
  induction pos generalizing c here with
  | nil =>
    cases place
    cases argv with
    | nil => exact absurd rfl words
    | cons word argv =>
      rw [List.append_nil, Cmd.leaves, List.count_singleton_self]
      exact words
  | cons d pos ih =>
    rw [Cmd.node] at place
    obtain ⟨below, step, rest⟩ := Option.bind_eq_some_iff.mp place
    rw [count_leaves_child step]
    exact ih rest

/-! ## Sums over processes -/

theorem sum_map_set {α : Type} (f : α → Nat) {l : List α} {i : Nat} {x y : α}
    (present : l[i]? = some x) : ((l.set i y).map f).sum + f x = (l.map f).sum + f y := by
  induction l generalizing i with
  | nil => cases present
  | cons z l ih =>
    cases i with
    | zero =>
      cases present
      simp only [List.set_cons_zero, List.map_cons, List.sum_cons]
      omega
    | succ i =>
      have rest := ih present
      simp only [List.set_cons_succ, List.map_cons, List.sum_cons]
      omega

mutual

def Act.tally (g : Act → Nat) : Act → Nat
  | .fork child => g (.fork child) + tallyAll g child
  | a => g a

def tallyAll (g : Act → Nat) : List Act → Nat
  | [] => 0
  | a :: k => a.tally g + tallyAll g k

end

def Proc.tally (g : Act → Nat) (pr : Proc) : Nat :=
  match pr.status with
  | .running => tallyAll g pr.code
  | .program _ => g .exit
  | _ => 0

def World.tally (g : Act → Nat) (s : World) : Nat := (s.procs.map (Proc.tally g)).sum

section Tally

variable {g : Act → Nat}

theorem Proc.tally_running (running : pr.status = .running) : pr.tally g = tallyAll g pr.code := by
  unfold Proc.tally
  rw [running]

theorem tally_set (new : Proc) (present : s.procs[i]? = some pr) :
    (s.set i new).tally g + pr.tally g = s.tally g + new.tally g :=
  sum_map_set _ present

theorem tally_goes_on (new : Proc) (present : s.procs[i]? = some pr)
    (running : new.status = .running) :
    (s.set i new).tally g + pr.tally g = s.tally g + tallyAll g new.code := by
  rw [tally_set new present, Proc.tally_running running]

theorem tally_terminate (present : s.procs[i]? = some pr) :
    (terminate s i pr).tally g + pr.tally g = s.tally g := by
  have ended := tally_set (g := g)
    { pr with status := .zombie, code := [], fds := fun _ => none } present
  have same : (terminate s i pr).tally g =
      (s.set i { pr with status := .zombie, code := [], fds := fun _ => none }).tally g := by
    unfold World.tally terminate
    rw [List.map_map]
    congr 2
    funext child
    dsimp only [Function.comp]
    split
    · rfl
    · rfl
  rw [same, ended]
  rfl

theorem ne_of_zombie {child : Proc} {j : Nat} (running : pr.status = .running)
    (present : s.procs[i]? = some pr) (found : s.procs[j]? = some child)
    (ended : child.status = .zombie) : j ≠ i := by
  rintro rfl
  rw [present] at found
  cases found
  rw [ended] at running
  cases running

/-- What a call of `runcmd` or `exec` goes on with. -/
def Act.after (fds : Fin NOFILE × Fin NOFILE) : Act → List Act
  | .runcmd c pos => body pos fds c
  | .exec _ _ => [.exit]
  | _ => []

/-- A call takes what it counts for off the tally, and puts on what it goes on with. -/
theorem tally_act (running : pr.status = .running) (present : s.procs[i]? = some pr)
    (code : pr.code = a :: k) (point : Point tree pr.node (a :: k) pr.fds)
    (acted : act s i pr k a = some s') :
    ∃ fds, s'.tally g + g a = s.tally g + tallyAll g (a.after fds) := by
  have before : pr.tally g = a.tally g + tallyAll g k := by
    rw [Proc.tally_running running, code, tallyAll]
  have next : ∀ fds, (s.set i { pr with code := k, fds := fds }).tally g + a.tally g =
      s.tally g := by
    intro fds
    have changed : _ = _ + tallyAll g k :=
      tally_goes_on { pr with code := k, fds := fds } present running
    omega
  cases a with
  | runcmd c pos =>
    cases acted
    obtain ⟨place, same, rfl⟩ := point.at_runcmd
    obtain ⟨p, fds, entered, -⟩ := point_enter place same
    have changed : _ = _ + tallyAll g (body pos p c) := tally_goes_on
      { pr with node := pos, code := body pos p c, fds := fds } present running
    rw [before] at changed
    rw [entered]
    exact ⟨p, changed⟩
  | close fd =>
    cases acted
    exact ⟨(0, 0), next _⟩
  | dup fd =>
    cases acted
    exact ⟨(0, 0), next _⟩
  | open_ pos file mode =>
    cases acted
    obtain ⟨fds, opened, -⟩ := point.open_file
    rw [opened]
    exact ⟨(0, 0), next _⟩
  | fork child =>
    cases acted
    have parent := next pr.fds
    have started : Proc.tally g { pr with parent := some i, code := child } = tallyAll g child :=
      Proc.tally_running running
    refine ⟨(0, 0), ?_⟩
    unfold World.tally at parent ⊢
    rw [List.map_append, List.sum_append, List.map_singleton, List.sum_singleton, started]
    rw [Act.tally] at parent
    simp only [Act.after, tallyAll]
    omega
  | wait =>
    refine ⟨(0, 0), ?_⟩
    rcases wait_cases acted with ⟨j, child, found, -, ended, rfl⟩ | rfl
    · have other := ne_of_zombie running present found ended
      have reaped := tally_set (g := g) { child with status := .reaped } found
      have zombie : child.tally g = 0 := by
        unfold Proc.tally
        rw [ended]
      have present : (s.set j { child with status := .reaped }).procs[i]? = some pr :=
        (List.getElem?_set_ne other).trans present
      have changed : _ = _ + tallyAll g k :=
        tally_goes_on { pr with code := k } present running
      have kept : _ = s.tally g + 0 := reaped
      have counted : Act.tally g .wait = g .wait := rfl
      simp only [Act.after, tallyAll]
      omega
    · exact next pr.fds
  | exec pos argv =>
    cases acted
    obtain ⟨-, -, -, -, rfl⟩ := point.at_exec
    have changed := tally_set (g := g) { pr with status := .program argv, code := [] }
      present
    refine ⟨(0, 0), ?_⟩
    rw [before] at changed
    exact changed
  | exit =>
    cases acted
    cases point.at_exit
    have changed := tally_terminate (g := g) present
    refine ⟨(0, 0), ?_⟩
    rw [before] at changed
    exact changed

end Tally

/-! ## The number of steps -/

def Cmd.weight : Cmd → Nat
  | .EXEC _ => 3
  | .REDIR c _ _ _ => c.weight + 3
  | .PIPE l r => l.weight + r.weight + 16
  | .LIST l r => l.weight + r.weight + 3
  | .BACK c => c.weight + 3

def Act.weight : Act → Nat
  | .runcmd c _ => c.weight
  | .exec _ _ => 2
  | _ => 1

theorem weight_after (fds : Fin NOFILE × Fin NOFILE) (a : Act) :
    tallyAll Act.weight (a.after fds) < a.weight := by
  cases a with
  | runcmd c pos =>
    cases c with
    | EXEC argv =>
      cases argv <;> simp [Act.after, body, tallyAll, Act.tally, Act.weight, Cmd.weight]
    | _ =>
      simp only [Act.after, body, tallyAll, Act.tally, Act.weight, Cmd.weight]
      omega
  | exec pos argv => exact Nat.lt_succ_self 1
  | _ => exact Nat.zero_lt_one

theorem weight_lt_of_step (sound : Sound tree s) (stepped : step s i = some s') :
    s'.tally Act.weight < s.tally Act.weight := by
  obtain ⟨pr, present, ⟨running, a, k, code, acted⟩ | ⟨⟨argv, program⟩, rfl⟩⟩ := step_cases stepped
  · have point := (sound.procs pr (List.mem_of_getElem? present)).point running
    rw [code] at point
    obtain ⟨fds, counted⟩ := tally_act (g := Act.weight) running present code point acted
    have less := weight_after fds a
    omega
  · have ended := tally_terminate (g := Act.weight) present
    have one : pr.tally Act.weight = 1 := by
      unfold Proc.tally
      rw [program]
      rfl
    omega

/-! ## Every leaf once -/

/-- The calls of `exec` for a leaf that a call still owes. -/
def Act.owed (p : Pos) : Act → Nat
  | .runcmd c pos => (c.leaves pos).count p
  | .exec pos _ => [pos].count p
  | _ => 0

def World.called (s : World) (p : Pos) : Nat := (s.execs.map ExecCall.pos).count p

theorem owed_body (fds : Fin NOFILE × Fin NOFILE) (c : Cmd) (pos p : Pos) :
    tallyAll (Act.owed p) (body pos fds c) = (c.leaves pos).count p := by
  cases c with
  | EXEC argv =>
    cases argv <;> simp [body, tallyAll, Act.tally, Act.owed, Cmd.leaves]
  | _ => simp [body, tallyAll, Act.tally, Act.owed, Cmd.leaves, List.count_append]

/-- The leaves of the tree are those that have called `exec` and those still owed. -/
def Accounted (tree : Cmd) (s : World) : Prop :=
  ∀ p, s.called p + s.tally (Act.owed p) = (tree.leaves []).count p

theorem Accounted.step (accounted : Accounted tree s) (sound : Sound tree s)
    (stepped : step s i = some s') : Accounted tree s' := by
  intro p
  have before := accounted p
  obtain ⟨pr, present, ⟨running, a, k, code, acted⟩ | ⟨⟨argv, program⟩, rfl⟩⟩ := step_cases stepped
  · have point := (sound.procs pr (List.mem_of_getElem? present)).point running
    rw [code] at point
    obtain ⟨fds, counted⟩ := tally_act (g := Act.owed p) running present code point acted
    have history : s'.called p + tallyAll (Act.owed p) (a.after fds) =
        s.called p + a.owed p := by
      cases a with
      | runcmd c pos =>
        cases acted
        rw [Act.after, owed_body]
        rfl
      | exec pos argv =>
        cases acted
        unfold World.called
        rw [List.map_append, List.count_append]
        rfl
      | wait =>
        rcases wait_cases acted with ⟨j, child, -, -, -, rfl⟩ | rfl
        · rfl
        · rfl
      | _ =>
        cases acted
        rfl
    omega
  · have ended := tally_terminate (g := Act.owed p) present
    have zero : pr.tally (Act.owed p) = 0 := by
      unfold Proc.tally
      rw [program]
      rfl
    have same : (terminate s i pr).called p = s.called p := rfl
    omega

/-! ## Rest -/

def Ordered (s : World) : Prop :=
  ∀ (i : Nat) (pr : Proc) (j : Nat), s.procs[i]? = some pr → pr.parent = some j → j < i

theorem Ordered.set {new : Proc} (ordered : Ordered s) (present : s.procs[i]? = some pr)
    (same : new.parent = pr.parent) : Ordered (s.set i new) := by
  intro i' pr' j found parent
  rcases eq_or_ne i i' with rfl | other
  · have inside := (List.getElem?_eq_some_iff.mp present).1
    have new_eq : new = pr' := Option.some.inj ((List.getElem?_set_self inside).symm.trans found)
    exact ordered i pr j present (same.symm.trans (new_eq ▸ parent))
  · exact ordered i' pr' j ((List.getElem?_set_ne other).symm.trans found) parent

theorem Ordered.terminate (ordered : Ordered s) (present : s.procs[i]? = some pr) :
    Ordered (terminate s i pr) := by
  intro i' pr' j found parent
  have ended : Ordered (s.set i { pr with status := .zombie, code := [], fds := fun _ => none }) :=
    ordered.set present rfl
  unfold Shell.terminate at found
  rw [List.getElem?_map] at found
  obtain ⟨old, before, same⟩ := Option.map_eq_some_iff.mp found
  rw [← same] at parent
  split at parent
  · cases parent
  · exact ended i' old j before parent

theorem enter_parent : (enter pr c pos).parent = pr.parent := by
  unfold enter
  split
  · split
    · rfl
    · rfl
  · rfl

theorem open_parent {f : File} : (open_ pr k f).parent = pr.parent := by
  unfold open_
  split
  · rfl
  · rfl

theorem Ordered.act (ordered : Ordered s) (running : pr.status = .running)
    (present : s.procs[i]? = some pr) (acted : act s i pr k a = some s') : Ordered s' := by
  cases a with
  | runcmd c pos =>
    cases acted
    exact ordered.set present enter_parent
  | close fd =>
    cases acted
    exact ordered.set present rfl
  | dup fd =>
    cases acted
    exact ordered.set present rfl
  | open_ pos file mode =>
    cases acted
    exact ordered.set present open_parent
  | fork child =>
    cases acted
    intro i' pr' j found parent
    have inside := (List.getElem?_eq_some_iff.mp present).1
    have after : Ordered (s.set i { pr with code := k }) := ordered.set present rfl
    have length : (s.set i { pr with code := k }).procs.length = s.procs.length :=
      List.length_set
    rcases Nat.lt_or_ge i' (s.set i { pr with code := k }).procs.length with old | new
    · exact after i' pr' j ((List.getElem?_append_left old).symm.trans found) parent
    · grind
  | wait =>
    rcases wait_cases acted with ⟨j, child, found, -, ended, rfl⟩ | rfl
    · have other := ne_of_zombie running present found ended
      have reaped : Ordered (s.set j { child with status := .reaped }) := ordered.set found rfl
      exact reaped.set ((List.getElem?_set_ne other).trans present) rfl
    · exact ordered.set present rfl
  | exec pos argv =>
    cases acted
    have after : Ordered (s.set i { pr with status := .program argv, code := [] }) :=
      ordered.set present rfl
    exact after
  | exit =>
    cases acted
    exact ordered.terminate present

theorem Ordered.step (ordered : Ordered s) (stepped : step s i = some s') : Ordered s' := by
  obtain ⟨pr, present, ⟨running, a, k, code, acted⟩ | ⟨-, rfl⟩⟩ := step_cases stepped
  · exact ordered.act running present acted
  · exact ordered.terminate present

/-- A process that cannot take its next step waits for a child that has not ended. -/
theorem waits_of_act_none (acted : act s i pr k a = none) :
    ∃ (j : Nat) (child : Proc), s.procs[j]? = some child ∧ child.parent = some i ∧
      child.status ≠ .reaped ∧ child.status ≠ .zombie := by
  cases a with
  | wait =>
    change wait s i pr k = none at acted
    unfold wait at acted
    split at acted
    · rename_i j found
      obtain ⟨inside, -⟩ := List.findIdx?_eq_some_iff_getElem.mp found
      rw [List.getElem?_eq_getElem inside] at acted
      cases acted
    · rename_i none
      split at acted
      · rename_i some
        obtain ⟨child, member, holds⟩ := List.any_eq_true.mp some
        obtain ⟨j, inside, rfl⟩ := List.mem_iff_getElem.mp member
        obtain ⟨parent, unreaped⟩ := of_decide_eq_true holds
        refine ⟨j, s.procs[j], List.getElem?_eq_getElem inside, parent, unreaped, ?_⟩
        intro ended
        have free := List.findIdx?_eq_none_iff.mp none s.procs[j] member
        exact absurd ⟨parent, ended⟩ (of_decide_eq_false free)
      · cases acted
  | _ => cases acted

/-- Where no process can take a step, all have ended: the youngest of the others would
not wait for an older one. -/
theorem ended_of_rest (sound : Sound tree s) (ordered : Ordered s) (rest : ∀ i, step s i = none) :
    ∀ (n i : Nat) (pr : Proc), s.procs.length ≤ n + i → s.procs[i]? = some pr →
      pr.status = .zombie ∨ pr.status = .reaped := by
  intro n
  induction n with
  | zero =>
    intro i pr far present
    have inside := (List.getElem?_eq_some_iff.mp present).1
    omega
  | succ n ih =>
    intro i pr near present
    have none := rest i
    unfold step at none
    rw [present] at none
    dsimp only at none
    cases state : pr.status with
    | zombie => exact Or.inl rfl
    | reaped => exact Or.inr rfl
    | program argv =>
      rw [state] at none
      cases none
    | running =>
      have point := (sound.procs pr (List.mem_of_getElem? present)).point state
      rw [state] at none
      cases code : pr.code with
      | nil => exact absurd code point.code_ne_nil
      | cons a k => grind [waits_of_act_none, Ordered]

theorem tally_of_rest {g : Act → Nat}
    (ended : ∀ pr ∈ s.procs, pr.status = .zombie ∨ pr.status = .reaped) : s.tally g = 0 := by
  unfold World.tally
  rw [List.sum_eq_zero]
  intro n counted
  obtain ⟨pr, member, rfl⟩ := List.mem_map.mp counted
  unfold Proc.tally
  rcases ended pr member with state | state
  · rw [state]
  · rw [state]

/-! ## The whole run -/

/-- A leaf calls `exec` with the descriptors 0, 1 and 2, those that the nodes around it
supply; a pipe is held on its two sides only once they have started; and where no process
can go on every leaf has called `exec` once. -/
structure Plumbed (tree : Cmd) (s : World) : Prop where
  leaves : ∀ call ∈ s.execs, tree.node call.pos = some (.EXEC call.argv) ∧
    (∀ fd : Fin NOFILE, (call.fds fd).isSome ↔ fd.val < 3) ∧
    call.fds 0 = some (supplied tree call.pos 0) ∧
    call.fds 1 = some (supplied tree call.pos 1) ∧ call.fds 2 = some (.own 2)
  held : ∀ m, s.SetUp m → ∀ pr ∈ s.procs, ∀ fd,
    (pr.fds fd = some (.writeEnd m) → m ++ [.left] <+: pr.node) ∧
      (pr.fds fd = some (.readEnd m) → m ++ [.right] <+: pr.node)
  rest : (∀ i, step s i = none) → ∀ (pos : Pos) (argv : List (List Uchar)), argv ≠ [] →
    tree.node pos = some (.EXEC argv) → s.called pos = 1

structure Inv (tree : Cmd) (s : World) : Prop where
  sound : Sound tree s
  accounted : Accounted tree s
  ordered : Ordered s

theorem Inv.step (inv : Inv tree s) (stepped : step s i = some s') : Inv tree s' where
  sound := inv.sound.step stepped
  accounted := inv.accounted.step inv.sound stepped
  ordered := inv.ordered.step stepped

theorem inv_shell : Inv tree (shell tree) where
  sound := sound_shell
  accounted := fun p => Nat.zero_add _
  ordered := by
    intro i pr j found parent
    rw [shell, List.getElem?_singleton] at found
    split at found
    · cases found
      cases parent
    · cases found

theorem std_open (fd : Fin NOFILE) : (std tree pos fd).isSome ↔ fd.val < 3 := by
  fin_cases fd <;> simp [std, table]

theorem Inv.plumbed (inv : Inv tree s) : Plumbed tree s where
  leaves := fun call member => by
    obtain ⟨place, -, same⟩ := inv.sound.execs call member
    rw [same]
    exact ⟨place, std_open, rfl, rfl, rfl⟩
  held := fun m ready pr member fd =>
    ⟨fun open_ => inv.sound.beside member open_ (Or.inr rfl) ready,
      fun open_ => inv.sound.beside member open_ (Or.inl rfl) ready⟩
  rest := fun rest pos argv words place => by
    have accounted := inv.accounted pos
    have ended : ∀ pr ∈ s.procs, pr.status = .zombie ∨ pr.status = .reaped := by
      intro pr member
      obtain ⟨i, found⟩ := List.mem_iff_getElem?.mp member
      exact ended_of_rest inv.sound inv.ordered rest s.procs.length i pr (Nat.le_add_right _ _)
        found
    have once : (tree.leaves []).count ([] ++ pos) = 1 := count_leaves words place
    rw [tally_of_rest ended] at accounted
    rw [List.nil_append] at once
    omega

theorem runcmd_plumbs (tree : Cmd) (ops : List Nat) :
    Throughout step (Plumbed tree) (shell tree) ops ∧
      ∀ s, run step (shell tree) ops = some s → ops.length ≤ tree.weight := by
  have kept : ∀ s i s', Inv tree s → step s i = some s' → Inv tree s' :=
    fun s i s' inv stepped => inv.step stepped
  have less : ∀ s i s', Inv tree s → step s i = some s' →
      s'.tally Act.weight < s.tally Act.weight :=
    fun s i s' inv stepped => weight_lt_of_step inv.sound stepped
  have start : (shell tree).tally Act.weight = tree.weight := by
    change tree.weight + 0 + 0 = tree.weight
    omega
  constructor
  · exact throughout_invariant kept (fun s inv => inv.plumbed) ops _ inv_shell
  · intro s success
    rw [← start]
    exact length_le_of_run kept less ops _ s inv_shell success

end Xv6Tracing.Shell
