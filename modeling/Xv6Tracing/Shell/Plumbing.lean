import Xv6Tracing.Shell.Run

/-!
# Plumbing

Each process is at a known point of `runcmd` with known descriptors.  A command starts
with the descriptors 0, 1 and 2, as the nodes above it supply them, and a pipe is seen by
its two sides only once its node has set them up.
-/

set_option autoImplicit false

namespace Xv6Tracing.Shell

open Function (update update_apply)

open Lib

variable {tree c : Cmd} {pos here m n : Pos} {d : Branch} {k : Fin 2} {f : File} {fds : Fds}

/-! ## What nodes supply -/

/-- What a node supplies as descriptor `k` to the command on one of its branches. -/
def supplies (k : Fin 2) : Cmd → Pos → Branch → Option File
  | .REDIR _ file mode fd, pos, .cmd => if fd = k then some (.opened pos file mode) else none
  | .PIPE _ _, pos, .left => if k = 1 then some (.writeEnd pos) else none
  | .PIPE _ _, pos, .right => if k = 0 then some (.readEnd pos) else none
  | _, _, _ => none

/-- What the nodes on the way from `here` supply, the outermost first. -/
def binders (k : Fin 2) (c : Cmd) (here : Pos) : Pos → List File
  | [] => []
  | d :: pos =>
    match c.child d with
    | none => []
    | some below => (supplies k c here d).toList ++ binders k below (here ++ [d]) pos

/-- The descriptor `k` as the nearest enclosing node that binds it supplies it, or else the
shell's own. -/
def supplied (tree : Cmd) (pos : Pos) (k : Fin 2) : File :=
  (binders k tree [] pos).getLast?.getD (.own k)

variable {below : Cmd} {fd : Fin NOFILE} {code : List Act} {pr : Proc}

theorem binders_snoc (place : tree.node pos = some c) (step : c.child d = some below) :
    binders k tree here (pos ++ [d]) =
      binders k tree here pos ++ (supplies k c (here ++ pos) d).toList := by
  induction pos generalizing tree here with
  | nil =>
    cases place
    simp only [List.nil_append, binders, step, List.append_nil]
  | cons e pos ih =>
    rw [Cmd.node] at place
    obtain ⟨under, first, rest⟩ := Option.bind_eq_some_iff.mp place
    rw [List.cons_append, binders, binders, first]
    dsimp only
    rw [ih rest, List.append_assoc, List.append_assoc, List.singleton_append]

theorem supplied_snoc (place : tree.node pos = some c) (step : c.child d = some below) :
    supplied tree (pos ++ [d]) k = (supplies k c pos d).getD (supplied tree pos k) := by
  rw [supplied, binders_snoc place step, List.nil_append]
  cases supplies k c pos d with
  | none => rw [Option.toList_none, List.append_nil]; rfl
  | some f => rw [Option.toList_some, List.getLast?_concat]; rfl

/-- An end of a pipe is on the pipe's side: the write end on the left, the read end on the
right. -/
def File.Beside : File → Pos → Prop
  | .writeEnd m, pos => m ++ [.left] <+: pos
  | .readEnd m, pos => m ++ [.right] <+: pos
  | _, _ => True

theorem beside_of_supplies (found : supplies k c here d = some f) (pos : Pos) :
    f.Beside (here ++ d :: pos) := by
  have place : here ++ [d] <+: here ++ d :: pos :=
    (List.prefix_append_right_inj here).mpr ⟨pos, rfl⟩
  unfold supplies at found
  split at found
  · split at found
    · cases found
      trivial
    · cases found
  · split at found
    · cases found
      exact place
    · cases found
  · split at found
    · cases found
      exact place
    · cases found
  · cases found

theorem beside_of_mem_binders (member : f ∈ binders k tree here pos) : f.Beside (here ++ pos) := by
  induction pos generalizing tree here with
  | nil => cases member
  | cons d pos ih =>
    rw [binders] at member
    cases step : tree.child d with
    | none =>
      rw [step] at member
      cases member
    | some below => grind [beside_of_supplies]

theorem supplied_beside (tree : Cmd) (pos : Pos) (k : Fin 2) : (supplied tree pos k).Beside pos := by
  unfold supplied
  cases last : (binders k tree [] pos).getLast? with
  | none => trivial
  | some f => exact beside_of_mem_binders (List.mem_of_getLast? last)

/-! ## Descriptors -/

def table (a b c d e : Option File) : Fds := fun fd =>
  match fd.val with
  | 0 => a
  | 1 => b
  | 2 => c
  | 3 => d
  | 4 => e
  | _ => none

section Tables

variable {x y z : File} {a b c d e : Option File}

theorem close_zero : update (table a b c d e) 0 none = table none b c d e := by
  funext fd
  fin_cases fd <;> rfl

theorem close_one : update (table a b c d e) 1 none = table a none c d e := by
  funext fd
  fin_cases fd <;> rfl

theorem close_three : update (table a b c d e) 3 none = table a b c none e := by
  funext fd
  fin_cases fd <;> rfl

theorem close_four : update (table a b c d e) 4 none = table a b c d none := by
  funext fd
  fin_cases fd <;> rfl

theorem alloc_zero : fdalloc (table none b c d e) f = some (0, table (some f) b c d e) := by
  have first : fdalloc (table none b c d e) f =
      some (0, update (table none b c d e) 0 (some f)) := rfl
  rw [first]
  congr 2
  funext fd
  fin_cases fd <;> rfl

theorem alloc_one : fdalloc (table (some x) none c d e) f = some (1, table (some x) (some f) c d e) := by
  have first : fdalloc (table (some x) none c d e) f =
      some (1, update (table (some x) none c d e) 1 (some f)) := rfl
  rw [first]
  congr 2
  funext fd
  fin_cases fd <;> rfl

theorem alloc_three : fdalloc (table (some x) (some y) (some z) none e) f =
    some (3, table (some x) (some y) (some z) (some f) e) := by
  have first : fdalloc (table (some x) (some y) (some z) none e) f =
      some (3, update (table (some x) (some y) (some z) none e) 3 (some f)) := rfl
  rw [first]
  congr 2
  funext fd
  fin_cases fd <;> rfl

theorem alloc_four {w : File} : fdalloc (table (some x) (some y) (some z) (some w) none) f =
    some (4, table (some x) (some y) (some z) (some w) (some f)) := by
  have first : fdalloc (table (some x) (some y) (some z) (some w) none) f =
      some (4, update (table (some x) (some y) (some z) (some w) none) 4 (some f)) := rfl
  rw [first]
  congr 2
  funext fd
  fin_cases fd <;> rfl

theorem mem_table {fd : Fin NOFILE} (open_ : table a b c d e fd = some f) :
    a = some f ∨ b = some f ∨ c = some f ∨ d = some f ∨ e = some f := by
  unfold table at open_
  split at open_
  · exact Or.inl open_
  · exact Or.inr (Or.inl open_)
  · exact Or.inr (Or.inr (Or.inl open_))
  · exact Or.inr (Or.inr (Or.inr (Or.inl open_)))
  · exact Or.inr (Or.inr (Or.inr (Or.inr open_)))
  · cases open_

end Tables

def std (tree : Cmd) (pos : Pos) : Fds :=
  table (some (supplied tree pos 0)) (some (supplied tree pos 1)) (some (.own 2)) none none

theorem std_root : std tree [] = fun fd => if fd.val < 3 then some (.own fd.val) else none := by
  funext fd
  fin_cases fd <;> rfl

theorem std_snoc (place : tree.node pos = some c) (step : c.child d = some below) :
    std tree (pos ++ [d]) =
      table ((supplies 0 c pos d).getD (supplied tree pos 0))
        ((supplies 1 c pos d).getD (supplied tree pos 1)) (some (.own 2)) none none := by
  rw [std, supplied_snoc place step, supplied_snoc place step]

theorem std_beside (open_ : std tree pos fd = some f) : f.Beside pos := by
  rcases mem_table open_ with same | same | same | same | same
  · cases same
    exact supplied_beside tree pos 0
  · cases same
    exact supplied_beside tree pos 1
  · cases same
    trivial
  · cases same
  · cases same

/-! ## The points of `runcmd` -/

def piped (tree : Cmd) (pos : Pos) : Fds :=
  table (some (supplied tree pos 0)) (some (supplied tree pos 1)) (some (.own 2))
    (some (.readEnd pos)) (some (.writeEnd pos))

/-- The points of the body of a `PIPE` and of its two children, before the sides start. -/
inductive SettingUp (tree : Cmd) (pos : Pos) (l r : Cmd) : List Act → Fds → Prop
  | start : SettingUp tree pos l r (body pos (3, 4) (.PIPE l r)) (piped tree pos)
  | second : SettingUp tree pos l r
      [.fork [.close 0, .dup 3, .close 3, .close 4, .runcmd r (pos ++ [.right])],
        .close 3, .close 4, .wait, .wait, .exit] (piped tree pos)
  | closes : SettingUp tree pos l r [.close 3, .close 4, .wait, .wait, .exit] (piped tree pos)
  | closes4 : SettingUp tree pos l r [.close 4, .wait, .wait, .exit]
      (table (some (supplied tree pos 0)) (some (supplied tree pos 1)) (some (.own 2)) none
        (some (.writeEnd pos)))
  | left : SettingUp tree pos l r
      [.close 1, .dup 4, .close 3, .close 4, .runcmd l (pos ++ [.left])] (piped tree pos)
  | leftDup : SettingUp tree pos l r [.dup 4, .close 3, .close 4, .runcmd l (pos ++ [.left])]
      (table (some (supplied tree pos 0)) none (some (.own 2)) (some (.readEnd pos))
        (some (.writeEnd pos)))
  | left3 : SettingUp tree pos l r [.close 3, .close 4, .runcmd l (pos ++ [.left])]
      (table (some (supplied tree pos 0)) (some (.writeEnd pos)) (some (.own 2))
        (some (.readEnd pos)) (some (.writeEnd pos)))
  | left4 : SettingUp tree pos l r [.close 4, .runcmd l (pos ++ [.left])]
      (table (some (supplied tree pos 0)) (some (.writeEnd pos)) (some (.own 2)) none
        (some (.writeEnd pos)))
  | right : SettingUp tree pos l r
      [.close 0, .dup 3, .close 3, .close 4, .runcmd r (pos ++ [.right])] (piped tree pos)
  | rightDup : SettingUp tree pos l r [.dup 3, .close 3, .close 4, .runcmd r (pos ++ [.right])]
      (table none (some (supplied tree pos 1)) (some (.own 2)) (some (.readEnd pos))
        (some (.writeEnd pos)))
  | right3 : SettingUp tree pos l r [.close 3, .close 4, .runcmd r (pos ++ [.right])]
      (table (some (.readEnd pos)) (some (supplied tree pos 1)) (some (.own 2))
        (some (.readEnd pos)) (some (.writeEnd pos)))
  | right4 : SettingUp tree pos l r [.close 4, .runcmd r (pos ++ [.right])]
      (table (some (.readEnd pos)) (some (supplied tree pos 1)) (some (.own 2)) none
        (some (.writeEnd pos)))

/-- The points of `runcmd`, with the descriptors at each. -/
inductive Point (tree : Cmd) : Pos → List Act → Fds → Prop
  | root : Point tree [] [.runcmd tree []] (std tree [])
  | below {pos : Pos} {c below : Cmd} {d : Branch} (place : tree.node pos = some c)
      (step : c.child d = some below) :
      Point tree pos [.runcmd below (pos ++ [d])] (std tree (pos ++ [d]))
  | leaving {pos : Pos} {code : List Act} (suffix : code <:+ [.wait, .wait, .exit])
      (more : code ≠ []) : Point tree pos code (std tree pos)
  | exec {pos : Pos} {argv : List (List Uchar)} (place : tree.node pos = some (.EXEC argv))
      (words : argv ≠ []) : Point tree pos [.exec pos argv] (std tree pos)
  | close {pos : Pos} {c : Cmd} {file : List Uchar} {mode : CInt} {fd : Fin 2}
      (place : tree.node pos = some (.REDIR c file mode fd)) :
      Point tree pos (body pos (0, 0) (.REDIR c file mode fd)) (std tree pos)
  | open_ {pos : Pos} {c : Cmd} {file : List Uchar} {mode : CInt} {fd : Fin 2}
      (place : tree.node pos = some (.REDIR c file mode fd)) :
      Point tree pos [.open_ pos file mode, .runcmd c (pos ++ [.cmd])]
        (Function.update (std tree pos) (fd.castLE (by decide)) none)
  | list {pos : Pos} {l r : Cmd} (place : tree.node pos = some (.LIST l r)) :
      Point tree pos (body pos (0, 0) (.LIST l r)) (std tree pos)
  | listWait {pos : Pos} {l r : Cmd} (place : tree.node pos = some (.LIST l r)) :
      Point tree pos [.wait, .runcmd r (pos ++ [.right])] (std tree pos)
  | back {pos : Pos} {c : Cmd} (place : tree.node pos = some (.BACK c)) :
      Point tree pos (body pos (0, 0) (.BACK c)) (std tree pos)
  | pipe {pos : Pos} {l r : Cmd} {code : List Act} {fds : Fds}
      (place : tree.node pos = some (.PIPE l r)) (stage : SettingUp tree pos l r code fds) :
      Point tree pos code fds

def Proc.Fits (tree : Cmd) (pr : Proc) : Prop :=
  match pr.status with
  | .running => Point tree pr.node pr.code pr.fds
  | .program argv => tree.node pr.node = some (.EXEC argv) ∧ pr.fds = std tree pr.node
  | _ => pr.fds = fun _ => none

theorem Point.start (place : tree.node pos = some c) (step : c.child d = some below)
    (same : fds = table ((supplies 0 c pos d).getD (supplied tree pos 0))
      ((supplies 1 c pos d).getD (supplied tree pos 1)) (some (.own 2)) none none) :
    Point tree pos [.runcmd below (pos ++ [d])] fds := by
  rw [same, ← std_snoc place step]
  exact .below place step

theorem head_of_leaving {a : Act} (suffix : a :: code <:+ [Act.wait, .wait, .exit]) :
    a = .exit ∧ code = [] ∨ a = .wait ∧ code ≠ [] ∧ code <:+ [Act.wait, .wait, .exit] := by
  rcases List.suffix_cons_iff.mp suffix with same | suffix
  · cases same
    exact Or.inr ⟨rfl, nofun, ⟨[.wait], rfl⟩⟩
  rcases List.suffix_cons_iff.mp suffix with same | suffix
  · cases same
    exact Or.inr ⟨rfl, nofun, ⟨[.wait, .wait], rfl⟩⟩
  rcases List.suffix_cons_iff.mp suffix with same | suffix
  · cases same
    exact Or.inl ⟨rfl, rfl⟩
  · cases List.suffix_nil.mp suffix

theorem Point.at_runcmd (point : Point tree n (.runcmd c pos :: code) fds) :
    tree.node pos = some c ∧ fds = std tree pos ∧ code = [] := by
  cases point with
  | root => exact ⟨rfl, rfl, rfl⟩
  | below place step => exact ⟨(Cmd.node_snoc place _).trans step, rfl, rfl⟩
  | leaving suffix more => rcases head_of_leaving suffix with same | same <;> simp at same
  | pipe place stage => cases stage

theorem Point.at_exec {argv : List (List Uchar)}
    (point : Point tree n (.exec pos argv :: code) fds) :
    pos = n ∧ tree.node n = some (.EXEC argv) ∧ argv ≠ [] ∧ fds = std tree n ∧ code = [] := by
  cases point with
  | exec place words => exact ⟨rfl, place, words, rfl, rfl⟩
  | leaving suffix more => rcases head_of_leaving suffix with same | same <;> simp at same
  | pipe place stage => cases stage

theorem Point.at_exit (point : Point tree n (.exit :: code) fds) :
    code = [] := by
  cases point with
  | leaving suffix more =>
    rcases head_of_leaving suffix with ⟨-, last⟩ | ⟨same, -⟩
    · exact last
    · cases same
  | pipe place stage => cases stage

theorem Point.code_ne_nil (point : Point tree n code fds) : code ≠ [] := by
  intro last
  cases point with
  | leaving suffix more => exact more last
  | pipe place stage => cases stage <;> cases last
  | _ => cases last

theorem Point.wait (point : Point tree n (.wait :: code) fds) :
    Point tree n code fds := by
  cases point with
  | leaving suffix more => grind [head_of_leaving, Point]
  | listWait place =>
    exact .start place rfl rfl
  | pipe place stage => cases stage

theorem Point.fork {child : List Act} (point : Point tree n (.fork child :: code) fds) :
    Point tree n child fds ∧ Point tree n code fds := by
  cases point with
  | leaving suffix more => rcases head_of_leaving suffix with same | same <;> simp at same
  | list place =>
    exact ⟨.start place rfl rfl, .listWait place⟩
  | back place =>
    exact ⟨.start place rfl rfl, .leaving ⟨[.wait, .wait], rfl⟩ nofun⟩
  | pipe place stage =>
    cases stage with
    | start => exact ⟨.pipe place .left, .pipe place .second⟩
    | second => exact ⟨.pipe place .right, .pipe place .closes⟩

theorem Point.close_fd (point : Point tree n (.close fd :: code) fds) :
    Point tree n code (update fds fd none) := by
  cases point with
  | leaving suffix more => rcases head_of_leaving suffix with same | same <;> simp at same
  | close place => exact .open_ place
  | pipe place stage =>
    cases stage with
    | closes =>
      rw [piped, close_three]
      exact .pipe place .closes4
    | closes4 =>
      rw [close_four]
      exact .leaving ⟨[], rfl⟩ nofun
    | left =>
      rw [piped, close_one]
      exact .pipe place .leftDup
    | left3 =>
      rw [close_three]
      exact .pipe place .left4
    | left4 =>
      rw [close_four]
      exact .start place rfl rfl
    | right =>
      rw [piped, close_zero]
      exact .pipe place .rightDup
    | right3 =>
      rw [close_three]
      exact .pipe place .right4
    | right4 =>
      rw [close_four]
      exact .start place rfl rfl

theorem Point.dup_fd
    (point : Point tree n (.dup fd :: code) pr.fds) : Point tree n code (dup pr fd) := by
  generalize same : pr.fds = fds at point
  cases point with
  | leaving suffix more => rcases head_of_leaving suffix with same | same <;> simp at same
  | pipe place stage =>
    cases stage with
    | leftDup =>
      have open_ : pr.fds 4 = some (.writeEnd n) := by rw [same]; rfl
      rw [dup, open_, same]
      dsimp only
      rw [alloc_one]
      exact .pipe place .left3
    | rightDup =>
      have open_ : pr.fds 3 = some (.readEnd n) := by rw [same]; rfl
      rw [dup, open_, same]
      dsimp only
      rw [alloc_zero]
      exact .pipe place .right3

theorem Point.open_file {file : List Uchar} {mode : CInt}
    (point : Point tree n (.open_ pos file mode :: code) pr.fds) :
    ∃ fds, Shell.open_ pr code (.opened pos file mode) = { pr with code := code, fds := fds } ∧
      Point tree n code fds := by
  generalize same : pr.fds = fds at point
  cases point with
  | leaving suffix more => rcases head_of_leaving suffix with same | same <;> simp at same
  | pipe place stage => cases stage
  | @open_ _ c _ _ fd place =>
    rw [Shell.open_, same]
    match fd with
    | 0 =>
      have closed : update (std tree pos) ((0 : Fin 2).castLE (by decide)) none =
        table none _ _ _ _ := close_zero
      rw [closed, alloc_zero]
      exact ⟨_, rfl, .start place rfl rfl⟩
    | 1 =>
      have closed : update (std tree pos) ((1 : Fin 2).castLE (by decide)) none =
        table _ none _ _ _ := close_one
      rw [closed, alloc_one]
      exact ⟨_, rfl, .start place rfl rfl⟩

theorem point_enter (place : tree.node pos = some c) (same : pr.fds = std tree pos) :
    ∃ p fds, enter pr c pos = { pr with node := pos, code := body pos p c, fds := fds } ∧
      Point tree pos (body pos p c) fds := by
  cases c with
  | PIPE l r =>
    have made : pipe pr.fds pos = some ((3, 4), piped tree pos) := by
      rw [pipe, same, std, alloc_three]
      dsimp only
      rw [alloc_four]
      rfl
    refine ⟨(3, 4), piped tree pos, ?_, .pipe place .start⟩
    rw [enter, made]
    rfl
  | EXEC argv =>
    refine ⟨(0, 0), std tree pos, by rw [← same]; rfl, ?_⟩
    cases argv with
    | nil => exact .leaving ⟨[.wait, .wait], rfl⟩ nofun
    | cons word words => exact .exec place nofun
  | REDIR c file mode fd => exact ⟨(0, 0), std tree pos, by rw [← same]; rfl, .close place⟩
  | LIST l r => exact ⟨(0, 0), std tree pos, by rw [← same]; rfl, .list place⟩
  | BACK c => exact ⟨(0, 0), std tree pos, by rw [← same]; rfl, .back place⟩

/-! ## Runs -/

structure Sound (tree : Cmd) (s : World) : Prop where
  procs : ∀ pr ∈ s.procs, pr.Fits tree
  execs : ∀ call ∈ s.execs, tree.node call.pos = some (.EXEC call.argv) ∧ call.argv ≠ [] ∧
    call.fds = std tree call.pos

variable {s s' : World} {i : Nat} {pr : Proc}

theorem Sound.set (sound : Sound tree s) (fits : pr.Fits tree) : Sound tree (s.set i pr) where
  procs := fun other member => by
    rcases List.mem_or_eq_of_mem_set member with old | new
    · exact sound.procs other old
    · exact new ▸ fits
  execs := sound.execs

theorem Sound.terminate (sound : Sound tree s) : Sound tree (terminate s i pr) where
  procs := fun other member => by
    obtain ⟨old, member, same⟩ := List.mem_map.mp member
    have fits : old.Fits tree := by
      rcases List.mem_or_eq_of_mem_set member with old | new
      · exact sound.procs _ old
      · rw [new]
        exact rfl
    rw [← same]
    split
    · exact fits
    · exact fits
  execs := sound.execs

theorem Proc.Fits.point (fits : pr.Fits tree) (running : pr.status = .running) :
    Point tree pr.node pr.code pr.fds := by
  unfold Proc.Fits at fits
  rw [running] at fits
  exact fits

theorem fits_of_point (running : pr.status = .running)
    (point : Point tree pr.node pr.code pr.fds) : pr.Fits tree := by
  unfold Proc.Fits
  rw [running]
  exact point

theorem Sound.act {a : Act} (sound : Sound tree s) (running : pr.status = .running)
    (point : Point tree pr.node (a :: code) pr.fds) (acted : act s i pr code a = some s') :
    Sound tree s' := by
  cases a with
  | runcmd c pos =>
    cases acted
    obtain ⟨place, same, -⟩ := point.at_runcmd
    grind [point_enter, sound.set, fits_of_point]
  | close fd =>
    cases acted
    exact sound.set (fits_of_point running point.close_fd)
  | dup fd =>
    cases acted
    exact sound.set (fits_of_point running point.dup_fd)
  | open_ pos file mode =>
    cases acted
    obtain ⟨fds, opened, point⟩ := point.open_file
    rw [opened]
    exact sound.set (fits_of_point running point)
  | fork child =>
    cases acted
    have after : Sound tree (s.set i { pr with code := code }) :=
      sound.set (fits_of_point running point.fork.2)
    grind [fits_of_point, point.fork.1, Sound]
  | wait =>
    rcases wait_cases acted with ⟨j, child, present, -, ended, rfl⟩ | rfl
    · refine (sound.set ?_).set (fits_of_point running point.wait)
      have fits := sound.procs child (List.mem_of_getElem? present)
      unfold Proc.Fits at fits
      rw [ended] at fits
      exact fits
    · exact sound.set (fits_of_point running point.wait)
  | exec pos argv =>
    cases acted
    obtain ⟨here, place, words, same, -⟩ := point.at_exec
    have fits : ({ pr with status := .program argv, code := [] } : Proc).Fits tree :=
      ⟨place, same⟩
    refine ⟨(sound.set fits).procs, fun call member => ?_⟩
    rcases List.mem_append.mp member with old | new
    · exact sound.execs call old
    · rw [List.mem_singleton.mp new, here]
      exact ⟨place, words, same⟩
  | exit =>
    cases acted
    exact sound.terminate

theorem Sound.step (sound : Sound tree s) (stepped : step s i = some s') : Sound tree s' := by
  obtain ⟨pr, present, ⟨running, a, k, code, acted⟩ | ⟨-, rfl⟩⟩ := step_cases stepped
  · have point := (sound.procs pr (List.mem_of_getElem? present)).point running
    rw [code] at point
    exact sound.act running point acted
  · exact sound.terminate

theorem sound_shell : Sound tree (shell tree) where
  procs := fun pr member => by
    rw [List.mem_singleton.mp member]
    have point : Point tree [] [.runcmd tree []] _ := .root
    rw [std_root] at point
    exact point
  execs := nofun

/-! ## Who holds a pipe -/

theorem beside_snoc (beside : f.Beside (n ++ [d])) :
    f.Beside n ∨ f = .readEnd n ∨ f = .writeEnd n := by
  cases f with
  | own fd => exact Or.inl trivial
  | opened pos file mode => exact Or.inl trivial
  | readEnd m =>
    rcases List.prefix_concat_iff.mp beside with same | above
    · exact Or.inr (Or.inl (congrArg _ (List.append_inj' same rfl).1))
    · exact Or.inl above
  | writeEnd m =>
    rcases List.prefix_concat_iff.mp beside with same | above
    · exact Or.inr (Or.inr (congrArg _ (List.append_inj' same rfl).1))
    · exact Or.inl above

theorem SettingUp.busy {l r : Cmd} (stage : SettingUp tree pos l r code fds) :
    ¬ code <:+ [.wait, .wait, .exit] := by
  intro suffix
  cases stage <;>
    rcases head_of_leaving suffix with same | same <;>
      simp at same

theorem SettingUp.held {l r : Cmd}
    (stage : SettingUp tree pos l r code fds) (open_ : fds fd = some f) :
    f.Beside pos ∨ f = .readEnd pos ∨ f = .writeEnd pos := by
  have zero := supplied_beside tree pos 0
  have one := supplied_beside tree pos 1
  have two : (File.own 2).Beside pos := trivial
  cases stage <;>
    rcases mem_table open_ with same | same | same | same | same <;>
      cases same <;>
        simp only [zero, one, two, true_or, or_true]

/-- At each point a pipe is held on its sides, or by a process that is setting them up. -/
theorem Point.held (point : Point tree n code fds) (open_ : fds fd = some f) :
    f.Beside n ∨ (f = .readEnd n ∨ f = .writeEnd n) ∧ ¬ code <:+ [.wait, .wait, .exit] := by
  cases point with
  | root => exact Or.inl (std_beside open_)
  | below place step =>
    rcases beside_snoc (std_beside open_) with beside | made
    · exact Or.inl beside
    · refine Or.inr ⟨made, fun suffix => ?_⟩
      rcases head_of_leaving suffix with same | same <;> simp at same
  | leaving suffix more => exact Or.inl (std_beside open_)
  | exec place words => exact Or.inl (std_beside open_)
  | close place => exact Or.inl (std_beside open_)
  | open_ place =>
    rw [update_apply] at open_
    split at open_
    · cases open_
    · exact Or.inl (std_beside open_)
  | list place => exact Or.inl (std_beside open_)
  | listWait place => exact Or.inl (std_beside open_)
  | back place => exact Or.inl (std_beside open_)
  | pipe place stage =>
    rcases stage.held open_ with beside | made
    · exact Or.inl beside
    · exact Or.inr ⟨made, stage.busy⟩

def World.SetUp (s : World) (m : Pos) : Prop :=
  ∀ pr ∈ s.procs, pr.node = m → pr.code <:+ [.wait, .wait, .exit]

/-- An end of a pipe whose sides have started is held only on its side. -/
theorem Sound.beside (sound : Sound tree s) (member : pr ∈ s.procs)
    (open_ : pr.fds fd = some f) (made : f = .readEnd m ∨ f = .writeEnd m) (ready : s.SetUp m) :
    f.Beside pr.node := by
  have fits := sound.procs pr member
  cases state : pr.status with
  | running =>
    rcases (fits.point state).held open_ with beside | ⟨own, busy⟩
    · exact beside
    · have here : pr.node = m := by
        rcases own with rfl | rfl <;> rcases made with same | same <;> cases same <;> rfl
      exact absurd (ready pr member here) busy
  | program argv =>
    unfold Proc.Fits at fits
    rw [state] at fits
    rw [fits.2] at open_
    exact std_beside open_
  | zombie => grind [Proc.Fits]
  | reaped => grind [Proc.Fits]

end Xv6Tracing.Shell
