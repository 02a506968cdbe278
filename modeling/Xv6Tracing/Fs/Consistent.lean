import Xv6Tracing.Fs.CallEffects

/-!
# File systems between calls

A consistent file system has no call in progress, a directory tree, and users
that its references account for.  Each call keeps that, as long as it makes no
directory inside a removed one.
-/

set_option autoImplicit false

namespace Xv6Tracing.Fs

open Lib Process Ftable

structure Consistent (s : FS) : Prop where
  quiet : Quiet s
  tree : Tree s.ninodes s.view

def FsOp.makesDir : FsOp → Bool
  | .mkdir _ _ => true
  | _ => false

/-- `mkdir` makes a directory in one that has links. -/
def MakesInTree (s : FS) (op : FsOp) : Prop :=
  op.makesDir = true → ∀ d ∈ adds s op, (s.disk d).nlink ≠ 0

instance (s : FS) (op : FsOp) : Decidable (MakesInTree s op) :=
  inferInstanceAs (Decidable (_ = true → ∀ d ∈ adds s op, _))

variable {s t : FS} {op : FsOp}

section

variable (consistent : Consistent s)

include consistent

theorem Consistent.shape : Shape s.ninodes s.disk :=
  consistent.tree.shape

theorem Consistent.linked : Linked s.ninodes s.disk :=
  consistent.tree.linked

theorem Consistent.ready :
    Ready (fun _ => True) (fun _ => True) s :=
  ⟨consistent.quiet, consistent.tree, fun _ _ => trivial,
    ⟨fun _ _ _ => trivial, fun _ _ _ _ _ _ _ => trivial⟩, trivial, fun _ _ _ => trivial⟩

theorem Consistent.step_done (inTree : MakesInTree s op)
    (taken : step s op = some t) : Done s (May s op) t := by
  have spec : wp (call op) s (fun _ t => Done s (May s op) t) fun _ => True := by
    refine call_spec consistent.ready op ?_
    rintro p path d rfl added
    exact inTree rfl d added
  simp only [step] at taken
  split at taken
  · grind [wp_ok]
  · cases taken

end

theorem Done.consistent (done : Done s (May s op) t) (consistent : Consistent s) :
    Consistent t := by
  refine ⟨done.1, ?_⟩
  rw [done.2.ninodes]
  exact done.2.change.keeps_tree consistent.tree

/-- Between calls no inode is locked, each is cached once and referred to by its users, and the
directories are a tree, through every run that makes no directory inside a removed one. -/
theorem consistent_throughout (s : FS) (ops : List FsOp) (consistent : Consistent s)
    (inTree : Along step MakesInTree s ops) : Throughout step Consistent s ops := by
  have kept : ∀ s op t, Consistent s → MakesInTree s op → step s op = some t → Consistent t :=
    fun _ _ _ consistent inTree taken => (consistent.step_done inTree taken).consistent consistent
  exact throughout_of_along kept (fun _ => id) ops s consistent inTree

/-! ## A new image -/

def rootInode : Dinode := ⟨⟨.T_DIR, 0, 0, 1⟩, [⟨ROOTINO, cstr "."⟩, ⟨ROOTINO, cstr ".."⟩]⟩

/-- An image with nothing but the root directory, and two running processes in it. -/
def rootOnly : FS where
  files :=
    { kernel :=
        { proc := fun i =>
            if i.val < 2 then { Proc.unused with state := .RUNNING, pid := i.val + 1, cwd := some 0 }
            else Proc.unused
          initproc := some 0
          nextpid := 3
          kend := 0
          kmem := ⟨true, []⟩
          ticks := 0
          buf := Ktrace.traceinit Ktrace.TraceBuffer.bss
          cause := fun _ => none }
      ftable := fun _ => ⟨.FD_NONE, 0, false, false, 0, none, 0⟩
      pipe := fun _ => ⟨0, 0, false, false⟩ }
  ninodes := 16
  disk := Function.update (fun _ => ⟨⟨.free, 0, 0, 0⟩, []⟩) ROOTINO rootInode
  icache := Function.update (fun _ => ⟨⟨.free, 0, 0, 0⟩, 0, 0, false, false⟩) 0
    { rootInode with inum := ROOTINO, ref := 2, locked := false, valid := true }
  outstanding := 0

theorem rootOnly_root : rootOnly.disk ROOTINO = rootInode := rfl

variable {i : Nat}

theorem rootOnly_free (other : i ≠ ROOTINO) :
    rootOnly.disk i = ⟨⟨.free, 0, 0, 0⟩, []⟩ := by
  simp only [rootOnly, Function.update_of_ne other]

theorem rootOnly_typed (typed : (rootOnly.disk i).type ≠ .free) : i = ROOTINO := by
  by_contra other
  rw [rootOnly_free other] at typed
  exact typed rfl

theorem rootOnly_dir (isDir : (rootOnly.disk i).type = .T_DIR) : i = ROOTINO :=
  rootOnly_typed (by rw [isDir]; simp)

theorem rootOnly_names (d i : Nat) : (rootOnly.disk d).names i = 0 := by
  by_cases isRoot : d = ROOTINO
  · rw [isRoot, rootOnly_root]
    rfl
  · rw [rootOnly_free isRoot]
    rfl

theorem rootOnly_quiet : Quiet rootOnly where
  settled := ⟨by decide +kernel, by decide +kernel, fun _ _ => rfl⟩
  unlocked := by decide +kernel
  cache := by
    have used : ∀ a, 0 < (rootOnly.icache a).ref → a = 0 := by decide +kernel
    refine ⟨?_, ?_⟩
    · intro a b usedA usedB _
      rw [used a usedA, used b usedB]
    · intro a inUse _
      rw [used a inUse]
      exact ⟨rfl, by decide⟩

theorem rootOnly_tree : Tree rootOnly.ninodes rootOnly.view where
  shape := by
    refine ⟨by decide, ?_, ?_, ?_⟩
    · intro i typed
      rw [rootOnly_typed typed]
      decide
    · intro i notDir
      have other : i ≠ ROOTINO := by
        rintro rfl
        exact notDir rfl
      exact congrArg Dinode.dirents (rootOnly_free other)
    · intro d isDir
      rw [rootOnly_dir isDir]
      refine ⟨⟨[], rfl⟩, by decide, by decide, ?_⟩
      intro de member
      cases member
  linked := by
    refine ⟨?_, ?_, ?_, ?_, ?_, ?_, ?_, ?_⟩
    · decide
    · rfl
    · intro d live notRoot
      exact absurd (rootOnly_dir live.1) notRoot
    · intro d i _ _ entry
      rw [show rootOnly.view.disk = rootOnly.disk from rfl, rootOnly_names] at entry
      exact absurd entry (Nat.lt_irrefl 0)
    · intro d i _ _ entry
      rw [show rootOnly.view.disk = rootOnly.disk from rfl, rootOnly_names] at entry
      exact absurd entry (Nat.lt_irrefl 0)
    · intro i typed
      rw [rootOnly_typed typed]
      decide +kernel
    · intro i isDir
      rw [rootOnly_dir isDir]
      decide +kernel
    · intro d live
      rw [rootOnly_dir live.1]
      exact .root
  owned := by
    have held : ∀ i, rootOnly.view.Held i → i = ROOTINO := by
      rintro i ⟨u, uses⟩
      have all : ∀ u, rootOnly.view.uses u = none ∨ rootOnly.view.uses u = some ROOTINO := by
        decide +kernel
      grind
    refine ⟨?_, ?_, ?_⟩
    · intro i typed noLinks
      rw [rootOnly_typed typed] at noLinks
      exact absurd noLinks (by decide)
    · intro i inUse
      rw [held i inUse]
      decide
    · intro p i cwd
      rw [held i ⟨_, cwd⟩]
      rfl

theorem rootOnly_consistent : Consistent rootOnly := ⟨rootOnly_quiet, rootOnly_tree⟩

theorem consistent_throughout_mkdir :
    (run step rootOnly [.mkdir 0 (some (cstr "a"))]).isSome = true ∧
      Throughout step Consistent rootOnly [.mkdir 0 (some (cstr "a"))] := by
  refine ⟨by decide +kernel, ?_⟩
  exact consistent_throughout rootOnly _ rootOnly_consistent (by decide +kernel)

end Xv6Tracing.Fs
