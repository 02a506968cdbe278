import Xv6Tracing.Fs.Accounting

/-!
# What the calls do

Every system call, started with no other call in progress, makes one of the changes of
the view that its arguments stand for, and leaves the references accounted for.  `adds`
and `removes` are the directory that would get a new name and the one that would go.
-/

set_option autoImplicit false

namespace Xv6Tracing.Fs

open Function (update_comm update_idem update_of_ne update_self)

open Lib Process Ftable

/-! ## The changes that a call stands for -/

def newName (s : FS) (p : Fin NPROC) (path : List Uchar) : Option Nat :=
  match resolve s p path true with
  | none => none
  | some (d, name) => if lookupFrom name 0 (s.disk d).dirents = none then some d else none

def adds (s : FS) : FsOp → Option Nat
  | .open_ p (some path) omode => if omode &&& O_CREATE ≠ 0 then newName s p path else none
  | .mkdir p (some path) | .mknod p (some path) _ _ => newName s p path
  | .link p (some old) (some new) =>
    match resolve s p old false with
    | none => none
    | some (i, _) => if (s.disk i).type = .T_DIR then none else newName s p new
  | _ => none

def removes (s : FS) : FsOp → Option Nat
  | .unlink p (some path) =>
    match resolve s p path true with
    | none => none
    | some (d, name) =>
      if namecmp name (cstr ".") = 0 ∨ namecmp name (cstr "..") = 0 then none
      else
        match lookupFrom name 0 (s.disk d).dirents with
        | none => none
        | some (_, i) =>
          if (s.disk i).type = .T_DIR ∧ isdirempty (s.disk i).dirents then some i else none
  | _ => none

def May (s : FS) (op : FsOp) : Event → Prop
  | .create d _ type => adds s op = some d ∧ (type = .T_DIR → ∃ p path, op = .mkdir p path)
  | .link d _ => adds s op = some d
  | .unlink _ i => (s.disk i).type = .T_DIR → removes s op = some i
  | .chdir p i => ∃ path name, op = .chdir p (some path) ∧ resolve s p path false = some (i, name)

/-- A state that a call which began in `s` works on. -/
structure Stage (s : FS) (may : Event → Prop) (base : FS) : Prop where
  settled : Settled base
  ninodes : base.ninodes = s.ninodes
  change : Change s.ninodes may s.view base.view

def Done (s : FS) (may : Event → Prop) (t : FS) : Prop := Quiet t ∧ Stage s may t

structure Ready (exc : Halt → Prop) (safe : Nat → Prop) (s : FS) : Prop where
  quiet : Quiet s
  tree : Tree s.ninodes s.view
  others : ∀ h, h ≠ .ilockNoType → exc h
  walk : SafeWalk s.disk exc safe
  root : safe ROOTINO
  cwds : ∀ p i, s.view.uses (.inl p) = some i → safe i

variable {exc : Halt → Prop} {safe : Nat → Prop} {may : Event → Prop} {s base t : FS}
  {held : Multiset Handle} {locked : Finset (Fin NINODE)} {a : Fin NINODE} {i : Nat}

theorem Stage.start (ready : Ready exc safe s) : Stage s may s :=
  ⟨ready.quiet.settled, rfl, .none⟩

variable {disk : Inodes} {name : Name} {d : Nat} {b : Fin NINODE}

theorem Stage.edit (ready : Ready exc safe s) {event : Event} (allowed : may event)
    (edit : Edit s.ninodes s.view event { s.view with disk := disk }) :
    Stage s may { s with disk := disk } where
  settled := ⟨ready.quiet.settled.refs, ready.quiet.settled.valid, ready.quiet.settled.idle⟩
  ninodes := rfl
  change := .edit allowed edit

theorem Stage.done (stage : Stage s may base) (within : Within base 0 ∅ t) : Done s may t := by
  obtain ⟨quiet, view⟩ := stage.settled.finish within
  refine ⟨quiet, quiet.settled, within.ninodes.trans stage.ninodes, ?_⟩
  rw [view]
  exact stage.change

theorem Stage.tree (stage : Stage s may base) (ready : Ready exc safe s) :
    Tree base.ninodes base.view := by
  rw [stage.ninodes]
  exact stage.change.keeps_tree ready.tree

/-! ## Giving back, and looking up -/

theorem begin_op_spec (within : Within base held locked t) :
    wp begin_op t (fun _ t => Within base held locked t) exc := within.withOutstanding _

theorem end_op_spec (within : Within base held locked t) :
    wp end_op t (fun _ t => Within base held locked t) exc := within.withOutstanding _

theorem Tree.anchored {n : Nat} (tree : Tree n base.view) (settled : Settled base)
    (held : Multiset Handle) (i : Nat) : Anchored base held i := by
  intro typed
  by_cases noLinks : (base.disk i).nlink = 0
  · exact Or.inr (Or.inl (settled.referenced.mpr (tree.owned.orphan i typed noLinks)))
  · exact Or.inl noLinks

theorem Anchored.of_changed (anchored : ∀ i, Anchored base held i)
    (changed : ∀ x, disk x ≠ base.disk x → ∃ b, (b, x) ∈ held) (i : Nat) :
    Anchored { base with disk := disk } held i := by
  intro typed
  by_cases same : disk i = base.disk i
  · simp only [same] at typed ⊢
    exact anchored i typed
  · exact Or.inr (Or.inr (changed i same))

theorem iput_released (within : Within base ((a, i) ::ₘ held) locked t) (unlocked : a ∉ locked)
    (valid : (base.disk i).nlink = 0 → (t.icache a).valid = true) :
    wp (iput a) t (fun _ t => ∃ disk,
      Released (Referenced base i ∨ ∃ b, (b, i) ∈ held) base.disk i disk ∧
        Within { base with disk := disk } held locked t) exc := by
  by_cases needed : (base.disk i).nlink ≠ 0 ∨ Referenced base i ∨ ∃ b, (b, i) ∈ held
  · refine wp_mono (iput_keep within (fun isLocked => absurd isLocked unlocked) fun _ => needed) ?_
    intro _ t within
    exact ⟨base.disk, .kept needed, within⟩
  · simp only [not_or, not_not, not_exists] at needed
    obtain ⟨noLinks, unreferenced, alone⟩ := needed
    refine wp_mono (iput_free within unlocked (valid noLinks) noLinks unreferenced alone) ?_
    intro _ t within
    refine ⟨freeDisk base.disk i, .freed noLinks ?_, within⟩
    rintro (referenced | ⟨b, mem⟩)
    · exact unreferenced referenced
    · exact alone b mem

theorem namex_spec (others : ∀ h, h ≠ .ilockNoType → exc h) (walk : SafeWalk base.disk exc safe)
    (root : safe ROOTINO) (cwds : ∀ p i, base.view.uses (.inl p) = some i → safe i)
    (settled : Settled base) (anchored : ∀ j, Anchored base held j)
    (within : Within base held ∅ t) (p : Fin NPROC) (path : List Uchar) (parent : Bool) :
    wp (namex p path parent) t (fun found t =>
      match found with
      | none => Within base held ∅ t
      | some (b, name) => ∃ j, safe j ∧ Within base ((b, j) ::ₘ held) ∅ t ∧
          resolve base p path parent = some (j, name)) exc := by
  -- From wherever the path starts, the loop does what `resolve` says.
  have loop : ∀ (a : Fin NINODE) (i : Nat) (t : FS), pathStart base p path = some i → safe i →
      Within base ((a, i) ::ₘ held) ∅ t →
      wp (namexLoop parent (path.length + 1) a path) t (fun found t =>
        match found with
        | none => Within base held ∅ t
        | some (b, name) => ∃ j, safe j ∧ Within base ((b, j) ::ₘ held) ∅ t ∧
            resolve base p path parent = some (j, name)) exc := by
    intro a i t start isSafe within
    refine wp_mono (namexLoop_spec others walk anchored parent (path.length + 1) t a i path
      (Nat.lt_succ_self _) isSafe within) ?_
    rintro (_ | ⟨b, name⟩) t found
    · exact found.1
    · obtain ⟨j, isSafe, within, ends⟩ := found
      exact ⟨j, isSafe, within, by rw [resolve, start, Option.bind_some, ends]⟩
  simp only [namex, wp_bind, wp_get]
  split
  · rename_i absolute
    refine wp_call (iget_spec others within ROOTINO) ?_
    intro a t within
    exact loop a ROOTINO t (by rw [pathStart, if_pos absolute]) root within
  · rename_i relative
    rw [within.files]
    cases cwd : (base.files.kernel.proc p).cwd with
    | none => exact others _ (by simp)
    | some c =>
      have uses : users base.files (.inl p) = some c := cwd
      have start : pathStart base p path = some (base.icache c).inum := by
        rw [pathStart, if_neg relative, cwd, Option.map_some]
      refine wp_call (idup_spec within (settled.used uses)) ?_
      grind [FS.view]

theorem nameiparent_spec (ready : Ready exc safe s) (within : Within s 0 ∅ t) (p : Fin NPROC)
    (path : List Uchar) :
    wp (nameiparent p path) t (fun found t =>
      match found with
      | none => Within s 0 ∅ t
      | some (b, name) => ∃ j, safe j ∧ Within s {(b, j)} ∅ t ∧
          resolve s p path true = some (j, name)) exc :=
  namex_spec ready.others ready.walk ready.root ready.cwds ready.quiet.settled
    (ready.tree.anchored ready.quiet.settled 0) within p path true

theorem namei_spec (ready : Ready exc safe s) (within : Within s 0 ∅ t) (p : Fin NPROC)
    (path : List Uchar) :
    wp (namei p path) t (fun found t =>
      match found with
      | none => Within s 0 ∅ t
      | some b => ∃ j name, safe j ∧ Within s {(b, j)} ∅ t ∧
          resolve s p path false = some (j, name)) exc := by
  refine wp_call (namex_spec ready.others ready.walk ready.root ready.cwds ready.quiet.settled
    (ready.tree.anchored ready.quiet.settled 0) within p path false) ?_
  rintro (_ | ⟨b, name⟩) t found
  · exact found
  · obtain ⟨j, isSafe, within, resolved⟩ := found
    exact ⟨j, name, isSafe, within, resolved⟩

theorem resolveLoop_parent_dir (fuel : Nat) :
    ∀ (i : Nat) (path : List Uchar), resolveLoop disk true fuel i path = some (d, name) →
      (disk d).type = .T_DIR := by
  induction fuel with
  | zero => intro i path found; cases found
  | succ fuel ih =>
    intro i path found
    rw [resolveLoop] at found
    grind

theorem resolve_parent_dir {p : Fin NPROC} {path : List Uchar}
    (found : resolve s p path true = some (d, name)) : (s.disk d).type = .T_DIR := by
  obtain ⟨i, -, found⟩ := Option.bind_eq_some_iff.mp found
  exact resolveLoop_parent_dir _ i path found

/-! ## New inodes -/

/-- A name that a directory does not have is neither `.` nor `..`. -/
theorem Shape.plain_of_missing {n : Nat} (shape : Shape n disk) (isDir : (disk d).type = .T_DIR)
    (missing : lookupFrom name 0 (disk d).dirents = none) :
    name.take DIRSIZ ≠ cstr "." ∧ name.take DIRSIZ ≠ cstr ".." := by
  have dots := shape.dots d isDir
  obtain ⟨rest, start⟩ := dots.start
  have differs := lookupFrom_none missing
  rw [start] at differs
  constructor
  · exact take_ne_of_namecmp (differs ⟨d, cstr "."⟩ (by simp) dots.self)
  · exact take_ne_of_namecmp (differs ⟨(disk d).parent, cstr ".."⟩ (by simp) dots.up)

section

variable (others : ∀ h, h ≠ .ilockNoType → exc h)

include others

theorem createDots_spec
    (within : Within base held locked t) (mem : (a, i) ∈ held)
    (isLocked : a ∈ locked) (dirMem : (b, d) ∈ held) (anchored : ∀ j, Anchored base held j)
    (empty : (base.disk i).dirents = []) (nonzero : i ≠ 0) (small : i < 2 ^ 16)
    (dirSmall : d < 2 ^ 16) :
    wp (createDots a b) t (fun _ t => Within (base.setDisk i { base.disk i with
      dirents := [⟨i, cstr "."⟩, ⟨d, cstr ".."⟩] }) held locked t) exc := by
  have inum : (t.icache a).inum = i := within.handle _ mem
  have dirInum : (t.icache b).inum = d := within.handle _ dirMem
  simp only [createDots, wp_bind, wp_get, inum, dirInum]
  refine wp_mono (dirlink_spec others within mem isLocked _ _ anchored) ?_
  rintro (_ | _) t ⟨-, outcome⟩
  · exact others _ (by simp)
  obtain ⟨-, within⟩ := outcome
  simp only [if_true, wp_bind]
  refine wp_mono (dirlink_spec others within mem isLocked _ _ ?_) ?_
  · refine Anchored.of_changed anchored ?_
    grind
  · rintro (_ | _) t ⟨-, outcome⟩
    · exact others _ (by simp)
    obtain ⟨-, within⟩ := outcome
    simp only [if_true, wp_pure]
    have first : addEntry [] ⟨i % 2 ^ 16, (cstr ".").take DIRSIZ⟩ = [⟨i, cstr "."⟩] := by
      rw [Nat.mod_eq_of_lt small]
      rfl
    have second : addEntry [⟨i, cstr "."⟩] ⟨d % 2 ^ 16, (cstr "..").take DIRSIZ⟩ =
        [⟨i, cstr "."⟩, ⟨d, cstr ".."⟩] := by
      rw [addEntry_cons_used nonzero, Nat.mod_eq_of_lt dirSmall]
      rfl
    simpa only [FS.setDisk, update_self, update_idem, empty, first, second]
      using within

theorem nameNew_spec {c : Fin NINODE} {j : Nat}
    (within : Within base {(c, j), (b, d)} {c, b} t) (apart : j ≠ d) (small : j < 2 ^ 16)
    (name : Name) (anchored : ∀ x, Anchored base {(c, j), (b, d)} x)
    (stays : (base.disk d).nlink ≠ 0 ∨ Referenced base d) :
    wp (do
      let s ← get
      if ← dirlink b name (s.icache c).inum then do
        iunlockput b
        return c
      else throw .createDirlink) t (fun r t => r = c ∧
        Within (base.setDisk d ((base.disk d).add ⟨j, name.take DIRSIZ⟩)) {(c, j)} {c} t) exc := by
  have new : (c, j) ∈ ({(c, j), (b, d)} : Multiset Handle) := by simp
  have dir : (b, d) ∈ ({(c, j), (b, d)} : Multiset Handle) := by simp
  have inum : (t.icache c).inum = j := within.handle _ new
  have entries : c ≠ b := by
    rintro rfl
    exact apart (inum.symm.trans (within.handle _ dir))
  simp only [wp_bind, wp_get, inum]
  refine wp_mono (dirlink_spec others within dir (by simp) _ _ anchored) ?_
  rintro (_ | _) t ⟨-, outcome⟩
  · exact others _ (by simp)
  obtain ⟨-, within⟩ := outcome
  simp only [if_true, wp_bind]
  rw [Nat.mod_eq_of_lt small] at within
  have swapped : ({(c, j), (b, d)} : Multiset Handle) = (b, d) ::ₘ {(c, j)} :=
    Multiset.cons_swap _ _ _
  rw [swapped] at within
  refine wp_mono (iunlockput_keep within (by simp) ?_) ?_
  · intro _
    rcases stays with links | referenced
    · exact Or.inl (by simpa using links)
    · exact Or.inr (Or.inl referenced)
  · intro _ t within
    rw [Finset.pair_comm, Finset.erase_insert (by simpa using Ne.symm entries)] at within
    exact ⟨rfl, within⟩

theorem createNew_spec (settled : Settled s)
    (tree : Tree s.ninodes s.view) (within : Within s {(b, d)} {b} t) {type : InodeType} (isDir : (s.disk d).type = .T_DIR)
    (missing : lookupFrom name 0 (s.disk d).dirents = none) (typed : type ≠ .free)
    (attached : type = .T_DIR → (s.disk d).nlink ≠ 0) (major minor : Short) :
    wp (createNew b name type major minor) t (fun c t => ∃ j,
      Creating s.ninodes s.disk d j (name.take DIRSIZ) type ∧
        Within { s with disk := createDisk s.disk d j (name.take DIRSIZ) type major minor }
          {(c, j)} {c} t) exc := by
  have shape := tree.shape
  have stays : (s.disk d).nlink ≠ 0 ∨ Referenced s d := by
    rcases tree.anchored settled 0 d (by rw [isDir]; simp) with links | referenced | ⟨b, none⟩
    · exact Or.inl links
    · exact Or.inr referenced
    · exact absurd none (Multiset.notMem_zero _)
  refine wp_call (ialloc_spec others within type ?_) ?_
  · intro j free
    refine ⟨?_, ?_⟩
    · intro referenced
      exact tree.owned.held j (settled.referenced.mp referenced) free
    · intro b' mem
      cases Multiset.mem_singleton.mp mem
      rw [isDir] at free
      cases free
  rintro c t ⟨j, positive, inside, free, within⟩
  have small : j < 2 ^ 16 := lt_of_lt_of_le inside shape.small
  have dirSmall : d < 2 ^ 16 := lt_of_lt_of_le (shape.dir_lt isDir) shape.small
  have creating : Creating s.ninodes s.disk d j (name.take DIRSIZ) type :=
    ⟨isDir, shape.plain_of_missing isDir missing, free, positive, inside, typed, attached⟩
  have apart := creating.apart
  have new : (c, j) ∈ (c, j) ::ₘ ({(b, d)} : Multiset Handle) := Multiset.mem_cons_self _ _
  have dir : (b, d) ∈ (c, j) ::ₘ ({(b, d)} : Multiset Handle) := by simp
  -- Only the two inodes that the call holds change from here on.
  have anchored : ∀ disk : Inodes, (∀ x, x ≠ j → x ≠ d → disk x = s.disk x) →
      ∀ x, Anchored { s with disk := disk } ((c, j) ::ₘ {(b, d)}) x := by
    intro disk same
    refine Anchored.of_changed (tree.anchored settled _) ?_
    intro x changed
    by_cases isNew : x = j
    · exact ⟨c, isNew ▸ new⟩
    · by_cases isDir : x = d
      · exact ⟨b, isDir ▸ dir⟩
      · exact absurd (same x isNew isDir) changed
  refine wp_call (ilock_spec others within new ?_) ?_
  · intro free
    rw [setDisk_self] at free
    exact absurd free typed
  rintro _ t ⟨within, -⟩
  refine wp_call (setAttr_spec within new (by simp) fun _ => rfl) ?_
  intro _ t within
  simp only [FS.setDisk, update_self, update_idem] at within
  split
  · rename_i makesDir
    refine wp_call (setAttr_spec within dir (by simp) fun _ => rfl) ?_
    intro _ t within
    simp only [FS.setDisk, update_of_ne (Ne.symm apart)] at within
    refine wp_call (createDots_spec others within new (by simp) dir (anchored _ ?_) ?_
      (by omega) small dirSmall) ?_
    · intro x notNew notDir
      rw [update_of_ne notDir, update_of_ne notNew]
    · simp only [update_of_ne apart, update_self]
    intro _ t within
    simp only [FS.setDisk, update_of_ne apart, update_self] at within
    rw [update_comm (Ne.symm apart), update_idem] at within
    refine wp_mono (nameNew_spec others within apart small name (anchored _ ?_) ?_) ?_
    · intro x notNew notDir
      rw [update_of_ne notDir, update_of_ne notNew]
    · exact Or.inl (by simp [Attr.link])
    rintro r t ⟨rfl, within⟩
    refine ⟨j, creating, ?_⟩
    simp only [FS.setDisk, update_self, update_idem] at within
    simp only [createDisk, newInode, withNew, if_pos makesDir]
    exact within
  · rename_i notDir
    refine wp_mono (nameNew_spec others within apart small name (anchored _ ?_) ?_) ?_
    · intro x notNew _
      rw [update_of_ne notNew]
    · simp only [update_of_ne (Ne.symm apart)]
      exact stays
    rintro r t ⟨rfl, within⟩
    refine ⟨j, creating, ?_⟩
    simp only [FS.setDisk, update_of_ne (Ne.symm apart)] at within
    simp only [createDisk, newInode, withNew, if_neg notDir]
    exact within

end

theorem create_spec (ready : Ready exc safe s) (within : Within s 0 ∅ t) (p : Fin NPROC)
    (path : List Uchar) {type : InodeType} (typed : type ≠ .free)
    (attached : type = .T_DIR → ∀ d, newName s p path = some d → (s.disk d).nlink ≠ 0)
    (allowed : ∀ d i, newName s p path = some d → may (.create d i type)) (major minor : Short) :
    wp (create p path type major minor) t (fun r t =>
      match r with
      | none => Within s 0 ∅ t
      | some c => ∃ base j, Stage s may base ∧ Within base {(c, j)} {c} t) exc := by
  have others := ready.others
  have settled := ready.quiet.settled
  have anchored := ready.tree.anchored settled
  refine wp_call (nameiparent_spec ready within p path) ?_
  rintro (_ | ⟨b, name⟩) t found
  · exact found
  obtain ⟨d, isSafe, within, resolved⟩ := found
  have isDir := resolve_parent_dir resolved
  have mem : (b, d) ∈ (b, d) ::ₘ (0 : Multiset Handle) := Multiset.mem_cons_self _ _
  refine wp_call (ilock_only others within (ready.walk.typed d isSafe)) ?_
  intro _ t within
  refine wp_call (dirlookup_spec others within mem (Finset.mem_singleton_self b) name) ?_
  rintro (_ | ⟨c, off⟩) t ⟨-, found⟩
  · obtain ⟨within, missing⟩ := found
    have fresh : newName s p path = some d := by simp only [newName, resolved, missing, if_true]
    refine wp_call (createNew_spec others settled ready.tree within isDir missing typed
      (fun makesDir => attached makesDir d fresh) major minor) ?_
    rintro c t ⟨j, creating, within⟩
    exact ⟨_, j, Stage.edit ready (allowed d j fresh) (.create creating), within⟩
  · obtain ⟨j, within, present⟩ := found
    rw [Multiset.cons_swap] at within
    refine wp_call (iunlockput_only within (anchored _ d)) ?_
    intro _ t within
    refine wp_call (ilock_only others within
      (ready.walk.typed j (ready.walk.closed d name off j isSafe isDir present))) ?_
    intro _ t within
    simp only [wp_bind, wp_get]
    split
    · exact ⟨s, j, Stage.start ready, within⟩
    · exact wp_call (iunlockput_only within (anchored 0 j)) fun _ _ within => within

end Xv6Tracing.Fs
