import Xv6Tracing.Fs.Effects

/-!
# The calls one by one

What `Effects` says of a call, for each of them, and for `call` as a whole.
-/

set_option autoImplicit false

namespace Xv6Tracing.Fs

open Function (update update_eq_iff update_idem update_of_ne update_self)

open Lib Process Ftable

variable {exc : Halt → Prop} {safe : Nat → Prop} {may : Event → Prop} {s base t : FS}
  {held : Multiset Handle} {locked : Finset (Fin NINODE)} {c : Fin NINODE} {i j : Nat}
  {files : Files} {u : User}

/-! ## Users come and go -/

variable {disk : Inodes} {d : Nat} {b : Fin NINODE}

theorem Released.congr {used used' : Prop} {disk' : Inodes} (same : used ↔ used')
    (released : Released used disk i disk') : Released used' disk i disk' := by
  rwa [← propext same]

theorem Stage.sameUsers (stage : Stage s may base) (same : users files = users base.files)
    (idle : ∀ f, (files.ftable f).ref = 0 → (files.ftable f).type = .FD_NONE) :
    Stage s may { base with files := files } := by
  obtain ⟨settled, view⟩ := stage.settled.sameUsers same idle
  refine ⟨settled, stage.ninodes, ?_⟩
  rw [view]
  exact stage.change

theorem leave_spec {after : FS} (within : Within base 0 ∅ t) (settled : Settled after)
    (cache : after.icache = (base.dropRef c).icache) (inUse : 0 < (base.icache c).ref)
    (valid : (base.disk (base.icache c).inum).nlink = 0 → (base.icache c).valid = true) :
    wp (iput c) t (fun _ t => ∃ disk, Released (after.view.Held (base.icache c).inum) base.disk
      (base.icache c).inum disk ∧ Within { base.dropRef c with disk := disk } 0 ∅ t) exc := by
  refine wp_mono (iput_released (within.dropRef inUse) (by simp) ?_) ?_
  · exact fun noLinks => within.keptValid c inUse (valid noLinks)
  · rintro _ t ⟨disk, released, within⟩
    refine ⟨disk, released.congr ?_, within⟩
    rw [← settled.referenced]
    simp only [Referenced, cache, Multiset.notMem_zero, exists_false, or_false]

variable {n off : Nat} {f : Fin NFILE}

theorem Settled.valid_of_noLinks (settled : Settled base) (tree : Tree n base.view)
    (inUse : 0 < (base.icache c).ref) (noLinks : (base.disk (base.icache c).inum).nlink = 0) :
    (base.icache c).valid = true := by
  refine settled.valid c inUse ?_
  intro isRoot
  rw [isRoot] at noLinks
  exact tree.linked.root.2 noLinks

theorem Stage.leave (stage : Stage s may base) (was : users base.files u = some c)
    (now : users files = update (users base.files) u none)
    (idle : ∀ f, (files.ftable f).ref = 0 → (files.ftable f).type = .FD_NONE)
    (released : Released ({ base.dropRef c with files := files : FS }.view.Held
      (base.icache c).inum) base.disk (base.icache c).inum disk) :
    Stage s may { base.dropRef c with files := files, disk := disk } := by
  obtain ⟨settled, view⟩ := stage.settled.leave was now idle
  rw [view] at released
  refine ⟨⟨settled.refs, settled.valid, settled.idle⟩, stage.ninodes, stage.change.hold ?_⟩
  refine Hold.leave (u := u) (i := (base.icache c).inum) ?_ ⟨disk, released, ?_⟩
  · simp only [FS.view, was, Option.map_some]
  · rw [← view]
    rfl

theorem Stage.enter (stage : Stage s may base)
    (within : Within base {(c, j)} ∅ t) (valid : (t.icache c).valid = true)
    (typed : (base.disk j).type ≠ .free) (was : users base.files (.inr f) = none)
    (now : users files = update (users base.files) (.inr f) (some c))
    (idle : ∀ f, (files.ftable f).ref = 0 → (files.ftable f).type = .FD_NONE) :
    Stage s may { base.addRef c (t.icache c) with files := files } := by
  have inum : (t.icache c).inum = j := within.handle (c, j) (by simp)
  obtain ⟨settled, view⟩ := stage.settled.enter was now (within.kept c) valid idle
  refine ⟨settled, stage.ninodes, ?_⟩
  rw [view, inum]
  refine stage.change.hold (Hold.open_ ?_ typed)
  simp only [FS.view, was, Option.map_none]

/-! ## Open files -/

theorem fileclose_spec (ready : Ready exc safe s) (stage : Stage s may base)
    (within : Within base 0 ∅ t) (p : Fin NPROC) (f : Fin NFILE) :
    wp (fileclose p f) t (fun _ t => ∃ base, Stage s may base ∧ Within base 0 ∅ t) exc := by
  have idle := stage.settled.idle
  simp only [fileclose, wp_bind, wp_get, within.files]
  cases run : Ftable.fileclose base.files (some p) f with
  | none => exact ready.others _ (by simp)
  | some files =>
    obtain ⟨procs, ftable⟩ := fileclose_keeps run
    have nowIdle := fileclose_idle idle run
    simp only [setFiles, wp_bind, wp_modify]
    have sameProcs : users files = users (base.files.setFile f
        (if (base.files.ftable f).ref = 1 then
          { base.files.ftable f with ref := 0, type := .FD_NONE }
          else { base.files.ftable f with ref := (base.files.ftable f).ref - 1 })) :=
      users_congr (fun p => by rw [procs]; rfl) ftable
    rw [users_setFile] at sameProcs
    split
    · rename_i last
      obtain ⟨one, isInode⟩ := last
      have now : users files = update (users base.files) (.inr f) none := by
        simpa [one] using sameProcs
      cases ip : (base.files.ftable f).ip with
      | none => exact ready.others _ (by simp)
      | some c =>
        have was : users base.files (.inr f) = some c := by simp [users, isInode, ip]
        refine wp_call (begin_op_spec (within.withFiles files)) ?_
        intro _ t within
        have inUse := stage.settled.used was
        refine wp_call (leave_spec within (stage.settled.leave was now nowIdle).1 rfl inUse
          (stage.settled.valid_of_noLinks (stage.tree ready) inUse)) ?_
        rintro _ t ⟨disk, released, within⟩
        refine wp_mono (end_op_spec within) ?_
        intro _ t within
        exact ⟨_, stage.leave was now nowIdle released, within⟩
    · rename_i notLast
      refine ⟨_, stage.sameUsers ?_ nowIdle, within.withFiles files⟩
      rw [sameProcs]
      refine update_eq_iff.mpr ⟨?_, fun _ _ => rfl⟩
      by_cases one : (base.files.ftable f).ref = 1
      · have other : (base.files.ftable f).type ≠ .FD_INODE := fun same => notLast ⟨one, same⟩
        simp [one, users, other]
      · simp [one, users]

theorem fileclose_new (others : ∀ h, h ≠ .ilockNoType → exc h)
    (within : Within base held locked t) (p : Fin NPROC)
    (untyped : (base.files.ftable f).type = .FD_NONE) :
    wp (fileclose p f) t (fun _ t => ∃ files,
      Ftable.fileclose base.files (some p) f = some files ∧
        Within { base with files := files } held locked t) exc := by
  simp only [fileclose, wp_bind, wp_get, within.files]
  cases run : Ftable.fileclose base.files (some p) f with
  | none => exact others _ (by simp)
  | some files =>
    simp only [setFiles, wp_bind, wp_modify]
    rw [if_neg (by simp [untyped])]
    exact ⟨files, rfl, within.withFiles files⟩

theorem openFile_spec (ready : Ready exc safe s) (stage : Stage s may base)
    (within : Within base held locked t) (p : Fin NPROC) :
    wp (openFile p) t (fun r t => ∃ files, Stage s may { base with files := files } ∧
      Within { base with files := files } held locked t ∧
        match r with
        | none => True
        | some (f, _) => users files (.inr f) = none ∧ (files.ftable f).ref = 1) exc := by
  have idle := stage.settled.idle
  simp only [openFile, wp_bind, wp_get, within.files]
  cases alloc : filealloc base.files with
  | none => exact ⟨base.files, stage, within, trivial⟩
  | some r =>
    obtain ⟨f, files⟩ := r
    obtain ⟨unused, rfl⟩ := filealloc_spec alloc
    have untyped := idle f unused
    have noUse : users base.files (.inr f) = none := by simp [users, untyped]
    have same : users (base.files.setFile f { base.files.ftable f with ref := 1 }) =
        users base.files := by
      rw [users_setFile]
      refine update_eq_iff.mpr ⟨?_, fun _ _ => rfl⟩
      simp [untyped, noUse]
    have newIdle := idle_setFile (f := f) idle { base.files.ftable f with ref := 1 } (by simp)
    simp only
    cases desc : fdalloc (base.files.setFile f { base.files.ftable f with ref := 1 }) p f with
    | none =>
      simp only [setFiles, wp_bind, wp_modify]
      refine wp_mono (fileclose_new ready.others (within.withFiles _) p ?_) ?_
      · simpa using untyped
      · rintro _ t ⟨files, closed, within⟩
        obtain ⟨procs, ftable⟩ := fileclose_keeps closed
        refine ⟨files, stage.sameUsers ?_ (fileclose_idle newIdle closed), within, trivial⟩
        rw [users_congr (fun p => by rw [procs]; rfl) ftable, users_setFile, same]
        refine update_eq_iff.mpr ⟨?_, fun _ _ => rfl⟩
        simp [noUse]
    | some r =>
      obtain ⟨fd, files⟩ := r
      obtain ⟨-, rfl⟩ := fdalloc_spec desc
      simp only [setFiles, wp_bind, wp_modify, wp_pure]
      have sameUsers := (users_setOfile (p := p) fd (some f)).trans same
      refine ⟨_, stage.sameUsers sameUsers newIdle, within.withFiles _, ?_, ?_⟩
      · rw [sameUsers, noUse]
      · simp

/-! ## open, mkdir and mknod -/

section

variable (ready : Ready exc safe s)

include ready

theorem openInode_spec (within : Within s 0 ∅ t) (p : Fin NPROC)
    (path : List Uchar) (omode : CInt)
    (allowed : omode &&& O_CREATE ≠ 0 → ∀ d i, newName s p path = some d →
      may (.create d i .T_FILE)) :
    wp (openInode p path omode) t (fun r t =>
      match r with
      | none => Within s 0 ∅ t
      | some c => ∃ base j, Stage s may base ∧ Within base {(c, j)} {c} t) exc := by
  simp only [openInode]
  split
  · rename_i creates
    exact create_spec ready within p path (by simp) (by simp) (allowed creates) 0 0
  · refine wp_call (namei_spec ready within p path) ?_
    rintro (_ | c) t found
    · exact found
    obtain ⟨j, name, isSafe, within, -⟩ := found
    refine wp_call (ilock_only ready.others within (ready.walk.typed j isSafe)) ?_
    intro _ t within
    simp only [wp_bind, wp_get]
    split
    · exact wp_call (iunlockput_only within (ready.tree.anchored ready.quiet.settled 0 j))
        fun _ _ within => within
    · exact ⟨s, j, Stage.start ready, within⟩

theorem sys_open_spec (p : Fin NPROC) (path : Option (List Uchar))
    (omode : CInt) :
    wp (sys_open p path omode) s (fun _ t => Done s (May s (.open_ p path omode)) t) exc := by
  cases path with
  | none => exact (Stage.start ready).done ready.quiet.within
  | some path =>
    refine wp_call (begin_op_spec ready.quiet.within) ?_
    intro _ t within
    have allowed : omode &&& O_CREATE ≠ 0 → ∀ d i, newName s p path = some d →
        May s (.open_ p (some path) omode) (.create d i .T_FILE) := by
      intro creates d i fresh
      exact ⟨by rw [adds, if_pos creates, fresh], by simp⟩
    refine wp_call (openInode_spec ready within p path omode allowed) ?_
    rintro (_ | c) t opened
    · refine wp_call (end_op_spec opened) ?_
      intro _ t within
      exact (Stage.start ready).done within
    obtain ⟨base, j, stage, within⟩ := opened
    have typed := (within.copy (a := c) (i := j) (by simp) (by simp)).2
    refine wp_call (openFile_spec ready stage within p) ?_
    rintro (_ | ⟨f, fd⟩) t ⟨files, stage, within, outcome⟩
    · refine wp_call (iunlockput_only within
        ((stage.tree ready).anchored stage.settled 0 j)) ?_
      intro _ t within
      refine wp_call (end_op_spec within) ?_
      intro _ t within
      exact stage.done within
    · obtain ⟨noUse, one⟩ := outcome
      refine wp_call (iunlock_only within) ?_
      rintro _ t ⟨within, valid⟩
      have ended : Within { base with files := files } {(c, j)} ∅
          { t with outstanding := t.outstanding - 1 } := within.withOutstanding _
      simp only [end_op, wp_bind, wp_modify, wp_get, setFiles, wp_pure, within.files]
      have now : users (files.setFile f (openedFile c omode (files.ftable f))) =
          update (users files) (.inr f) (some c) := users_setFile _
      have idle := idle_setFile (f := f) stage.settled.idle (openedFile c omode (files.ftable f))
        (fun zero => absurd (one.symm.trans zero) (by simp))
      exact (stage.enter ended valid typed noUse now idle).done
        ((ended.addRef (by simp)).withFiles _)

theorem sysCreate_spec (p : Fin NPROC) (path : Option (List Uchar))
    {type : InodeType} (typed : type ≠ .free)
    (attached : type = .T_DIR → ∀ text d, path = some text → newName s p text = some d →
      (s.disk d).nlink ≠ 0)
    (allowed : ∀ text d i, path = some text → newName s p text = some d →
      may (.create d i type)) (major minor : Short) :
    wp (sysCreate p path type major minor) s (fun _ t => Done s may t) exc := by
  refine wp_call (begin_op_spec ready.quiet.within) ?_
  intro _ t within
  cases path with
  | none =>
    refine wp_call (end_op_spec within) ?_
    intro _ t within
    exact (Stage.start ready).done within
  | some path =>
    refine wp_call (create_spec ready within p path typed
      (fun makesDir d => attached makesDir path d rfl) (fun d i => allowed path d i rfl)
      major minor) ?_
    rintro (_ | c) t created
    · refine wp_call (end_op_spec created) ?_
      intro _ t within
      exact (Stage.start ready).done within
    obtain ⟨base, j, stage, within⟩ := created
    refine wp_call (iunlockput_only within ((stage.tree ready).anchored stage.settled 0 j)) ?_
    intro _ t within
    refine wp_call (end_op_spec within) ?_
    intro _ t within
    exact stage.done within

theorem sys_mkdir_spec (p : Fin NPROC) (path : Option (List Uchar))
    (attached : ∀ d, adds s (.mkdir p path) = some d → (s.disk d).nlink ≠ 0) :
    wp (sys_mkdir p path) s (fun _ t => Done s (May s (.mkdir p path)) t) exc := by
  refine sysCreate_spec ready p path (by simp) ?_ ?_ 0 0
  · rintro - text d rfl fresh
    exact attached d fresh
  · rintro text d i rfl fresh
    exact ⟨fresh, fun _ => ⟨p, some text, rfl⟩⟩

theorem sys_mknod_spec (p : Fin NPROC) (path : Option (List Uchar))
    (major minor : CInt) :
    wp (sys_mknod p path major minor) s (fun _ t => Done s (May s (.mknod p path major minor)) t)
      exc := by
  refine sysCreate_spec ready p path (by simp) (by simp) ?_ _ _
  rintro text d i rfl fresh
  exact ⟨fresh, by simp⟩

end

/-! ## link -/

section Attributes

variable {disk disk' : Inodes} (types : ∀ x, (disk' x).type = (disk x).type)
  (entries : ∀ x, (disk' x).dirents = (disk x).dirents)
include types entries

theorem SafeWalk.of_same (walk : SafeWalk disk exc safe) : SafeWalk disk' exc safe where
  typed := by
    intro j isSafe free
    rw [types] at free
    exact walk.typed j isSafe free
  closed := by grind [SafeWalk]

theorem resolveLoop_of_same (parent : Bool) (fuel : Nat) : ∀ (i : Nat) (path : List Uchar),
    resolveLoop disk' parent fuel i path = resolveLoop disk parent fuel i path := by
  induction fuel with
  | zero => intro i path; rfl
  | succ fuel ih =>
    intro i path
    simp only [resolveLoop, types, entries, ih]

theorem resolve_of_same (p : Fin NPROC) (path : List Uchar) (parent : Bool) :
    resolve { s with disk := disk' } p path parent = resolve { s with disk := disk } p path parent := by
  simp only [resolve, resolveLoop_of_same types entries]
  rfl

end Attributes

theorem linkName_spec (ready : Ready exc safe s) (p : Fin NPROC) (new : List Uchar)
    (typed : (s.disk j).type ≠ .free) (notDir : (s.disk j).type ≠ .T_DIR)
    (within : Within (s.setDisk j { s.disk j with toAttr := (s.disk j).toAttr.link }) {(c, j)} ∅ t) :
    wp (linkName p c new) t (fun linked t =>
      if linked then ∃ d name, newName s p new = some d ∧ Linking s.disk d j name ∧
        Within { s with disk := linkDisk s.disk d j name } {(c, j)} ∅ t
      else Within (s.setDisk j { s.disk j with toAttr := (s.disk j).toAttr.link }) {(c, j)} ∅ t)
      exc := by
  have settled := ready.quiet.settled
  have shape := ready.tree.shape
  have others := ready.others
  have types : ∀ x, ((s.setDisk j { s.disk j with toAttr := (s.disk j).toAttr.link }).disk x).type =
      (s.disk x).type := by
    intro x
    by_cases here : x = j
    · rw [here, setDisk_self]
      rfl
    · rw [setDisk_of_ne s _ here]
  have entries : ∀ x, ((s.setDisk j
      { s.disk j with toAttr := (s.disk j).toAttr.link }).disk x).dirents = (s.disk x).dirents := by
    intro x
    by_cases here : x = j
    · rw [here, setDisk_self]
    · rw [setDisk_of_ne s _ here]
  have walk := ready.walk.of_same types entries
  have anchored : ∀ held : Multiset Handle, (c, j) ∈ held → ∀ x, Anchored
      (s.setDisk j { s.disk j with toAttr := (s.disk j).toAttr.link }) held x := by
    intro held mem
    refine Anchored.of_changed (ready.tree.anchored settled held) ?_
    intro x changed
    by_cases here : x = j
    · exact ⟨c, here ▸ mem⟩
    · exact absurd (update_of_ne here _ _) changed
  refine wp_call (namex_spec others walk ready.root ready.cwds
    ⟨settled.refs, settled.valid, settled.idle⟩ (anchored _ (by simp)) within p new true) ?_
  rintro (_ | ⟨b, name⟩) t found
  · exact found
  obtain ⟨d, isSafe, within, resolved⟩ := found
  have isDir := resolve_parent_dir resolved
  refine wp_call (ilock_only others within (walk.typed d isSafe)) ?_
  intro _ t within
  have inum : (t.icache c).inum = j := within.handle (c, j) (by simp)
  simp only [wp_bind, wp_get, inum]
  refine wp_mono (dirlink_spec others within (Multiset.mem_cons_self _ _)
    (Finset.mem_singleton_self b) name j (anchored _ (by simp))) ?_
  rw [types] at isDir
  have apart : d ≠ j := by
    rintro rfl
    exact notDir isDir
  rintro (_ | _) t ⟨-, outcome⟩
  · exact wp_mono (iunlockput_only outcome (anchored _ (by simp) d)) fun _ _ within => within
  · obtain ⟨missing, within⟩ := outcome
    rw [entries] at missing
    have resolvedFirst : resolve s p new true = some (d, name) := by
      rw [← resolved]
      exact (resolve_of_same types entries p new true).symm
    refine wp_mono (iunlockput_only within ?_) ?_
    · intro _
      rcases ready.tree.anchored settled 0 d (by rw [isDir]; simp) with links | referenced | ⟨b, none⟩
      · exact Or.inl (by simpa [FS.setDisk, apart] using links)
      · exact Or.inr (Or.inl referenced)
      · exact absurd none (Multiset.notMem_zero _)
    · intro _ t within
      refine ⟨d, name.take DIRSIZ, ?_, ⟨isDir, shape.plain_of_missing isDir missing, typed, notDir⟩,
        ?_⟩
      · simp only [newName, resolvedFirst, missing, if_true]
      · rw [Nat.mod_eq_of_lt (lt_of_lt_of_le (shape.range j typed).2 shape.small)] at within
        simp only [FS.setDisk, update_of_ne apart] at within
        exact within

theorem sys_link_spec (ready : Ready exc safe s) (p : Fin NPROC) (old new : Option (List Uchar)) :
    wp (sys_link p old new) s (fun _ t => Done s (May s (.link p old new)) t) exc := by
  have start : Stage s (May s (.link p old new)) s := Stage.start ready
  have settled := ready.quiet.settled
  cases old with
  | none => exact start.done ready.quiet.within
  | some old =>
    cases new with
    | none => exact start.done ready.quiet.within
    | some new =>
      refine wp_call (begin_op_spec ready.quiet.within) ?_
      intro _ t within
      refine wp_call (namei_spec ready within p old) ?_
      rintro (_ | c) t found
      · refine wp_call (end_op_spec found) ?_
        intro _ t within
        exact start.done within
      obtain ⟨j, name, isSafe, within, resolved⟩ := found
      have mem : (c, j) ∈ ({(c, j)} : Multiset Handle) := by simp
      refine wp_call (ilock_only ready.others within (ready.walk.typed j isSafe)) ?_
      intro _ t within
      have typed := (within.copy mem (Finset.mem_singleton_self c)).2
      simp only [wp_bind, wp_get, within.type mem (Finset.mem_singleton_self c)]
      split
      · refine wp_call (iunlockput_only within (ready.tree.anchored settled 0 j)) ?_
        intro _ t within
        refine wp_call (end_op_spec within) ?_
        intro _ t within
        exact start.done within
      rename_i notDir
      refine wp_call (setAttr_spec within mem (Finset.mem_singleton_self c) fun _ => rfl) ?_
      intro _ t within
      refine wp_call (iunlock_only within) ?_
      rintro _ t ⟨within, -⟩
      refine wp_call (linkName_spec ready p new typed notDir within) ?_
      rintro (_ | _) t outcome
      · -- No name was added: the link count goes back to what it was.
        simp only [Bool.false_eq_true, if_false] at outcome ⊢
        refine wp_call (ilock_only ready.others outcome ?_) ?_
        · intro free
          rw [setDisk_self] at free
          exact absurd free typed
        intro _ t within
        refine wp_call (setAttr_spec within mem (Finset.mem_singleton_self c) fun _ => rfl) ?_
        intro _ t within
        have back : (s.setDisk j { s.disk j with toAttr := (s.disk j).toAttr.link }).setDisk j
            { (s.setDisk j { s.disk j with toAttr := (s.disk j).toAttr.link }).disk j with
              toAttr := ((s.setDisk j { s.disk j with toAttr := (s.disk j).toAttr.link }).disk
                j).toAttr.unlink } = s := by
          simp [FS.setDisk, Attr.link, Attr.unlink]
        rw [back] at within
        refine wp_call (iunlockput_only within (ready.tree.anchored settled 0 j)) ?_
        intro _ t within
        refine wp_call (end_op_spec within) ?_
        intro _ t within
        exact start.done within
      · simp only [if_true] at outcome ⊢
        obtain ⟨d, name, fresh, linking, within⟩ := outcome
        refine wp_call (iput_keep within (by simp) ?_) ?_
        · intro _
          grind [linking.nlink_eq]
        intro _ t within
        refine wp_call (end_op_spec within) ?_
        intro _ t within
        refine (Stage.edit ready ?_ (.link linking)).done within
        simp only [May, adds, resolved, if_neg notDir, fresh]

/-! ## unlink -/

theorem Shape.unlinking (shape : Shape n disk) {name : Name}
    (isDir : (disk d).type = .T_DIR) (notDot : namecmp name (cstr ".") ≠ 0)
    (notDotdot : namecmp name (cstr "..") ≠ 0)
    (found : lookupFrom name 0 (disk d).dirents = some (off, i)) (apart : i ≠ d)
    (empty : (disk i).type = .T_DIR → isdirempty (disk i).dirents = true) :
    off < (disk d).dirents.length ∧ ∃ k, off = k + 2 ∧ Unlinking disk d i k := by
  obtain ⟨nonzero, place, de, rfl, at_, inum, same⟩ := lookupFrom_some found
  rw [Nat.zero_add]
  have inside : place < (disk d).dirents.length := by
    by_contra outside
    rw [List.getElem?_eq_none (by omega)] at at_
    cases at_
  refine ⟨inside, ?_⟩
  obtain ⟨rest, start⟩ := (shape.dots d isDir).start
  match place with
  | 0 =>
    rw [start, List.getElem?_cons_zero, Option.some.injEq] at at_
    rw [← at_] at same
    exact absurd same notDot
  | 1 => grind
  | k + 2 =>
    refine ⟨k, rfl, isDir, ⟨de, ?_, inum⟩, nonzero, apart, ?_⟩
    · rw [Dinode.entries, List.getElem?_drop, Nat.add_comm]
      exact at_
    · intro kind y nonzero
      have all := List.all_eq_true.mp (empty kind)
      refine List.countP_eq_zero.mpr ?_
      intro de member
      have unused := of_decide_eq_true (all de member)
      simp only [decide_eq_true_eq]
      omega

/-- `sys_unlink` once the entry is cleared and the directory's link count is
right: the inode loses a link, and goes if that was the last of everything. -/
theorem unlinkInode_spec (ready : Ready exc safe s) {k : Nat}
    (unlinking : Unlinking s.disk d i k) (allowed : may (.unlink d i)) (apart : c ≠ b)
    (within : Within (s.setDisk d (without (s.disk d) (s.disk i) (k + 2))) {(c, i), (b, d)} {c, b} t) :
    wp (do
      iunlockput b
      setAttr c Attr.unlink
      iunlockput c
      end_op
      return (0 : CInt)) t (fun _ t => Done s may t) exc := by
  have settled := ready.quiet.settled
  have numbers := unlinking.apart
  have swapped : ({(c, i), (b, d)} : Multiset Handle) = (b, d) ::ₘ {(c, i)} :=
    Multiset.cons_swap _ _ _
  rw [swapped] at within
  refine wp_call (iunlockput_keep within (by simp) ?_) ?_
  · intro _
    by_cases kind : (s.disk i).type = .T_DIR
    · have two := unlinking.dir_two ready.tree.shape ready.tree.linked kind
      left
      simp only [setDisk_self, without, Dinode.clear, if_pos kind]
      show (s.disk d).nlink - 1 ≠ 0
      have two : 2 ≤ (s.disk d).nlink := two
      omega
    · rcases ready.tree.anchored settled 0 d (by rw [unlinking.isDir]; simp) with
        links | referenced | ⟨b, none⟩
      · exact Or.inl (by simpa [without, Dinode.clear, kind] using links)
      · exact Or.inr (Or.inl referenced)
      · exact absurd none (Multiset.notMem_zero _)
  intro _ t within
  rw [Finset.pair_comm, Finset.erase_insert (by simpa using Ne.symm apart)] at within
  refine wp_call (setAttr_spec within (Multiset.mem_singleton_self _)
    (Finset.mem_singleton_self c) fun _ => rfl) ?_
  intro _ t within
  simp only [FS.setDisk, update_of_ne numbers] at within
  refine wp_call (wp_call (iunlock_only within) fun _ t unlocked =>
    iput_released unlocked.1 (by simp) fun _ => unlocked.2) ?_
  rintro _ t ⟨disk, released, within⟩
  refine wp_call (end_op_spec within) ?_
  intro _ t within
  refine (Stage.edit ready allowed (.unlink unlinking ⟨disk, released.congr ?_, rfl⟩)).done within
  have referenced : Referenced s i ↔ s.view.Held i := settled.referenced
  simp only [Multiset.notMem_zero, exists_false, or_false]
  exact referenced

theorem unlinkEntry_spec (ready : Ready exc safe s)
    (within : Within s {(c, i), (b, d)} {c, b} t) (apart : c ≠ b)
    (entry : ((s.disk i).type = .T_DIR → isdirempty (s.disk i).dirents = true) →
      off < (s.disk d).dirents.length ∧ ∃ k, off = k + 2 ∧ Unlinking s.disk d i k)
    (allowed : ((s.disk i).type = .T_DIR → isdirempty (s.disk i).dirents = true) →
      may (.unlink d i)) :
    wp (unlinkEntry b c off) t (fun _ t => Done s may t) exc := by
  have settled := ready.quiet.settled
  have file : (c, i) ∈ ({(c, i), (b, d)} : Multiset Handle) := by simp
  have dir : (b, d) ∈ ({(c, i), (b, d)} : Multiset Handle) := by simp
  have fileLocked : c ∈ ({c, b} : Finset (Fin NINODE)) := by simp
  simp only [unlinkEntry, wp_bind, wp_get, within.type file fileLocked, within.dirents file]
  split
  · exact ready.others _ (by simp)
  split
  · refine wp_call (iunlockput_keep within fileLocked (ready.tree.anchored settled _ i)) ?_
    intro _ t within
    rw [Finset.erase_insert (by simpa using apart)] at within
    refine wp_call (iunlockput_only within (ready.tree.anchored settled _ d)) ?_
    intro _ t within
    refine wp_call (end_op_spec within) ?_
    intro _ t within
    exact (Stage.start ready).done within
  rename_i notFull
  have empty : (s.disk i).type = .T_DIR → isdirempty (s.disk i).dirents = true := by
    intro kind
    by_contra full
    exact notFull ⟨kind, by simpa using full⟩
  obtain ⟨inside, k, place, unlinking⟩ := entry empty
  refine wp_call (writeDirent_spec within dir _ _) ?_
  intro _ t within
  rw [if_pos inside, place] at within
  split
  · rename_i kind
    refine wp_call (setAttr_spec within dir (by simp) fun _ => rfl) ?_
    intro _ t within
    refine unlinkInode_spec ready unlinking (allowed empty) apart ?_
    simp only [FS.setDisk, update_self, update_idem] at within
    simp only [FS.setDisk, without, Dinode.clear, if_pos kind]
    exact within
  · rename_i kind
    refine unlinkInode_spec ready unlinking (allowed empty) apart ?_
    simp only [FS.setDisk, without, Dinode.clear, if_neg kind]
    exact within

theorem sys_unlink_spec (ready : Ready exc safe s) (p : Fin NPROC) (path : Option (List Uchar)) :
    wp (sys_unlink p path) s (fun _ t => Done s (May s (.unlink p path)) t) exc := by
  have start : Stage s (May s (.unlink p path)) s := Stage.start ready
  have settled := ready.quiet.settled
  cases path with
  | none => exact start.done ready.quiet.within
  | some path =>
    -- The three ways to give up with only the directory locked.
    have giveUp : ∀ (b : Fin NINODE) (d : Nat) (t : FS), Within s {(b, d)} {b} t →
        wp (do
          iunlockput b
          end_op
          return (-1 : CInt)) t (fun _ t => Done s (May s (.unlink p (some path))) t) exc := by
      intro b d t within
      refine wp_call (iunlockput_only within (ready.tree.anchored settled _ d)) ?_
      intro _ t within
      refine wp_call (end_op_spec within) ?_
      intro _ t within
      exact start.done within
    refine wp_call (begin_op_spec ready.quiet.within) ?_
    intro _ t within
    refine wp_call (nameiparent_spec ready within p path) ?_
    rintro (_ | ⟨b, name⟩) t found
    · refine wp_call (end_op_spec found) ?_
      intro _ t within
      exact start.done within
    obtain ⟨d, isSafe, within, resolved⟩ := found
    have isDir := resolve_parent_dir resolved
    refine wp_call (ilock_only ready.others within (ready.walk.typed d isSafe)) ?_
    intro _ t within
    split
    · exact giveUp b d t within
    rename_i notDots
    rw [not_or] at notDots
    refine wp_call (dirlookup_spec ready.others within (Multiset.mem_singleton_self _)
      (Finset.mem_singleton_self b) name) ?_
    rintro (_ | ⟨c, off⟩) t ⟨-, found⟩
    · exact giveUp b d t found.1
    obtain ⟨i, within, present⟩ := found
    refine wp_call (ilock_spec ready.others within (Multiset.mem_cons_self _ _)
      (ready.walk.typed i (ready.walk.closed d name off i isSafe isDir present))) ?_
    rintro _ t ⟨within, unlocked⟩
    have apart : c ≠ b := by simpa using unlocked
    have numbers : i ≠ d := by
      rintro rfl
      exact apart (within.same_entry (i := i) (by simp) (by simp))
    refine unlinkEntry_spec ready within apart (fun empty =>
      ready.tree.shape.unlinking isDir notDots.1 notDots.2 present numbers empty) ?_
    intro empty kind
    have gone : (s.disk i).type = .T_DIR ∧ isdirempty (s.disk i).dirents = true :=
      ⟨kind, empty kind⟩
    simp only [removes, resolved, present, if_neg (not_or.mpr notDots), if_pos gone]

/-! ## chdir, close and exit -/

theorem Settled.chdir (settled : Settled s) {p : Fin NPROC} {slot : Inode}
    (was : users s.files (.inl p) = some c)
    (same : 0 < (s.icache b).ref → slot.inum = (s.icache b).inum) (valid : slot.valid = true) :
    Settled { (s.dropRef c).addRef b slot with files := withCwd s.files p (some b) } ∧
      { (s.dropRef c).addRef b slot with files := withCwd s.files p (some b) : FS }.view =
        s.view.setUse (.inl p) (some slot.inum) := by
  obtain ⟨left, leftView⟩ := settled.leave was (users_withCwd (p := p) none) settled.idle
  have noUse : users (withCwd s.files p none) (.inl p) = none := by
    rw [users_withCwd, update_self]
  have now : users (withCwd s.files p (some b)) =
      update (users (withCwd s.files p none)) (.inl p) (some b) := by
    rw [users_withCwd, users_withCwd, update_idem]
  have kept : 0 < ((s.dropRef c).icache b).ref → slot.inum = ((s.dropRef c).icache b).inum := by
    intro inUse
    rw [dropRef_inum]
    exact same (dropRef_used inUse)
  obtain ⟨entered, view⟩ := left.enter noUse now kept valid settled.idle
  refine ⟨entered, ?_⟩
  rw [leftView, View.setUse_setUse] at view
  exact view

section

variable (ready : Ready exc safe s)

include ready

theorem sys_chdir_spec (p : Fin NPROC) (path : Option (List Uchar)) :
    wp (sys_chdir p path) s (fun _ t => Done s (May s (.chdir p path)) t) exc := by
  have start : Stage s (May s (.chdir p path)) s := Stage.start ready
  have settled := ready.quiet.settled
  refine wp_call (begin_op_spec ready.quiet.within) ?_
  intro _ t within
  cases path with
  | none =>
    refine wp_call (end_op_spec within) ?_
    intro _ t within
    exact start.done within
  | some path =>
    refine wp_call (namei_spec ready within p path) ?_
    rintro (_ | b) t found
    · refine wp_call (end_op_spec found) ?_
      intro _ t within
      exact start.done within
    obtain ⟨j, name, isSafe, within, resolved⟩ := found
    have mem : (b, j) ∈ ({(b, j)} : Multiset Handle) := by simp
    refine wp_call (ilock_only ready.others within (ready.walk.typed j isSafe)) ?_
    intro _ t within
    simp only [wp_bind, wp_get, within.type mem (Finset.mem_singleton_self b)]
    split
    · refine wp_call (iunlockput_only within (ready.tree.anchored settled _ j)) ?_
      intro _ t within
      refine wp_call (end_op_spec within) ?_
      intro _ t within
      exact start.done within
    rename_i isDir
    rw [not_not] at isDir
    refine wp_call (iunlock_only within) ?_
    rintro _ found ⟨within, valid⟩
    have inum : (found.icache b).inum = j := within.handle _ mem
    simp only [putCwd, wp_bind, wp_get, within.files]
    cases was : (s.files.kernel.proc p).cwd with
    | none => exact ready.others _ (by simp)
    | some c =>
      have was : users s.files (.inl p) = some c := was
      have inUse := settled.used was
      obtain ⟨moved, view⟩ := settled.chdir was (within.kept b) valid
      rw [inum] at view
      -- The new reference counts before the old one goes, as the call holds it.
      have taken := within.addRef (by simp)
      obtain ⟨stillUsed, sameInum, stillValid⟩ := addRef_entry s inUse (within.kept b) valid
      refine wp_mono (leave_spec taken moved (by rw [addRef_dropRef s _ inUse]) stillUsed ?_) ?_
      · intro noLinks
        rw [sameInum] at noLinks
        exact stillValid (settled.valid_of_noLinks ready.tree inUse noLinks)
      rintro _ t ⟨disk, released, within⟩
      rw [addRef_dropRef s _ inUse] at within
      rw [sameInum, view] at released
      refine wp_mono (end_op_spec within) ?_
      intro _ t within
      simp only [setCwd, wp_modify, wp_pure, within.files]
      have allowed : May s (.chdir p (some path)) (.chdir p j) := ⟨path, name, rfl, resolved⟩
      have stage : Stage s (May s (.chdir p (some path))) { (s.dropRef c).addRef b
          (found.icache b) with files := withCwd s.files p (some b), disk := disk } := by
        refine ⟨⟨moved.refs, moved.valid, moved.idle⟩, rfl, .edit allowed ?_⟩
        refine Edit.chdir (i := (s.icache c).inum) ?_ isDir ⟨disk, released, ?_⟩
        · simp only [FS.view, was, Option.map_some]
        · rw [← view]
          rfl
      exact stage.done (within.withFiles _)

theorem sys_close_spec (p : Fin NPROC) (fd : CInt) :
    wp (sys_close p fd) s (fun _ t => Done s may t) exc := by
  have start : Stage s may s := Stage.start ready
  simp only [sys_close, wp_bind, wp_get]
  cases openFd s p fd with
  | none => exact start.done ready.quiet.within
  | some r =>
    obtain ⟨fd, f⟩ := r
    simp only [setFiles, wp_bind, wp_modify]
    refine wp_mono (fileclose_spec ready (start.sameUsers (users_setOfile fd none)
      ready.quiet.settled.idle) (ready.quiet.within.withFiles _) p f) ?_
    rintro _ t ⟨base, stage, within⟩
    exact stage.done within

theorem closeAll_spec (p : Fin NPROC) (fds : List (Fin NOFILE)) :
    ∀ (base t : FS), Stage s may base → Within base 0 ∅ t →
      wp (closeAll p fds) t (fun _ t => ∃ base, Stage s may base ∧ Within base 0 ∅ t) exc := by
  induction fds with
  | nil => intro base t stage within; exact ⟨base, stage, within⟩
  | cons fd rest ih =>
    intro base t stage within
    simp only [closeAll, wp_bind, wp_get]
    cases (t.files.kernel.proc p).ofile fd with
    | none => exact ih base t stage within
    | some f =>
      refine wp_call (fileclose_spec ready stage within p f) ?_
      rintro _ t ⟨base, stage, within⟩
      simp only [wp_bind, wp_modify, within.files]
      exact ih _ _ (stage.sameUsers (users_setOfile fd none) stage.settled.idle)
        (within.withFiles _)

theorem exit_spec (p : Fin NPROC) :
    wp (exit p) s (fun _ t => Done s may t) exc := by
  have start : Stage s may s := Stage.start ready
  simp only [exit, wp_bind, wp_get]
  split
  · exact ready.others _ (by simp)
  simp only [setFiles, wp_bind, wp_modify]
  refine wp_mono (closeAll_spec ready p (List.finRange NOFILE) _ _ (start.sameUsers ?_ ?_)
    (ready.quiet.within.withFiles _)) ?_
  · exact users_congr (fun _ => rfl) rfl
  · exact ready.quiet.settled.idle
  rintro _ t ⟨base, stage, within⟩
  refine wp_mono (begin_op_spec within) ?_
  intro _ t within
  have settled := stage.settled
  simp only [putCwd, wp_bind, wp_get, within.files]
  cases was : (base.files.kernel.proc p).cwd with
  | none => exact ready.others _ (by simp)
  | some c =>
    have was : users base.files (.inl p) = some c := was
    have inUse := settled.used was
    have now : users (withCwd base.files p none) =
        update (users base.files) (.inl p) none := users_withCwd none
    refine wp_mono (leave_spec within (settled.leave was now settled.idle).1 rfl inUse
      (settled.valid_of_noLinks (stage.tree ready) inUse)) ?_
    rintro _ t ⟨disk, released, within⟩
    refine wp_mono (end_op_spec within) ?_
    intro _ t within
    simp only [setCwd, wp_modify, within.files]
    have left := stage.leave was now settled.idle released
    have gone : users (exited (withCwd base.files p none) p) =
        users (withCwd base.files p none) := users_exited
    exact (left.sameUsers gone settled.idle).done ((within.withFiles _).withFiles _)

/-- Every call makes one of the changes its arguments stand for, if no new
directory is to be made in a removed one. -/
theorem call_spec (op : FsOp)
    (attached : ∀ p path d, op = .mkdir p path → adds s op = some d → (s.disk d).nlink ≠ 0) :
    wp (call op) s (fun _ t => Done s (May s op) t) exc := by
  cases op with
  | open_ p path omode => exact wp_discard.mpr (sys_open_spec ready p path omode)
  | mkdir p path =>
    exact wp_discard.mpr (sys_mkdir_spec ready p path fun d => attached p path d rfl)
  | mknod p path major minor => exact wp_discard.mpr (sys_mknod_spec ready p path major minor)
  | link p old new => exact wp_discard.mpr (sys_link_spec ready p old new)
  | unlink p path => exact wp_discard.mpr (sys_unlink_spec ready p path)
  | chdir p path => exact wp_discard.mpr (sys_chdir_spec ready p path)
  | close p fd => exact wp_discard.mpr (sys_close_spec ready p fd)
  | exit p => exact exit_spec ready p

end

end Xv6Tracing.Fs
