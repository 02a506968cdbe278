import Xv6Tracing.Fs.Holders

/-!
# References of the inode cache

Between calls the reference count of a cache entry is the number of processes
and open files that refer to it, and nothing is locked.  Here is how that
accounting moves when a user takes or gives up an entry, and the view of the
users that it stands for.
-/

set_option autoImplicit false

namespace Xv6Tracing.Fs

open Function (update update_comm update_idem update_of_ne update_self)

open Lib Process Ftable

def users (files : Files) : User → Option (Fin NINODE)
  | .inl p => (files.kernel.proc p).cwd
  | .inr f => if (files.ftable f).type = .FD_INODE then (files.ftable f).ip else none

def FS.view (s : FS) : View where
  disk := s.disk
  uses u := (users s.files u).map fun a => (s.icache a).inum

/-- The references are those of the users; what they refer to has been read,
but for the root directory that the first process starts in. -/
structure Settled (s : FS) : Prop where
  refs : ∀ a, (s.icache a).ref = countP (fun use => use = some a) (users s.files)
  valid : ∀ a, 0 < (s.icache a).ref → (s.icache a).inum ≠ ROOTINO → (s.icache a).valid = true
  idle : ∀ f, (s.files.ftable f).ref = 0 → (s.files.ftable f).type = .FD_NONE

structure Quiet (s : FS) : Prop where
  settled : Settled s
  unlocked : ∀ a, (s.icache a).locked = false
  cache : CacheOk s

section View

variable {s t : FS} {i : Nat}

theorem Settled.used (settled : Settled s) {u : User} {a : Fin NINODE}
    (uses : users s.files u = some a) : 0 < (s.icache a).ref := by
  rw [settled.refs]
  exact countP_pos (p := u) uses

theorem referenced_iff {icache : Fin NINODE → Inode} {uses : User → Option (Fin NINODE)}
    (refs : ∀ a, (icache a).ref = countP (fun use => use = some a) uses) :
    (∃ a, 0 < (icache a).ref ∧ (icache a).inum = i) ↔
      ∃ u, (uses u).map (fun a => (icache a).inum) = some i := by
  constructor
  · rintro ⟨a, inUse, inum⟩
    rw [refs] at inUse
    obtain ⟨u, use⟩ := exists_of_countP_pos inUse
    exact ⟨u, by rw [use, Option.map_some, inum]⟩
  · rintro ⟨u, use⟩
    obtain ⟨a, refers, inum⟩ := Option.map_eq_some_iff.mp use
    refine ⟨a, ?_, inum⟩
    rw [refs]
    exact countP_pos (p := u) refers

theorem Settled.referenced (settled : Settled s) : Referenced s i ↔ s.view.Held i :=
  referenced_iff settled.refs

theorem Quiet.within (quiet : Quiet s) : Within s 0 ∅ s where
  files := rfl
  ninodes := rfl
  disk := rfl
  ref a := by rw [refsTo_zero, Nat.add_zero]
  kept _ _ := rfl
  keptValid _ _ valid := valid
  handle := by simp
  lock a := by simp [quiet.unlocked a]
  lockValid := by simp
  lockHeld := by simp
  cache := quiet.cache

/-- A call that has put everything back leaves the state it was working on. -/
theorem Settled.finish (settled : Settled s) (within : Within s 0 ∅ t) :
    Quiet t ∧ t.view = s.view := by
  have sameRef : ∀ a, (t.icache a).ref = (s.icache a).ref := by
    intro a
    rw [within.ref, refsTo_zero, Nat.add_zero]
  refine ⟨⟨⟨?_, ?_, ?_⟩, ?_, within.cache⟩, ?_⟩
  · intro a
    rw [sameRef, within.files]
    exact settled.refs a
  · grind [Settled, Within]
  · rw [within.files]
    exact settled.idle
  · intro a
    have lock := within.lock a
    simpa using lock
  · simp only [FS.view, within.disk, within.files, View.mk.injEq, true_and]
    funext u
    cases uses : users s.files u with
    | none => rfl
    | some a => rw [Option.map_some, Option.map_some, within.kept a (settled.used uses)]

end View

/-! ## References that outlive the call -/

def FS.dropRef (s : FS) (a : Fin NINODE) : FS :=
  s.setInode a { s.icache a with ref := (s.icache a).ref - 1 }

/-- One more reference to the entry, which is `slot` now. -/
def FS.addRef (s : FS) (a : Fin NINODE) (slot : Inode) : FS :=
  s.setInode a { slot with ref := (s.icache a).ref + 1 }

theorem dropRef_inum (s : FS) (a b : Fin NINODE) :
    ((s.dropRef a).icache b).inum = (s.icache b).inum := by
  refine setInode_forall (fun b slot => slot.inum = (s.icache b).inum) ?_ ?_ b
  · rfl
  · exact fun _ _ => rfl

variable {a : Fin NINODE}

theorem dropRef_used {s : FS} {b : Fin NINODE} (inUse : 0 < ((s.dropRef a).icache b).ref) :
    0 < (s.icache b).ref := by
  refine setInode_forall (fun b slot => 0 < slot.ref → 0 < (s.icache b).ref) ?_
    (fun _ _ inUse => inUse) b inUse
  exact fun positive => lt_of_lt_of_le positive (Nat.sub_le _ _)

theorem addRef_entry (s : FS) {c : Fin NINODE} {slot : Inode} (inUse : 0 < (s.icache c).ref)
    (same : 0 < (s.icache a).ref → slot.inum = (s.icache a).inum) (valid : slot.valid = true) :
    0 < ((s.addRef a slot).icache c).ref ∧
      ((s.addRef a slot).icache c).inum = (s.icache c).inum ∧
      ((s.icache c).valid = true → ((s.addRef a slot).icache c).valid = true) := by
  refine setInode_forall (fun b old => 0 < (s.icache b).ref → 0 < old.ref ∧
    old.inum = (s.icache b).inum ∧ ((s.icache b).valid = true → old.valid = true)) ?_ ?_ c inUse
  · exact fun inUse => ⟨Nat.succ_pos _, same inUse, fun _ => valid⟩
  · exact fun b _ inUse => ⟨inUse, rfl, id⟩

section Move

variable {base s : FS} {held : Multiset Handle} {locked : Finset (Fin NINODE)}
  {a : Fin NINODE} {i : Nat}

section

variable (within : Within base held locked s)

include within

theorem Within.withFiles (files : Files) :
    Within { base with files := files } held locked { s with files := files } :=
  ⟨rfl, within.ninodes, within.disk, within.ref, within.kept, within.keptValid,
    within.handle, within.lock, within.lockValid, within.lockHeld, within.cache.1, within.cache.2⟩

theorem Within.withOutstanding (n : Nat) :
    Within base held locked { s with outstanding := n } :=
  ⟨within.files, within.ninodes, within.disk, within.ref, within.kept, within.keptValid,
    within.handle, within.lock, within.lockValid, within.lockHeld, within.cache.1, within.cache.2⟩

theorem Within.dropRef (inUse : 0 < (base.icache a).ref) :
    Within (base.dropRef a) ((a, (base.icache a).inum) ::ₘ held) locked s where
  files := within.files
  ninodes := within.ninodes
  disk := within.disk
  ref := by
    refine setInode_forall (fun b slot => (s.icache b).ref = slot.ref +
      refsTo ((a, (base.icache a).inum) ::ₘ held) b) ?_ ?_
    · rw [refsTo_cons_self, within.ref]
      simp only
      omega
    · intro b other
      rw [refsTo_cons_of_ne held _ other, within.ref]
  kept := by
    refine setInode_forall (fun b slot => 0 < slot.ref → (s.icache b).inum = slot.inum) ?_
      fun b _ => within.kept b
    exact fun _ => within.kept a inUse
  keptValid := by
    refine setInode_forall (fun b slot => 0 < slot.ref → slot.valid = true →
      (s.icache b).valid = true) ?_ fun b _ => within.keptValid b
    exact fun _ => within.keptValid a inUse
  handle := by grind [Within]
  lock := within.lock
  lockValid := within.lockValid
  lockHeld := by
    intro b isLocked
    obtain ⟨j, old⟩ := within.lockHeld b isLocked
    exact ⟨j, Multiset.mem_cons_of_mem old⟩
  cache := within.cache

end

theorem Within.addRef (within : Within base ((a, i) ::ₘ held) locked s)
    (still : a ∈ locked → ∃ j, (a, j) ∈ held) :
    Within (base.addRef a (s.icache a)) held locked s where
  files := within.files
  ninodes := within.ninodes
  disk := within.disk
  ref := by
    refine setInode_forall (fun b slot => (s.icache b).ref = slot.ref + refsTo held b) ?_ ?_
    · rw [within.ref, refsTo_cons_self]
      simp only
      omega
    · intro b other
      rw [within.ref, refsTo_cons_of_ne held i other]
  kept := setInode_forall (fun b slot => 0 < slot.ref → (s.icache b).inum = slot.inum)
    (fun _ => rfl) fun b _ => within.kept b
  keptValid := setInode_forall (fun b slot => 0 < slot.ref → slot.valid = true →
    (s.icache b).valid = true) (fun _ valid => valid) fun b _ => within.keptValid b
  handle h member := within.handle h (Multiset.mem_cons_of_mem member)
  lock := within.lock
  lockValid := within.lockValid
  lockHeld := by
    intro b isLocked
    grind [Within]
  cache := within.cache

end Move

/-! ## The accounting moves -/

/-- Giving up one reference and taking another can be done in either order. -/
theorem addRef_dropRef (s : FS) {c : Fin NINODE} (slot : Inode) (inUse : 0 < (s.icache c).ref) :
    (s.addRef a slot).dropRef c = (s.dropRef c).addRef a slot := by
  by_cases same : c = a
  · subst same
    have balance : (s.icache c).ref + 1 - 1 = (s.icache c).ref - 1 + 1 := by omega
    simp only [FS.addRef, FS.dropRef, FS.setInode, update_self, update_idem,
      balance]
  · simp only [FS.addRef, FS.dropRef, setInode_of_ne _ _ same, setInode_of_ne _ _ (Ne.symm same)]
    simp only [FS.setInode, update_comm same]

section Settled

variable {s : FS} {files : Files} {u : User} {a : Fin NINODE}

theorem Settled.sameUsers (settled : Settled s) (same : users files = users s.files)
    (idle : ∀ f, (files.ftable f).ref = 0 → (files.ftable f).type = .FD_NONE) :
    Settled { s with files := files } ∧ { s with files := files : FS }.view = s.view := by
  refine ⟨⟨?_, settled.valid, idle⟩, ?_⟩
  · rw [same]
    exact settled.refs
  · simp only [FS.view, same]

theorem Settled.refs_leave (settled : Settled s) (was : users s.files u = some a)
    (b : Fin NINODE) : ((s.dropRef a).icache b).ref =
      countP (fun use => use = some b) (update (users s.files) u none) := by
  refine setInode_forall (fun b slot => slot.ref =
    countP (fun use => use = some b) (update (users s.files) u none)) ?_ ?_ b
  · have less : countP (fun use => use = some a) (update (users s.files) u none) + 1 =
        countP (fun use => use = some a) (users s.files) := countP_update_leave was (by simp)
    rw [settled.refs, ← less, Nat.add_sub_cancel]
  · intro b other
    rw [settled.refs, countP_update_same]
    rw [was]
    simp [Ne.symm other]

theorem Settled.leave (settled : Settled s) (was : users s.files u = some a)
    (now : users files = update (users s.files) u none)
    (idle : ∀ f, (files.ftable f).ref = 0 → (files.ftable f).type = .FD_NONE) :
    Settled { s.dropRef a with files := files } ∧
      { s.dropRef a with files := files : FS }.view = s.view.setUse u none := by
  refine ⟨⟨?_, ?_, idle⟩, ?_⟩
  · rw [now]
    exact settled.refs_leave was
  · refine setInode_forall (fun b slot => 0 < slot.ref → slot.inum ≠ ROOTINO →
      slot.valid = true) ?_ fun b _ => settled.valid b
    intro positive
    exact settled.valid a (settled.used was)
  · simp only [FS.view, View.setUse, now, dropRef_inum, View.mk.injEq]
    refine ⟨rfl, ?_⟩
    grind

theorem Settled.enter (settled : Settled s) {slot : Inode} (was : users s.files u = none)
    (now : users files = update (users s.files) u (some a))
    (same : 0 < (s.icache a).ref → slot.inum = (s.icache a).inum) (valid : slot.valid = true)
    (idle : ∀ f, (files.ftable f).ref = 0 → (files.ftable f).type = .FD_NONE) :
    Settled { s.addRef a slot with files := files } ∧
      { s.addRef a slot with files := files : FS }.view = s.view.setUse u (some slot.inum) := by
  refine ⟨⟨?_, ?_, idle⟩, ?_⟩
  · rw [now]
    refine setInode_forall (fun b slot => slot.ref =
      countP (fun use => use = some b) (update (users s.files) u (some a))) ?_ ?_
    · have more : countP (fun use => use = some a) (update (users s.files) u (some a)) =
          countP (fun use => use = some a) (users s.files) + 1 :=
        countP_update_enter (by rw [was]; simp) rfl
      rw [more, ← settled.refs]
    · intro b other
      rw [settled.refs, countP_update_same]
      rw [was]
      simp [Ne.symm other]
  · exact setInode_forall (fun b slot => 0 < slot.ref → slot.inum ≠ ROOTINO →
      slot.valid = true) (fun _ _ => valid) fun b _ => settled.valid b
  · simp only [FS.view, View.setUse, now, View.mk.injEq]
    refine ⟨rfl, ?_⟩
    funext other
    by_cases here : other = u
    · rw [here, update_self, update_self, Option.map_some, FS.addRef,
        setInode_self]
    · rw [update_of_ne here, update_of_ne here]
      cases uses : users s.files other with
      | none => rfl
      | some b =>
        rw [Option.map_some, Option.map_some, Option.some.injEq]
        refine setInode_forall (fun b slot => 0 < (s.icache b).ref →
          slot.inum = (s.icache b).inum) ?_ (fun _ _ _ => rfl) b (settled.used uses)
        exact same

end Settled

/-! ## Files -/

section Files

variable {files files' : Files} {p : Fin NPROC} {f : Fin NFILE}

theorem users_congr (cwds : ∀ p, (files'.kernel.proc p).cwd = (files.kernel.proc p).cwd)
    (ftable : files'.ftable = files.ftable) : users files' = users files := by
  funext u
  rcases u with p | f
  · exact cwds p
  · simp only [users, ftable]

theorem users_setFile (file : File) : users (files.setFile f file) =
    update (users files) (.inr f) (if file.type = .FD_INODE then file.ip else none) := by
  funext u
  rcases u with p | g
  · rw [update_of_ne (by simp)]
    rfl
  · by_cases same : g = f
    · subst same
      simp [users]
    · rw [update_of_ne (by simpa using same)]
      simp only [users, setFile_of_ne files file same]

theorem cwd_setProc (k : Kernel) (p q : Fin NPROC) (proc : Proc) :
    ((k.setProc p proc).proc q).cwd = if q = p then proc.cwd else (k.proc q).cwd := by
  by_cases same : q = p
  · simp [Kernel.setProc, same]
  · simp [Kernel.setProc, same]

theorem users_setOfile (fd : Fin NOFILE) (o : Option (Fin NFILE)) :
    users (files.setOfile p fd o) = users files := by
  refine users_congr ?_ rfl
  intro q
  simp only [Files.setOfile, cwd_setProc]
  split
  · rename_i same
    rw [same]
  · rfl

def withCwd (files : Files) (p : Fin NPROC) (cwd : Option (Fin NINODE)) : Files :=
  { files with kernel := files.kernel.setProc p { files.kernel.proc p with cwd := cwd } }

theorem users_withCwd (cwd : Option (Fin NINODE)) :
    users (withCwd files p cwd) = update (users files) (.inl p) cwd := by
  funext u
  rcases u with q | f
  · simp only [users, withCwd, cwd_setProc]
    by_cases same : q = p
    · rw [if_pos same, same, update_self]
    · rw [if_neg same, update_of_ne (by simpa using same)]
      rfl
  · rw [update_of_ne (by simp)]
    rfl

/-- What `exit` does to the process table after the current directory is gone. -/
def exited (files : Files) (p : Fin NPROC) : Files :=
  let k := reparent files.kernel p
  { files with kernel := k.setProc p { k.proc p with state := .ZOMBIE } }

theorem users_exited : users (exited files p) = users files := by
  have parents : ∀ q, ((reparent files.kernel p).proc q).cwd = (files.kernel.proc q).cwd := by
    intro q
    simp only [reparent]
    split <;> rfl
  refine users_congr ?_ rfl
  intro q
  simp only [exited, cwd_setProc, parents]
  split
  · rename_i same
    rw [same]
  · rfl

variable {ctx : Ctx}

theorem kfree_proc {k k' : Kernel} {v : AddrT} (run : kfree k ctx v = some k') :
    k'.proc = k.proc := by
  simp only [kfree] at run
  split at run
  · cases run
  · split at run <;> cases run <;> rfl

theorem pipeclose_keeps {page : AddrT} {writable : Bool}
    (run : pipeclose files ctx page writable = some files') :
    files'.kernel.proc = files.kernel.proc ∧ files'.ftable = files.ftable := by
  simp only [pipeclose] at run
  generalize (if writable = true then _ else _ : Pipe) = closed at run
  split at run
  · obtain ⟨k, freed, rfl⟩ := Option.map_eq_some_iff.mp run
    exact ⟨kfree_proc freed, rfl⟩
  · cases run
    exact ⟨rfl, rfl⟩

theorem fileclose_keeps (run : Ftable.fileclose files ctx f = some files') :
    files'.kernel.proc = files.kernel.proc ∧ files'.ftable = (files.setFile f
      (if (files.ftable f).ref = 1 then { files.ftable f with ref := 0, type := .FD_NONE }
        else { files.ftable f with ref := (files.ftable f).ref - 1 })).ftable := by
  simp only [Ftable.fileclose] at run
  split at run
  · cases run
  split at run
  · rw [if_neg (by omega)]
    cases run
    exact ⟨rfl, rfl⟩
  · rw [if_pos (by omega)]
    split at run
    · obtain ⟨procs, ftable⟩ := pipeclose_keeps run
      exact ⟨procs, ftable⟩
    · cases run
      exact ⟨rfl, rfl⟩
    · cases run
      exact ⟨rfl, rfl⟩

theorem fileclose_ref (run : Ftable.fileclose files ctx f = some files') :
    (files.ftable f).ref ≠ 0 := by
  intro zero
  simp [Ftable.fileclose, zero] at run

variable (idle : ∀ f, (files.ftable f).ref = 0 → (files.ftable f).type = .FD_NONE)
include idle

theorem idle_setFile (file : File) (here : file.ref = 0 → file.type = .FD_NONE) (g : Fin NFILE) :
    ((files.setFile f file).ftable g).ref = 0 →
      ((files.setFile f file).ftable g).type = .FD_NONE := by
  by_cases same : g = f
  · rw [same, setFile_self]
    exact here
  · rw [setFile_of_ne files file same]
    exact idle g

theorem fileclose_idle (run : Ftable.fileclose files ctx f = some files')
    (g : Fin NFILE) : (files'.ftable g).ref = 0 → (files'.ftable g).type = .FD_NONE := by
  have positive := fileclose_ref run
  rw [(fileclose_keeps run).2]
  refine idle_setFile idle _ ?_ g
  split
  · exact fun _ => rfl
  · intro zero
    simp only at zero
    omega

end Files

end Xv6Tracing.Fs
