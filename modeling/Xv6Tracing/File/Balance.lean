import Xv6Tracing.File.Accounting

/-!
# Every file structure is referenced by its descriptors

Between calls the reference count of a file structure is the number of descriptors
that point to it, over all processes.  No call panics for want of a reference, and the
page of a pipe is given back by the call that closes its second end.
-/

set_option autoImplicit false

namespace Xv6Tracing.Ftable

open Function (update update_comm update_eq_self update_idem update_of_ne update_self)

open Process Lib

def fdsTo (ofile : Fin NOFILE → Option (Fin NFILE)) (f : Fin NFILE) : Nat :=
  countP (fun o => o = some f) ofile

@[irreducible] def slots (s : Files) (f : Fin NFILE) : Nat := ∑ p, fdsTo (s.kernel.proc p).ofile f

structure Balanced (s : Files) : Prop where
  accounted : Accounted (slots s) s
  vacant : ∀ p, (s.kernel.proc p).state = .UNUSED → (s.kernel.proc p).ofile = fun _ => none

def Refused (s : Files) : FileOp → Prop
  | .pipe _ _ => s.freelist = []
  | .fork _ pages _ => s.freelist.length ≤ pages
  | .exit p => s.kernel.initproc = some p
  | _ => False

def Freed (s t : Files) : Prop := ∀ v, Live s v → Live t v ∨ v ∈ t.freelist

section

variable {n : Fin NFILE → Nat} {s t : Files} {p : Fin NPROC} {f : Fin NFILE}

/-! ## Counting descriptors -/

theorem fdsTo_none (f : Fin NFILE) : fdsTo (fun _ => none) f = 0 := by
  simp [fdsTo, countP]

theorem slots_congr (same : ∀ p, (t.kernel.proc p).ofile = (s.kernel.proc p).ofile) :
    slots t = slots s := by
  funext f
  simp only [slots, same]

variable {fd : Fin NOFILE} {k : Kernel}

theorem slots_pos (here : (s.kernel.proc p).ofile fd = some f) :
    0 < slots s f := by
  have positive : 0 < countP (fun o => o = some f) (s.kernel.proc p).ofile := countP_pos here
  rw [slots]
  exact lt_of_lt_of_le positive (Finset.single_le_sum
    (f := fun q => fdsTo (s.kernel.proc q).ofile f) (fun _ _ => Nat.zero_le _) (Finset.mem_univ p))

theorem setOfile_proc (s : Files) (p q : Fin NPROC) (fd : Fin NOFILE) (o : Option (Fin NFILE)) :
    ((s.setOfile p fd o).kernel.proc q).ofile =
      if q = p then update (s.kernel.proc p).ofile fd o else (s.kernel.proc q).ofile := by
  by_cases here : q = p
  · subst here
    simp [Files.setOfile, Kernel.setProc]
  · simp [Files.setOfile, Kernel.setProc, here]

theorem slots_differ (others : ∀ q, q ≠ p → (t.kernel.proc q).ofile = (s.kernel.proc q).ofile)
    (f : Fin NFILE) :
    slots t f + fdsTo (s.kernel.proc p).ofile f = slots s f + fdsTo (t.kernel.proc p).ofile f := by
  have terms : ∀ q, q ≠ p → (fun q => fdsTo (t.kernel.proc q).ofile f) q =
      (fun q => fdsTo (s.kernel.proc q).ofile f) q := by
    intro q other
    simp only [others q other]
  rw [slots, slots]
  exact sum_differ_at p terms

theorem slots_add (free : (s.kernel.proc p).ofile fd = none) :
    slots (s.setOfile p fd (some f)) = update (slots s) f (slots s f + 1) := by
  funext g
  have differ := slots_differ (s := s) (t := s.setOfile p fd (some f)) (p := p)
    (fun q other => by rw [setOfile_proc, if_neg other]) g
  rw [setOfile_proc, if_pos rfl] at differ
  have after : id (some f) = some f := rfl
  have added : countP (fun o => id o = some g)
      (update (s.kernel.proc p).ofile fd (some f)) =
      countP (fun o => id o = some g) (s.kernel.proc p).ofile + if g = f then 1 else 0 :=
    references_add rfl free after g
  change fdsTo _ g = fdsTo _ g + _ at added
  by_cases here : g = f
  · subst here
    rw [update_self]
    rw [if_pos rfl] at added
    omega
  · rw [update_of_ne here]
    rw [if_neg here] at added
    omega

theorem slots_drop (used : (s.kernel.proc p).ofile fd = some f) :
    slots (s.setOfile p fd none) = update (slots s) f (slots s f - 1) := by
  funext g
  have differ := slots_differ (s := s) (t := s.setOfile p fd none) (p := p)
    (fun q other => by rw [setOfile_proc, if_neg other]) g
  rw [setOfile_proc, if_pos rfl] at differ
  have dropped : countP (fun o => id o = some g)
      (update (s.kernel.proc p).ofile fd none) + (if g = f then 1 else 0) =
      countP (fun o => id o = some g) (s.kernel.proc p).ofile :=
    references_drop rfl used rfl g
  change fdsTo _ g + _ = fdsTo _ g at dropped
  by_cases here : g = f
  · subst here
    rw [update_self]
    rw [if_pos rfl] at dropped
    omega
  · rw [update_of_ne here]
    rw [if_neg here] at dropped
    omega

/-! ## Descriptors -/

theorem Accounted.withKernel (accounted : Accounted n s)
    (kend : k.kend = s.kernel.kend) (free : k.kmem.freelist = s.freelist) :
    Accounted n { s with kernel := k } :=
  accounted.shrink kend (free ▸ List.Sublist.refl _)

theorem Accounted.setOfile (accounted : Accounted n s) (p : Fin NPROC) (fd : Fin NOFILE)
    (o : Option (Fin NFILE)) : Accounted n (s.setOfile p fd o) :=
  accounted.withKernel rfl rfl

theorem setOfile_state (s : Files) (p q : Fin NPROC) (fd : Fin NOFILE) (o : Option (Fin NFILE)) :
    ((s.setOfile p fd o).kernel.proc q).state = (s.kernel.proc q).state := by
  by_cases here : q = p
  · subst here
    simp [Files.setOfile, Kernel.setProc]
  · simp [Files.setOfile, Kernel.setProc, here]

/-- A call that leaves the states of the processes, and the descriptors of all but the
caller, as they were. -/
structure OwnFds (p : Fin NPROC) (s t : Files) : Prop where
  state : ∀ q, (t.kernel.proc q).state = (s.kernel.proc q).state
  ofile : ∀ q, q ≠ p → (t.kernel.proc q).ofile = (s.kernel.proc q).ofile

theorem OwnFds.of_procs (same : t.kernel.proc = s.kernel.proc) : OwnFds p s t :=
  ⟨fun q => by rw [same], fun q _ => by rw [same]⟩

theorem OwnFds.setOfile (s : Files) (p : Fin NPROC) (fd : Fin NOFILE) (o : Option (Fin NFILE)) :
    OwnFds p s (s.setOfile p fd o) :=
  ⟨fun q => setOfile_state s p q fd o, fun q other => by rw [setOfile_proc, if_neg other]⟩

variable {u : Files} {rf wf : Fin NFILE}

theorem OwnFds.trans (first : OwnFds p s t) (second : OwnFds p t u) : OwnFds p s u :=
  ⟨fun q => (second.state q).trans (first.state q),
    fun q other => (second.ofile q other).trans (first.ofile q other)⟩

theorem Balanced.next (balanced : Balanced s) (up : (s.kernel.proc p).state ≠ .UNUSED)
    (own : OwnFds p s t) (accounted : Accounted (slots t) t) : Balanced t where
  accounted := accounted
  vacant := by
    intro q unused
    rw [own.state] at unused
    have other : q ≠ p := by
      rintro rfl
      exact up unused
    rw [own.ofile q other]
    exact balanced.vacant q unused

/-! ## open, dup, close -/

theorem openFd_spec {fd : CInt} {d : Fin NOFILE} (found : openFd s p fd = some (d, f)) :
    (s.kernel.proc p).ofile d = some f := by
  unfold openFd at found
  split at found
  · obtain ⟨g, here, same⟩ := Option.map_eq_some_iff.mp found
    cases same
    exact here
  · cases found

theorem sys_open_balanced (balanced : Balanced s) (up : (s.kernel.proc p).state ≠ .UNUSED)
    (found : Option (Fin NINODE)) (omode : CInt) :
    ∃ t, sys_open s p found omode = some t ∧ Balanced t ∧ Freed s t := by
  unfold sys_open
  cases found with
  | none => exact ⟨s, rfl, balanced, fun _ live => Or.inl live⟩
  | some ip =>
    simp only
    cases first : filealloc s with
    | none => exact ⟨s, rfl, balanced, fun _ live => Or.inl live⟩
    | some r =>
      obtain ⟨f, s₁⟩ := r
      obtain ⟨unused, accounted, type⟩ := balanced.accounted.filealloc first
      obtain ⟨zero, made⟩ := filealloc_spec first
      have opening : Opening s s₁ := by
        rw [made]
        exact .of_setFile s f _ (balanced.accounted.idle f zero)
      have ref : (s₁.ftable f).ref = 1 := by rw [accounted.refs f, update_self]
      have plain : (s₁.ftable f).type ≠ .FD_PIPE := by rw [type]; simp
      simp only
      cases second : fdalloc s₁ p f with
      | none =>
        -- the file structure is given back as it was
        obtain ⟨closed, after⟩ :=
          accounted.closePlain (update_self f 1 (slots s)) (some p) plain
        rw [update_idem, ← unused, update_eq_self] at after
        refine ⟨_, closed, balanced.next up (.of_procs opening.procs) ?_, ?_⟩
        · have same : slots (s₁.setFile f (s₁.ftable f).closed) = slots s :=
            slots_congr fun q => by rw [setFile_kernel, opening.procs]
          rw [same]
          exact after
        · intro v live
          exact Or.inl ((Opening.of_setFile s₁ f _ type).live v (opening.live v live))
      | some r =>
        obtain ⟨fd, s₂⟩ := r
        obtain ⟨free, rfl⟩ := fdalloc_spec second
        have inode : (Fs.openedFile ip omode (s₁.ftable f)).type ≠ .FD_PIPE := by
          simp [Fs.openedFile]
        have after := (accounted.setOfile p fd (some f)).setFile (f := f)
          (Or.inr ⟨inode, plain⟩) (Or.inr inode) (by
            intro impossible
            change (s₁.ftable f).ref = 0 at impossible
            omega)
        refine ⟨_, rfl, balanced.next up ?_ ?_, ?_⟩
        · exact (OwnFds.of_procs opening.procs).trans
            ((OwnFds.setOfile s₁ p fd (some f)).trans (.of_procs rfl))
        · rw [opening.procs] at free
          have counted := slots_add (s := s) (f := f) free
          have ref' : (Fs.openedFile ip omode (s₁.ftable f)).ref = 1 := ref
          rw [ref', update_idem] at after
          rw [unused, Nat.zero_add] at counted
          rw [← counted] at after
          have same : slots ((s₁.setOfile p fd (some f)).setFile f
              (Fs.openedFile ip omode (s₁.ftable f))) = slots (s.setOfile p fd (some f)) := by
            apply slots_congr
            intro q
            rw [setFile_kernel, setOfile_proc, setOfile_proc, opening.procs]
          rw [setOfile_ftable, same]
          exact after
        · intro v live
          exact Or.inl ((Opening.of_setFile (s₁.setOfile p fd (some f)) f _ type).live v
            (opening.live v live))

theorem sys_dup_balanced (balanced : Balanced s) (up : (s.kernel.proc p).state ≠ .UNUSED)
    (fd : CInt) : ∃ t, sys_dup s p fd = some t ∧ Balanced t ∧ Freed s t := by
  unfold sys_dup
  cases found : openFd s p fd with
  | none => exact ⟨s, rfl, balanced, fun _ live => Or.inl live⟩
  | some r =>
    obtain ⟨d, f⟩ := r
    have used := openFd_spec found
    simp only
    cases second : fdalloc s p f with
    | none => exact ⟨s, rfl, balanced, fun _ live => Or.inl live⟩
    | some r =>
      obtain ⟨fd', s₁⟩ := r
      obtain ⟨free, rfl⟩ := fdalloc_spec second
      have accounted := balanced.accounted.setOfile p fd' (some f)
      obtain ⟨t, duped, after, made⟩ := accounted.filedup (slots_pos used)
      refine ⟨t, duped, balanced.next up ?_ ?_, ?_⟩
      · rw [made]
        exact (OwnFds.setOfile s p fd' (some f)).trans (.of_procs rfl)
      · have same : slots t = slots (s.setOfile p fd' (some f)) := by
          rw [made]
          exact slots_congr fun q => rfl
        rw [same, slots_add free]
        exact after
      · rintro v ⟨g, type, pipe⟩
        refine Or.inl ⟨g, ?_⟩
        rw [made]
        by_cases here : g = f
        · subst here
          rw [setFile_self]
          exact ⟨type, pipe⟩
        · rw [setFile_of_ne _ _ here]
          exact ⟨type, pipe⟩

theorem sys_close_balanced (balanced : Balanced s) (up : (s.kernel.proc p).state ≠ .UNUSED)
    (fd : CInt) : ∃ t, sys_close s p fd = some t ∧ Balanced t ∧ Freed s t := by
  unfold sys_close
  cases found : openFd s p fd with
  | none => exact ⟨s, rfl, balanced, fun _ live => Or.inl live⟩
  | some r =>
    obtain ⟨d, f⟩ := r
    have used := openFd_spec found
    have accounted := balanced.accounted.setOfile p d none
    obtain ⟨t, closed, after, closing⟩ := accounted.fileclose (slots_pos used) (some p)
    refine ⟨t, closed, balanced.next up ?_ ?_, closing.freed⟩
    · exact (OwnFds.setOfile s p d none).trans (.of_procs closing.procs)
    · have same : slots t = slots (s.setOfile p d none) :=
        slots_congr fun q => by rw [closing.procs]
      rw [same, slots_drop used]
      exact after

/-! ## pipe -/

theorem Closing.trans (first : Closing s t) (second : Closing t u) : Closing s u where
  freed := by
    intro v live
    rcases first.freed v live with still | free
    · exact second.freed v still
    · exact Or.inr (second.more free)
  more := fun _ member => second.more (first.more member)
  procs := second.procs.trans first.procs
  initproc := second.initproc.trans first.initproc

theorem closeBoth_accounted (distinct : rf ≠ wf) (unused0 : n rf = 0) (unused1 : n wf = 0)
    (accounted : Accounted (update (update n rf 1) wf 1) s) (ctx : Ctx) :
    ∃ t, (fileclose s ctx rf).bind (fun s => fileclose s ctx wf) = some t ∧ Accounted n t ∧
      Closing s t := by
  have ref0 : update (update n rf 1) wf 1 rf = 1 := by
    rw [update_of_ne distinct, update_self]
  obtain ⟨s₁, closed0, accounted₁, closing₁⟩ := accounted.fileclose (f := rf) (by omega) ctx
  have back : update (update (update n rf 1) wf 1) rf (1 - 1) =
      update n wf 1 := by
    rw [update_comm distinct.symm, update_idem, Nat.sub_self, ← unused0,
      update_eq_self]
  rw [ref0, back] at accounted₁
  have ref1 : update n wf 1 wf = 1 := update_self wf 1 n
  obtain ⟨s₂, closed1, accounted₂, closing₂⟩ := accounted₁.fileclose (f := wf) (by omega) ctx
  rw [ref1, update_idem, Nat.sub_self, ← unused1, update_eq_self] at accounted₂
  refine ⟨s₂, ?_, accounted₂, closing₁.trans closing₂⟩
  rw [closed0, Option.bind_some, closed1]

def PipeOutcome (s : Files) : Syscall.Outcome → Prop
  | .returned _ t | .handed _ t => Balanced t ∧ Freed s t
  | .halted => s.freelist = []

theorem closeBoth_outcome (balanced : Balanced s) (up : (s.kernel.proc p).state ≠ .UNUSED) (distinct : rf ≠ wf) (unused0 : slots s rf = 0) (unused1 : slots s wf = 0)
    (accounted : Accounted (update (update (slots s) rf 1) wf 1) t)
    (live : ∀ v, Live s v → Live t v)
    (procs : ∀ q, (t.kernel.proc q).state = (s.kernel.proc q).state ∧
      (t.kernel.proc q).ofile = (s.kernel.proc q).ofile) :
    PipeOutcome s (Syscall.closeBoth t p rf wf) := by
  obtain ⟨u, closed, after, closing⟩ :=
    closeBoth_accounted distinct unused0 unused1 accounted (some p)
  simp only [Syscall.closeBoth, closed, PipeOutcome]
  have own : OwnFds p s u :=
    ⟨fun q => by rw [closing.procs]; exact (procs q).1,
      fun q _ => by rw [closing.procs]; exact (procs q).2⟩
  have same : slots u = slots s := slots_congr fun q => by rw [closing.procs]; exact (procs q).2
  refine ⟨balanced.next up own (same ▸ after), ?_⟩
  exact fun v before => closing.freed v (live v before)

theorem sys_pipe_outcome (balanced : Balanced s) (up : (s.kernel.proc p).state ≠ .UNUSED)
    (fd : AddrT) : PipeOutcome s (Syscall.sys_pipe s p fd) := by
  simp only [Syscall.sys_pipe]
  split
  · exact ⟨balanced, fun _ live => Or.inl live⟩
  have ends := balanced.accounted.pipealloc (some p)
  cases made : pipealloc s (some p) with
  | none =>
    rw [made] at ends
    cases ends with
    | halted empty => exact empty
  | some r =>
    obtain ⟨found, s₁⟩ := r
    rw [made] at ends
    cases ends with
    | refused _ accounted opening =>
      refine ⟨balanced.next up (.of_procs opening.procs) ?_, fun v live => ?_⟩
      · have same : slots s₁ = slots s := slots_congr fun q => by rw [opening.procs]
        rw [same]
        exact accounted
      · exact Or.inl (opening.live v live)
    | made rf wf _ distinct unused0 unused1 accounted opening =>
      simp only
      cases first : fdalloc s₁ p rf with
      | none =>
        refine closeBoth_outcome balanced up distinct unused0 unused1 accounted opening.live ?_
        intro q
        rw [opening.procs]
        exact ⟨rfl, rfl⟩
      | some r =>
        obtain ⟨fd0, s₂⟩ := r
        obtain ⟨free0, rfl⟩ := fdalloc_spec first
        simp only
        cases second : fdalloc (s₁.setOfile p fd0 (some rf)) p wf with
        | none =>
          have undone := setOfile_undo s₁ p fd0 (some rf) free0
          refine closeBoth_outcome balanced up distinct unused0 unused1
            ((accounted.setOfile p fd0 (some rf)).setOfile p fd0 none) opening.live ?_
          intro q
          rw [undone, opening.procs]
          exact ⟨rfl, rfl⟩
        | some r =>
          obtain ⟨fd1, s₃⟩ := r
          obtain ⟨free1, rfl⟩ := fdalloc_spec second
          have after := (accounted.setOfile p fd0 (some rf)).setOfile p fd1 (some wf)
          have same : slots s₁ = slots s := slots_congr fun q => by rw [opening.procs]
          refine ⟨balanced.next up ?_ ?_, fun v live => Or.inl (opening.live v live)⟩
          · exact (OwnFds.of_procs opening.procs).trans
              ((OwnFds.setOfile s₁ p fd0 (some rf)).trans (.setOfile _ p fd1 (some wf)))
          · rw [slots_add free1, slots_add free0, same, update_of_ne distinct.symm,
              unused0, unused1]
            exact after

/-! ## exit -/

theorem closeAll_balanced (balanced : Balanced s) (up : (s.kernel.proc p).state ≠ .UNUSED)
    (fds : List (Fin NOFILE)) :
    ∃ t, closeAll p fds s = some t ∧ Balanced t ∧ OwnFds p s t ∧ Freed s t ∧
      s.freelist ⊆ t.freelist := by
  induction fds generalizing s with
  | nil =>
    exact ⟨s, rfl, balanced, .of_procs rfl, fun _ live => Or.inl live, fun _ member => member⟩
  | cons fd fds ih =>
    rw [closeAll]
    cases found : (s.kernel.proc p).ofile fd with
    | none => exact ih balanced up
    | some f =>
      obtain ⟨s₁, closed, accounted, closing⟩ :=
        balanced.accounted.fileclose (slots_pos found) (some p)
      have used : (s₁.kernel.proc p).ofile fd = some f := by rw [closing.procs, found]
      have same : slots s₁ = slots s := slots_congr fun q => by rw [closing.procs]
      have own : OwnFds p s (s₁.setOfile p fd none) :=
        (OwnFds.of_procs closing.procs).trans (.setOfile s₁ p fd none)
      have balanced₁ : Balanced (s₁.setOfile p fd none) := by
        refine balanced.next up own ?_
        rw [slots_drop used, same]
        exact accounted.setOfile p fd none
      obtain ⟨t, rest, balanced₂, own₂, freed, more⟩ := ih balanced₁ (by
        rw [own.state]
        exact up)
      refine ⟨t, ?_, balanced₂, own.trans own₂, ?_, ?_⟩
      · simp only [closed, Option.bind_some, rest]
      · intro v live
        rcases closing.freed v live with still | free
        · exact freed v still
        · exact Or.inr (more free)
      · exact fun _ member => more (closing.more member)

theorem Balanced.withKernel (balanced : Balanced s) (kend : k.kend = s.kernel.kend)
    (free : k.kmem.freelist = s.freelist)
    (ofile : ∀ q, (k.proc q).ofile = (s.kernel.proc q).ofile)
    (state : ∀ q, (k.proc q).state = .UNUSED → (s.kernel.proc q).state = .UNUSED) :
    Balanced { s with kernel := k } where
  accounted := by
    have same : slots { s with kernel := k } = slots s := slots_congr ofile
    rw [same]
    exact balanced.accounted.withKernel kend free
  vacant := by
    intro q unused
    change (k.proc q).ofile = _
    rw [ofile]
    exact balanced.vacant q (state q unused)

def exited (k : Kernel) (p : Fin NPROC) : Kernel :=
  let k := reparent (k.setProc p { k.proc p with cwd := none }) p
  k.setProc p { k.proc p with state := .ZOMBIE }

theorem exited_ofile (k : Kernel) (p q : Fin NPROC) :
    ((exited k p).proc q).ofile = (k.proc q).ofile := by
  by_cases here : q = p
  · subst here
    simp only [exited, Kernel.setProc, reparent, update_self]
    split <;> rfl
  · simp only [exited, Kernel.setProc, reparent, update_of_ne here]
    split <;> rfl

theorem exited_unused (k : Kernel) (p q : Fin NPROC)
    (unused : ((exited k p).proc q).state = .UNUSED) : (k.proc q).state = .UNUSED := by
  by_cases here : q = p
  · subst here
    simp [exited, Kernel.setProc] at unused
  · simp only [exited, Kernel.setProc, reparent, update_of_ne here] at unused
    split at unused <;> exact unused

theorem exit_balanced (balanced : Balanced s) (up : (s.kernel.proc p).state ≠ .UNUSED) :
    match exit s p with
    | some t => Balanced t ∧ Freed s t
    | none => s.kernel.initproc = some p := by
  by_cases init : s.kernel.initproc = some p
  · rw [Ftable.exit, if_pos init]
    exact init
  rw [Ftable.exit, if_neg init]
  let traced := s.kernel.record (some p) TRACE_TYPE_PROC (s.kernel.proc p).pid 0 0 0 "exit"
  have balanced₀ : Balanced { s with kernel := traced } :=
    balanced.withKernel rfl rfl (fun _ => rfl) (fun _ unused => unused)
  obtain ⟨s₁, closed, balanced₁, -, freed, -⟩ :=
    closeAll_balanced balanced₀ up (List.finRange NOFILE)
  have ended : Balanced { s₁ with kernel := exited s₁.kernel p } :=
    balanced₁.withKernel rfl rfl (exited_ofile s₁.kernel p) (exited_unused s₁.kernel p)
  simp only [Option.bind_eq_bind]
  rw [closed, Option.bind_some]
  exact ⟨ended, freed⟩

/-! ## fork -/

theorem pageCalls_takes (ctx : Ctx) (pages : Nat) (k : Kernel) :
    match pageCalls ctx (List.replicate pages .kalloc) k with
    | some k' => k'.kmem.freelist.Sublist k.kmem.freelist ∧ k'.proc = k.proc ∧ k'.kend = k.kend ∧
        k'.initproc = k.initproc
    | none => k.kmem.freelist.length < pages := by
  induction pages generalizing k with
  | zero => exact ⟨List.Sublist.refl _, rfl, rfl, rfl⟩
  | succ pages ih =>
    simp only [List.replicate_succ, pageCalls, pageCall, Option.bind_eq_bind]
    cases alloc : kalloc k ctx with
    | none =>
      simp only [kalloc] at alloc
      split at alloc
      · rename_i empty
        simp [empty]
      · split at alloc <;> cases alloc
    | some r =>
      obtain ⟨v, k₁⟩ := r
      obtain ⟨free, procs, kend, initproc⟩ := kalloc_takes alloc
      simp only [Option.map_some, Option.bind_some]
      have rest := ih k₁
      split
      · rename_i k' taken
        rw [taken] at rest
        obtain ⟨fewer, procs', kend', initproc'⟩ := rest
        refine ⟨?_, procs'.trans procs, kend'.trans kend, initproc'.trans initproc⟩
        rw [free]
        exact fewer.cons v
      · rename_i short
        rw [short] at rest
        rw [free, List.length_cons]
        exact Nat.succ_lt_succ rest

theorem fdsTo_eq (ofile : Fin NOFILE → Option (Fin NFILE)) (f : Fin NFILE) :
    fdsTo ofile f = (List.finRange NOFILE).countP fun fd => decide (ofile fd = some f) := by
  rw [fdsTo, countP, List.countP_eq_length_filter]
  rfl

theorem dupAll_accounted (fds : List (Fin NOFILE)) (accounted : Accounted n s)
    (referenced : ∀ fd f, (s.kernel.proc p).ofile fd = some f → 0 < n f) :
    ∃ t, dupAll p fds s = some t ∧ t.kernel = s.kernel ∧ (∀ v, Live s v → Live t v) ∧
      Accounted (fun f => n f +
        fds.countP fun fd => decide ((s.kernel.proc p).ofile fd = some f)) t := by
  induction fds generalizing s n with
  | nil => exact ⟨s, rfl, rfl, fun _ live => live, accounted⟩
  | cons fd fds ih =>
    rw [dupAll]
    cases found : (s.kernel.proc p).ofile fd with
    | none =>
      obtain ⟨t, duped, kernel, live, after⟩ := ih accounted referenced
      refine ⟨t, duped, kernel, live, ?_⟩
      simpa [List.countP_cons, found] using after
    | some f =>
      obtain ⟨s₁, first, accounted₁, made⟩ := accounted.filedup (referenced fd f found)
      have kernel₁ : s₁.kernel = s.kernel := by rw [made]; rfl
      obtain ⟨t, duped, kernel, live, after⟩ := ih accounted₁ (by
        intro fd' g here
        rw [kernel₁] at here
        have positive := referenced fd' g here
        by_cases same : g = f
        · subst same
          rw [update_self]
          exact Nat.succ_pos _
        · rwa [update_of_ne same])
      refine ⟨t, ?_, kernel.trans kernel₁, ?_, ?_⟩
      · simp only [first, Option.bind_some, duped]
      · rintro v ⟨g, type, pipe⟩
        refine live v ⟨g, ?_⟩
        rw [made]
        by_cases here : g = f
        · subst here
          rw [setFile_self]
          exact ⟨type, pipe⟩
        · rw [setFile_of_ne _ _ here]
          exact ⟨type, pipe⟩
      · rw [kernel₁] at after
        have counts : (fun g => n g + (fd :: fds).countP fun fd =>
            decide ((s.kernel.proc p).ofile fd = some g)) =
            fun g => update n f (n f + 1) g + fds.countP fun fd =>
              decide ((s.kernel.proc p).ofile fd = some g) := by
          funext g
          rw [List.countP_cons, found]
          by_cases same : g = f
          · subst same
            simp
            omega
          · simp [same, Ne.symm same]
        rw [counts]
        exact after

structure NewSlot (k k' : Kernel) (np : Fin NPROC) (kstack : AddrT) : Prop where
  unused : (k.proc np).state = .UNUSED
  stack : (k'.proc np).kstack = kstack
  embryo : (k'.proc np).state = .EMBRYO
  ofile : ∀ q, (k'.proc q).ofile = (k.proc q).ofile
  state : ∀ q, q ≠ np → (k'.proc q).state = (k.proc q).state
  free : k.kmem.freelist = kstack :: k'.kmem.freelist
  kend : k'.kend = k.kend

theorem allocproc_cases (ctx : Ctx) (nonNull : ∀ v ∈ k.kmem.freelist, v ≠ 0) :
    (allocproc k ctx = none ∧ k.kmem.freelist = []) ∨ allocproc k ctx = some (none, k) ∨
      ∃ np kstack k', allocproc k ctx = some (some np, k') ∧ NewSlot k k' np kstack := by
  unfold allocproc
  cases found : firstUnused k with
  | none => exact Or.inr (Or.inl rfl)
  | some np =>
    have unused : (k.proc np).state = .UNUSED := by
      have test := List.find?_some found
      simpa using test
    simp only [Option.bind_eq_bind]
    generalize started : ({ k.setProc np _ with nextpid := _ } : Kernel) = k₁
    have free₁ : k₁.kmem.freelist = k.kmem.freelist := by rw [← started]; rfl
    cases alloc : kalloc k₁ ctx with
    | none =>
      refine Or.inl ⟨rfl, ?_⟩
      rw [← free₁]
      simp only [kalloc] at alloc
      split at alloc
      · assumption
      · split at alloc <;> cases alloc
    | some r =>
      obtain ⟨kstack, k₂⟩ := r
      obtain ⟨free, procs, kend, -⟩ := kalloc_takes alloc
      rw [free₁] at free
      have nonzero : kstack ≠ 0 := nonNull kstack (by rw [free]; exact List.mem_cons_self)
      simp only [Option.bind_some, if_neg nonzero]
      refine Or.inr (Or.inr ⟨np, kstack, _, rfl, unused, ?_, ?_, ?_, ?_, free, ?_⟩)
      · simp [Kernel.setProc]
      · simp [Kernel.setProc, procs, ← started]
      · intro q
        by_cases here : q = np
        · subst here
          simp [Kernel.setProc, procs, ← started]
        · simp [Kernel.setProc, procs, ← started, here]
      · intro q here
        simp [Kernel.setProc, procs, ← started, here]
      · change k₂.kend = k.kend
        rw [kend, ← started]
        rfl

theorem childOf_ofile {caller : Fin NPROC} {parent np : Proc}
    (vacant : np.ofile = fun _ => none) : (childOf caller parent np).ofile = parent.ofile := by
  funext fd
  simp only [childOf, vacant]
  cases parent.ofile fd <;> rfl

theorem slots_child {np : Fin NPROC} (vacant : (s.kernel.proc np).ofile = fun _ => none)
    (child : (t.kernel.proc np).ofile = (s.kernel.proc p).ofile)
    (others : ∀ q, q ≠ np → (t.kernel.proc q).ofile = (s.kernel.proc q).ofile) :
    slots t = fun f => slots s f + (List.finRange NOFILE).countP fun fd =>
      decide ((s.kernel.proc p).ofile fd = some f) := by
  funext f
  have differ := slots_differ others f
  rw [vacant, fdsTo_none, child, fdsTo_eq] at differ
  exact differ

theorem fork_balanced (balanced : Balanced s) (pages : Nat) (copied : Bool) :
    match fork s p pages copied with
    | some (_, t) => Balanced t ∧ Freed s t
    | none => s.freelist.length ≤ pages := by
  have nonNull : ∀ v ∈ s.kernel.kmem.freelist, v ≠ 0 :=
    fun v member => (balanced.accounted.pages v member).ne_zero
  unfold Ftable.fork
  simp only [Option.bind_eq_bind]
  rcases allocproc_cases (some p) nonNull with ⟨failed, empty⟩ | full |
    ⟨np, kstack, k₁, found, slot⟩
  · rw [failed, Option.bind_none]
    change s.kernel.kmem.freelist.length ≤ pages
    rw [empty]
    exact Nat.zero_le _
  · rw [full, Option.bind_some]
    exact ⟨balanced, fun _ live => Or.inl live⟩
  rw [found, Option.bind_some]
  simp only
  have takes := pageCalls_takes (some p) pages k₁
  cases taken : pageCalls (some p) (List.replicate pages .kalloc) k₁ with
  | none =>
    rw [taken] at takes
    rw [Option.bind_none]
    change s.kernel.kmem.freelist.length ≤ pages
    rw [slot.free, List.length_cons]
    exact takes
  | some k₂ =>
    rw [taken] at takes
    obtain ⟨fewer, procs, kend, -⟩ := takes
    have fewer' : k₂.kmem.freelist.Sublist s.freelist := by
      rw [Files.freelist, slot.free]
      exact fewer.cons kstack
    have vacant : ((k₂.proc np).ofile) = fun _ => none := by
      rw [procs, slot.ofile]
      exact balanced.vacant np slot.unused
    have accounted : Accounted (slots s) { s with kernel := k₂ } :=
      balanced.accounted.shrink (kend.trans slot.kend) fewer'
    have kept : ∀ q, (k₂.proc q).ofile = (s.kernel.proc q).ofile := by
      intro q
      rw [procs, slot.ofile]
    have states : ∀ q, q ≠ np → (k₂.proc q).state = (s.kernel.proc q).state := by
      intro q other
      rw [procs, slot.state q other]
    rw [Option.bind_some]
    split_ifs
    · have referenced : ∀ fd f, (k₂.proc p).ofile fd = some f → 0 < slots s f := by
        intro fd f here
        rw [kept] at here
        exact slots_pos here
      obtain ⟨s₁, duped, kernel, live, after⟩ :=
        dupAll_accounted (List.finRange NOFILE) accounted referenced
      rw [duped, Option.bind_some, kernel]
      refine ⟨⟨?_, ?_⟩, fun v before => Or.inl (live v before)⟩
      · simp only [kept] at after
        rw [slots_child (s := s) (p := p) (balanced.vacant np slot.unused)]
        · exact after.withKernel (by rw [kernel]; rfl) (by rw [Files.freelist, kernel]; rfl)
        · simp only [Kernel.record, Kernel.setProc, update_self]
          rw [childOf_ofile vacant, kept]
        · intro q other
          simp only [Kernel.record, Kernel.setProc, update_of_ne other]
          exact kept q
      · intro q
        by_cases here : q = np
        · subst here
          simp [Kernel.record, Kernel.setProc, childOf]
        · simp only [Kernel.record, Kernel.setProc, update_of_ne here]
          rw [states q here, kept]
          exact balanced.vacant q
    · have member : kstack ∈ s.freelist := by
        rw [Files.freelist, slot.free]
        exact List.mem_cons_self
      have ok : Freeable s.kernel.kend kstack := balanced.accounted.pages kstack member
      have notFree : kstack ∉ k₂.kmem.freelist := by
        have nodup := balanced.accounted.nodup
        rw [Files.freelist, slot.free, List.nodup_cons] at nodup
        exact fun again => nodup.1 (fewer.subset again)
      have other : ¬ Live s kstack := fun live => (balanced.accounted.page kstack live).2 member
      have ok₂ : Freeable k₂.kend kstack := by
        rw [kend, slot.kend]
        exact ok
      obtain ⟨k₃, freed, -⟩ := kfree_of_freeable (some p) ok₂
      obtain ⟨free, procs₃, kend₃, -⟩ := kfree_gives freed
      have stack : (k₂.proc np).kstack = kstack := by rw [procs, slot.stack]
      have after : Accounted (slots s) { s with kernel := k₃ } :=
        accounted.giveBack kend₃ free ok₂ notFree other
      rw [stack, freed, Option.bind_some]
      refine ⟨⟨?_, ?_⟩, fun v before => Or.inl before⟩
      · rw [slots_congr (s := s) ?_]
        · exact after.withKernel rfl rfl
        · intro q
          by_cases here : q = np
          · subst here
            simp only [Kernel.setProc, update_self]
            rw [procs₃, kept]
          · simp only [Kernel.setProc, update_of_ne here]
            rw [procs₃, kept]
      · intro q
        by_cases here : q = np
        · subst here
          simp only [Kernel.setProc, update_self]
          rw [procs₃]
          exact fun _ => vacant
        · simp only [Kernel.setProc, update_of_ne here]
          rw [procs₃, states q here, kept]
          exact balanced.vacant q

/-! ## Whole runs -/

theorem call_balanced (balanced : Balanced s) (op : FileOp)
    (up : (s.kernel.proc op.caller).state ≠ .UNUSED) :
    match call s op with
    | some t => Balanced t ∧ Freed s t
    | none => Refused s op := by
  cases op with
  | open_ p found omode =>
    change (s.kernel.proc p).state ≠ .UNUSED at up
    obtain ⟨t, done, result⟩ := sys_open_balanced balanced up found omode
    simp only [call, done]
    exact result
  | dup p fd =>
    change (s.kernel.proc p).state ≠ .UNUSED at up
    obtain ⟨t, done, result⟩ := sys_dup_balanced balanced up fd
    simp only [call, done]
    exact result
  | close p fd =>
    change (s.kernel.proc p).state ≠ .UNUSED at up
    obtain ⟨t, done, result⟩ := sys_close_balanced balanced up fd
    simp only [call, done]
    exact result
  | pipe p fd =>
    change (s.kernel.proc p).state ≠ .UNUSED at up
    have outcome := sys_pipe_outcome balanced up fd
    simp only [call]
    cases ended : Syscall.sys_pipe s p fd <;> rw [ended] at outcome <;> exact outcome
  | fork p pages copied =>
    have forked := fork_balanced (p := p) balanced pages copied
    simp only [call]
    cases ended : Ftable.fork s p pages copied <;> rw [ended] at forked <;> exact forked
  | exit p => exact exit_balanced balanced up

theorem Started.not_unused {proc : Proc} (started : Started proc) : proc.state ≠ .UNUSED := by
  rcases started with state | state | state <;> rw [state] <;> simp

theorem Balanced.step (balanced : Balanced s) {op : FileOp} (taken : step s op = some t) :
    Balanced t ∧ Freed s t := by
  unfold Ftable.step at taken
  split at taken
  · rename_i started
    have result := call_balanced balanced op started.not_unused
    rw [taken] at result
    exact result
  · cases taken

/-- The file table at boot: nothing is open, and the free pages are distinct. -/
structure Booted (s : Files) : Prop where
  unused : ∀ f, (s.ftable f).ref = 0 ∧ (s.ftable f).type = .FD_NONE
  closed : ∀ p, (s.kernel.proc p).ofile = fun _ => none
  pages : ∀ v ∈ s.freelist, Freeable s.kernel.kend v
  nodup : s.freelist.Nodup

theorem Booted.balanced (booted : Booted s) : Balanced s := by
  have notPipe : ∀ f, (s.ftable f).type ≠ .FD_PIPE := by
    intro f
    rw [(booted.unused f).2]
    simp
  refine ⟨?_, fun p _ => booted.closed p⟩
  constructor
  case refs =>
    intro f
    rw [slots]
    simp only [booted.closed, fdsTo_none, Finset.sum_const_zero]
    exact (booted.unused f).1
  case idle => exact fun f _ => (booted.unused f).2
  case pages => exact booted.pages
  case nodup => exact booted.nodup
  case page =>
    rintro v ⟨f, type, -⟩
    exact absurd type (notPipe f)
  case mode => exact fun f type => absurd type (notPipe f)
  case single =>
    intro v w f g here
    exact absurd here.1 (notPipe f)
  case ends =>
    rintro v ⟨f, type, -⟩
    exact absurd type (notPipe f)

/-- The references of a file structure are the descriptors that point to it; one
without references has no type.  A pipe that some file structure stands for has the
ends open for which there is a referenced one, and its page is not free. -/
structure FilesOk (s : Files) : Prop where
  refs : ∀ f, (s.ftable f).ref = slots s f
  idle : ∀ f, (s.ftable f).ref = 0 → (s.ftable f).type = .FD_NONE
  readopen : ∀ v, Live s v → ((s.pipe v).readopen = true ↔ ∃ f, 0 < (s.ftable f).ref ∧
    (s.ftable f).type = .FD_PIPE ∧ (s.ftable f).pipe = v ∧ (s.ftable f).readable = true)
  writeopen : ∀ v, Live s v → ((s.pipe v).writeopen = true ↔ ∃ f, 0 < (s.ftable f).ref ∧
    (s.ftable f).type = .FD_PIPE ∧ (s.ftable f).pipe = v ∧ (s.ftable f).writable = true)
  inUse : ∀ v, Live s v → v ∉ s.freelist
  nodup : s.freelist.Nodup

theorem Balanced.filesOk (balanced : Balanced s) : FilesOk s := by
  obtain ⟨accounted, -⟩ := balanced
  have referenced : ∀ f, (s.ftable f).type = .FD_PIPE → 0 < (s.ftable f).ref := by
    intro f type
    by_contra zero
    rw [accounted.idle f (by omega)] at type
    cases type
  refine ⟨accounted.refs, accounted.idle, ?_, ?_, fun v live => (accounted.page v live).2,
    accounted.nodup⟩
  · intro v live
    refine (accounted.ends v live false).trans (exists_congr fun f => ?_)
    constructor
    · rintro ⟨type, pipe, mode⟩
      refine ⟨referenced f type, type, pipe, ?_⟩
      rw [accounted.mode f type, mode]
      rfl
    · rintro ⟨-, type, pipe, readable⟩
      refine ⟨type, pipe, ?_⟩
      rw [accounted.mode f type] at readable
      simpa using readable
  · intro v live
    refine (accounted.ends v live true).trans (exists_congr fun f => ?_)
    constructor
    · rintro ⟨type, pipe, mode⟩
      exact ⟨referenced f type, type, pipe, mode⟩
    · rintro ⟨-, type, pipe, writable⟩
      exact ⟨type, pipe, writable⟩

/-- Every run of completed calls keeps the accounts.  A call stops only where memory is
exhausted or init exits, so neither `filedup` nor `fileclose` panics, and a pipe that a
step closes for good has its page on the free list, which it was not before. -/
theorem files_accounted (s : Files) (booted : Booted s) (ops : List FileOp) :
    Throughout step FilesOk s ops ∧
      Along step (fun s op =>
        (Started (s.kernel.proc op.caller) → call s op = none → Refused s op) ∧
          ∀ t, step s op = some t → Freed s t) s ops := by
  have kept : ∀ (s : Files) (op : FileOp) (t : Files), Balanced s → step s op = some t →
      Balanced t := fun s op t balanced taken => (balanced.step taken).1
  refine ⟨throughout_invariant kept (fun _ balanced => balanced.filesOk) ops s booted.balanced, ?_⟩
  refine along_invariant kept ?_ ops s booted.balanced
  intro s op balanced
  refine ⟨?_, fun t taken => (balanced.step taken).2⟩
  intro started stopped
  have result := call_balanced balanced op started.not_unused
  rw [stopped] at result
  exact result

end

/-! ## A pipe between two processes -/

def initOnly : Files :=
  let one := Syscall.oneProcess ⟨0, 4096, 0, 0, 0, 0, 0⟩
  { one with
    kernel := { one.kernel with
      proc := fun i =>
        if i = 0 then { one.kernel.proc 0 with ofile := fun _ => none } else Proc.unused }
    ftable := fun _ => ⟨.FD_NONE, 0, false, false, 0, none, 0⟩ }

theorem initOnly_booted : Booted initOnly where
  unused := fun _ => ⟨rfl, rfl⟩
  closed := by
    intro p
    simp only [initOnly]
    split <;> rfl
  pages := (Syscall.oneProcess_wellFormed ⟨0, 4096, 0, 0, 0, 0, 0⟩).pages
  nodup := by decide

/-- Init makes a pipe and a child, the child keeps the write end and exits, and init
closes the read end. -/
def pipeToChild : List FileOp :=
  [.pipe 0 0, .fork 0 2 true, .dup 0 0, .close 1 0, .close 0 1, .exit 1, .close 0 0, .close 0 2]

theorem files_accounted_pipe :
    (run step initOnly pipeToChild).isSome = true ∧ Booted initOnly ∧
      Throughout step FilesOk initOnly pipeToChild :=
  ⟨by decide +kernel, initOnly_booted, (files_accounted initOnly initOnly_booted pipeToChild).1⟩

end Xv6Tracing.Ftable
