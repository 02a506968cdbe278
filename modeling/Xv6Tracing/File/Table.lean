import Xv6Tracing.Process.Attribution

/-!
# The file table and pipes

`filealloc` and `fileclose` of `file.c`, `pipealloc` and `pipeclose`
of `pipe.c`, and `fdalloc` of `sysfile.c`, over the kernel that owns the pages.
A pipe is known by the address of its page.  Its bytes, and the inode reference that
closing a file drops, belong to other models.
-/

set_option autoImplicit false

namespace Xv6Tracing.Ftable

open Process

inductive FileType where
  | FD_NONE | FD_PIPE | FD_INODE
deriving DecidableEq, Repr

structure File where
  type : FileType
  ref : Nat
  readable : Bool
  writable : Bool
  pipe : AddrT
  ip : Option (Fin NINODE)
  off : Uint

structure Pipe where
  nread : Uint
  nwrite : Uint
  readopen : Bool
  writeopen : Bool

structure Files where
  kernel : Kernel
  ftable : Fin NFILE → File
  pipe : AddrT → Pipe

def Files.setFile (s : Files) (f : Fin NFILE) (file : File) : Files :=
  { s with ftable := Function.update s.ftable f file }

def Files.setOfile (s : Files) (i : Fin NPROC) (fd : Fin NOFILE) (f : Option (Fin NFILE)) :
    Files :=
  { s with kernel := s.kernel.setProc i { s.kernel.proc i with
      ofile := Function.update (s.kernel.proc i).ofile fd f } }

def firstFree (s : Files) : Option (Fin NFILE) :=
  (List.finRange NFILE).find? fun f => decide ((s.ftable f).ref = 0)

def filealloc (s : Files) : Option (Fin NFILE × Files) :=
  match firstFree s with
  | none => none
  | some f => some (f, s.setFile f { s.ftable f with ref := 1 })

def pipeclose (s : Files) (ctx : Ctx) (p : AddrT) (writable : Bool) : Option Files :=
  let closed : Pipe :=
    if writable then { s.pipe p with writeopen := false } else { s.pipe p with readopen := false }
  let s := { s with pipe := Function.update s.pipe p closed }
  if closed.readopen = false ∧ closed.writeopen = false then
    (kfree s.kernel ctx p).map fun k => { s with kernel := k }
  else some s

/-- `panic("fileclose")` is `none`. -/
def fileclose (s : Files) (ctx : Ctx) (f : Fin NFILE) : Option Files :=
  let ff := s.ftable f
  if ff.ref < 1 then none
  else if 0 < ff.ref - 1 then some (s.setFile f { ff with ref := ff.ref - 1 })
  else
    let s := s.setFile f { ff with ref := 0, type := .FD_NONE }
    match ff.type with
    | .FD_PIPE => pipeclose s ctx ff.pipe ff.writable
    | .FD_INODE | .FD_NONE => some s

def pipeEnd (file : File) (page : AddrT) (writable : Bool) : File :=
  { file with type := .FD_PIPE, readable := !writable, writable := writable, pipe := page }

/-- A failure after which `f0`, and then `f1`, were given back is the inner `none`. -/
def pipealloc (s : Files) (ctx : Ctx) :
    Option (Option (Fin NFILE × Fin NFILE) × Files) :=
  match filealloc s with
  | none => some (none, s)
  | some (f0, s) =>
    match filealloc s with
    | none => (fileclose s ctx f0).map fun s => (none, s)
    | some (f1, s) => do
        let (page, k) ← kalloc s.kernel ctx
        let s := { s with kernel := k }
        if page = 0 then
          let s ← fileclose s ctx f0
          let s ← fileclose s ctx f1
          some (none, s)
        else
          let s := { s with pipe := Function.update s.pipe page ⟨0, 0, true, true⟩ }
          let s := s.setFile f0 (pipeEnd (s.ftable f0) page false)
          some (some (f0, f1), s.setFile f1 (pipeEnd (s.ftable f1) page true))

def fdFree (s : Files) (i : Fin NPROC) : Option (Fin NOFILE) :=
  (List.finRange NOFILE).find? fun fd => decide ((s.kernel.proc i).ofile fd = none)

def fdalloc (s : Files) (i : Fin NPROC) (f : Fin NFILE) : Option (Fin NOFILE × Files) :=
  match fdFree s i with
  | none => none
  | some fd => some (fd, s.setOfile i fd (some f))

/-! ## What they keep -/

def Freeable (kend v : AddrT) : Prop := ¬ (v % PGSIZE ≠ 0 ∨ v < kend ∨ V2P v ≥ PHYSTOP)

/-- What every state of the running kernel has: a page on the free list passed
the test of `kfree`, and an unused file structure has no type. -/
structure WellFormed (s : Files) : Prop where
  pages : ∀ v ∈ s.kernel.kmem.freelist, Freeable s.kernel.kend v
  idle : ∀ f, (s.ftable f).ref = 0 → (s.ftable f).type = .FD_NONE

variable {v : AddrT} {f : Fin NFILE} {s : Files}

theorem Freeable.ne_zero {kend : AddrT} (ok : Freeable kend v) : v ≠ 0 := by
  rintro rfl
  apply ok
  right
  right
  decide

variable {k : Kernel} {t : Files} {i : Fin NPROC}

theorem kalloc_of_cons (ctx : Ctx) {rest : List AddrT} (free : k.kmem.freelist = v :: rest) :
    ∃ k', kalloc k ctx = some (v, k') ∧ k'.proc = k.proc ∧ k'.kend = k.kend := by
  simp only [kalloc, free]
  split
  · exact ⟨_, rfl, rfl, rfl⟩
  · exact ⟨_, rfl, rfl, rfl⟩

theorem kfree_of_freeable (ctx : Ctx) (ok : Freeable k.kend v) :
    ∃ k', kfree k ctx v = some k' ∧ k'.proc = k.proc := by
  simp only [kfree]
  rw [if_neg ok]
  split
  · exact ⟨_, rfl, rfl⟩
  · exact ⟨_, rfl, rfl⟩

@[simp] theorem setFile_kernel (s : Files) (f : Fin NFILE) (file : File) :
    (s.setFile f file).kernel = s.kernel := rfl

@[simp] theorem setFile_pipe (s : Files) (f : Fin NFILE) (file : File) :
    (s.setFile f file).pipe = s.pipe := rfl

@[simp] theorem setFile_self (s : Files) (f : Fin NFILE) (file : File) :
    (s.setFile f file).ftable f = file := by simp [Files.setFile]

theorem setFile_of_ne (s : Files) {g : Fin NFILE} (file : File) (other : g ≠ f) :
    (s.setFile f file).ftable g = s.ftable g := by simp [Files.setFile, other]

@[simp] theorem setOfile_ftable (s : Files) (i : Fin NPROC) (fd : Fin NOFILE)
    (f : Option (Fin NFILE)) : (s.setOfile i fd f).ftable = s.ftable := rfl

/-- Taking back a descriptor that was free leaves the process table as it was. -/
theorem setOfile_undo (s : Files) (i : Fin NPROC) (fd : Fin NOFILE) (f : Option (Fin NFILE))
    (free : (s.kernel.proc i).ofile fd = none) :
    ((s.setOfile i fd f).setOfile i fd none).kernel.proc = s.kernel.proc := by
  simp only [Files.setOfile, Kernel.setProc, Function.update_self, Function.update_idem]
  have same : Function.update (s.kernel.proc i).ofile fd none = (s.kernel.proc i).ofile := by
    rw [← free]
    exact Function.update_eq_self fd _
  rw [same]
  exact Function.update_eq_self i _

theorem filealloc_spec (run : filealloc s = some (f, t)) :
    (s.ftable f).ref = 0 ∧ t = s.setFile f { s.ftable f with ref := 1 } := by
  simp only [filealloc] at run
  split at run
  · simp at run
  · rename_i g found
    have unused := List.find?_some found
    grind

theorem filealloc_none (run : filealloc s = none) (f : Fin NFILE) :
    (s.ftable f).ref ≠ 0 := by
  simp only [filealloc] at run
  split at run
  · rename_i full
    have := List.find?_eq_none.mp full f (List.mem_finRange f)
    simpa using this
  · simp at run

theorem fdalloc_spec {fd : Fin NOFILE} (run : fdalloc s i f = some (fd, t)) :
    (s.kernel.proc i).ofile fd = none ∧ t = s.setOfile i fd (some f) := by
  simp only [fdalloc] at run
  split at run
  · simp at run
  · rename_i found
    have unused := List.find?_some found
    grind

theorem fdalloc_none (run : fdalloc s i f = none)
    (fd : Fin NOFILE) : (s.kernel.proc i).ofile fd ≠ none := by
  simp only [fdalloc] at run
  split at run
  · rename_i full
    have := List.find?_eq_none.mp full fd (List.mem_finRange fd)
    simpa using this
  · simp at run

def TwoFiles (s : Files) : Prop :=
  ∃ f g, f ≠ g ∧ (s.ftable f).ref = 0 ∧ (s.ftable g).ref = 0

def TwoFds (s : Files) (i : Fin NPROC) : Prop :=
  ∃ a b, a ≠ b ∧ (s.kernel.proc i).ofile a = none ∧ (s.kernel.proc i).ofile b = none

theorem fileclose_untyped (ctx : Ctx) (one : (s.ftable f).ref = 1)
    (untyped : (s.ftable f).type = .FD_NONE) :
    ∃ t, fileclose s ctx f = some t ∧ t.kernel = s.kernel := by
  refine ⟨s.setFile f { s.ftable f with ref := 0, type := .FD_NONE }, ?_, rfl⟩
  simp [fileclose, one, untyped]

/-- The state right after `pipealloc`: both ends open and referenced once. -/
structure NewPipe (s : Files) (rf wf : Fin NFILE) (page : AddrT) : Prop where
  distinct : rf ≠ wf
  reader : (s.ftable rf).type = .FD_PIPE ∧ (s.ftable rf).ref = 1 ∧
    (s.ftable rf).writable = false ∧ (s.ftable rf).pipe = page
  writer : (s.ftable wf).type = .FD_PIPE ∧ (s.ftable wf).ref = 1 ∧
    (s.ftable wf).writable = true ∧ (s.ftable wf).pipe = page
  bothOpen : (s.pipe page).readopen = true ∧ (s.pipe page).writeopen = true
  page_ok : Freeable s.kernel.kend page

/-- The three ways `pipealloc` can end. -/
inductive PipeallocEnds (s : Files) : Option (Option (Fin NFILE × Fin NFILE) × Files) → Prop where
  | made (rf wf : Fin NFILE) (page : AddrT) (t : Files) (new : NewPipe t rf wf page)
      (procs : t.kernel.proc = s.kernel.proc) : PipeallocEnds s (some (some (rf, wf), t))
  | refused (t : Files) (procs : t.kernel.proc = s.kernel.proc) (short : ¬ TwoFiles s) :
      PipeallocEnds s (some (none, t))
  | halted (empty : s.kernel.kmem.freelist = []) : PipeallocEnds s none

theorem pipealloc_ends (s : Files) (ctx : Ctx) (wf : WellFormed s) :
    PipeallocEnds s (pipealloc s ctx) := by
  simp only [pipealloc]
  cases first : filealloc s with
  | none =>
    refine .refused s rfl ?_
    rintro ⟨f, _, _, unused, _⟩
    exact filealloc_none first f unused
  | some r =>
    obtain ⟨f0, s₁⟩ := r
    obtain ⟨unused0, rfl⟩ := filealloc_spec first
    simp only
    cases second : filealloc (s.setFile f0 { s.ftable f0 with ref := 1 }) with
    | none =>
      obtain ⟨t, closed, kernel⟩ := fileclose_untyped (s := s.setFile f0
        { s.ftable f0 with ref := 1 }) (f := f0) ctx (by simp)
        (by simpa using wf.idle f0 unused0)
      simp only [closed, Option.map_some]
      refine .refused t (by rw [kernel]; rfl) ?_
      -- Every file but `f0` is in use, and two are needed.
      have others : ∀ f, (s.ftable f).ref = 0 → f = f0 := by
        intro f unused
        by_contra other
        exact filealloc_none second f (by rw [setFile_of_ne _ _ other]; exact unused)
      rintro ⟨f, g, distinct, unused, unused'⟩
      exact distinct ((others f unused).trans (others g unused').symm)
    | some r =>
      obtain ⟨f1, s₂⟩ := r
      obtain ⟨unused1, rfl⟩ := filealloc_spec second
      have distinct : f0 ≠ f1 := by
        rintro rfl
        simp at unused1
      cases free : s.kernel.kmem.freelist with
      | nil =>
        simp only [kalloc, setFile_kernel, free, Option.bind_eq_bind, Option.bind_none]
        exact .halted free
      | cons page rest =>
        have pageOk : Freeable s.kernel.kend page := wf.pages page (by simp [free])
        obtain ⟨k', alloc, procs, kend⟩ := kalloc_of_cons ctx free
        simp only [setFile_kernel, alloc, Option.bind_eq_bind, Option.bind_some,
          if_neg pageOk.ne_zero]
        refine .made f0 f1 page _ ⟨distinct, ?_, ?_, ?_, ?_⟩ procs
        · rw [setFile_of_ne _ _ distinct, setFile_self]
          simp [pipeEnd, setFile_of_ne _ _ distinct]
        · rw [setFile_self]
          simp [pipeEnd, setFile_of_ne _ _ distinct.symm]
        · simp
        · simp only [setFile_kernel, kend]
          exact pageOk

theorem close_newPipe (ctx : Ctx) {rf wf : Fin NFILE} {page : AddrT} (new : NewPipe s rf wf page) :
    ∃ t, (fileclose s ctx rf).bind (fun s => fileclose s ctx wf) = some t ∧
      t.kernel.proc = s.kernel.proc := by
  obtain ⟨readerType, readerRef, readerMode, readerPipe⟩ := new.reader
  obtain ⟨writerType, writerRef, writerMode, writerPipe⟩ := new.writer
  have first : fileclose s ctx rf = some { s.setFile rf
      { s.ftable rf with ref := 0, type := .FD_NONE } with
      pipe := Function.update s.pipe page { s.pipe page with readopen := false } } := by
    simp [fileclose, readerRef, readerType, readerMode, readerPipe, pipeclose, new.bothOpen.2]
  obtain ⟨k', freed, procs⟩ := kfree_of_freeable (k := s.kernel) ctx new.page_ok
  rw [first, Option.bind_some]
  simp only [fileclose, setFile_of_ne _ _ new.distinct.symm, writerRef, writerType, writerMode,
    writerPipe, pipeclose]
  simp [Files.setFile, freed, procs]

end Xv6Tracing.Ftable
