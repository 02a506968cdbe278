import Xv6Tracing.Fs.Accounting
import Xv6Tracing.File.Calls

/-!
# References to file structures and the ends of pipes

`Accounted n s` says that the file structures have the reference counts `n`, that the
ends of a pipe are open as long as a file structure stands for them, and that its page is
not free.  The functions of `file.c` and `pipe.c` move `n` by one and keep the rest, so
that they never panic where there is a reference.
-/

set_option autoImplicit false

namespace Xv6Tracing.Ftable

open Function (update update_eq_self update_idem update_of_ne update_self)

open Process Lib

def Files.freelist (s : Files) : List AddrT := s.kernel.kmem.freelist

def Pipe.isOpen (p : Pipe) (writable : Bool) : Bool := if writable then p.writeopen else p.readopen

def PipeEnd (s : Files) (page : AddrT) (writable : Bool) (f : Fin NFILE) : Prop :=
  (s.ftable f).type = .FD_PIPE ∧ (s.ftable f).pipe = page ∧ (s.ftable f).writable = writable

def Live (s : Files) (page : AddrT) : Prop :=
  ∃ f, (s.ftable f).type = .FD_PIPE ∧ (s.ftable f).pipe = page

structure Accounted (n : Fin NFILE → Nat) (s : Files) : Prop where
  refs : ∀ f, (s.ftable f).ref = n f
  idle : ∀ f, (s.ftable f).ref = 0 → (s.ftable f).type = .FD_NONE
  pages : ∀ v ∈ s.freelist, Freeable s.kernel.kend v
  nodup : s.freelist.Nodup
  page : ∀ v, Live s v → Freeable s.kernel.kend v ∧ v ∉ s.freelist
  mode : ∀ f, (s.ftable f).type = .FD_PIPE → (s.ftable f).readable = !(s.ftable f).writable
  single : ∀ v w f g, PipeEnd s v w f → PipeEnd s v w g → f = g
  ends : ∀ v, Live s v → ∀ w, (s.pipe v).isOpen w = true ↔ ∃ f, PipeEnd s v w f

/-- What closing files does to the pages of pipes: one that is no longer in use has
been put on the free list. -/
structure Closing (s t : Files) : Prop where
  freed : ∀ v, Live s v → Live t v ∨ v ∈ t.freelist
  more : s.freelist ⊆ t.freelist
  procs : t.kernel.proc = s.kernel.proc
  initproc : t.kernel.initproc = s.kernel.initproc

section

variable {n : Fin NFILE → Nat} {s t : Files} {f : Fin NFILE}

variable {v : AddrT} {k : Kernel}

theorem PipeEnd.live {w : Bool} (here : PipeEnd s v w f) : Live s v :=
  ⟨f, here.1, here.2.1⟩

/-! ## The page allocator -/

variable {ctx : Ctx} {k' : Kernel} {file : File}

theorem kalloc_takes (run : kalloc k ctx = some (v, k')) :
    k.kmem.freelist = v :: k'.kmem.freelist ∧ k'.proc = k.proc ∧ k'.kend = k.kend ∧
      k'.initproc = k.initproc := by
  simp only [kalloc] at run
  split at run
  · cases run
  · rename_i free
    split at run <;> cases run <;> exact ⟨free, rfl, rfl, rfl⟩

theorem kfree_gives (run : kfree k ctx v = some k') :
    k'.kmem.freelist = v :: k.kmem.freelist ∧ k'.proc = k.proc ∧ k'.kend = k.kend ∧
      k'.initproc = k.initproc := by
  simp only [kfree] at run
  split at run
  · cases run
  · split at run <;> cases run <;> exact ⟨rfl, rfl, rfl, rfl⟩

theorem Accounted.shrink (accounted : Accounted n s)
    (kend : k.kend = s.kernel.kend) (fewer : k.kmem.freelist.Sublist s.freelist) :
    Accounted n { s with kernel := k } where
  refs := accounted.refs
  idle := accounted.idle
  pages := by
    intro v member
    rw [kend]
    exact accounted.pages v (fewer.subset member)
  nodup := accounted.nodup.sublist fewer
  page := by
    intro v live
    obtain ⟨ok, used⟩ := accounted.page v live
    exact ⟨by rw [kend]; exact ok, fun member => used (fewer.subset member)⟩
  mode := accounted.mode
  single := accounted.single
  ends := accounted.ends

theorem Accounted.giveBack (accounted : Accounted n s)
    (kend : k.kend = s.kernel.kend) (free : k.kmem.freelist = v :: s.freelist)
    (ok : Freeable s.kernel.kend v) (taken : v ∉ s.freelist) (other : ¬ Live s v) :
    Accounted n { s with kernel := k } where
  refs := accounted.refs
  idle := accounted.idle
  pages := by
    intro u member
    change u ∈ k.kmem.freelist at member
    grind [Accounted]
  nodup := by
    change k.kmem.freelist.Nodup
    rw [free]
    exact List.nodup_cons.mpr ⟨taken, accounted.nodup⟩
  page := by
    intro u live
    obtain ⟨fine, used⟩ := accounted.page u live
    refine ⟨by rw [kend]; exact fine, ?_⟩
    change u ∉ k.kmem.freelist
    rw [free, List.mem_cons]
    rintro (rfl | old)
    · exact other live
    · exact used old
  mode := accounted.mode
  single := accounted.single
  ends := accounted.ends

/-! ## One file structure changes -/

theorem pipeEnd_setFile (same : file.type = .FD_PIPE ∧ file.pipe = (s.ftable f).pipe ∧
      file.writable = (s.ftable f).writable ∧ (s.ftable f).type = .FD_PIPE ∨
      file.type ≠ .FD_PIPE ∧ (s.ftable f).type ≠ .FD_PIPE) (v : AddrT) (w : Bool) (g : Fin NFILE) :
    PipeEnd (s.setFile f file) v w g ↔ PipeEnd s v w g := by
  unfold PipeEnd
  by_cases here : g = f
  · grind [setFile_self]
  · rw [setFile_of_ne s file here]

theorem live_iff (s : Files) (v : AddrT) : Live s v ↔ ∃ w f, PipeEnd s v w f := by
  constructor
  · rintro ⟨f, type, pipe⟩
    exact ⟨_, f, type, pipe, rfl⟩
  · rintro ⟨w, f, here⟩
    exact here.live

section

variable (accounted : Accounted n s)

include accounted

theorem Accounted.setFile
    (same : file.type = .FD_PIPE ∧ file.pipe = (s.ftable f).pipe ∧
      file.writable = (s.ftable f).writable ∧ (s.ftable f).type = .FD_PIPE ∨
      file.type ≠ .FD_PIPE ∧ (s.ftable f).type ≠ .FD_PIPE)
    (mode : file.readable = (s.ftable f).readable ∨ file.type ≠ .FD_PIPE)
    (idle : file.ref = 0 → file.type = .FD_NONE) :
    Accounted (update n f file.ref) (s.setFile f file) := by
  have ends := pipeEnd_setFile same
  have lives : ∀ v, Live (s.setFile f file) v ↔ Live s v := by
    intro v
    rw [live_iff, live_iff]
    exact exists_congr fun w => exists_congr fun g => ends v w g
  constructor
  case refs =>
    intro g
    by_cases here : g = f
    · subst here
      rw [setFile_self, update_self]
    · rw [setFile_of_ne s file here, update_of_ne here]
      exact accounted.refs g
  case idle => exact Fs.idle_setFile accounted.idle file idle
  case pages => exact accounted.pages
  case nodup => exact accounted.nodup
  case page =>
    intro v live
    exact accounted.page v ((lives v).mp live)
  case mode =>
    intro g type
    by_cases here : g = f
    · grind [setFile_self, Accounted]
    · rw [setFile_of_ne s file here] at type ⊢
      exact accounted.mode g type
  case single =>
    intro v w g h first second
    exact accounted.single v w g h ((ends v w g).mp first) ((ends v w h).mp second)
  case ends =>
    intro v live w
    rw [setFile_pipe, accounted.ends v ((lives v).mp live) w]
    exact exists_congr fun g => (ends v w g).symm

theorem Accounted.setRef {ref : Nat} (positive : 0 < ref) :
    Accounted (update n f ref) (s.setFile f { s.ftable f with ref := ref }) := by
  let file : File := { s.ftable f with ref := ref }
  have same : file.type = .FD_PIPE ∧ file.pipe = (s.ftable f).pipe ∧
      file.writable = (s.ftable f).writable ∧ (s.ftable f).type = .FD_PIPE ∨
      file.type ≠ .FD_PIPE ∧ (s.ftable f).type ≠ .FD_PIPE := by
    by_cases pipe : (s.ftable f).type = .FD_PIPE
    · exact Or.inl ⟨pipe, rfl, rfl, pipe⟩
    · exact Or.inr ⟨pipe, pipe⟩
  exact accounted.setFile same (Or.inl rfl) (fun zero => absurd zero positive.ne')

theorem Accounted.filedup (referenced : 0 < n f) :
    ∃ t, filedup s f = some t ∧ Accounted (update n f (n f + 1)) t ∧
      t = s.setFile f { s.ftable f with ref := (s.ftable f).ref + 1 } := by
  have ref := accounted.refs f
  refine ⟨_, ?_, ?_, rfl⟩
  · rw [Ftable.filedup, if_neg (by omega)]
  · rw [← ref]
    exact accounted.setRef (Nat.succ_pos _)

theorem Accounted.filealloc (run : filealloc s = some (f, t)) :
    n f = 0 ∧ Accounted (update n f 1) t ∧ (t.ftable f).type = .FD_NONE := by
  obtain ⟨unused, rfl⟩ := filealloc_spec run
  have zero := accounted.refs f
  refine ⟨by omega, accounted.setRef Nat.one_pos, ?_⟩
  rw [setFile_self]
  exact accounted.idle f unused

end

/-! ## Closing -/

def File.closed (file : File) : File := { file with ref := 0, type := .FD_NONE }

theorem Accounted.closePlain (accounted : Accounted n s) (one : n f = 1) (ctx : Ctx)
    (type : (s.ftable f).type ≠ .FD_PIPE) :
    fileclose s ctx f = some (s.setFile f (s.ftable f).closed) ∧
      Accounted (update n f 0) (s.setFile f (s.ftable f).closed) := by
  have ref := accounted.refs f
  have plain : (s.ftable f).closed.type ≠ .FD_PIPE := by simp [File.closed]
  constructor
  · rw [fileclose, if_neg (by omega), if_neg (by omega)]
    cases kind : (s.ftable f).type with
    | FD_PIPE => exact absurd kind type
    | FD_NONE => rfl
    | FD_INODE => rfl
  · exact accounted.setFile (Or.inr ⟨plain, type⟩) (Or.inr plain) (fun _ => rfl)

def Pipe.shut (p : Pipe) (writable : Bool) : Pipe :=
  if writable then { p with writeopen := false } else { p with readopen := false }

theorem isOpen_shut (p : Pipe) (w u : Bool) :
    (p.shut w).isOpen u = if u = w then false else p.isOpen u := by
  cases w <;> cases u <;> rfl

/-- The state after the last reference to an end of a pipe has gone and the end is
shut. -/
def shutEnd (s : Files) (f : Fin NFILE) : Files :=
  { s.setFile f (s.ftable f).closed with
    pipe := Function.update s.pipe (s.ftable f).pipe
      ((s.pipe (s.ftable f).pipe).shut (s.ftable f).writable) }

theorem pipeEnd_shutEnd (g : Fin NFILE) (v : AddrT) (w : Bool) :
    PipeEnd (shutEnd s f) v w g ↔ g ≠ f ∧ PipeEnd s v w g := by
  unfold PipeEnd
  change ((s.setFile f _).ftable g).type = _ ∧ ((s.setFile f _).ftable g).pipe = _ ∧
    ((s.setFile f _).ftable g).writable = _ ↔ _
  by_cases here : g = f
  · subst here
    rw [setFile_self]
    simp [File.closed]
  · rw [setFile_of_ne s _ here]
    simp [here]

theorem Accounted.shutEnd (accounted : Accounted n s) (type : (s.ftable f).type = .FD_PIPE) :
    Accounted (update n f 0) (shutEnd s f) := by
  have live : Live s (s.ftable f).pipe := ⟨f, type, rfl⟩
  have older : ∀ v, Live (Ftable.shutEnd s f) v → Live s v := by
    intro v
    rw [live_iff]
    rintro ⟨w, g, here⟩
    exact ((pipeEnd_shutEnd g v w).mp here).2.live
  constructor
  case refs =>
    intro g
    change ((s.setFile f _).ftable g).ref = _
    by_cases here : g = f
    · subst here
      rw [setFile_self, update_self]
      rfl
    · rw [setFile_of_ne s _ here, update_of_ne here]
      exact accounted.refs g
  case idle => exact Fs.idle_setFile accounted.idle _ (fun _ => rfl)
  case pages => exact accounted.pages
  case nodup => exact accounted.nodup
  case page =>
    intro v still
    exact accounted.page v (older v still)
  case mode =>
    intro g
    change ((s.setFile f _).ftable g).type = _ → ((s.setFile f _).ftable g).readable = _
    by_cases here : g = f
    · subst here
      rw [setFile_self]
      intro impossible
      cases impossible
    · rw [setFile_of_ne s _ here]
      intro pipe
      change _ = !((s.setFile f _).ftable g).writable
      rw [setFile_of_ne s _ here]
      exact accounted.mode g pipe
  case single =>
    intro v w g h first second
    exact accounted.single v w g h ((pipeEnd_shutEnd g v w).mp first).2
      ((pipeEnd_shutEnd h v w).mp second).2
  case ends =>
    intro v still w
    have before := accounted.ends v (older v still) w
    change (update s.pipe _ _ v).isOpen w = true ↔ _
    by_cases here : v = (s.ftable f).pipe
    · subst here
      rw [update_self, isOpen_shut]
      split
      · rename_i same
        subst same
        -- `f` was the only file structure at this end
        refine iff_of_false (by simp) ?_
        rintro ⟨g, found⟩
        obtain ⟨other, old⟩ := (pipeEnd_shutEnd g _ _).mp found
        exact other (accounted.single _ _ g f old ⟨type, rfl, rfl⟩)
      · rename_i differs
        rw [before]
        apply exists_congr
        intro g
        rw [pipeEnd_shutEnd]
        refine ⟨fun old => ⟨?_, old⟩, And.right⟩
        rintro rfl
        exact differs old.2.2.symm
    · rw [update_of_ne here, before]
      apply exists_congr
      intro g
      rw [pipeEnd_shutEnd]
      refine ⟨fun old => ⟨?_, old⟩, And.right⟩
      rintro rfl
      exact here old.2.1.symm

theorem Accounted.closeEnd (accounted : Accounted n s) (one : n f = 1) (ctx : Ctx)
    (type : (s.ftable f).type = .FD_PIPE) :
    ∃ t, fileclose s ctx f = some t ∧ Accounted (update n f 0) t ∧ Closing s t := by
  have ref := accounted.refs f
  have shut := accounted.shutEnd type
  have live : Live s (s.ftable f).pipe := ⟨f, type, rfl⟩
  have others : ∀ v, v ≠ (s.ftable f).pipe → Live s v → Live (Ftable.shutEnd s f) v := by
    intro v other
    rw [live_iff, live_iff]
    rintro ⟨w, g, here⟩
    refine ⟨w, g, (pipeEnd_shutEnd g v w).mpr ⟨?_, here⟩⟩
    rintro rfl
    exact other here.2.1.symm
  have unfolded : fileclose s ctx f =
      if ((Ftable.shutEnd s f).pipe (s.ftable f).pipe).readopen = false ∧
          ((Ftable.shutEnd s f).pipe (s.ftable f).pipe).writeopen = false then
        (kfree s.kernel ctx (s.ftable f).pipe).map fun k => { Ftable.shutEnd s f with kernel := k }
      else some (Ftable.shutEnd s f) := by
    rw [fileclose, if_neg (by omega), if_neg (by omega)]
    simp only [type, pipeclose, Ftable.shutEnd, update_self]
    rfl
  rw [unfolded]
  split
  · rename_i bothShut
    have gone : ¬ Live (Ftable.shutEnd s f) (s.ftable f).pipe := by
      intro still
      obtain ⟨w, g, here⟩ := (live_iff _ _).mp still
      have isOpen := (shut.ends _ still w).mpr ⟨g, here⟩
      cases w
      · exact absurd (bothShut.1.symm.trans isOpen) (by simp)
      · exact absurd (bothShut.2.symm.trans isOpen) (by simp)
    obtain ⟨ok, taken⟩ := accounted.page _ live
    obtain ⟨k, freed, -⟩ := kfree_of_freeable ctx ok
    obtain ⟨free, procs, kend, initproc⟩ := kfree_gives freed
    rw [freed, Option.map_some]
    refine ⟨_, rfl, shut.giveBack kend free ok taken gone, ?_, ?_, procs, initproc⟩
    · intro v before
      by_cases here : v = (s.ftable f).pipe
      · right
        rw [here, Files.freelist, free]
        exact List.mem_cons_self
      · exact Or.inl (others v here before)
    · intro v member
      rw [Files.freelist, free]
      exact List.mem_cons_of_mem _ member
  · rename_i halfOpen
    refine ⟨_, rfl, shut, ?_, fun _ member => member, rfl, rfl⟩
    intro v before
    by_cases here : v = (s.ftable f).pipe
    · left
      subst here
      -- the other end is still open, so some file structure stands for it
      have open' : (s.pipe (s.ftable f).pipe).isOpen (!(s.ftable f).writable) = true := by
        by_contra shutToo
        apply halfOpen
        simp only [Ftable.shutEnd, update_self]
        cases mode : (s.ftable f).writable <;> rw [mode] at shutToo <;>
          simpa [Pipe.shut, Pipe.isOpen] using shutToo
      obtain ⟨g, found⟩ := (accounted.ends _ before _).mp open'
      refine (live_iff _ _).mpr ⟨_, g, (pipeEnd_shutEnd g _ _).mpr ⟨?_, found⟩⟩
      rintro rfl
      exact absurd found.2.2 (by simp)
    · exact Or.inl (others v here before)

theorem Accounted.fileclose (accounted : Accounted n s) (referenced : 0 < n f) (ctx : Ctx) :
    ∃ t, fileclose s ctx f = some t ∧ Accounted (update n f (n f - 1)) t ∧
      Closing s t := by
  have ref := accounted.refs f
  by_cases last : n f = 1
  · rw [last]
    by_cases type : (s.ftable f).type = .FD_PIPE
    · exact accounted.closeEnd last ctx type
    · obtain ⟨closed, after⟩ := accounted.closePlain last ctx type
      refine ⟨_, closed, after, ?_, fun _ member => member, rfl, rfl⟩
      intro v live
      left
      rw [live_iff] at live ⊢
      have plain : (s.ftable f).closed.type ≠ .FD_PIPE := by simp [File.closed]
      obtain ⟨w, g, here⟩ := live
      exact ⟨w, g, (pipeEnd_setFile (Or.inr ⟨plain, type⟩) v w g).mpr here⟩
  · refine ⟨s.setFile f { s.ftable f with ref := (s.ftable f).ref - 1 }, ?_, ?_, ?_, ?_, rfl, rfl⟩
    · rw [Ftable.fileclose, if_neg (by omega), if_pos (by omega)]
    · rw [← ref]
      exact accounted.setRef (by omega)
    · rintro v ⟨g, type, pipe⟩
      refine Or.inl ⟨g, ?_⟩
      grind [setFile_self, setFile_of_ne]
    · exact fun _ member => member

/-! ## Making a pipe -/

structure Opening (s t : Files) : Prop where
  live : ∀ v, Live s v → Live t v
  procs : t.kernel.proc = s.kernel.proc
  initproc : t.kernel.initproc = s.kernel.initproc

theorem Opening.trans {u : Files} (first : Opening s t) (second : Opening t u) : Opening s u :=
  ⟨fun v live => second.live v (first.live v live), second.procs.trans first.procs,
    second.initproc.trans first.initproc⟩

theorem Opening.of_setFile (s : Files) (f : Fin NFILE) (file : File)
    (unused : (s.ftable f).type = .FD_NONE) : Opening s (s.setFile f file) := by
  refine ⟨?_, rfl, rfl⟩
  rintro v ⟨g, type, pipe⟩
  have other : g ≠ f := by
    rintro rfl
    rw [unused] at type
    cases type
  exact ⟨g, by rw [setFile_of_ne s file other]; exact ⟨type, pipe⟩⟩

def withPipe (s : Files) (f0 f1 : Fin NFILE) (page : AddrT) : Files :=
  let s := { s with pipe := Function.update s.pipe page ⟨0, 0, true, true⟩ }
  let s := s.setFile f0 (pipeEnd (s.ftable f0) page false)
  s.setFile f1 (pipeEnd (s.ftable f1) page true)

section New

variable {f0 f1 : Fin NFILE} {page : AddrT}

theorem withPipe_ftable (distinct : f0 ≠ f1) (g : Fin NFILE) :
    (withPipe s f0 f1 page).ftable g =
      if g = f1 then pipeEnd (s.ftable f1) page true
      else if g = f0 then pipeEnd (s.ftable f0) page false else s.ftable g := by
  simp only [withPipe]
  split
  · rename_i here
    subst here
    rw [setFile_self, setFile_of_ne _ _ distinct.symm]
  · rename_i other
    grind [setFile_of_ne, setFile_self]

theorem pipeEnd_withPipe (distinct : f0 ≠ f1) (type0 : (s.ftable f0).type = .FD_NONE)
    (type1 : (s.ftable f1).type = .FD_NONE) (v : AddrT) (w : Bool) (g : Fin NFILE) :
    PipeEnd (withPipe s f0 f1 page) v w g ↔
      PipeEnd s v w g ∨ v = page ∧ g = if w then f1 else f0 := by
  unfold PipeEnd
  rw [withPipe_ftable distinct]
  split
  · rename_i here
    subst here
    cases w
    · simp [pipeEnd, type1, distinct.symm]
    · simpa [pipeEnd, type1] using eq_comm
  · rename_i other
    split
    · rename_i here
      subst here
      cases w
      · simpa [pipeEnd, type0] using eq_comm
      · simp [pipeEnd, type0, distinct]
    · rename_i other'
      cases w <;> simp [other, other']

theorem Accounted.withPipe (accounted : Accounted n s) (distinct : f0 ≠ f1)
    (type0 : (s.ftable f0).type = .FD_NONE) (type1 : (s.ftable f1).type = .FD_NONE)
    (used0 : 0 < n f0) (used1 : 0 < n f1) (ok : Freeable s.kernel.kend page)
    (taken : page ∉ s.freelist) (fresh : ¬ Live s page) :
    Accounted n (withPipe s f0 f1 page) ∧ Opening s (withPipe s f0 f1 page) := by
  have ends : ∀ v w g, PipeEnd (Ftable.withPipe s f0 f1 page) v w g ↔
      PipeEnd s v w g ∨ v = page ∧ g = if w then f1 else f0 :=
    pipeEnd_withPipe distinct type0 type1
  have lives : ∀ v, Live (Ftable.withPipe s f0 f1 page) v ↔ Live s v ∨ v = page := by
    intro v
    rw [live_iff, live_iff]
    constructor
    · rintro ⟨w, g, here⟩
      rcases (ends v w g).mp here with old | ⟨new, -⟩
      · exact Or.inl ⟨w, g, old⟩
      · exact Or.inr new
    · rintro (⟨w, g, old⟩ | new)
      · exact ⟨w, g, (ends v w g).mpr (Or.inl old)⟩
      · exact ⟨true, f1, (ends v true f1).mpr (Or.inr ⟨new, rfl⟩)⟩
  refine ⟨?_, ⟨fun v live => (lives v).mpr (Or.inl live), rfl, rfl⟩⟩
  constructor
  case refs =>
    intro g
    rw [withPipe_ftable distinct, ← accounted.refs g]
    split
    · rename_i here
      rw [here]
      rfl
    · split
      · rename_i here
        rw [here]
        rfl
      · rfl
  case idle =>
    intro g
    rw [withPipe_ftable distinct]
    have ref0 := accounted.refs f0
    have ref1 := accounted.refs f1
    split
    · intro zero
      change (s.ftable f1).ref = 0 at zero
      omega
    · split
      · intro zero
        change (s.ftable f0).ref = 0 at zero
        omega
      · exact accounted.idle g
  case pages => exact accounted.pages
  case nodup => exact accounted.nodup
  case page =>
    intro v live
    rcases (lives v).mp live with old | rfl
    · exact accounted.page v old
    · exact ⟨ok, taken⟩
  case mode =>
    intro g
    rw [withPipe_ftable distinct]
    split
    · exact fun _ => rfl
    · split
      · exact fun _ => rfl
      · exact accounted.mode g
  case single =>
    intro v w g h first second
    rcases (ends v w g).mp first with old | ⟨rfl, here⟩
    · rcases (ends v w h).mp second with old' | ⟨rfl, -⟩
      · exact accounted.single v w g h old old'
      · exact absurd old.live fresh
    · rcases (ends v w h).mp second with old' | ⟨-, here'⟩
      · exact absurd old'.live fresh
      · exact here.trans here'.symm
  case ends =>
    intro v live w
    change (update s.pipe page ⟨0, 0, true, true⟩ v).isOpen w = true ↔ _
    by_cases here : v = page
    · subst here
      rw [update_self]
      refine iff_of_true (by cases w <;> rfl) ⟨if w then f1 else f0, ?_⟩
      exact (ends v w _).mpr (Or.inr ⟨rfl, rfl⟩)
    · rw [update_of_ne here, accounted.ends v (((lives v).mp live).resolve_right here) w]
      apply exists_congr
      intro g
      rw [ends v w g]
      simp [here]

end New

/-- The three ways `pipealloc` can end. -/
inductive PipeMade (n : Fin NFILE → Nat) (s : Files) :
    Option (Option (Fin NFILE × Fin NFILE) × Files) → Prop where
  | made (rf wf : Fin NFILE) (t : Files) (distinct : rf ≠ wf) (unused0 : n rf = 0)
      (unused1 : n wf = 0)
      (accounted : Accounted (Function.update (Function.update n rf 1) wf 1) t)
      (opening : Opening s t) : PipeMade n s (some (some (rf, wf), t))
  | refused (t : Files) (accounted : Accounted n t) (opening : Opening s t) :
      PipeMade n s (some (none, t))
  | halted (empty : s.freelist = []) : PipeMade n s none

theorem Accounted.pipealloc (accounted : Accounted n s) (ctx : Ctx) :
    PipeMade n s (pipealloc s ctx) := by
  simp only [Ftable.pipealloc]
  cases first : Ftable.filealloc s with
  | none => exact .refused s accounted ⟨fun _ live => live, rfl, rfl⟩
  | some r =>
    obtain ⟨f0, s₁⟩ := r
    obtain ⟨unused0, accounted₁, type0⟩ := accounted.filealloc first
    obtain ⟨zero0, rfl⟩ := filealloc_spec first
    have opening₁ : Opening s (s.setFile f0 { s.ftable f0 with ref := 1 }) :=
      .of_setFile s f0 _ (accounted.idle f0 zero0)
    have free₁ : (s.setFile f0 { s.ftable f0 with ref := 1 }).freelist = s.freelist := rfl
    generalize s.setFile f0 { s.ftable f0 with ref := 1 } = s₁ at *
    simp only
    cases second : Ftable.filealloc s₁ with
    | none =>
      have plain : (s₁.ftable f0).type ≠ .FD_PIPE := by rw [type0]; simp
      obtain ⟨closed, back⟩ :=
        accounted₁.closePlain (update_self f0 1 n) ctx plain
      rw [update_idem, ← unused0, update_eq_self] at back
      rw [closed, Option.map_some]
      exact .refused _ back (opening₁.trans (.of_setFile s₁ f0 _ type0))
    | some r =>
      obtain ⟨f1, s₂⟩ := r
      obtain ⟨unused1, accounted₂, type1⟩ := accounted₁.filealloc second
      obtain ⟨zero1, rfl⟩ := filealloc_spec second
      have distinct : f0 ≠ f1 := by
        rintro rfl
        rw [update_self] at unused1
        cases unused1
      rw [update_of_ne distinct.symm] at unused1
      have type0' : ((s₁.setFile f1 { s₁.ftable f1 with ref := 1 }).ftable f0).type =
          .FD_NONE := by
        rw [setFile_of_ne _ _ distinct]
        exact type0
      have opening₂ : Opening s (s₁.setFile f1 { s₁.ftable f1 with ref := 1 }) :=
        opening₁.trans (.of_setFile s₁ f1 _ (accounted₁.idle f1 zero1))
      have free₂ : (s₁.setFile f1 { s₁.ftable f1 with ref := 1 }).freelist = s.freelist := free₁
      generalize s₁.setFile f1 { s₁.ftable f1 with ref := 1 } = s₂ at *
      simp only
      cases alloc : kalloc s₂.kernel ctx with
      | none =>
        refine .halted ?_
        rw [← free₂]
        simp only [kalloc] at alloc
        split at alloc
        · assumption
        · split at alloc <;> cases alloc
      | some r =>
        obtain ⟨page, k⟩ := r
        obtain ⟨free, procs, kend, initproc⟩ := kalloc_takes alloc
        have member : page ∈ s₂.freelist := by
          rw [Files.freelist, free]
          exact List.mem_cons_self
        have ok := accounted₂.pages page member
        have shrunk : Accounted _ { s₂ with kernel := k } := accounted₂.shrink kend (by
          rw [Files.freelist, free]
          exact List.sublist_cons_self _ _)
        have notFree : page ∉ k.kmem.freelist := by grind [Files.freelist, Accounted]
        have fresh : ¬ Live s₂ page := fun live => (accounted₂.page page live).2 member
        obtain ⟨made, opening⟩ := shrunk.withPipe distinct type0' type1
          (by rw [update_of_ne distinct, update_self]; exact Nat.one_pos)
          (by rw [update_self]; exact Nat.one_pos) (by rw [kend]; exact ok)
          notFree fresh
        have kept : Opening s₂ { s₂ with kernel := k } := ⟨fun _ live => live, procs, initproc⟩
        simp only [Option.bind_eq_bind, Option.bind_some, if_neg ok.ne_zero]
        exact .made f0 f1 _ distinct unused0 unused1 made
          (opening₂.trans (kept.trans opening))

end

end Xv6Tracing.Ftable
