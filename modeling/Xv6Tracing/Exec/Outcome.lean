import Xv6Tracing.Exec.Arguments
import Xv6Tracing.Fs.Outstanding

/-!
# How exec ends

With the old program, with the old program and two registers changed, or with the new
one.  The new address space is built from free pages, so that nothing else notices it
until the commit; what was taken goes back to the free list when it is given up.
-/

set_option autoImplicit false

namespace Xv6Tracing.Exec

open Lib Vm Growproc Process

variable {s t : Memory} {roots free free' : List AddrT} {r sz : AddrT} {image : Nat → Uchar}
  {m m' : Machine} {argv : List CStr} {path : List Uchar} {elf : Elfhdr} {oldpgdir : AddrT}

/-- The machine that `exec` finds: live page tables whose pages the allocator manages, and a
file system between calls.  The kernel is linked above `KERNBASE`. -/
structure Sane (m : Machine) (roots free : List AddrT) : Prop where
  sound : Sound m.mem roots free
  distinct : roots.Nodup
  root : m.pgdir ∈ roots
  usable : ∀ p, Owned m.mem roots p → Usable m.mem.kend p
  kernel : KERNBASE < m.mem.kend
  fs : Fs.Consistent m.fs

theorem first_not_usable {kend : AddrT} (kernel : KERNBASE < kend) : ¬ Usable kend (P2V 0) := by
  rintro ⟨-, above, -⟩
  have first : P2V 0 = KERNBASE := by decide
  rw [first] at above
  exact BitVec.not_le.mpr kernel above

/-! ## Giving the new address space up -/

/-- The live tables map what they did, to the same contents, and all free pages are back. -/
structure Restored (s t : Memory) (roots free : List AddrT) : Prop where
  words : ∀ r ∈ roots, ∀ va, User va → pteWord t r va = pteWord s r va
  contents : ∀ r ∈ roots, ∀ va, User va → Present s r va →
    t.page (frameOf s r va) = s.page (frameOf s r va)
  freed : ∃ free', Sound t roots free' ∧ free'.Perm free

theorem Restored.refl (sound : Sound s roots free) : Restored s s roots free :=
  ⟨fun _ _ _ _ => rfl, fun _ _ _ _ _ => rfl, free, sound, List.Perm.refl _⟩

structure Apart (s t : Memory) (roots free free' : List AddrT) (r : AddrT) : Prop where
  sound : Sound t [r] free'
  kend : t.kend = s.kend
  usable : ∀ p ∈ free, Usable s.kend p
  balance : ∀ p, Owned t [r] p ∨ p ∈ free' ↔ p ∈ free
  kept : ∀ p, Owned s roots p → t.page p = s.page p

section Giving

variable (old : Sound s roots free) (apart : Apart s t roots free free' r)
include apart

theorem Apart.owned_usable (p : AddrT) (owned : Owned t [r] p) : Usable t.kend p := by
  rw [apart.kend]
  exact apart.usable p ((apart.balance p).mp (Or.inl owned))

include old

variable {exc : Halt → Prop}

theorem Apart.freevm :
    wp (Vm.freevm r) t (fun _ u => Restored s u roots free) exc := by
  have root : r ∈ [r] := List.mem_cons_self
  obtain ⟨done, after, -⟩ := freevm_spec apart.sound (List.nodup_singleton r) root
    apart.owned_usable
  have none : [r].erase r = [] := by simp
  rw [none] at after
  have member : ∀ p, p ∈ (rootPages t r).reverse ++ free' ↔ p ∈ free := by
    intro p
    rw [List.mem_append, List.mem_reverse, mem_rootPages]
    exact apart.balance p
  have kept : ∀ p, Owned s roots p → (freedAll t (rootPages t r)).page p = s.page p := by
    intro p owned
    rw [freedAll_page, apart.kept p owned]
    intro listed
    exact old.apart p owned ((apart.balance p).mp (Or.inl (mem_rootPages.mp listed)))
  have kend : (freedAll t (rootPages t r)).kend = s.kend :=
    (freedAll_consts _).1.trans apart.kend
  have sound := old.beside after kept kend fun p => by
    rintro (⟨r', root', -⟩ | listed)
    · exact absurd root' List.not_mem_nil
    · exact (member p).mp listed
  unfold wp
  rw [done]
  refine ⟨fun r' root' va user => ?_, fun r' root' va user present => ?_, _, sound, ?_⟩
  · exact pteWord_of_tables (fun p table => kept p table.owned) root' user
  · exact kept _ (owned_frame root' user present)
  · exact (List.perm_ext_iff_of_nodup after.nodup old.nodup).mpr member

theorem Apart.freeOld (distinct : roots.Nodup) (root : oldpgdir ∈ roots)
    (usable : ∀ p, Owned s roots p → Usable s.kend p) :
    wp (Vm.freevm oldpgdir) t (fun _ u => (∀ va, User va → pteWord u r va = pteWord t r va) ∧
      ∀ p, Owned t [r] p → u.page p = t.page p) exc := by
  have both : Sound t (r :: roots) free' := old.beside apart.sound apart.kept apart.kend
    fun p => (apart.balance p).mp
  have paths : SamePaths s t roots := samePaths_of_tables fun p table => apart.kept p table.owned
  have single : ∀ p, Owned t [oldpgdir] p → Owned s roots p := by
    rintro p ⟨r', member, path, valid, found⟩
    obtain rfl := List.mem_singleton.mp member
    exact paths.owned_iff.mp ⟨r', root, path, valid, found⟩
  have new : r ∉ roots := by
    intro member
    refine old.apart r ⟨r, member, [], userPath_nil, rfl⟩ ((apart.balance r).mp (Or.inl ?_))
    exact ⟨r, List.mem_cons_self, [], userPath_nil, rfl⟩
  obtain ⟨done, -, -⟩ := freevm_spec both (List.nodup_cons.mpr ⟨new, distinct⟩)
    (List.mem_cons_of_mem r root) fun p owned => by
      rw [apart.kend]
      exact usable p (single p owned)
  have kept : ∀ p, Owned t [r] p → (freedAll t (rootPages t oldpgdir)).page p = t.page p := by
    grind [freedAll_page, old.apart, mem_rootPages.mp, apart.balance]
  unfold wp
  rw [done]
  refine ⟨fun va user => ?_, kept⟩
  exact pteWord_of_tables (fun p table => kept p table.owned) List.mem_cons_self user

end Giving

section Live

variable (old : Sound s roots free) (usable : ∀ p, Owned s roots p → Usable s.kend p)
  (kernel : KERNBASE < s.kend)
include old usable kernel

theorem owned_ne_first {p : AddrT} (owned : Owned s roots p) : p ∉ free ∧ p ≠ P2V 0 := by
  refine ⟨old.apart p owned, ?_⟩
  rintro rfl
  exact first_not_usable kernel (usable _ owned)

theorem Loading.apart {frame : Nat → AddrT} {written : List AddrT} {low : Prop}
    (loading : Loading s t free free' r sz frame written image low) :
    Apart s t roots free free' r where
  sound := loading.sound
  kend := loading.kend
  usable := loading.usable
  balance := loading.balance
  kept p owned := by grind [owned_ne_first, Loading]

theorem Staged.apart (staged : Staged s t free free' r sz image) :
    Apart s t roots free free' r where
  sound := staged.sound
  kend := staged.kend
  usable := staged.usable
  balance := staged.balance
  kept p owned := by
    obtain ⟨notFree, notFirst⟩ := owned_ne_first old usable kernel owned
    exact staged.kept p notFree notFirst

end Live

/-! ## The commit -/

/-- The array below the strings: a return address, the pointers and a null pointer. -/
def argArray (top : Nat) (argv : List CStr) : List AddrT :=
  0xffffffffffffffff :: (pointers top argv).map (BitVec.ofNat 64) ++ [0]

/-- The image of a program that was loaded as `image`, with its arguments. -/
def finalImage (image : Nat → Uchar) (top : Nat) (argv : List CStr) : Nat → Uchar :=
  overwritten (pushedImage image top argv) (top - argBytes argv - 8 * (argv.length + 2))
    ((argArray top argv).flatMap leBytes)

/-- A new program of `size` bytes, loaded as `image`, is in place with its arguments. -/
structure Installed (m : Machine) (argv : List CStr) (elf : Elfhdr) (size : Nat)
    (image : Nat → Uchar) : Prop where
  sz : m.sz.toNat = (size + 4095) / 4096 * 4096 + 8192
  small : m.sz.toNat < 2 ^ 30
  few : argv.length ≤ MAXARG
  fits : argBytes argv + 8 * (argv.length + 2) ≤ 4096
  rdi : m.tf.rdi.toNat = argv.length
  rsi : m.tf.rsi.toNat = m.sz.toNat - argBytes argv - 8 * (argv.length + 1)
  rsp : m.tf.rsp.toNat = m.sz.toNat - argBytes argv - 8 * (argv.length + 2)
  rip : m.tf.rip = elf.entry
  present : ∀ va, User va → (Present m.mem m.pgdir va ↔ 1 ≤ vpn va ∧ vpn va < pages m.sz)
  accessible : ∀ va, User va → (Accessible m.mem m.pgdir va ↔
    (1 ≤ vpn va ∧ vpn va < pages m.sz) ∧ vpn va + 2 ≠ pages m.sz)
  bytes : ∀ va, User va → Present m.mem m.pgdir va →
    userByte m.mem m.pgdir va = finalImage image m.sz.toNat argv va.toNat

/-- How `exec` ends once the program is loaded. -/
inductive StackEnd (s : Memory) (roots free : List AddrT) (m : Machine) (argv : List CStr)
    (elf : Elfhdr) (size : Nat) (image : Nat → Uchar) : CInt → Machine → Prop
  | failed (t : Memory) (restored : Restored s t roots free) :
      StackEnd s roots free m argv elf size image (-1) { m with mem := t }
  | late (t : Memory) (rdi rsi : BitVec 64) (restored : Restored s t roots free)
      (few : argv.length ≤ MAXARG) (strings : argBytes argv ≤ 4096)
      (beyond : 4096 < argBytes argv + 8 * (argv.length + 2)) :
      StackEnd s roots free m argv elf size image (-1)
        { m with mem := t, tf := { m.tf with rdi := rdi, rsi := rsi } }
  | done (m' : Machine) (fs : m'.fs = m.fs) (installed : Installed m' argv elf size image) :
      StackEnd s roots free m argv elf size image 0 m'

theorem length_pointers : ∀ (argv : List CStr) (sp : Nat), (pointers sp argv).length = argv.length := by
  intro argv
  induction argv with
  | nil => intro sp; rfl
  | cons arg argv ih => intro sp; simp [pointers, ih]

theorem length_leBytes (word : AddrT) : (leBytes word).length = 8 := by simp [leBytes]

theorem length_flatMap_leBytes (words : List AddrT) :
    (words.flatMap leBytes).length = 8 * words.length := by
  induction words with
  | nil => rfl
  | cons word words ih =>
    rw [List.flatMap_cons, List.length_append, ih, length_leBytes, List.length_cons]
    omega

theorem length_argArray (top : Nat) (argv : List CStr) :
    ((argArray top argv).flatMap leBytes).length = 8 * (argv.length + 2) := by
  rw [length_flatMap_leBytes, argArray]
  simp [length_pointers]

theorem eq_map_ofNat {words : List AddrT} {values : List Nat}
    (same : words.map BitVec.toNat = values) : words = values.map (BitVec.ofNat 64) := by
  have back : ∀ word ∈ words, BitVec.ofNat 64 (BitVec.toNat word) = word := fun word _ => by
    rw [BitVec.ofNat_toNat, BitVec.setWidth_eq]
  rw [← same, List.map_map]
  exact ((List.map_congr_left back).trans (List.map_id' words)).symm

theorem toNat_array {sp : AddrT} {argc k : Nat} (room : argc + k + 2 ≤ 64) (big : 4096 ≤ sp.toNat) :
    (sp - (BitVec.ofNat 64 argc + BitVec.ofNat 64 k) * 8).toNat = sp.toNat - 8 * (argc + k) := by
  have bound := sp.isLt
  have eight : (8 : AddrT).toNat = 8 := rfl
  rw [BitVec.toNat_sub, BitVec.toNat_mul, BitVec.toNat_add, BitVec.toNat_ofNat, BitVec.toNat_ofNat,
    eight]
  omega

section Commit

variable (old : Sound s roots free) (usable : ∀ p, Owned s roots p → Usable s.kend p)
  (kernel : KERNBASE < s.kend)
include old usable kernel

theorem Staged.bad_spec (staged : Staged s m.mem free free' r sz image)
    {post : CInt → Machine → Prop} {exc : Stop → Prop}
    (result : ∀ t, Restored s t roots free → post (-1) { m with mem := t }) :
    wp (bad (some r) none) m post exc := by
  rw [bad, wp_bind, wp_onVm]
  refine wp_mono ((staged.apart old usable kernel).freevm old) fun _ t restored => ?_
  exact result t restored

theorem commitImage_spec (size : Nat) (distinct : roots.Nodup) (root : oldpgdir ∈ roots)
    {sp : AddrT} {ustack : List AddrT}
    (staged : Staged s m.mem free free' r sz (pushedImage image sz.toNat argv))
    (sz_eq : sz.toNat = (size + 4095) / 4096 * 4096 + 8192) (above : sz.toNat ≤ sp.toNat + 4096)
    (total : sp.toNat + argBytes argv = sz.toNat)
    (list : ustack.map BitVec.toNat = pointers sz.toNat argv) (few : ustack.length ≤ MAXARG) :
    wp (commitImage path elf r sz oldpgdir sp ustack) m
      (StackEnd s roots free m argv elf size image) fun _ => True := by
  have small := staged.size_lt
  have count : ustack.length = argv.length := by
    rw [← length_pointers argv sz.toNat, ← list, List.length_map]
  rw [count] at few
  unfold MAXARG at few
  have words : 0xffffffffffffffff :: ustack ++ [0] = argArray sz.toNat argv := by
    rw [eq_map_ofNat list]
    rfl
  have length := length_argArray sz.toNat argv
  have nonempty : (argArray sz.toNat argv).flatMap leBytes ≠ [] := by
    intro none
    rw [none] at length
    simp at length
  rw [commitImage, count, words]
  generalize argc_eq : BitVec.ofNat 64 argv.length = argc
  have rsi : (sp - (argc + 1) * 8).toNat = sp.toNat - 8 * (argv.length + 1) := by
    rw [← argc_eq]
    exact toNat_array (k := 1) (by omega) (by omega)
  have rsp : (sp - (1 + argc + 1) * 8).toNat = sp.toNat - 8 * (argv.length + 2) := by
    rw [← argc_eq, BitVec.add_comm 1, BitVec.add_assoc]
    exact toNat_array (k := 2) (by omega) (by omega)
  simp only [wp_bind, wp_modify, wp_onCopy]
  generalize sp - (1 + argc + 1) * 8 = sp' at rsp ⊢
  have spec : wp (copyout r sp' ((argArray sz.toNat argv).flatMap leBytes)) m.mem
      (Copied m.mem r sp' ((argArray sz.toNat argv).flatMap leBytes)) fun _ => False :=
    staged.copyout_spec (by omega)
  refine wp_conseq spec ?_ fun _ => False.elim
  intro ret t copied
  obtain ⟨image', after, success⟩ := staged.copied copied
  by_cases low : sp'.toNat + 4096 < sz.toNat
  · have failed : ret = -1 := staged.copied_guard copied (by omega) low nonempty (by omega)
    rw [failed, if_pos (by decide)]
    refine Staged.bad_spec old usable kernel (m := { m with mem := t, tf := { m.tf with
      rdi := argc, rsi := sp - (argc + 1) * 8 } }) after fun u restored => ?_
    exact .late u _ _ restored few (by omega) (by omega)
  · have done : ret = 0 := staged.copied_top copied (by omega) (by omega)
    rw [done, if_neg (by decide)]
    simp only [wp_bind, wp_modify, wp_onVm]
    refine wp_mono ((after.apart old usable kernel).freeOld old distinct root usable) ?_
    rintro _ u ⟨same, contents⟩
    have present : ∀ va, User va → (Present u r va ↔ Present t r va) := by
      intro va user
      rw [Present, same va user, Present]
    refine .done _ rfl ⟨sz_eq, small, few, by omega, ?_, ?_, ?_, rfl, ?_, ?_, ?_⟩
    · rw [← argc_eq, BitVec.toNat_ofNat]
      omega
    · dsimp only
      omega
    · dsimp only
      omega
    · exact fun va user => (present va user).trans (after.present va user)
    · intro va user
      unfold Accessible
      rw [present va user, same va user]
      exact after.accessible va user
    · intro va user here
      have before := (present va user).mp here
      have bytes := after.bytes va user before
      rw [success done] at bytes
      rw [userByte, frameOf, same va user, contents _ (owned_frame List.mem_cons_self user before)]
      rw [finalImage, show sz.toNat - argBytes argv - 8 * (argv.length + 2) = sp'.toNat by omega]
      exact bytes

theorem setStack_spec (distinct : roots.Nodup) (root : oldpgdir ∈ roots) {frame : Nat → AddrT}
    {written : List AddrT} {low : Prop}
    (loading : Loading s m.mem free free' r sz frame written image low) :
    wp (setStack path argv elf r sz oldpgdir) m
      (StackEnd s roots free m argv elf sz.toNat image) fun _ => True := by
  have room := loading.room
  have start := loading.start
  have small : pages sz ≤ 57345 := room
  have size : sz.toNat ≤ 2 ^ 64 - 4096 := by
    unfold pages at small
    omega
  have up : (PGROUNDUP sz).toNat = pages sz * 4096 := toNat_PGROUNDUP size
  have newsz : (PGROUNDUP sz + 2 * PGSIZE).toNat = pages sz * 4096 + 8192 := by
    have two : (2 * PGSIZE : AddrT).toNat = 8192 := by decide
    rw [BitVec.toNat_add, up, two]
    omega
  have below : PGROUNDUP sz + 2 * PGSIZE < KERNBASE := by
    have base : KERNBASE.toNat = 2 ^ 64 - 2 ^ 47 := rfl
    exact BitVec.lt_def.mpr (by omega)
  have rounded : Loading s m.mem free free' r (PGROUNDUP sz) frame written image low :=
    loading.resize (by rw [pages, up]; omega)
  rw [setStack, wp_bind, wp_onVm]
  generalize PGROUNDUP sz + 2 * PGSIZE = next at newsz below ⊢
  refine wp_mono (rounded.allocuvm below fun _ => trivial) ?_
  rintro top t ⟨nonzero, top_eq, free'', frame', grown⟩
  have value : top.toNat = pages sz * 4096 + 8192 := by omega
  have count : pages top = pages sz + 2 := by
    rw [pages, value]
    omega
  have guard : (top - 2 * PGSIZE).toNat = pages sz * 4096 := by
    have two : (2 * PGSIZE : AddrT).toNat = 8192 := by decide
    have bound := top.isLt
    rw [BitVec.toNat_sub, two]
    omega
  have user : User (top - 2 * PGSIZE) := by
    unfold User
    omega
  have page : vpn (top - 2 * PGSIZE) = pages sz := by
    rw [vpn, guard]
    omega
  rw [if_neg nonzero, wp_bind, wp_onVm]
  refine wp_mono (clearpteu_spec grown.sound List.mem_cons_self user fun _ => trivial) ?_
  rintro _ u ⟨effect, words⟩
  have staged : Staged s u free free'' r top image := by grind [grown.staged]
  rw [wp_bind]
  refine wp_mono (pushArgs_spec argv top [] image { m with mem := u } staged (by omega) (le_refl _)
    (by omega) (by simp)) ?_
  rintro res m' ⟨others, ⟨image', after, images⟩, stack⟩
  cases res with
  | none =>
    refine after.bad_spec old usable kernel fun t restored => ?_
    rw [others]
    exact .failed t restored
  | some pushed =>
    obtain ⟨sp, ustack⟩ := pushed
    obtain ⟨above, total, list, few⟩ := stack sp ustack rfl
    rw [images sp ustack rfl] at after
    refine wp_mono (commitImage_spec old usable kernel sz.toNat distinct root after
      (by rw [value, pages]) above total list few) ?_
    rintro ret m'' (⟨t, restored⟩ | ⟨t, rdi, rsi, restored, few, strings, beyond⟩ |
      ⟨_, fs, installed⟩)
    · rw [others]
      exact .failed t restored
    · rw [others]
      exact .late t rdi rsi restored few strings beyond
    · rw [others] at fs
      exact .done m'' fs installed

end Commit

/-! ## The whole call -/

structure Unchanged (m m' : Machine) (roots free : List AddrT) : Prop where
  pgdir : m'.pgdir = m.pgdir
  sz : m'.sz = m.sz
  name : m'.name = m.name
  outstanding : m'.fs.outstanding = m.fs.outstanding
  refs : ∀ a, (m'.fs.icache a).ref = (m.fs.icache a).ref
  inodes : ∀ a, 0 < (m.fs.icache a).ref → (m'.fs.icache a).inum = (m.fs.icache a).inum
  restored : Restored m.mem m'.mem roots free

/-- The string arguments fit in the stack page, but not with the pointers to them. -/
def Overfull (argv : List CStr) : Prop :=
  argv.length ≤ MAXARG ∧ argBytes argv ≤ 4096 ∧ 4096 < argBytes argv + 8 * (argv.length + 2)

instance (argv : List CStr) : Decidable (Overfull argv) := by unfold Overfull; infer_instance

inductive ExecEnd (m : Machine) (roots free : List AddrT) (p : Fin NPROC)
    (read : Nat → Uint → Uint → Option (List Uchar)) (path : List Uchar) (argv : List CStr) :
    CInt → Machine → Prop
  | failed (m' : Machine) (unchanged : Unchanged m m' roots free)
      (tf : m'.tf = m.tf ∨ Overfull argv) : ExecEnd m roots free p read path argv (-1) m'
  | done (m' : Machine) (i : Nat) (name : Fs.Name) (elf : Elfhdr) (image : Nat → Uchar) (size : Nat)
      (found : Fs.resolve m.fs p path false = some (i, name))
      (header : headerRead (read i) = some elf)
      (loaded : SegmentsLoaded (read i) (elf.segments (read i)) (fun _ => 0) image 4096 size)
      (installed : Installed m' argv elf size image) : ExecEnd m roots free p read path argv 0 m'

section Fs

open Fs (FS Within)

variable {fs fs' : FS} {α : Type}

variable {exc : Stop → Prop} {post : α → Machine → Prop} {m : Machine} {call : Fs.FsM α}

theorem wp_onFs :
    wp (onFs call) m post exc ↔
      wp call m.fs (fun a fs => post a { m with fs := fs }) fun e => exc (.fs e) := wp_zoom

theorem wp_onLoad {call : LoadM α} :
    wp (onLoad call) m post exc ↔
      wp call ⟨m.mem, []⟩ (fun a l => post a { m with mem := l.mem }) fun e => exc (.vm e) := wp_zoom

variable {held : Multiset Fs.Handle} {locked : Finset (Fin NINODE)} {n : Nat}

theorem begin_op_counts (within : Within fs held locked fs') :
    wp Fs.begin_op fs' (fun _ t => Within fs held locked t ∧ t.outstanding = fs'.outstanding + 1)
      fun _ => True := ⟨within.withOutstanding _, rfl⟩

theorem end_op_counts (within : Within fs held locked fs') (outstanding : fs'.outstanding = n + 1) :
    wp Fs.end_op fs' (fun _ t => Within fs held locked t ∧ t.outstanding = n) fun _ => True :=
  ⟨within.withOutstanding _, Nat.sub_eq_of_eq_add outstanding⟩

theorem wp_kept {post : α → FS → Prop} (spec : wp call fs post fun _ => True)
    (keeps : Keeps FS.outstanding call) (outstanding : fs.outstanding = n) :
    wp call fs (fun a t => post a t ∧ t.outstanding = n) fun _ => True :=
  wp_mono (wp_and spec (keeps fs)) fun _ _ both => ⟨both.1, both.2.trans outstanding⟩

theorem leave_spec {b : Fin NINODE} {j : Nat} (consistent : Fs.Consistent fs)
    (within : Within fs {(b, j)} {b} m.fs) (outstanding : m.fs.outstanding = fs.outstanding + 1)
    {β : Type} {next : ExecM β} {post : β → Machine → Prop}
    (rest : ∀ fs', Within fs 0 ∅ fs' → fs'.outstanding = fs.outstanding →
      wp next { m with fs := fs' } post fun _ => True) :
    wp (do onFs (Fs.iunlockput b); onFs Fs.end_op; next) m post fun _ => True := by
  have anchored := consistent.tree.anchored consistent.quiet.settled 0 j
  rw [wp_bind, wp_onFs]
  refine wp_mono (wp_kept (Fs.iunlockput_only within anchored) (Fs.keeps_iunlockput b)
    outstanding) ?_
  rintro _ fs₁ ⟨within, outstanding⟩
  rw [wp_bind, wp_onFs]
  refine wp_mono (end_op_counts within outstanding) ?_
  rintro _ fs₂ ⟨within, outstanding⟩
  exact rest fs₂ within outstanding

end Fs

theorem unchanged_of_within {fs' : Fs.FS} {t : Memory} {tf : Trapframe}
    (within : Fs.Within m.fs 0 ∅ fs') (outstanding : fs'.outstanding = m.fs.outstanding)
    (restored : Restored m.mem t roots free) :
    Unchanged m { m with fs := fs', mem := t, tf := tf } roots free where
  pgdir := rfl
  sz := rfl
  name := rfl
  outstanding := outstanding
  refs a := by
    rw [within.ref, Fs.refsTo_zero, Nat.add_zero]
  inodes a inUse := within.kept a inUse
  restored := restored

section Whole

-- The elaborator is not to run the call.
attribute [local irreducible] setStack

theorem exec_spec (sane : Sane m roots free) (p : Fin NPROC)
    (read : Nat → Uint → Uint → Option (List Uchar)) (path : List Uchar) (argv : List CStr) :
    wp (exec p read path argv) m (ExecEnd m roots free p read path argv) fun _ => True := by
  obtain ⟨sound, distinct, root, usable, kernel, consistent⟩ := sane
  have ready := consistent.ready
  have failed : ∀ {fs' t}, Fs.Within m.fs 0 ∅ fs' → fs'.outstanding = m.fs.outstanding →
      Restored m.mem t roots free →
      ExecEnd m roots free p read path argv (-1) { m with fs := fs', mem := t } :=
    fun within outstanding restored =>
      .failed _ (unchanged_of_within within outstanding restored) (Or.inl rfl)
  rw [exec, wp_bind, wp_get, wp_bind, wp_onFs]
  refine wp_mono (begin_op_counts ready.quiet.within) ?_
  rintro _ fs₁ ⟨within, outstanding⟩
  rw [wp_bind, wp_onFs]
  refine wp_mono (wp_kept (Fs.namei_spec ready within p path) (Fs.keeps_namei p path) outstanding) ?_
  rintro (_ | b) fs₂ ⟨found, outstanding⟩
  · dsimp only
    rw [wp_bind, wp_onFs]
    refine wp_mono (end_op_counts found outstanding) ?_
    rintro _ fs₃ ⟨within, outstanding⟩
    exact failed within outstanding (Restored.refl sound)
  obtain ⟨j, name, -, within, resolved⟩ := found
  dsimp only
  rw [wp_bind, wp_onFs]
  refine wp_mono (wp_kept (Fs.ilock_only (fun _ _ => trivial) within fun _ => trivial)
    (Fs.keeps_ilock b) outstanding) ?_
  rintro _ fs₃ ⟨within, outstanding⟩
  have inum : (fs₃.icache b).inum = j := within.handle (b, j) (by simp)
  rw [wp_bind, wp_get, wp_bind, wp_onLoad]
  dsimp only
  rw [inum]
  have load : wp (readLoader (read j)).load ⟨m.mem, []⟩ (LoadEnd m.mem free (read j) True)
      fun _ => True := by
    refine load_spec (sound.drop (List.nil_subset _)) (fun _ => trivial) fun elf _ ph _ => ?_
    exact ⟨fun _ => ⟨trivial, first_not_usable kernel, trivial⟩, fun _ => trivial⟩
  refine wp_mono load ?_
  rintro result l (_ | loading | ⟨header, loading, loaded⟩)
  · change wp (do onFs (Fs.iunlockput b); onFs Fs.end_op; return -1) _ _ _
    refine leave_spec consistent within outstanding fun fs₄ within outstanding => ?_
    exact failed within outstanding (Restored.refl sound)
  · rename_i r _ _ _ _
    change wp (do onVm (freevm r); onFs (Fs.iunlockput b); onFs Fs.end_op; return -1) _ _ _
    rw [wp_bind, wp_onVm]
    refine wp_mono ((loading.apart sound usable kernel).freevm sound) fun _ t restored => ?_
    refine leave_spec consistent within outstanding fun fs₄ within outstanding => ?_
    exact failed within outstanding restored
  · refine leave_spec consistent within outstanding fun fs₄ within outstanding => ?_
    refine wp_mono (setStack_spec sound usable kernel distinct root loading) ?_
    rintro ret m' (⟨t, restored⟩ | ⟨t, rdi, rsi, restored, few, strings, beyond⟩ | ⟨_, -, installed⟩)
    · exact failed within outstanding restored
    · exact .failed _ (unchanged_of_within within outstanding restored)
        (Or.inr ⟨few, strings, beyond⟩)
    · exact .done m' j name _ _ _ resolved header loaded installed

end Whole

end Xv6Tracing.Exec
