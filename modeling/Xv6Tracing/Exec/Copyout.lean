import Xv6Tracing.Process.Growproc

/-!
# Copying to the pages of a table

`copyout` of `vm.c` on page tables in memory.  Each page is looked up with
`walkpgdir(pgdir, va0, 0)`, whose result `uva2ka` uses without a test.  The bytes go to
frames, and a frame is no table, so the lookups do not change while it runs.
-/

set_option autoImplicit false

namespace Xv6Tracing.Exec

open Lib Vm Growproc

/-! ## copyout -/

/-- `walkpgdir(pgdir, va, 0)`, as the content of the entry it points to. -/
def walked (s : Memory) (pgdir : AddrT) : Pgdir := fun va =>
  match walkpgdir pgdir va false s with
  | .ok (some (pgtab, i), t) => some (t.page pgtab i)
  | _ => none

/-- What stops a copy: a null pointer in `uva2ka`, or a loop without end. -/
inductive Fault where
  | nullPte | endless
deriving DecidableEq, Repr

abbrev CopyM (α : Type) : Type := Prog Memory Fault α

/-- The loop of `copyout`, one page for a unit of fuel. -/
def copyoutLoop (pgdir : AddrT) : Nat → AddrT → List Uchar → CopyM CInt
  | _, _, [] => return 0
  | 0, _, _ :: _ => throw .endless
  | fuel + 1, va, byte :: bytes => do
      let va0 := PGROUNDDOWN va
      let s ← get
      match uva2ka (walked s pgdir) va0 with
      | .fault => throw .nullPte
      | .null => return -1
      | .page pa0 => do
          let n := min (PGSIZE - (va - va0)).toNat (byte :: bytes).length
          set (s.setPage pa0 (storeAt (s.page pa0) (va - va0).toNat ((byte :: bytes).take n)))
          copyoutLoop pgdir fuel (va0 + PGSIZE) ((byte :: bytes).drop n)

def copyout (pgdir va : AddrT) (bytes : List Uchar) : CopyM CInt :=
  copyoutLoop pgdir bytes.length va bytes

/-! ## What a copy does -/

variable {s t : Memory} {roots free : List AddrT} {r va : AddrT} {bytes : List Uchar}

def Accessible (s : Memory) (r va : AddrT) : Prop :=
  User va ∧ Present s r va ∧ pteWord s r va &&& PTE_U ≠ 0

def userByte (s : Memory) (r va : AddrT) : Uchar := byteAt (s.page (frameOf s r va)) (va.toNat % 4096)

theorem walked_eq : walked s r va =
    (follow (child s) r (tablePath va)).map fun pgtab => s.page pgtab (PTX va) := by
  have walk : wp (walkpgdir r va false) s (fun res t =>
      res = (follow (child s) r (tablePath va)).map (fun pgtab => (pgtab, PTX va)) ∧ t = s)
      (fun _ => False) := wp_walkpgdir_false.mpr ⟨rfl, rfl⟩
  obtain ⟨res, t, done, rfl, rfl⟩ := exists_of_wp walk
  unfold walked
  rw [done]
  cases follow (child t) r (tablePath va) with
  | none => rfl
  | some pgtab => rfl

theorem walked_of_table {pgtab : AddrT} (table : follow (child s) r (tablePath va) = some pgtab) :
    walked s r va = some (pteWord s r va) := by
  rw [walked_eq, table, pteWord, table]
  rfl

theorem uva2ka_accessible (accessible : Accessible s r va) :
    uva2ka (walked s r) va = .page (frameOf s r va) := by
  obtain ⟨-, present, user⟩ := accessible
  unfold uva2ka
  cases table : follow (child s) r (tablePath va) with
  | none =>
    unfold Present pteWord at present
    rw [table] at present
    exact absurd BitVec.zero_and present
  | some pgtab =>
    rw [walked_of_table table]
    dsimp only
    rw [if_neg present, if_neg user]
    rfl

theorem uva2ka_refused (user : User va) (table : follow (child s) r (tablePath va) ≠ none)
    (refused : ¬ Accessible s r va) : uva2ka (walked s r) va = .null := by
  obtain ⟨pgtab, found⟩ := Option.ne_none_iff_exists'.mp table
  unfold uva2ka
  rw [walked_of_table found]
  dsimp only
  split
  · rfl
  · rename_i present
    rw [if_pos]
    by_contra other
    exact refused ⟨user, present, other⟩

theorem store_sound (sound : Sound s roots free) (root : r ∈ roots) (user : User va)
    (present : Present s r va) (row : BitVec 9 → AddrT) :
    Sound (s.setPage (frameOf s r va) row) roots free ∧
      ∀ p, Table s roots p → (s.setPage (frameOf s r va) row).page p = s.page p := by
  have tables : ∀ p, Table s roots p → (s.setPage (frameOf s r va) row).page p = s.page p := by
    intro p table
    rw [Memory.setPage_page, if_neg]
    rintro rfl
    exact sound.frame_not_table root user present table
  refine ⟨sound.keep ?_ rfl rfl, tables⟩
  rintro p (table | listed)
  · exact tables p table
  · rw [Memory.setPage_page, if_neg]
    rintro rfl
    exact sound.apart _ (owned_frame root user present) listed

theorem frameOf_inj (sound : Sound s roots free) (root : r ∈ roots) {va' : AddrT} (user : User va)
    (user' : User va') (present : Present s r va) (present' : Present s r va')
    (same : frameOf s r va = frameOf s r va') : vpn va = vpn va' := by
  have found : follow (child s) r (indexPath va) = some (frameOf s r va) := by
    exact (follow_indexPath va).trans (if_pos present)
  have found' : follow (child s) r (indexPath va') = some (frameOf s r va) := by
    rw [same]
    exact (follow_indexPath va').trans (if_pos present')
  have paths := (sound.unaliased r root r root _ _ _ (userPath_indexPath user)
    (userPath_indexPath user') found found').2
  exact (indexPath_inj user user').mp paths

def byteAddr (va : AddrT) (k : Nat) : AddrT := va + BitVec.ofNat 64 k

def Walkable (s : Memory) (r va : AddrT) (len : Nat) : Prop :=
  ∀ k < len, (∀ j < k, Accessible s r (byteAddr va j)) →
    User (byteAddr va k) ∧ follow (child s) r (tablePath (byteAddr va k)) ≠ none

structure Touched (s t : Memory) (r va : AddrT) (len : Nat) : Prop where
  pages : ∀ p, t.page p ≠ s.page p → ∃ k < len, Accessible s r (byteAddr va k) ∧ p = frameOf s r (byteAddr va k)
  consts : t.freelist = s.freelist ∧ t.kend = s.kend ∧ t.kpml4 = s.kpml4 ∧ t.kpdpt = s.kpdpt

/-- User memory holds the bytes at `va` and is as before otherwise. -/
def Holds (s t : Memory) (r va : AddrT) (bytes : List Uchar) : Prop :=
  ∀ va', User va' → Present s r va' → userByte t r va' =
    if va.toNat ≤ va'.toNat ∧ va'.toNat < va.toNat + bytes.length then
      bytes.getD (va'.toNat - va.toNat) 0
    else userByte s r va'

/-- How a copy ends: with 0 and all bytes, or with -1 at a page that is not accessible. -/
inductive Copied (s : Memory) (r va : AddrT) (bytes : List Uchar) : CInt → Memory → Prop
  | all (t : Memory) (pages : ∀ k < bytes.length, Accessible s r (byteAddr va k))
      (touched : Touched s t r va bytes.length) (holds : Holds s t r va bytes) :
      Copied s r va bytes 0 t
  | part (t : Memory) (k : Nat) (inside : k < bytes.length)
      (refused : ¬ Accessible s r (byteAddr va k)) (touched : Touched s t r va bytes.length) :
      Copied s r va bytes (-1) t

theorem byteAddr_zero (va : AddrT) : byteAddr va 0 = va := by
  simp [byteAddr]

theorem toNat_byteAddr {k : Nat} (room : va.toNat + k < 2 ^ 64) :
    (byteAddr va k).toNat = va.toNat + k := by
  rw [byteAddr, BitVec.toNat_add, BitVec.toNat_ofNat]
  omega

theorem walked_congr {va' : AddrT} (page : vpn va = vpn va') :
    walked s r va = walked s r va' := by
  have parts := indexPath_congr page
  simp only [indexPath, List.cons.injEq, and_true] at parts
  simp only [walked_eq, tablePath, parts]

/-- What is copied to a page: the bytes from `va` to its end at most. -/
theorem toNat_offset (va : AddrT) : (va - PGROUNDDOWN va).toNat = va.toNat % 4096 := by
  rw [sub_PGROUNDDOWN]
  exact toNat_low va

theorem toNat_room (va : AddrT) : (PGSIZE - (va - PGROUNDDOWN va)).toNat = 4096 - va.toNat % 4096 := by
  rw [BitVec.toNat_sub, toNat_offset, toNat_PGSIZE]
  omega

theorem toNat_nextPage (user : User va) :
    (PGROUNDDOWN va + PGSIZE).toNat = va.toNat / 4096 * 4096 + 4096 := by
  unfold User at user
  rw [toNat_add_PGSIZE (by rw [toNat_PGROUNDDOWN]; omega), toNat_PGROUNDDOWN]

theorem Touched.refl (s : Memory) (r va : AddrT) (len : Nat) : Touched s s r va len :=
  ⟨fun _ changed => absurd rfl changed, rfl, rfl, rfl, rfl⟩

theorem Holds.refl (s : Memory) (r va : AddrT) : Holds s s r va [] := by
  intro va' _ _
  rw [if_neg (by simp)]

theorem Copied.nil (s : Memory) (r va : AddrT) : Copied s r va [] 0 s :=
  .all s (by simp) (.refl s r va _) (.refl s r va)

/-! ## One page -/

section Page

variable {row : BitVec 9 → AddrT}

variable {va' : AddrT} {n : Nat}

section

variable (sound : Sound s roots free)

include sound

section

variable (root : r ∈ roots)

include root

theorem follow_tablePath_store (user : User va)
    (present : Present s r va) (user' : User va') :
    follow (child (s.setPage (frameOf s r va) row)) r (tablePath va') =
      follow (child s) r (tablePath va') :=
  follow_of_tables (store_sound sound root user present row).2 root (userPath_tablePath user')

theorem pteWord_store (user : User va)
    (present : Present s r va) (user' : User va') :
    pteWord (s.setPage (frameOf s r va) row) r va' = pteWord s r va' :=
  pteWord_of_tables (store_sound sound root user present row).2 root user'

theorem accessible_store (user : User va)
    (present : Present s r va) :
    Accessible (s.setPage (frameOf s r va) row) r va' ↔ Accessible s r va' := by
  unfold Accessible Present
  constructor
  · rintro ⟨user', rest⟩
    rw [pteWord_store sound root user present user'] at rest
    exact ⟨user', rest⟩
  · rintro ⟨user', rest⟩
    rw [pteWord_store sound root user present user']
    exact ⟨user', rest⟩

theorem frameOf_store (user : User va)
    (present : Present s r va) (user' : User va') :
    frameOf (s.setPage (frameOf s r va) row) r va' = frameOf s r va' := by
  rw [frameOf, pteWord_store sound root user present user', frameOf]

theorem userByte_store (user : User va)
    (present : Present s r va) (user' : User va') (present' : Present s r va') :
    userByte (s.setPage (frameOf s r va) row) r va' =
      if vpn va' = vpn va then byteAt row (va'.toNat % 4096) else userByte s r va' := by
  unfold userByte
  rw [frameOf_store sound root user present user', Memory.setPage_page]
  by_cases same : vpn va' = vpn va
  · have frame : frameOf s r va' = frameOf s r va := by
      rw [frameOf, pteWord_congr same, frameOf]
    rw [if_pos frame, if_pos same]
  · rw [if_neg same, if_neg]
    exact fun frame => same (frameOf_inj sound root user' user present' present frame)

end

end

theorem accessible_congr (accessible : Accessible s r va) (user' : User va')
    (page : vpn va' = vpn va) : Accessible s r va' ∧ frameOf s r va' = frameOf s r va := by
  obtain ⟨-, present, user⟩ := accessible
  unfold Accessible Present frameOf
  rw [pteWord_congr page]
  exact ⟨⟨user', present, user⟩, rfl⟩

theorem getD_take {i : Nat} (inside : i < n) : (bytes.take n).getD i 0 = bytes.getD i 0 := by
  rw [List.getD_eq_getElem?_getD, List.getElem?_take_of_lt inside, List.getD_eq_getElem?_getD]

theorem getD_drop {i : Nat} : (bytes.drop n).getD i 0 = bytes.getD (n + i) 0 := by
  rw [List.getD_eq_getElem?_getD, List.getElem?_drop, List.getD_eq_getElem?_getD]

theorem accessible_page (accessible : Accessible s r va) {j : Nat}
    (inside : va.toNat % 4096 + j < 4096) : Accessible s r (byteAddr va j) := by
  have bound : va.toNat < 2 ^ 47 := accessible.1
  have value : (byteAddr va j).toNat = va.toNat + j := toNat_byteAddr (by omega)
  refine (accessible_congr accessible ?_ ?_).1
  · unfold User
    omega
  · unfold vpn
    omega

theorem byteAddr_nextPage (user : User va) {j : Nat} (whole : n = 4096 - va.toNat % 4096) :
    byteAddr (PGROUNDDOWN va + PGSIZE) j = byteAddr va (n + j) := by
  have bound : va.toNat < 2 ^ 47 := user
  have next : PGROUNDDOWN va + PGSIZE = byteAddr va n := by
    refine BitVec.eq_of_toNat_eq ?_
    rw [toNat_nextPage user, toNat_byteAddr (by omega)]
    omega
  rw [next, byteAddr, byteAddr, byteAddr, BitVec.add_assoc, BitVec.ofNat_add]

theorem Walkable.nextPage (sound : Sound s roots free) (root : r ∈ roots)
    (accessible : Accessible s r va) {len : Nat} (walkable : Walkable s r va len)
    (count : n = min (4096 - va.toNat % 4096) len) :
    Walkable (s.setPage (frameOf s r va) row) r (PGROUNDDOWN va + PGSIZE) (len - n) := by
  intro k less before
  have ⟨user, present, _⟩ := accessible
  have later : ∀ j, n + j < len → byteAddr (PGROUNDDOWN va + PGSIZE) j = byteAddr va (n + j) :=
    fun j less => byteAddr_nextPage user (by omega)
  have reached := walkable (n + k) (by omega) fun j earlier => by
    by_cases first : j < n
    · exact accessible_page accessible (by omega)
    · have access := before (j - n) (by omega)
      rw [later _ (by omega), accessible_store sound root user present] at access
      rwa [show n + (j - n) = j by omega] at access
  rw [later k (by omega), follow_tablePath_store sound root user present reached.1]
  exact reached

/-- The bytes of the page that `va` is in, then the rest. -/
theorem Copied.page (sound : Sound s roots free) (root : r ∈ roots) (accessible : Accessible s r va)
    (nonempty : bytes ≠ []) (count : n = min (4096 - va.toNat % 4096) bytes.length)
    {ret : CInt}
    (row_eq : row = storeAt (s.page (frameOf s r va)) (va.toNat % 4096) (bytes.take n))
    (rest : Copied (s.setPage (frameOf s r va) row) r (PGROUNDDOWN va + PGSIZE) (bytes.drop n) ret t) :
    Copied s r va bytes ret t := by
  have ⟨user, present, _⟩ := accessible
  have start := toNat_nextPage user
  have bound : va.toNat < 2 ^ 47 := user
  have here : ∀ j < n, Accessible s r (byteAddr va j) :=
    fun j less => accessible_page accessible (by omega)
  have later : ∀ j, n + j < bytes.length →
      byteAddr (PGROUNDDOWN va + PGSIZE) j = byteAddr va (n + j) :=
    fun j less => byteAddr_nextPage user (by omega)
  have same : ∀ va', Accessible (s.setPage (frameOf s r va) row) r va' ↔ Accessible s r va' :=
    fun _ => accessible_store sound root user present
  have touches : Touched (s.setPage (frameOf s r va) row) t r (PGROUNDDOWN va + PGSIZE)
      (bytes.drop n).length → Touched s t r va bytes.length := by
    rintro ⟨pages, consts⟩
    refine ⟨fun p changed => ?_, consts⟩
    by_cases before : t.page p = (s.setPage (frameOf s r va) row).page p
    · rw [before, Memory.setPage_page] at changed
      refine ⟨0, List.length_pos_of_ne_nil nonempty, ?_⟩
      rw [byteAddr_zero]
      refine ⟨accessible, ?_⟩
      by_contra other
      exact changed (if_neg other)
    · obtain ⟨j, less, reached, frame⟩ := pages p before
      rw [List.length_drop] at less
      rw [later j (by omega)] at reached frame
      rw [same] at reached
      rw [frameOf_store sound root user present reached.1] at frame
      exact ⟨n + j, by omega, reached, frame⟩
  cases rest with
  | all t pages touched holds =>
    refine .all t (fun k less => ?_) (touches touched) fun va' user' present' => ?_
    · by_cases first : k < n
      · exact here k first
      · have reached := pages (k - n) (by rw [List.length_drop]; omega)
        rw [later _ (by omega), same] at reached
        rwa [show n + (k - n) = k by omega] at reached
    · have stored : Present (s.setPage (frameOf s r va) row) r va' := by
        unfold Present
        rw [pteWord_store sound root user present user']
        exact present'
      rw [holds va' user' stored, start, List.length_drop,
        userByte_store sound root user present user' present', row_eq,
        byteAt_storeAt (by omega), List.length_take]
      by_cases page : vpn va' = vpn va
      · have old : byteAt (s.page (frameOf s r va)) (va'.toNat % 4096) = userByte s r va' := by
          unfold userByte frameOf
          rw [pteWord_congr page]
        unfold vpn at page
        rw [if_neg (by omega), if_pos (by exact page), old]
        by_cases inside : va.toNat ≤ va'.toNat ∧ va'.toNat < va.toNat + bytes.length
        · rw [if_pos (by omega), if_pos inside, getD_take (by omega),
            show va'.toNat % 4096 - va.toNat % 4096 = va'.toNat - va.toNat by omega]
        · rw [if_neg (by omega), if_neg inside]
      · rw [if_neg page]
        unfold vpn at page
        by_cases inside : va.toNat ≤ va'.toNat ∧ va'.toNat < va.toNat + bytes.length
        · rw [if_pos (by omega), if_pos inside, getD_drop,
            show n + (va'.toNat - (va.toNat / 4096 * 4096 + 4096)) = va'.toNat - va.toNat by omega]
        · rw [if_neg (by omega), if_neg inside]
  | part t k inside refused touched =>
    rw [List.length_drop] at inside
    refine .part t (n + k) (by omega) ?_ (touches touched)
    rw [later k (by omega), same] at refused
    exact refused

/-- A copy that comes to user pages only, each with its page table, ends. -/
theorem copyoutLoop_spec (root : r ∈ roots) : ∀ (fuel : Nat) (s : Memory) (va : AddrT)
    (bytes : List Uchar), Sound s roots free → bytes.length ≤ fuel → Walkable s r va bytes.length →
    wp (copyoutLoop r fuel va bytes) s (Copied s r va bytes) fun _ => False := by
  intro fuel
  induction fuel with
  | zero =>
    intro s va bytes _ enough _
    obtain rfl := List.eq_nil_of_length_eq_zero (Nat.le_zero.mp enough)
    exact Copied.nil s r va
  | succ fuel ih =>
    intro s va bytes sound enough walkable
    cases bytes with
    | nil => exact Copied.nil s r va
    | cons byte rest =>
      have first := walkable 0 (by simp) (by simp)
      rw [byteAddr_zero] at first
      obtain ⟨user, table⟩ := first
      have page : vpn (PGROUNDDOWN va) = vpn va := by
        rw [vpn, toNat_PGROUNDDOWN, vpn]
        omega
      have lookup : uva2ka (walked s r) (PGROUNDDOWN va) = uva2ka (walked s r) va := by
        unfold uva2ka
        rw [walked_congr page]
      unfold copyoutLoop
      rw [wp_bind, wp_get]
      dsimp only
      rw [lookup]
      by_cases accessible : Accessible s r va
      · rw [uva2ka_accessible accessible]
        dsimp only
        rw [wp_bind, wp_set, toNat_offset, toNat_room]
        generalize count : min (4096 - va.toNat % 4096) (byte :: rest).length = n
        have after := store_sound sound root user accessible.2.1
          (storeAt (s.page (frameOf s r va)) (va.toNat % 4096) ((byte :: rest).take n))
        refine wp_mono (ih _ _ _ after.1 ?_ ?_) fun ret t copied =>
          copied.page sound root accessible (List.cons_ne_nil _ _) count.symm rfl
        · rw [List.length_drop]
          simp only [List.length_cons] at enough count ⊢
          omega
        · rw [List.length_drop]
          exact walkable.nextPage sound root accessible count.symm
      · rw [uva2ka_refused user table accessible]
        refine .part s 0 (by simp) ?_ (.refl s r va _)
        rwa [byteAddr_zero]

end Page

/-! ## Tables that the kernel builds -/

section Sample

attribute [local irreducible] copyout

def eightBytes : List Uchar := [1, 2, 3, 4, 5, 6, 7, 8]

theorem walkable_sample {va : AddrT} (near : ∀ k < eightBytes.length,
      (byteAddr va k).toNat < 2 ^ 47 ∧ tablePath (byteAddr va k) = tablePath 0x1000) :
    Walkable sampleEnd tenPagesTable.1 va eightBytes.length := by
  intro k less _
  have table : follow (child sampleEnd) tenPagesTable.1 (tablePath 0x1000) ≠ none := by
    decide +kernel
  obtain ⟨user, path⟩ := near k less
  rw [path]
  exact ⟨user, table⟩

end Sample

end Xv6Tracing.Exec
