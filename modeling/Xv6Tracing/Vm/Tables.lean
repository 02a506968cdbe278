import Xv6Tracing.Lib.Follow
import Xv6Tracing.Vm.Address

/-!
# Page tables as trees of pages

A page belongs to a page table when a path of indices leads to it from the root:
the root itself, the tables below it and the frames they map.  `Sound` says that
the tables share no page with each other, with the free list or with themselves;
the lemmas below say what each kind of write does to them.
-/

set_option autoImplicit false

namespace Xv6Tracing.Vm

open Lib

def child (s : Memory) (p : AddrT) (i : BitVec 9) : Option AddrT :=
  if s.page p i &&& PTE_P ≠ 0 then some (P2V (PTE_ADDR (s.page p i))) else none

def UserPath (path : List (BitVec 9)) : Prop :=
  path.length ≤ 4 ∧ ∀ i ∈ path.head?, i.toNat < 256

def Linked (page : AddrT → BitVec 9 → AddrT) : AddrT → List AddrT → Prop
  | p, [] => p = 0
  | p, q :: rest => p = q ∧ q ≠ 0 ∧ Linked page (page q 0) rest

def Owned (s : Memory) (roots : List AddrT) (p : AddrT) : Prop :=
  ∃ r ∈ roots, ∃ path, UserPath path ∧ follow (child s) r path = some p

def Table (s : Memory) (roots : List AddrT) (p : AddrT) : Prop :=
  ∃ r ∈ roots, ∃ path, UserPath path ∧ path.length ≤ 3 ∧ follow (child s) r path = some p

structure Sound (s : Memory) (roots free : List AddrT) : Prop where
  linked : Linked s.page s.freelist free
  nodup : free.Nodup
  usable : ∀ p ∈ free, Usable s.kend p
  tables : ∀ p, Table s roots p → Usable s.kend p
  unaliased : Unaliased (child s) roots UserPath
  apart : ∀ p, Owned s roots p → p ∉ free

variable {s t : Memory} {roots free : List AddrT} {r table p q : AddrT} {path : List (BitVec 9)}
  {i : BitVec 9}

/-! ## Paths -/

theorem userPath_nil : UserPath [] := ⟨by simp, by simp⟩

theorem UserPath.left {rest : List (BitVec 9)} (valid : UserPath (path ++ rest)) :
    UserPath path := by
  refine ⟨?_, ?_⟩
  · have := valid.1
    rw [List.length_append] at this
    omega
  · cases path with
    | nil => simp
    | cons j path => simpa using valid.2

def tablePath (va : AddrT) : List (BitVec 9) := [PMX va, PDPX va, PDX va]

theorem indexPath_eq (va : AddrT) : indexPath va = tablePath va ++ [PTX va] := rfl

variable {va : AddrT}

theorem userPath_indexPath (user : User va) : UserPath (indexPath va) :=
  ⟨by simp [indexPath], by simpa [indexPath] using PMX_lt user⟩

theorem userPath_tablePath (user : User va) : UserPath (tablePath va) := by
  have whole := userPath_indexPath user
  rw [indexPath_eq] at whole
  exact whole.left

theorem Table.owned (member : Table s roots p) : Owned s roots p := by
  obtain ⟨r, root, path, valid, -, found⟩ := member
  exact ⟨r, root, path, valid, found⟩

theorem child_congr {j : BitVec 9} (same : t.page p j = s.page p j) : child t p j = child s p j := by
  unfold child
  rw [same]

theorem child_eq_none (absent : s.page p i &&& PTE_P = 0) : child s p i = none :=
  if_neg (not_not.mpr absent)

theorem child_eq_some (present : s.page p i &&& PTE_P ≠ 0) :
    child s p i = some (P2V (PTE_ADDR (s.page p i))) := if_pos present

theorem child_pointer {flags : AddrT} (written : s.page p i = V2P q ||| flags) (aligned : Aligned q)
    (small : flags.toNat < 4096) (present : flags.getLsbD 0 = true) : child s p i = some q := by
  have bit : s.page p i &&& PTE_P ≠ 0 := by
    rw [written, present_iff, BitVec.getLsbD_or, present, Bool.or_true]
  rw [child_eq_some bit, written, P2V_PTE_ADDR_V2P aligned small]

/-! ## The free list -/

variable {head : AddrT} {l : List AddrT} {page : AddrT → BitVec 9 → AddrT}

theorem Linked.congr {page' : AddrT → BitVec 9 → AddrT}
    (linked : Linked page head l) (same : ∀ p ∈ l, page' p = page p) : Linked page' head l := by
  induction l generalizing head with
  | nil => exact linked
  | cons q rest ih => grind [Linked]

theorem Linked.unique {l' : List AddrT}
    (linked : Linked page head l) (linked' : Linked page head l') : l = l' := by
  induction l generalizing head l' with
  | nil =>
    cases l' with
    | nil => rfl
    | cons q rest => exact absurd (linked'.1.symm.trans linked) linked'.2.1
  | cons q rest ih =>
    cases l' with
    | nil => exact absurd (linked.1.symm.trans linked') linked.2.1
    | cons q' rest' =>
      obtain rfl : q = q' := linked.1.symm.trans linked'.1
      rw [ih linked.2.2 linked'.2.2]

/-- `kalloc` takes a page off the list; until it is put to use it belongs to nobody. -/
theorem Sound.take (sound : Sound s roots (q :: free)) :
    Sound { s with freelist := s.page q 0 } roots free where
  linked := sound.linked.2.2
  nodup := (List.nodup_cons.mp sound.nodup).2
  usable p member := sound.usable p (List.mem_cons_of_mem q member)
  tables := sound.tables
  unaliased := sound.unaliased
  apart p owned member := sound.apart p owned (List.mem_cons_of_mem q member)

theorem Sound.not_owned (sound : Sound s roots free) (member : p ∈ free) : ¬ Owned s roots p :=
  fun owned => sound.apart p owned member

/-! ## Pages that are no tables -/

theorem follow_of_tables (sound : ∀ p, Table s roots p → t.page p = s.page p)
    (root : r ∈ roots) (valid : UserPath path) :
    follow (child t) r path = follow (child s) r path := by
  apply follow_congr
  intro before j rest split p found
  have whole : UserPath (before ++ j :: rest) := split ▸ valid
  have short : before.length ≤ 3 := by
    have := whole.1
    simp only [List.length_append, List.length_cons] at this
    omega
  apply child_congr
  rw [sound p ⟨r, root, before, whole.left, short, found⟩]

def SamePaths (s t : Memory) (roots : List AddrT) : Prop :=
  ∀ r ∈ roots, ∀ path, UserPath path → follow (child t) r path = follow (child s) r path

theorem SamePaths.owned_iff (same : SamePaths s t roots) : Owned t roots p ↔ Owned s roots p := by
  constructor
  · rintro ⟨r, root, path, valid, found⟩
    exact ⟨r, root, path, valid, (same r root path valid).symm.trans found⟩
  · rintro ⟨r, root, path, valid, found⟩
    exact ⟨r, root, path, valid, (same r root path valid).trans found⟩

theorem SamePaths.table_iff (same : SamePaths s t roots) : Table t roots p ↔ Table s roots p := by
  constructor
  · rintro ⟨r, root, path, valid, short, found⟩
    exact ⟨r, root, path, valid, short, (same r root path valid).symm.trans found⟩
  · rintro ⟨r, root, path, valid, short, found⟩
    exact ⟨r, root, path, valid, short, (same r root path valid).trans found⟩

theorem samePaths_of_tables (same : ∀ p, Table s roots p → t.page p = s.page p) :
    SamePaths s t roots := fun _ root _ valid => follow_of_tables same root valid

theorem Sound.of_paths (sound : Sound s roots free) (same : SamePaths s t roots)
    (linked : Linked t.page t.freelist free) (kend : t.kend = s.kend) : Sound t roots free where
  linked := linked
  nodup := sound.nodup
  usable p member := kend ▸ sound.usable p member
  tables p member := kend ▸ sound.tables p (same.table_iff.mp member)
  unaliased := by
    intro r root r' root' path path' p valid valid' found found'
    rw [same r root path valid] at found
    rw [same r' root' path' valid'] at found'
    exact sound.unaliased r root r' root' path path' p valid valid' found found'
  apart p owned := sound.apart p (same.owned_iff.mp owned)

theorem Sound.keep (sound : Sound s roots free)
    (same : ∀ p, Table s roots p ∨ p ∈ free → t.page p = s.page p)
    (freelist : t.freelist = s.freelist) (kend : t.kend = s.kend) : Sound t roots free := by
  apply sound.of_paths (samePaths_of_tables fun p table => same p (Or.inl table)) _ kend
  rw [freelist]
  exact sound.linked.congr fun p member => same p (Or.inr member)

/-! ## Entries of tables -/

theorem follow_same (rows : ∀ p j, ¬ (p = table ∧ j = i) → t.page p j = s.page p j)
    (entry : child t table i = child s table i)
    {r' : AddrT} {path' : List (BitVec 9)} :
    follow (child t) r' path' = follow (child s) r' path' := by
  apply follow_congr
  intro before j rest _ p _
  by_cases changed : p = table ∧ j = i
  · obtain ⟨rfl, rfl⟩ := changed
    exact entry
  · exact child_congr (rows p j changed)

section Entry

variable {f : AddrT} (sound : Sound s roots free) (root : r ∈ roots)
  (valid : UserPath (path ++ [i])) (here : follow (child s) r path = some table)
  (rows : ∀ p j, ¬ (p = table ∧ j = i) → t.page p j = s.page p j)

include sound root valid here rows

variable {path' : List (BitVec 9)} {r' : AddrT}

theorem follow_entry_other (root' : r' ∈ roots)
    (valid' : UserPath path') (other : ¬ (r' = r ∧ (path ++ [i]) <+: path')) :
    follow (child t) r' path' = follow (child s) r' path' :=
  follow_other (fun _ _ => UserPath.left) sound.unaliased root valid.left here
    (fun p j changed _ => child_congr (rows p j changed)) root' valid' other

theorem follow_entry (tip : ∀ q, child t table i = some q → ∀ j,
      UserPath (path ++ [i] ++ [j]) → child t q j = none) (root' : r' ∈ roots) (valid' : UserPath path') :
    follow (child t) r' path' = some p ↔
      (¬ (r' = r ∧ (path ++ [i]) <+: path') ∧ follow (child s) r' path' = some p) ∨
        (r' = r ∧ path' = path ++ [i] ∧ child t table i = some p) := by
  by_cases through : r' = r ∧ (path ++ [i]) <+: path'
  · obtain ⟨rfl, rest, rfl⟩ := through
    have start : follow (child t) r' path = some table := by
      rw [follow_entry_other sound root valid here rows root' valid.left _, here]
      rintro ⟨-, whole⟩
      have := whole.length_le
      simp at this
    have last : follow (child t) r' (path ++ [i]) = child t table i := by
      rw [follow_snoc, start]
      rfl
    rw [follow_append, last]
    cases rest with
    | nil => simp
    | cons j rest =>
      have ended : ((child t table i).bind fun q => follow (child t) q (j :: rest)) = none := by
        rw [Option.bind_eq_none_iff]
        intro q entry
        have valid'' : UserPath (path ++ [i] ++ [j] ++ rest) := by simpa using valid'
        simp only [follow, tip q entry j valid''.left, Option.bind_none]
      simp [ended]
  · grind [follow_entry_other]

theorem follow_attach (empty : child s table i = none) (entry : child t table i = some q)
    (tip : ∀ j, UserPath (path ++ [i] ++ [j]) → child t q j = none) (root' : r' ∈ roots) (valid' : UserPath path') :
    follow (child t) r' path' = some p ↔
      follow (child s) r' path' = some p ∨ (r' = r ∧ path' = path ++ [i] ∧ p = q) := by
  have before : ∀ rest, follow (child s) r (path ++ [i] ++ rest) = none := by
    intro rest
    apply follow_append_none
    rw [follow_snoc, here]
    exact empty
  rw [follow_entry sound root valid here rows _ root' valid']
  · constructor
    · rintro (⟨-, found⟩ | ⟨same, ends, found⟩)
      · exact Or.inl found
      · exact Or.inr ⟨same, ends, Option.some.inj (found.symm.trans entry)⟩
    · rintro (found | ⟨same, ends, rfl⟩)
      · refine Or.inl ⟨?_, found⟩
        rintro ⟨rfl, rest, rfl⟩
        rw [before rest] at found
        cases found
      · exact Or.inr ⟨same, ends, entry⟩
  · intro q' entry' j
    rw [entry] at entry'
    cases entry'
    exact tip j

theorem follow_detach (leaf : path.length = 3) (entry : child t table i = none) (root' : r' ∈ roots) (valid' : UserPath path') :
    follow (child t) r' path' = some p ↔
      follow (child s) r' path' = some p ∧ ¬ (r' = r ∧ path' = path ++ [i]) := by
  have ends : (path ++ [i]) <+: path' ↔ path' = path ++ [i] := by
    constructor
    · rintro ⟨rest, rfl⟩
      have short := valid'.1
      simp only [List.length_append, List.length_cons, List.length_nil, leaf] at short
      have none_left : rest = [] := List.eq_nil_of_length_eq_zero (by omega)
      simp [none_left]
    · rintro rfl
      exact List.prefix_refl _
  rw [follow_entry sound root valid here rows _ root' valid', entry, ends]
  · simp [and_comm]
  · intro q' entry'
    rw [entry] at entry'
    cases entry'

theorem linked_entry (freelist : t.freelist = s.freelist) : Linked t.page t.freelist free := by
  rw [freelist]
  apply sound.linked.congr
  intro p member
  funext j
  apply rows p j
  rintro ⟨rfl, -⟩
  exact sound.apart p ⟨r, root, path, valid.left, here⟩ member

section

variable (empty : child s table i = none)

include empty

theorem owned_attach (entry : child t table i = some q)
    (tip : ∀ j, UserPath (path ++ [i] ++ [j]) → child t q j = none) :
    Owned t roots p ↔ Owned s roots p ∨ p = q := by
  constructor
  · rintro ⟨r', root', path', valid', found⟩
    rcases (follow_attach sound root valid here rows empty entry tip root' valid').mp found with
      found | ⟨-, -, rfl⟩
    · exact Or.inl ⟨r', root', path', valid', found⟩
    · exact Or.inr rfl
  · rintro (⟨r', root', path', valid', found⟩ | rfl)
    · exact ⟨r', root', path', valid',
        (follow_attach sound root valid here rows empty entry tip root' valid').mpr (Or.inl found)⟩
    · exact ⟨r, root, path ++ [i], valid,
        (follow_attach sound root valid here rows empty entry tip root valid).mpr
          (Or.inr ⟨rfl, rfl, rfl⟩)⟩

theorem table_attach (entry : child t table i = some q)
    (tip : ∀ j, UserPath (path ++ [i] ++ [j]) → child t q j = none)
    (member : Table t roots p) : Table s roots p ∨ (p = q ∧ path.length ≤ 2) := by
  obtain ⟨r', root', path', valid', short, found⟩ := member
  rcases (follow_attach sound root valid here rows empty entry tip root' valid').mp found with
    found | ⟨-, rfl, rfl⟩
  · exact Or.inl ⟨r', root', path', valid', short, found⟩
  · refine Or.inr ⟨rfl, ?_⟩
    rw [List.length_append, List.length_singleton] at short
    omega

theorem Sound.attach (entry : child t table i = some q)
    (tip : ∀ j, UserPath (path ++ [i] ++ [j]) → child t q j = none)
    (fresh : ¬ Owned s roots q) (absent : q ∉ free)
    (usable : path.length ≤ 2 → Usable s.kend q)
    (freelist : t.freelist = s.freelist) (kend : t.kend = s.kend) : Sound t roots free where
  linked := linked_entry sound root valid here rows freelist
  nodup := sound.nodup
  usable p member := kend ▸ sound.usable p member
  tables p member := by grind [table_attach, sound.tables]
  unaliased := by
    intro r₁ root₁ r₂ root₂ path₁ path₂ p valid₁ valid₂ found₁ found₂
    have seen₁ := (follow_attach sound root valid here rows empty entry tip root₁ valid₁).mp found₁
    have seen₂ := (follow_attach sound root valid here rows empty entry tip root₂ valid₂).mp found₂
    rcases seen₁ with old₁ | ⟨rfl, rfl, rfl⟩
    · rcases seen₂ with old₂ | ⟨rfl, rfl, rfl⟩
      · exact sound.unaliased r₁ root₁ r₂ root₂ path₁ path₂ p valid₁ valid₂ old₁ old₂
      · exact absurd ⟨r₁, root₁, path₁, valid₁, old₁⟩ fresh
    · rcases seen₂ with old₂ | ⟨rfl, rfl, -⟩
      · exact absurd ⟨r₂, root₂, path₂, valid₂, old₂⟩ fresh
      · exact ⟨rfl, rfl⟩
  apart p owned := by grind [owned_attach, sound.apart]

end

theorem owned_detach (leaf : path.length = 3) (before : child s table i = some f)
    (entry : child t table i = none) : Owned t roots p ↔ Owned s roots p ∧ p ≠ f := by
  have frame : follow (child s) r (path ++ [i]) = some f := by
    rw [follow_snoc, here]
    exact before
  constructor
  · rintro ⟨r', root', path', valid', found⟩
    obtain ⟨old, other⟩ := (follow_detach sound root valid here rows leaf entry root' valid').mp found
    refine ⟨⟨r', root', path', valid', old⟩, ?_⟩
    rintro rfl
    exact other (sound.unaliased r' root' r root path' (path ++ [i]) p valid' valid old frame)
  · rintro ⟨⟨r', root', path', valid', old⟩, other⟩
    refine ⟨r', root', path', valid',
      (follow_detach sound root valid here rows leaf entry root' valid').mpr ⟨old, ?_⟩⟩
    rintro ⟨rfl, rfl⟩
    exact other (Option.some.inj (old.symm.trans frame))

theorem Sound.detach (leaf : path.length = 3) (entry : child t table i = none)
    (freelist : t.freelist = s.freelist) (kend : t.kend = s.kend) : Sound t roots free where
  linked := linked_entry sound root valid here rows freelist
  nodup := sound.nodup
  usable p member := kend ▸ sound.usable p member
  tables p member := by
    rw [kend]
    obtain ⟨r', root', path', valid', short, found⟩ := member
    exact sound.tables p ⟨r', root', path', valid', short,
      ((follow_detach sound root valid here rows leaf entry root' valid').mp found).1⟩
  unaliased := by
    intro r₁ root₁ r₂ root₂ path₁ path₂ p valid₁ valid₂ found₁ found₂
    exact sound.unaliased r₁ root₁ r₂ root₂ path₁ path₂ p valid₁ valid₂
      ((follow_detach sound root valid here rows leaf entry root₁ valid₁).mp found₁).1
      ((follow_detach sound root valid here rows leaf entry root₂ valid₂).mp found₂).1
  apart p owned := by
    obtain ⟨r', root', path', valid', found⟩ := owned
    exact sound.apart p ⟨r', root', path', valid',
      ((follow_detach sound root valid here rows leaf entry root' valid').mp found).1⟩

end Entry

/-! ## The words of user pages -/

/-- The entry that maps `va`, 0 when a table is missing. -/
def pteWord (s : Memory) (r va : AddrT) : AddrT :=
  match follow (child s) r (tablePath va) with
  | some pgtab => s.page pgtab (PTX va)
  | none => 0

theorem follow_indexPath (va : AddrT) :
    follow (child s) r (indexPath va) =
      if pteWord s r va &&& PTE_P ≠ 0 then some (P2V (PTE_ADDR (pteWord s r va))) else none := by
  rw [indexPath_eq, follow_snoc, pteWord]
  cases follow (child s) r (tablePath va) with
  | none => exact (if_neg (not_not.mpr BitVec.zero_and)).symm
  | some pgtab => rfl

section Frame

variable {va : AddrT} (root : r ∈ roots) (user : User va)
  (present : pteWord s r va &&& PTE_P ≠ 0)

include root user present

theorem owned_frame : Owned s roots (P2V (PTE_ADDR (pteWord s r va))) :=
  ⟨r, root, indexPath va, userPath_indexPath user, by rw [follow_indexPath, if_pos present]⟩

theorem Sound.frame_not_table (sound : Sound s roots free) :
    ¬ Table s roots (P2V (PTE_ADDR (pteWord s r va))) := by
  rintro ⟨r', root', path, valid, short, found⟩
  have same := (sound.unaliased r' root' r root path (indexPath va) _ valid
    (userPath_indexPath user) found (by rw [follow_indexPath, if_pos present])).2
  rw [same] at short
  exact absurd short (by simp [indexPath])

end Frame

theorem pteWord_congr {va' : AddrT} (page : vpn va = vpn va') :
    pteWord s r va = pteWord s r va' := by
  have parts := indexPath_congr page
  simp only [indexPath, List.cons.injEq, and_true] at parts
  simp only [pteWord, tablePath, parts]

theorem pteWord_of_tables (same : ∀ p, Table s roots p → t.page p = s.page p) (root : r ∈ roots) (user : User va) : pteWord t r va = pteWord s r va := by
  unfold pteWord
  rw [follow_of_tables same root (userPath_tablePath user)]
  cases found : follow (child s) r (tablePath va) with
  | none => rfl
  | some pgtab =>
    have table : Table s roots pgtab :=
      ⟨r, root, tablePath va, userPath_tablePath user, le_refl 3, found⟩
    simp only [same pgtab table]

section Entry

variable (sound : Sound s roots free) (root : r ∈ roots)
  (valid : UserPath (path ++ [i])) (here : follow (child s) r path = some table)
  (rows : ∀ p j, ¬ (p = table ∧ j = i) → t.page p j = s.page p j)

include sound root valid here rows

variable {r' va : AddrT}

theorem pteWord_attach (upper : path.length ≤ 2) (empty : child s table i = none)
    (entry : child t table i = some q) (zero : ∀ j, t.page q j = 0) (root' : r' ∈ roots) (user : User va) :
    pteWord t r' va = pteWord s r' va := by
  have tip : ∀ j, UserPath (path ++ [i] ++ [j]) → child t q j = none := fun j _ =>
    child_eq_none (by rw [zero j]; rfl)
  have seen := fun p => follow_attach (p := p) sound root valid here rows empty entry tip root'
    (userPath_tablePath user)
  unfold pteWord
  cases found : follow (child t) r' (tablePath va) with
  | none =>
    cases before : follow (child s) r' (tablePath va) with
    | none => rfl
    | some pgtab =>
      rw [(seen pgtab).mpr (Or.inl before)] at found
      cases found
  | some pgtab =>
    rcases (seen pgtab).mp found with before | ⟨rfl, whole, rfl⟩
    · simp only [before]
      apply rows
      rintro ⟨rfl, -⟩
      have same := (sound.unaliased r root r' root' path (tablePath va) pgtab valid.left
        (userPath_tablePath user) here before).2
      rw [same] at upper
      simp [tablePath] at upper
    grind [follow_snoc]

theorem pteWord_leaf (leaf : path.length = 3) (root' : r' ∈ roots) (user : User va) :
    pteWord t r' va =
      if r' = r ∧ indexPath va = path ++ [i] then t.page table i else pteWord s r' va := by
  have seen : follow (child t) r' (tablePath va) = follow (child s) r' (tablePath va) := by
    apply follow_entry_other sound root valid here rows root' (userPath_tablePath user)
    rintro ⟨-, whole⟩
    have := whole.length_le
    simp [leaf, tablePath] at this
  unfold pteWord
  rw [seen]
  split_ifs with mapped
  · obtain ⟨rfl, whole⟩ := mapped
    rw [indexPath_eq] at whole
    obtain ⟨first, last⟩ := List.append_inj' whole rfl
    rw [first, here, (List.cons.inj last).1]
  · cases found : follow (child s) r' (tablePath va) with
    | none => rfl
    | some pgtab =>
      apply rows
      rintro ⟨rfl, last⟩
      obtain ⟨rfl, first⟩ := sound.unaliased r' root' r root (tablePath va) path pgtab
        (userPath_tablePath user) valid.left found here
      exact mapped ⟨rfl, by rw [indexPath_eq, first, last]⟩

end Entry

end Xv6Tracing.Vm
