import Mathlib.Tactic

/-!
# Tables of pointers

A table is a row of pointers to other tables.  `follow` goes from a root along a
path of indices.  When no table is met twice, a change of one entry is seen by the
paths through that entry and by no others.
-/

set_option autoImplicit false

namespace Xv6Tracing.Lib

universe u v

variable {P : Type u} {I : Type v} {child child' : P → I → Option P}

def follow (child : P → I → Option P) : P → List I → Option P
  | p, [] => some p
  | p, i :: rest => (child p i).bind fun q => follow child q rest

@[simp] theorem follow_nil (p : P) : follow child p [] = some p := rfl

theorem follow_append (p : P) (path rest : List I) :
    follow child p (path ++ rest) = (follow child p path).bind fun q => follow child q rest := by
  induction path generalizing p with
  | nil => rfl
  | cons i path ih =>
    simp only [List.cons_append, follow, Option.bind_assoc]
    cases child p i with
    | none => rfl
    | some q => exact ih q

theorem follow_snoc (p : P) (path : List I) (i : I) :
    follow child p (path ++ [i]) = (follow child p path).bind fun q => child q i := by
  rw [follow_append]
  congr 1
  funext q
  simp [follow]

theorem follow_append_none {p : P} {path rest : List I} (missing : follow child p path = none) :
    follow child p (path ++ rest) = none := by
  rw [follow_append, missing]
  rfl

theorem follow_congr {p : P} {path : List I}
    (agree : ∀ before i rest, path = before ++ i :: rest → ∀ table,
      follow child p before = some table → child' table i = child table i) :
    follow child' p path = follow child p path := by
  induction path using List.reverseRecOn with
  | nil => rfl
  | append_singleton path i ih =>
    have whole : follow child' p path = follow child p path := by
      apply ih
      intro before j rest split table found
      apply agree before j (rest ++ [i]) _ table found
      rw [split]
      simp
    rw [follow_snoc, follow_snoc, whole]
    cases found : follow child p path with
    | none => rfl
    | some table => exact agree path i [] rfl table found

/-- No two paths from the roots lead to one table, among the paths considered. -/
def Unaliased (child : P → I → Option P) (roots : List P) (Path : List I → Prop) : Prop :=
  ∀ r ∈ roots, ∀ r' ∈ roots, ∀ path path' p, Path path → Path path' →
    follow child r path = some p → follow child r' path' = some p → r = r' ∧ path = path'

section Change

variable {roots : List P} {Path : List I → Prop}

/-- One entry changes, and the rows of tables that no path goes through: a path
that does not go through the entry leads where it led. -/
theorem follow_other (closed : ∀ path i, Path (path ++ [i]) → Path path)
    (unaliased : Unaliased child roots Path) {r table : P} {path : List I} {i : I}
    (root : r ∈ roots) (valid : Path path) (here : follow child r path = some table)
    (same : ∀ p j, ¬ (p = table ∧ j = i) →
      (∃ r' ∈ roots, ∃ path', Path (path' ++ [j]) ∧ follow child r' path' = some p) →
        child' p j = child p j)
    {r' : P} {path' : List I} (root' : r' ∈ roots) (valid' : Path path')
    (apart : ¬ (r' = r ∧ (path ++ [i]) <+: path')) :
    follow child' r' path' = follow child r' path' := by
  apply follow_congr
  intro before j rest split p found
  have inner : Path (before ++ [j]) := by
    have cut : ∀ rest : List I, Path (before ++ [j] ++ rest) → Path (before ++ [j]) := by
      intro rest
      induction rest using List.reverseRecOn with
      | nil => simp
      | append_singleton rest k ih =>
        intro whole
        rw [← List.append_assoc] at whole
        exact ih (closed _ _ whole)
    apply cut rest
    simpa [split] using valid'
  apply same p j _ ⟨r', root', before, inner, found⟩
  rintro ⟨rfl, rfl⟩
  obtain ⟨rfl, rfl⟩ := unaliased r root r' root' path before p valid (closed _ _ inner) here found
  exact apart ⟨rfl, ⟨rest, by simp [split]⟩⟩

end Change

/-! ## The tables below a table -/

section Tree

/-- What lies below the entries `is` of a table, when `sub` lists what lies below
each table of the next level. -/
def below (child : P → I → Option P) (sub : P → List P) (table : P) (is : List I) : List P :=
  is.flatMap fun i => ((child table i).map sub).getD []

/-- A table with `n` levels below it, children first; `all` lists the indices. -/
def tree (child : P → I → Option P) (all : List I) : Nat → P → List P
  | 0 => fun p => [p]
  | n + 1 => fun p => below child (tree child all n) p all ++ [p]

/-- No table is met on two paths of at most `n` indices from `p`. -/
def Plain (child : P → I → Option P) (n : Nat) (p : P) : Prop :=
  ∀ path path' : List I, path.length ≤ n → path'.length ≤ n → ∀ q,
    follow child p path = some q → follow child p path' = some q → path = path'

variable {sub : P → List P} {table p q : P} {is all : List I} {n : Nat}

theorem mem_below : q ∈ below child sub table is ↔
    ∃ i ∈ is, ∃ p, child table i = some p ∧ q ∈ sub p := by
  simp only [below, List.mem_flatMap]
  apply exists_congr
  intro i
  apply and_congr Iff.rfl
  cases child table i with
  | none => simp
  | some q => simp

theorem follow_cons_of_entry {i : I} (entry : child table i = some p) (path : List I) :
    follow child table (i :: path) = follow child p path := by
  rw [follow, entry]
  rfl

theorem mem_tree (complete : ∀ i, i ∈ all) : q ∈ tree child all n p ↔
    ∃ path : List I, path.length ≤ n ∧ follow child p path = some q := by
  induction n generalizing p with
  | zero =>
    simp only [tree, List.mem_singleton, Nat.le_zero, List.length_eq_zero_iff, exists_eq_left,
      follow_nil, Option.some.injEq]
    exact eq_comm
  | succ n ih =>
    simp only [tree, List.mem_append, List.mem_singleton, mem_below, ih]
    constructor
    · rintro (⟨i, -, p', entry, path, short, found⟩ | rfl)
      · exact ⟨i :: path, Nat.succ_le_succ short, (follow_cons_of_entry entry path).trans found⟩
      · exact ⟨[], Nat.zero_le _, rfl⟩
    · rintro ⟨path, short, found⟩
      cases path with
      | nil => exact Or.inr (Option.some.inj found).symm
      | cons i path =>
        rw [follow, Option.bind_eq_some_iff] at found
        obtain ⟨p', entry, found⟩ := found
        exact Or.inl ⟨i, complete i, p', entry, path, Nat.le_of_succ_le_succ short, found⟩

theorem nodup_below (complete : ∀ i, i ∈ all) (nodup : is.Nodup)
    (once : ∀ i ∈ is, ∀ j ∈ is, ∀ path path' : List I, path.length ≤ n → path'.length ≤ n →
      ∀ q, follow child table (i :: path) = some q → follow child table (j :: path') = some q →
        i = j)
    (each : ∀ i ∈ is, ∀ p, child table i = some p → (tree child all n p).Nodup) :
    (below child (tree child all n) table is).Nodup := by
  rw [below, List.nodup_flatMap]
  constructor
  · intro i member
    cases entry : child table i with
    | none => simp
    | some p => simpa using each i member p entry
  · refine List.Nodup.pairwise_of_forall_ne nodup ?_
    intro i memberI j memberJ other
    rw [Function.onFun, List.disjoint_left]
    intro q inI inJ
    cases entryI : child table i with
    | none => simp [entryI] at inI
    | some pi =>
      cases entryJ : child table j with
      | none => simp [entryJ] at inJ
      | some pj =>
        rw [entryI, Option.map_some, Option.getD_some, mem_tree complete] at inI
        rw [entryJ, Option.map_some, Option.getD_some, mem_tree complete] at inJ
        obtain ⟨path, short, found⟩ := inI
        obtain ⟨path', short', found'⟩ := inJ
        exact other (once i memberI j memberJ path path' short short' q
          ((follow_cons_of_entry entryI path).trans found)
          ((follow_cons_of_entry entryJ path').trans found'))

theorem nodup_tree (complete : ∀ i, i ∈ all) (nodup : all.Nodup) (plain : Plain child n p) :
    (tree child all n p).Nodup := by
  induction n generalizing p with
  | zero => exact List.nodup_singleton p
  | succ n ih =>
    rw [tree, List.nodup_append']
    refine ⟨nodup_below complete nodup ?_ ?_, List.nodup_singleton p, ?_⟩
    · intro i _ j _ path path' short short' q found found'
      exact (List.cons.inj (plain (i :: path) (j :: path') (Nat.succ_le_succ short)
        (Nat.succ_le_succ short') q found found')).1
    · intro i _ p' entry
      apply ih
      intro path path' short short' q found found'
      exact (List.cons.inj (plain (i :: path) (i :: path') (Nat.succ_le_succ short)
        (Nat.succ_le_succ short') q ((follow_cons_of_entry entry path).trans found)
        ((follow_cons_of_entry entry path').trans found'))).2
    · intro q inBelow isTop
      rw [List.mem_singleton] at isTop
      subst isTop
      obtain ⟨i, -, p', entry, member⟩ := mem_below.mp inBelow
      obtain ⟨path, short, found⟩ := (mem_tree complete).mp member
      have same := plain (i :: path) [] (Nat.succ_le_succ short) (Nat.zero_le _) q
        ((follow_cons_of_entry entry path).trans found) rfl
      cases same

end Tree

end Xv6Tracing.Lib
