import Xv6Tracing.Params

/-!
# The matcher of `grep`

`match`, `matchhere` and `matchstar` of `grep.c`.  A string is the list of its bytes, so
that `*text == '\0'` says that the list is empty.
-/

set_option autoImplicit false

namespace Xv6Tracing.Grep

def ascii (c : Char) : Uchar := BitVec.ofNat 8 c.toNat

/-- `matchstar(c, re, text)`, where `here` is `matchhere(re, ·)`. -/
def matchstar (here : List Uchar → Bool) (c : Uchar) : List Uchar → Bool
  | [] => here []
  | t :: text =>
    here (t :: text) || (decide (t = c ∨ c = ascii '.') && matchstar here c text)

/-- `*text!='\0' && (c=='.' || c==*text)`, and then `here` of the rest. -/
def matchone (here : List Uchar → Bool) (c : Uchar) : List Uchar → Bool
  | [] => false
  | t :: text => decide (c = ascii '.' ∨ c = t) && here text

def matchhere : List Uchar → List Uchar → Bool
  | [], _ => true
  | [c], text => if c = ascii '$' then text.isEmpty else matchone (matchhere []) c text
  | c :: d :: re, text =>
    if d = ascii '*' then matchstar (matchhere re) c text
    else matchone (matchhere (d :: re)) c text

def matchany (re : List Uchar) : List Uchar → Bool
  | [] => matchhere re []
  | t :: text => matchhere re (t :: text) || matchany re text

def «match» (re text : List Uchar) : Bool :=
  if re.head? = some (ascii '^') then matchhere re.tail text else matchany re text

/-! ## What a pattern stands for -/

inductive Item where
  | char (c : Uchar)
  | any
  | star (c : Uchar)
  | eol

def single (c : Uchar) : Item := if c = ascii '.' then .any else .char c

def items : List Uchar → List Item
  | [] => []
  | [c] => if c = ascii '$' then [.eol] else [single c]
  | c :: d :: re => if d = ascii '*' then .star c :: items re else single c :: items (d :: re)

/-- The items match `mid`, when `post` is what follows it in the text. -/
def Denotes : List Item → (mid post : List Uchar) → Prop
  | [], mid, _ => mid = []
  | .char c :: rest, mid, post => ∃ tail, mid = c :: tail ∧ Denotes rest tail post
  | .any :: rest, mid, post => ∃ c tail, mid = c :: tail ∧ Denotes rest tail post
  | .star c :: rest, mid, post =>
    ∃ u v, mid = u ++ v ∧ (c = ascii '.' ∨ ∀ x ∈ u, x = c) ∧ Denotes rest v post
  | .eol :: rest, mid, post => mid ++ post = [] ∧ Denotes rest mid post

/-- Some part of the text matches, the first one if the pattern starts with `^`. -/
def Matches (re text : List Uchar) : Prop :=
  ∃ pre mid post, text = pre ++ mid ++ post ∧
    if re.head? = some (ascii '^') then pre = [] ∧ Denotes (items re.tail) mid post
    else Denotes (items re) mid post

/-! ## The matcher is correct -/

theorem matchstar_iff (here : List Uchar → Bool) (c : Uchar) (text : List Uchar) :
    matchstar here c text = true ↔
      ∃ u v, text = u ++ v ∧ (c = ascii '.' ∨ ∀ x ∈ u, x = c) ∧ here v = true := by
  induction text with
  | nil =>
    constructor
    · intro found
      exact ⟨[], [], rfl, Or.inr nofun, found⟩
    · rintro ⟨u, v, split, -, found⟩
      obtain ⟨rfl, rfl⟩ := List.append_eq_nil_iff.mp split.symm
      exact found
  | cons t text ih =>
    rw [matchstar, Bool.or_eq_true, Bool.and_eq_true, decide_eq_true_eq, ih]
    constructor
    · rintro (found | ⟨first, u, v, rfl, all, found⟩)
      · exact ⟨[], t :: text, rfl, Or.inr nofun, found⟩
      · refine ⟨t :: u, v, rfl, ?_, found⟩
        rcases first with rfl | dot
        · exact all.imp id fun same => List.forall_mem_cons.mpr ⟨rfl, same⟩
        · exact Or.inl dot
    · rintro ⟨u, v, split, all, found⟩
      cases u with
      | nil =>
        left
        rw [split]
        exact found
      | cons x u =>
        cases split
        right
        rcases all with dot | same
        · exact ⟨Or.inr dot, u, v, rfl, Or.inl dot, found⟩
        · obtain ⟨first, rest⟩ := List.forall_mem_cons.mp same
          exact ⟨Or.inl first, u, v, rfl, Or.inr rest, found⟩

def Starts (rest : List Item) (text : List Uchar) : Prop :=
  ∃ mid post, text = mid ++ post ∧ Denotes rest mid post

theorem matchone_iff {here : List Uchar → Bool} {rest : List Item}
    (correct : ∀ text, here text = true ↔ Starts rest text) (c : Uchar) (text : List Uchar) :
    matchone here c text = true ↔ Starts (single c :: rest) text := by
  have one : Starts (single c :: rest) text ↔
      ∃ t tail, text = t :: tail ∧ (c = ascii '.' ∨ c = t) ∧ Starts rest tail := by
    unfold single
    split
    · rename_i dot
      constructor
      · rintro ⟨mid, post, rfl, t, tail, rfl, denotes⟩
        exact ⟨t, tail ++ post, rfl, Or.inl dot, tail, post, rfl, denotes⟩
      · rintro ⟨t, _, rfl, -, mid, post, rfl, denotes⟩
        exact ⟨t :: mid, post, rfl, t, mid, rfl, denotes⟩
    · rename_i other
      constructor
      · rintro ⟨mid, post, rfl, tail, rfl, denotes⟩
        exact ⟨c, tail ++ post, rfl, Or.inr rfl, tail, post, rfl, denotes⟩
      · rintro ⟨t, _, rfl, same, mid, post, rfl, denotes⟩
        cases same.resolve_left other
        exact ⟨c :: mid, post, rfl, mid, rfl, denotes⟩
  rw [one]
  cases text with
  | nil => simp [matchone]
  | cons t text =>
    rw [matchone, Bool.and_eq_true, decide_eq_true_eq, correct]
    constructor
    · intro both
      exact ⟨t, text, rfl, both⟩
    · rintro ⟨_, _, same, both⟩
      cases same
      exact both

theorem matchhere_iff : ∀ re text : List Uchar,
    matchhere re text = true ↔ Starts (items re) text
  | [], text => ⟨fun _ => ⟨[], text, rfl, rfl⟩, fun _ => rfl⟩
  | [c], text => by
    rw [matchhere, items]
    split
    · rw [List.isEmpty_iff]
      constructor
      · rintro rfl
        exact ⟨[], [], rfl, rfl, rfl⟩
      · rintro ⟨mid, post, rfl, last, -⟩
        exact last
    · exact matchone_iff (matchhere_iff []) c text
  | c :: d :: re, text => by
    rw [matchhere, items]
    split
    · rw [matchstar_iff]
      constructor
      · rintro ⟨u, v, rfl, all, found⟩
        obtain ⟨mid, post, rfl, denotes⟩ := (matchhere_iff re v).mp found
        exact ⟨u ++ mid, post, (List.append_assoc ..).symm, u, mid, rfl, all, denotes⟩
      · rintro ⟨_, post, rfl, u, v, rfl, all, denotes⟩
        exact ⟨u, v ++ post, List.append_assoc .., all,
          (matchhere_iff re _).mpr ⟨v, post, rfl, denotes⟩⟩
    · exact matchone_iff (matchhere_iff (d :: re)) c text

theorem matchany_iff (re text : List Uchar) :
    matchany re text = true ↔ ∃ pre rest, text = pre ++ rest ∧ Starts (items re) rest := by
  induction text with
  | nil =>
    rw [matchany, matchhere_iff]
    constructor
    · intro starts
      exact ⟨[], [], rfl, starts⟩
    · rintro ⟨pre, rest, split, starts⟩
      obtain ⟨-, rfl⟩ := List.append_eq_nil_iff.mp split.symm
      exact starts
  | cons t text ih =>
    rw [matchany, Bool.or_eq_true, matchhere_iff, ih]
    constructor
    · rintro (starts | ⟨pre, rest, rfl, starts⟩)
      · exact ⟨[], t :: text, rfl, starts⟩
      · exact ⟨t :: pre, rest, rfl, starts⟩
    · rintro ⟨pre, rest, split, starts⟩
      cases pre with
      | nil =>
        left
        rw [split]
        exact starts
      | cons x pre =>
        cases split
        exact Or.inr ⟨pre, rest, rfl, starts⟩

theorem match_correct (re text : List Uchar) : «match» re text = true ↔ Matches re text := by
  unfold «match» Matches
  split
  · rw [matchhere_iff]
    constructor
    · rintro ⟨mid, post, rfl, denotes⟩
      exact ⟨[], mid, post, rfl, rfl, denotes⟩
    · rintro ⟨_, mid, post, rfl, rfl, denotes⟩
      exact ⟨mid, post, rfl, denotes⟩
  · rw [matchany_iff]
    constructor
    · rintro ⟨pre, _, rfl, mid, post, rfl, denotes⟩
      exact ⟨pre, mid, post, (List.append_assoc ..).symm, denotes⟩
    · rintro ⟨pre, mid, post, rfl, denotes⟩
      exact ⟨pre, mid ++ post, List.append_assoc .., mid, post, rfl, denotes⟩

/-- `^a*b$` against `aab` and against `ba`. -/
example : «match» ("^a*b$".toList.map ascii) ("aab".toList.map ascii) = true ∧
    «match» ("^a*b$".toList.map ascii) ("ba".toList.map ascii) = false := by decide

end Xv6Tracing.Grep
