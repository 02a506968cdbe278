import Mathlib.Tactic

/-!
# Doubly linked rings

Nodes linked in both directions through a head.  A node is an `Option`: `none` is
the head, which carries no value.  `Ring links l` says that the list from the
head on is `l`, forwards and backwards.
-/

set_option autoImplicit false

namespace Xv6Tracing.Lib

open Function (update update_of_ne update_self)

universe u

variable {α : Type u}

structure Links (α : Type u) where
  next : Option α → Option α
  prev : Option α → Option α

def Links.empty : Links α := ⟨fun _ => none, fun _ => none⟩

section Operations

variable [DecidableEq α]

def Links.setNext (links : Links α) (x y : Option α) : Links α :=
  { links with next := Function.update links.next x y }

def Links.setPrev (links : Links α) (x y : Option α) : Links α :=
  { links with prev := Function.update links.prev x y }

/-- `b->next->prev = b->prev; b->prev->next = b->next` -/
def Links.unlink (links : Links α) (b : α) : Links α :=
  let links := links.setPrev (links.next (some b)) (links.prev (some b))
  links.setNext (links.prev (some b)) (links.next (some b))

/-- `b->next = head.next; b->prev = &head; head.next->prev = b; head.next = b` -/
def Links.pushFront (links : Links α) (b : α) : Links α :=
  let links := links.setNext (some b) (links.next none)
  let links := links.setPrev (some b) none
  let links := links.setPrev (links.next none) (some b)
  links.setNext none (some b)

end Operations

structure Ring (links : Links α) (l : List α) : Prop where
  nodup : l.Nodup
  first : links.next none = l.head?
  last : links.prev none = l.getLast?
  inner : ∀ l₁ b l₂, l = l₁ ++ b :: l₂ →
    links.next (some b) = l₂.head? ∧ links.prev (some b) = l₁.getLast?

theorem ring_empty : Ring (Links.empty : Links α) [] where
  nodup := List.nodup_nil
  first := rfl
  last := rfl
  inner := by simp

/-! ## Walking along the links -/

def walk (link : Option α → Option α) : Nat → Option α → List α
  | 0, _ => []
  | _ + 1, none => []
  | fuel + 1, some b => b :: walk link fuel (link (some b))

variable {fuel : Nat} {l : List α} {links : Links α}

section

variable (ring : Ring links l)

include ring

theorem walk_next_after {l₁ l₂ : List α}
    (split : l = l₁ ++ l₂) (enough : l₂.length < fuel) :
    walk links.next fuel l₂.head? = l₂ := by
  induction l₂ generalizing l₁ fuel with
  | nil => cases fuel <;> rfl
  | cons b l₂ ih =>
    cases fuel with
    | zero => simp at enough
    | succ fuel =>
      have later : l = (l₁ ++ [b]) ++ l₂ := by simp [split]
      rw [List.head?_cons, walk, (ring.inner l₁ b l₂ split).1,
        ih later (by simpa using enough)]

theorem Ring.walk_next
    (enough : l.length < fuel) : walk links.next fuel (links.next none) = l := by
  rw [ring.first]
  exact walk_next_after ring (List.nil_append l).symm enough

theorem walk_prev_before {l₁ l₂ : List α}
    (split : l = l₁ ++ l₂) (enough : l₁.length < fuel) :
    walk links.prev fuel l₁.getLast? = l₁.reverse := by
  induction l₁ using List.reverseRecOn generalizing l₂ fuel with
  | nil => cases fuel <;> rfl
  | append_singleton l₁ b ih =>
    cases fuel with
    | zero => simp at enough
    | succ fuel =>
      have earlier : l = l₁ ++ b :: l₂ := by simp [split]
      rw [List.getLast?_concat, walk, (ring.inner l₁ b l₂ earlier).2,
        ih earlier (by simpa using enough), List.reverse_concat]

theorem Ring.walk_prev
    (enough : l.length < fuel) : walk links.prev fuel (links.prev none) = l.reverse := by
  rw [ring.last]
  exact walk_prev_before ring (List.append_nil l).symm enough

end

/-! ## Taking out and putting in front -/

section Operations

variable {b : α} {l : List α}

theorem head?_ne_of_not_mem (absent : b ∉ l) : l.head? ≠ some b := by
  intro same
  exact absent (List.mem_of_mem_head? same)

theorem getLast?_ne_of_not_mem (absent : b ∉ l) : l.getLast? ≠ some b := by
  intro same
  exact absent (List.mem_of_mem_getLast? same)

variable [DecidableEq α] {links : Links α}

theorem Ring.pushFront (ring : Ring links l) (absent : b ∉ l) :
    Ring (links.pushFront b) (b :: l) := by
  have next : (links.pushFront b).next =
      update (update links.next (some b) l.head?) none (some b) := by
    simp [Links.pushFront, Links.setNext, Links.setPrev, ring.first]
  have prev : (links.pushFront b).prev =
      update (update links.prev (some b) none) l.head? (some b) := by
    simp [Links.pushFront, Links.setNext, Links.setPrev, ring.first]
  have apart := head?_ne_of_not_mem absent
  constructor
  · exact List.nodup_cons.mpr ⟨absent, ring.nodup⟩
  · rw [next, update_self, List.head?_cons]
  · rw [prev]
    cases l with
    | nil => simp
    | cons c l => simp [ring.last]
  · intro l₁ c l₂ split
    rw [next, prev]
    cases l₁ with
    | nil =>
      obtain ⟨rfl, rfl⟩ : b = c ∧ l = l₂ := by simpa using split
      simp [Ne.symm apart]
    | cons d l₁ =>
      obtain ⟨rfl, rfl⟩ : b = d ∧ l = l₁ ++ c :: l₂ := by simpa using split
      obtain ⟨after, before⟩ := ring.inner l₁ c l₂ rfl
      have other : c ≠ b := by
        rintro rfl
        exact absent (by simp)
      cases l₁ with
      | nil => simp [other, after]
      | cons e l₁ =>
        have distinct : e ≠ c := by
          have := ring.nodup
          simp only [List.cons_append, List.nodup_cons, List.mem_append, List.mem_cons,
            not_or] at this
          exact this.1.2.1
        simp [other, after, before, Ne.symm distinct]

section Unlink

variable {l₁ l₂ : List α} {b : α}

omit [DecidableEq α] in
theorem Ring.not_mem (ring : Ring links (l₁ ++ b :: l₂)) : b ∉ l₁ ∧ b ∉ l₂ := by
  have := List.nodup_middle.mp ring.nodup
  simpa using (List.nodup_cons.mp this).1

section

variable (ring : Ring links (l₁ ++ b :: l₂))

include ring

theorem Ring.unlink_next :
    (links.unlink b).next = update links.next l₁.getLast? l₂.head? := by
  obtain ⟨after, before⟩ := ring.inner l₁ b l₂ rfl
  have apart := head?_ne_of_not_mem ring.not_mem.2
  simp [Links.unlink, Links.setNext, Links.setPrev, after, before, Ne.symm apart]

theorem Ring.unlink_prev :
    (links.unlink b).prev = update links.prev l₂.head? l₁.getLast? := by
  obtain ⟨after, before⟩ := ring.inner l₁ b l₂ rfl
  simp [Links.unlink, Links.setNext, Links.setPrev, after, before]

theorem Ring.unlink : Ring (links.unlink b) (l₁ ++ l₂) := by
  have nodup : (l₁ ++ l₂).Nodup := (List.nodup_cons.mp (List.nodup_middle.mp ring.nodup)).2
  have disjoint := (List.nodup_append'.mp nodup).2.2
  constructor
  · exact nodup
  · rw [ring.unlink_next]
    cases l₁ with
    | nil => simp
    | cons c l₁ =>
      rw [update_of_ne (Ne.symm (by simp)), ring.first]
      rfl
  · rw [ring.unlink_prev]
    cases l₂ with
    | nil => simp
    | cons c l₂ =>
      rw [update_of_ne (by simp), ring.last]
      simp
  · intro m₁ c m₂ split
    rw [ring.unlink_next, ring.unlink_prev]
    -- a node behind the gap, then one before it
    have behind : ∀ m, m₁ = l₁ ++ m → l₂ = m ++ c :: m₂ →
        update links.next l₁.getLast? l₂.head? (some c) = m₂.head? ∧
        update links.prev l₂.head? l₁.getLast? (some c) = m₁.getLast? := by
      rintro m rfl rfl
      obtain ⟨after, before⟩ := ring.inner (l₁ ++ b :: m) c m₂ (by simp)
      have absent : c ∉ l₁ := fun member => disjoint member (by simp)
      refine ⟨?_, ?_⟩
      · rw [update_of_ne (Ne.symm (getLast?_ne_of_not_mem absent)), after]
      · cases m with
        | nil => simp
        | cons d m =>
          have distinct : d ≠ c := by
            have := (List.nodup_append'.mp nodup).2.1
            simp only [List.cons_append, List.nodup_cons, List.mem_append, List.mem_cons,
              not_or] at this
            exact this.1.2.1
          rw [update_of_ne (by simpa using Ne.symm distinct), before]
          simp
    rcases List.append_eq_append_iff.mp split with ⟨m, front, back⟩ | ⟨m, front, back⟩
    · exact behind m front back
    · cases m with
      | nil => exact behind [] (by simpa using front.symm) (by simpa using back.symm)
      | cons d m =>
        obtain ⟨rfl, rfl⟩ : c = d ∧ m₂ = m ++ l₂ := by simpa using back
        subst front
        obtain ⟨after, before⟩ := ring.inner m₁ c (m ++ b :: l₂) (by simp)
        have absent : c ∉ l₂ := fun member => disjoint (by simp) member
        refine ⟨?_, ?_⟩
        · cases m using List.reverseRecOn with
          | nil => rw [List.getLast?_concat, update_self, List.nil_append]
          | append_singleton m e =>
            have distinct : c ≠ e := by
              have := (List.nodup_append'.mp (List.nodup_append'.mp nodup).1).2.1
              simp only [List.nodup_cons, List.mem_append, List.mem_singleton, not_or] at this
              exact this.1.2
            have last : (m₁ ++ c :: (m ++ [e])).getLast? = some e := by
              rw [← List.cons_append, ← List.append_assoc, List.getLast?_concat]
            rw [last, update_of_ne (by simpa using distinct), after]
            cases m <;> simp
        · rw [update_of_ne (Ne.symm (head?_ne_of_not_mem absent)), before]

end

end Unlink

end Operations

end Xv6Tracing.Lib
