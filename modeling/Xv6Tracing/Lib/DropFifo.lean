import Mathlib.Tactic
import Mathlib.Data.List.Sort

/-!
# Bounded first-in first-out queues that drop the oldest item

A queue of fixed capacity that never refuses an item: when it is full, a new
item pushes the oldest one out.  Beside the waiting items the state keeps what
was delivered and what was dropped, so that a whole run can be accounted for.
-/

set_option autoImplicit false

namespace Xv6Tracing.Lib

universe u

structure DropFifo (α : Type u) where
  queue : List α
  delivered : List α
  dropped : List α
deriving DecidableEq, Repr

namespace DropFifo

variable {α : Type u}

def empty : DropFifo α := ⟨[], [], []⟩

def push (cap : Nat) (fifo : DropFifo α) (item : α) : DropFifo α :=
  { fifo with
    queue := (fifo.queue ++ [item]).drop (fifo.queue.length + 1 - cap)
    dropped := fifo.dropped ++ (fifo.queue ++ [item]).take (fifo.queue.length + 1 - cap) }

/-- Deliver the oldest `count` items, or all of them when there are fewer. -/
def pop (count : Nat) (fifo : DropFifo α) : DropFifo α :=
  { fifo with
    queue := fifo.queue.drop count
    delivered := fifo.delivered ++ fifo.queue.take count }

@[simp] theorem push_delivered (cap : Nat) (fifo : DropFifo α) (item : α) :
    (fifo.push cap item).delivered = fifo.delivered := rfl

@[simp] theorem pop_queue (count : Nat) (fifo : DropFifo α) :
    (fifo.pop count).queue = fifo.queue.drop count := rfl

@[simp] theorem pop_delivered (count : Nat) (fifo : DropFifo α) :
    (fifo.pop count).delivered = fifo.delivered ++ fifo.queue.take count := rfl

@[simp] theorem pop_dropped (count : Nat) (fifo : DropFifo α) :
    (fifo.pop count).dropped = fifo.dropped := rfl

theorem push_of_lt (cap : Nat) (fifo : DropFifo α) (item : α)
    (room : fifo.queue.length < cap) :
    fifo.push cap item = { fifo with queue := fifo.queue ++ [item] } := by
  have none : fifo.queue.length + 1 - cap = 0 := by omega
  simp [push, none]

theorem push_of_full (cap : Nat) (fifo : DropFifo α) (item oldest : α) (rest : List α)
    (shape : fifo.queue = oldest :: rest) (full : fifo.queue.length = cap) :
    fifo.push cap item =
      { fifo with queue := rest ++ [item], dropped := fifo.dropped ++ [oldest] } := by
  have one : fifo.queue.length + 1 - cap = 1 := by omega
  simp only [push, one]
  simp [shape]

/-! ## What a run accounts for -/

/-- `fifo` is a state reached after the items of `history` were pushed: the
waiting items are its end, and what came before them was dropped or delivered,
the delivered part in order. -/
structure Tracks (cap : Nat) (history : List α) (fifo : DropFifo α) : Prop where
  bounded : fifo.queue.length ≤ cap
  split : ∃ past, history = past ++ fifo.queue ∧
    fifo.delivered.Sublist past ∧ (fifo.dropped ++ fifo.delivered).Perm past

theorem tracks_empty (cap : Nat) : Tracks cap [] (empty : DropFifo α) :=
  ⟨by simp [empty], [], by simp [empty]⟩

variable {fifo : DropFifo α} {history : List α} {cap : Nat}

section

variable (tracks : Tracks cap history fifo)

include tracks

theorem Tracks.push (item : α) :
    Tracks cap (history ++ [item]) (fifo.push cap item) := by
  obtain ⟨bounded, past, historyEq, ordered, accounted⟩ := tracks
  refine ⟨?_, past ++ (fifo.queue ++ [item]).take (fifo.queue.length + 1 - cap), ?_, ?_, ?_⟩
  · simp only [DropFifo.push, List.length_drop, List.length_append, List.length_singleton]
    omega
  · rw [historyEq]
    simp only [DropFifo.push]
    rw [List.append_assoc past, List.append_assoc past, List.take_append_drop]
  · exact ordered.trans (List.sublist_append_left _ _)
  · simp only [DropFifo.push]
    refine List.Perm.trans ?_ (accounted.append_right _)
    rw [List.append_assoc, List.append_assoc]
    exact (List.perm_append_comm).append_left _

theorem Tracks.pop (count : Nat) :
    Tracks cap history (fifo.pop count) := by
  obtain ⟨bounded, past, historyEq, ordered, accounted⟩ := tracks
  refine ⟨?_, past ++ fifo.queue.take count, ?_, ?_, ?_⟩
  · simp only [pop_queue, List.length_drop]
    omega
  · rw [historyEq, pop_queue, List.append_assoc, List.take_append_drop]
  · exact ordered.append (List.Sublist.refl _)
  · simp only [pop_dropped, pop_delivered]
    rw [← List.append_assoc]
    exact accounted.append_right _

/-- Every item pushed is dropped, delivered or still waiting, and exactly one of these. -/
theorem Tracks.accounting :
    (fifo.dropped ++ fifo.delivered ++ fifo.queue).Perm history := by
  obtain ⟨_, past, historyEq, _, accounted⟩ := tracks
  rw [historyEq]
  exact accounted.append_right _

theorem Tracks.length_eq :
    history.length = fifo.dropped.length + fifo.delivered.length + fifo.queue.length := by
  rw [← tracks.accounting.length_eq]
  simp only [List.length_append]

/-- Delivered and waiting items stand in the order in which they were pushed. -/
theorem Tracks.in_order :
    (fifo.delivered ++ fifo.queue).Sublist history := by
  obtain ⟨_, past, historyEq, ordered, _⟩ := tracks
  rw [historyEq]
  exact ordered.append (List.Sublist.refl _)

theorem Tracks.queue_eq_drop :
    fifo.queue = history.drop (history.length - fifo.queue.length) := by
  obtain ⟨_, past, historyEq, _, _⟩ := tracks
  rw [historyEq]
  simp

end

end DropFifo

end Xv6Tracing.Lib
