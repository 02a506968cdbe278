import Mathlib.Tactic

/-!
# A cached block store

A store keeps a volatile view of every block beside the durable one.  The only
way to the durable side is to write a block through.  A crash keeps the durable
side and loses the view.  Copying blocks inside the store, one after the other,
is the shape of every pass of a redo log.
-/

set_option autoImplicit false

namespace Xv6Tracing.Lib

universe u v

structure Store (Addr : Type u) (Block : Type v) where
  cache : Addr → Block
  disk : Addr → Block

namespace Store

section Writes

variable {Addr : Type u} {Block : Type v} [DecidableEq Addr]

def put (s : Store Addr Block) (a : Addr) (value : Block) : Store Addr Block where
  cache := Function.update s.cache a value
  disk := Function.update s.disk a value

def boot (disk : Addr → Block) : Store Addr Block := ⟨disk, disk⟩

/-- Copy the block at `pair.1` to `pair.2`. -/
def copy (s : Store Addr Block) (pair : Addr × Addr) : Store Addr Block :=
  s.put pair.2 (s.cache pair.1)

def copies (s : Store Addr Block) (pairs : List (Addr × Addr)) : Store Addr Block :=
  pairs.foldl copy s

@[simp] theorem put_cache_self (s : Store Addr Block) (a : Addr) (value : Block) :
    (s.put a value).cache a = value := by simp [put]

@[simp] theorem put_disk_self (s : Store Addr Block) (a : Addr) (value : Block) :
    (s.put a value).disk a = value := by simp [put]

theorem put_cache_of_ne (s : Store Addr Block) {a b : Addr} (value : Block) (other : b ≠ a) :
    (s.put a value).cache b = s.cache b := by simp [put, other]

theorem put_disk_of_ne (s : Store Addr Block) {a b : Addr} (value : Block) (other : b ≠ a) :
    (s.put a value).disk b = s.disk b := by simp [put, other]

theorem copies_of_not_target (pairs : List (Addr × Addr)) (s : Store Addr Block) (b : Addr)
    (untouched : ∀ pair ∈ pairs, pair.2 ≠ b) :
    (s.copies pairs).cache b = s.cache b ∧ (s.copies pairs).disk b = s.disk b := by
  induction pairs generalizing s with
  | nil => exact ⟨rfl, rfl⟩
  | cons pair pairs ih =>
    have other : b ≠ pair.2 := (untouched pair List.mem_cons_self).symm
    obtain ⟨cacheEq, diskEq⟩ := ih (s.copy pair)
      fun later member => untouched later (List.mem_cons_of_mem _ member)
    exact ⟨cacheEq.trans (put_cache_of_ne s _ other), diskEq.trans (put_disk_of_ne s _ other)⟩

/-- When no block is both source and target and no target occurs twice, every
target ends up with the first contents of its source, on both sides. -/
theorem copies_target (pairs : List (Addr × Addr)) (s : Store Addr Block)
    (distinct : (pairs.map Prod.snd).Nodup)
    (apart : ∀ source ∈ pairs, ∀ target ∈ pairs, source.1 ≠ target.2)
    (pair : Addr × Addr) (member : pair ∈ pairs) :
    (s.copies pairs).cache pair.2 = s.cache pair.1 ∧
      (s.copies pairs).disk pair.2 = s.cache pair.1 := by
  induction pairs generalizing s with
  | nil => simp at member
  | cons first pairs ih =>
    rw [List.map_cons, List.nodup_cons] at distinct
    rcases List.mem_cons.mp member with rfl | later
    · -- The first target is not written again.
      have untouched : ∀ other ∈ pairs, other.2 ≠ pair.2 := by
        intro other otherMember same
        apply distinct.1
        rw [← same]
        exact List.mem_map_of_mem otherMember
      obtain ⟨cacheEq, diskEq⟩ := copies_of_not_target pairs (s.copy pair) pair.2 untouched
      exact ⟨cacheEq.trans (put_cache_self s _ _), diskEq.trans (put_disk_self s _ _)⟩
    · obtain ⟨cacheEq, diskEq⟩ := ih (s.copy first) distinct.2
        (fun source sourceMember target targetMember =>
          apart source (List.mem_cons_of_mem _ sourceMember) target
            (List.mem_cons_of_mem _ targetMember)) later
      have source : (s.copy first).cache pair.1 = s.cache pair.1 :=
        put_cache_of_ne s _ (apart pair member first List.mem_cons_self)
      exact ⟨cacheEq.trans source, diskEq.trans source⟩

end Writes

end Store

end Xv6Tracing.Lib
