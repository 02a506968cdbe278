import Xv6Tracing.Lib.Ownership
import Xv6Tracing.Volume.Layout

/-!
# The blocks of an inode

An inode has 141 places for block addresses: twelve direct ones, the indirect
block, and the 128 entries of that block.  They are numbered in this order, so
place 12 is the indirect block and place `13 + j` its entry `j`.
-/

set_option autoImplicit false

namespace Xv6Tracing.Volume

open Function (update update_of_ne update_self)

open Lib

/-! ## The indirect block -/

def indirectAt (data : Bytes) (j : Nat) : Uint := BitVec.ofNat 32 (ofLe (data.read (4 * j) 4))

/-- `a[j] = addr` -/
def putIndirect (data : Bytes) (j : Nat) (addr : Uint) : Bytes := data.write (4 * j) (ofUint addr)

theorem indirectAt_put_self (data : Bytes) (j : Nat) (addr : Uint) :
    indirectAt (putIndirect data j addr) j = addr := by
  have same : (data.write (4 * j) (ofUint addr)).read (4 * j) 4 = ofUint addr :=
    data.read_write_self (4 * j) (ofUint addr)
  rw [indirectAt, putIndirect, same]
  exact word_ofLe_leBytes addr (by norm_num)

theorem indirectAt_put_other (data : Bytes) {j l : Nat} (other : l ≠ j) (addr : Uint) :
    indirectAt (putIndirect data j addr) l = indirectAt data l := by
  rw [indirectAt, putIndirect, Bytes.read_write_apart _ (by rw [length_ofUint]; omega), indirectAt]

theorem indirectAt_zero (j : Nat) : indirectAt (fun _ => 0) j = 0 := by
  have zeros : Bytes.read (fun _ => 0) (4 * j) 4 = List.replicate 4 0 := by
    simp [Bytes.read, List.replicate]
  rw [indirectAt, zeros, ofLe_replicate_zero]
  rfl

/-! ## Addresses -/

/-- The index of the indirect block in `addrs`. -/
def indirect : Fin (NDIRECT + 1) := Fin.last NDIRECT

def NPLACES : Nat := NDIRECT + 1 + NINDIRECT

/-- The address in place `k`, 0 where there is none. -/
def Dinode.addr (d : Dinode) (disk : Disk) (k : Nat) : Nat :=
  if direct : k < NDIRECT + 1 then (d.addrs ⟨k, direct⟩).toNat
  else if d.addrs indirect = 0 then 0
  else (indirectAt (disk (d.addrs indirect).toNat) (k - (NDIRECT + 1))).toNat

/-- The place of the address of block `bn` of a file. -/
def placeOf (bn : Nat) : Nat := if bn < NDIRECT then bn else bn + 1

def Dinode.byte (d : Dinode) (disk : Disk) : Bytes :=
  fileByte BSIZE disk fun bn => d.addr disk (placeOf bn)

def Dinode.contents (d : Dinode) (disk : Disk) : List Uchar := (d.byte disk).read 0 d.size.toNat

theorem placeOf_ne_indirect (bn : Nat) : placeOf bn ≠ NDIRECT := by
  unfold placeOf
  split <;> omega

theorem placeOf_inj {bn bn' : Nat} (same : placeOf bn = placeOf bn') : bn = bn' := by
  unfold placeOf at same
  split at same <;> split at same <;> omega

theorem placeOf_lt {bn : Nat} (inRange : bn < MAXFILE) : placeOf bn < NPLACES := by
  unfold placeOf NPLACES
  unfold MAXFILE at inRange
  split <;> omega

namespace Dinode

variable (d : Dinode) {disk disk' : Disk}

theorem addr_direct {k : Nat} (direct : k < NDIRECT + 1) :
    d.addr disk k = (d.addrs ⟨k, direct⟩).toNat := dif_pos direct

theorem addr_indirect : d.addr disk NDIRECT = (d.addrs indirect).toNat :=
  d.addr_direct (Nat.lt_succ_self _)

variable {j : Nat}

theorem addr_entry (has : d.addrs indirect ≠ 0) :
    d.addr disk (NDIRECT + 1 + j) = (indirectAt (disk (d.addrs indirect).toNat) j).toNat := by
  rw [addr, dif_neg (by omega), if_neg has, Nat.add_sub_cancel_left]

theorem addr_none (without : d.addrs indirect = 0) :
    d.addr disk (NDIRECT + 1 + j) = 0 := by
  rw [addr, dif_neg (by omega), if_pos without]

theorem addr_congr {k : Nat} (same : d.addrs indirect ≠ 0 →
    disk' (d.addrs indirect).toNat = disk (d.addrs indirect).toNat) :
    d.addr disk' k = d.addr disk k := by
  by_cases has : d.addrs indirect = 0
  · simp only [addr, has, if_pos]
  · simp only [addr, same has]

theorem addr_empty (empty : ∀ k, d.addrs k = 0) (place : Nat) : d.addr disk place = 0 := by
  unfold addr
  split
  · rw [empty]
    rfl
  · rw [if_pos (empty _)]

theorem byte_addrs {d e : Dinode} (addrs : d.addrs = e.addrs) (disk : Disk) :
    d.byte disk = e.byte disk := by
  simp only [byte, addr, addrs]

/-- `ip->addrs[k] = b` -/
def setAddr (k : Fin (NDIRECT + 1)) (b : Uint) : Dinode :=
  { d with addrs := Function.update d.addrs k b }

@[simp] theorem setAddr_addrs (k : Fin (NDIRECT + 1)) (b : Uint) :
    (d.setAddr k b).addrs = update d.addrs k b := rfl

theorem addr_setAddr {k : Fin (NDIRECT + 1)} {b : Uint} (place : Nat)
    (blank : k = indirect → d.addrs indirect = 0 ∧ ∀ j, indirectAt (disk b.toNat) j = 0) :
    (d.setAddr k b).addr disk place = if place = k.val then b.toNat else d.addr disk place := by
  by_cases direct : place < NDIRECT + 1
  · rw [addr_direct _ direct, addr_direct _ direct, setAddr_addrs]
    by_cases here : place = k.val
    · subst here
      rw [if_pos rfl, update_self]
    · rw [if_neg here, update_of_ne (by rintro rfl; exact here rfl)]
  · have other : place ≠ k.val := by
      have small := k.isLt
      omega
    rw [if_neg other]
    obtain ⟨j, rfl⟩ := Nat.exists_eq_add_of_le (Nat.le_of_not_lt direct)
    by_cases table : k = indirect
    · obtain ⟨without, zero⟩ := blank table
      have now : (d.setAddr k b).addrs indirect = b := by
        rw [table, setAddr_addrs, update_self]
      rw [d.addr_none without]
      by_cases none : b = 0
      · exact addr_none _ (now.trans none)
      · rw [addr_entry _ (by rwa [now]), now, zero j]
        rfl
    · have kept : (d.setAddr k b).addrs indirect = d.addrs indirect :=
        update_of_ne (Ne.symm table) _ _
      by_cases without : d.addrs indirect = 0
      · rw [addr_none _ without, addr_none _ (by rwa [kept])]
      · rw [addr_entry _ without, addr_entry _ (by rwa [kept]), kept]

theorem addr_putIndirect {b : Uint} (place : Nat) (has : d.addrs indirect ≠ 0) :
    d.addr (update disk (d.addrs indirect).toNat
        (putIndirect (disk (d.addrs indirect).toNat) j b)) place =
      if place = NDIRECT + 1 + j then b.toNat else d.addr disk place := by
  by_cases direct : place < NDIRECT + 1
  · rw [if_neg (by omega), addr_direct _ direct, addr_direct _ direct]
  · obtain ⟨e, rfl⟩ := Nat.exists_eq_add_of_le (Nat.le_of_not_lt direct)
    rw [addr_entry _ has, addr_entry _ has, update_self]
    by_cases here : e = j
    · subst here
      rw [if_pos rfl, indirectAt_put_self]
    · rw [if_neg (by omega), indirectAt_put_other _ here]

end Dinode

/-! ## Who holds which block -/

section Holding

variable {n : Nat} {view view' : Nat → Dinode} {disk disk' : Disk}

/-- The block in place `x.2` of the allocated inode `x.1`, of `n` inodes. -/
def holding (n : Nat) (view : Nat → Dinode) (disk : Disk) (x : Nat × Nat) : Nat :=
  if x.1 < n ∧ (view x.1).type ≠ 0 ∧ x.2 < NPLACES then (view x.1).addr disk x.2 else 0

variable {i : Nat}

theorem holding_of {k : Nat} (exists_ : i < n) (allocated : (view i).type ≠ 0)
    (place : k < NPLACES) : holding n view disk (i, k) = (view i).addr disk k :=
  if_pos ⟨exists_, allocated, place⟩

theorem holding_free {k : Nat} (free : (view i).type = 0) : holding n view disk (i, k) = 0 :=
  if_neg fun allocated => allocated.2.1 free

theorem holding_indirect (exists_ : i < n) (allocated : (view i).type ≠ 0) :
    holding n view disk (i, NDIRECT) = ((view i).addrs indirect).toNat := by
  rw [holding_of exists_ allocated (by decide), Dinode.addr_indirect]

theorem toNat_ne_zero {x : Uint} (nonzero : x ≠ 0) : x.toNat ≠ 0 := by
  intro zero
  exact nonzero (BitVec.eq_of_toNat_eq zero)

theorem holding_congr (same : ∀ i, holding n view disk (i, NDIRECT) ≠ 0 →
    disk' (holding n view disk (i, NDIRECT)) = disk (holding n view disk (i, NDIRECT))) :
    holding n view disk' = holding n view disk := by
  funext x
  obtain ⟨i, k⟩ := x
  unfold holding
  split
  · rename_i valid
    have here := same i
    rw [holding_indirect valid.1 valid.2.1] at here
    exact Dinode.addr_congr _ fun has => here (toNat_ne_zero has)
  · rfl

theorem holding_view (types : ∀ i < n, (view' i).type = 0 ↔ (view i).type = 0)
    (addrs : ∀ i < n, (view i).type ≠ 0 → (view' i).addrs = (view i).addrs) :
    holding n view' disk = holding n view disk := by
  funext x
  unfold holding
  by_cases valid : x.1 < n ∧ (view x.1).type ≠ 0 ∧ x.2 < NPLACES
  · rw [if_pos valid, if_pos ⟨valid.1, mt (types x.1 valid.1).mp valid.2.1, valid.2.2⟩]
    simp only [Dinode.addr, addrs x.1 valid.1 valid.2.1]
  · rw [if_neg valid, if_neg]
    rintro ⟨exists_, allocated, place⟩
    exact valid ⟨exists_, mt (types x.1 exists_).mpr allocated, place⟩

theorem holding_new {d : Dinode} (free : (view i).type = 0) (empty : ∀ k, d.addrs k = 0) :
    holding n (update view i d) disk = holding n view disk := by
  funext x
  obtain ⟨j, k⟩ := x
  by_cases mine : j = i
  · subst mine
    rw [holding_free free, holding, update_self, Dinode.addr_empty _ empty, ite_self]
  · simp only [holding, update_of_ne mine]

theorem holding_assign {k : Fin (NDIRECT + 1)} {b : Uint} (exists_ : i < n)
    (allocated : (view i).type ≠ 0)
    (blank : k = indirect → (view i).addrs indirect = 0 ∧ ∀ j, indirectAt (disk b.toNat) j = 0) :
    holding n (update view i ((view i).setAddr k b)) disk =
      update (holding n view disk) (i, k.val) b.toNat := by
  funext x
  obtain ⟨l, place⟩ := x
  by_cases mine : l = i
  · subst mine
    by_cases valid : place < NPLACES
    · rw [holding_of exists_ (by rwa [update_self]) valid, update_self,
        Dinode.addr_setAddr _ _ blank]
      by_cases here : place = k.val
      · rw [if_pos here, here, update_self]
      · rw [if_neg here, update_of_ne (by simpa using here),
          holding_of exists_ allocated valid]
    · have invalid : ∀ v, holding n v disk (l, place) = 0 := fun v =>
        if_neg fun all => valid all.2.2
      have other : place ≠ k.val := by
        have small := k.isLt
        unfold NPLACES at valid
        omega
      rw [update_of_ne (by simpa using other), invalid, invalid]
  · rw [update_of_ne (by simp [mine])]
    simp only [holding, update_of_ne mine]

theorem holding_entry {j : Nat} {b : Uint} (exists_ : i < n) (allocated : (view i).type ≠ 0)
    (room : j < NINDIRECT) (has : (view i).addrs indirect ≠ 0)
    (apart : ∀ l ≠ i, holding n view disk (l, NDIRECT) ≠ ((view i).addrs indirect).toNat) :
    holding n view (update disk ((view i).addrs indirect).toNat
        (putIndirect (disk ((view i).addrs indirect).toNat) j b)) =
      update (holding n view disk) (i, NDIRECT + 1 + j) b.toNat := by
  funext x
  obtain ⟨l, place⟩ := x
  by_cases mine : l = i
  · subst mine
    by_cases valid : place < NPLACES
    · rw [holding_of exists_ allocated valid, Dinode.addr_putIndirect _ _ has]
      by_cases here : place = NDIRECT + 1 + j
      · rw [if_pos here, here, update_self]
      · rw [if_neg here, update_of_ne (by simpa using here),
          holding_of exists_ allocated valid]
    · have invalid : ∀ e, holding n view e (l, place) = 0 := fun e =>
        if_neg fun all => valid all.2.2
      have other : place ≠ NDIRECT + 1 + j := by
        unfold NPLACES at valid
        omega
      rw [update_of_ne (by simpa using other), invalid, invalid]
  · rw [update_of_ne (by simp [mine])]
    by_cases valid : l < n ∧ (view l).type ≠ 0 ∧ place < NPLACES
    · rw [holding_of valid.1 valid.2.1 valid.2.2, holding_of valid.1 valid.2.1 valid.2.2]
      have elsewhere := apart l mine
      rw [holding_indirect valid.1 valid.2.1] at elsewhere
      exact Dinode.addr_congr _ fun _ => update_of_ne elsewhere _ _
    · rw [holding, if_neg valid, holding, if_neg valid]

end Holding

end Xv6Tracing.Volume
