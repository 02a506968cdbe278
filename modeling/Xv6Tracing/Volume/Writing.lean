import Xv6Tracing.Volume.Blocks

/-!
# Writing a file block by block

What `writei` of the kernel and `iappend` of `mkfs` have in common: a block of the file
gets an address if it has none, part of the block is written, and so on.  The inodes are
given by a `view`, in which the inode being written may be ahead of its copy on disk.
-/

set_option autoImplicit false

namespace Xv6Tracing.Volume

open Function (update update_of_ne update_self)

open Lib

variable {n i : Nat} {view view' view'' : Nat → Dinode} {disk disk' disk'' : Disk}
  {used : Nat → Prop}

/-- The block of byte `p` of inode `i` has an address. -/
def Mapped (n : Nat) (view : Nat → Dinode) (disk : Disk) (i p : Nat) : Prop :=
  holding n view disk (i, placeOf (p / BSIZE)) ≠ 0

variable {p bn j off : Nat} {src : List Uchar}

theorem Mapped.valid (mapped : Mapped n view disk i p) :
    i < n ∧ (view i).type ≠ 0 ∧ placeOf (p / BSIZE) < NPLACES := by
  by_contra invalid
  exact mapped (if_neg invalid)

theorem Mapped.holding_eq (mapped : Mapped n view disk i p) :
    holding n view disk (i, placeOf (p / BSIZE)) = (view i).addr disk (placeOf (p / BSIZE)) :=
  if_pos mapped.valid

theorem holding_table (far : NDIRECT ≤ bn)
    (held : holding n view disk (i, placeOf bn) ≠ 0) : holding n view disk (i, NDIRECT) ≠ 0 := by
  obtain ⟨j, rfl⟩ := Nat.exists_eq_add_of_le far
  have place : placeOf (NDIRECT + j) = NDIRECT + 1 + j := by
    rw [placeOf, if_neg (by omega)]
    omega
  rw [place] at held
  have valid : i < n ∧ (view i).type ≠ 0 ∧ NDIRECT + 1 + j < NPLACES := by
    by_contra invalid
    exact held (if_neg invalid)
  rw [holding_of valid.1 valid.2.1 valid.2.2] at held
  rw [holding_indirect valid.1 valid.2.1]
  intro zero
  exact held (Dinode.addr_none _ (BitVec.eq_of_toNat_eq zero))

section Apart

variable (addrs : ∀ j < n, (view j).type ≠ 0 → (view' j).addrs = (view j).addrs)
  (same : ∀ x, holding n view disk x ≠ 0 →
    disk' (holding n view disk x) = disk (holding n view disk x))

include addrs same

theorem holding_apart (types : ∀ j < n, (view' j).type = 0 ↔ (view j).type = 0) :
    holding n view' disk' = holding n view disk := by
  rw [holding_view types addrs]
  exact holding_congr fun j => same (j, NDIRECT)

theorem byte_apart {j p : Nat} (mapped : Mapped n view disk j p) :
    (view' j).byte disk' p = (view j).byte disk p := by
  have valid := mapped.valid
  have table : ∀ place, (view j).addr disk' place = (view j).addr disk place := by
    intro place
    apply Dinode.addr_congr
    intro has
    have here : holding n view disk (j, NDIRECT) = ((view j).addrs indirect).toNat :=
      holding_indirect valid.1 valid.2.1
    rw [← here]
    apply same
    rw [here]
    exact toNat_ne_zero has
  rw [Dinode.byte_addrs (addrs j valid.1 valid.2.1)]
  unfold Dinode.byte
  simp only [table]
  apply fileByte_congr
  rw [← mapped.holding_eq]
  exact same _ mapped

end Apart

/-! ## New addresses -/

/-- Some of the given places of inode `i` have addresses now, of blank blocks; no other
address changed and no data block. -/
structure Grows (n i : Nat) (places : Nat → Prop) (view : Nat → Dinode) (disk : Disk)
    (view' : Nat → Dinode) (disk' : Disk) : Prop where
  others : ∀ j ≠ i, view' j = view j
  fields : view' i = { view i with addrs := (view' i).addrs }
  keep : ∀ x, holding n view disk x ≠ 0 → holding n view' disk' x = holding n view disk x
  fresh : ∀ x, holding n view disk x = 0 → holding n view' disk' x ≠ 0 → x.1 = i ∧ places x.2
  data : ∀ x, holding n view disk x ≠ 0 → x.2 ≠ NDIRECT →
    disk' (holding n view disk x) = disk (holding n view disk x)
  blank : ∀ x, holding n view disk x = 0 → holding n view' disk' x ≠ 0 → x.2 ≠ NDIRECT →
    disk' (holding n view' disk' x) = fun _ => 0

variable {places places' : Nat → Prop}

theorem Grows.refl : Grows n i places view disk view disk where
  others _ _ := rfl
  fields := rfl
  keep _ _ := rfl
  fresh _ zero nonzero := absurd zero nonzero
  data _ _ _ := rfl
  blank _ zero nonzero := absurd zero nonzero

theorem Grows.weaken (grows : Grows n i places view disk view' disk')
    (wider : ∀ k, places k → places' k) : Grows n i places' view disk view' disk' where
  others := grows.others
  fields := grows.fields
  keep := grows.keep
  fresh x zero nonzero := (grows.fresh x zero nonzero).imp_right (wider x.2)
  data := grows.data
  blank := grows.blank

theorem Grows.trans (first : Grows n i places view disk view' disk')
    (second : Grows n i places view' disk' view'' disk'') :
    Grows n i places view disk view'' disk'' where
  others j other := (second.others j other).trans (first.others j other)
  fields := by rw [second.fields, first.fields]
  keep x held := by
    have kept := first.keep x held
    rw [second.keep x (by rwa [kept]), kept]
  fresh x zero nonzero := by
    by_cases already : holding n view' disk' x = 0
    · exact second.fresh x already nonzero
    · exact first.fresh x zero already
  data x held place := by
    have kept := first.keep x held
    have later := second.data x (by rwa [kept]) place
    rw [kept] at later
    rw [later, first.data x held place]
  blank x zero nonzero place := by
    by_cases already : holding n view' disk' x = 0
    · exact second.blank x already nonzero place
    · rw [second.keep x already, second.data x already place, first.blank x zero already place]

theorem Grows.frame (same : ∀ x, holding n view disk x ≠ 0 →
    disk' (holding n view disk x) = disk (holding n view disk x)) :
    Grows n i places view disk view disk' := by
  have kept : holding n view disk' = holding n view disk :=
    holding_congr fun j => same (j, NDIRECT)
  have none : ∀ x, holding n view disk x = 0 → holding n view disk' x ≠ 0 → False := by
    intro x zero nonzero
    rw [kept] at nonzero
    exact nonzero zero
  exact ⟨fun _ _ => rfl, rfl, fun x _ => by rw [kept], fun x zero nonzero =>
    (none x zero nonzero).elim, fun x held _ => same x held, fun x zero nonzero =>
    (none x zero nonzero).elim⟩

theorem Grows.assign {k : Fin (NDIRECT + 1)} {b : Uint} (exists_ : i < n)
    (allocated : (view i).type ≠ 0) (without : (view i).addrs k = 0)
    (zero : disk b.toNat = fun _ => 0) :
    Grows n i (· = k.val) view disk (update view i ((view i).setAddr k b)) disk ∧
      holding n (update view i ((view i).setAddr k b)) disk =
        update (holding n view disk) (i, k.val) b.toNat := by
  have now : holding n (update view i ((view i).setAddr k b)) disk =
      update (holding n view disk) (i, k.val) b.toNat := by
    apply holding_assign exists_ allocated
    rintro rfl
    exact ⟨without, fun j => by rw [zero, indirectAt_zero]⟩
  have before : holding n view disk (i, k.val) = 0 := by
    have small := k.isLt
    rw [holding_of exists_ allocated (by unfold NPLACES; omega), Dinode.addr_direct _ small]
    exact congrArg BitVec.toNat without
  have here : ∀ x, holding n view disk x = 0 →
      holding n (update view i ((view i).setAddr k b)) disk x ≠ 0 → x = (i, k.val) := by
    intro x none nonzero
    by_contra other
    rw [now, update_of_ne other] at nonzero
    exact nonzero none
  refine ⟨⟨fun j other => update_of_ne other _ _, ?_, fun x held => ?_,
    fun x none nonzero => ?_, fun _ _ _ => rfl, fun x none nonzero place => ?_⟩, now⟩
  · rw [update_self]
    rfl
  · rw [now, update_of_ne (by rintro rfl; exact held before)]
  · have mine := here x none nonzero
    exact ⟨congrArg Prod.fst mine, congrArg Prod.snd mine⟩
  · rw [now, here x none nonzero, update_self, zero]

theorem Grows.entry {b : Uint} (owns : Owns (holding n view disk) used)
    (exists_ : i < n) (allocated : (view i).type ≠ 0) (room : j < NINDIRECT)
    (has : (view i).addrs indirect ≠ 0)
    (without : indirectAt (disk ((view i).addrs indirect).toNat) j = 0)
    (zero : disk b.toNat = fun _ => 0) (unused : ¬used b.toNat) :
    let table := ((view i).addrs indirect).toNat
    Grows n i (· = NDIRECT + 1 + j) view disk view
        (update disk table (putIndirect (disk table) j b)) ∧
      holding n view (update disk table (putIndirect (disk table) j b)) =
        update (holding n view disk) (i, NDIRECT + 1 + j) b.toNat := by
  intro table
  have here : holding n view disk (i, NDIRECT) = table := holding_indirect exists_ allocated
  have now : holding n view (update disk table (putIndirect (disk table) j b)) =
      update (holding n view disk) (i, NDIRECT + 1 + j) b.toNat := by
    apply holding_entry exists_ allocated room has
    intro l other same
    have held : holding n view disk (l, NDIRECT) ≠ 0 := by
      rw [same]
      exact toNat_ne_zero has
    exact other (Prod.mk.inj (owns.apart _ _ held (same.trans here.symm))).1
  have before : holding n view disk (i, NDIRECT + 1 + j) = 0 := by
    rw [holding_of exists_ allocated (by unfold NPLACES; omega), Dinode.addr_entry _ has, without]
    rfl
  have mine : ∀ x, holding n view disk x = 0 →
      holding n view (update disk table (putIndirect (disk table) j b)) x ≠ 0 →
      x = (i, NDIRECT + 1 + j) := by
    intro x none nonzero
    by_contra other
    rw [now, update_of_ne other] at nonzero
    exact nonzero none
  have inUse : used table := by
    rw [← here]
    apply owns.used_own
    rw [here]
    exact toNat_ne_zero has
  refine ⟨⟨fun _ _ => rfl, rfl, fun x held => ?_, fun x none nonzero => ?_, fun x held place => ?_,
    fun x none nonzero place => ?_⟩, now⟩
  · rw [now, update_of_ne (by rintro rfl; exact held before)]
  · have entry := mine x none nonzero
    exact ⟨congrArg Prod.fst entry, congrArg Prod.snd entry⟩
  · apply update_of_ne
    intro same
    have places := owns.apart x (i, NDIRECT) held (same.trans here.symm)
    exact place (congrArg Prod.snd places)
  · rw [now, mine x none nonzero, update_self,
      update_of_ne (by rintro same; exact unused (same ▸ inUse)), zero]

/-- The places that an address for block `bn` can take. -/
def Needs (bn k : Nat) : Prop := k = placeOf bn ∨ k = NDIRECT ∧ NDIRECT ≤ bn

/-- Block `bn` of inode `i` has an address now. -/
structure MapsBlock (n i bn : Nat) (view : Nat → Dinode) (disk : Disk) (view' : Nat → Dinode)
    (disk' : Disk) : Prop extends Grows n i (Needs bn) view disk view' disk' where
  mapped : holding n view' disk' (i, placeOf bn) ≠ 0

/-! ## Writing -/

/-- The bytes of `src` are in inode `i` from position `off` on, and every other byte
of every file is as before. -/
structure Wrote (n i off : Nat) (src : List Uchar) (view : Nat → Dinode) (disk : Disk)
    (view' : Nat → Dinode) (disk' : Disk) : Prop where
  others : ∀ j ≠ i, view' j = view j
  fields : view' i = { view i with addrs := (view' i).addrs }
  mapped : ∀ p, off ≤ p → p < off + src.length → Mapped n view' disk' i p
  keep : ∀ x, holding n view disk x ≠ 0 → holding n view' disk' x = holding n view disk x
  fresh : ∀ x, holding n view disk x = 0 → holding n view' disk' x ≠ 0 →
    x.1 = i ∧ ∃ p, off ≤ p ∧ p < off + src.length ∧
      (x.2 = placeOf (p / BSIZE) ∨ x.2 = NDIRECT ∧ NDIRECT ≤ p / BSIZE)
  elsewhere : ∀ j p, j ≠ i → Mapped n view disk j p → (view' j).byte disk' p = (view j).byte disk p
  written : ∀ p, Mapped n view disk i p ∨ off ≤ p ∧ p < off + src.length →
    (view' i).byte disk' p = ((view i).byte disk).write off src p
  blank : ∀ p, ¬Mapped n view disk i p → Mapped n view' disk' i p →
    ¬(off ≤ p ∧ p < off + src.length) → (view' i).byte disk' p = 0

theorem Wrote.mapped_of (wrote : Wrote n i off src view disk view' disk')
    (mapped : Mapped n view disk j p) : Mapped n view' disk' j p := by
  unfold Mapped
  rw [wrote.keep _ mapped]
  exact mapped

theorem Wrote.refl (off : Nat) : Wrote n i off [] view disk view disk where
  others _ _ := rfl
  fields := rfl
  mapped p above below := by
    simp only [List.length_nil] at below
    omega
  keep _ _ := rfl
  fresh _ zero nonzero := absurd zero nonzero
  elsewhere _ _ _ _ := rfl
  written p _ := by rw [Bytes.write_nil]
  blank _ unmapped mapped := absurd mapped unmapped

theorem Wrote.trans {src' : List Uchar} (first : Wrote n i off src view disk view' disk')
    (second : Wrote n i (off + src.length) src' view' disk' view'' disk'') :
    Wrote n i off (src ++ src') view disk view'' disk'' where
  others j other := (second.others j other).trans (first.others j other)
  fields := by rw [second.fields, first.fields]
  mapped p above below := by
    rw [List.length_append] at below
    by_cases early : p < off + src.length
    · exact second.mapped_of (first.mapped p above early)
    · exact second.mapped p (by omega) (by omega)
  keep x held := by
    have kept := first.keep x held
    rw [second.keep x (by rwa [kept]), kept]
  fresh x zero nonzero := by
    simp only [List.length_append]
    by_cases already : holding n view' disk' x = 0
    · obtain ⟨mine, p, above, below, place⟩ := second.fresh x already nonzero
      exact ⟨mine, p, by omega, by omega, place⟩
    · obtain ⟨mine, p, above, below, place⟩ := first.fresh x zero already
      exact ⟨mine, p, above, by omega, place⟩
  elsewhere j p other mapped :=
    (second.elsewhere j p other (first.mapped_of mapped)).trans (first.elsewhere j p other mapped)
  written p known := by
    rw [List.length_append] at known
    rw [← Bytes.write_append]
    by_cases late : off + src.length ≤ p ∧ p < off + src.length + src'.length
    · rw [second.written p (Or.inr late), Bytes.write_inside _ late.1 late.2,
        Bytes.write_inside _ late.1 late.2]
    · have early : Mapped n view disk i p ∨ off ≤ p ∧ p < off + src.length := by
        rcases known with mapped | range
        · exact Or.inl mapped
        · exact Or.inr (by omega)
      have now : Mapped n view' disk' i p := by
        rcases early with mapped | range
        · exact first.mapped_of mapped
        · exact first.mapped p range.1 range.2
      rw [second.written p (Or.inl now), Bytes.write_outside _ (by omega),
        Bytes.write_outside _ (by omega), first.written p early]
  blank p unmapped mapped outside := by
    rw [List.length_append] at outside
    by_cases already : Mapped n view' disk' i p
    · rw [second.written p (Or.inl already), Bytes.write_outside _ (by omega)]
      exact first.blank p unmapped already (by omega)
    · exact second.blank p already mapped (by omega)

theorem Wrote.append (wrote : Wrote n i off src view disk view' disk')
    (mapped : ∀ p < off, Mapped n view disk i p) :
    ((view' i).byte disk').read 0 (off + src.length) = ((view i).byte disk).read 0 off ++ src := by
  rw [Bytes.read_add]
  congr 1
  · apply Bytes.read_congr
    intro p below
    rw [Nat.zero_add, wrote.written p (Or.inl (mapped p below)), Bytes.write_outside _ (Or.inl below)]
  · rw [Nat.zero_add]
    refine Eq.trans (Bytes.read_congr fun j inside => ?_)
      (((view i).byte disk).read_write_self off src)
    exact wrote.written _ (Or.inr (by omega))

theorem Wrote.read_other
    (wrote : Wrote n i off src view disk view' disk') {len : Nat} (other : j ≠ i)
    (mapped : ∀ p < len, Mapped n view disk j p) :
    ((view' j).byte disk').read 0 len = ((view j).byte disk).read 0 len := by
  apply Bytes.read_congr
  intro p below
  rw [Nat.zero_add]
  exact wrote.elsewhere j p other (mapped p below)

/-! ## One block -/

section OneBlock

variable (owns : Owns (holding n view disk) used) {bn : Nat} {data : Bytes}

include owns

variable {j : Nat}

theorem holding_ne_indirect (table : holding n view disk (j, NDIRECT) ≠ 0) :
    holding n view disk (j, NDIRECT) ≠ holding n view disk (i, placeOf bn) := by
  intro same
  have places := owns.apart (j, NDIRECT) (i, placeOf bn) table same
  exact placeOf_ne_indirect bn (Prod.mk.inj places).2.symm

theorem holding_data :
    holding n view (update disk (holding n view disk (i, placeOf bn)) data) =
      holding n view disk := by
  apply holding_congr
  intro j table
  exact update_of_ne (holding_ne_indirect owns table) _ _

theorem addr_data (exists_ : j < n) (allocated : (view j).type ≠ 0) (place : Nat) :
    (view j).addr (update disk (holding n view disk (i, placeOf bn)) data) place =
      (view j).addr disk place := by
  apply Dinode.addr_congr
  intro table
  have here : holding n view disk (j, NDIRECT) = ((view j).addrs indirect).toNat :=
    holding_indirect exists_ allocated
  have nonzero : holding n view disk (j, NDIRECT) ≠ 0 := by
    rw [here]
    exact toNat_ne_zero table
  rw [← here]
  exact update_of_ne (holding_ne_indirect owns nonzero) _ _

theorem byte_data_self {off p : Nat} {src : List Uchar}
    (held : holding n view disk (i, placeOf bn) ≠ 0) (mapped : Mapped n view disk i p)
    (fits : off + src.length ≤ BSIZE) :
    (view i).byte (update disk (holding n view disk (i, placeOf bn))
        ((disk (holding n view disk (i, placeOf bn))).write off src)) p =
      ((view i).byte disk).write (bn * BSIZE + off) src p := by
  have valid := mapped.valid
  have here : holding n view disk (i, placeOf bn) = (view i).addr disk (placeOf bn) := by
    refine if_pos ⟨valid.1, valid.2.1, ?_⟩
    by_contra large
    exact held (if_neg fun all => large all.2.2)
  unfold Dinode.byte
  simp only [addr_data owns valid.1 valid.2.1]
  rw [here]
  apply fileByte_write fun bn => (view i).addr disk (placeOf bn)
  · decide
  · exact fits
  · intro other clash
    rw [← mapped.holding_eq] at clash
    exact other (placeOf_inj (Prod.mk.inj (owns.apart _ _ mapped (clash.trans here.symm))).2)

theorem byte_data_other {p : Nat} (other : j ≠ i) (mapped : Mapped n view disk j p) :
    (view j).byte (update disk (holding n view disk (i, placeOf bn)) data) p =
      (view j).byte disk p := by
  have valid := mapped.valid
  unfold Dinode.byte
  simp only [addr_data owns valid.1 valid.2.1]
  apply fileByte_congr
  apply update_of_ne
  intro clash
  rw [← mapped.holding_eq] at clash
  exact other (Prod.mk.inj (owns.apart _ _ mapped clash)).1

end OneBlock

theorem MapsBlock.mapped_of (maps : MapsBlock n i bn view disk view' disk')
    (mapped : Mapped n view disk j p) : Mapped n view' disk' j p := by
  unfold Mapped
  rw [maps.keep _ mapped]
  exact mapped

theorem MapsBlock.byte (maps : MapsBlock n i bn view disk view' disk')
    (mapped : Mapped n view disk j p) : (view' j).byte disk' p = (view j).byte disk p := by
  apply fileByte_congr
  have before := mapped.holding_eq
  have after := (maps.mapped_of mapped).holding_eq
  rw [← before, ← after, maps.keep _ mapped]
  exact maps.data _ mapped (placeOf_ne_indirect _)

theorem div_of_block {len : Nat} (fits : off + len ≤ BSIZE)
    (above : bn * BSIZE + off ≤ p) (below : p < bn * BSIZE + off + len) : p / BSIZE = bn := by
  apply Nat.div_eq_of_lt_le
  · omega
  · rw [Nat.add_mul]
    omega

theorem MapsBlock.wrote (off : Nat) (src : List Uchar)
    (maps : MapsBlock n i bn view disk view' disk') (owns : Owns (holding n view' disk') used)
    (fits : off + src.length ≤ BSIZE) (some_ : src ≠ []) :
    Wrote n i (bn * BSIZE + off) src view disk view'
      (update disk' (holding n view' disk' (i, placeOf bn))
        ((disk' (holding n view' disk' (i, placeOf bn))).write off src)) where
  others := maps.others
  fields := maps.fields
  mapped p above below := by
    unfold Mapped
    rw [holding_data owns, div_of_block fits above below]
    exact maps.mapped
  keep x held := by
    rw [holding_data owns]
    exact maps.keep x held
  fresh x zero nonzero := by
    rw [holding_data owns] at nonzero
    obtain ⟨mine, place⟩ := maps.fresh x zero nonzero
    have len : 0 < src.length := List.length_pos_iff.mpr some_
    have block := div_of_block (p := bn * BSIZE + off) fits le_rfl (by omega)
    refine ⟨mine, bn * BSIZE + off, le_rfl, by omega, ?_⟩
    rw [block]
    exact place
  elsewhere j p other mapped := by
    rw [byte_data_other owns other (maps.mapped_of mapped), maps.byte mapped]
  written p known := by
    have now : Mapped n view' disk' i p := by
      rcases known with mapped | range
      · exact maps.mapped_of mapped
      · unfold Mapped
        rw [div_of_block fits range.1 range.2]
        exact maps.mapped
    rw [byte_data_self owns maps.mapped now fits]
    by_cases inside : bn * BSIZE + off ≤ p ∧ p < bn * BSIZE + off + src.length
    · rw [Bytes.write_inside _ inside.1 inside.2, Bytes.write_inside _ inside.1 inside.2]
    · rw [Bytes.write_outside _ (by omega), Bytes.write_outside _ (by omega)]
      exact maps.byte (known.resolve_right inside)
  blank p unmapped mapped outside := by
    unfold Mapped at mapped
    rw [holding_data owns] at mapped
    have new := maps.blank _ (not_not.mp unmapped) mapped (placeOf_ne_indirect _)
    rw [byte_data_self owns maps.mapped mapped fits, Bytes.write_outside _ (by omega), Dinode.byte,
      fileByte, ← Mapped.holding_eq mapped, new]

end Xv6Tracing.Volume
