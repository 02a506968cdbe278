import Xv6Tracing.Volume.Writing
import Xv6Tracing.Volume.Mkfs

/-!
# What mkfs appends

The blocks from `nmeta` up to `freeblock` are exactly those that some inode has,
each once, and the sectors from `freeblock` on are still zero.  From this,
`iappend` adds its bytes to the end of one file and leaves every other file as it
was, whatever the order of the appends.
-/

set_option autoImplicit false

namespace Xv6Tracing.Volume.Mkfs

open Function (update update_eq_self update_idem update_of_ne update_self)

open Lib

@[simp] theorem xint_eq (x : Uint) : xint x = x := by
  have bytes : [x.setWidth 8, (x >>> 8).setWidth 8, (x >>> 16).setWidth 8, (x >>> 24).setWidth 8] =
      leBytes 4 x.toNat := by
    simp only [leBytes, List.cons.injEq, and_true]
    refine ⟨?_, ?_, ?_, ?_⟩ <;> apply BitVec.eq_of_toNat_eq <;>
      simp [Nat.shiftRight_eq_div_pow, Nat.div_div_eq_div_mul]
  rw [xint, bytes]
  exact word_ofLe_leBytes x (by norm_num)

@[simp] theorem xshort_eq (x : Short) : xshort x = x := by
  have bytes : [x.setWidth 8, (x >>> 8).setWidth 8] = leBytes 2 x.toNat := by
    simp only [leBytes, List.cons.injEq, and_true]
    refine ⟨?_, ?_⟩ <;> apply BitVec.eq_of_toNat_eq <;> simp [Nat.shiftRight_eq_div_pow]
  rw [xshort, bytes]
  exact word_ofLe_leBytes x (by norm_num)

/-! ## Blocks -/

structure Building (img : Image) (view : Nat → Dinode) : Prop where
  owns : Owns (holding NINODES view img.disk) (fun b => nmeta ≤ b ∧ b < img.freeblock)
  blank : ∀ b, img.freeblock ≤ b → img.disk b = fun _ => 0
  low : nmeta ≤ img.freeblock

/-- How many blocks an address for block `bn` of inode `i` takes. -/
def newBlocks (view : Nat → Dinode) (disk : Disk) (i bn : Nat) : Nat :=
  (if NDIRECT ≤ bn ∧ holding NINODES view disk (i, NDIRECT) = 0 then 1 else 0) +
    if holding NINODES view disk (i, placeOf bn) = 0 then 1 else 0

section Blocks

variable {img : Image} {view : Nat → Dinode} {i : Nat}

theorem toNat_freeblock {b : Nat} (small : b < FSSIZE) : (BitVec.ofNat 32 b).toNat = b := by
  rw [BitVec.toNat_ofNat]
  apply Nat.mod_eq_of_lt
  unfold FSSIZE at small
  omega

theorem Building.pos (building : Building img view) : 0 < img.freeblock := by
  have positive : 0 < nmeta := by decide
  exact lt_of_lt_of_le positive building.low

theorem Building.take (building : Building img view) {view' : Nat → Dinode} {disk' : Disk}
    {x : Nat × Nat} (without : holding NINODES view img.disk x = 0)
    (now : holding NINODES view' disk' =
      update (holding NINODES view img.disk) x img.freeblock)
    (rest : ∀ b, img.freeblock < b → disk' b = img.disk b) :
    Building ⟨disk', img.freeinode, img.freeblock + 1⟩ view' where
  owns := by
    rw [now]
    have low := building.low
    refine (building.owns.take without building.pos.ne' (by omega)).congr fun b => ?_
    simp only
    omega
  blank b above := (rest b above).trans (building.blank b (Nat.le_of_succ_le above))
  low := Nat.le_succ_of_le building.low

theorem loadAddr_spec (building : Building img view) (exists_ : i < NINODES)
    (allocated : (view i).type ≠ 0) (k : Fin (NDIRECT + 1))
    (room : (view i).addrs k = 0 → img.freeblock < FSSIZE) :
    wp (loadAddr (view i) k) img (fun din img' =>
      Building img' (update view i din) ∧
      Grows NINODES i (· = k.val) view img.disk (update view i din) img'.disk ∧
      din.addrs k ≠ 0 ∧ img'.disk = img.disk ∧ img'.freeinode = img.freeinode ∧
      img'.freeblock = img.freeblock + if (view i).addrs k = 0 then 1 else 0) (fun _ => False) := by
  unfold loadAddr
  simp only [xint_eq]
  split
  · rename_i without
    have small := room without
    have number := toNat_freeblock small
    obtain ⟨grows, now⟩ := Grows.assign (b := BitVec.ofNat 32 img.freeblock) exists_ allocated
      without (by rw [number]; exact building.blank _ le_rfl)
    have before : holding NINODES view img.disk (i, k.val) = 0 := by
      have inside := k.isLt
      rw [holding_of exists_ allocated (by unfold NPLACES; omega), Dinode.addr_direct _ inside]
      exact congrArg BitVec.toNat without
    rw [number] at now
    have next := building.take before now fun _ _ => rfl
    have nonzero : BitVec.ofNat 32 img.freeblock ≠ 0 := by
      intro zero
      rw [zero] at number
      exact building.pos.ne number
    simp only [nextBlock, bind_assoc, pure_bind, wp_bind, wp_get, wp_set, wp_pure]
    refine ⟨next, grows, ?_, trivial, trivial, trivial⟩
    rwa [Dinode.setAddr_addrs, update_self]
  · rename_i has
    rw [wp_pure, update_eq_self]
    exact ⟨building, Grows.refl, has, rfl, rfl, rfl⟩

theorem holding_entry_eq (exists_ : i < NINODES) (allocated : (view i).type ≠ 0) {j : Nat}
    (inRange : j < NINDIRECT) (has : (view i).addrs indirect ≠ 0) (disk : Disk) :
    holding NINODES view disk (i, NDIRECT + 1 + j) =
      (indirectAt (disk ((view i).addrs indirect).toNat) j).toNat := by
  rw [holding_of exists_ allocated (by unfold NPLACES; omega), Dinode.addr_entry _ has]

theorem loadEntry_spec (building : Building img view) (exists_ : i < NINODES)
    (allocated : (view i).type ≠ 0) {j : Nat} (inRange : j < NINDIRECT)
    (has : (view i).addrs indirect ≠ 0)
    (room : holding NINODES view img.disk (i, NDIRECT + 1 + j) = 0 → img.freeblock < FSSIZE) :
    wp (loadEntry (view i) j) img (fun x img' =>
      Building img' view ∧
      Grows NINODES i (· = NDIRECT + 1 + j) view img.disk view img'.disk ∧
      x = holding NINODES view img'.disk (i, NDIRECT + 1 + j) ∧ x ≠ 0 ∧
      (∀ b < nmeta, img'.disk b = img.disk b) ∧ img'.freeinode = img.freeinode ∧
      img'.freeblock = img.freeblock +
        if holding NINODES view img.disk (i, NDIRECT + 1 + j) = 0 then 1 else 0)
      (fun _ => False) := by
  have entry := holding_entry_eq exists_ allocated inRange has img.disk
  have table : nmeta ≤ ((view i).addrs indirect).toNat ∧
      ((view i).addrs indirect).toNat < img.freeblock := by
    have here : holding NINODES view img.disk (i, NDIRECT) = ((view i).addrs indirect).toNat :=
      holding_indirect exists_ allocated
    have held : holding NINODES view img.disk (i, NDIRECT) ≠ 0 := by
      rw [here]
      exact toNat_ne_zero has
    have inUse := building.owns.used_own held
    rwa [here] at inUse
  unfold loadEntry
  simp only [xint_eq, rsect, bind_assoc, pure_bind, wp_bind, wp_get]
  split
  · rename_i without
    have zero : holding NINODES view img.disk (i, NDIRECT + 1 + j) = 0 := by
      rw [entry, without]
      rfl
    have number := toNat_freeblock (room zero)
    obtain ⟨grows, now⟩ := Grows.entry (b := BitVec.ofNat 32 img.freeblock) building.owns exists_
      allocated inRange has without (by rw [number]; exact building.blank _ le_rfl)
      (by rw [number]; omega)
    rw [number] at now
    have next := building.take zero now fun b above => update_of_ne (by omega) _ _
    simp only [nextBlock, wsect, bind_assoc, pure_bind, wp_bind, wp_get, wp_set, wp_modify, wp_pure]
    refine ⟨next, grows, ?_, ?_, fun b low => ?_, trivial, ?_⟩
    · rw [number, now, update_self]
    · rw [number]
      exact building.pos.ne'
    · exact update_of_ne (by omega) _ _
    · rw [if_pos zero]
  · rename_i present
    have nonzero : holding NINODES view img.disk (i, NDIRECT + 1 + j) ≠ 0 := by
      rw [entry]
      exact toNat_ne_zero present
    rw [wp_pure, if_neg nonzero, ← entry]
    exact ⟨building, Grows.refl, rfl, nonzero, fun _ _ => rfl, rfl, rfl⟩

theorem mapBlock_spec (building : Building img view) (exists_ : i < NINODES)
    (allocated : (view i).type ≠ 0) {fbn : Nat} (inRange : fbn < MAXFILE)
    (room : img.freeblock + newBlocks view img.disk i fbn ≤ FSSIZE) :
    wp (mapBlock (view i) fbn) img (fun r img' =>
      Building img' (update view i r.1) ∧
      MapsBlock NINODES i fbn view img.disk (update view i r.1) img'.disk ∧
      r.2 = holding NINODES (update view i r.1) img'.disk (i, placeOf fbn) ∧
      (∀ b < nmeta, img'.disk b = img.disk b) ∧ img'.freeinode = img.freeinode ∧
      img'.freeblock = img.freeblock + newBlocks view img.disk i fbn) (fun _ => False) := by
  have zero_iff : ∀ k : Fin (NDIRECT + 1), holding NINODES view img.disk (i, k.val) = 0 ↔
      (view i).addrs k = 0 := by
    intro k
    have small := k.isLt
    rw [holding_of exists_ allocated (by unfold NPLACES; omega), Dinode.addr_direct _ small]
    exact ⟨fun zero => BitVec.eq_of_toNat_eq zero, fun zero => congrArg BitVec.toNat zero⟩
  unfold mapBlock
  split
  · rename_i direct
    have place : placeOf fbn = fbn := if_pos direct
    have held := zero_iff ⟨fbn, Nat.lt_succ_of_lt direct⟩
    have count : newBlocks view img.disk i fbn =
        if (view i).addrs ⟨fbn, Nat.lt_succ_of_lt direct⟩ = 0 then 1 else 0 := by
      rw [newBlocks, if_neg (by omega), place, Nat.zero_add]
      simp only [held]
    rw [count] at room ⊢
    refine wp_call (loadAddr_spec building exists_ allocated _ ?_) ?_
    · intro without
      rw [if_pos without] at room
      omega
    · rintro din img' ⟨next, grows, has, sameDisk, sameInode, count⟩
      have now : holding NINODES (update view i din) img'.disk (i, placeOf fbn) =
          (din.addrs ⟨fbn, Nat.lt_succ_of_lt direct⟩).toNat := by
        have kind : (update view i din i).type ≠ 0 := by
          rw [grows.fields]
          exact allocated
        rw [place, holding_of exists_ kind (by unfold NPLACES; omega), update_self,
          Dinode.addr_direct]
      rw [wp_pure]
      refine ⟨next, ⟨grows.weaken ?_, ?_⟩, ?_, fun b _ => by rw [sameDisk], sameInode, count⟩
      · intro k here
        exact Or.inl (here.trans place.symm)
      · rw [now]
        exact toNat_ne_zero has
      · rw [now, xint_eq]
  · rename_i far
    obtain ⟨j, rfl⟩ := Nat.exists_eq_add_of_le (Nat.le_of_not_lt far)
    have place : placeOf (NDIRECT + j) = NDIRECT + 1 + j := by
      rw [placeOf, if_neg far]
      omega
    have count : newBlocks view img.disk i (NDIRECT + j) =
        (if (view i).addrs indirect = 0 then 1 else 0) +
          if holding NINODES view img.disk (i, NDIRECT + 1 + j) = 0 then 1 else 0 := by
      have table : holding NINODES view img.disk (i, NDIRECT) = 0 ↔ (view i).addrs indirect = 0 :=
        zero_iff indirect
      simp only [newBlocks, place, table, Nat.le_add_right, true_and]
    rw [count] at room ⊢
    refine wp_call (loadAddr_spec building exists_ allocated indirect ?_) ?_
    · intro without
      rw [if_pos without] at room
      omega
    · rintro din img' ⟨next, grows, has, sameDisk, sameInode, counted⟩
      have kind : (update view i din i).type ≠ 0 := by
        rw [grows.fields]
        exact allocated
      have same : holding NINODES (update view i din) img'.disk (i, NDIRECT + 1 + j) =
          holding NINODES view img.disk (i, NDIRECT + 1 + j) := by
        by_cases zero : holding NINODES view img.disk (i, NDIRECT + 1 + j) = 0
        · by_contra differs
          rw [zero] at differs
          have : NDIRECT + 1 + j = NDIRECT := (grows.fresh _ zero differs).2
          omega
        · exact grows.keep _ zero
      have self : update view i din i = din := update_self ..
      have second := loadEntry_spec next exists_ kind (j := j)
        (by unfold MAXFILE at inRange; omega) (by rwa [self]) (by
          intro zero
          rw [same] at zero
          rw [if_pos zero] at room
          omega)
      rw [self] at second
      rw [Nat.add_sub_cancel_left]
      refine wp_call second ?_
      rintro x img'' ⟨next', grows', at_, nonzero, low, sameInode', counted'⟩
      rw [wp_pure]
      refine ⟨next', ⟨(grows.weaken ?_).trans (grows'.weaken ?_), ?_⟩, ?_, fun b below => ?_,
        sameInode'.trans sameInode, ?_⟩
      · intro k here
        exact Or.inr ⟨here, Nat.le_add_right _ _⟩
      · intro k here
        exact Or.inl (here.trans place.symm)
      · rwa [place, ← at_]
      · rw [place, at_]
      · rw [low b below, sameDisk]
      · rw [counted', counted, same, Nat.add_assoc]

theorem Building.data (building : Building img view) {bn : Nat} (data : Bytes)
    (held : holding NINODES view img.disk (i, placeOf bn) ≠ 0) :
    Building ⟨update img.disk (holding NINODES view img.disk (i, placeOf bn)) data,
      img.freeinode, img.freeblock⟩ view where
  owns := by
    rw [holding_data building.owns]
    exact building.owns
  blank b above := by
    have inUse := building.owns.used_own held
    have other : b ≠ holding NINODES view img.disk (i, placeOf bn) := by
      have above' : img.freeblock ≤ b := above
      omega
    rw [← building.blank b above]
    exact update_of_ne other _ _
  low := building.low

end Blocks

/-! ## The extent of a file -/

/-- The blocks of a file of `size` bytes, its indirect block included. -/
def blocksFor (size : Nat) : Nat :=
  (size + BSIZE - 1) / BSIZE + if NDIRECT * BSIZE < size then 1 else 0

theorem blocksFor_eq (size : Nat) :
    blocksFor size = (size + 511) / 512 + if 6144 < size then 1 else 0 := by
  simp only [blocksFor, BSIZE, NDIRECT]
  congr 1

theorem blocksFor_mono {size size' : Nat} (le : size ≤ size') : blocksFor size ≤ blocksFor size' := by
  rw [blocksFor_eq, blocksFor_eq]
  split <;> split <;> omega

/-- Inode `i` has the blocks of its first `size` bytes and no others. -/
structure Extent (view : Nat → Dinode) (disk : Disk) (i size : Nat) : Prop where
  blocks : ∀ bn < MAXFILE, holding NINODES view disk (i, placeOf bn) ≠ 0 ↔ bn * BSIZE < size
  table : holding NINODES view disk (i, NDIRECT) ≠ 0 ↔ NDIRECT * BSIZE < size

section Extents

variable {view view' : Nat → Dinode} {disk disk' : Disk} {i off m : Nat}

theorem Extent.newBlocks_add (extent : Extent view disk i off) (inRange : off / BSIZE < MAXFILE)
    (some_ : 0 < m) (inside : off % BSIZE + m ≤ BSIZE) :
    blocksFor off + newBlocks view disk i (off / BSIZE) = blocksFor (off + m) := by
  have block := extent.blocks _ inRange
  have table := extent.table
  rw [newBlocks]
  by_cases aligned : off % BSIZE = 0
  · have zero : holding NINODES view disk (i, placeOf (off / BSIZE)) = 0 := by
      by_contra held
      have below := block.mp held
      simp only [BSIZE] at below aligned
      omega
    rw [if_pos zero]
    by_cases first : off / BSIZE = NDIRECT
    · have none : holding NINODES view disk (i, NDIRECT) = 0 := by
        by_contra held
        have below := table.mp held
        simp only [BSIZE] at below aligned first
        omega
      rw [if_pos ⟨first.ge, none⟩]
      simp only [BSIZE, NDIRECT] at aligned first inside
      rw [blocksFor_eq, blocksFor_eq, if_neg (by omega), if_pos (by omega)]
      omega
    · have notNew : ¬(NDIRECT ≤ off / BSIZE ∧ holding NINODES view disk (i, NDIRECT) = 0) := by
        rintro ⟨far, none⟩
        have near := mt table.mpr (not_not.mpr none)
        simp only [BSIZE] at near aligned first far
        omega
      rw [if_neg notNew]
      simp only [BSIZE, NDIRECT] at aligned first inside
      rw [blocksFor_eq, blocksFor_eq]
      split <;> split <;> omega
  · have held : holding NINODES view disk (i, placeOf (off / BSIZE)) ≠ 0 := by
      apply block.mpr
      simp only [BSIZE] at aligned ⊢
      omega
    have notNew : ¬(NDIRECT ≤ off / BSIZE ∧ holding NINODES view disk (i, NDIRECT) = 0) := by
      rintro ⟨far, none⟩
      have near := mt table.mpr (not_not.mpr none)
      simp only [BSIZE] at near aligned far
      omega
    rw [if_neg held, if_neg notNew]
    simp only [BSIZE] at aligned inside
    rw [blocksFor_eq, blocksFor_eq]
    split <;> split <;> omega

theorem Extent.grow (extent : Extent view disk i off)
    (maps : MapsBlock NINODES i (off / BSIZE) view disk view' disk') (some_ : 0 < m) (inside : off % BSIZE + m ≤ BSIZE) :
    Extent view' disk' i (off + m) where
  blocks bn small := by
    have before := extent.blocks bn small
    constructor
    · intro held
      by_cases already : holding NINODES view disk (i, placeOf bn) = 0
      · have place := (maps.fresh _ already held).2
        have same : bn = off / BSIZE := by
          rcases place with here | table
          · exact placeOf_inj here
          · exact absurd table.1 (placeOf_ne_indirect bn)
        simp only [BSIZE] at same ⊢
        omega
      · exact lt_of_lt_of_le (before.mp already) (Nat.le_add_right _ _)
    · intro below
      by_cases inOld : bn * BSIZE < off
      · rw [maps.keep _ (before.mpr inOld)]
        exact before.mpr inOld
      · have same : bn = off / BSIZE := by
          simp only [BSIZE] at below inOld inside ⊢
          omega
        rw [same]
        exact maps.mapped
  table := by
    have before := extent.table
    constructor
    · intro held
      by_cases already : holding NINODES view disk (i, NDIRECT) = 0
      · have place := (maps.fresh _ already held).2
        have far : NDIRECT ≤ off / BSIZE := by
          rcases place with here | table
          · exact absurd here.symm (placeOf_ne_indirect _)
          · exact table.2
        have start := (Nat.le_div_iff_mul_le (by decide : 0 < BSIZE)).mp far
        omega
      · exact lt_of_lt_of_le (before.mp already) (Nat.le_add_right _ _)
    · intro below
      by_cases inOld : NDIRECT * BSIZE < off
      · rw [maps.keep _ (before.mpr inOld)]
        exact before.mpr inOld
      · have far : NDIRECT ≤ off / BSIZE := by
          simp only [BSIZE] at below inOld inside ⊢
          omega
        exact holding_table far maps.mapped

theorem Extent.empty (none : ∀ k, holding NINODES view disk (i, k) = 0) : Extent view disk i 0 where
  blocks bn _ := by simp [none]
  table := by simp [none]

theorem Extent.congr (extent : Extent view disk i off)
    (same : ∀ k, holding NINODES view' disk' (i, k) = holding NINODES view disk (i, k)) :
    Extent view' disk' i off where
  blocks bn small := by rw [same, extent.blocks bn small]
  table := by rw [same, extent.table]

end Extents

/-! ## Appending -/

section Appending

variable {img : Image} {view : Nat → Dinode} {i : Nat}

/-- What the loop of `iappend` leaves behind. -/
structure Appended (img : Image) (view : Nat → Dinode) (i off base : Nat) (p : List Uchar)
    (din : Dinode) (img' : Image) : Prop where
  building : Building img' (Function.update view i din)
  wrote : Wrote NINODES i off p view img.disk (Function.update view i din) img'.disk
  extent : Extent (Function.update view i din) img'.disk i (off + p.length)
  low : ∀ b < nmeta, img'.disk b = img.disk b
  freeinode : img'.freeinode = img.freeinode
  freeblock : img'.freeblock = base + blocksFor (off + p.length)

theorem Appended.refl {off base : Nat} (building : Building img view)
    (extent : Extent view img.disk i off) (count : img.freeblock = base + blocksFor off) :
    Appended img view i off base [] (view i) img where
  building := by rwa [update_eq_self]
  wrote := by
    rw [update_eq_self]
    exact Wrote.refl off
  extent := by rwa [update_eq_self]
  low _ _ := rfl
  freeinode := rfl
  freeblock := count

theorem Appended.trans {off base : Nat} {p p' : List Uchar} {din din' : Dinode}
    {img' img'' : Image} (first : Appended img view i off base p din img')
    (second : Appended img' (update view i din) i (off + p.length) base p' din' img'') :
    Appended img view i off base (p ++ p') din' img'' := by
  have last : update (update view i din) i din' = update view i din' :=
    update_idem ..
  refine ⟨?_, ?_, ?_, fun b below => (second.low b below).trans (first.low b below),
    second.freeinode.trans first.freeinode, ?_⟩
  · rw [← last]
    exact second.building
  · rw [← last]
    exact first.wrote.trans second.wrote
  · rw [← last, List.length_append, ← Nat.add_assoc]
    exact second.extent
  · rw [List.length_append, ← Nat.add_assoc]
    exact second.freeblock

theorem iappendLoop_spec (fuel : Nat) : ∀ {img : Image} {view : Nat → Dinode} {off base : Nat}
    {p : List Uchar}, Building img view → i < NINODES → (view i).type ≠ 0 →
    Extent view img.disk i off → p.length ≤ fuel → off + p.length ≤ MAXFILE * BSIZE →
    img.freeblock = base + blocksFor off → base + blocksFor (off + p.length) ≤ FSSIZE →
    wp (iappendLoop fuel (view i) off p) img (fun r img' =>
      r.2 = off + p.length ∧ Appended img view i off base p r.1 img') (fun _ => False) := by
  induction fuel with
  | zero =>
    intro img view off base p building _ _ extent enough _ count _
    have none : p = [] := List.length_eq_zero_iff.mp (Nat.le_zero.mp enough)
    subst none
    exact ⟨rfl, Appended.refl building extent count⟩
  | succ fuel ih =>
    intro img view off base p building exists_ allocated extent enough fits count room
    unfold iappendLoop
    split
    · rename_i none
      subst none
      exact ⟨rfl, Appended.refl building extent count⟩
    · rename_i some_
      have len : 0 < p.length := List.length_pos_iff.mpr some_
      have inRange : off / BSIZE < MAXFILE :=
        Nat.div_lt_of_lt_mul (by rw [Nat.mul_comm]; omega)
      have offset : off - off / BSIZE * BSIZE = off % BSIZE := by
        have := Nat.div_add_mod off BSIZE
        rw [Nat.mul_comm] at this
        omega
      have position : off / BSIZE * BSIZE + off % BSIZE = off := Nat.div_add_mod' off BSIZE
      have small : off % BSIZE < BSIZE := Nat.mod_lt _ (by decide)
      -- the bytes of this turn, up to the end of the block
      generalize chunk : min p.length ((off / BSIZE + 1) * BSIZE - off) = m
      rw [Nat.add_mul, Nat.one_mul] at chunk
      have inside : off % BSIZE + m ≤ BSIZE := by omega
      have positive : 0 < m := by omega
      have shorter : m ≤ p.length := by omega
      have taken : (p.take m).length = m := List.length_take_of_le shorter
      have counted := extent.newBlocks_add inRange positive inside
      have later : blocksFor (off + m) ≤ blocksFor (off + p.length) :=
        blocksFor_mono (by omega)
      rw [if_neg (by omega), offset]
      refine wp_call (mapBlock_spec building exists_ allocated inRange (by omega)) ?_
      rintro ⟨din, x⟩ img' ⟨next, maps, at_, low, sameInode, freeblock⟩
      simp only at next maps at_ freeblock ⊢
      have wrote := maps.wrote (off % BSIZE) (p.take m) next.owns
        (by rw [taken]; exact inside) (by rw [← List.length_pos_iff, taken]; exact positive)
      have data := next.data ((img'.disk x).write (off % BSIZE) (p.take m)) maps.mapped
      have held := next.owns.used_own maps.mapped
      rw [position, ← at_] at wrote
      rw [← at_] at data held
      simp only [rsect, wsect, bind_assoc, pure_bind, wp_bind, wp_get, wp_modify]
      have first : Appended img view i off base (p.take m) din
          ⟨update img'.disk x ((img'.disk x).write (off % BSIZE) (p.take m)),
            img'.freeinode, img'.freeblock⟩ := by
        refine ⟨data, wrote, ?_, fun b below => ?_, sameInode, ?_⟩
        · rw [taken]
          refine (extent.grow maps positive inside).congr fun k => ?_
          rw [at_, holding_data next.owns]
        · rw [← low b below]
          exact update_of_ne (by omega) _ _
        · rw [taken, freeblock]
          omega
      have kind : (update view i din i).type ≠ 0 := by
        rw [maps.fields]
        exact allocated
      have extent' := first.extent
      have count' := first.freeblock
      have rest := ih first.building exists_ kind extent' (p := p.drop m)
        (by rw [List.length_drop]; omega) (by rw [List.length_drop, taken]; omega) count'
        (by rw [List.length_drop, taken, Nat.add_assoc, Nat.add_sub_cancel' shorter]; exact room)
      rw [update_self, taken, List.length_drop] at rest
      refine wp_mono rest ?_
      rintro ⟨din', off'⟩ img'' ⟨end_, second⟩
      refine ⟨by simp only at end_ ⊢; omega, ?_⟩
      have both : Appended img view i off base (p.take m ++ p.drop m) din' img'' :=
        first.trans (by rw [taken]; exact second)
      rwa [List.take_append_drop] at both

end Appending

end Xv6Tracing.Volume.Mkfs
