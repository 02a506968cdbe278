import Xv6Tracing.Volume.Writei

/-!
# Sound disks

On a sound disk the bit map and the addresses agree, and no allocated inode has a
hole below its size.  `writei` of an inode whose cached copy agrees with the disk
leaves a sound disk, with the bytes in place and every other file as it was.
-/

set_option autoImplicit false

namespace Xv6Tracing.Volume

open Function (update update_idem update_of_ne update_self)

open Lib

structure Sound (sb : Superblock) (disk : Disk) : Prop where
  kept : Kept sb disk (dinodeAt sb disk)
  limit : ∀ i < sb.ninodes, (dinodeAt sb disk i).type ≠ 0 →
    (dinodeAt sb disk i).size.toNat ≤ MAXFILE * BSIZE
  full : ∀ i < sb.ninodes, (dinodeAt sb disk i).type ≠ 0 →
    ∀ bn, bn * BSIZE < (dinodeAt sb disk i).size.toNat →
      (dinodeAt sb disk i).addr disk (placeOf bn) ≠ 0

variable {s : Vol} {a : Fin NINODE} {i : Nat} {sb : Superblock} {disk : Disk}

theorem Sound.mapped (sound : Sound sb disk) (exists_ : i < sb.ninodes)
    (allocated : (dinodeAt sb disk i).type ≠ 0) {p : Nat}
    (below : p < (dinodeAt sb disk i).size.toNat) :
    Mapped sb.ninodes (dinodeAt sb disk) disk i p := by
  have limit := sound.limit i exists_ allocated
  have inRange : p / BSIZE < MAXFILE := Nat.div_lt_of_lt_mul (by rw [Nat.mul_comm]; omega)
  have start : p / BSIZE * BSIZE ≤ p := Nat.div_mul_le_self p BSIZE
  unfold Mapped
  rw [holding_of exists_ allocated (placeOf_lt inRange)]
  exact sound.full i exists_ allocated _ (by omega)

/-! ## iupdate -/

def writeBack (sb : Superblock) (disk : Disk) (i : Nat) (d : Dinode) : Disk :=
  Function.update disk (IBLOCK sb i) (putDinode (disk (IBLOCK sb i)) i d)

@[simp] theorem dinodeAt_writeBack (sb : Superblock) (disk : Disk) (i : Nat) (d : Dinode) :
    dinodeAt sb (writeBack sb disk i d) = update (dinodeAt sb disk) i d := by
  funext j
  unfold writeBack
  by_cases mine : j = i
  · subst mine
    rw [update_self, dinodeAt_put_self]
  · rw [update_of_ne mine, dinodeAt_put_other _ _ mine]

theorem iupdate_spec {post : Unit → Vol → Prop} {exc : Halt → Prop}
    (stops : exc .incorrectBlockno)
    (holds : post () { s with
      disk := writeBack s.sb s.disk (s.icache a).inum (s.icache a).toDinode }) :
    wp (iupdate a) s post exc := by
  unfold iupdate
  simp only [wp_bind, wp_get]
  exact bread_any stops holds

theorem Layout.writeBack_high (layout : Layout sb) (exists_ : i < sb.ninodes) (d : Dinode)
    (b : Nat) (above : sb.bmapstart ≤ b) : writeBack sb disk i d b = disk b := by
  have inode := layout.iblock exists_
  exact update_of_ne (by omega) _ _

theorem Layout.writeBack_one (layout : Layout sb) (exists_ : i < sb.ninodes) (d : Dinode) :
    writeBack sb disk i d 1 = disk 1 := by
  have inode := layout.iblock exists_
  exact update_of_ne (by omega) _ _

/-! ## writei -/

variable {disk' : Disk} {d : Dinode} {src : List Uchar} {off : Nat}

theorem WroteTo.inode_same {view : Nat → Dinode} (wroteTo : WroteTo s i off src view d disk') (exists_ : i < s.sb.ninodes)
    (allocated : (view i).type ≠ 0)
    (mapped : ∀ p, off ≤ p → p < off + src.length → Mapped s.sb.ninodes view s.disk i p) :
    d = view i := by
  have fields := wroteTo.wrote.fields
  rw [update_self] at fields
  have kind : (update view i d i).type ≠ 0 := by
    rw [update_self, fields]
    exact allocated
  have addrs : d.addrs = (view i).addrs := by
    funext k
    have inside := k.isLt
    have place : k.val < NPLACES := by
      unfold NPLACES
      omega
    have before : holding s.sb.ninodes view s.disk (i, k.val) = ((view i).addrs k).toNat := by
      rw [holding_of exists_ allocated place, Dinode.addr_direct _ inside]
    have after : holding s.sb.ninodes (update view i d) disk' (i, k.val) =
        (d.addrs k).toNat := by
      rw [holding_of exists_ kind place, Dinode.addr_direct _ inside, update_self]
    have same : holding s.sb.ninodes (update view i d) disk' (i, k.val) =
        holding s.sb.ninodes view s.disk (i, k.val) := by
      by_cases held : holding s.sb.ninodes view s.disk (i, k.val) = 0
      · by_contra differs
        rw [held] at differs
        obtain ⟨-, p, above, below, here⟩ := wroteTo.wrote.fresh _ held differs
        have already := mapped p above below
        rcases here with here | ⟨table, far⟩
        · exact already (by rw [← here, held])
        · exact holding_table far already (by rw [← table, held])
      · exact wroteTo.wrote.keep _ held
    apply BitVec.eq_of_toNat_eq
    rw [← after, same, before]
  rw [fields, addrs]

/-- What a completed `writei` did. -/
structure Written (s : Vol) (i off : Nat) (src : List Uchar) (d : Dinode) (disk' : Disk) :
    Prop where
  sound : Sound s.sb disk'
  inode : dinodeAt s.sb disk' i = d
  others : ∀ j < s.sb.ninodes, j ≠ i → dinodeAt s.sb disk' j = dinodeAt s.sb s.disk j
  fields : d = { dinodeAt s.sb s.disk i with size := d.size, addrs := d.addrs }
  size : d.size.toNat = max (dinodeAt s.sb s.disk i).size.toNat (off + src.length)
  contents : d.contents disk' =
    (((dinodeAt s.sb s.disk i).byte s.disk).write off src).read 0 d.size.toNat
  elsewhere : ∀ j < s.sb.ninodes, j ≠ i → (dinodeAt s.sb s.disk j).type ≠ 0 →
    (dinodeAt s.sb disk' j).contents disk' = (dinodeAt s.sb s.disk j).contents s.disk

/-- From the loop of `writei` to its end: the inode is written back with its new
size, or nothing about it changed. -/
theorem WroteTo.written {d' : Dinode} {disk₁ : Disk}
    (wroteTo : WroteTo s i off src (dinodeAt s.sb s.disk) d disk₁) (sound : Sound s.sb s.disk)
    (exists_ : i < s.sb.ninodes) (allocated : (dinodeAt s.sb s.disk i).type ≠ 0)
    (inside : off ≤ (dinodeAt s.sb s.disk i).size.toNat)
    (fits : off + src.length ≤ MAXFILE * BSIZE)
    (same : d' = { d with size := d'.size })
    (size : d'.size.toNat = max (dinodeAt s.sb s.disk i).size.toNat (off + src.length))
    (inodes : ∀ j < s.sb.ninodes,
      dinodeAt s.sb disk' j = update (dinodeAt s.sb s.disk) i d' j)
    (first : disk' 1 = disk₁ 1) (high : ∀ b, s.sb.bmapstart ≤ b → disk' b = disk₁ b) :
    Written s i off src d' disk' := by
  set view := dinodeAt s.sb s.disk with view_eq
  set view₁ := update view i d with view₁_eq
  have fields : d = { view i with addrs := d.addrs } := by
    have whole := wroteTo.wrote.fields
    rwa [update_self] at whole
  have type' : d'.type = (view i).type := by
    rw [same, fields]
  have addrs' : d'.addrs = d.addrs := by rw [same]
  have mine : dinodeAt s.sb disk' i = d' := by
    rw [inodes i exists_, update_self]
  have other : ∀ j < s.sb.ninodes, j ≠ i → dinodeAt s.sb disk' j = view j := by
    intro j inRange differs
    rw [inodes j inRange, update_of_ne differs]
  have types : ∀ j < s.sb.ninodes, (dinodeAt s.sb disk' j).type = 0 ↔ (view₁ j).type = 0 := by grind
  have addrs : ∀ j < s.sb.ninodes, (view₁ j).type ≠ 0 →
      (dinodeAt s.sb disk' j).addrs = (view₁ j).addrs := by
    intro j inRange _
    by_cases here : j = i
    · subst here
      rw [mine, view₁_eq, update_self, addrs']
    · rw [other j inRange here, view₁_eq, update_of_ne here]
  have behind := wroteTo.kept.behind high
  have holdings : holding s.sb.ninodes (dinodeAt s.sb disk') disk' =
      holding s.sb.ninodes view₁ disk₁ := holding_apart addrs behind types
  have bytes : ∀ {j p}, Mapped s.sb.ninodes view₁ disk₁ j p →
      (dinodeAt s.sb disk' j).byte disk' p = (view₁ j).byte disk₁ p := byte_apart addrs behind
  have mapped : ∀ j < s.sb.ninodes, (view j).type ≠ 0 → ∀ p < (view j).size.toNat,
      Mapped s.sb.ninodes view s.disk j p := fun j inRange kind p below =>
    sound.mapped inRange kind below
  -- every byte below the new size has a block
  have reached : ∀ p < d'.size.toNat, Mapped s.sb.ninodes view₁ disk₁ i p := by
    intro p below
    grind [wroteTo.wrote.mapped_of, wroteTo.wrote.mapped]
  have sizeOld : ∀ j < s.sb.ninodes, j ≠ i → (dinodeAt s.sb disk' j).type ≠ 0 →
      ∀ p < (dinodeAt s.sb disk' j).size.toNat, Mapped s.sb.ninodes view₁ disk₁ j p := by
    intro j inRange differs kind p below
    rw [other j inRange differs] at kind below
    exact wroteTo.wrote.mapped_of (mapped j inRange kind p below)
  refine ⟨⟨wroteTo.kept.inodes types addrs first high, fun j inRange kind => ?_,
    fun j inRange kind bn below => ?_⟩, mine, other, ?_, size, ?_, fun j inRange differs kind => ?_⟩
  · by_cases here : j = i
    · subst here
      have limit := sound.limit j inRange allocated
      rw [mine, size]
      exact max_le limit fits
    · rw [other j inRange here] at kind ⊢
      exact sound.limit j inRange kind
  · have position : bn * BSIZE / BSIZE = bn := Nat.mul_div_cancel _ (by decide)
    have held : Mapped s.sb.ninodes view₁ disk₁ j (bn * BSIZE) := by grind
    have place := held.valid.2.2
    unfold Mapped at held
    rw [position] at held place
    rw [← holdings, holding_of inRange kind place] at held
    exact held
  · rw [same, fields]
  · grind [Dinode.contents, Bytes.read_congr, wroteTo.wrote.written]
  · grind [Dinode.contents, Bytes.read_congr, wroteTo.wrote.elsewhere]

/-- `writei` of a file or directory: refused for its offset or length with nothing
changed, or complete. -/
theorem writei_spec (sound : Sound s.sb s.disk)
    (cached : (s.icache a).toDinode = dinodeAt s.sb s.disk (s.icache a).inum)
    (exists_ : (s.icache a).inum < s.sb.ninodes) (allocated : (s.icache a).type ≠ 0)
    (kind : (s.icache a).type ≠ T_DEV) (src : List Uchar) (off : Uint) :
    wp (writei a src off) s (fun r t =>
      (r = none ∧ t = s ∧ ((s.icache a).size.toNat < off.toNat ∨
        MAXFILE * BSIZE < off.toNat + src.length)) ∨
      (r = some src.length ∧ off.toNat ≤ (s.icache a).size.toNat ∧
        off.toNat + src.length ≤ MAXFILE * BSIZE ∧ ∃ d disk', t = s.put a d disk' ∧
        Written s (s.icache a).inum off.toNat src d disk')) NoBlock := by
  have typeAt : (dinodeAt s.sb s.disk (s.icache a).inum).type ≠ 0 := by rwa [← cached]
  have limit : MAXFILE * BSIZE < 2 ^ 32 := by decide
  unfold writei
  simp only [wp_bind, wp_get, if_neg kind]
  split
  · rename_i refused
    rw [wp_pure]
    refine Or.inl ⟨rfl, rfl, ?_⟩
    rcases refused with late | wraps
    · exact Or.inl late
    · exact Or.inr (by omega)
  · rename_i accepted
    have inside : off.toNat ≤ (s.icache a).size.toNat := by
      by_contra late
      exact accepted (Or.inl (Nat.lt_of_not_le late))
    split
    · rename_i large
      rw [wp_pure]
      exact Or.inl ⟨rfl, rfl, Or.inr large⟩
    · rename_i small
      have fits : off.toNat + src.length ≤ MAXFILE * BSIZE := Nat.le_of_not_lt small
      have inside' : off.toNat ≤ (dinodeAt s.sb s.disk (s.icache a).inum).size.toNat := by
        rwa [← cached]
      refine wp_bind.mpr (wp_mono (writeiLoop_spec src.length sound.kept cached.symm exists_ typeAt
        le_rfl fits) ?_)
      rintro - t ⟨d, disk₁, rfl, wroteTo⟩
      have fields : d = { (s.icache a).toDinode with addrs := d.addrs } := by
        have whole := wroteTo.wrote.fields
        rwa [update_self, ← cached] at whole
      have size : d.size = (s.icache a).size := by rw [fields]
      simp only [wp_bind, wp_get, Vol.put_icache_self, size]
      have inodes : ∀ j < s.sb.ninodes, dinodeAt s.sb disk₁ j = dinodeAt s.sb s.disk j :=
        fun j inRange => dinodeAt_congr s.sb (wroteTo.inodes j inRange)
      split
      · rename_i past
        have number : (BitVec.ofNat 32 (off.toNat + src.length)).toNat = off.toNat + src.length := by
          rw [BitVec.toNat_ofNat]
          exact Nat.mod_eq_of_lt (by omega)
        simp only [modifyInode, wp_bind, wp_modify]
        refine iupdate_spec (Or.inr rfl) ?_
        rw [wp_pure]
        simp only [Vol.setInode, Vol.put, update_self, update_idem]
        refine Or.inr ⟨trivial, inside, fits,
          { d with size := BitVec.ofNat 32 (off.toNat + src.length) }, _, rfl, ?_⟩
        refine wroteTo.written sound exists_ typeAt inside' fits rfl ?_ (fun j inRange => ?_)
          (wroteTo.kept.layout.writeBack_one exists_ _)
          (wroteTo.kept.layout.writeBack_high exists_ _)
        · rw [number, ← cached]
          omega
        · rw [dinodeAt_writeBack]
          by_cases mine : j = (s.icache a).inum
          · rw [mine, update_self, update_self]
          · rw [update_of_ne mine, update_of_ne mine, inodes j inRange]
      · rename_i notPast
        rw [wp_pure]
        have short : off.toNat + src.length ≤ (s.icache a).size.toNat := by grind
        have same : d = dinodeAt s.sb s.disk (s.icache a).inum := by
          grind [wroteTo.inode_same, sound.mapped]
        refine Or.inr ⟨rfl, inside, fits, d, disk₁, rfl, ?_⟩
        refine wroteTo.written sound exists_ typeAt inside' fits rfl ?_ (fun j inRange => ?_) rfl
          fun _ _ => rfl
        · rw [size, ← cached]
          omega
        · grind

/-! ## A small sound disk

Ten blocks: one of inodes, one bit map and six data blocks.  The root directory has
its own block, with `.`, `..` and one file, which is empty. -/

def smallSuper : Superblock where
  size := 10
  nblocks := 6
  ninodes := 8
  nlog := 0
  logstart := 2
  inodestart := 2
  bmapstart := 3

def smallRoot : Dinode where
  type := T_DIR
  major := 0
  minor := 0
  nlink := 1
  size := 48
  addrs := fun k => if k = 0 then 4 else 0

def smallFile : Dinode where
  type := T_FILE
  major := 0
  minor := 0
  nlink := 1
  size := 0
  addrs := fun _ => 0

def smallEntries : List Uchar :=
  [1, 0, 46] ++ List.replicate 13 0 ++ ([1, 0, 46, 46] ++ List.replicate 12 0) ++
    ([2, 0, 97] ++ List.replicate 13 0)

def zeroed : Bytes := fun _ => 0

def smallDisk : Disk
  | 1 => zeroed.write 0 ([10, 6, 8, 0, 2, 2, 3].flatMap (leBytes 4))
  | 2 => putDinode (putDinode zeroed 1 smallRoot) 2 smallFile
  | 3 => zeroed.write 0 [31]
  | 4 => zeroed.write 0 smallEntries
  | _ => zeroed

theorem small_holding (x : Nat × Nat) :
    holding smallSuper.ninodes (dinodeAt smallSuper smallDisk) smallDisk x =
      if x = (1, 0) then 4 else 0 := by
  obtain ⟨i, k⟩ := x
  by_cases inside : i < 8 ∧ k < NPLACES
  · have all : ∀ i < 8, ∀ k < NPLACES,
        holding smallSuper.ninodes (dinodeAt smallSuper smallDisk) smallDisk (i, k) =
          if (i, k) = (1, 0) then 4 else 0 := by decide +kernel
    exact all i inside.1 k inside.2
  · rw [if_neg, holding, if_neg]
    · exact fun found => inside ⟨found.1, found.2.2⟩
    · rintro ⟨rfl, rfl⟩
      exact inside (by decide)

theorem small_used : ∀ b < 10, usedAt smallSuper smallDisk b = decide (b < 5) := by
  decide +kernel

theorem small_sound : Sound smallSuper smallDisk where
  kept := {
    layout := ⟨by decide, by decide, by decide, by decide⟩
    super := by decide +kernel
    owns := {
      held := by
        intro b
        constructor
        · rintro ⟨above, below, used⟩
          rw [small_used b below] at used
          have four : b = 4 := Nat.le_antisymm (Nat.le_of_lt_succ (of_decide_eq_true used)) above
          exact ⟨by omega, (1, 0), by rw [small_holding, if_pos rfl, four]⟩
        · rintro ⟨nonzero, x, owned⟩
          rw [small_holding] at owned
          split at owned
          · subst owned
            exact ⟨by decide, by decide, by rw [small_used 4 (by decide)]; decide⟩
          · exact absurd owned.symm nonzero
      apart := by
        intro x y held same
        rw [small_holding] at held same
        rw [small_holding] at same
        by_cases first : x = (1, 0)
        · by_cases second : y = (1, 0)
          · rw [first, second]
          · rw [if_pos first, if_neg second] at same
            cases same
        · exact absurd (if_neg first) held }
    reserved := by
      intro b below
      have low : b < 4 := below
      rw [small_used b (by omega)]
      exact decide_eq_true (by omega) }
  limit := by decide +kernel
  full := by
    have all : ∀ i < 8, (dinodeAt smallSuper smallDisk i).type ≠ 0 →
        ∀ bn < 1, bn * BSIZE < (dinodeAt smallSuper smallDisk i).size.toNat →
        (dinodeAt smallSuper smallDisk i).addr smallDisk (placeOf bn) ≠ 0 := by
      decide +kernel
    have small : ∀ i < 8, (dinodeAt smallSuper smallDisk i).size.toNat ≤ BSIZE := by
      decide +kernel
    intro i exists_ kind bn below
    have bound := small i exists_
    refine all i exists_ kind bn ?_ below
    by_contra large
    have := Nat.mul_le_mul_right BSIZE (Nat.le_of_not_lt large)
    omega

end Xv6Tracing.Volume
