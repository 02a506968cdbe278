import Xv6Tracing.Exec.PageBytes
import Xv6Tracing.Vm.Conservation

/-!
# While the program headers are worked off

The pages of the new table from the second page up to the current size have frames that
were free before, and nothing else is mapped.  What the frames hold is the image so far.
A segment in the first page, which is never mapped, goes to physical page 0.
-/

set_option autoImplicit false

namespace Xv6Tracing.Exec

open Lib Vm

variable {s t : Memory} {free free' : List AddrT} {r sz p : AddrT} {frame : Nat → AddrT}
  {written : List AddrT} {image : Nat → Uchar} {low : Prop}

/-! ## Physical memory is small -/

def physPages : Nat := 57344

theorem usable_length {kend : AddrT} {l : List AddrT} (nodup : l.Nodup)
    (usable : ∀ p ∈ l, Usable kend p) : l.length ≤ physPages := by
  have number : ∀ p ∈ l, (V2P p).toNat / 4096 < physPages := by
    intro p member
    have small : (V2P p).toNat < PHYSTOP.toNat := BitVec.lt_def.mp (usable p member).2.2
    have physical : PHYSTOP.toNat = 0xE000000 := rfl
    unfold physPages
    omega
  have injective : ∀ p ∈ l, ∀ q ∈ l, (V2P p).toNat / 4096 = (V2P q).toNat / 4096 → p = q := by
    intro p member q member' same
    have alignedP : Aligned (V2P p) := aligned_V2P (usable p member).aligned
    have alignedQ : Aligned (V2P q) := aligned_V2P (usable q member').aligned
    unfold Aligned at alignedP alignedQ
    have physical : V2P p = V2P q := BitVec.eq_of_toNat_eq (by omega)
    rw [← P2V_V2P p, physical, P2V_V2P]
  have distinct := nodup.map_on injective
  calc l.length = (l.map fun p => (V2P p).toNat / 4096).length := (List.length_map _).symm
    _ = (l.map fun p => (V2P p).toNat / 4096).toFinset.card :=
        (List.toFinset_card_of_nodup distinct).symm
    _ ≤ (Finset.range physPages).card := by
        apply Finset.card_le_card
        intro n member
        obtain ⟨p, inside, rfl⟩ := List.mem_map.mp (List.mem_toFinset.mp member)
        exact Finset.mem_range.mpr (number p inside)
    _ = physPages := Finset.card_range _

/-! ## The state of the loop -/

/-- `r` was made from free pages of `s` and maps the pages below `sz` but the first, whose
bytes are those of `image`.  `low` is whether a segment may begin in the first page. -/
structure Loading (s t : Memory) (free free' : List AddrT) (r sz : AddrT) (frame : Nat → AddrT)
    (written : List AddrT) (image : Nat → Uchar) (low : Prop) : Prop where
  sound : Sound t [r] free'
  usable : ∀ p ∈ free, Usable s.kend p
  kend : t.kend = s.kend
  suffix : free' <:+ free
  used : free.length ≤ free'.length + 1 + 4 * (pages sz - 1)
  start : 1 ≤ pages sz
  room : pages sz ≤ physPages + 1
  mapped : ∀ va, User va → pteWord t r va =
    if 1 ≤ vpn va ∧ vpn va < pages sz then newWord (frame (vpn va)) else 0
  frames : ∀ k, 1 ≤ k → k < pages sz →
    frame k ∈ free ∧ frame k ∉ free' ∧ P2V (PTE_ADDR (newWord (frame k))) = frame k
  balance : ∀ p, Owned t [r] p ∨ p ∈ free' ↔ p ∈ free
  kernel : ∀ i : BitVec 9, 256 ≤ i.toNat → t.page r i = rootRow s.kpdpt i
  kept : ∀ p, p ∉ free → (p = P2V 0 → ¬ low) → t.page p = s.page p
  logged : ∀ p ∈ written, (p = P2V 0 ∧ low) ∨ ∃ k, 1 ≤ k ∧ k < pages sz ∧ frame k = p
  bytes : ∀ k, 1 ≤ k → k < pages sz → ∀ j < 4096,
    byteAt (t.page (frame k)) j = image (4096 * k + j)
  blank : ∀ a, 4096 * pages sz ≤ a → image a = 0

theorem present_newWord (q : AddrT) : newWord q &&& PTE_P ≠ 0 := present_or _

theorem mapped_le {lo hi : Nat} {roots : List AddrT} (sound : Sound t roots free') (root : r ∈ roots)
    (mapped : ∀ va, User va → lo ≤ vpn va → vpn va < hi → pteWord t r va &&& PTE_P ≠ 0 ∧
      Usable t.kend (P2V (PTE_ADDR (pteWord t r va))))
    (small : lo + physPages < 2 ^ 35) : hi ≤ lo + physPages := by
  by_contra more
  obtain ⟨frame, frames⟩ : ∃ frame : Nat → AddrT, ∀ va, frame (vpn va) =
      P2V (PTE_ADDR (pteWord t r va)) := by
    refine ⟨fun k => P2V (PTE_ADDR (pteWord t r (BitVec.ofNat 64 (4096 * k)))), fun va => ?_⟩
    have page : vpn (BitVec.ofNat 64 (4096 * vpn va)) = vpn va := by
      simp only [vpn, BitVec.toNat_ofNat]
      omega
    dsimp only
    rw [pteWord_congr page]
  have place : ∀ k ∈ List.range' lo (physPages + 1), ∃ va, User va ∧ vpn va = k ∧
      follow (child t) r (indexPath va) = some (frame k) ∧ Usable t.kend (frame k) := by
    intro k member
    rw [List.mem_range'_1] at member
    obtain ⟨va, user, rfl⟩ := exists_user (show k < 2 ^ 35 by omega)
    obtain ⟨present, usable⟩ := mapped va user (by omega) (by omega)
    rw [frames]
    refine ⟨va, user, rfl, ?_, usable⟩
    rw [follow_indexPath, if_pos present]
  have nodup : ((List.range' lo (physPages + 1)).map frame).Nodup := by
    have order : (List.range' lo (physPages + 1)).Nodup := by simp [List.nodup_range']
    apply order.map_on
    intro k member k' member' same
    obtain ⟨va, user, rfl, found, -⟩ := place k member
    obtain ⟨va', user', rfl, found', -⟩ := place k' member'
    rw [← same] at found'
    have paths := (sound.unaliased r root r root _ _ _
      (userPath_indexPath user) (userPath_indexPath user') found found').2
    exact (indexPath_inj user user').mp paths
  have usable : ∀ p ∈ (List.range' lo (physPages + 1)).map frame, Usable t.kend p := by
    intro p member
    obtain ⟨k, inside, rfl⟩ := List.mem_map.mp member
    obtain ⟨-, -, -, -, usable⟩ := place k inside
    exact usable
  have count := usable_length nodup usable
  rw [List.length_map, List.length_range'] at count
  omega

section Frames

variable (loading : Loading s t free free' r sz frame written image low)
include loading

theorem Loading.table (table : Table t [r] p) : p ∈ free :=
  (loading.balance p).mp (Or.inl table.owned)

variable {k : Nat}

theorem Loading.place (lower : 1 ≤ k) (upper : k < pages sz) :
    ∃ va, User va ∧ vpn va = k ∧ pteWord t r va = newWord (frame k) ∧
      follow (child t) r (indexPath va) = some (frame k) := by
  have room := loading.room
  obtain ⟨va, user, rfl⟩ : ∃ va, User va ∧ vpn va = k := exists_user (by
    unfold physPages at room
    omega)
  have word := (loading.mapped va user).trans (if_pos ⟨lower, upper⟩)
  refine ⟨va, user, rfl, word, ?_⟩
  rw [follow_indexPath, word, if_pos (present_newWord _), (loading.frames _ lower upper).2.2]

theorem Loading.not_table (lower : 1 ≤ k) (upper : k < pages sz) :
    ¬ Table t [r] (frame k) := by
  obtain ⟨va, user, rfl, word, -⟩ := loading.place lower upper
  have notTable := loading.sound.frame_not_table List.mem_cons_self user
    (by rw [word]; exact present_newWord _)
  rwa [word, (loading.frames _ lower upper).2.2] at notTable

theorem Loading.frame_inj {k' : Nat} (lower : 1 ≤ k) (upper : k < pages sz) (lower' : 1 ≤ k')
    (upper' : k' < pages sz) (same : frame k = frame k') : k = k' := by
  obtain ⟨va, user, rfl, -, found⟩ := loading.place lower upper
  obtain ⟨va', user', rfl, -, found'⟩ := loading.place lower' upper'
  rw [← same] at found'
  have root : r ∈ [r] := List.mem_cons_self
  have paths := (loading.sound.unaliased r root r root _ _ _ (userPath_indexPath user)
    (userPath_indexPath user') found found').2
  exact (indexPath_inj user user').mp paths

theorem Loading.congr {image' : Nat → Uchar} (same : ∀ a, 4096 ≤ a → image' a = image a) :
    Loading s t free free' r sz frame written image' low :=
  { loading with
    bytes := fun k lower upper j less => by
      rw [same _ (by omega)]
      exact loading.bytes k lower upper j less
    blank := fun a beyond => by
      have start := loading.start
      rw [same a (by omega)]
      exact loading.blank a beyond }

end Frames

variable {newsz : AddrT}

section

variable (loading : Loading s t free free' r sz frame written image low)

include loading

variable {u : Memory} {frame' : Nat → AddrT} {free'' : List AddrT}

theorem Loading.grow {both : Nat → AddrT} (larger : sz.toNat ≤ newsz.toNat)
    (allocation : Allocation t u [r] free' free'' r (pages sz) (pages newsz) frame')
    (old : ∀ k, k < pages sz → both k = frame k) (new : ∀ k, pages sz ≤ k → both k = frame' k) :
    Loading s u free free'' r newsz both written image low := by
  have more : pages sz ≤ pages newsz := by
    unfold pages
    omega
  have start := loading.start
  have effect := allocation.effect
  have shorter : free'' <:+ free := allocation.suffix.trans loading.suffix
  have kend : u.kend = s.kend := effect.consts.1.trans loading.kend
  have mapped : ∀ va, User va → pteWord u r va =
      if 1 ≤ vpn va ∧ vpn va < pages newsz then newWord (both (vpn va)) else 0 := by
    intro va user
    rw [allocation.words r List.mem_cons_self va user, loading.mapped va user]
    by_cases before : vpn va < pages sz
    · have outside : ¬ (r = r ∧ pages sz ≤ vpn va ∧ vpn va < pages newsz) := by omega
      have upper : vpn va < pages newsz := by omega
      rw [if_neg outside, old _ before]
      simp only [before, upper, and_true]
    · have inside : (r = r ∧ pages sz ≤ vpn va ∧ vpn va < pages newsz) ↔
          (1 ≤ vpn va ∧ vpn va < pages newsz) := by
        constructor
        · rintro ⟨-, lower, upper⟩
          exact ⟨by omega, upper⟩
        · rintro ⟨-, upper⟩
          exact ⟨rfl, by omega, upper⟩
      rw [if_congr inside rfl rfl, new _ (by omega)]
      simp only [before, and_false, if_false]
  have frames : ∀ k, 1 ≤ k → k < pages newsz →
      both k ∈ free ∧ both k ∉ free'' ∧ P2V (PTE_ADDR (newWord (both k))) = both k := by
    intro k lower upper
    by_cases before : k < pages sz
    · rw [old k before]
      obtain ⟨member, taken, address⟩ := loading.frames k lower before
      exact ⟨member, fun still => taken (allocation.suffix.subset still), address⟩
    · rw [new k (by omega)]
      obtain ⟨member, taken, -, address⟩ := allocation.frames k (by omega) upper
      exact ⟨loading.suffix.subset member, taken, address⟩
  have room : pages newsz ≤ 1 + physPages := by
    refine mapped_le effect.sound List.mem_cons_self (fun va user lower upper => ?_) (by decide)
    obtain ⟨member, -, address⟩ := frames (vpn va) lower upper
    rw [mapped va user, if_pos ⟨lower, upper⟩, address, kend]
    exact ⟨present_newWord _, loading.usable _ member⟩
  exact {
    sound := effect.sound
    usable := loading.usable
    kend := kend
    suffix := shorter
    used := by
      have before := loading.used
      have step := allocation.used
      omega
    start := by omega
    room := by omega
    mapped := mapped
    frames := frames
    balance := by
      intro p
      rw [effect.balance p, loading.balance p]
      simp
    kernel := by
      intro i upper
      rw [effect.kernel r List.mem_cons_self i upper, loading.kernel i upper]
    kept := by
      intro p other notLow
      rw [effect.rows p (fun table => other (loading.table table))
        (fun member => other (loading.suffix.subset member))
        (fun member => other (shorter.subset member)), loading.kept p other notLow]
    logged := by
      intro p member
      rcases loading.logged p member with first | ⟨k, lower, upper, same⟩
      · exact Or.inl first
      · exact Or.inr ⟨k, lower, by omega, (old k upper).trans same⟩
    bytes := by
      intro k lower upper j less
      by_cases before : k < pages sz
      · have taken := (loading.frames k lower before).2.1
        rw [old k before, effect.rows _ (loading.not_table lower before) taken
          fun still => taken (allocation.suffix.subset still)]
        exact loading.bytes k lower before j less
      · rw [new k (by omega), (allocation.frames k (by omega) upper).2.2.1, byteAt_zero,
          loading.blank _ (by omega)]
    blank := fun a beyond => loading.blank a (by omega) }

/-- A size below the current one changes nothing that the loop looks at. -/
theorem Loading.stay (smaller : newsz.toNat < sz.toNat)
    (allocation : Allocation t u [r] free' free'' r (pages sz) (pages newsz) frame') :
    Loading s u free free'' r sz frame written image low := by
  have fewer : pages newsz ≤ pages sz := by
    unfold pages
    omega
  have none : Allocation t u [r] free' free'' r (pages sz) (pages sz) frame := by
    have bounds : ∀ {k : Nat}, pages sz ≤ k → ¬ k < pages sz := fun lower => by omega
    refine ⟨allocation.effect, allocation.suffix, ?_, ?_, ?_, ?_⟩
    · have step := allocation.used
      omega
    · exact fun k lower upper => absurd upper (bounds lower)
    · exact fun va _ lower upper => absurd upper (bounds lower)
    · intro r' root va user
      have outside : ¬ (r' = r ∧ pages sz ≤ vpn va ∧ vpn va < pages newsz) := by omega
      have empty : ¬ (r' = r ∧ pages sz ≤ vpn va ∧ vpn va < pages sz) := by omega
      rw [allocation.words r' root va user, if_neg outside, if_neg empty]
  exact loading.grow (le_refl _) none (fun _ _ => rfl) (fun _ _ => rfl)

theorem Loading.allocuvm {exc : Halt → Prop} (below : newsz < KERNBASE)
    (oom : free.length < 1 + 4 * (pages newsz - 1) → exc .outOfMemory) :
    wp (Vm.allocuvm r sz newsz) t (fun res u => res ≠ 0 ∧ res.toNat = max sz.toNat newsz.toNat ∧
      ∃ free'' frame', Loading s u free free'' r res frame' written image low) exc := by
  have start := loading.start
  have room := loading.room
  have used := loading.used
  have few := usable_length loading.sound.nodup loading.sound.usable
  have bound : 4096 * (pages sz + free'.length) ≤ 2 ^ 47 := by
    unfold physPages at room few
    omega
  refine wp_mono (allocuvm_spec loading.sound List.mem_cons_self below (Or.inr bound) ?_ ?_) ?_
  · intro short
    apply oom
    omega
  · rintro ⟨va, user, lower, -, present⟩
    have outside : ¬ (1 ≤ vpn va ∧ vpn va < pages sz) := by omega
    rw [loading.mapped va user, if_neg outside] at present
    exact absurd BitVec.zero_and present
  · rintro res u ⟨rfl, free'', frame', allocation⟩
    have nonzero : ∀ size : AddrT, 1 ≤ pages size → size ≠ 0 := by
      rintro size some rfl
      exact absurd some (by decide)
    by_cases smaller : newsz < sz
    · have less : newsz.toNat < sz.toNat := BitVec.lt_def.mp smaller
      rw [if_pos smaller]
      exact ⟨nonzero sz start, by omega, free'', frame, loading.stay less allocation⟩
    · have larger : sz.toNat ≤ newsz.toNat := BitVec.not_lt.mp smaller
      rw [if_neg smaller]
      obtain ⟨both, old, new⟩ : ∃ both : Nat → AddrT, (∀ k, k < pages sz → both k = frame k) ∧
          ∀ k, pages sz ≤ k → both k = frame' k :=
        ⟨fun k => if k < pages sz then frame k else frame' k, fun k old => if_pos old,
          fun k new => if_neg (not_lt.mpr new)⟩
      have grown := loading.grow larger allocation old new
      exact ⟨nonzero newsz grown.start, by omega, free'', both, grown⟩

end

/-! ## Stores -/

theorem Loading.writePage {q : AddrT} {row : BitVec 9 → AddrT} {log : List AddrT}
    {image' : Nat → Uchar} (loading : Loading s t free free' r sz frame written image low)
    (notTable : ¬ Table t [r] q) (notFree : q ∉ free')
    (own : (q = P2V 0 ∧ low) ∨ ∃ k, 1 ≤ k ∧ k < pages sz ∧ frame k = q)
    (bytes : ∀ k, 1 ≤ k → k < pages sz → ∀ j < 4096,
      byteAt (if frame k = q then row else t.page (frame k)) j = image' (4096 * k + j))
    (blank : ∀ a, 4096 * pages sz ≤ a → image' a = 0)
    (listed : ∀ p ∈ log, p = q ∨ p ∈ written) :
    Loading s (t.setPage q row) free free' r sz frame log image' low := by
  have tables : ∀ p, Table t [r] p → (t.setPage q row).page p = t.page p := by
    intro p table
    rw [Memory.setPage_page, if_neg]
    rintro rfl
    exact notTable table
  exact { loading with
    sound := by
      refine loading.sound.keep ?_ rfl rfl
      rintro p (table | member)
      · exact tables p table
      · rw [Memory.setPage_page, if_neg]
        rintro rfl
        exact notFree member
    mapped := fun va user => (pteWord_of_tables tables List.mem_cons_self user).trans
      (loading.mapped va user)
    balance := fun p => by
      rw [(samePaths_of_tables tables).owned_iff]
      exact loading.balance p
    kernel := fun i upper => by
      rw [tables r ⟨r, List.mem_cons_self, [], userPath_nil, by decide, rfl⟩]
      exact loading.kernel i upper
    kept := by
      intro p other notLow
      rw [Memory.setPage_page, if_neg, loading.kept p other notLow]
      rintro rfl
      rcases own with ⟨first, isLow⟩ | ⟨k, lower, upper, rfl⟩
      · exact notLow first isLow
      · exact other (loading.frames k lower upper).1
    logged := by
      intro p member
      rcases listed p member with rfl | before
      · exact own
      · exact loading.logged p before
    bytes := by
      intro k lower upper j less
      rw [Memory.setPage_page]
      exact bytes k lower upper j less
    blank := blank }

def pageWritten (image : Nat → Uchar) (k : Nat) (row : BitVec 9 → AddrT) (a : Nat) : Uchar :=
  if 4096 * k ≤ a ∧ a < 4096 * k + 4096 then byteAt row (a - 4096 * k) else image a

theorem Loading.store {k : Nat} (loading : Loading s t free free' r sz frame written image low)
    (lower : 1 ≤ k) (upper : k < pages sz) (row : BitVec 9 → AddrT) :
    Loading s (t.setPage (frame k) row) free free' r sz frame (frame k :: written)
      (pageWritten image k row) low := by
  refine loading.writePage (loading.not_table lower upper) (loading.frames k lower upper).2.1
    (Or.inr ⟨k, lower, upper, rfl⟩) ?_ ?_ fun p member => List.mem_cons.mp member
  · intro k' lower' upper' j less
    unfold pageWritten
    by_cases same : k' = k
    · rw [same, if_pos rfl, if_pos (by omega), show 4096 * k + j - 4096 * k = j by omega]
    · have other : frame k' ≠ frame k := fun frames =>
        same (loading.frame_inj lower' upper' lower upper frames)
      rw [if_neg other, if_neg (by omega)]
      exact loading.bytes k' lower' upper' j less
  · intro a beyond
    rw [pageWritten, if_neg (by omega)]
    exact loading.blank a beyond

theorem Loading.storeLow (loading : Loading s t free free' r sz frame written image low)
    (isLow : low) (refused : ¬ Usable s.kend (P2V 0)) (row : BitVec 9 → AddrT) :
    Loading s (t.setPage (P2V 0) row) free free' r sz frame (P2V 0 :: written) image low := by
  have apart : ∀ p ∈ free, p ≠ P2V 0 := by
    rintro p member rfl
    exact refused (loading.usable _ member)
  refine loading.writePage (fun table => apart _ (loading.table table) rfl)
    (fun member => apart _ (loading.suffix.subset member) rfl) (Or.inl ⟨rfl, isLow⟩) ?_
    loading.blank fun p member => List.mem_cons.mp member
  intro k lower upper j less
  rw [if_neg (apart _ (loading.frames k lower upper).1)]
  exact loading.bytes k lower upper j less

/-! ## The loader's calls -/

section Calls

variable {read : Uint → Uint → Option (List Uchar)} {l : Load} {exc : Halt → Prop} {α : Type}

theorem wp_liftVm {call : VmM α} {post : α → Load → Prop} :
    wp ((readLoader read).vm call) l post exc ↔
      wp call l.mem (fun a t => post a { l with mem := t }) exc := by
  change wp (liftVm call) l post exc ↔ _
  unfold wp liftVm
  cases call l.mem with
  | error e => rfl
  | ok result => rfl

variable {post : Option (List Uchar) → Load → Prop} {off i : Uint} {bytes : List Uchar}
    {addr : Nat}

theorem wp_readi {n : Uint} :
    wp ((readLoader read).readi off n) l post exc ↔ post (read off n) l := Iff.rfl

theorem wp_store {page : AddrT} {post : Unit → Load → Prop} :
    wp ((readLoader read).store page bytes) l post exc ↔
      post () ⟨l.mem.setPage page (storeBytes (l.mem.page page) bytes), page :: l.written⟩ := Iff.rfl

def headerOf (read : Uint → Uint → Option (List Uchar)) (off : Uint) (size : Nat) :
    Option (List Uchar) :=
  match read off (BitVec.ofNat 32 size) with
  | none => none
  | some bytes => if bytes.length ≠ size then none else some bytes

theorem wp_readHeader {size : Nat} :
    wp ((readLoader read).readHeader off size) l post exc ↔
      post (headerOf read off size) l := by
  rw [Loader.readHeader, wp_bind, wp_readi, headerOf]
  cases read off (BitVec.ofNat 32 size) with
  | none => rfl
  | some bytes => rfl

/-! ## A segment -/

def chunk (filesz i : Uint) : Uint :=
  if filesz - i < PGSIZE.setWidth 32 then filesz - i else PGSIZE.setWidth 32

def segmentByte (read : Uint → Uint → Option (List Uchar)) (offset filesz : Uint) (d : Nat) : Uchar :=
  let i : Uint := BitVec.ofNat 32 (d / 4096 * 4096)
  ((read (offset + i) (chunk filesz i)).getD []).getD (d % 4096) 0

def placed (read : Uint → Uint → Option (List Uchar)) (offset filesz : Uint) (addr upto : Nat)
    (image : Nat → Uchar) (a : Nat) : Uchar :=
  if addr ≤ a ∧ a < addr + min upto filesz.toNat then segmentByte read offset filesz (a - addr)
  else image a

variable {filesz offset : Uint} {uva : AddrT}

theorem toNat_chunk (more : i.toNat < filesz.toNat) :
    (chunk filesz i).toNat = min 4096 (filesz.toNat - i.toNat) := by
  have page : (PGSIZE.setWidth 32 : Uint).toNat = 4096 := rfl
  have left : (filesz - i).toNat = filesz.toNat - i.toNat := by
    rw [BitVec.toNat_sub]
    omega
  unfold chunk
  split
  · rename_i less
    have := BitVec.lt_def.mp less
    omega
  · rename_i least
    have := BitVec.le_def.mp (BitVec.not_lt.mp least)
    omega

theorem placed_page {k : Nat} {old : BitVec 9 → AddrT} (here : 4096 * k = addr + i.toNat) (aligned : i.toNat % 4096 = 0)
    (more : i.toNat < filesz.toNat) (found : read (offset + i) (chunk filesz i) = some bytes)
    (whole : bytes.length = (chunk filesz i).toNat)
    (same : ∀ j < 4096, byteAt old j = placed read offset filesz addr i.toNat image (4096 * k + j))
    (a : Nat) : placed read offset filesz addr (i.toNat + 4096) image a =
      pageWritten (placed read offset filesz addr i.toNat image) k (storeBytes old bytes) a := by
  have size := toNat_chunk more
  rw [← whole] at size
  by_cases page : 4096 * k ≤ a ∧ a < 4096 * k + 4096
  · rw [pageWritten, if_pos page, byteAt_storeBytes (by omega), same _ (by omega),
      show 4096 * k + (a - 4096 * k) = a by omega]
    have before : ¬ (addr ≤ a ∧ a < addr + min i.toNat filesz.toNat) := by omega
    unfold placed
    rw [if_neg before]
    by_cases inside : a - 4096 * k < bytes.length
    · have start : (a - addr) / 4096 * 4096 = i.toNat := by omega
      have offs : (a - addr) % 4096 = a - 4096 * k := by omega
      have value : BitVec.ofNat 32 i.toNat = i := by simp
      rw [if_pos (by omega), segmentByte]
      simp only [start, offs, value, found, Option.getD_some]
      simp only [List.getD_eq_getElem?_getD, List.getElem?_eq_getElem inside, Option.getD_some]
    · rw [if_neg (by omega), List.getD_eq_getElem?_getD, List.getElem?_eq_none (by omega),
        Option.getD_none]
  · rw [pageWritten, if_neg page]
    unfold placed
    refine if_congr ?_ rfl rfl
    omega

theorem placed_end {upto : Nat} (enough : filesz.toNat ≤ upto) :
    placed read offset filesz addr upto image =
      placed read offset filesz addr filesz.toNat image := by
  funext a
  rw [placed, placed, Nat.min_eq_right enough, Nat.min_self]

section

variable (loading : Loading s t free free' r sz frame written image low)

include loading

variable {pgtab : AddrT}

theorem Loading.entry (user : User uva) (table : follow (child t) r (tablePath uva) = some pgtab) :
    t.page pgtab (PTX uva) =
      if 1 ≤ vpn uva ∧ vpn uva < pages sz then newWord (frame (vpn uva)) else 0 := by
  have word := loading.mapped uva user
  unfold pteWord at word
  rw [table] at word
  exact word

theorem Loading.has_table
    (user : User uva) (lower : 1 ≤ vpn uva) (upper : vpn uva < pages sz) :
    follow (child t) r (tablePath uva) ≠ none := by
  intro none
  have word := (loading.mapped uva user).trans (if_pos ⟨lower, upper⟩)
  unfold pteWord at word
  rw [none] at word
  have present := present_newWord (frame (vpn uva))
  rw [← word] at present
  exact absurd BitVec.zero_and present

theorem Loading.storeEntry (user : User uva)
    (table : follow (child t) r (tablePath uva) = some pgtab) (upper : vpn uva < pages sz)
    (first : vpn uva = 0 → low ∧ ¬ Usable s.kend (P2V 0)) (row : BitVec 9 → AddrT) :
    Loading s (t.setPage (P2V (PTE_ADDR (t.page pgtab (PTX uva)))) row) free free' r sz frame
      (P2V (PTE_ADDR (t.page pgtab (PTX uva))) :: written) (pageWritten image (vpn uva) row) low := by
  rw [loading.entry user table]
  by_cases lower : 1 ≤ vpn uva
  · rw [if_pos ⟨lower, upper⟩, (loading.frames _ lower upper).2.2]
    exact loading.store lower upper row
  · have zero : vpn uva = 0 := by omega
    have address : P2V (PTE_ADDR 0) = P2V 0 := by decide
    rw [if_neg (fun both => lower both.1), address]
    refine (loading.storeLow (first zero).1 (first zero).2 row).congr fun a above => ?_
    rw [pageWritten, if_neg (by omega)]

end

theorem loaduvmLoop_spec {addr : AddrT} (aligned : Aligned addr)
    (first : addr.toNat < 4096 → low ∧ ¬ Usable s.kend (P2V 0) ∧ exc .loaduvmExist)
    (inside : addr.toNat + filesz.toNat ≤ sz.toNat) (base : Nat → Uchar) :
    ∀ (fuel : Nat) (i : Uint) (t : Memory) (written : List AddrT),
    Loading s t free free' r sz frame written
      (placed read offset filesz addr.toNat i.toNat base) low → i.toNat % 4096 = 0 →
    (filesz.toNat + 4095) / 4096 - i.toNat / 4096 < fuel →
    wp ((readLoader read).loaduvmLoop r addr offset filesz fuel i) ⟨t, written⟩
      (fun ok l => ∃ image, Loading s l.mem free free' r sz frame l.written image low ∧
        (ok = true → image = placed read offset filesz addr.toNat filesz.toNat base)) exc := by
  intro fuel
  induction fuel with
  | zero => intro i t written _ _ enough; omega
  | succ fuel ih =>
    intro i t written loading aligned' enough
    rw [Loader.loaduvmLoop]
    by_cases more : i < filesz
    · have less : i.toNat < filesz.toNat := BitVec.lt_def.mp more
      have room := loading.room
      -- What is mapped fits in physical memory, so neither sum wraps.
      have small : sz.toNat < 2 ^ 30 := by
        unfold physPages pages at room
        omega
      have va : (addr + i.setWidth 64).toNat = addr.toNat + i.toNat := by
        rw [BitVec.toNat_add, BitVec.toNat_setWidth]
        omega
      have next : (i + PGSIZE.setWidth 32).toNat = i.toNat + 4096 := by
        have page : (PGSIZE.setWidth 32 : Uint).toNat = 4096 := rfl
        rw [BitVec.toNat_add, page]
        omega
      generalize addr + i.setWidth 64 = uva at va ⊢
      have user : User uva := by
        unfold User
        omega
      unfold Aligned at aligned
      have upper : vpn uva < pages sz := by
        unfold vpn pages
        omega
      have here : 4096 * vpn uva = addr.toNat + i.toNat := by
        unfold vpn
        omega
      rw [if_pos more, wp_bind, wp_liftVm, wp_walkpgdir_false]
      cases table : follow (child t) r (tablePath uva) with
      | none =>
        by_cases low : addr.toNat < 4096
        · exact (first low).2.2
        · exact absurd table (loading.has_table user (by omega) upper)
      | some pgtab =>
        simp only [Option.map_some, wp_bind, wp_liftVm, wp_get, wp_readi]
        change wp (match read (offset + i) (chunk filesz i) with
          | none => _
          | some bytes => _) _ _ _
        cases found : read (offset + i) (chunk filesz i) with
        | none => exact ⟨_, loading, by simp⟩
        | some bytes =>
          rw [wp_bind, wp_store]
          have zero : vpn uva = 0 → addr.toNat < 4096 := by omega
          have stored := loading.storeEntry user table upper
            (fun none => ⟨(first (zero none)).1, (first (zero none)).2.1⟩)
            (storeBytes (t.page (P2V (PTE_ADDR (t.page pgtab (PTX uva))))) bytes)
          by_cases short : bytes.length ≠ (chunk filesz i).toNat
          · rw [if_pos (by exact short)]
            exact ⟨_, stored, by simp⟩
          · rw [if_neg (by exact short)]
            refine ih _ _ _ (stored.congr fun a above => ?_) (by omega) (by omega)
            rw [next]
            by_cases lower : 1 ≤ vpn uva
            · refine placed_page here aligned' less found (not_not.mp short) ?_ a
              rw [loading.entry user table, if_pos ⟨lower, upper⟩,
                (loading.frames _ lower upper).2.2]
              exact loading.bytes _ lower upper
            · rw [pageWritten, if_neg (by omega)]
              unfold placed
              refine if_congr ?_ rfl rfl
              omega
    · have least := BitVec.le_def.mp (BitVec.not_lt.mp more)
      rw [if_neg more]
      exact ⟨_, loading, fun _ => placed_end least⟩

theorem loaduvm_spec {addr : AddrT} {base : Nat → Uchar}
    (loading : Loading s l.mem free free' r sz frame l.written base low)
    (aligned : addr % PGSIZE = 0)
    (first : addr = 0 → filesz ≠ 0 → low ∧ ¬ Usable s.kend (P2V 0) ∧ exc .loaduvmExist)
    (inside : addr.toNat + filesz.toNat ≤ sz.toNat) :
    wp ((readLoader read).loaduvm r addr offset filesz) l
      (fun ok l => ∃ image, Loading s l.mem free free' r sz frame l.written image low ∧
        (ok = true → image = placed read offset filesz addr.toNat filesz.toNat base)) exc := by
  rw [Loader.loaduvm, if_neg (not_not.mpr aligned)]
  have aligned := (aligned_iff addr).mp aligned
  have nothing : ∀ size : Uint, placed read offset size addr.toNat 0 base = base := by
    intro size
    funext a
    rw [placed, if_neg (by omega)]
  by_cases empty : filesz = 0
  · subst empty
    rw [Loader.loaduvmLoop, if_neg (by decide)]
    exact ⟨base, loading, fun _ => (nothing 0).symm⟩
  · refine loaduvmLoop_spec aligned (fun small => first ?_ empty) inside base _ 0 l.mem l.written ?_
      rfl (by omega)
    · unfold Aligned at aligned
      exact BitVec.eq_of_toNat_eq (show addr.toNat = 0 by omega)
    · rw [show (0 : Uint).toNat = 0 from rfl, nothing]
      exact loading

end Calls

/-! ## Program headers -/

def Proghdr.SkipsFirst (ph : Proghdr) : Prop :=
  ph.filesz ≤ ph.memsz → (ph.filesz.setWidth 32 : Uint) ≠ 0 → ph.vaddr ≠ 0

/-- There are pages for the segment and for all below it, each with its tables. -/
def Proghdr.Fits (free : List AddrT) (ph : Proghdr) : Prop :=
  ph.vaddr + ph.memsz < KERNBASE → 1 + 4 * (pages (ph.vaddr + ph.memsz) - 1) ≤ free.length

/-- What `exec` tests of a segment that it loads. -/
structure Proghdr.Checked (ph : Proghdr) : Prop where
  sizes : ph.filesz.toNat ≤ ph.memsz.toNat
  sum : (ph.vaddr + ph.memsz).toNat = ph.vaddr.toNat + ph.memsz.toNat
  aligned : ph.vaddr.toNat % 4096 = 0

def loadSegments (read : Uint → Uint → Option (List Uchar)) : Nat → Uint → List Proghdr
  | 0, _ => []
  | count + 1, off =>
    match headerOf read off sizeofProghdr with
    | none => []
    | some bytes =>
      if (Proghdr.ofBytes bytes).type ≠ ELF_PROG_LOAD then
        loadSegments read count (off + BitVec.ofNat 32 sizeofProghdr)
      else Proghdr.ofBytes bytes :: loadSegments read count (off + BitVec.ofNat 32 sizeofProghdr)

def placeSegment (read : Uint → Uint → Option (List Uchar)) (image : Nat → Uchar) (ph : Proghdr) :
    Nat → Uchar :=
  placed read (ph.off.setWidth 32) (ph.filesz.setWidth 32) ph.vaddr.toNat
    (ph.filesz.setWidth 32 : Uint).toNat image

structure SegmentsLoaded (read : Uint → Uint → Option (List Uchar)) (segments : List Proghdr)
    (image image' : Nat → Uchar) (size size' : Nat) : Prop where
  image_eq : image' = segments.foldl (placeSegment read) image
  size_eq : size' = segments.foldl (fun n ph => max n (ph.vaddr + ph.memsz).toNat) size
  checked : ∀ ph ∈ segments, ph.Checked

theorem allocuvm_refuses (above : ¬ newsz < KERNBASE) {post : AddrT → Memory → Prop}
    {exc : Halt → Prop} (result : post 0 t) : wp (Vm.allocuvm r sz newsz) t post exc := by
  rw [Vm.allocuvm, if_pos (BitVec.not_lt.mp above)]
  exact result

theorem toNat_add_of_not_lt {a b : AddrT} (noWrap : ¬ a + b < a) :
    (a + b).toNat = a.toNat + b.toNat := by
  have whole : ¬ (a + b).toNat < a.toNat := fun less => noWrap (BitVec.lt_def.mpr less)
  rw [BitVec.toNat_add] at whole ⊢
  omega

section Headers

variable {read : Uint → Uint → Option (List Uchar)} {exc : Halt → Prop}

/-- What the loop needs of its segments: one in the first page is tolerated, and so is a
lack of memory. -/
def Tolerated (s : Memory) (free : List AddrT) (low : Prop) (exc : Halt → Prop) (ph : Proghdr) :
    Prop :=
  (¬ ph.SkipsFirst → low ∧ ¬ Usable s.kend (P2V 0) ∧ exc .loaduvmExist) ∧
    (¬ ph.Fits free → exc .outOfMemory)

def LoopEnd (s : Memory) (free : List AddrT) (r : AddrT) (low : Prop)
    (read : Uint → Uint → Option (List Uchar)) (segments : List Proghdr) (image : Nat → Uchar)
    (size : Nat) (res : Option AddrT) (l : Load) : Prop :=
  ∃ sz frame free' image', Loading s l.mem free free' r sz frame l.written image' low ∧
    ∀ sz', res = some sz' → sz' = sz ∧ SegmentsLoaded read segments image image' size sz.toNat

variable {size : Nat} {segments : List Proghdr} {l : Load}

theorem Loading.stopped {image₀ : Nat → Uchar}
    (loading : Loading s l.mem free free' r sz frame l.written image low) :
    LoopEnd s free r low read segments image₀ size none l :=
  ⟨sz, frame, free', image, loading, nofun⟩

theorem LoopEnd.cons {ph : Proghdr} {image image' : Nat → Uchar} {size' : Nat} {res : Option AddrT}
    (rest : LoopEnd s free r low read segments image' size' res l) (checked : ph.Checked)
    (image_eq : image' = placeSegment read image ph)
    (size_eq : size' = max size (ph.vaddr + ph.memsz).toNat) :
    LoopEnd s free r low read (ph :: segments) image size res l := by
  obtain ⟨sz, frame, free', last, loading, ends⟩ := rest
  refine ⟨sz, frame, free', last, loading, fun sz' found => ?_⟩
  obtain ⟨same, loaded⟩ := ends sz' found
  refine ⟨same, ?_, ?_, ?_⟩
  · rw [loaded.image_eq, image_eq]
    rfl
  · rw [loaded.size_eq, size_eq]
    rfl
  · intro ph' member
    rcases List.mem_cons.mp member with rfl | later
    · exact checked
    · exact loaded.checked ph' later

theorem loadLoop_spec : ∀ (count : Nat) (off : Uint) (sz : AddrT) (frame : Nat → AddrT)
    (free' : List AddrT) (image : Nat → Uchar) (l : Load),
    Loading s l.mem free free' r sz frame l.written image low →
    (∀ ph ∈ loadSegments read count off, Tolerated s free low exc ph) →
    wp ((readLoader read).loadLoop r count off sz) l
      (LoopEnd s free r low read (loadSegments read count off) image sz.toNat) exc := by
  intro count
  induction count with
  | zero =>
    intro off sz frame free' image l loading _
    refine ⟨sz, frame, free', image, loading, fun size result => ?_⟩
    cases result
    exact ⟨rfl, rfl, rfl, by simp [loadSegments]⟩
  | succ count ih =>
    intro off sz frame free' image l loading tolerated
    rw [Loader.loadLoop, wp_bind, wp_readHeader]
    cases found : headerOf read off sizeofProghdr with
    | none => exact loading.stopped
    | some bytes =>
      rw [loadSegments, found] at tolerated ⊢
      dsimp only at tolerated ⊢
      generalize Proghdr.ofBytes bytes = ph at tolerated ⊢
      by_cases other : ph.type ≠ ELF_PROG_LOAD
      · rw [if_pos other] at tolerated
        simp only [if_pos other]
        exact ih _ sz frame free' image l loading tolerated
      rw [if_neg other] at tolerated
      simp only [if_neg other]
      obtain ⟨first, fits⟩ := tolerated ph List.mem_cons_self
      by_cases short : ph.memsz < ph.filesz
      · rw [if_pos short]
        exact loading.stopped
      rw [if_neg short]
      by_cases wraps : ph.vaddr + ph.memsz < ph.vaddr
      · rw [if_pos wraps]
        exact loading.stopped
      rw [if_neg wraps, wp_bind, wp_liftVm]
      have sum := toNat_add_of_not_lt wraps
      by_cases below : ph.vaddr + ph.memsz < KERNBASE
      · refine wp_mono (loading.allocuvm below ?_) ?_
        · intro few
          exact fits fun enough => absurd (enough below) (by omega)
        · rintro sz' u ⟨nonzero, covers, free'', frame', grown⟩
          rw [if_neg nonzero]
          by_cases unaligned : ph.vaddr % PGSIZE ≠ 0
          · rw [if_pos unaligned]
            exact Loading.stopped (l := ⟨u, l.written⟩) grown
          have sizes : ph.filesz.toNat ≤ ph.memsz.toNat := BitVec.not_lt.mp short
          have size : (ph.filesz.setWidth 32 : Uint).toNat ≤ ph.memsz.toNat := by
            rw [BitVec.toNat_setWidth]
            omega
          have zero : ph.vaddr = 0 → (ph.filesz.setWidth 32 : Uint) ≠ 0 → ¬ ph.SkipsFirst :=
            fun isZero some skips => skips (BitVec.not_lt.mp short) some isZero
          have checked : ph.Checked := ⟨sizes, sum, (aligned_iff _).mp (not_not.mp unaligned)⟩
          rw [if_neg unaligned, wp_bind]
          refine wp_mono (loaduvm_spec (l := ⟨u, l.written⟩) grown (not_not.mp unaligned)
            (fun isZero some => first (zero isZero some)) (by omega)) ?_
          rintro ok l' ⟨image', loaded, whole⟩
          cases ok with
          | false => exact loaded.stopped
          | true =>
            refine wp_mono (ih _ sz' frame' free'' image' l' loaded
              fun ph' member => tolerated ph' (List.mem_cons_of_mem ph member)) ?_
            exact fun res l'' rest => rest.cons checked (whole rfl) covers
      · apply allocuvm_refuses below
        rw [if_pos rfl]
        exact loading.stopped

end Headers

/-! ## The whole loader -/

theorem loading_setupkvm (sound : Sound s [] (r :: free)) :
    Loading s (takenPage s r (rootRow s.kpdpt)) (r :: free) free r PGSIZE (fun _ => 0) []
      (fun _ => 0) low := by
  have one : pages PGSIZE = 1 := by decide
  have nothing : ∀ {k : Nat}, 1 ≤ k → ¬ k < pages PGSIZE := fun lower => by omega
  exact {
    sound := sound_newRoot sound
    usable := sound.usable
    kend := rfl
    suffix := List.suffix_cons r free
    used := by simp
    start := by omega
    room := by omega
    mapped := by
      intro va user
      have outside : ¬ (1 ≤ vpn va ∧ vpn va < pages PGSIZE) := fun both => nothing both.1 both.2
      rw [if_neg outside, pteWord]
      cases found : follow (child (takenPage s r (rootRow s.kpdpt))) r (tablePath va) with
      | none => rfl
      | some pgtab =>
        have root := ((follow_newRoot (userPath_tablePath user)).mp found).1
        exact absurd root (by simp [tablePath])
    frames := fun k lower upper => absurd upper (nothing lower)
    balance := by
      intro p
      rw [owned_newRoot sound, List.mem_cons]
      constructor
      · rintro ((rfl | ⟨r', root, -⟩) | member)
        · exact Or.inl rfl
        · exact absurd root List.not_mem_nil
        · exact Or.inr member
      · rintro (rfl | member)
        · exact Or.inl (Or.inl rfl)
        · exact Or.inr member
    kernel := fun i _ => by rw [takenPage_page, if_pos rfl]
    kept := by
      intro p other _
      rw [takenPage_page, if_neg]
      rintro rfl
      exact other List.mem_cons_self
    logged := by simp
    bytes := fun k lower upper => absurd upper (nothing lower)
    blank := fun _ _ => rfl }

section Load

variable {read : Uint → Uint → Option (List Uchar)} {exc : Halt → Prop}

def headerRead (read : Uint → Uint → Option (List Uchar)) : Option Elfhdr :=
  (headerOf read 0 sizeofElfhdr).map Elfhdr.ofBytes

def Elfhdr.segments (read : Uint → Uint → Option (List Uchar)) (elf : Elfhdr) : List Proghdr :=
  loadSegments read elf.phnum.toNat (elf.phoff.setWidth 32)

inductive LoadEnd (s : Memory) (free : List AddrT) (read : Uint → Uint → Option (List Uchar))
    (low : Prop) : Loaded → Load → Prop
  | refused : LoadEnd s free read low (.bad none) ⟨s, []⟩
  | stopped {r sz : AddrT} {frame : Nat → AddrT} {free' : List AddrT} {image : Nat → Uchar} {l : Load}
      (loading : Loading s l.mem free free' r sz frame l.written image low) :
      LoadEnd s free read low (.bad (some r)) l
  | program {elf : Elfhdr} {r sz : AddrT} {frame : Nat → AddrT} {free' : List AddrT}
      {image : Nat → Uchar} {l : Load} (header : headerRead read = some elf)
      (loading : Loading s l.mem free free' r sz frame l.written image low)
      (loaded : SegmentsLoaded read (elf.segments read) (fun _ => 0) image 4096 sz.toNat) :
      LoadEnd s free read low (.program elf r sz) l

theorem load_spec (allocator : Sound s [] free) (oom : free = [] → exc .outOfMemory)
    (tolerated : ∀ elf, headerRead read = some elf → ∀ ph ∈ elf.segments read,
      Tolerated s free low exc ph) :
    wp (readLoader read).load ⟨s, []⟩ (LoadEnd s free read low) exc := by
  rw [Loader.load, wp_bind, wp_readHeader]
  cases found : headerOf read 0 sizeofElfhdr with
  | none => exact .refused
  | some bytes =>
    have header : headerRead read = some (Elfhdr.ofBytes bytes) := by
      rw [headerRead, found]
      rfl
    dsimp only
    generalize Elfhdr.ofBytes bytes = elf at header ⊢
    by_cases magic : elf.magic ≠ ELF_MAGIC
    · rw [if_pos magic]
      exact .refused
    rw [if_neg magic, wp_bind, wp_liftVm]
    refine setupkvm_spec allocator oom ?_
    rintro r rest rfl
    rw [if_neg (allocator.usable r List.mem_cons_self).ne_zero, wp_bind]
    refine wp_mono (loadLoop_spec _ _ PGSIZE _ rest _ ⟨_, []⟩ (loading_setupkvm allocator)
      (tolerated elf header)) ?_
    rintro result l ⟨sz, frame, free', image, loading, ends⟩
    cases result with
    | none => exact .stopped loading
    | some size =>
      obtain ⟨rfl, loaded⟩ := ends size rfl
      exact .program header loading loaded

end Load

end Xv6Tracing.Exec
