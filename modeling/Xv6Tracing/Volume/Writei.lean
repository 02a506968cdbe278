import Xv6Tracing.Volume.Alloc

/-!
# Writing a file in the kernel

`writei` puts its bytes into the file from the given offset on, allocating blocks
on the way, and moves the size if it wrote past it.  Every other file keeps its
contents, and the inode on disk is the cached one again at the end.
-/

set_option autoImplicit false

namespace Xv6Tracing.Volume

open Function (update update_eq_self update_idem update_of_ne update_self)

open Lib

variable {s : Vol} {a : Fin NINODE} {view : Nat → Dinode} {i : Nat}

theorem Kept.data {sb : Superblock} {disk : Disk} (kept : Kept sb disk view) {bn : Nat}
    (data : Bytes) (held : holding sb.ninodes view disk (i, placeOf bn) ≠ 0) :
    Kept sb (update disk (holding sb.ninodes view disk (i, placeOf bn)) data) view := by
  obtain ⟨high, exists_, -⟩ := kept.owns.used_own held
  have start := kept.layout.bmap_low
  have map := kept.layout.bblock exists_
  have marks : ∀ c < sb.size, usedAt sb (update disk
      (holding sb.ninodes view disk (i, placeOf bn)) data) c = usedAt sb disk c := by
    intro c inRange
    have low := (kept.layout.bblock inRange).2
    exact usedAt_congr sb (update_of_ne (by omega) _ _)
  refine ⟨kept.layout, ?_, ?_, fun c below => ?_⟩
  · rw [superAt, update_of_ne (by omega)]
    exact kept.super
  · rw [holding_data kept.owns]
    exact kept.owns.congr (inUse_congr marks)
  · rw [marks c (lt_of_lt_of_le below kept.layout.nonempty)]
    exact kept.reserved c below

/-- What the loop of `writei` does. -/
structure WroteTo (s : Vol) (i off : Nat) (src : List Uchar) (view : Nat → Dinode) (d : Dinode)
    (disk' : Disk) : Prop where
  wrote : Wrote s.sb.ninodes i off src view s.disk (Function.update view i d) disk'
  kept : Kept s.sb disk' (Function.update view i d)
  inodes : ∀ j < s.sb.ninodes, disk' (IBLOCK s.sb j) = s.disk (IBLOCK s.sb j)

theorem WroteTo.refl (off : Nat) (kept : Kept s.sb s.disk view) :
    WroteTo s i off [] view (view i) s.disk := by
  refine ⟨?_, ?_, fun _ _ => rfl⟩ <;> rw [update_eq_self]
  · exact Wrote.refl off
  · exact kept

theorem WroteTo.trans {off : Nat} {src src' : List Uchar} {d d' : Dinode} {disk' disk'' : Disk}
    (first : WroteTo s i off src view d disk')
    (second : WroteTo (s.put a d disk') i (off + src.length) src' (update view i d) d'
      disk'') : WroteTo s i off (src ++ src') view d' disk'' := by
  have wrote := second.wrote
  have kept := second.kept
  simp only [Vol.put_sb, Vol.put_disk, update_idem] at wrote kept
  exact ⟨first.wrote.trans wrote, kept, fun j inRange =>
    (second.inodes j inRange).trans (first.inodes j inRange)⟩

theorem Extends.wroteTo {bn : Nat} (off : Nat) (src : List Uchar) {d : Dinode} {disk' : Disk}
    (extended : Extends s i (Needs bn) view d disk')
    (mapped : holding s.sb.ninodes (update view i d) disk' (i, placeOf bn) ≠ 0)
    (fits : off + src.length ≤ BSIZE) (some_ : src ≠ []) :
    WroteTo s i (bn * BSIZE + off) src view d
      (update disk' (holding s.sb.ninodes (update view i d) disk' (i, placeOf bn))
        ((disk' (holding s.sb.ninodes (update view i d) disk' (i, placeOf bn))).write off
          src)) := by
  have maps : MapsBlock s.sb.ninodes i bn view s.disk (update view i d) disk' :=
    ⟨extended.grows, mapped⟩
  refine ⟨maps.wrote off src extended.kept.owns fits some_, extended.kept.data _ mapped,
    fun j inRange => ?_⟩
  have inode := extended.kept.layout.iblock inRange
  obtain ⟨high, exists_, -⟩ := extended.kept.owns.used_own mapped
  have map := extended.kept.layout.bblock exists_
  rw [update_of_ne (by omega)]
  exact extended.inodes j inRange

theorem writeiLoop_spec (fuel : Nat) : ∀ {s : Vol} {view : Nat → Dinode} {off : Nat}
    {src : List Uchar}, Kept s.sb s.disk view → view i = (s.icache a).toDinode →
    i < s.sb.ninodes → (view i).type ≠ 0 → src.length ≤ fuel →
    off + src.length ≤ MAXFILE * BSIZE →
    wp (writeiLoop a fuel off src) s (fun _ t => ∃ d disk', t = s.put a d disk' ∧
      WroteTo s i off src view d disk') NoBlock := by
  induction fuel with
  | zero =>
    intro s view off src kept cached _ _ enough _
    have none : src = [] := List.length_eq_zero_iff.mp (Nat.le_zero.mp enough)
    subst none
    rw [writeiLoop, wp_pure]
    exact ⟨view i, s.disk, by rw [cached, Vol.put_self], WroteTo.refl off kept⟩
  | succ fuel ih =>
    intro s view off src kept cached exists_ allocated enough fits
    unfold writeiLoop
    split
    · grind [wp_pure, Vol.put_self, WroteTo.refl]
    · rename_i some_
      have len : 0 < src.length := List.length_pos_iff.mpr some_
      have inRange : off / BSIZE < MAXFILE :=
        Nat.div_lt_of_lt_mul (by rw [Nat.mul_comm]; omega)
      have position : off / BSIZE * BSIZE + off % BSIZE = off := Nat.div_add_mod' off BSIZE
      have small : off % BSIZE < BSIZE := Nat.mod_lt _ (by decide)
      generalize chunk : min src.length (BSIZE - off % BSIZE) = m
      have taken : (src.take m).length = m := List.length_take_of_le (by omega)
      refine wp_call (bmap_spec kept cached exists_ allocated inRange) ?_
      rintro b t ⟨d, disk', rfl, extended, nonzero, at_⟩
      have mapped : holding s.sb.ninodes (update view i d) disk'
          (i, placeOf (off / BSIZE)) ≠ 0 := by
        rw [← at_]
        exact toNat_ne_zero nonzero
      have first := extended.wroteTo (off % BSIZE) (src.take m) mapped
        (by rw [taken]; omega) (by rw [← List.length_pos_iff, taken]; omega)
      rw [position, ← at_] at first
      refine wp_bind.mpr (bread_any (Or.inr rfl) ?_)
      simp only [log_write, wp_bind, wp_modify, Vol.put_disk]
      have self : update view i d i = d := update_self ..
      have kind : (update view i d i).type ≠ 0 := by
        rw [extended.grows.fields]
        exact allocated
      set disk₁ := update disk' b.toNat ((disk' b.toNat).write (off % BSIZE) (src.take m))
      have cached₁ : update view i d i = ((s.put a d disk₁).icache a).toDinode := by
        rw [self, Vol.put_icache_self]
      have shorter : (src.drop m).length ≤ fuel := by
        rw [List.length_drop]
        omega
      have fits₁ : off + m + (src.drop m).length ≤ MAXFILE * BSIZE := by
        rw [List.length_drop]
        omega
      change wp _ (s.put a d disk₁) _ _
      refine wp_mono (ih first.kept cached₁ exists_ kind shorter fits₁) ?_
      rintro - t ⟨d', disk'', rfl, second⟩
      refine ⟨d', disk'', by rw [Vol.put_put], ?_⟩
      have both : WroteTo s i off (src.take m ++ src.drop m) view d' disk'' :=
        first.trans (by rw [taken]; exact second)
      rwa [List.take_append_drop] at both

/-! ## Inode blocks -/

section InodeBlocks

variable {sb : Superblock} {disk disk' : Disk} {view' : Nat → Dinode}

theorem Kept.behind (kept : Kept sb disk view) (high : ∀ b, sb.bmapstart ≤ b → disk' b = disk b)
    (x : Nat × Nat) (held : holding sb.ninodes view disk x ≠ 0) :
    disk' (holding sb.ninodes view disk x) = disk (holding sb.ninodes view disk x) := by
  obtain ⟨above, exists_, -⟩ := kept.owns.used_own held
  have map := kept.layout.bblock exists_
  exact high _ (by omega)

/-- Inode blocks may change as long as types and addresses do not. -/
theorem Kept.inodes (kept : Kept sb disk view)
    (types : ∀ j < sb.ninodes, (view' j).type = 0 ↔ (view j).type = 0)
    (addrs : ∀ j < sb.ninodes, (view j).type ≠ 0 → (view' j).addrs = (view j).addrs)
    (first : disk' 1 = disk 1) (high : ∀ b, sb.bmapstart ≤ b → disk' b = disk b) :
    Kept sb disk' view' := by
  have marks : ∀ c < sb.size, usedAt sb disk' c = usedAt sb disk c := by
    intro c inRange
    exact usedAt_congr sb (high _ (kept.layout.bblock inRange).1)
  refine ⟨kept.layout, ?_, ?_, fun c below => ?_⟩
  · rw [superAt, first]
    exact kept.super
  · rw [holding_apart addrs (kept.behind high) types]
    exact kept.owns.congr (inUse_congr marks)
  · rw [marks c (lt_of_lt_of_le below kept.layout.nonempty)]
    exact kept.reserved c below

end InodeBlocks

end Xv6Tracing.Volume
