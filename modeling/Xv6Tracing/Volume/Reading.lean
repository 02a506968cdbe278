import Xv6Tracing.Volume.Inode

/-!
# Reading a file

A file without holes is read as it is: `bmap` finds every block, `readi` returns
the bytes of the range, cut at the size, and nothing changes.
-/

set_option autoImplicit false

namespace Xv6Tracing.Volume

open Lib

structure Whole (d : Dinode) (disk : Disk) : Prop where
  size : d.size.toNat ≤ MAXFILE * BSIZE
  mapped : ∀ bn, bn * BSIZE < d.size.toNat → d.addr disk (placeOf bn) ≠ 0
  onDisk : ∀ k < NPLACES, d.addr disk k < FSSIZE

variable {s : Vol} {a : Fin NINODE}

variable {exc : Halt → Prop}

variable {post : Bytes → Vol → Prop} {b : Nat}

theorem bread_spec (onDisk : b < FSSIZE) (holds : post (s.disk b) s) : wp (bread b) s post exc := by
  unfold bread
  rw [if_neg (by omega)]
  exact holds

theorem bread_any
    (stops : exc .incorrectBlockno) (holds : post (s.disk b) s) : wp (bread b) s post exc := by
  unfold bread
  split
  · exact stops
  · exact holds

/-- The inode as `ilock` leaves it: as it was, or read in from the disk. -/
def Vol.loaded (s : Vol) (a : Fin NINODE) : Dinode :=
  if (s.icache a).valid then (s.icache a).toDinode else dinodeAt s.sb s.disk (s.icache a).inum

theorem ilock_spec {post : Unit → Vol → Prop} (noRef : (s.icache a).ref < 1 → exc .ilockRef)
    (held : (s.icache a).locked = true → exc .asleep)
    (noBlock : FSSIZE ≤ IBLOCK s.sb (s.icache a).inum → exc .incorrectBlockno)
    (free : (s.icache a).valid = false →
      (dinodeAt s.sb s.disk (s.icache a).inum).type = 0 → exc .ilockNoType)
    (holds : 1 ≤ (s.icache a).ref → (s.icache a).locked = false →
      ((s.icache a).valid = false → (dinodeAt s.sb s.disk (s.icache a).inum).type ≠ 0) →
      post () (s.setInode a
        ⟨s.loaded a, (s.icache a).inum, (s.icache a).ref, true, true⟩)) :
    wp (ilock a) s post exc := by
  unfold ilock
  simp only [wp_bind, wp_get]
  split
  · rename_i none
    exact noRef none
  rename_i some
  split
  · rename_i locked
    exact held locked
  rename_i unlocked
  have after := holds (Nat.le_of_not_lt some) (Bool.eq_false_of_not_eq_true unlocked)
  simp only [modifyInode, wp_modify, wp_bind]
  split
  · grind [wp_pure, Vol.loaded]
  · rename_i invalid
    rw [wp_bind]
    by_cases onDisk : FSSIZE ≤ IBLOCK s.sb (s.icache a).inum
    · rw [bread, if_pos onDisk]
      exact noBlock onDisk
    refine bread_spec (Nat.lt_of_not_le onDisk) ?_
    simp only [wp_bind, wp_modify]
    change wp (if (dinodeAt s.sb s.disk (s.icache a).inum).type = 0 then throw Halt.ilockNoType
      else pure ()) _ _ _
    split
    · rename_i zero
      exact free (Bool.eq_false_of_not_eq_true invalid) zero
    · rename_i nonzero
      have post' := after fun _ => nonzero
      rw [Vol.loaded, if_neg invalid] at post'
      rw [wp_pure]
      simpa only [Vol.setInode, Function.update_self, Function.update_idem, dinodeAt] using post'

theorem ilock_fresh (ref : 1 ≤ (s.icache a).ref) (unlocked : (s.icache a).locked = false)
    (invalid : (s.icache a).valid = false) (onDisk : IBLOCK s.sb (s.icache a).inum < FSSIZE)
    (kind : (dinodeAt s.sb s.disk (s.icache a).inum).type ≠ 0) {post : Unit → Vol → Prop}
    (holds : post () (s.setInode a
      ⟨dinodeAt s.sb s.disk (s.icache a).inum, (s.icache a).inum, (s.icache a).ref, true, true⟩)) :
    wp (ilock a) s post exc := by
  refine ilock_spec (fun none => ?_) (fun held => ?_) (fun off => ?_) (fun _ zero => ?_) ?_
  · exact absurd ref (Nat.not_le_of_lt none)
  · exact absurd (unlocked.symm.trans held) (by decide)
  · exact absurd onDisk (Nat.not_lt_of_le off)
  · exact absurd zero kind
  · intro _ _ _
    rwa [Vol.loaded, if_neg (by rw [invalid]; decide)]

theorem loadAddr_has {k : Fin (NDIRECT + 1)} (has : (s.icache a).addrs k ≠ 0)
    {post : Uint → Vol → Prop} (holds : post ((s.icache a).addrs k) s) :
    wp (loadAddr a k) s post exc := by
  unfold loadAddr
  simp only [wp_bind, wp_get, if_neg has]
  exact holds

theorem bmap_has {bn : Nat} (inRange : bn < MAXFILE)
    (has : (s.icache a).toDinode.addr s.disk (placeOf bn) ≠ 0)
    (onDisk : (s.icache a).toDinode.addr s.disk NDIRECT < FSSIZE) :
    wp (bmap a bn) s (fun b t =>
      b.toNat = (s.icache a).toDinode.addr s.disk (placeOf bn) ∧ t = s) (fun _ => False) := by
  unfold bmap
  split
  · rename_i direct
    have place : placeOf bn = bn := if_pos direct
    grind [Dinode.addr_direct, loadAddr_has]
  · rename_i far
    obtain ⟨j, rfl⟩ := Nat.exists_eq_add_of_le (Nat.le_of_not_lt far)
    have place : placeOf (NDIRECT + j) = NDIRECT + 1 + j := by
      rw [placeOf, if_neg far]
      omega
    have table : (s.icache a).addrs indirect ≠ 0 := by
      intro none
      rw [place, Dinode.addr_none _ none] at has
      exact has rfl
    rw [place, Dinode.addr_entry _ table] at has
    rw [Dinode.addr_indirect] at onDisk
    rw [if_pos (by unfold MAXFILE at inRange; omega), Nat.add_sub_cancel_left]
    refine wp_call (loadAddr_has table ⟨rfl, rfl⟩ : wp _ s (fun b t =>
      b = (s.icache a).addrs indirect ∧ t = s) _) ?_
    rintro b t ⟨rfl, rfl⟩
    unfold loadEntry
    grind [wp_bind.mpr, bread_spec, wp_pure, Dinode.addr_entry]

theorem readiLoop_spec (whole : Whole (s.icache a).toDinode s.disk) (fuel : Nat) :
    ∀ {off n : Nat}, n ≤ fuel → off + n ≤ (s.icache a).size.toNat →
    wp (readiLoop a fuel off n) s (fun bytes t =>
      bytes = ((s.icache a).toDinode.byte s.disk).read off n ∧ t = s) (fun _ => False) := by
  induction fuel with
  | zero =>
    intro off n enough _
    have none : n = 0 := Nat.le_zero.mp enough
    subst none
    exact ⟨rfl, rfl⟩
  | succ fuel ih =>
    intro off n enough inside
    unfold readiLoop
    split
    · rename_i none
      subst none
      exact ⟨rfl, rfl⟩
    · rename_i some_
      have small : off % BSIZE < BSIZE := Nat.mod_lt _ (by decide)
      have position : off / BSIZE * BSIZE + off % BSIZE = off := Nat.div_add_mod' off BSIZE
      have mapped := whole.mapped (off / BSIZE) (by omega)
      have limit := whole.size
      have inRange : off / BSIZE < MAXFILE :=
        Nat.div_lt_of_lt_mul (by rw [Nat.mul_comm]; omega)
      refine wp_call (bmap_has inRange mapped (whole.onDisk _ (by decide))) ?_
      rintro b t ⟨at_, rfl⟩
      have onDisk := whole.onDisk _ (placeOf_lt inRange)
      refine wp_bind.mpr (bread_spec (by rwa [at_]) ?_)
      generalize chunk : min n (BSIZE - off % BSIZE) = m
      have shorter : n - m ≤ fuel := by omega
      have inside' : off + m + (n - m) ≤ (t.icache a).size.toNat := by omega
      refine wp_call (ih shorter inside') ?_
      rintro rest t ⟨rfl, rfl⟩
      rw [wp_pure]
      refine ⟨?_, rfl⟩
      have whole_n : n = m + (n - m) := by omega
      conv_rhs => rw [whole_n, Bytes.read_add]
      congr 1
      -- the bytes of this turn lie in one block
      apply List.ext_getElem
      · simp
      · intro j inBlock _
        rw [Bytes.length_read] at inBlock
        have block : (off + j) / BSIZE = off / BSIZE := by
          apply Nat.div_eq_of_lt_le
          · omega
          · rw [Nat.add_mul]
            omega
        have index : (off + j) % BSIZE = off % BSIZE + j := by
          have again := Nat.div_add_mod' (off + j) BSIZE
          rw [block] at again
          omega
        rw [Bytes.getElem_read, Bytes.getElem_read, Dinode.byte, fileByte, block, index, at_]

theorem readi_spec (whole : Whole (s.icache a).toDinode s.disk)
    (kind : (s.icache a).type ≠ T_DEV) {off n : Uint} (below : off ≤ (s.icache a).size)
    (noWrap : off.toNat + n.toNat < 2 ^ 32) :
    wp (readi a off n) s (fun r t =>
      r = some (((s.icache a).toDinode.byte s.disk).read off.toNat
        (min n.toNat ((s.icache a).size.toNat - off.toNat))) ∧ t = s) (fun _ => False) := by
  have start : off.toNat ≤ (s.icache a).size.toNat := below
  have sum : (off + n).toNat = off.toNat + n.toNat := by
    rw [BitVec.toNat_add]
    exact Nat.mod_eq_of_lt noWrap
  have accepted : ¬((s.icache a).size < off ∨ off + n < off) := by
    rintro (late | wraps)
    · have : (s.icache a).size.toNat < off.toNat := late
      omega
    · have : (off + n).toNat < off.toNat := wraps
      omega
  have cut : (if (s.icache a).size < off + n then (s.icache a).size - off else n).toNat =
      min n.toNat ((s.icache a).size.toNat - off.toNat) := by
    split
    · rename_i past
      have long : (s.icache a).size.toNat < (off + n).toNat := past
      rw [BitVec.toNat_sub_of_le below]
      omega
    · rename_i inside
      have short : ¬(s.icache a).size.toNat < (off + n).toNat := inside
      omega
  unfold readi
  simp only [wp_bind, wp_get, if_neg kind, if_neg accepted]
  rw [cut]
  refine wp_mono (readiLoop_spec whole _ le_rfl (by omega)) ?_
  rintro bytes t ⟨rfl, rfl⟩
  exact ⟨rfl, rfl⟩

end Xv6Tracing.Volume
