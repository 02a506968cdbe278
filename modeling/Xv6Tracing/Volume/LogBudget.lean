import Xv6Tracing.Volume.SharedOffset

/-!
# What a section of filewrite logs

The functions of `Volume.Inode` that a section of `begin_op` and `end_op` in `filewrite`
runs, with a record of the blocks that `log_write` is called for.  A section logs the
blocks of the file it writes to and up to four others: the bit map, the inode, the
indirect block, and block 0 where the bit map has it as free.
-/

set_option autoImplicit false

namespace Xv6Tracing.Volume.LogBudget

open Lib Volume.SharedOffset

/-- `logged` are the blocks of the open section, `sections` those of the ended ones. -/
structure Trans where
  vol : Vol
  off : Uint
  logged : List Nat
  sections : List (List Nat)

abbrev TransM (α : Type) : Type := Prog Trans Halt α

def onVol {α : Type} (call : VolM α) : TransM α := fun s =>
  match call s.vol with
  | .ok (x, vol) => .ok (x, { s with vol := vol })
  | .error e => .error e

def log_write (b : Nat) (data : Bytes) : TransM Unit := do
  onVol (Volume.log_write b data)
  modify fun s => { s with logged := b :: s.logged }

def bzero (bno : Nat) : TransM Unit := do
  let _ ← onVol (bread bno)
  log_write bno fun _ => 0

def ballocFrom : List Nat → TransM Uint
  | [] => throw .ballocOut
  | group :: rest => do
      let sb := (← get).vol.sb
      let b := group * BPB
      let data ← onVol (bread (BBLOCK sb b))
      match freeBit data b sb.size with
      | some bi => do
          log_write (BBLOCK sb b) (markUsed data bi)
          bzero (b + bi)
          return BitVec.ofNat 32 (b + bi)
      | none => ballocFrom rest

def balloc : TransM Uint := do
  ballocFrom (List.range (((← get).vol.sb.size + BPB - 1) / BPB))

def loadAddr (a : Fin NINODE) (k : Fin (NDIRECT + 1)) : TransM Uint := do
  let s ← get
  if (s.vol.icache a).addrs k = 0 then do
    let b ← balloc
    onVol (modifyInode a fun ip => { ip with toDinode := ip.toDinode.setAddr k b })
    return b
  else return (s.vol.icache a).addrs k

def loadEntry (table : Nat) (j : Nat) : TransM Uint := do
  let data ← onVol (bread table)
  if indirectAt data j = 0 then do
    let b ← balloc
    let s ← get
    log_write table (putIndirect (s.vol.disk table) j b)
    return b
  else return indirectAt data j

def bmap (a : Fin NINODE) (bn : Nat) : TransM Uint := do
  if direct : bn < NDIRECT then loadAddr a ⟨bn, Nat.lt_succ_of_lt direct⟩
  else if bn - NDIRECT < NINDIRECT then do
    let table ← loadAddr a indirect
    loadEntry table.toNat (bn - NDIRECT)
  else throw .bmapRange

def writeiLoop (a : Fin NINODE) : Nat → Nat → List Uchar → TransM Unit
  | 0, _, _ => return
  | fuel + 1, off, src =>
    if src = [] then return
    else do
      let b ← bmap a (off / BSIZE)
      let data ← onVol (bread b.toNat)
      let m := min src.length (BSIZE - off % BSIZE)
      log_write b.toNat (data.write (off % BSIZE) (src.take m))
      writeiLoop a fuel (off + m) (src.drop m)

def iupdate (a : Fin NINODE) : TransM Unit := do
  let s ← get
  let ip := s.vol.icache a
  let data ← onVol (bread (IBLOCK s.vol.sb ip.inum))
  log_write (IBLOCK s.vol.sb ip.inum) (putDinode data ip.inum ip.toDinode)

def writei (a : Fin NINODE) (src : List Uchar) (off : Uint) : TransM (Option Nat) := do
  let s ← get
  let ip := s.vol.icache a
  let n := src.length
  if ip.type = T_DEV then
    if ip.major = CONSOLE then onVol (consolewrite a n) else return none
  else if ip.size < off ∨ 2 ^ 32 ≤ off.toNat + n then return none
  else if MAXFILE * BSIZE < off.toNat + n then return none
  else do
    writeiLoop a n off.toNat src
    let s ← get
    if 0 < n ∧ (s.vol.icache a).size.toNat < off.toNat + n then do
      onVol (modifyInode a fun ip => { ip with size := BitVec.ofNat 32 (off.toNat + n) })
      iupdate a
    return some n

def begin_op : TransM Unit :=
  modify fun s =>
    { s with vol := { s.vol with outstanding := s.vol.outstanding + 1 }, logged := [] }

def end_op : TransM Unit :=
  modify fun s => { s with
    vol := { s.vol with outstanding := s.vol.outstanding - 1 }
    sections := s.sections ++ [s.logged] }

/-- One section: what is between `begin_op` and `end_op`. -/
def writeChunk (a : Fin NINODE) (bytes : List Uchar) : TransM (Option Nat) := do
  begin_op
  onVol (ilock a)
  let r ← writei a bytes (← get).off
  modify fun s => { s with off := s.off + BitVec.ofNat 32 (r.getD 0) }
  onVol (iunlock a)
  end_op
  return r

/-- The loop of `filewrite`, with a bound on its turns; the result is `i`. -/
def filewriteLoop (a : Fin NINODE) (src : List Uchar) : Nat → Nat → TransM Nat
  | 0, i => return i
  | fuel + 1, i =>
    if i < src.length then do
      match ← writeChunk a (chunk src i) with
      | none => return i
      | some r =>
        if r ≠ (chunk src i).length then throw .shortFilewrite
        else filewriteLoop a src fuel (i + r)
    else return i

/-- `filewrite` of a writable file for an inode; `none` is -1. -/
def filewrite (a : Fin NINODE) (src : List Uchar) : TransM (Option Nat) := do
  let i ← filewriteLoop a src (src.length + 1) 0
  return if i = src.length then some src.length else none

/-! ## Without the record -/

section Erasure

variable {α β : Type} {s : Trans}

def forget : Except Halt (α × Trans) → Except Halt (α × Vol)
  | .ok (x, s) => .ok (x, s.vol)
  | .error e => .error e

def Erases (f : TransM α) (g : VolM α) : Prop := ∀ s, forget (f s) = g s.vol

theorem Erases.pure (x : α) : Erases (Pure.pure x) (Pure.pure x) := fun _ => rfl

theorem Erases.throw (e : Halt) : Erases (MonadExcept.throw e : TransM α) (MonadExcept.throw e) :=
  fun _ => rfl

theorem Erases.onVol (call : VolM α) : Erases (onVol call) call := by
  intro s
  unfold LogBudget.onVol
  cases call s.vol with
  | error e => rfl
  | ok result => rfl

theorem Erases.bind {f : TransM α} {g : VolM α} {k : α → TransM β} {h : α → VolM β}
    (first : Erases f g) (rest : ∀ x, Erases (k x) (h x)) : Erases (f >>= k) (g >>= h) := by
  intro s
  have here := first s
  simp only [Bind.bind, StateT.bind, Except.bind]
  cases result : f s with
  | error e =>
    rw [result] at here
    rw [← here]
    rfl
  | ok pair =>
    rw [result] at here
    rw [← here]
    exact rest pair.1 pair.2

theorem Erases.get {k : Trans → TransM β} {h : Vol → VolM β}
    (rest : ∀ s, Erases (k s) (h s.vol)) : Erases (MonadState.get >>= k) (MonadState.get >>= h) :=
  fun s => rest s s

theorem erases_log_write (b : Nat) (data : Bytes) :
    Erases (log_write b data) (Volume.log_write b data) := fun _ => rfl

theorem erases_bzero (b : Nat) : Erases (bzero b) (Volume.bzero b) :=
  .bind (.onVol _) fun _ => erases_log_write _ _

theorem erases_ballocFrom (groups : List Nat) :
    Erases (ballocFrom groups) (Volume.ballocFrom groups) := by
  induction groups with
  | nil => exact .throw _
  | cons group rest ih =>
    refine .get fun s => .bind (.onVol _) fun data => ?_
    cases freeBit data (group * BPB) s.vol.sb.size with
    | some bi =>
      exact .bind (erases_log_write _ _) fun _ => .bind (erases_bzero _) fun _ => .pure _
    | none => exact ih

theorem erases_balloc : Erases balloc Volume.balloc := .get fun _ => erases_ballocFrom _

theorem erases_loadAddr (a : Fin NINODE) (k : Fin (NDIRECT + 1)) :
    Erases (loadAddr a k) (Volume.loadAddr a k) := by
  refine .get fun s => ?_
  split
  · exact .bind erases_balloc fun _ => .bind (.onVol _) fun _ => .pure _
  · exact .pure _

theorem erases_loadEntry (table j : Nat) : Erases (loadEntry table j) (Volume.loadEntry table j) := by
  refine .bind (.onVol _) fun data => ?_
  split
  · exact .bind erases_balloc fun b => fun _ => rfl
  · exact .pure _

theorem erases_bmap (a : Fin NINODE) (bn : Nat) : Erases (bmap a bn) (Volume.bmap a bn) := by
  unfold bmap Volume.bmap
  split
  · exact erases_loadAddr _ _
  · split
    · exact .bind (erases_loadAddr _ _) fun _ => erases_loadEntry _ _
    · exact .throw _

theorem erases_writeiLoop (a : Fin NINODE) (fuel : Nat) : ∀ (off : Nat) (src : List Uchar),
    Erases (writeiLoop a fuel off src) (Volume.writeiLoop a fuel off src) := by
  induction fuel with
  | zero => exact fun _ _ => .pure _
  | succ fuel ih =>
    intro off src
    unfold writeiLoop Volume.writeiLoop
    split
    · exact .pure _
    · exact .bind (erases_bmap _ _) fun _ => .bind (.onVol _) fun _ =>
        .bind (erases_log_write _ _) fun _ => ih _ _

theorem erases_iupdate (a : Fin NINODE) : Erases (iupdate a) (Volume.iupdate a) :=
  .get fun _ => .bind (.onVol _) fun _ => erases_log_write _ _

/-- Without the record `writei` is the function of `Volume.Inode`. -/
theorem erases_writei (a : Fin NINODE) (src : List Uchar) (off : Uint) :
    Erases (writei a src off) (Volume.writei a src off) := by
  refine .get fun s => ?_
  dsimp only
  split
  · split
    · exact .onVol _
    · exact .pure _
  · split
    · exact .pure _
    · split
      · exact .pure _
      · refine .bind (erases_writeiLoop _ _ _ _) fun _ => .get fun s => ?_
        split
        · exact .bind (.onVol _) fun _ => .bind (erases_iupdate _) fun _ => .pure _
        · exact .pure _

end Erasure

/-! ## Counting -/

section Counting

variable {s t : Trans} {a : Fin NINODE} {exc : Halt → Prop}

/-- The blocks of the file that `n` bytes at `off` are in. -/
def touched (off n : Nat) : Nat :=
  if n = 0 then 0 else (off + n - 1) / BSIZE - off / BSIZE + 1

theorem wp_onVol {α : Type} {call : VolM α} {post : α → Trans → Prop} :
    wp (onVol call) s post exc ↔ wp call s.vol (fun x vol => post x { s with vol := vol }) exc := by
  unfold wp onVol
  cases call s.vol with
  | error e => rfl
  | ok result => rfl

theorem wp_onVol_any {α : Type} {call : VolM α} {post : α → Trans → Prop}
    (holds : ∀ x vol, post x { s with vol := vol }) : wp (onVol call) s post fun _ => True := by
  rw [wp_onVol]
  unfold wp
  split
  · exact holds _ _
  · trivial

theorem wp_log_write {b : Nat} {data : Bytes} {post : Unit → Trans → Prop} :
    wp (log_write b data) s post exc ↔ post () { s with
      vol := { s.vol with disk := Function.update s.vol.disk b data }
      logged := b :: s.logged } := Iff.rfl

theorem wp_bread {b : Nat} {post : Bytes → Trans → Prop}
    (holds : b < FSSIZE → post (s.vol.disk b) s) : wp (onVol (bread b)) s post fun _ => True := by
  rw [wp_onVol]
  unfold bread
  split
  · trivial
  · exact holds (by omega)

/-- The addresses of the inode in `a` after a step: unchanged once they are not 0. -/
def SameTable (a : Fin NINODE) (s t : Trans) : Prop :=
  (s.vol.icache a).addrs indirect ≠ 0 →
    (t.vol.icache a).addrs indirect = (s.vol.icache a).addrs indirect

/-- What was logged since `s` is the bit map, the indirect block, block 0 or in `data`. -/
def Logs (a : Fin NINODE) (s t : Trans) (data : List Nat) : Prop :=
  ∀ b ∈ t.logged, b ∈ s.logged ∨ b = BBLOCK s.vol.sb 0 ∨ b = 0 ∨
    b = ((t.vol.icache a).addrs indirect).toNat ∨ b ∈ data

/-- What a call has changed that logs blocks of `data`. -/
structure Logged (a : Fin NINODE) (s t : Trans) (data : List Nat) : Prop where
  sb : t.vol.sb = s.vol.sb
  ended : t.sections = s.sections
  table : SameTable a s t
  blocks : Logs a s t data

theorem Logged.trans {u : Trans} {data data' : List Nat} (first : Logged a s t data)
    (second : Logged a t u data') : Logged a s u (data ++ data') where
  sb := second.sb.trans first.sb
  ended := second.ended.trans first.ended
  table := by
    intro has
    have same := first.table has
    rw [second.table (same ▸ has), same]
  blocks := by
    intro b member
    rcases second.blocks b member with before | map | zero | table | new
    · rcases first.blocks b before with old | map | zero | table | new
      · exact Or.inl old
      · exact Or.inr (Or.inl map)
      · exact Or.inr (Or.inr (Or.inl zero))
      · by_cases none : (t.vol.icache a).addrs indirect = 0
        · rw [none] at table
          exact Or.inr (Or.inr (Or.inl table))
        · rw [← second.table none] at table
          exact Or.inr (Or.inr (Or.inr (Or.inl table)))
      · exact Or.inr (Or.inr (Or.inr (Or.inr (List.mem_append_left _ new))))
    · rw [first.sb] at map
      exact Or.inr (Or.inl map)
    · exact Or.inr (Or.inr (Or.inl zero))
    · exact Or.inr (Or.inr (Or.inr (Or.inl table)))
    · exact Or.inr (Or.inr (Or.inr (Or.inr (List.mem_append_right _ new))))

theorem Logged.same {data : List Nat} (sb : t.vol.sb = s.vol.sb)
    (addrs : (t.vol.icache a).addrs indirect = (s.vol.icache a).addrs indirect)
    (ended : t.sections = s.sections) (logged : t.logged = s.logged) : Logged a s t data :=
  ⟨sb, ended, fun _ => addrs, fun _ member => Or.inl (logged ▸ member)⟩

/-- `balloc` returns a block that a read does not stop at, so its bit is in the first
block of the bit map. -/
theorem ballocFrom_logs (groups : List Nat) :
    wp (ballocFrom groups) s (fun b t => t.vol.sb = s.vol.sb ∧ t.vol.icache = s.vol.icache ∧
      t.sections = s.sections ∧
      ∀ x ∈ t.logged, x ∈ s.logged ∨ x = BBLOCK s.vol.sb 0 ∨ x = b.toNat) fun _ => True := by
  induction groups with
  | nil => trivial
  | cons group rest ih =>
    unfold ballocFrom
    simp only [wp_bind, wp_get]
    refine wp_bread fun _ => ?_
    cases freeBit (s.vol.disk (BBLOCK s.vol.sb (group * BPB))) (group * BPB) s.vol.sb.size with
    | none => exact ih
    | some bi =>
      dsimp only
      rw [wp_bind, wp_log_write]
      unfold bzero
      rw [wp_bind, wp_bind]
      refine wp_bread fun onDisk => ?_
      rw [wp_log_write]
      have small : group * 4096 + bi < 1000 := onDisk
      have first : group = 0 := by omega
      have value : (BitVec.ofNat 32 (group * BPB + bi)).toNat = group * BPB + bi := by
        rw [BitVec.toNat_ofNat]
        exact Nat.mod_eq_of_lt (by unfold BPB BSIZE; omega)
      refine ⟨rfl, rfl, rfl, fun x member => ?_⟩
      rw [value]
      rcases List.mem_cons.mp member with rfl | before
      · exact Or.inr (Or.inr rfl)
      · rcases List.mem_cons.mp before with rfl | old
        · rw [first]
          exact Or.inr (Or.inl (by rw [Nat.zero_mul]))
        · exact Or.inl old

theorem loadAddr_logs (k : Fin (NDIRECT + 1)) :
    wp (loadAddr a k) s (fun b t => Logged a s t [b.toNat] ∧
      (t.vol.icache a).addrs k = b) fun _ => True := by
  unfold loadAddr
  simp only [wp_bind, wp_get]
  split
  · rename_i empty
    unfold balloc
    simp only [wp_bind, wp_get]
    refine wp_mono (ballocFrom_logs _) ?_
    rintro b t ⟨sb, icache, ended, logged⟩
    rw [wp_onVol]
    refine ⟨⟨sb, ended, fun has => ?_, fun x member => ?_⟩, ?_⟩
    · have other : indirect ≠ k := by
        rintro rfl
        exact has empty
      simp only [Vol.setInode, Function.update_self, Dinode.setAddr, icache]
      exact Function.update_of_ne other ..
    · rcases logged x member with old | map | new
      · exact Or.inl old
      · exact Or.inr (Or.inl map)
      · exact Or.inr (Or.inr (Or.inr (Or.inr (List.mem_singleton.mpr new))))
    · simp only [Vol.setInode, Function.update_self, Dinode.setAddr]
  · exact ⟨.same rfl rfl rfl rfl, rfl⟩

theorem loadEntry_logs {table j : Nat} (here : table = ((s.vol.icache a).addrs indirect).toNat) :
    wp (loadEntry table j) s (fun b t => Logged a s t [b.toNat]) fun _ => True := by
  unfold loadEntry
  rw [wp_bind]
  refine wp_bread fun _ => ?_
  split
  · unfold balloc
    simp only [wp_bind, wp_get]
    refine wp_mono (ballocFrom_logs _) ?_
    rintro b t ⟨sb, icache, ended, logged⟩
    rw [wp_log_write]
    refine ⟨sb, ended, fun _ => ?_, fun x member => ?_⟩
    · dsimp only
      rw [icache]
    · dsimp only
      rw [icache, ← here]
      rcases List.mem_cons.mp member with rfl | before
      · exact Or.inr (Or.inr (Or.inr (Or.inl rfl)))
      · rcases logged x before with old | map | new
        · exact Or.inl old
        · exact Or.inr (Or.inl map)
        · exact Or.inr (Or.inr (Or.inr (Or.inr (List.mem_singleton.mpr new))))
  · exact .same rfl rfl rfl rfl

theorem bmap_logs (bn : Nat) :
    wp (bmap a bn) s (fun b t => Logged a s t [b.toNat]) fun _ => True := by
  unfold bmap
  split
  · exact wp_mono (loadAddr_logs _) fun _ _ both => both.1
  · split
    · rw [wp_bind]
      refine wp_mono (loadAddr_logs indirect) ?_
      rintro table t ⟨first, here⟩
      refine wp_mono (loadEntry_logs (congrArg BitVec.toNat here.symm)) fun b u second => ?_
      -- the block for the table is the indirect block from now on
      have only : Logged a s t [] := by
        refine ⟨first.sb, first.ended, first.table, fun x member => ?_⟩
        rcases first.blocks x member with old | map | zero | same | new
        · exact Or.inl old
        · exact Or.inr (Or.inl map)
        · exact Or.inr (Or.inr (Or.inl zero))
        · exact Or.inr (Or.inr (Or.inr (Or.inl same)))
        · rw [here]
          exact Or.inr (Or.inr (Or.inr (Or.inl (List.mem_singleton.mp new))))
      exact only.trans second
    · trivial

theorem touched_step (off : Nat) {n : Nat} (some : 0 < n) :
    1 + touched (off + min n (BSIZE - off % BSIZE)) (n - min n (BSIZE - off % BSIZE)) ≤
      touched off n := by
  unfold touched BSIZE
  by_cases last : n ≤ 512 - off % 512
  · rw [min_eq_left last, if_pos (by omega), if_neg (by omega)]
    omega
  · rw [min_eq_right (by omega), if_neg (by omega), if_neg (by omega)]
    omega

theorem writeiLoop_logs (fuel : Nat) : ∀ (s : Trans) (off : Nat) (src : List Uchar),
    wp (writeiLoop a fuel off src) s (fun _ t => ∃ data, data.length ≤ touched off src.length ∧
      Logged a s t data) fun _ => True := by
  induction fuel with
  | zero => exact fun s off src => ⟨[], Nat.zero_le _, .same rfl rfl rfl rfl⟩
  | succ fuel ih =>
    intro s off src
    unfold writeiLoop
    split
    · exact ⟨[], Nat.zero_le _, .same rfl rfl rfl rfl⟩
    · rename_i nonempty
      rw [wp_bind]
      refine wp_mono (bmap_logs _) fun b t first => ?_
      rw [wp_bind]
      refine wp_bread fun _ => ?_
      rw [wp_bind, wp_log_write]
      refine wp_mono (ih _ _ _) ?_
      rintro - u ⟨data, few, rest⟩
      have step := touched_step off (List.length_pos_of_ne_nil nonempty)
      rw [List.length_drop] at few
      refine ⟨[b.toNat] ++ data, ?_, ?_⟩
      · rw [List.length_append, List.length_singleton]
        omega
      · refine Logged.trans ?_ rest
        refine ⟨first.sb, first.ended, first.table, fun x member => ?_⟩
        rcases List.mem_cons.mp member with rfl | before
        · exact Or.inr (Or.inr (Or.inr (Or.inr List.mem_cons_self)))
        · exact first.blocks x before

theorem iupdate_logs :
    wp (iupdate a) s (fun _ t => t.sections = s.sections ∧
      ∃ block, t.logged = block :: s.logged) fun _ => True := by
  unfold iupdate
  rw [wp_bind, wp_get, wp_bind]
  refine wp_bread fun _ => ?_
  rw [wp_log_write]
  exact ⟨rfl, _, rfl⟩

/-- The blocks logged since `s`: four at most besides those of the file. -/
def Few (s t : Trans) (count : Nat) : Prop :=
  t.sections = s.sections ∧ ∃ blocks : List Nat, blocks.length ≤ count + 4 ∧
    ∀ b ∈ t.logged, b ∈ s.logged ∨ b ∈ blocks

theorem writei_logs (src : List Uchar) (off : Uint) :
    wp (writei a src off) s (fun _ t => Few s t (touched off.toNat src.length)) fun _ => True := by
  unfold writei
  simp only [wp_bind, wp_get]
  have nothing : ∀ vol : Vol, Few s { s with vol := vol } (touched off.toNat src.length) :=
    fun vol => ⟨rfl, [], Nat.zero_le _, fun b member => Or.inl member⟩
  split
  · split
    · exact wp_onVol_any fun _ vol => nothing vol
    · exact nothing s.vol
  · split
    · exact nothing s.vol
    · split
      · exact nothing s.vol
      · rw [wp_bind]
        refine wp_mono (writeiLoop_logs _ _ _ _) ?_
        rintro - t ⟨data, few, logged⟩
        have covers : ∀ (extra : Nat) (u : Trans), u.sections = t.sections →
            (∀ b ∈ u.logged, b = extra ∨ b ∈ t.logged) →
            Few s u (touched off.toNat src.length) := by
          intro extra u ended within
          refine ⟨ended.trans logged.ended,
            data ++ [extra, BBLOCK s.vol.sb 0, 0, ((t.vol.icache a).addrs indirect).toNat], ?_,
            fun b member => ?_⟩
          · rw [List.length_append]
            exact Nat.add_le_add_right few 4
          · rcases within b member with rfl | before
            · exact Or.inr (by simp)
            · rcases logged.blocks b before with old | rfl | rfl | rfl | new
              · exact Or.inl old
              · exact Or.inr (by simp)
              · exact Or.inr (by simp)
              · exact Or.inr (by simp)
              · exact Or.inr (List.mem_append_left _ new)
        rw [wp_bind, wp_get]
        split
        · rw [wp_bind, wp_onVol, modifyInode, wp_modify, wp_bind]
          refine wp_mono iupdate_logs ?_
          rintro - u ⟨ended, block, same⟩
          exact covers block u ended fun b member => List.mem_cons.mp (same ▸ member)
        · exact covers 0 t rfl fun b member => Or.inr member

/-! ## Sections -/

theorem writeChunk_logs (bytes : List Uchar) :
    wp (writeChunk a bytes) s (fun _ t => ∃ logged, t.sections = s.sections ++ [logged] ∧
      logged.toFinset.card ≤ touched s.off.toNat bytes.length + 4) fun _ => True := by
  unfold writeChunk
  rw [wp_bind, begin_op, wp_modify, wp_bind]
  refine wp_onVol_any fun _ vol => ?_
  rw [wp_bind, wp_get, wp_bind]
  refine wp_mono (writei_logs bytes s.off) ?_
  rintro r t ⟨ended, blocks, few, within⟩
  rw [wp_bind, wp_modify, wp_bind]
  refine wp_onVol_any fun _ vol' => ?_
  rw [wp_bind, end_op, wp_modify]
  refine ⟨t.logged, congrArg (· ++ [t.logged]) ended, ?_⟩
  have subset : t.logged.toFinset ⊆ blocks.toFinset := by
    intro b member
    rw [List.mem_toFinset] at member ⊢
    exact (within b member).resolve_left List.not_mem_nil
  calc t.logged.toFinset.card ≤ blocks.toFinset.card := Finset.card_le_card subset
    _ ≤ blocks.length := List.toFinset_card_le blocks
    _ ≤ touched s.off.toNat bytes.length + 4 := few

end Counting

def largerVol : Vol := { smallVol with sb := { smallSuper with size := 40, nblocks := 36 } }

end Xv6Tracing.Volume.LogBudget
