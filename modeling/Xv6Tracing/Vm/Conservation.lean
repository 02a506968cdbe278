import Xv6Tracing.Vm.FlatMap

/-!
# Physical pages are conserved

Any number of address spaces that are made by `setupkvm` and `copyuvm`, grow and
shrink, and are freed again.  Every page that `kinit1` put under management is on
the free list once or belongs to one live table, at one place in it; the two pages
that `kvmalloc` keeps for the kernel are the exception.
-/

set_option autoImplicit false

namespace Xv6Tracing.Vm

open Lib

/-- What `main` does before the first address space is made. -/
def boot : VmM Unit := do
  let s ← get
  kinit1 s.kend (P2V PHYSTOP)
  kvmalloc

structure Spaces where
  mem : Memory
  live : List AddrT

inductive SpaceOp where
  | setupkvm
  | allocuvm (pgdir oldsz newsz : AddrT)
  | deallocuvm (pgdir oldsz newsz : AddrT)
  | copyuvm (pgdir : AddrT) (sz : Uint)
  | freevm (pgdir : AddrT)
deriving DecidableEq, Repr

def SpaceOp.OnLive (live : List AddrT) : SpaceOp → Prop
  | .setupkvm => True
  | .allocuvm pgdir _ _ => pgdir ∈ live
  | .deallocuvm pgdir _ _ => pgdir ∈ live
  | .copyuvm pgdir _ => pgdir ∈ live
  | .freevm pgdir => pgdir ∈ live

instance (live : List AddrT) (op : SpaceOp) : Decidable (op.OnLive live) := by
  cases op <;> unfold SpaceOp.OnLive <;> infer_instance

def SpaceOp.call (live : List AddrT) : SpaceOp → VmM (List AddrT)
  | .setupkvm => do
      let pml4 ← Vm.setupkvm
      return if pml4 = 0 then live else pml4 :: live
  | .allocuvm pgdir oldsz newsz => do
      discard (Vm.allocuvm pgdir oldsz newsz)
      return live
  | .deallocuvm pgdir oldsz newsz => do
      discard (Vm.deallocuvm pgdir oldsz newsz)
      return live
  | .copyuvm pgdir sz => do
      let d ← Vm.copyuvm pgdir sz
      return d.toList ++ live
  | .freevm pgdir => do
      Vm.freevm pgdir
      return live.erase pgdir

def spaceStep (st : Spaces) (op : SpaceOp) : Option Spaces :=
  if op.OnLive st.live then
    match op.call st.live st.mem with
    | .ok (live, mem) => some ⟨mem, live⟩
    | .error _ => none
  else none

def SpaceOp.User : SpaceOp → Prop
  | .allocuvm _ _ newsz => newsz.toNat ≤ 2 ^ 47
  | .deallocuvm _ oldsz _ => oldsz.toNat ≤ 2 ^ 47
  | _ => True

instance : DecidablePred SpaceOp.User := fun op => by
  cases op <;> unfold SpaceOp.User <;> infer_instance

def Referenced (st : Spaces) (p : AddrT) (place : AddrT × List (BitVec 9)) : Prop :=
  place.1 ∈ st.live ∧ UserPath place.2 ∧ follow (child st.mem) place.1 place.2 = some p

/-- Each page of the range but the kernel's two tables is free or belongs to one
live table, and `freevm` gives back what a table owns. -/
structure Conserved (range : AddrT → Prop) (st : Spaces) (free : List AddrT) : Prop where
  linked : Linked st.mem.page st.mem.freelist free
  once : free.Nodup
  roots : st.live.Nodup
  pages : ∀ p, range p → p ≠ st.mem.kpml4 → p ≠ st.mem.kpdpt →
    (p ∈ free ∧ ¬ ∃ place, Referenced st p place) ∨ (p ∉ free ∧ ∃! place, Referenced st p place)
  kernel : ∀ p, p = st.mem.kpml4 ∨ p = st.mem.kpdpt →
    p ∉ free ∧ ¬ ∃ place, Referenced st p place
  freed : ∀ r ∈ st.live, ∃ t free', freevm r st.mem = .ok ((), t) ∧
    Linked t.page t.freelist free' ∧ free'.Nodup ∧
    (∀ p, p ∈ free' ↔ p ∈ free ∨ ∃ path, Referenced st p (r, path)) ∧
    st.mem.kpml4 ∉ free' ∧ st.mem.kpdpt ∉ free'

/-! ## The invariant -/

structure Accounted (range : AddrT → Prop) (st : Spaces) (free : List AddrT) : Prop where
  sound : Sound st.mem st.live free
  roots : st.live.Nodup
  usable : ∀ p, range p → Usable st.mem.kend p
  within : ∀ p, Owned st.mem st.live p ∨ p ∈ free → range p
  covered : ∀ p, range p → (Owned st.mem st.live p ∨ p ∈ free) ∨
    p = st.mem.kpml4 ∨ p = st.mem.kpdpt
  kernel : ∀ p, p = st.mem.kpml4 ∨ p = st.mem.kpdpt → ¬ (Owned st.mem st.live p ∨ p ∈ free)

variable {range : AddrT → Prop} {st : Spaces} {s t : Memory} {live free free' : List AddrT}
  {p r : AddrT}

theorem owned_iff_referenced : Owned st.mem st.live p ↔ ∃ place, Referenced st p place := by
  constructor
  · rintro ⟨r, root, path, valid, found⟩
    exact ⟨(r, path), root, valid, found⟩
  · rintro ⟨⟨r, path⟩, root, valid, found⟩
    exact ⟨r, root, path, valid, found⟩

theorem Accounted.moved (holds : Accounted range ⟨s, live⟩ free) {live' : List AddrT}
    (sound : Sound t live' free') (roots : live'.Nodup)
    (balance : ∀ p, Owned t live' p ∨ p ∈ free' ↔ Owned s live p ∨ p ∈ free)
    (consts : t.kend = s.kend ∧ t.kpml4 = s.kpml4 ∧ t.kpdpt = s.kpdpt) :
    Accounted range ⟨t, live'⟩ free' where
  sound := sound
  roots := roots
  usable p member := by
    simpa only [consts.1] using holds.usable p member
  within p member := holds.within p ((balance p).mp member)
  covered p member := by
    rw [balance p, consts.2.1, consts.2.2]
    exact holds.covered p member
  kernel p table := by
    rw [balance p]
    rw [consts.2.1, consts.2.2] at table
    exact holds.kernel p table

theorem Accounted.effect (holds : Accounted range ⟨s, live⟩ free)
    (effect : Effect s t live free free' []) : Accounted range ⟨t, live⟩ free' := by
  refine holds.moved effect.sound holds.roots ?_ effect.consts
  intro p
  rw [effect.balance p]
  simp

theorem Accounted.newRoot (holds : Accounted range ⟨s, live⟩ (r :: free)) :
    Accounted range ⟨takenPage s r (rootRow s.kpdpt), r :: live⟩ free := by
  have new : r ∉ live := by
    intro root
    exact holds.sound.apart r ⟨r, root, [], userPath_nil, rfl⟩ List.mem_cons_self
  refine holds.moved (sound_newRoot holds.sound) (List.nodup_cons.mpr ⟨new, holds.roots⟩) ?_
    ⟨rfl, rfl, rfl⟩
  intro p
  rw [owned_newRoot holds.sound, List.mem_cons]
  tauto

theorem owned_singleton (root : r ∈ st.live) (owned : Owned st.mem [r] p) :
    Owned st.mem st.live p := by
  obtain ⟨r', single, path, valid, found⟩ := owned
  obtain rfl := List.mem_singleton.mp single
  exact ⟨r', root, path, valid, found⟩

theorem Accounted.freevm (holds : Accounted range st free) (root : r ∈ st.live) :
    Vm.freevm r st.mem = .ok ((), freedAll st.mem (rootPages st.mem r)) ∧
      Accounted range ⟨freedAll st.mem (rootPages st.mem r), st.live.erase r⟩
        ((rootPages st.mem r).reverse ++ free) := by
  have usable : ∀ p, Owned st.mem [r] p → Usable st.mem.kend p := fun p owned =>
    holds.usable p (holds.within p (Or.inl (owned_singleton root owned)))
  obtain ⟨done, sound, paths⟩ := freevm_spec holds.sound holds.roots root usable
  refine ⟨done, holds.moved sound (holds.roots.erase r) ?_ (freedAll_consts _)⟩
  intro p
  rw [paths.owned_iff, holds.sound.owned_erase holds.roots root, List.mem_append,
    List.mem_reverse, mem_rootPages]
  have whole : Owned st.mem [r] p → Owned st.mem st.live p := owned_singleton root
  tauto

theorem Accounted.conserved (holds : Accounted range st free) : Conserved range st free where
  linked := holds.sound.linked
  once := holds.sound.nodup
  roots := holds.roots
  pages p member notPml4 notPdpt := by
    rcases holds.covered p member with (owned | listed) | kernel
    · refine Or.inr ⟨holds.sound.apart p owned, ?_⟩
      obtain ⟨place, referenced⟩ := owned_iff_referenced.mp owned
      refine ⟨place, referenced, ?_⟩
      intro other referenced'
      have same := holds.sound.unaliased other.1 referenced'.1 place.1 referenced.1 other.2 place.2 p
        referenced'.2.1 referenced.2.1 referenced'.2.2 referenced.2.2
      exact Prod.ext same.1 same.2
    · refine Or.inl ⟨listed, ?_⟩
      rw [← owned_iff_referenced]
      exact holds.sound.not_owned listed
    · exact absurd kernel (not_or.mpr ⟨notPml4, notPdpt⟩)
  kernel p table := by
    have apart := holds.kernel p table
    rw [← owned_iff_referenced]
    exact ⟨fun listed => apart (Or.inr listed), fun owned => apart (Or.inl owned)⟩
  freed r root := by
    obtain ⟨done, after⟩ := holds.freevm root
    have consts := freedAll_consts (s := st.mem) (rootPages st.mem r)
    refine ⟨_, _, done, after.sound.linked, after.sound.nodup, ?_, ?_, ?_⟩
    · intro p
      rw [List.mem_append, List.mem_reverse, mem_rootPages, or_comm]
      refine or_congr Iff.rfl ?_
      constructor
      · rintro ⟨r', single, path, valid, found⟩
        obtain rfl := List.mem_singleton.mp single
        exact ⟨path, root, valid, found⟩
      · rintro ⟨path, -, valid, found⟩
        exact ⟨r, List.mem_singleton_self r, path, valid, found⟩
    · exact fun listed => after.kernel _ (Or.inl consts.2.1.symm) (Or.inr listed)
    · exact fun listed => after.kernel _ (Or.inr consts.2.2.symm) (Or.inr listed)

/-! ## Calls -/

theorem Accounted.call {op : SpaceOp} (holds : Accounted range st free) (user : op.User)
    (onLive : op.OnLive st.live) :
    wp (op.call st.live) st.mem (fun live t => ∃ free', Accounted range ⟨t, live⟩ free')
      (fun _ => True) := by
  cases op with
  | setupkvm =>
    rw [SpaceOp.call, wp_bind]
    refine setupkvm_spec holds.sound (fun _ => trivial) ?_
    rintro q rest rfl
    rw [wp_pure, if_neg (holds.sound.usable q List.mem_cons_self).ne_zero]
    exact ⟨rest, holds.newRoot⟩
  | allocuvm pgdir oldsz newsz =>
    have small : newsz.toNat ≤ 2 ^ 47 := user
    have below : newsz < KERNBASE := BitVec.lt_def.mpr (lt_of_le_of_lt small (by decide))
    rw [SpaceOp.call, wp_bind, wp_discard]
    refine wp_mono (allocuvm_spec holds.sound onLive below (Or.inl small) (fun _ => trivial)
      (fun _ => trivial)) ?_
    rintro _ t ⟨-, free', frame, allocation⟩
    exact ⟨free', holds.effect allocation.effect⟩
  | deallocuvm pgdir oldsz newsz =>
    rw [SpaceOp.call, wp_bind, wp_discard]
    refine wp_mono (deallocuvm_spec holds.sound onLive (Or.inl user) (fun _ => trivial)) ?_
    rintro _ t ⟨-, free', deallocation⟩
    exact ⟨free', holds.effect deallocation.effect⟩
  | copyuvm pgdir sz =>
    rw [SpaceOp.call, wp_bind]
    refine wp_mono (copyuvm_spec holds.sound trivial trivial trivial trivial) ?_
    rintro _ t ⟨d, rest, free', rfl, split, effect, -⟩
    have new : Accounted range st (d :: rest) := split ▸ holds
    exact ⟨free', new.newRoot.effect effect⟩
  | freevm pgdir =>
    obtain ⟨done, after⟩ := holds.freevm onLive
    rw [SpaceOp.call, wp_bind, wp, done]
    exact ⟨_, after⟩

theorem Accounted.step {st' : Spaces} {op : SpaceOp} (holds : Accounted range st free)
    (user : op.User) (taken : spaceStep st op = some st') :
    ∃ free', Accounted range st' free' := by
  unfold spaceStep at taken
  split at taken
  · rename_i onLive
    split at taken
    · rename_i done
      cases taken
      exact wp_ok (holds.call user onLive) done
    · cases taken
  · cases taken

/-! ## From boot on -/

/-- The pages that `main` gives to the allocator. -/
def BootRange (s : Memory) (p : AddrT) : Prop := Managed (PGROUNDUP s.kend) (P2V PHYSTOP) p

section Booted

-- The elaborator is not to run `kinit1`.
attribute [local irreducible] wp

theorem accounted_boot {x : Unit} (booted : boot s = .ok (x, t)) :
    ∃ free, Accounted (BootRange s) ⟨t, []⟩ free := by
  have start : wp boot s (fun _ t => ∃ free, Accounted (BootRange s) ⟨t, []⟩ free)
      (fun _ => True) := by
    rw [boot, wp_bind, wp_get, wp_bind]
    have init := @kinit1_spec s s.kend (P2V PHYSTOP) (fun _ => True) (by decide +kernel) trivial
    refine wp_mono init ?_
    rintro _ u ⟨free, sound, members, kend⟩
    have made := @kvmalloc_spec u free (fun _ => True) sound trivial
    refine wp_mono made ?_
    rintro _ t ⟨rest, split, after, kend'⟩
    have nobody : ∀ p, ¬ Owned t [] p := by
      rintro p ⟨r, root, -⟩
      exact absurd root List.not_mem_nil
    have listed : ∀ p, BootRange s p ↔ p = t.kpml4 ∨ p = t.kpdpt ∨ p ∈ rest := by
      intro p
      rw [BootRange, ← members p, split, List.mem_cons, List.mem_cons]
    have distinct := sound.nodup
    rw [split] at distinct
    simp only [List.nodup_cons, List.mem_cons, not_or] at distinct
    refine ⟨rest, after, List.nodup_nil, ?_, ?_, ?_, ?_⟩
    · intro p member
      have usable := sound.usable p ((members p).mpr member)
      rwa [← kend'] at usable
    · grind
    · grind
    · grind
  exact wp_ok start booted

end Booted

theorem pages_conserved (s₀ s : Memory) (ops : List SpaceOp) (booted : boot s₀ = .ok ((), s))
    (user : ∀ op ∈ ops, op.User) :
    Throughout spaceStep (fun st => ∃ free, Conserved (BootRange s₀) st free) ⟨s, []⟩ ops := by
  have kept : ∀ st op st', (∃ free, Accounted (BootRange s₀) st free) → SpaceOp.User op →
      spaceStep st op = some st' → ∃ free, Accounted (BootRange s₀) st' free := by
    rintro st op st' ⟨free, holds⟩ user taken
    exact holds.step user taken
  refine throughout_of_along kept ?_ ops ⟨s, []⟩ (accounted_boot booted) (along_of_forall user _)
  rintro st ⟨free, holds⟩
  exact ⟨free, holds.conserved⟩

/-! ## Ten pages -/

/-- The machine with ten free pages after `boot`. -/
def tenPagesBooted : Memory :=
  match boot tenPageMachine with
  | .ok (_, t) => t
  | .error _ => tenPageMachine

theorem tenPages_boot : boot tenPageMachine = .ok ((), tenPagesBooted) := by
  have returns : (stops boot tenPageMachine).isNone = true := by decide +kernel
  unfold stops at returns
  unfold tenPagesBooted
  split at returns
  · rename_i done
    rw [done]
  · cases returns

def tenPage (k : AddrT) : AddrT := tenPageMachine.kend + k * PGSIZE

def spaceOps : List SpaceOp :=
  [.setupkvm, .allocuvm (tenPage 7) 0x1000 0x2000, .copyuvm (tenPage 7) 0x1000,
    .deallocuvm (tenPage 7) 0x2000 0x1000, .freevm (tenPage 7)]

theorem pages_conserved_sample :
    (run spaceStep ⟨tenPagesBooted, []⟩ spaceOps).isSome = true ∧
      Throughout spaceStep (fun st => ∃ free, Conserved (BootRange tenPageMachine) st free)
        ⟨tenPagesBooted, []⟩ spaceOps :=
  ⟨by decide +kernel, pages_conserved tenPageMachine tenPagesBooted spaceOps tenPages_boot
    (by decide +kernel)⟩

def leakOps : List SpaceOp :=
  [.setupkvm, .allocuvm (tenPage 7) (2 ^ 47) (2 ^ 47 + 0x1000), .freevm (tenPage 7)]

def leaked : Spaces := (run spaceStep ⟨tenPagesBooted, []⟩ leakOps).getD ⟨tenPagesBooted, []⟩

instance decidableLinked (page : AddrT → BitVec 9 → AddrT) :
    ∀ (l : List AddrT) (head : AddrT), Decidable (Linked page head l)
  | [], head => inferInstanceAs (Decidable (head = 0))
  | p :: rest, head =>
    have : Decidable (Linked page (page p 0) rest) := decidableLinked page rest (page p 0)
    inferInstanceAs (Decidable (head = p ∧ p ≠ 0 ∧ Linked page (page p 0) rest))

theorem leaked_freelist : Linked leaked.mem.page leaked.mem.freelist
    [tenPage 7, tenPage 4, tenPage 3, tenPage 2, tenPage 1, tenPage 0] := by
  decide +kernel

theorem leakOps_run : run spaceStep ⟨tenPagesBooted, []⟩ leakOps = some leaked := by
  have returns : (run spaceStep ⟨tenPagesBooted, []⟩ leakOps).isSome = true := by decide +kernel
  obtain ⟨t, done⟩ := Option.isSome_iff_exists.mp returns
  rw [leaked, done]
  rfl

/-- Above user memory `allocuvm` puts its page below the kernel's table, where
`freevm` does not look: no table is live and the page is not free. -/
theorem high_allocation_leaks : ∃ (s₀ s : Memory) (ops : List SpaceOp) (st : Spaces) (p : AddrT),
    boot s₀ = .ok ((), s) ∧ run spaceStep ⟨s, []⟩ ops = some st ∧ st.live = [] ∧
      BootRange s₀ p ∧ p ≠ st.mem.kpml4 ∧ p ≠ st.mem.kpdpt ∧
      (∀ free, Linked st.mem.page st.mem.freelist free → p ∉ free) ∧
      ¬ ∃ free, Conserved (BootRange s₀) st free := by
  have range : BootRange tenPageMachine (tenPage 6) := by
    unfold BootRange Managed
    decide +kernel
  have apart : tenPage 6 ≠ leaked.mem.kpml4 ∧ tenPage 6 ≠ leaked.mem.kpdpt := by decide +kernel
  have nothing : leaked.live = [] := by decide +kernel
  have missing : ∀ free, Linked leaked.mem.page leaked.mem.freelist free → tenPage 6 ∉ free := by
    intro free linked
    rw [linked.unique leaked_freelist]
    decide +kernel
  refine ⟨tenPageMachine, tenPagesBooted, leakOps, leaked, tenPage 6, tenPages_boot, leakOps_run,
    nothing, range, apart.1, apart.2, missing, ?_⟩
  rintro ⟨free, conserved⟩
  rcases conserved.pages (tenPage 6) range apart.1 apart.2 with ⟨listed, -⟩ | ⟨-, place, used, -⟩
  · exact missing free conserved.linked listed
  · have live := used.1
    rw [nothing] at live
    exact absurd live List.not_mem_nil

end Xv6Tracing.Vm
