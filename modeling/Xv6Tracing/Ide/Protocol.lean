import Xv6Tracing.Ide.Handler

/-!
# The disk queue

Every request is started once and completed once, in the order in which the requests came.
-/

set_option autoImplicit false

namespace Xv6Tracing.Ide

open Lib

variable {T B D : Type} {s s' : World T B D} {q : List B} {b c : B} {t u : T} {pc : Pc B}

/-! ## Steps without the lock -/

theorem Holds.imp (holds : Holds s q t pc) (settled : Settled s q → Settled s' q)
    (unstarted : Unstarted s q → Unstarted s' q)
    (hand : ∀ b, InHand s q b → InHand s' q b ∧ (Transferred s b → Transferred s' b) ∧
      ((s.buf b).data = s.disk (s.buf b).sector → (s'.buf b).data = s'.disk (s'.buf b).sector))
    (calls : ∀ b, pc.caller = some b → (Needs s b → Needs s' b) ∧ (Waits s t b → Waits s' t b) ∧
      s'.qnext b = s.qnext b)
    (ticket : s'.ticket t = s.ticket t) (completed : s'.completed = s.completed) :
    Holds s' q t pc := by
  cases pc with
  | idle | enter | sleep | intr => trivial
  | clear b =>
    obtain ⟨new, needs, device⟩ := holds
    exact ⟨new, (calls b rfl).1 needs, settled device⟩
  | append b pp =>
    obtain ⟨new, needs, ends, place, device⟩ := holds
    exact ⟨new, (calls b rfl).1 needs, (calls b rfl).2.2.trans ends, place, settled device⟩
  | test b =>
    obtain ⟨waits, device⟩ := holds
    exact ⟨(calls b rfl).2.1 waits, device.imp (And.imp_right unstarted) (And.imp_right settled)⟩
  | start b =>
    obtain ⟨waits, single, device⟩ := holds
    exact ⟨(calls b rfl).2.1 waits, single, unstarted device⟩
  | wait b =>
    obtain ⟨waits, device⟩ := holds
    exact ⟨(calls b rfl).2.1 waits, settled device⟩
  | exit b =>
    obtain ⟨request, earlier, complete, device⟩ := holds
    obtain ⟨request', state⟩ := (calls b rfl).2.1 ⟨request, Or.inr ⟨earlier, complete⟩⟩
    grind [Holds]
  | take | leave => exact settled holds
  | read b =>
    obtain ⟨inHand, transferred⟩ := holds
    exact ⟨(hand b inHand).1, (hand b inHand).2.1 transferred⟩
  | mark b =>
    obtain ⟨inHand, data⟩ := holds
    exact ⟨(hand b inHand).1, (hand b inHand).2.2 data⟩
  | wake _ | next => exact unstarted holds
  | restart b =>
    obtain ⟨device, first⟩ := holds
    exact ⟨unstarted device, first⟩

def InUse (s : World T B D) (b : B) : Prop := ∃ u, (s.pc u).caller = some b

theorem Owner.inUse (owner : Owner s b) : InUse s b := by
  obtain ⟨u, waiting, -⟩ := owner
  exact ⟨u, Pc.caller_of_waits waiting⟩

structure Frame (s s' : World T B D) : Prop where
  pc : s'.pc = s.pc
  idelock : s'.idelock = s.idelock
  idequeue : s'.idequeue = s.idequeue
  busy : s'.busy = s.busy
  irq : s'.irq = s.irq
  register : s'.register = s.register
  disk : s'.disk = s.disk
  submitted : s'.submitted = s.submitted
  started : s'.started = s.started
  completed : s'.completed = s.completed
  ticket : s'.ticket = s.ticket
  buf : ∀ b, InUse s b → s'.buf b = s.buf b

theorem Sound.frame (sound : Sound s q) (frame : Frame s s')
    (blocks : ∀ b c, b ≠ c → (s'.buf b).lock ≠ none → (s'.buf c).lock ≠ none →
      (s'.buf b).sector ≠ (s'.buf c).sector) : Sound s' q := by
  have queued : ∀ b ∈ q, InUse s b := fun b member => (sound.owners b member).inUse
  have agrees : Agrees s s' q := by
    refine ⟨frame.busy, frame.irq, frame.register, frame.disk, fun t => by rw [frame.pc], ?_⟩
    exact fun b member => congrArg Buf.content (frame.buf b (queued b member))
  have owner : ∀ b, Owner s b → Owner s' b := fun b owner =>
    owner.congr frame.completed fun u waiting => by
      rw [frame.pc, frame.ticket]
      exact ⟨waiting, rfl⟩
  have waits : ∀ t b, InUse s b → Waits s t b → Waits s' t b := fun t b inUse waits =>
    waits.congr (congrArg Buf.content (frame.buf b inUse)) (fun _ => by rw [frame.disk])
      (by rw [frame.ticket]) frame.completed (by rw [frame.submitted, waits.request])
  have settled : Settled s q → Settled s' q :=
    agrees.settled (fun _ => id) frame.submitted frame.started frame.completed
  exact {
    excl := by
      rw [frame.pc, frame.idelock]
      exact sound.excl
    linked := by
      rw [frame.idequeue]
      exact sound.linked.congr fun b member => congrArg Buf.qnext (frame.buf b (queued b member))
    nodup := sound.nodup
    blocks := blocks
    mine := by
      intro t b calls
      rw [frame.pc] at calls
      rw [frame.buf b ⟨t, calls⟩]
      exact sound.mine t b calls
    owners := fun b member => owner b (sound.owners b member)
    entering := by
      intro t b here
      rw [frame.pc] at here
      obtain ⟨new, needs⟩ := sound.entering t b here
      refine ⟨new, (needs_congr (congrArg Buf.content (frame.buf b ⟨t, ?_⟩))).mpr needs⟩
      rw [here]
      rfl
    sleeping := by
      intro t b here
      rw [frame.pc] at here
      refine waits t b ⟨t, ?_⟩ (sound.sleeping t b here)
      rw [here]
      rfl
    holds := by
      intro t held
      rw [frame.idelock] at held
      rw [frame.pc]
      refine (sound.holds t held).imp settled
        (agrees.unstarted frame.submitted frame.started frame.completed) (fun b inHand => ?_)
        (fun b calls => ?_) (by rw [frame.ticket]) frame.completed
      · have same := frame.buf b inHand.owner.inUse
        have agrees : Agrees s s' [b] := ⟨frame.busy, frame.irq, frame.register, frame.disk,
          fun t => by rw [frame.pc], by simpa using congrArg Buf.content same⟩
        grind [agrees.inHand, inHand.owner, agrees.transferred, Frame]
      · have same := frame.buf b ⟨t, calls⟩
        refine ⟨(needs_congr (congrArg Buf.content same)).mpr, waits t b ⟨t, calls⟩, ?_⟩
        exact congrArg Buf.qnext same
    free := by
      intro unlocked
      rw [frame.idelock] at unlocked
      exact settled (sound.free unlocked) }

theorem Sound.panic (sound : Sound s q) (why : Panic) : Sound (s.panic why) q :=
  sound.frame ⟨rfl, rfl, rfl, rfl, rfl, rfl, rfl, rfl, rfl, rfl, rfl, fun _ _ => rfl⟩ sound.blocks

section Callers

variable [DecidableEq T] [DecidableEq B]

omit [DecidableEq B] in
theorem Sound.kill (sound : Sound s q) : Sound { s with asleep := Function.update s.asleep t none } q :=
  sound.frame ⟨rfl, rfl, rfl, rfl, rfl, rfl, rfl, rfl, rfl, rfl, rfl, fun _ _ => rfl⟩ sound.blocks

omit [DecidableEq T] in
theorem Sound.setBuf (sound : Sound s q) {bp : Buf T B D} (unused : ¬ InUse s b)
    (alone : bp.lock ≠ none → s.Unused b bp.sector) : Sound (s.setBuf b bp) q := by
  refine sound.frame ⟨rfl, rfl, rfl, rfl, rfl, rfl, rfl, rfl, rfl, rfl, rfl, fun c inUse => ?_⟩ ?_
  · exact setBuf_other fun same => unused (same ▸ inUse)
  · intro c d other first second
    by_cases isC : c = b
    · subst isC
      rw [setBuf_self] at first ⊢
      rw [setBuf_other (Ne.symm other)] at second ⊢
      exact (alone first d (Ne.symm other) second).symm
    · rw [setBuf_other isC] at first ⊢
      by_cases isD : d = b
      · subst isD
        rw [setBuf_self] at second ⊢
        exact alone second c other first
      · rw [setBuf_other isD] at second ⊢
        exact sound.blocks c d other first second

omit [DecidableEq T] [DecidableEq B] in
theorem Sound.unused_of_idle (sound : Sound s q) (idle : s.pc t = .idle)
    (held : (s.buf b).lock = some t) : ¬ InUse s b := by
  rintro ⟨u, calls⟩
  have holder := sound.mine u b calls
  rw [held] at holder
  cases holder
  rw [idle] at calls
  cases calls

omit [DecidableEq T] [DecidableEq B] in
theorem Sound.unused_of_unlocked (sound : Sound s q) (unlocked : (s.buf b).lock = none) :
    ¬ InUse s b := by
  rintro ⟨u, calls⟩
  have holder := sound.mine u b calls
  rw [unlocked] at holder
  cases holder

omit [DecidableEq B] in
theorem Sound.enter (sound : Sound s q) (idle : s.pc t = .idle) {n : Nat} {new : Pc B}
    (outside : new.inside = false) (waits : ∀ b, new ≠ .sleep b)
    (mine : ∀ b, new.caller = some b → (s.buf b).lock = some t)
    (entering : ∀ b, new = .enter b → b ∉ q ∧ Needs s b)
    (settled : Settled s q → Settled ({ s with irq := n }.goto t new) q)
    (unstarted : Unstarted s q → Unstarted ({ s with irq := n }.goto t new) q)
    (hand : ∀ b, InHand s q b → Quiet ({ s with irq := n }.goto t new)) :
    Sound ({ s with irq := n }.goto t new) q := by
  have owner : ∀ b, Owner s b → Owner ({ s with irq := n }.goto t new) b := by
    intro b owner
    refine owner.congr rfl fun u waiting => ⟨?_, rfl⟩
    have other : u ≠ t := by
      rintro rfl
      rw [idle] at waiting
      cases waiting
    rw [goto_pc_other _ _ other]
    exact waiting
  exact {
    excl := sound.excl.stay (by rw [outside, idle]; rfl)
    linked := sound.linked
    nodup := sound.nodup
    blocks := sound.blocks
    mine := by
      intro u b calls
      by_cases self : u = t
      · subst self
        rw [goto_pc_self] at calls
        exact mine b calls
      · rw [goto_pc_other _ _ self] at calls
        exact sound.mine u b calls
    owners := fun b member => owner b (sound.owners b member)
    entering := by
      intro u b here
      by_cases self : u = t
      · subst self
        rw [goto_pc_self] at here
        exact entering b here
      · rw [goto_pc_other _ _ self] at here
        exact sound.entering u b here
    sleeping := by
      intro u b here
      by_cases self : u = t
      · subst self
        rw [goto_pc_self] at here
        exact absurd here (waits b)
      · rw [goto_pc_other _ _ self] at here
        have before := sound.sleeping u b here
        exact before.congr rfl (fun _ => rfl) rfl rfl before.request
    holds := by
      intro u held
      have other : u ≠ t := by
        rintro rfl
        have inside := (sound.excl u).mpr held
        rw [idle] at inside
        cases inside
      rw [goto_pc_other _ _ other]
      refine (sound.holds u held).imp settled unstarted (fun b inHand => ⟨?_, id, id⟩)
        (fun b _ => ⟨id, fun before => ?_, rfl⟩) rfl rfl
      · exact ⟨inHand.submitted, inHand.started, inHand.busy, hand b inHand, inHand.apart,
          owner b inHand.owner⟩
      · exact before.congr rfl (fun _ => rfl) rfl rfl before.request
    free := fun unlocked => settled (sound.free unlocked) }

omit [DecidableEq B] in
theorem Sound.call (sound : Sound s q) (idle : s.pc t = .idle) (held : (s.buf b).lock = some t)
    (needs : Needs s b) : Sound (s.goto t (.enter b)) q := by
  have agrees : Agrees s (s.goto t (.enter b)) q := agrees_goto q (by rw [idle]; rfl)
  refine sound.enter (n := s.irq) idle rfl nofun ?_ ?_ (agrees.settled (fun _ => id) rfl rfl rfl)
    (agrees.unstarted rfl rfl rfl) fun _ inHand => agrees.quiet inHand.quiet
  · rintro c ⟨⟩
    exact held
  · rintro c ⟨⟩
    refine ⟨fun member => ?_, needs⟩
    exact sound.unused_of_idle idle held (sound.owners b member).inUse

omit [DecidableEq B] in
theorem Sound.interrupt (sound : Sound s q) (idle : s.pc t = .idle) (raised : 0 < s.irq) :
    Sound ({ s with irq := s.irq - 1 }.goto t .intr) q := by
  have noisy : ¬ Quiet s := fun quiet => by
    rw [quiet.irq] at raised
    exact Nat.lt_irrefl 0 raised
  refine sound.enter idle rfl nofun nofun nofun (fun settled => ?_)
    (fun unstarted => absurd unstarted.quiet noisy) fun _ inHand => absurd inHand.quiet noisy
  refine ⟨settled.submitted, settled.started, fun empty => absurd (settled.still empty).2 noisy, ?_⟩
  intro b first
  obtain ⟨inRange, ⟨-, quiet⟩ | ⟨busy, due, transferred⟩⟩ := settled.working b first
  · exact absurd quiet noisy
  rcases due with ⟨one, late⟩ | ⟨none, -⟩
  · refine ⟨inRange, Or.inr ⟨busy, Or.inr ⟨?_, t, ?_, ?_⟩, transferred⟩⟩
    · change s.irq - 1 = 0
      omega
    · rw [goto_pc_self]
      rfl
    · intro u early
      by_contra other
      rw [goto_pc_other _ _ other, late u] at early
      cases early
  · omega

end Callers

/-! ## The controller -/

theorem Sound.device (sound : Sound s q) :
    Settled s q ∨ Unstarted s q ∨ ∃ b, InHand s q b := by
  cases lock : s.idelock with
  | none => exact Or.inl (sound.free lock)
  | some t =>
    have holds := sound.holds t lock
    cases pc : s.pc t with
    | idle | enter | sleep | intr =>
      have inside := (sound.excl t).mpr lock
      rw [pc] at inside
      cases inside
    | clear b =>
      rw [pc] at holds
      exact Or.inl holds.2.2
    | append b pp =>
      rw [pc] at holds
      exact Or.inl holds.2.2.2.2
    | test b =>
      rw [pc] at holds
      grind [holds.2]
    | start b =>
      rw [pc] at holds
      exact Or.inr (Or.inl holds.2.2)
    | wait b =>
      rw [pc] at holds
      exact Or.inl holds.2
    | exit b =>
      rw [pc] at holds
      exact Or.inl holds.2.2.2
    | take | leave =>
      rw [pc] at holds
      exact Or.inl holds
    | read b | mark b =>
      rw [pc] at holds
      exact Or.inr (Or.inr ⟨b, holds.1⟩)
    | wake b | next =>
      rw [pc] at holds
      exact Or.inr (Or.inl holds)
    | restart b =>
      rw [pc] at holds
      exact Or.inr (Or.inl holds.1)

theorem finish_eq (s : World T B D) (c : Command D) : finish s c =
    { s with
      disk := (finish s c).disk, register := (finish s c).register, busy := none
      irq := s.irq + 1 } := by
  unfold finish
  split <;> rfl

theorem finish_transfers (b : B) (inRange : (s.buf b).blockno < FSSIZE) :
    (∀ sector, sector ≠ (s.buf b).sector →
      (finish s (s.buf b).command).disk sector = s.disk sector) ∧
    if (s.buf b).dirty then (finish s (s.buf b).command).disk (s.buf b).sector = (s.buf b).data
    else (finish s (s.buf b).command).register =
      (finish s (s.buf b).command).disk (s.buf b).sector := by
  have place := Buf.sector_command (s.buf b) inRange
  cases dirty : (s.buf b).dirty with
  | true =>
    have data : (s.buf b).command.data = some (s.buf b).data := by simp [Buf.command, dirty]
    simp only [finish, data, place]
    grind
  | false =>
    have data : (s.buf b).command.data = none := by simp [Buf.command, dirty]
    simp only [finish, data, place]
    exact ⟨fun _ _ => trivial, trivial⟩

theorem Sound.disk {c : Command D} (sound : Sound s q) (busy : s.busy = some c) :
    Sound (finish s c) q := by
  have working : s.busy ≠ none := by
    rw [busy]
    exact nofun
  have settled : Settled s q := by
    rcases sound.device with settled | unstarted | ⟨b, inHand⟩
    · exact settled
    · exact absurd unstarted.busy working
    · exact absurd inHand.busy working
  obtain ⟨b, rest, rfl⟩ : ∃ b rest, q = b :: rest := by
    cases q with
    | nil => exact absurd (settled.still rfl).1 working
    | cons b rest => exact ⟨b, rest, rfl⟩
  obtain ⟨inRange, ⟨command, quiet⟩ | ⟨stopped, -⟩⟩ := settled.working b rfl
  swap
  · exact absurd stopped working
  rw [busy] at command
  obtain rfl := Option.some.inj command
  obtain ⟨others, transferred⟩ := finish_transfers b inRange
  obtain ⟨w, waiting, later⟩ := sound.owners b List.mem_cons_self
  -- A completed request is for another block than the one being transferred.
  have kept : ∀ t c, (s.pc t).caller = some c → s.ticket t < s.completed.length →
      (finish s (s.buf b).command).disk (s.buf c).sector = s.disk (s.buf c).sector := by
    intro t c calls earlier
    have other : c ≠ b := by
      rintro rfl
      have same := sound.caller_unique calls (Pc.caller_of_waits waiting)
      subst same
      omega
    refine others _ (sound.blocks c b other ?_ ?_)
    · rw [sound.mine t c calls]
      exact nofun
    · rw [sound.mine w b (Pc.caller_of_waits waiting)]
      exact nofun
  rw [finish_eq]
  generalize (finish s (s.buf b).command).disk = disk at transferred kept ⊢
  generalize (finish s (s.buf b).command).register = register at transferred ⊢
  have after : Settled { s with
      disk := disk, register := register, busy := none, irq := s.irq + 1 } (b :: rest) := by
    refine ⟨settled.submitted, settled.started, nofun, ?_⟩
    rintro c ⟨⟩
    refine ⟨inRange, Or.inr ⟨rfl, Or.inl ⟨?_, quiet.late⟩, transferred⟩⟩
    change s.irq + 1 = 1
    rw [quiet.irq]
  exact {
    excl := sound.excl
    linked := sound.linked
    nodup := sound.nodup
    blocks := sound.blocks
    mine := sound.mine
    owners := sound.owners
    entering := sound.entering
    sleeping := by
      intro t c here
      have before := sound.sleeping t c here
      refine before.congr rfl (kept t c ?_) rfl rfl before.request
      rw [here]
      rfl
    holds := by
      intro t held
      refine (sound.holds t held).imp (fun _ => after)
        (fun unstarted => absurd unstarted.busy working) (fun c inHand => absurd inHand.busy working)
        (fun c calls => ⟨id, fun before => ?_, rfl⟩) rfl rfl
      exact before.congr rfl (kept t c calls) rfl rfl before.request
    free := fun _ => after }

/-! ## All runs -/

section Runs

variable [DecidableEq T] [DecidableEq B]

omit [DecidableEq B] in
theorem Sound.iderw (sound : Sound s q) (idle : s.pc t = .idle) : Sound (iderw s t b) q := by
  unfold Ide.iderw
  dsimp only
  split
  · exact sound.panic _
  · rename_i held
    split
    · exact sound.panic _
    · rename_i needs
      split
      · exact sound.panic _
      · exact sound.call idle (not_not.mp held) needs

theorem Sound.step [Fintype B] {op : Op T B D} (sound : Sound s q) (taken : step s op = some s') :
    ∃ q', Sound s' q' := by
  unfold Ide.step at taken
  split at taken
  · cases taken
  · cases op with
    | lock t b dev blockno valid dirty data =>
      dsimp only at taken
      split at taken
      · rename_i guard
        cases taken
        obtain ⟨-, unlocked, alone⟩ := guard
        exact ⟨q, sound.setBuf (sound.unused_of_unlocked unlocked) fun _ => alone⟩
      · cases taken
    | change t b valid dirty data =>
      dsimp only at taken
      split at taken
      · rename_i guard
        cases taken
        obtain ⟨idle, held⟩ := guard
        refine ⟨q, sound.setBuf (sound.unused_of_idle idle held) fun _ c other locked => ?_⟩
        refine sound.blocks c b other locked ?_
        rw [held]
        exact nofun
      · cases taken
    | unlock t b =>
      dsimp only at taken
      split at taken
      · rename_i guard
        cases taken
        exact ⟨q, sound.setBuf (sound.unused_of_idle guard.1 guard.2) fun locked => absurd rfl locked⟩
      · cases taken
    | iderw t b =>
      dsimp only at taken
      split at taken
      · rename_i idle
        cases taken
        exact ⟨q, sound.iderw idle⟩
      · cases taken
    | ideintr t =>
      dsimp only at taken
      split at taken
      · rename_i guard
        cases taken
        exact ⟨q, sound.interrupt guard.1 guard.2⟩
      · cases taken
    | run t => exact sound.advance sound.panic taken
    | kill t =>
      cases taken
      exact ⟨q, sound.kill⟩
    | disk =>
      dsimp only at taken
      split at taken
      · cases taken
      · rename_i busy
        cases taken
        exact ⟨q, sound.disk busy⟩

def ideinit (T : Type) (havedisk1 : Bool) (disk : Sector → D) (data : B → D) (register : D) :
    World T B D where
  buf b := ⟨false, false, 0, 0, none, none, data b⟩
  idequeue := none
  idelock := none
  havedisk1 := havedisk1
  busy := none
  register := register
  irq := 0
  disk := disk
  pc := fun _ => .idle
  asleep := fun _ => none
  panicked := none
  submitted := []
  started := []
  completed := []
  ticket := fun _ => 0

omit [DecidableEq T] [DecidableEq B] in
theorem sound_ideinit (havedisk1 : Bool) (disk : Sector → D) (data : B → D) (register : D) :
    Sound (ideinit T havedisk1 disk data register) [] where
  excl t := iff_of_false (by simp [ideinit, Pc.inside]) (by simp [ideinit])
  linked := rfl
  nodup := List.nodup_nil
  blocks := fun _ _ _ locked => absurd rfl locked
  mine := nofun
  owners := nofun
  entering := nofun
  sleeping := nofun
  holds := nofun
  free := fun _ => ⟨rfl, rfl, fun _ => ⟨rfl, rfl, fun _ => rfl⟩, nofun⟩

/-- Requests are started and completed in the order in which they came.  The queue has no
buffer twice; when nobody has `idelock` it is what has not been completed, and the
controller works on its first request, or has finished it and its interrupt is on the way.
A call returns when its own request was completed, with the buffer valid, clean and equal
to its block.  Nobody waits while it has `idelock`. -/
structure Served [Fintype B] (s : World T B D) : Prop where
  fifo : s.completed <+: s.started ∧ s.started <+: s.submitted
  queue : ∃ q, Linked s.qnext s.idequeue q ∧ q.Nodup ∧
    (s.idelock = none → s.submitted = s.completed ++ q)
  working : s.idelock = none → ∀ b, s.idequeue = some b → s.started = s.completed ++ [b] ∧
    (s.busy = some (s.buf b).command ∨ s.busy = none ∧ (s.irq = 1 ∨ ∃ t, s.pc t = .intr))
  returns : ∀ t b, s.pc t = .exit b → s.submitted[s.ticket t]? = some b ∧
    s.ticket t < s.completed.length ∧ Complete s b
  progress : ∀ t, s.idelock = some t → s.panicked = none → (step s (.run t)).isSome = true

omit [DecidableEq T] [DecidableEq B] in
theorem Sound.fifo (sound : Sound s q) :
    s.completed <+: s.started ∧ s.started <+: s.submitted := by
  rcases sound.device with settled | unstarted | ⟨b, inHand⟩
  · rw [settled.started, settled.submitted]
    exact ⟨List.prefix_append _ _, (List.prefix_append_right_inj _).mpr (List.take_prefix _ _)⟩
  · rw [unstarted.started, unstarted.submitted]
    exact ⟨List.prefix_rfl, List.prefix_append _ _⟩
  · rw [inHand.started, inHand.submitted]
    exact ⟨List.prefix_append _ _, (List.prefix_append_right_inj _).mpr ⟨q, rfl⟩⟩

omit [DecidableEq T] [DecidableEq B] in
theorem Sound.working (sound : Sound s q) (unlocked : s.idelock = none) (first : s.idequeue = some b) :
    s.started = s.completed ++ [b] ∧
      (s.busy = some (s.buf b).command ∨ s.busy = none ∧ (s.irq = 1 ∨ ∃ t, s.pc t = .intr)) := by
  have settled := sound.free unlocked
  rw [sound.linked.head?_eq] at first
  obtain ⟨rest, rfl⟩ : ∃ rest, q = b :: rest := List.head?_eq_some_iff.mp first
  refine ⟨settled.started, ?_⟩
  obtain ⟨-, ⟨busy, -⟩ | ⟨busy, due, -⟩⟩ := settled.working b rfl
  · exact Or.inl busy
  rcases due with ⟨one, -⟩ | ⟨-, t, early, -⟩
  · exact Or.inr ⟨busy, Or.inl one⟩
  · refine Or.inr ⟨busy, Or.inr ⟨t, ?_⟩⟩
    have outside := sound.excl.free unlocked t
    cases pc : s.pc t with
    | intr => rfl
    | take =>
      rw [pc] at outside
      cases outside
    | _ =>
      rw [pc] at early
      cases early

omit [DecidableEq B] in
theorem idestart_isSome (ready : s.busy = none) : (idestart s t b pc).isSome = true := by
  unfold idestart
  rw [ready]
  split <;> rfl

/-- The holder of `idelock` does not wait for anything. -/
theorem Sound.progress (sound : Sound s q) (held : s.idelock = some t) :
    (Ide.advance s t).isSome = true := by
  have inside := (sound.excl t).mpr held
  have holds := sound.holds t held
  unfold Ide.advance
  cases pc : s.pc t with
  | idle | enter | sleep | intr =>
    rw [pc] at inside
    cases inside
  | clear | exit | mark | wake | leave => rfl
  | append b pp =>
    dsimp only
    split <;> rfl
  | test b =>
    dsimp only
    split <;> rfl
  | start b =>
    rw [pc] at holds
    exact idestart_isSome holds.2.2.busy
  | wait b =>
    dsimp only
    split <;> rfl
  | take | next =>
    dsimp only
    split <;> rfl
  | read b =>
    rw [pc] at holds
    dsimp only
    rw [holds.1.busy]
    split <;> rfl
  | restart b =>
    rw [pc] at holds
    exact idestart_isSome holds.1.busy

theorem Sound.served [Fintype B] (sound : Sound s q) : Served s := by
  refine ⟨sound.fifo, ⟨q, sound.linked, sound.nodup, fun free => (sound.free free).submitted⟩,
    fun unlocked b first => sound.working unlocked first, ?_, ?_⟩
  · intro t b here
    obtain ⟨request, earlier, complete, -⟩ := sound.holds_at here rfl
    exact ⟨request, earlier, complete⟩
  · intro t held going
    unfold Ide.step
    rw [going, if_neg (not_not.mpr rfl)]
    exact sound.progress held

end Runs

def oneRead : List (Op (Fin 2) (Fin 1) Nat) :=
  [.lock 0 0 1 7 false false 0, .iderw 0 0] ++ List.replicate 6 (.run 0) ++ [.disk, .ideintr 1] ++
    List.replicate 7 (.run 1) ++ List.replicate 3 (.run 0)

example : (Lib.run step (ideinit (Fin 2) true Prod.snd (fun _ => 0) 0) oneRead).any (fun s =>
    decide (s.pc 0 = .idle ∧ s.completed = [0] ∧ (s.buf 0).data = 7)) = true := by
  decide +kernel

end Xv6Tracing.Ide
