import Xv6Tracing.Ide.Invariant

/-!
# Steps of iderw

A step of the context that holds `idelock` concerns the queue and the controller, and the
others wait for the lock or sleep.
-/

set_option autoImplicit false

namespace Xv6Tracing.Ide

open Function (update update_of_ne update_self)

open Lib

variable {T B D : Type} {s s' : World T B D} {q q' : List B} {b c : B} {t u : T} {new : Pc B}

/-! ## States that agree -/

structure Agrees (s s' : World T B D) (l : List B) : Prop where
  busy : s'.busy = s.busy
  irq : s'.irq = s.irq
  register : s'.register = s.register
  disk : s'.disk = s.disk
  early : ∀ t, (s'.pc t).early = (s.pc t).early
  content : ∀ b ∈ l, (s'.buf b).content = (s.buf b).content

section Agreement

variable {l : List B} (agrees : Agrees s s' l)
include agrees

theorem Agrees.quiet (quiet : Quiet s) : Quiet s' :=
  ⟨agrees.irq.trans quiet.irq, fun t => (agrees.early t).trans (quiet.late t)⟩

theorem Agrees.due (due : Due s) : Due s' := by
  unfold Due at due ⊢
  simp only [agrees.irq, agrees.early]
  exact due

section

variable (member : b ∈ l)

include member

theorem Agrees.dirty : (s'.buf b).dirty = (s.buf b).dirty :=
  congrArg (fun content => content.2.1) (agrees.content b member)

theorem Agrees.data : (s'.buf b).data = (s.buf b).data :=
  congrArg (fun content => content.2.2.2.2) (agrees.content b member)

theorem Agrees.blockno : (s'.buf b).blockno = (s.buf b).blockno :=
  congrArg (fun content => content.2.2.2.1) (agrees.content b member)

theorem Agrees.transferred (transferred : Transferred s b) : Transferred s' b := by
  unfold Transferred at transferred ⊢
  rw [agrees.dirty member, agrees.data member, agrees.disk, agrees.register,
    Buf.sector_congr (agrees.content b member)]
  exact transferred

theorem Agrees.working (working : Working s b) : Working s' b := by
  obtain ⟨inRange, state⟩ := working
  grind [agrees.blockno, agrees.busy, Buf.command_congr, agrees.content, agrees.quiet, agrees.due,
      agrees.transferred, Working]

end

theorem Agrees.settled (queued : ∀ b ∈ q, b ∈ l) (submitted : s'.submitted = s.submitted)
    (started : s'.started = s.started) (completed : s'.completed = s.completed)
    (settled : Settled s q) : Settled s' q where
  submitted := by rw [submitted, completed, settled.submitted]
  started := by rw [started, completed, settled.started]
  still empty := by
    obtain ⟨busy, quiet⟩ := settled.still empty
    exact ⟨agrees.busy.trans busy, agrees.quiet quiet⟩
  working b first := agrees.working (queued b (List.mem_of_head? first)) (settled.working b first)

theorem Agrees.unstarted (submitted : s'.submitted = s.submitted)
    (started : s'.started = s.started) (completed : s'.completed = s.completed)
    (unstarted : Unstarted s q) : Unstarted s' q where
  submitted := by rw [submitted, completed, unstarted.submitted]
  started := by rw [started, completed, unstarted.started]
  busy := agrees.busy.trans unstarted.busy
  quiet := agrees.quiet unstarted.quiet

theorem Agrees.inHand (submitted : s'.submitted = s.submitted) (started : s'.started = s.started)
    (completed : s'.completed = s.completed) (inHand : InHand s q b) (owner : Owner s' b) :
    InHand s' q b where
  submitted := by rw [submitted, completed, inHand.submitted]
  started := by rw [started, completed, inHand.started]
  busy := agrees.busy.trans inHand.busy
  quiet := agrees.quiet inHand.quiet
  apart := inHand.apart
  owner := owner

end Agreement

theorem needs_congr (same : (s'.buf b).content = (s.buf b).content) : Needs s' b ↔ Needs s b := by
  have valid : (s'.buf b).valid = (s.buf b).valid := congrArg (fun content => content.1) same
  have dirty : (s'.buf b).dirty = (s.buf b).dirty := congrArg (fun content => content.2.1) same
  rw [Needs, Needs, valid, dirty]

theorem Complete.congr (complete : Complete s b) (same : (s'.buf b).content = (s.buf b).content)
    (disk : s'.disk (s.buf b).sector = s.disk (s.buf b).sector) : Complete s' b where
  valid := (congrArg (fun content => content.1) same).trans complete.valid
  clean := (congrArg (fun content => content.2.1) same).trans complete.clean
  data := by
    rw [Buf.sector_congr same, disk, ← complete.data]
    exact congrArg (fun content => content.2.2.2.2) same

theorem Waits.congr (waits : Waits s t b) (same : (s'.buf b).content = (s.buf b).content)
    (disk : s.ticket t < s.completed.length → s'.disk (s.buf b).sector = s.disk (s.buf b).sector)
    (ticket : s'.ticket t = s.ticket t) (completed : s'.completed = s.completed)
    (request : s'.submitted[s.ticket t]? = some b) : Waits s' t b where
  request := by rw [ticket, request]
  state := by
    rw [ticket, completed, needs_congr same]
    rcases waits.state with ⟨later, needs⟩ | ⟨earlier, complete⟩
    · exact Or.inl ⟨later, needs⟩
    · exact Or.inr ⟨earlier, complete.congr same (disk earlier)⟩

/-- A context that waits for a request it needs is the owner of the buffer. -/
theorem Owner.congr (owner : Owner s b) (completed : s'.completed = s.completed)
    (waits : ∀ u, (s.pc u).waits = some b → (s'.pc u).waits = some b ∧ s'.ticket u = s.ticket u) :
    Owner s' b := by
  obtain ⟨u, waiting, later⟩ := owner
  obtain ⟨waiting', ticket⟩ := waits u waiting
  exact ⟨u, waiting', by rwa [ticket, completed]⟩

/-! ## Steps of the holder -/

section Holder

variable [DecidableEq T]

@[simp] theorem goto_pc_self (s : World T B D) (t : T) (new : Pc B) : (s.goto t new).pc t = new :=
  update_self _ _ _

theorem goto_pc_other (s : World T B D) (new : Pc B) (other : u ≠ t) :
    (s.goto t new).pc u = s.pc u := update_of_ne other _ _

variable (sound : Sound s q)
include sound

omit [DecidableEq T] in
theorem Sound.locked (inside : (s.pc t).inside = true) : s.idelock = some t :=
  (sound.excl t).mp inside

omit [DecidableEq T] in
theorem Sound.holds_at (here : s.pc t = new) (inside : new.inside = true) : Holds s q t new := by
  have holds := sound.holds t (sound.locked (by rw [here]; exact inside))
  rwa [here] at holds

omit [DecidableEq T] in
theorem Sound.caller_unique (first : (s.pc t).caller = some b) (second : (s.pc u).caller = some b) :
    t = u := by
  have holder := sound.mine t b first
  rw [sound.mine u b second] at holder
  exact (Option.some.inj holder).symm

theorem Sound.step_holder (inside : (s.pc t).inside = true) (pc : s'.pc = update s.pc t new)
    (lock : new.inside = true ∧ s'.idelock = some t ∨ new.inside = false ∧ s'.idelock = none)
    (caller : ∀ b, new.caller = some b → (s.pc t).caller = some b)
    (locks : ∀ b, (s'.buf b).lock = (s.buf b).lock)
    (sectors : ∀ b, (s'.buf b).sector = (s.buf b).sector)
    (linked : Linked s'.qnext s'.idequeue q') (nodup : q'.Nodup) (owners : ∀ b ∈ q', Owner s' b)
    (entering : ∀ u b, u ≠ t → s.pc u = .enter b → b ∉ q' ∧ Needs s' b)
    (sleeping : ∀ u b, u ≠ t → s.pc u = .sleep b → Waits s' u b)
    (outside : new.inside = false → (∀ b, new ≠ .enter b) ∧
      (∀ b, new = .sleep b → Waits s' t b) ∧ Settled s' q')
    (holds : new.inside = true → Holds s' q' t new) : Sound s' q' where
  excl := by grind [sound.excl.stay, sound.locked, sound.excl.give]
  linked := linked
  nodup := nodup
  blocks b c other first second := by
    rw [locks] at first second
    rw [sectors, sectors]
    exact sound.blocks b c other first second
  mine u b calls := by
    rw [locks]
    by_cases self : u = t
    · subst self
      rw [pc, update_self] at calls
      exact sound.mine u b (caller b calls)
    · rw [pc, update_of_ne self] at calls
      exact sound.mine u b calls
  owners := owners
  entering u b here := by
    by_cases self : u = t
    · subst self
      rw [pc, update_self] at here
      subst here
      exact absurd rfl ((outside rfl).1 b)
    · rw [pc, update_of_ne self] at here
      exact entering u b self here
  sleeping u b here := by
    by_cases self : u = t
    · subst self
      rw [pc, update_self] at here
      subst here
      exact (outside rfl).2.1 b rfl
    · rw [pc, update_of_ne self] at here
      exact sleeping u b self here
  holds u held := by
    rcases lock with ⟨stays, lock⟩ | ⟨-, lock⟩
    · rw [lock] at held
      obtain rfl := Option.some.inj held
      rw [pc, update_self]
      exact holds stays
    · rw [lock] at held
      cases held
  free unlocked := by grind

theorem Sound.turn (inside : (s.pc t).inside = true) (stays : new.inside = true)
    (caller : ∀ b, new.caller = some b → (s.pc t).caller = some b)
    (waits : ∀ b ∈ q, (s.pc t).waits = some b → s.completed.length ≤ s.ticket t →
      new.waits = some b) (holds : Holds (s.goto t new) q t new) : Sound (s.goto t new) q := by
  refine sound.step_holder inside rfl (Or.inl ⟨stays, sound.locked inside⟩) caller (fun _ => rfl)
    (fun _ => rfl) sound.linked sound.nodup ?_ (fun u b _ here => sound.entering u b here)
    (fun u b _ here => ?_) (fun leaves => ?_) fun _ => holds
  · intro b member
    obtain ⟨u, waiting, later⟩ := sound.owners b member
    refine ⟨u, ?_, later⟩
    by_cases self : u = t
    · subst self
      rw [goto_pc_self]
      exact waits b member waiting later
    · rw [goto_pc_other s new self]
      exact waiting
  · have before := sound.sleeping u b here
    exact before.congr rfl (fun _ => rfl) rfl rfl before.request
  · rw [stays] at leaves
    cases leaves

omit sound in
theorem early_update (early : new.early = (s.pc t).early) (u : T) :
    (update s.pc t new u).early = (s.pc u).early := by
  by_cases self : u = t
  · subst self
    rw [update_self, early]
  · rw [update_of_ne self]

omit sound in
theorem agrees_goto (l : List B) (early : new.early = (s.pc t).early) : Agrees s (s.goto t new) l :=
  ⟨rfl, rfl, rfl, rfl, early_update early, fun _ _ => rfl⟩

theorem Sound.release (inside : (s.pc t).inside = true) (late : (s.pc t).early = false)
    (settled : Settled s q) (waits : ∀ b ∈ q, (s.pc t).waits ≠ some b) :
    Sound ({ s with idelock := none }.goto t .idle) q := by
  have agrees : Agrees s ({ s with idelock := none }.goto t .idle) q :=
    ⟨rfl, rfl, rfl, rfl, early_update (by rw [late]; rfl), fun _ _ => rfl⟩
  refine sound.step_holder inside rfl (Or.inr ⟨rfl, rfl⟩) nofun (fun _ => rfl) (fun _ => rfl)
    sound.linked sound.nodup (fun b member => ?_) (fun u b _ here => sound.entering u b here)
    (fun u b _ here => ?_) (fun _ => ⟨nofun, nofun, agrees.settled (fun _ => id) rfl rfl rfl settled⟩) nofun
  · refine (sound.owners b member).congr rfl fun u waiting => ⟨?_, rfl⟩
    have other : u ≠ t := by
      rintro rfl
      exact waits b member waiting
    rw [goto_pc_other _ _ other]
    exact waiting
  · have before := sound.sleeping u b here
    exact before.congr rfl (fun _ => rfl) rfl rfl before.request

theorem Sound.acquire (outside : (s.pc t).inside = false) (unlocked : s.idelock = none)
    (enters : new.inside = true) (caller : new.caller = (s.pc t).caller)
    (early : new.early = (s.pc t).early)
    (waits : ∀ b, (s.pc t).waits = some b → new.waits = some b)
    (holds : Settled ({ s with idelock := some t }.goto t new) q →
      Holds ({ s with idelock := some t }.goto t new) q t new) : Sound ({ s with idelock := some t }.goto t new) q := by
  have agrees : Agrees s ({ s with idelock := some t }.goto t new) q :=
    ⟨rfl, rfl, rfl, rfl, early_update early, fun _ _ => rfl⟩
  have settled := agrees.settled (fun _ => id) rfl rfl rfl (sound.free unlocked)
  exact {
    excl := sound.excl.take unlocked enters
    linked := sound.linked
    nodup := sound.nodup
    blocks := sound.blocks
    mine := by
      intro u b calls
      by_cases self : u = t
      · subst self
        rw [goto_pc_self, caller] at calls
        exact sound.mine u b calls
      · rw [goto_pc_other _ _ self] at calls
        exact sound.mine u b calls
    owners := by
      intro b member
      refine (sound.owners b member).congr rfl fun u waiting => ⟨?_, rfl⟩
      by_cases self : u = t
      · subst self
        rw [goto_pc_self]
        exact waits b waiting
      · rw [goto_pc_other _ _ self]
        exact waiting
    entering := by
      intro u b here
      by_cases self : u = t
      · subst self
        rw [goto_pc_self] at here
        subst here
        cases enters
      · rw [goto_pc_other _ _ self] at here
        exact sound.entering u b here
    sleeping := by
      intro u b here
      by_cases self : u = t
      · subst self
        rw [goto_pc_self] at here
        subst here
        cases enters
      · rw [goto_pc_other _ _ self] at here
        have before := sound.sleeping u b here
        exact before.congr rfl (fun _ => rfl) rfl rfl before.request
    holds := by
      intro u held
      obtain rfl := Option.some.inj held
      rw [goto_pc_self]
      exact holds settled
    free := nofun }

end Holder

/-! ## iderw -/

section Iderw

variable [DecidableEq T] [DecidableEq B]

variable {bp : Buf T B D} {pp : Option B}

omit [DecidableEq T] in
theorem setBuf_self : (s.setBuf b bp).buf b = bp := update_self _ _ _

omit [DecidableEq T] in
theorem setBuf_other (other : c ≠ b) : (s.setBuf b bp).buf c = s.buf c :=
  update_of_ne other _ _

omit [DecidableEq T] in
theorem setBuf_same {α : Type} (f : Buf T B D → α) (same : f bp = f (s.buf b))
    (c : B) : f ((s.setBuf b bp).buf c) = f (s.buf c) := by
  by_cases self : c = b
  · rw [self, setBuf_self, same]
  · rw [setBuf_other self]

variable (sound : Sound s q)
include sound

theorem Sound.clear (here : s.pc t = .clear b) :
    Sound ((s.setBuf b { s.buf b with qnext := none }).goto t (.append b none)) q := by
  obtain ⟨new, needs, settled⟩ := sound.holds_at here rfl
  have inside : (s.pc t).inside = true := by rw [here]; rfl
  have content : ∀ c, (((s.setBuf b { s.buf b with qnext := none }).buf c).content =
      (s.buf c).content) := setBuf_same Buf.content rfl
  have agrees : Agrees s ((s.setBuf b { s.buf b with qnext := none }).goto t (.append b none)) q :=
    ⟨rfl, rfl, rfl, rfl, early_update (s := s) (by rw [here]; rfl),
      fun c _ => content c⟩
  have links : ∀ c ∈ q, ((s.setBuf b { s.buf b with qnext := none }).goto t (.append b none)).qnext c =
      s.qnext c := fun c member =>
    congrArg Buf.qnext (setBuf_other fun same => new (same ▸ member))
  refine sound.step_holder inside rfl (Or.inl ⟨rfl, sound.locked inside⟩) ?_
    (setBuf_same Buf.lock rfl) (setBuf_same Buf.sector rfl) (sound.linked.congr links) sound.nodup
    (fun c member => ?_) (fun u c _ enters => ?_) (fun u c _ sleeps => ?_) nofun fun _ => ?_
  · intro c calls
    rw [here]
    exact calls
  · refine (sound.owners c member).congr rfl fun u waiting => ⟨?_, rfl⟩
    have other : u ≠ t := by
      rintro rfl
      rw [here] at waiting
      cases waiting
    rw [goto_pc_other _ _ other]
    exact waiting
  · obtain ⟨outside, needs⟩ := sound.entering u c enters
    exact ⟨outside, (needs_congr (content c)).mpr needs⟩
  · have before := sound.sleeping u c sleeps
    exact before.congr (content c) (fun _ => rfl) rfl rfl before.request
  · refine ⟨new, (needs_congr (content b)).mpr needs, ?_, nofun, agrees.settled (fun _ => id) rfl rfl rfl settled⟩
    exact congrArg Buf.qnext setBuf_self

omit [DecidableEq B] in
theorem Sound.walk (here : s.pc t = .append b pp) (follows : s.deref pp = some c) :
    Sound (s.goto t (.append b (some c))) q := by
  obtain ⟨new, needs, ends, place, settled⟩ := sound.holds_at here rfl
  have agrees : Agrees s (s.goto t (.append b (some c))) q := agrees_goto q (by rw [here]; rfl)
  have member : c ∈ q := by
    cases pp with
    | none =>
      have first : s.idequeue = some c := follows
      rw [sound.linked.head?_eq] at first
      exact List.mem_of_head? first
    | some d => exact sound.linked.next_mem (place d rfl) follows
  refine sound.turn (by rw [here]; rfl) rfl ?_ ?_ ⟨new, needs, ends, ?_, agrees.settled (fun _ => id) rfl rfl rfl settled⟩
  · intro d calls
    rw [here]
    exact calls
  · intro d _ waiting
    rw [here] at waiting
    cases waiting
  · intro d same
    cases same
    exact member

omit [DecidableEq T] in
theorem Sound.store (nothing : s.deref pp = none) (place : ∀ c, pp = some c → c ∈ q)
    (new : b ∉ q) (ends : s.qnext b = none) :
    Linked (s.store pp b).qnext (s.store pp b).idequeue (q ++ [b]) := by
  cases pp with
  | none =>
    have empty : q = [] := by
      have first : s.idequeue = none := nothing
      rw [sound.linked.head?_eq] at first
      exact List.head?_eq_none_iff.mp first
    subst empty
    exact ⟨rfl, ends⟩
  | some c =>
    have linked := sound.linked.append sound.nodup (place c rfl) nothing new ends
    refine linked.congr fun d _ => ?_
    by_cases self : d = c
    · rw [self, update_self]
      exact congrArg Buf.qnext setBuf_self
    · rw [update_of_ne self]
      exact congrArg Buf.qnext (setBuf_other self)

omit sound [DecidableEq T] in
theorem store_same {α : Type} (f : Buf T B D → α)
    (same : ∀ (bp : Buf T B D) link, f { bp with qnext := link } = f bp) (c : B) :
    f ((s.store pp b).buf c) = f (s.buf c) := by
  cases pp with
  | none => rfl
  | some d => exact setBuf_same f (same _ _) c

omit sound [DecidableEq T] in
theorem store_eq (pp : Option B) : s.store pp b =
    { s with idequeue := (s.store pp b).idequeue, buf := (s.store pp b).buf } := by
  cases pp with
  | none => rfl
  | some c => rfl

theorem Sound.submit (here : s.pc t = .append b pp) (nothing : s.deref pp = none) :
    Sound ({ s.store pp b with
      submitted := s.submitted ++ [b]
      ticket := update s.ticket t s.submitted.length }.goto t (.test b)) (q ++ [b]) := by
  obtain ⟨new, needs, ends, place, settled⟩ := sound.holds_at here rfl
  have inside : (s.pc t).inside = true := by rw [here]; rfl
  have linked := sound.store nothing place new ends
  have content : ∀ c, ((s.store pp b).buf c).content = (s.buf c).content :=
    store_same Buf.content fun _ _ => rfl
  have locks : ∀ c, ((s.store pp b).buf c).lock = (s.buf c).lock := store_same Buf.lock fun _ _ => rfl
  unfold World.qnext at linked
  rw [store_eq pp]
  generalize (s.store pp b).idequeue = head at linked ⊢
  generalize (s.store pp b).buf = buf at linked content locks ⊢
  have waiting : ∀ u, u ≠ t → (({ s with
      idequeue := head
      buf := buf
      submitted := s.submitted ++ [b]
      ticket := update s.ticket t s.submitted.length }.goto t (.test b)).pc u).waits =
        (s.pc u).waits ∧ update s.ticket t s.submitted.length u = s.ticket u :=
    fun u other => ⟨by rw [goto_pc_other _ _ other], update_of_ne other _ _⟩
  have after : s.completed.length ≤ update s.ticket t s.submitted.length t := by
    rw [update_self, settled.submitted, List.length_append]
    omega
  refine sound.step_holder inside rfl (Or.inl ⟨rfl, sound.locked inside⟩) ?_ locks
    (fun c => Buf.sector_congr (content c)) linked ?_ (fun c member => ?_) (fun u c other enters => ?_)
    (fun u c other sleeps => ?_) nofun fun _ => ⟨⟨?_, ?_⟩, ?_⟩
  · intro c calls
    rw [here]
    exact calls
  · exact List.nodup_append.mpr ⟨sound.nodup, List.nodup_singleton b, fun c member d single => by
      rintro rfl
      exact new (List.mem_singleton.mp single ▸ member)⟩
  · rcases List.mem_append.mp member with queued | single
    · refine (sound.owners c queued).congr rfl fun u waits => ?_
      have other : u ≠ t := by
        rintro rfl
        rw [here] at waits
        cases waits
      exact ⟨(waiting u other).1.trans waits, (waiting u other).2⟩
    · refine ⟨t, ?_, ?_⟩
      · rw [goto_pc_self, List.mem_singleton.mp single]
        rfl
      · exact after
  · obtain ⟨outside, needs⟩ := sound.entering u c enters
    refine ⟨fun member => ?_, (needs_congr (content c)).mpr needs⟩
    rcases List.mem_append.mp member with queued | single
    · exact outside queued
    · obtain rfl := List.mem_singleton.mp single
      refine other (sound.caller_unique (b := c) ?_ ?_)
      · rw [enters]
        rfl
      · rw [here]
        rfl
  · have before := sound.sleeping u c sleeps
    refine before.congr (content c) (fun _ => rfl) (waiting u other).2 rfl ?_
    exact (List.getElem?_append_left (List.getElem?_eq_some_iff.mp before.request).1).trans
      before.request
  · change (s.submitted ++ [b])[update s.ticket t s.submitted.length t]? = some b
    rw [update_self, List.getElem?_concat_length]
  · exact Or.inl ⟨after, (needs_congr (content b)).mpr needs⟩
  · have agrees : Agrees s ({ s with
        idequeue := head
        buf := buf
        submitted := s.submitted ++ [b]
        ticket := update s.ticket t s.submitted.length }.goto t (.test b)) q :=
      ⟨rfl, rfl, rfl, rfl, early_update (s := s) (by rw [here]; rfl), fun c _ => content c⟩
    have submitted : s.submitted ++ [b] = s.completed ++ (q ++ [b]) := by
      rw [settled.submitted, List.append_assoc]
    cases q with
    | nil =>
      obtain ⟨busy, quiet⟩ := settled.still rfl
      refine Or.inl ⟨rfl, submitted, ?_, busy, agrees.quiet quiet⟩
      exact settled.started.trans (List.append_nil _)
    | cons first rest =>
      refine Or.inr ⟨?_, submitted, settled.started, nofun, ?_⟩
      · intro same
        exact new (Option.some.inj same ▸ List.mem_cons_self)
      · rintro c ⟨⟩
        exact agrees.working List.mem_cons_self (settled.working first rfl)

omit [DecidableEq B] in
theorem Sound.test_first (here : s.pc t = .test b) (first : s.idequeue = some b) :
    Sound (s.goto t (.start b)) q := by
  obtain ⟨waits, state⟩ := sound.holds_at here rfl
  have agrees : Agrees s (s.goto t (.start b)) q := agrees_goto q (by rw [here]; rfl)
  rw [sound.linked.head?_eq] at first
  rcases state with ⟨single, unstarted⟩ | ⟨other, -⟩
  · refine sound.turn (by rw [here]; rfl) rfl ?_ ?_ ⟨waits.congr rfl (fun _ => rfl) rfl rfl waits.request, single,
      agrees.unstarted rfl rfl rfl unstarted⟩
    · rw [here]
      exact fun _ calls => calls
    · rw [here]
      exact fun _ _ waiting _ => waiting
  · exact absurd first other

omit [DecidableEq B] in
theorem Sound.test_later (here : s.pc t = .test b) (later : s.idequeue ≠ some b) :
    Sound (s.goto t (.wait b)) q := by
  obtain ⟨waits, state⟩ := sound.holds_at here rfl
  have agrees : Agrees s (s.goto t (.wait b)) q := agrees_goto q (by rw [here]; rfl)
  rw [sound.linked.head?_eq] at later
  rcases state with ⟨single, -⟩ | ⟨-, settled⟩
  · rw [single] at later
    exact absurd rfl later
  · refine sound.turn (by rw [here]; rfl) rfl ?_ ?_ ⟨waits.congr rfl (fun _ => rfl) rfl rfl waits.request,
      agrees.settled (fun _ => id) rfl rfl rfl settled⟩
    · rw [here]
      exact fun _ calls => calls
    · rw [here]
      exact fun _ _ waiting _ => waiting

omit [DecidableEq B] in
theorem Sound.started (inside : (s.pc t).inside = true) (stays : new.inside = true)
    (caller : new.caller = (s.pc t).caller) (waits : new.waits = (s.pc t).waits)
    (early : new.early = (s.pc t).early) (unstarted : Unstarted s q) (first : q.head? = some b)
    (inRange : (s.buf b).blockno < FSSIZE)
    (holds : Settled ({ s with
        busy := some (s.buf b).command
        started := s.started ++ [b] }.goto t new) q → Holds ({ s with
        busy := some (s.buf b).command
        started := s.started ++ [b] }.goto t new) q t new) :
    Sound ({ s with
      busy := some (s.buf b).command
      started := s.started ++ [b] }.goto t new) q := by
  have settled : Settled ({ s with
      busy := some (s.buf b).command
      started := s.started ++ [b] }.goto t new) q := by
    obtain ⟨rest, rfl⟩ : ∃ rest, q = b :: rest := List.head?_eq_some_iff.mp first
    refine ⟨unstarted.submitted, ?_, nofun, ?_⟩
    · exact congrArg (· ++ [b]) unstarted.started
    · rintro c ⟨⟩
      refine ⟨inRange, Or.inl ⟨rfl, unstarted.quiet.irq, fun u => ?_⟩⟩
      exact (early_update early u).trans (unstarted.quiet.late u)
  refine sound.step_holder inside rfl (Or.inl ⟨stays, sound.locked inside⟩) ?_ (fun _ => rfl)
    (fun _ => rfl) sound.linked sound.nodup (fun c member => ?_)
    (fun u c _ enters => sound.entering u c enters) (fun u c _ sleeps => ?_) ?_
    fun _ => holds settled
  · rw [caller]
    exact fun _ calls => calls
  · refine (sound.owners c member).congr rfl fun u waiting => ⟨?_, rfl⟩
    by_cases self : u = t
    · subst self
      rw [goto_pc_self, waits]
      exact waiting
    · rw [goto_pc_other _ _ self]
      exact waiting
  · have before := sound.sleeping u c sleeps
    exact before.congr rfl (fun _ => rfl) rfl rfl before.request
  · rw [stays]
    exact nofun

omit [DecidableEq B] in
theorem Sound.start (here : s.pc t = .start b) (inRange : (s.buf b).blockno < FSSIZE) :
    Sound ({ s with
      busy := some (s.buf b).command
      started := s.started ++ [b] }.goto t (.wait b)) q := by
  obtain ⟨waits, single, unstarted⟩ := sound.holds_at here rfl
  refine sound.started (by rw [here]; rfl) rfl (by rw [here]; rfl) (by rw [here]; rfl)
    (by rw [here]; rfl) unstarted (by rw [single]; rfl) inRange fun settled => ⟨?_, settled⟩
  exact waits.congr rfl (fun _ => rfl) rfl rfl waits.request

omit [DecidableEq B] in
theorem Sound.finished (here : s.pc t = .wait b)
    (ready : (s.buf b).valid = true ∧ (s.buf b).dirty = false) : Sound (s.goto t (.exit b)) q := by
  obtain ⟨⟨request, state⟩, settled⟩ := sound.holds_at here rfl
  have agrees : Agrees s (s.goto t (.exit b)) q := agrees_goto q (by rw [here]; rfl)
  rcases state with ⟨-, needs⟩ | ⟨earlier, complete⟩
  · exact absurd ready needs
  · refine sound.turn (by rw [here]; rfl) rfl ?_ ?_ ⟨request, earlier,
      ⟨complete.valid, complete.clean, complete.data⟩, agrees.settled (fun _ => id) rfl rfl rfl settled⟩
    · rw [here]
      exact fun _ calls => calls
    · intro c _ _ later
      omega

omit [DecidableEq B] in
theorem Sound.sleep (here : s.pc t = .wait b) :
    Sound ({ s with
      asleep := update s.asleep t (some b)
      idelock := none }.goto t (.sleep b)) q := by
  obtain ⟨waits, settled⟩ := sound.holds_at here rfl
  have inside : (s.pc t).inside = true := by rw [here]; rfl
  have agrees : Agrees s ({ s with
      asleep := update s.asleep t (some b)
      idelock := none }.goto t (.sleep b)) q :=
    ⟨rfl, rfl, rfl, rfl, early_update (s := s) (by rw [here]; rfl), fun _ _ => rfl⟩
  refine sound.step_holder inside rfl (Or.inr ⟨rfl, rfl⟩) ?_ (fun _ => rfl) (fun _ => rfl)
    sound.linked sound.nodup (fun c member => ?_) (fun u c _ enters => sound.entering u c enters)
    (fun u c _ sleeps => ?_) (fun _ => ⟨nofun, ?_, agrees.settled (fun _ => id) rfl rfl rfl settled⟩)
    nofun
  · rw [here]
    exact fun _ calls => calls
  · refine (sound.owners c member).congr rfl fun u waiting => ⟨?_, rfl⟩
    by_cases self : u = t
    · subst self
      rw [here] at waiting
      rw [goto_pc_self]
      exact waiting
    · rw [goto_pc_other _ _ self]
      exact waiting
  · have before := sound.sleeping u c sleeps
    exact before.congr rfl (fun _ => rfl) rfl rfl before.request
  · rintro c ⟨⟩
    exact waits.congr rfl (fun _ => rfl) rfl rfl waits.request

end Iderw

end Xv6Tracing.Ide
