import Xv6Tracing.Ide.Steps

/-!
# Steps of ideintr

The handler takes the first request off the queue, completes it and starts the next one.
The process that waits for the request sleeps meanwhile.
-/

set_option autoImplicit false

namespace Xv6Tracing.Ide

open Lib

variable {T B D : Type} {s s' : World T B D} {q : List B} {b c : B} {t u : T} {new : Pc B}

/-! ## ideintr -/

section Ideintr

variable [DecidableEq T] [DecidableEq B] (sound : Sound s q)
include sound

omit [DecidableEq B] in
theorem Sound.take (here : s.pc t = .take) (first : s.idequeue = some b) :
    ∃ rest, Sound ({ s with idequeue := s.qnext b }.goto t (.read b)) rest := by
  have settled : Settled s q := sound.holds_at here rfl
  have inside : (s.pc t).inside = true := by rw [here]; rfl
  have early : (s.pc t).early = true := by rw [here]; rfl
  rw [sound.linked.head?_eq] at first
  obtain ⟨rest, rfl⟩ : ∃ rest, q = b :: rest := List.head?_eq_some_iff.mp first
  obtain ⟨apart, nodup⟩ := List.nodup_cons.mp sound.nodup
  have owner : ∀ c, Owner s c → Owner ({ s with idequeue := s.qnext b }.goto t (.read b)) c := by
    intro c owner
    refine owner.congr rfl fun u waiting => ⟨?_, rfl⟩
    have other : u ≠ t := by
      rintro rfl
      rw [here] at waiting
      cases waiting
    rw [goto_pc_other _ _ other]
    exact waiting
  refine ⟨rest, sound.step_holder inside rfl (Or.inl ⟨rfl, sound.locked inside⟩) nofun (fun _ => rfl)
    (fun _ => rfl) sound.linked.2 nodup (fun c member => ?_) (fun u c _ enters => ?_)
    (fun u c _ sleeps => ?_) nofun fun _ => ?_⟩
  · exact owner c (sound.owners c (List.mem_cons_of_mem b member))
  · obtain ⟨outside, needs⟩ := sound.entering u c enters
    exact ⟨fun member => outside (List.mem_cons_of_mem b member), needs⟩
  · have before := sound.sleeping u c sleeps
    exact before.congr rfl (fun _ => rfl) rfl rfl before.request
  · obtain ⟨inRange, ⟨-, quiet⟩ | ⟨busy, due, transferred⟩⟩ := settled.working b rfl
    · rw [quiet.late t] at early
      cases early
    · rcases due with ⟨-, late⟩ | ⟨irq, u, -, unique⟩
      · rw [late t] at early
        cases early
      · refine ⟨⟨settled.submitted, settled.started, busy, ⟨irq, fun v => ?_⟩, apart,
          owner b (sound.owners b List.mem_cons_self)⟩, transferred⟩
        by_cases self : v = t
        · subst self
          rw [goto_pc_self]
          rfl
        · grind [goto_pc_other]

omit [DecidableEq B] [DecidableEq T] in
theorem Sound.not_spurious (here : s.pc t = .take) : s.idequeue ≠ none := by
  have settled : Settled s q := sound.holds_at here rfl
  intro empty
  rw [sound.linked.head?_eq, List.head?_eq_none_iff] at empty
  have late := (settled.still empty).2.late t
  rw [here] at late
  cases late

omit [DecidableEq B] [DecidableEq T] in
/-- While a handler has the lock, those that wait for requests sleep. -/
theorem Sound.waiting_sleeps (inside : (s.pc t).inside = true) (handler : (s.pc t).caller = none)
    (waiting : (s.pc u).waits = some b) : s.pc u = .sleep b := by
  have other : u ≠ t := by
    rintro rfl
    rw [Pc.caller_of_waits waiting] at handler
    cases handler
  have outside := sound.excl.outside other inside
  cases pc : s.pc u with
  | sleep c =>
    rw [pc] at waiting
    cases waiting
    rfl
  | test c | start c | wait c =>
    rw [pc] at outside
    cases outside
  | _ =>
    rw [pc] at waiting
    cases waiting

omit [DecidableEq B] [DecidableEq T] in
/-- A buffer in hand was not passed to a call that waits for `idelock`. -/
theorem Sound.hand_entering (inHand : InHand s q b) (enters : s.pc u = .enter c) : c ≠ b := by
  rintro rfl
  obtain ⟨w, waiting, -⟩ := inHand.owner
  have same : u = w := sound.caller_unique (b := c) (by rw [enters]; rfl) (Pc.caller_of_waits waiting)
  subst same
  rw [enters] at waiting
  cases waiting

omit [DecidableEq B] [DecidableEq T] in
theorem Sound.hand_owner (inHand : InHand s q b) (sleeps : s.pc u = .sleep b) :
    s.completed.length ≤ s.ticket u := by
  obtain ⟨w, waiting, later⟩ := inHand.owner
  have same : u = w := sound.caller_unique (b := b) (by rw [sleeps]; rfl) (Pc.caller_of_waits waiting)
  rwa [same]

omit [DecidableEq B] [DecidableEq T] sound in
theorem InHand.position {k : Nat} (inHand : InHand s q b) (request : s.submitted[k]? = some c)
    (later : s.completed.length ≤ k) :
    c = b ∧ k = s.completed.length ∨ c ≠ b ∧ s.completed.length + 1 ≤ k := by
  rw [inHand.submitted, List.getElem?_append_right later] at request
  cases place : k - s.completed.length with
  | zero =>
    rw [place] at request
    exact Or.inl ⟨(Option.some.inj request).symm, by omega⟩
  | succ j => grind [InHand]

theorem Sound.insl (here : s.pc t = .read b) (clean : (s.buf b).dirty = false) :
    Sound ((s.setBuf b { s.buf b with data := s.register }).goto t (.mark b)) q := by
  obtain ⟨inHand, transferred⟩ := sound.holds_at here rfl
  have inside : (s.pc t).inside = true := by rw [here]; rfl
  have handler : (s.pc t).caller = none := by rw [here]; rfl
  have links : ∀ c, ((s.setBuf b { s.buf b with data := s.register }).buf c).qnext =
      (s.buf c).qnext := setBuf_same Buf.qnext rfl
  have owner : ∀ c, Owner s c →
      Owner ((s.setBuf b { s.buf b with data := s.register }).goto t (.mark b)) c := by
    intro c owner
    refine owner.congr rfl fun u waiting => ⟨?_, rfl⟩
    have other : u ≠ t := by
      rintro rfl
      rw [here] at waiting
      cases waiting
    rw [goto_pc_other _ _ other]
    exact waiting
  refine sound.step_holder inside rfl (Or.inl ⟨rfl, sound.locked inside⟩) nofun
    (setBuf_same Buf.lock rfl) (setBuf_same Buf.sector rfl)
    (sound.linked.congr fun c _ => links c) sound.nodup
    (fun c member => owner c (sound.owners c member)) (fun u c _ enters => ?_)
    (fun u c _ sleeps => ?_) nofun fun _ => ⟨?_, ?_⟩
  · obtain ⟨outside, needs⟩ := sound.entering u c enters
    refine ⟨outside, (needs_congr ?_).mpr needs⟩
    exact congrArg Buf.content (setBuf_other (sound.hand_entering inHand enters))
  · have before := sound.sleeping u c sleeps
    by_cases self : c = b
    · subst self
      have later := sound.hand_owner inHand sleeps
      refine ⟨before.request, Or.inl ⟨later, ?_⟩⟩
      rcases before.state with ⟨-, needs⟩ | ⟨earlier, -⟩
      · intro ready
        have valid := ready.1
        change ((s.setBuf c _).buf c).valid = true at valid
        rw [setBuf_self] at valid
        exact needs ⟨valid, clean⟩
      · omega
    · exact before.congr (congrArg Buf.content (setBuf_other self)) (fun _ => rfl) rfl rfl
        before.request
  · refine ⟨inHand.submitted, inHand.started, inHand.busy, ⟨inHand.quiet.irq, fun u => ?_⟩,
      inHand.apart, owner b inHand.owner⟩
    exact (early_update (s := s) (by rw [here]; rfl) u).trans (inHand.quiet.late u)
  · rw [Transferred, clean] at transferred
    change ((s.setBuf b _).buf b).data = s.disk ((s.setBuf b _).buf b).sector
    rw [setBuf_self]
    exact transferred

omit [DecidableEq B] in
theorem Sound.skip (here : s.pc t = .read b) (dirty : (s.buf b).dirty = true) :
    Sound (s.goto t (.mark b)) q := by
  obtain ⟨inHand, transferred⟩ := sound.holds_at here rfl
  have agrees : Agrees s (s.goto t (.mark b)) q := agrees_goto q (by rw [here]; rfl)
  have elsewhere : ∀ u c, (s.pc u).waits = some c → ((s.goto t (.mark b)).pc u).waits = some c := by
    intro u c waiting
    have other : u ≠ t := by
      rintro rfl
      rw [here] at waiting
      cases waiting
    rw [goto_pc_other _ _ other]
    exact waiting
  refine sound.turn (by rw [here]; rfl) rfl nofun ?_ ⟨agrees.inHand rfl rfl rfl inHand ?_, ?_⟩
  · rw [here]
    exact nofun
  · exact inHand.owner.congr rfl fun u waiting => ⟨elsewhere u b waiting, rfl⟩
  · rw [Transferred, dirty] at transferred
    exact transferred.symm

theorem Sound.mark (here : s.pc t = .mark b) :
    Sound ({ s.setBuf b { s.buf b with valid := true, dirty := false } with
      completed := s.completed ++ [b] }.goto t (.wake b)) q := by
  obtain ⟨inHand, data⟩ := sound.holds_at here rfl
  have inside : (s.pc t).inside = true := by rw [here]; rfl
  have handler : (s.pc t).caller = none := by rw [here]; rfl
  have links : ∀ c, ((s.setBuf b { s.buf b with valid := true, dirty := false }).buf c).qnext =
      (s.buf c).qnext := setBuf_same Buf.qnext rfl
  have longer : (s.completed ++ [b]).length = s.completed.length + 1 := by
    rw [List.length_append, List.length_singleton]
  refine sound.step_holder inside rfl (Or.inl ⟨rfl, sound.locked inside⟩) nofun
    (setBuf_same Buf.lock rfl) (setBuf_same Buf.sector rfl)
    (sound.linked.congr fun c _ => links c) sound.nodup (fun c member => ?_)
    (fun u c _ enters => ?_) (fun u c _ sleeps => ?_) nofun fun _ => ?_
  · obtain ⟨u, waiting, later⟩ := sound.owners c member
    have sleeps := sound.waiting_sleeps inside handler waiting
    have other : u ≠ t := by
      rintro rfl
      rw [here] at sleeps
      cases sleeps
    refine ⟨u, by rw [goto_pc_other _ _ other]; exact waiting, ?_⟩
    change (s.completed ++ [b]).length ≤ s.ticket u
    rcases inHand.position (sound.sleeping u c sleeps).request later with ⟨rfl, -⟩ | ⟨-, behind⟩
    · exact absurd member inHand.apart
    · omega
  · obtain ⟨outside, needs⟩ := sound.entering u c enters
    refine ⟨outside, (needs_congr ?_).mpr needs⟩
    exact congrArg Buf.content (setBuf_other (sound.hand_entering inHand enters))
  · obtain ⟨request, state⟩ := sound.sleeping u c sleeps
    refine ⟨request, ?_⟩
    change (s.completed ++ [b]).length ≤ s.ticket u ∧ _ ∨ s.ticket u < (s.completed ++ [b]).length ∧ _
    by_cases self : c = b
    · subst self
      have later := sound.hand_owner inHand sleeps
      rcases inHand.position request later with ⟨-, first⟩ | ⟨other, -⟩
      · refine Or.inr ⟨by omega, ?_, ?_, ?_⟩
        · exact congrArg Buf.valid setBuf_self
        · exact congrArg Buf.dirty setBuf_self
        · change ((s.setBuf c _).buf c).data = s.disk ((s.setBuf c _).buf c).sector
          rw [setBuf_self]
          exact data
      · exact absurd rfl other
    · have content : ((s.setBuf b { s.buf b with valid := true, dirty := false }).buf c).content =
          (s.buf c).content := congrArg Buf.content (setBuf_other self)
      rcases state with ⟨later, needs⟩ | ⟨earlier, complete⟩
      · rcases inHand.position request later with ⟨same, -⟩ | ⟨-, behind⟩
        · exact absurd same self
        · exact Or.inl ⟨by omega, (needs_congr content).mpr needs⟩
      · exact Or.inr ⟨by omega, complete.congr content rfl⟩
  · refine ⟨?_, inHand.started, inHand.busy, inHand.quiet.irq, fun u => ?_⟩
    · exact inHand.submitted.trans (List.append_cons _ _ _)
    · exact (early_update (s := s) (by rw [here]; rfl) u).trans (inHand.quiet.late u)

theorem Sound.wake (here : s.pc t = .wake b) : Sound ((wakeup s b).goto t .next) q := by
  have unstarted : Unstarted s q := sound.holds_at here rfl
  have inside : (s.pc t).inside = true := by rw [here]; rfl
  have agrees : Agrees s ((wakeup s b).goto t .next) q :=
    ⟨rfl, rfl, rfl, rfl, early_update (s := s) (by rw [here]; rfl), fun _ _ => rfl⟩
  refine sound.step_holder inside rfl (Or.inl ⟨rfl, sound.locked inside⟩) nofun (fun _ => rfl)
    (fun _ => rfl) sound.linked sound.nodup (fun c member => ?_)
    (fun u c _ enters => sound.entering u c enters) (fun u c _ sleeps => ?_) nofun
    fun _ => agrees.unstarted rfl rfl rfl unstarted
  · refine (sound.owners c member).congr rfl fun u waiting => ⟨?_, rfl⟩
    have other : u ≠ t := by
      rintro rfl
      rw [here] at waiting
      cases waiting
    rw [goto_pc_other _ _ other]
    exact waiting
  · have before := sound.sleeping u c sleeps
    exact before.congr rfl (fun _ => rfl) rfl rfl before.request

omit [DecidableEq B] in
theorem Sound.next_none (here : s.pc t = .next) (empty : s.idequeue = none) :
    Sound (s.goto t .leave) q := by
  have unstarted : Unstarted s q := sound.holds_at here rfl
  have agrees : Agrees s (s.goto t .leave) q := agrees_goto q (by rw [here]; rfl)
  rw [sound.linked.head?_eq, List.head?_eq_none_iff] at empty
  subst empty
  refine sound.turn (by rw [here]; rfl) rfl nofun nofun ⟨unstarted.submitted, ?_, ?_, nofun⟩
  · exact unstarted.started.trans (List.append_nil _).symm
  · exact fun _ => ⟨unstarted.busy, agrees.quiet unstarted.quiet⟩

omit [DecidableEq B] in
theorem Sound.next_some (here : s.pc t = .next) (first : s.idequeue = some b) :
    Sound (s.goto t (.restart b)) q := by
  have unstarted : Unstarted s q := sound.holds_at here rfl
  have agrees : Agrees s (s.goto t (.restart b)) q := agrees_goto q (by rw [here]; rfl)
  refine sound.turn (by rw [here]; rfl) rfl nofun ?_
    ⟨agrees.unstarted rfl rfl rfl unstarted, sound.linked.head?_eq.symm.trans first⟩
  rw [here]
  exact nofun

omit [DecidableEq B] in
theorem Sound.restart (here : s.pc t = .restart b) (inRange : (s.buf b).blockno < FSSIZE) :
    Sound ({ s with
      busy := some (s.buf b).command
      started := s.started ++ [b] }.goto t .leave) q := by
  obtain ⟨unstarted, first⟩ := sound.holds_at here rfl
  exact sound.started (by rw [here]; rfl) rfl (by rw [here]; rfl) (by rw [here]; rfl)
    (by rw [here]; rfl) unstarted first inRange id

end Ideintr

/-! ## Any context -/

section Advance

variable [DecidableEq T] [DecidableEq B]

omit [DecidableEq B] in
theorem Sound.lockIde (sound : Sound s q) (taken : lockIde s t new = some s')
    (outside : (s.pc t).inside = false) (enters : new.inside = true)
    (caller : new.caller = (s.pc t).caller) (early : new.early = (s.pc t).early)
    (waits : ∀ b, (s.pc t).waits = some b → new.waits = some b)
    (holds : Settled ({ s with idelock := some t }.goto t new) q →
      Holds ({ s with idelock := some t }.goto t new) q t new) : Sound s' q := by
  unfold Ide.lockIde at taken
  split at taken
  · cases taken
    exact sound.acquire outside ‹_› enters caller early waits holds
  · cases taken

omit [DecidableEq B] in
theorem sound_idestart (taken : idestart s t b new = some s')
    (started : (s.buf b).blockno < FSSIZE → Sound ({ s with
      busy := some (s.buf b).command
      started := s.started ++ [b] }.goto t new) q)
    (panics : ∀ why, Sound (s.panic why) q) : Sound s' q := by
  unfold idestart at taken
  split at taken
  · cases taken
    exact panics _
  · split at taken
    · cases taken
    · cases taken
      exact started (BitVec.not_le.mp ‹_›)

theorem Sound.advance (sound : Sound s q) (panics : ∀ why, Sound (s.panic why) q)
    (taken : advance s t = some s') : ∃ q', Sound s' q' := by
  unfold Ide.advance at taken
  split at taken
  case h_1 => cases taken
  case h_2 b here =>
    obtain ⟨new, needs⟩ := sound.entering t b here
    refine ⟨q, sound.lockIde taken (by rw [here]; rfl) rfl (by rw [here]; rfl) (by rw [here]; rfl) ?_
      fun settled => ⟨new, needs, settled⟩⟩
    rw [here]
    exact nofun
  case h_3 b here =>
    cases taken
    exact ⟨q, sound.clear here⟩
  case h_4 b pp here =>
    split at taken
    · cases taken
      exact ⟨q, sound.walk here ‹_›⟩
    · cases taken
      exact ⟨q ++ [b], sound.submit here ‹_›⟩
  case h_5 b here =>
    split at taken
    · cases taken
      exact ⟨q, sound.test_first here ‹_›⟩
    · cases taken
      exact ⟨q, sound.test_later here ‹_›⟩
  case h_6 b here => exact ⟨q, sound_idestart taken (sound.start here) panics⟩
  case h_7 b here =>
    split at taken
    · cases taken
      exact ⟨q, sound.finished here ‹_›⟩
    · cases taken
      exact ⟨q, sound.sleep here⟩
  case h_8 b here =>
    split at taken
    · have waits := sound.sleeping t b here
      refine ⟨q, sound.lockIde taken (by rw [here]; rfl) rfl (by rw [here]; rfl) (by rw [here]; rfl) ?_
        fun settled => ⟨waits.congr rfl (fun _ => rfl) rfl rfl waits.request, settled⟩⟩
      rw [here]
      exact fun _ waiting => waiting
    · cases taken
  case h_9 b here =>
    cases taken
    obtain ⟨-, -, -, settled⟩ := sound.holds_at here rfl
    refine ⟨q, sound.release (by rw [here]; rfl) (by rw [here]; rfl) settled ?_⟩
    rw [here]
    exact nofun
  case h_10 here =>
    refine ⟨q, sound.lockIde taken (by rw [here]; rfl) rfl (by rw [here]; rfl) (by rw [here]; rfl) ?_
      id⟩
    rw [here]
    exact nofun
  case h_11 here =>
    split at taken
    · exact absurd ‹_› (sound.not_spurious here)
    · cases taken
      exact sound.take here ‹_›
  case h_12 b here =>
    split at taken
    · cases taken
      exact ⟨q, sound.skip here ‹_›⟩
    · split at taken
      · cases taken
      · cases taken
        exact ⟨q, sound.insl here (Bool.eq_false_of_not_eq_true ‹_›)⟩
  case h_13 b here =>
    cases taken
    exact ⟨q, sound.mark here⟩
  case h_14 b here =>
    cases taken
    exact ⟨q, sound.wake here⟩
  case h_15 here =>
    split at taken
    · cases taken
      exact ⟨q, sound.next_none here ‹_›⟩
    · cases taken
      exact ⟨q, sound.next_some here ‹_›⟩
  case h_16 b here => exact ⟨q, sound_idestart taken (sound.restart here) panics⟩
  case h_17 here =>
    cases taken
    have settled : Settled s q := sound.holds_at here rfl
    refine ⟨q, sound.release (by rw [here]; rfl) (by rw [here]; rfl) settled ?_⟩
    rw [here]
    exact nofun

end Advance

end Xv6Tracing.Ide
