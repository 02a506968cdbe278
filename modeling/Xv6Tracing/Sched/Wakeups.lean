import Xv6Tracing.Sched.Sleepers

/-!
# No wakeup is lost

What each step of the kernel is to a sleeper, and that in every run no process sleeps
through a wakeup that came after its last test.
-/

set_option autoImplicit false

namespace Xv6Tracing.Sched

open Lib

variable {C K L : Type} [DecidableEq C] [DecidableEq K] [DecidableEq L]

section Stories

variable {procChan : Fin NPROC → K} {chan : K} {lk : Lk L} {s t : World C K L} {c : C}

/-! ## The story of each step -/

structure Pc.Plain (chan : K) (lk : Lk L) (pc : Pc K L) : Prop where
  window : ¬ pc.Window chan lk
  wake : ∀ k ret, pc ≠ .wake k ret
  mark : ∀ k lk' ret, pc ≠ .sleepMark k lk' ret

variable {pc ret old : Pc K L} {lk' : Lk L} {k : K} {q : Fin NPROC} {op : Op K L}

omit [DecidableEq K] [DecidableEq L] in
theorem Pc.Unlocked.plain (unlocked : pc.Unlocked) : pc.Plain chan lk := by
  obtain ⟨outside, free⟩ := unlocked
  cases pc with
  | tested lk' k ret =>
    cases lk' with
    | ptable => cases outside
    | other l => cases free
  | sleepRelease | sleepChan | sleepMark | wake | wakeRelease => cases outside
  | _ => exact ⟨not_false, by simp, by simp⟩

omit [DecidableEq K] [DecidableEq L] in
theorem Pc.Back.plain (back : ret.Back lk') : ret.Plain chan lk := by
  rcases back with ⟨-, rfl⟩ | ⟨r, rfl⟩
  · exact ⟨not_false, by simp, by simp⟩
  · exact ⟨not_false, by simp, by simp⟩

section Quietly

variable {u : World C K L} {old new : Pc K L}

omit [DecidableEq K] [DecidableEq L] in
theorem World.goto_state : (u.goto c new).state = u.state := by
  change (u.toCore.goto c new).state = u.state
  unfold Core.goto
  split <;> rfl

omit [DecidableEq K] [DecidableEq L] in
theorem World.code_goto (here : s.code c = some old) (loc : u.loc = s.loc) :
    (u.goto c new).code c = some new :=
  Sched.code_goto here loc

omit [DecidableEq L] in
theorem story_plain (here : s.code c = some old) (loc : u.loc = s.loc)
    (history : ∃ events, u.history = events ++ s.history ∧ Event.woken chan ∉ events)
    (chans : ∀ p, u.chan p = s.chan p ∨ s.proc c = some p ∧ u.chan p = none)
    (asleep : ∀ p, u.state p = .SLEEPING → s.state p = .SLEEPING) (plain : new.Plain chan lk) :
    Story chan lk s (u.goto c new) c := by
  have code : (u.goto c new).code c = some new := World.code_goto here loc
  refine .quiet ⟨history, chans, fun p => ?_, fun new' code' window => ?_, fun k lk' ret code' => ?_,
    fun ret code' => ?_⟩
  · rw [World.goto_state]
    exact asleep p
  · rw [code] at code'
    cases code'
    exact absurd window plain.window
  · rw [code] at code'
    exact plain.mark k lk' ret (Option.some.inj code')
  · rw [code] at code'
    exact absurd (Option.some.inj code') (plain.wake chan ret)

omit [DecidableEq L] in
theorem story_silent (here : s.code c = some old) (loc : u.loc = s.loc)
    (history : u.history = s.history) (chans : u.chan = s.chan) (state : u.state = s.state)
    (plain : new.Plain chan lk) : Story chan lk s (u.goto c new) c :=
  story_plain here loc ⟨[], history, List.not_mem_nil⟩ (fun p => Or.inl (congrFun chans p))
    (fun p asleep => by rwa [state] at asleep) plain

omit [DecidableEq L] in
theorem story_window (here : s.code c = some old) (loc : u.loc = s.loc)
    (history : ∃ events, u.history = events ++ s.history ∧ Event.woken chan ∉ events)
    (chans : u.chan = s.chan) (asleep : ∀ p, u.state p = .SLEEPING → s.state p = .SLEEPING)
    (window : new.Window chan lk → old.Window chan lk)
    (wake : ∀ ret, new = .wake chan ret → ∃ l r, lk = .other l ∧ ret = .hold (.other l) r)
    (mark : ∀ k lk' ret, new ≠ .sleepMark k lk' ret) : Story chan lk s (u.goto c new) c := by
  have code : (u.goto c new).code c = some new := World.code_goto here loc
  refine .quiet ⟨history, fun p => Or.inl (congrFun chans p), fun p => ?_,
    fun new' code' within => ?_, fun k lk' ret code' => ?_, fun ret code' => ?_⟩
  · rw [World.goto_state]
    exact asleep p
  · rw [code] at code'
    cases code'
    exact ⟨old, here, Or.inl (window within)⟩
  · rw [code] at code'
    exact mark k lk' ret (Option.some.inj code')
  · rw [code] at code'
    exact wake ret (Option.some.inj code')

/-- What `u` has of `s` where only events other than wakeups of `chan` were recorded. -/
structure Alike (chan : K) (s u : World C K L) : Prop where
  loc : u.loc = s.loc
  chans : u.chan = s.chan
  state : u.state = s.state
  history : ∃ events, u.history = events ++ s.history ∧ Event.woken chan ∉ events

omit [DecidableEq C] [DecidableEq K] [DecidableEq L] in
theorem Alike.refl (s : World C K L) : Alike chan s s :=
  ⟨rfl, rfl, rfl, [], rfl, List.not_mem_nil⟩

omit [DecidableEq L] in
theorem story_fresh (here : s.code c = some old) (alike : Alike chan s u)
    (fresh : new.Window chan lk → ∀ p, s.proc c = some p →
      Event.woken chan ∉ since u.history p chan)
    (wake : ∀ k ret, new ≠ .wake k ret) (mark : ∀ k lk' ret, new ≠ .sleepMark k lk' ret) :
    Story chan lk s (u.goto c new) c := by
  have code : (u.goto c new).code c = some new := World.code_goto here alike.loc
  refine .quiet ⟨alike.history, fun p => Or.inl (congrFun alike.chans p), fun p => ?_,
    fun new' code' window => ?_, fun k lk' ret code' => ?_, fun ret code' => ?_⟩
  · rw [World.goto_state, alike.state]
    exact id
  · rw [code] at code'
    cases code'
    exact ⟨old, here, Or.inr (fresh window)⟩
  · rw [code] at code'
    exact mark k lk' ret (Option.some.inj code')
  · rw [code] at code'
    exact absurd (Option.some.inj code') (wake chan ret)

omit [DecidableEq C] [DecidableEq L] in
theorem wakeup1_asleep {k : Option K} {p : Fin NPROC} (asleep : (wakeup1 u k).state p = .SLEEPING) :
    u.state p = .SLEEPING ∧ u.chan p ≠ k := by
  change wokenBy u k p = .SLEEPING at asleep
  unfold wokenBy at asleep
  split at asleep
  · cases asleep
  · rename_i other
    exact ⟨asleep, fun same => other ⟨asleep, same⟩⟩

omit [DecidableEq L] in
theorem story_wakeup {k : Option K} (here : s.code c = some old) (alike : Alike chan s u)
    (inside : old.inside = true)
    (holds : k = some chan → (∀ l, lk = .other l → old.holds = some l) ∧ ¬ old.Window chan lk)
    (window : new.Window chan lk → old.Window chan lk) (wake : ∀ k ret, new ≠ .wake k ret)
    (mark : ∀ k lk' ret, new ≠ .sleepMark k lk' ret) :
    Story chan lk s ((wakeup1 u k).goto c new) c := by
  have asleep : ∀ p, (wakeup1 u k).state p = .SLEEPING → s.state p = .SLEEPING ∧ s.chan p ≠ k := by
    intro p asleep
    have still := wakeup1_asleep asleep
    rwa [alike.state, alike.chans] at still
  by_cases mine : k = some chan
  · obtain ⟨holder, notWindow⟩ := holds mine
    have code : ((wakeup1 u k).goto c new).code c = some new := World.code_goto here alike.loc
    refine .wake old here inside holder notWindow (fun new' code' => ?_) alike.chans
      fun p asleep' => ?_
    · rw [code] at code'
      cases code'
      exact ⟨fun within => notWindow (window within), wake, mark⟩
    · rw [World.goto_state] at asleep'
      exact mine ▸ asleep p asleep'
  · obtain ⟨events, history, noWake⟩ := alike.history
    refine story_window here alike.loc ⟨(k.map Event.woken).toList ++ events, ?_, fun member => ?_⟩
      alike.chans (fun p asleep' => (asleep p asleep').1) window
      (fun ret same => absurd same (wake _ _)) mark
    · rw [List.append_assoc, ← history]
      rfl
    · rcases List.mem_append.mp member with first | later
      · cases k with
        | none => cases first
        | some k =>
          cases List.mem_singleton.mp first
          exact mine rfl
      · exact noWake later

omit [DecidableEq C] [DecidableEq L] in
theorem story_elsewhere (history : t.history = s.history) (chans : t.chan = s.chan)
    (asleep : ∀ p, t.state p = .SLEEPING → s.state p = .SLEEPING)
    (plain : ∀ new, t.code c = some new → new.Plain chan lk) : Story chan lk s t c := by
  refine .quiet ⟨⟨[], history, List.not_mem_nil⟩, fun p => Or.inl (congrFun chans p), asleep,
    fun new code window => ?_, fun k lk' ret code => ?_, fun ret code => ?_⟩
  · exact absurd window (plain new code).window
  · exact (plain _ code).mark k lk' ret rfl
  · exact absurd rfl ((plain _ code).wake chan ret)

end Quietly

omit [DecidableEq L] in
theorem story_sleepStart (here : s.code c = some old) (window : k = chan → old.Window chan lk)
    (success : sleepStart s c k lk' (.hold lk' ret) = some t) : Story chan lk s t c := by
  unfold sleepStart at success
  split at success
  · cases success
  cases lk' with
  | ptable =>
    cases success
    exact story_window here rfl ⟨[], rfl, List.not_mem_nil⟩ rfl (fun _ asleep => asleep) window
      (by simp) (by simp)
  | other l =>
    obtain ⟨-, rfl⟩ := of_take success
    exact story_window here rfl ⟨[], rfl, List.not_mem_nil⟩ rfl (fun _ asleep => asleep) window
      (by simp) (by simp)

omit [DecidableEq L] in
theorem story_tested {new : Pc K L} (here : s.code c = some old)
    (own : s.proc c = some q) (window : new.Window chan lk → k = chan)
    (wake : ∀ k ret, new ≠ .wake k ret) (mark : ∀ k lk' ret, new ≠ .sleepMark k lk' ret) :
    Story chan lk s ((s.record (.tested q k)).goto c new) c := by
  refine story_fresh here ⟨rfl, rfl, rfl, [.tested q k], rfl, by simp⟩ (fun within p mine => ?_) wake
    mark
  rw [own] at mine
  cases mine
  cases window within
  change Event.woken chan ∉ since (.tested q chan :: s.history) q chan
  rw [since_tested]
  exact List.not_mem_nil

omit [DecidableEq L] in
theorem story_test (here : s.code c = some old) :
    Story chan lk s ((match s.proc c with
      | none => s
      | some p => s.record (.tested p k)).goto c
        (if s.cond k then .hold lk' ret else .tested lk' k ret)) c := by
  have points : ∀ (test : Bool) (new : Pc K L),
      new = (if test then .hold lk' ret else .tested lk' k ret) →
      (new.Window chan lk → k = chan) ∧ (∀ k ret, new ≠ .wake k ret) ∧
        ∀ k lk' ret, new ≠ .sleepMark k lk' ret := by
    rintro test new rfl
    cases test
    · exact ⟨fun window => window.2, by simp, by simp⟩
    · exact ⟨fun window => absurd window not_false, by simp, by simp⟩
  obtain ⟨window, wake, mark⟩ := points (s.cond k) _ rfl
  cases own : s.proc c with
  | none =>
    refine story_fresh here (.refl s) (fun _ p mine => ?_) wake mark
    rw [own] at mine
    cases mine
  | some q => exact story_tested here own window wake mark

omit [DecidableEq C] [DecidableEq K] [DecidableEq L] in
/-- A call of `wakeup(chan)` from outside `ptable.lock` is made in the critical section. -/
theorem Disciplined.waker (rule : Disciplined procChan chan lk s (c, .wakeup chan))
    (here : s.code c = some pc) (outside : pc.inside = false) :
    ∃ l ret, lk = .other l ∧ pc = .hold (.other l) ret := by
  simp only [Disciplined, here] at rule
  cases pc with
  | hold lk' ret =>
    cases lk' with
    | ptable => cases outside
    | other l => exact ⟨l, ret, (rule rfl).symm, rfl⟩
  | _ => exact absurd rfl rule

theorem story_section (sleepers : Sleepers chan lk s)
    (here : s.code c = some pc) (rule : Disciplined procChan chan lk s (c, op))
    (success : sectionStep s c pc op = some t) : Story chan lk s t c := by
  have wf := sleepers.consistent.placed.wf_of_code here
  have discipline := rule
  simp only [Disciplined, here] at discipline
  unfold sectionStep at success
  split at success
  · obtain ⟨-, rfl⟩ := of_give success
    exact story_silent here rfl rfl rfl rfl (Pc.Unlocked.plain wf.1)
  · obtain ⟨-, rfl⟩ := of_giveOther success
    exact story_silent here rfl rfl rfl rfl (Pc.Unlocked.plain wf.1)
  · cases success
    exact story_test here
  · cases success
    exact story_silent here rfl rfl rfl rfl ⟨not_false, by simp, by simp⟩
  · rename_i lk' ret k value
    cases success
    exact story_plain here rfl ⟨[.changed k value], rfl, by simp⟩ (fun _ => Or.inl rfl)
      (fun _ asleep => asleep) ⟨not_false, by simp, by simp⟩
  · rename_i lk' k' ret k value
    cases success
    exact story_window here rfl ⟨[.changed k value], rfl, by simp⟩ rfl (fun _ asleep => asleep) id
      (by simp) (by simp)
  · exact story_sleepStart here (fun same => absurd same discipline) success
  · exact story_sleepStart here (fun same => discipline same) success
  · rename_i ret k
    cases success
    refine story_wakeup here (.refl s) rfl (fun same => ⟨fun l other => ?_, not_false⟩) id (by simp) (by simp)
    cases (discipline (Option.some.inj same)).trans other
  · rename_i k' ret k
    cases success
    exact story_wakeup here (.refl s) rfl (fun same => absurd (Option.some.inj same) discipline) id (by simp) (by simp)
  · rename_i k ret
    cases success
    refine story_wakeup here (.refl s) rfl (fun same => ?_) id (by simp) (by simp)
    cases Option.some.inj same
    obtain ⟨l, r, rfl, rfl⟩ := sleepers.waker c ret here
    exact ⟨fun l' other => by cases other; rfl, not_false⟩
  · rename_i ret
    obtain ⟨-, rfl⟩ := of_give success
    refine story_window here rfl ⟨[], rfl, List.not_mem_nil⟩ rfl (fun _ asleep => asleep) id ?_ ?_
    · rintro r rfl
      cases wf.1
    · rintro k lk' r rfl
      cases wf.1
  · split at success
    · rename_i pc k _ _ _ outside
      obtain ⟨-, rfl⟩ := of_take success
      refine story_window here rfl ⟨[], rfl, List.not_mem_nil⟩ rfl (fun _ asleep => asleep) id ?_ (by simp)
      rintro r ⟨rfl, rfl⟩
      exact rule.waker here outside
    · cases success
  · split at success
    · obtain ⟨-, rfl⟩ := of_take success
      exact story_silent here rfl rfl rfl rfl ⟨not_false, by simp, by simp⟩
    · cases success
  · split at success
    · obtain ⟨-, rfl⟩ := of_takeOther success
      exact story_silent here rfl rfl rfl rfl ⟨not_false, by simp, by simp⟩
    · cases success
  · cases success

omit [DecidableEq C] [DecidableEq K] [DecidableEq L] in
theorem asleep_of_update {state : ProcState} (awake : state ≠ .SLEEPING)
    (p : Fin NPROC) (asleep : Function.update s.state q state p = .SLEEPING) :
    s.state p = .SLEEPING := by
  rw [Function.update_apply] at asleep
  split at asleep
  · exact absurd asleep awake
  · exact asleep

omit [DecidableEq L] in
theorem story_swtchOut {resume : Pc K L} (success : swtchOut s c resume = some t) :
    Story chan lk s t c := by
  unfold swtchOut at success
  split at success
  · split at success
    · cases success
      refine story_elsewhere rfl rfl (fun _ => id) fun new code => ?_
      simp only [Core.code, Function.update_self] at code
      cases code
    · cases success
  · cases success

omit [DecidableEq C] [DecidableEq K] [DecidableEq L] in
theorem killLoop_history {pid : Nat} :
    (killLoop s pid).history = s.history ∧ (killLoop s pid).chan = s.chan := by
  unfold killLoop
  split <;> exact ⟨rfl, rfl⟩

theorem story_thread (sleepers : Sleepers chan lk s)
    (here : s.code c = some pc) (own : s.proc c = some q)
    (rule : Disciplined procChan chan lk s (c, .go))
    (success : threadStep procChan s c q pc = some t) : Story chan lk s t c := by
  have wf := sleepers.consistent.placed.wf_of_code here
  simp only [Disciplined, here] at rule
  have silent : ∃ events : List (Event K), s.history = events ++ s.history ∧
      Event.woken chan ∉ events := ⟨[], rfl, List.not_mem_nil⟩
  -- the channels that `exit` wakes up belong to `ptable.lock`
  have exits : ∀ {k : Option K}, (∀ k', k = some k' → ∃ p, procChan p = k') →
      ((∃ p, procChan p = chan) → lk = .ptable) → ∀ {old : Pc K L}, ¬ old.Window chan lk →
      k = some chan → (∀ l, lk = .other l → old.holds = some l) ∧ ¬ old.Window chan lk := by
    intro k procs ptable old window mine
    refine ⟨fun l other => ?_, window⟩
    cases (ptable (procs chan mine)).symm.trans other
  cases pc with
  | yieldMark ret =>
    cases success
    exact story_plain here rfl silent (fun _ => Or.inl rfl) (asleep_of_update (by decide))
      ⟨not_false, by simp, by simp⟩
  | yieldRelease ret =>
    obtain ⟨-, rfl⟩ := of_give success
    exact story_silent here rfl rfl rfl rfl (Pc.Unlocked.plain wf.1)
  | sched resume => exact story_swtchOut success
  | sleepRelease k l ret =>
    obtain ⟨-, rfl⟩ := of_giveOther success
    exact story_window here rfl silent rfl (fun _ asleep => asleep) id (by simp) (by simp)
  | sleepChan k lk' ret =>
    cases success
    exact .prepare q k lk' ret own here (World.code_goto here rfl) rfl World.goto_state rfl
  | sleepMark k lk' ret =>
    cases success
    exact .asleep q k lk' ret own here (World.code_goto here rfl) rfl World.goto_state rfl
  | sleepTidy lk' ret =>
    have chans : ∀ p, Function.update s.chan q none p = s.chan p ∨
        s.proc c = some p ∧ Function.update s.chan q none p = none := by
      intro p
      by_cases self : p = q
      · rw [self, Function.update_self]
        exact Or.inr ⟨own, rfl⟩
      · rw [Function.update_of_ne self]
        exact Or.inl rfl
    cases lk' with
    | ptable =>
      cases success
      exact story_plain here rfl silent chans (fun _ asleep => asleep) (Pc.Back.plain wf.1)
    | other l =>
      cases success
      exact story_plain here rfl silent chans (fun _ asleep => asleep)
        ⟨not_false, by simp, by simp⟩
  | sleepUnlock l ret =>
    obtain ⟨-, rfl⟩ := of_give success
    exact story_silent here rfl rfl rfl rfl ⟨not_false, by simp, by simp⟩
  | sleepLock l ret =>
    obtain ⟨-, rfl⟩ := of_takeOther success
    exact story_silent here rfl rfl rfl rfl (Pc.Back.plain wf.1)
  | killMark pid =>
    cases success
    refine story_plain here (by rw [killLoop_core]) ?_ (fun p => Or.inl ?_) (fun p asleep => ?_)
      ⟨not_false, by simp, by simp⟩
    · rw [killLoop_history.1]
      exact silent
    · rw [killLoop_history.2]
    grind [woken_killLoop]
  | killRelease | waitRelease | forkret =>
    obtain ⟨-, rfl⟩ := of_give success
    exact story_silent here rfl rfl rfl rfl ⟨not_false, by simp, by simp⟩
  | allocMark =>
    cases success
    unfold allocSection
    split
    · exact story_silent here rfl rfl rfl rfl ⟨not_false, by simp, by simp⟩
    · exact story_plain here rfl silent (fun _ => Or.inl rfl) (asleep_of_update (by decide))
        ⟨not_false, by simp, by simp⟩
  | allocRelease np =>
    cases np with
    | none =>
      obtain ⟨-, rfl⟩ := of_give success
      exact story_silent here rfl rfl rfl rfl ⟨not_false, by simp, by simp⟩
    | some np =>
      obtain ⟨-, rfl⟩ := of_give success
      exact story_silent here rfl rfl rfl rfl ⟨not_false, by simp, by simp⟩
  | forkSet np | waitStack z | waitTable z =>
    cases success
    exact story_silent here rfl rfl rfl rfl ⟨not_false, by simp, by simp⟩
  | forkRun np | waitReset z =>
    cases success
    exact story_plain here rfl silent (fun _ => Or.inl rfl) (asleep_of_update (by decide))
      ⟨not_false, by simp, by simp⟩
  | exitWake =>
    cases success
    refine story_wakeup here (.refl s) rfl (exits (fun k named => ?_) rule not_false)
      (fun window => window) (by simp) (by simp)
    obtain ⟨p, -, same⟩ := Option.map_eq_some_iff.mp named
    exact ⟨p, same⟩
  | exitPass =>
    cases success
    unfold passChildren
    dsimp only
    split
    · refine story_wakeup here
        ⟨rfl, rfl, rfl, [.changed (procChan s.initproc) true], rfl, by simp⟩ rfl
        (exits (fun k named => ⟨s.initproc, Option.some.inj named⟩) rule not_false)
        (fun window => window) (by simp) (by simp)
    · exact story_silent here rfl rfl rfl rfl ⟨not_false, by simp, by simp⟩
  | exitMark =>
    unfold threadStep at success
    dsimp only at success
    split at success
    · cases success
      exact story_plain here rfl silent (fun _ => Or.inl rfl) (asleep_of_update (by decide))
        ⟨not_false, by simp, by simp⟩
    · rename_i p _
      cases success
      exact story_plain here rfl ⟨[.changed (procChan p) true], rfl, by simp⟩
        (fun _ => Or.inl rfl) (asleep_of_update (by decide)) ⟨not_false, by simp, by simp⟩
  | waitScan =>
    cases success
    unfold waitLoop
    split
    · exact story_tested here own (fun window => absurd window not_false) (by simp) (by simp)
    · split
      · exact story_tested here own (fun window => absurd window not_false) (by simp) (by simp)
      · exact story_tested here own (fun window => window) (by simp) (by simp)
  | _ => cases success

omit [DecidableEq L] in
theorem story_page {pg : Nat} (here : s.code c = some pc)
    (success : pageStep s c pg pc = some t) : Story chan lk s t c := by
  have silent : ∃ events : List (Event K), s.history = events ++ s.history ∧
      Event.woken chan ∉ events := ⟨[], rfl, List.not_mem_nil⟩
  unfold pageStep at success
  split at success
  · split at success
    · cases success
      exact story_plain here rfl silent (fun _ => Or.inl rfl) (asleep_of_update (by decide))
        ⟨not_false, by simp, by simp⟩
    · split at success
      · cases success
        exact story_silent here rfl rfl rfl rfl ⟨not_false, by simp, by simp⟩
      · cases success
  · split at success
    · cases success
      exact story_plain here rfl silent (fun _ => Or.inl rfl) (asleep_of_update (by decide))
        ⟨not_false, by simp, by simp⟩
    · split at success
      · cases success
        exact story_silent here rfl rfl rfl rfl ⟨not_false, by simp, by simp⟩
      · cases success
  · cases success

theorem story_call (here : s.code c = some pc)
    (success : callStep s c q pc op = some t) : Story chan lk s t c := by
  have enters : ∀ {test : Prop} [Decidable test] {new : Pc K L},
      (if test then (s.take c).map (·.goto c new) else none) = some t → new.Plain chan lk →
      Story chan lk s t c := by
    intro test _ new success plain
    split at success
    · obtain ⟨-, rfl⟩ := of_take success
      exact story_silent here rfl rfl rfl rfl plain
    · cases success
  cases op with
  | yield | kill pid | fork | exit | wait => exact enters success ⟨not_false, by simp, by simp⟩
  | page pg => exact story_page here success
  | _ => cases success

theorem story_code (sleepers : Sleepers chan lk s)
    (here : s.code c = some pc) (rule : Disciplined procChan chan lk s (c, op))
    (success : codeStep procChan s c pc op = some t) : Story chan lk s t c := by
  unfold codeStep at success
  split at success
  · rename_i taken
    cases success
    exact story_section sleepers here rule taken
  · cases success
  · grind [story_thread, story_call]

theorem story_scheduler (sleepers : Sleepers chan lk s) {place : Loc K L} (here : s.loc c = place)
    (success : schedulerStep s c place = some t) : Story chan lk s t c := by
  have quiet : ∀ {u : World C K L} {place : Loc K L}, u.loc = Function.update s.loc c place →
      (∀ p, place ≠ .thread p) → (∀ pc, place ≠ .handler pc) → u.history = s.history →
      u.chan = s.chan → (∀ p, u.state p = .SLEEPING → s.state p = .SLEEPING) →
      Story chan lk s u c := by
    intro u place loc thread handler history chans asleep
    refine story_elsewhere history chans asleep fun new code => ?_
    rw [Core.code, loc, Function.update_self] at code
    cases place with
    | thread p => exact absurd rfl (thread p)
    | handler pc => exact absurd rfl (handler pc)
    | _ => cases code
  cases place with
  | idle =>
    obtain ⟨-, rfl⟩ := of_take success
    exact quiet rfl (by simp) (by simp) rfl rfl fun _ => id
  | scan i =>
    simp only [schedulerStep] at success
    split at success
    · split at success
      · cases success
        exact quiet rfl (by simp) (by simp) rfl rfl fun _ => id
      · cases success
        exact quiet rfl (by simp) (by simp) rfl rfl fun _ => id
    · obtain ⟨-, rfl⟩ := of_give success
      exact quiet rfl (by simp) (by simp) rfl rfl fun _ => id
  | picked p =>
    simp only [schedulerStep] at success
    split at success
    · cases success
    · cases success
      exact quiet rfl (by simp) (by simp) rfl rfl fun _ => id
  | loaded p =>
    cases success
    exact quiet rfl (by simp) (by simp) rfl rfl (asleep_of_update (by decide))
  | marked p =>
    cases success
    obtain ⟨context, resumes⟩ := sleepers.consistent.placed.resumes here
    refine story_elsewhere rfl rfl (fun _ => id) fun new code => ?_
    simp only [Core.code, Function.update_self, context] at code
    cases code
    cases at_ : s.pc p <;> rw [at_] at resumes <;>
      first | exact ⟨not_false, by simp, by simp⟩ | cases resumes
  | back p | kernel p =>
    cases success
    exact quiet rfl (by simp) (by simp) rfl rfl fun _ => id
  | _ => cases success

theorem step_story (sleepers : Sleepers chan lk s) (rule : Disciplined procChan chan lk s (c, op))
    (success : step procChan s (c, op) = some t) : Story chan lk s t c := by
  unfold step at success
  split at success
  · rename_i p here
    exact story_code sleepers (code_of_thread here) rule success
  · cases success
    refine story_elsewhere rfl rfl (fun _ => id) fun new code => ?_
    simp only [Core.code, Function.update_self] at code
    cases code
  · rename_i pc here _
    exact story_code sleepers (by rw [Core.code, here]) rule success
  · cases success
    refine story_elsewhere rfl rfl (fun _ => id) fun new code => ?_
    simp only [Core.code, Function.update_self] at code
    cases code
    exact ⟨not_false, by simp, by simp⟩
  · exact story_scheduler sleepers rfl success
  · cases success

end Stories

/-! ## Runs -/

omit [DecidableEq C] in
theorem Booted.sleepers {s : World C K L} (booted : Booted s) (chan : K) (lk : Lk L) :
    Sleepers chan lk s := by
  have loc := fun c => (booted.idle c).1
  have bare : ∀ c, s.code c = none := by
    intro c
    rw [Core.code, loc]
  have awake : ∀ p, s.state p ≠ .SLEEPING := by grind [Booted]
  refine ⟨booted.consistent, fun l c => ?_, fun c p at_ => ?_, fun p asleep => ?_,
    fun c p k lk' ret at_ => ?_, fun c ret code => ?_⟩
  · rw [booted.locks, Core.holding, bare]
    exact iff_of_false (by simp) (by simp)
  · rw [loc] at at_
    cases at_
  · exact absurd asleep (awake p)
  · rw [loc] at at_
    cases at_
  · rw [bare] at code
    cases code

/-- In every run in which the users of `chan` keep to its lock, no wakeup is lost. -/
theorem no_wakeup_is_lost (procChan : Fin NPROC → K) (chan : K) (lk : Lk L) (s : World C K L)
    (booted : Booted s) (moves : List (C × Op K L))
    (disciplined : Along (step procChan) (Disciplined procChan chan lk) s moves) :
    Throughout (step procChan) (NoLostWakeup chan lk) s moves := by
  refine throughout_of_along ?_ (fun _ sleepers _ _ p asleep on lost => ?_) moves s
    (booted.sleepers chan lk) disciplined
  · rintro s ⟨c, op⟩ t sleepers rule taken
    exact sleepers.step (step_move procChan taken) (step_story sleepers rule taken)
  · exact sleepers.asleep p asleep on lost.2

instance (procChan : Fin NPROC → K) (chan : K) (lk : Lk L) (s : World C K L)
    (move : C × Op K L) : Decidable (Disciplined procChan chan lk s move) := by
  unfold Disciplined
  split <;> infer_instance

/-- The first process finds the condition of channel 99 false and sleeps; an interrupt on
the other CPU makes it true and wakes it up. -/
def sleepWakeup : List (Bool × Op Nat Unit) :=
  List.replicate 6 (false, .go) ++
    [(false, .acquire (.other ())), (false, .test 99), (false, .sleep 99), (true, .enter)] ++
    List.replicate 70 (false, .go) ++
    [(true, .acquire (.other ())), (true, .change 99 true), (true, .wakeup 99), (true, .go),
      (true, .go), (true, .release)]

theorem no_wakeup_is_lost_of_interrupt :
    Along (step fun p => p.val) (Disciplined (fun p => p.val) 99 (.other ())) twoCpus sleepWakeup ∧
      Throughout (step fun p => p.val) (NoLostWakeup 99 (.other ())) twoCpus sleepWakeup ∧
      (run (step fun p => p.val) twoCpus sleepWakeup).map
        (fun t => (t.lk, t.locks (), t.state 0, t.history)) =
          some (none, none, .RUNNABLE, [.woken 99, .changed 99 true, .tested 0 99]) := by
  have disciplined : Along (step fun p => p.val) (Disciplined (fun p => p.val) 99 (.other ()))
      twoCpus sleepWakeup := by decide +kernel
  exact ⟨disciplined, no_wakeup_is_lost _ 99 (.other ()) twoCpus twoCpus_booted _ disciplined,
    by decide +kernel⟩

end Xv6Tracing.Sched
