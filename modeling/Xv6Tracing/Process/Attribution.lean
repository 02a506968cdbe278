import Xv6Tracing.Ktrace.World
import Xv6Tracing.Process.Tracepoints

/-!
# Which process an event is attributed to

Every producer but one passes the pid of the process it runs in, and
`traceevent` takes `comm` from that same process.  `fork` passes the pid of the
child it made.  The dashboard's filter `want_event` looks at the pid alone.
-/

set_option autoImplicit false

namespace Xv6Tracing.Process

open Ktrace Vm Lib

def want_event (event : TraceEvent) (type_filter pid_filter self_pid : CInt) : Bool :=
  if event.pid = self_pid then false
  else if type_filter ≠ 0 ∧ event.type ≠ type_filter then false
  else if pid_filter ≠ -1 ∧ event.pid ≠ pid_filter then false
  else true

/-- The event carries the pid and the name of the process that caused it, or
pid 0 when no process was current. -/
structure AttributedTo (event : TraceEvent) (cause : Option Proc) : Prop where
  pid : event.pid = pidOf cause
  comm : ∀ p, cause = some p → event.comm.text = p.name.text

/-- Filtering by a pid other than the dashboard's own selects the events that
pid caused.  A filter of -1 means no filter. -/
def FilterExact (event : TraceEvent) (cause : Option Proc) : Prop :=
  ∀ pid_filter self_pid : CInt, pid_filter ≠ self_pid → pid_filter ≠ -1 →
    (want_event event 0 pid_filter self_pid = true ↔ pidOf cause = pid_filter)

def Attributed (k : Kernel) : Prop :=
  ∀ i cause, k.cause i = some cause →
    AttributedTo (k.buf.events i) cause ∧ FilterExact (k.buf.events i) cause

theorem filterExact_of_pid {event : TraceEvent} {cause : Option Proc}
    (same : event.pid = pidOf cause) : FilterExact event cause := by
  intro pid_filter self_pid other named
  simp only [want_event, same, ne_eq, not_true_eq_false, false_and, if_false, named,
    not_false_eq_true, true_and]
  by_cases hit : pidOf cause = pid_filter
  · simp [hit, other]
  · simp [hit]

/-! ## The state records -/

section Frame

variable (k : Kernel) (i j : Fin NPROC) (p : Proc) (ctx : Ctx) (type pid arg0 arg1 arg2 : CInt)
  (name : String)

@[simp] theorem setProc_buf : (k.setProc i p).buf = k.buf := rfl
@[simp] theorem setProc_proc_self : (k.setProc i p).proc i = p := by simp [Kernel.setProc]

theorem setProc_proc_of_ne (other : j ≠ i) : (k.setProc i p).proc j = k.proc j := by
  simp [Kernel.setProc, other]

@[simp] theorem record_proc : (k.record ctx type pid arg0 arg1 arg2 name).proc = k.proc := rfl

theorem traceevent_enabled (buf : TraceBuffer) (call : EventCall) :
    (traceevent buf call).enabled = buf.enabled := by
  unfold traceevent
  split <;> simp

theorem traceevent_events (buf : TraceBuffer) (call : EventCall) (enabled : buf.enabled = true) :
    (traceevent buf call).events =
      Function.update buf.events (slot buf.seq) (newEvent buf call) := by
  simp [traceevent, enabled]

end Frame

/-! ## The invariant -/

def Live (p : Proc) : Prop := p.state ≠ .UNUSED ∧ p.state ≠ .EMBRYO

structure Sound (k : Kernel) : Prop where
  enabled : k.buf.enabled = true
  positive : ∀ i, Live (k.proc i) → 0 < (k.proc i).pid.toInt
  attributed : Attributed k

def LiveCtx (k : Kernel) (ctx : Ctx) : Prop := ∀ i, ctx = some i → Live (k.proc i)

variable {p : Proc} {ctx : Ctx} {k t k' : Kernel} {i np : Fin NPROC} {ret : CInt}
    {copying closing : List PageCall}

theorem live_of_running (running : p.state = .RUNNING) : Live p := by
  simp [Live, running]

theorem liveCtx_of_runs (runs : k.Runs ctx) : LiveCtx k ctx := by
  rintro i rfl
  exact live_of_running runs

theorem liveCtx_some (live : Live (k.proc i)) :
    LiveCtx k (some i) := by
  intro j current
  cases Option.some.inj current
  exact live

theorem commOf_current (sound : Sound k) (live : LiveCtx k ctx)
    (p : Proc) (current : k.current ctx = some p) :
    (commOf (k.current ctx)).text = p.name.text := by
  obtain ⟨i, rfl, rfl⟩ := Option.map_eq_some_iff.mp current
  have positive := sound.positive i (live i rfl)
  simp only [Kernel.current, Option.map_some, commOf, positive, if_true]
  exact CharBuf.text_copy_buf 15 (k.proc i).name

theorem Sound.record (sound : Sound k) (live : LiveCtx k ctx)
    {type pid arg0 arg1 arg2 : CInt} {name : String} (own : pid = pidOf (k.current ctx)) :
    Sound (k.record ctx type pid arg0 arg1 arg2 name) where
  enabled := (traceevent_enabled _ _).trans sound.enabled
  positive := sound.positive
  attributed := by
    intro i cause caused
    simp only [Kernel.record, sound.enabled, if_true] at caused ⊢
    rw [traceevent_events _ _ sound.enabled]
    by_cases new : i = slot k.buf.seq
    · subst new
      rw [Function.update_self] at caused ⊢
      cases Option.some.inj caused
      have samePid : (newEvent k.buf
          ⟨k.ticks, k.current ctx, type, pid, arg0, arg1, arg2, some (cstr name)⟩).pid =
          pidOf (k.current ctx) := own
      exact ⟨⟨samePid, commOf_current sound live⟩, filterExact_of_pid samePid⟩
    · rw [Function.update_of_ne new] at caused ⊢
      exact sound.attributed i cause caused

theorem Sound.setProc (sound : Sound k)
    (positive : Live p → 0 < p.pid.toInt) : Sound (k.setProc i p) where
  enabled := sound.enabled
  attributed := sound.attributed
  positive := by grind [setProc_proc_self, setProc_proc_of_ne, Sound]

theorem Sound.setProc_same (sound : Sound k)
    (samePid : p.pid = (k.proc i).pid) (started : Live p → Live (k.proc i)) :
    Sound (k.setProc i p) := by
  apply sound.setProc
  intro live
  rw [samePid]
  exact sound.positive i (started live)

/-! ## What each function keeps -/

/-- The effect of the allocator on all but the free list: events of its own
context and nothing else. -/
structure PageEffect (k t : Kernel) (ctx : Ctx) : Prop where
  proc : t.proc = k.proc
  sound : Sound k → LiveCtx k ctx → Sound t

theorem Sound.of_kmem (sound : Sound k) (kmem : Kmem) :
    Sound { k with kmem := kmem } :=
  ⟨sound.enabled, sound.positive, sound.attributed⟩

theorem kfree_effect {v : AddrT} (run : kfree k ctx v = some t) :
    PageEffect k t ctx := by
  simp only [kfree] at run
  split at run
  · simp at run
  · split at run
    · cases Option.some.inj run
      refine ⟨rfl, fun sound live => ?_⟩
      apply Sound.record
      · exact sound.of_kmem _
      · exact live
      · rfl
    · cases Option.some.inj run
      exact ⟨rfl, fun sound _ => sound.of_kmem _⟩

theorem kalloc_effect {r : AddrT} (run : kalloc k ctx = some (r, t)) : PageEffect k t ctx := by
  simp only [kalloc] at run
  split at run
  · simp at run
  · split at run
    · cases Option.some.inj run
      refine ⟨rfl, fun sound live => ?_⟩
      apply Sound.record
      · exact sound.of_kmem _
      · exact live
      · rfl
    · cases Option.some.inj run
      exact ⟨rfl, fun sound _ => sound.of_kmem _⟩

theorem pageCall_effect {call : PageCall}
    (run : pageCall k ctx call = some t) : PageEffect k t ctx := by
  cases call with
  | kalloc =>
    obtain ⟨⟨r, t'⟩, alloc, rfl⟩ := Option.map_eq_some_iff.mp run
    exact kalloc_effect alloc
  | kfree v => exact kfree_effect run

theorem pageCalls_effect {calls : List PageCall}
    (run : pageCalls ctx calls k = some t) : PageEffect k t ctx := by
  induction calls generalizing k with
  | nil =>
    cases Option.some.inj run
    exact ⟨rfl, fun sound _ => sound⟩
  | cons call calls ih =>
    obtain ⟨k', first, rest⟩ := Option.bind_eq_some_iff.mp run
    have head := pageCall_effect first
    have tail := ih rest
    refine ⟨tail.proc.trans head.proc, fun sound live => ?_⟩
    apply tail.sound (head.sound sound live)
    intro i current
    rw [head.proc]
    exact live i current

theorem firstUnused_spec (found : firstUnused k = some np) :
    (k.proc np).state = .UNUSED := by
  have := List.find?_some found
  simpa using this

/-- `allocproc` with a process found: the slot `np` and its pid are new, every
other process is as before. -/
structure Allocated (k t : Kernel) (np : Fin NPROC) : Prop where
  unused : (k.proc np).state = .UNUSED
  pid : (t.proc np).pid = k.nextpid
  embryo : (t.proc np).state = .EMBRYO
  others : ∀ i, i ≠ np → t.proc i = k.proc i

theorem allocproc_found (run : allocproc k ctx = some (some np, t)) : Allocated k t np := by
  simp only [allocproc] at run
  split at run
  · simp at run
  · rename_i found
    obtain ⟨⟨kstack, k'⟩, alloc, rest⟩ := Option.bind_eq_some_iff.mp run
    have procs := (kalloc_effect alloc).proc
    split at rest
    · simp at rest
    · cases Option.some.inj rest
      refine ⟨firstUnused_spec found, ?_, ?_, ?_⟩
      · simp [procs, Kernel.setProc]
      · simp [procs, Kernel.setProc]
      · intro i other
        rw [setProc_proc_of_ne _ _ _ _ other, procs]
        exact setProc_proc_of_ne _ _ _ _ other

theorem liveCtx_of_others
    (unused : (k.proc np).state = .UNUSED) (others : ∀ i, i ≠ np → t.proc i = k.proc i)
    (live : LiveCtx k ctx) : LiveCtx t ctx := by
  intro i current
  have other : i ≠ np := by
    rintro rfl
    exact (live i current).1 unused
  rw [others i other]
  exact live i current

theorem allocproc_sound {found : Option (Fin NPROC)}
    (run : allocproc k ctx = some (found, t)) (sound : Sound k) (live : LiveCtx k ctx) :
    Sound t := by
  simp only [allocproc] at run
  split at run
  · cases Option.some.inj run
    exact sound
  · rename_i np unused
    obtain ⟨⟨kstack, k'⟩, alloc, rest⟩ := Option.bind_eq_some_iff.mp run
    have embryo : Sound (k.setProc np { k.proc np with state := .EMBRYO, pid := k.nextpid }) :=
      sound.setProc fun started => absurd rfl started.2
    have effect := kalloc_effect alloc
    have reserved := effect.sound ⟨embryo.enabled, embryo.positive, embryo.attributed⟩
      (liveCtx_of_others (firstUnused_spec unused)
        (fun i other => setProc_proc_of_ne _ _ _ _ other) live)
    split at rest
    · cases Option.some.inj rest
      exact reserved.setProc fun started => absurd rfl started.1
    · cases Option.some.inj rest
      exact reserved.setProc_same rfl id

/-- A `fork` that got a process and copied its memory ends with one call of
`traceevent` in a kernel `mid` where all but the child is as before. -/
theorem fork_completes (alloc : allocproc k (some i) = some (some np, k'))
    (run : fork k i copying true = some (ret, t)) :
    ∃ k'', PageEffect k' k'' (some i) ∧
      t = (k''.setProc np (childOf i (k''.proc i) (k''.proc np))).record (some i) TRACE_TYPE_PROC
        (k''.proc np).pid
        ((k''.setProc np (childOf i (k''.proc i) (k''.proc np))).proc i).pid 0 0 "fork" := by
  simp only [fork, alloc, Option.bind_eq_bind, Option.bind_some] at run
  obtain ⟨k'', calls, rest⟩ := Option.bind_eq_some_iff.mp run
  refine ⟨k'', pageCalls_effect calls, ?_⟩
  simp only [if_true, setProc_proc_self, Option.some.injEq, Prod.mk.injEq] at rest
  exact rest.2.symm

/-- Any other `fork` records events of its own only. -/
theorem fork_sound_of_failed
    {copied : Bool} (run : fork k i copying copied = some (ret, t)) (sound : Sound k)
    (live : LiveCtx k (some i))
    (failed : copied = false ∨ ∀ np k', allocproc k (some i) ≠ some (some np, k')) : Sound t := by
  simp only [fork, Option.bind_eq_bind] at run
  obtain ⟨⟨found, k'⟩, alloc, rest⟩ := Option.bind_eq_some_iff.mp run
  have reserved := allocproc_sound alloc sound live
  cases found with
  | none =>
    cases Option.some.inj rest
    exact reserved
  | some np =>
    have allocated := allocproc_found alloc
    have live' := liveCtx_of_others allocated.unused allocated.others live
    rcases failed with rfl | none
    · obtain ⟨k'', calls, rest⟩ := Option.bind_eq_some_iff.mp rest
      have copy := pageCalls_effect calls
      simp only [Bool.false_eq_true, if_false] at rest
      obtain ⟨k₃, free, rest⟩ := Option.bind_eq_some_iff.mp rest
      have freed := kfree_effect free
      cases Option.some.inj rest
      apply Sound.setProc _ fun started => absurd rfl started.1
      apply freed.sound (copy.sound reserved live')
      intro j current
      rw [copy.proc]
      exact live' j current
    · exact absurd alloc (none np k')

theorem fork_sound_of_same_pid (alloc : allocproc k (some i) = some (some np, k'))
    (run : fork k i copying true = some (ret, t)) (sound : Sound k)
    (live : LiveCtx k (some i)) (same : k.nextpid = (k.proc i).pid) : Sound t := by
  obtain ⟨k'', copy, rfl⟩ := fork_completes alloc run
  have allocated := allocproc_found alloc
  have live' := liveCtx_of_others allocated.unused allocated.others live
  have copied : Sound k'' := copy.sound (allocproc_sound alloc sound live) live'
  have other : i ≠ np := by
    rintro rfl
    exact (live i rfl).1 allocated.unused
  have pidEq : (k''.proc np).pid = (k.proc i).pid := by rw [copy.proc, allocated.pid, same]
  have callerEq : k''.proc i = k.proc i := by rw [copy.proc, allocated.others i other]
  have child : Sound (k''.setProc np (childOf i (k''.proc i) (k''.proc np))) := by
    apply copied.setProc
    intro _
    have positive := sound.positive i (live i rfl)
    rw [← pidEq] at positive
    exact positive
  apply child.record
  · apply liveCtx_some
    rw [setProc_proc_of_ne _ _ _ _ other, callerEq]
    exact live i rfl
  · simp only [Kernel.current, Option.map_some, pidOf, setProc_proc_of_ne _ _ _ _ other, callerEq,
      pidEq]

/-- The record of a completed `fork` names the child. -/
theorem not_attributed_of_fork (alloc : allocproc k (some i) = some (some np, k'))
    (run : fork k i copying true = some (ret, t)) (sound : Sound k)
    (live : LiveCtx k (some i)) (foreign : k.nextpid ≠ (k.proc i).pid) : ¬ Attributed t := by
  obtain ⟨k'', copy, rfl⟩ := fork_completes alloc run
  have allocated := allocproc_found alloc
  have live' := liveCtx_of_others allocated.unused allocated.others live
  have copied : Sound k'' := copy.sound (allocproc_sound alloc sound live) live'
  have other : i ≠ np := by
    rintro rfl
    exact (live i rfl).1 allocated.unused
  intro attributed
  obtain ⟨⟨pid, _⟩, _⟩ := attributed (slot k''.buf.seq)
    (some ((k''.setProc np (childOf i (k''.proc i) (k''.proc np))).proc i))
    (by simp [Kernel.record, Kernel.current, copied.enabled])
  simp only [Kernel.record, setProc_buf] at pid
  rw [traceevent_events _ _ copied.enabled, Function.update_self, setProc_proc_of_ne _ _ _ _ other,
    copy.proc, allocated.others i other] at pid
  apply foreign
  rw [← allocated.pid]
  exact pid

theorem Sound.reparent (sound : Sound k) (i : Fin NPROC) :
    Sound (Process.reparent k i) where
  enabled := sound.enabled
  attributed := sound.attributed
  positive := by
    intro j live
    simp only [Process.reparent] at live ⊢
    split at live
    · rename_i child
      rw [if_pos child]
      exact sound.positive j live
    · rename_i child
      rw [if_neg child]
      exact sound.positive j live

theorem reparent_proc (k : Kernel) (i j : Fin NPROC) :
    ((reparent k i).proc j).pid = (k.proc j).pid ∧
      ((reparent k i).proc j).state = (k.proc j).state := by
  simp only [reparent]
  split <;> exact ⟨rfl, rfl⟩

theorem exit_sound
    (run : exit k i closing = some t) (sound : Sound k) (live : Live (k.proc i)) : Sound t := by
  simp only [exit] at run
  split at run
  · simp at run
  · obtain ⟨k', calls, rest⟩ := Option.bind_eq_some_iff.mp run
    have liveCtx := liveCtx_some live
    have closed := pageCalls_effect calls
    have sound' : Sound k' := closed.sound (sound.record liveCtx rfl) liveCtx
    cases Option.some.inj rest
    apply Sound.setProc_same
    · apply Sound.reparent
      exact sound'.setProc_same rfl id
    · rfl
    · intro _
      have started : Live (k'.proc i) := by
        rw [closed.proc]
        exact live
      simpa only [Live, (reparent_proc _ i i).2, setProc_proc_self] using started

theorem wait_sound {freeing : List PageCall} {ret : Option CInt}
    (run : wait k i freeing = some (ret, t)) (sound : Sound k) (live : Live (k.proc i)) :
    Sound t := by
  have liveCtx := liveCtx_some live
  simp only [wait] at run
  split at run
  · obtain ⟨k', free, rest⟩ := Option.bind_eq_some_iff.mp run
    obtain ⟨k'', calls, rest⟩ := Option.bind_eq_some_iff.mp rest
    have freed := kfree_effect free
    have freedAll := pageCalls_effect calls
    cases Option.some.inj rest
    apply Sound.setProc _ fun started => absurd rfl started.1
    apply freedAll.sound (freed.sound sound liveCtx)
    intro j current
    rw [freed.proc]
    exact liveCtx j current
  · grind [sound.setProc_same]

theorem kill_sound (pid : CInt) (sound : Sound k) : Sound (kill k pid).2 := by
  simp only [kill]
  split
  · exact sound
  · grind [sound.setProc_same, Live]

variable {user cpu0 : Bool} {trapno err : BitVec 64} {setup : List PageCall}

theorem trapSwitch_sound (run : trapSwitch k ctx trapno err user cpu0 = some t) (sound : Sound k)
    (live : LiveCtx k ctx) : Sound t ∧ LiveCtx t ctx := by
  simp only [trapSwitch] at run
  split at run
  · cases Option.some.inj run
    split
    · exact ⟨⟨sound.enabled, sound.positive, sound.attributed⟩, live⟩
    · exact ⟨sound, live⟩
  · split at run
    · cases Option.some.inj run
      exact ⟨sound, live⟩
    · cases ctx with
      | none => simp at run
      | some i =>
        simp only at run
        split at run
        · cases Option.some.inj run
          refine ⟨(sound.record live rfl).setProc_same rfl id, ?_⟩
          apply liveCtx_some
          rw [setProc_proc_self]
          exact live i rfl
        · simp at run

theorem trap_sound (run : trap k ctx trapno err user cpu0 closing = some t)
    (sound : Sound k) (live : LiveCtx k ctx) : Sound t := by
  obtain ⟨k', switched, rest⟩ := Option.bind_eq_some_iff.mp run
  obtain ⟨sound', live'⟩ := trapSwitch_sound switched sound live
  cases ctx with
  | none =>
    cases Option.some.inj rest
    exact sound'
  | some i => grind [exit_sound, sound'.setProc_same, LiveCtx]

theorem syscallEnd_sound {num ret : BitVec 64} {start_ticks : Uint} (run : syscallEnd k i num ret start_ticks closing = some t)
    (sound : Sound k) (live : Live (k.proc i)) : Sound t := by
  have returned : ∀ rax : BitVec 64,
      Sound (k.setProc i { k.proc i with tf := { (k.proc i).tf with rax := rax } }) ∧
        LiveCtx (k.setProc i { k.proc i with tf := { (k.proc i).tf with rax := rax } })
          (some i) := by
    intro rax
    refine ⟨sound.setProc_same rfl id, ?_⟩
    apply liveCtx_some
    rw [setProc_proc_self]
    exact live
  -- The state in which `proc->killed` is tested, whichever branch led there.
  obtain ⟨k', sound', live', run⟩ : ∃ k', Sound k' ∧ Live (k'.proc i) ∧
      (if (k'.proc i).killed then exit k' i closing else some k') = some t := by
    simp only [syscallEnd] at run
    refine ⟨_, ?_, ?_, run⟩
    · split
      · split
        · exact (returned ret).1
        · exact (returned ret).1.record (returned ret).2 rfl
      · exact (returned (-1)).1
    · split
      · split
        · exact (returned ret).2 i rfl
        · exact (returned ret).2 i rfl
      · exact (returned (-1)).2 i rfl
  split at run
  · exact exit_sound run sound' live'
  · cases Option.some.inj run
    exact sound'

theorem switchState_sound {src dst : ProcState}
    (run : switchState k i src dst = some t) (sound : Sound k)
    (started : src ≠ .UNUSED ∧ src ≠ .EMBRYO) : Sound t := by
  simp only [switchState] at run
  split at run
  · rename_i here
    cases Option.some.inj run
    refine sound.setProc_same rfl ?_
    intro _
    rw [Live, here]
    exact started
  · simp at run

/-! ## Whole runs -/

/-- The step is a `fork` that makes a child with a pid other than the caller's. -/
def ForeignFork (k : Kernel) : KernelOp → Prop
  | .fork i copying copied =>
    copied = true ∧ (step k (.fork i copying copied)).isSome ∧
      (∃ np k', allocproc k (some i) = some (some np, k')) ∧ k.nextpid ≠ (k.proc i).pid
  | _ => False

theorem effect_sound {op : KernelOp} (run : effect k op = some t) (sound : Sound k)
    (runs : k.Runs op.ctx) (own : ¬ ForeignFork k op) : Sound t := by
  have live := liveCtx_of_runs runs
  cases op with
  | kalloc ctx =>
    have called : pageCall k ctx .kalloc = some t := run
    exact (pageCall_effect called).sound sound live
  | kfree ctx v =>
    have called : pageCall k ctx (.kfree v) = some t := run
    exact (pageCall_effect called).sound sound live
  | fork i copying copied =>
    obtain ⟨⟨ret, t'⟩, forked, rfl⟩ := Option.map_eq_some_iff.mp run
    by_cases completes : copied = true ∧ ∃ np k', allocproc k (some i) = some (some np, k')
    · obtain ⟨rfl, np, k', alloc⟩ := completes
      apply fork_sound_of_same_pid alloc forked sound live
      by_contra foreign
      refine own ⟨rfl, ?_, ⟨np, k', alloc⟩, foreign⟩
      rw [step, if_pos runs, run]
      rfl
    · apply fork_sound_of_failed forked sound live
      grind
  | exit i closing => exact exit_sound run sound (live i rfl)
  | wait i freeing =>
    obtain ⟨⟨ret, t'⟩, waited, rfl⟩ := Option.map_eq_some_iff.mp run
    exact wait_sound waited sound (live i rfl)
  | kill i pid =>
    cases Option.some.inj run
    exact kill_sound pid sound
  | exec i path sz argc argv loading =>
    obtain ⟨k', calls, rest⟩ := Option.bind_eq_some_iff.mp run
    cases Option.some.inj rest
    exact Sound.setProc_same ((pageCalls_effect calls).sound sound live) rfl id
  | trap ctx trapno err user cpu0 closing => exact trap_sound run sound live
  | syscallEnd i num ret start_ticks closing => exact syscallEnd_sound run sound (live i rfl)
  | traceread i pgdir mem dst max_events =>
    obtain ⟨r, read, rfl⟩ := Option.map_eq_some_iff.mp run
    obtain ⟨readseq, bufEq⟩ := traceread_keeps _ _ _ _ _ _ read
    refine ⟨?_, sound.positive, ?_⟩
    · simp only [bufEq]
      exact sound.enabled
    · intro slot cause caused
      simp only [bufEq] at caused ⊢
      exact sound.attributed slot cause caused
  | schedule i => exact switchState_sound run sound (by decide)
  | sleep i => exact switchState_sound run sound (by decide)
  | wakeup i => exact switchState_sound run sound (by decide)

theorem step_sound (k : Kernel) (op : KernelOp) (t : Kernel) (sound : Sound k)
    (own : ¬ ForeignFork k op) (taken : step k op = some t) : Sound t := by
  simp only [step] at taken
  split at taken
  · rename_i runs
    exact effect_sound taken sound runs own
  · simp at taken

theorem foreignFork_breaks (k : Kernel) (op : KernelOp) (sound : Sound k)
    (foreign : ¬ ¬ ForeignFork k op) : ∃ t, step k op = some t ∧ ¬ Attributed t := by
  have foreign := not_not.mp foreign
  cases op with
  | fork i copying copied =>
    obtain ⟨rfl, taken, ⟨np, k', alloc⟩, other⟩ := foreign
    obtain ⟨t, taken⟩ := Option.isSome_iff_exists.mp taken
    refine ⟨t, taken, ?_⟩
    simp only [step] at taken
    split at taken
    · rename_i runs
      obtain ⟨⟨ret, t'⟩, forked, rfl⟩ := Option.map_eq_some_iff.mp taken
      exact not_attributed_of_fork alloc forked sound (liveCtx_of_runs runs) other
    · simp at taken
  | _ => exact absurd foreign id

theorem userinit_sound (run : userinit k setup = some t)
    (sound : Sound k) (first : 0 < k.nextpid.toInt) : Sound t := by
  have nobody : ∀ k : Kernel, LiveCtx k none := fun k i current => by simp at current
  obtain ⟨⟨found, k'⟩, alloc, rest⟩ := Option.bind_eq_some_iff.mp run
  have reserved := allocproc_sound alloc sound (nobody k)
  cases found with
  | none => simp at rest
  | some i =>
    obtain ⟨k'', calls, rest⟩ := Option.bind_eq_some_iff.mp rest
    have effect := pageCalls_effect calls
    have built := effect.sound ⟨reserved.enabled, reserved.positive, reserved.attributed⟩
      (nobody _)
    cases Option.some.inj rest
    apply built.setProc
    intro _
    show 0 < (k''.proc i).pid.toInt
    rw [effect.proc, (allocproc_found alloc).pid]
    exact first

theorem main_sound {kend : AddrT} {freelist : List AddrT}
    (started : main kend freelist setup = some k) : Sound k := by
  apply userinit_sound started
  · refine ⟨rfl, ?_, ?_⟩
    · intro i live
      exact absurd rfl live.1
    · intro i cause caused
      simp at caused
  · show 0 < (1 : CInt).toInt
    decide

/-- From the state `main` leaves on, every retained event is attributed to the
process in whose context it was recorded, and selected by that pid's filter,
exactly as long as no `fork` makes a child with another pid than its caller's. -/
theorem events_attributed_iff (kend : AddrT) (freelist : List AddrT) (setup : List PageCall)
    (k : Kernel) (started : main kend freelist setup = some k) (ops : List KernelOp) :
    Throughout step Attributed k ops ↔ Along step (fun k op => ¬ ForeignFork k op) k ops :=
  throughout_iff_along step_sound (fun _ sound => sound.attributed) foreignFork_breaks ops k
    (main_sound started)

def tenPages : List AddrT :=
  (List.range 10).map fun i => KERNBASE + 0x400000 + PGSIZE * BitVec.ofNat 64 i

/-- The pages of the first address space: its root, three levels below it, and
one page of program. -/
def firstSetup : List PageCall := List.replicate 5 .kalloc

/-- The first process runs, allocates a page, tries a `fork` whose memory copy
fails, and returns from it. -/
def quietOps : List KernelOp :=
  [.schedule 0, .kalloc (some 0), .fork 0 [] false, .syscallEnd 0 1 (-1) 0 []]

theorem events_attributed_after_failed_fork :
    ∃ k, main (KERNBASE + 0x200000) tenPages firstSetup = some k ∧
      (run step k quietOps).isSome ∧ Throughout step Attributed k quietOps := by
  have runs : ((main (KERNBASE + 0x200000) tenPages firstSetup).bind
      fun k => run step k quietOps).isSome := by decide +kernel
  obtain ⟨t, ran⟩ := Option.isSome_iff_exists.mp runs
  obtain ⟨k, started, ran⟩ := Option.bind_eq_some_iff.mp ran
  refine ⟨k, started, by rw [ran]; rfl, ?_⟩
  apply (events_attributed_iff _ _ _ k started quietOps).mpr
  refine ⟨id, fun _ _ => ⟨id, fun _ _ => ⟨?_, fun _ _ => ⟨id, fun _ _ => trivial⟩⟩⟩⟩
  rintro ⟨copied, -⟩
  exact absurd copied (by decide)

/-- The first process forks.  The record of it, caused by process 1 under its
name, carries pid 2, so the filter for pid 2 shows it and the one for pid 1
does not. -/
theorem fork_event_names_child :
    ∃ k t, main (KERNBASE + 0x200000) tenPages firstSetup = some k ∧
      run step k [.schedule 0, .fork 0 [] true] = some t ∧
      (t.cause 7).map pidOf = some 1 ∧ (t.buf.events 7).pid = 2 ∧
      (t.buf.events 7).comm.text = cstr "initcode" ∧
      want_event (t.buf.events 7) 0 2 3 = true ∧ want_event (t.buf.events 7) 0 1 3 = false ∧
      ¬ Throughout step Attributed k [.schedule 0, .fork 0 [] true] := by
  have runs : ((main (KERNBASE + 0x200000) tenPages firstSetup).bind
      fun k => run step k [.schedule 0, .fork 0 [] true]).map (fun t =>
        ((t.cause 7).map pidOf, (t.buf.events 7).pid, (t.buf.events 7).comm.text,
          want_event (t.buf.events 7) 0 2 3, want_event (t.buf.events 7) 0 1 3)) =
      some (some 1, 2, cstr "initcode", true, false) := by decide +kernel
  obtain ⟨t, ran, facts⟩ := Option.map_eq_some_iff.mp runs
  obtain ⟨k, started, ran⟩ := Option.bind_eq_some_iff.mp ran
  simp only [Prod.mk.injEq] at facts
  obtain ⟨cause, pid, comm, accepted, rejected⟩ := facts
  refine ⟨k, t, started, ran, cause, pid, comm, accepted, rejected, ?_⟩
  rintro ⟨-, after⟩
  obtain ⟨k', scheduled, ran⟩ := run_cons_eq_some ran
  obtain ⟨t', forked, ran⟩ := run_cons_eq_some ran
  cases Option.some.inj ran
  have attributed : Attributed t := (after k' scheduled).2 t forked
  obtain ⟨p, caused, callerPid⟩ := Option.map_eq_some_iff.mp cause
  have same := (attributed 7 p caused).1.pid
  rw [pid, callerPid] at same
  exact absurd same (by decide)

end Xv6Tracing.Process
