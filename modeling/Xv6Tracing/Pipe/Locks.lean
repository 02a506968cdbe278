import Xv6Tracing.Pipe.Model
import Xv6Tracing.Lib.Mutex

/-!
# What a step on a pipe can do

`Move` lists the steps by their effect: a turn of the process alone, taking or
giving back one of the two locks, or a change of what a lock protects.  A process
holds a lock exactly at the points where `inside` or `table` says so.
-/

set_option autoImplicit false

namespace Xv6Tracing.Pipes

open Lib

def Pc.inside {T : Type} : Pc T → Bool
  | .idle | .writeEnter _ | .readEnter _ | .closeEnter _ | .killing _ _ => false
  | .sleeping _ .acquire | .sleeping _ .unlock => true
  | .sleeping _ _ => false
  | _ => true

def Pc.table {T : Type} : Pc T → Bool
  | .waking _ .wake | .waking _ .release | .killing _ .wake | .killing _ .release => true
  | .sleeping _ .unlock | .sleeping _ .mark | .sleeping _ .tidy => true
  | _ => false

section

variable {T : Type}

theorem inside_enter (call : Call T) : call.enter.inside = false := by
  cases call <;> rfl

theorem table_enter (call : Call T) : call.enter.table = false := by
  cases call <;> rfl

theorem inside_wakeAfter (site : WakeSite) : (site.after : Pc T).inside = true := by
  cases site <;> rfl

theorem table_wakeAfter (site : WakeSite) : (site.after : Pc T).table = false := by
  cases site <;> rfl

theorem inside_sleepAfter (site : SleepSite) : (site.after : Pc T).inside = true := by
  cases site <;> rfl

theorem table_sleepAfter (site : SleepSite) : (site.after : Pc T).table = false := by
  cases site <;> rfl

inductive Turn (s : World T) (u : T) : Pc T → Pc T → Prop
  | enter (call : Call T) : Turn s u .idle call.enter
  | more (w : Buffer) (i : Nat) : Turn s u (.writeNext w i) (.writeTest w i)
  | written (w : Buffer) (i : Nat) : Turn s u (.writeNext w i) (.waking (.writeEnd w) .acquire)
  | full (w : Buffer) (i : Nat) (full : s.pipe.Full) : Turn s u (.writeTest w i) (.writeStop w i)
  | abandon (w : Buffer) (i : Nat) (stop : s.pipe.readopen = false ∨ s.killed u) :
      Turn s u (.writeStop w i) (.writeExit (-1))
  | await (w : Buffer) (i : Nat) (isOpen : s.pipe.readopen = true) :
      Turn s u (.writeStop w i) (.waking (.writeFull w i) .acquire)
  | empty (n : CInt) (empty : s.pipe.Empty) (isOpen : s.pipe.writeopen = true) :
      Turn s u (.readTest n) (.readStop n)
  | ready (n : CInt) (ready : s.pipe.Empty → s.pipe.writeopen = false) :
      Turn s u (.readTest n) (.readCopy n 0)
  | killed (n : CInt) : Turn s u (.readStop n) (.readExit n (-1))
  | rest (n : CInt) : Turn s u (.readStop n) (.sleeping (.read n) .acquire)

inductive Entry : Pc T → Pc T → Prop
  | write (w : Buffer) : Entry (.writeEnter w) (.writeNext w 0)
  | read (n : CInt) : Entry (.readEnter n) (.readTest n)
  | close (writable : Bool) : Entry (.closeEnter writable) (.closeMark writable)
  | relock (site : SleepSite) : Entry (.sleeping site .relock) site.after

inductive Leave : Pc T → Pc T → Prop
  | write (ret : CInt) : Leave (.writeExit ret) .idle
  | read (n ret : CInt) : Leave (.readExit n ret) .idle
  | close : Leave .closeExit .idle
  | unlock (site : SleepSite) : Leave (.sleeping site .unlock) (.sleeping site .mark)

inductive TableEntry (s : World T) (u : T) : Pc T → Pc T → Prop
  | waking (site : WakeSite) : TableEntry s u (.waking site .acquire) (.waking site .wake)
  | sleeping (site : SleepSite) : TableEntry s u (.sleeping site .acquire) (.sleeping site .unlock)
  | off (site : SleepSite) (awake : s.asleep u = none) :
      TableEntry s u (.sleeping site .off) (.sleeping site .tidy)
  | killing (victim : T) : TableEntry s u (.killing victim .acquire) (.killing victim .wake)

inductive TableLeave : Pc T → Pc T → Prop
  | waking (site : WakeSite) : TableLeave (.waking site .release) site.after
  | sleeping (site : SleepSite) : TableLeave (.sleeping site .tidy) (.sleeping site .relock)
  | killing (victim : T) : TableLeave (.killing victim .release) .idle

variable {old new : Pc T} {u : T} {s t : World T}

theorem Turn.inside_eq (how : Turn s u old new) :
    new.inside = old.inside := by
  cases how with
  | enter call => exact inside_enter call
  | _ => rfl

theorem Turn.table_eq (how : Turn s u old new) :
    new.table = old.table := by
  cases how with
  | enter call => exact table_enter call
  | _ => rfl

theorem Entry.inside_new (how : Entry old new) : new.inside = true := by
  cases how with
  | relock site => exact inside_sleepAfter site
  | _ => rfl

theorem Entry.table_eq (how : Entry old new) : new.table = old.table := by
  cases how with
  | relock site => exact table_sleepAfter site
  | _ => rfl

theorem Leave.inside_old (how : Leave old new) : old.inside = true := by
  cases how <;> rfl

theorem Leave.inside_new (how : Leave old new) : new.inside = false := by
  cases how <;> rfl

theorem Leave.table_eq (how : Leave old new) : new.table = old.table := by
  cases how <;> rfl

theorem TableEntry.inside_eq (how : TableEntry s u old new) : new.inside = old.inside := by
  cases how <;> rfl

theorem TableEntry.table_new (how : TableEntry s u old new) : new.table = true := by
  cases how <;> rfl

theorem TableLeave.inside_eq (how : TableLeave old new) :
    new.inside = old.inside := by
  cases how with
  | waking site => exact inside_wakeAfter site
  | _ => rfl

theorem TableLeave.table_old (how : TableLeave old new) : old.table = true := by
  cases how <;> rfl

theorem TableLeave.table_new (how : TableLeave old new) : new.table = false := by
  cases how with
  | waking site => exact table_wakeAfter site
  | _ => rfl

variable [DecidableEq T]

theorem goto_pc (s : World T) (u : T) (pc : Pc T) : (s.goto u pc).pc u = pc := by
  simp [World.goto]

/-- What a step of the process `u` can be. -/
inductive Move (s : World T) (u : T) : World T → Prop
  | turn {pc : Pc T} (how : Turn s u (s.pc u) pc) : Move s u (s.goto u pc)
  | lock {pc : Pc T} (how : Entry (s.pc u) pc) (free : s.lk = none) :
      Move s u ({ s with lk := some u }.goto u pc)
  | unlock {pc : Pc T} (how : Leave (s.pc u) pc) : Move s u ({ s with lk := none }.goto u pc)
  | lockTable {pc : Pc T} (how : TableEntry s u (s.pc u) pc) (free : s.ptable = none) :
      Move s u ({ s with ptable := some u }.goto u pc)
  | unlockTable {pc : Pc T} (how : TableLeave (s.pc u) pc) :
      Move s u ({ s with ptable := none }.goto u pc)
  | put (w : Buffer) (i : Nat) (here : s.pc u = .writeTest w i) (room : ¬ s.pipe.Full) :
      Move s u ({ s with
        pipe := s.pipe.put (w.addr i)
        unannounced := Function.update s.unannounced u true
        stored := s.stored ++ [w.addr i] }.goto u (.writeNext w (i + 1)))
  | copy (n : CInt) (i : Nat) (here : s.pc u = .readCopy n i) (more : (i : Int) < n.toInt)
      (bytes : ¬ s.pipe.Empty) :
      Move s u ({ s with
        pipe := { s.pipe with nread := s.pipe.nread + 1 }
        copying := s.copying ++ [s.pipe.next] }.goto u (.readCopy n (i + 1)))
  | finish (n : CInt) (i : Nat) (here : s.pc u = .readCopy n i)
      (done : (i : Int) < n.toInt → s.pipe.Empty) :
      Move s u ({ s with
        reads := s.reads ++ [s.copying]
        copying := [] }.goto u (.waking (.readEnd n i) .acquire))
  | close (writable : Bool) (here : s.pc u = .closeMark writable) :
      Move s u ({ s with pipe := s.pipe.close writable }.goto u
        (.waking (.close writable) .acquire))
  | wake (site : WakeSite) (here : s.pc u = .waking site .wake) :
      Move s u ({ wakeup1 s site.chan with
        unannounced := if site.chan = Chan.nread then Function.update s.unannounced u false
          else s.unannounced }.goto u (.waking site .release))
  | mark (site : SleepSite) (here : s.pc u = .sleeping site .mark) :
      Move s u ({ s with
        asleep := Function.update s.asleep u (some site.chan)
        ptable := none }.goto u (.sleeping site .off))
  | kill (victim : T) (here : s.pc u = .killing victim .wake) :
      Move s u ({ s with
        killed := Function.update s.killed victim true
        asleep := Function.update s.asleep victim none }.goto u (.killing victim .release))

theorem lockPipe_eq_some {pc : Pc T} (taken : lockPipe s u pc = some t) :
    s.lk = none ∧ t = { s with lk := some u }.goto u pc := by
  unfold lockPipe at taken
  split at taken
  · exact ⟨‹_›, (Option.some.inj taken).symm⟩
  · cases taken

theorem lockTable_eq_some {pc : Pc T} (taken : lockTable s u pc = some t) :
    s.ptable = none ∧ t = { s with ptable := some u }.goto u pc := by
  unfold lockTable at taken
  split at taken
  · exact ⟨‹_›, (Option.some.inj taken).symm⟩
  · cases taken

section

variable {s t : World T} {u : T} {old new : Pc T}

section

variable (here : s.pc u = old)

include here

theorem move_of_turn (how : Turn s u old new)
    (taken : some (s.goto u new) = some t) : Move s u t := by
  subst here
  cases taken
  exact .turn how

theorem move_of_lock (how : Entry old new)
    (taken : lockPipe s u new = some t) : Move s u t := by
  subst here
  obtain ⟨free, rfl⟩ := lockPipe_eq_some taken
  exact .lock how free

theorem move_of_unlock (how : Leave old new)
    (taken : unlockPipe s u new = some t) : Move s u t := by
  subst here
  cases taken
  exact .unlock how

theorem move_of_lockTable (how : TableEntry s u old new)
    (taken : lockTable s u new = some t) : Move s u t := by
  subst here
  obtain ⟨free, rfl⟩ := lockTable_eq_some taken
  exact .lockTable how free

theorem move_of_unlockTable (how : TableLeave old new)
    (taken : unlockTable s u new = some t) : Move s u t := by
  subst here
  cases taken
  exact .unlockTable how

end

end

theorem wakingStep_move {site : WakeSite} {next : Waking}
    (here : s.pc u = .waking site next) (taken : wakingStep s u site next = some t) :
    Move s u t := by
  cases next with
  | acquire => exact move_of_lockTable here (.waking site) taken
  | wake =>
    cases taken
    exact .wake site here
  | release => exact move_of_unlockTable here (.waking site) taken

theorem sleepingStep_move {site : SleepSite} {next : Sleeping}
    (here : s.pc u = .sleeping site next) (taken : sleepingStep s u site next = some t) :
    Move s u t := by
  cases next with
  | acquire => exact move_of_lockTable here (.sleeping site) taken
  | unlock => exact move_of_unlock here (.unlock site) taken
  | mark =>
    cases taken
    exact .mark site here
  | off =>
    simp only [sleepingStep] at taken
    split at taken
    · exact move_of_lockTable here (.off site ‹_›) taken
    · cases taken
  | tidy => exact move_of_unlockTable here (.sleeping site) taken
  | relock => exact move_of_lock here (.relock site) taken

theorem killingStep_move {victim : T} {next : Waking}
    (here : s.pc u = .killing victim next) (taken : killingStep s u victim next = some t) :
    Move s u t := by
  cases next with
  | acquire => exact move_of_lockTable here (.killing victim) taken
  | wake =>
    cases taken
    exact .kill victim here
  | release => exact move_of_unlockTable here (.killing victim) taken

theorem step_move {op : T × Call T} (taken : step s op = some t) :
    Move s op.1 t := by
  simp only [step] at taken
  split at taken
  case h_1 here => exact move_of_turn here (.enter op.2) taken
  case h_2 w here => exact move_of_lock here (.write w) taken
  case h_3 w i here =>
    split at taken
    · exact move_of_turn here (.more w i) taken
    · exact move_of_turn here (.written w i) taken
  case h_4 w i here =>
    split at taken
    · exact move_of_turn here (.full w i ‹_›) taken
    · cases taken
      exact .put w i here ‹_›
  case h_5 w i here =>
    split at taken
    · exact move_of_turn here (.abandon w i ‹_›) taken
    · rename_i going
      exact move_of_turn here (.await w i (by simpa using (not_or.mp going).1)) taken
  case h_6 ret here => exact move_of_unlock here (.write ret) taken
  case h_7 n here => exact move_of_lock here (.read n) taken
  case h_8 n here =>
    split at taken
    · rename_i waits
      exact move_of_turn here (.empty n waits.1 waits.2) taken
    · rename_i ready
      exact move_of_turn here (.ready n (by simpa using ready)) taken
  case h_9 n here =>
    split at taken
    · exact move_of_turn here (.killed n) taken
    · exact move_of_turn here (.rest n) taken
  case h_10 n i here =>
    split at taken
    · rename_i more
      cases taken
      exact .copy n i here more.1 more.2
    · rename_i done
      cases taken
      exact .finish n i here (by simpa using done)
  case h_11 n ret here => exact move_of_unlock here (.read n ret) taken
  case h_12 writable here => exact move_of_lock here (.close writable) taken
  case h_13 writable here =>
    cases taken
    exact .close writable here
  case h_14 here => exact move_of_unlock here .close taken
  case h_15 site next here => exact wakingStep_move here taken
  case h_16 site next here => exact sleepingStep_move here taken
  case h_17 victim next here => exact killingStep_move here taken

/-! ## The two locks -/

structure Locked (s : World T) : Prop where
  pipe : Excl Pc.inside s.lk s.pc
  table : Excl Pc.table s.ptable s.pc

theorem Locked.move (locked : Locked s) (move : Move s u t) :
    Locked t := by
  obtain ⟨pipe, table⟩ := locked
  cases move with
  | turn how => exact ⟨pipe.stay how.inside_eq, table.stay how.table_eq⟩
  | lock how free => exact ⟨pipe.take free how.inside_new, table.stay how.table_eq⟩
  | unlock how => exact ⟨pipe.give how.inside_old how.inside_new, table.stay how.table_eq⟩
  | lockTable how free => exact ⟨pipe.stay how.inside_eq, table.take free how.table_new⟩
  | unlockTable how =>
    exact ⟨pipe.stay how.inside_eq, table.give how.table_old how.table_new⟩
  | put w i here | copy n i here | finish n i here | close writable here =>
    exact ⟨pipe.stay (by rw [here]; rfl), table.stay (by rw [here]; rfl)⟩
  | wake site here | kill victim here =>
    exact ⟨pipe.stay (by rw [here]; rfl), table.stay (by rw [here]; rfl)⟩
  | mark site here =>
    have held : (s.pc u).table = true := by rw [here]; rfl
    exact ⟨pipe.stay (by rw [here]; rfl), table.give held rfl⟩

omit [DecidableEq T] in
theorem locked_pipealloc (data : Fin PIPESIZE → Uchar) (killed : T → Bool) :
    Locked (pipealloc T data killed) := by
  constructor
  · intro u
    exact iff_of_false (by simp [pipealloc, Pc.inside]) (by simp [pipealloc])
  · intro u
    exact iff_of_false (by simp [pipealloc, Pc.table]) (by simp [pipealloc])

theorem Move.pc_other {v : T} (move : Move s u t) (other : v ≠ u) :
    t.pc v = s.pc v := by
  cases move <;> exact Function.update_of_ne other _ _

theorem Move.pipe_of_outside (move : Move s u t) (outside : (s.pc u).inside = false) :
    t.pipe = s.pipe ∧ t.copying = s.copying ∧ t.reads = s.reads := by
  cases move with
  | put _ _ here | copy _ _ here | finish _ _ here | close _ here =>
    rw [here] at outside
    cases outside
  | _ => exact ⟨rfl, rfl, rfl⟩

end

end Xv6Tracing.Pipes
