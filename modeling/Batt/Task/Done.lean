/-
  When a task may be destroyed.

  The terminal bits are set before `handle_event` has checked `self_` and `scheduler_` and before
  `run_completion_handlers` has closed and drained the list. `is_done`, and with it the fast path of
  `call_when_done`, reads these bits alone. Somebody who is told there that the task is done may
  destroy it while the terminating thread still works on it.

  In every run in which nobody looks in that window, a report finds the task left alone: no thread
  runs it, signals it, schedules it or ends it any more, and a caller whose handler was registered
  has given the lock of the list back.
-/
import Batt.Task.Schedule

namespace Batt.Task

open Interleave

/-! ## The window -/

/-- The thread has ended the task and will still access it. -/
def Pc.ending : Pc → Bool
  | .finish | .completeLock | .completeClose | .completeTake | .completeUnlock _ => true
  | _ => false

def Pc.invokes : Pc → Bool
  | .invokeAll _ => true
  | _ => false

/-- The thread owns the lock of the list of completion handlers. -/
def Pc.locks : Pc → Bool
  | .completeClose | .completeTake | .completeUnlock _ | .whenPush _ | .whenUnlock _ => true
  | _ => false

/-- The thread registers a handler: it has found the list open, and owns the lock. -/
def Pc.registers : Pc → Bool
  | .whenPush _ | .whenUnlock none => true
  | _ => false

/-- The step reads the terminal bits for `is_done`. -/
def looks (c : Conf Shared Pc) (i : Nat) (a : Act) : Bool :=
  match c.locals[i]? with
  | some .idle => a = .isDone
  | some (.whenDone _) => true
  | _ => false

/-- Awaits are settled, and nobody looks whether the task is done while a thread is ending it. -/
def looksLate (c : Conf Shared Pc) (i : Nat) (a : Act) : Bool :=
  awaitsSettled c i a && (!looks c i a || decide (total (ind Pc.ending) c.locals = 0))

/-- What a thread may be doing once the task is reported done: nothing, running handlers that were
    taken out of it, or a call of its own (`try_dump_stack_trace`, `wake`, `call_when_done`) that has
    not registered a handler. -/
def Pc.isOutside : Pc → Bool
  | .idle | .invokeAll _ | .traceCas _ | .wakeLock | .wakeUnlock | .whenDone _ | .whenLock _
  | .whenUnlock (some _) => true
  | _ => false

/-- The lock has one owner, and the list stays open while a handler is registered. -/
structure Locked (c : Conf Shared Pc) : Prop where
  lock : total (ind Pc.locks) c.locals = c.shared.state.completionHandlersLock.toNat
  pushed : ∀ pc ∈ c.locals, pc.registers = true →
    c.shared.state.completionHandlersClosed = false

structure Reported (c : Conf Shared Pc) : Prop extends Scheduled c, Locked c where
  done : c.shared.reported = true →
    0 < c.shared.completions ∧ total (ind Pc.ending) c.locals = 0

section

variable {c : Conf Shared Pc} {i : Nat} {pc pc' : Pc} {sh' : Shared} {a : Act}

theorem trans_ending (h : Trans c.shared a pc sh' pc') :
    ind Pc.ending pc' ≤ ind Pc.ending pc + ind Pc.finishes pc' := by
  cases h with
  | reload loop observed isLoop => cases isLoop <;> exact Nat.le_refl _
  | done => exact Nat.le_add_left _ _
  | panic | wait => exact Nat.le_add_right _ _
  | task | complete | completeLock | completeClose | completeTake => exact Nat.le_refl _
  | _ => exact Nat.zero_le _

theorem trans_completions (h : Trans c.shared a pc sh' pc') :
    c.shared.completions ≤ sh'.completions := by
  cases h with
  | task tracing step => rw [(taskStep_completions step).1]
  | out step | traced step => rw [(outStep_completions step).1]
  | complete => exact Nat.le_succ _
  | _ => exact Nat.le_refl _

/-- Who runs the handlers is alone in `run_completion_handlers`. -/
theorem done_of_invokeAll (hs : Scheduled c) {handlers : List Nat}
    (hpc : .invokeAll handlers ∈ c.locals) :
    0 < c.shared.completions ∧ total (ind Pc.ending) c.locals = 0 := by
  have hsplit : total (ind Pc.ending) c.locals + total (ind Pc.invokes) c.locals =
      total (ind Pc.finishes) c.locals + total (ind Pc.completes) c.locals := by
    rw [← total_add, ← total_add]
    refine congrArg (fun f => total f c.locals) (funext fun pc => ?_)
    cases pc <;> rfl
  have hinvokes := le_total (ind Pc.invokes) hpc
  have hcompletes := le_total (ind Pc.completes) hpc
  rw [ind_true rfl] at hinvokes hcompletes
  have hcompleting := hs.completing
  have hfinisher := hs.finisher
  have hone := Bool.toNat_le (isTerminalState c.shared.state)
  exact ⟨by omega, by omega⟩

theorem done_of_looks (hs : Scheduled c) (hterm : isTerminalState c.shared.state = true)
    (hnone : total (ind Pc.ending) c.locals = 0) :
    0 < c.shared.completions ∧ total (ind Pc.ending) c.locals = 0 := by
  refine ⟨?_, hnone⟩
  have hfinisher := hs.finisher
  have hmono : total (ind Pc.finishes) c.locals ≤ total (ind Pc.ending) c.locals := by
    refine total_mono _ fun pc => ?_
    cases pc <;> simp [ind, Pc.finishes, Pc.ending]
  rw [hterm, Bool.toNat_true] at hfinisher
  omega

theorem done_trans (hr : Reported c) (hs' : Scheduled ⟨sh', c.locals.set i pc'⟩)
    (hi : c.locals[i]? = some pc) (h : Trans c.shared a pc sh' pc')
    (hcond : looksLate c i a = true) (hreported : sh'.reported = true) :
    0 < sh'.completions ∧ total (ind Pc.ending) (c.locals.set i pc') = 0 := by
  have hpc := List.mem_of_getElem? hi
  -- what is known before the step, by who has reported
  have hbefore : 0 < c.shared.completions ∧ total (ind Pc.ending) c.locals = 0 := by
    have hlate : looks c i a = true → total (ind Pc.ending) c.locals = 0 := by
      intro hlooks
      rw [looksLate, hlooks, Bool.not_true, Bool.false_or, Bool.and_eq_true] at hcond
      exact of_decide_eq_true hcond.2
    cases h with
    | isDone act terminal =>
      refine done_of_looks hr.toScheduled terminal (hlate ?_)
      rw [looks, hi, act]
      rfl
    | whenDone handler terminal =>
      refine done_of_looks hr.toScheduled terminal (hlate ?_)
      rw [looks, hi]
    | invokeNext handler handlers => exact done_of_invokeAll hr.toScheduled hpc
    | task tracing step => exact hr.done ((taskStep_completions step).2.1 ▸ hreported)
    | out step | traced step => exact hr.done ((outStep_completions step).2.1 ▸ hreported)
    | _ => exact hr.done hreported
  have hmore := trans_completions h
  refine ⟨by omega, ?_⟩
  have hset := total_set (ind Pc.ending) pc' hi
  have hmove := trans_ending h
  have hfinish := le_total (ind Pc.finishes)
    (List.mem_set (List.getElem?_eq_some_iff.mp hi).1 (a := pc'))
  have hfinisher := hs'.finisher
  have hone := Bool.toNat_le (isTerminalState sh'.state)
  dsimp only at hfinisher
  omega

theorem trans_locks (h : Trans c.shared a pc sh' pc')
    (hlocked : pc.locks = true → c.shared.state.completionHandlersLock = true) :
    ind Pc.locks pc' + c.shared.state.completionHandlersLock.toNat =
      ind Pc.locks pc + sh'.state.completionHandlersLock.toNat := by
  cases h with
  | reload loop observed isLoop => cases isLoop <;> rfl
  | task tracing step => rw [(taskStep_completions step).2.2.2]
  | out step | traced step => rw [(outStep_completions step).2.2.2]; rfl
  | ready event | done event | rests event =>
    have hno : pc.locks = false := by cases event <;> rfl
    rw [ind_false hno]
    dsimp only
    rw [(event_completions event).2.1]
    rfl
  | whenRetry handler free | whenOpen handler free | completeLock free => rw [free]; rfl
  | whenAgain | whenPushed | completeUnlock => rw [hlocked rfl]; rfl
  | _ => rfl

theorem pushed_trans (hl : Locked c) (hi : c.locals[i]? = some pc)
    (h : Trans c.shared a pc sh' pc') : ∀ k ∈ c.locals.set i pc', k.registers = true →
      sh'.state.completionHandlersClosed = false := by
  have hpc := List.mem_of_getElem? hi
  refine forall_set ?_ ?_
  · intro hk
    cases h with
    | panic | wait => exact hl.pushed _ hpc hk
    | reload loop observed isLoop => cases isLoop <;> cases hk
    | whenOpen handler free notTerminal notClosed => exact notClosed
    | whenPush handler => exact hl.pushed _ hpc rfl
    | task tracing step => cases hk
    | ready event | done event | rests event => cases hk
    | _ => cases hk
  · intro j k hne hj' hk
    have hold := hl.pushed k (List.mem_of_getElem? hj') hk
    have hlocks : k.locks = true := by
      cases k with
      | whenPush | whenUnlock => rfl
      | _ => cases hk
    cases h with
    | task tracing step => exact (taskStep_completions step).2.2.1.trans hold
    | out step | traced step => exact (outStep_completions step).2.2.1.trans hold
    | ready event | done event | rests event => exact (event_completions event).1.trans hold
    | completeClose =>
      -- both would own the lock
      have hle := add_le_total (ind Pc.locks) hne.symm hi hj'
      have hone := Bool.toNat_le c.shared.state.completionHandlersLock
      rw [ind_true rfl, ind_true hlocks, hl.lock] at hle
      omega
    | _ => exact hold

theorem locked_trans (hl : Locked c) (hi : c.locals[i]? = some pc)
    (h : Trans c.shared a pc sh' pc') : Locked ⟨sh', c.locals.set i pc'⟩ := by
  refine ⟨?_, pushed_trans hl hi h⟩
  have hset := total_set (ind Pc.locks) pc' hi
  have hmove := trans_locks h (true_of_total hl.lock (List.mem_of_getElem? hi))
  have hold := hl.lock
  dsimp only
  omega

theorem reported_trans (hr : Reported c) (hi : c.locals[i]? = some pc)
    (h : Trans c.shared a pc sh' pc') (hcond : looksLate c i a = true) :
    Reported ⟨sh', c.locals.set i pc'⟩ := by
  have hsettled : awaitsSettled c i a = true := (Bool.and_eq_true _ _ ▸ hcond).1
  have hs' := scheduled_trans hr.toScheduled hi h hsettled
  exact ⟨hs', locked_trans hr.toLocked hi h, done_trans hr hs' hi h hcond⟩

end

theorem locked_initial (n : Nat) : Locked (initial n) := by
  refine ⟨?_, ?_⟩
  · rw [total_initial _ _ rfl]; rfl
  · intro pc hpc hk
    rcases mem_initial hpc with rfl | rfl <;> cases hk

theorem reported_initial (n : Nat) : Reported (initial n) :=
  ⟨scheduled_initial n, locked_initial n, nofun⟩

theorem reported_reachable {n : Nat} {c : Conf Shared Pc}
    (h : machine.ReachableWhere looksLate (initial n) c) : Reported c := by
  refine machine.invariant_runWhere (fun c i a c' hr hp hf => ?_) (reported_initial n) h
  obtain ⟨pc, sh', pc', hi, _, ht, _, rfl⟩ := fire_trans hf
  exact reported_trans hr hi ht hp

/-- **A task that is reported done is left alone**, in every run in which nobody looks whether it is
    done between its last suspension and the closing of its list of handlers. -/
theorem reported_task_left_alone {n : Nat} {c : Conf Shared Pc}
    (h : machine.ReachableWhere looksLate (initial n) c) (hreported : c.shared.reported = true) :
    ∀ pc ∈ c.locals, pc.isOutside = true := by
  have hr := reported_reachable h
  obtain ⟨hpos, hending⟩ := hr.done hreported
  have hterm : isTerminalState c.shared.state = true := by
    have hfinisher := hr.finisher
    cases ht : isTerminalState c.shared.state with
    | true => rfl
    | false =>
      rw [ht, Bool.toNat_false] at hfinisher
      omega
  obtain ⟨hsus, hdead⟩ := terminal_iff.mp hterm
  have hexited := hr.base.terminated.mp hdead
  -- nobody runs it, traces it, signals it, schedules it or ends it
  have hholds : total (ind Pc.holds) c.locals = 0 := by
    have hone := hr.base.one
    rw [hsus, Bool.toNat_true] at hone
    omega
  have htraces : total (ind Pc.traces) c.locals = 0 := by
    rw [hr.base.tracer, Bool.eq_false_iff.mpr fun ht => (hr.base.traced ht).2.2 hexited]
    rfl
  have hframes := hr.framesOk.none (.inr (.inr hexited))
  have hinner := hr.signals.inner
  rw [hframes] at hinner
  have hschedules : total (ind Pc.schedules) c.locals = 0 := by
    rw [hr.scheduler, not_ready_of_terminal hterm]
    rfl
  have hclosed : c.shared.state.completionHandlersClosed = true := by
    have hmono : total (ind Pc.closes) c.locals ≤ total (ind Pc.ending) c.locals := by
      refine total_mono _ fun pc => ?_
      cases pc <;> simp [ind, Pc.closes, Pc.ending]
    have hclosing := hr.closing
    cases hc : c.shared.state.completionHandlersClosed with
    | true => rfl
    | false =>
      rw [hc, Bool.toNat_false] at hclosing
      omega
  intro pc hpc
  have hzero : ∀ {p : Pc → Bool}, total (ind p) c.locals = 0 → p pc = false := by
    intro p hp
    have hle := le_total (ind p) hpc
    refine Bool.eq_false_iff.mpr fun htrue => ?_
    rw [ind_true htrue] at hle
    omega
  cases pc with
  | ctor | pending | runSpin | runResume | suspendLoad | suspendCas | suspendEvent =>
    cases hzero hholds
  | inside tracing =>
    cases tracing with
    | false => cases hzero hholds
    | true => cases hzero htraces
  | traceResume | traceTake | traceClear => cases hzero htraces
  | emplace => cases hzero hinner.1
  | haveSignal => cases hzero hinner.2.1
  | schedule => cases hzero hschedules
  | finish | completeLock | completeClose | completeTake | completeUnlock => cases hzero hending
  | whenPush handler =>
    rw [hr.pushed _ hpc rfl] at hclosed
    cases hclosed
  | whenUnlock again =>
    cases again with
    | some handler => rfl
    | none =>
      rw [hr.pushed _ hpc rfl] at hclosed
      cases hclosed
  | idle | invokeAll | traceCas | wakeLock | wakeUnlock | whenDone | whenLock => rfl

/-- A handler is registered while the task runs, and invoked at its end. -/
def joinRun : List (Nat × Act) :=
  List.replicate 4 (0, Act.run) ++ (1, Act.callWhenDone 7) :: List.replicate 4 (1, Act.run) ++
    (0, Act.returns) :: List.replicate 9 (0, Act.run)

theorem reported_task_left_alone_joinRun :
    ∃ c, machine.runWhere looksLate joinRun (initial 1) = some c ∧ c.shared.reported = true ∧
      c.locals = [.invokeAll [], .idle] ∧ ∀ pc ∈ c.locals, pc.isOutside = true := by
  refine ⟨_, rfl, rfl, rfl, ?_⟩
  exact reported_task_left_alone (n := 1) ⟨joinRun, rfl⟩ rfl

/-- `is_done` is called when the terminating thread has set kSuspended. -/
def windowRun : List (Nat × Act) :=
  List.replicate 4 (0, Act.run) ++ (0, Act.returns) :: List.replicate 3 (0, Act.run) ++
    [(1, Act.isDone)]

/-- The thread that has ended the task goes on to check `self_`, and to close and drain the list. -/
theorem reported_task_in_use :
    ∃ c, machine.run windowRun (initial 1) = some c ∧ c.shared.reported = true ∧
      c.shared.state.completionHandlersClosed = false ∧ c.locals = [.finish, .idle] ∧
      ¬ ∀ pc ∈ c.locals, pc.isOutside = true := by
  refine ⟨_, rfl, rfl, rfl, rfl, fun h => ?_⟩
  cases h .finish List.mem_cons_self

end Batt.Task
