/-
  Who schedules the task, and who ends it.

  `handle_event` and `try_dump_stack_trace` decide from the state they have written whether the task
  is ready, and only then call `schedule_to_run`. So a ready task has exactly one thread there, and
  what that thread has observed was ready too: it never gives up. In the same way a terminal task
  has exactly one thread that will enter `run_completion_handlers`, or has entered it once.

  A continuation that is invoked on a terminated task, or twice for one kNeedSignal, would break both
  counts; `Settled` excludes it.
-/
import Batt.Task.Signals

namespace Batt.Task

open Interleave

/-! ## Phases -/

def Pc.schedules : Pc → Bool
  | .schedule _ _ => true
  | _ => false

def Pc.finishes : Pc → Bool
  | .finish => true
  | _ => false

/-- In `run_completion_handlers`. -/
def Pc.completes : Pc → Bool
  | .completeLock | .completeClose | .completeTake | .completeUnlock _ | .invokeAll _ => true
  | _ => false

/-- In `run_completion_handlers`, before the list is closed. -/
def Pc.closes : Pc → Bool
  | .completeLock | .completeClose => true
  | _ => false

section

variable {state : State}

theorem not_ready_of_running (h : state.suspended = false) : isReadyState state = false := by
  rw [isReadyState, h]
  rfl

theorem not_ready_of_traced (h : state.stackTrace = true) : isReadyState state = false := by
  rw [isReadyState, h, Bool.not_true, Bool.and_false]

theorem not_ready_of_waiting (hn : state.needSignal = true) (hh : state.haveSignal = false) :
    isReadyState state = false := by
  simp [isReadyState, hn, hh]

theorem not_terminal_of_running (h : state.suspended = false) : isTerminalState state = false := by
  rw [isTerminalState, h]
  rfl

theorem not_terminal_of_alive (h : state.terminated = false) : isTerminalState state = false := by
  rw [isTerminalState, h, Bool.and_false]

theorem not_ready_of_terminal (h : isTerminalState state = true) : isReadyState state = false := by
  rw [isReadyState, (terminal_iff.mp h).2, Bool.not_true, Bool.and_false]
  rfl

end

/-! ## What a step does to them -/

section

variable {sh sh' : Shared} {pc : Pc} {a : Act} {state : State}

/-- What the code of the task has nothing to do with. -/
theorem taskStep_completions (h : TaskStep sh a sh') :
    sh'.completions = sh.completions ∧ sh'.reported = sh.reported ∧
      sh'.state.completionHandlersClosed = sh.state.completionHandlersClosed ∧
      sh'.state.completionHandlersLock = sh.state.completionHandlersLock := by
  cases h <;> exact ⟨rfl, rfl, rfl, rfl⟩

theorem outStep_completions (h : OutStep sh sh') :
    sh'.completions = sh.completions ∧ sh'.reported = sh.reported ∧
      sh'.state.completionHandlersClosed = sh.state.completionHandlersClosed ∧
      sh'.state.completionHandlersLock = sh.state.completionHandlersLock := by
  cases h <;> exact ⟨rfl, rfl, rfl, rfl⟩

theorem event_completions (h : Event sh pc state) :
    state.completionHandlersClosed = sh.state.completionHandlersClosed ∧
      state.completionHandlersLock = sh.state.completionHandlersLock ∧ pc.finishes = false ∧
      pc.completes = false ∧ pc.closes = false := by
  cases h <;> exact ⟨rfl, rfl, rfl, rfl, rfl⟩

end

section

variable {c : Conf Shared Pc} {i : Nat} {pc pc' : Pc} {sh' : Shared} {a : Act} {state : State}

/-- Before an event the task was not ready. -/
theorem event_not_ready (hc : Settled c) (hpc : pc ∈ c.locals) (h : Event c.shared pc state) :
    isReadyState c.shared.state = false := by
  cases h with
  | ctor | suspended => exact not_ready_of_running (hc.base.running hpc rfl)
  | haveSignal =>
    obtain ⟨_, _, _, hn, hh⟩ := hc.signals.signalling hpc
    exact not_ready_of_waiting hn hh

/-- And it had not ended. -/
theorem event_not_terminal (hc : Settled c) (hpc : pc ∈ c.locals) (h : Event c.shared pc state) :
    isTerminalState c.shared.state = false := by
  cases h with
  | ctor | suspended => exact not_terminal_of_running (hc.base.running hpc rfl)
  | haveSignal =>
    obtain ⟨_, _, hframes, _⟩ := hc.signals.signalling hpc
    refine not_terminal_of_alive (Bool.eq_false_iff.mpr fun hterm => ?_)
    rw [hc.framesOk.none (.inr (.inr (hc.base.terminated.mp hterm)))] at hframes
    cases hframes

/-- A task that has ended has no context left. -/
theorem Base.contexts_of_terminal (hb : Base c) (hterm : isTerminalState c.shared.state = true) :
    c.shared.self = false ∧ c.shared.scheduler = false := by
  have hcontexts := hb.contexts
  rw [hb.terminated.mp (terminal_iff.mp hterm).2] at hcontexts
  exact hcontexts

theorem alive_of_traced (hb : Base c) (ht : c.shared.state.stackTrace = true) :
    c.shared.state.terminated = false :=
  Bool.eq_false_iff.mpr fun hterm => (hb.traced ht).2.2 (hb.terminated.mp hterm)

theorem trans_schedules (hc : Settled c) (hpc : pc ∈ c.locals) (h : Trans c.shared a pc sh' pc')
    (hobs : ∀ observed forcePost, pc = .schedule observed forcePost →
      isReadyState observed = true) :
    ind Pc.schedules pc' + (isReadyState c.shared.state).toNat =
      ind Pc.schedules pc + (isReadyState sh'.state).toNat := by
  cases h with
  | reload loop observed isLoop => cases isLoop <;> rfl
  | task tracing step =>
    obtain rfl := hc.base.task_activation hpc step
    have hs := hc.base.running hpc rfl
    rw [not_ready_of_running hs, not_ready_of_running ((taskStep_keeps step).1.trans hs)]
  | out step =>
    have hs := hc.base.running hpc rfl
    rw [not_ready_of_running hs, not_ready_of_running ((outStep_keeps step).1.trans hs)]
    rfl
  | traced step =>
    have ht := hc.base.stackTrace hpc rfl
    rw [not_ready_of_traced ht, not_ready_of_traced ((outStep_keeps step).2.1.trans ht)]
    rfl
  | ready event ready =>
    rw [event_not_ready hc hpc event]
    dsimp only
    rw [ready]
    cases event <;> rfl
  | done event terminal =>
    rw [event_not_ready hc hpc event]
    dsimp only
    rw [not_ready_of_terminal terminal]
    cases event <;> rfl
  | rests event notReady =>
    rw [event_not_ready hc hpc event]
    dsimp only
    rw [notReady]
    cases event <;> rfl
  | givesUp observed forcePost notReady =>
    rw [hobs observed forcePost rfl] at notReady
    cases notReady
  | activate forcePost ready =>
    rw [ready]
    rfl
  | trace suspended notReady alive free =>
    rw [notReady, not_ready_of_traced rfl]
    rfl
  | traceReady ready =>
    rw [not_ready_of_traced (hc.base.stackTrace hpc rfl)]
    dsimp only
    rw [ready]
    rfl
  | traceRests notReady =>
    rw [not_ready_of_traced (hc.base.stackTrace hpc rfl)]
    dsimp only
    rw [notReady]
    rfl
  | _ => rfl

theorem trans_finishes (hb : Base c) (hpc : pc ∈ c.locals) (h : Trans c.shared a pc sh' pc')
    (halive : ∀ state, Event c.shared pc state → isTerminalState c.shared.state = false) :
    ind Pc.finishes pc' + sh'.completions + (isTerminalState c.shared.state).toNat =
      ind Pc.finishes pc + c.shared.completions + (isTerminalState sh'.state).toNat := by
  cases h with
  | reload loop observed isLoop => cases isLoop <;> rfl
  | task tracing step =>
    obtain rfl := hb.task_activation hpc step
    have hs := hb.running hpc rfl
    rw [not_terminal_of_running hs, not_terminal_of_running ((taskStep_keeps step).1.trans hs),
      (taskStep_completions step).1]
  | out step =>
    have hs := hb.running hpc rfl
    rw [not_terminal_of_running hs, not_terminal_of_running ((outStep_keeps step).1.trans hs),
      (outStep_completions step).1]
    rfl
  | traced step =>
    obtain ⟨k, hk⟩ := hb.tracing hpc
    cases step with
    | exit context =>
      rw [hk] at context
      cases context
    | _ => rfl
  | ready event ready =>
    rw [halive _ event, ind_false (event_completions event).2.2.1]
    dsimp only
    rw [Bool.eq_false_iff.mpr fun h => Bool.eq_false_iff.mp (not_ready_of_terminal h) ready]
    rfl
  | done event terminal =>
    rw [halive _ event, ind_false (event_completions event).2.2.1]
    dsimp only
    rw [terminal]
    show 1 + _ + 0 = 0 + _ + 1
    omega
  | rests event notReady notTerminal =>
    rw [halive _ event, ind_false (event_completions event).2.2.1]
    dsimp only
    rw [notTerminal]
    rfl
  | activate forcePost ready =>
    rw [not_terminal_of_alive (ready_iff.mp ready).2.1]
    rfl
  | traceReady | traceRests =>
    have hlives := alive_of_traced hb (hb.stackTrace hpc rfl)
    rw [not_terminal_of_alive hlives]
    dsimp only
    rw [not_terminal_of_alive (by exact hlives)]
    rfl
  | complete =>
    dsimp only
    show 0 + (c.shared.completions + 1) + _ = 1 + c.shared.completions + _
    omega
  | _ => rfl

/-- `run_completion_handlers` is entered where `completions` counts it, and left at any time. -/
theorem trans_completes (h : Trans c.shared a pc sh' pc') :
    ind Pc.completes pc' + c.shared.completions ≤ ind Pc.completes pc + sh'.completions := by
  cases h with
  | reload loop observed isLoop => cases isLoop <;> exact Nat.le_refl _
  | task tracing step => rw [(taskStep_completions step).1]
  | out step | traced step => rw [(outStep_completions step).1]; exact Nat.le_refl _
  | ready event | done event | rests event =>
    rw [ind_false (event_completions event).2.2.2.1]
    exact Nat.le_refl _
  | complete =>
    show 1 + c.shared.completions ≤ 0 + (c.shared.completions + 1)
    omega
  | invokeNone => exact Nat.add_le_add_right (Nat.zero_le _) _
  | _ => exact Nat.le_refl _

theorem trans_closes (h : Trans c.shared a pc sh' pc') :
    ind Pc.closes pc' + sh'.state.completionHandlersClosed.toNat + c.shared.completions =
      ind Pc.closes pc + c.shared.state.completionHandlersClosed.toNat + sh'.completions := by
  cases h with
  | reload loop observed isLoop => cases isLoop <;> rfl
  | task tracing step =>
    rw [(taskStep_completions step).1, (taskStep_completions step).2.2.1]
  | out step | traced step =>
    rw [(outStep_completions step).1, (outStep_completions step).2.2.1]
    rfl
  | ready event | done event | rests event =>
    rw [ind_false (event_completions event).2.2.2.2]
    dsimp only
    rw [(event_completions event).1]
    rfl
  | complete =>
    dsimp only
    show 1 + _ + c.shared.completions = 0 + _ + (c.shared.completions + 1)
    omega
  | completeClose notClosed =>
    rw [notClosed]
    show 0 + 1 + c.shared.completions = 1 + 0 + c.shared.completions
    omega
  | _ => rfl

end

/-! ## The invariant -/

/-- A terminal task has one thread that ends it, and it closes the list once. -/
structure Finishing (c : Conf Shared Pc) : Prop where
  finisher : total (ind Pc.finishes) c.locals + c.shared.completions =
    (isTerminalState c.shared.state).toNat
  completing : total (ind Pc.completes) c.locals ≤ c.shared.completions
  closing : total (ind Pc.closes) c.locals + c.shared.state.completionHandlersClosed.toNat =
    c.shared.completions

structure Scheduled (c : Conf Shared Pc) : Prop extends Settled c, Finishing c where
  scheduler : total (ind Pc.schedules) c.locals = (isReadyState c.shared.state).toNat
  observed : ∀ pc ∈ c.locals, ∀ observed forcePost, pc = .schedule observed forcePost →
    isReadyState observed = true

section

variable {c : Conf Shared Pc} {i : Nat} {pc pc' : Pc} {sh' : Shared} {a : Act}

theorem observed_trans (hs : Scheduled c) (hi : c.locals[i]? = some pc)
    (h : Trans c.shared a pc sh' pc') : ∀ k ∈ c.locals.set i pc', ∀ observed forcePost,
      k = .schedule observed forcePost → isReadyState observed = true := by
  have hpc := List.mem_of_getElem? hi
  refine forall_set ?_ fun j k _ hj => hs.observed k (List.mem_of_getElem? hj)
  intro observed forcePost hk
  cases h with
  | panic | wait => exact hs.observed _ hpc observed forcePost hk
  | reload loop o isLoop =>
    cases isLoop with
    | schedule forcePost' =>
      -- it still counts for the one thread that the ready task has
      cases hk
      exact true_of_total hs.scheduler hpc rfl
    | _ => cases hk
  | ready event ready => cases hk; exact ready
  | traceReady ready => cases hk; exact ready
  | _ => cases hk

/-- Who closes the list finds it open. -/
theorem open_of_closing (hf : Finishing c) (hpc : .completeClose ∈ c.locals) :
    c.shared.state.completionHandlersClosed = false := by
  have hpos := le_total (ind Pc.closes) hpc
  rw [ind_true rfl] at hpos
  have hclosing := hf.closing
  have hfinisher := hf.finisher
  have hone := Bool.toNat_le (isTerminalState c.shared.state)
  cases hc : c.shared.state.completionHandlersClosed with
  | false => rfl
  | true =>
    rw [hc, Bool.toNat_true] at hclosing
    omega

theorem finishing_trans (hf : Finishing c) (hb : Base c) (hi : c.locals[i]? = some pc)
    (h : Trans c.shared a pc sh' pc')
    (halive : ∀ state, Event c.shared pc state → isTerminalState c.shared.state = false) :
    Finishing ⟨sh', c.locals.set i pc'⟩ := by
  refine ⟨?_, ?_, ?_⟩
  · have hset := total_set (ind Pc.finishes) pc' hi
    have hmove := trans_finishes hb (List.mem_of_getElem? hi) h halive
    have hold := hf.finisher
    dsimp only
    omega
  · have hset := total_set (ind Pc.completes) pc' hi
    have hmove := trans_completes h
    have hold := hf.completing
    dsimp only
    omega
  · have hset := total_set (ind Pc.closes) pc' hi
    have hmove := trans_closes h
    have hold := hf.closing
    dsimp only
    omega

theorem scheduled_trans (hs : Scheduled c) (hi : c.locals[i]? = some pc)
    (h : Trans c.shared a pc sh' pc') (hcond : awaitsSettled c i a = true) :
    Scheduled ⟨sh', c.locals.set i pc'⟩ := by
  have hpc := List.mem_of_getElem? hi
  have hsettled := hs.toSettled
  refine ⟨⟨base_trans hs.base hi h, framesOk_trans hs.framesOk h,
    signalInv_trans hs.base hs.framesOk hs.signals hi h hcond⟩,
    finishing_trans hs.toFinishing hs.base hi h fun _ => event_not_terminal hsettled hpc, ?_,
    observed_trans hs hi h⟩
  have hset := total_set (ind Pc.schedules) pc' hi
  have hmove := trans_schedules hsettled hpc h (hs.observed pc hpc)
  have hold := hs.scheduler
  dsimp only
  omega

end

theorem finishing_initial (n : Nat) : Finishing (initial n) := by
  refine ⟨?_, ?_, ?_⟩
  · rw [total_initial _ _ rfl]; rfl
  · rw [total_initial _ _ rfl]; exact Nat.le_refl _
  · rw [total_initial _ _ rfl]; rfl

theorem scheduled_initial (n : Nat) : Scheduled (initial n) := by
  refine ⟨settled_initial n, finishing_initial n, ?_, ?_⟩
  · rw [total_initial _ _ rfl]; rfl
  · intro pc hpc observed forcePost hk
    rcases mem_initial hpc with rfl | rfl <;> cases hk

end Batt.Task
