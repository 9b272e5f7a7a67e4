/-
  `batt::Task` (`async/task_decl.hpp`, `async/task_impl.hpp`): the state word of a task, the threads
  that act on it, and the code of the task itself.

  An agent is a thread that is inside a member function of the task. Who wins the compare-exchange
  of `schedule_to_run` has an activation to deliver and nothing else to do, so the agent becomes the
  activation: `pending` until the executor runs it, then in `Task::run`, in the code of the task, and
  at last in `handle_event(kSuspended)`. Each access to `state_` is a step.

  The code of the task is the user's. `context` is where it stands; `frames` are the calls of
  `await_impl` under way, innermost first. In the function passed to an await, and outside of all
  awaits, it may begin another await or a sleep, yield, be preempted (`Trampoline::activate_task`
  dispatches a task of higher priority on its thread), or return. A continuation that has been
  registered may be invoked by any thread, once.

  A failed `BATT_CHECK` ends the program (`panicked`), and so does the result of an await that is
  read before it is there. `completions` and `reported` record the run and no step reads them.
-/
import Batt.Lib.Interleave

namespace Batt.Task

open Interleave

/-! ## The state word -/

structure State where
  needSignal : Bool
  haveSignal : Bool
  suspended : Bool
  terminated : Bool
  stackTrace : Bool
  sleepTimerLock : Bool
  completionHandlersLock : Bool
  sleepTimerLockSuspend : Bool
  completionHandlersClosed : Bool
  deriving DecidableEq, Repr

def isRunningState (state : State) : Bool := !state.suspended

def isReadyState (state : State) : Bool :=
  (state.suspended && !state.terminated) &&
    ((!state.needSignal && !state.haveSignal) || (state.needSignal && state.haveSignal)) &&
    !state.stackTrace

def isTerminalState (state : State) : Bool := state.suspended && state.terminated

/-- `target_state` of `schedule_to_run`. -/
def State.activated (state : State) : State :=
  { state with suspended := false, needSignal := false, haveSignal := false }

/-! ## The task -/

/-- Where the continuation of an await is: still with the function that was passed to it, with
    whoever will invoke it, or invoked. It stores the result first and then signals the task. -/
inductive Continuation where
  | held
  | registered
  | taken
  | invoked
  deriving DecidableEq, Repr

/-- A call of `await_impl`; `sleeping` when `sleep_impl` has made it. -/
structure Frame where
  id : Nat
  sleeping : Bool
  continuation : Continuation
  deriving DecidableEq, Repr

/-- Who has called `yield_impl`. -/
inductive Yield where
  | plain
  | await
  deriving DecidableEq, Repr

inductive Context where
  /-- In `pre_body_fn_entry`, before the first activation. -/
  | start
  | user
  /-- `sleep_impl` takes the lock of the sleep timer, and gives it back. -/
  | sleepLock
  | sleepUnlock
  /-- `await_impl` sets kNeedSignal, and reads its result. -/
  | need (sleeping : Bool)
  | result
  /-- `yield_impl`: before the switch, switched out, and after it. -/
  | yield (k : Yield)
  | suspended (k : Yield)
  | resumed (k : Yield)
  /-- `post_body_fn_exit`. -/
  | exit
  | exited
  deriving DecidableEq, Repr

structure Shared where
  state : State
  /-- Whether `self_` and `scheduler_` hold a context. -/
  self : Bool
  scheduler : Bool
  isPreempted : Bool
  /-- Whether `stack_trace_` has a value. -/
  trace : Bool
  completionHandlers : List Nat
  context : Context
  frames : List Frame
  /-- The number of the next await. -/
  awaits : Nat
  panicked : Bool
  /-- How often `run_completion_handlers` was entered. -/
  completions : Nat
  /-- Somebody was told that the task is done. -/
  reported : Bool

inductive Pc where
  | idle
  /-- The end of the constructor. -/
  | ctor
  /-- A continuation, at its two steps. -/
  | emplace (id : Nat)
  | haveSignal
  | schedule (observed : State) (forcePost : Bool)
  | pending
  /-- `run`, before and after the code of the task. -/
  | runSpin (observed : State)
  | runResume
  | inside (tracing : Bool)
  | suspendLoad
  | suspendCas (observed : State)
  | suspendEvent
  /-- The last branch of `handle_event`, and `run_completion_handlers`. -/
  | finish
  | completeLock
  | completeClose
  | completeTake
  | completeUnlock (handlers : List Nat)
  | invokeAll (handlers : List Nat)
  /-- `try_dump_stack_trace`. -/
  | traceCas (observed : State)
  | traceResume
  | traceTake
  | traceClear (observed : State)
  | wakeLock
  | wakeUnlock
  /-- `call_when_done`; it goes round again, or the handler is in the list. -/
  | whenDone (handler : Nat)
  | whenLock (handler : Nat)
  | whenPush (handler : Nat)
  | whenUnlock (again : Option Nat)
  deriving DecidableEq, Repr

inductive Act where
  | run
  /-- A weak compare-exchange fails for no reason. -/
  | spurious
  | invoke (id : Nat)
  | tryDump
  | wake
  | isDone
  | callWhenDone (handler : Nat)
  /-- What the code of the task does next. -/
  | await
  | sleep
  | yield
  | preempt
  | register (id : Nat)
  | returns
  deriving DecidableEq, Repr

/-! ## The code of the task -/

def Shared.panic (sh : Shared) : Shared := { sh with panicked := true }

/-- `scheduler_.resume()` in the context of the task: back to who has resumed it. -/
def Shared.switchOut (sh : Shared) (k : Yield) : Shared :=
  { sh with self := true, scheduler := false, context := .suspended k }

/-- `self_.resume()` outside of it. -/
def Shared.switchIn (sh : Shared) : Shared :=
  let context :=
    match sh.context with
    | .suspended k => .resumed k
    | _ => .user
  { sh with self := false, scheduler := true, context := context }

def Shared.setContinuation (sh : Shared) (id : Nat) (c : Continuation) : Shared :=
  { sh with frames := sh.frames.map fun f => if f.id = id then { f with continuation := c } else f }

/-- The continuation of await `id` is there to be passed on, or to be invoked. -/
def Shared.hasContinuation (sh : Shared) (id : Nat) (c : Continuation) : Bool :=
  sh.frames.any fun f => f.id = id && f.continuation = c

/-- The function passed to the innermost await is that of `sleep_impl`. -/
def Shared.inSleepFn (sh : Shared) : Bool :=
  match sh.frames with
  | f :: _ => f.sleeping
  | [] => false

def userStep (sh : Shared) : Act → Option Shared
  | .register id =>
    if sh.hasContinuation id .held then some (sh.setContinuation id .registered) else none
  | .returns =>
    some { sh with context := if sh.frames.isEmpty then .exit else .yield .await }
  | .await => if sh.inSleepFn then none else some { sh with context := .need false }
  | .sleep => if sh.inSleepFn then none else some { sh with context := .sleepLock }
  | .yield => if sh.inSleepFn then none else some { sh with context := .yield .plain }
  | .preempt =>
    if sh.inSleepFn then none else some { sh with context := .yield .plain, isPreempted := true }
  | _ => none

/-- A step of the code of the task; `true` when it switches back to who has resumed it. -/
def taskStep (a : Act) (sh : Shared) : Option (Shared × Bool) :=
  match sh.context, a with
  | .user, a => (userStep sh a).map fun sh' => (sh', false)
  | .sleepLock, .run =>
    if sh.state.sleepTimerLock then some (sh, false)
    else
      some ({ sh with
        state := { sh.state with sleepTimerLock := true }, context := .need true }, false)
  | .sleepUnlock, .run =>
    some ({ sh with
      state := { sh.state with sleepTimerLock := false }, context := .user }, false)
  | .need sleeping, .run =>
    if sh.state.haveSignal then some (sh.panic, false)
    else
      some ({ sh with
        state := { sh.state with needSignal := true }
        frames := ⟨sh.awaits, sleeping, .held⟩ :: sh.frames
        awaits := sh.awaits + 1
        context := .user }, false)
  | .yield k, .run => if sh.scheduler then some (sh.switchOut k, true) else some (sh.panic, false)
  | .resumed k, .run =>
    if sh.state.stackTrace then some ({ sh.switchOut k with trace := true }, true)
    else if sh.scheduler then
      some ({ sh with context := match k with | .plain => .user | .await => .result }, false)
    else some (sh.panic, false)
  | .result, .run =>
    match sh.frames with
    | [] => none
    | f :: rest =>
      if f.continuation = .invoked then
        some ({ sh with
          frames := rest, context := if f.sleeping then .sleepUnlock else .user }, false)
      else some (sh.panic, false)
  | .exit, .run =>
    -- a state that is terminal now would fail the check on `current_ptr()`
    if sh.state.suspended then some (sh.panic, false)
    else
      some ({ sh with
        state := { sh.state with terminated := true }
        self := false, scheduler := false, context := .exited }, true)
  | _, _ => none

/-! ## Agents -/

/-- `handle_event`, when `state` is the new state. -/
def handleEvent (sh : Shared) (state : State) : Shared × Pc :=
  if isReadyState state then
    ({ sh with state := state, isPreempted := false }, .schedule state sh.isPreempted)
  else ({ sh with state := state }, if isTerminalState state then .finish else .idle)

/-- Whether a compare-exchange that expects `observed` succeeds. -/
def Shared.exchanges (sh : Shared) (a : Act) (observed : State) : Bool :=
  a = .run && sh.state = observed

def begin (sh : Shared) : Act → Option (Shared × Pc)
  | .invoke id =>
    if sh.hasContinuation id .registered then some (sh.setContinuation id .taken, .emplace id)
    else none
  | .tryDump => some (sh, .traceCas sh.state)
  | .wake => some (sh, .wakeLock)
  | .isDone =>
    some (if isTerminalState sh.state then { sh with reported := true } else sh, .idle)
  | .callWhenDone handler => some (sh, .whenDone handler)
  | _ => none

/-- The loops around a weak compare-exchange. -/
def casStep (a : Act) (sh : Shared) : Pc → Shared × Pc
  | .schedule observed forcePost =>
    if !isReadyState observed then (sh, .idle)
    else if sh.exchanges a observed then
      if sh.self then ({ sh with state := observed.activated }, .pending)
      else (sh.panic, .schedule observed forcePost)
    else (sh, .schedule sh.state forcePost)
  | .runSpin observed =>
    if observed.sleepTimerLock then (sh, .runSpin sh.state)
    else if sh.exchanges a observed then
      ({ sh with
        state := { observed with sleepTimerLockSuspend := false, sleepTimerLock := true } },
        .runResume)
    else (sh, .runSpin sh.state)
  | .suspendCas observed =>
    if sh.exchanges a observed then
      ({ sh with
        state := { observed with sleepTimerLock := false, sleepTimerLockSuspend := true } },
        .suspendEvent)
    else (sh, .suspendCas sh.state)
  | .traceCas observed =>
    if isRunningState observed || isReadyState observed || isTerminalState observed ||
        observed.stackTrace then (sh, .idle)
    else if sh.exchanges a observed then
      ({ sh with state := { observed with stackTrace := true } }, .traceResume)
    else (sh, .traceCas sh.state)
  | .traceClear observed =>
    let target := { observed with stackTrace := false, suspended := true }
    if isTerminalState target then (sh.panic, .traceClear observed)
    else if sh.exchanges a observed then
      ({ sh with state := target }, if isReadyState target then .schedule target true else .idle)
    else (sh, .traceClear sh.state)
  | pc => (sh, pc)

/-- `run_completion_handlers`, and `call_when_done`. -/
def completionStep (sh : Shared) : Pc → Shared × Pc
  | .finish =>
    if sh.self || sh.scheduler || !isTerminalState sh.state then (sh.panic, .finish)
    else ({ sh with completions := sh.completions + 1 }, .completeLock)
  | .completeLock =>
    if sh.state.completionHandlersLock then (sh, .completeLock)
    else ({ sh with state := { sh.state with completionHandlersLock := true } }, .completeClose)
  | .completeClose =>
    if sh.state.completionHandlersClosed then (sh.panic, .completeClose)
    else ({ sh with state := { sh.state with completionHandlersClosed := true } }, .completeTake)
  | .completeTake => ({ sh with completionHandlers := [] }, .completeUnlock sh.completionHandlers)
  | .completeUnlock handlers =>
    ({ sh with state := { sh.state with completionHandlersLock := false } }, .invokeAll handlers)
  | .invokeAll [] => (sh, .idle)
  | .invokeAll (_ :: handlers) => ({ sh with reported := true }, .invokeAll handlers)
  | .whenDone handler =>
    if isTerminalState sh.state then ({ sh with reported := true }, .idle)
    else (sh, .whenLock handler)
  | .whenLock handler =>
    if sh.state.completionHandlersLock then (sh, .whenLock handler)
    else
      ({ sh with state := { sh.state with completionHandlersLock := true } },
        if isTerminalState sh.state || sh.state.completionHandlersClosed then
          .whenUnlock (some handler)
        else .whenPush handler)
  | .whenPush handler =>
    ({ sh with completionHandlers := sh.completionHandlers ++ [handler] }, .whenUnlock none)
  | .whenUnlock again =>
    ({ sh with state := { sh.state with completionHandlersLock := false } },
      match again with
      | some handler => .whenDone handler
      | none => .idle)
  | pc => (sh, pc)

def agentStep (sh : Shared) : Pc → Shared × Pc
  | .ctor => handleEvent sh { sh.state with suspended := true, haveSignal := true }
  | .emplace id => (sh.setContinuation id .invoked, .haveSignal)
  | .haveSignal => handleEvent sh { sh.state with haveSignal := true }
  | .pending =>
    (sh, if sh.state.sleepTimerLockSuspend then .runSpin sh.state else .runResume)
  | .runResume => if sh.self then (sh.switchIn, .inside false) else (sh.panic, .runResume)
  | .suspendLoad =>
    (sh, if sh.state.sleepTimerLock then .suspendCas sh.state else .suspendEvent)
  | .suspendEvent => handleEvent sh { sh.state with suspended := true }
  | .traceResume => if sh.self then (sh.switchIn, .inside true) else (sh.panic, .traceResume)
  | .traceTake =>
    if sh.trace then ({ sh with trace := false }, .traceClear sh.state) else (sh.panic, .traceTake)
  | .wakeLock =>
    if sh.state.sleepTimerLock then (sh, .wakeLock)
    else ({ sh with state := { sh.state with sleepTimerLock := true } }, .wakeUnlock)
  | .wakeUnlock =>
    ({ sh with state := { sh.state with sleepTimerLock := false } }, .idle)
  | pc => completionStep sh pc

def step (a : Act) (sh : Shared) (pc : Pc) : Option (Shared × Pc) :=
  if sh.panicked then none
  else match pc with
    | .idle => begin sh a
    | .inside tracing =>
      (taskStep a sh).map fun r =>
        (r.1,
          if r.2 then if tracing then .traceTake else .suspendLoad
          else .inside tracing)
    | .schedule _ _ | .runSpin _ | .suspendCas _ | .traceCas _ | .traceClear _ =>
      if a = .run ∨ a = .spurious then some (casStep a sh pc) else none
    | _ => if a = .run then some (agentStep sh pc) else none

def machine : Machine Shared Pc Act where
  step := step

/-- A task at the end of its constructor, and `n` other threads. -/
def initial (n : Nat) : Conf Shared Pc where
  shared :=
    { state := ⟨true, false, false, false, false, false, false, false, false⟩
      self := true, scheduler := false, isPreempted := false, trace := false
      completionHandlers := [], context := .start, frames := [], awaits := 0
      panicked := false, completions := 0, reported := false }
  locals := .ctor :: List.replicate n .idle

end Batt.Task
