/-
  What one step of a thread can do, said once.

  `TaskStep` is what the code of the task does and goes on, `OutStep` what it does and switches back
  to who has resumed it. A constructor of `Trans` is a branch of `step`, with its condition. The
  failed checks are all in `Fails`: they change nothing but `panicked`. A loop around a
  compare-exchange that goes round again has only read the state word (`reload`).
-/
import Batt.Task.Model

namespace Batt.Task

open Interleave

/-! ## The code of the task -/

section

variable (sh : Shared) (a : Act)

/-- What the code of the task does after `yield_impl`. -/
def Yield.next : Yield → Context
  | .plain => .user
  | .await => .result

inductive TaskStep : Shared → Prop where
  | register (id : Nat) (context : sh.context = .user)
      (held : sh.hasContinuation id .held = true) : TaskStep (sh.setContinuation id .registered)
  | fnReturns (context : sh.context = .user) (frames : sh.frames ≠ []) :
      TaskStep { sh with context := .yield .await }
  | bodyReturns (context : sh.context = .user) (frames : sh.frames = []) :
      TaskStep { sh with context := .exit }
  | await (act : a = .await) (context : sh.context = .user) (awake : sh.inSleepFn = false) :
      TaskStep { sh with context := .need false }
  | sleep (act : a = .sleep) (context : sh.context = .user) (awake : sh.inSleepFn = false) :
      TaskStep { sh with context := .sleepLock }
  | yield (context : sh.context = .user) (awake : sh.inSleepFn = false) :
      TaskStep { sh with context := .yield .plain }
  | preempt (act : a = .preempt) (context : sh.context = .user) (awake : sh.inSleepFn = false) :
      TaskStep { sh with context := .yield .plain, isPreempted := true }
  | sleepLock (context : sh.context = .sleepLock) (free : sh.state.sleepTimerLock = false) :
      TaskStep { sh with
        state := { sh.state with sleepTimerLock := true }, context := .need true }
  | sleepUnlock (context : sh.context = .sleepUnlock) :
      TaskStep { sh with state := { sh.state with sleepTimerLock := false }, context := .user }
  | need (sleeping : Bool) (context : sh.context = .need sleeping)
      (quiet : sh.state.haveSignal = false) :
      TaskStep { sh with
        state := { sh.state with needSignal := true }
        frames := ⟨sh.awaits, sleeping, .held⟩ :: sh.frames
        awaits := sh.awaits + 1
        context := .user }
  | resumes (k : Yield) (context : sh.context = .resumed k) (free : sh.state.stackTrace = false) :
      TaskStep { sh with context := k.next }
  | result (f : Frame) (rest : List Frame) (context : sh.context = .result)
      (frames : sh.frames = f :: rest) (invoked : f.continuation = .invoked) :
      TaskStep { sh with frames := rest, context := if f.sleeping then .sleepUnlock else .user }

inductive OutStep : Shared → Prop where
  | yield (k : Yield) (context : sh.context = .yield k) : OutStep (sh.switchOut k)
  | trace (k : Yield) (context : sh.context = .resumed k) (tracing : sh.state.stackTrace = true) :
      OutStep { sh.switchOut k with trace := true }
  | exit (context : sh.context = .exit) (running : sh.state.suspended = false) :
      OutStep { sh with
        state := { sh.state with terminated := true }
        self := false, scheduler := false, context := .exited }

/-! ## Checks -/

/-- A check of the code of the task that fails. -/
inductive TaskFails : Prop where
  | need (sleeping : Bool) (context : sh.context = .need sleeping)
      (signal : sh.state.haveSignal = true)
  | yield (k : Yield) (context : sh.context = .yield k) (scheduler : sh.scheduler = false)
  | resumed (k : Yield) (context : sh.context = .resumed k) (scheduler : sh.scheduler = false)
  | result (f : Frame) (rest : List Frame) (context : sh.context = .result)
      (frames : sh.frames = f :: rest) (early : f.continuation ≠ .invoked)
  | exit (context : sh.context = .exit) (suspended : sh.state.suspended = true)

/-- A check that fails at `pc`. -/
inductive Fails : Pc → Prop where
  | schedule (forcePost : Bool) (ready : isReadyState sh.state = true) (self : sh.self = false) :
      Fails (.schedule sh.state forcePost)
  | runResume (self : sh.self = false) : Fails .runResume
  | traceResume (self : sh.self = false) : Fails .traceResume
  | inside (tracing : Bool) (fails : TaskFails sh) : Fails (.inside tracing)
  | traceTake (none : sh.trace = false) : Fails .traceTake
  | traceClear (observed : State) (terminated : observed.terminated = true) :
      Fails (.traceClear observed)
  | finish (wrong : sh.self = true ∨ sh.scheduler = true ∨ isTerminalState sh.state = false) :
      Fails .finish
  | completeClose (closed : sh.state.completionHandlersClosed = true) : Fails .completeClose

/-! ## Steps -/

/-- Where a thread goes round again, at a lock that is held, or has only looked. -/
inductive Waits : Pc → Prop where
  | notDone : Waits .idle
  | sleepLock (tracing : Bool) (locked : sh.state.sleepTimerLock = true) : Waits (.inside tracing)
  | wakeLock (locked : sh.state.sleepTimerLock = true) : Waits .wakeLock
  | completeLock (locked : sh.state.completionHandlersLock = true) : Waits .completeLock
  | whenLock (handler : Nat) (locked : sh.state.completionHandlersLock = true) :
      Waits (.whenLock handler)

/-- The loops around a compare-exchange. -/
inductive Loop : (State → Pc) → Prop where
  | schedule (forcePost : Bool) : Loop fun observed => .schedule observed forcePost
  | runSpin : Loop .runSpin
  | suspendCas : Loop .suspendCas
  | traceCas : Loop .traceCas
  | traceClear : Loop .traceClear

/-- The calls of `handle_event` outside of the code of the task, with the state they leave. -/
inductive Event : Pc → State → Prop where
  | ctor : Event .ctor { sh.state with suspended := true, haveSignal := true }
  | haveSignal : Event .haveSignal { sh.state with haveSignal := true }
  | suspended : Event .suspendEvent { sh.state with suspended := true }

inductive Trans : Pc → Shared → Pc → Prop where
  | panic {pc : Pc} (fails : Fails sh pc) : Trans pc sh.panic pc
  | wait {pc : Pc} (waits : Waits sh pc) : Trans pc sh pc
  | reload (loop : State → Pc) (observed : State) (isLoop : Loop loop) :
      Trans (loop observed) sh (loop sh.state)
  | task (tracing : Bool) {sh' : Shared} (step : TaskStep sh a sh') :
      Trans (.inside tracing) sh' (.inside tracing)
  | out {sh' : Shared} (step : OutStep sh sh') : Trans (.inside false) sh' .suspendLoad
  | traced {sh' : Shared} (step : OutStep sh sh') : Trans (.inside true) sh' .traceTake
  | invoke (id : Nat) (registered : sh.hasContinuation id .registered = true) :
      Trans .idle (sh.setContinuation id .taken) (.emplace id)
  | emplace (id : Nat) : Trans (.emplace id) (sh.setContinuation id .invoked) .haveSignal
  | ready {pc : Pc} {state : State} (event : Event sh pc state)
      (ready : isReadyState state = true) :
      Trans pc { sh with state := state, isPreempted := false } (.schedule state sh.isPreempted)
  | done {pc : Pc} {state : State} (event : Event sh pc state)
      (terminal : isTerminalState state = true) : Trans pc { sh with state := state } .finish
  | rests {pc : Pc} {state : State} (event : Event sh pc state)
      (notReady : isReadyState state = false) (notTerminal : isTerminalState state = false) :
      Trans pc { sh with state := state } .idle
  | givesUp (observed : State) (forcePost : Bool) (notReady : isReadyState observed = false) :
      Trans (.schedule observed forcePost) sh .idle
  | activate (forcePost : Bool) (ready : isReadyState sh.state = true) (self : sh.self = true) :
      Trans (.schedule sh.state forcePost) { sh with state := sh.state.activated } .pending
  | spins (lost : sh.state.sleepTimerLockSuspend = true) : Trans .pending sh (.runSpin sh.state)
  | runs (none : sh.state.sleepTimerLockSuspend = false) : Trans .pending sh .runResume
  | relocks (free : sh.state.sleepTimerLock = false) :
      Trans (.runSpin sh.state)
        { sh with
          state := { sh.state with sleepTimerLockSuspend := false, sleepTimerLock := true } }
        .runResume
  | resume (self : sh.self = true) : Trans .runResume sh.switchIn (.inside false)
  | suspendLocked (locked : sh.state.sleepTimerLock = true) :
      Trans .suspendLoad sh (.suspendCas sh.state)
  | suspendFree (free : sh.state.sleepTimerLock = false) : Trans .suspendLoad sh .suspendEvent
  | suspendUnlocks :
      Trans (.suspendCas sh.state)
        { sh with
          state := { sh.state with sleepTimerLock := false, sleepTimerLockSuspend := true } }
        .suspendEvent
  | tryDump : Trans .idle sh (.traceCas sh.state)
  | noTrace (observed : State) : Trans (.traceCas observed) sh .idle
  | trace (suspended : sh.state.suspended = true) (notReady : isReadyState sh.state = false)
      (alive : sh.state.terminated = false) (free : sh.state.stackTrace = false) :
      Trans (.traceCas sh.state) { sh with state := { sh.state with stackTrace := true } }
        .traceResume
  | traceResume (self : sh.self = true) : Trans .traceResume sh.switchIn (.inside true)
  | traceTake (some : sh.trace = true) :
      Trans .traceTake { sh with trace := false } (.traceClear sh.state)
  | traceReady
      (ready : isReadyState { sh.state with stackTrace := false, suspended := true } = true) :
      Trans (.traceClear sh.state)
        { sh with state := { sh.state with stackTrace := false, suspended := true } }
        (.schedule { sh.state with stackTrace := false, suspended := true } true)
  | traceRests
      (notReady : isReadyState { sh.state with stackTrace := false, suspended := true } = false) :
      Trans (.traceClear sh.state)
        { sh with state := { sh.state with stackTrace := false, suspended := true } } .idle
  | wake : Trans .idle sh .wakeLock
  | wakeLock (free : sh.state.sleepTimerLock = false) :
      Trans .wakeLock { sh with state := { sh.state with sleepTimerLock := true } } .wakeUnlock
  | wakeUnlock :
      Trans .wakeUnlock { sh with state := { sh.state with sleepTimerLock := false } } .idle
  | isDone (act : a = .isDone) (terminal : isTerminalState sh.state = true) :
      Trans .idle { sh with reported := true } .idle
  | callWhenDone (handler : Nat) : Trans .idle sh (.whenDone handler)
  | whenDone (handler : Nat) (terminal : isTerminalState sh.state = true) :
      Trans (.whenDone handler) { sh with reported := true } .idle
  | whenNotDone (handler : Nat) (notTerminal : isTerminalState sh.state = false) :
      Trans (.whenDone handler) sh (.whenLock handler)
  | whenRetry (handler : Nat) (free : sh.state.completionHandlersLock = false) :
      Trans (.whenLock handler)
        { sh with state := { sh.state with completionHandlersLock := true } }
        (.whenUnlock (some handler))
  | whenOpen (handler : Nat) (free : sh.state.completionHandlersLock = false)
      (notTerminal : isTerminalState sh.state = false)
      (notClosed : sh.state.completionHandlersClosed = false) :
      Trans (.whenLock handler)
        { sh with state := { sh.state with completionHandlersLock := true } } (.whenPush handler)
  | whenPush (handler : Nat) :
      Trans (.whenPush handler)
        { sh with completionHandlers := sh.completionHandlers ++ [handler] } (.whenUnlock none)
  | whenAgain (handler : Nat) :
      Trans (.whenUnlock (some handler))
        { sh with state := { sh.state with completionHandlersLock := false } } (.whenDone handler)
  | whenPushed :
      Trans (.whenUnlock none)
        { sh with state := { sh.state with completionHandlersLock := false } } .idle
  | complete (terminal : isTerminalState sh.state = true) :
      Trans .finish { sh with completions := sh.completions + 1 } .completeLock
  | completeLock (free : sh.state.completionHandlersLock = false) :
      Trans .completeLock { sh with state := { sh.state with completionHandlersLock := true } }
        .completeClose
  | completeClose (notClosed : sh.state.completionHandlersClosed = false) :
      Trans .completeClose
        { sh with state := { sh.state with completionHandlersClosed := true } } .completeTake
  | completeTake :
      Trans .completeTake { sh with completionHandlers := [] }
        (.completeUnlock sh.completionHandlers)
  | completeUnlock (handlers : List Nat) :
      Trans (.completeUnlock handlers)
        { sh with state := { sh.state with completionHandlersLock := false } }
        (.invokeAll handlers)
  | invokeNone : Trans (.invokeAll []) sh .idle
  | invokeNext (handler : Nat) (handlers : List Nat) :
      Trans (.invokeAll (handler :: handlers)) { sh with reported := true } (.invokeAll handlers)

end

/-! ## They are all there is -/

section

variable {sh sh' : Shared} {pc pc' : Pc} {a : Act}

/-- How the code of the task comes to ask for a signal. -/
theorem TaskStep.asks (step : TaskStep sh a sh')
    (hc : sh'.context = .sleepLock ∨ ∃ sleeping, sh'.context = .need sleeping) :
    ((a = .await ∨ a = .sleep) ∧ sh.context = .user ∨ sh.context = .sleepLock) ∧
      sh'.frames = sh.frames ∧ sh'.state.needSignal = sh.state.needSignal ∧
      sh'.state.haveSignal = sh.state.haveSignal := by
  cases step with
  | await act context => exact ⟨.inl ⟨.inl act, context⟩, rfl, rfl, rfl⟩
  | sleep act context => exact ⟨.inl ⟨.inr act, context⟩, rfl, rfl, rfl⟩
  | sleepLock context => exact ⟨.inr context, rfl, rfl, rfl⟩
  | register id context =>
    change sh.context = .sleepLock ∨ ∃ sleeping, sh.context = .need sleeping at hc
    rw [context] at hc
    rcases hc with hc | ⟨_, hc⟩ <;> cases hc
  | resumes k => cases k <;> rcases hc with hc | ⟨_, hc⟩ <;> cases hc
  | result f =>
    dsimp only at hc
    split at hc <;> rcases hc with hc | ⟨_, hc⟩ <;> cases hc
  | _ => rcases hc with hc | ⟨_, hc⟩ <;> cases hc

theorem taskStep_userStep (context : sh.context = .user) (h : userStep sh a = some sh') :
    TaskStep sh a sh' := by
  cases a with
  | register id =>
    obtain ⟨held, h⟩ := Option.ite_none_right_eq_some.mp h
    cases h
    exact .register id context held
  | returns =>
    rw [userStep, Option.some.injEq] at h
    subst h
    split
    · rename_i hframes
      exact .bodyReturns context (List.isEmpty_iff.mp hframes)
    · rename_i hframes
      exact .fnReturns context (mt List.isEmpty_iff.mpr hframes)
  | await | sleep | yield | preempt =>
    obtain ⟨awake, h⟩ := Option.ite_none_left_eq_some.mp h
    cases h
    first
      | exact .await rfl context (Bool.eq_false_iff.mpr awake)
      | exact .sleep rfl context (Bool.eq_false_iff.mpr awake)
      | exact .yield context (Bool.eq_false_iff.mpr awake)
      | exact .preempt rfl context (Bool.eq_false_iff.mpr awake)
  | _ => cases h

/-- What a step of the code of the task is, by whether it switches back. -/
theorem taskStep_cases {out : Bool} (h : taskStep a sh = some (sh', out)) :
    (out = false ∧ (TaskStep sh a sh' ∨ sh.state.sleepTimerLock = true ∧ sh' = sh ∨
        TaskFails sh ∧ sh' = sh.panic)) ∨
      out = true ∧ OutStep sh sh' := by
  unfold taskStep at h
  split at h
  · rename_i context
    obtain ⟨sh₁, hu, h⟩ := Option.map_eq_some_iff.mp h
    cases h
    exact .inl ⟨rfl, .inl (taskStep_userStep context hu)⟩
  · rename_i context
    split at h
    · rename_i locked
      cases h
      exact .inl ⟨rfl, .inr (.inl ⟨locked, rfl⟩)⟩
    · rename_i free
      cases h
      exact .inl ⟨rfl, .inl (.sleepLock context (Bool.eq_false_iff.mpr free))⟩
  · rename_i context
    cases h
    exact .inl ⟨rfl, .inl (.sleepUnlock context)⟩
  · rename_i sleeping context
    split at h
    · rename_i signal
      cases h
      exact .inl ⟨rfl, .inr (.inr ⟨.need sleeping context signal, rfl⟩)⟩
    · rename_i quiet
      cases h
      exact .inl ⟨rfl, .inl (.need sleeping context (Bool.eq_false_iff.mpr quiet))⟩
  · rename_i k context
    split at h
    · cases h
      exact .inr ⟨rfl, .yield k context⟩
    · rename_i scheduler
      cases h
      exact .inl ⟨rfl, .inr (.inr ⟨.yield k context (Bool.eq_false_iff.mpr scheduler), rfl⟩)⟩
  · rename_i k context
    split at h
    · rename_i tracing
      cases h
      exact .inr ⟨rfl, .trace k context tracing⟩
    · rename_i free
      split at h
      · cases h
        have hnext := fun a => TaskStep.resumes (a := a) k context (Bool.eq_false_iff.mpr free)
        cases k <;> exact .inl ⟨rfl, .inl (hnext _)⟩
      · rename_i scheduler
        cases h
        exact .inl ⟨rfl, .inr (.inr ⟨.resumed k context (Bool.eq_false_iff.mpr scheduler), rfl⟩)⟩
  · rename_i context
    split at h
    · cases h
    · rename_i f rest frames
      split at h
      · rename_i invoked
        cases h
        exact .inl ⟨rfl, .inl (.result f rest context frames invoked)⟩
      · rename_i early
        cases h
        exact .inl ⟨rfl, .inr (.inr ⟨.result f rest context frames early, rfl⟩)⟩
  · rename_i context
    split at h
    · rename_i suspended
      cases h
      exact .inl ⟨rfl, .inr (.inr ⟨.exit context suspended, rfl⟩)⟩
    · rename_i running
      cases h
      exact .inr ⟨rfl, .exit context (Bool.eq_false_iff.mpr running)⟩
  · cases h

theorem trans_inside {tracing : Bool} {r : Shared × Bool} (h : taskStep a sh = some r) :
    Trans sh a (.inside tracing) r.1
      (if r.2 then if tracing then .traceTake else .suspendLoad else .inside tracing) := by
  obtain ⟨sh', out⟩ := r
  rcases taskStep_cases h with ⟨rfl, hstep | ⟨locked, rfl⟩ | ⟨hfails, rfl⟩⟩ | ⟨rfl, hstep⟩
  · exact .task tracing hstep
  · exact .wait (.sleepLock tracing locked)
  · exact .panic (.inside tracing hfails)
  · cases tracing with
    | false => exact .out hstep
    | true => exact .traced hstep

theorem trans_handleEvent {state : State} (event : Event sh pc state) :
    Trans sh a pc (handleEvent sh state).1 (handleEvent sh state).2 := by
  unfold handleEvent
  split
  · rename_i ready
    exact .ready event ready
  · rename_i notReady
    split
    · rename_i terminal
      exact .done event terminal
    · rename_i notTerminal
      exact .rests event (Bool.eq_false_iff.mpr notReady) (Bool.eq_false_iff.mpr notTerminal)

theorem trans_begin (h : begin sh a = some (sh', pc')) : Trans sh a .idle sh' pc' := by
  cases a with
  | invoke id =>
    obtain ⟨registered, h⟩ := Option.ite_none_right_eq_some.mp h
    cases h
    exact .invoke id registered
  | tryDump => cases h; exact .tryDump
  | wake => cases h; exact .wake
  | isDone =>
    rw [begin, Option.some.injEq] at h
    cases h
    split
    · rename_i terminal
      exact .isDone rfl terminal
    · exact .wait .notDone
  | callWhenDone handler => cases h; exact .callWhenDone handler
  | _ => cases h

theorem eq_of_exchanges {observed : State} (h : sh.exchanges a observed = true) :
    observed = sh.state := by
  simp only [Shared.exchanges, Bool.and_eq_true, decide_eq_true_eq] at h
  exact h.2.symm

theorem trans_schedule (observed : State) (forcePost : Bool) :
    Trans sh a (.schedule observed forcePost) (casStep a sh (.schedule observed forcePost)).1
      (casStep a sh (.schedule observed forcePost)).2 := by
  delta casStep
  dsimp only
  split
  · rename_i notReady
    exact .givesUp observed forcePost (by simpa using notReady)
  · rename_i ready
    split
    · rename_i same
      obtain rfl := eq_of_exchanges same
      split
      · rename_i self
        exact .activate forcePost (by simpa using ready) self
      · rename_i self
        exact .panic (.schedule forcePost (by simpa using ready) (Bool.eq_false_iff.mpr self))
    · exact .reload (fun o => .schedule o forcePost) observed (.schedule forcePost)

theorem trans_runSpin (observed : State) :
    Trans sh a (.runSpin observed) (casStep a sh (.runSpin observed)).1
      (casStep a sh (.runSpin observed)).2 := by
  delta casStep
  dsimp only
  split
  · exact .reload .runSpin observed .runSpin
  · rename_i free
    split
    · rename_i same
      obtain rfl := eq_of_exchanges same
      exact .relocks (Bool.eq_false_iff.mpr free)
    · exact .reload .runSpin observed .runSpin

theorem trans_suspendCas (observed : State) :
    Trans sh a (.suspendCas observed) (casStep a sh (.suspendCas observed)).1
      (casStep a sh (.suspendCas observed)).2 := by
  delta casStep
  dsimp only
  split
  · rename_i same
    obtain rfl := eq_of_exchanges same
    exact .suspendUnlocks
  · exact .reload .suspendCas observed .suspendCas

theorem trans_traceCas (observed : State) :
    Trans sh a (.traceCas observed) (casStep a sh (.traceCas observed)).1
      (casStep a sh (.traceCas observed)).2 := by
  delta casStep
  dsimp only
  split
  · exact .noTrace observed
  · rename_i traceable
    simp only [Bool.or_eq_true, not_or, Bool.not_eq_true] at traceable
    obtain ⟨⟨⟨running, notReady⟩, notTerminal⟩, free⟩ := traceable
    split
    · rename_i same
      obtain rfl := eq_of_exchanges same
      have suspended : sh.state.suspended = true := by simpa [isRunningState] using running
      have alive : sh.state.terminated = false := by
        simpa [isTerminalState, suspended] using notTerminal
      exact .trace suspended notReady alive free
    · exact .reload .traceCas observed .traceCas

theorem trans_traceClear (observed : State) :
    Trans sh a (.traceClear observed) (casStep a sh (.traceClear observed)).1
      (casStep a sh (.traceClear observed)).2 := by
  delta casStep
  dsimp only
  split
  · rename_i terminal
    exact .panic (.traceClear observed (by simpa [isTerminalState] using terminal))
  · split
    · rename_i same
      obtain rfl := eq_of_exchanges same
      split
      · rename_i ready
        exact .traceReady ready
      · rename_i notReady
        exact .traceRests (Bool.eq_false_iff.mpr notReady)
    · exact .reload .traceClear observed .traceClear

theorem trans_finish :
    Trans sh a .finish (completionStep sh .finish).1 (completionStep sh .finish).2 := by
  delta completionStep
  dsimp only
  split
  · rename_i wrong
    refine .panic (.finish ?_)
    simpa [or_assoc] using wrong
  · rename_i right
    refine .complete ?_
    simp only [Bool.or_eq_true, not_or] at right
    simpa using right.2

theorem trans_whenLock (handler : Nat) :
    Trans sh a (.whenLock handler) (completionStep sh (.whenLock handler)).1
      (completionStep sh (.whenLock handler)).2 := by
  delta completionStep
  dsimp only
  split
  · rename_i locked
    exact .wait (.whenLock handler locked)
  · rename_i free
    dsimp only
    split
    · exact .whenRetry handler (Bool.eq_false_iff.mpr free)
    · rename_i isOpen
      simp only [Bool.or_eq_true, not_or, Bool.not_eq_true] at isOpen
      exact .whenOpen handler (Bool.eq_false_iff.mpr free) isOpen.1 isOpen.2

/-- The thread is in `run_completion_handlers`, or in `call_when_done`. -/
def Pc.isCompletion : Pc → Bool
  | .finish | .completeLock | .completeClose | .completeTake | .completeUnlock _ | .invokeAll _
  | .whenDone _ | .whenLock _ | .whenPush _ | .whenUnlock _ => true
  | _ => false

/-- The next step of the thread is `agentStep`. -/
def Pc.isAgent : Pc → Bool
  | .idle | .inside _ | .schedule _ _ | .runSpin _ | .suspendCas _ | .traceCas _ | .traceClear _ =>
    false
  | _ => true

theorem trans_completionStep (h : pc.isCompletion = true) :
    Trans sh a pc (completionStep sh pc).1 (completionStep sh pc).2 := by
  cases pc with
  | finish => exact trans_finish
  | completeLock =>
    rw [completionStep]
    split
    · rename_i locked
      exact .wait (.completeLock locked)
    · rename_i free
      exact .completeLock (Bool.eq_false_iff.mpr free)
  | completeClose =>
    rw [completionStep]
    split
    · rename_i closed
      exact .panic (.completeClose closed)
    · rename_i notClosed
      exact .completeClose (Bool.eq_false_iff.mpr notClosed)
  | completeTake => exact .completeTake
  | completeUnlock handlers => exact .completeUnlock handlers
  | invokeAll handlers =>
    cases handlers with
    | nil => exact .invokeNone
    | cons handler handlers => exact .invokeNext handler handlers
  | whenDone handler =>
    rw [completionStep]
    split
    · rename_i terminal
      exact .whenDone handler terminal
    · rename_i notTerminal
      exact .whenNotDone handler (Bool.eq_false_iff.mpr notTerminal)
  | whenLock handler => exact trans_whenLock handler
  | whenPush handler => exact .whenPush handler
  | whenUnlock again =>
    cases again with
    | some handler => exact .whenAgain handler
    | none => exact .whenPushed
  | _ => cases h

theorem trans_agentStep (h : pc.isAgent = true) :
    Trans sh a pc (agentStep sh pc).1 (agentStep sh pc).2 := by
  cases pc with
  | ctor => exact trans_handleEvent .ctor
  | emplace id => exact .emplace id
  | haveSignal => exact trans_handleEvent .haveSignal
  | pending =>
    rw [agentStep]
    split
    · rename_i lost
      exact .spins lost
    · rename_i none
      exact .runs (Bool.eq_false_iff.mpr none)
  | runResume =>
    rw [agentStep]
    split
    · rename_i self
      exact .resume self
    · rename_i self
      exact .panic (.runResume (Bool.eq_false_iff.mpr self))
  | suspendLoad =>
    rw [agentStep]
    split
    · rename_i locked
      exact .suspendLocked locked
    · rename_i free
      exact .suspendFree (Bool.eq_false_iff.mpr free)
  | suspendEvent => exact trans_handleEvent .suspended
  | traceResume =>
    rw [agentStep]
    split
    · rename_i self
      exact .traceResume self
    · rename_i self
      exact .panic (.traceResume (Bool.eq_false_iff.mpr self))
  | traceTake =>
    rw [agentStep]
    split
    · rename_i some
      exact .traceTake some
    · rename_i none
      exact .panic (.traceTake (Bool.eq_false_iff.mpr none))
  | wakeLock =>
    rw [agentStep]
    split
    · rename_i locked
      exact .wait (.wakeLock locked)
    · rename_i free
      exact .wakeLock (Bool.eq_false_iff.mpr free)
  | wakeUnlock => exact .wakeUnlock
  | finish | completeLock | completeClose | completeTake | completeUnlock | invokeAll | whenDone
  | whenLock | whenPush | whenUnlock => exact trans_completionStep rfl
  | _ => cases h

/-- Every step is one of `Trans`, and a program that has failed a check takes none. -/
theorem trans_of_step (h : step a sh pc = some (sh', pc')) :
    sh.panicked = false ∧ Trans sh a pc sh' pc' := by
  unfold step at h
  split at h
  · cases h
  · rename_i going
    refine ⟨Bool.eq_false_iff.mpr going, ?_⟩
    split at h
    · exact trans_begin h
    · rename_i tracing
      obtain ⟨r, hr, h⟩ := Option.map_eq_some_iff.mp h
      cases h
      exact trans_inside hr
    all_goals
      obtain ⟨_, h⟩ := Option.ite_none_right_eq_some.mp h
      obtain ⟨rfl, rfl⟩ := Prod.mk.inj (Option.some.inj h).symm
    · exact trans_schedule _ _
    · exact trans_runSpin _
    · exact trans_suspendCas _
    · exact trans_traceCas _
    · exact trans_traceClear _
    · refine trans_agentStep ?_
      cases pc <;> first | rfl | simp_all

end

end Batt.Task
