/-
  `call_when_done` delivers each handler once.

  A handler that was passed to `call_when_done` is with its caller, in the list of the task, with the
  thread that has taken the list, or invoked: every step moves it from one of these places to the
  next, so the calls are a permutation of the invocations and of what still waits. The spin lock
  orders the pushes against the closing of the list. Whoever has read the list as open while it took
  the lock still owns the lock when it pushes, and the list is taken behind the closing.

  Once the task is terminal each step at a handler, other than at a lock that is held, lowers a
  measure. So under a fair schedule every handler is invoked.

  What ends a task is `handle_event(kSuspended)`. A signal that reaches the task later would enter
  `run_completion_handlers` once more; `signalsAlive` leaves it out of the runs.
-/
import Batt.Task.Done

namespace Batt.Task

open Interleave

/-! ## The history of a run -/

inductive Delivery where
  | called (handler : Nat)
  | invoked (handler : Nat)
  deriving DecidableEq, Repr

/-- What a step of a thread at `pc` adds to the history. -/
def Pc.delivers (state : State) (a : Act) : Pc → List Delivery
  | .idle =>
    match a with
    | .callWhenDone handler => [.called handler]
    | _ => []
  | .whenDone handler => if isTerminalState state then [.invoked handler] else []
  | .invokeAll (handler :: _) => [.invoked handler]
  | _ => []

def delivers (c : Conf Shared Pc) (i : Nat) (a : Act) : List Delivery :=
  match c.locals[i]? with
  | some pc => pc.delivers c.shared.state a
  | none => []

def called (log : List Delivery) : List Nat :=
  log.filterMap fun | .called handler => some handler | .invoked _ => none

def invoked (log : List Delivery) : List Nat :=
  log.filterMap fun | .called _ => none | .invoked handler => some handler

/-- The calls and the invocations of a run. -/
def history (n : Nat) (sched : List (Nat × Act)) : List Delivery :=
  machine.log delivers sched (initial n)

/-- The handlers that a thread has in its hands. -/
def Pc.handlers : Pc → List Nat
  | .whenDone handler | .whenLock handler | .whenPush handler | .whenUnlock (some handler) =>
    [handler]
  | .completeUnlock handlers | .invokeAll handlers => handlers
  | _ => []

/-- The handlers that are still to be invoked. -/
def awaiting (c : Conf Shared Pc) : List Nat :=
  c.shared.completionHandlers ++ c.locals.flatMap Pc.handlers

/-- A signal does not reach a task that has ended. -/
def signalsAlive (c : Conf Shared Pc) (i : Nat) (_ : Act) : Bool :=
  match c.locals[i]? with
  | some .haveSignal => !isTerminalState c.shared.state
  | _ => true

/-- Behind the last call of `call_when_done`. -/
def lastCalled (c : Conf Shared Pc) (i : Nat) (a : Act) : Bool :=
  signalsAlive c i a &&
    match a with
    | .callWhenDone _ => false
    | _ => true

def Pc.isBusy (pc : Pc) : Bool := pc ≠ .idle

/-- What holds where a run has led to. -/
structure DeliversOnce (n : Nat) (sched : List (Nat × Act)) (c : Conf Shared Pc) : Prop where
  /-- No handler is invoked twice, and none is lost. -/
  once : (called (history n sched)).Perm (invoked (history n sched) ++ awaiting c)
  terminal : ∀ i a handler, .invoked handler ∈ delivers c i a →
    isTerminalState c.shared.state = true
  /-- Who is about to push finds the list open, and a list that was closed is taken at once. -/
  pushes : ∀ handler, .whenPush handler ∈ c.locals →
    c.shared.state.completionHandlersClosed = false
  taken : c.shared.state.completionHandlersClosed = true →
    .completeTake ∈ c.locals ∨ c.shared.completionHandlers = []
  check : .completeClose ∈ c.locals → c.shared.state.completionHandlersClosed = false
  /-- When the task has ended, every call comes to its invocation. -/
  ends : isTerminalState c.shared.state = true → ∀ σ s, σ 0 = c →
    machine.Endless lastCalled σ s → Fair Pc.isBusy σ s →
    ∃ m, (invoked (history n (sched ++ (List.range m).map s))).Perm (called (history n sched))

/-! ## The end of the task -/

structure Ended (c : Conf Shared Pc) : Prop extends Base c, Finishing c, Locked c where
  taken : c.shared.state.completionHandlersClosed = true →
    .completeTake ∈ c.locals ∨ c.shared.completionHandlers = []

section

variable {c : Conf Shared Pc} {i : Nat} {pc pc' : Pc} {sh sh' : Shared} {a : Act}

theorem event_alive {state : State} (hb : Base c) (hi : c.locals[i]? = some pc)
    (hp : signalsAlive c i a = true) (h : Event c.shared pc state) :
    isTerminalState c.shared.state = false := by
  have hpc := List.mem_of_getElem? hi
  cases h with
  | ctor | suspended => exact not_terminal_of_running (hb.running hpc rfl)
  | haveSignal =>
    rw [signalsAlive, hi] at hp
    simpa using hp

/-- Where a step does not end the drain, a thread that is about to take the list stays there. -/
theorem stays_taking (hi : c.locals[i]? = some pc) (hne : pc ≠ .completeTake)
    (hmem : .completeTake ∈ c.locals) : .completeTake ∈ c.locals.set i pc' := by
  obtain ⟨j, hj⟩ := List.mem_iff_getElem?.mp hmem
  have hij : i ≠ j := by
    rintro rfl
    rw [hi] at hj
    exact hne (Option.some.inj hj)
  exact List.mem_of_getElem? ((List.getElem?_set_ne hij).trans hj)

theorem taskStep_list (h : TaskStep sh a sh') :
    sh'.completionHandlers = sh.completionHandlers := by
  cases h <;> rfl

theorem outStep_list (h : OutStep sh sh') : sh'.completionHandlers = sh.completionHandlers := by
  cases h <;> rfl

theorem drained_trans (he : Ended c) (hi : c.locals[i]? = some pc) (h : Trans c.shared a pc sh' pc')
    (hclosed : sh'.state.completionHandlersClosed = true) :
    .completeTake ∈ c.locals.set i pc' ∨ sh'.completionHandlers = [] := by
  have hpc := List.mem_of_getElem? hi
  have hkeeps : pc ≠ .completeTake → c.shared.state.completionHandlersClosed = true →
      .completeTake ∈ c.locals.set i pc' ∨ c.shared.completionHandlers = [] :=
    fun hne hc => (he.taken hc).imp_left (stays_taking hi hne)
  cases h with
  | panic fails => exact hkeeps (by rintro rfl; cases fails) hclosed
  | wait waits => exact hkeeps (by rintro rfl; cases waits) hclosed
  | reload loop observed isLoop => exact hkeeps (by cases isLoop <;> nofun) hclosed
  | task tracing step =>
    rw [taskStep_list step]
    exact hkeeps nofun ((taskStep_completions step).2.2.1 ▸ hclosed)
  | out step | traced step =>
    rw [outStep_list step]
    exact hkeeps nofun ((outStep_completions step).2.2.1 ▸ hclosed)
  | ready event | done event | rests event =>
    exact hkeeps (by cases event <;> nofun) ((event_completions event).1 ▸ hclosed)
  | whenPush handler =>
    rw [he.pushed _ hpc rfl] at hclosed
    cases hclosed
  | completeClose => exact .inl (List.mem_set (List.getElem?_eq_some_iff.mp hi).1 _)
  | completeTake => exact .inr rfl
  | _ => exact hkeeps nofun hclosed

theorem ended_trans (he : Ended c) (hi : c.locals[i]? = some pc)
    (h : Trans c.shared a pc sh' pc') (hp : signalsAlive c i a = true) :
    Ended ⟨sh', c.locals.set i pc'⟩ :=
  ⟨base_trans he.toBase hi h,
    finishing_trans he.toFinishing he.toBase hi h fun _ => event_alive he.toBase hi hp,
    locked_trans he.toLocked hi h, drained_trans he hi h⟩

end

theorem ended_initial (n : Nat) : Ended (initial n) :=
  ⟨base_initial n, finishing_initial n, locked_initial n, fun _ => .inr rfl⟩

/-! ## No handler is lost -/

section

variable {c : Conf Shared Pc} {i : Nat} {pc pc' : Pc} {sh sh' : Shared} {a : Act}

theorem begin_conserves (h : begin sh a = some (sh', pc')) :
    sh'.completionHandlers = sh.completionHandlers ∧
      pc'.handlers = called (Pc.idle.delivers sh.state a) ∧
      invoked (Pc.idle.delivers sh.state a) = [] := by
  cases a with
  | invoke id =>
    obtain ⟨_, h⟩ := Option.ite_none_right_eq_some.mp h
    cases h
    exact ⟨rfl, rfl, rfl⟩
  | isDone =>
    rw [begin, Option.some.injEq] at h
    cases h
    exact ⟨by split <;> rfl, rfl, rfl⟩
  | tryDump | wake | callWhenDone => cases h; exact ⟨rfl, rfl, rfl⟩
  | _ => cases h

theorem called_busy (hne : pc ≠ .idle) (state : State) : called (pc.delivers state a) = [] := by
  unfold Pc.delivers
  split
  · exact absurd rfl hne
  · split <;> rfl
  · rfl
  · rfl

/-- A thread that is not idle passes its handlers on: to the list, out of it, or to be invoked. -/
theorem trans_conserves (h : Trans sh a pc sh' pc') (hne : pc ≠ .idle) (x : Nat) :
    sh'.completionHandlers.count x + pc'.handlers.count x +
        (invoked (pc.delivers sh.state a)).count x =
      sh.completionHandlers.count x + pc.handlers.count x := by
  cases h with
  | panic fails => cases fails <;> rfl
  | wait waits =>
    cases waits with
    | notDone => exact absurd rfl hne
    | _ => rfl
  | reload loop observed isLoop => cases isLoop <;> rfl
  | task tracing step => rw [taskStep_list step]; rfl
  | out step | traced step => rw [outStep_list step]; rfl
  | ready event | done event | rests event => cases event <;> rfl
  | whenDone handler terminal => rw [Pc.delivers, if_pos terminal]; rfl
  | whenNotDone handler notTerminal =>
    rw [Pc.delivers, if_neg (Bool.eq_false_iff.mp notTerminal)]
    rfl
  | whenPush handler => exact List.count_append
  | completeTake => exact congrArg (· + 0) (Nat.zero_add _)
  | invokeNext handler handlers =>
    show sh.completionHandlers.count x + handlers.count x + List.count x [handler] =
      _ + List.count x ([handler] ++ handlers)
    rw [List.count_append]
    omega
  | invoke | tryDump | wake | isDone | callWhenDone => exact absurd rfl hne
  | _ => rfl

end

/-- What a run has called, it has invoked or has still to invoke. -/
def Conserved (log : List Delivery) (c : Conf Shared Pc) : Prop :=
  ∀ x, (called log).count x = (invoked log).count x + c.shared.completionHandlers.count x +
    total (fun pc => pc.handlers.count x) c.locals

theorem called_append (past log : List Delivery) :
    called (past ++ log) = called past ++ called log := List.filterMap_append

theorem invoked_append (past log : List Delivery) :
    invoked (past ++ log) = invoked past ++ invoked log := List.filterMap_append

theorem conserved_step {log : List Delivery} {c c' : Conf Shared Pc} {i : Nat} {a : Act}
    (h : Conserved log c) (hf : machine.fire i a c = some c') :
    Conserved (log ++ delivers c i a) c' := by
  obtain ⟨pc, sh', pc', hi, hs, ht, hp, rfl⟩ := fire_trans hf
  intro x
  have hset := total_set (fun pc => pc.handlers.count x) pc' hi
  have hold := h x
  have hdelivers : delivers c i a = pc.delivers c.shared.state a := by rw [delivers, hi]
  rw [hdelivers, called_append, invoked_append, List.count_append, List.count_append]
  dsimp only at hset ⊢
  by_cases hidle : pc = .idle
  · subst hidle
    rw [step, hp] at hs
    obtain ⟨hlist, hhandlers, hnone⟩ := begin_conserves hs
    have hempty : List.count x Pc.idle.handlers = 0 := rfl
    rw [hlist, hnone, ← hhandlers, List.count_nil]
    omega
  · have hmove := trans_conserves ht hidle x
    rw [called_busy hidle, List.count_nil]
    omega

theorem conserved_initial (n : Nat) : Conserved [] (initial n) := by
  intro x
  have hzero : total (fun pc => pc.handlers.count x) (initial n).locals = 0 := by
    refine total_eq_zero.mpr fun pc hpc => ?_
    rcases mem_initial hpc with rfl | rfl <;> rfl
  rw [hzero]
  rfl

theorem Conserved.perm {log : List Delivery} {c : Conf Shared Pc} (h : Conserved log c) :
    (called log).Perm (invoked log ++ awaiting c) := by
  refine List.perm_iff_count.mpr fun x => ?_
  have hlocals : (c.locals.flatMap Pc.handlers).count x =
      total (fun pc => pc.handlers.count x) c.locals := List.count_flatMap
  rw [h x, awaiting, List.count_append, List.count_append, hlocals, Nat.add_assoc]

/-! ## Every handler comes to its end -/

/-- What a thread has still to do about handlers when the task has ended. -/
def Pc.work : Pc → Nat
  | .finish => 6
  | .completeLock => 5
  | .completeClose => 4
  | .completeTake => 3
  | .completeUnlock handlers => handlers.length + 2
  | .invokeAll handlers => handlers.length + 1
  | .whenLock _ => 4
  | .whenPush _ => 3
  | .whenUnlock (some _) => 2
  | .whenUnlock none | .whenDone _ => 1
  | _ => 0

def work (c : Conf Shared Pc) : Nat := total Pc.work c.locals + c.shared.completionHandlers.length

/-- The thread has something to do about handlers, and does not wait for the lock. -/
def Pc.helps (locked : Bool) : Pc → Bool
  | .completeLock | .whenLock _ => !locked
  | pc => 0 < pc.work

section

variable {c : Conf Shared Pc} {i : Nat} {pc pc' : Pc} {sh sh' : Shared} {a : Act}

theorem not_fails_ended (he : Ended c) (hpc : pc ∈ c.locals)
    (hterm : isTerminalState c.shared.state = true) (hfails : Fails c.shared pc) : pc.work = 0 := by
  cases hfails with
  | finish wrong =>
    obtain ⟨hself, hscheduler⟩ := he.contexts_of_terminal hterm
    rw [hself, hscheduler, hterm] at wrong
    rcases wrong with h | h | h <;> cases h
  | completeClose closed =>
    rw [open_of_closing he.toFinishing hpc] at closed
    cases closed
  | _ => rfl

/-- In a terminal task a step lowers the work, or the thread has none, or it waits for the lock. -/
theorem trans_work (he : Ended c) (hi : c.locals[i]? = some pc) (h : Trans c.shared a pc sh' pc')
    (hp : signalsAlive c i a = true) (hterm : isTerminalState c.shared.state = true)
    (hcall : pc = .idle → pc'.work = 0) :
    pc'.work + sh'.completionHandlers.length < pc.work + c.shared.completionHandlers.length ∨
      pc'.work = pc.work ∧ sh'.completionHandlers = c.shared.completionHandlers ∧
        sh'.state.completionHandlersLock = c.shared.state.completionHandlersLock ∧
        pc.helps c.shared.state.completionHandlersLock = false := by
  have hpc := List.mem_of_getElem? hi
  cases h with
  | panic fails =>
    have hzero := not_fails_ended he hpc hterm fails
    refine .inr ⟨rfl, rfl, rfl, ?_⟩
    cases fails <;> first | rfl | cases hzero
  | wait waits =>
    refine .inr ⟨rfl, rfl, rfl, ?_⟩
    cases waits with
    | completeLock locked | whenLock handler locked => rw [locked]; rfl
    | _ => rfl
  | reload loop observed isLoop => cases isLoop <;> exact .inr ⟨rfl, rfl, rfl, rfl⟩
  | task tracing step =>
    exact .inr ⟨rfl, taskStep_list step, (taskStep_completions step).2.2.2, rfl⟩
  | out step | traced step =>
    exact .inr ⟨rfl, outStep_list step, (outStep_completions step).2.2.2, rfl⟩
  | ready event | done event | rests event =>
    rw [event_alive he.toBase hi hp event] at hterm
    cases hterm
  | whenNotDone handler notTerminal | whenOpen handler free notTerminal =>
    rw [notTerminal] at hterm
    cases hterm
  | callWhenDone handler => cases hcall rfl
  | whenPush handler =>
    refine .inl ?_
    show 1 + (c.shared.completionHandlers ++ [handler]).length < 3 + _
    rw [List.length_append, List.length_singleton]
    omega
  | completeTake =>
    refine .inl ?_
    show c.shared.completionHandlers.length + 2 + 0 < 3 + _
    omega
  | invokeNext handler handlers => exact .inl (Nat.add_lt_add_right (Nat.lt_succ_self _) _)
  | whenDone | whenRetry | whenAgain | whenPushed | complete | completeLock | completeClose
  | completeUnlock | invokeNone =>
    refine .inl (Nat.add_lt_add_right ?_ _)
    simp [Pc.work]
  | _ => exact .inr ⟨rfl, rfl, rfl, rfl⟩

/-- A task that has ended stays so. -/
theorem terminal_trans (h : Trans sh a pc sh' pc') (hterm : isTerminalState sh.state = true) :
    isTerminalState sh'.state = true := by
  obtain ⟨hsus, hdead⟩ := terminal_iff.mp hterm
  cases h with
  | task tracing step =>
    obtain ⟨hs, ht, _⟩ := taskStep_keeps step
    exact terminal_iff.mpr ⟨hs.trans hsus, ht.trans hdead⟩
  | out step | traced step =>
    refine terminal_iff.mpr ⟨(outStep_keeps step).1.trans hsus, ?_⟩
    cases step with
    | exit => rfl
    | _ => exact hdead
  | ready event | done event | rests event =>
    refine terminal_iff.mpr ⟨?_, (event_state event).1.trans hdead⟩
    cases event with
    | haveSignal => exact hsus
    | _ => rfl
  | activate forcePost ready =>
    rw [(ready_iff.mp ready).2.1] at hdead
    cases hdead
  | traceReady | traceRests => exact terminal_iff.mpr ⟨rfl, hdead⟩
  | _ => exact hterm

theorem begin_work (h : begin sh a = some (sh', pc')) (hcall : ∀ handler, a ≠ .callWhenDone handler) :
    pc'.work = 0 := by
  cases a with
  | invoke id =>
    obtain ⟨_, h⟩ := Option.ite_none_right_eq_some.mp h
    cases h
    rfl
  | callWhenDone handler => exact absurd rfl (hcall handler)
  | isDone | tryDump | wake => cases h; rfl
  | _ => cases h

end

/-- Thread `i` has something to do about handlers, and does not wait for the lock. -/
def helps (c : Conf Shared Pc) (i : Nat) : Prop :=
  ∃ pc, c.locals[i]? = some pc ∧ pc.helps c.shared.state.completionHandlersLock = true

theorem isBusy_of_helps {c : Conf Shared Pc} {i : Nat} (h : helps c i) :
    ∃ pc, c.locals[i]? = some pc ∧ pc.isBusy = true := by
  obtain ⟨pc, hi, hhelps⟩ := h
  refine ⟨pc, hi, ?_⟩
  cases pc <;> first | rfl | cases hhelps

section

variable {c c' : Conf Shared Pc} {i : Nat} {a : Act}

theorem ended_step (he : Ended c) (hp : signalsAlive c i a = true)
    (hf : machine.fire i a c = some c') : Ended c' := by
  obtain ⟨pc, sh', pc', hi, _, ht, _, rfl⟩ := fire_trans hf
  exact ended_trans he hi ht hp

theorem lastCalled_act (hp : lastCalled c i a = true) (handler : Nat) : a ≠ .callWhenDone handler := by
  rintro rfl
  rw [lastCalled, Bool.and_false] at hp
  cases hp

theorem called_lastCalled (hp : lastCalled c i a = true) : called (delivers c i a) = [] := by
  unfold delivers
  split
  · rename_i pc hi
    by_cases hidle : pc = .idle
    · subst hidle
      cases a with
      | callWhenDone handler => exact absurd rfl (lastCalled_act hp handler)
      | _ => rfl
    · exact called_busy hidle _
  · rfl

theorem work_step (he : Ended c) (hterm : isTerminalState c.shared.state = true)
    (hp : lastCalled c i a = true) (hf : machine.fire i a c = some c') :
    work c' < work c ∨ work c' ≤ work c ∧ ¬ helps c i ∧ ∀ j, helps c j → helps c' j := by
  obtain ⟨pc, sh', pc', hi, hs, ht, hgoing, rfl⟩ := fire_trans hf
  have hset := total_set Pc.work pc' hi
  have hcall : pc = .idle → pc'.work = 0 := by
    rintro rfl
    rw [step, hgoing] at hs
    exact begin_work hs (lastCalled_act hp)
  rcases trans_work he hi ht (Bool.and_eq_true _ _ ▸ hp).1 hterm hcall with
    hlow | ⟨hwork, hlist, hlock, hnot⟩
  · left
    unfold work
    dsimp only
    omega
  · right
    have hself : ¬ helps c i := by
      rintro ⟨k, hk, hhelps⟩
      rw [hi, Option.some.injEq] at hk
      rw [← hk, hnot] at hhelps
      cases hhelps
    refine ⟨?_, hself, ?_⟩
    · unfold work
      dsimp only
      rw [hlist]
      omega
    · rintro j ⟨k, hk, hhelps⟩
      have hij : i ≠ j := by
        rintro rfl
        exact hself ⟨k, hk, hhelps⟩
      exact ⟨k, (List.getElem?_set_ne hij).trans hk, hlock.symm ▸ hhelps⟩

/-- A handler that waits has a thread that will do something about it. -/
theorem exists_work (he : Ended c) (hterm : isTerminalState c.shared.state = true)
    (hwaits : awaiting c ≠ []) : ∃ pc ∈ c.locals, 0 < pc.work := by
  by_cases hlist : c.shared.completionHandlers = []
  · rw [awaiting, hlist, List.nil_append] at hwaits
    obtain ⟨x, hx⟩ := List.exists_mem_of_ne_nil _ hwaits
    obtain ⟨pc, hpc, hmem⟩ := List.mem_flatMap.mp hx
    refine ⟨pc, hpc, ?_⟩
    cases pc with
    | whenUnlock again => cases again <;> exact Nat.succ_pos _
    | whenDone | whenLock | whenPush | completeUnlock | invokeAll => exact Nat.succ_pos _
    | _ => cases hmem
  · cases hc : c.shared.state.completionHandlersClosed with
    | true => exact ⟨_, (he.taken hc).resolve_right hlist, Nat.succ_pos _⟩
    | false =>
      -- the thread that has ended the task is before the closing of the list
      have hfinisher := he.finisher
      have hclosing := he.closing
      rw [hterm, Bool.toNat_true] at hfinisher
      rw [hc, Bool.toNat_false] at hclosing
      have hpos : 0 < total (fun pc => ind Pc.finishes pc + ind Pc.closes pc) c.locals := by
        rw [total_add]
        omega
      obtain ⟨pc, hpc, hone⟩ := exists_of_total_pos hpos
      refine ⟨pc, hpc, ?_⟩
      cases pc with
      | finish | completeLock | completeClose => exact Nat.succ_pos _
      | _ => cases hone

theorem exists_helps (he : Ended c) (hterm : isTerminalState c.shared.state = true)
    (hwaits : awaiting c ≠ []) : ∃ i, helps c i := by
  have hmem : ∃ pc ∈ c.locals, pc.helps c.shared.state.completionHandlersLock = true := by
    cases hlock : c.shared.state.completionHandlersLock with
    | false =>
      obtain ⟨pc, hpc, hwork⟩ := exists_work he hterm hwaits
      refine ⟨pc, hpc, ?_⟩
      cases pc with
      | completeLock | whenLock => rfl
      | _ => exact decide_eq_true hwork
    | true =>
      -- whoever owns the lock goes on
      have howner := he.lock
      rw [hlock, Bool.toNat_true] at howner
      obtain ⟨pc, hpc, hlocks⟩ := exists_of_total_pos (howner ▸ Nat.one_pos)
      refine ⟨pc, hpc, ?_⟩
      cases pc with
      | completeClose | completeTake | completeUnlock | whenPush => rfl
      | whenUnlock again => cases again <;> rfl
      | _ => cases hlocks
  obtain ⟨pc, hpc, hhelps⟩ := hmem
  obtain ⟨i, hi⟩ := List.mem_iff_getElem?.mp hpc
  exact ⟨i, pc, hi, hhelps⟩

/-- What is invoked is invoked in a terminal state. -/
theorem terminal_of_delivers (he : Ended c) {handler : Nat}
    (h : .invoked handler ∈ delivers c i a) : isTerminalState c.shared.state = true := by
  unfold delivers at h
  split at h
  · rename_i pc hi
    unfold Pc.delivers at h
    split at h
    · split at h
      · cases List.mem_singleton.mp h
      · cases h
    · split at h
      · assumption
      · cases h
    · rename_i handler' handlers
      -- the thread has entered `run_completion_handlers`
      have hpos := le_total (ind Pc.completes) (List.mem_of_getElem? hi)
      rw [ind_true rfl] at hpos
      have hcompleting := he.completing
      have hfinisher := he.finisher
      cases hterm : isTerminalState c.shared.state with
      | true => rfl
      | false =>
        rw [hterm, Bool.toNat_false] at hfinisher
        omega
    · cases h
  · cases h

end

/-- **Every handler is invoked once, after the end of the task**, in every run in which no signal
    reaches a task that has ended: whoever calls `call_when_done`, and however its steps lie among
    those that end the task. -/
theorem handlers_delivered_once {n : Nat} {sched : List (Nat × Act)} {c : Conf Shared Pc}
    (h : machine.runWhere signalsAlive sched (initial n) = some c) : DeliversOnce n sched c := by
  have he : Ended c :=
    machine.invariant_runWhere (fun _ _ _ _ he hp hf => ended_step he hp hf) (ended_initial n)
      ⟨sched, h⟩
  have hconserved : Conserved (history n sched) c :=
    machine.logged_runWhere (fun _ _ _ _ _ hc _ hf => conserved_step hc hf) (conserved_initial n) h
  refine ⟨hconserved.perm, fun _ _ _ => terminal_of_delivers he, fun _ hpc => he.pushed _ hpc rfl,
    he.taken, open_of_closing he.toFinishing, ?_⟩
  rintro hterm σ s rfl hendless hfair
  have hends : ∀ c, machine.ReachableWhere lastCalled (σ 0) c →
      Ended c ∧ isTerminalState c.shared.state = true := by
    refine fun c hc => machine.invariant_runWhere
      (I := fun c => Ended c ∧ isTerminalState c.shared.state = true) ?_ ⟨he, hterm⟩ hc
    rintro c i a c' ⟨he, ht⟩ hp hf
    refine ⟨ended_step he (Bool.and_eq_true _ _ ▸ hp).1 hf, ?_⟩
    obtain ⟨pc, sh', pc', _, _, htrans, _, rfl⟩ := fire_trans hf
    exact terminal_trans htrans ht
  obtain ⟨m, hm⟩ := hendless.ends_of_fair hfair (fun c => awaiting c ≠ []) helps work
    (fun c i a c' hc hp hf => work_step (hends c hc).1 (hends c hc).2 hp hf)
    (fun c hc => exists_helps (hends c hc).1 (hends c hc).2) fun _ _ => isBusy_of_helps
  have hrest := hendless.run m
  refine ⟨m, ?_⟩
  obtain ⟨hlater, hcalled⟩ := machine.logged_runWhere
    (I := fun log c => Conserved log c ∧ called log = called (history n sched))
    (fun log c i a c' hc hp hf => ⟨conserved_step hc.1 hf, by
      rw [called_append, called_lastCalled hp, List.append_nil, hc.2]⟩)
    ⟨hconserved, rfl⟩ hrest
  have hperm := hlater.perm
  rw [not_not.mp hm, List.append_nil, hcalled] at hperm
  rw [history, machine.log_append delivers _ (machine.run_of_runWhere h)]
  exact hperm.symm

/-- One handler is in the list when the task ends; the caller of the other one has seen the task
    alive, and gets the lock behind the closing of the list. -/
def raceRun : List (Nat × Act) :=
  List.replicate 4 (0, Act.run) ++ (1, Act.callWhenDone 7) :: List.replicate 4 (1, Act.run) ++
    (2, Act.callWhenDone 8) :: (2, Act.run) :: (0, Act.returns) :: List.replicate 8 (0, Act.run) ++
    List.replicate 3 (2, Act.run) ++ [(0, Act.run)]

theorem handlers_delivered_once_raceRun :
    ∃ c, machine.runWhere signalsAlive raceRun (initial 2) = some c ∧
      called (history 2 raceRun) = [7, 8] ∧ invoked (history 2 raceRun) = [8, 7] ∧
      DeliversOnce 2 raceRun c :=
  ⟨_, rfl, rfl, rfl, handlers_delivered_once rfl⟩

end Batt.Task
