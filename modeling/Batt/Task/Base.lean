/-
  Who may run the code of the task.

  The task is suspended, or exactly one thread has its run: the constructor, or the activation from
  the compare-exchange that created it until it has set kSuspended again (`Pc.holds`). kStackTrace is
  set exactly while one thread takes a stack trace (`Pc.traces`), and only on a suspended task. So
  two threads are never in the context of the task, and `self_` and `scheduler_` are there when the
  code looks for them. All of it holds in every run, whatever the code of the task does.
-/
import Batt.Task.Steps

namespace Batt.Task

open Interleave

/-! ## Phases -/

def Pc.holds : Pc → Bool
  | .ctor | .pending | .runSpin _ | .runResume | .inside false | .suspendLoad | .suspendCas _
  | .suspendEvent => true
  | _ => false

def Pc.traces : Pc → Bool
  | .traceResume | .inside true | .traceTake | .traceClear _ => true
  | _ => false

def Pc.isInside : Pc → Bool
  | .inside _ => true
  | _ => false

/-- An activation before the code of the task, and after it. -/
def Pc.enters : Pc → Bool
  | .pending | .runSpin _ | .runResume => true
  | _ => false

def Pc.leaves : Pc → Bool
  | .suspendLoad | .suspendCas _ | .suspendEvent => true
  | _ => false

/-- The code of the task is running. -/
def Context.isIn : Context → Bool
  | .start | .suspended _ | .exited => false
  | _ => true

/-- It can be resumed. -/
def Context.isOut : Context → Bool
  | .start | .suspended _ => true
  | _ => false

theorem Context.ne_of_isIn {ctx : Context} (h : ctx.isIn = true) : ctx ≠ .start ∧ ctx ≠ .exited := by
  constructor <;> rintro rfl <;> cases h

/-! ## What a step does to a phase -/

section

variable {sh sh' : Shared} {pc pc' : Pc} {state : State} {a : Act}

theorem ready_iff : isReadyState state = true ↔
    state.suspended = true ∧ state.terminated = false ∧ state.needSignal = state.haveSignal ∧
      state.stackTrace = false := by
  unfold isReadyState
  cases state.needSignal <;> cases state.haveSignal <;> simp [and_assoc]

theorem terminal_iff : isTerminalState state = true ↔
    state.suspended = true ∧ state.terminated = true := by
  rw [isTerminalState, Bool.and_eq_true]

/-- The bits of the state word that the code of the task leaves alone while it goes on. -/
theorem taskStep_keeps (h : TaskStep sh a sh') :
    sh'.state.suspended = sh.state.suspended ∧ sh'.state.terminated = sh.state.terminated ∧
      sh'.state.stackTrace = sh.state.stackTrace ∧ sh'.state.haveSignal = sh.state.haveSignal := by
  cases h <;> exact ⟨rfl, rfl, rfl, rfl⟩

theorem taskStep_isIn (h : TaskStep sh a sh') :
    sh.context.isIn = true ∧ sh'.context.isIn = true ∧ sh'.context.isOut = false := by
  cases h with
  | register id context held =>
    refine ⟨by rw [context]; rfl, ?_, ?_⟩
    · show sh.context.isIn = true
      rw [context]; rfl
    · show sh.context.isOut = false
      rw [context]; rfl
  | resumes k context free => cases k <;> exact ⟨by rw [context]; rfl, rfl, rfl⟩
  | result f rest context frames invoked =>
    refine ⟨by rw [context]; rfl, ?_⟩
    dsimp only
    split <;> exact ⟨rfl, rfl⟩
  | fnReturns context | bodyReturns context | await act context | sleep act context | yield context
  | preempt act context | sleepLock context | sleepUnlock context | need sleeping context =>
    exact ⟨by rw [context]; rfl, rfl, rfl⟩

theorem taskStep_contexts (h : TaskStep sh a sh') :
    sh'.self = sh.self ∧ sh'.scheduler = sh.scheduler := by
  cases h <;> exact ⟨rfl, rfl⟩

theorem outStep_keeps (h : OutStep sh sh') :
    sh'.state.suspended = sh.state.suspended ∧ sh'.state.stackTrace = sh.state.stackTrace ∧
      sh'.state.needSignal = sh.state.needSignal ∧ sh'.state.haveSignal = sh.state.haveSignal := by
  cases h <;> exact ⟨rfl, rfl, rfl, rfl⟩

theorem outStep_isIn (h : OutStep sh sh') :
    sh.context.isIn = true ∧ sh'.context.isIn = false ∧ sh'.context ≠ .start := by
  cases h with
  | yield k context | trace k context | exit context => exact ⟨by rw [context]; rfl, rfl, nofun⟩

theorem outStep_contexts (h : OutStep sh sh') :
    sh'.self = sh'.context.isOut ∧ sh'.scheduler = sh'.context.isIn := by
  cases h <;> exact ⟨rfl, rfl⟩

theorem event_state (h : Event sh pc state) :
    state.terminated = sh.state.terminated ∧ state.stackTrace = sh.state.stackTrace ∧
      state.needSignal = sh.state.needSignal := by
  cases h <;> exact ⟨rfl, rfl, rfl⟩

/-- Setting kSuspended ends a hold, and nothing else does. -/
theorem event_holds (h : Event sh pc state) (hrun : pc.holds = true → sh.state.suspended = false) :
    state.suspended.toNat = ind Pc.holds pc + sh.state.suspended.toNat := by
  cases h with
  | ctor | suspended => rw [hrun rfl]; rfl
  | haveSignal => exact (Nat.zero_add _).symm

theorem event_quiet (h : Event sh pc state) : pc.traces = false ∧ pc.isInside = false := by
  cases h <;> exact ⟨rfl, rfl⟩

theorem trans_holds (h : Trans sh a pc sh' pc') (hrun : pc.holds = true → sh.state.suspended = false)
    (htrace : pc.traces = true → sh.state.suspended = true) :
    ind Pc.holds pc' + sh'.state.suspended.toNat =
      ind Pc.holds pc + sh.state.suspended.toNat := by
  cases h with
  | reload loop observed isLoop => cases isLoop <;> rfl
  | task tracing step => rw [(taskStep_keeps step).1]
  | out step | traced step => rw [(outStep_keeps step).1]; rfl
  | ready event | done event | rests event =>
    rw [← event_holds event hrun]
    exact Nat.zero_add _
  | activate forcePost ready => rw [(ready_iff.mp ready).1]; rfl
  | traceReady | traceRests => rw [htrace rfl]; rfl
  | _ => rfl

theorem trans_traces (h : Trans sh a pc sh' pc')
    (htrace : pc.traces = true → sh.state.stackTrace = true) :
    ind Pc.traces pc' + sh.state.stackTrace.toNat =
      ind Pc.traces pc + sh'.state.stackTrace.toNat := by
  cases h with
  | reload loop observed isLoop => cases isLoop <;> rfl
  | task tracing step => rw [(taskStep_keeps step).2.2.1]
  | out step | traced step => rw [(outStep_keeps step).2.1]; rfl
  | ready event | done event | rests event =>
    rw [ind_false (event_quiet event).1]
    rw [(event_state event).2.1]
    rfl
  | trace suspended notReady alive free => rw [free]; rfl
  | traceReady | traceRests => rw [htrace rfl]; rfl
  | _ => rfl

theorem switchIn_context (hself : sh.context.isOut = true) :
    sh.context.isIn = false ∧ sh.switchIn.context.isIn = true ∧
      sh.switchIn.context.isOut = false := by
  unfold Shared.switchIn
  cases hc : sh.context with
  | start | suspended => exact ⟨rfl, rfl, rfl⟩
  | _ => rw [hc] at hself; cases hself

theorem trans_isInside (h : Trans sh a pc sh' pc') (hself : sh.self = sh.context.isOut) :
    ind Pc.isInside pc' + sh.context.isIn.toNat =
      ind Pc.isInside pc + sh'.context.isIn.toNat := by
  cases h with
  | reload loop observed isLoop => cases isLoop <;> rfl
  | task tracing step =>
    obtain ⟨hbefore, hafter, _⟩ := taskStep_isIn step
    rw [hbefore, hafter]
  | out step | traced step =>
    obtain ⟨hbefore, hafter, _⟩ := outStep_isIn step
    rw [hbefore, hafter]
    rfl
  | resume self | traceResume self =>
    obtain ⟨hbefore, hafter, _⟩ := switchIn_context (hself ▸ self)
    rw [hbefore, hafter]
    rfl
  | ready event | done event | rests event =>
    rw [ind_false (event_quiet event).2]
    rfl
  | _ => rfl

/-- Whether `self_` and `scheduler_` are there is decided by where the code of the task stands. -/
theorem trans_contexts (h : Trans sh a pc sh' pc')
    (hctx : sh.self = sh.context.isOut ∧ sh.scheduler = sh.context.isIn) :
    sh'.self = sh'.context.isOut ∧ sh'.scheduler = sh'.context.isIn := by
  cases h with
  | task tracing step =>
    obtain ⟨hbefore, hin, hout⟩ := taskStep_isIn step
    obtain ⟨hself, hscheduler⟩ := taskStep_contexts step
    rw [hself, hscheduler, hctx.1, hctx.2, hin, hout, hbefore]
    refine ⟨?_, rfl⟩
    cases hc : sh.context <;> rw [hc] at hbefore <;> first | rfl | cases hbefore
  | out step | traced step => exact outStep_contexts step
  | resume self | traceResume self =>
    obtain ⟨_, hin, hout⟩ := switchIn_context (hctx.1 ▸ self)
    exact ⟨hout.symm, hin.symm⟩
  | _ => exact hctx

/-- The task ends in `post_body_fn_exit`, and at no other step. -/
theorem trans_terminated (h : Trans sh a pc sh' pc') (hself : sh.self = sh.context.isOut)
    (hterm : sh.state.terminated = true ↔ sh.context = .exited) :
    sh'.state.terminated = true ↔ sh'.context = .exited := by
  cases h with
  | task tracing step =>
    obtain ⟨hbefore, hafter, _⟩ := taskStep_isIn step
    rw [(taskStep_keeps step).2.1, hterm]
    exact ⟨fun hc => absurd hc (Context.ne_of_isIn hbefore).2,
      fun hc => absurd hc (Context.ne_of_isIn hafter).2⟩
  | out step | traced step =>
    cases step with
    | yield k context | trace k context =>
      refine ⟨fun ht => ?_, nofun⟩
      rw [hterm.mp ht] at context
      cases context
    | exit => exact ⟨fun _ => rfl, fun _ => rfl⟩
  | resume self | traceResume self =>
    rw [hself] at self
    show sh.state.terminated = true ↔ sh.switchIn.context = .exited
    rw [hterm]
    constructor
    · intro hc
      rw [hc] at self
      cases self
    · intro hc
      exact absurd hc (Context.ne_of_isIn (switchIn_context self).2.1).2
  | ready event | done event | rests event =>
    rw [(event_state event).1]
    exact hterm
  | _ => exact hterm

end

/-! ## The invariant -/

structure Base (c : Conf Shared Pc) : Prop where
  one : total (ind Pc.holds) c.locals + c.shared.state.suspended.toNat = 1
  tracer : total (ind Pc.traces) c.locals = c.shared.state.stackTrace.toNat
  inside : total (ind Pc.isInside) c.locals = c.shared.context.isIn.toNat
  contexts : c.shared.self = c.shared.context.isOut ∧ c.shared.scheduler = c.shared.context.isIn
  terminated : c.shared.state.terminated = true ↔ c.shared.context = .exited
  traced : c.shared.state.stackTrace = true →
    c.shared.state.suspended = true ∧ c.shared.context ≠ .start ∧ c.shared.context ≠ .exited
  /-- A stack trace enters the task behind a switch. -/
  tracing : .inside true ∈ c.locals → ∃ k, c.shared.context = .resumed k
  fresh : ∀ pc ∈ c.locals, pc.enters = true → c.shared.context ≠ .exited
  /-- Before its first activation the task waits for the signal of its constructor. -/
  started : c.shared.context = .start → c.shared.state.suspended = true →
    c.shared.state.needSignal = true ∧ c.shared.state.haveSignal = true
  starting : c.shared.context = .start → ∀ pc ∈ c.locals,
    pc.leaves = false ∧ (pc = .ctor → c.shared.state.needSignal = true)
  ctor : .ctor ∈ c.locals → c.shared.context = .start

section

variable {c : Conf Shared Pc} {i : Nat} {pc pc' : Pc} {sh' : Shared} {a : Act}

theorem Base.running (hb : Base c) (hpc : pc ∈ c.locals) (hh : pc.holds = true) :
    c.shared.state.suspended = false := by
  have hle := le_total (ind Pc.holds) hpc
  rw [ind_true hh] at hle
  have hone := hb.one
  cases hs : c.shared.state.suspended with
  | false => rfl
  | true =>
    rw [hs, Bool.toNat_true] at hone
    omega

theorem Base.stackTrace (hb : Base c) (hpc : pc ∈ c.locals) (ht : pc.traces = true) :
    c.shared.state.stackTrace = true :=
  true_of_total hb.tracer hpc ht

theorem Base.isIn (hb : Base c) (hpc : pc ∈ c.locals) (hin : pc.isInside = true) :
    c.shared.context.isIn = true :=
  true_of_total hb.inside hpc hin

theorem Base.not_traced (hb : Base c) (hs : c.shared.state.suspended = false) :
    c.shared.state.stackTrace = false := by
  cases ht : c.shared.state.stackTrace with
  | false => rfl
  | true =>
    have := (hb.traced ht).1
    rw [hs] at this
    cases this

/-- The code of the task is run by an activation, unless it has just been resumed. -/
theorem Base.activation (hb : Base c) {tracing : Bool} (hpc : .inside tracing ∈ c.locals)
    (hc : ∀ k, c.shared.context ≠ .resumed k) : tracing = false := by
  cases tracing with
  | false => rfl
  | true =>
    obtain ⟨k, hk⟩ := hb.tracing hpc
    exact absurd hk (hc k)

/-- The context of the task never goes back to its start. -/
theorem trans_start (hb : Base c) (h : Trans c.shared a pc sh' pc') (hc : sh'.context = .start) :
    c.shared.context = .start := by
  cases h with
  | task tracing step =>
    exact absurd hc (Context.ne_of_isIn (taskStep_isIn step).2.1).1
  | out step | traced step => exact absurd hc (outStep_isIn step).2.2
  | resume self | traceResume self =>
    exact absurd hc (Context.ne_of_isIn (switchIn_context (hb.contexts.1 ▸ self)).2.1).1
  | _ => exact hc

theorem started_trans (hb : Base c) (hpc : pc ∈ c.locals) (h : Trans c.shared a pc sh' pc')
    (hc : sh'.context = .start) (hs : sh'.state.suspended = true) :
    sh'.state.needSignal = true ∧ sh'.state.haveSignal = true := by
  have hstart := trans_start hb h hc
  cases h with
  | task tracing step =>
    exact absurd hstart (Context.ne_of_isIn (taskStep_isIn step).1).1
  | out step | traced step => exact absurd hc (outStep_isIn step).2.2
  | ready event | done event | rests event =>
    cases event with
    | ctor => exact ⟨(hb.starting hstart _ hpc).2 rfl, rfl⟩
    | haveSignal => exact ⟨(hb.started hstart hs).1, rfl⟩
    | suspended => cases (hb.starting hstart _ hpc).1
  | activate => cases hs
  | traceReady | traceRests => exact absurd hstart (hb.traced (hb.stackTrace hpc rfl)).2.1
  | _ => exact hb.started hstart hs

theorem starting_trans (hb : Base c) (hi : c.locals[i]? = some pc) (h : Trans c.shared a pc sh' pc')
    (hc : sh'.context = .start) : ∀ k ∈ c.locals.set i pc',
      k.leaves = false ∧ (k = .ctor → sh'.state.needSignal = true) := by
  have hstart := trans_start hb h hc
  have hpc := List.mem_of_getElem? hi
  have hneed : ∀ k ∈ c.locals, k = .ctor → sh'.state.needSignal = true := by
    rintro k hk rfl
    have hold := (hb.starting hstart _ hk).2 rfl
    cases h with
    | task tracing step =>
      exact absurd hstart (Context.ne_of_isIn (taskStep_isIn step).1).1
    | out step | traced step => exact absurd hc (outStep_isIn step).2.2
    | ready event | done event | rests event =>
      rw [(event_state event).2.2]
      exact hold
    | activate forcePost ready =>
      have := (ready_iff.mp ready).1
      rw [hb.running hk rfl] at this
      cases this
    | _ => exact hold
  refine forall_set ⟨?_, ?_⟩ fun j k _ hj => ?_
  · have hold := (hb.starting hstart pc hpc).1
    cases h with
    | reload loop observed isLoop => cases isLoop <;> exact hold
    | out step => exact absurd hc (outStep_isIn step).2.2
    | suspendLocked | suspendFree | suspendUnlocks => cases hold
    | panic | wait => exact hold
    | _ => rfl
  · intro hctor
    refine hneed pc hpc ?_
    cases h with
    | reload loop observed isLoop => cases isLoop <;> cases hctor
    | panic | wait => exact hctor
    | _ => cases hctor
  · have hk := List.mem_of_getElem? hj
    exact ⟨(hb.starting hstart k hk).1, hneed k hk⟩

theorem traced_trans (hb : Base c) (hpc : pc ∈ c.locals) (h : Trans c.shared a pc sh' pc')
    (ht : sh'.state.stackTrace = true) :
    sh'.state.suspended = true ∧ sh'.context ≠ .start ∧ sh'.context ≠ .exited := by
  have hself := hb.contexts.1
  cases h with
  | task tracing step =>
    obtain ⟨hs, _, htr, _⟩ := taskStep_keeps step
    exact ⟨hs.trans (hb.traced (htr ▸ ht)).1, Context.ne_of_isIn (taskStep_isIn step).2.1⟩
  | out step | traced step =>
    obtain ⟨hs, htr, _⟩ := outStep_keeps step
    have hold := hb.traced (htr ▸ ht)
    refine ⟨hs.trans hold.1, (outStep_isIn step).2.2, ?_⟩
    cases step with
    | exit context running =>
      rw [running] at hold
      cases hold.1
    | _ => nofun
  | resume self | traceResume self =>
    exact ⟨(hb.traced ht).1, Context.ne_of_isIn (switchIn_context (hself ▸ self)).2.1⟩
  | ready event | done event | rests event =>
    have hold := hb.traced ((event_state event).2.1 ▸ ht)
    refine ⟨?_, hold.2⟩
    cases event with
    | haveSignal => exact hold.1
    | _ => rfl
  | activate forcePost ready =>
    have := (ready_iff.mp ready).2.2.2
    rw [show c.shared.state.stackTrace = true from ht] at this
    cases this
  | trace suspended notReady alive free =>
    refine ⟨suspended, fun hc => ?_, fun hc => ?_⟩
    · obtain ⟨hn, hh⟩ := hb.started hc suspended
      have hready : isReadyState c.shared.state = true :=
        ready_iff.mpr ⟨suspended, alive, hn.trans hh.symm, free⟩
      rw [notReady] at hready
      cases hready
    · rw [hb.terminated.mpr hc] at alive
      cases alive
  | traceReady | traceRests => cases ht
  | _ => exact hb.traced ht

/-- An activation runs the code of the task when it goes on. -/
theorem Base.task_activation {tracing : Bool} (hb : Base c)
    (hpc : .inside tracing ∈ c.locals) (h : TaskStep c.shared a sh') : tracing = false := by
  cases tracing with
  | false => rfl
  | true =>
    obtain ⟨k, hk⟩ := hb.tracing hpc
    have ht := hb.stackTrace hpc rfl
    cases h with
    | resumes k context free =>
      rw [ht] at free
      cases free
    | register id context | fnReturns context | bodyReturns context | await act context
    | sleep act context | yield context | preempt act context | sleepLock context | sleepUnlock context
    | need sleeping context | result f rest context =>
      rw [hk] at context
      cases context

/-- Where another thread is inside, the context of the task stays. -/
theorem context_of_inside (hb : Base c) (hi : c.locals[i]? = some pc)
    (h : Trans c.shared a pc sh' pc') {j : Nat} {k : Pc} (hne : j ≠ i) (hj : c.locals[j]? = some k)
    (hk : k.isInside = true) : sh'.context = c.shared.context := by
  have hin := hb.isIn (List.mem_of_getElem? hj) hk
  have htwo : pc.isInside = false := by
    cases hp : pc.isInside with
    | false => rfl
    | true =>
      have hle := add_le_total (ind Pc.isInside) hne.symm hi hj
      rw [ind_true hp, ind_true hk, hb.inside, hin, Bool.toNat_true] at hle
      omega
  cases h with
  | task | out | traced => cases htwo
  | resume self | traceResume self =>
    have hout := (switchIn_context (hb.contexts.1 ▸ self)).1
    rw [hin] at hout
    cases hout
  | _ => rfl

theorem tracing_trans (hb : Base c) (hi : c.locals[i]? = some pc) (h : Trans c.shared a pc sh' pc')
    (hmem : .inside true ∈ c.locals.set i pc') : ∃ k, sh'.context = .resumed k := by
  have hpc := List.mem_of_getElem? hi
  obtain ⟨j, hj⟩ := List.mem_iff_getElem?.mp hmem
  rcases set_cases hj with ⟨_, hin⟩ | ⟨hne, hj⟩
  · cases h with
    | panic | wait => exact hb.tracing (hin ▸ hpc)
    | reload loop observed isLoop => cases isLoop <;> cases hin
    | task tracing step =>
      cases hin
      cases hb.task_activation hpc step
    | traceResume self =>
      have hns := (hb.traced (hb.stackTrace hpc rfl)).2.1
      rw [hb.contexts.1] at self
      cases hc : c.shared.context with
      | start => exact absurd hc hns
      | suspended k =>
        refine ⟨k, ?_⟩
        unfold Shared.switchIn
        rw [hc]
      | _ => rw [hc] at self; cases self
    | _ => cases hin
  · obtain ⟨k, hk⟩ := hb.tracing (List.mem_of_getElem? hj)
    exact ⟨k, (context_of_inside hb hi h hne hj rfl).trans hk⟩

/-- While an activation has not entered the task, the task does not end. -/
theorem context_of_enters (hb : Base c) (hi : c.locals[i]? = some pc)
    (h : Trans c.shared a pc sh' pc') {j : Nat} {k : Pc} (hne : j ≠ i) (hj : c.locals[j]? = some k)
    (hk : k.enters = true) : sh'.context ≠ .exited := by
  have hpc := List.mem_of_getElem? hi
  have hmem := List.mem_of_getElem? hj
  have hfresh := hb.fresh k hmem hk
  cases h with
  | task tracing step =>
    exact (Context.ne_of_isIn (taskStep_isIn step).2.1).2
  | out step =>
    have hold : k.holds = true := by
      cases k with
      | pending | runSpin | runResume => rfl
      | _ => cases hk
    have hle := add_le_total (ind Pc.holds) hne.symm hi hj
    rw [ind_true hold, ind_true rfl] at hle
    have := hb.one
    omega
  | traced step =>
    obtain ⟨k, hk⟩ := hb.tracing hpc
    cases step with
    | exit context =>
      rw [hk] at context
      cases context
    | _ => nofun
  | resume self | traceResume self =>
    exact (Context.ne_of_isIn (switchIn_context (hb.contexts.1 ▸ self)).2.1).2
  | _ => exact hfresh

theorem fresh_trans (hb : Base c) (hi : c.locals[i]? = some pc) (h : Trans c.shared a pc sh' pc') :
    ∀ k ∈ c.locals.set i pc', k.enters = true → sh'.context ≠ .exited := by
  have hpc := List.mem_of_getElem? hi
  refine forall_set ?_ fun j k hne hj => context_of_enters hb hi h hne hj
  intro hk
  cases h with
  | panic | wait => exact hb.fresh pc hpc hk
  | reload loop observed isLoop => cases isLoop <;> first | exact hb.fresh _ hpc rfl | cases hk
  | activate forcePost ready =>
    intro hc
    have := (ready_iff.mp ready).2.1
    rw [hb.terminated.mpr hc] at this
    cases this
  | spins | runs | relocks => exact hb.fresh _ hpc rfl
  | _ => cases hk

/-- The task is not resumed while its constructor is under way. -/
theorem ctor_trans (hb : Base c) (hi : c.locals[i]? = some pc) (h : Trans c.shared a pc sh' pc')
    (hmem : .ctor ∈ c.locals.set i pc') : sh'.context = .start := by
  have hpc := List.mem_of_getElem? hi
  obtain ⟨j, hj⟩ := List.mem_iff_getElem?.mp hmem
  rcases set_cases hj with ⟨_, hctor⟩ | ⟨hne, hj⟩
  · cases h with
    | panic | wait => exact hb.ctor (hctor ▸ hpc)
    | reload loop observed isLoop => cases isLoop <;> cases hctor
    | _ => cases hctor
  · have hstart := hb.ctor (List.mem_of_getElem? hj)
    have hone := hb.one
    have hle := add_le_total (ind Pc.holds) hne.symm hi hj
    cases h with
    | task tracing step =>
      exact absurd hstart (Context.ne_of_isIn (taskStep_isIn step).1).1
    | out step | traced step =>
      exact absurd hstart (Context.ne_of_isIn (outStep_isIn step).1).1
    | resume self =>
      rw [ind_true rfl, ind_true rfl] at hle
      omega
    | traceResume self => exact absurd hstart (hb.traced (hb.stackTrace hpc rfl)).2.1
    | _ => exact hstart

theorem base_trans (hb : Base c) (hi : c.locals[i]? = some pc) (h : Trans c.shared a pc sh' pc') :
    Base ⟨sh', c.locals.set i pc'⟩ := by
  have hpc := List.mem_of_getElem? hi
  have htrace : pc.traces = true → c.shared.state.stackTrace = true := hb.stackTrace hpc
  refine ⟨?_, ?_, ?_, trans_contexts h hb.contexts, trans_terminated h hb.contexts.1 hb.terminated,
    traced_trans hb hpc h, tracing_trans hb hi h, fresh_trans hb hi h, started_trans hb hpc h,
    starting_trans hb hi h, ctor_trans hb hi h⟩
  · have hset := total_set (ind Pc.holds) pc' hi
    have hmove := trans_holds h (hb.running hpc) fun ht => (hb.traced (htrace ht)).1
    have hone := hb.one
    dsimp only
    omega
  · have hset := total_set (ind Pc.traces) pc' hi
    have hmove := trans_traces h htrace
    have htracer := hb.tracer
    dsimp only
    omega
  · have hset := total_set (ind Pc.isInside) pc' hi
    have hmove := trans_isInside h hb.contexts.1
    have hinside := hb.inside
    dsimp only
    omega

end

theorem total_initial (p : Pc → Bool) (n : Nat) (hidle : p .idle = false) :
    total (ind p) (initial n).locals = ind p .ctor := by
  rw [initial, total_cons, total_replicate, ind_false hidle, Nat.mul_zero, Nat.add_zero]

theorem mem_initial {n : Nat} {pc : Pc} (h : pc ∈ (initial n).locals) : pc = .ctor ∨ pc = .idle := by
  rcases List.mem_cons.mp h with rfl | h
  · exact .inl rfl
  · exact .inr (List.eq_of_mem_replicate h)

theorem base_initial (n : Nat) : Base (initial n) := by
  refine ⟨?_, ?_, ?_, ⟨rfl, rfl⟩, ⟨nofun, nofun⟩, nofun, ?_, ?_, nofun, ?_, fun _ => rfl⟩
  · rw [total_initial _ _ rfl]; rfl
  · rw [total_initial _ _ rfl]; rfl
  · rw [total_initial _ _ rfl]; rfl
  · intro h
    rcases mem_initial h with h | h <;> cases h
  · intro pc hpc hk
    rcases mem_initial hpc with rfl | rfl <;> cases hk
  · intro _ pc hpc
    rcases mem_initial hpc with rfl | rfl
    · exact ⟨rfl, fun _ => rfl⟩
    · exact ⟨rfl, nofun⟩

/-- What a step of a thread is, over the configuration. -/
theorem fire_trans {c c' : Conf Shared Pc} {i : Nat} {a : Act} (h : machine.fire i a c = some c') :
    ∃ pc sh' pc', c.locals[i]? = some pc ∧ step a c.shared pc = some (sh', pc') ∧
      Trans c.shared a pc sh' pc' ∧ c.shared.panicked = false ∧ c' = ⟨sh', c.locals.set i pc'⟩ := by
  obtain ⟨pc, sh', pc', hi, _, hs, rfl⟩ := machine.fire_cases h
  obtain ⟨hp, ht⟩ := trans_of_step hs
  exact ⟨pc, sh', pc', hi, hs, ht, hp, rfl⟩

/-! ## The calls of `await_impl` -/

/-- The innermost call of `await_impl` has called `yield_impl`, or reads its result. -/
def Context.awaits : Context → Bool
  | .yield .await | .suspended .await | .resumed .await | .result => true
  | _ => false

/-- A sleep is always the innermost call, and the body returns outside of all of them. -/
structure FramesOk (sh : Shared) : Prop where
  outer : ∀ f ∈ sh.frames.tail, f.sleeping = false
  locking : sh.context = .sleepLock ∨ sh.context = .sleepUnlock ∨
    (∃ sleeping, sh.context = .need sleeping) → ∀ f ∈ sh.frames, f.sleeping = false
  none : sh.context = .start ∨ sh.context = .exit ∨ sh.context = .exited → sh.frames = []
  some : sh.context.awaits = true → sh.frames ≠ []
  older : ∀ f ∈ sh.frames, f.id < sh.awaits
  distinct : (sh.frames.map Frame.id).Nodup

section

variable {sh sh' : Shared} {pc pc' : Pc} {a : Act}

theorem setContinuation_frames (sh : Shared) (id : Nat) (k : Continuation) :
    ∃ g : Frame → Frame, (sh.setContinuation id k).frames = sh.frames.map g ∧
      ∀ f, (g f).id = f.id ∧ (g f).sleeping = f.sleeping := by
  refine ⟨_, rfl, fun f => ?_⟩
  split <;> exact ⟨rfl, rfl⟩

theorem framesOk_setContinuation (h : FramesOk sh) (id : Nat) (k : Continuation) :
    FramesOk (sh.setContinuation id k) := by
  obtain ⟨g, hg, hkeeps⟩ := setContinuation_frames sh id k
  refine ⟨?_, ?_, ?_, ?_, ?_, ?_⟩
  · rw [hg, ← List.map_tail]
    intro f hf
    obtain ⟨f₀, hf₀, rfl⟩ := List.mem_map.mp hf
    rw [(hkeeps f₀).2]
    exact h.outer f₀ hf₀
  · intro hc
    rw [hg]
    intro f hf
    obtain ⟨f₀, hf₀, rfl⟩ := List.mem_map.mp hf
    rw [(hkeeps f₀).2]
    exact h.locking hc f₀ hf₀
  · intro hc
    rw [hg, h.none hc]
    rfl
  · intro hc
    rw [hg]
    exact mt List.map_eq_nil_iff.mp (h.some hc)
  · rw [hg]
    intro f hf
    obtain ⟨f₀, hf₀, rfl⟩ := List.mem_map.mp hf
    rw [(hkeeps f₀).1]
    exact h.older f₀ hf₀
  · have hids : (sh.frames.map g).map Frame.id = sh.frames.map Frame.id := by
      rw [List.map_map]
      exact List.map_congr_left fun f _ => (hkeeps f).1
    rw [hg, hids]
    exact h.distinct

/-- Outside of the function of a sleep, none of the calls is a sleep. -/
theorem FramesOk.awake (h : FramesOk sh) (awake : sh.inSleepFn = false) :
    ∀ f ∈ sh.frames, f.sleeping = false := by
  have houter := h.outer
  unfold Shared.inSleepFn at awake
  split at awake
  · rename_i f rest hframes
    rw [hframes] at houter ⊢
    intro g hg
    rcases List.mem_cons.mp hg with rfl | hg
    · exact awake
    · exact houter g hg
  · rename_i hframes
    rw [hframes]
    nofun

theorem framesOk_taskStep (h : FramesOk sh) (step : TaskStep sh a sh') : FramesOk sh' := by
  cases step with
  | register id context held => exact framesOk_setContinuation h id .registered
  | fnReturns context frames =>
    exact ⟨h.outer, by simp, by simp, fun _ => frames, h.older, h.distinct⟩
  | bodyReturns context frames =>
    exact ⟨h.outer, by simp, fun _ => frames, nofun, h.older, h.distinct⟩
  | await act context awake | sleep act context awake =>
    exact ⟨h.outer, fun _ => h.awake awake, by simp, nofun, h.older, h.distinct⟩
  | yield context awake | preempt act context awake =>
    exact ⟨h.outer, by simp, by simp, nofun, h.older, h.distinct⟩
  | sleepLock context free =>
    exact ⟨h.outer, fun _ => h.locking (.inl context), by simp, nofun, h.older, h.distinct⟩
  | sleepUnlock context => exact ⟨h.outer, by simp, by simp, nofun, h.older, h.distinct⟩
  | need sleeping context quiet =>
    refine ⟨h.locking (.inr (.inr ⟨sleeping, context⟩)), by simp, by simp, nofun, ?_, ?_⟩
    · intro f hf
      rcases List.mem_cons.mp hf with rfl | hf
      · exact Nat.lt_succ_self _
      · exact Nat.lt_succ_of_lt (h.older f hf)
    · refine List.nodup_cons.mpr ⟨fun hmem => ?_, h.distinct⟩
      obtain ⟨f, hf, hid⟩ := List.mem_map.mp hmem
      exact absurd hid (Nat.ne_of_lt (h.older f hf))
  | resumes k context free =>
    have hsome := h.some
    rw [context] at hsome
    cases k with
    | plain => exact ⟨h.outer, by simp [Yield.next], by simp [Yield.next], nofun, h.older, h.distinct⟩
    | await =>
      exact ⟨h.outer, by simp [Yield.next], by simp [Yield.next], hsome, h.older, h.distinct⟩
  | result f rest context frames invoked =>
    have houter := h.outer
    have holder := h.older
    have hdistinct := h.distinct
    rw [frames] at houter holder hdistinct
    refine ⟨fun g hg => houter g (List.mem_of_mem_tail hg), fun _ => houter, ?_, ?_,
      fun g hg => holder g (List.mem_cons_of_mem f hg), (List.nodup_cons.mp hdistinct).2⟩
    · intro hc
      dsimp only at hc
      split at hc <;> simp at hc
    · intro hc
      dsimp only at hc
      split at hc <;> cases hc

theorem framesOk_trans (h : FramesOk sh) (step : Trans sh a pc sh' pc') : FramesOk sh' := by
  cases step with
  | task tracing step => exact framesOk_taskStep h step
  | out step | traced step =>
    cases step with
    | yield k context | trace k context =>
      have hsome := h.some
      rw [context] at hsome
      exact ⟨h.outer, by simp [Shared.switchOut], by simp [Shared.switchOut],
        by cases k <;> exact hsome, h.older, h.distinct⟩
    | exit context running =>
      exact ⟨h.outer, by simp, fun _ => h.none (.inr (.inl context)), nofun, h.older, h.distinct⟩
  | invoke id => exact framesOk_setContinuation h id .taken
  | emplace id => exact framesOk_setContinuation h id .invoked
  | resume self | traceResume self =>
    have hsome := h.some
    refine ⟨h.outer, ?_, ?_, ?_, h.older, h.distinct⟩ <;> unfold Shared.switchIn
    · cases hc : sh.context <;> simp
    · cases hc : sh.context <;> simp
    · cases hc : sh.context with
      | suspended k =>
        rw [hc] at hsome
        cases k <;> exact hsome
      | _ => nofun
  | _ => exact ⟨h.outer, h.locking, h.none, h.some, h.older, h.distinct⟩

end

theorem framesOk_initial (n : Nat) : FramesOk (initial n).shared :=
  ⟨nofun, nofun, fun _ => rfl, nofun, nofun, List.nodup_nil⟩

end Batt.Task
