/-
  Soft preemption.

  `Trampoline::activate_task` marks the task that runs on its thread with `is_preempted_` and makes it
  yield, and relies on `handle_event(kSuspended)` to schedule it again. The readiness test looks at
  the bits of the await: inside the function of an await whose signal is still to come, the preempted
  task goes to sleep with it. Where a task is preempted with equal bits, the bits stay equal until
  kSuspended is set, and the thread that has set it makes the next activation.
-/
import Batt.Task.Activation

namespace Batt.Task

open Interleave

/-! ## The bits of a preempted task -/

/-- Awaits are settled, and a task is preempted where it does not wait for a signal. -/
def preemptsReady (c : Conf Shared Pc) (i : Nat) (a : Act) : Bool :=
  awaitsSettled c i a &&
    (!(a = .preempt) || c.shared.state.needSignal == c.shared.state.haveSignal)

/-- The activation is in the code of the task, or on its way to `handle_event(kSuspended)`. -/
def Pc.yields : Pc → Bool
  | .inside false | .suspendLoad | .suspendCas _ | .suspendEvent => true
  | _ => false

structure Preempted (c : Conf Shared Pc) : Prop where
  equal : c.shared.state.needSignal = c.shared.state.haveSignal
  running : c.shared.state.suspended = false
  context : c.shared.context = .yield .plain ∨ c.shared.context = .suspended .plain
  yields : ∀ pc ∈ c.locals, pc.holds = true → pc.yields = true

section

variable {c : Conf Shared Pc} {i : Nat} {pc pc' : Pc} {sh' : Shared} {a : Act} {state : State}

theorem Preempted.not_in (hp : Preempted c) (hc : c.shared.context ≠ .yield .plain)
    (hc' : c.shared.context ≠ .suspended .plain) : False := by
  rcases hp.context with h | h
  · exact hc h
  · exact hc' h

/-- A step that leaves the bits and the context alone. -/
theorem Preempted.keeps (hp : Preempted c) (hn : sh'.state.needSignal = c.shared.state.needSignal)
    (hh : sh'.state.haveSignal = c.shared.state.haveSignal)
    (hs : sh'.state.suspended = c.shared.state.suspended) (hc : sh'.context = c.shared.context)
    (hpc' : pc'.holds = true → pc'.yields = true) : Preempted ⟨sh', c.locals.set i pc'⟩ := by
  refine ⟨?_, hs.trans hp.running, ?_, forall_set hpc' fun j k _ hj => ?_⟩
  · show sh'.state.needSignal = sh'.state.haveSignal
    rw [hn, hh]
    exact hp.equal
  · show sh'.context = _ ∨ sh'.context = _
    rw [hc]
    exact hp.context
  · exact hp.yields k (List.mem_of_getElem? hj)

theorem preempted_task {tracing : Bool} (hb : Base c) (hold : c.shared.isPreempted = true → Preempted c)
    (hi : c.locals[i]? = some (.inside tracing)) (step : TaskStep c.shared a sh')
    (hcond : preemptsReady c i a = true) (hp : sh'.isPreempted = true) :
    Preempted ⟨sh', c.locals.set i (.inside tracing)⟩ := by
  have hpc := List.mem_of_getElem? hi
  obtain rfl := hb.task_activation hpc step
  cases step with
  | preempt act context awake =>
    subst act
    have hone := hb.one
    have hothers := others_zero (f := ind Pc.holds) (by omega) hi Nat.one_pos
    rw [preemptsReady, Bool.and_eq_true] at hcond
    refine ⟨eq_of_beq hcond.2, hb.running hpc rfl, .inl rfl,
      forall_set (fun _ => rfl) fun j k hne hj hk => ?_⟩
    have hzero := hothers j k hne hj
    rw [ind_true hk] at hzero
    cases hzero
  | register id context | fnReturns context | bodyReturns context | await act context
  | sleep act context | yield context | sleepLock context | sleepUnlock context
  | need sleeping context | resumes k context | result f rest context =>
    refine absurd (hold hp).context ?_
    rw [context]
    nofun

/-- `handle_event(kSuspended)` finds a preempted task ready. -/
theorem Preempted.ready (hb : Base c) (hp : Preempted c) :
    isReadyState { c.shared.state with suspended := true } = true := by
  refine ready_iff.mpr ⟨rfl, Bool.eq_false_iff.mpr fun hterm => ?_, hp.equal,
    hb.not_traced hp.running⟩
  have hexited := hb.terminated.mp hterm
  exact hp.not_in (by rw [hexited]; nofun) (by rw [hexited]; nofun)

theorem preempted_trans (hs : Settled c) (hold : c.shared.isPreempted = true → Preempted c)
    (hi : c.locals[i]? = some pc) (h : Trans c.shared a pc sh' pc')
    (hcond : preemptsReady c i a = true) (hp : sh'.isPreempted = true) :
    Preempted ⟨sh', c.locals.set i pc'⟩ := by
  have hpc := List.mem_of_getElem? hi
  have hb := hs.base
  cases h with
  | task tracing step => exact preempted_task hb hold hi step hcond hp
  | panic fails | wait =>
    exact (hold hp).keeps rfl rfl rfl rfl ((hold hp).yields _ hpc)
  | reload loop observed isLoop =>
    refine (hold hp).keeps rfl rfl rfl rfl ?_
    have hyields := (hold hp).yields _ hpc
    cases isLoop <;> exact hyields
  | out step =>
    have hold := hold (by cases step <;> exact hp)
    cases step with
    | yield k context =>
      refine ⟨hold.equal, hold.running, .inr ?_, forall_set (fun _ => rfl) fun j k _ hj => ?_⟩
      · rcases hold.context with hc | hc <;> rw [hc] at context <;> cases context
        rfl
      · exact hold.yields k (List.mem_of_getElem? hj)
    | trace k context | exit context =>
      exact (hold.not_in (by rw [context]; nofun) (by rw [context]; nofun)).elim
  | traced step =>
    have hold := hold (by cases step <;> exact hp)
    obtain ⟨k, hk⟩ := hb.tracing hpc
    exact (hold.not_in (by rw [hk]; nofun) (by rw [hk]; nofun)).elim
  | ready => cases hp
  | done event terminal =>
    have hexited := hb.terminated.mp ((event_state event).1 ▸ (terminal_iff.mp terminal).2)
    exact ((hold hp).not_in (by rw [hexited]; nofun) (by rw [hexited]; nofun)).elim
  | rests event notReady =>
    cases event with
    | ctor =>
      have hc := hb.ctor hpc
      exact ((hold hp).not_in (by rw [hc]; nofun) (by rw [hc]; nofun)).elim
    | haveSignal =>
      obtain ⟨_, _, _, hn, hh⟩ := hs.signals.signalling hpc
      rw [(hold hp).equal, hh] at hn
      cases hn
    | suspended =>
      rw [(hold hp).ready hb] at notReady
      cases notReady
  | activate forcePost ready =>
    have hsus := (ready_iff.mp ready).1
    rw [(hold hp).running] at hsus
    cases hsus
  | spins | runs | relocks | resume => cases (hold hp).yields _ hpc rfl
  | traceResume | traceReady | traceRests =>
    have hsus := (hb.traced (hb.stackTrace hpc rfl)).1
    rw [(hold hp).running] at hsus
    cases hsus
  | suspendLocked | suspendFree | suspendUnlocks =>
    exact (hold hp).keeps rfl rfl rfl rfl fun _ => rfl
  | _ => exact (hold hp).keeps rfl rfl rfl rfl nofun

end

theorem preempted_reachable {n : Nat} {c : Conf Shared Pc}
    (h : machine.ReachableWhere preemptsReady (initial n) c) :
    Scheduled c ∧ (c.shared.isPreempted = true → Preempted c) := by
  refine machine.invariant_runWhere
    (I := fun c => Scheduled c ∧ (c.shared.isPreempted = true → Preempted c))
    (fun c i a c' hc hp hf => ?_) ⟨scheduled_initial n, nofun⟩ h
  obtain ⟨pc, sh', pc', hi, _, ht, _, rfl⟩ := fire_trans hf
  have hsettled : awaitsSettled c i a = true := (Bool.and_eq_true _ _ ▸ hp).1
  exact ⟨scheduled_trans hc.1 hi ht hsettled, preempted_trans hc.1.toSettled hc.2 hi ht hp⟩

/-! ## It runs again -/

structure RunsAgain (c : Conf Shared Pc) : Prop where
  /-- One thread will run `handle_event(kSuspended)` for a preempted task. -/
  yields : c.shared.isPreempted = true → total (ind Pc.yields) c.locals = 1
  /-- It finds the task ready, and calls `schedule_to_run` with `force_post`. -/
  schedules : ∀ i a c', c.locals[i]? = some .suspendEvent → c.shared.isPreempted = true →
    machine.fire i a c = some c' → c'.locals[i]? = some (.schedule c'.shared.state true)
  /-- Who is in `schedule_to_run` stays there until the activation is pending. -/
  activates : ∀ i a c' observed forcePost, c.locals[i]? = some (.schedule observed forcePost) →
    machine.fire i a c = some c' → c'.locals[i]? = some .pending ∨
      c'.locals[i]? = some (.schedule c'.shared.state forcePost) ∧ c'.shared = c.shared
  /-- Its compare-exchange succeeds where the state has not changed in between. -/
  progress : ∀ i forcePost, c.locals[i]? = some (.schedule c.shared.state forcePost) →
    c.shared.panicked = false →
    ∃ c', machine.fire i .run c = some c' ∧ c'.locals[i]? = some .pending

section

variable {c c' : Conf Shared Pc} {i : Nat} {a : Act}

theorem Pc.holds_of_yields {pc : Pc} (h : pc.yields = true) : pc.holds = true := by
  cases pc with
  | inside tracing =>
    cases tracing with
    | false => rfl
    | true => cases h
  | suspendLoad | suspendCas | suspendEvent => rfl
  | _ => cases h

theorem total_yields (hone : total (ind Pc.holds) c.locals = 1)
    (hyields : ∀ pc ∈ c.locals, pc.holds = true → pc.yields = true) :
    total (ind Pc.yields) c.locals = 1 := by
  have hle : total (ind Pc.yields) c.locals ≤ total (ind Pc.holds) c.locals := by
    refine total_mono_of_mem fun pc _ => ?_
    cases hy : pc.yields with
    | false => rw [ind_false hy]; exact Nat.zero_le _
    | true => rw [ind_true hy, ind_true (Pc.holds_of_yields hy)]
  have hge : total (ind Pc.holds) c.locals ≤ total (ind Pc.yields) c.locals := by
    refine total_mono_of_mem fun pc hpc => ?_
    cases hh : pc.holds with
    | false => rw [ind_false hh]; exact Nat.zero_le _
    | true => rw [ind_true hh, ind_true (hyields pc hpc hh)]
  omega

/-- A step of `schedule_to_run`, where the task and what was observed of it are ready. -/
theorem schedule_step {sh sh' : Shared} {pc' : Pc} {observed : State} {forcePost : Bool}
    (hready : isReadyState observed = true) (hself : sh.self = true)
    (h : step a sh (.schedule observed forcePost) = some (sh', pc')) :
    pc' = .pending ∨ pc' = .schedule sh'.state forcePost ∧ sh' = sh := by
  unfold step at h
  split at h
  · cases h
  · obtain ⟨_, h⟩ := Option.ite_none_right_eq_some.mp h
    simp only [casStep, hready, hself, Bool.not_true, if_true] at h
    split at h
    · rename_i hfalse
      cases hfalse
    · split at h
      · cases h
        exact .inl rfl
      · cases h
        exact .inr ⟨rfl, rfl⟩

theorem self_of_schedule (hs : Scheduled c) {observed : State} {forcePost : Bool}
    (hi : c.locals[i]? = some (.schedule observed forcePost)) :
    isReadyState c.shared.state = true ∧ c.shared.self = true := by
  have hready := true_of_total hs.scheduler (List.mem_of_getElem? hi) rfl
  obtain ⟨hsus, hterm, _, ht⟩ := ready_iff.mp hready
  exact ⟨hready, hs.base.self_of_suspended hsus ht hterm⟩

theorem suspendEvent_step {sh sh' : Shared} {pc' : Pc}
    (hready : isReadyState { sh.state with suspended := true } = true)
    (hp : sh.isPreempted = true) (h : step a sh .suspendEvent = some (sh', pc')) :
    pc' = .schedule sh'.state true := by
  unfold step at h
  split at h
  · cases h
  · obtain ⟨_, h⟩ := Option.ite_none_right_eq_some.mp h
    simp only [agentStep, handleEvent, hready, if_true, hp] at h
    cases h
    rfl

end

/-- **A preempted task runs again by itself**, in every run in which it is preempted with equal
    kNeedSignal and kHaveSignal, and its awaits are settled. -/
theorem preempted_task_runs_again {n : Nat} {c : Conf Shared Pc}
    (h : machine.ReachableWhere preemptsReady (initial n) c) : RunsAgain c := by
  obtain ⟨hs, hpreempted⟩ := preempted_reachable h
  refine ⟨fun hp => ?_, fun i a c' hi hp hf => ?_, fun i a c' observed forcePost hi hf => ?_,
    fun i forcePost hi hgoing => ?_⟩
  · have hold := hpreempted hp
    have hone := hs.base.one
    rw [hold.running, Bool.toNat_false] at hone
    exact total_yields hone hold.yields
  · obtain ⟨pc, sh', pc', hi', hstep, _, _, rfl⟩ := fire_trans hf
    rw [hi, Option.some.injEq] at hi'
    subst hi'
    rw [List.getElem?_set_self (List.getElem?_eq_some_iff.mp hi).1]
    exact congrArg some (suspendEvent_step ((hpreempted hp).ready hs.base) hp hstep)
  · obtain ⟨pc, sh', pc', hi', hstep, _, _, rfl⟩ := fire_trans hf
    rw [hi, Option.some.injEq] at hi'
    subst hi'
    rw [List.getElem?_set_self (List.getElem?_eq_some_iff.mp hi).1]
    have hready := hs.observed _ (List.mem_of_getElem? hi) observed forcePost rfl
    rcases schedule_step hready (self_of_schedule hs hi).2 hstep with rfl | ⟨rfl, hsh⟩
    · exact .inl rfl
    · exact .inr ⟨rfl, hsh⟩
  · obtain ⟨hready, hself⟩ := self_of_schedule hs hi
    have hstep : step .run c.shared (.schedule c.shared.state forcePost) =
        some ({ c.shared with state := c.shared.state.activated }, .pending) := by
      simp [step, casStep, hgoing, hready, hself, Shared.exchanges]
    refine ⟨⟨{ c.shared with state := c.shared.state.activated }, c.locals.set i .pending⟩, ?_, ?_⟩
    · unfold Machine.fire
      rw [hi]
      exact congrArg (Option.map _) hstep
    · exact List.getElem?_set_self (List.getElem?_eq_some_iff.mp hi).1

/-- A task is preempted inside the function of an await that has been signalled, and scheduled
    again. -/
def preemptRun : List (Nat × Act) :=
  List.replicate 4 (0, Act.run) ++
    [(0, Act.await), (0, Act.run), (0, Act.register 0), (1, Act.invoke 0)] ++
    List.replicate 2 (1, Act.run) ++ (0, Act.preempt) :: List.replicate 2 (0, Act.run)

theorem preempted_task_runs_again_preemptRun :
    ∃ c, machine.runWhere preemptsReady preemptRun (initial 1) = some c ∧
      c.shared.isPreempted = true ∧ c.locals = [.suspendEvent, .idle] ∧ RunsAgain c := by
  refine ⟨_, rfl, rfl, rfl, ?_⟩
  exact preempted_task_runs_again (n := 1) ⟨preemptRun, rfl⟩

/-- The function of an await has registered its continuation and is preempted, for example because
    it creates a task of higher priority. -/
def stuckRun : List (Nat × Act) :=
  List.replicate 4 (0, Act.run) ++
    [(0, Act.await), (0, Act.run), (0, Act.register 0), (0, Act.preempt)] ++
    List.replicate 2 (0, Act.run)

/-- Nobody schedules the task, and its continuation was not invoked. -/
theorem preempted_task_stuck :
    ∃ c c', machine.run stuckRun (initial 1) = some c ∧ machine.fire 0 .run c = some c' ∧
      c'.shared.isPreempted = true ∧ c'.shared.state.suspended = true ∧
      isReadyState c'.shared.state = false ∧ c'.locals = [.idle, .idle] ∧ ¬ RunsAgain c := by
  refine ⟨_, _, rfl, rfl, rfl, rfl, rfl, rfl, fun h => ?_⟩
  cases h.schedules 0 .run _ rfl rfl rfl

end Batt.Task
