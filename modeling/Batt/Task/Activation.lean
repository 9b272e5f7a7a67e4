/-
  One activation at a time, and none is lost.

  Where the function passed to an await begins no other await, every check of the task holds, so the
  invariants of `Scheduled` are those of the whole run and not of the part before a failed check.
  They say who owes the next activation of a suspended task: the thread in `schedule_to_run`, the
  thread that invokes the continuation and will set kHaveSignal, or, where the signal is there, the
  thread that takes a stack trace and will look at the state again when it clears kStackTrace.
-/
import Batt.Task.Schedule

namespace Batt.Task

open Interleave

/-! ## No check fails -/

/-- The function passed to an await begins no await and no sleep of its own. -/
def noNested (c : Conf Shared Pc) (_ : Nat) (a : Act) : Bool :=
  !(a = .await || a = .sleep) || c.shared.frames.isEmpty

theorem awaitsSettled_of_noNested {c : Conf Shared Pc} {i : Nat} {a : Act}
    (h : noNested c i a = true) : awaitsSettled c i a = true := by
  unfold noNested at h
  rw [awaitsSettled, h, Bool.true_or]

structure Sound (c : Conf Shared Pc) : Prop extends Scheduled c where
  flat : c.shared.context = .sleepLock ∨ (∃ sleeping, c.shared.context = .need sleeping) →
    c.shared.frames = []
  taken : .traceTake ∈ c.locals → c.shared.trace = true
  cleared : ∀ pc ∈ c.locals, ∀ observed, pc = .traceClear observed → observed.terminated = false
  going : c.shared.panicked = false

section

variable {c : Conf Shared Pc} {i : Nat} {pc pc' : Pc} {sh' : Shared} {a : Act}

/-- Nobody is inside a task that is suspended and not traced. -/
theorem Base.self_of_suspended (hb : Base c) (hs : c.shared.state.suspended = true)
    (ht : c.shared.state.stackTrace = false) (hterm : c.shared.state.terminated = false) :
    c.shared.self = true := by
  have hout : c.shared.context.isIn = false := by
    refine Bool.eq_false_iff.mpr fun hin => ?_
    have hpos : 0 < total (ind Pc.isInside) c.locals := by
      rw [hb.inside, hin]
      exact Nat.one_pos
    obtain ⟨pc, hpc, hinside⟩ := exists_of_total_pos hpos
    cases pc with
    | inside tracing =>
      cases tracing with
      | false =>
        rw [hb.running hpc rfl] at hs
        cases hs
      | true =>
        rw [hb.stackTrace hpc rfl] at ht
        cases ht
    | _ => cases hinside
  rw [hb.contexts.1]
  cases hc : c.shared.context with
  | start | suspended => rfl
  | exited =>
    rw [hb.terminated.mpr hc] at hterm
    cases hterm
  | _ => rw [hc] at hout; cases hout

/-- The thread that is about to resume the task finds its context there. -/
theorem Base.self_of_alone (hb : Base c) (hi : c.locals[i]? = some pc)
    (hnot : c.shared.context ≠ .exited)
    (halone : ∀ j k, j ≠ i → c.locals[j]? = some k → k.isInside = false)
    (hpc : pc.isInside = false) : c.shared.self = true := by
  have hzero : total (ind Pc.isInside) c.locals = 0 := by
    rw [total_eq_single hi fun j k hne hj => ind_false (halone j k hne hj), ind_false hpc]
  have hinside := hb.inside
  rw [hzero] at hinside
  rw [hb.contexts.1]
  cases hc : c.shared.context with
  | start | suspended => rfl
  | exited => exact absurd hc hnot
  | _ => rw [hc] at hinside; cases hinside

theorem Base.self_of_runResume (hb : Base c) (hi : c.locals[i]? = some .runResume) :
    c.shared.self = true := by
  have hpc := List.mem_of_getElem? hi
  have hone := hb.one
  refine hb.self_of_alone hi (hb.fresh _ hpc rfl) (fun j k hne hj => ?_) rfl
  have hzero := others_zero (f := ind Pc.holds) (by omega) hi Nat.one_pos j k hne hj
  cases k with
  | inside tracing =>
    cases tracing with
    | false => cases hzero
    | true =>
      have hs := (hb.traced (hb.stackTrace (List.mem_of_getElem? hj) rfl)).1
      rw [hb.running hpc rfl] at hs
      cases hs
  | _ => rfl

theorem Base.self_of_traceResume (hb : Base c) (hi : c.locals[i]? = some .traceResume) :
    c.shared.self = true := by
  have hpc := List.mem_of_getElem? hi
  have htraced := hb.traced (hb.stackTrace hpc rfl)
  have hle : total (ind Pc.traces) c.locals ≤ 1 := hb.tracer ▸ Bool.toNat_le _
  refine hb.self_of_alone hi htraced.2.2 (fun j k hne hj => ?_) rfl
  have hzero := others_zero hle hi Nat.one_pos j k hne hj
  cases k with
  | inside tracing =>
    cases tracing with
    | true => cases hzero
    | false =>
      have hs := hb.running (List.mem_of_getElem? hj) rfl
      rw [htraced.1] at hs
      cases hs
  | _ => rfl

theorem not_taskFails (hs : Sound c) {tracing : Bool} (hpc : .inside tracing ∈ c.locals) :
    ¬ TaskFails c.shared := by
  have hscheduler := hs.base.contexts.2
  rw [hs.base.isIn hpc rfl] at hscheduler
  intro hfails
  cases hfails with
  | need sleeping context signal =>
    have hinner := hs.signals.inner
    rw [hs.flat (.inr ⟨sleeping, context⟩)] at hinner
    rw [(hinner.2.2 (by rw [context]; nofun)).2] at signal
    cases signal
  | yield k context scheduler | resumed k context scheduler =>
    rw [hscheduler] at scheduler
    cases scheduler
  | result f rest context frames early =>
    obtain rfl := hs.base.activation hpc (by rw [context]; nofun)
    obtain ⟨hn, hh⟩ := hs.signals.resumed hpc (.inr context)
    exact early ((hs.signals.inner.equal (hn.trans hh.symm)).2.2 f rest frames)
  | exit context suspended =>
    obtain rfl := hs.base.activation hpc (by rw [context]; nofun)
    rw [hs.base.running hpc rfl] at suspended
    cases suspended

theorem not_fails (hs : Sound c) (hi : c.locals[i]? = some pc) : ¬ Fails c.shared pc := by
  have hpc := List.mem_of_getElem? hi
  have hb := hs.base
  intro hfails
  cases hfails with
  | schedule forcePost ready self =>
    obtain ⟨hsus, hterm, _, ht⟩ := ready_iff.mp ready
    rw [hb.self_of_suspended hsus ht hterm] at self
    cases self
  | runResume self =>
    rw [hb.self_of_runResume hi] at self
    cases self
  | traceResume self =>
    rw [hb.self_of_traceResume hi] at self
    cases self
  | inside tracing fails => exact not_taskFails hs hpc fails
  | traceTake none =>
    rw [hs.taken hpc] at none
    cases none
  | traceClear observed terminated =>
    rw [hs.cleared _ hpc observed rfl] at terminated
    cases terminated
  | finish wrong =>
    have hpos := le_total (ind Pc.finishes) hpc
    have hfinisher := hs.finisher
    rw [ind_true rfl] at hpos
    cases hterm : isTerminalState c.shared.state with
    | false =>
      rw [hterm, Bool.toNat_false] at hfinisher
      omega
    | true =>
      obtain ⟨hself, hscheduler⟩ := hb.contexts_of_terminal hterm
      rw [hself, hscheduler, hterm] at wrong
      rcases wrong with h | h | h <;> cases h
  | completeClose closed =>
    rw [open_of_closing hs.toFinishing hpc] at closed
    cases closed

theorem flat_task (hs : Sound c) (step : TaskStep c.shared a sh') (hcond : noNested c i a = true)
    (hc : sh'.context = .sleepLock ∨ ∃ sleeping, sh'.context = .need sleeping) :
    sh'.frames = [] := by
  obtain ⟨hasks, hframes, -⟩ := step.asks hc
  rw [hframes]
  rcases hasks with ⟨rfl | rfl, -⟩ | context
  · exact List.isEmpty_iff.mp hcond
  · exact List.isEmpty_iff.mp hcond
  · exact hs.flat (.inl context)

theorem flat_trans (hs : Sound c) (h : Trans c.shared a pc sh' pc')
    (hcond : noNested c i a = true)
    (hc : sh'.context = .sleepLock ∨ ∃ sleeping, sh'.context = .need sleeping) :
    sh'.frames = [] := by
  cases h with
  | task tracing step => exact flat_task hs step hcond hc
  | out step | traced step =>
    have hout := (outStep_isIn step).2.1
    rcases hc with hc | ⟨_, hc⟩ <;> rw [hc] at hout <;> cases hout
  | resume self | traceResume self =>
    unfold Shared.switchIn at hc
    dsimp only at hc
    split at hc <;> rcases hc with hc | ⟨_, hc⟩ <;> cases hc
  | invoke id | emplace id =>
    obtain ⟨g, hg, _⟩ := setContinuation_frames c.shared id _
    rw [hg, hs.flat hc]
    rfl
  | _ => exact hs.flat hc

theorem taken_trans (hs : Sound c) (hi : c.locals[i]? = some pc) (h : Trans c.shared a pc sh' pc')
    (hmem : .traceTake ∈ c.locals.set i pc') : sh'.trace = true := by
  have hpc := List.mem_of_getElem? hi
  obtain ⟨j, hj⟩ := List.mem_iff_getElem?.mp hmem
  rcases set_cases hj with ⟨_, hk⟩ | ⟨hne, hj'⟩
  · cases h with
    | panic | wait => exact hs.taken (hk ▸ hpc)
    | reload loop observed isLoop => cases isLoop <;> cases hk
    | traced step =>
      obtain ⟨k, hctx⟩ := hs.base.tracing hpc
      cases step with
      | trace => rfl
      | yield k context | exit context =>
        rw [hctx] at context
        cases context
    | _ => cases hk
  · have hold := hs.taken (List.mem_of_getElem? hj')
    cases h with
    | task tracing step => cases step <;> exact hold
    | out step | traced step =>
      cases step with
      | trace => rfl
      | _ => exact hold
    | traceTake =>
      -- two threads would take a stack trace
      have hle := add_le_total (ind Pc.traces) hne.symm hi hj'
      have hone := Bool.toNat_le c.shared.state.stackTrace
      rw [ind_true rfl, hs.base.tracer] at hle
      omega
    | _ => exact hold

theorem cleared_trans (hs : Sound c) (hi : c.locals[i]? = some pc)
    (h : Trans c.shared a pc sh' pc') : ∀ k ∈ c.locals.set i pc', ∀ observed,
      k = .traceClear observed → observed.terminated = false := by
  have hpc := List.mem_of_getElem? hi
  refine forall_set ?_ fun j k _ hj => hs.cleared k (List.mem_of_getElem? hj)
  intro observed hk
  cases h with
  | panic | wait => exact hs.cleared _ hpc observed hk
  | reload loop o isLoop =>
    cases isLoop with
    | traceClear =>
      cases hk
      exact alive_of_traced hs.base (hs.base.stackTrace hpc rfl)
    | _ => cases hk
  | traceTake =>
    cases hk
    exact alive_of_traced hs.base (hs.base.stackTrace hpc rfl)
  | _ => cases hk

theorem going_trans (hs : Sound c) (hi : c.locals[i]? = some pc)
    (h : Trans c.shared a pc sh' pc') : sh'.panicked = false := by
  have hgoing := hs.going
  cases h with
  | panic fails => exact absurd fails (not_fails hs hi)
  | task tracing step => cases step <;> exact hgoing
  | out step | traced step => cases step <;> exact hgoing
  | _ => exact hgoing

end

theorem sound_step {c c' : Conf Shared Pc} {i : Nat} {a : Act} (hs : Sound c)
    (hp : noNested c i a = true) (hf : machine.fire i a c = some c') : Sound c' := by
  obtain ⟨pc, sh', pc', hi, _, ht, _, rfl⟩ := fire_trans hf
  exact ⟨scheduled_trans hs.toScheduled hi ht (awaitsSettled_of_noNested hp),
    flat_trans hs ht hp, taken_trans hs hi ht, cleared_trans hs hi ht, going_trans hs hi ht⟩

theorem sound_initial (n : Nat) : Sound (initial n) := by
  refine ⟨scheduled_initial n, fun _ => rfl, fun hmem => ?_, fun pc hpc observed hk => ?_, rfl⟩
  · rcases mem_initial hmem with h | h <;> cases h
  · rcases mem_initial hpc with rfl | rfl <;> cases hk

theorem sound_reachable {n : Nat} {c : Conf Shared Pc}
    (h : machine.ReachableWhere noNested (initial n) c) : Sound c :=
  machine.invariant_runWhere (fun _ _ _ _ hs hp hf => sound_step hs hp hf) (sound_initial n) h

/-! ## Activations -/

/-- The innermost await waits for a continuation that nobody has invoked. -/
def Shared.isWaiting (sh : Shared) : Bool :=
  match sh.frames with
  | f :: _ => f.continuation = .held || f.continuation = .registered
  | [] => false

/-- The thread is committed to create the next activation. -/
def Pc.commits (sh : Shared) : Pc → Bool
  | .schedule _ _ | .emplace _ | .haveSignal => true
  | .traceResume | .inside true | .traceTake | .traceClear _ =>
    sh.state.needSignal == sh.state.haveSignal
  | _ => false

/-- The thread is on its way into `run_completion_handlers`. -/
def Pc.ends : Pc → Bool
  | .suspendLoad | .suspendCas _ | .suspendEvent | .finish => true
  | _ => false

structure SingleActivation (c : Conf Shared Pc) : Prop where
  /-- There is one activation, or one stack trace, and nobody else is in the context of the task. -/
  single : total (ind Pc.holds) c.locals + total (ind Pc.traces) c.locals ≤ 1
  inside : total (ind Pc.isInside) c.locals ≤ 1
  checks : c.shared.panicked = false
  running : c.shared.state.suspended = false → total (ind Pc.holds) c.locals = 1
  /-- A suspended task that has nothing to wait for is owed its next activation by one thread. -/
  owed : c.shared.state.suspended = true → c.shared.state.terminated = false →
    c.shared.isWaiting = false → total (ind (Pc.commits c.shared)) c.locals = 1
  /-- `run_completion_handlers` is entered once, after the body has finished. -/
  body : 0 < c.shared.completions → c.shared.context = .exited
  once : c.shared.context = .exited → total (ind Pc.ends) c.locals + c.shared.completions = 1

section

variable {c : Conf Shared Pc}

theorem total_commits (sh : Shared) (ls : List Pc) :
    total (ind (Pc.commits sh)) ls = total (ind Pc.schedules) ls + total (ind Pc.emplaces) ls +
      total (ind Pc.signals) ls +
      if sh.state.needSignal == sh.state.haveSignal then total (ind Pc.traces) ls else 0 := by
  have hind : ∀ pc, ind (Pc.commits sh) pc = ind Pc.schedules pc + ind Pc.emplaces pc +
      ind Pc.signals pc +
      if sh.state.needSignal == sh.state.haveSignal then ind Pc.traces pc else 0 := by
    intro pc
    cases pc with
    | inside tracing => cases tracing <;> cases h : sh.state.needSignal == sh.state.haveSignal <;>
        simp [ind, Pc.commits, Pc.schedules, Pc.emplaces, Pc.signals, Pc.traces, h]
    | _ => cases h : sh.state.needSignal == sh.state.haveSignal <;>
        simp [ind, Pc.commits, Pc.schedules, Pc.emplaces, Pc.signals, Pc.traces, h]
  induction ls with
  | nil => simp
  | cons pc ls ih =>
    simp only [total_cons, hind, ih]
    split <;> omega

theorem Scheduled.owed (hs : Scheduled c) (hsus : c.shared.state.suspended = true)
    (hterm : c.shared.state.terminated = false) (hwait : c.shared.isWaiting = false) :
    total (ind (Pc.commits c.shared)) c.locals = 1 := by
  have hinner := hs.signals.inner
  rw [total_commits, hs.scheduler]
  by_cases heq : c.shared.state.needSignal = c.shared.state.haveSignal
  · -- nobody signals any more; the task is ready unless it is traced
    obtain ⟨he, hg, _⟩ := hinner.equal heq
    rw [he, hg, heq, beq_self_eq_true, if_pos rfl, hs.base.tracer]
    cases ht : c.shared.state.stackTrace with
    | true =>
      rw [not_ready_of_traced ht]
      rfl
    | false =>
      rw [ready_iff.mpr ⟨hsus, hterm, heq, ht⟩]
      rfl
  · have hno : isReadyState c.shared.state = false :=
      Bool.eq_false_iff.mpr fun hr => heq (ready_iff.mp hr).2.2.1
    rw [hno, beq_eq_false_iff_ne.mpr heq, if_neg Bool.false_ne_true]
    unfold Shared.isWaiting at hwait
    split at hwait
    · rename_i f rest hframes
      rw [hframes] at hinner
      have hwaiting : Waiting _ _ _ _ f.continuation := hinner
      cases hk : f.continuation with
      | held | registered =>
        rw [hk] at hwait
        cases hwait
      | taken =>
        rw [hk] at hwaiting
        obtain ⟨_, _, he, hg⟩ := hwaiting
        rw [he, hg]
        rfl
      | invoked =>
        rw [hk] at hwaiting
        obtain ⟨he, ⟨hg, _⟩ | ⟨_, hbits⟩⟩ := hwaiting
        · rw [he, hg]
          rfl
        · exact absurd hbits heq
    · rename_i hframes
      rw [hframes] at hinner
      refine absurd ?_ heq
      by_cases hc : c.shared.context = .start
      · obtain ⟨hn, hh⟩ := hs.base.started hc hsus
        exact hn.trans hh.symm
      · obtain ⟨hn, hh⟩ := hinner.2.2 hc
        exact hn.trans hh.symm

theorem total_ends (ls : List Pc) :
    total (ind Pc.ends) ls = total (ind Pc.leaves) ls + total (ind Pc.finishes) ls := by
  rw [← total_add]
  refine congrArg (fun f => total f ls) (funext fun pc => ?_)
  cases pc <;> rfl

theorem Scheduled.once (hs : Scheduled c) (hc : c.shared.context = .exited) :
    total (ind Pc.ends) c.locals + c.shared.completions = 1 := by
  have hone := hs.base.one
  have hfinisher := hs.finisher
  have hterm := hs.base.terminated.mpr hc
  rw [total_ends]
  have hmono : total (ind Pc.leaves) c.locals ≤ total (ind Pc.holds) c.locals := by
    refine total_mono _ fun pc => ?_
    cases pc <;> simp [ind, Pc.leaves, Pc.holds]
  cases hsus : c.shared.state.suspended with
  | true =>
    rw [hsus, Bool.toNat_true] at hone
    rw [terminal_iff.mpr ⟨hsus, hterm⟩, Bool.toNat_true] at hfinisher
    omega
  | false =>
    -- the thread that has the run of the task has left its code
    rw [hsus, Bool.toNat_false] at hone
    rw [not_terminal_of_running hsus, Bool.toNat_false] at hfinisher
    have hpos : 0 < total (ind Pc.holds) c.locals := by omega
    obtain ⟨pc, hpc, hholds⟩ := exists_of_total_pos hpos
    have hleaves : pc.leaves = true := by
      cases pc with
      | suspendLoad | suspendCas | suspendEvent => rfl
      | ctor =>
        have hstart := hs.base.ctor hpc
        rw [hc] at hstart
        cases hstart
      | pending | runSpin | runResume => exact absurd hc (hs.base.fresh _ hpc rfl)
      | inside tracing =>
        have hin := hs.base.isIn hpc rfl
        rw [hc] at hin
        cases hin
      | _ => cases hholds
    have hle := le_total (ind Pc.leaves) hpc
    rw [ind_true hleaves] at hle
    omega

end

/-- **A task has one activation at a time and loses no signal.** In every run in which the function
    passed to an await begins no await of its own, with any number of threads that invoke its
    continuations, take stack traces, wake it or wait for its end: at most one activation or stack
    trace is under way, every check holds, a suspended task that waits for no signal or whose
    continuation has been invoked is owed exactly one activation, and `run_completion_handlers` is
    entered exactly once, after the body. -/
theorem single_activation {n : Nat} {c : Conf Shared Pc}
    (h : machine.ReachableWhere noNested (initial n) c) : SingleActivation c := by
  have hs := sound_reachable h
  have hone := hs.base.one
  have htracer := hs.base.tracer
  refine ⟨?_, ?_, hs.going, fun hsus => ?_, hs.toScheduled.owed, fun hpos => ?_, hs.toScheduled.once⟩
  · cases ht : c.shared.state.stackTrace with
    | true =>
      rw [ht, Bool.toNat_true] at htracer
      rw [(hs.base.traced ht).1, Bool.toNat_true] at hone
      omega
    | false =>
      rw [ht, Bool.toNat_false] at htracer
      omega
  · rw [hs.base.inside]
    exact Bool.toNat_le _
  · rw [hsus, Bool.toNat_false] at hone
    exact hone
  · have hfinisher := hs.finisher
    cases hterm : isTerminalState c.shared.state with
    | true => exact hs.base.terminated.mp (terminal_iff.mp hterm).2
    | false =>
      rw [hterm, Bool.toNat_false] at hfinisher
      omega

/-- The continuation is invoked while a stack trace is taken, so the thread that takes it schedules
    the task; the task then runs to its end. -/
def tracedRun : List (Nat × Act) :=
  List.replicate 4 (0, Act.run) ++
    [(0, Act.await), (0, Act.run), (0, Act.register 0), (0, Act.returns)] ++
    List.replicate 3 (0, Act.run) ++ (1, Act.tryDump) :: (1, Act.run) :: (2, Act.invoke 0) ::
    List.replicate 2 (2, Act.run) ++ List.replicate 9 (1, Act.run) ++ (1, Act.returns) ::
    List.replicate 4 (1, Act.run)

theorem single_activation_tracedRun :
    ∃ c, machine.runWhere noNested tracedRun (initial 2) = some c ∧
      c.shared.completions = 1 ∧ SingleActivation c := by
  refine ⟨_, rfl, rfl, ?_⟩
  exact single_activation (n := 2) ⟨tracedRun, rfl⟩

end Batt.Task
