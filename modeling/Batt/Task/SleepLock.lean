/-
  Who owns kSleepTimerLock.

  The guard of `sleep_impl` takes the lock and keeps it across the suspension: `run` gives the lock
  up with the context (`suspendCas`) and takes it again before it resumes (`runSpin`), with
  kSleepTimerLockSuspend set in between. A call of `wake` owns the lock between its two accesses.

  `run` decides by the shared bit alone. Where a `wake` owns the lock at that load, the activation of
  a task that does not sleep clears the lock of somebody else. In every run where this does not
  happen, the bit is set exactly while one of them owns the lock.
-/
import Batt.Task.Base

namespace Batt.Task

open Interleave

/-! ## Owners -/

/-- The task is inside `sleep_impl`, and its guard has taken the lock. -/
def Shared.inSleep (sh : Shared) : Bool :=
  match sh.context with
  | .need true | .sleepUnlock => true
  | _ => sh.inSleepFn

/-- An activation that has what its task has locked. -/
def Pc.awake : Pc → Bool
  | .runResume | .inside false | .suspendLoad | .suspendCas _ => true
  | _ => false

/-- In the loop that takes the lock again, and in the one that gives it up. -/
def Pc.spins : Pc → Bool
  | .runSpin _ => true
  | _ => false

def Pc.gives : Pc → Bool
  | .suspendCas _ => true
  | _ => false

def Pc.wakes : Pc → Bool
  | .wakeUnlock => true
  | _ => false

/-- The guard of `sleep_impl` owns the lock. -/
def taskOwns (c : Conf Shared Pc) : Bool :=
  c.shared.inSleep && decide (0 < total (ind Pc.awake) c.locals)

/-- The next access of an activation gives up the lock of the task. -/
def Pc.unlocks (sh : Shared) : Pc → Bool
  | .suspendCas _ => true
  | .inside _ => sh.context = .sleepUnlock
  | _ => false

structure SleepLockOwned (c : Conf Shared Pc) : Prop where
  /-- The bit counts the owners, so there is at most one. -/
  owners : total (ind Pc.wakes) c.locals + (taskOwns c).toNat = c.shared.state.sleepTimerLock.toNat
  suspended : c.shared.state.sleepTimerLockSuspend =
    (c.shared.inSleep && decide (total (ind Pc.awake) c.locals = 0))
  taskUnlocks : ∀ pc ∈ c.locals, pc.unlocks c.shared = true → taskOwns c = true
  wakeUnlocks : .wakeUnlock ∈ c.locals → taskOwns c = false

/-- The load after `resume_impl` in `run` is not taken while a `wake` owns the lock. -/
def noWakeAtSuspend (c : Conf Shared Pc) (i : Nat) (_ : Act) : Bool :=
  match c.locals[i]? with
  | some .suspendLoad => decide (total (ind Pc.wakes) c.locals = 0)
  | _ => true

/-! ## The task against the calls of `wake` -/

section

variable {sh sh' : Shared} {pc pc' : Pc} {a : Act}

theorem inSleep_of_awake (h : ∀ f ∈ sh.frames, f.sleeping = false) : sh.inSleepFn = false := by
  unfold Shared.inSleepFn
  split
  · rename_i f rest hframes
    exact h f (by rw [hframes]; exact List.mem_cons_self)
  · rfl

theorem inSleepFn_setContinuation (sh : Shared) (id : Nat) (k : Continuation) :
    (sh.setContinuation id k).inSleepFn = sh.inSleepFn := by
  obtain ⟨g, hg, hkeeps⟩ := setContinuation_frames sh id k
  unfold Shared.inSleepFn
  rw [hg]
  cases sh.frames with
  | nil => rfl
  | cons f rest => exact (hkeeps f).2

theorem inSleep_setContinuation (sh : Shared) (id : Nat) (k : Continuation) :
    (sh.setContinuation id k).inSleep = sh.inSleep := by
  unfold Shared.inSleep
  rw [inSleepFn_setContinuation]
  rfl

/-- Away from the two ends of `sleep_impl`, the task sleeps where its innermost await does. -/
theorem inSleep_eq {ctx : Context} (hc : sh.context = ctx)
    (hn : ctx ≠ .need true ∧ ctx ≠ .sleepUnlock := by exact ⟨nofun, nofun⟩) :
    sh.inSleep = sh.inSleepFn := by
  subst hc
  delta Shared.inSleep
  split
  · rename_i hc
    exact absurd hc hn.1
  · rename_i hc
    exact absurd hc hn.2
  · rfl

/-- The guard of `sleep_impl` takes the lock and gives it back; no other step of the code of the
    task changes whether it sleeps. -/
theorem taskStep_sleep (h : TaskStep sh a sh') (hok : FramesOk sh)
    (howns : sh.inSleep = true → sh.state.sleepTimerLock = true) :
    sh'.inSleep.toNat + sh.state.sleepTimerLock.toNat =
      sh.inSleep.toNat + sh'.state.sleepTimerLock.toNat ∧
    sh'.state.sleepTimerLockSuspend = sh.state.sleepTimerLockSuspend := by
  cases h with
  | register id context held =>
    rw [inSleep_setContinuation]
    exact ⟨rfl, rfl⟩
  | fnReturns context | bodyReturns context | await act context | sleep act context | yield context
  | preempt act context =>
    rw [inSleep_eq context]
    exact ⟨rfl, rfl⟩
  | sleepLock context free =>
    have hawake := inSleep_of_awake (hok.locking (.inl context))
    rw [inSleep_eq context, hawake, free]
    exact ⟨rfl, rfl⟩
  | sleepUnlock context =>
    have hin : sh.inSleep = true := by rw [Shared.inSleep, context]
    have hawake := inSleep_of_awake (hok.locking (.inr (.inl context)))
    rw [howns hin, hin]
    refine ⟨?_, rfl⟩
    show sh.inSleepFn.toNat + true.toNat = true.toNat + false.toNat
    rw [hawake]
    rfl
  | need sleeping context quiet =>
    have hawake := inSleep_of_awake (hok.locking (.inr (.inr ⟨sleeping, context⟩)))
    have hin : sh.inSleep = sleeping := by
      unfold Shared.inSleep
      rw [context]
      cases sleeping with
      | true => rfl
      | false => exact hawake
    rw [hin]
    exact ⟨rfl, rfl⟩
  | resumes k context free =>
    rw [inSleep_eq context]
    cases k <;> exact ⟨rfl, rfl⟩
  | result f rest context frames invoked =>
    have hin : sh.inSleep = f.sleeping := by
      rw [inSleep_eq context]
      rw [Shared.inSleepFn, frames]
    have houter := hok.outer
    rw [frames] at houter
    rw [hin]
    refine ⟨?_, rfl⟩
    cases hs : f.sleeping with
    | true => rfl
    | false =>
      have hawake : Shared.inSleepFn { sh with frames := rest } = false := inSleep_of_awake houter
      show Bool.toNat (Shared.inSleepFn { sh with frames := rest }) + _ = _
      rw [hawake]

theorem outStep_sleep (h : OutStep sh sh') :
    sh'.inSleep = sh.inSleep ∧ sh'.state.sleepTimerLock = sh.state.sleepTimerLock ∧
      sh'.state.sleepTimerLockSuspend = sh.state.sleepTimerLockSuspend := by
  cases h with
  | yield k context | trace k context | exit context =>
    rw [inSleep_eq context]
    exact ⟨rfl, rfl, rfl⟩

theorem switchIn_sleep (hself : sh.context.isOut = true) : sh.switchIn.inSleep = sh.inSleep := by
  delta Shared.switchIn Shared.inSleep
  dsimp only
  cases hc : sh.context with
  | start | suspended => rfl
  | _ => rw [hc] at hself; cases hself

theorem event_sleep {state : State} (h : Event sh pc state) :
    state.sleepTimerLock = sh.state.sleepTimerLock ∧
      state.sleepTimerLockSuspend = sh.state.sleepTimerLockSuspend ∧ pc.awake = false ∧
      pc.wakes = false := by
  cases h <;> exact ⟨rfl, rfl, rfl, rfl⟩

/-! ## Steps -/

/-- The lock as the thread that has the run of the task sees it; `w` calls of `wake` own it. -/
structure SleepLocal (sh : Shared) (w : Nat) (pc : Pc) : Prop where
  owners : w + (sh.inSleep && pc.awake).toNat = sh.state.sleepTimerLock.toNat
  suspended : sh.state.sleepTimerLockSuspend = (sh.inSleep && !pc.awake)
  spins : pc.spins = true → sh.state.sleepTimerLockSuspend = true
  gives : pc.gives = true → sh.inSleep = true

theorem SleepLocal.task {w : Nat} (hl : SleepLocal sh w (.inside false)) (hok : FramesOk sh)
    (step : TaskStep sh a sh') : SleepLocal sh' w (.inside false) := by
  obtain ⟨howners, hsuspended, _, _⟩ := hl
  have howns : sh.inSleep = true → sh.state.sleepTimerLock = true := by
    intro hin
    rw [hin] at howners
    cases hlock : sh.state.sleepTimerLock with
    | true => rfl
    | false =>
      rw [hlock] at howners
      exact absurd howners (by simp [Pc.awake])
  obtain ⟨hmove, hsus⟩ := taskStep_sleep step hok howns
  simp only [Pc.awake, Bool.and_true] at howners
  refine ⟨?_, ?_, nofun, nofun⟩
  · simp only [Pc.awake, Bool.and_true]
    omega
  · rw [hsus, hsuspended]
    simp [Pc.awake]

theorem sleepLocal_trans {w : Nat} (h : Trans sh a pc sh' pc') (hh : pc.holds = true)
    (hl : SleepLocal sh w pc) (hok : FramesOk sh) (hself : sh.self = sh.context.isOut)
    (hcond : pc = .suspendLoad → w = 0) : SleepLocal sh' w pc' := by
  obtain ⟨howners, hsuspended, hspins, hgives⟩ := hl
  cases h with
  | panic fails => exact ⟨howners, hsuspended, hspins, hgives⟩
  | wait => exact ⟨howners, hsuspended, hspins, hgives⟩
  | reload loop observed isLoop =>
    cases isLoop with
    | runSpin => exact ⟨howners, hsuspended, fun _ => hspins rfl, nofun⟩
    | suspendCas => exact ⟨howners, hsuspended, nofun, fun _ => hgives rfl⟩
    | schedule | traceCas | traceClear => cases hh
  | task tracing step =>
    cases tracing with
    | false => exact SleepLocal.task ⟨howners, hsuspended, hspins, hgives⟩ hok step
    | true => cases hh
  | out step =>
    obtain ⟨hin, hlock, hsus⟩ := outStep_sleep step
    refine ⟨?_, ?_, nofun, nofun⟩
    · rw [hin, hlock]; exact howners
    · rw [hin, hsus]; exact hsuspended
  | ready event | done event | rests event =>
    obtain ⟨hlock, hsus, hawake, _⟩ := event_sleep event
    rw [hawake] at howners hsuspended
    refine ⟨?_, ?_, nofun, nofun⟩
    · rw [hlock]; exact howners
    · rw [hsus]; exact hsuspended
  | spins lost => exact ⟨howners, hsuspended, fun _ => lost, nofun⟩
  | runs none =>
    -- the task does not sleep: otherwise it would have left the bit set
    have hin : sh.inSleep = false := by simpa [Pc.awake, none] using hsuspended
    rw [hin] at howners
    refine ⟨?_, ?_, nofun, nofun⟩
    · rw [hin]; exact howners
    · rw [hin]; exact none
  | relocks free =>
    have hin : sh.inSleep = true := by simpa [Pc.awake, hspins rfl] using hsuspended
    have hw : w = 0 := by simpa [Pc.awake, free] using howners
    have hin' : Shared.inSleep { sh with state := { sh.state with
        sleepTimerLockSuspend := false, sleepTimerLock := true } } = true := hin
    refine ⟨?_, ?_, nofun, nofun⟩
    · rw [hin', hw]; rfl
    · rw [hin']; rfl
  | resume self =>
    have hin := switchIn_sleep (hself ▸ self)
    refine ⟨?_, ?_, nofun, nofun⟩
    · rw [hin]; exact howners
    · rw [hin]; exact hsuspended
  | suspendLocked locked =>
    rw [hcond rfl, locked] at howners
    have hin : sh.inSleep = true := by simpa [Pc.awake] using howners
    refine ⟨?_, ?_, nofun, fun _ => hin⟩
    · rw [hcond rfl, locked]; exact howners
    · exact hsuspended
  | suspendFree free =>
    have hin : sh.inSleep = false := by
      rw [free] at howners
      cases hin : sh.inSleep with
      | false => rfl
      | true =>
        rw [hin] at howners
        exact absurd howners (by simp [Pc.awake])
    rw [hin] at howners
    refine ⟨?_, ?_, nofun, nofun⟩
    · rw [hin]; exact howners
    · rw [hsuspended, hin]; rfl
  | suspendUnlocks =>
    have hin : sh.inSleep = true := hgives rfl
    rw [hin] at howners
    have hw : w = 0 := by
      cases hlock : sh.state.sleepTimerLock with
      | false => rw [hlock] at howners; simp [Pc.awake] at howners
      | true => rw [hlock] at howners; simpa [Pc.awake] using howners
    have hin' : Shared.inSleep { sh with state := { sh.state with
        sleepTimerLock := false, sleepTimerLockSuspend := true } } = true := hin
    refine ⟨?_, ?_, nofun, nofun⟩
    · rw [hin', hw]; rfl
    · rw [hin']; rfl
  | _ => cases hh

/-- The threads that do not have the run of the task move the lock with their own guards only. -/
theorem trans_sleep (h : Trans sh a pc sh' pc') (hh : pc.holds = false)
    (hself : sh.self = sh.context.isOut) (htask : ∀ sh₁, pc = .inside true → ¬ TaskStep sh a sh₁)
    (howns : pc.wakes = true → sh.state.sleepTimerLock = true) :
    sh'.inSleep = sh.inSleep ∧ sh'.state.sleepTimerLockSuspend = sh.state.sleepTimerLockSuspend ∧
      ind Pc.wakes pc' + sh.state.sleepTimerLock.toNat =
        ind Pc.wakes pc + sh'.state.sleepTimerLock.toNat := by
  cases h with
  | reload loop observed isLoop => cases isLoop <;> exact ⟨rfl, rfl, rfl⟩
  | task tracing step =>
    cases tracing with
    | false => cases hh
    | true => exact absurd step (htask _ rfl)
  | out step | resume self | relocks | suspendUnlocks => cases hh
  | traced step =>
    obtain ⟨hin, hlock, hsus⟩ := outStep_sleep step
    exact ⟨hin, hsus, by rw [hlock]; rfl⟩
  | invoke id | emplace id => exact ⟨inSleep_setContinuation sh id _, rfl, rfl⟩
  | ready event | done event | rests event =>
    obtain ⟨hlock, hsus, _, hwakes⟩ := event_sleep event
    exact ⟨rfl, hsus, by rw [ind_false hwakes, hlock]; rfl⟩
  | traceResume self => exact ⟨switchIn_sleep (hself ▸ self), rfl, rfl⟩
  | wakeLock free => exact ⟨rfl, rfl, by rw [free]; rfl⟩
  | wakeUnlock => exact ⟨rfl, rfl, by rw [howns rfl]; rfl⟩
  | _ => exact ⟨rfl, rfl, rfl⟩

end

/-! ## The invariant -/

structure SleepInv (c : Conf Shared Pc) : Prop where
  owners : total (ind Pc.wakes) c.locals + (taskOwns c).toNat = c.shared.state.sleepTimerLock.toNat
  suspended : c.shared.state.sleepTimerLockSuspend =
    (c.shared.inSleep && decide (total (ind Pc.awake) c.locals = 0))
  spins : ∀ pc ∈ c.locals, pc.spins = true → c.shared.state.sleepTimerLockSuspend = true
  gives : ∀ pc ∈ c.locals, pc.gives = true → c.shared.inSleep = true

section

variable {c : Conf Shared Pc} {i : Nat} {pc pc' : Pc} {sh' : Shared} {a : Act}

theorem Pc.not_wakes_of_holds (h : pc.holds = true) : pc.wakes = false := by
  cases pc with
  | wakeUnlock => cases h
  | _ => rfl

theorem trans_not_wakes {sh : Shared} (h : Trans sh a pc sh' pc') (hh : pc.holds = true) :
    pc.wakes = false ∧ pc'.wakes = false := by
  refine ⟨Pc.not_wakes_of_holds hh, ?_⟩
  cases h with
  | panic | wait => exact Pc.not_wakes_of_holds hh
  | reload loop observed isLoop => cases isLoop <;> rfl
  | wakeLock => cases hh
  | _ => rfl

/-- The run of the task begins with its activation. -/
theorem trans_pending {sh : Shared} (h : Trans sh a pc sh' pc') (hh : pc.holds = false)
    (hh' : pc'.holds = true) : pc' = .pending := by
  cases h with
  | panic | wait =>
    rw [hh] at hh'
    cases hh'
  | reload loop observed isLoop =>
    cases isLoop with
    | runSpin | suspendCas => cases hh
    | schedule | traceCas | traceClear => cases hh'
  | task tracing =>
    rw [hh] at hh'
    cases hh'
  | activate => rfl
  | out | resume | spins | runs | relocks | suspendLocked | suspendFree | suspendUnlocks => cases hh
  | _ => cases hh'

theorem Pc.holds_of_awake (h : pc.awake = true) : pc.holds = true := by
  cases pc with
  | runResume | suspendLoad | suspendCas => rfl
  | inside tracing =>
    cases tracing with
    | false => rfl
    | true => cases h
  | _ => cases h

/-- No other thread is awake beside the one that has the run of the task. -/
theorem Base.awake_eq (hb : Base c) (hi : c.locals[i]? = some pc) (hh : pc.holds = true) :
    total (ind Pc.awake) c.locals = ind Pc.awake pc := by
  have hone := hb.one
  refine total_eq_single hi fun j k hne hj => ?_
  have hzero := others_zero (f := ind Pc.holds) (by omega) hi (ind_pos.mpr hh) j k hne hj
  cases hk : k.awake with
  | false => exact ind_false hk
  | true =>
    rw [ind_true (Pc.holds_of_awake hk)] at hzero
    cases hzero

theorem taskOwns_eq (hawake : total (ind Pc.awake) c.locals = ind Pc.awake pc) :
    taskOwns c = (c.shared.inSleep && pc.awake) ∧
      decide (total (ind Pc.awake) c.locals = 0) = !pc.awake := by
  rw [taskOwns, hawake]
  cases hp : pc.awake with
  | true =>
    rw [ind_true hp]
    exact ⟨rfl, rfl⟩
  | false =>
    rw [ind_false hp]
    exact ⟨rfl, rfl⟩

theorem sleepInv_holds (hb : Base c) (hinv : SleepInv c) (hok : FramesOk c.shared)
    (hi : c.locals[i]? = some pc) (hh : pc.holds = true) (h : Trans c.shared a pc sh' pc')
    (hcond : pc = .suspendLoad → total (ind Pc.wakes) c.locals = 0) :
    SleepInv ⟨sh', c.locals.set i pc'⟩ := by
  have hpc := List.mem_of_getElem? hi
  have hone := hb.one
  have hawake := hb.awake_eq hi hh
  have hset := total_set (ind Pc.awake) pc' hi
  have hwset := total_set (ind Pc.wakes) pc' hi
  have hothers := others_zero (f := ind Pc.holds) (by omega) hi (ind_pos.mpr hh)
  obtain ⟨howns, hzero⟩ := taskOwns_eq hawake
  have hlocal : SleepLocal c.shared (total (ind Pc.wakes) c.locals) pc :=
    ⟨howns ▸ hinv.owners, hzero ▸ hinv.suspended, hinv.spins pc hpc, hinv.gives pc hpc⟩
  have hnext := sleepLocal_trans h hh hlocal hok hb.contexts.1 hcond
  have hwakes : total (ind Pc.wakes) (c.locals.set i pc') = total (ind Pc.wakes) c.locals := by
    obtain ⟨hw, hw'⟩ := trans_not_wakes h hh
    rw [ind_false hw, ind_false hw'] at hwset
    exact hwset
  have hawake' : total (ind Pc.awake) (c.locals.set i pc') = ind Pc.awake pc' := by omega
  obtain ⟨howns', hzero'⟩ := taskOwns_eq (c := ⟨sh', c.locals.set i pc'⟩) hawake'
  refine ⟨?_, ?_, ?_, ?_⟩
  · rw [howns']
    show total (ind Pc.wakes) (c.locals.set i pc') + _ = _
    rw [hwakes]
    exact hnext.owners
  · rw [hzero']
    exact hnext.suspended
  · refine forall_set hnext.spins fun j k hne hj hk => ?_
    have hzero := hothers j k hne hj
    cases k with
    | runSpin => cases hzero
    | _ => cases hk
  · refine forall_set hnext.gives fun j k hne hj hk => ?_
    have hzero := hothers j k hne hj
    cases k with
    | suspendCas => cases hzero
    | _ => cases hk

theorem sleepInv_other (hb : Base c) (hinv : SleepInv c) (hi : c.locals[i]? = some pc)
    (hh : pc.holds = false) (h : Trans c.shared a pc sh' pc') :
    SleepInv ⟨sh', c.locals.set i pc'⟩ := by
  have hpc := List.mem_of_getElem? hi
  have hset := total_set (ind Pc.awake) pc' hi
  have hwset := total_set (ind Pc.wakes) pc' hi
  have howners := hinv.owners
  have hlock : pc.wakes = true → c.shared.state.sleepTimerLock = true := by
    intro hw
    have hle := le_total (ind Pc.wakes) hpc
    rw [ind_true hw] at hle
    cases hl : c.shared.state.sleepTimerLock with
    | true => rfl
    | false =>
      rw [hl, Bool.toNat_false] at howners
      omega
  have htask : ∀ sh₁, pc = .inside true → ¬ TaskStep c.shared a sh₁ := by
    rintro sh₁ rfl step
    cases hb.task_activation hpc step
  obtain ⟨hin, hsus, hwakes⟩ := trans_sleep h hh hb.contexts.1 htask hlock
  have hquiet : ∀ k : Pc, k.holds = false ∨ k = .pending → k.awake = false := by
    intro k hk
    cases ha : k.awake with
    | false => rfl
    | true =>
      rcases hk with hk | rfl
      · rw [Pc.holds_of_awake ha] at hk
        cases hk
      · cases ha
  have hpc' : pc'.holds = false ∨ pc' = .pending := by
    cases hp : pc'.holds with
    | false => exact .inl rfl
    | true => exact .inr (trans_pending h hh hp)
  rw [ind_false (hquiet pc (.inl hh)), ind_false (hquiet pc' hpc')] at hset
  have hawake : total (ind Pc.awake) (c.locals.set i pc') = total (ind Pc.awake) c.locals := hset
  have howns : taskOwns ⟨sh', c.locals.set i pc'⟩ = taskOwns c := by
    unfold taskOwns
    dsimp only
    rw [hin, hawake]
  refine ⟨?_, ?_, ?_, ?_⟩
  · rw [howns]
    dsimp only
    omega
  · dsimp only
    rw [hsus, hin, hawake]
    exact hinv.suspended
  · refine forall_set (fun hk => ?_) fun j k _ hj => ?_
    · rcases hpc' with hh' | rfl
      · cases pc' with
        | runSpin => cases hh'
        | _ => cases hk
      · cases hk
    · dsimp only
      rw [hsus]
      exact hinv.spins k (List.mem_of_getElem? hj)
  · refine forall_set (fun hk => ?_) fun j k _ hj => ?_
    · rcases hpc' with hh' | rfl
      · cases pc' with
        | suspendCas => cases hh'
        | _ => cases hk
      · cases hk
    · dsimp only
      rw [hin]
      exact hinv.gives k (List.mem_of_getElem? hj)

end

theorem sleepInv_reachable {n : Nat} {c : Conf Shared Pc}
    (h : machine.ReachableWhere noWakeAtSuspend (initial n) c) :
    (Base c ∧ FramesOk c.shared) ∧ SleepInv c := by
  refine machine.invariant_runWhere (I := fun c => (Base c ∧ FramesOk c.shared) ∧ SleepInv c)
    (fun c i a c' hc hp hf => ?_) ?_ h
  · obtain ⟨⟨hb, hok⟩, hinv⟩ := hc
    obtain ⟨pc, sh', pc', hi, _, ht, _, rfl⟩ := fire_trans hf
    refine ⟨⟨base_trans hb hi ht, framesOk_trans hok ht⟩, ?_⟩
    cases hh : pc.holds with
    | true =>
      refine sleepInv_holds hb hinv hok hi hh ht fun hload => ?_
      rw [noWakeAtSuspend, hi, hload] at hp
      exact of_decide_eq_true hp
    | false => exact sleepInv_other hb hinv hi hh ht
  · refine ⟨⟨base_initial n, framesOk_initial n⟩, ?_, ?_, ?_, ?_⟩
    · rw [total_initial _ _ rfl]; rfl
    · rfl
    · intro pc hpc hk
      rcases mem_initial hpc with rfl | rfl <;> cases hk
    · intro pc hpc hk
      rcases mem_initial hpc with rfl | rfl <;> cases hk

/-- **kSleepTimerLock is set exactly while its one owner is the task inside `sleep_impl` or a call
    of `wake`**, kSleepTimerLockSuspend exactly while the task is suspended inside `sleep_impl`, and
    who clears the lock owns it: in every run in which `run` never looks at the bit after
    `resume_impl` while a `wake` owns it. -/
theorem sleep_lock_owned {n : Nat} {c : Conf Shared Pc}
    (h : machine.ReachableWhere noWakeAtSuspend (initial n) c) : SleepLockOwned c := by
  obtain ⟨⟨hb, _⟩, hinv⟩ := sleepInv_reachable h
  have howners := hinv.owners
  refine ⟨howners, hinv.suspended, fun pc hpc hunlocks => ?_, fun hwake => ?_⟩
  · -- who unlocks is an activation that is awake, of a task that sleeps
    have hboth : c.shared.inSleep = true ∧ pc.awake = true := by
      cases pc with
      | suspendCas observed => exact ⟨hinv.gives _ hpc rfl, rfl⟩
      | inside tracing =>
        have hc : c.shared.context = .sleepUnlock := of_decide_eq_true hunlocks
        obtain rfl := hb.activation hpc (by rw [hc]; nofun)
        exact ⟨by rw [Shared.inSleep, hc], rfl⟩
      | _ => cases hunlocks
    have hle := le_total (ind Pc.awake) hpc
    rw [ind_true hboth.2] at hle
    rw [taskOwns, hboth.1, Bool.true_and]
    exact decide_eq_true hle
  · have hle := le_total (ind Pc.wakes) hwake
    rw [ind_true rfl] at hle
    have hbit := Bool.toNat_le c.shared.state.sleepTimerLock
    cases ho : taskOwns c with
    | false => rfl
    | true =>
      rw [ho, Bool.toNat_true] at howners
      omega

/-- The task sleeps, its timer fires, and a `wake` has the lock when the task is to be resumed: it
    spins until the `wake` gives the lock back. -/
def sleepRun : List (Nat × Act) :=
  List.replicate 4 (0, Act.run) ++ (0, Act.sleep) :: List.replicate 2 (0, Act.run) ++
    (0, Act.register 0) :: (0, Act.returns) :: List.replicate 4 (0, Act.run) ++
    (1, Act.invoke 0) :: List.replicate 3 (1, Act.run) ++ (2, Act.wake) :: (2, Act.run) ::
    List.replicate 2 (1, Act.run) ++ (2, Act.run) :: List.replicate 5 (1, Act.run)

theorem sleep_lock_owned_sleepRun :
    ∃ c, machine.runWhere noWakeAtSuspend sleepRun (initial 2) = some c ∧
      c.shared.context = .sleepUnlock ∧ c.shared.state.sleepTimerLock = true ∧ SleepLockOwned c := by
  refine ⟨_, rfl, rfl, rfl, ?_⟩
  exact sleep_lock_owned (n := 2) ⟨sleepRun, rfl⟩

/-- The task yields, outside of all sleeps, while a `wake` owns the lock. -/
def stolenRun : List (Nat × Act) :=
  List.replicate 4 (0, Act.run) ++ (0, Act.yield) :: (0, Act.run) :: (1, Act.wake) ::
    (1, Act.run) :: List.replicate 2 (0, Act.run) ++ [(2, Act.wake), (2, Act.run)]

/-- Two calls of `wake` own the lock at once. -/
theorem sleep_lock_stolen :
    ∃ c, machine.run stolenRun (initial 2) = some c ∧ c.shared.inSleep = false ∧
      c.shared.state.sleepTimerLockSuspend = true ∧ total (ind Pc.wakes) c.locals = 2 ∧
      ¬ SleepLockOwned c := by
  refine ⟨_, rfl, rfl, rfl, rfl, fun h => ?_⟩
  cases h.suspended

end Batt.Task
