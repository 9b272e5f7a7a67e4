/-
  `batt::FakeTimeService::State` (`async/fake_time_service_impl.hpp`) and the timers it misses.

  Any number of threads call `schedule_timer` (which is `async_wait`) and `advance_time`. Every
  section under `mutex_` is one step, and so is every `boost::asio::post` of a handler:
  `schedule_timer` reads the time in one section (`now`) and pushes the timer in another
  (`push`); `advance_time` moves the time and takes the expired timers in one section and
  posts them after it, one by one.

  The timer queue is any min-heap by `expires_at`. Times and durations are numbers of ticks; a
  thread only ever moves the time ahead (`admits`). A timer carries the number of the call that
  made it, which stands for its handler, executor and service instance. `scheduled` and the
  times in `posted` record the run and no step reads them.

  If `advance_time` passes `expires_at` between the two sections of `schedule_timer`, the timer
  stays in the queue with no call left that would post it. `onTime` excludes just that: a timer is
  pushed before the time has reached it.

  Every timer is in one place at any time: with the call that schedules it, in the queue, with the
  `advance_time` that has taken it, or posted. `held` is what a thread has; `Inv.once` is the
  count of all four, by which a handler is posted at most once whether `onTime` holds or not.
-/
import Batt.Lib.Interleave
import Batt.Lib.MinHeap

namespace Batt.FakeTime

open Interleave

structure TimerInstance where
  id : Nat
  expiresAt : Int
  deriving DecidableEq, Repr

abbrev TimerQueue := MinHeap TimerInstance Int TimerInstance.expiresAt

structure State (q : TimerQueue) where
  fakeTime : Int
  timerQueue : q.Carrier
  /-- The timers of all calls of `schedule_timer`; the position is the timer's number. -/
  scheduled : List TimerInstance
  /-- The handlers posted, each with the time at which it was. -/
  posted : List (TimerInstance × Int)

inductive Pc where
  | now (timer : TimerInstance)
  | post (timer : TimerInstance)
  | push (timer : TimerInstance)
  | advance (delta : Int)
  | postExpired (expiredTimers : List TimerInstance)
  deriving DecidableEq, Repr

inductive Local where
  | idle
  | running (pc : Pc)
  deriving DecidableEq, Repr

inductive Act where
  | scheduleTimer (expiresAt : Int)
  | advanceTime (delta : Int)
  | run
  deriving DecidableEq, Repr

variable {q : TimerQueue} {ls : List Local} {sh : State q} {i : Nat}

/-- `boost::asio::post` of a timer's handler. -/
def State.postHandler (sh : State q) (timer : TimerInstance) : State q :=
  { sh with posted := sh.posted ++ [(timer, sh.fakeTime)] }

def exec (sh : State q) : Pc → State q × Local
  | .now timer =>
    (sh, .running (if timer.expiresAt ≤ sh.fakeTime then .post timer else .push timer))
  | .post timer => (sh.postHandler timer, .idle)
  | .push timer => ({ sh with timerQueue := q.push sh.timerQueue timer }, .idle)
  | .advance delta =>
    let fakeTime := sh.fakeTime + delta
    let expired := q.popUpTo fakeTime sh.timerQueue
    ({ sh with fakeTime := fakeTime, timerQueue := expired.2 }, .running (.postExpired expired.1))
  | .postExpired [] => (sh, .idle)
  | .postExpired (timer :: rest) => (sh.postHandler timer, .running (.postExpired rest))

def step : Act → State q → Local → Option (State q × Local)
  | .scheduleTimer expiresAt, sh, .idle =>
    let timer := ⟨sh.scheduled.length, expiresAt⟩
    some ({ sh with scheduled := sh.scheduled ++ [timer] }, .running (.now timer))
  | .advanceTime delta, sh, .idle => some (sh, .running (.advance delta))
  | .run, sh, .running pc => some (exec sh pc)
  | _, _, _ => none

/-- Time is only ever moved ahead. -/
def admits : Act → State q → List Local → Local → Bool
  | .advanceTime delta, _, _, _ => decide (0 ≤ delta)
  | _, _, _, _ => true

def machine (q : TimerQueue) : Machine (State q) Local Act where
  step := step
  admits := admits

/-- No timer has been scheduled, and the service starts at the time `now`. -/
def initial (q : TimerQueue) (n : Nat) (now : Int) : Conf (State q) Local where
  shared := { fakeTime := now, timerQueue := q.empty, scheduled := [], posted := [] }
  locals := List.replicate n .idle

/-! ## Where the timers are -/

/-- The timers a thread has in hand. -/
def held : Local → List TimerInstance
  | .running (.now timer) => [timer]
  | .running (.post timer) => [timer]
  | .running (.push timer) => [timer]
  | .running (.postExpired expiredTimers) => expiredTimers
  | _ => []

/-- How often a thread has `t` in hand. -/
def carried (t : TimerInstance) (l : Local) : Nat := (held l).count t

/-- The timers a thread is going to post. -/
def expired : Local → List TimerInstance
  | .running (.post timer) => [timer]
  | .running (.postExpired expiredTimers) => expiredTimers
  | _ => []

def queued (sh : State q) : Multiset TimerInstance := q.contents sh.timerQueue

def postedTimers (sh : State q) : List TimerInstance := sh.posted.map Prod.fst

/-- A thread that is about to move the time moves it ahead. -/
def Ahead : Local → Prop
  | .running (.advance delta) => 0 ≤ delta
  | _ => True

structure Inv (sh : State q) (ls : List Local) : Prop where
  numbered : ∀ (k : Nat) (t : TimerInstance), sh.scheduled[k]? = some t → t.id = k
  once : ∀ t, (queued sh).count t + (postedTimers sh).count t +
    total (carried t) ls = sh.scheduled.count t
  ahead : ∀ l ∈ ls, Ahead l
  due : ∀ l ∈ ls, ∀ t ∈ expired l, t.expiresAt ≤ sh.fakeTime
  posted : ∀ p ∈ sh.posted, p.1.expiresAt ≤ p.2

/-! ## What a step can do -/

/-- A timer the thread has in hand is posted now. -/
theorem inv_post {l l' : Local} {timer : TimerInstance} (inv : Inv sh ls) (hi : ls[i]? = some l)
    (hheld : held l = timer :: held l') (hexpired : expired l = timer :: expired l')
    (hahead : Ahead l') :
    Inv (sh.postHandler timer) (ls.set i l') := by
  have hl := List.mem_of_getElem? hi
  refine ⟨inv.numbered, ?_, ?_, ?_, ?_⟩
  · intro t
    have hold := inv.once t
    have hset := total_set (carried t) l' hi
    have hposted : (postedTimers (sh.postHandler timer)).count t =
        (postedTimers sh).count t + [timer].count t := by
      simp [postedTimers, State.postHandler, List.count_append]
    have hcons : carried t l = [timer].count t + carried t l' := by
      rw [carried, hheld, ← List.singleton_append, List.count_append, carried]
    rw [hposted]
    change (queued sh).count t + _ + _ = sh.scheduled.count t
    omega
  · exact forall_set hahead fun j k _ hj => inv.ahead k (List.mem_of_getElem? hj)
  · refine forall_set ?_ fun j k _ hj => inv.due k (List.mem_of_getElem? hj)
    intro t ht
    exact inv.due l hl t (by rw [hexpired]; exact List.mem_cons_of_mem _ ht)
  · intro p hp
    rcases List.mem_append.mp hp with hp | hp
    · exact inv.posted p hp
    · obtain rfl := List.mem_singleton.mp hp
      exact inv.due l hl timer (by rw [hexpired]; exact List.mem_cons_self)

/-- A thread that keeps what it has in hand changes nothing. -/
theorem inv_local {l l' : Local} (inv : Inv sh ls) (hi : ls[i]? = some l) (hheld : held l' = held l)
    (hahead : Ahead l') (hdue : ∀ t ∈ expired l', t.expiresAt ≤ sh.fakeTime) :
    Inv sh (ls.set i l') := by
  refine ⟨inv.numbered, ?_, ?_, ?_, inv.posted⟩
  · intro t
    have hold := inv.once t
    have hset := total_set (carried t) l' hi
    rw [carried, carried, hheld] at hset
    omega
  · exact forall_set hahead fun j k _ hj => inv.ahead k (List.mem_of_getElem? hj)
  · exact forall_set hdue fun j k _ hj => inv.due k (List.mem_of_getElem? hj)

theorem inv_schedule (inv : Inv sh ls) (hi : ls[i]? = some .idle) (expiresAt : Int) :
    Inv { sh with scheduled := sh.scheduled ++ [⟨sh.scheduled.length, expiresAt⟩] }
      (ls.set i (.running (.now ⟨sh.scheduled.length, expiresAt⟩))) := by
  refine ⟨?_, ?_, ?_, ?_, inv.posted⟩
  · intro k t hk
    rw [List.getElem?_append] at hk
    split at hk
    · exact inv.numbered k t hk
    · obtain ⟨hlt, rfl⟩ := List.getElem?_eq_some_iff.mp hk
      simp only [List.getElem_singleton]
      simp only [List.length_cons, List.length_nil] at hlt
      omega
  · intro t
    have hold := inv.once t
    have hset := total_set (carried t)
      (.running (.now ⟨sh.scheduled.length, expiresAt⟩)) hi
    have hnow : carried t (.running (.now ⟨sh.scheduled.length, expiresAt⟩)) =
        [(⟨sh.scheduled.length, expiresAt⟩ : TimerInstance)].count t := rfl
    have hidle : carried t .idle = 0 := rfl
    rw [List.count_append]
    change (queued sh).count t + (postedTimers sh).count t + _ = _
    omega
  · exact forall_set trivial fun j k _ hj => inv.ahead k (List.mem_of_getElem? hj)
  · refine forall_set ?_ fun j k _ hj => inv.due k (List.mem_of_getElem? hj)
    intro t ht
    cases ht

theorem inv_push {timer : TimerInstance} (inv : Inv sh ls)
    (hi : ls[i]? = some (.running (.push timer))) :
    Inv { sh with timerQueue := q.push sh.timerQueue timer } (ls.set i .idle) := by
  refine ⟨inv.numbered, ?_, ?_, ?_, inv.posted⟩
  · intro t
    have hold := inv.once t
    have hset := total_set (carried t) .idle hi
    have hqueued : (queued { sh with timerQueue := q.push sh.timerQueue timer }).count t =
        (queued sh).count t + [timer].count t := by
      simp only [queued]
      rw [q.contents_push, ← Multiset.singleton_add, Multiset.count_add, ← Multiset.coe_singleton,
        Multiset.coe_count, Nat.add_comm]
    have hpush : carried t (.running (.push timer)) = [timer].count t := rfl
    have hidle : carried t .idle = 0 := rfl
    rw [hqueued]
    change _ + (postedTimers sh).count t + _ = sh.scheduled.count t
    omega
  · exact forall_set trivial fun j k _ hj => inv.ahead k (List.mem_of_getElem? hj)
  · refine forall_set ?_ fun j k _ hj => inv.due k (List.mem_of_getElem? hj)
    intro t ht
    cases ht

theorem inv_advance {delta : Int} (inv : Inv sh ls) (hi : ls[i]? = some (.running (.advance delta)))
    :
    Inv { sh with
        fakeTime := sh.fakeTime + delta
        timerQueue := (q.popUpTo (sh.fakeTime + delta) sh.timerQueue).2 }
      (ls.set i (.running (.postExpired (q.popUpTo (sh.fakeTime + delta) sh.timerQueue).1))) := by
  have hdelta : 0 ≤ delta := inv.ahead _ (List.mem_of_getElem? hi)
  obtain ⟨hcont, hdue, _⟩ := q.popUpTo_spec (sh.fakeTime + delta) sh.timerQueue
  refine ⟨inv.numbered, ?_, ?_, ?_, inv.posted⟩
  · intro t
    have hold := inv.once t
    have hset := total_set (carried t)
      (.running (.postExpired (q.popUpTo (sh.fakeTime + delta) sh.timerQueue).1)) hi
    have hexpired : carried t
        (.running (.postExpired (q.popUpTo (sh.fakeTime + delta) sh.timerQueue).1)) =
        (q.popUpTo (sh.fakeTime + delta) sh.timerQueue).1.count t := rfl
    have hidle : carried t (.running (.advance delta)) = 0 := rfl
    rw [queued, hcont, Multiset.count_add, Multiset.coe_count] at hold
    simp only [queued]
    change _ + (postedTimers sh).count t + _ = sh.scheduled.count t
    omega
  · exact forall_set trivial fun j k _ hj => inv.ahead k (List.mem_of_getElem? hj)
  · refine forall_set hdue ?_
    intro j k _ hj t ht
    have := inv.due k (List.mem_of_getElem? hj) t ht
    simp only
    omega

/-- What one step of a thread keeps, whatever the order of the calls. -/
theorem inv_fire {a : Act} {c c' : Conf (State q) Local} (inv : Inv c.shared c.locals)
    (h : (machine q).fire i a c = some c') : Inv c'.shared c'.locals := by
  obtain ⟨l, sh', l', hi, hadm, hs, rfl⟩ := Machine.fire_cases h
  cases l with
  | idle =>
    cases a with
    | scheduleTimer expiresAt =>
      cases hs
      exact inv_schedule inv hi expiresAt
    | advanceTime delta =>
      cases hs
      have hdelta : 0 ≤ delta := of_decide_eq_true hadm
      refine inv_local inv hi rfl hdelta ?_
      intro t ht
      cases ht
    | run => cases hs
  | running pc =>
    cases a with
    | scheduleTimer expiresAt => cases hs
    | advanceTime delta => cases hs
    | run =>
      cases pc with
      | now timer =>
        cases hs
        dsimp only
        split
        · rename_i hle
          refine inv_local inv hi rfl trivial ?_
          intro t ht
          obtain rfl := List.mem_singleton.mp ht
          exact hle
        · refine inv_local inv hi rfl trivial ?_
          intro t ht
          cases ht
      | post timer =>
        cases hs
        exact inv_post inv hi rfl rfl trivial
      | push timer =>
        cases hs
        exact inv_push inv hi
      | advance delta =>
        cases hs
        exact inv_advance inv hi
      | postExpired expiredTimers =>
        cases expiredTimers with
        | nil =>
          cases hs
          refine inv_local inv hi rfl trivial ?_
          intro t ht
          cases ht
        | cons timer rest =>
          cases hs
          exact inv_post inv hi rfl rfl trivial

theorem inv_initial (q : TimerQueue) (n : Nat) (now : Int) :
    Inv (initial q n now).shared (initial q n now).locals := by
  refine ⟨?_, ?_, ?_, ?_, ?_⟩
  · intro k t hk
    cases hk
  · intro t
    simp [initial, queued, q.contents_empty, postedTimers, total_replicate, carried, held]
  · intro l hl
    obtain rfl := List.eq_of_mem_replicate hl
    trivial
  · intro l hl t ht
    obtain rfl := List.eq_of_mem_replicate hl
    cases ht
  · intro p hp
    cases hp

/-! ## Timers pushed in time -/

/-- A timer is pushed before the time has reached it. -/
def onTime (c : Conf (State q) Local) (i : Nat) (_ : Act) : Bool :=
  match c.locals[i]? with
  | some (.running (.push timer)) => decide (c.shared.fakeTime < timer.expiresAt)
  | _ => true

def NoneDue (sh : State q) : Prop := ∀ t ∈ queued sh, sh.fakeTime < t.expiresAt

theorem noneDue_fire {a : Act} {c c' : Conf (State q) Local} (hnone : NoneDue c.shared)
    (hok : onTime c i a = true) (h : (machine q).fire i a c = some c') : NoneDue c'.shared := by
  obtain ⟨l, sh', l', hi, _, hs, rfl⟩ := Machine.fire_cases h
  cases l with
  | idle =>
    cases a with
    | scheduleTimer expiresAt => cases hs; exact hnone
    | advanceTime delta => cases hs; exact hnone
    | run => cases hs
  | running pc =>
    cases a with
    | scheduleTimer expiresAt => cases hs
    | advanceTime delta => cases hs
    | run =>
      cases pc with
      | now timer => cases hs; exact hnone
      | post timer => cases hs; exact hnone
      | push timer =>
        cases hs
        simp only [onTime, hi, decide_eq_true_eq] at hok
        intro t ht
        rw [queued, q.contents_push, Multiset.mem_cons] at ht
        rcases ht with rfl | ht
        · exact hok
        · exact hnone t ht
      | advance delta =>
        cases hs
        exact (q.popUpTo_spec (c.shared.fakeTime + delta) c.shared.timerQueue).2.2
      | postExpired expiredTimers =>
        cases expiredTimers with
        | nil => cases hs; exact hnone
        | cons timer rest => cases hs; exact hnone

/-! ## No timer is missed -/

/-- No call is in progress. -/
def Quiet (c : Conf (State q) Local) : Prop := ∀ l ∈ c.locals, l = .idle

/-- In the queue once and not posted, or posted once and no longer in the queue. -/
def OnePlace (sh : State q) (t : TimerInstance) : Prop :=
  ((queued sh).count t = 1 ∧ (postedTimers sh).count t = 0) ∨
    ((queued sh).count t = 0 ∧ (postedTimers sh).count t = 1)

theorem scheduled_count (inv : Inv sh ls) {t : TimerInstance} (ht : t ∈ sh.scheduled) :
    sh.scheduled.count t = 1 := by
  have hnodup : sh.scheduled.Nodup := by
    rw [List.nodup_iff_getElem?_ne_getElem?]
    intro i j hij hj heq
    have hjt := List.getElem?_eq_getElem hj
    have h₁ := inv.numbered j _ hjt
    have h₂ := inv.numbered i _ (heq.trans hjt)
    omega
  exact List.count_eq_one_of_mem hnodup ht

theorem onePlace_of_quiet {c : Conf (State q) Local} (inv : Inv c.shared c.locals)
    (hquiet : Quiet c) {t : TimerInstance} (ht : t ∈ c.shared.scheduled) :
    OnePlace c.shared t := by
  have hcount := inv.once t
  have hheld : total (carried t) c.locals = 0 := by
    rw [total_eq_zero]
    intro l hl
    rw [hquiet l hl]
    rfl
  rw [hheld, scheduled_count inv ht] at hcount
  unfold OnePlace
  omega

/-- **No timer is missed where each is pushed in time.** In every run whose pushes come before
    the time has reached their timers, whenever no call is in progress the queue holds no expired
    timer and every timer scheduled so far is in the queue once or has been posted once; and no
    handler is ever posted before its time. -/
theorem no_timer_missed (q : TimerQueue) (n : Nat) (now : Int) (c : Conf (State q) Local)
    (h : (machine q).ReachableWhere onTime (initial q n now) c) :
    (Quiet c → (∀ t ∈ queued c.shared, c.shared.fakeTime < t.expiresAt) ∧
      ∀ t ∈ c.shared.scheduled, OnePlace c.shared t) ∧
    ∀ p ∈ c.shared.posted, p.1.expiresAt ≤ p.2 := by
  have hinv : Inv c.shared c.locals :=
    Machine.invariant (I := fun c => Inv c.shared c.locals)
      (fun c i a c' hc hf => inv_fire hc hf) (inv_initial q n now) h.reachable
  have hnone : NoneDue c.shared := by
    refine Machine.invariant_runWhere (I := fun c => NoneDue c.shared)
      (fun c i a c' hc hok hf => noneDue_fire hc hok hf) ?_ h
    intro t ht
    rw [queued, initial, q.contents_empty] at ht
    cases Multiset.notMem_zero t ht
  exact ⟨fun hquiet => ⟨hnone, fun t ht => onePlace_of_quiet hinv hquiet ht⟩, hinv.posted⟩

/-- A timer for time 3 is scheduled at time 0, and the time is moved to 5 after it. -/
def inTimeRun : List (Nat × Act) :=
  [(0, .scheduleTimer 3), (0, .run), (0, .run), (1, .advanceTime 5), (1, .run), (1, .run), (1, .run)]

theorem no_timer_missed_inTimeRun :
    ∃ c, (machine (.sorted _)).runWhere onTime inTimeRun (initial (.sorted _) 2 0) = some c ∧
      Quiet c ∧ c.shared.posted = [(⟨0, 3⟩, 5)] ∧ OnePlace c.shared ⟨0, 3⟩ := by
  refine ⟨_, rfl, ?_, rfl, ?_⟩
  · unfold Quiet
    decide
  · refine ((no_timer_missed (.sorted _) 2 0 _ ⟨inTimeRun, rfl⟩).1 ?_).2 _ ?_
    · unfold Quiet
      decide
    · decide

/-- The same two calls, with the whole of `advance_time` between the two sections of
    `schedule_timer`. -/
def lateRun : List (Nat × Act) :=
  [(0, .scheduleTimer 3), (0, .run), (1, .advanceTime 5), (1, .run), (1, .run), (0, .run)]

theorem timer_missed :
    ∃ c, (machine (.sorted _)).run lateRun (initial (.sorted _) 2 0) = some c ∧ Quiet c ∧
      ¬ ∀ t ∈ queued c.shared, c.shared.fakeTime < t.expiresAt := by
  refine ⟨_, rfl, ?_, ?_⟩
  · unfold Quiet
    decide
  · intro h
    have := h ⟨0, 3⟩ (List.mem_singleton.mpr rfl)
    revert this
    decide

end Batt.FakeTime
