/-
  Delivery in `WatchAtomic`: each handler passed to `async_wait` is at one place at any time
  and is invoked at most once, and whoever is told an error is told the status chosen by
  the first `close` to take the lock.

  `held` counts a handler with the call that has it, `located` adds the shared list and the
  invocations. Each step moves a handler from one summand to another (`trans_located`), so
  the sum stays one from the moment the handler is passed. The status part (`Final`) rests
  on the lock invariant of `Wakeup`: only the lock holder stores to the word, and it stores
  what it read, up to its own bits.
-/
import Batt.Watch.FinalStatus

namespace Batt.Watch

open Interleave

variable {T : Type}

/-! ## Where a handler is -/

/-- The handler a running `async_wait` still owns. -/
def ownedHandler : Local T → Option Nat
  | .running _ (.waitLoad handler _ _) => some handler
  | .running _ (.lockObservers (.asyncWait handler _ _)) => some handler
  | .running _ (.inLock (.asyncWait handler _ _) _) => some handler
  | .running _ (.pushHandler handler _ _ _) => some handler
  | .running _ (.unlockObservers _ (.waitClosed handler _)) => some handler
  | .running _ (.unlockObservers _ (.waitChanged handler _ _)) => some handler
  | .running _ (.getFinalStatus (.wait handler _)) => some handler
  | .running _ (.invokeNow handler _ _) => some handler
  | _ => none

/-- `local_observers` of a running `notify` or `close`. -/
def localObservers : Local T → List Nat
  | .running _ (.unlockObservers _ (.notified obs _ _)) => obs
  | .running _ (.unlockObservers _ (.closed obs)) => obs
  | .running _ (.getFinalStatus (.close obs)) => obs
  | .running _ (.invokeAll obs _ _) => obs
  | _ => []

def owned (h : Nat) (l : Local T) : Nat := if ownedHandler l = some h then 1 else 0

def inLocal (h : Nat) (l : Local T) : Nat := (localObservers l).count h

def held (h : Nat) (l : Local T) : Nat := owned h l + inLocal h l

def timesInvoked (h : Nat) (sh : Shared T) : Nat := (sh.invoked.map Prod.fst).count h

/-- The shared part of the places a handler can be at. -/
def inShared (h : Nat) (sh : Shared T) : Nat := sh.observers.count h + timesInvoked h sh

/-- Whether the handler has been passed to `async_wait`. -/
def passedN (h : Nat) (sh : Shared T) : Nat := if h < sh.handlers.length then 1 else 0

theorem inShared_invoke (h handler : Nat) (result : StatusOr T) (sh : Shared T) :
    inShared h (sh.invoke handler result) = inShared h sh + if handler = h then 1 else 0 := by
  simp [inShared, timesInvoked, Shared.invoke, List.count_append, List.count_singleton,
    Nat.add_assoc]

theorem passedN_invoke (h handler : Nat) (result : StatusOr T) (sh : Shared T) :
    passedN h (sh.invoke handler result) = passedN h sh := rfl

theorem passedN_addHandler (h : Nat) (sh : Shared T) (lastSeen : T) :
    passedN h (sh.addHandler lastSeen) =
      passedN h sh + if sh.handlers.length = h then 1 else 0 := by
  unfold passedN Shared.addHandler
  simp only [List.length_append, List.length_cons, List.length_nil]
  split <;> split <;> split <;> omega

theorem held_afterWait (h call handler : Nat) (k : After T) :
    held h (.running call (afterWait handler k)) = 0 := by
  cases k <;> rfl

theorem held_resume (h call : Nat) (k : After T) (result : StatusOr T) :
    held h (.running call (resume k result)) = 0 := by
  cases k <;> cases result <;> rfl

theorem held_afterUpdate (h call : Nat) (changed : Bool) (v : T) (ret : Ret T) :
    held h (.running call (afterUpdate changed v ret)) = 0 := by
  cases changed <;> rfl

section

variable [DecidableEq T] [Add T] [Sub T] [OrOp T] [AndOp T]

omit [DecidableEq T] in
theorem held_updating {h call : Nat} {pc : Pc T} {v newValue : T}
    (ha : pc.apply v = some newValue) : held h (.running call pc) = 0 := by
  unfold Pc.apply at ha
  split at ha <;> first | rfl | cases ha

/-- A step of a call moves a handler between places and neither loses nor copies it; the
    only new handlers are those it passes itself. -/
theorem trans_located (h : Nat) {sh sh' : Shared T} {call : Nat} {pc pc' : Pc T}
    (ht : Trans sh call pc sh' pc') :
    held h (.running call pc') + inShared h sh' + passedN h sh =
      held h (.running call pc) + inShared h sh + passedN h sh' := by
  cases ht with
  | update applied same told => rw [held_updating applied, held_afterUpdate]; rfl
  | awaitModifyNone fn oldValue =>
    rw [passedN_addHandler]
    simp only [held, owned, inLocal, ownedHandler, localObservers, inShared, timesInvoked,
      Shared.addHandler, Option.some.injEq, List.count_nil, reduceCtorEq, if_false]
    omega
  | push handler lastSeen priorState k =>
    simp only [held, owned, inLocal, ownedHandler, localObservers, inShared, timesInvoked, passedN,
      List.count_append, List.count_singleton, beq_iff_eq, Option.some.injEq, List.count_nil,
      reduceCtorEq, if_false]
    omega
  | notifyTake newValue ret preLockState =>
    simp only [held, owned, inLocal, ownedHandler, localObservers, inShared, timesInvoked, passedN,
      List.count_nil, reduceCtorEq, if_false]
    omega
  | closeTake code priorState =>
    simp only [held, owned, inLocal, ownedHandler, localObservers, inShared, timesInvoked, passedN,
      List.count_nil, reduceCtorEq, if_false]
    omega
  | unlockPushed desiredState handler k => rw [held_afterWait]; rfl
  | invokeNow handler result k =>
    rw [held_afterWait, inShared_invoke, passedN_invoke]
    simp only [held, owned, inLocal, ownedHandler, localObservers, Option.some.injEq,
      List.count_nil]
    omega
  | invokeCons handler rest result ret =>
    rw [inShared_invoke, passedN_invoke]
    simp only [held, owned, inLocal, ownedHandler, localObservers, List.count_cons, beq_iff_eq,
      reduceCtorEq, if_false]
    omega
  | resume handler k result given => rw [held_resume]; rfl
  | _ => rfl

theorem step_located (h : Nat) {a : Act T} {sh sh' : Shared T} {l l' : Local T}
    (hs : step a sh l = some (sh', l')) :
    held h l' + inShared h sh' + passedN h sh = held h l + inShared h sh + passedN h sh' := by
  rcases step_cases hs with ⟨op, rfl, rfl, rfl⟩ | ⟨call, ret, rfl, rfl, rfl⟩ |
    ⟨call, pc, pc', rfl, ht, rfl⟩
  · cases op with
    | asyncWait lastSeen | awaitNotEqual lastSeen =>
      have hn := passedN_addHandler h sh lastSeen
      simp only [begin, held, owned, inLocal, ownedHandler, localObservers, inShared,
        timesInvoked, Option.some.injEq, List.count_nil, reduceCtorEq, if_false] at hn ⊢
      simp only [passedN, Shared.addHandler] at hn ⊢
      omega
    | _ => rfl
  · rfl
  · exact trans_located h ht

/-- Each handler number below the count of passed handlers is at exactly one place, the
    others at none. -/
theorem located_reachable (h : Nat) {n : Nat} {initValue : T} {c : Conf (Shared T) (Local T)}
    (hr : machine.Reachable (initial n initValue) c) :
    total (held h) c.locals + inShared h c.shared = passedN h c.shared := by
  refine machine.invariant
    (I := fun c => total (held h) c.locals + inShared h c.shared = passedN h c.shared) ?_ ?_ hr
  · intro c i a c' inv hf
    obtain ⟨l, sh', l', hi, _, hs, rfl⟩ := machine.fire_cases hf
    have hset := total_set (held h) l' hi
    have hstep := step_located h hs
    dsimp only at inv ⊢
    omega
  · simp [initial, total_replicate, held, owned, inLocal, ownedHandler, localObservers, inShared,
      timesInvoked, passedN]

/-- **Exactly-once delivery.** In every state of every interleaving, a handler passed to
    `async_wait` is at exactly one place: owned by its call, in `observers_`, in the local
    list of one `notify` or `close`, or invoked once. Whoever was invoked with an error got
    the status selected by the first `close` in lock order. -/
theorem delivered_exactly_once (n : Nat) (initValue : T) (c : Conf (Shared T) (Local T))
    (hr : machine.Reachable (initial n initValue) c) :
    (∀ h, total (owned h) c.locals + c.shared.observers.count h + total (inLocal h) c.locals +
        timesInvoked h c.shared = if h < c.shared.handlers.length then 1 else 0) ∧
      (∀ h status, (h, .error status) ∈ c.shared.invoked →
        ∃ code, c.shared.closers.head? = some code ∧ status = selectedStatus code) := by
  refine ⟨?_, ?_⟩
  · intro h
    have hsum : total (held h) c.locals = total (owned h) c.locals + total (inLocal h) c.locals :=
      total_add (owned h) (inLocal h) c.locals
    have hloc := located_reachable h hr
    rw [hsum] at hloc
    unfold inShared passedN at hloc
    omega
  · intro h status he
    exact (final_reachable hr).invoked (h, .error status) he status rfl

/-- A waiter and two closes that race: the waiter is told what the first close selected. -/
def racingCloses : List (Nat × Act (BitVec 64)) :=
  (0, Act.call (.asyncWait 7)) :: List.replicate 6 (0, Act.run) ++
    [(1, Act.call (.close .kEndOfStream)), (2, Act.call (.close .kClosedBeforeEndOfStream)),
      (2, Act.run), (1, Act.run), (2, Act.run), (2, Act.run), (1, Act.run), (1, Act.run),
      (1, Act.run), (2, Act.run), (2, Act.run)]

theorem delivered_exactly_once_racingCloses :
    ∃ c, machine.run racingCloses (initial 3 (7 : BitVec 64)) = some c ∧
      timesInvoked 0 c.shared = 1 ∧
      c.shared.invoked = [(0, .error .kClosedBeforeEndOfStream)] ∧
      c.shared.closers.head? = some .kClosedBeforeEndOfStream ∧
      total (owned 0) c.locals + c.shared.observers.count 0 + total (inLocal 0) c.locals +
        timesInvoked 0 c.shared = 1 := by
  refine ⟨_, rfl, rfl, rfl, rfl, ?_⟩
  exact (delivered_exactly_once 3 7 _ ⟨racingCloses, rfl⟩).1 0

end

end Batt.Watch
