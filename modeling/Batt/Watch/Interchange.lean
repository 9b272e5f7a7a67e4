/-
  `Watch<T>`, which has a mutex, in the place of `WatchAtomic<T>` (`async/watch_decl.hpp`).

  A call of `Watch<T>` does its work under the mutex and then invokes the handlers it has taken
  out of the list, so with one thread it is a function of the state. The two classes differ in
  `async_wait` alone: one looks at `closed_` first and the other at the value. They can be told
  apart exactly by an `async_wait` on a closed watch whose value is not the one last seen
  (`interchangeable_iff`).
-/
import Batt.Watch.Sequential

namespace Batt.Watch

open Interleave

variable {T : Type} [DecidableEq T]

/-! ## `Watch<T>` -/

/-- `Watch::async_wait` looks at `closed_` first. -/
def watchWait (s : Sequential T) (handler : Nat) (lastSeen : T) : Sequential T :=
  if s.closed then s.invokeAll [handler] (.error .kClosed)
  else if s.value = lastSeen then { s with observers := s.observers ++ [handler] }
  else s.invokeAll [handler] (.ok s.value)

def watchCall : Sequential T → Call T → Sequential T := Sequential.call watchWait

def watchRun (initValue : T) (trace : List (Call T)) : Sequential T :=
  trace.foldl watchCall (.new initValue)

/-- Every `async_wait` on a closed watch has seen its value. -/
def WaitsSeen (initValue : T) (trace : List (Call T)) : Prop :=
  ∀ pre lastSeen post, trace = pre ++ .asyncWait lastSeen :: post →
    (watchRun initValue pre).closed = true → (watchRun initValue pre).value = lastSeen

theorem watchRun_concat (initValue : T) (trace : List (Call T)) (call : Call T) :
    watchRun initValue (trace ++ [call]) = watchCall (watchRun initValue trace) call :=
  List.foldl_concat ..

theorem watchAtomicRun_concat (initValue : T) (trace : List (Call T)) (call : Call T) :
    watchAtomicRun initValue (trace ++ [call]) =
      watchAtomicCall (watchAtomicRun initValue trace) call :=
  List.foldl_concat ..

/-! ## The two `async_wait` -/

theorem watchAtomicWait_eq {s : Sequential T} {lastSeen : T}
    (h : s.closed = true → s.value = lastSeen) (handler : Nat) :
    watchAtomicWait s handler lastSeen = watchWait s handler lastSeen := by
  unfold watchAtomicWait watchWait
  by_cases hclosed : s.closed = true
  · rw [if_neg (not_not.mpr (h hclosed)), if_pos hclosed, if_pos hclosed]
  · rw [if_neg hclosed, if_neg hclosed]
    by_cases hseen : s.value = lastSeen
    · rw [if_neg (not_not.mpr hseen), if_pos hseen]
    · rw [if_pos hseen, if_neg hseen]

/-- Closed, and the value not seen: one tells the value, the other that it is closed. -/
theorem wait_differs {s s' : Sequential T} {lastSeen : T} (hclosed : s'.closed = true)
    (hchanged : s.value ≠ lastSeen) (handler handler' : Nat) :
    (watchAtomicWait s handler lastSeen).invoked ≠ (watchWait s' handler' lastSeen).invoked := by
  unfold watchAtomicWait watchWait
  rw [if_pos hchanged, if_pos hclosed]
  intro h
  have hlast := congrArg List.getLast? h
  simp [Sequential.invokeAll] at hlast

/-! ## Traces -/

theorem WaitsSeen.of_append {initValue : T} {pre post : List (Call T)}
    (h : WaitsSeen initValue (pre ++ post)) : WaitsSeen initValue pre := by
  rintro p lastSeen q rfl
  exact h p lastSeen (q ++ post) (by simp)

theorem watchAtomicRun_eq {initValue : T} {trace : List (Call T)} (h : WaitsSeen initValue trace) :
    watchAtomicRun initValue trace = watchRun initValue trace := by
  induction trace using List.reverseRecOn with
  | nil => rfl
  | append_singleton trace call ih =>
    rw [watchRun_concat, watchAtomicRun_concat, ih h.of_append]
    cases call with
    | asyncWait lastSeen =>
      simp only [watchAtomicCall, watchCall, Sequential.call]
      refine watchAtomicWait_eq ?_ _
      exact h trace lastSeen [] rfl
    | _ => rfl

/-- The two watches look the same from outside: in the value, whether closed, and in what every
    handler has been invoked with so far. -/
structure Agrees (sh : Shared T) (s : Sequential T) : Prop where
  value : sh.value = s.value
  closed : (sh.spinState &&& kOpen = 0) ↔ s.closed = true
  invoked : sh.invoked = s.invoked

omit [DecidableEq T] in
theorem agrees_sequential (sh : Shared T) : Agrees sh sh.sequential where
  value := rfl
  closed := by
    rw [and_kOpen_eq_zero]
    simp [Shared.sequential]
  invoked := rfl

section

variable [Add T] [Sub T] [OrOp T] [AndOp T]

/-- **When `Watch<T>` and `WatchAtomic<T>` are interchangeable**: the two agree after every call of
    a trace, whichever way the calls of `WatchAtomic<T>` run, if and only if every `async_wait` of
    the trace on a closed watch is passed the current value. -/
theorem interchangeable_iff (initValue : T) (trace : List (Call T)) :
    (∀ (c : Conf (Shared T) (Local T)) (pre : List (Call T)),
        machine.Reachable (initial 1 initValue) c → c.locals = [.idle] → pre <+: trace →
        c.shared.calls = pre.map Call.op → Agrees c.shared (watchRun initValue pre)) ↔
      WaitsSeen initValue trace := by
  constructor
  · rintro hagrees pre lastSeen post rfl hclosed
    by_contra hchanged
    obtain ⟨c, hr, hidle, hcalls⟩ := sequential_total initValue pre
    obtain ⟨c', hr', hidle', hcalls'⟩ := sequential_total initValue (pre ++ [.asyncWait lastSeen])
    have hpre := hagrees c pre hr hidle (List.prefix_append _ _) hcalls
    have hwait := hagrees c' _ hr' hidle' ⟨post, by simp⟩ hcalls'
    have hvalue : (watchAtomicRun initValue pre).value = (watchRun initValue pre).value := by
      rw [← sequential_run hr hidle hcalls]
      exact hpre.value
    have hinvoked : (watchAtomicRun initValue (pre ++ [.asyncWait lastSeen])).invoked =
        (watchRun initValue (pre ++ [.asyncWait lastSeen])).invoked := by
      rw [← sequential_run hr' hidle' hcalls']
      exact hwait.invoked
    rw [watchRun_concat, watchAtomicRun_concat] at hinvoked
    simp only [watchAtomicCall, watchCall, Sequential.call] at hinvoked
    refine wait_differs ?_ ?_ _ _ hinvoked
    · exact hclosed
    · exact hvalue ▸ hchanged
  · rintro hseen c pre hr hidle ⟨post, rfl⟩ hcalls
    rw [← watchAtomicRun_eq hseen.of_append, ← sequential_run hr hidle hcalls]
    exact agrees_sequential c.shared

end

/-- **Told apart**: after `close()`, a wait for another value than 3 on a watch that holds 7. The
    handler is given 7 by `WatchAtomic`, and `kClosed` by `Watch`. -/
theorem closed_wait_differs :
    ∃ c : Conf (Shared (BitVec 64)) (Local (BitVec 64)),
      machine.run ((0, Act.call (.close .kClosed)) :: List.replicate 6 (0, Act.run) ++
        (0, Act.call (.asyncWait 3)) :: List.replicate 3 (0, Act.run)) (initial 1 7) = some c ∧
      c.locals.length = 1 ∧ c.shared.invoked = [(0, .ok 7)] ∧
      (watchRun (7 : BitVec 64) [.close, .asyncWait 3]).invoked = [(0, .error .kClosed)] ∧
      ¬ Agrees c.shared (watchRun 7 [.close, .asyncWait 3]) := by
  refine ⟨_, rfl, rfl, rfl, rfl, ?_⟩
  intro h
  exact absurd h.invoked (by decide)

end Batt.Watch
