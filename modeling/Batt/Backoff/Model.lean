/-
  `with_retry_policy` with an `ExponentialBackoff` (batteries/async/backoff.hpp).

  One pass of the `for (;;)` is a `turn`: the action is called, and the loop returns its result or
  sleeps and goes on. A loop that never returns is one whose turns never end, so `turns` counts
  them. The division by `backoff_divisor` traps when that is zero; there is no turn then. A sleep
  is recorded with the count of the duration it is called for, which is signed.
-/
import Mathlib.Data.List.Basic
import Mathlib.Algebra.GroupWithZero.Nat
import Mathlib.Data.UInt

namespace Batt.Backoff

structure RetryState where
  shouldRetry : Bool := false
  nAttempts : UInt64 := 0
  prevDelayUsec : UInt64 := 0
  nextDelayUsec : UInt64 := 0
deriving DecidableEq, Repr

structure ExponentialBackoff where
  /-- 0 means no maximum. -/
  maxAttempts : UInt64
  initialDelayUsec : UInt64
  backoffFactor : UInt64
  backoffDivisor : UInt64
  maxDelayUsec : UInt64
deriving DecidableEq, Repr

def withDefaultParams : ExponentialBackoff where
  maxAttempts := 40
  initialDelayUsec := 10
  backoffFactor := 2
  backoffDivisor := 1
  maxDelayUsec := 250 * 1000

/-- `std::min`. -/
def stdMin (a b : UInt64) : UInt64 := if b < a then b else a

/-- The delay after `prev`, with the 64-bit product of the source. -/
def nextDelay (policy : ExponentialBackoff) (prev : UInt64) : Option UInt64 :=
  if policy.backoffDivisor = 0 then none
  else some (stdMin policy.maxDelayUsec (prev * policy.backoffFactor / policy.backoffDivisor))

def updateRetryState (state : RetryState) (policy : ExponentialBackoff) : Option RetryState :=
  if policy.maxAttempts ≤ state.nAttempts then some { state with shouldRetry := false }
  else
    let attempts := state.nAttempts + 1
    let delay :=
      if attempts = 1 then some policy.initialDelayUsec
      else nextDelay policy state.nextDelayUsec
    delay.map fun next =>
      { shouldRetry := true
        nAttempts := attempts
        prevDelayUsec := state.nextDelayUsec
        nextDelayUsec := next }

/-! ## The loop -/

/-- The callables: call `i` of `action_fn` returns `result i`, and `retryable i` is what
    `status_is_retryable_impl` says of its status. -/
structure Action (R : Type) where
  result : Nat → R
  isOkStatus : R → Bool
  retryable : Nat → Bool

/-- The count of `boost::posix_time::microseconds(usec)`. -/
def microseconds (usec : UInt64) : Int64 := usec.toInt64

inductive Event where
  | call
  | sleep (duration : Int64)
deriving DecidableEq, Repr

/-- The loop after some turns. `trace` is what it has done. -/
structure Progress (R : Type) where
  state : RetryState := {}
  calls : Nat := 0
  trace : List Event := []
  returned : Option R := none
deriving DecidableEq, Repr

variable {R : Type}

def Progress.return (p : Progress R) (r : R) : Progress R :=
  { p with calls := p.calls + 1, trace := p.trace ++ [.call], returned := some r }

/-- One pass of the loop of `with_retry_policy`; it stays where it is once it has returned. -/
def turn (policy : ExponentialBackoff) (action : Action R) (p : Progress R) :
    Option (Progress R) :=
  if p.returned.isSome then some p
  else
    let result := action.result p.calls
    if action.isOkStatus result then some (p.return result)
    else if action.retryable p.calls then
      (updateRetryState p.state policy).map fun state =>
        if state.shouldRetry then
          { p with
            state := state
            calls := p.calls + 1
            trace := p.trace ++ [.call, .sleep (microseconds state.nextDelayUsec)] }
        else p.return result
    else some (p.return result)

def turns (policy : ExponentialBackoff) (action : Action R) : Nat → Option (Progress R)
  | 0 => some {}
  | n + 1 => (turns policy action n).bind (turn policy action)

end Batt.Backoff
