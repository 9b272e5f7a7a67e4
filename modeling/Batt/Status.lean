/-
  Status codes (`batteries/status.hpp`, `enum class StatusCode`) and `StatusOr<T>`, a value
  or the code of a status that is not OK. The registry of code groups and messages behind
  `Status` is not needed to tell two of these codes apart.
-/
import Mathlib.Data.List.Basic

namespace Batt

inductive StatusCode where
  | kOk
  | kCancelled
  | kUnknown
  | kInvalidArgument
  | kDeadlineExceeded
  | kNotFound
  | kAlreadyExists
  | kPermissionDenied
  | kResourceExhausted
  | kFailedPrecondition
  | kAborted
  | kOutOfRange
  | kUnimplemented
  | kInternal
  | kUnavailable
  | kDataLoss
  | kUnauthenticated
  | kClosed
  | kGrantUnavailable
  | kLoopBreak
  | kEndOfStream
  | kClosedBeforeEndOfStream
  | kGrantRevoked
  deriving DecidableEq, Repr

abbrev StatusOr (T : Type) := Except StatusCode T

instance {T : Type} [DecidableEq T] : DecidableEq (StatusOr T)
  | .ok a, .ok b => decidable_of_iff (a = b) (by simp)
  | .error a, .error b => decidable_of_iff (a = b) (by simp)
  | .ok _, .error _ => isFalse (by simp)
  | .error _, .ok _ => isFalse (by simp)

end Batt
