/-
  `batt::Latch<T>` (`async/latch.hpp`): a write-once container.

  `state_` is a watch of the `Watch` model and the calls into it take their steps there. `value_`
  is a `batt::Optional`: the flag `valid_` and the storage, which holds no readable value until
  its constructor has come to its end.

  A handler passed to `state_.async_wait` is a number in the watch; `bodies` gives what it does.
  The body of `async_get` runs on the stack of the thread that invokes it, and may call
  `async_wait` again from there. So a thread is a stack of frames, the innermost call first. The
  handler of the user runs there too (`Frame.user`) and may itself make calls on the latch.

  A failed `BATT_CHECK` and a read of storage that holds no value end the run, with the frame where
  it happened on the stack; `failure` says which it was.

  Calls have numbers, their positions in `calls`; the handler passed to `async_get` has the number
  of that call. The fields below `failure` record the run and no step reads them, except that
  a new call takes its number from `calls`.
-/
import Batt.Watch.Model

namespace Batt.Latch

open Interleave

abbrev U32 := BitVec 32

def kInitial : U32 := 0
def kSetting : U32 := 1
def kReady : U32 := 3

inductive Failure where
  /-- An OK status where the code asks for an error: `set_error`, the constructor of `StatusOr`. -/
  | okStatus
  /-- A check of `get_ready_value_or_panic` or of `AsyncGetHandler`. -/
  | check
  | uninitialised
deriving DecidableEq, Repr

/-- What a handler of `state_` does: `AsyncGetHandler` with the user's handler bound to it, or the
    closure that resumes a task. -/
inductive Body where
  | asyncGet (handler : Nat)
  | resume
deriving DecidableEq, Repr

/-- A status passed to `set_value` or `set_error` is its code. -/
inductive Op (T : Type) where
  | setValue (v : StatusOr T)
  | setError (status : StatusCode)
  | isReady
  | await
  | poll
  | asyncGet

inductive Ret (T : Type) where
  | set (b : Bool)
  | ready (b : Bool)
  | result (r : StatusOr T)
  | unit

structure Shared (T : Type) where
  state : Watch.Shared U32
  valid : Bool
  storage : Option (StatusOr T)
  /-- The bodies of the handlers passed to `state_.async_wait`, by number. -/
  bodies : List Body
  failure : Option Failure
  calls : List (Op T)
  returns : List (Nat × Ret T)
  /-- What the handlers passed to `async_get` have been invoked with. -/
  given : List (Nat × StatusOr T)

/-- Where a call into `state_` is made. -/
inductive Site (T : Type) where
  /-- `fetch_or(kSetting)` of `set_value`. -/
  | fetchOr (v : StatusOr T)
  /-- `set_value(kReady)` of `set_value`. -/
  | setReady
  /-- `await_not_equal` in the loop of `await_true`. -/
  | awaitNotEqual
  /-- `async_wait` of `async_get`, and of `AsyncGetHandler`. -/
  | asyncGet
  | rearm

inductive Frame (T : Type) where
  | setError (call : Nat) (status : StatusCode)
  | inWatch (call : Nat) (site : Site T) (pc : Watch.Pc U32)
  /-- The steps of `value_.emplace`: the test of `valid_`, the constructor, the store to `valid_`. -/
  | emplace (call : Nat) (v : StatusOr T)
  | construct (call : Nat) (v : StatusOr T)
  | engage (call : Nat)
  | isReady (call : Nat)
  | poll (call : Nat)
  /-- The load of `await_true`. -/
  | awaitLoad (call : Nat)
  /-- The two checks of `get_ready_value_or_panic`, and its copy of the value. -/
  | checkReady (call : Nat)
  | checkValue (call : Nat)
  | readValue (call : Nat)
  /-- `AsyncGetHandler::operator()` with this result, and its copy of the value. -/
  | handler (call : Nat) (result : StatusOr U32)
  | handlerRead (call : Nat)
  /-- In the handler of the user. -/
  | user

inductive Act (T : Type) where
  | call (op : Op T)
  | run

variable {T : Type}

/-! ## Shared state -/

def Shared.fail (sh : Shared T) (f : Failure) : Shared T := { sh with failure := some f }

def Shared.return (sh : Shared T) (call : Nat) (ret : Ret T) : Shared T :=
  { sh with returns := sh.returns ++ [(call, ret)] }

def Shared.give (sh : Shared T) (handler : Nat) (r : StatusOr T) : Shared T :=
  { sh with given := sh.given ++ [(handler, r)] }

/-- Passes a handler with this body to `async_wait`, or to the one in `await_not_equal`. -/
def Shared.beginWait (sh : Shared T) (op : Watch.Op U32) (body : Body) :
    Shared T × Watch.Pc U32 :=
  let (w, pc) := Watch.begin sh.state op
  ({ sh with state := w, bodies := sh.bodies ++ [body] }, pc)

/-- The call a handler makes when it is invoked; resuming a task is none. -/
def Shared.frameOf (sh : Shared T) (e : Nat × StatusOr U32) : Option (Frame T) :=
  match sh.bodies[e.1]? with
  | some (.asyncGet handler) => some (.handler handler e.2)
  | _ => none

/-- The next access of a call into `state_`. The handlers it invokes go on the stack. -/
def Shared.watchStep (sh : Shared T) (call : Nat) (site : Site T) (pc : Watch.Pc U32) :
    Option (Shared T × List (Frame T)) :=
  (Watch.exec true sh.state call pc).map fun r =>
    let invoked := r.1.invoked.drop sh.state.invoked.length
    ({ sh with state := r.1 }, invoked.filterMap sh.frameOf ++ [.inWatch call site r.2])

/-! ## Steps -/

/-- The test of the loop in `await_true`, for `await_equal(kReady)`. -/
def awaitEqual (sh : Shared T) (call : Nat) (observed : U32) : Shared T × List (Frame T) :=
  if observed = kReady then (sh, [.checkReady call])
  else
    let (sh', pc) := sh.beginWait (.awaitNotEqual observed) .resume
    (sh', [.inWatch call .awaitNotEqual pc])

/-- A call into `state_` has returned. -/
def afterWatch (sh : Shared T) (call : Nat) :
    Site T → Watch.Ret U32 → Option (Shared T × List (Frame T))
  | .fetchOr v, .value priorState =>
    if priorState ≠ kInitial then some (sh.return call (.set false), [])
    else some (sh, [.emplace call v])
  | .setReady, _ => some (sh.return call (.set true), [])
  | .awaitNotEqual, .value observed => some (awaitEqual sh call observed)
  | .awaitNotEqual, .status code => some (sh.return call (.result (.error code)), [])
  | .asyncGet, _ => some (sh.return call .unit, [])
  | .rearm, _ => some (sh, [])
  | _, _ => none

/-- The next step of the innermost call, and the frames it leaves in its place. -/
def Frame.step (sh : Shared T) : Frame T → Option (Shared T × List (Frame T))
  | .setError call status =>
    if status = .kOk then some (sh.fail .okStatus, [.setError call status])
    else some (sh, [.inWatch call (.fetchOr (.error status)) (.fetch .or kSetting)])
  | .inWatch call site (.finish ret) => afterWatch sh call site ret
  | .inWatch call site pc => sh.watchStep call site pc
  | .emplace call v =>
    if sh.valid then some ({ sh with valid := false, storage := none }, [.construct call v])
    else some (sh, [.construct call v])
  | .construct call (.error .kOk) => some (sh.fail .okStatus, [.construct call (.error .kOk)])
  | .construct call v => some ({ sh with storage := some v }, [.engage call])
  | .engage call =>
    some ({ sh with valid := true }, [.inWatch call .setReady (.exchange kReady)])
  | .isReady call => some (sh.return call (.ready (sh.state.value = kReady)), [])
  | .poll call =>
    if sh.state.value ≠ kReady then some (sh.return call (.result (.error .kUnavailable)), [])
    else some (sh, [.checkReady call])
  | .awaitLoad call => some (awaitEqual sh call sh.state.value)
  | .checkReady call =>
    if sh.state.value = kReady then some (sh, [.checkValue call])
    else some (sh.fail .check, [.checkReady call])
  | .checkValue call =>
    if sh.valid then some (sh, [.readValue call]) else some (sh.fail .check, [.checkValue call])
  | .readValue call =>
    match sh.storage with
    | some v => some (sh.return call (.result v), [])
    | none => some (sh.fail .uninitialised, [.readValue call])
  | .handler call (.error code) => some (sh.give call (.error code), [.user])
  | .handler call (.ok observed) =>
    if observed = kReady then
      if sh.valid then some (sh, [.handlerRead call])
      else some (sh.fail .check, [.handler call (.ok observed)])
    else
      let (sh', pc) := sh.beginWait (.asyncWait observed) (.asyncGet call)
      some (sh', [.inWatch call .rearm pc])
  | .handlerRead call =>
    match sh.storage with
    | some v => some (sh.give call v, [.user])
    | none => some (sh.fail .uninitialised, [.handlerRead call])
  | .user => some (sh, [])

/-- The call numbered `call`. -/
def begin (sh : Shared T) (call : Nat) : Op T → Shared T × List (Frame T)
  | .setValue v => (sh, [.inWatch call (.fetchOr v) (.fetch .or kSetting)])
  | .setError status => (sh, [.setError call status])
  | .isReady => (sh, [.isReady call])
  | .await => (sh, [.awaitLoad call])
  | .poll => (sh, [.poll call])
  | .asyncGet =>
    let (sh', pc) := sh.beginWait (.asyncWait kInitial) (.asyncGet call)
    (sh', [.inWatch call .asyncGet pc])

/-- Whether the thread is in the user's code. -/
def mayCall : List (Frame T) → Bool
  | [] => true
  | .user :: _ => true
  | _ => false

/-- After a failure nobody goes on. -/
def step (a : Act T) (sh : Shared T) (stack : List (Frame T)) :
    Option (Shared T × List (Frame T)) :=
  if sh.failure.isSome then none
  else match a, stack with
    | .call op, stack =>
      if mayCall stack then
        let (sh', frames) := begin { sh with calls := sh.calls ++ [op] } sh.calls.length op
        some (sh', frames ++ stack)
      else none
    | .run, frame :: rest => (frame.step sh).map fun r => (r.1, r.2 ++ rest)
    | .run, [] => none

def machine : Machine (Shared T) (List (Frame T)) (Act T) where
  step := step

/-- A new latch and `n` threads that have made no call. -/
def initial (n : Nat) : Conf (Shared T) (List (Frame T)) where
  shared :=
    { state := (Watch.initial 0 kInitial).shared, valid := false, storage := none, bodies := [],
      failure := none, calls := [], returns := [], given := [] }
  locals := List.replicate n []

end Batt.Latch
