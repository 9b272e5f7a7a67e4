/-
  `batt::WatchAtomic<T>` (`async/watch_decl.hpp`, `async/watch_impl.hpp`).

  The shared state is the three members of the class: `value_`, the spin-lock word
  `spin_state_` and the handler list `observers_`. A thread runs one member function at a
  time; `Pc` says which access comes next. Every load, exchange, compare-exchange,
  `fetch_or` and store is one step, and so is every access to `observers_` and every
  invocation of a handler. Computation on locals is done in the step before or after it.

  The functions that several members call are phases of their own here, as they are
  functions of their own there: `lock_observers` (`lockObservers`), `unlock_observers`
  (`unlockObservers`), `get_final_status` (`getFinalStatus`), `notify` (`notifyLoad` and the
  `Site.notify` path) and `invoke_all_handlers` (`invokeAll`). A `Site` is a caller of
  `lock_observers`, an `Unlocked` what that caller does after `unlock_observers`.

  `await_not_equal` and `await_modify` pass `async_wait` a handler that resumes the waiting
  task. Such a call blocks in `awaitResult` until its handler has been invoked and then
  continues with the result the handler was given.

  A handler invoked by a thread may itself call into the watch. Its calls are calls of
  another thread of the configuration, which runs while the invoking one does not.

  A handler is a number, its position in `handlers`, the table of the `last_seen` each
  handler was passed with. The fields below `observers` record the run and no step reads
  them, except that `awaitResult` reads its own result from `invoked`.
-/
import Batt.Lib.Interleave
import Batt.Status

namespace Batt.Watch

open Interleave

/-! ## The spin-lock word -/

abbrev SpinState := BitVec 32

def kLocked : SpinState := 0x01
def kOpen : SpinState := 0x02
def kWaiting : SpinState := 0x04
def kClosedAtEnd : SpinState := 0x08
def kClosedBeforeEnd : SpinState := 0x10

/-- The word `close` stores: the closed bits are chosen by the first close only. -/
def closedState (finalStatusCode : StatusCode) (priorState : SpinState) : SpinState :=
  (priorState &&& ~~~(kOpen ||| kWaiting)) |||
    (if priorState &&& kOpen ≠ kOpen then 0
     else match finalStatusCode with
      | .kEndOfStream => kClosedAtEnd
      | .kClosedBeforeEndOfStream => kClosedBeforeEnd
      | _ => 0)

/-- `get_final_status`, on the loaded word. -/
def finalStatus (spinState : SpinState) : StatusCode :=
  let masked := spinState &&& (kClosedAtEnd ||| kClosedBeforeEnd)
  if masked = kClosedBeforeEnd then .kClosedBeforeEndOfStream
  else if masked = kClosedAtEnd then .kEndOfStream
  else .kClosed

/-! ## Calls -/

inductive FetchOp where
  | add
  | sub
  | or
  | and
  deriving DecidableEq, Repr

section

variable {T : Type} [Add T] [Sub T] [OrOp T] [AndOp T]

def FetchOp.apply : FetchOp → T → T → T
  | .add, old, arg => old + arg
  | .sub, old, arg => old - arg
  | .or, old, arg => old ||| arg
  | .and, old, arg => old &&& arg

end

inductive Op (T : Type) where
  | setValue (newValue : T)
  | fetch (op : FetchOp) (arg : T)
  | modify (fn : T → T)
  | modifyIf (fn : T → Option T)
  | awaitModify (fn : T → Option T)
  | asyncWait (lastSeen : T)
  | awaitNotEqual (lastSeen : T)
  | close (finalStatusCode : StatusCode)
  | getValue
  | isClosed

section

variable {T : Type}

def fetchAdd (arg : T) : Op T := .fetch .add arg
def fetchSub (arg : T) : Op T := .fetch .sub arg
def fetchOr (arg : T) : Op T := .fetch .or arg
def fetchAnd (arg : T) : Op T := .fetch .and arg

end

/-- What a call returns to its caller. -/
inductive Ret (T : Type) where
  | unit
  | flag (b : Bool)
  | value (v : T)
  | none
  | status (code : StatusCode)
  deriving DecidableEq

def Ret.ofStatusOr {T : Type} : StatusOr T → Ret T
  | .ok v => .value v
  | .error code => .status code

/-! ## Program points -/

/-- What a call does after the `async_wait` inside it has returned. -/
inductive After (T : Type) where
  | ret
  | awaitNotEqual
  | awaitModify (fn : T → Option T)

/-- The callers of `lock_observers`. -/
inductive Site (T : Type) where
  | asyncWait (handler : Nat) (lastSeen : T) (k : After T)
  | notify (newValue : T) (ret : Ret T)
  | close (finalStatusCode : StatusCode)

/-- What the caller does after `unlock_observers`. -/
inductive Unlocked (T : Type) where
  | waitClosed (handler : Nat) (k : After T)
  | waitPushed (handler : Nat) (k : After T)
  | waitChanged (handler : Nat) (nowSeen : T) (k : After T)
  | notified (localObservers : List Nat) (newValue : T) (ret : Ret T)
  | closed (localObservers : List Nat)

/-- Who asked for the final status: `async_wait` on a closed watch, or `close`. -/
inductive StatusFor (T : Type) where
  | wait (handler : Nat) (k : After T)
  | close (localObservers : List Nat)

inductive Pc (T : Type) where
  | exchange (newValue : T)
  | fetch (op : FetchOp) (arg : T)
  | modifyLoad (fn : T → T)
  | modifyCas (fn : T → T) (oldValue : T) (changed : Bool)
  | modifyIfLoad (fn : T → Option T)
  | modifyIfCas (fn : T → Option T) (oldValue : T) (changed : Bool)
  | awaitModifyLoad (fn : T → Option T)
  | awaitModifyCas (fn : T → Option T) (oldValue : T)
  | waitLoad (handler : Nat) (lastSeen : T) (k : After T)
  | notifyLoad (newValue : T) (ret : Ret T)
  | lockObservers (site : Site T)
  | inLock (site : Site T) (priorState : SpinState)
  | pushHandler (handler : Nat) (lastSeen : T) (priorState : SpinState) (k : After T)
  | unlockObservers (desiredState : SpinState) (k : Unlocked T)
  | getFinalStatus (k : StatusFor T)
  | invokeNow (handler : Nat) (result : StatusOr T) (k : After T)
  | invokeAll (localObservers : List Nat) (result : StatusOr T) (ret : Ret T)
  | awaitResult (handler : Nat) (k : After T)
  | loadValue
  | loadClosed
  | finish (ret : Ret T)

inductive Local (T : Type) where
  | idle
  | running (call : Nat) (pc : Pc T)

/-! ## The watch -/

/-- One update of `value_` by the call numbered `call`. -/
structure Link (T : Type) where
  call : Nat
  pre : T
  post : T
  deriving DecidableEq

structure Shared (T : Type) where
  value : T
  spinState : SpinState
  observers : List Nat
  /-- Calls made so far; the position is the call's number. -/
  calls : List (Op T)
  /-- Updates of `value`, oldest first. -/
  links : List (Link T)
  returns : List (Nat × Ret T)
  /-- `last_seen` of every handler passed to `async_wait`; the position is its number. -/
  handlers : List T
  invoked : List (Nat × StatusOr T)
  /-- Codes of the `close` calls in the order in which they took the lock. -/
  closers : List StatusCode

/-- The scheduler's choice: what an idle thread calls, that a thread takes its next step,
    or that its weak compare-exchange fails spuriously. -/
inductive Act (T : Type) where
  | call (op : Op T)
  | run
  | spurious

section

variable {T : Type}

def Shared.addHandler (sh : Shared T) (lastSeen : T) : Shared T :=
  { sh with handlers := sh.handlers ++ [lastSeen] }

/-- A thread's update of `value_`. -/
def Shared.update (sh : Shared T) (call : Nat) (newValue : T) : Shared T :=
  { sh with value := newValue, links := sh.links ++ [⟨call, sh.value, newValue⟩] }

def Shared.invoke (sh : Shared T) (handler : Nat) (result : StatusOr T) : Shared T :=
  { sh with invoked := sh.invoked ++ [(handler, result)] }

/-- Where `async_wait` leaves off: it returns, or its caller waits for the handler. -/
def afterWait (handler : Nat) : After T → Pc T
  | .ret => .finish .unit
  | .awaitNotEqual => .awaitResult handler .awaitNotEqual
  | .awaitModify fn => .awaitResult handler (.awaitModify fn)

/-- How the waiting call continues with what its handler was given. -/
def resume : After T → StatusOr T → Pc T
  | .awaitModify fn, .ok updatedValue => .awaitModifyCas fn updatedValue
  | _, result => .finish (.ofStatusOr result)

/-- First access of a call; `async_wait` and `await_not_equal` own a new handler. -/
def begin (sh : Shared T) : Op T → Shared T × Pc T
  | .setValue v => (sh, .exchange v)
  | .fetch op arg => (sh, .fetch op arg)
  | .modify fn => (sh, .modifyLoad fn)
  | .modifyIf fn => (sh, .modifyIfLoad fn)
  | .awaitModify fn => (sh, .awaitModifyLoad fn)
  | .asyncWait lastSeen => (sh.addHandler lastSeen, .waitLoad sh.handlers.length lastSeen .ret)
  | .awaitNotEqual lastSeen =>
    (sh.addHandler lastSeen, .waitLoad sh.handlers.length lastSeen .awaitNotEqual)
  | .close code => (sh, .lockObservers (.close code))
  | .getValue => (sh, .loadValue)
  | .isClosed => (sh, .loadClosed)

end

section

variable {T : Type} [DecidableEq T] [Add T] [Sub T] [OrOp T] [AndOp T]

/-- After an update: notify when the caller saw a change. -/
def afterUpdate (changed : Bool) (newValue : T) (ret : Ret T) : Pc T :=
  if changed then .notifyLoad newValue ret else .finish ret

/-- The next access of a call. `weak` is false where the compare-exchange of a
    `compare_exchange_weak` loop fails although the value matches. -/
def exec (weak : Bool) (sh : Shared T) (call : Nat) : Pc T → Option (Shared T × Pc T)
  | .exchange newValue =>
    some (sh.update call newValue, afterUpdate (sh.value ≠ newValue) newValue (.value sh.value))
  | .fetch op arg =>
    let newValue := op.apply sh.value arg
    some (sh.update call newValue, afterUpdate (sh.value ≠ newValue) newValue (.value sh.value))
  | .modifyLoad fn => some (sh, .modifyCas fn sh.value false)
  | .modifyCas fn oldValue changed =>
    let modifiedValue := fn oldValue
    let changed := changed || decide (modifiedValue ≠ oldValue)
    if weak ∧ sh.value = oldValue then
      some (sh.update call modifiedValue, afterUpdate changed modifiedValue (.value oldValue))
    else some (sh, .modifyCas fn sh.value changed)
  | .modifyIfLoad fn => some (sh, .modifyIfCas fn sh.value false)
  | .modifyIfCas fn oldValue changed =>
    match fn oldValue with
    | none => some (sh, .finish .none)
    | some modifiedValue =>
      let changed := changed || decide (modifiedValue ≠ oldValue)
      if weak ∧ sh.value = oldValue then
        some (sh.update call modifiedValue, afterUpdate changed modifiedValue (.value oldValue))
      else some (sh, .modifyIfCas fn sh.value changed)
  | .awaitModifyLoad fn => some (sh, .awaitModifyCas fn sh.value)
  | .awaitModifyCas fn oldValue =>
    match fn oldValue with
    | none =>
      some (sh.addHandler oldValue, .waitLoad sh.handlers.length oldValue (.awaitModify fn))
    | some modifiedValue =>
      if weak ∧ sh.value = oldValue then
        some (sh.update call modifiedValue,
          afterUpdate (modifiedValue ≠ oldValue) modifiedValue (.value oldValue))
      else some (sh, .awaitModifyCas fn sh.value)
  | .waitLoad handler lastSeen k =>
    if sh.value ≠ lastSeen then some (sh, .invokeNow handler (.ok sh.value) k)
    else some (sh, .lockObservers (.asyncWait handler lastSeen k))
  | .notifyLoad newValue ret =>
    if sh.spinState &&& (kLocked ||| kWaiting) = 0 then some (sh, .finish ret)
    else some (sh, .lockObservers (.notify newValue ret))
  | .lockObservers site =>
    if sh.spinState &&& kLocked = 0 then
      -- A close is recorded where it takes the lock: this is the order closes race in.
      let closers := match site with
        | .close code => sh.closers ++ [code]
        | _ => sh.closers
      some ({ sh with spinState := sh.spinState ||| kLocked, closers := closers },
        .inLock site sh.spinState)
    else some ({ sh with spinState := sh.spinState ||| kLocked }, .lockObservers site)
  | .inLock (.asyncWait handler lastSeen k) priorState =>
    if priorState &&& kOpen = 0 then
      some (sh, .unlockObservers priorState (.waitClosed handler k))
    else if sh.value ≠ lastSeen then
      some (sh, .unlockObservers priorState (.waitChanged handler sh.value k))
    else some (sh, .pushHandler handler lastSeen priorState k)
  | .inLock (.notify newValue ret) preLockState =>
    some ({ sh with observers := [] }, .unlockObservers (preLockState &&& ~~~kWaiting)
      (.notified sh.observers newValue ret))
  | .inLock (.close code) priorState =>
    some ({ sh with observers := [] }, .unlockObservers (closedState code priorState)
      (.closed sh.observers))
  | .pushHandler handler _ priorState k =>
    some ({ sh with observers := sh.observers ++ [handler] },
      .unlockObservers (priorState ||| kWaiting) (.waitPushed handler k))
  | .unlockObservers desiredState k =>
    some ({ sh with spinState := desiredState &&& ~~~kLocked },
      match k with
      | .waitClosed handler k => .getFinalStatus (.wait handler k)
      | .waitPushed handler k => afterWait handler k
      | .waitChanged handler nowSeen k => .invokeNow handler (.ok nowSeen) k
      | .notified localObservers newValue ret => .invokeAll localObservers (.ok newValue) ret
      | .closed localObservers => .getFinalStatus (.close localObservers))
  | .getFinalStatus (.wait handler k) =>
    some (sh, .invokeNow handler (.error (finalStatus sh.spinState)) k)
  | .getFinalStatus (.close localObservers) =>
    some (sh, .invokeAll localObservers (.error (finalStatus sh.spinState)) .unit)
  | .invokeNow handler result k => some (sh.invoke handler result, afterWait handler k)
  | .invokeAll [] _ ret => some (sh, .finish ret)
  | .invokeAll (handler :: rest) result ret =>
    some (sh.invoke handler result, .invokeAll rest result ret)
  | .awaitResult handler k =>
    (sh.invoked.lookup handler).map fun result => (sh, resume k result)
  | .loadValue => some (sh, .finish (.value sh.value))
  | .loadClosed => some (sh, .finish (.flag (decide (sh.spinState &&& kOpen = 0))))
  | .finish _ => none

/-- One step of a thread: make a call, take the next access of the current one, or return. -/
def step : Act T → Shared T → Local T → Option (Shared T × Local T)
  | .call op, sh, .idle =>
    let (sh', pc) := begin sh op
    some ({ sh' with calls := sh.calls ++ [op] }, .running sh.calls.length pc)
  | .run, sh, .running call (.finish ret) =>
    some ({ sh with returns := sh.returns ++ [(call, ret)] }, .idle)
  | .run, sh, .running call pc => (exec true sh call pc).map fun r => (r.1, .running call r.2)
  | .spurious, sh, .running call pc =>
    match pc with
    | .modifyCas _ _ _ | .modifyIfCas _ _ _ | .awaitModifyCas _ _ =>
      (exec false sh call pc).map fun r => (r.1, .running call r.2)
    | _ => none
  | _, _, _ => none

def machine : Machine (Shared T) (Local T) (Act T) where
  step := step

/-- A fresh watch and `n` threads that have made no call. -/
def initial (n : Nat) (initValue : T) : Conf (Shared T) (Local T) where
  shared :=
    { value := initValue, spinState := kOpen, observers := [], calls := [], links := [],
      returns := [], handlers := [], invoked := [], closers := [] }
  locals := List.replicate n .idle

end

end Batt.Watch
