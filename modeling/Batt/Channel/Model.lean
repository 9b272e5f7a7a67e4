/-
  `batt::Channel<T>` (`async/channel.hpp`): one producer, one consumer, two watches.

  `read_count_` and `write_count_` are watches of the `Watch` model, and the calls into them
  take their steps there: `fetch_add`, `async_wait`, `await_not_equal` and `close` are the
  program points of `Watch.exec`, `get_value` and `is_closed` are one load. `value_` is the
  object pointed to, `none` for `nullptr`.

  A handler passed to `async_wait` is a number in the watch; `bodies` gives what it does.
  The body makes no access to a watch and runs in the step that invokes it, by whichever
  party that is. The user's handler of `async_read` or `async_write` lets its party go on.

  The parties are in a loop: the producer starts a write when the one before has completed,
  the consumer consumes what it has read before it reads again. A failed `BATT_CHECK`, the
  dereference of a null `value_` and the overflow of a count end the run; `failure` says
  which it was.

  The fields below `failure` record the run and no step reads them.
-/
import Batt.Watch.Model

namespace Batt.Channel

open Interleave

abbrev I32 := BitVec 32

/-- `INT_MAX` of `i32`. -/
def i32Max : I32 := 0x7fffffff

inductive Failure where
  | check
  | nullValue
  | overflow
deriving DecidableEq, Repr

inductive Count where
  | read
  | write
deriving DecidableEq, Repr

/-- What a handler does with the count it is given: the closures of `async_read` and
    `async_write`, and the one that resumes a task. -/
inductive Body where
  | asyncRead (observedReadCount : I32)
  | asyncWrite (target : I32)
  | resume
deriving DecidableEq, Repr

structure Shared (V : Type) where
  readCount : Watch.Shared I32
  writeCount : Watch.Shared I32
  value : Option V
  /-- The bodies of the handlers passed to `read_count_`, by number. -/
  readBodies : List Body
  writeBodies : List Body
  failure : Option Failure
  /-- Values passed to the write calls, in order. -/
  written : List V
  /-- Values the reads that completed OK returned, in order. -/
  reads : List V
  /-- Number of values released by `consume`. -/
  consumed : Nat
  /-- Number of writes that completed OK. -/
  completed : Nat

inductive Mode where
  | asyncWrite
  | write
deriving DecidableEq, Repr

inductive Producer (V : Type) where
  | idle
  /-- The loads of `is_active`. -/
  | activeWrite (mode : Mode) (v : V)
  | activeRead (mode : Mode) (v : V) (writeCount : I32)
  | isClosed (mode : Mode) (v : V)
  | setValue (mode : Mode) (v : V)
  | loadLastSeen
  /-- In `write_count_.fetch_add(1)`, with the `last_seen` of `async_write`. -/
  | fetchAdd (lastSeen : Option I32) (pc : Watch.Pc I32)
  /-- In `read_count_.async_wait`. -/
  | asyncWait (handler : Nat) (pc : Watch.Pc I32)
  /-- `async_write` has returned. -/
  | awaitHandler (handler : Nat)
  /-- The load of `await_true` and the `await_not_equal` of its loop. -/
  | awaitLoad (target : I32)
  | awaitNotEqual (target : I32) (pc : Watch.Pc I32)
  | closing (pc : Watch.Pc I32)

inductive Consumer where
  | idle
  | isClosed
  | loadWrite
  | loadRead (observedWriteCount : I32)
  /-- In `write_count_.async_wait`. -/
  | asyncWait (handler : Nat) (pc : Watch.Pc I32)
  /-- `async_read` has returned. -/
  | awaitHandler (handler : Nat)
  | readLoad
  /-- In `write_count_.await_not_equal`. -/
  | awaitNotEqual (pc : Watch.Pc I32)
  | deref
  /-- A read has completed OK. -/
  | holding
  | activeWrite
  | activeRead (writeCount : I32)
  | clearValue
  /-- In `read_count_.fetch_add(1)`. -/
  | fetchAdd (pc : Watch.Pc I32)
  | closing (pc : Watch.Pc I32) (held : Bool)

inductive Local (V : Type) where
  | producer (p : Producer V)
  | consumer (q : Consumer)

inductive Act (V : Type) where
  | asyncWrite (v : V)
  | write (v : V)
  | closeForWrite
  | asyncRead
  | read
  | consume
  | closeForRead
  | run

variable {V : Type}

/-! ## Shared state -/

def Shared.watch (sh : Shared V) : Count → Watch.Shared I32
  | .read => sh.readCount
  | .write => sh.writeCount

def Shared.setWatch (sh : Shared V) (c : Count) (w : Watch.Shared I32) : Shared V :=
  match c with
  | .read => { sh with readCount := w }
  | .write => { sh with writeCount := w }

def Shared.bodies (sh : Shared V) : Count → List Body
  | .read => sh.readBodies
  | .write => sh.writeBodies

def Shared.fail (sh : Shared V) (f : Failure) : Shared V := { sh with failure := some f }

/-- `*this->value_`, handed to the reader. -/
def Shared.deliver (sh : Shared V) : Shared V :=
  match sh.value with
  | none => sh.fail .nullValue
  | some v => { sh with reads := sh.reads ++ [v] }

/-- The body of a handler, given `result`. -/
def Shared.runBody (sh : Shared V) : Body → StatusOr I32 → Shared V
  | .asyncRead observedReadCount, .ok updatedWriteCount =>
    if updatedWriteCount.toInt > observedReadCount.toInt then sh.deliver else sh.fail .check
  | .asyncRead _, .error _ => sh
  | .asyncWrite target, .ok observed =>
    if target = observed then { sh with value := none, completed := sh.completed + 1 }
    else sh.fail .check
  | .asyncWrite _, .error _ => { sh with value := none }
  | .resume, _ => sh

def Shared.runHandler (c : Count) (sh : Shared V) (e : Nat × StatusOr I32) : Shared V :=
  match (sh.bodies c)[e.1]? with
  | some body => sh.runBody body e.2
  | none => sh

/-- The next access of a call into a watch, with the bodies of the handlers it invokes. The
    sum `old_value + arg` of `fetch_add` is signed. -/
def Shared.watchStep (sh : Shared V) (c : Count) (pc : Watch.Pc I32) :
    Option (Shared V × Watch.Pc I32) :=
  match pc with
  | .fetch .add _ =>
    if (sh.watch c).value = i32Max then some (sh.fail .overflow, pc)
    else (Watch.exec true (sh.watch c) 0 pc).map fun r => (sh.setWatch c r.1, r.2)
  | _ =>
    (Watch.exec true (sh.watch c) 0 pc).map fun r =>
      let invoked := r.1.invoked.drop (sh.watch c).invoked.length
      (invoked.foldl (Shared.runHandler c) (sh.setWatch c r.1), r.2)

/-- Passes a handler with this body to `async_wait`, or to the one in `await_not_equal`. -/
def Shared.beginWait (sh : Shared V) (c : Count) (op : Watch.Op I32) (body : Body) :
    Shared V × Watch.Pc I32 :=
  let (w, pc) := Watch.begin (sh.watch c) op
  let sh := sh.setWatch c w
  (match c with
    | .read => { sh with readBodies := sh.readBodies ++ [body] }
    | .write => { sh with writeBodies := sh.writeBodies ++ [body] }, pc)

/-! ## The producer -/

/-- `write_count_.fetch_add(1)` has returned. -/
def afterFetchAdd (sh : Shared V) : Option I32 → Watch.Ret I32 → Option (Shared V × Producer V)
  | some lastSeen, .value old =>
    let target := old + 1
    if lastSeen + 1 = target then
      let (sh', pc) := sh.beginWait .read (.asyncWait lastSeen) (.asyncWrite target)
      some (sh', .asyncWait sh.readCount.handlers.length pc)
    else some (sh.fail .check, .idle)
  | none, .value old => some (sh, .awaitLoad (old + 1))
  | _, _ => none

/-- The test of the loop in `await_true`, for `await_equal(target)`. -/
def awaitEqual (sh : Shared V) (target observed : I32) : Shared V × Producer V :=
  if observed = target then ({ sh with completed := sh.completed + 1 }, .idle)
  else
    let (sh', pc) := sh.beginWait .read (.awaitNotEqual observed) .resume
    (sh', .awaitNotEqual target pc)

def afterAwaitNotEqual (sh : Shared V) (target : I32) :
    Watch.Ret I32 → Option (Shared V × Producer V)
  | .value observed => some (awaitEqual sh target observed)
  | .status _ => some (sh, .idle)
  | _ => none

def Producer.step (sh : Shared V) : Act V → Producer V → Option (Shared V × Producer V)
  | .asyncWrite v, .idle =>
    some ({ sh with written := sh.written ++ [v] }, .activeWrite .asyncWrite v)
  | .write v, .idle => some ({ sh with written := sh.written ++ [v] }, .activeWrite .write v)
  | .closeForWrite, .idle =>
    let (w, pc) := Watch.begin sh.writeCount (.close .kClosed)
    some ({ sh with writeCount := w }, .closing pc)
  | .run, .activeWrite mode v => some (sh, .activeRead mode v sh.writeCount.value)
  | .run, .activeRead mode v writeCount =>
    if (writeCount - sh.readCount.value).toInt > 0 then some (sh.fail .check, .idle)
    else some (sh, .isClosed mode v)
  | .run, .isClosed mode v =>
    if sh.writeCount.spinState &&& Watch.kOpen = 0 then some (sh, .idle)
    else some (sh, .setValue mode v)
  | .run, .setValue .asyncWrite v => some ({ sh with value := some v }, .loadLastSeen)
  | .run, .setValue .write v =>
    some ({ sh with value := some v }, .fetchAdd none (.fetch .add 1))
  | .run, .loadLastSeen => some (sh, .fetchAdd (some sh.readCount.value) (.fetch .add 1))
  | .run, .fetchAdd lastSeen pc =>
    (sh.watchStep .write pc).bind fun r =>
      match r.2 with
      | .finish ret => afterFetchAdd r.1 lastSeen ret
      | pc' => some (r.1, .fetchAdd lastSeen pc')
  | .run, .asyncWait handler pc =>
    (sh.watchStep .read pc).map fun r =>
      match r.2 with
      | .finish _ => (r.1, .awaitHandler handler)
      | pc' => (r.1, .asyncWait handler pc')
  | .run, .awaitHandler handler =>
    (sh.readCount.invoked.lookup handler).map fun _ => (sh, .idle)
  | .run, .awaitLoad target => some (awaitEqual sh target sh.readCount.value)
  | .run, .awaitNotEqual target pc =>
    (sh.watchStep .read pc).bind fun r =>
      match r.2 with
      | .finish ret => afterAwaitNotEqual r.1 target ret
      | pc' => some (r.1, .awaitNotEqual target pc')
  | .run, .closing pc =>
    (sh.watchStep .write pc).map fun r =>
      match r.2 with
      | .finish _ => (r.1, .idle)
      | pc' => (r.1, .closing pc')
  | _, _ => none

/-! ## The consumer -/

def Consumer.step (sh : Shared V) : Act V → Consumer → Option (Shared V × Consumer)
  | .asyncRead, .idle => some (sh, .isClosed)
  | .read, .idle => some (sh, .readLoad)
  | .consume, .holding => some (sh, .activeWrite)
  | .closeForRead, .idle =>
    let (w, pc) := Watch.begin sh.readCount (.close .kClosed)
    some ({ sh with readCount := w }, .closing pc false)
  | .closeForRead, .holding =>
    let (w, pc) := Watch.begin sh.readCount (.close .kClosed)
    some ({ sh with readCount := w }, .closing pc true)
  | .run, .isClosed =>
    if sh.readCount.spinState &&& Watch.kOpen = 0 then some (sh, .idle) else some (sh, .loadWrite)
  | .run, .loadWrite => some (sh, .loadRead sh.writeCount.value)
  | .run, .loadRead observedWriteCount =>
    if observedWriteCount.toInt > sh.readCount.value.toInt then some (sh, .deref)
    else
      let (sh', pc) := sh.beginWait .write (.asyncWait observedWriteCount)
        (.asyncRead sh.readCount.value)
      some (sh', .asyncWait sh.writeCount.handlers.length pc)
  | .run, .asyncWait handler pc =>
    (sh.watchStep .write pc).map fun r =>
      match r.2 with
      | .finish _ => (r.1, .awaitHandler handler)
      | pc' => (r.1, .asyncWait handler pc')
  | .run, .awaitHandler handler =>
    (sh.writeCount.invoked.lookup handler).map fun result =>
      match result with
      | .ok _ => (sh, .holding)
      | .error _ => (sh, .idle)
  | .run, .readLoad =>
    let (sh', pc) := sh.beginWait .write (.awaitNotEqual sh.readCount.value) .resume
    some (sh', .awaitNotEqual pc)
  | .run, .awaitNotEqual pc =>
    (sh.watchStep .write pc).bind fun r =>
      match r.2 with
      | .finish (.value _) => some (r.1, .deref)
      | .finish (.status _) => some (r.1, .idle)
      | .finish _ => none
      | pc' => some (r.1, .awaitNotEqual pc')
  | .run, .deref => some (sh.deliver, .holding)
  | .run, .activeWrite => some (sh, .activeRead sh.writeCount.value)
  | .run, .activeRead writeCount =>
    if (writeCount - sh.readCount.value).toInt > 0 then some (sh, .clearValue)
    else some (sh.fail .check, .idle)
  | .run, .clearValue =>
    some ({ sh with value := none, consumed := sh.consumed + 1 }, .fetchAdd (.fetch .add 1))
  | .run, .fetchAdd pc =>
    (sh.watchStep .read pc).map fun r =>
      match r.2 with
      | .finish _ => (r.1, .idle)
      | pc' => (r.1, .fetchAdd pc')
  | .run, .closing pc held =>
    (sh.watchStep .read pc).map fun r =>
      match r.2 with
      | .finish _ => (r.1, if held then .holding else .idle)
      | pc' => (r.1, .closing pc' held)
  | _, _ => none

/-! ## The channel -/

/-- After a failure nobody goes on. -/
def step (a : Act V) (sh : Shared V) (l : Local V) : Option (Shared V × Local V) :=
  if sh.failure.isSome then none
  else match l with
    | .producer p => (p.step sh a).map fun r => (r.1, .producer r.2)
    | .consumer q => (q.step sh a).map fun r => (r.1, .consumer r.2)

def machine : Machine (Shared V) (Local V) (Act V) where
  step := step

def newWatch : Watch.Shared I32 := (Watch.initial 0 (0 : I32)).shared

/-- A new channel, one producer and one consumer. -/
def initial : Conf (Shared V) (Local V) where
  shared :=
    { readCount := newWatch, writeCount := newWatch, value := none, readBodies := [],
      writeBodies := [], failure := none, written := [], reads := [], consumed := 0,
      completed := 0 }
  locals := [.producer .idle, .consumer .idle]

end Batt.Channel
