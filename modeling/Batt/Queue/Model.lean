/-
  `batt::Queue` (`async/queue.hpp`): a deque behind a mutex and a watch that counts the items
  a consumer may still reserve.

  Any number of tasks push and pop. Every access to `pending_count_`, taking and giving back the
  lock of `pending_items_`, and every access to the deque under it is one step; an insertion of
  several items is one step for each item. The lock is a `batt::Mutex`, which is granted to one
  task at a time; here it is a flag, and a task that wants it is blocked while it is set.

  `await_modify` blocks until the watch is closed or a mutator hands over a value the watch has
  held (`past`); which one, and how late, is up to the schedule (`Act.woken`). `fetch_add` on an
  `i64` wraps around. A failed `BATT_CHECK` ends the program: there is no step.

  `pop_next_or_panic` is not called from outside here: every consumer reserves its item through
  `pending_count_` first. `inserted`, `batches` and `popped` record the run and no step reads
  them.
-/
import Batt.Lib.Interleave
import Batt.Status

namespace Batt.Queue

open Interleave

/-! ## The queue -/

structure Shared (T : Type) where
  pendingCount : Int
  past : List Int
  closed : Bool
  locked : Bool
  items : List T
  /-- Everything put into the deque, oldest first. -/
  inserted : List T
  /-- The arguments of the pushes that have given the lock back, in that order. -/
  batches : List (List T)
  /-- Everything taken out of the deque, oldest first. -/
  popped : List T

/-- `fetch_add` on an `i64`. -/
def addI64 (n count : Int) : Int := Int.bmod (n + count) (2 ^ 64)

def decrementIfPositive (n : Int) : Option Int := if n > 0 then some (n - 1) else none

/-! ## Calls -/

inductive Op (T : Type) where
  | push (args : T)
  | pushWithLock (factory : T)
  | pushAll (items : List T)
  | awaitNext
  | tryPopNext
  | drain
  | close
  deriving DecidableEq, Repr

inductive Ret (T : Type) where
  | unit
  | flag (b : Bool)
  | item (v : T)
  | none
  | count (n : Nat)
  | status (code : StatusCode)
  deriving DecidableEq, Repr

/-- The callers of `pop_next_or_panic`. For `drain`, the number of items so far. -/
inductive Caller where
  | awaitNext
  | tryPopNext
  | drain (count : Nat)
  deriving DecidableEq, Repr

inductive Pc (T : Type) where
  | isOpen (batch : List T)
  | lockPush (batch : List T)
  | insert (done rest : List T)
  | notify (batch : List T)
  | awaitModifyLoad
  | awaitModifyCas (old : Int)
  | awaitNotEqual (old : Int)
  | modifyIfLoad (k : Caller)
  | modifyIfCas (k : Caller) (old : Int)
  | lockPop (k : Caller)
  | front (k : Caller)
  | popFront (k : Caller) (v : T)
  | unlockPop (k : Caller) (v : T)
  | closePending
  | finish (ret : Ret T)
  deriving DecidableEq, Repr

inductive Local (T : Type) where
  | idle
  | running (pc : Pc T)
  deriving DecidableEq, Repr

inductive Act (T : Type) where
  | call (op : Op T)
  | run
  | spurious
  | woken (v : Int)

section

variable {T : Type}

def begin : Op T → Pc T
  | .push args => .isOpen [args]
  | .pushWithLock factory => .isOpen [factory]
  | .pushAll items => .isOpen items
  | .awaitNext => .awaitModifyLoad
  | .tryPopNext => .modifyIfLoad .tryPopNext
  | .drain => .modifyIfLoad (.drain 0)
  | .close => .closePending

/-! ## Steps -/

def Shared.setPending (sh : Shared T) (n : Int) : Shared T :=
  { sh with pendingCount := n, past := sh.pendingCount :: sh.past }

/-- `try_acquire` returned false. -/
def afterEmpty : Caller → Pc T
  | .awaitNext | .tryPopNext => .finish .none
  | .drain count => .finish (.count count)

/-- `pop_next_or_panic` returned `v`. -/
def afterPop (v : T) : Caller → Pc T
  | .awaitNext | .tryPopNext => .finish (.item v)
  | .drain count => .modifyIfLoad (.drain (count + 1))

/-- The next access of a call. `weak` is false where `compare_exchange_weak` fails although
    the value matches. -/
def exec (weak : Bool) (sh : Shared T) : Pc T → Option (Shared T × Pc T)
  | .isOpen batch =>
    some (sh, if sh.closed then .finish (.flag false) else .lockPush batch)
  | .lockPush batch =>
    if sh.locked then none else some ({ sh with locked := true }, .insert [] batch)
  | .insert done (x :: rest) =>
    some ({ sh with items := sh.items ++ [x], inserted := sh.inserted ++ [x] },
      .insert (done ++ [x]) rest)
  | .insert done [] =>
    some ({ sh with locked := false, batches := sh.batches ++ [done] }, .notify done)
  | .notify batch =>
    some (sh.setPending (addI64 sh.pendingCount batch.length), .finish (.flag true))
  | .awaitModifyLoad => some (sh, .awaitModifyCas sh.pendingCount)
  | .awaitModifyCas old =>
    match decrementIfPositive old with
    | none => some (sh, .awaitNotEqual old)
    | some new =>
      if weak ∧ sh.pendingCount = old then some (sh.setPending new, .lockPop .awaitNext)
      else some (sh, .awaitModifyCas sh.pendingCount)
  | .awaitNotEqual _ => if sh.closed then some (sh, .finish (.status .kClosed)) else none
  | .modifyIfLoad k => some (sh, .modifyIfCas k sh.pendingCount)
  | .modifyIfCas k old =>
    match decrementIfPositive old with
    | none => some (sh, afterEmpty k)
    | some new =>
      if weak ∧ sh.pendingCount = old then some (sh.setPending new, .lockPop k)
      else some (sh, .modifyIfCas k sh.pendingCount)
  | .lockPop k => if sh.locked then none else some ({ sh with locked := true }, .front k)
  | .front k =>
    -- `BATT_CHECK(!locked->empty())`
    match sh.items with
    | [] => none
    | v :: _ => some (sh, .popFront k v)
  | .popFront k v =>
    some ({ sh with items := sh.items.tail, popped := sh.popped ++ [v] }, .unlockPop k v)
  | .unlockPop k v => some ({ sh with locked := false }, afterPop v k)
  | .closePending => some ({ sh with closed := true }, .finish .unit)
  | .finish _ => none

def step : Act T → Shared T → Local T → Option (Shared T × Local T)
  | .call op, sh, .idle => some (sh, .running (begin op))
  | .run, sh, .running (.finish _) => some (sh, .idle)
  | .run, sh, .running pc => (exec true sh pc).map fun r => (r.1, .running r.2)
  | .spurious, sh, .running pc =>
    match pc with
    | .awaitModifyCas _ | .modifyIfCas _ _ =>
      (exec false sh pc).map fun r => (r.1, .running r.2)
    | _ => none
  | .woken v, sh, .running (.awaitNotEqual _) =>
    if v ∈ sh.pendingCount :: sh.past then some (sh, .running (.awaitModifyCas v)) else none
  | _, _, _ => none

def machine : Machine (Shared T) (Local T) (Act T) where
  step := step

/-- An empty queue and `n` tasks. -/
def initial (n : Nat) : Conf (Shared T) (Local T) where
  shared :=
    { pendingCount := 0, past := [], closed := false, locked := false, items := [],
      inserted := [], batches := [], popped := [] }
  locals := List.replicate n .idle

end

end Batt.Queue
