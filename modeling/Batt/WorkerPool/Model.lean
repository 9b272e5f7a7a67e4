/-
  `batt::WorkerPool`, `batt::Worker` and `batt::WorkContext` (`async/worker_pool.hpp`,
  `async/worker.hpp`, `async/work_context.hpp`).

  A pool is a `work_queue` for each worker (a queue of the `Queue` model, whose accesses are steps
  there) and the counter that deals the items out. A context is a watch (`work_count_`, whose
  accesses are steps of the `Watch` model) and `ref_count_`. A thread is the task of a worker, or
  it is any other thread that submits work, waits for it or halts the pool.

  A thread has the work functions it is running, innermost first; there is more than one where a
  pool without workers runs them on the caller's thread. Inside a work function, and outside of
  all, the code is the user's (`Pc.user`): it may call `async_run` any number of times, on any
  context or on the pool itself, and at last returns. So every tree of work items is a run.

  The counts are of items that exist in memory, which an `i64` holds. A failed `BATT_CHECK` ends
  the program (`panicked`). The fields below `panicked`, and `awaited` and `returned` of a context,
  record the run and no step reads them; an item's number is its place in `submitted`.
-/
import Batt.Watch.Model
import Batt.Queue.Model
import Mathlib.Data.Int.Bitwise

namespace Batt.WorkerPool

open Interleave

/-- The bitwise operations of a watch on integers. -/
scoped instance intOrOp : OrOp Int := ⟨Int.lor⟩
scoped instance intAndOp : AndOp Int := ⟨Int.land⟩

/-- A work function passed to `async_run`, through a context or to the pool itself. -/
structure Item where
  id : Nat
  context : Option Nat
  deriving DecidableEq, Repr

structure Context where
  workCount : Watch.Shared Int
  refCount : Int
  /-- `await_done` has been called. -/
  awaited : Bool
  /-- A call of `await_done` has returned. -/
  returned : Bool

structure Shared where
  /-- `workers_[i]->work_queue`. -/
  queues : List (Queue.Shared Item)
  roundRobin : Nat
  contexts : List Context
  panicked : Bool
  submitted : List Item
  /-- The items that were refused because the queue was closed. -/
  dropped : List Item
  /-- The work functions entered, oldest first. -/
  ran : List Item
  /-- The work functions that have returned, oldest first. -/
  finished : List Item

inductive Pc where
  | user
  /-- `on_work_started`. -/
  | startRef (item : Item)
  | startWork (item : Item) (pc : Watch.Pc Int)
  /-- `WorkerPool::async_run`. -/
  | pick (item : Item)
  | push (worker : Nat) (item : Item) (pc : Queue.Pc Item)
  /-- `on_work_finished`, of the innermost work function. -/
  | finishWork (pc : Watch.Pc Int)
  | finishRef
  /-- `await_done`: the load and the predicate of `await_true`, its `await_not_equal`, and the loop
      on `ref_count_`. -/
  | awaitLoad (context : Nat)
  | awaitCheck (context : Nat) (count : Int)
  | awaitNotEqual (context : Nat) (pc : Watch.Pc Int)
  | awaitRef (context : Nat)
  /-- The loop of a worker is in `work_queue.await_next()`. -/
  | next (pc : Queue.Pc Item)
  | exited
  /-- `halt` has closed this many queues. -/
  | halt (closed : Nat)

structure Thread where
  /-- The worker whose task this is. -/
  worker : Option Nat
  stack : List Item
  pc : Pc

inductive Act where
  | asyncRun (context : Option Nat)
  | workReturns
  | awaitDone (context : Nat)
  | halt
  | run
  | spurious
  | woken (v : Int)
  deriving DecidableEq, Repr

/-! ## Accesses -/

def Shared.setQueue (sh : Shared) (w : Nat) (q : Queue.Shared Item) : Shared :=
  { sh with queues := sh.queues.set w q }

def Shared.setContext (sh : Shared) (k : Nat) (ctx : Context) : Shared :=
  { sh with contexts := sh.contexts.set k ctx }

/-- The next access of a call into a queue. -/
def queueStep (a : Act) (q : Queue.Shared Item) (pc : Queue.Pc Item) :
    Option (Queue.Shared Item × Queue.Pc Item) :=
  match a, pc with
  | .run, pc => Queue.exec true q pc
  | .spurious, .awaitModifyCas old => Queue.exec false q (.awaitModifyCas old)
  | .woken v, .awaitNotEqual _ =>
    if v ∈ q.pendingCount :: q.past then some (q, .awaitModifyCas v) else none
  | _, _ => none

/-- The next access of a call into a context's `work_count_`. -/
def Shared.watchStep (sh : Shared) (k : Nat) (pc : Watch.Pc Int) :
    Option (Shared × Watch.Pc Int) :=
  (sh.contexts[k]?).bind fun ctx =>
    (Watch.exec true ctx.workCount 0 pc).map fun r =>
      (sh.setContext k { ctx with workCount := r.1 }, r.2)

def Shared.addRef (sh : Shared) (k : Nat) (delta : Int) : Option Shared :=
  (sh.contexts[k]?).map fun ctx => sh.setContext k { ctx with refCount := ctx.refCount + delta }

/-! ## Threads -/

/-- A work function has been left: a worker goes on with its loop, anybody else with the code
    that called `async_run`. -/
def Thread.leave (t : Thread) : Thread :=
  let stack := t.stack.tail
  let pc := if t.worker.isSome && stack.isEmpty then .next .awaitModifyLoad else .user
  { t with stack := stack, pc := pc }

/-- A work function is entered. -/
def enter (sh : Shared) (t : Thread) (item : Item) : Shared × Thread :=
  ({ sh with ran := sh.ran ++ [item] }, { t with stack := item :: t.stack, pc := .user })

/-- The innermost work function has returned; `on_exit` of a context's item runs now. -/
def workReturns (sh : Shared) (t : Thread) : Option (Shared × Thread) :=
  match t.stack with
  | [] => none
  | item :: _ =>
    let sh := { sh with finished := sh.finished ++ [item] }
    match item.context with
    | some _ => some (sh, { t with pc := .finishWork (.fetch .sub 1) })
    | none => some (sh, t.leave)

/-- The predicate of `await_done` on a count it has loaded or was told. -/
def awaitCheck (sh : Shared) (t : Thread) (k : Nat) (count : Int) : Option (Shared × Thread) :=
  if count < 0 then some ({ sh with panicked := true }, t)
  else if count ≤ 0 then some (sh, { t with pc := .awaitRef k })
  else
    (sh.contexts[k]?).map fun ctx =>
      let (w, pc) := Watch.begin ctx.workCount (.awaitNotEqual count)
      (sh.setContext k { ctx with workCount := w }, { t with pc := .awaitNotEqual k pc })

def Thread.run (sh : Shared) (t : Thread) : Option (Shared × Thread) :=
  match t.pc, t.stack with
  | .startRef item, _ =>
    item.context.bind fun k =>
      (sh.addRef k 1).map fun sh' => (sh', { t with pc := .startWork item (.fetch .add 1) })
  | .startWork item pc, _ =>
    item.context.bind fun k =>
      (sh.watchStep k pc).map fun r =>
        match r.2 with
        | .finish _ => (r.1, { t with pc := .pick item })
        | pc' => (r.1, { t with pc := .startWork item pc' })
  | .pick item, _ =>
    if sh.queues.length = 0 then some (enter sh t item)
    else
      let next := sh.roundRobin % sh.queues.length
      some ({ sh with roundRobin := (sh.roundRobin + 1) % 2 ^ 64 },
        { t with pc := .push next item (.isOpen [item]) })
  | .finishWork pc, item :: _ =>
    item.context.bind fun k =>
      (sh.watchStep k pc).map fun r =>
        match r.2 with
        | .finish _ => (r.1, { t with pc := .finishRef })
        | pc' => (r.1, { t with pc := .finishWork pc' })
  | .finishRef, item :: _ =>
    item.context.bind fun k => (sh.addRef k (-1)).map fun sh' => (sh', t.leave)
  | .awaitLoad k, _ =>
    (sh.contexts[k]?).map fun ctx => (sh, { t with pc := .awaitCheck k ctx.workCount.value })
  | .awaitCheck k count, _ => awaitCheck sh t k count
  | .awaitNotEqual k pc, _ =>
    (sh.watchStep k pc).map fun r =>
      match r.2 with
      | .finish (.value count) => (r.1, { t with pc := .awaitCheck k count })
      | .finish _ => (r.1, { t with pc := .awaitRef k })
      | pc' => (r.1, { t with pc := .awaitNotEqual k pc' })
  | .awaitRef k, _ =>
    (sh.contexts[k]?).map fun ctx =>
      if ctx.refCount > 0 then (sh, t)
      else (sh.setContext k { ctx with returned := true }, { t with pc := .user })
  | .halt closed, _ =>
    match sh.queues[closed]? with
    | some q => some (sh.setQueue closed { q with closed := true }, { t with pc := .halt (closed + 1) })
    | none => some (sh, { t with pc := .user })
  | _, _ => none

/-- An access to a work queue. -/
def Thread.queueRun (a : Act) (sh : Shared) (t : Thread) : Option (Shared × Thread) :=
  match t.pc, t.worker with
  | .push w item pc, _ =>
    (sh.queues[w]?).bind fun q =>
      (queueStep a q pc).map fun r =>
        let sh' := sh.setQueue w r.1
        match r.2 with
        | .finish (.flag false) =>
          ({ sh' with dropped := sh'.dropped ++ [item] }, { t with pc := .user })
        | .finish _ => (sh', { t with pc := .user })
        | pc' => (sh', { t with pc := .push w item pc' })
  | .next pc, some w =>
    (sh.queues[w]?).bind fun q =>
      (queueStep a q pc).map fun r =>
        let sh' := sh.setQueue w r.1
        match r.2 with
        | .finish (.item v) => enter sh' t v
        | .finish _ => (sh', { t with pc := .exited })
        | pc' => (sh', { t with pc := .next pc' })
  | _, _ => none

/-- The first step of a call. -/
def Thread.call (sh : Shared) (t : Thread) : Act → Option (Shared × Thread)
  | .asyncRun context =>
    let item := ⟨sh.submitted.length, context⟩
    let sh := { sh with submitted := sh.submitted ++ [item] }
    match context with
    | some _ => some (sh, { t with pc := .startRef item })
    | none => some (sh, { t with pc := .pick item })
  | .workReturns => workReturns sh t
  | .awaitDone k =>
    -- `BATT_CHECK(!batt::Task::inside_work_fn())`
    if t.stack.isEmpty then
      (sh.contexts[k]?).map fun ctx =>
        (sh.setContext k { ctx with awaited := true }, { t with pc := .awaitLoad k })
    else none
  | .halt => some (sh, { t with pc := .halt 0 })
  | _ => none

def step (a : Act) (sh : Shared) (t : Thread) : Option (Shared × Thread) :=
  if sh.panicked then none
  else match t.pc with
    | .user => t.call sh a
    | .push _ _ _ | .next _ => t.queueRun a sh
    | _ => if a = .run then t.run sh else none

def machine : Machine Shared Thread Act where
  step := step

/-! ## The start -/

def newContext : Context where
  workCount := (Watch.initial 0 (0 : Int)).shared
  refCount := 0
  awaited := false
  returned := false

def newQueue : Queue.Shared Item := (Queue.initial 0).shared

def newWorker (w : Nat) : Thread where
  worker := some w
  stack := []
  pc := .next .awaitModifyLoad

def newThread : Thread where
  worker := none
  stack := []
  pc := .user

/-- A pool of `nWorkers` workers, `nContexts` contexts and `n` other threads. -/
def initial (nWorkers nContexts n : Nat) : Conf Shared Thread where
  shared :=
    { queues := List.replicate nWorkers newQueue, roundRobin := 0,
      contexts := List.replicate nContexts newContext, panicked := false, submitted := [],
      dropped := [], ran := [], finished := [] }
  locals := (List.range nWorkers).map newWorker ++ List.replicate n newThread

end Batt.WorkerPool
