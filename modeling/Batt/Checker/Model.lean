/-
  `ExhaustiveModelChecker` on the shards of a `ParallelModelCheckState`
  (`state_machine_model/exhaustive_model_checker.hpp`,
  `state_machine_model/parallel_model_check_state.hpp`, `async/queue.hpp`).

  Every shard is one thread that calls `run()`. `Pc` is where it is: one step is one access to
  what the shards share (`total_pending_count`, a `stalled` flag, the `pending_count_`, the
  items and the open state of a receive queue, `barrier_`) together with what the thread does
  on its own up to the next one. The user's `step()` is a `Prog`; the thread runs it one
  `pick_int` at a time, so the branches it queues leave the shard while it is still running.

  A failed `BATT_CHECK`, an index out of range and an arithmetic trap end the program, so the
  model has no step there. In `queue_push` the result of `push` is converted to
  `Optional<i64>`, which is never empty, so its check holds also where `push` returned false:
  a batch sent to a closed queue is lost (`dropped`).

  `path`, `chosen`, `entered`, `rejected`, `executed` and `dropped` are not in the source and
  no step reads them. They record which choices a `RadixQueue` stands for, which branches were
  taken up, which failed the check on entry, what the calls of `step()` returned, and which
  batches were discarded. Counters that nothing reads (metrics, `queue_push_count`), times,
  progress reports and the source branch kept beside a visited state are left out; the number of
  turns between two reports, by which `enter_loop` takes a remainder, is never 0 here.
-/
import Batt.Lib.Interleave
import Batt.RadixQueue.Encodes

namespace Batt.Checker

open Interleave Choice

variable {St : Type} {K : Nat}

/-! ## The model under check and the mesh -/

/-- What a user derives from `StateMachineModel`: `step()` is a function of the state entered
    and of the values picked, `check_invariants()` of the state entered or stepped to. -/
structure StateMachineModel (St : Type) where
  /-- `initialize()`. -/
  initialState : St
  normalize : St → St
  step : St → Prog St
  checkInvariants : St → Bool

/-- The constants of a run. `hash` is that of a state and of the segments of a `RadixQueue`. -/
structure Mesh (St : Type) where
  shardCount : Nat
  hash : St → List Segment → UInt64
  maxLoopIterationsBetweenFlush : Nat

structure Branch (St : Type) (K : Nat) where
  snapshot : St
  delta : RadixQueue K
  /-- The choices in `delta`. -/
  path : List Digit

/-- The branch that takes the lowest value of every choice made in state `s`. -/
def Branch.root [NeZero K] (s : St) : Branch St K where
  snapshot := s
  delta := .new
  path := []

def Mesh.hashSpacePerShard (mesh : Mesh St) : Nat := maxU64 / mesh.shardCount

def Mesh.findShard (mesh : Mesh St) (b : Branch St K) : Nat :=
  (mesh.hash b.snapshot b.delta.live).toNat / mesh.hashSpacePerShard

structure Result where
  ok : Bool := false
  branchPushCount : Nat := 0
  branchPopCount : Nat := 0
  branchMissCount : Nat := 0
  stateCount : Nat := 0
  selfBranchCount : Nat := 0
  deriving DecidableEq, Repr

/-! ## Where a shard is -/

/-- The callers of `explore`. -/
inductive ExploreCaller (St : Type) (K : Nat) where
  /-- `run` on the initial state. -/
  | initial
  /-- `pick_int` on the other values than the lowest; `value` is the next of them. -/
  | pickInt (current : Branch St K) (minValue radix value : Nat) (next : Nat → Prog St)
  /-- `run` on a state seen for the first time. -/
  | discovered

/-- The callers of `flush_all`. -/
inductive FlushCaller where
  | start
  | enterLoop
  | recv
  | finished
  deriving DecidableEq, Repr

/-- The callers of `queue_push`. -/
inductive PushCaller (St : Type) (K : Nat) where
  | send (caller : ExploreCaller St K)
  | flushAll (dst : Nat) (caller : FlushCaller)

inductive Pc (St : Type) (K : Nat) where
  | init
  | sendStalled (dst : Nat) (caller : ExploreCaller St K)
  | pushAdd (dst : Nat) (batch : List (Branch St K)) (caller : PushCaller St K)
  | pushOpen (dst : Nat) (batch : List (Branch St K)) (caller : PushCaller St K)
  | pushEmplace (dst : Nat) (batch : List (Branch St K)) (caller : PushCaller St K)
  | pushNotify (dst : Nat) (caller : PushCaller St K)
  | flushAll (dst : Nat) (caller : FlushCaller)
  | barrierSub
  | barrierAwait
  | pendingCheck
  | enterLoop
  | popNext
  | step (current : Branch St K) (rest : Prog St)
  | pickLoop (current : Branch St K) (minValue radix value : Nat) (next : Nat → Prog St)
  | tryAcquire
  | popItem (stalled : Bool)
  | setStalled (other : Nat)
  | ack
  | closeEmpty (dst : Nat)
  | closeRecheck (dst : Nat)
  | close (dst : Nat)
  | awaitNext
  | awaitUpdate
  | resetStalled (other : Nat) (closed : Bool)
  | finishedClose
  | drain
  | drainPop
  | returned

def ExploreCaller.resume : ExploreCaller St K → Pc St K
  | .initial => .flushAll 0 .start
  | .pickInt current minValue radix value next => .pickLoop current minValue radix value next
  | .discovered => .enterLoop

def FlushCaller.resume : FlushCaller → Pc St K
  | .start => .barrierSub
  | .enterLoop => .popNext
  | .recv => .ack
  | .finished => .finishedClose

def PushCaller.resume : PushCaller St K → Pc St K
  | .send caller => caller.resume
  | .flushAll dst caller => .flushAll (dst + 1) caller

structure Execution (St : Type) where
  snapshot : St
  choices : List Digit
  raw : St
  deriving DecidableEq

structure Local (St : Type) (K : Nat) where
  shardI : Nat
  pc : Pc St K := .init
  queue : List (Branch St K) := []
  visited : List St := []
  history : RadixQueue K
  /-- The choices in `history`. -/
  chosen : List Digit := []
  result : Result := {}
  loopCounter : Nat := 0
  /-- `send_queues[shard_i]`. -/
  sendQueues : List (List (Branch St K))
  localConsumeCount : Nat := 0
  entered : List (St × List Digit) := []
  rejected : List (St × List Digit) := []
  executed : List (Execution St) := []

/-- `Queue<std::vector<Branch>>`; `pendingCount` and `closed` are its `Watch`. -/
structure RecvQueue (St : Type) (K : Nat) where
  items : List (List (Branch St K)) := []
  pendingCount : Nat := 0
  closed : Bool := false

structure Shared (St : Type) (K : Nat) where
  totalPendingCount : Int
  recvQueues : List (RecvQueue St K)
  stalled : Nat → Nat → Bool
  barrier : Nat
  dropped : List (List (Branch St K))

/-- `wake` lets a task blocked in `await_next` see that the count is positive; otherwise it
    runs on when the queue is closed. Both may be possible. -/
inductive Act where
  | run
  | wake
  deriving DecidableEq, Repr

/-! ## What a shard does on its own -/

section

variable [NeZero K]

/-- `explore`: the branch is queued here, or put into a send buffer. -/
def explore (mesh : Mesh St) (l : Local St K) (b : Branch St K) (forceSend : Bool)
    (caller : ExploreCaller St K) : Option (Local St K) :=
  let dst := mesh.findShard b
  let miss := if dst ≠ l.shardI then 1 else 0
  if dst = l.shardI ∧ forceSend = false then
    some { l with
      queue := l.queue ++ [b]
      result := { l.result with
        branchPushCount := l.result.branchPushCount + 1
        branchMissCount := l.result.branchMissCount + miss }
      pc := caller.resume }
  else if dst < mesh.shardCount then
    some { l with
      sendQueues := l.sendQueues.modify dst (· ++ [b])
      result := { l.result with branchMissCount := l.result.branchMissCount + miss }
      pc := .sendStalled dst caller }
  else none

/-- The swap at the top of `queue_push`. -/
def beginPush (l : Local St K) (dst : Nat) (caller : PushCaller St K) : Local St K :=
  { l with
    sendQueues := l.sendQueues.set dst []
    pc := .pushAdd dst (l.sendQueues[dst]?.getD []) caller }

/-- `remove_if` of `pop_next`: the visited states and the branches that are kept. -/
def dedup [DecidableEq St] (visited : List St) :
    List (Branch St K) → List St × List (Branch St K)
  | [] => (visited, [])
  | b :: bs =>
    if b.delta.empty then
      if b.snapshot ∈ visited then dedup visited bs
      else
        let r := dedup (visited ++ [b.snapshot]) bs
        (r.1, b :: r.2)
    else
      let r := dedup visited bs
      (r.1, b :: r.2)

/-- `transfer_batch`, and what `pop_next` does with the batch. -/
def receive [DecidableEq St] (l : Local St K) (batch : List (Branch St K)) (pc : Pc St K) :
    Local St K :=
  let r := dedup l.visited (l.queue ++ batch)
  { l with
    visited := r.1
    queue := r.2
    localConsumeCount := l.localConsumeCount + 1
    result := { l.result with branchPushCount := l.result.branchPushCount + r.2.length }
    pc := pc }

/-- The end of `pop_next`, and `run` up to the call of `step()`. -/
def enter (m : StateMachineModel St) (l : Local St K) (b : Branch St K)
    (rest : List (Branch St K)) : Local St K :=
  let popped := { l with
    queue := rest
    history := l.history.clear
    chosen := []
    result := { l.result with branchPopCount := l.result.branchPopCount + 1 } }
  if m.checkInvariants b.snapshot then
    { popped with
      entered := l.entered ++ [(b.snapshot, b.path)]
      pc := .step b (m.step b.snapshot) }
  else
    { popped with
      rejected := l.rejected ++ [(b.snapshot, b.path)]
      result := { popped.result with ok := false }
      pc := .flushAll 0 .finished }

/-- `run` after `step()` has returned. -/
def leave [DecidableEq St] (mesh : Mesh St) (m : StateMachineModel St) (l : Local St K)
    (current : Branch St K) (raw : St) : Option (Local St K) :=
  let execution : Execution St := ⟨current.snapshot, l.chosen, raw⟩
  let done := { l with executed := l.executed ++ [execution] }
  if m.checkInvariants raw then
    let after := m.normalize raw
    let next := { done with loopCounter := l.loopCounter + 1, pc := .enterLoop }
    if after = current.snapshot then
      some { next with
        result := { l.result with selfBranchCount := l.result.selfBranchCount + 1 } }
    else if after ∈ l.visited then some next
    else
      explore mesh
        { next with
          visited := l.visited ++ [after]
          result := { l.result with stateCount := l.result.stateCount + 1 } }
        (.root after) false .discovered
  else
    some { done with result := { l.result with ok := false }, pc := .flushAll 0 .finished }

/-- `pick_int`, up to its loop over the other values; `k` is the rest of `step()`. -/
def pickInt (l : Local St K) (current : Branch St K) (minValue maxValue : Nat)
    (k : Nat → Prog St) : Option (Local St K) :=
  if minValue = maxValue then some { l with pc := .step current (k minValue) }
  else
    let radix := (maxValue - minValue + 1) % 2 ^ 64
    -- a radix that has wrapped to zero fails in `pop`, or in the `push` after the loop
    if minValue < maxValue ∧ maxValue ≤ maxU64 ∧ radix ≠ 0 then
      if current.delta.empty then some { l with pc := .pickLoop current minValue radix 1 k }
      else
        (current.delta.pop radix).bind fun popped =>
          (l.history.push radix popped.1).map fun history =>
            { l with
              history := history
              chosen := l.chosen ++ [⟨radix, popped.1⟩]
              pc := .step { current with delta := popped.2, path := current.path.tail }
                (k (minValue + popped.1)) }
    else none

/-- The loop of `pick_int`, and what follows it. -/
def pickLoop (mesh : Mesh St) (l : Local St K) (current : Branch St K)
    (minValue radix value : Nat) (k : Nat → Prog St) : Option (Local St K) :=
  if value < radix then
    (l.history.push radix value).bind fun delta =>
      explore mesh l
        { snapshot := current.snapshot, delta := delta, path := l.chosen ++ [⟨radix, value⟩] }
        false (.pickInt current minValue radix (value + 1) k)
  else
    (l.history.push radix 0).map fun history =>
      { l with
        history := history
        chosen := l.chosen ++ [⟨radix, 0⟩]
        pc := .step current (k minValue) }

end

/-! ## Steps -/

def Shared.modifyQueue (sh : Shared St K) (i : Nat) (f : RecvQueue St K → RecvQueue St K) :
    Shared St K :=
  { sh with recvQueues := sh.recvQueues.modify i f }

def Shared.setStalled (sh : Shared St K) (src dst : Nat) (b : Bool) : Shared St K :=
  { sh with stalled := fun i j => if i = src ∧ j = dst then b else sh.stalled i j }

def goto (sh : Shared St K) (l : Local St K) (pc : Pc St K) : Option (Shared St K × Local St K) :=
  some (sh, { l with pc := pc })

variable [DecidableEq St] [NeZero K]

def exec (mesh : Mesh St) (m : StateMachineModel St) (sh : Shared St K) (l : Local St K) :
    Option (Shared St K × Local St K) :=
  match l.pc with
  -- `run`, up to the loop
  | .init =>
    (explore mesh l (.root (m.normalize m.initialState)) true .initial).map fun l' => (sh, l')
  | .barrierSub => goto { sh with barrier := sh.barrier - 1 } l .barrierAwait
  | .barrierAwait => if sh.barrier = 0 then goto sh l .pendingCheck else none
  | .pendingCheck =>
    if sh.totalPendingCount > 0 then
      some (sh, { l with
        result := { l.result with ok := true, stateCount := 1 }
        loopCounter := 0
        pc := .enterLoop })
    else none
  -- the loop of `run`
  | .enterLoop =>
    if mesh.maxLoopIterationsBetweenFlush = 0 then none
    else if (l.loopCounter + 1) % mesh.maxLoopIterationsBetweenFlush = 0 ∧ mesh.shardCount > 1
    then goto sh l (.flushAll 0 .enterLoop)
    else goto sh l .popNext
  | .popNext =>
    match l.queue with
    | [] => goto sh l .tryAcquire
    | b :: rest => if mesh.findShard b = l.shardI then some (sh, enter m l b rest) else none
  | .step current (.ret raw) => (leave mesh m l current raw).map fun l' => (sh, l')
  | .step current (.pick minValue maxValue k) =>
    (pickInt l current minValue maxValue k).map fun l' => (sh, l')
  | .pickLoop current minValue radix value k =>
    (pickLoop mesh l current minValue radix value k).map fun l' => (sh, l')
  -- `send`, `flush_all` and `queue_push`
  | .sendStalled dst caller =>
    if sh.stalled l.shardI dst then some (sh, beginPush l dst (.send caller))
    else goto sh l caller.resume
  | .flushAll dst caller =>
    match l.sendQueues[dst]? with
    | none => goto sh l caller.resume
    | some [] => goto sh l (.flushAll (dst + 1) caller)
    | some (_ :: _) => some (sh, beginPush l dst (.flushAll dst caller))
  | .pushAdd dst batch caller =>
    goto { sh with totalPendingCount := sh.totalPendingCount + 1 } l (.pushOpen dst batch caller)
  | .pushOpen dst batch caller =>
    (sh.recvQueues[dst]?).bind fun q =>
      if q.closed then goto { sh with dropped := sh.dropped ++ [batch] } l caller.resume
      else goto sh l (.pushEmplace dst batch caller)
  | .pushEmplace dst batch caller =>
    goto (sh.modifyQueue dst fun q => { q with items := q.items ++ [batch] }) l
      (.pushNotify dst caller)
  | .pushNotify dst caller =>
    goto (sh.modifyQueue dst fun q => { q with pendingCount := q.pendingCount + 1 }) l
      caller.resume
  -- `recv`
  | .tryAcquire =>
    (sh.recvQueues[l.shardI]?).bind fun q =>
      if 0 < q.pendingCount then
        goto (sh.modifyQueue l.shardI fun q => { q with pendingCount := q.pendingCount - 1 }) l
          (.popItem false)
      else goto sh l (.setStalled 0)
  | .popItem stalled =>
    (sh.recvQueues[l.shardI]?).bind fun q =>
      match q.items with
      | [] | [] :: _ => none
      | batch :: items =>
        some (sh.modifyQueue l.shardI fun q => { q with items := items },
          receive l batch (if stalled then .resetStalled 0 false else .popNext))
  | .setStalled other =>
    if other < mesh.shardCount then
      goto (sh.setStalled other l.shardI true) l (.setStalled (other + 1))
    else goto sh l (.flushAll 0 .recv)
  | .ack =>
    let left := sh.totalPendingCount - l.localConsumeCount
    some ({ sh with totalPendingCount := left },
      { l with localConsumeCount := 0, pc := if left = 0 then .closeEmpty 0 else .awaitNext })
  | .awaitNext =>
    (sh.recvQueues[l.shardI]?).bind fun q =>
      if 0 < q.pendingCount then
        goto (sh.modifyQueue l.shardI fun q => { q with pendingCount := q.pendingCount - 1 }) l
          (.popItem true)
      else goto sh l .awaitUpdate
  | .awaitUpdate =>
    (sh.recvQueues[l.shardI]?).bind fun q =>
      if q.closed then goto sh l (.resetStalled 0 true) else none
  | .resetStalled other closed =>
    if other < mesh.shardCount then
      goto (sh.setStalled other l.shardI false) l (.resetStalled (other + 1) closed)
    else if closed then goto sh l (.flushAll 0 .finished)
    else goto sh l .popNext
  -- `close_all`
  | .closeEmpty dst =>
    match sh.recvQueues[dst]? with
    | none => goto sh l .awaitNext
    | some q => if q.pendingCount = 0 then goto sh l (.close dst) else goto sh l (.closeRecheck dst)
  | .closeRecheck dst =>
    (sh.recvQueues[dst]?).bind fun q =>
      if q.pendingCount = 0 then goto sh l (.close dst) else none
  | .close dst =>
    goto (sh.modifyQueue dst fun q => { q with closed := true }) l (.closeEmpty (dst + 1))
  -- `finished`
  | .finishedClose =>
    goto (sh.modifyQueue l.shardI fun q => { q with closed := true }) l .drain
  | .drain =>
    (sh.recvQueues[l.shardI]?).bind fun q =>
      if 0 < q.pendingCount then
        goto (sh.modifyQueue l.shardI fun q => { q with pendingCount := q.pendingCount - 1 }) l
          .drainPop
      else goto sh l .returned
  | .drainPop =>
    (sh.recvQueues[l.shardI]?).bind fun q =>
      match q.items with
      | [] => none
      | batch :: items =>
        goto { (sh.modifyQueue l.shardI fun q => { q with items := items }) with
          dropped := sh.dropped ++ [batch] } l .drain
  | .returned => none

def step (mesh : Mesh St) (m : StateMachineModel St) :
    Act → Shared St K → Local St K → Option (Shared St K × Local St K)
  | .run, sh, l => exec mesh m sh l
  | .wake, sh, l =>
    match l.pc with
    | .awaitUpdate =>
      (sh.recvQueues[l.shardI]?).bind fun q =>
        if 0 < q.pendingCount then goto sh l .awaitNext else none
    | _ => none

def machine (mesh : Mesh St) (m : StateMachineModel St) :
    Machine (Shared St K) (Local St K) Act where
  step := step mesh m

/-- `check_model` before its threads run. -/
def initial (mesh : Mesh St) : Conf (Shared St K) (Local St K) where
  shared :=
    { totalPendingCount := 0
      recvQueues := List.replicate mesh.shardCount {}
      stalled := fun _ _ => false
      barrier := mesh.shardCount
      dropped := [] }
  locals := (List.range mesh.shardCount).map fun i =>
    { shardI := i, history := .new, sendQueues := List.replicate mesh.shardCount [] }

end Batt.Checker
