/-
  The parallel merge of two sorted ranges (algo/parallel_merge.hpp).

  An iterator is modelled by what is left of its range from it on, so `==` between
  iterators of one range compares lengths, `std::distance` subtracts them and
  `[begin, end)` is `rangeOf begin end`. The output is a memory addressed by position.

  The work is a pool of tasks: the caller's own call and one for each closure handed to
  `context.async_run`. A task steps through the source: the cases of
  `parallel_merge_impl`, one turn of the loop of `parallel_merge_fanout`, the searches of
  `work_fn`, one element written by `std::copy` or `std::merge`. `none` is a step the
  program has no defined result for: a division by zero, a failed BATT_CHECK. A schedule
  names the task that steps next, so all orders in which the tasks run, interleaved
  element by element, are schedules. `usize` is UInt64, `isize` its two's complement.
-/
import Mathlib.Data.List.Basic

namespace Batt.ParallelMerge

inductive Phase where
  | first
  | second
  | third
deriving Repr, DecidableEq

/-- `NextPhase`; `ThirdPhase` inherits that of `SecondPhase`. -/
def Phase.next : Phase → Phase
  | .first => .second
  | .second => .third
  | .third => .third

section Sides

variable {β : Type}

def Phase.fixedIter (phase : Phase) (src0 src1 : β) : β :=
  if phase = .first then src0 else src1

def Phase.searchIter (phase : Phase) (src0 src1 : β) : β :=
  if phase = .first then src1 else src0

def Phase.src0Iter (phase : Phase) (fixed search : β) : β :=
  if phase = .first then fixed else search

def Phase.src1Iter (phase : Phase) (fixed search : β) : β :=
  if phase = .first then search else fixed

end Sides

/-- The conversion `(isize)n`. -/
def isizeOf (n : UInt64) : Int := n.toInt64.toInt

variable {α : Type}

/-- The elements of `[begin, end)`. -/
def rangeOf (first last : List α) : List α := first.take (first.length - last.length)

/-- `std::lower_bound(first, end, value, compare)`. -/
def lowerBound (compare : α → α → Bool) (first : List α) (value : α) : List α :=
  first.dropWhile (compare · value)

/-- The result of `std::merge`: of two equivalent elements the one of the first range goes
    first. -/
def stdMerge (compare : α → α → Bool) (src0 src1 : List α) : List α :=
  List.merge src0 src1 fun a b => !compare b a

/-! ## Sharding -/

def maxTasksPerPhase (maxTasks : UInt64) : UInt64 := (maxTasks + 1) / 2

/-- `target_size`: unsigned arithmetic, converted to `isize` at the end. -/
def targetSize (minTaskSize maxTasks : UInt64) (fixedPartSize : Nat) : Option Int :=
  let perPhase := maxTasksPerPhase maxTasks
  if perPhase = 0 then none
  else some (isizeOf (max ((UInt64.ofNat fixedPartSize + perPhase - 1) / perPhase)
    ((minTaskSize + 1) / 2)))

/-- Advances `fixed_shard_end` over the elements equivalent to the last of the shard. -/
def extendShard (compare : α → α → Bool) : α → List α → List α
  | _, [] => []
  | back, x :: rest => if compare back x then x :: rest else extendShard compare x rest

/-- A piece of work, at the point it has reached. -/
inductive Task (α : Type) where
  /-- A call of `parallel_merge_impl`. -/
  | impl (phase : Phase) (src0 src1 : List α) (dst : Nat)
  /-- In the loop of `parallel_merge_fanout`. -/
  | fanout (phase : Phase) (targetSize : Int) (fixed fixedPart search : List α) (dst : Nat)
  /-- A call of `work_fn`. -/
  | work (phase : Phase) (fixedShardBegin fixedShardEnd search : List α) (dst : Nat)
      (isFirst isLast : Bool)
  /-- In `std::merge`. -/
  | merge (src0 src1 : List α) (dst : Nat)
  /-- In `std::copy`. -/
  | copy (src : List α) (dst : Nat)
  | finished
deriving Repr, DecidableEq

/-- What a step does: elements written, each with its position, and work handed to
    `async_run`. -/
structure Effect (α : Type) where
  task : Task α
  wrote : List (α × Nat) := []
  spawned : List (Task α) := []

/-! ## The code -/

section Code

variable (compare : α → α → Bool) (minTaskSize maxTasks : UInt64)

def parallelMergeImpl (phase : Phase) (src0 src1 : List α) (dst : Nat) : Option (Task α) :=
  if src0 = [] then some (.copy src1 dst)
  else if src1 = [] then some (.copy src0 dst)
  else if phase = .third ∨ (src0.length + src1.length : Int) ≤ isizeOf minTaskSize then
    some (.merge src0 src1 dst)
  else
    let fixed := phase.fixedIter src0 src1
    (targetSize minTaskSize maxTasks fixed.length).map fun target =>
      .fanout phase target fixed fixed (phase.searchIter src0 src1) dst

/-- One turn of the loop of `parallel_merge_fanout`. The closure of the last shard is
    called in place, and the loop ends with it. -/
def parallelMergeFanout (phase : Phase) (target : Int) (fixed fixedPart search : List α)
    (dst : Nat) : Option (Effect α) :=
  if fixedPart = [] then some { task := .finished }
  else
    let shardSize := min target fixedPart.length
    if shardSize ≤ 0 then none   -- BATT_CHECK_GT(shard_size, 0)
    else
      match fixedPart.drop (shardSize.toNat - 1) with
      | [] => none
      | back :: rest =>
        let fixedShardEnd := extendShard compare back rest
        let shard := .work phase fixedPart fixedShardEnd search dst
          (fixedPart.length == fixed.length) (fixedShardEnd.length == 0)
        if fixedShardEnd ≠ [] then
          some {
            task := .fanout phase target fixed fixedShardEnd search
              (dst + (fixedPart.length - fixedShardEnd.length))
            spawned := [shard] }
        else some { task := shard }

def searchShardBegin (isFirst : Bool) (search fixedShardBegin : List α) : Option (List α) :=
  if isFirst then some search
  else fixedShardBegin.head?.map (lowerBound compare search)

def searchShardEnd (isLast : Bool) (shardBegin fixedShardEnd : List α) : Option (List α) :=
  if isLast then some []
  else fixedShardEnd.head?.map (lowerBound compare shardBegin)

/-- `work_fn`. The values it searches for are the first elements of the shard and of what
    follows it. -/
def workFn (phase : Phase) (fixedShardBegin fixedShardEnd search : List α) (dst : Nat)
    (isFirst isLast : Bool) : Option (Task α) := do
  let shardBegin ← searchShardBegin compare isFirst search fixedShardBegin
  let shardEnd ← searchShardEnd compare isLast shardBegin fixedShardEnd
  if fixedShardEnd.length ≤ fixedShardBegin.length ∧ shardEnd.length ≤ shardBegin.length then
    let fixedShard := rangeOf fixedShardBegin fixedShardEnd
    let searchShard := rangeOf shardBegin shardEnd
    some (.impl phase.next (phase.src0Iter fixedShard searchShard)
      (phase.src1Iter fixedShard searchShard)
      (dst + (search.length - shardBegin.length)))
  else none   -- BATT_CHECK_LE of either range

/-- One element of `std::merge`, which ends as a copy of what is left of one range. -/
def mergeStep (src0 src1 : List α) (dst : Nat) : Effect α :=
  match src0, src1 with
  | [], _ => { task := .copy src1 dst }
  | _, [] => { task := .copy src0 dst }
  | x :: xs, y :: ys =>
    if compare y x then { task := .merge (x :: xs) ys (dst + 1), wrote := [(y, dst)] }
    else { task := .merge xs (y :: ys) (dst + 1), wrote := [(x, dst)] }

def copyStep (src : List α) (dst : Nat) : Effect α :=
  match src with
  | [] => { task := .finished }
  | x :: xs => { task := .copy xs (dst + 1), wrote := [(x, dst)] }

def Task.step : Task α → Option (Effect α)
  | .impl phase src0 src1 dst =>
    (parallelMergeImpl minTaskSize maxTasks phase src0 src1 dst).map fun t => { task := t }
  | .fanout phase target fixed fixedPart search dst =>
    parallelMergeFanout compare phase target fixed fixedPart search dst
  | .work phase fixedShardBegin fixedShardEnd search dst isFirst isLast =>
    (workFn compare phase fixedShardBegin fixedShardEnd search dst isFirst isLast).map
      fun t => { task := t }
  | .merge src0 src1 dst => some (mergeStep compare src0 src1 dst)
  | .copy src dst => some (copyStep src dst)
  | .finished => none

end Code

/-! ## The pool -/

/-- `writes` logs who wrote what where, in order; `tasks` only grows. -/
structure Pool (α : Type) where
  writes : List (Nat × α × Nat)
  tasks : List (Task α)
deriving Repr, DecidableEq

/-- The contents of the output at a position: the last element written there. -/
def Pool.output (c : Pool α) (pos : Nat) : Option α :=
  (c.writes.reverse.find? fun w => w.2.2 == pos).map fun w => w.2.1

/-- The positions task `i` has written. -/
def Pool.writtenBy (c : Pool α) (i : Nat) : List Nat :=
  (c.writes.filter fun w => w.1 == i).map fun w => w.2.2

def Pool.Finished (c : Pool α) : Prop := ∀ t ∈ c.tasks, t = .finished

def Pool.fire (compare : α → α → Bool) (minTaskSize maxTasks : UInt64) (i : Nat)
    (c : Pool α) : Option (Pool α) :=
  match c.tasks[i]? with
  | none => none
  | some t =>
    (t.step compare minTaskSize maxTasks).map fun e =>
      ⟨c.writes ++ e.wrote.map (i, ·), c.tasks.set i e.task ++ e.spawned⟩

def Pool.run (compare : α → α → Bool) (minTaskSize maxTasks : UInt64) :
    List Nat → Pool α → Option (Pool α)
  | [], c => some c
  | i :: rest, c => (c.fire compare minTaskSize maxTasks i).bind
      (Pool.run compare minTaskSize maxTasks rest)

/-- The call of `parallel_merge`. -/
def parallelMerge (src0 src1 : List α) (dst : Nat) : Pool α :=
  ⟨[], [.impl .first src0 src1 dst]⟩

end Batt.ParallelMerge
