/-
  Running totals and their parallel computation (algo/running_total.hpp,
  algo/parallel_running_total.hpp).

  The buffer is a list of words with bounds; `part_segment_offset` and its kin are computed
  in 64 bits as in the source, and a pointer into the buffer is a position. A new buffer
  holds what was there before (`garbage`), and an array of 2^63 bytes or more cannot be had:
  `new` throws. Memory that is not there for another reason is not modelled.

  The work is a pool of tasks over the buffer that write one word in a step; a schedule
  names the task that steps next. When all have finished, any entry of the schedule lets the
  caller update the summary and return. `none` is a step without a defined result: a check
  or an assertion that fails, an exception, an access outside the buffer or a range.
-/
import Batt.Lib.Interleave
import Batt.SliceWork.Plan

namespace Batt.RunningTotals
open Interleave SliceWork

structure RunningTotal where
  values : List UInt64
  partsCount : UInt64
  partSize : UInt64
  size : UInt64
deriving Repr, DecidableEq

/-- `RunningTotal{}`. -/
def RunningTotal.default : RunningTotal := ⟨[0], 0, 1, 1⟩

namespace RunningTotal

variable (t : RunningTotal)

def partSegmentSize : UInt64 := t.partSize + 1

def summaryOffset : UInt64 := t.partSegmentSize * t.partsCount

def summarySize : UInt64 := t.partsCount + 1

def rawSize : UInt64 := t.summaryOffset + t.summarySize

def partSegmentOffset (part : UInt64) : UInt64 := part * t.partSegmentSize

end RunningTotal

/-! ## The buffer -/

/-- `new usize[size]`. -/
def newArray (garbage : Nat → UInt64) (size : UInt64) : Option (List UInt64) :=
  if size.toNat * 8 < 2 ^ 63 then some ((List.range size.toNat).map garbage) else none

def store (values : List UInt64) (position : Nat) (value : UInt64) : Option (List UInt64) :=
  if position < values.length then some (values.set position value) else none

/-- `front()` of the range at `offset`, as the target of an assignment. -/
def storeFront (values : List UInt64) (offset size : UInt64) (value : UInt64) :
    Option (List UInt64) :=
  if 0 < size then store values offset.toNat value else none

/-! ## Setting up -/

namespace RunningTotal

/-- The constructor: `reset` of a total without a buffer. -/
def reset (garbage : Nat → UInt64) (count size : UInt64) : Option RunningTotal :=
  let t : RunningTotal := ⟨[], count, size, 1⟩
  if 0 < size then
    (newArray garbage t.rawSize).bind fun values =>
      (storeFront values t.summaryOffset t.summarySize 0).bind fun values =>
        ((List.range count.toNat).foldlM (fun values i =>
          storeFront values (t.partSegmentOffset (.ofNat i)) t.partSegmentSize 0) values).map
          fun values => ⟨values, count, size, count * size + 1⟩
  else none

def setSize (t : RunningTotal) (newSize : UInt64) : Option RunningTotal :=
  if newSize ≤ t.partsCount * t.partSize + 1 then some { t with size := newSize } else none

/-! ## Reading -/

variable (t : RunningTotal)

/-- `raw_slice(offset, size)[i]`. -/
def rawAt (offset size i : UInt64) : Option UInt64 :=
  if i < size then t.values[offset.toNat + i.toNat]? else none

/-- `operator[]`. -/
def get (i : Int64) : Option UInt64 :=
  let index := i.toUInt64
  if index < t.size then
    let partIndex := index / t.partSize
    let partOffset := index % t.partSize
    (t.rawAt t.summaryOffset t.summarySize partIndex).bind fun summary =>
      if t.partSegmentOffset partIndex < t.rawSize then
        (t.rawAt (t.partSegmentOffset partIndex) t.partSegmentSize partOffset).map (summary + ·)
      else none
  else none

/-- `Iterator::advance`; an iterator is its position. -/
def advance (position delta : Int64) : Option Int64 :=
  if 0 ≤ position + delta ∧ position + delta < (t.size + 1).toInt64 then
    some (position + delta)
  else none

def increment (position : Int64) : Option Int64 :=
  if position.toUInt64 < t.size then some (position + 1) else none

/-- `begin()`. -/
def begin : Int64 := 0

/-- `end()`. -/
def stop : Int64 := t.size.toInt64

def slice (beginIndex endIndex : UInt64) : Option (Int64 × Int64) :=
  if beginIndex ≤ endIndex then
    (t.advance begin beginIndex.toInt64).bind fun first =>
      (t.advance begin endIndex.toInt64).map fun last => (first, last)
  else none

/-- What a loop over `n` elements from `position` on reads. -/
def readFrom (position : Int64) : Nat → Option (List UInt64)
  | 0 => some []
  | n + 1 =>
    (t.get position).bind fun value =>
      (t.increment position).bind fun next => (readFrom next n).map (value :: ·)

/-! ## The summary -/

/-- The loop of `update_summary`, from the part total at `next` on; `fuel` bounds its turns. -/
def summaryLoop (step last : Nat) :
    Nat → List UInt64 → Nat → Nat → UInt64 → Option (List UInt64 × Nat)
  | fuel, values, next, nextSummary, total =>
    if next = last then some (values, nextSummary)
    else
      match fuel with
      | 0 => none
      | fuel + 1 =>
        (values[next]?).bind fun partTotal =>
          (store values nextSummary (total + partTotal)).bind fun values =>
            summaryLoop step last fuel values (next + step) (nextSummary + 1) (total + partTotal)

def updateSummary : Option RunningTotal :=
  if t.values[t.summaryOffset.toNat]? = some 0 then
    let step := t.partSegmentSize.toNat
    let last := t.partSize.toNat + step * t.partsCount.toNat
    (summaryLoop step last t.partsCount.toNat t.values t.partSize.toNat
        (t.summaryOffset.toNat + 1) 0).bind fun result =>
      if result.2 = t.rawSize.toNat then some { t with values := result.1 } else none
  else none

end RunningTotal

/-! ## The parallel computation -/

variable {α : Type}

/-- A work function, at the point it has reached; `dst` is `dst_iter`. -/
inductive Task (α : Type) where
  | pending (taskIndex : UInt64) (items : List α)
  /-- In `std::for_each`; `stop` is `dst.end()`. -/
  | adding (dst stop : Nat) (partTotal : UInt64) (items : List α)
  /-- In `std::fill`. -/
  | filling (dst stop : Nat) (partTotal : UInt64)
  | finished
deriving Repr, DecidableEq

def Task.isFinished : Task α → Bool
  | .finished => true
  | _ => false

/-- `t` is the total being computed; its buffer is the shared one. -/
def Task.step (fn : α → UInt64) (t : RunningTotal) (values : List UInt64) :
    Task α → Option (List UInt64 × Task α)
  | .pending taskIndex items =>
    let dst := (t.partSegmentOffset taskIndex).toNat
    if taskIndex + 1 < t.partsCount ∧ t.partSegmentSize ≠ .ofNat items.length + 1 then none
    else if values[dst]? = some 0 then
      some (values, .adding (dst + 1) (dst + t.partSegmentSize.toNat) 0 items)
    else none
  | .adding dst stop partTotal (item :: items) =>
    (store values dst (partTotal + fn item)).map fun values =>
      (values, .adding (dst + 1) stop (partTotal + fn item) items)
  | .adding dst stop partTotal [] => some (values, .filling dst stop partTotal)
  | .filling dst stop partTotal =>
    if dst = stop then some (values, .finished)
    else
      (store values dst partTotal).map fun values => (values, .filling (dst + 1) stop partTotal)
  | .finished => none

def machine (fn : α → UInt64) (t : RunningTotal) : Machine (List UInt64) (Task α) Unit where
  step _ values task := task.step fn t values

inductive State (α : Type) where
  /-- In the scope of `context`. -/
  | running (t : RunningTotal) (work : Conf (List UInt64) (Task α))
  | returned (t : RunningTotal)

def workFn (items : List α) (task : SliceTask) : Option (Task α) :=
  (rangeAt items task.taskOffset task.taskSize).map (.pending task.taskIndex)

/-- The call, up to the point where its tasks run. -/
def parallelRunningTotal (garbage : Nat → UInt64) (params : WorkSliceParams) (items : List α) :
    Option (State α) :=
  (WorkSlicePlan.new params (.ofNat items.length)).bind fun plan =>
    if plan.inputSize = 0 then some (.returned .default)
    else
      (RunningTotal.reset garbage plan.nTasks plan.taskSize).bind fun t =>
        (t.setSize (plan.inputSize + 1)).bind fun t =>
          (sliceWork plan).bind fun tasks =>
            (tasks.mapM (workFn items)).map fun tasks => .running t ⟨t.values, tasks⟩

def step (fn : α → UInt64) (i : Nat) : State α → Option (State α)
  | .running t work =>
    if work.locals.all Task.isFinished then
      ({ t with values := work.shared }.updateSummary).map .returned
    else ((machine fn t).fire i () work).map (.running t)
  | .returned _ => none

def run (fn : α → UInt64) : List Nat → State α → Option (State α)
  | [], s => some s
  | i :: sched, s => (step fn i s).bind (run fn sched)

end Batt.RunningTotals
