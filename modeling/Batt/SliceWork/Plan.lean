/-
  Slicing work into tasks (async/slice_work.hpp, async/slice_work_impl.hpp).

  `usize` is UInt64 and `isize` Int64, so that the additions before the two divisions wrap
  as they do in the source. `none` is a BATT_CHECK that fails. The generator of the work
  functions is called once for each entry of the result of `sliceWork`, in that order.

  Over Nat the plan of an input of `n` items is: tasks of `max minTaskSize ⌈n / maxTasks⌉` items,
  and as many of them as that needs (`spec`). The first addition of the code may wrap, and its
  maximum is then still the same (`getTaskSize_eq`); when the second one wraps, the task count is
  zero and `slice_work` panics. Otherwise task `i` is the `i`-th cut (`taskAt`, `sliceWork_eq`).
-/
import Mathlib.Data.List.Basic
import Mathlib.Algebra.Order.Floor.Div
import Mathlib.Algebra.BigOperators.Group.List.Basic

namespace Batt.SliceWork

structure WorkSliceParams where
  minTaskSize : UInt64
  maxTasks : UInt64
deriving Repr, DecidableEq

def getTaskSize (params : WorkSliceParams) (inputSize : UInt64) : Option UInt64 :=
  if 0 < params.maxTasks ∧ 0 < params.minTaskSize then
    some (max params.minTaskSize ((inputSize + params.maxTasks - 1) / params.maxTasks))
  else none

def getTaskCount (inputSize taskSize : UInt64) : Option UInt64 :=
  if 0 < taskSize then some ((inputSize + taskSize - 1) / taskSize) else none

structure WorkSlicePlan where
  inputSize : UInt64
  taskSize : UInt64
  nTasks : UInt64
deriving Repr, DecidableEq

/-- The constructor, with its two checks. -/
def WorkSlicePlan.new (params : WorkSliceParams) (inputSize : UInt64) : Option WorkSlicePlan :=
  (getTaskSize params inputSize).bind fun taskSize =>
    (getTaskCount inputSize taskSize).bind fun nTasks =>
      if params.minTaskSize ≤ taskSize ∧ nTasks ≤ params.maxTasks then
        some ⟨inputSize, taskSize, nTasks⟩
      else none

/-- A call of `gen_work_fn`. The function it returns is called in place (`onCaller`) or
    handed to `context.async_run`. -/
structure SliceTask where
  taskIndex : UInt64
  taskOffset : Int64
  taskSize : UInt64
  onCaller : Bool
deriving Repr, DecidableEq

/-- What is left of the loop: its tasks, and `task_index` at its end. -/
def sliceLoop (plan : WorkSlicePlan) (hpos : 0 < plan.taskSize) (taskIndex : UInt64)
    (taskOffset : Int64) (inputRemaining : UInt64) : List SliceTask × UInt64 :=
  if _h : 0 < inputRemaining then
    let thisTaskSize := min inputRemaining plan.taskSize
    let rest := sliceLoop plan hpos (taskIndex + 1) (taskOffset + thisTaskSize.toInt64)
      (inputRemaining - thisTaskSize)
    (⟨taskIndex, taskOffset, thisTaskSize, taskIndex + 1 == plan.nTasks⟩ :: rest.1, rest.2)
  else ([], taskIndex)
termination_by inputRemaining.toNat
decreasing_by
  have hmin : min inputRemaining plan.taskSize =
    if inputRemaining ≤ plan.taskSize then inputRemaining else plan.taskSize := rfl
  rw [UInt64.lt_iff_toNat_lt, UInt64.toNat_zero] at _h hpos
  rw [hmin]
  split
  · rw [UInt64.sub_self]
    exact _h
  · rename_i hle
    rw [UInt64.not_le] at hle
    rw [UInt64.toNat_sub_of_le _ _ (UInt64.le_of_lt hle)]
    omega

def sliceWork (plan : WorkSlicePlan) : Option (List SliceTask) :=
  if plan.inputSize = 0 then some []
  else if 0 < plan.nTasks then
    if hpos : 0 < plan.taskSize then
      let tasks := sliceLoop plan hpos 0 0 plan.inputSize
      if tasks.2 = plan.nTasks then some tasks.1 else none
    else none
  else none

/-- The range `[begin, next(begin, size))` of a work function, where `begin` is
    `next(first, offset)`; `none` when it leaves the input. -/
def rangeAt {α : Type} (items : List α) (offset : Int64) (size : UInt64) : Option (List α) :=
  if 0 ≤ offset.toInt ∧ offset.toInt.toNat + size.toNat ≤ items.length then
    some ((items.drop offset.toInt.toNat).take size.toNat)
  else none

/-! ## Arithmetic -/

theorem max_toNat (a b : UInt64) : (max a b).toNat = max a.toNat b.toNat := by
  have hmax : max a b = if a ≤ b then b else a := rfl
  rw [hmax]
  split
  · rename_i h
    rw [UInt64.le_iff_toNat_le] at h
    rw [max_eq_right h]
  · rename_i h
    rw [UInt64.le_iff_toNat_le, not_le] at h
    rw [max_eq_left h.le]

theorem min_toNat (a b : UInt64) : (min a b).toNat = min a.toNat b.toNat := by
  have hmin : min a b = if a ≤ b then a else b := rfl
  rw [hmin]
  split
  · rename_i h
    rw [UInt64.le_iff_toNat_le] at h
    rw [min_eq_left h]
  · rename_i h
    rw [UInt64.le_iff_toNat_le, not_le] at h
    rw [min_eq_right h.le]

variable {a inputSize : UInt64}

theorem pos_iff_toNat_pos : 0 < a ↔ 0 < a.toNat := by
  rw [UInt64.lt_iff_toNat_lt, UInt64.toNat_zero]

/-- `a + b - 1` in 64 bits. -/
theorem add_sub_one_toNat {b : UInt64} (hb : 0 < b.toNat) (h : a.toNat + b.toNat ≤ 2 ^ 64) :
    (a + b - 1).toNat = a.toNat + b.toNat - 1 := by
  have := a.toNat_lt
  have := b.toNat_lt
  rw [UInt64.toNat_sub, UInt64.toNat_add, UInt64.toNat_one]
  omega

theorem add_sub_one_toNat_wraps {b : UInt64} (h : 2 ^ 64 < a.toNat + b.toNat) :
    (a + b - 1).toNat = a.toNat + b.toNat - 1 - 2 ^ 64 := by
  have := a.toNat_lt
  have := b.toNat_lt
  rw [UInt64.toNat_sub, UInt64.toNat_add, UInt64.toNat_one]
  omega

/-- The target size of the tasks, over Nat. -/
def targetSize (params : WorkSliceParams) (n : Nat) : Nat :=
  max params.minTaskSize.toNat (n ⌈/⌉ params.maxTasks.toNat)

variable {params : WorkSliceParams} {i n : Nat}

theorem targetSize_pos (hmin : 0 < params.minTaskSize) (n : Nat) :
    0 < targetSize params n :=
  lt_max_of_lt_left (pos_iff_toNat_pos.mp hmin)

theorem ceilDiv_targetSize_le (hmin : 0 < params.minTaskSize) (hmax : 0 < params.maxTasks) (n : Nat)
    :
    n ⌈/⌉ targetSize params n ≤ params.maxTasks.toNat := by
  have hm : 0 < params.maxTasks.toNat := pos_iff_toNat_pos.mp hmax
  rw [ceilDiv_le_iff_le_mul (targetSize_pos hmin n), Nat.mul_comm]
  calc n ≤ params.maxTasks.toNat * (n ⌈/⌉ params.maxTasks.toNat) :=
        (ceilDiv_le_iff_le_mul hm).mp le_rfl
    _ ≤ params.maxTasks.toNat * targetSize params n := Nat.mul_le_mul_left _ (le_max_right _ _)

theorem ceilDiv_le_self {k : Nat} (hk : 0 < k) : n ⌈/⌉ k ≤ n := by
  rw [ceilDiv_le_iff_le_mul hk]
  exact Nat.le_mul_of_pos_left n hk

/-- The wrapped sum gives no more than one task's worth, and a task has at least one item. -/
theorem getTaskSize_eq (hmin : 0 < params.minTaskSize) (hmax : 0 < params.maxTasks)
    (hsize : inputSize.toNat < 2 ^ 63) :
    ∃ taskSize, getTaskSize params inputSize = some taskSize ∧
      taskSize.toNat = targetSize params inputSize.toNat := by
  refine ⟨_, if_pos ⟨hmax, hmin⟩, ?_⟩
  rw [pos_iff_toNat_pos] at hmin hmax
  have hlt := params.maxTasks.toNat_lt
  rw [max_toNat, UInt64.toNat_div, targetSize, Nat.ceilDiv_eq_add_pred_div]
  by_cases hwrap : inputSize.toNat + params.maxTasks.toNat ≤ 2 ^ 64
  · rw [add_sub_one_toNat hmax hwrap]
  · rw [add_sub_one_toNat_wraps (by omega)]
    have hcode : (inputSize.toNat + params.maxTasks.toNat - 1 - 2 ^ 64) / params.maxTasks.toNat = 0 :=
      Nat.div_eq_of_lt (by omega)
    have htrue : (inputSize.toNat + params.maxTasks.toNat - 1) / params.maxTasks.toNat = 1 :=
      Nat.div_eq_of_lt_le (by omega) (by omega)
    rw [hcode, htrue]
    omega

theorem getTaskCount_eq {taskSize : UInt64} (hpos : 0 < taskSize.toNat)
    (h : inputSize.toNat + taskSize.toNat ≤ 2 ^ 64) :
    ∃ nTasks, getTaskCount inputSize taskSize = some nTasks ∧
      nTasks.toNat = inputSize.toNat ⌈/⌉ taskSize.toNat := by
  refine ⟨_, if_pos (pos_iff_toNat_pos.mpr hpos), ?_⟩
  rw [UInt64.toNat_div, add_sub_one_toNat hpos h, Nat.ceilDiv_eq_add_pred_div]

/-- When the second addition wraps, no task is planned. -/
theorem getTaskCount_wraps {taskSize : UInt64} (h : 2 ^ 64 < inputSize.toNat + taskSize.toNat) :
    getTaskCount inputSize taskSize = some 0 := by
  have := inputSize.toNat_lt
  have hpos : 0 < taskSize.toNat := by omega
  have hzero : (inputSize + taskSize - 1) / taskSize = 0 := by
    rw [← UInt64.toNat_inj, UInt64.toNat_div, add_sub_one_toNat_wraps h, UInt64.toNat_zero]
    exact Nat.div_eq_of_lt (by omega)
  rw [getTaskCount, if_pos (pos_iff_toNat_pos.mpr hpos), hzero]

/-- The plan the arithmetic is meant to give. -/
structure WorkSlicePlan.IsFor (plan : WorkSlicePlan) (params : WorkSliceParams) (n : Nat) :
    Prop where
  inputSize : plan.inputSize.toNat = n
  taskSize : plan.taskSize.toNat = targetSize params n
  nTasks : plan.nTasks.toNat = n ⌈/⌉ plan.taskSize.toNat
  pos : 0 < plan.taskSize
  maxTasks : plan.nTasks ≤ params.maxTasks

theorem new_eq_some (hmin : 0 < params.minTaskSize) (hmax : 0 < params.maxTasks)
    (hsize : inputSize.toNat < 2 ^ 63)
    (hfit : inputSize.toNat + targetSize params inputSize.toNat ≤ 2 ^ 64) :
    ∃ plan, WorkSlicePlan.new params inputSize = some plan ∧
      plan.IsFor params inputSize.toNat := by
  obtain ⟨taskSize, htask, hsizeEq⟩ := getTaskSize_eq hmin hmax hsize
  have hpos : 0 < taskSize.toNat := by
    rw [hsizeEq]
    exact targetSize_pos hmin _
  have hwrap : inputSize.toNat + taskSize.toNat ≤ 2 ^ 64 := by
    rw [hsizeEq]
    exact hfit
  obtain ⟨nTasks, hcount, hcountEq⟩ := getTaskCount_eq hpos hwrap
  have hge : params.minTaskSize ≤ taskSize := by
    rw [UInt64.le_iff_toNat_le, hsizeEq]
    exact le_max_left _ _
  have hle : nTasks ≤ params.maxTasks := by
    rw [UInt64.le_iff_toNat_le, hcountEq, hsizeEq]
    exact ceilDiv_targetSize_le hmin hmax _
  refine ⟨⟨inputSize, taskSize, nTasks⟩, ?_, rfl, hsizeEq, hcountEq, ?_, hle⟩
  · rw [WorkSlicePlan.new, htask, Option.bind_some, hcount, Option.bind_some, if_pos ⟨hge, hle⟩]
  · exact pos_iff_toNat_pos.mpr hpos

/-! ## The loop -/

/-- The `i`-th task of a plan. -/
def taskAt (plan : WorkSlicePlan) (i : Nat) : SliceTask where
  taskIndex := .ofNat i
  taskOffset := .ofNat (i * plan.taskSize.toNat)
  taskSize := .ofNat (min (plan.inputSize.toNat - i * plan.taskSize.toNat) plan.taskSize.toNat)
  onCaller := .ofNat (i + 1) == plan.nTasks

theorem ofNat_min (a b : Nat) (ha : a < 2 ^ 64) (hb : b < 2 ^ 64) :
    min (UInt64.ofNat a) (UInt64.ofNat b) = UInt64.ofNat (min a b) := by
  rw [← UInt64.toNat_inj, min_toNat, UInt64.toNat_ofNat_of_lt' ha, UInt64.toNat_ofNat_of_lt' hb,
    UInt64.toNat_ofNat_of_lt' (lt_of_le_of_lt (min_le_left a b) ha)]

/-- By induction on the tasks left: after `i` of them the loop stands at the `i`-th cut, or
    at the end of the input. -/
theorem sliceLoop_eq {plan : WorkSlicePlan} (hpos : 0 < plan.taskSize) {k d : Nat}
    (hk : k = plan.inputSize.toNat ⌈/⌉ plan.taskSize.toNat) (hd : i + d = k) :
    sliceLoop plan hpos (.ofNat i) (.ofNat (min (i * plan.taskSize.toNat) plan.inputSize.toNat))
        (.ofNat (plan.inputSize.toNat - i * plan.taskSize.toNat)) =
      ((List.range' i d).map (taskAt plan), .ofNat k) := by
  have hpos' : 0 < plan.taskSize.toNat := pos_iff_toNat_pos.mp hpos
  have hn := plan.inputSize.toNat_lt
  induction d generalizing i with
  | zero =>
    obtain rfl : i = k := hd
    have hle : plan.inputSize.toNat ≤ plan.taskSize.toNat * i :=
      (ceilDiv_le_iff_le_mul hpos').mp hk.symm.le
    rw [Nat.mul_comm] at hle
    rw [Nat.sub_eq_zero_of_le hle]
    unfold sliceLoop
    rw [dif_neg (by decide)]
    rfl
  | succ d ih =>
    have hlt : i * plan.taskSize.toNat < plan.inputSize.toNat := by
      rw [Nat.mul_comm]
      by_contra hge
      have := (ceilDiv_le_iff_le_mul hpos').mpr (not_lt.mp hge)
      omega
    have hrem : 0 < UInt64.ofNat (plan.inputSize.toNat - i * plan.taskSize.toNat) := by
      rw [pos_iff_toNat_pos, UInt64.toNat_ofNat_of_lt' (lt_of_le_of_lt (Nat.sub_le _ _) hn)]
      exact Nat.sub_pos_of_lt hlt
    have hmin : min (UInt64.ofNat (plan.inputSize.toNat - i * plan.taskSize.toNat)) plan.taskSize =
        UInt64.ofNat (min (plan.inputSize.toNat - i * plan.taskSize.toNat) plan.taskSize.toNat) := by
      rw [← ofNat_min _ _ (lt_of_le_of_lt (Nat.sub_le _ _) hn) plan.taskSize.toNat_lt,
        UInt64.ofNat_toNat]
    have hnext := ih (i := i + 1) (by omega)
    rw [Nat.succ_mul] at hnext
    unfold sliceLoop
    rw [dif_pos hrem, hmin]
    dsimp only
    rw [UInt64.toInt64_ofNat', ← Int64.ofNat_add, ← UInt64.ofNat_sub (min_le_left _ _),
      min_eq_left hlt.le]
    have hoff : i * plan.taskSize.toNat +
        min (plan.inputSize.toNat - i * plan.taskSize.toNat) plan.taskSize.toNat =
        min (i * plan.taskSize.toNat + plan.taskSize.toNat) plan.inputSize.toNat := by
      omega
    have hleft : plan.inputSize.toNat - i * plan.taskSize.toNat -
        min (plan.inputSize.toNat - i * plan.taskSize.toNat) plan.taskSize.toNat =
        plan.inputSize.toNat - (i * plan.taskSize.toNat + plan.taskSize.toNat) := by
      omega
    have hidx : UInt64.ofNat i + 1 = UInt64.ofNat (i + 1) := (UInt64.ofNat_add i 1).symm
    rw [hoff, hleft, hidx, hnext, List.range'_succ, List.map_cons]
    rfl

/-- `slice_work` generates the cuts of the plan, in order. -/
theorem sliceWork_eq {plan : WorkSlicePlan} (h : plan.IsFor params n) :
    sliceWork plan = some ((List.range plan.nTasks.toNat).map (taskAt plan)) := by
  obtain ⟨rfl, -, hcount, hpos, -⟩ := h
  have hpos' : 0 < plan.taskSize.toNat := pos_iff_toNat_pos.mp hpos
  unfold sliceWork
  split
  · rename_i hzero
    rw [hcount, hzero, UInt64.toNat_zero, zero_ceilDiv]
    rfl
  · rename_i hne
    have hpositive : 0 < plan.inputSize.toNat := by
      rw [← UInt64.toNat_inj, UInt64.toNat_zero] at hne
      exact Nat.pos_of_ne_zero hne
    have hcountPos : 0 < plan.nTasks := by
      rw [pos_iff_toNat_pos, hcount]
      by_contra hle
      have := (ceilDiv_le_iff_le_mul hpos').mp (not_lt.mp hle)
      omega
    have hloop := sliceLoop_eq hpos (i := 0) hcount (Nat.zero_add _)
    rw [Nat.zero_mul, Nat.zero_min, Nat.sub_zero, UInt64.ofNat_toNat, UInt64.ofNat_toNat] at hloop
    rw [if_pos hcountPos]
    show (if (sliceLoop plan hpos (.ofNat 0) (.ofNat 0) plan.inputSize).2 = plan.nTasks then
      some (sliceLoop plan hpos (.ofNat 0) (.ofNat 0) plan.inputSize).1 else none) = _
    rw [hloop, if_pos rfl, List.range_eq_range']

/-! ## The tasks -/

/-- What the tasks of an input have to be. -/
structure Partitions (params : WorkSliceParams) (inputSize : UInt64) (plan : WorkSlicePlan)
    (tasks : List SliceTask) : Prop where
  count : tasks.length = plan.nTasks.toNat
  maxTasks : plan.nTasks ≤ params.maxTasks
  consecutive : ∀ (i : Nat) (task : SliceTask), tasks[i]? = some task → task.taskIndex.toNat = i
  nonempty : ∀ task ∈ tasks, 0 < task.taskSize
  contiguous : ∀ (i : Nat) (task : SliceTask), tasks[i]? = some task →
    task.taskOffset.toInt = (((tasks.take i).map (·.taskSize.toNat)).sum : Nat)
  covers : (tasks.map (·.taskSize.toNat)).sum = inputSize.toNat
  onCaller : ∀ (i : Nat) (task : SliceTask), tasks[i]? = some task →
    (task.onCaller = true ↔ i + 1 = tasks.length)

/-- The plan's checks hold, `slice_work` reaches its end, and its tasks partition the input. -/
def Slices (params : WorkSliceParams) (inputSize : UInt64) : Prop :=
  ∃ plan tasks, WorkSlicePlan.new params inputSize = some plan ∧ sliceWork plan = some tasks ∧
    Partitions params inputSize plan tasks

section

variable {plan : WorkSlicePlan} {params : WorkSliceParams} {n : Nat}

/-- A task begins inside the input. -/
theorem WorkSlicePlan.IsFor.offset_lt (h : plan.IsFor params n) (hi : i < plan.nTasks.toNat) :
    i * plan.taskSize.toNat < n := by
  have hpos := pos_iff_toNat_pos.mp h.pos
  rw [h.nTasks] at hi
  rw [Nat.mul_comm]
  by_contra hge
  exact absurd ((ceilDiv_le_iff_le_mul hpos).mpr (not_lt.mp hge)) (not_le.mpr hi)

theorem WorkSlicePlan.IsFor.le_nTasks_mul (h : plan.IsFor params n) :
    n ≤ plan.nTasks.toNat * plan.taskSize.toNat := by
  rw [Nat.mul_comm, h.nTasks]
  exact (ceilDiv_le_iff_le_mul (pos_iff_toNat_pos.mp h.pos)).mp le_rfl

theorem WorkSlicePlan.IsFor.nTasks_le (h : plan.IsFor params n) : plan.nTasks.toNat ≤ n := by
  rw [h.nTasks]
  exact ceilDiv_le_self (pos_iff_toNat_pos.mp h.pos)

theorem taskAt_size (h : plan.IsFor params n) (i : Nat) :
    (taskAt plan i).taskSize.toNat = min (n - i * plan.taskSize.toNat) plan.taskSize.toNat := by
  have hlt := plan.taskSize.toNat_lt
  rw [← h.inputSize]
  exact UInt64.toNat_ofNat_of_lt' (lt_of_le_of_lt (min_le_right _ _) hlt)

theorem taskAt_offset (h : plan.IsFor params n) (hn : n < 2 ^ 63) (hi : i < plan.nTasks.toNat) :
    (taskAt plan i).taskOffset.toInt = i * plan.taskSize.toNat := by
  have hlt := h.offset_lt hi
  exact (Int64.toInt_ofNat_of_lt (hlt.trans hn)).trans (by push_cast; rfl)

theorem taskAt_index (h : plan.IsFor params n) (hn : n < 2 ^ 63) (hi : i < plan.nTasks.toNat) :
    (taskAt plan i).taskIndex.toNat = i := by
  have := h.nTasks_le
  exact UInt64.toNat_ofNat_of_lt' (by show i < 2 ^ 64; omega)

/-- The first `i` tasks are the first `i * taskSize` items, as far as there are so many. -/
theorem sum_taskAt (h : plan.IsFor params n) (i : Nat) :
    ((List.range i).map fun j => (taskAt plan j).taskSize.toNat).sum =
      min (i * plan.taskSize.toNat) n := by
  induction i with
  | zero => simp
  | succ i ih =>
    rw [List.range_succ, List.map_append, List.sum_append, ih, List.map_singleton,
      List.sum_singleton, taskAt_size h, Nat.succ_mul]
    omega

theorem partitions_of_isFor (h : plan.IsFor params inputSize.toNat) (hn : inputSize.toNat < 2 ^ 63)
    :
    Partitions params inputSize plan ((List.range plan.nTasks.toNat).map (taskAt plan)) := by
  have hget : ∀ {i task}, ((List.range plan.nTasks.toNat).map (taskAt plan))[i]? = some task →
      i < plan.nTasks.toNat ∧ task = taskAt plan i := by
    intro i task ht
    rw [List.getElem?_map, Option.map_eq_some_iff] at ht
    obtain ⟨j, hj, rfl⟩ := ht
    obtain ⟨hlt, rfl⟩ := List.getElem?_eq_some_iff.mp hj
    rw [List.length_range] at hlt
    rw [List.getElem_range]
    exact ⟨hlt, rfl⟩
  refine ⟨by simp, h.maxTasks, ?_, ?_, ?_, ?_, ?_⟩
  · intro i task ht
    obtain ⟨hi, rfl⟩ := hget ht
    exact taskAt_index h hn hi
  · intro task ht
    obtain ⟨i, hget'⟩ := List.mem_iff_getElem?.mp ht
    obtain ⟨hi, rfl⟩ := hget hget'
    have hlt := h.offset_lt hi
    have hpos := pos_iff_toNat_pos.mp h.pos
    rw [pos_iff_toNat_pos, taskAt_size h]
    omega
  · intro i task ht
    obtain ⟨hi, rfl⟩ := hget ht
    have hsum := sum_taskAt h i
    rw [taskAt_offset h hn hi, ← List.map_take, List.map_map, List.take_range, min_eq_left hi.le]
    rw [min_eq_left (h.offset_lt hi).le] at hsum
    exact_mod_cast hsum.symm
  · rw [List.map_map]
    exact (sum_taskAt h _).trans (min_eq_right h.le_nTasks_mul)
  · intro i task ht
    obtain ⟨hi, rfl⟩ := hget ht
    have := h.nTasks_le
    have hnext : (UInt64.ofNat (i + 1)).toNat = i + 1 :=
      UInt64.toNat_ofNat_of_lt' (by show i + 1 < 2 ^ 64; omega)
    show (UInt64.ofNat (i + 1) == plan.nTasks) = true ↔ _
    rw [beq_iff_eq, ← UInt64.toNat_inj, hnext, List.length_map, List.length_range]

end

/-! ## The ranges of the tasks -/

section

variable {α : Type} {plan : WorkSlicePlan} {params : WorkSliceParams} {items : List α}

/-- The items of the `i`-th task. -/
def chunk (plan : WorkSlicePlan) (items : List α) (i : Nat) : List α :=
  (items.drop (i * plan.taskSize.toNat)).take plan.taskSize.toNat

theorem rangeAt_taskAt (h : plan.IsFor params items.length) (hn : items.length < 2 ^ 63)
    (hi : i < plan.nTasks.toNat) :
    rangeAt items (taskAt plan i).taskOffset (taskAt plan i).taskSize =
      some (chunk plan items i) := by
  have hlt := h.offset_lt hi
  have hoff : (taskAt plan i).taskOffset.toInt.toNat = i * plan.taskSize.toNat := by
    rw [taskAt_offset h hn hi]
    exact Int.toNat_natCast _
  have hge : 0 ≤ (taskAt plan i).taskOffset.toInt := by
    rw [taskAt_offset h hn hi]
    exact_mod_cast Nat.zero_le _
  rw [rangeAt, hoff, taskAt_size h, if_pos ⟨hge, by omega⟩, chunk, Option.some.injEq,
    List.take_eq_take_iff, List.length_drop]
  omega

theorem length_chunk (plan : WorkSlicePlan) (items : List α) (i : Nat) :
    (chunk plan items i).length =
      min plan.taskSize.toNat (items.length - i * plan.taskSize.toNat) := by
  rw [chunk, List.length_take, List.length_drop]

theorem chunk_ne_nil (h : plan.IsFor params items.length) (hi : i < plan.nTasks.toNat) :
    chunk plan items i ≠ [] := by
  have hlt := h.offset_lt hi
  have hpos := pos_iff_toNat_pos.mp h.pos
  rw [← List.length_pos_iff, length_chunk]
  omega

/-- The tasks' items, one task after the other, are the input. -/
theorem flatten_chunks (h : plan.IsFor params items.length) :
    ((List.range plan.nTasks.toNat).map (chunk plan items)).flatten = items := by
  have hfirst : ∀ k, ((List.range k).map (chunk plan items)).flatten =
      items.take (k * plan.taskSize.toNat) := by
    intro k
    induction k with
    | zero => simp
    | succ k ih =>
      rw [List.range_succ, List.map_append, List.flatten_append, ih, List.map_singleton,
        List.flatten_singleton, chunk, Nat.succ_mul, List.take_add]
  rw [hfirst, List.take_of_length_le h.le_nTasks_mul]

end

/-! ## Main result -/

theorem fit_iff (hn : n < 2 ^ 63) (hmax : 0 < params.maxTasks) :
    n + targetSize params n ≤ 2 ^ 64 ↔ n + params.minTaskSize.toNat ≤ 2 ^ 64 := by
  have := ceilDiv_le_self (n := n) (pos_iff_toNat_pos.mp hmax)
  unfold targetSize
  omega

/-- When the sum wraps, the plan has no tasks for an input that is not empty. -/
theorem not_slices (hmin : 0 < params.minTaskSize) (hmax : 0 < params.maxTasks)
    (hsize : inputSize.toNat < 2 ^ 63) (hne : inputSize ≠ 0)
    (hwrap : 2 ^ 64 < inputSize.toNat + params.minTaskSize.toNat) : ¬ Slices params inputSize := by
  rintro ⟨plan, tasks, hplan, hwork, _⟩
  obtain ⟨taskSize, htask, hsizeEq⟩ := getTaskSize_eq hmin hmax hsize
  have hbig : 2 ^ 64 < inputSize.toNat + taskSize.toNat := by
    rw [hsizeEq]
    exact not_le.mp fun h => absurd ((fit_iff hsize hmax).mp h) (not_le.mpr hwrap)
  rw [WorkSlicePlan.new, htask, Option.bind_some, getTaskCount_wraps hbig, Option.bind_some] at hplan
  split at hplan
  · cases hplan
    rw [sliceWork, if_neg hne, if_neg (UInt64.lt_irrefl 0)] at hwork
    cases hwork
  · cases hplan

/-- **Slicing.** For all positive parameters and every input size that a distance of iterators
    can have, the plan's checks hold and the tasks partition the input, the last one on the
    calling thread, exactly when the input is empty or its size and the minimum task size are
    together at most 2^64. -/
theorem slices_iff {params : WorkSliceParams} {inputSize : UInt64}
    (hmin : 0 < params.minTaskSize) (hmax : 0 < params.maxTasks)
    (hsize : inputSize.toNat < 2 ^ 63) :
    Slices params inputSize ↔
      inputSize = 0 ∨ inputSize.toNat + params.minTaskSize.toNat ≤ 2 ^ 64 := by
  constructor
  · intro h
    by_contra hcond
    rw [not_or, not_le] at hcond
    exact not_slices hmin hmax hsize hcond.1 hcond.2 h
  · intro hcond
    have hfit : inputSize.toNat + params.minTaskSize.toNat ≤ 2 ^ 64 := by
      rcases hcond with rfl | hle
      · have := params.minTaskSize.toNat_lt
        rw [UInt64.toNat_zero]
        omega
      · exact hle
    obtain ⟨plan, hplan, hfor⟩ := new_eq_some hmin hmax hsize ((fit_iff hsize hmax).mpr hfit)
    exact ⟨plan, _, hplan, sliceWork_eq hfor, partitions_of_isFor hfor hsize⟩

theorem slices_iff_ten : Slices ⟨3, 4⟩ 10 :=
  (@slices_iff ⟨3, 4⟩ 10 (by decide) (by decide) (by decide)).mpr (.inr (by decide))

/-- Ten items that are never to be split make no task at all. -/
theorem never_split_makes_no_task : ¬ Slices ⟨18446744073709551615, 4⟩ 10 :=
  not_slices (by decide) (by decide) (by decide) (by decide) (by decide)

end Batt.SliceWork
