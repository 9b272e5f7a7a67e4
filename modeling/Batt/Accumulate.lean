/-
  Parallel accumulation (algo/parallel_accumulate.hpp).

  An iterator is modelled by what is left of its range. The work of one level is a pool of
  tasks over `task_result_buffer`; a task reads its cell, goes over its items one by one
  and writes its cell, and a schedule names the task that steps next, so every order in
  which the tasks run is a schedule. When all tasks have finished, the scope of `context`
  ends, and any entry of the schedule lets the caller go on. The recursive call is a tail
  call: the machine is back at the entry, with the results of the level as its input.
  `none` is a step the program has no defined result for: a failed BATT_CHECK, an iterator
  that leaves its range, an access outside the buffer.

  At every level task `i` owns cell `i` of the buffer and will leave there the fold of its items
  from the cell's seed (`Task.Ok`, `Working`). With an associative operation the fold of these
  results is the fold of the input (`foldl_pieces`), so the value that the recursive call is to
  return never changes (`Inv`), and a level has fewer tasks than items, which makes `State.rank`
  fall with every step.
-/
import Mathlib.Tactic.Ring
import Batt.Lib.Folding
import Batt.Lib.Interleave
import Batt.SliceWork.Plan

namespace Batt.Accumulate
open Interleave SliceWork Folding

variable {α : Type}

/-- A work function, at the point its `std::accumulate` has reached. -/
inductive Task (α : Type) where
  | pending (index : Nat) (items : List α)
  | folding (index : Nat) (acc : α) (items : List α)
  | finished
deriving Repr, DecidableEq

def Task.isFinished : Task α → Bool
  | .finished => true
  | _ => false

inductive State (α : Type) where
  /-- `parallel_accumulate` is called. -/
  | entry (items : List α) (init : α)
  /-- In the scope of `context`; `task_results` are the first `nTasks` cells. -/
  | running (nTasks : Nat) (work : Conf (List α) (Task α))
  | returned (value : α)

section Code

variable (binaryOp : α → α → α) (identity default : α) (params : WorkSliceParams)

def Task.step (buffer : List α) : Task α → Option (List α × Task α)
  | .pending index items => (buffer[index]?).map fun acc => (buffer, .folding index acc items)
  | .folding index acc (item :: items) => some (buffer, .folding index (binaryOp acc item) items)
  | .folding index acc [] =>
    if index < buffer.length then some (buffer.set index acc, .finished) else none
  | .finished => none

def machine : Machine (List α) (Task α) Unit where
  step _ buffer task := task.step binaryOp buffer

/-- `std::fill` over the first `nTasks` cells, and the first one set to `init`. -/
def seeded (nTasks : Nat) (init : α) (buffer : List α) : Option (List α) :=
  if nTasks ≤ buffer.length then
    some ((List.replicate nTasks identity ++ buffer.drop nTasks).set 0 init)
  else none

/-- The closure of `gen_work_fn` for a task of the plan. -/
def workFn (items : List α) (task : SliceTask) : Option (Task α) :=
  (rangeAt items task.taskOffset task.taskSize).map (.pending task.taskIndex.toNat)

/-- The state it is left in: the results are there, or its tasks run. -/
def parallelAccumulatePartial (items : List α) (init : α) (buffer : List α) :
    Option (State α) :=
  if items.isEmpty then some (.running 0 ⟨buffer, []⟩)
  else if params.maxTasks = 1 then
    if 1 ≤ buffer.length then some (.running 1 ⟨buffer.set 0 (items.foldl binaryOp init), []⟩)
    else none
  else
    (WorkSlicePlan.new params (.ofNat items.length)).bind fun plan =>
      (seeded identity plan.nTasks.toNat init buffer).bind fun buffer =>
        (sliceWork plan).bind fun tasks =>
          (tasks.mapM (workFn items)).map fun tasks => .running plan.nTasks.toNat ⟨buffer, tasks⟩

def parallelAccumulate (items : List α) (init : α) : Option (State α) :=
  if items.isEmpty then some (.returned init)
  else if 0 < params.minTaskSize ∧ 0 < params.maxTasks then
    if params.maxTasks = 1 ∨ UInt64.ofNat items.length ≤ max params.minTaskSize params.maxTasks then
      some (.returned (items.foldl binaryOp init))
    else
      parallelAccumulatePartial binaryOp identity params items init
        (List.replicate params.maxTasks.toNat default)
  else none

/-- After the scope of `context`: the results are accumulated in turn. -/
def joined (nTasks : Nat) (buffer : List α) : Option (State α) :=
  match buffer.take nTasks with
  | [] => none   -- BATT_CHECK(!task_results.empty())
  | front :: rest => some (.entry rest front)

def step (i : Nat) : State α → Option (State α)
  | .entry items init => parallelAccumulate binaryOp identity default params items init
  | .running nTasks work =>
    if work.locals.all Task.isFinished then joined nTasks work.shared
    else ((machine binaryOp).fire i () work).map (.running nTasks)
  | .returned _ => none

def run : List Nat → State α → Option (State α)
  | [], s => some s
  | i :: sched, s => (step binaryOp identity default params i s).bind (run sched)

end Code

variable {binaryOp : α → α → α} {identity default : α} {params : WorkSliceParams} {v init : α}

/-! ## The tasks of one level -/

/-- Task `i` will leave `r` in its cell, or has. -/
def Task.Ok (binaryOp : α → α → α) (buffer : List α) (i : Nat) (r : α) : Task α → Prop
  | .pending index items =>
    index = i ∧ ∃ seed, buffer[i]? = some seed ∧ items.foldl binaryOp seed = r
  | .folding index acc items =>
    index = i ∧ i < buffer.length ∧ items.foldl binaryOp acc = r
  | .finished => buffer[i]? = some r

structure Working (binaryOp : α → α → α) (results : List α) (work : Conf (List α) (Task α)) :
    Prop where
  count : work.locals.length = results.length
  ok : ∀ (i : Nat) (r : α), results[i]? = some r →
    ∃ task : Task α, work.locals[i]? = some task ∧ task.Ok binaryOp work.shared i r

/-- The steps a task has left. -/
def Task.weight : Task α → Nat
  | .pending _ items => items.length + 2
  | .folding _ _ items => items.length + 1
  | .finished => 0

section

variable {buffer buffer' : List α} {i j : Nat} {r : α} {task task' : Task α}

/-- A write to another cell. -/
theorem Task.Ok.set_ne (h : task.Ok binaryOp buffer j r) (hne : i ≠ j) (acc : α) :
    task.Ok binaryOp (buffer.set i acc) j r := by
  cases task with
  | pending index items =>
    obtain ⟨hidx, seed, hseed, hfold⟩ := h
    exact ⟨hidx, seed, by rw [List.getElem?_set_ne hne, hseed], hfold⟩
  | folding index acc' items =>
    obtain ⟨hidx, hlt, hfold⟩ := h
    exact ⟨hidx, by rw [List.length_set]; exact hlt, hfold⟩
  | finished =>
    have hr : buffer[j]? = some r := h
    show (buffer.set i acc)[j]? = some r
    rw [List.getElem?_set_ne hne, hr]

/-- A step of task `i`: it keeps its promise and leaves all other cells alone. -/
theorem step_ok (h : task.Ok binaryOp buffer i r)
    (hs : task.step binaryOp buffer = some (buffer', task')) :
    task'.Ok binaryOp buffer' i r ∧ task'.weight < task.weight ∧
      (buffer' = buffer ∨ ∃ acc, buffer' = buffer.set i acc) := by
  cases task with
  | pending index items =>
    obtain ⟨rfl, seed, hseed, hfold⟩ := h
    rw [Task.step, hseed, Option.map_some] at hs
    cases hs
    exact ⟨⟨rfl, (List.getElem?_eq_some_iff.mp hseed).1, hfold⟩, by simp [Task.weight], .inl rfl⟩
  | folding index acc items =>
    obtain ⟨rfl, hlt, hfold⟩ := h
    cases items with
    | nil =>
      rw [Task.step, if_pos hlt] at hs
      cases hs
      refine ⟨?_, by simp [Task.weight], .inr ⟨acc, rfl⟩⟩
      show (buffer.set index acc)[index]? = some r
      rw [List.getElem?_set_self hlt, ← hfold]
      rfl
    | cons item items =>
      cases hs
      exact ⟨⟨rfl, hlt, hfold⟩, by simp [Task.weight], .inl rfl⟩
  | finished => cases hs

/-- An unfinished task has a next step: its cell is in the buffer. -/
theorem step_isSome (h : task.Ok binaryOp buffer i r) (hne : task ≠ .finished) :
    ∃ next, task.step binaryOp buffer = some next := by
  cases task with
  | pending index items =>
    obtain ⟨rfl, seed, hseed, -⟩ := h
    exact ⟨_, by rw [Task.step, hseed, Option.map_some]⟩
  | folding index acc items =>
    obtain ⟨rfl, hlt, -⟩ := h
    cases items with
    | nil => exact ⟨_, if_pos hlt⟩
    | cons item items => exact ⟨_, rfl⟩
  | finished => exact absurd rfl hne

end

section

variable {results : List α} {work work' : Conf (List α) (Task α)} {i : Nat}

/-- The result task `i` of the pool is to leave. -/
theorem Working.result (h : Working binaryOp results work) {task : Task α}
    (hi : work.locals[i]? = some task) :
    ∃ r, results[i]? = some r ∧ task.Ok binaryOp work.shared i r := by
  have hlt := (List.getElem?_eq_some_iff.mp hi).1
  rw [h.count] at hlt
  have hr : results[i]? = some results[i] := List.getElem?_eq_getElem hlt
  obtain ⟨task', hi', hok⟩ := h.ok i _ hr
  rw [hi] at hi'
  cases hi'
  exact ⟨_, hr, hok⟩

theorem Working.fire (h : Working binaryOp results work)
    (hf : (machine binaryOp).fire i () work = some work') :
    Working binaryOp results work' ∧
      total Task.weight work'.locals < total Task.weight work.locals := by
  obtain ⟨task, buffer', task', hi, -, hs, rfl⟩ := Machine.fire_cases hf
  obtain ⟨r, hr, hok⟩ := h.result hi
  obtain ⟨hok', hweight, hbuffer⟩ := step_ok hok hs
  refine ⟨⟨by rw [List.length_set]; exact h.count, ?_⟩, ?_⟩
  · intro j r' hr'
    by_cases hij : i = j
    · subst hij
      rw [hr] at hr'
      cases hr'
      exact ⟨task', List.getElem?_set_self (List.getElem?_eq_some_iff.mp hi).1, hok'⟩
    · obtain ⟨other, hj, hother⟩ := h.ok j r' hr'
      refine ⟨other, by rw [List.getElem?_set_ne hij]; exact hj, ?_⟩
      rcases hbuffer with rfl | ⟨acc, rfl⟩
      · exact hother
      · exact hother.set_ne hij acc
  · have hset := total_set Task.weight task' hi
    show total Task.weight (work.locals.set i task') < _
    omega

theorem Working.progress (h : Working binaryOp results work) {task : Task α}
    (hi : work.locals[i]? = some task) (hne : task ≠ .finished) :
    ∃ work', (machine binaryOp).fire i () work = some work' := by
  obtain ⟨r, -, hok⟩ := h.result hi
  obtain ⟨next, hnext⟩ := step_isSome hok hne
  refine ⟨⟨next.1, work.locals.set i next.2⟩, ?_⟩
  have hstep : (machine binaryOp).step () work.shared task = some next := hnext
  rw [Machine.fire, hi]
  simp only [hstep, Option.map_some]
  rfl

/-- When all tasks have finished, the results are in the buffer. -/
theorem Working.finished (h : Working binaryOp results work)
    (hall : work.locals.all Task.isFinished = true) :
    work.shared.take results.length = results := by
  refine List.ext_getElem? fun i => ?_
  by_cases hi : i < results.length
  · rw [List.getElem?_take_of_lt hi]
    obtain ⟨task, hget, hok⟩ := h.ok i _ (List.getElem?_eq_getElem hi)
    have hfin := List.all_eq_true.mp hall task (List.mem_of_getElem? hget)
    cases task with
    | finished => rw [List.getElem?_eq_getElem hi]; exact hok
    | pending _ _ => cases hfin
    | folding _ _ _ => cases hfin
  · rw [List.getElem?_eq_none (not_lt.mp hi)]
    exact List.getElem?_eq_none ((List.length_take_le _ _).trans (not_lt.mp hi))

end

/-! ## The start of a level -/

/-- What the tasks of a level leave: the first one folds from `init`, the others from the
    identity. -/
def levelResults (binaryOp : α → α → α) (identity init : α) (pieces : List (List α)) : List α :=
  match pieces with
  | [] => []
  | piece :: pieces => piece.foldl binaryOp init :: pieces.map (List.foldl binaryOp identity)

/-- The seed of cell `i`. -/
def seed (identity init : α) (i : Nat) : α := if i = 0 then init else identity

theorem seeded_getElem? {nTasks : Nat} {buffer buffer' : List α}
    (h : seeded identity nTasks init buffer = some buffer') {i : Nat} (hi : i < nTasks) :
    buffer'[i]? = some (seed identity init i) := by
  unfold seeded at h
  split at h
  · cases h
    have hlt : i < (List.replicate nTasks identity ++ buffer.drop nTasks).length := by
      rw [List.length_append, List.length_replicate]
      omega
    unfold seed
    split
    · rename_i hzero
      subst hzero
      rw [List.getElem?_set_self hlt]
    · rename_i hne
      rw [List.getElem?_set_ne (Ne.symm hne), List.getElem?_append_left (by simpa using hi)]
      exact List.getElem?_replicate_of_lt hi
  · cases h

theorem levelResults_getElem? {pieces : List (List α)} {i : Nat} {r : α}
    (h : (levelResults binaryOp identity init pieces)[i]? = some r) :
    ∃ piece, pieces[i]? = some piece ∧ piece.foldl binaryOp (seed identity init i) = r := by
  cases pieces with
  | nil => cases h
  | cons piece pieces =>
    cases i with
    | zero =>
      cases h
      exact ⟨piece, rfl, rfl⟩
    | succ i =>
      rw [levelResults, List.getElem?_cons_succ, List.getElem?_map, Option.map_eq_some_iff] at h
      obtain ⟨piece', hp, rfl⟩ := h
      exact ⟨piece', hp, rfl⟩

theorem length_levelResults (init : α) (pieces : List (List α)) :
    (levelResults binaryOp identity init pieces).length = pieces.length := by
  cases pieces <;> simp [levelResults]

/-- A level as it starts: nobody has run, and the cells hold their seeds. -/
theorem working_start {n : Nat} {piece : Nat → List α} {buffer : List α}
    (hseed : ∀ i, i < n → buffer[i]? = some (seed identity init i)) :
    Working binaryOp (levelResults binaryOp identity init ((List.range n).map piece))
      ⟨buffer, (List.range n).map fun i => .pending i (piece i)⟩ := by
  refine ⟨by simp [length_levelResults], ?_⟩
  intro i r hr
  obtain ⟨items, hitems, hfold⟩ := levelResults_getElem? hr
  rw [List.getElem?_map, Option.map_eq_some_iff] at hitems
  obtain ⟨j, hj, rfl⟩ := hitems
  obtain ⟨hi, rfl⟩ := List.getElem?_eq_some_iff.mp hj
  rw [List.length_range] at hi
  rw [List.getElem_range] at hfold
  refine ⟨.pending i (piece i), ?_, rfl, _, hseed i hi, hfold⟩
  rw [List.getElem?_map, List.getElem?_range hi, Option.map_some]

/-- The fold of the results is the fold of the input. -/
theorem foldl_levelResults (hassoc : ∀ x y z, binaryOp (binaryOp x y) z = binaryOp x (binaryOp y z))
    (hid : ∀ x, binaryOp identity x = x) {pieces : List (List α)}
    (hne : ∀ piece ∈ pieces, piece ≠ []) {front : α} {rest : List α}
    (h : levelResults binaryOp identity init pieces = front :: rest) :
    rest.foldl binaryOp front = pieces.flatten.foldl binaryOp init := by
  cases pieces with
  | nil => cases h
  | cons piece pieces =>
    cases h
    rw [List.flatten_cons, List.foldl_append]
    exact foldl_pieces hassoc hid (fun p hp => hne p (List.mem_cons_of_mem piece hp)) _

/-! ## The run -/

/-- The call is to return `v`. -/
def Inv (binaryOp : α → α → α) (v : α) : State α → Prop
  | .entry items init => items.length < 2 ^ 63 ∧ items.foldl binaryOp init = v
  | .running nTasks work => ∃ front rest, rest.foldl binaryOp front = v ∧
      nTasks = rest.length + 1 ∧ nTasks < 2 ^ 63 ∧ Working binaryOp (front :: rest) work
  | .returned w => w = v

/-- At most as many steps are left of a call on `n` items. -/
def stepsOf (n : Nat) : Nat := 3 * n * n + 1

def State.rank : State α → Nat
  | .entry items _ => stepsOf items.length
  | .running nTasks work => total Task.weight work.locals + stepsOf (nTasks - 1) + 1
  | .returned _ => 0

theorem total_weight_pending (piece : Nat → List α) (n : Nat) :
    total Task.weight ((List.range n).map fun i => .pending i (piece i)) =
      ((List.range n).map piece).flatten.length + 2 * n := by
  induction n with
  | zero => rfl
  | succ n ih =>
    rw [List.range_succ, List.map_append, List.map_append, List.flatten_append,
      List.map_singleton, total_concat, ih, List.map_singleton, List.flatten_singleton,
      List.length_append, Task.weight]
    omega

theorem stepsOf_falls {n k : Nat} (h : k + 2 ≤ n) :
    n + 2 * (k + 1) + stepsOf k + 1 < stepsOf n := by
  obtain ⟨d, rfl⟩ := Nat.exists_eq_add_of_le h
  have hsquare : 3 * (k + 2 + d) * (k + 2 + d) =
      3 * k * k + 12 * k + 12 + 6 * (k * d) + 12 * d + 3 * (d * d) := by ring
  unfold stepsOf
  omega

/-- A call that splits: fewer tasks than items, and the tasks' results fold to the same. -/
theorem partial_inv (hassoc : ∀ x y z, binaryOp (binaryOp x y) z = binaryOp x (binaryOp y z))
    (hid : ∀ x, binaryOp identity x = x) (hmin : 0 < params.minTaskSize)
    (hmax : 0 < params.maxTasks) (hone : params.maxTasks ≠ 1) (default : α) {items : List α}
    (init : α) (hlen : items.length < 2 ^ 63)
    (hbig : max params.minTaskSize params.maxTasks < UInt64.ofNat items.length) :
    ∃ s, parallelAccumulatePartial binaryOp identity params items init
        (List.replicate params.maxTasks.toNat default) = some s ∧
      Inv binaryOp (items.foldl binaryOp init) s ∧ s.rank < stepsOf items.length := by
  have hn : (UInt64.ofNat items.length).toNat = items.length :=
    UInt64.toNat_ofNat_of_lt' (by show items.length < 2 ^ 64; omega)
  rw [UInt64.lt_iff_toNat_lt, max_toNat, hn] at hbig
  have hfit := (fit_iff hlen hmax).mpr (by omega : items.length + params.minTaskSize.toNat ≤ 2 ^ 64)
  rw [← hn] at hfit hlen
  obtain ⟨plan, hplan, hfor⟩ := new_eq_some hmin hmax hlen hfit
  rw [hn] at hfor hlen
  have hmaxTasks : plan.nTasks.toNat ≤ params.maxTasks.toNat :=
    UInt64.le_iff_toNat_le.mp hfor.maxTasks
  have hne : items ≠ [] := by
    rintro rfl
    exact absurd hbig (Nat.not_lt_zero _)
  have hpos : 0 < plan.nTasks.toNat := by
    by_contra hzero
    have := hfor.le_nTasks_mul
    rw [Nat.eq_zero_of_not_pos hzero, Nat.zero_mul] at this
    exact hne (List.length_eq_zero_iff.mp (Nat.le_zero.mp this))
  -- the buffer has a cell for each task
  obtain ⟨buffer, hbuffer⟩ : ∃ buffer, seeded identity plan.nTasks.toNat init
      (List.replicate params.maxTasks.toNat default) = some buffer :=
    ⟨_, if_pos (by rw [List.length_replicate]; exact hmaxTasks)⟩
  have htasks : ((List.range plan.nTasks.toNat).map (taskAt plan)).mapM (workFn items) =
      some ((List.range plan.nTasks.toNat).map fun i => .pending i (chunk plan items i)) := by
    refine mapM_eq_some fun i hi => ?_
    rw [List.mem_range] at hi
    rw [workFn, rangeAt_taskAt hfor hlen hi, Option.map_some, taskAt_index hfor hlen hi]
  have hflat := flatten_chunks hfor
  have hresults : (levelResults binaryOp identity init
      ((List.range plan.nTasks.toNat).map (chunk plan items))).length = plan.nTasks.toNat := by
    rw [length_levelResults, List.length_map, List.length_range]
  obtain ⟨front, rest, hlevel⟩ := List.exists_cons_of_length_pos (hresults ▸ hpos)
  have hwork : Working binaryOp (levelResults binaryOp identity init
      ((List.range plan.nTasks.toNat).map (chunk plan items)))
      ⟨buffer, (List.range plan.nTasks.toNat).map fun i => .pending i (chunk plan items i)⟩ :=
    working_start fun i hi => seeded_getElem? hbuffer hi
  rw [hlevel] at hresults hwork
  refine ⟨.running plan.nTasks.toNat ⟨buffer, _⟩, ?_, ⟨front, rest, ?_, hresults.symm, ?_, hwork⟩, ?_⟩
  · rw [parallelAccumulatePartial, List.isEmpty_eq_false_iff.mpr hne, if_neg (by decide),
      if_neg hone, hplan, Option.bind_some, hbuffer, Option.bind_some, sliceWork_eq hfor,
      Option.bind_some, htasks, Option.map_some]
  · rw [← hflat]
    refine (foldl_levelResults hassoc hid ?_ hlevel).trans (by rw [hflat])
    intro piece hp
    obtain ⟨i, hi, rfl⟩ := List.mem_map.mp hp
    exact chunk_ne_nil hfor (List.mem_range.mp hi)
  · exact lt_of_le_of_lt hfor.nTasks_le hlen
  · have hfalls := stepsOf_falls (n := items.length) (k := plan.nTasks.toNat - 1) (by omega)
    show total Task.weight ((List.range plan.nTasks.toNat).map fun i =>
      .pending i (chunk plan items i)) + _ + 1 < _
    rw [total_weight_pending, hflat]
    omega

/-- What one step does: the value to return stays, and the steps left are fewer. -/
theorem step_inv (hassoc : ∀ x y z, binaryOp (binaryOp x y) z = binaryOp x (binaryOp y z))
    (hid : ∀ x, binaryOp identity x = x) (hmin : 0 < params.minTaskSize)
    (hmax : 0 < params.maxTasks) {s s' : State α} {i : Nat} (hinv : Inv binaryOp v s)
    (hs : step binaryOp identity default params i s = some s') :
    Inv binaryOp v s' ∧ s'.rank < s.rank := by
  cases s with
  | entry items init =>
    obtain ⟨hlen, rfl⟩ := hinv
    have hsteps : 0 < stepsOf items.length := Nat.succ_pos _
    rw [step, parallelAccumulate] at hs
    split at hs
    · rename_i hempty
      cases hs
      rw [List.isEmpty_iff.mp hempty]
      exact ⟨rfl, Nat.succ_pos _⟩
    · rw [if_pos ⟨hmin, hmax⟩] at hs
      split at hs
      · cases hs
        exact ⟨rfl, hsteps⟩
      · rename_i hsplit
        rw [not_or, UInt64.not_le] at hsplit
        obtain ⟨s₁, hs₁, hinv₁, hrank₁⟩ := partial_inv hassoc hid hmin hmax hsplit.1 default init
          hlen hsplit.2
        rw [hs₁] at hs
        cases hs
        exact ⟨hinv₁, hrank₁⟩
  | running nTasks work =>
    obtain ⟨front, rest, hfold, hcount, hlt, hwork⟩ := hinv
    rw [step] at hs
    split at hs
    · rename_i hall
      have htake := hwork.finished hall
      rw [List.length_cons, ← hcount] at htake
      rw [joined, htake] at hs
      cases hs
      refine ⟨⟨by omega, hfold⟩, ?_⟩
      show stepsOf rest.length < total Task.weight work.locals + stepsOf (nTasks - 1) + 1
      rw [hcount, Nat.add_sub_cancel]
      omega
    · obtain ⟨work', hf, rfl⟩ := Option.map_eq_some_iff.mp hs
      obtain ⟨hwork', hweight⟩ := hwork.fire hf
      refine ⟨⟨front, rest, hfold, hcount, hlt, hwork'⟩, ?_⟩
      show total Task.weight work'.locals + _ + 1 < total Task.weight work.locals + _ + 1
      omega
  | returned w => cases hs

theorem run_inv (hassoc : ∀ x y z, binaryOp (binaryOp x y) z = binaryOp x (binaryOp y z))
    (hid : ∀ x, binaryOp identity x = x) (hmin : 0 < params.minTaskSize)
    (hmax : 0 < params.maxTasks) {sched : List Nat} {s s' : State α} (hinv : Inv binaryOp v s)
    (hr : run binaryOp identity default params sched s = some s') :
    Inv binaryOp v s' ∧ sched.length + s'.rank ≤ s.rank := by
  induction sched generalizing s with
  | nil =>
    cases hr
    exact ⟨hinv, by simp⟩
  | cons i sched ih =>
    obtain ⟨s₁, hs, hr⟩ := Option.bind_eq_some_iff.mp hr
    obtain ⟨hinv₁, hrank₁⟩ := step_inv hassoc hid hmin hmax hinv hs
    obtain ⟨hinv', hrank'⟩ := ih hinv₁ hr
    rw [List.length_cons]
    exact ⟨hinv', by omega⟩

/-- Who can step: the caller, or a task that has not finished. -/
def State.Ready (i : Nat) : State α → Prop
  | .entry _ _ => True
  | .running _ work => work.locals.all Task.isFinished = true ∨
      ∃ task, work.locals[i]? = some task ∧ task ≠ .finished
  | .returned _ => False

/-- Nobody who can step is stopped by a check or leaves the buffer. -/
theorem ready_step (hassoc : ∀ x y z, binaryOp (binaryOp x y) z = binaryOp x (binaryOp y z))
    (hid : ∀ x, binaryOp identity x = x) (hmin : 0 < params.minTaskSize)
    (hmax : 0 < params.maxTasks) {s : State α} {i : Nat} (hinv : Inv binaryOp v s)
    (hready : s.Ready i) : ∃ s', step binaryOp identity default params i s = some s' := by
  cases s with
  | entry items init =>
    rw [step, parallelAccumulate]
    split
    · exact ⟨_, rfl⟩
    · rw [if_pos ⟨hmin, hmax⟩]
      split
      · exact ⟨_, rfl⟩
      · rename_i hsplit
        rw [not_or, UInt64.not_le] at hsplit
        obtain ⟨s₁, hs₁, -⟩ := partial_inv hassoc hid hmin hmax hsplit.1 default init hinv.1
          hsplit.2
        exact ⟨s₁, hs₁⟩
  | running nTasks work =>
    obtain ⟨front, rest, -, hcount, -, hwork⟩ := hinv
    rw [step]
    split
    · rename_i hall
      have htake := hwork.finished hall
      rw [List.length_cons, ← hcount] at htake
      exact ⟨.entry rest front, by rw [joined, htake]⟩
    · rename_i hnot
      rcases hready with hall | ⟨task, hi, hne⟩
      · exact absurd hall hnot
      · obtain ⟨work', hf⟩ := hwork.progress hi hne
        exact ⟨.running nTasks work', by rw [hf, Option.map_some]⟩
  | returned w => exact absurd hready id

/-- As long as the call has not returned, somebody can step. -/
theorem exists_ready {s : State α} (h : ∀ v, s ≠ .returned v) : ∃ i, s.Ready i := by
  cases s with
  | entry items init => exact ⟨0, trivial⟩
  | running nTasks work =>
    by_cases hall : work.locals.all Task.isFinished = true
    · exact ⟨0, .inl hall⟩
    · rw [List.all_eq_true] at hall
      push Not at hall
      obtain ⟨task, hmem, hfin⟩ := hall
      obtain ⟨i, hi⟩ := List.mem_iff_getElem?.mp hmem
      exact ⟨i, .inr ⟨task, hi, by rintro rfl; exact hfin rfl⟩⟩
  | returned w => exact absurd rfl (h w)

/-! ## Main result -/

/-- In every order of the tasks the call ends and returns `v`. -/
structure Returns (binaryOp : α → α → α) (identity default : α) (params : WorkSliceParams)
    (s₀ : State α) (v : α) : Prop where
  ends : ∃ bound, ∀ sched s, run binaryOp identity default params sched s₀ = some s →
    sched.length ≤ bound
  /-- No check fails and no access leaves the buffer. -/
  steps : ∀ sched s i, run binaryOp identity default params sched s₀ = some s → s.Ready i →
    ∃ s', step binaryOp identity default params i s = some s'
  goesOn : ∀ sched s, run binaryOp identity default params sched s₀ = some s →
    (∀ w, s ≠ .returned w) → ∃ i, s.Ready i
  result : ∀ sched w, run binaryOp identity default params sched s₀ = some (.returned w) → w = v

/-- **Parallel accumulation.** For every associative operation with a left identity, every range
    and initial value, and all positive task sizes and task counts, `parallel_accumulate` ends in
    every order of its tasks with the fold of the range. -/
theorem parallel_accumulate_folds
    (hassoc : ∀ x y z, binaryOp (binaryOp x y) z = binaryOp x (binaryOp y z))
    (hid : ∀ x, binaryOp identity x = x) (hmin : 1 ≤ params.minTaskSize)
    (hmax : 1 ≤ params.maxTasks) {items : List α} (hlen : items.length < 2 ^ 63) (init : α) :
    Returns binaryOp identity default params (.entry items init) (items.foldl binaryOp init) := by
  have hmin' : 0 < params.minTaskSize := UInt64.lt_of_lt_of_le (by decide) hmin
  have hmax' : 0 < params.maxTasks := UInt64.lt_of_lt_of_le (by decide) hmax
  have hstart : Inv binaryOp (items.foldl binaryOp init) (.entry items init) := ⟨hlen, rfl⟩
  refine ⟨⟨stepsOf items.length, ?_⟩, ?_, ?_, ?_⟩
  · intro sched s hr
    exact Nat.le_of_add_right_le (run_inv hassoc hid hmin' hmax' hstart hr).2
  · intro sched s i hr hready
    exact ready_step hassoc hid hmin' hmax' (run_inv hassoc hid hmin' hmax' hstart hr).1 hready
  · intro sched s _ hne
    exact exists_ready hne
  · intro sched w hr
    exact (run_inv hassoc hid hmin' hmax' hstart hr).1

/-- Strings are put together in order: joining is associative and does not commute. -/
theorem parallel_accumulate_folds_words :
    Returns (· ++ ·) "" "" ⟨1, 2⟩ (.entry ["a", "b", "c", "d", "e"] ">") ">abcde" :=
  @parallel_accumulate_folds String (· ++ ·) "" "" ⟨1, 2⟩ (fun x y z => String.append_assoc)
    (fun x => String.empty_append) (by decide) (by decide) ["a", "b", "c", "d", "e"] (by decide) ">"

end Batt.Accumulate
