/-
  The arithmetic of the fan-out, for every task limit.

  The division is by `(max_tasks + 1) / 2`, which is zero where `max_tasks` is zero, the default on
  a machine with at most one hardware thread, and where it is the largest value and the sum wraps.
  With every other limit no call divides by zero, every turn of the loop of
  `parallel_merge_fanout` starts with a shard size above zero and takes it from the size of what is
  left, and all tasks come to an end (`fansOutSafely_iff`). None of it depends on what `compare`
  answers, so the ranges need not be sorted.
-/
import Batt.Lib.Interleave
import Batt.ParallelMerge.Tasks

namespace Batt.ParallelMerge

open Interleave

variable {α : Type} (compare : α → α → Bool) {phase : Phase}

/-! ## The counters of the loop -/

/-- The loop that advances `fixed_shard_end`, and `shard_size` with it. -/
def growShard (fixedPartSize : Int) : α → List α → Int → Option (List α × Int)
  | _, [], shardSize => some ([], shardSize)
  | back, x :: rest, shardSize =>
    if compare back x then some (x :: rest, shardSize)
    else if shardSize < fixedPartSize then growShard fixedPartSize x rest (shardSize + 1)
    else none   -- BATT_CHECK_LT(shard_size, fixed_part_size)

/-- The counters in one turn of the loop of `parallel_merge_fanout`: what is left of the part, and
    `fixed_part_size` after the turn. -/
def fanoutTurn (target : Int) (fixedPart : List α) (fixedPartSize : Int) : Option (List α × Int) :=
  let shardSize := min target fixedPartSize
  if shardSize ≤ 0 then none   -- BATT_CHECK_GT(shard_size, 0)
  else
    match fixedPart.drop (shardSize.toNat - 1) with
    | [] => none
    | back :: rest => (growShard compare fixedPartSize back rest shardSize).map fun grown =>
        (grown.1, fixedPartSize - grown.2)

/-- As long as the shard and what is behind it are the part, the check holds. -/
theorem growShard_eq (fixedPartSize : Int) (rest : List α) : ∀ (back : α) (shardSize : Int),
    shardSize + rest.length = fixedPartSize →
      growShard compare fixedPartSize back rest shardSize =
        some (extendShard compare back rest,
          fixedPartSize - (extendShard compare back rest).length) := by
  induction rest with
  | nil =>
    intro back shardSize hsize
    rw [growShard, extendShard, ← hsize]
    simp
  | cons x rest ih =>
    intro back shardSize hsize
    rw [List.length_cons] at hsize
    rw [growShard, extendShard]
    split
    · rw [← hsize, List.length_cons]
      simp
    · rw [if_pos (by omega)]
      exact ih x (shardSize + 1) (by omega)

/-- One turn of the loop: its counters are the lengths of the lists. -/
theorem parallelMergeFanout_turn (phase : Phase) {target : Int} {fixedPart : List α}
    (fixed search : List α) (dst : Nat) (htarget : 0 < target) (hne : fixedPart ≠ []) :
    ∃ rest : List α, rest <:+ fixedPart ∧ rest.length < fixedPart.length ∧
      fanoutTurn compare target fixedPart fixedPart.length = some (rest, (rest.length : Int)) ∧
      parallelMergeFanout compare phase target fixed fixedPart search dst =
        let shard := .work phase fixedPart rest search dst (fixedPart.length == fixed.length)
          (rest.length == 0)
        if rest ≠ [] then
          some {
            task := .fanout phase target fixed rest search (dst + (fixedPart.length - rest.length))
            spawned := [shard] }
        else some { task := shard } := by
  have hpos := List.length_pos_of_ne_nil hne
  have hsize : ¬min target fixedPart.length ≤ 0 := by omega
  obtain ⟨back, rest, hdrop⟩ : ∃ back rest,
      fixedPart.drop ((min target fixedPart.length).toNat - 1) = back :: rest := by
    refine List.exists_cons_of_ne_nil ?_
    rw [ne_eq, List.drop_eq_nil_iff]
    omega
  have hlen : min target fixedPart.length + rest.length = (fixedPart.length : Int) := by
    have h := congrArg List.length hdrop
    rw [List.length_drop, List.length_cons] at h
    omega
  obtain ⟨mid, last, hmid, _⟩ := extendShard_cases compare back rest
  have hsuffix : extendShard compare back rest <:+ back :: rest :=
    ⟨mid ++ [last], by rw [List.append_assoc, hmid]; rfl⟩
  refine ⟨extendShard compare back rest, hsuffix.trans (hdrop ▸ List.drop_suffix _ _), ?_, ?_, ?_⟩
  · have h := congrArg List.length hmid
    rw [List.length_append, List.length_cons, List.length_cons] at h
    omega
  · simp only [fanoutTurn, if_neg hsize, hdrop, growShard_eq compare _ rest back _ hlen,
      Option.map_some]
    congr 2
    omega
  · simp only [parallelMergeFanout, if_neg hne, if_neg hsize, hdrop]

/-! ## Sizes of tasks -/

/-- A bound on the steps of a call on `n` elements: each turn of its loop starts a call of the next
    phase, on no more than these. -/
def loopSteps (next : Nat → Nat) (n : Nat) : Nat := n * (next n + 2) + n + 3

theorem loopSteps_mono {next : Nat → Nat} (hnext : ∀ {n m}, n ≤ m → next n ≤ next m) {n m : Nat}
    (h : n ≤ m) : loopSteps next n ≤ loopSteps next m := by
  have hmul := Nat.mul_le_mul h (Nat.add_le_add_right (hnext h) 2)
  rw [loopSteps, loopSteps]
  omega

def Phase.steps : Phase → Nat → Nat
  | .third => fun n => n + 3
  | .second => loopSteps fun n => n + 3
  | .first => loopSteps (loopSteps fun n => n + 3)

theorem Phase.steps_next (h : phase ≠ .third) (n : Nat) :
    phase.steps n = n * (phase.next.steps n + 2) + n + 3 := by
  cases phase with
  | first => rfl
  | second => rfl
  | third => exact absurd rfl h

theorem Phase.le_steps (phase : Phase) (n : Nat) : n + 3 ≤ phase.steps n := by
  by_cases h : phase = .third
  · rw [h]
    exact Nat.le_refl _
  · rw [Phase.steps_next h]
    omega

theorem Phase.steps_mono (phase : Phase) {n m : Nat} (h : n ≤ m) :
    phase.steps n ≤ phase.steps m := by
  have hthird : ∀ {n m : Nat}, n ≤ m → n + 3 ≤ m + 3 := fun h => Nat.add_le_add_right h 3
  cases phase with
  | first => exact loopSteps_mono (loopSteps_mono hthird) h
  | second => exact loopSteps_mono hthird h
  | third => exact hthird h

/-- A bound on the steps left to a task and those it hands out. -/
def Task.size : Task α → Nat
  | .impl phase src0 src1 _ => phase.steps (src0.length + src1.length)
  | .fanout phase _ _ fixedPart search _ =>
    fixedPart.length * (phase.next.steps (fixedPart.length + search.length) + 2) + 1
  | .work phase fixedShardBegin _ search _ _ _ =>
    phase.next.steps (fixedShardBegin.length + search.length) + 1
  | .merge src0 src1 _ => src0.length + src1.length + 2
  | .copy src _ => src.length + 1
  | .finished => 0

/-- What keeps a task from a step without a result, in any order of its elements. -/
def Task.Sized (minTaskSize maxTasks : UInt64) : Task α → Prop
  | .impl phase src0 src1 _ => src0.length + src1.length < 2 ^ 63 ∧
      (NoFanout minTaskSize phase src0 src1 ∨ maxTasksPerPhase maxTasks ≠ 0)
  | .fanout phase target _ fixedPart search _ =>
    phase ≠ .third ∧ maxTasksPerPhase maxTasks ≠ 0 ∧ 0 < target ∧ fixedPart ≠ [] ∧
      fixedPart.length + search.length < 2 ^ 63
  | .work phase fixedShardBegin fixedShardEnd search _ _ isLast =>
    phase ≠ .third ∧ maxTasksPerPhase maxTasks ≠ 0 ∧ fixedShardBegin ≠ [] ∧
      fixedShardEnd <:+ fixedShardBegin ∧ isLast = (fixedShardEnd.length == 0) ∧
      fixedShardBegin.length + search.length < 2 ^ 63
  | _ => True

/-- A step leaves sized tasks, with fewer steps. -/
structure Shrinks (minTaskSize maxTasks : UInt64) (t : Task α) (e : Effect α) : Prop where
  sized : e.task.Sized minTaskSize maxTasks
  spawned : ∀ s ∈ e.spawned, s.Sized minTaskSize maxTasks
  size : e.task.size + total Task.size e.spawned < t.size

variable {minTaskSize maxTasks : UInt64}

theorem Shrinks.of_task {t : Task α} {e : Effect α} (hspawned : e.spawned = [])
    (hsized : e.task.Sized minTaskSize maxTasks) (hsize : e.task.size < t.size) :
    Shrinks minTaskSize maxTasks t e where
  sized := hsized
  spawned := by
    rw [hspawned]
    nofun
  size := by
    rw [hspawned]
    exact hsize

/-! ## Steps -/

theorem copyStep_shrinks (src : List α) (dst : Nat) :
    Shrinks minTaskSize maxTasks (.copy src dst) (copyStep src dst) := by
  cases src with
  | nil => exact .of_task rfl trivial (Nat.succ_pos _)
  | cons x xs => exact .of_task rfl trivial (Nat.lt_succ_self _)

theorem mergeStep_shrinks (src0 src1 : List α) (dst : Nat) :
    Shrinks minTaskSize maxTasks (.merge src0 src1 dst) (mergeStep compare src0 src1 dst) := by
  match src0, src1 with
  | [], src1 =>
    refine .of_task rfl trivial ?_
    simp only [mergeStep, Task.size]
    omega
  | x :: xs, [] =>
    refine .of_task rfl trivial ?_
    simp only [mergeStep, Task.size]
    omega
  | x :: xs, y :: ys =>
    rw [mergeStep]
    split
    · refine .of_task rfl trivial ?_
      simp only [Task.size, List.length_cons]
      omega
    · refine .of_task rfl trivial ?_
      simp only [Task.size, List.length_cons]
      omega

theorem parallelMergeImpl_shrinks {src0 src1 : List α} {dst : Nat}
    (hs : Task.Sized minTaskSize maxTasks (.impl phase src0 src1 dst)) :
    ∃ t, parallelMergeImpl minTaskSize maxTasks phase src0 src1 dst = some t ∧
      Shrinks minTaskSize maxTasks (.impl phase src0 src1 dst) { task := t } := by
  obtain ⟨hlen, hdiv⟩ := hs
  have hsteps := phase.le_steps (src0.length + src1.length)
  obtain ⟨t, heq, hcase⟩ := parallelMergeImpl_cases dst hlen hdiv
  refine ⟨t, heq, ?_⟩
  obtain ⟨rfl, rfl⟩ | ⟨rfl, rfl⟩ | rfl |
    ⟨target, fixed, search, -, -, rfl, hthird, hper, hpos, hne, hsum⟩ := hcase
  · refine .of_task rfl trivial ?_
    simp only [Task.size]
    omega
  · refine .of_task rfl trivial ?_
    simp only [Task.size]
    omega
  · refine .of_task rfl trivial ?_
    simp only [Task.size]
    omega
  · refine .of_task rfl ⟨hthird, hper, hpos, hne, by omega⟩ ?_
    have hle : fixed.length ≤ src0.length + src1.length := by omega
    have hmul := Nat.mul_le_mul_right (phase.next.steps (src0.length + src1.length) + 2) hle
    simp only [Task.size, hsum]
    rw [Phase.steps_next hthird]
    omega

theorem parallelMergeFanout_shrinks {target : Int} {fixed fixedPart search : List α} {dst : Nat}
    (hs : Task.Sized minTaskSize maxTasks (.fanout phase target fixed fixedPart search dst)) :
    ∃ e, parallelMergeFanout compare phase target fixed fixedPart search dst = some e ∧
      Shrinks minTaskSize maxTasks (.fanout phase target fixed fixedPart search dst) e := by
  obtain ⟨hthird, hper, htarget, hne, hlen⟩ := hs
  obtain ⟨rest, hsuffix, hlt, -, heq⟩ :=
    parallelMergeFanout_turn compare phase fixed search dst htarget hne
  have hshard : Task.Sized minTaskSize maxTasks (.work phase fixedPart rest search dst
      (fixedPart.length == fixed.length) (rest.length == 0)) :=
    ⟨hthird, hper, hne, hsuffix, rfl, hlen⟩
  -- the shard and what is left have one turn less between them
  have hturn : (rest.length + 1) * (phase.next.steps (fixedPart.length + search.length) + 2) ≤
      fixedPart.length * (phase.next.steps (fixedPart.length + search.length) + 2) :=
    Nat.mul_le_mul_right _ hlt
  rw [Nat.succ_mul] at hturn
  by_cases hrest : rest = []
  · refine ⟨_, heq.trans (if_neg (not_not.mpr hrest)), .of_task rfl hshard ?_⟩
    simp only [Task.size]
    omega
  · have hmono := phase.next.steps_mono
      (Nat.add_le_add_right (Nat.le_of_lt hlt) search.length)
    have hmul := Nat.mul_le_mul_left rest.length (Nat.add_le_add_right hmono 2)
    refine ⟨_, heq.trans (if_pos hrest), ⟨?_, ?_, ?_⟩⟩
    · exact ⟨hthird, hper, htarget, hrest, by omega⟩
    · intro s hs
      rw [List.mem_singleton] at hs
      rw [hs]
      exact hshard
    · simp only [Task.size, total_cons, total_nil]
      omega

theorem workFn_shrinks {fixedShardBegin fixedShardEnd search : List α} {dst : Nat}
    {isFirst isLast : Bool} (hs : Task.Sized minTaskSize maxTasks
      (.work phase fixedShardBegin fixedShardEnd search dst isFirst isLast)) :
    ∃ t, workFn compare phase fixedShardBegin fixedShardEnd search dst isFirst isLast = some t ∧
      Shrinks minTaskSize maxTasks
        (.work phase fixedShardBegin fixedShardEnd search dst isFirst isLast) { task := t } := by
  obtain ⟨hthird, hper, hne, hend, hlast, hlen⟩ := hs
  obtain ⟨shardBegin, hbegin, hsb⟩ : ∃ shardBegin,
      searchShardBegin compare isFirst search fixedShardBegin = some shardBegin ∧
        shardBegin <:+ search := by
    obtain ⟨x, xs, rfl⟩ := List.exists_cons_of_ne_nil hne
    cases isFirst with
    | true => exact ⟨search, rfl, List.suffix_refl _⟩
    | false => exact ⟨_, rfl, lowerBound_suffix compare search x⟩
  obtain ⟨shardEnd, hsend, hse⟩ : ∃ shardEnd,
      searchShardEnd compare isLast shardBegin fixedShardEnd = some shardEnd ∧
        shardEnd <:+ shardBegin := by
    cases fixedShardEnd with
    | nil =>
      rw [hlast]
      exact ⟨[], rfl, List.nil_suffix⟩
    | cons x xs =>
      rw [hlast]
      exact ⟨_, rfl, lowerBound_suffix compare shardBegin x⟩
  have hlenF := rangeOf_length hend
  have hlenS := rangeOf_length hse
  have hsbLen := hsb.length_le
  have htotal : (phase.src0Iter (rangeOf fixedShardBegin fixedShardEnd)
        (rangeOf shardBegin shardEnd)).length +
      (phase.src1Iter (rangeOf fixedShardBegin fixedShardEnd)
        (rangeOf shardBegin shardEnd)).length ≤ fixedShardBegin.length + search.length := by
    unfold Phase.src0Iter Phase.src1Iter
    split <;> omega
  refine ⟨.impl phase.next
    (phase.src0Iter (rangeOf fixedShardBegin fixedShardEnd) (rangeOf shardBegin shardEnd))
    (phase.src1Iter (rangeOf fixedShardBegin fixedShardEnd) (rangeOf shardBegin shardEnd))
    (dst + (search.length - shardBegin.length)), ?_, .of_task rfl ?_ ?_⟩
  · rw [workFn, hbegin]
    simp only [Option.bind_eq_bind, Option.bind_some]
    rw [hsend, Option.bind_some, if_pos ⟨hend.length_le, hse.length_le⟩]
  · exact ⟨by omega, .inr hper⟩
  · exact Nat.lt_succ_of_le (phase.next.steps_mono htotal)

/-- A task that has not finished has a step, and the step leaves less to do. -/
theorem Task.step_shrinks {t : Task α} (hs : t.Sized minTaskSize maxTasks) (hne : t ≠ .finished) :
    ∃ e, t.step compare minTaskSize maxTasks = some e ∧ Shrinks minTaskSize maxTasks t e := by
  cases t with
  | impl phase src0 src1 dst =>
    obtain ⟨t', h, hshrinks⟩ := parallelMergeImpl_shrinks hs
    exact ⟨_, by simp only [Task.step, h, Option.map_some], hshrinks⟩
  | fanout phase target fixed fixedPart search dst => exact parallelMergeFanout_shrinks compare hs
  | work phase fixedShardBegin fixedShardEnd search dst isFirst isLast =>
    obtain ⟨t', h, hshrinks⟩ := workFn_shrinks compare hs
    exact ⟨_, by simp only [Task.step, h, Option.map_some], hshrinks⟩
  | merge src0 src1 dst => exact ⟨_, rfl, mergeStep_shrinks compare src0 src1 dst⟩
  | copy src dst => exact ⟨_, rfl, copyStep_shrinks src dst⟩
  | finished => exact absurd rfl hne

/-! ## All orders of the tasks -/

/-- What is asked of the arithmetic of a call of `parallel_merge`, over all schedules of its
    tasks. -/
structure FansOutSafely (minTaskSize maxTasks : UInt64) (src0 src1 : List α) (dst : Nat) :
    Prop where
  /-- Where a call comes to the division, the divisor is not zero. -/
  divides : ∀ sched c phase s0 s1 d,
    Pool.run compare minTaskSize maxTasks sched (parallelMerge src0 src1 dst) = some c →
      .impl phase s0 s1 d ∈ c.tasks → ¬NoFanout minTaskSize phase s0 s1 →
      maxTasksPerPhase maxTasks ≠ 0
  /-- Every turn of a loop starts with a shard size above zero and passes its checks, and its
      counter becomes the length of what is left, which is less. -/
  turns : ∀ sched c phase target fixed fixedPart search d,
    Pool.run compare minTaskSize maxTasks sched (parallelMerge src0 src1 dst) = some c →
      .fanout phase target fixed fixedPart search d ∈ c.tasks →
      0 < min target fixedPart.length ∧ ∃ rest : List α, rest.length < fixedPart.length ∧
        fanoutTurn compare target fixedPart fixedPart.length = some (rest, (rest.length : Int))
  /-- No task comes to a step without a result, -/
  steps : ∀ sched c i t,
    Pool.run compare minTaskSize maxTasks sched (parallelMerge src0 src1 dst) = some c →
      c.tasks[i]? = some t → t ≠ .finished →
      ∃ c', c.fire compare minTaskSize maxTasks i = some c'
  /-- and all orders of the tasks come to an end. -/
  ends : ∃ bound, ∀ sched c,
    Pool.run compare minTaskSize maxTasks sched (parallelMerge src0 src1 dst) = some c →
      sched.length ≤ bound

variable {compare} {src0 src1 : List α} {dst : Nat} {c c' : Pool α} {i : Nat}

theorem fire_shrinks (hs : ∀ t ∈ c.tasks, t.Sized minTaskSize maxTasks) {t : Task α}
    (ht : c.tasks[i]? = some t) (hne : t ≠ .finished) :
    ∃ c', c.fire compare minTaskSize maxTasks i = some c' ∧
      (∀ t ∈ c'.tasks, t.Sized minTaskSize maxTasks) ∧
      total Task.size c'.tasks < total Task.size c.tasks := by
  obtain ⟨e, hstep, hshrinks⟩ := Task.step_shrinks compare (hs t (List.mem_of_getElem? ht)) hne
  refine ⟨⟨c.writes ++ e.wrote.map (i, ·), c.tasks.set i e.task ++ e.spawned⟩, ?_, ?_, ?_⟩
  · simp only [Pool.fire, ht, hstep, Option.map_some]
  · intro s hmem
    rcases List.mem_append.mp hmem with hmem | hmem
    · rcases List.mem_or_eq_of_mem_set hmem with hmem | rfl
      · exact hs s hmem
      · exact hshrinks.sized
    · exact hshrinks.spawned s hmem
  · have hset := total_set Task.size e.task ht
    have hsize := hshrinks.size
    have happ : total Task.size (c.tasks.set i e.task ++ e.spawned) =
        total Task.size (c.tasks.set i e.task) + total Task.size e.spawned := by
      simp only [total, List.map_append, List.sum_append]
    show total Task.size (c.tasks.set i e.task ++ e.spawned) < _
    omega

theorem fire_cases (hf : c.fire compare minTaskSize maxTasks i = some c') :
    ∃ t, c.tasks[i]? = some t ∧ t ≠ .finished := by
  unfold Pool.fire at hf
  split at hf
  · cases hf
  · rename_i t ht
    refine ⟨t, ht, ?_⟩
    rintro rfl
    cases hf

theorem run_shrinks {sched : List Nat} (hs : ∀ t ∈ c.tasks, t.Sized minTaskSize maxTasks)
    (hr : Pool.run compare minTaskSize maxTasks sched c = some c') :
    (∀ t ∈ c'.tasks, t.Sized minTaskSize maxTasks) ∧
      sched.length + total Task.size c'.tasks ≤ total Task.size c.tasks := by
  induction sched generalizing c with
  | nil =>
    cases hr
    exact ⟨hs, Nat.le_of_eq (Nat.zero_add _)⟩
  | cons i rest ih =>
    obtain ⟨c₁, hf, hr⟩ := Option.bind_eq_some_iff.mp hr
    obtain ⟨t, ht, hne⟩ := fire_cases hf
    obtain ⟨_, hf', hs₁, hlt⟩ := fire_shrinks hs ht hne
    cases hf'.symm.trans hf
    obtain ⟨hs', hle⟩ := ih hs₁ hr
    refine ⟨hs', ?_⟩
    rw [List.length_cons]
    omega

/-- The sum wraps at the largest count. -/
theorem maxTasksPerPhase_ne_zero_iff (maxTasks : UInt64) :
    maxTasksPerPhase maxTasks ≠ 0 ↔ maxTasks ≠ 0 ∧ maxTasks.toNat ≠ 2 ^ 64 - 1 := by
  by_cases h : maxTasks = 0
  · rw [h]
    exact iff_of_false (by decide) (by decide)
  · have hpos : 1 ≤ maxTasks := by
      rw [UInt64.le_iff_toNat_le]
      have hne : maxTasks.toNat ≠ 0 := fun h' => h (UInt64.toNat_inj.mp h')
      exact Nat.pos_of_ne_zero hne
    rw [ne_eq, maxTasksPerPhase_eq_zero_iff hpos]
    exact (and_iff_right h).symm

/-- A call that comes to a division by zero is one. -/
theorem not_fansOutSafely (hper : maxTasksPerPhase maxTasks = 0)
    (hfan : ¬NoFanout minTaskSize .first src0 src1) :
    ¬FansOutSafely compare minTaskSize maxTasks src0 src1 dst :=
  fun h => h.divides [] _ .first src0 src1 dst rfl List.mem_cons_self hfan hper

/-- **The arithmetic of parallel merge.** For every `compare`, all inputs whose output has a size,
    every task size and every task limit: in every order of the tasks no call divides by zero, every
    turn of the fan-out loop computes a shard size above zero and passes its checks, and the loops
    come to an end, exactly when the limit is neither zero nor the largest or the call does not fan
    out. -/
theorem fansOutSafely_iff (compare : α → α → Bool) (minTaskSize maxTasks : UInt64)
    (src0 src1 : List α) (hlen : src0.length + src1.length < 2 ^ 63) (dst : Nat) :
    FansOutSafely compare minTaskSize maxTasks src0 src1 dst ↔
      (maxTasks ≠ 0 ∧ maxTasks.toNat ≠ 2 ^ 64 - 1) ∨ src0 = [] ∨ src1 = [] ∨
        (src0.length + src1.length : Int) ≤ isizeOf minTaskSize := by
  have hfirst : NoFanout minTaskSize .first src0 src1 ↔ src0 = [] ∨ src1 = [] ∨
      (src0.length + src1.length : Int) ≤ isizeOf minTaskSize := or_iff_right nofun
  rw [← maxTasksPerPhase_ne_zero_iff, ← hfirst]
  constructor
  · intro h
    by_contra hcond
    obtain ⟨hper, hfan⟩ := not_or.mp hcond
    exact not_fansOutSafely (not_not.mp hper) hfan h
  · intro hcond
    have hstart : ∀ t ∈ (parallelMerge src0 src1 dst).tasks, t.Sized minTaskSize maxTasks := by
      intro t ht
      rw [parallelMerge, List.mem_singleton] at ht
      rw [ht]
      exact ⟨hlen, hcond.symm⟩
    refine ⟨?_, ?_, ?_, ⟨total Task.size (parallelMerge src0 src1 dst).tasks, ?_⟩⟩
    · intro sched c phase s0 s1 d hr ht hfan
      exact ((run_shrinks hstart hr).1 _ ht).2.resolve_left hfan
    · intro sched c phase target fixed fixedPart search d hr ht
      obtain ⟨_, _, htarget, hne, _⟩ := (run_shrinks hstart hr).1 _ ht
      obtain ⟨rest, _, hlt, hturn, _⟩ :=
        parallelMergeFanout_turn compare phase fixed search d htarget hne
      exact ⟨by omega, rest, hlt, hturn⟩
    · intro sched c i t hr ht hne
      obtain ⟨c', hf, _⟩ := fire_shrinks (run_shrinks hstart hr).1 ht hne
      exact ⟨c', hf⟩
    · intro sched c hr
      exact Nat.le_of_add_right_le (run_shrinks hstart hr).2

theorem fansOutSafely_iff_fiveTasks :
    FansOutSafely (fun a b => decide (a < b)) 1 5 [3, 1, 2, 2] [2, 5, 4] 0 :=
  (fansOutSafely_iff (fun a b => decide (a < b)) 1 5 [3, 1, 2, 2] [2, 5, 4] (by decide) 0).mpr
    (.inl (by decide))

/-- The default of `max_tasks`: `std::thread::hardware_concurrency() / 2`. -/
def defaultMaxTasks (hardwareConcurrency : UInt32) : UInt64 := (hardwareConcurrency / 2).toUInt64

/-- With one hardware thread the defaults divide by zero from 1401 elements on, and so does the
    largest limit. -/
theorem default_limit_divides_by_zero :
    ¬FansOutSafely (fun a b => decide (a < b)) 1400 (defaultMaxTasks 1) (List.replicate 701 0)
        (List.replicate 700 0) 0 ∧
      ¬FansOutSafely (fun a b => decide (a < b)) 1 0xffffffffffffffff [1] [1] 0 := by
  refine ⟨not_fansOutSafely (by decide) ?_, not_fansOutSafely (by decide) ?_⟩
  · have hsize : isizeOf 1400 = 1400 := by decide
    rw [NoFanout, List.length_replicate, List.length_replicate, hsize]
    rintro (h | h | h | h)
    · cases h
    · cases h
    · cases h
    · exact absurd h (by decide)
  · rintro (h | h | h | h)
    · cases h
    · cases h
    · cases h
    · exact absurd h (by decide)

end Batt.ParallelMerge
