/-
  The parallel merge is the stable merge.

  In every state of the pool what has been written and what the tasks owe is together the
  stable merge of the two inputs, each element at its position and once (`Inv.settled`).
  The debts shrink to nothing, since every task that has not finished can step and every
  step lowers the weight of the pool. So all orders of the tasks end, and they end with
  the merge written, no position by two tasks.

  The exception is the largest task count: `max_tasks + 1` wraps to zero there, and a call
  that goes on to the fan-out divides by it.
-/
import Mathlib.Data.List.Nodup
import Mathlib.Data.UInt
import Batt.Lib.Interleave
import Batt.ParallelMerge.Steps

namespace Batt.ParallelMerge
open Interleave

variable {α : Type} (compare : α → α → Bool) (minTaskSize maxTasks : UInt64)

/-! ## The contract -/

/-- What a call of `parallel_merge` is for, over all schedules of its tasks. -/
structure MergesStably (src0 src1 : List α) (dst : Nat) : Prop where
  /-- All orders of the tasks come to an end. -/
  ends : ∃ bound, ∀ sched c,
    Pool.run compare minTaskSize maxTasks sched (parallelMerge src0 src1 dst) = some c →
      sched.length ≤ bound
  /-- No task comes to a step without a result. -/
  steps : ∀ sched c i t,
    Pool.run compare minTaskSize maxTasks sched (parallelMerge src0 src1 dst) = some c →
      c.tasks[i]? = some t → t ≠ .finished →
      ∃ c', c.fire compare minTaskSize maxTasks i = some c'
  /-- When all tasks have finished, the output is the result of `std::merge`. -/
  merged : ∀ sched c,
    Pool.run compare minTaskSize maxTasks sched (parallelMerge src0 src1 dst) = some c →
      c.Finished → ∀ k < src0.length + src1.length,
        c.output (dst + k) = (stdMerge compare src0 src1)[k]?
  /-- No position is written twice, -/
  once : ∀ sched c,
    Pool.run compare minTaskSize maxTasks sched (parallelMerge src0 src1 dst) = some c →
      (c.writes.map fun w => w.2.2).Nodup
  /-- so the ranges written by different tasks are disjoint, -/
  disjoint : ∀ sched c i j,
    Pool.run compare minTaskSize maxTasks sched (parallelMerge src0 src1 dst) = some c →
      i ≠ j → List.Disjoint (c.writtenBy i) (c.writtenBy j)
  /-- and in the end they cover the output exactly. -/
  covers : ∀ sched c,
    Pool.run compare minTaskSize maxTasks sched (parallelMerge src0 src1 dst) = some c →
      c.Finished → ∀ pos, (∃ i, pos ∈ c.writtenBy i) ↔
        dst ≤ pos ∧ pos < dst + (src0.length + src1.length)

/-! ## The pool -/

structure Inv (src0 src1 : List α) (dst : Nat) (c : Pool α) : Prop where
  settled : (c.writes.map (·.2) ++ c.tasks.flatMap (Task.owes compare)).Perm
    ((stdMerge compare src0 src1).zipIdx dst)
  ok : ∀ t ∈ c.tasks, t.Ok compare minTaskSize maxTasks

/-- Writing `wrote` and handing out `spawned` in place of the debt `old`. -/
theorem settle_perm {β : Type} {writes wrote all after old new spawned rest : List β}
    (hbefore : all.Perm (old ++ rest)) (hafter : after.Perm (new ++ rest))
    (hold : (wrote ++ new ++ spawned).Perm old) :
    (writes ++ wrote ++ (after ++ spawned)).Perm (writes ++ all) := by
  classical
  rw [List.perm_iff_count] at hbefore hafter hold ⊢
  intro x
  have hb := hbefore x
  have ha := hafter x
  have ho := hold x
  simp only [List.count_append] at hb ha ho ⊢
  omega

theorem start_inv {src0 src1 : List α} {dst : Nat}
    (hok : Task.Ok compare minTaskSize maxTasks (.impl .first src0 src1 dst)) :
    Inv compare minTaskSize maxTasks src0 src1 dst (parallelMerge src0 src1 dst) where
  settled := by
    simp only [parallelMerge, List.map_nil, List.nil_append, List.flatMap_cons, List.flatMap_nil,
      List.append_nil]
    rfl
  ok := by
    intro t ht
    rw [parallelMerge, List.mem_singleton] at ht
    rwa [ht]

section Order

variable {compare minTaskSize maxTasks} {src0 src1 : List α} {dst : Nat}
variable (ho : IsStrictWeakOrder α fun a b => compare a b = true)
include ho

/-- One step of the pool: the task it names advances, and nothing else changes. -/
theorem fire_advances {c : Pool α} {i : Nat} {t : Task α}
    (hinv : Inv compare minTaskSize maxTasks src0 src1 dst c) (ht : c.tasks[i]? = some t)
    (hne : t ≠ .finished) :
    ∃ e, Advances compare minTaskSize maxTasks t e ∧
      c.fire compare minTaskSize maxTasks i =
        some ⟨c.writes ++ e.wrote.map (i, ·), c.tasks.set i e.task ++ e.spawned⟩ := by
  obtain ⟨e, hstep, hadv⟩ :=
    Task.step_advances compare ho (hinv.ok t (List.mem_of_getElem? ht)) hne
  refine ⟨e, hadv, ?_⟩
  unfold Pool.fire
  rw [ht]
  simp only [hstep, Option.map_some]

theorem fire_inv {c c' : Pool α} {i : Nat}
    (hinv : Inv compare minTaskSize maxTasks src0 src1 dst c)
    (hf : c.fire compare minTaskSize maxTasks i = some c') :
    Inv compare minTaskSize maxTasks src0 src1 dst c' ∧
      total (Task.weight compare) c'.tasks < total (Task.weight compare) c.tasks := by
  obtain ⟨t, ht⟩ : ∃ t, c.tasks[i]? = some t := by
    unfold Pool.fire at hf
    split at hf
    · cases hf
    · exact ⟨_, by assumption⟩
  have hne : t ≠ .finished := by
    rintro rfl
    simp [Pool.fire, ht, Task.step] at hf
  obtain ⟨e, hadv, hfire⟩ := fire_advances ho hinv ht hne
  rw [hfire] at hf
  cases hf
  refine ⟨⟨?_, ?_⟩, ?_⟩
  · -- the debt of `t` is replaced by what the step wrote and what is owed after it
    refine List.Perm.trans ?_ hinv.settled
    have hwrote : (e.wrote.map (i, ·)).map (·.2) = e.wrote := by
      rw [List.map_map]
      exact List.map_id _
    rw [List.map_append, hwrote, List.flatMap_append]
    obtain ⟨rest, hbefore, hafter⟩ := flatMap_set (Task.owes compare) ht
    exact settle_perm hbefore (hafter e.task) hadv.owes
  · intro s hs
    rcases List.mem_append.mp hs with hs | hs
    · rcases List.mem_or_eq_of_mem_set hs with hs | rfl
      · exact hinv.ok s hs
      · exact hadv.ok
    · exact hadv.okSpawned s hs
  · have hset := total_set (Task.weight compare) e.task ht
    have hweight := hadv.weight
    have happ : total (Task.weight compare) (c.tasks.set i e.task ++ e.spawned) =
        total (Task.weight compare) (c.tasks.set i e.task) +
          (e.spawned.map (Task.weight compare)).sum := by
      simp [total]
    show total (Task.weight compare) (c.tasks.set i e.task ++ e.spawned) < _
    omega

theorem run_inv {sched : List Nat} {c c' : Pool α}
    (hinv : Inv compare minTaskSize maxTasks src0 src1 dst c)
    (hr : Pool.run compare minTaskSize maxTasks sched c = some c') :
    Inv compare minTaskSize maxTasks src0 src1 dst c' ∧
      sched.length + total (Task.weight compare) c'.tasks ≤
        total (Task.weight compare) c.tasks := by
  induction sched generalizing c with
  | nil =>
    cases hr
    exact ⟨hinv, by simp⟩
  | cons i rest ih =>
    obtain ⟨c₁, hf, hr⟩ := Option.bind_eq_some_iff.mp hr
    obtain ⟨hinv₁, hlt⟩ := fire_inv ho hinv hf
    obtain ⟨hinv', hle⟩ := ih hinv₁ hr
    refine ⟨hinv', ?_⟩
    rw [List.length_cons]
    omega

end Order

/-! ## The output -/

section Output

variable {compare minTaskSize maxTasks} {src0 src1 : List α} {dst : Nat} {c : Pool α}

theorem Inv.nodup (hinv : Inv compare minTaskSize maxTasks src0 src1 dst c) :
    (c.writes.map fun w => w.2.2).Nodup := by
  have hall : (((stdMerge compare src0 src1).zipIdx dst).map Prod.snd).Nodup := by
    rw [List.zipIdx_map_snd]
    exact List.nodup_range'
  have hperm := (hinv.settled.map Prod.snd).nodup_iff.mpr hall
  rw [List.map_append, List.map_map] at hperm
  exact hperm.of_append_left

/-- Once all tasks have finished nothing is owed. -/
theorem Inv.writes_perm (hinv : Inv compare minTaskSize maxTasks src0 src1 dst c)
    (hfin : c.Finished) :
    (c.writes.map (·.2)).Perm ((stdMerge compare src0 src1).zipIdx dst) := by
  have hnone : c.tasks.flatMap (Task.owes compare) = [] := by
    rw [List.flatMap_eq_nil_iff]
    intro t ht
    rw [hfin t ht]
    rfl
  have hsettled := hinv.settled
  rwa [hnone, List.append_nil] at hsettled

/-- With no position written twice, what was written at a position is what stands there. -/
theorem output_of_mem {i pos : Nat} {x : α} (hn : (c.writes.map fun w => w.2.2).Nodup)
    (h : (i, x, pos) ∈ c.writes) : c.output pos = some x := by
  unfold Pool.output
  obtain ⟨w, hw⟩ : ∃ w, c.writes.reverse.find? (fun w => w.2.2 == pos) = some w := by
    rw [← Option.isSome_iff_exists, List.find?_isSome]
    exact ⟨_, List.mem_reverse.mpr h, by simp⟩
  have hmem := List.mem_reverse.mp (List.mem_of_find?_eq_some hw)
  have hpos : w.2.2 = pos := by simpa using List.find?_some hw
  have hsame : w = (i, x, pos) := List.inj_on_of_nodup_map hn hmem h hpos
  rw [hw, hsame]
  rfl

theorem Inv.output (hinv : Inv compare minTaskSize maxTasks src0 src1 dst c)
    (hfin : c.Finished) {k : Nat} (hk : k < src0.length + src1.length) :
    c.output (dst + k) = (stdMerge compare src0 src1)[k]? := by
  have hlt : k < (stdMerge compare src0 src1).length := by
    rw [stdMerge, List.length_merge]
    exact hk
  have hmem : ((stdMerge compare src0 src1)[k], dst + k) ∈ c.writes.map (·.2) := by
    rw [(hinv.writes_perm hfin).mem_iff, List.mk_add_mem_zipIdx_iff_getElem?,
      List.getElem?_eq_getElem hlt]
  obtain ⟨⟨i, x, pos⟩, hw, heq⟩ := List.mem_map.mp hmem
  cases heq
  rw [output_of_mem hinv.nodup hw, List.getElem?_eq_getElem hlt]

theorem mem_writtenBy {i pos : Nat} : pos ∈ c.writtenBy i ↔ ∃ x, (i, x, pos) ∈ c.writes := by
  simp only [Pool.writtenBy, List.mem_map, List.mem_filter, beq_iff_eq]
  constructor
  · rintro ⟨⟨j, x, p⟩, ⟨hmem, rfl⟩, rfl⟩
    exact ⟨x, hmem⟩
  · rintro ⟨x, hmem⟩
    exact ⟨_, ⟨hmem, rfl⟩, rfl⟩

theorem writtenBy_disjoint {i j : Nat} (hn : (c.writes.map fun w => w.2.2).Nodup) (hij : i ≠ j) :
    List.Disjoint (c.writtenBy i) (c.writtenBy j) := by
  intro pos hi hj
  obtain ⟨x, hx⟩ := mem_writtenBy.mp hi
  obtain ⟨y, hy⟩ := mem_writtenBy.mp hj
  have hsame := List.inj_on_of_nodup_map hn hx hy rfl
  exact hij (congrArg Prod.fst hsame)

theorem Inv.covers (hinv : Inv compare minTaskSize maxTasks src0 src1 dst c)
    (hfin : c.Finished) (pos : Nat) :
    (∃ i, pos ∈ c.writtenBy i) ↔ dst ≤ pos ∧ pos < dst + (src0.length + src1.length) := by
  have hpos : (∃ i, pos ∈ c.writtenBy i) ↔ pos ∈ (c.writes.map (·.2)).map Prod.snd := by
    simp only [mem_writtenBy, List.map_map, List.mem_map]
    constructor
    · rintro ⟨i, x, h⟩
      exact ⟨_, h, rfl⟩
    · rintro ⟨⟨i, x, p⟩, h, rfl⟩
      exact ⟨i, x, h⟩
  rw [hpos, ((hinv.writes_perm hfin).map Prod.snd).mem_iff, List.zipIdx_map_snd, List.mem_range'_1,
    stdMerge, List.length_merge]

end Output

/-! ## Main result -/

/-- A call that divides by zero has no first step. -/
theorem not_mergesStably {compare : α → α → Bool} {minTaskSize maxTasks : UInt64}
    {src0 src1 : List α} {dst : Nat}
    (h : parallelMergeImpl minTaskSize maxTasks .first src0 src1 dst = none) :
    ¬ MergesStably compare minTaskSize maxTasks src0 src1 dst := by
  intro hm
  obtain ⟨c', hc'⟩ := hm.steps [] _ 0 (.impl .first src0 src1 dst) rfl rfl (by simp)
  simp [Pool.fire, parallelMerge, Task.step, h] at hc'

/-- **Parallel merge.** For every strict weak order, all inputs it sorts whose output has a
    size, all task sizes and all positive task counts: in every order of the tasks
    `parallel_merge` ends with the stable merge written and every position of the output
    written once, exactly when `max_tasks + 1` does not wrap or the call does not fan out. -/
theorem mergesStably_iff (ho : IsStrictWeakOrder α fun a b => compare a b = true)
    (hmax : 1 ≤ maxTasks) {src0 src1 : List α} (h0 : Sorted compare src0)
    (h1 : Sorted compare src1) (hlen : src0.length + src1.length < 2 ^ 63) (dst : Nat) :
    MergesStably compare minTaskSize maxTasks src0 src1 dst ↔
      maxTasks.toNat ≠ 2 ^ 64 - 1 ∨ src0 = [] ∨ src1 = [] ∨
        (src0.length + src1.length : Int) ≤ isizeOf minTaskSize := by
  constructor
  · intro hm
    by_contra hcond
    simp only [not_or, not_not] at hcond
    obtain ⟨hwrap, hne0, hne1, hbig⟩ := hcond
    refine not_mergesStably ?_ hm
    have hper := (maxTasksPerPhase_eq_zero_iff hmax).mpr hwrap
    unfold parallelMergeImpl
    rw [if_neg hne0, if_neg hne1, if_neg (by simp [hbig])]
    simp [targetSize, hper]
  · intro hcond
    have hok : Task.Ok compare minTaskSize maxTasks (.impl .first src0 src1 dst) := by
      refine ⟨h0, h1, hlen, ?_⟩
      rcases hcond with hwrap | hsmall
      · exact .inr fun h => hwrap ((maxTasksPerPhase_eq_zero_iff hmax).mp h)
      · exact .inl (.inr hsmall)
    have hstart := start_inv compare minTaskSize maxTasks hok
    refine ⟨⟨total (Task.weight compare) (parallelMerge src0 src1 dst).tasks, ?_⟩, ?_, ?_, ?_, ?_, ?_⟩
    · intro sched c hr
      exact Nat.le_of_add_right_le (run_inv ho hstart hr).2
    · intro sched c i t hr ht hne
      obtain ⟨e, -, hfire⟩ := fire_advances ho (run_inv ho hstart hr).1 ht hne
      exact ⟨_, hfire⟩
    · intro sched c hr hfin k hk
      exact (run_inv ho hstart hr).1.output hfin hk
    · intro sched c hr
      exact (run_inv ho hstart hr).1.nodup
    · intro sched c i j hr hij
      exact writtenBy_disjoint (run_inv ho hstart hr).1.nodup hij
    · intro sched c hr hfin pos
      exact (run_inv ho hstart hr).1.covers hfin pos

/-- Records compared by their key. -/
def byKey (a b : Nat × Nat) : Bool := a.1 < b.1

theorem byKey_strictWeak : IsStrictWeakOrder (Nat × Nat) fun a b => byKey a b = true where
  irrefl a := by simp [byKey]
  trans a b c := by
    simp only [byKey, decide_eq_true_eq]
    omega
  incomp_trans a b c := by
    simp only [byKey, decide_eq_true_eq]
    omega

theorem mergesStably_iff_sharedKeys :
    MergesStably byKey 1 3 [(1, 0), (1, 1), (2, 0), (4, 0)] [(0, 2), (1, 2), (3, 2), (4, 2)] 0 :=
  (mergesStably_iff byKey 1 3 byKey_strictWeak (by decide) (by decide) (by decide) (by decide)
    0).mpr (.inl (by decide))

set_option maxRecDepth 3000 in
/-- With the largest task count two records are enough to divide by zero. -/
theorem largest_task_count_divides_by_zero :
    ¬ MergesStably byKey 1 (2 ^ 64 - 1) [(1, 0)] [(1, 1)] 0 :=
  not_mergesStably (by decide)

end Batt.ParallelMerge
