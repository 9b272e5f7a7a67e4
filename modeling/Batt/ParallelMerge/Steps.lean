/-
  What one step of a task does, one lemma for each function of the source.

  `Advances` is the contract: every element the task owed is written by the step, owed by
  the task afterwards or owed by a task it handed out, and by one of these only; all of
  them are well formed again; and the weight falls. Each lemma says as well that the step
  has a result, so that a well-formed task is never stuck before it has finished.
-/
import Batt.ParallelMerge.Tasks

namespace Batt.ParallelMerge

variable {α : Type} (compare : α → α → Bool)

structure Advances (minTaskSize maxTasks : UInt64) (t : Task α) (e : Effect α) : Prop where
  owes : (e.wrote ++ e.task.owes compare ++ e.spawned.flatMap (Task.owes compare)).Perm
    (t.owes compare)
  ok : e.task.Ok compare minTaskSize maxTasks
  okSpawned : ∀ s ∈ e.spawned, s.Ok compare minTaskSize maxTasks
  weight : e.task.weight compare + (e.spawned.map (Task.weight compare)).sum < t.weight compare

variable {minTaskSize maxTasks : UInt64} {dst : Nat}

/-- A step that writes nothing and hands out nothing, and owes what it owed. -/
theorem Advances.of_owes_eq {t t' : Task α} (ho : t'.owes compare = t.owes compare)
    (hok : t'.Ok compare minTaskSize maxTasks) (hw : t'.weight compare < t.weight compare) :
    Advances compare minTaskSize maxTasks t { task := t' } where
  owes := by
    rw [← ho]
    simp
  ok := hok
  okSpawned := by simp
  weight := by simpa using hw

/-- A step that writes the first element owed. -/
theorem Advances.of_cons {t t' : Task α} {x : α} (ho : t.owes compare = (x, dst) :: t'.owes compare)
    (hok : t'.Ok compare minTaskSize maxTasks) (hw : t'.weight compare < t.weight compare) :
    Advances compare minTaskSize maxTasks t { task := t', wrote := [(x, dst)] } where
  owes := by
    rw [ho]
    simp
  ok := hok
  okSpawned := by simp
  weight := by simpa using hw

/-! ## Copying and merging -/

theorem copyStep_advances (src : List α) (dst : Nat) :
    Advances compare minTaskSize maxTasks (.copy src dst) (copyStep src dst) := by
  cases src with
  | nil =>
    refine Advances.of_owes_eq compare rfl trivial ?_
    simp [Task.weight]
  | cons x xs =>
    refine Advances.of_cons compare ?_ trivial ?_
    · simp [Task.owes, Task.values, Task.start, List.zipIdx_cons]
    · simp [Task.weight]

theorem mergeStep_advances (src0 src1 : List α) (dst : Nat) :
    Advances compare minTaskSize maxTasks (.merge src0 src1 dst)
      (mergeStep compare src0 src1 dst) := by
  cases src0 with
  | nil =>
    refine Advances.of_owes_eq compare ?_ trivial ?_
    · simp [Task.owes, Task.values, Task.start, stdMerge]
    · simp [Task.weight]
  | cons x xs =>
    cases src1 with
    | nil =>
      refine Advances.of_owes_eq compare ?_ trivial ?_
      · simp [Task.owes, Task.values, Task.start, stdMerge]
      · simp [Task.weight]
    | cons y ys =>
      simp only [mergeStep]
      split
      · rename_i hlt
        refine Advances.of_cons compare ?_ trivial ?_
        · simp [Task.owes, Task.values, Task.start, stdMerge, hlt, List.zipIdx_cons]
        · simp only [Task.weight, List.length_cons]
          omega
      · rename_i hlt
        refine Advances.of_cons compare ?_ trivial ?_
        · simp [Task.owes, Task.values, Task.start, stdMerge, hlt, List.zipIdx_cons]
        · simp only [Task.weight, List.length_cons]
          omega

/-! ## The calls -/

theorem parallelMergeImpl_advances {phase : Phase} {src0 src1 : List α}
    (hok : Task.Ok compare minTaskSize maxTasks (.impl phase src0 src1 dst)) :
    ∃ t, parallelMergeImpl minTaskSize maxTasks phase src0 src1 dst = some t ∧
      Advances compare minTaskSize maxTasks (.impl phase src0 src1 dst) { task := t } := by
  obtain ⟨hs0, hs1, hlen, hdiv⟩ := hok
  have hrate : src0.length + src1.length ≤ phase.rate * (src0.length + src1.length) :=
    Nat.le_mul_of_pos_left _ (by cases phase <;> decide)
  obtain ⟨t, heq, hcase⟩ := parallelMergeImpl_cases dst hlen hdiv
  refine ⟨t, heq, ?_⟩
  obtain ⟨rfl, rfl⟩ | ⟨rfl, rfl⟩ | rfl |
    ⟨target, fixed, search, hfixed, hsearch, rfl, hthird, hper, hpos, hne, hsum⟩ := hcase
  · refine Advances.of_owes_eq compare ?_ trivial ?_
    · simp [Task.owes, Task.values, Task.start, stdMerge]
    · simp only [Task.weight]
      omega
  · refine Advances.of_owes_eq compare ?_ trivial ?_
    · simp [Task.owes, Task.values, Task.start, stdMerge]
    · simp only [Task.weight]
      omega
  · refine Advances.of_owes_eq compare rfl trivial ?_
    simp only [Task.weight]
    omega
  · have hvalues : Task.values compare (.fanout phase target fixed fixed search dst) =
        stdMerge compare src0 src1 := by
      simp only [Task.values, searchFrom, beq_self_eq_true, if_true, ← hfixed, ← hsearch]
      cases phase <;> rfl
    refine Advances.of_owes_eq compare ?_ ?_ ?_
    · unfold Task.owes
      rw [hvalues]
      simp [Task.start, searchFrom, Task.values]
    · refine ⟨hthird, hper, hpos, hne, Nat.le_refl _, ?_, ?_, by omega⟩
      · rw [← hfixed]
        unfold Phase.fixedIter
        split <;> assumption
      · rw [← hsearch]
        unfold Phase.searchIter
        split <;> assumption
    · have hrates : phase.rate = phase.next.rate + 5 := by
        cases phase <;> first | rfl | exact absurd rfl hthird
      simp only [Task.weight, hvalues]
      rw [stdMerge, List.length_merge, hrates, Nat.add_mul]
      omega

theorem searchShardBegin_eq (isFirst : Bool) {search shard : List α} (h : shard ≠ []) :
    searchShardBegin compare isFirst search shard =
      some (searchFrom compare isFirst search shard) := by
  obtain ⟨x, xs, rfl⟩ := List.exists_cons_of_ne_nil h
  cases isFirst <;> rfl

theorem workFn_advances {phase : Phase} {fixedShardBegin fixedShardEnd search : List α}
    {isFirst isLast : Bool} (hok : Task.Ok compare minTaskSize maxTasks
      (.work phase fixedShardBegin fixedShardEnd search dst isFirst isLast)) :
    ∃ t, workFn compare phase fixedShardBegin fixedShardEnd search dst isFirst isLast = some t ∧
      Advances compare minTaskSize maxTasks
        (.work phase fixedShardBegin fixedShardEnd search dst isFirst isLast) { task := t } := by
  obtain ⟨_, hper, hne, hend, hlast, hsf, hss, hlen⟩ := hok
  -- where the two searches end
  obtain ⟨searchBegin, hbegin⟩ : ∃ b, b = searchFrom compare isFirst search fixedShardBegin :=
    ⟨_, rfl⟩
  obtain ⟨searchEnd, hsend⟩ : ∃ e, e = if isLast then [] else
    searchFrom compare false searchBegin fixedShardEnd := ⟨_, rfl⟩
  have hsb : searchBegin <:+ search := by
    rw [hbegin]
    exact searchFrom_suffix compare _ _ _
  have hse : searchEnd <:+ searchBegin := by
    rw [hsend]
    split
    · exact List.nil_suffix
    · exact searchFrom_suffix compare _ _ _
  have hendEq : searchShardEnd compare isLast searchBegin fixedShardEnd = some searchEnd := by
    rw [hsend]
    cases isLast with
    | true => rfl
    | false =>
      have hneEnd : fixedShardEnd ≠ [] := by
        intro h
        rw [h] at hlast
        cases hlast
      exact searchShardBegin_eq compare false hneEnd
  have hlenF := rangeOf_length hend
  have hlenS := rangeOf_length hse
  have hsbLen := hsb.length_le
  have hF : Sorted compare (rangeOf fixedShardBegin fixedShardEnd) :=
    hsf.sublist (List.take_sublist _ _)
  have hS : Sorted compare (rangeOf searchBegin searchEnd) :=
    (hss.sublist hsb.sublist).sublist (List.take_sublist _ _)
  refine ⟨.impl phase.next
    (phase.src0Iter (rangeOf fixedShardBegin fixedShardEnd) (rangeOf searchBegin searchEnd))
    (phase.src1Iter (rangeOf fixedShardBegin fixedShardEnd) (rangeOf searchBegin searchEnd))
    (dst + (search.length - searchBegin.length)), ?_, Advances.of_owes_eq compare ?_ ?_ ?_⟩
  · unfold workFn
    rw [searchShardBegin_eq compare isFirst hne, ← hbegin]
    simp only [Option.bind_eq_bind, Option.bind_some]
    rw [hendEq, Option.bind_some, if_pos ⟨hend.length_le, hse.length_le⟩]
  · simp only [Task.owes, Task.values, Task.start, ← hbegin, ← hsend]
    rfl
  · refine ⟨?_, ?_, ?_, .inr hper⟩
    · unfold Phase.src0Iter
      split <;> assumption
    · unfold Phase.src1Iter
      split <;> assumption
    · unfold Phase.src0Iter Phase.src1Iter
      split <;> omega
  · simp only [Task.weight, Task.values, ← hbegin, ← hsend, merged_length]
    unfold Phase.src0Iter Phase.src1Iter
    split
    · omega
    · rw [Nat.add_comm (rangeOf searchBegin searchEnd).length]
      omega

/-! ## The fan-out -/

section Order

variable (ho : IsStrictWeakOrder α fun a b => compare a b = true)
include ho

/-- The debt of the loop is that of the next shard and then that of the rest of the loop. -/
theorem fanout_cut (phase : Phase) (target : Int) (dst : Nat) {fixed shard tail search : List α}
    {v : α} (hshard : ∀ a ∈ shard, compare a v = true) (hne : shard ≠ [])
    (hsf : Sorted compare (shard ++ v :: tail)) (hss : Sorted compare search)
    (hle : (shard ++ v :: tail).length ≤ fixed.length) :
    let part := shard ++ v :: tail
    let work := Task.work phase part (v :: tail) search dst (part.length == fixed.length) false
    let rest := Task.fanout phase target fixed (v :: tail) search (dst + shard.length)
    Task.values compare (.fanout phase target fixed part search dst) =
      work.values compare ++ rest.values compare ∧
    Task.start compare (.fanout phase target fixed part search dst) = work.start compare ∧
    rest.start compare = work.start compare + (work.values compare).length := by
  intro part work rest
  obtain ⟨searchBegin, hbegin⟩ :
    ∃ b, b = searchFrom compare (part.length == fixed.length) search part := ⟨_, rfl⟩
  obtain ⟨searchEnd, hend⟩ : ∃ e, e = searchFrom compare false searchBegin (v :: tail) :=
    ⟨_, rfl⟩
  have hnotFirst : ((v :: tail).length == fixed.length) = false := by
    have := List.length_pos_of_ne_nil hne
    rw [List.length_append] at hle
    rw [beq_eq_false_iff_ne]
    omega
  have hvhead : ∀ x ∈ part.head?, compare v x = false := by
    obtain ⟨x, xs, rfl⟩ := List.exists_cons_of_ne_nil hne
    intro y hy
    obtain rfl : x = y := by simpa [part] using hy
    exact (List.pairwise_append.mp hsf).2.2 x (by simp) v (by simp)
  have hsame : searchFrom compare false search (v :: tail) = searchEnd := by
    rw [hend, hbegin]
    exact (searchFrom_searchFrom compare ho hvhead (by simp [part])).symm
  have hsb : searchBegin <:+ search := by
    rw [hbegin]
    exact searchFrom_suffix compare _ _ _
  have hse : searchEnd <:+ searchBegin := by
    rw [hend]
    exact searchFrom_suffix compare _ _ _
  have hworkValues : work.values compare =
      phase.merged compare shard (rangeOf searchBegin searchEnd) := by
    simp only [work, Task.values, ← hbegin, ← hend, part, rangeOf_append]
    rfl
  have hrestValues : rest.values compare = phase.merged compare (v :: tail) searchEnd := by
    simp only [rest, Task.values, hnotFirst, hsame]
  refine ⟨?_, rfl, ?_⟩
  · have hcut : phase.merged compare part searchBegin =
        phase.merged compare (shard ++ v :: tail) (rangeOf searchBegin searchEnd ++ searchEnd) := by
      rw [rangeOf_append_of_suffix hse]
    rw [hworkValues, hrestValues]
    simp only [Task.values, ← hbegin]
    rw [hcut]
    refine merged_cut compare ho phase hshard ?_ ?_ ?_
    · intro a ha
      rcases List.mem_cons.mp ha with rfl | ha
      · by_contra h
        exact ho.toIrrefl.irrefl a (by simpa using h)
      · exact (List.pairwise_cons.mp (List.pairwise_append.mp hsf).2.1).1 a ha
    · intro a ha
      rw [hend] at ha
      exact lt_of_mem_rangeOf_lowerBound compare ha
    · intro a ha
      rw [hend] at ha
      exact Merging.not_lt_of_mem_dropWhile ho (hss.sublist hsb.sublist) ha
  · have hlenR := rangeOf_length hse
    have hsbLen := hsb.length_le
    have hseLen := hse.length_le
    rw [hworkValues, merged_length, hlenR]
    simp only [rest, work, Task.start, hnotFirst, hsame, ← hbegin]
    omega

theorem parallelMergeFanout_advances {phase : Phase} {target : Int}
    {fixed fixedPart search : List α} (hok : Task.Ok compare minTaskSize maxTasks
      (.fanout phase target fixed fixedPart search dst)) :
    ∃ e, parallelMergeFanout compare phase target fixed fixedPart search dst = some e ∧
      Advances compare minTaskSize maxTasks
        (.fanout phase target fixed fixedPart search dst) e := by
  obtain ⟨hthird, hper, htarget, hne, hle, hsf, hss, hlen⟩ := hok
  have hpos := List.length_pos_of_ne_nil hne
  have hsize : ¬ min target fixedPart.length ≤ 0 := by omega
  -- the shard ends inside the part
  obtain ⟨back, rest, hdrop⟩ : ∃ back rest,
      fixedPart.drop ((min target fixedPart.length).toNat - 1) = back :: rest := by
    refine List.exists_cons_of_ne_nil ?_
    rw [ne_eq, List.drop_eq_nil_iff]
    omega
  obtain ⟨mid, last, hmid, hlast⟩ := extendShard_cases compare back rest
  obtain ⟨shard, hpart⟩ : ∃ shard,
      fixedPart = (shard ++ [last]) ++ extendShard compare back rest := by
    refine ⟨fixedPart.take ((min target fixedPart.length).toNat - 1) ++ mid, ?_⟩
    conv_lhs => rw [← List.take_append_drop ((min target fixedPart.length).toNat - 1) fixedPart]
    rw [hdrop, hmid]
    simp
  unfold parallelMergeFanout
  rw [if_neg hne]
  simp only [if_neg hsize, hdrop]
  cases hend : extendShard compare back rest with
  | nil =>
    refine ⟨_, if_neg (by simp), Advances.of_owes_eq compare ?_ ?_ ?_⟩
    · simp [Task.owes, Task.values, Task.start, rangeOf]
    · exact ⟨hthird, hper, hne, List.nil_suffix, rfl, hsf, hss, hlen⟩
    · simp only [Task.weight, Task.values, rangeOf]
      simp
      omega
  | cons v tail =>
    rw [hend] at hpart hlast
    have hsorted := hsf
    rw [hpart] at hsorted hle
    have hlt := lt_of_sorted_concat compare ho (List.pairwise_append.mp hsorted).1
      (hlast v (by simp))
    have hcut := fanout_cut compare ho phase target dst hlt (by simp) hsorted hss hle
    rw [← hpart] at hcut hle
    obtain ⟨hvalues, hstart, hnext⟩ := hcut
    have hsizes : fixedPart.length = (shard ++ [last]).length + (v :: tail).length := by
      rw [hpart, List.length_append]
    have hsub : fixedPart.length - (v :: tail).length = (shard ++ [last]).length := by omega
    have hshard : 0 < (shard ++ [last]).length := by simp
    refine ⟨_, if_pos (by simp), ⟨?_, ?_, ?_, ?_⟩⟩
    · simp only [hsub, List.nil_append, List.flatMap_cons, List.flatMap_nil, List.append_nil]
      refine List.perm_append_comm.trans (List.Perm.of_eq ?_)
      unfold Task.owes
      rw [hvalues, List.zipIdx_append, hstart, hnext]
      rfl
    · exact ⟨hthird, hper, htarget, by simp, by omega,
        (List.pairwise_append.mp hsorted).2.1, hss, by omega⟩
    · intro t ht
      rw [List.mem_singleton] at ht
      rw [ht]
      exact ⟨hthird, hper, hne, ⟨shard ++ [last], hpart.symm⟩, rfl, hsf, hss, hlen⟩
    · have hlens := congrArg List.length hvalues
      rw [List.length_append] at hlens
      have hflag : ((v :: tail).length == 0) = false := rfl
      simp only [hsub, hflag, Task.weight, List.map_cons, List.map_nil, List.sum_cons,
        List.sum_nil]
      rw [hlens, Nat.mul_add]
      omega

/-- A task that has not finished has a step, and the step advances it. -/
theorem Task.step_advances {t : Task α} (hok : t.Ok compare minTaskSize maxTasks)
    (hne : t ≠ .finished) :
    ∃ e, t.step compare minTaskSize maxTasks = some e ∧
      Advances compare minTaskSize maxTasks t e := by
  cases t with
  | impl phase src0 src1 dst =>
    obtain ⟨t', h, hadv⟩ := parallelMergeImpl_advances compare hok
    exact ⟨_, by simp only [Task.step, h, Option.map_some], hadv⟩
  | fanout phase target fixed fixedPart search dst =>
    exact parallelMergeFanout_advances compare ho hok
  | work phase fixedShardBegin fixedShardEnd search dst isFirst isLast =>
    obtain ⟨t', h, hadv⟩ := workFn_advances compare hok
    exact ⟨_, by simp only [Task.step, h, Option.map_some], hadv⟩
  | merge src0 src1 dst => exact ⟨_, rfl, mergeStep_advances compare src0 src1 dst⟩
  | copy src dst => exact ⟨_, rfl, copyStep_advances compare src dst⟩
  | finished => exact absurd rfl hne

end Order

end Batt.ParallelMerge
