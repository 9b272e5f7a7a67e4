/-
  What a task still owes.

  `owes` is the list of elements a task has yet to write, itself or through the tasks it
  will hand out, each with its position. A step settles part of it: what it wrote, what
  the task owes afterwards and what the handed-out tasks owe are together what the task
  owed before, each element once (`Advances.owes`). For a call the debt is the merge of
  its two ranges from its position on; for the loop of the fan-out it is the merge of what
  is left of the fixed range with the search range from its lower bound on, and one turn
  of the loop cuts it at the next shard's first element (`merged_cut`).

  `weight` falls with every step, so it bounds the steps left. `Ok` is what keeps a task
  from a step without a result.
-/
import Mathlib.Data.List.TakeWhile
import Batt.Lib.Merge
import Batt.ParallelMerge.Model

namespace Batt.ParallelMerge
open Merging

variable {α : Type}

/-! ## Sizes -/

theorem isizeOf_eq {n : UInt64} (h : n.toNat < 2 ^ 63) : isizeOf n = n.toNat := by
  unfold isizeOf
  rw [Int64.toInt, UInt64.toBitVec_toInt64, BitVec.toInt_eq_toNat_of_lt]
  · rfl
  · show 2 * n.toNat < _
    omega

theorem maxTasksPerPhase_toNat (maxTasks : UInt64) :
    (maxTasksPerPhase maxTasks).toNat = (maxTasks.toNat + 1) % 2 ^ 64 / 2 := by
  unfold maxTasksPerPhase
  rw [UInt64.toNat_div, UInt64.toNat_add]
  rfl

/-- Of the positive task counts only the largest makes the sum wrap. -/
theorem maxTasksPerPhase_eq_zero_iff {maxTasks : UInt64} (h : 1 ≤ maxTasks) :
    maxTasksPerPhase maxTasks = 0 ↔ maxTasks.toNat = 2 ^ 64 - 1 := by
  have hlt := maxTasks.toNat_lt
  have h1 : 1 ≤ maxTasks.toNat := UInt64.le_iff_toNat_le.mp h
  rw [← UInt64.toNat_inj, maxTasksPerPhase_toNat, UInt64.toNat_zero]
  omega

theorem targetSize_pos (minTaskSize : UInt64) {maxTasks : UInt64} {n : Nat}
    (hper : maxTasksPerPhase maxTasks ≠ 0) (h0 : 0 < n) (hn : n < 2 ^ 63) :
    ∃ target, targetSize minTaskSize maxTasks n = some target ∧ 0 < target := by
  have hperLt : (maxTasksPerPhase maxTasks).toNat < 2 ^ 63 := by
    rw [maxTasksPerPhase_toNat]
    omega
  have hperPos : 0 < (maxTasksPerPhase maxTasks).toNat := by
    by_contra h
    exact hper (UInt64.toNat_inj.mp (by rw [UInt64.toNat_zero]; omega))
  have hsum : (UInt64.ofNat n + maxTasksPerPhase maxTasks - 1).toNat =
      n + (maxTasksPerPhase maxTasks).toNat - 1 := by
    rw [UInt64.toNat_sub, UInt64.toNat_add, UInt64.toNat_ofNat', UInt64.toNat_one]
    omega
  have hdiv : ((UInt64.ofNat n + maxTasksPerPhase maxTasks - 1) /
      maxTasksPerPhase maxTasks).toNat =
      (n + (maxTasksPerPhase maxTasks).toNat - 1) / (maxTasksPerPhase maxTasks).toNat := by
    rw [UInt64.toNat_div, hsum]
  refine ⟨_, if_neg hper, ?_⟩
  generalize maxTasksPerPhase maxTasks = perPhase at *
  have hlow : 1 ≤ (n + perPhase.toNat - 1) / perPhase.toNat :=
    (Nat.one_le_div_iff hperPos).mpr (by omega)
  have hhigh : (n + perPhase.toNat - 1) / perPhase.toNat ≤ n := by
    refine Nat.div_le_of_le_mul ?_
    rw [Nat.add_comm]
    exact Nat.add_sub_one_le_mul (by omega) (by omega)
  have hmin : ((minTaskSize + 1) / 2).toNat < 2 ^ 63 := by
    have := (minTaskSize + 1).toNat_lt
    rw [UInt64.toNat_div]
    show _ / 2 < _
    omega
  rw [← hdiv] at hlow hhigh
  have hmax : max ((UInt64.ofNat n + perPhase - 1) / perPhase) ((minTaskSize + 1) / 2) =
      if (UInt64.ofNat n + perPhase - 1) / perPhase ≤ (minTaskSize + 1) / 2 then
        (minTaskSize + 1) / 2 else (UInt64.ofNat n + perPhase - 1) / perPhase := rfl
  rw [hmax]
  split
  · rename_i hle
    have := UInt64.le_iff_toNat_le.mp hle
    rw [isizeOf_eq hmin]
    omega
  · rw [isizeOf_eq (by omega)]
    omega

/-! ## Ranges and searches -/

@[simp] theorem rangeOf_append (xs ys : List α) : rangeOf (xs ++ ys) ys = xs := by
  simp [rangeOf]

theorem rangeOf_append_of_suffix {first last : List α} (h : last <:+ first) :
    rangeOf first last ++ last = first := by
  obtain ⟨xs, rfl⟩ := h
  rw [rangeOf_append]

theorem rangeOf_length {first last : List α} (h : last <:+ first) :
    (rangeOf first last).length = first.length - last.length := by
  obtain ⟨xs, rfl⟩ := h
  simp

variable (compare : α → α → Bool)

abbrev Sorted (xs : List α) : Prop := xs.Pairwise fun a b => compare b a = false

theorem lowerBound_suffix (xs : List α) (v : α) : lowerBound compare xs v <:+ xs :=
  List.dropWhile_suffix _

theorem lt_of_mem_rangeOf_lowerBound {xs : List α} {v a : α}
    (h : a ∈ rangeOf xs (lowerBound compare xs v)) : compare a v = true := by
  have hrange : rangeOf xs (lowerBound compare xs v) = xs.takeWhile (compare · v) := by
    have hsplit : xs.takeWhile (compare · v) ++ lowerBound compare xs v = xs :=
      List.takeWhile_append_dropWhile
    calc rangeOf xs (lowerBound compare xs v)
        = rangeOf (xs.takeWhile (compare · v) ++ lowerBound compare xs v)
            (lowerBound compare xs v) := by rw [hsplit]
      _ = xs.takeWhile (compare · v) := rangeOf_append _ _
  rw [hrange] at h
  exact List.mem_takeWhile_imp (p := (compare · v)) h

/-- The shard ends with an element that is strictly before what follows the shard. -/
theorem extendShard_cases (back : α) (rest : List α) :
    ∃ mid last, back :: rest = mid ++ last :: extendShard compare back rest ∧
      ∀ v ∈ (extendShard compare back rest).head?, compare last v = true := by
  induction rest generalizing back with
  | nil => exact ⟨[], back, rfl, by simp [extendShard]⟩
  | cons x rest ih =>
    unfold extendShard
    split
    · rename_i hlt
      refine ⟨[], back, rfl, ?_⟩
      intro v hv
      simp only [List.head?_cons, Option.mem_def, Option.some.injEq] at hv
      rwa [← hv]
    · obtain ⟨mid, last, heq, hlast⟩ := ih x
      exact ⟨back :: mid, last, by rw [heq]; rfl, hlast⟩

/-! ## What a task owes -/

/-- The merge of a fixed and a search range, each on its side. -/
def Phase.merged (phase : Phase) (fixed search : List α) : List α :=
  stdMerge compare (phase.src0Iter fixed search) (phase.src1Iter fixed search)

/-- The search range from the lower bound of the first element of a shard on. -/
def searchFrom (isFirst : Bool) (search shard : List α) : List α :=
  if isFirst then search
  else match shard with
    | [] => []
    | x :: _ => lowerBound compare search x

/-- The elements a task has yet to write, in order. -/
def Task.values : Task α → List α
  | .impl _ src0 src1 _ => stdMerge compare src0 src1
  | .fanout phase _ fixed fixedPart search _ =>
    phase.merged compare fixedPart
      (searchFrom compare (fixedPart.length == fixed.length) search fixedPart)
  | .work phase fixedShardBegin fixedShardEnd search _ isFirst isLast =>
    let searchShardBegin := searchFrom compare isFirst search fixedShardBegin
    let searchShardEnd :=
      if isLast then [] else searchFrom compare false searchShardBegin fixedShardEnd
    phase.merged compare (rangeOf fixedShardBegin fixedShardEnd)
      (rangeOf searchShardBegin searchShardEnd)
  | .merge src0 src1 _ => stdMerge compare src0 src1
  | .copy src _ => src
  | .finished => []

/-- The position of the first of them. -/
def Task.start : Task α → Nat
  | .impl _ _ _ dst => dst
  | .fanout _ _ fixed fixedPart search dst =>
    dst + (search.length -
      (searchFrom compare (fixedPart.length == fixed.length) search fixedPart).length)
  | .work _ fixedShardBegin _ search dst isFirst _ =>
    dst + (search.length - (searchFrom compare isFirst search fixedShardBegin).length)
  | .merge _ _ dst => dst
  | .copy _ dst => dst
  | .finished => 0

def Task.owes (t : Task α) : List (α × Nat) := (t.values compare).zipIdx (t.start compare)

/-- The steps a phase takes for each element. -/
def Phase.rate : Phase → Nat
  | .first => 11
  | .second => 6
  | .third => 1

/-- A bound on the steps left to a task and those it hands out. -/
def Task.weight : Task α → Nat
  | .impl phase src0 src1 _ => phase.rate * (src0.length + src1.length) + 3
  | .fanout phase target fixed fixedPart search dst =>
    phase.next.rate *
      (Task.values compare (.fanout phase target fixed fixedPart search dst)).length +
      5 * fixedPart.length + 2
  | .work phase fixedShardBegin fixedShardEnd search dst isFirst isLast =>
    phase.next.rate *
      (Task.values compare (.work phase fixedShardBegin fixedShardEnd search dst isFirst
        isLast)).length + 4
  | .merge src0 src1 _ => src0.length + src1.length + 2
  | .copy src _ => src.length + 1
  | .finished => 0

/-- A call that does not reach the division has no need of a divisor. -/
def NoFanout (minTaskSize : UInt64) (phase : Phase) (src0 src1 : List α) : Prop :=
  phase = .third ∨ src0 = [] ∨ src1 = [] ∨
    (src0.length + src1.length : Int) ≤ isizeOf minTaskSize

/-- What a call makes of its task. In the general case the whole fixed range is one part. -/
theorem parallelMergeImpl_cases {minTaskSize maxTasks : UInt64} {phase : Phase}
    {src0 src1 : List α} (dst : Nat) (hlen : src0.length + src1.length < 2 ^ 63)
    (hdiv : NoFanout minTaskSize phase src0 src1 ∨ maxTasksPerPhase maxTasks ≠ 0) :
    ∃ t, parallelMergeImpl minTaskSize maxTasks phase src0 src1 dst = some t ∧
      (src0 = [] ∧ t = .copy src1 dst ∨ src1 = [] ∧ t = .copy src0 dst ∨
        t = .merge src0 src1 dst ∨
        ∃ target fixed search, phase.fixedIter src0 src1 = fixed ∧
          phase.searchIter src0 src1 = search ∧ t = .fanout phase target fixed fixed search dst ∧
          phase ≠ .third ∧ maxTasksPerPhase maxTasks ≠ 0 ∧ 0 < target ∧ fixed ≠ [] ∧
          fixed.length + search.length = src0.length + src1.length) := by
  unfold parallelMergeImpl
  by_cases h0 : src0 = []
  · exact ⟨_, if_pos h0, .inl ⟨h0, rfl⟩⟩
  by_cases h1 : src1 = []
  · exact ⟨_, by rw [if_neg h0, if_pos h1], .inr (.inl ⟨h1, rfl⟩)⟩
  by_cases hseq : phase = .third ∨ (src0.length + src1.length : Int) ≤ isizeOf minTaskSize
  · exact ⟨_, by rw [if_neg h0, if_neg h1, if_pos hseq], .inr (.inr (.inl rfl))⟩
  obtain ⟨hthird, hbig⟩ := not_or.mp hseq
  have hper : maxTasksPerPhase maxTasks ≠ 0 := hdiv.resolve_left fun h =>
    h.elim hthird fun h => h.elim h0 fun h => h.elim h1 hbig
  have hp0 := List.length_pos_of_ne_nil h0
  have hp1 := List.length_pos_of_ne_nil h1
  have hfixed : 0 < (phase.fixedIter src0 src1).length ∧
      (phase.fixedIter src0 src1).length + (phase.searchIter src0 src1).length =
        src0.length + src1.length := by
    unfold Phase.fixedIter Phase.searchIter
    split <;> omega
  obtain ⟨target, htarget, hpos⟩ := targetSize_pos minTaskSize hper hfixed.1 (by omega)
  refine ⟨.fanout phase target _ _ _ dst, ?_, .inr (.inr (.inr ⟨target, _, _, rfl, rfl, rfl,
    hthird, hper, hpos, List.ne_nil_of_length_pos hfixed.1, hfixed.2⟩))⟩
  rw [if_neg h0, if_neg h1, if_neg hseq]
  simp only [htarget, Option.map_some]

def Task.Ok (minTaskSize maxTasks : UInt64) : Task α → Prop
  | .impl phase src0 src1 _ =>
    Sorted compare src0 ∧ Sorted compare src1 ∧ src0.length + src1.length < 2 ^ 63 ∧
      (NoFanout minTaskSize phase src0 src1 ∨ maxTasksPerPhase maxTasks ≠ 0)
  | .fanout phase target fixed fixedPart search _ =>
    phase ≠ .third ∧ maxTasksPerPhase maxTasks ≠ 0 ∧ 0 < target ∧ fixedPart ≠ [] ∧
      fixedPart.length ≤ fixed.length ∧ Sorted compare fixedPart ∧ Sorted compare search ∧
      fixedPart.length + search.length < 2 ^ 63
  | .work phase fixedShardBegin fixedShardEnd search _ _ isLast =>
    phase ≠ .third ∧ maxTasksPerPhase maxTasks ≠ 0 ∧ fixedShardBegin ≠ [] ∧
      fixedShardEnd <:+ fixedShardBegin ∧ isLast = (fixedShardEnd.length == 0) ∧
      Sorted compare fixedShardBegin ∧ Sorted compare search ∧
      fixedShardBegin.length + search.length < 2 ^ 63
  | _ => True

/-! ## Cutting a merge at a shard's end -/

theorem merged_length (phase : Phase) (fixed search : List α) :
    (phase.merged compare fixed search).length = fixed.length + search.length := by
  unfold Phase.merged stdMerge
  rw [List.length_merge]
  cases phase <;> simp [Phase.src0Iter, Phase.src1Iter, Nat.add_comm]

theorem searchFrom_suffix (isFirst : Bool) (search shard : List α) :
    searchFrom compare isFirst search shard <:+ search := by
  unfold searchFrom
  split
  · exact List.suffix_refl _
  · cases shard with
    | nil => exact List.nil_suffix
    | cons x xs => exact lowerBound_suffix compare search x

section Order

variable (ho : IsStrictWeakOrder α fun a b => compare a b = true)
include ho

/-- Both sides of a merge cut at one value. -/
theorem stdMerge_cut {v : α} {xs₁ xs₂ ys₁ ys₂ : List α} (hx₁ : ∀ a ∈ xs₁, compare a v = true)
    (hx₂ : ∀ a ∈ xs₂, compare a v = false) (hy₁ : ∀ a ∈ ys₁, compare a v = true)
    (hy₂ : ∀ a ∈ ys₂, compare a v = false) :
    stdMerge compare (xs₁ ++ xs₂) (ys₁ ++ ys₂) =
      stdMerge compare xs₁ ys₁ ++ stdMerge compare xs₂ ys₂ := by
  refine merge_append_append ?_ ?_
  · intro a ha b hb
    simp only [Bool.not_eq_true']
    by_contra hba
    have := lt_trans ho (by simpa using hba) (hx₁ a ha)
    rw [hy₂ b hb] at this
    cases this
  · intro a ha b hb
    simp only [Bool.not_eq_false']
    exact lt_of_lt_of_not_lt ho (hy₁ b hb) (hx₂ a ha)

theorem merged_cut (phase : Phase) {v : α} {fixed₁ fixed₂ search₁ search₂ : List α}
    (hf₁ : ∀ a ∈ fixed₁, compare a v = true) (hf₂ : ∀ a ∈ fixed₂, compare a v = false)
    (hs₁ : ∀ a ∈ search₁, compare a v = true) (hs₂ : ∀ a ∈ search₂, compare a v = false) :
    phase.merged compare (fixed₁ ++ fixed₂) (search₁ ++ search₂) =
      phase.merged compare fixed₁ search₁ ++ phase.merged compare fixed₂ search₂ := by
  cases phase
  · exact stdMerge_cut compare ho hf₁ hf₂ hs₁ hs₂
  · exact stdMerge_cut compare ho hs₁ hs₂ hf₁ hf₂
  · exact stdMerge_cut compare ho hs₁ hs₂ hf₁ hf₂

/-- In a sorted range everything up to an element strictly before `v` is before `v`. -/
theorem lt_of_sorted_concat {xs : List α} {last v : α}
    (hs : Sorted compare (xs ++ [last])) (hv : compare last v = true) :
    ∀ a ∈ xs ++ [last], compare a v = true := by
  intro a ha
  rcases List.mem_append.mp ha with ha | ha
  · have hle := (List.pairwise_append.mp hs).2.2 a ha last (by simp)
    by_contra hav
    have := lt_of_lt_of_not_lt ho hv (by simpa using hav)
    rw [hle] at this
    cases this
  · rw [List.mem_singleton] at ha
    rwa [ha]

/-- Looking on from the shard's own lower bound finds the same place as looking from the
    start. -/
theorem searchFrom_searchFrom {isFirst : Bool} {search part rest : List α} {v : α}
    (hhead : ∀ x ∈ part.head?, compare v x = false) (hne : part ≠ []) :
    searchFrom compare false (searchFrom compare isFirst search part) (v :: rest) =
      searchFrom compare false search (v :: rest) := by
  cases isFirst with
  | true => rfl
  | false =>
    cases part with
    | nil => exact absurd rfl hne
    | cons x xs => exact dropWhile_dropWhile ho (hhead x (by simp)) search

end Order

end Batt.ParallelMerge
