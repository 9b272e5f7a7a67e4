/-
  The results of the shards, merged (`check_model` in `state_machine_model.hpp`,
  `combine_results` in `state_machine_model/state_machine_result.hpp`).

  After its `run()` a thread marks its shard in the result, moves the visited states out of
  the model, and then combines its result with those of other threads as they set their
  latches. Which latches a thread waits for depends on its index alone, and a thread waits
  only for larger ones, so `latch` gives the value that each latch ends up with.

  The thread of shard `i` combines the results of the shards from `i` up to the next multiple
  of the lowest bit of `i`, or of all shards for `i` zero (`latch_covers`). `shards` is a
  `std::bitset<64>` and `set` throws beyond it: with more than 64 shards a latch is never set
  and there is no result (`merge_none`).
-/
import Mathlib.Data.Nat.Bitwise
import Mathlib.Data.Nat.Factorization.Basic
import Batt.Checker.Model

namespace Batt.Checker

open Interleave

variable {St : Type} {K : Nat}

/-! ## Combining results -/

/-- Without the times and rates, which nothing reads, and the seed, which only the stochastic
    checker sets. -/
def combineResults (a b : Result) : Result where
  ok := a.ok && b.ok
  branchPushCount := a.branchPushCount + b.branchPushCount
  branchPopCount := a.branchPopCount + b.branchPopCount
  branchMissCount := a.branchMissCount + b.branchMissCount
  stateCount := a.stateCount + b.stateCount
  selfBranchCount := a.selfBranchCount + b.selfBranchCount

/-- What a thread has of its own and of the shards it has combined. -/
structure ShardResult (St : Type) where
  result : Result
  shards : BitVec 64
  visited : List St

/-- `shards.set(shard_i, true)`. -/
def ShardResult.setShard (r : ShardResult St) (i : Nat) : Option (ShardResult St) :=
  if i < 64 then some { r with shards := r.shards ||| 1#64 <<< i } else none

variable [DecidableEq St] {rs : List (ShardResult St)} {i j k : Nat}

/-- `insert` keeps the entries that are there. -/
def ShardResult.combine (a b : ShardResult St) : ShardResult St where
  result := combineResults a.result b.result
  shards := a.shards ||| b.shards
  visited := a.visited ++ b.visited.filter (· ∉ a.visited)

/-- The loop over `merge_mask`. After 64 rounds the mask is zero and the check that `shard_i`
    is less than `merge_i` fails, so the number of rounds left is never what ends it. -/
def mergeLoop (n i : Nat) (latch : Nat → Option (ShardResult St)) :
    Nat → Nat → ShardResult St → Option (ShardResult St)
  | 0, _, _ => none
  | rounds + 1, mask, tmp =>
    if mask &&& i = 0 then
      let mergeI := i ||| mask
      if n ≤ mergeI then some tmp
      else if i < mergeI then
        (latch mergeI).bind fun r =>
          mergeLoop n i latch rounds (mask * 2 % 2 ^ 64) (tmp.combine r)
      else none
    else some tmp

/-- The value of the latch of shard `i`, through at most `depth` others. -/
def latch (rs : List (ShardResult St)) : Nat → Nat → Option (ShardResult St)
  | 0, _ => none
  | depth + 1, i =>
    (rs[i]?).bind fun r => (r.setShard i).bind fun r =>
      mergeLoop rs.length i (latch rs depth) 65 1 r

/-- The end of `check_model`: all latches are polled, and `state_count` is set. -/
def merge (rs : List (ShardResult St)) : Option (Result × List St) :=
  if (List.range rs.length).all fun i => (latch rs rs.length i).isSome then
    (latch rs rs.length 0).map fun r =>
      ({ r.result with stateCount := r.visited.length }, r.visited)
  else none

/-- What `check_model` returns, and the states it has visited, when `run()` has returned on
    every shard. -/
def checkModel (c : Conf (Shared St K) (Local St K)) : Option (Result × List St) :=
  match c.locals with
  | [l] => some (l.result, l.visited)
  | ls => merge (ls.map fun l => ⟨l.result, 0, l.visited⟩)

/-! ## What a result covers -/

/-- `r` is the combination of the results `seg`. -/
structure Covers (seg : List (ShardResult St)) (r : ShardResult St) : Prop where
  ok : r.result.ok = seg.all fun s => s.result.ok
  popped : r.result.branchPopCount = (seg.map fun s => s.result.branchPopCount).sum
  visited : ∀ x, x ∈ r.visited ↔ ∃ s ∈ seg, x ∈ s.visited
  nodup : r.visited.Nodup

omit [DecidableEq St] in
theorem covers_setShard {r r' : ShardResult St} (hn : r.visited.Nodup)
    (h : r.setShard i = some r') :
    Covers [r] r' := by
  unfold ShardResult.setShard at h
  split at h
  · cases h
    exact ⟨by simp, by simp, by simp, hn⟩
  · cases h

theorem Covers.combine {s t : List (ShardResult St)} {a b : ShardResult St} (ha : Covers s a)
    (hb : Covers t b) : Covers (s ++ t) (a.combine b) := by
  constructor
  · rw [List.all_append, ← ha.ok, ← hb.ok]
    rfl
  · rw [List.map_append, List.sum_append, ← ha.popped, ← hb.popped]
    rfl
  · intro x
    have hmem : x ∈ (a.combine b).visited ↔ x ∈ a.visited ∨ x ∈ b.visited := by
      unfold ShardResult.combine
      simp only [List.mem_append, List.mem_filter, decide_eq_true_eq]
      by_cases hx : x ∈ a.visited <;> simp [hx]
    rw [hmem, ha.visited, hb.visited]
    constructor
    · rintro (⟨r, hr, hx⟩ | ⟨r, hr, hx⟩)
      · exact ⟨r, List.mem_append_left _ hr, hx⟩
      · exact ⟨r, List.mem_append_right _ hr, hx⟩
    · rintro ⟨r, hr, hx⟩
      rcases List.mem_append.mp hr with hr | hr
      · exact .inl ⟨r, hr, hx⟩
      · exact .inr ⟨r, hr, hx⟩
  · refine List.nodup_append'.mpr ⟨ha.nodup, hb.nodup.filter _, ?_⟩
    intro x hxa hxb
    have := (List.mem_filter.mp hxb).2
    simp [hxa] at this

/-! ## The tree of latches -/

/-- The results of the shards from `i` up to `j`. -/
def slice (rs : List (ShardResult St)) (i j : Nat) : List (ShardResult St) := (rs.take j).drop i

omit [DecidableEq St] in
theorem slice_append (rs : List (ShardResult St)) (hij : i ≤ j) (hjk : j ≤ k) :
    slice rs i j ++ slice rs j k = slice rs i k := by
  have hfirst : slice rs i j = (slice rs i k).take (j - i) := by
    unfold slice
    rw [List.take_drop, List.take_take, Nat.add_sub_cancel' hij, Nat.min_eq_left hjk]
  have hlast : slice rs j k = (slice rs i k).drop (j - i) := by
    unfold slice
    rw [List.drop_drop, Nat.add_sub_cancel' hij]
  rw [hfirst, hlast, List.take_append_drop]

omit [DecidableEq St] in
theorem slice_past (rs : List (ShardResult St)) (hj : rs.length ≤ j) (hk : rs.length ≤ k) :
    slice rs i j = slice rs i k := by
  unfold slice
  rw [List.take_of_length_le hj, List.take_of_length_le hk]

omit [DecidableEq St] in
theorem slice_one {r : ShardResult St} (h : rs[i]? = some r) : slice rs i (i + 1) = [r] := by
  have hlen : i < rs.length := (List.getElem?_eq_some_iff.mp h).1
  unfold slice
  rw [List.take_add_one, h, List.drop_append, List.drop_eq_nil_of_le (by simp),
    List.length_take, Nat.min_eq_left (by omega), Nat.sub_self]
  rfl

/-- Below the lowest bit of `i` the loop goes on, and the next shard is `2 ^ j` further. -/
theorem below_lowest_bit (hi : i % 2 ^ k = 0) (hj : j < k) :
    2 ^ j &&& i = 0 ∧ i ||| 2 ^ j = i + 2 ^ j ∧ (i + 2 ^ j) % 2 ^ (j + 1) = 2 ^ j := by
  obtain ⟨q, rfl⟩ : 2 ^ (j + 1) ∣ i :=
    (Nat.pow_dvd_pow 2 hj).trans (Nat.dvd_of_mod_eq_zero hi)
  have hlt : 2 ^ j < 2 ^ (j + 1) := Nat.pow_lt_pow_right (by omega) (by omega)
  refine ⟨?_, (Nat.two_pow_add_eq_or_of_lt hlt q).symm, ?_⟩
  · rw [Nat.land_comm, Nat.and_two_pow, Nat.testBit_two_pow_mul]
    simp
  · rw [Nat.add_comm, Nat.add_mul_mod_self_left, Nat.mod_eq_of_lt hlt]

theorem at_lowest_bit (h : i % 2 ^ (k + 1) = 2 ^ k) : 2 ^ k &&& i ≠ 0 := by
  have hbit : i.testBit k = true := by
    have := Nat.testBit_mod_two_pow i (k + 1) k
    rw [h, Nat.testBit_two_pow_self] at this
    simpa using this.symm
  rw [Nat.land_comm, Nat.and_two_pow, hbit]
  simp

/-- The shard `i` combines `2 ^ k` results: `k` is its lowest bit, or there are no more. -/
def Span (n i k : Nat) : Prop :=
  k < 64 ∧ i % 2 ^ k = 0 ∧ (i % 2 ^ (k + 1) = 2 ^ k ∨ n ≤ i + 2 ^ k)

theorem mergeLoop_covers {latch : Nat → Option (ShardResult St)} (hspan : Span rs.length i k)
    (hlatch : ∀ j, j < k → i + 2 ^ j < rs.length → ∃ r, latch (i + 2 ^ j) = some r ∧
      Covers (slice rs (i + 2 ^ j) (i + 2 ^ j + 2 ^ j)) r)
    {rounds : Nat} {tmp : ShardResult St} (hj : j ≤ k) (hrounds : k - j < rounds)
    (htmp : Covers (slice rs i (i + 2 ^ j)) tmp) :
    ∃ r, mergeLoop rs.length i latch rounds (2 ^ j) tmp = some r ∧
      Covers (slice rs i (i + 2 ^ k)) r := by
  obtain ⟨hk, hi, hstop⟩ := hspan
  induction rounds generalizing j tmp with
  | zero => omega
  | succ rounds ih =>
    unfold mergeLoop
    by_cases hjk : j = k
    · -- the lowest bit of `i`, or past the last shard
      subst hjk
      refine ⟨tmp, ?_, htmp⟩
      split
      · rename_i hzero
        rcases hstop with hbit | hpast
        · exact absurd hzero (at_lowest_bit hbit)
        · have hmod : i % 2 ^ (j + 1) = 0 := by
            rw [Nat.land_comm, Nat.and_two_pow] at hzero
            have hbit := (Nat.mul_eq_zero.mp hzero).resolve_right (Nat.two_pow_pos j).ne'
            rw [Nat.mod_pow_succ, ← Nat.toNat_testBit, hi, hbit, Nat.mul_zero]
          have hor := (below_lowest_bit hmod (Nat.lt_succ_self j)).2.1
          rw [if_pos (by omega)]
      · rfl
    · obtain ⟨hzero, hor, hmod⟩ := below_lowest_bit hi (show j < k by omega)
      have hpow : 0 < 2 ^ j := Nat.two_pow_pos j
      rw [if_pos hzero, hor]
      simp only
      by_cases hpast : rs.length ≤ i + 2 ^ j
      · rw [if_pos hpast]
        have hle : 2 ^ j ≤ 2 ^ k := Nat.pow_le_pow_right (by omega) hj
        exact ⟨tmp, rfl, slice_past rs hpast (show rs.length ≤ i + 2 ^ k by omega) ▸ htmp⟩
      · obtain ⟨r, hr, hcovers⟩ := hlatch j (by omega) (by omega)
        have hnext : 2 ^ j * 2 % 2 ^ 64 = 2 ^ (j + 1) := by
          rw [← Nat.pow_succ]
          exact Nat.mod_eq_of_lt (Nat.pow_lt_pow_right (by omega) (by omega))
        have hdouble : i + 2 ^ j + 2 ^ j = i + 2 ^ (j + 1) := by
          rw [Nat.pow_succ]
          omega
        rw [if_neg hpast, if_pos (by omega), hr, Option.bind_some, hnext]
        refine ih (by omega) (by omega) ?_
        have hall := htmp.combine hcovers
        rwa [hdouble, slice_append rs (by omega) (by omega)] at hall

theorem latch_covers (hn : rs.length ≤ 64) (hnodup : ∀ r ∈ rs, r.visited.Nodup) (depth : Nat)
    (hi : i < rs.length) (hdepth : rs.length - i ≤ depth) (hspan : Span rs.length i k) :
    ∃ r, latch rs depth i = some r ∧ Covers (slice rs i (i + 2 ^ k)) r := by
  induction depth generalizing i k with
  | zero => omega
  | succ depth ih =>
    have hget := List.getElem?_eq_getElem hi
    have hset : ∃ r', rs[i].setShard i = some r' := by
      unfold ShardResult.setShard
      rw [if_pos (by omega)]
      exact ⟨_, rfl⟩
    obtain ⟨r', hr'⟩ := hset
    have hself : Covers (slice rs i (i + 2 ^ 0)) r' := by
      rw [Nat.pow_zero, slice_one hget]
      exact covers_setShard (hnodup _ (List.getElem_mem hi)) hr'
    unfold latch
    rw [hget, Option.bind_some, hr', Option.bind_some]
    obtain ⟨hk, hmod, hstop⟩ := hspan
    refine mergeLoop_covers ⟨hk, hmod, hstop⟩ (fun j hj hlt => ?_) (Nat.zero_le k) (by omega) hself
    -- the other shard has a larger index, and bit `j` is its lowest
    have hpow : 0 < 2 ^ j := Nat.two_pow_pos j
    have hlow := (below_lowest_bit hmod hj).2.2
    refine ih hlt (by omega) ⟨by omega, ?_, .inl hlow⟩
    have hdvd : 2 ^ j ∣ 2 ^ (j + 1) := Nat.pow_dvd_pow 2 (by omega)
    rw [← Nat.mod_mod_of_dvd _ hdvd, hlow, Nat.mod_self]

theorem exists_span {n : Nat} (hn : n ≤ 64) (hi : i < n) : ∃ k, Span n i k := by
  by_cases h0 : i = 0
  · subst h0
    exact ⟨6, by omega, rfl, .inr (by omega)⟩
  · obtain ⟨k, q, hodd, rfl⟩ := Nat.exists_eq_two_pow_mul_odd h0
    obtain ⟨r, rfl⟩ := hodd
    have hk : k < 64 := by
      have hlt : k < 2 ^ k := Nat.lt_two_pow_self
      have hle : 2 ^ k ≤ 2 ^ k * (2 * r + 1) := Nat.le_mul_of_pos_right _ (by omega)
      omega
    refine ⟨k, hk, Nat.mul_mod_right _ _, .inl ?_⟩
    rw [Nat.pow_succ, Nat.mul_mod_mul_left, show (2 * r + 1) % 2 = 1 by omega, Nat.mul_one]

/-- **With at most 64 shards, the merged result is that of all shards.** -/
theorem merge_covers (hpos : 0 < rs.length) (hn : rs.length ≤ 64)
    (hnodup : ∀ r ∈ rs, r.visited.Nodup) :
    ∃ r, Covers rs r ∧
      merge rs = some ({ r.result with stateCount := r.visited.length }, r.visited) := by
  have hall : (List.range rs.length).all fun i => (latch rs rs.length i).isSome := by
    refine List.all_eq_true.mpr fun i hi => ?_
    have hlt := List.mem_range.mp hi
    obtain ⟨k, hspan⟩ := exists_span hn hlt
    obtain ⟨r, hr, _⟩ := latch_covers hn hnodup rs.length hlt (by omega) hspan
    rw [hr]
    rfl
  obtain ⟨r, hr, hcovers⟩ := latch_covers hn hnodup rs.length (k := 6) hpos (by omega)
    ⟨by omega, rfl, .inr (by omega)⟩
  have hslice : slice rs 0 (0 + 2 ^ 6) = rs := by
    unfold slice
    rw [List.take_of_length_le (by omega), List.drop_zero]
  rw [hslice] at hcovers
  refine ⟨r, hcovers, ?_⟩
  unfold merge
  rw [if_pos hall, hr]
  rfl

/-- With more shards there is no result: that of shard 64 cannot be marked. -/
theorem merge_none (hn : 64 < rs.length) : merge rs = none := by
  have hnone : ∀ depth, latch rs depth 64 = none := by
    intro depth
    cases depth with
    | zero => rfl
    | succ depth =>
      unfold latch
      rw [List.getElem?_eq_getElem hn]
      rfl
  unfold merge
  refine if_neg fun hall => ?_
  have := List.all_eq_true.mp hall 64 (List.mem_range.mpr hn)
  rw [hnone] at this
  cases this

end Batt.Checker
