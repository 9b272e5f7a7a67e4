/-
  The merge loops of all shards, step by step.

  A thread of `check_model` is in its `run()` (which may end at any time), in its merge loop, or
  behind it; it steps when it looks at the next index, and there it waits until the latch of that
  shard is set. `sources` is not in the source: it lists the shards whose results are combined in
  a result. The visited states go with the result, since a thread changes only those of its own
  shard, and before it sets its latch.

  A latch ends up with the value that `latch` gives (`Invariant.latch`), a thread waits for larger
  indices only, and the value of a shard covers the shards up to the next multiple of its lowest
  bit, each once and in order. The bits of `shards` are 64, and one shard alone has no bit set:
  the reduction does what it is for exactly from 2 to 64 shards (`reduces_iff`).
-/
import Mathlib.Logic.Relation
import Batt.Checker.Merge

namespace Batt.Checker

open Interleave

variable {St : Type}

/-! ## The threads of `check_model` -/

structure Merged (St : Type) where
  value : ShardResult St
  /-- The shards combined in the value. -/
  sources : List Nat

inductive MergePc (St : Type) where
  | running
  | merging (mask : Nat) (tmp : Merged St)
  | setValue (tmp : Merged St)
  | returned
  /-- `std::bitset::set` has thrown. -/
  | threw
  /-- A check has failed. -/
  | failed

structure MergeLocal (St : Type) where
  shardI : Nat
  /-- What `run()` is going to return, and to leave in `visited_`. -/
  own : Result × List St
  pc : MergePc St := .running

/-- `shard_results`. -/
abbrev Latches (St : Type) := List (Option (Merged St))

variable [DecidableEq St]

def Merged.combine (a b : Merged St) : Merged St where
  value := a.value.combine b.value
  sources := a.sources ++ b.sources

/-- The head of the loop, and its body once the latch is set. -/
def mergeNext (n : Nat) (latches : Latches St) (i mask : Nat) (tmp : Merged St) :
    Option (MergePc St) :=
  if mask &&& i = 0 then
    let mergeI := i ||| mask
    if n ≤ mergeI then some (.setValue tmp)
    else if i < mergeI ∧ mergeI < latches.length then
      ((latches[mergeI]?).join).map fun r => .merging (mask * 2 % 2 ^ 64) (tmp.combine r)
    else some .failed
  else some (.setValue tmp)

def mergeStep (n : Nat) (latches : Latches St) (l : MergeLocal St) :
    Option (Latches St × MergeLocal St) :=
  match l.pc with
  | .running =>
    match (⟨l.own.1, 0, l.own.2⟩ : ShardResult St).setShard l.shardI with
    | none => some (latches, { l with pc := .threw })
    | some r => some (latches, { l with pc := .merging 1 ⟨r, [l.shardI]⟩ })
  | .merging mask tmp =>
    (mergeNext n latches l.shardI mask tmp).map fun pc => (latches, { l with pc := pc })
  | .setValue tmp =>
    if (latches[l.shardI]?).join.isNone then
      some (latches.set l.shardI (some tmp), { l with pc := .returned })
    else some (latches, { l with pc := .failed })
  | .returned | .threw | .failed => none

def mergeMachine (n : Nat) : Machine (Latches St) (MergeLocal St) Unit where
  step _ := mergeStep n

/-- `rs` is what each `run()` returns. -/
def mergeInitial (rs : List (Result × List St)) : Conf (Latches St) (MergeLocal St) where
  shared := List.replicate rs.length none
  locals := rs.mapIdx fun i r => { shardI := i, own := r }

/-! ## What the reduction is for -/

/-- The results before any shard is marked. -/
def ownResults (rs : List (Result × List St)) : List (ShardResult St) :=
  rs.map fun r => ⟨r.1, 0, r.2⟩

def AllReturned (c : Conf (Latches St) (MergeLocal St)) : Prop := ∀ l ∈ c.locals, l.pc = .returned

/-- Shard `i` awaits the latch of shard `j`. -/
def WaitsFor (n : Nat) (c : Conf (Latches St) (MergeLocal St)) (i j : Nat) : Prop :=
  ∃ l mask tmp, c.locals[i]? = some l ∧ l.pc = .merging mask tmp ∧ mask &&& i = 0 ∧
    j = i ||| mask ∧ j < n ∧ (c.shared[j]?).join = none

/-- `shards` of the result of `check_model`: with one shard the result is that of `run()`. -/
def resultShards (n : Nat) (c : Conf (Latches St) (MergeLocal St)) : Option (BitVec 64) :=
  if n = 1 then some 0 else ((c.shared[0]?).join).map fun r => r.value.shards

/-- Every run of the merge loops stays in range and without cyclic waiting, can go on until all
    threads have returned and comes to an end. Then the result of each shard is in that of
    shard 0, once, and the bits are those of the shards. -/
structure Reduces (rs : List (Result × List St)) : Prop where
  inRange : ∀ c, (mergeMachine rs.length).Reachable (mergeInitial rs) c → ∀ l ∈ c.locals,
    l.pc ≠ .threw ∧ l.pc ≠ .failed
  acyclic : ∀ c, (mergeMachine rs.length).Reachable (mergeInitial rs) c → ∀ i,
    ¬Relation.TransGen (WaitsFor rs.length c) i i
  progress : ∀ c, (mergeMachine rs.length).Reachable (mergeInitial rs) c → ¬AllReturned c →
    ∃ i c', (mergeMachine rs.length).fire i () c = some c'
  ends : ∀ sched c, (mergeMachine rs.length).run sched (mergeInitial rs) = some c →
    sched.length ≤ 67 * rs.length
  covered : ∀ c, (mergeMachine rs.length).Reachable (mergeInitial rs) c → AllReturned c →
    ∃ r, c.shared[0]? = some (some ⟨r, List.range rs.length⟩) ∧
      Covers (ownResults rs) r ∧ merge (ownResults rs) =
        some ({ r.result with stateCount := r.visited.length }, r.visited)
  shards : ∀ c, (mergeMachine rs.length).Reachable (mergeInitial rs) c → AllReturned c →
    ∃ bits, resultShards rs.length c = some bits ∧
      ∀ i, bits.getLsbD i = true ↔ i < rs.length

/-! ## One step -/

inductive MergeTrans (n : Nat) (latches : Latches St) (l : MergeLocal St) :
    Latches St → MergeLocal St → Prop where
  | begin (r : ShardResult St) (at_ : l.pc = .running)
      (mark : (⟨l.own.1, 0, l.own.2⟩ : ShardResult St).setShard l.shardI = some r) :
      MergeTrans n latches l latches { l with pc := .merging 1 ⟨r, [l.shardI]⟩ }
  | throw (at_ : l.pc = .running) (outside : 64 ≤ l.shardI) :
      MergeTrans n latches l latches { l with pc := .threw }
  | combine (mask : Nat) (tmp r : Merged St) (at_ : l.pc = .merging mask tmp)
      (clear : mask &&& l.shardI = 0) (below : (l.shardI ||| mask) < n)
      (latch : latches[l.shardI ||| mask]? = some (some r)) :
      MergeTrans n latches l latches
        { l with pc := .merging (mask * 2 % 2 ^ 64) (tmp.combine r) }
  | stop (mask : Nat) (tmp : Merged St) (at_ : l.pc = .merging mask tmp)
      (last : mask &&& l.shardI ≠ 0 ∨ n ≤ l.shardI ||| mask) :
      MergeTrans n latches l latches { l with pc := .setValue tmp }
  | misplaced (mask : Nat) (tmp : Merged St) (at_ : l.pc = .merging mask tmp)
      (clear : mask &&& l.shardI = 0) (below : (l.shardI ||| mask) < n)
      (outside : ¬(l.shardI < l.shardI ||| mask ∧ (l.shardI ||| mask) < latches.length)) :
      MergeTrans n latches l latches { l with pc := .failed }
  | set (tmp : Merged St) (at_ : l.pc = .setValue tmp)
      (unset : (latches[l.shardI]?).join = none) :
      MergeTrans n latches l (latches.set l.shardI (some tmp)) { l with pc := .returned }
  | twice (tmp : Merged St) (at_ : l.pc = .setValue tmp)
      (already : (latches[l.shardI]?).join ≠ none) :
      MergeTrans n latches l latches { l with pc := .failed }

theorem mergeStep_trans {n : Nat} {latches latches' : Latches St} {l l' : MergeLocal St}
    (h : mergeStep n latches l = some (latches', l')) : MergeTrans n latches l latches' l' := by
  unfold mergeStep at h
  split at h
  · rename_i hpc
    split at h
    · rename_i hmark
      cases h
      refine .throw hpc ?_
      unfold ShardResult.setShard at hmark
      split at hmark
      · cases hmark
      · omega
    · rename_i r hmark
      cases h
      exact .begin r hpc hmark
  · rename_i mask tmp hpc
    obtain ⟨pc, hnext, heq⟩ := Option.map_eq_some_iff.mp h
    cases heq
    unfold mergeNext at hnext
    dsimp only at hnext
    split at hnext
    · rename_i hclear
      split at hnext
      · rename_i hlast
        cases hnext
        exact .stop mask tmp hpc (.inr hlast)
      · rename_i hbelow
        split at hnext
        · obtain ⟨r, hr, rfl⟩ := Option.map_eq_some_iff.mp hnext
          exact .combine mask tmp r hpc hclear (by omega) (Option.join_eq_some_iff.mp hr)
        · rename_i houtside
          cases hnext
          exact .misplaced mask tmp hpc hclear (by omega) houtside
    · rename_i hset
      cases hnext
      exact .stop mask tmp hpc (.inl hset)
  · rename_i tmp hpc
    split at h
    · rename_i hunset
      cases h
      exact .set tmp hpc (Option.isNone_iff_eq_none.mp hunset)
    · rename_i halready
      cases h
      exact .twice tmp hpc fun hnone => halready (by rw [hnone]; rfl)
  all_goals cases h

/-! ## What a latch covers -/

variable {n : Nat} {r tmp : Merged St}

/-- The shards from `i` up to `i + 2 ^ j`, or to the last one, are combined in a result. -/
structure Part (n i j : Nat) (r : Merged St) : Prop where
  sources : r.sources = List.range' i (min (2 ^ j) (n - i))
  shards : ∀ t, r.value.shards.getLsbD t = decide (i ≤ t ∧ t < i + 2 ^ j ∧ t < n)

omit [DecidableEq St] in
theorem part_own {r r' : ShardResult St} {i : Nat} (hi : i < n) (hzero : r.shards = 0)
    (h : r.setShard i = some r') : Part n i 0 ⟨r', [i]⟩ := by
  unfold ShardResult.setShard at h
  split at h
  · rename_i hlt
    cases h
    refine ⟨?_, fun t => ?_⟩
    · rw [Nat.pow_zero, Nat.min_eq_left (by omega)]
      rfl
    · show (r.shards ||| 1#64 <<< i).getLsbD t = _
      have hbit : (1#64).getLsbD (t - i) = decide (t - i = 0) := by simp [BitVec.getLsbD_one]
      rw [hzero]
      show (0#64 ||| 1#64 <<< i).getLsbD t = _
      rw [BitVec.zero_or, BitVec.getLsbD_shiftLeft, hbit, ← decide_not,
        ← Bool.decide_and, ← Bool.decide_and]
      refine decide_eq_decide.mpr ?_
      omega
  · cases h

theorem Part.combine {i j : Nat} {a b : Merged St} (ha : Part n i j a)
    (hb : Part n (i + 2 ^ j) j b) (hlt : i + 2 ^ j < n) : Part n i (j + 1) (a.combine b) := by
  constructor
  · show a.sources ++ b.sources = _
    rw [ha.sources, hb.sources, Nat.min_eq_left (by omega), List.range'_append_1]
    congr 1
    omega
  · intro t
    show (a.value.shards ||| b.value.shards).getLsbD t = _
    rw [BitVec.getLsbD_or, ha.shards, hb.shards, ← Bool.decide_or]
    refine decide_eq_decide.mpr ?_
    omega

omit [DecidableEq St] in
/-- Where the shards end, the same are combined. -/
theorem Part.past {i j k : Nat} (h : Part n i j r) (hj : n ≤ i + 2 ^ j) (hk : n ≤ i + 2 ^ k) :
    Part n i k r := by
  have hj₀ : 0 < 2 ^ j := Nat.two_pow_pos j
  have hk₀ : 0 < 2 ^ k := Nat.two_pow_pos k
  constructor
  · rw [h.sources, Nat.min_eq_right (by omega), Nat.min_eq_right (by omega)]
  · intro t
    rw [h.shards]
    refine decide_eq_decide.mpr ?_
    omega

omit [DecidableEq St] in
/-- A shard combines the same shards whichever span it is given. -/
theorem Part.of_span {i j k : Nat} (h : Part n i j r) (hj : Span n i j) (hk : Span n i k) :
    Part n i k r := by
  -- the span at the lower power is not ended by a bit of `i`
  have hends : ∀ {a b : Nat}, a < b → Span n i a → Span n i b → n ≤ i + 2 ^ a := by
    rintro a b hab ⟨_, _, hbit | hpast⟩ ⟨_, hmod, _⟩
    · have hdvd : 2 ^ (a + 1) ∣ i :=
        (Nat.pow_dvd_pow 2 hab).trans (Nat.dvd_of_mod_eq_zero hmod)
      rw [Nat.mod_eq_zero_of_dvd hdvd] at hbit
      have := Nat.two_pow_pos a
      omega
    · exact hpast
  rcases Nat.lt_trichotomy j k with hlt | rfl | hgt
  · have hpast := hends hlt hj hk
    have hpow : 2 ^ j ≤ 2 ^ k := Nat.pow_le_pow_right (by omega) hlt.le
    exact h.past hpast (by omega)
  · exact h
  · have hpast := hends hgt hk hj
    have hpow : 2 ^ k ≤ 2 ^ j := Nat.pow_le_pow_right (by omega) hgt.le
    exact h.past (by omega) hpast

/-! ## The value of a latch -/

theorem mergeLoop_congr {i : Nat} {latch₁ latch₂ : Nat → Option (ShardResult St)}
    (h : ∀ j, i < j → j < n → latch₁ j = latch₂ j) (rounds mask : Nat) (tmp : ShardResult St) :
    mergeLoop n i latch₁ rounds mask tmp = mergeLoop n i latch₂ rounds mask tmp := by
  induction rounds generalizing mask tmp with
  | zero => rfl
  | succ rounds ih =>
    unfold mergeLoop
    dsimp only
    by_cases hpast : n ≤ i ||| mask
    · rw [if_pos hpast, if_pos hpast]
    · by_cases hlt : i < i ||| mask
      · rw [if_neg hpast, if_neg hpast, if_pos hlt, if_pos hlt, h _ hlt (by omega)]
        simp only [ih]
      · rw [if_neg hpast, if_neg hpast, if_neg hlt, if_neg hlt]

/-- A latch looks through the shards behind its own only. -/
theorem latch_depth {rs : List (ShardResult St)} {d d' i : Nat} (hi : i < rs.length)
    (hd : rs.length - i ≤ d) (hd' : rs.length - i ≤ d') : latch rs d i = latch rs d' i := by
  induction d generalizing d' i with
  | zero => omega
  | succ d ih =>
    cases d' with
    | zero => omega
    | succ d' =>
      have hloop : ∀ rounds mask tmp, mergeLoop rs.length i (latch rs d) rounds mask tmp =
          mergeLoop rs.length i (latch rs d') rounds mask tmp :=
        mergeLoop_congr fun j hij hj => ih hj (by omega) (by omega)
      unfold latch
      simp only [hloop]

/-- The value of a latch in terms of the others. -/
theorem latch_eq {rs : List (ShardResult St)} {i : Nat} (hi : i < rs.length) :
    latch rs rs.length i = (rs[i]?).bind fun r => (r.setShard i).bind fun r =>
      mergeLoop rs.length i (latch rs rs.length) 65 1 r := by
  rw [latch_depth hi (Nat.sub_le _ _) (show rs.length - i ≤ rs.length + 1 by omega), latch]

/-! ## The invariant -/

variable {rs : List (Result × List St)} {c : Conf (Latches St) (MergeLocal St)}

/-- The result of a shard is that of the latch, and combines the shards of the span. -/
structure MergeEnded (rs : List (Result × List St)) (i : Nat) (r : Merged St) : Prop where
  value : latch (ownResults rs) rs.length i = some r.value
  part : ∀ k, Span rs.length i k → Part rs.length i k r

/-- After `j` rounds of the loop. -/
structure Midway (rs : List (Result × List St)) (i mask : Nat) (tmp : Merged St) : Prop where
  rounds : ∃ j k, mask = 2 ^ j ∧ j ≤ k ∧ Span rs.length i k ∧ Part rs.length i j tmp ∧
    latch (ownResults rs) rs.length i =
      mergeLoop rs.length i (latch (ownResults rs) rs.length) (65 - j) mask tmp.value

theorem Midway.mask {i mask : Nat} (h : Midway rs i mask tmp) :
    ∃ j, mask = 2 ^ j ∧ i % 2 ^ j = 0 := by
  obtain ⟨j, k, hmask, hjk, hspan, _⟩ := h.rounds
  refine ⟨j, hmask, ?_⟩
  rw [← Nat.mod_mod_of_dvd _ (Nat.pow_dvd_pow 2 hjk), hspan.2.1, Nat.zero_mod]

def MergePc.Sound (rs : List (Result × List St)) (latches : Latches St) (i : Nat) :
    MergePc St → Prop
  | .running => latches[i]? = some none
  | .merging mask tmp => latches[i]? = some none ∧ Midway rs i mask tmp
  | .setValue tmp => latches[i]? = some none ∧ MergeEnded rs i tmp
  | .returned => ∃ r, latches[i]? = some (some r)
  | .threw | .failed => False

structure MergeInv (rs : List (Result × List St)) (c : Conf (Latches St) (MergeLocal St)) :
    Prop where
  length : c.shared.length = rs.length
  threads : c.locals.length = rs.length
  own : ∀ (i : Nat) (l : MergeLocal St), c.locals[i]? = some l →
    l.shardI = i ∧ rs[i]? = some l.own
  pc : ∀ (i : Nat) (l : MergeLocal St), c.locals[i]? = some l → l.pc.Sound rs c.shared i
  latch : ∀ (i : Nat) (r : Merged St), c.shared[i]? = some (some r) → MergeEnded rs i r

theorem mergeInv_initial (rs : List (Result × List St)) : MergeInv rs (mergeInitial rs) where
  length := List.length_replicate
  threads := List.length_mapIdx
  own i l hl := by
    rw [mergeInitial, List.getElem?_mapIdx] at hl
    obtain ⟨r, hr, rfl⟩ := Option.map_eq_some_iff.mp hl
    exact ⟨rfl, hr⟩
  pc i l hl := by
    rw [mergeInitial, List.getElem?_mapIdx] at hl
    obtain ⟨r, hr, rfl⟩ := Option.map_eq_some_iff.mp hl
    have hi : i < rs.length := (List.getElem?_eq_some_iff.mp hr).1
    exact List.getElem?_replicate_of_lt hi
  latch i r hr := by
    rw [mergeInitial, List.getElem?_replicate] at hr
    split at hr <;> cases hr

omit [DecidableEq St] in
theorem length_ownResults : (ownResults rs).length = rs.length := List.length_map _

/-- A thread that has set its mark is at the start of its loop. -/
theorem midway_begin (hn : rs.length ≤ 64) {i : Nat} {own : Result × List St}
    (hown : rs[i]? = some own) {r : ShardResult St}
    (hmark : (⟨own.1, 0, own.2⟩ : ShardResult St).setShard i = some r) :
    Midway rs i 1 ⟨r, [i]⟩ := by
  have hi : i < rs.length := (List.getElem?_eq_some_iff.mp hown).1
  obtain ⟨k, hspan⟩ := exists_span hn hi
  refine ⟨⟨0, k, rfl, Nat.zero_le k, hspan, part_own hi rfl hmark, ?_⟩⟩
  have hget : (ownResults rs)[i]? = some ⟨own.1, 0, own.2⟩ := by
    unfold ownResults
    rw [List.getElem?_map, hown]
    rfl
  have hlength : (ownResults rs).length = rs.length := length_ownResults
  have heq := latch_eq (show i < (ownResults rs).length by omega)
  rwa [hget, Option.bind_some, hmark, Option.bind_some, hlength] at heq

theorem or_of_clear {i j : Nat} (hmod : i % 2 ^ j = 0) (hclear : 2 ^ j &&& i = 0) :
    i ||| 2 ^ j = i + 2 ^ j := by
  rw [Nat.land_comm, Nat.and_two_pow] at hclear
  have hbit := (Nat.mul_eq_zero.mp hclear).resolve_right (Nat.two_pow_pos j).ne'
  refine (below_lowest_bit (k := j + 1) ?_ (Nat.lt_succ_self j)).2.1
  rw [Nat.mod_pow_succ, ← Nat.toNat_testBit, hmod, hbit, Nat.mul_zero]

theorem midway_combine {i mask : Nat} (h : Midway rs i mask tmp) (hclear : mask &&& i = 0)
    (hbelow : (i ||| mask) < rs.length) (hr : MergeEnded rs (i ||| mask) r) :
    Midway rs i (mask * 2 % 2 ^ 64) (tmp.combine r) := by
  obtain ⟨j, k, rfl, hjk, hspan, hpart, hvalue⟩ := h.rounds
  obtain ⟨hk, hmod, hstop⟩ := hspan
  -- the bit is clear and there is a shard with it, so the span goes on
  have hlt : j < k := by
    rcases Nat.lt_or_eq_of_le hjk with hlt | rfl
    · exact hlt
    · rcases hstop with hbit | hpast
      · exact absurd hclear (at_lowest_bit hbit)
      · rw [or_of_clear hmod hclear] at hbelow
        omega
  obtain ⟨_, hor, hlow⟩ := below_lowest_bit hmod hlt
  have hnext : 2 ^ j * 2 % 2 ^ 64 = 2 ^ (j + 1) := by
    rw [← Nat.pow_succ]
    exact Nat.mod_eq_of_lt (Nat.pow_lt_pow_right (by omega) (by omega))
  rw [hor] at hbelow hr
  have hother : Span rs.length (i + 2 ^ j) j := by
    refine ⟨by omega, ?_, .inl hlow⟩
    have hdvd : 2 ^ j ∣ 2 ^ (j + 1) := Nat.pow_dvd_pow 2 (by omega)
    rw [← Nat.mod_mod_of_dvd _ hdvd, hlow, Nat.mod_self]
  refine ⟨⟨j + 1, k, hnext, hlt, ⟨hk, hmod, hstop⟩, hpart.combine (hr.part j hother) hbelow, ?_⟩⟩
  rw [hvalue, show 65 - j = 65 - (j + 1) + 1 by omega, mergeLoop, if_pos hclear]
  have hpow : 0 < 2 ^ j := Nat.two_pow_pos j
  dsimp only
  rw [hor, if_neg (by omega), if_pos (by omega), hr.value, Option.bind_some]
  rfl

theorem ended_stop {i mask : Nat} (h : Midway rs i mask tmp)
    (hlast : mask &&& i ≠ 0 ∨ rs.length ≤ i ||| mask) : MergeEnded rs i tmp := by
  obtain ⟨j, k, rfl, hjk, hspan, hpart, hvalue⟩ := h.rounds
  have hk := hspan.1
  constructor
  · rw [hvalue, show 65 - j = 64 - j + 1 by omega, mergeLoop]
    split
    · rename_i hclear
      dsimp only
      rw [if_pos (hlast.resolve_left fun hne => hne hclear)]
    · rfl
  · -- the rounds made are a span of their own
    have hspan' : Span rs.length i j := by
      have hmod : i % 2 ^ j = 0 := by
        rw [← Nat.mod_mod_of_dvd _ (Nat.pow_dvd_pow 2 hjk), hspan.2.1, Nat.zero_mod]
      by_cases hclear : 2 ^ j &&& i = 0
      · have hpast := hlast.resolve_left fun hne => hne hclear
        rw [or_of_clear hmod hclear] at hpast
        exact ⟨by omega, hmod, .inr hpast⟩
      · rcases Nat.lt_or_eq_of_le hjk with hlt | rfl
        · exact absurd (below_lowest_bit hspan.2.1 hlt).1 hclear
        · exact hspan
    exact fun k' hk' => hpart.of_span hspan' hk'

theorem MergeInv.step (hn : rs.length ≤ 64) {c' : Conf (Latches St) (MergeLocal St)}
    (h : MergeInv rs c) {i : Nat} {a : Unit}
    (hf : (mergeMachine rs.length).fire i a c = some c') : MergeInv rs c' := by
  obtain ⟨l, latches', l', hl, _, hstep, rfl⟩ := Machine.fire_cases hf
  obtain ⟨rfl, hown⟩ := h.own i l hl
  have hpc := h.pc _ l hl
  have hi : l.shardI < rs.length := (List.getElem?_eq_some_iff.mp hown).1
  -- a step that sets no latch
  have hkeep : ∀ pc : MergePc St, pc.Sound rs c.shared l.shardI →
      MergeInv rs ⟨c.shared, c.locals.set l.shardI { l with pc := pc }⟩ := by
    intro pc hsound
    refine ⟨h.length, by rw [List.length_set]; exact h.threads, ?_, ?_, h.latch⟩
    · intro j k hk
      rcases set_cases hk with ⟨rfl, rfl⟩ | ⟨_, hk⟩
      · exact ⟨rfl, hown⟩
      · exact h.own j k hk
    · intro j k hk
      rcases set_cases hk with ⟨rfl, rfl⟩ | ⟨_, hk⟩
      · exact hsound
      · exact h.pc j k hk
  cases mergeStep_trans hstep with
  | begin r at_ mark =>
    rw [at_] at hpc
    exact hkeep (.merging 1 ⟨r, [l.shardI]⟩) ⟨hpc, midway_begin hn hown mark⟩
  | throw at_ outside => omega
  | combine mask tmp r at_ clear below latch =>
    rw [at_] at hpc
    exact hkeep (.merging _ _) ⟨hpc.1, midway_combine hpc.2 clear below (h.latch _ r latch)⟩
  | stop mask tmp at_ last =>
    rw [at_] at hpc
    exact hkeep (.setValue tmp) ⟨hpc.1, ended_stop hpc.2 last⟩
  | misplaced mask tmp at_ clear below outside =>
    rw [at_] at hpc
    obtain ⟨j, rfl, hmod⟩ := hpc.2.mask
    have hpow : 0 < 2 ^ j := Nat.two_pow_pos j
    rw [or_of_clear hmod clear, h.length] at outside
    rw [or_of_clear hmod clear] at below
    omega
  | set tmp at_ unset =>
    rw [at_] at hpc
    have hlen : l.shardI < c.shared.length := by rw [h.length]; exact hi
    refine ⟨by rw [List.length_set]; exact h.length, by rw [List.length_set]; exact h.threads,
      ?_, ?_, ?_⟩
    · intro j k hk
      rcases set_cases hk with ⟨rfl, rfl⟩ | ⟨_, hk⟩
      · exact ⟨rfl, hown⟩
      · exact h.own j k hk
    · intro j k hk
      rcases set_cases hk with ⟨rfl, rfl⟩ | ⟨hne, hk⟩
      · exact ⟨tmp, List.getElem?_set_self hlen⟩
      · have hother := h.pc j k hk
        unfold MergePc.Sound at hother ⊢
        rwa [List.getElem?_set_ne (Ne.symm hne)]
    · intro j r hr
      rcases set_cases hr with ⟨rfl, heq⟩ | ⟨_, hr⟩
      · cases heq
        exact hpc.2
      · exact h.latch j r hr
  | twice tmp at_ already =>
    rw [at_] at hpc
    rw [hpc.1] at already
    exact absurd rfl already

theorem mergeInv_reachable (hn : rs.length ≤ 64)
    (h : (mergeMachine rs.length).Reachable (mergeInitial rs) c) : MergeInv rs c :=
  Machine.invariant (fun _ _ _ _ hc hf => hc.step hn hf) (mergeInv_initial rs) h

/-! ## Waiting -/

section Waiting

variable {c : Conf (Latches St) (MergeLocal St)}

/-- A thread waits for a larger index. -/
theorem MergeInv.waitsFor_lt (h : MergeInv rs c) {i j : Nat} (hw : WaitsFor rs.length c i j) :
    i < j := by
  obtain ⟨l, mask, tmp, hl, hat, hclear, rfl, _, _⟩ := hw
  have hpc := h.pc i l hl
  rw [hat] at hpc
  obtain ⟨j, rfl, hmod⟩ := hpc.2.mask
  rw [or_of_clear hmod hclear]
  exact Nat.lt_add_of_pos_right (Nat.two_pow_pos j)

theorem MergeInv.acyclic (h : MergeInv rs c) (i : Nat) :
    ¬Relation.TransGen (WaitsFor rs.length c) i i := by
  intro hcycle
  have hlt : ∀ j, Relation.TransGen (WaitsFor rs.length c) i j → i < j := by
    intro j hj
    induction hj with
    | single hw => exact h.waitsFor_lt hw
    | tail _ hw ih => exact ih.trans (h.waitsFor_lt hw)
  exact absurd (hlt i hcycle) (Nat.lt_irrefl i)

/-- A thread that cannot step, where the threads behind it have returned, has returned. -/
theorem MergeInv.returned (h : MergeInv rs c) {i : Nat} {l : MergeLocal St}
    (hl : c.locals[i]? = some l) (hstuck : mergeStep rs.length c.shared l = none)
    (hbehind : ∀ (j : Nat) (k : MergeLocal St), i < j → c.locals[j]? = some k →
      k.pc = .returned) : l.pc = .returned := by
  obtain ⟨hid, hown⟩ := h.own i l hl
  have hpc := h.pc i l hl
  unfold mergeStep at hstuck
  cases hat : l.pc with
  | running =>
    rw [hat] at hstuck
    dsimp only at hstuck
    split at hstuck <;> cases hstuck
  | merging mask tmp =>
    rw [hat] at hpc hstuck
    dsimp only at hstuck
    rw [Option.map_eq_none_iff, hid] at hstuck
    obtain ⟨j, rfl, hmod⟩ := hpc.2.mask
    have hpow : 0 < 2 ^ j := Nat.two_pow_pos j
    unfold mergeNext at hstuck
    dsimp only at hstuck
    split at hstuck
    · rename_i hclear
      rw [or_of_clear hmod hclear] at hstuck
      split at hstuck
      · cases hstuck
      · rename_i hbelow
        rw [h.length, if_pos (by omega), Option.map_eq_none_iff] at hstuck
        -- the thread that it waits for has returned
        have hlt : i + 2 ^ j < c.locals.length := by rw [h.threads]; omega
        have hk := List.getElem?_eq_getElem hlt
        have hret := hbehind _ _ (by omega) hk
        have hsound := h.pc _ _ hk
        rw [hret] at hsound
        obtain ⟨r, hr⟩ := hsound
        rw [hr] at hstuck
        cases hstuck
    · cases hstuck
  | setValue tmp =>
    rw [hat] at hstuck
    dsimp only at hstuck
    split at hstuck <;> cases hstuck
  | returned => rfl
  | threw =>
    rw [hat] at hpc
    exact hpc.elim
  | failed =>
    rw [hat] at hpc
    exact hpc.elim

/-- Some thread can go on until all have returned. -/
theorem MergeInv.progress (h : MergeInv rs c) (hc : ¬AllReturned c) :
    ∃ i c', (mergeMachine rs.length).fire i () c = some c' := by
  by_contra hnone
  refine hc ?_
  -- from the last thread to the first
  have hall : ∀ d i (l : MergeLocal St), rs.length - i = d → c.locals[i]? = some l →
      l.pc = .returned := by
    intro d
    induction d using Nat.strong_induction_on with
    | _ d ih =>
      intro i l hd hl
      have hi : i < rs.length := by
        rw [← h.threads]
        exact (List.getElem?_eq_some_iff.mp hl).1
      refine h.returned hl ?_ fun j k hij hk => ?_
      · cases hstep : mergeStep rs.length c.shared l with
        | none => rfl
        | some r =>
          refine absurd ⟨i, ⟨r.1, c.locals.set i r.2⟩, ?_⟩ hnone
          unfold Machine.fire
          rw [hl]
          show Option.map _ (mergeStep rs.length c.shared l) = _
          rw [hstep]
          rfl
      · have hj : j < rs.length := by
          rw [← h.threads]
          exact (List.getElem?_eq_some_iff.mp hk).1
        exact ih (rs.length - j) (by omega) j k rfl hk
  intro l hl
  obtain ⟨i, hi⟩ := List.mem_iff_getElem?.mp hl
  exact hall _ i l rfl hi

end Waiting

/-! ## Termination -/

/-- The steps that a thread has left, at most. -/
def MergePc.left : MergePc St → Nat
  | .running => 67
  | .merging mask _ => 66 - Nat.log2 mask
  | .setValue _ => 1
  | .returned | .threw | .failed => 0

def MergeLocal.left (l : MergeLocal St) : Nat := l.pc.left

theorem Midway.left {i mask : Nat} (h : Midway rs i mask tmp) :
    ∃ j, mask = 2 ^ j ∧ j < 64 ∧ (MergePc.merging mask tmp).left = 66 - j := by
  obtain ⟨j, k, rfl, hjk, hspan, _⟩ := h.rounds
  refine ⟨j, rfl, lt_of_le_of_lt hjk hspan.1, ?_⟩
  show 66 - Nat.log2 (2 ^ j) = 66 - j
  rw [Nat.log2_two_pow]

theorem Midway.left_combine {i mask : Nat} {tmp' : Merged St} (h : Midway rs i mask tmp)
    (h' : Midway rs i (mask * 2 % 2 ^ 64) tmp') :
    (MergePc.merging (mask * 2 % 2 ^ 64) tmp').left < (MergePc.merging mask tmp).left := by
  obtain ⟨j, rfl, hj, hleft⟩ := h.left
  obtain ⟨j', hmask', hj', hleft'⟩ := h'.left
  have hpow' : 0 < 2 ^ j' := Nat.two_pow_pos j'
  rw [← Nat.pow_succ] at hmask'
  have hlt : j + 1 < 64 := by
    by_contra hge
    rw [show j.succ = 64 by omega, Nat.mod_self] at hmask'
    omega
  rw [Nat.mod_eq_of_lt (Nat.pow_lt_pow_right (by omega) hlt)] at hmask'
  have hnext : j' = j + 1 := (Nat.pow_right_injective (le_refl 2) hmask').symm
  rw [hleft, hleft']
  omega

theorem MergeInv.left_lt (hn : rs.length ≤ 64) {c' : Conf (Latches St) (MergeLocal St)}
    (h : MergeInv rs c) {i : Nat} {a : Unit}
    (hf : (mergeMachine rs.length).fire i a c = some c') :
    total MergeLocal.left c'.locals < total MergeLocal.left c.locals := by
  have h' := h.step hn hf
  obtain ⟨l, latches', l', hl, _, hstep, rfl⟩ := Machine.fire_cases hf
  have htotal := total_set MergeLocal.left l' hl
  have hpc := h.pc i l hl
  have hi : i < c.locals.length := (List.getElem?_eq_some_iff.mp hl).1
  have hpc' := h'.pc i l' (List.getElem?_set_self hi)
  suffices hlt : l'.left < l.left by
    show total MergeLocal.left (c.locals.set i l') < _
    omega
  unfold MergeLocal.left
  cases mergeStep_trans hstep with
  | begin r at_ mark =>
    rw [at_]
    show 66 - Nat.log2 (2 ^ 0) < 67
    rw [Nat.log2_two_pow]
    omega
  | combine mask tmp r at_ clear below latch =>
    rw [at_] at hpc ⊢
    exact hpc.2.left_combine hpc'.2
  | stop mask tmp at_ last =>
    rw [at_] at hpc ⊢
    obtain ⟨j, _, hj, hleft⟩ := hpc.2.left
    rw [hleft]
    show 1 < 66 - j
    omega
  | set tmp at_ unset =>
    rw [at_]
    exact Nat.one_pos
  | throw at_ outside => exact hpc'.elim
  | misplaced mask tmp at_ clear below outside => exact hpc'.elim
  | twice tmp at_ already => exact hpc'.elim

theorem ends_of_le (hn : rs.length ≤ 64) {sched : List (Nat × Unit)}
    (h : (mergeMachine rs.length).run sched (mergeInitial rs) = some c) :
    sched.length ≤ 67 * rs.length := by
  have hstart : total MergeLocal.left (mergeInitial rs).locals = 67 * rs.length := by
    have hall : (mergeInitial rs).locals.map MergeLocal.left = List.replicate rs.length 67 := by
      refine List.eq_replicate_iff.mpr ⟨by simp [mergeInitial], fun k hk => ?_⟩
      obtain ⟨l, hl, rfl⟩ := List.mem_map.mp hk
      obtain ⟨i, hi, rfl⟩ := List.mem_mapIdx.mp hl
      rfl
    unfold total
    rw [hall, List.sum_replicate, smul_eq_mul, Nat.mul_comm]
  have hinit : MergeInv rs (mergeInitial rs) ∧ ([] : List (Nat × Unit)).length +
      total MergeLocal.left (mergeInitial rs).locals ≤ 67 * rs.length :=
    ⟨mergeInv_initial rs, by rw [hstart, List.length_nil]; omega⟩
  have hrun := Machine.history_runWhere (m := mergeMachine rs.length)
    (I := fun past c => MergeInv rs c ∧
      past.length + total MergeLocal.left c.locals ≤ 67 * rs.length)
    (fun past c i a c' hc _ hf => by
      have hlt := hc.1.left_lt hn hf
      have hle := hc.2
      refine ⟨hc.1.step hn hf, ?_⟩
      rw [List.length_append, List.length_singleton]
      omega) hinit h
  have hle := hrun.2
  rw [List.nil_append] at hle
  omega

/-! ## The result -/

theorem all_set_of_returned (h : MergeInv rs c) (hall : AllReturned c) {i : Nat}
    (hi : i < rs.length) :
    ∃ r, c.shared[i]? = some (some r) ∧ MergeEnded rs i r := by
  have hget := List.getElem?_eq_getElem (show i < c.locals.length by rw [h.threads]; exact hi)
  have hsound := h.pc i _ hget
  rw [hall _ (List.mem_of_getElem? hget)] at hsound
  obtain ⟨r, hr⟩ := hsound
  exact ⟨r, hr, h.latch i r hr⟩

theorem final_of_returned (hpos : 0 < rs.length) (hn : rs.length ≤ 64)
    (hnodup : ∀ r ∈ rs, r.2.Nodup) (h : MergeInv rs c) (hall : AllReturned c) :
    ∃ r, c.shared[0]? = some (some ⟨r, List.range rs.length⟩) ∧ Covers (ownResults rs) r ∧
      merge (ownResults rs) = some ({ r.result with stateCount := r.visited.length }, r.visited) ∧
      ∀ i, r.shards.getLsbD i = true ↔ i < rs.length := by
  have hlength : (ownResults rs).length = rs.length := length_ownResults
  obtain ⟨r, hr, hvalue, hpart⟩ := all_set_of_returned h hall hpos
  have hspan : Span rs.length 0 6 := ⟨by omega, rfl, .inr (by omega)⟩
  obtain ⟨hsources, hshards⟩ := hpart 6 hspan
  have hsources' : r.sources = List.range rs.length := by
    rw [hsources, Nat.min_eq_right (by omega), Nat.sub_zero, List.range_eq_range']
  have hown : ∀ s ∈ ownResults rs, s.visited.Nodup := by
    intro s hs
    obtain ⟨r, hr, rfl⟩ := List.mem_map.mp hs
    exact hnodup r hr
  obtain ⟨r', hr', hcovers⟩ := latch_covers (k := 6) (by omega) hown rs.length
    (show 0 < (ownResults rs).length by omega) (by omega) (by rw [hlength]; exact hspan)
  rw [hvalue] at hr'
  obtain rfl : r.value = r' := Option.some.inj hr'
  have hslice : slice (ownResults rs) 0 (0 + 2 ^ 6) = ownResults rs := by
    unfold slice
    rw [List.take_of_length_le (by omega), List.drop_zero]
  rw [hslice] at hcovers
  refine ⟨r.value, ?_, hcovers, ?_, fun i => ?_⟩
  · rw [hr, ← hsources']
  · unfold merge
    rw [hlength, if_pos, hvalue]
    · rfl
    · refine List.all_eq_true.mpr fun i hi => ?_
      obtain ⟨_, _, hended⟩ := all_set_of_returned h hall (List.mem_range.mp hi)
      rw [hended.value]
      rfl
  · rw [hshards, decide_eq_true_eq]
    omega

theorem reduces_of_le (hone : 2 ≤ rs.length) (hn : rs.length ≤ 64)
    (hnodup : ∀ r ∈ rs, r.2.Nodup) : Reduces rs where
  inRange c hc l hl := by
    obtain ⟨i, hi⟩ := List.mem_iff_getElem?.mp hl
    have hsound := (mergeInv_reachable hn hc).pc i l hi
    constructor <;> intro hpc <;> rw [hpc] at hsound <;> exact hsound
  acyclic c hc := (mergeInv_reachable hn hc).acyclic
  progress c hc := (mergeInv_reachable hn hc).progress
  ends sched c := ends_of_le hn
  covered c hc hall := by
    obtain ⟨r, hr, hcovers, hmerge, _⟩ :=
      final_of_returned (by omega) hn hnodup (mergeInv_reachable hn hc) hall
    exact ⟨r, hr, hcovers, hmerge⟩
  shards c hc hall := by
    obtain ⟨r, hr, _, _, hshards⟩ :=
      final_of_returned (by omega) hn hnodup (mergeInv_reachable hn hc) hall
    refine ⟨r.shards, ?_, hshards⟩
    unfold resultShards
    rw [if_neg (by omega), hr]
    rfl

/-- With more shards, that of shard 64 throws when it marks its result. -/
theorem throws_of_gt (hn : 64 < rs.length) :
    ∃ c, (mergeMachine rs.length).Reachable (mergeInitial rs) c ∧
      ∃ l ∈ c.locals, l.shardI = 64 ∧ l.pc = .threw := by
  have hl : (mergeInitial rs).locals[64]? = some { shardI := 64, own := rs[64] } := by
    rw [mergeInitial, List.getElem?_mapIdx, List.getElem?_eq_getElem hn]
    rfl
  have hf : (mergeMachine rs.length).fire 64 () (mergeInitial rs) =
      some ⟨(mergeInitial rs).shared, (mergeInitial rs).locals.set 64
        { shardI := 64, own := rs[64], pc := .threw }⟩ := by
    unfold Machine.fire
    rw [hl]
    rfl
  have hlen := (List.getElem?_eq_some_iff.mp hl).1
  exact ⟨_, Machine.Reachable.step ⟨[], rfl⟩ hf, _, List.mem_set hlen _, rfl, rfl⟩

/-- One shard has no bit set. -/
theorem not_reduces_of_one (hone : rs.length = 1) : ¬Reduces rs := by
  intro h
  obtain ⟨r, rfl⟩ := List.length_eq_one_iff.mp hone
  -- the thread marks its result, finds no other shard and sets its latch
  let own : MergeLocal St := { shardI := 0, own := r }
  let marked : Merged St := ⟨⟨r.1, 0 ||| 1#64 <<< 0, r.2⟩, [0]⟩
  have hfirst : (mergeMachine 1).fire 0 () (mergeInitial [r]) =
      some ⟨[none], [{ own with pc := .merging 1 marked }]⟩ := rfl
  have hsecond : (mergeMachine 1).fire 0 () ⟨[none], [{ own with pc := .merging 1 marked }]⟩ =
      some ⟨[none], [{ own with pc := .setValue marked }]⟩ := by
    have hnext : mergeNext 1 [none] 0 1 marked = some (.setValue marked) := by
      unfold mergeNext
      rw [if_pos (by decide)]
      exact if_pos (by decide)
    have hstep : mergeStep 1 [none] { own with pc := .merging 1 marked } =
        some ([none], { own with pc := .setValue marked }) := by
      unfold mergeStep
      dsimp only
      rw [hnext]
      rfl
    show Option.map _ (mergeStep 1 [none] { own with pc := .merging 1 marked }) = _
    rw [hstep]
    rfl
  have hthird : (mergeMachine 1).fire 0 () ⟨[none], [{ own with pc := .setValue marked }]⟩ =
      some ⟨[some marked], [{ own with pc := .returned }]⟩ := rfl
  have hreach := ((Machine.Reachable.step ⟨[], rfl⟩ hfirst).step hsecond).step hthird
  obtain ⟨bits, hbits, hall⟩ := h.shards _ hreach fun l hl => by rw [List.mem_singleton.mp hl]
  cases hbits
  exact absurd ((hall 0).mpr Nat.one_pos) (by decide)

/-- **The reduction does what it is for with 2 to 64 shards.** -/
theorem reduces_iff (rs : List (Result × List St)) (hpos : 1 ≤ rs.length)
    (hnodup : ∀ r ∈ rs, r.2.Nodup) : Reduces rs ↔ 2 ≤ rs.length ∧ rs.length ≤ 64 := by
  constructor
  · intro h
    constructor
    · by_contra hlt
      exact not_reduces_of_one (by omega) h
    · by_contra hgt
      obtain ⟨c, hc, l, hl, _, hpc⟩ := throws_of_gt (show 64 < rs.length by omega)
      exact (h.inRange c hc l hl).1 hpc
  · rintro ⟨hone, hn⟩
    exact reduces_of_le hone hn hnodup

theorem reduces_iff_three :
    Reduces [(({ ok := true } : Result), [false]), ({ ok := true }, [true]), ({}, [])] ∧
      ¬Reduces [(({ ok := true } : Result), [false])] :=
  ⟨(reduces_iff _ (by decide) (by decide)).mpr (by decide),
    fun h => absurd ((reduces_iff _ (by decide) (by decide)).mp h) (by decide)⟩

/-- The shard behind the 64th has no bit: its latch is never set. -/
theorem sixty_five_shards_throw :
    ∃ (rs : List (Result × List Bool)) (c : Conf (Latches Bool) (MergeLocal Bool)),
      rs.length = 65 ∧ (mergeMachine rs.length).Reachable (mergeInitial rs) c ∧
      (∃ l ∈ c.locals, l.shardI = 64 ∧ l.pc = .threw) ∧ merge (ownResults rs) = none := by
  have hlen : (List.replicate 65 (({} : Result), ([] : List Bool))).length = 65 :=
    List.length_replicate
  obtain ⟨c, hc, hthrew⟩ := throws_of_gt (show 64 < _ by rw [hlen]; omega)
  exact ⟨_, c, hlen, hc, hthrew, merge_none (by rw [length_ownResults, hlen]; omega)⟩

end Batt.Checker
