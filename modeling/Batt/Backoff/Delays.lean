/-
  How long `with_retry_policy` sleeps.

  `ideal` are the delays of the policy over unbounded numbers: the first is the initial delay, and
  each further one is the one before times the factor over the divisor, up to the maximum. They
  never fall (`ideal_le_succ`). The source forms the product in 64 bits, before the maximum is
  applied, takes the first delay as it is, and sleeps for a signed count. So the delays are those
  of the policy as long as the first is within the maximum, every product fits, or leaves enough
  behind when it wraps that the maximum hides it (`Holds`), and every delay is below `2 ^ 63`. Main
  result: this is exactly when they are (`backs_iff`).
-/
import Batt.Backoff.Retries

namespace Batt.Backoff

variable {R : Type} {policy : ExponentialBackoff} {action : Action R} {p : Progress R}
  {delays : List UInt64} {k : Nat} {d : UInt64}

/-! ## The delays of a policy -/

def ideal (policy : ExponentialBackoff) : Nat → Nat
  | 0 => policy.initialDelayUsec.toNat
  | k + 1 =>
    min policy.maxDelayUsec.toNat
      (ideal policy k * policy.backoffFactor.toNat / policy.backoffDivisor.toNat)

/-- The product with the factor fits into 64 bits, or what is left of it exceeds the maximum. -/
def Holds (policy : ExponentialBackoff) (prev : Nat) : Prop :=
  prev * policy.backoffFactor.toNat < 2 ^ 64 ∨
    policy.maxDelayUsec.toNat ≤
      prev * policy.backoffFactor.toNat % 2 ^ 64 / policy.backoffDivisor.toNat

/-- The loop comes to sleep number `k`. -/
def Sleeps (policy : ExponentialBackoff) (action : Action R) (k : Nat) : Prop :=
  k < policy.maxAttempts.toNat ∧ ∀ i ≤ k, action.fails i = true

def sleeps (trace : List Event) : List Int :=
  trace.filterMap fun
    | .call => none
    | .sleep duration => some duration.toInt

/-- The delays are those of the policy. -/
structure Backs (policy : ExponentialBackoff) (delays : List Int) : Prop where
  first : ∀ d : Int, delays[0]? = some d → d = policy.initialDelayUsec.toNat
  bounded : ∀ d ∈ delays, d ≤ policy.maxDelayUsec.toNat
  sorted : delays.Pairwise (· ≤ ·)
  steps : ∀ k d d', delays[k]? = some d → delays[k + 1]? = some d' →
    d' = min (policy.maxDelayUsec.toNat : Int)
      (d * policy.backoffFactor.toNat / policy.backoffDivisor.toNat)

/-! ## Signed counts -/

theorem cast_ideal_succ (policy : ExponentialBackoff) (k : Nat) :
    (ideal policy (k + 1) : Int) = min (policy.maxDelayUsec.toNat : Int)
      (ideal policy k * policy.backoffFactor.toNat / policy.backoffDivisor.toNat) := by
  rw [← Int.natCast_mul, ← Int.natCast_ediv, ideal]
  omega

theorem toInt_microseconds :
    (microseconds d).toInt = k ↔ d.toNat = k ∧ k < 2 ^ 63 := by
  have hlt := d.toNat_lt
  have hcount : (microseconds d).toInt = d.toBitVec.toInt := rfl
  rw [hcount, BitVec.toInt_eq_toNat_cond, UInt64.toNat_toBitVec]
  split <;> omega


/-! ## Products that wrap -/

/-- Below the maximum a wrapped product shows. -/
theorem min_wrap_iff {x d m : Nat} (hd : 0 < d) (hlt : d < 2 ^ 64) :
    min m (x % 2 ^ 64 / d) = min m (x / d) ↔ x < 2 ^ 64 ∨ m ≤ x % 2 ^ 64 / d := by
  constructor
  · intro h
    by_contra hno
    rw [not_or, Nat.not_lt, Nat.not_le] at hno
    obtain ⟨hwrap, hless⟩ := hno
    -- what is lost is a multiple of 2 ^ 64, more than one divisor
    have hlost : x % 2 ^ 64 + d ≤ x := by
      have hquot : 1 ≤ x / 2 ^ 64 := (Nat.one_le_div_iff (by decide)).mpr hwrap
      have := Nat.div_add_mod x (2 ^ 64)
      omega
    have hquot : x % 2 ^ 64 / d + 1 ≤ x / d := by
      rw [← Nat.add_div_right _ hd]
      exact Nat.div_le_div_right hlost
    omega
  · rintro (hfits | hmax)
    · rw [Nat.mod_eq_of_lt hfits]
    · have hle : x % 2 ^ 64 / d ≤ x / d := Nat.div_le_div_right (Nat.mod_le x _)
      rw [Nat.min_eq_left hmax, Nat.min_eq_left (Nat.le_trans hmax hle)]

theorem toNat_stdMin (a b : UInt64) : (stdMin a b).toNat = min a.toNat b.toNat := by
  unfold stdMin
  split
  · rename_i h
    exact (Nat.min_eq_right (Nat.le_of_lt (UInt64.lt_iff_toNat_lt.mp h))).symm
  · rename_i h
    exact (Nat.min_eq_left (Nat.not_lt.mp fun hlt => h (UInt64.lt_iff_toNat_lt.mpr hlt))).symm

theorem toNat_nextDelay {d' : UInt64} (h : nextDelay policy d = some d') :
    d'.toNat = min policy.maxDelayUsec.toNat
      (d.toNat * policy.backoffFactor.toNat % 2 ^ 64 / policy.backoffDivisor.toNat) := by
  unfold nextDelay at h
  split at h
  · cases h
  · cases h
    rw [toNat_stdMin, UInt64.toNat_div, UInt64.toNat_mul]

/-- What the source makes of a delay is what the policy makes of it, or a wrapped product. -/
theorem nextDelay_eq_iff (hdiv : 0 < policy.backoffDivisor) {d' : UInt64}
    (h : nextDelay policy d = some d') :
    d'.toNat = min policy.maxDelayUsec.toNat
      (d.toNat * policy.backoffFactor.toNat / policy.backoffDivisor.toNat) ↔
      Holds policy d.toNat := by
  rw [toNat_nextDelay h]
  exact min_wrap_iff (UInt64.lt_iff_toNat_lt.mp hdiv) policy.backoffDivisor.toNat_lt

theorem toNat_delayAt (hdiv : 0 < policy.backoffDivisor)
    (hholds : ∀ j < k, Holds policy (ideal policy j)) (h : delayAt policy k = some d) :
    d.toNat = ideal policy k := by
  induction k generalizing d with
  | zero =>
    cases h
    rfl
  | succ k ih =>
    obtain ⟨prev, hprev, hnext⟩ := Option.bind_eq_some_iff.mp h
    have hprev := ih (fun j hj => hholds j (by omega)) hprev
    rw [ideal, ← hprev]
    refine (nextDelay_eq_iff hdiv hnext).mpr ?_
    rw [hprev]
    exact hholds k (Nat.lt_succ_self k)

/-! ## The delays never fall -/

theorem ideal_le_max (h : policy.initialDelayUsec ≤ policy.maxDelayUsec) (k : Nat) :
    ideal policy k ≤ policy.maxDelayUsec.toNat := by
  cases k with
  | zero => exact UInt64.le_iff_toNat_le.mp h
  | succ k => exact Nat.min_le_left _ _

theorem ideal_le_succ (hdiv : 0 < policy.backoffDivisor)
    (hfactor : policy.backoffDivisor ≤ policy.backoffFactor)
    (h : policy.initialDelayUsec ≤ policy.maxDelayUsec) (k : Nat) :
    ideal policy k ≤ ideal policy (k + 1) := by
  refine Nat.le_min.mpr ⟨ideal_le_max h k, ?_⟩
  rw [Nat.le_div_iff_mul_le (UInt64.lt_iff_toNat_lt.mp hdiv)]
  exact Nat.mul_le_mul_left _ (UInt64.le_iff_toNat_le.mp hfactor)

theorem ideal_mono (hdiv : 0 < policy.backoffDivisor)
    (hfactor : policy.backoffDivisor ≤ policy.backoffFactor)
    (h : policy.initialDelayUsec ≤ policy.maxDelayUsec) {j : Nat} (hle : j ≤ k) :
    ideal policy j ≤ ideal policy k := by
  induction hle with
  | refl => exact Nat.le_refl _
  | step _ ih => exact Nat.le_trans ih (ideal_le_succ hdiv hfactor h _)

/-! ## The sleeps of a loop -/

theorem sleeps_append (xs ys : List Event) : sleeps (xs ++ ys) = sleeps xs ++ sleeps ys :=
  List.filterMap_append

/-- The counts the loop sleeps for. -/
def counts (delays : List UInt64) : List Int := delays.map fun d => (microseconds d).toInt

theorem sleeps_pauses (delays : List UInt64) : sleeps (pauses delays) = counts delays := by
  induction delays with
  | nil => rfl
  | cons d delays ih =>
    show (microseconds d).toInt :: sleeps (pauses delays) = _
    rw [ih]
    rfl

theorem getElem?_counts (h : delays[k]? = some d) :
    (counts delays)[k]? = some (microseconds d).toInt := by
  rw [counts, List.getElem?_map, h, Option.map_some]

/-- Every sleep is one that the loop comes to, for the delay that is due. -/
def Slept (policy : ExponentialBackoff) (action : Action R) (delays : List UInt64) : Prop :=
  ∀ k d, delays[k]? = some d → Sleeps policy action k ∧ delayAt policy k = some d

theorem turns_slept (hdiv : 0 < policy.backoffDivisor) (n : Nat) :
    ∃ p delays, turns policy action n = some p ∧ sleeps p.trace = counts delays ∧
      Slept policy action delays ∧
      (p.returned = none → (∀ i < n, action.fails i = true) ∧ n ≤ policy.maxAttempts.toNat ∧
        Going policy n delays p) := by
  have hne : policy.backoffDivisor ≠ 0 := fun h => by
    rw [h] at hdiv
    exact absurd hdiv (by decide)
  induction n with
  | zero =>
    exact ⟨{}, [], rfl, rfl, fun k d h => by simp at h, fun _ => ⟨by simp, by simp, going_start⟩⟩
  | succ n ih =>
    obtain ⟨p, delays, hp, hsleeps, hslept, hgoing⟩ := ih
    simp only [turns, hp, Option.bind_some]
    cases hr : p.returned with
    | some r =>
      exact ⟨p, delays, turn_returned (by rw [hr]; rfl), hsleeps, hslept,
        fun h => by rw [hr] at h; cases h⟩
    | none =>
      obtain ⟨hfails, hle, g⟩ := hgoing hr
      have hreturn : sleeps (p.return (action.result p.calls)).trace = counts delays := by
        rw [← hsleeps]
        show sleeps (p.trace ++ [.call]) = _
        rw [sleeps_append]
        exact List.append_nil _
      by_cases hf : action.fails n = true
      · by_cases hmax : n < policy.maxAttempts.toNat
        · obtain ⟨d, hd⟩ := delayAt_isSome (k := n) (.inl hne)
          obtain ⟨p', hp', g'⟩ := going_turn g hf hmax hd
          have hall : ∀ i < n + 1, action.fails i = true := by
            intro i hi
            rcases Nat.lt_succ_iff_lt_or_eq.mp hi with hi | rfl
            · exact hfails i hi
            · exact hf
          refine ⟨p', delays ++ [d], hp', by rw [g'.trace, sleeps_pauses], ?_,
            fun _ => ⟨hall, hmax, g'⟩⟩
          intro k d' hk
          have hlt : k < n + 1 := by
            have := (List.getElem?_eq_some_iff.mp hk).1
            rw [g'.length] at this
            exact this
          rw [g'.delays k hlt] at hk
          exact ⟨⟨by omega, fun i hi => hall i (by omega)⟩, hk⟩
        · have hgive : turn policy action p = some _ := turn_giveUp hr (by rw [g.calls]; exact hf)
            (by rw [UInt64.le_iff_toNat_le, g.attempts]; omega)
          exact ⟨_, delays, hgive, hreturn, hslept, fun h => by cases h⟩
      · have hstop : turn policy action p = some _ :=
          turn_stop hr (by rw [g.calls]; simpa using hf)
        exact ⟨_, delays, hstop, hreturn, hslept, fun h => by cases h⟩

/-! ## When the delays are those of the policy -/

/-- What has to hold for the sleeps that the loop comes to. -/
structure Fits (policy : ExponentialBackoff) (action : Action R) : Prop where
  first : Sleeps policy action 0 → policy.initialDelayUsec ≤ policy.maxDelayUsec
  product : ∀ k, Sleeps policy action (k + 1) → Holds policy (ideal policy k)
  signed : ∀ k, Sleeps policy action k → ideal policy k < 2 ^ 63

theorem toInt_sleep (hdiv : 0 < policy.backoffDivisor) (hfits : Fits policy action)
    (hslept : Slept policy action delays) {d : Int} (h : (counts delays)[k]? = some d) :
    Sleeps policy action k ∧ d = ideal policy k := by
  rw [counts, List.getElem?_map] at h
  obtain ⟨d, hk, rfl⟩ := Option.map_eq_some_iff.mp h
  obtain ⟨hs, hd⟩ := hslept k d hk
  have hproduct : ∀ j < k, Holds policy (ideal policy j) := fun j hj =>
    hfits.product j ⟨Nat.lt_of_le_of_lt hj hs.1, fun i hi => hs.2 i (Nat.le_trans hi hj)⟩
  exact ⟨hs, toInt_microseconds.mpr ⟨toNat_delayAt hdiv hproduct hd, hfits.signed k hs⟩⟩

theorem backs_of_slept (hdiv : 0 < policy.backoffDivisor)
    (hfactor : policy.backoffDivisor ≤ policy.backoffFactor) (hfits : Fits policy action)
    (hslept : Slept policy action delays) :
    Backs policy (counts delays) := by
  have hmax {k : Nat} (hs : Sleeps policy action k) :
      policy.initialDelayUsec ≤ policy.maxDelayUsec :=
    hfits.first ⟨Nat.lt_of_le_of_lt (Nat.zero_le k) hs.1,
      fun i hi => hs.2 i (Nat.le_trans hi (Nat.zero_le k))⟩
  constructor
  · exact fun d hd => (toInt_sleep hdiv hfits hslept hd).2
  · intro d hd
    obtain ⟨k, hk⟩ := List.mem_iff_getElem?.mp hd
    obtain ⟨hs, rfl⟩ := toInt_sleep hdiv hfits hslept hk
    exact Int.ofNat_le.mpr (ideal_le_max (hmax hs) k)
  · rw [List.pairwise_iff_getElem]
    intro j k hj hk hlt
    obtain ⟨hs, hj⟩ := toInt_sleep hdiv hfits hslept (List.getElem?_eq_getElem hj)
    obtain ⟨_, hk⟩ := toInt_sleep hdiv hfits hslept (List.getElem?_eq_getElem hk)
    rw [hj, hk]
    exact Int.ofNat_le.mpr (ideal_mono hdiv hfactor (hmax hs) (Nat.le_of_lt hlt))
  · intro k d d' hk hk'
    rw [(toInt_sleep hdiv hfits hslept hk).2, (toInt_sleep hdiv hfits hslept hk').2]
    exact cast_ideal_succ policy k

/-- A loop that comes to sleep number `k` sleeps there. -/
theorem turns_of_sleeps (hdiv : 0 < policy.backoffDivisor) (h : Sleeps policy action k) :
    ∃ p delays, turns policy action (k + 1) = some p ∧ Going policy (k + 1) delays p := by
  have hne : policy.backoffDivisor ≠ 0 := by
    intro h0
    rw [h0] at hdiv
    exact absurd hdiv (by decide)
  obtain ⟨delays, p, hp, g⟩ :=
    turns_going (fun i hi => h.2 i (Nat.le_of_lt_succ hi)) h.1 (.inl hne)
  exact ⟨p, delays, hp, g⟩

/-- Where the delays are those of the policy, they are the ideal ones. -/
theorem ideal_of_backs (hb : Backs policy (counts delays)) (h : delays[k]? = some d) :
    d.toNat = ideal policy k ∧ ideal policy k < 2 ^ 63 := by
  refine toInt_microseconds.mp ?_
  induction k generalizing d with
  | zero => exact hb.first _ (getElem?_counts h)
  | succ k ih =>
    have hk := List.getElem?_eq_getElem (Nat.lt_of_succ_lt (List.getElem?_eq_some_iff.mp h).1)
    rw [hb.steps k _ _ (getElem?_counts hk) (getElem?_counts h), ih hk]
    exact (cast_ideal_succ policy k).symm

/-- **The delays are those of the policy** if and only if the loop does not sleep at all or its
    first delay is within the maximum, the product for every further sleep it comes to fits into
    64 bits or wraps to one that still exceeds the maximum, and every delay is below `2 ^ 63`. -/
theorem backs_iff (policy : ExponentialBackoff) (action : Action R)
    (hdiv : 0 < policy.backoffDivisor) (hfactor : policy.backoffDivisor ≤ policy.backoffFactor) :
    (∀ n, ∃ p, turns policy action n = some p ∧ Backs policy (sleeps p.trace)) ↔
      Fits policy action := by
  constructor
  · intro hall
    have hbacks {k : Nat} (hs : Sleeps policy action k) : ∃ p delays,
        Going policy (k + 1) delays (p : Progress R) ∧ Backs policy (counts delays) := by
      obtain ⟨p, delays, hp, g⟩ := turns_of_sleeps hdiv hs
      obtain ⟨q, hq, hb⟩ := hall (k + 1)
      rw [hp] at hq
      cases hq
      rw [g.trace, sleeps_pauses] at hb
      exact ⟨p, delays, g, hb⟩
    refine ⟨fun hs => ?_, fun k hs => ?_, fun k hs => ?_⟩
    · obtain ⟨p, delays, g, hb⟩ := hbacks hs
      have hfirst := g.delays 0 Nat.one_pos
      have hle := hb.bounded _ (List.mem_of_getElem? (getElem?_counts hfirst))
      rw [hb.first _ (getElem?_counts hfirst)] at hle
      exact UInt64.le_iff_toNat_le.mpr (Int.ofNat_le.mp hle)
    · obtain ⟨p, delays, g, hb⟩ := hbacks hs
      have hlt : k + 1 < delays.length := by
        rw [g.length]
        omega
      have hk := List.getElem?_eq_getElem (Nat.lt_of_succ_lt hlt)
      have hk' := List.getElem?_eq_getElem hlt
      have hnext : nextDelay policy delays[k] = some delays[k + 1] := by
        have hd := g.delays (k + 1) (by omega)
        rw [hk', delayAt, ← g.delays k (by omega), hk, Option.bind_some] at hd
        exact hd.symm
      rw [← (ideal_of_backs hb hk).1]
      refine (nextDelay_eq_iff hdiv hnext).mp ?_
      rw [(ideal_of_backs hb hk).1, (ideal_of_backs hb hk').1]
      rfl
    · obtain ⟨p, delays, g, hb⟩ := hbacks hs
      have hlt : k < delays.length := by
        rw [g.length]
        omega
      exact (ideal_of_backs hb (List.getElem?_eq_getElem hlt)).2
  · intro hfits n
    obtain ⟨p, delays, hp, hsleeps, hslept, _⟩ := turns_slept hdiv n
    exact ⟨p, hp, by rw [hsleeps]; exact backs_of_slept hdiv hfactor hfits hslept⟩

/-- No product wraps where the maximum times the factor fits. -/
theorem holds_of_max (h : policy.initialDelayUsec ≤ policy.maxDelayUsec)
    (hfits : policy.maxDelayUsec.toNat * policy.backoffFactor.toNat < 2 ^ 64) (k : Nat) :
    Holds policy (ideal policy k) :=
  .inl (Nat.lt_of_le_of_lt (Nat.mul_le_mul_right _ (ideal_le_max h k)) hfits)

theorem backs_iff_defaults :
    withDefaultParams.backoffDivisor ≤ withDefaultParams.backoffFactor ∧
      ∀ n, ∃ p, turns withDefaultParams unavailable n = some p ∧
        Backs withDefaultParams (sleeps p.trace) :=
  ⟨by decide, (backs_iff withDefaultParams unavailable (by decide) (by decide)).mpr
    ⟨fun _ => by decide, fun k _ => holds_of_max (by decide) (by decide) k,
      fun k _ => Nat.lt_of_le_of_lt (ideal_le_max (by decide) k) (by decide)⟩⟩

/-- The delay is to double; the factor is a fixed-point number with 31 binary places. -/
def doubling : ExponentialBackoff where
  maxAttempts := 5
  initialDelayUsec := 2 ^ 33
  backoffFactor := 2 ^ 32
  backoffDivisor := 2 ^ 31
  maxDelayUsec := 2 ^ 40

/-- **The product wraps and the delay collapses**: two sleeps, the second for no time. -/
theorem doubling_collapses :
    (turns doubling unavailable 2).map (·.trace) =
        some [.call, .sleep (2 ^ 33), .call, .sleep 0] ∧
      ¬ ∀ n, ∃ p, turns doubling unavailable n = some p ∧ Backs doubling (sleeps p.trace) := by
  have hrun : (turns doubling unavailable 2).map (·.trace) =
      some [.call, .sleep (2 ^ 33), .call, .sleep 0] := by decide
  refine ⟨hrun, fun hall => ?_⟩
  obtain ⟨p, hp, hb⟩ := hall 2
  rw [hp, Option.map_some] at hrun
  have hsorted := hb.sorted
  rw [Option.some.inj hrun] at hsorted
  exact absurd hsorted (by decide)

end Batt.Backoff
