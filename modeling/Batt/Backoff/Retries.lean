/-
  How often `with_retry_policy` calls the action.

  As long as calls fail and may be retried, turn `n` makes call `n` and sleeps once
  (`going_turn`). The loop is meant to end at the first call that stops it: one whose result is OK
  or not retryable, or the one that has been retried `max_attempts` times, which with zero is
  none. `update_retry_state` compares before it looks at what zero means, so with zero it gives up
  at the first failure.
-/
import Mathlib.Data.Nat.Find
import Batt.Status
import Batt.Backoff.Model

namespace Batt.Backoff

variable {R : Type} {policy : ExponentialBackoff} {action : Action R} {p : Progress R} {n : Nat}
  {delays : List UInt64}

/-! ## What the loop is for -/

/-- Call `i` fails and may be retried. -/
def Action.fails (action : Action R) (i : Nat) : Bool :=
  !action.isOkStatus (action.result i) && action.retryable i

/-- Call `i` is the last one, if the loop gets there. -/
def Stops (policy : ExponentialBackoff) (action : Action R) (i : Nat) : Prop :=
  action.fails i = false ∨ (policy.maxAttempts ≠ 0 ∧ i = policy.maxAttempts.toNat)

instance : DecidablePred (Stops policy action) := fun _ => inferInstanceAs (Decidable (_ ∨ _))

/-- One call before each sleep. -/
def pauses (delays : List UInt64) : List Event :=
  delays.flatMap fun d => [.call, .sleep (microseconds d)]

structure Retries (policy : ExponentialBackoff) (action : Action R) : Prop where
  /-- The loop returns the result of the first call that stops it, and sleeps between calls. -/
  returns : ∀ i, (∀ j < i, ¬ Stops policy action j) → Stops policy action i →
    ∃ delays p n, delays.length = i ∧ turns policy action n = some p ∧
      p.returned = some (action.result i) ∧ p.trace = pauses delays ++ [.call]
  /-- Where no call stops it, it never gives up. -/
  goesOn : (∀ i, ¬ Stops policy action i) → ∀ n, ∃ delays p, delays.length = n ∧
    turns policy action n = some p ∧ p.returned = none ∧ p.trace = pauses delays

/-! ## One turn -/

theorem turn_returned (h : p.returned.isSome = true) : turn policy action p = some p := by
  unfold turn
  rw [if_pos h]

theorem turn_stop (hp : p.returned = none) (h : action.fails p.calls = false) :
    turn policy action p = some (p.return (action.result p.calls)) := by
  unfold turn
  rw [hp]
  by_cases hok : action.isOkStatus (action.result p.calls) = true
  · simp [hok]
  · have hretry : action.retryable p.calls = false := by
      simpa [Action.fails, hok] using h
    simp [hok, hretry]

theorem turn_fails (hp : p.returned = none) (h : action.fails p.calls = true) :
    turn policy action p = (updateRetryState p.state policy).map fun state =>
      if state.shouldRetry then
        { p with
          state := state
          calls := p.calls + 1
          trace := p.trace ++ [.call, .sleep (microseconds state.nextDelayUsec)] }
      else p.return (action.result p.calls) := by
  unfold Action.fails at h
  rw [Bool.and_eq_true, Bool.not_eq_true'] at h
  obtain ⟨hok, hretry⟩ := h
  unfold turn
  simp [hp, hok, hretry]

theorem turn_giveUp (hp : p.returned = none) (h : action.fails p.calls = true)
    (hmax : policy.maxAttempts ≤ p.state.nAttempts) :
    turn policy action p = some (p.return (action.result p.calls)) := by
  rw [turn_fails hp h, updateRetryState, if_pos hmax]
  rfl

/-! ## The turns that go on -/

/-- Delay number `k`, in the arithmetic of the source. -/
def delayAt (policy : ExponentialBackoff) : Nat → Option UInt64
  | 0 => some policy.initialDelayUsec
  | k + 1 => (delayAt policy k).bind (nextDelay policy)

theorem delayAt_isSome {k : Nat} (h : policy.backoffDivisor ≠ 0 ∨ k = 0) :
    ∃ d, delayAt policy k = some d := by
  induction k with
  | zero => exact ⟨_, rfl⟩
  | succ k ih =>
    have hdiv : policy.backoffDivisor ≠ 0 := h.resolve_right (Nat.succ_ne_zero k)
    obtain ⟨d, hd⟩ := ih (.inl hdiv)
    exact ⟨_, by rw [delayAt, hd, Option.bind_some, nextDelay, if_neg hdiv]⟩

/-- The loop has made `n` calls and has slept after each. -/
structure Going (policy : ExponentialBackoff) (n : Nat) (delays : List UInt64)
    (p : Progress R) : Prop where
  attempts : p.state.nAttempts.toNat = n
  calls : p.calls = n
  trace : p.trace = pauses delays
  returned : p.returned = none
  length : delays.length = n
  delays : ∀ k < n, delays[k]? = delayAt policy k
  last : 0 < n → delayAt policy (n - 1) = some p.state.nextDelayUsec

theorem going_start : Going policy 0 [] ({} : Progress R) where
  attempts := rfl
  calls := rfl
  trace := rfl
  returned := rfl
  length := rfl
  delays := by simp
  last := by simp

theorem updateRetryState_going (g : Going policy n delays p) (hmax : n < policy.maxAttempts.toNat) :
    updateRetryState p.state policy = (delayAt policy n).map fun next =>
      { shouldRetry := true
        nAttempts := p.state.nAttempts + 1
        prevDelayUsec := p.state.nextDelayUsec
        nextDelayUsec := next } := by
  have hattempts := g.attempts
  have hmax' : ¬ policy.maxAttempts ≤ p.state.nAttempts := by
    rw [UInt64.le_iff_toNat_le]
    omega
  unfold updateRetryState
  rw [if_neg hmax']
  cases n with
  | zero =>
    have hzero : p.state.nAttempts = 0 := UInt64.toNat_inj.mp hattempts
    rw [hzero]
    rfl
  | succ n =>
    have hfirst : ¬ p.state.nAttempts + 1 = 1 := by
      have hlt := policy.maxAttempts.toNat_lt
      rw [← UInt64.toNat_inj, UInt64.toNat_add]
      simp only [UInt64.toNat_one]
      omega
    have hlast : delayAt policy n = some p.state.nextDelayUsec := g.last (Nat.succ_pos n)
    simp only [if_neg hfirst]
    rw [delayAt, hlast, Option.bind_some]

/-- **One more call, and one more sleep.** -/
theorem going_turn {d : UInt64} (g : Going policy n delays p) (hfails : action.fails n = true)
    (hmax : n < policy.maxAttempts.toNat) (hd : delayAt policy n = some d) :
    ∃ p', turn policy action p = some p' ∧ Going policy (n + 1) (delays ++ [d]) p' := by
  have hcalls := g.calls
  rw [← hcalls] at hfails
  rw [turn_fails g.returned hfails, updateRetryState_going g hmax, hd]
  refine ⟨_, rfl, ?_, ?_, ?_, g.returned, ?_, ?_, ?_⟩
  · have hlt := policy.maxAttempts.toNat_lt
    have hattempts := g.attempts
    show (p.state.nAttempts + 1).toNat = n + 1
    rw [UInt64.toNat_add]
    simp only [UInt64.toNat_one]
    omega
  · exact congrArg (· + 1) hcalls
  · show p.trace ++ [.call, .sleep (microseconds d)] = pauses (delays ++ [d])
    rw [g.trace, pauses, pauses, List.flatMap_append, List.flatMap_singleton]
  · rw [List.length_append, g.length, List.length_singleton]
  · intro k hk
    rcases Nat.lt_succ_iff_lt_or_eq.mp hk with hk | rfl
    · rw [List.getElem?_append_left (by rw [g.length]; exact hk)]
      exact g.delays k hk
    · rw [← g.length, List.getElem?_concat_length, g.length, hd]
  · intro _
    exact hd

/-- **As long as calls fail, the loop goes on**, up to the maximum. -/
theorem turns_going (hfails : ∀ i < n, action.fails i = true) (hmax : n ≤ policy.maxAttempts.toNat)
    (hdiv : policy.backoffDivisor ≠ 0 ∨ n ≤ 1) :
    ∃ delays p, turns policy action n = some p ∧ Going policy n delays p := by
  induction n with
  | zero => exact ⟨_, _, rfl, going_start⟩
  | succ n ih =>
    obtain ⟨delays, p, hp, g⟩ := ih (fun i hi => hfails i (by omega)) (by omega)
      (hdiv.imp_right fun h => by omega)
    obtain ⟨d, hd⟩ : ∃ d, delayAt policy n = some d :=
      delayAt_isSome (hdiv.imp_right fun h => by omega)
    obtain ⟨p', hp', g'⟩ := going_turn g (hfails n (by omega)) (by omega) hd
    exact ⟨_, p', by rw [turns, hp, Option.bind_some, hp'], g'⟩

/-- A loop that has returned stays where it is. -/
theorem turns_returned {m : Nat} (hp : turns policy action n = some p)
    (hr : p.returned.isSome = true) (hle : n ≤ m) : turns policy action m = some p := by
  induction hle with
  | refl => exact hp
  | step _ ih => rw [turns, ih, Option.bind_some, turn_returned hr]

theorem turns_trapped {m : Nat} (hp : turns policy action n = none) (hle : n ≤ m) :
    turns policy action m = none := by
  induction hle with
  | refl => exact hp
  | step _ ih => rw [turns, ih, Option.bind_none]

/-! ## The last call -/

theorem Going.returns (g : Going policy n delays p) (hp : turns policy action n = some p)
    (hlast : turn policy action p = some (p.return (action.result p.calls))) :
    turns policy action (n + 1) = some (p.return (action.result n)) ∧
      (p.return (action.result n)).trace = pauses delays ++ [.call] := by
  rw [turns, hp, Option.bind_some, hlast, g.calls]
  exact ⟨rfl, congrArg (· ++ [Event.call]) g.trace⟩

/-- **The loop returns at the first call that stops it.** -/
theorem returns_at {i : Nat} (hbefore : ∀ j < i, ¬ Stops policy action j)
    (hstops : Stops policy action i) (hmax : policy.maxAttempts ≠ 0 ∨ action.fails 0 = false)
    (hdiv : policy.backoffDivisor ≠ 0 ∨ i ≤ 1) :
    ∃ delays p n, delays.length = i ∧ turns policy action n = some p ∧
      p.returned = some (action.result i) ∧ p.trace = pauses delays ++ [.call] := by
  have hfails : ∀ j < i, action.fails j = true := by
    intro j hj
    have h := hbefore j hj
    unfold Stops at h
    rw [not_or, Bool.not_eq_false] at h
    exact h.1
  have hle : i ≤ policy.maxAttempts.toNat := by
    rcases hmax with hmax | hzero
    · by_contra hlt
      exact hbefore policy.maxAttempts.toNat (by omega) (.inr ⟨hmax, rfl⟩)
    · cases i with
      | zero => exact Nat.zero_le _
      | succ i =>
        rw [hfails 0 (by omega)] at hzero
        cases hzero
  obtain ⟨delays, p, hp, g⟩ := turns_going hfails hle hdiv
  have hlast : turn policy action p = some (p.return (action.result p.calls)) := by
    by_cases hf : action.fails i = true
    · obtain ⟨_, hi⟩ : policy.maxAttempts ≠ 0 ∧ i = policy.maxAttempts.toNat :=
        hstops.resolve_left (by rw [hf]; simp)
      refine turn_giveUp g.returned (by rw [g.calls]; exact hf) ?_
      rw [UInt64.le_iff_toNat_le, g.attempts, hi]
    · exact turn_stop g.returned (by rw [g.calls]; simpa using hf)
  obtain ⟨hreturned, htrace⟩ := g.returns hp hlast
  exact ⟨delays, _, i + 1, g.length, hreturned, rfl, htrace⟩

/-- With no maximum the loop gives up at the first failure. -/
theorem turns_of_no_maximum (hmax : policy.maxAttempts = 0) (hfails : action.fails 0 = true)
    (hn : 0 < n) :
    turns policy action n = some (({} : Progress R).return (action.result 0)) := by
  refine turns_returned (n := 1) ?_ rfl hn
  exact turn_giveUp (p := {}) rfl hfails (by rw [hmax]; exact UInt64.le_refl 0)

/-- The second retry divides. -/
theorem turns_of_no_divisor (hdiv : policy.backoffDivisor = 0)
    (hmax : 1 < policy.maxAttempts.toNat) (h0 : action.fails 0 = true)
    (h1 : action.fails 1 = true) (hn : 1 < n) : turns policy action n = none := by
  refine turns_trapped (n := 2) ?_ hn
  have hfails : ∀ i < 1, action.fails i = true := by
    intro i hi
    rw [Nat.lt_one_iff.mp hi]
    exact h0
  have hle : 1 ≤ policy.maxAttempts.toNat := by omega
  obtain ⟨delays, p, hp, g⟩ := turns_going hfails hle (.inr (Nat.le_refl 1))
  rw [turns, hp, Option.bind_some, turn_fails g.returned (by rw [g.calls]; exact h1),
    updateRetryState_going g hmax]
  have hnone : delayAt policy 1 = none := by
    rw [delayAt, delayAt, Option.bind_some, nextDelay, if_pos hdiv]
  rw [hnone]
  rfl

theorem exists_first_stop (h : ∃ i, Stops policy action i) :
    ∃ i, (∀ j < i, ¬ Stops policy action j) ∧ Stops policy action i :=
  ⟨Nat.find h, fun _ hj => Nat.find_min h hj, Nat.find_spec h⟩

/-! ## When the loop does what it is for -/

theorem not_retries_of_no_maximum (hmax : policy.maxAttempts = 0) (hfails : action.fails 0 = true) :
    ¬ Retries policy action := by
  intro h
  have hall {n : Nat} (hn : 0 < n) := turns_of_no_maximum hmax hfails hn
  by_cases hstop : ∃ i, Stops policy action i
  · obtain ⟨i, hbefore, hi⟩ := exists_first_stop hstop
    obtain ⟨delays, p, n, hlen, hp, hreturned, htrace⟩ := h.returns i hbefore hi
    have hfirst : i ≠ 0 := by
      rintro rfl
      rcases hi with hi | ⟨hi, _⟩
      · rw [hfails] at hi
        cases hi
      · exact hi hmax
    cases n with
    | zero =>
      cases hp
      cases hreturned
    | succ n =>
      -- the loop has returned after one call, and so has slept no time
      rw [hall (Nat.succ_pos n)] at hp
      cases hp
      cases delays with
      | nil => exact hfirst hlen.symm
      | cons d delays => simp [Progress.return, pauses] at htrace
  · obtain ⟨delays, p, _, hp, hreturned, _⟩ := h.goesOn (fun i hi => hstop ⟨i, hi⟩) 1
    rw [hall Nat.one_pos] at hp
    cases hp
    cases hreturned

theorem not_retries_of_no_divisor (hdiv : policy.backoffDivisor = 0)
    (hmax : 1 < policy.maxAttempts.toNat) (h0 : action.fails 0 = true)
    (h1 : action.fails 1 = true) : ¬ Retries policy action := by
  intro h
  have hne : policy.maxAttempts ≠ 0 := by
    intro hzero
    rw [hzero] at hmax
    cases hmax
  obtain ⟨i, hbefore, hi⟩ := exists_first_stop ⟨_, Or.inr ⟨hne, rfl⟩⟩
  obtain ⟨delays, p, n, _, hp, hreturned, _⟩ := h.returns i hbefore hi
  by_cases hn : 1 < n
  · rw [turns_of_no_divisor hdiv hmax h0 h1 hn] at hp
    cases hp
  · have hfails : ∀ i < n, action.fails i = true := by
      intro i hi
      obtain rfl : i = 0 := by omega
      exact h0
    have hle : n ≤ policy.maxAttempts.toNat := by omega
    obtain ⟨delays', p', hp', g⟩ := turns_going hfails hle (.inr (Nat.not_lt.mp hn))
    rw [hp'] at hp
    cases hp
    rw [g.returned] at hreturned
    cases hreturned

theorem retries_of (hmax : policy.maxAttempts ≠ 0 ∨ action.fails 0 = false)
    (hdiv : policy.backoffDivisor ≠ 0 ∨ policy.maxAttempts.toNat ≤ 1 ∨ action.fails 0 = false ∨
      action.fails 1 = false) : Retries policy action where
  returns i hbefore hi := by
    have hcome : ∀ {j}, Stops policy action j → i ≤ j := by
      intro j hj
      by_contra hlt
      exact hbefore j (by omega) hj
    refine returns_at hbefore hi hmax (hdiv.imp_right fun h => ?_)
    rcases h with h | h | h
    · rcases hmax with hmax | hmax
      · exact Nat.le_trans (hcome (.inr ⟨hmax, rfl⟩)) h
      · exact Nat.le_trans (hcome (.inl hmax)) (Nat.zero_le 1)
    · exact Nat.le_trans (hcome (.inl h)) (Nat.zero_le 1)
    · exact hcome (.inl h)
  goesOn hnever := by
    rcases hmax with hmax | hmax
    · exact absurd (Or.inr ⟨hmax, rfl⟩) (hnever policy.maxAttempts.toNat)
    · exact absurd (Or.inl hmax) (hnever 0)

/-- **The loop retries as it is meant to** if and only if there is a maximum or the first call
    stops it, and `backoff_divisor` is not zero or no second retry comes to it. -/
theorem retries_iff (policy : ExponentialBackoff) (action : Action R) :
    Retries policy action ↔
      (policy.maxAttempts ≠ 0 ∨ action.fails 0 = false) ∧
      (policy.backoffDivisor ≠ 0 ∨ policy.maxAttempts.toNat ≤ 1 ∨ action.fails 0 = false ∨
        action.fails 1 = false) := by
  constructor
  · intro h
    constructor
    · by_contra hno
      rw [not_or, not_ne_iff, Bool.not_eq_false] at hno
      exact not_retries_of_no_maximum hno.1 hno.2 h
    · by_contra hno
      rw [not_or, not_or, not_or, not_ne_iff, Nat.not_le, Bool.not_eq_false,
        Bool.not_eq_false] at hno
      obtain ⟨hdiv, hmax, h0, h1⟩ := hno
      exact not_retries_of_no_divisor hdiv hmax h0 h1 h
  · rintro ⟨hmax, hdiv⟩
    exact retries_of hmax hdiv

/-- Every call fails and may be retried. -/
def unavailable : Action StatusCode where
  result _ := .kUnavailable
  isOkStatus s := decide (s = .kOk)
  retryable _ := true

/-- **"0 means no maximum" gives up at once**: the first failure is returned. -/
theorem no_maximum_gives_up :
    turns { withDefaultParams with maxAttempts := 0 } unavailable 1 =
        some { calls := 1, trace := [.call], returned := some .kUnavailable } ∧
      ¬ Retries { withDefaultParams with maxAttempts := 0 } unavailable :=
  ⟨by decide, not_retries_of_no_maximum rfl rfl⟩

end Batt.Backoff
