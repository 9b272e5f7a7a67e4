/-
  `BasicRateLimiter` (batteries/async/rate_limiter.hpp) and its window bound.

  What the clock and the rate make of a time, `get_current_upper_bound()`, is the argument
  `upperBound` of an operation; the floating-point numbers behind it are left out. The counts are
  64-bit. A failed `BATT_CHECK_LE` ends the program: there is no result.

  The count never exceeds the bound of the time (`poll_spec`), so no subtraction overflows and the
  check after the increment holds. A window `(s, t]` starts with at most `burst` of what has
  become available up to `s`, since a poll in it first moves the count up to `U(s) - burst` where
  it is below; every granted poll moves it by one, and it stays within `U(t)`. `granted_le` is the
  bound that every further poll keeps.
-/
import Mathlib.Data.Int.Order.Basic
import Mathlib.Order.Defs.LinearOrder
import Mathlib.Order.Fin.Basic

namespace Batt

structure BasicRateLimiter where
  count : Int64 := 0
  burst : Int64 := 1
deriving DecidableEq, Repr

namespace BasicRateLimiter

def poll (upperBound : Int64) (limiter : BasicRateLimiter) : Option (Bool × BasicRateLimiter) :=
  let count :=
    if limiter.burst < upperBound - limiter.count then upperBound - limiter.burst
    else limiter.count
  if count = upperBound then some (false, { limiter with count := count })
  else if count + 1 ≤ upperBound then some (true, { limiter with count := count + 1 })
  else none

def available (upperBound : Int64) (limiter : BasicRateLimiter) : Int64 :=
  let unspent := upperBound - limiter.count
  if unspent < 0 then 0
  else if limiter.burst < unspent then limiter.burst
  else unspent

/-! ## Calls of `poll` -/

section

variable {τ : Type} (upperBound : τ → Int64)

/-- Calls at the times of a list, in order: each with its answer, and the limiter after them. -/
def polls (limiter : BasicRateLimiter) : List τ → Option (List (τ × Bool) × BasicRateLimiter)
  | [] => some ([], limiter)
  | t :: ts =>
    (limiter.poll (upperBound t)).bind fun answer =>
      (polls answer.2 ts).map fun rest => ((t, answer.1) :: rest.1, rest.2)

/-- The calls in `(s, t]` that were answered with true. -/
def granted [LinearOrder τ] (log : List (τ × Bool)) (s t : τ) : Nat :=
  log.countP fun call => decide (s < call.1) && decide (call.1 ≤ t) && call.2

end

variable {limiter limiter' : BasicRateLimiter} {u : Int64} {b : Bool}

/-! ## One poll -/

/-- The limiter is in order when the upper bound is `u`. -/
structure InOrder (u : Int64) (limiter : BasicRateLimiter) : Prop where
  burst : 1 ≤ limiter.burst.toInt
  nonneg : 0 ≤ limiter.count.toInt
  within : limiter.count.toInt ≤ u.toInt

theorem InOrder.unspent (h : InOrder u limiter) :
    (u - limiter.count).toInt = u.toInt - limiter.count.toInt :=
  Int64.toInt_sub_of_le _ _ (Int64.le_iff_toInt_le.mpr h.nonneg)
    (Int64.le_iff_toInt_le.mpr h.within)

/-- What a poll leaves of the allowance before it looks at it. -/
def moved (u : Int64) (limiter : BasicRateLimiter) : Int :=
  max limiter.count.toInt (u.toInt - limiter.burst.toInt)

theorem InOrder.moved_within (h : InOrder u limiter) :
    0 ≤ limiter.moved u ∧ limiter.count.toInt ≤ limiter.moved u ∧ limiter.moved u ≤ u.toInt := by
  have hburst := h.burst
  have hnonneg := h.nonneg
  have hwithin := h.within
  unfold moved
  omega

/-- **A poll**: the count moves up to `burst` below the bound, and by one if that is below it. -/
theorem poll_spec (h : InOrder u limiter) :
    ∃ answer limiter', limiter.poll u = some (answer, limiter') ∧
      limiter'.burst = limiter.burst ∧
      (answer = true ↔ limiter.moved u < u.toInt) ∧
      limiter'.count.toInt = limiter.moved u + (if answer then 1 else 0) := by
  have hburst := h.burst
  have hnonneg := h.nonneg
  have hwithin := h.within
  have hupper := u.toInt_lt
  obtain ⟨count, hcount, hif⟩ : ∃ count : Int64, count.toInt = limiter.moved u ∧
      (if limiter.burst < u - limiter.count then u - limiter.burst else limiter.count) = count := by
    refine ⟨_, ?_, rfl⟩
    unfold moved
    split
    · rename_i hlt
      rw [Int64.lt_iff_toInt_lt, h.unspent] at hlt
      rw [Int64.toInt_sub_of_le _ _ (Int64.le_iff_toInt_le.mpr (by rw [Int64.toInt_zero]; omega))
        (Int64.le_iff_toInt_le.mpr (by omega))]
      omega
    · rename_i hlt
      rw [Int64.lt_iff_toInt_lt, h.unspent] at hlt
      omega
  obtain ⟨hge, _, hle⟩ := h.moved_within
  unfold poll
  rw [hif]
  by_cases heq : count = u
  · rw [if_pos heq]
    refine ⟨_, _, rfl, rfl, ?_, ?_⟩
    · rw [← hcount, heq]
      simp
    · rw [← hcount]
      simp
  · have hne : limiter.moved u ≠ u.toInt := fun h => heq (Int64.toInt_inj.mp (hcount.trans h))
    have hadd : (count + 1).toInt = limiter.moved u + 1 := by
      rw [Int64.toInt_add, hcount, Int64.toInt_one]
      exact Int.bmod_eq_of_le (by omega) (by omega)
    rw [if_neg heq, if_pos (Int64.le_iff_toInt_le.mpr (by rw [hadd]; omega))]
    refine ⟨_, _, rfl, rfl, ?_, ?_⟩
    · simp
      omega
    · rw [hadd]
      simp

theorem poll_inOrder (h : InOrder u limiter) (hp : limiter.poll u = some (b, limiter')) :
    InOrder u limiter' := by
  obtain ⟨answer, next, hnext, hburst, hanswer, hcount⟩ := poll_spec h
  rw [hp] at hnext
  cases hnext
  obtain ⟨hge, _, hle⟩ := h.moved_within
  refine ⟨by rw [hburst]; exact h.burst, ?_, ?_⟩ <;> rw [hcount]
  · cases b <;> simp <;> omega
  · cases b with
    | false => simpa using hle
    | true =>
      have hlt := hanswer.mp rfl
      simp
      omega

theorem InOrder.later {u' : Int64} (h : InOrder u limiter) (hle : u.toInt ≤ u'.toInt) :
    InOrder u' limiter :=
  ⟨h.burst, h.nonneg, Int.le_trans h.within hle⟩

/-- A poll is answered with true exactly when something is available. -/
theorem poll_iff_available (h : InOrder u limiter) (hp : limiter.poll u = some (b, limiter')) :
    b = true ↔ 0 < limiter.available u := by
  obtain ⟨answer, next, hnext, _, hanswer, _⟩ := poll_spec h
  rw [hp] at hnext
  cases hnext
  have hb := h.burst
  have hwithin := h.within
  rw [hanswer, Int64.lt_iff_toInt_lt, Int64.toInt_zero]
  unfold moved available
  simp only [Int64.lt_iff_toInt_lt, h.unspent, Int64.toInt_zero]
  split
  · omega
  · split
    · omega
    · rw [h.unspent]
      omega

/-! ## Polls in a window -/

section Window

variable {τ : Type} [LinearOrder τ] {upperBound : τ → Int64}

/-- The window's share of the allowance, for a limiter that polls from now on. -/
def share (upperBound : τ → Int64) (s t : τ) (limiter : BasicRateLimiter) : Int :=
  (upperBound t).toInt -
    max limiter.count.toInt ((upperBound s).toInt - limiter.burst.toInt)

/-- **The check never fails**, and the count stays within the bound of every later time. -/
theorem polls_inOrder (hU : ∀ s t, s ≤ t → upperBound s ≤ upperBound t) {times : List τ}
    (hsorted : times.Pairwise (· ≤ ·)) (hin : ∀ x ∈ times, InOrder (upperBound x) limiter) :
    ∃ log last, polls upperBound limiter times = some (log, last) ∧
      ∀ x, InOrder (upperBound x) limiter → (∀ y ∈ times, y ≤ x) → InOrder (upperBound x) last := by
  induction times generalizing limiter with
  | nil => exact ⟨_, _, rfl, fun _ h _ => h⟩
  | cons t times ih =>
    obtain ⟨hfirst, hsorted⟩ := List.pairwise_cons.mp hsorted
    have hnow := hin t (by simp)
    obtain ⟨answer, next, hp, _⟩ := poll_spec hnow
    have hlater {x : τ} (hx : t ≤ x) : InOrder (upperBound x) next :=
      (poll_inOrder hnow hp).later (Int64.le_iff_toInt_le.mp (hU t x hx))
    obtain ⟨log, last, hrun, hlast⟩ := ih hsorted fun x hx => hlater (hfirst x hx)
    refine ⟨(t, answer) :: log, last, ?_, fun x _ hx => ?_⟩
    · simp only [polls, hp, Option.bind_some, hrun, Option.map_some]
    · exact hlast x (hlater (hx t (by simp))) fun y hy => hx y (by simp [hy])

theorem granted_cons (log : List (τ × Bool)) (x s t : τ) (b : Bool) :
    granted ((x, b) :: log) s t =
      granted log s t + (if (s < x ∧ x ≤ t) ∧ b = true then 1 else 0) := by
  unfold granted
  rw [List.countP_cons]
  simp only [Bool.and_eq_true, decide_eq_true_eq]

/-- **No window grants more than its share.** -/
theorem granted_le (hU : ∀ s t, s ≤ t → upperBound s ≤ upperBound t) {times : List τ}
    (hsorted : times.Pairwise (· ≤ ·)) (hin : ∀ x ∈ times, InOrder (upperBound x) limiter)
    {log : List (τ × Bool)} {last : BasicRateLimiter}
    (hrun : polls upperBound limiter times = some (log, last)) (s t : τ) :
    (granted log s t : Int) ≤ max 0 (share upperBound s t limiter) := by
  induction times generalizing limiter log with
  | nil =>
    cases hrun
    exact Int.le_max_left _ _
  | cons x times ih =>
    obtain ⟨hfirst, hsorted⟩ := List.pairwise_cons.mp hsorted
    have hnow := hin x (by simp)
    obtain ⟨answer, next, hp, hburst, hanswer, hcount⟩ := poll_spec hnow
    simp only [polls, hp, Option.bind_some] at hrun
    obtain ⟨⟨rest, final⟩, hrest, heq⟩ := Option.map_eq_some_iff.mp hrun
    obtain ⟨rfl, rfl⟩ := Prod.mk.inj heq
    have hle := ih hsorted (fun y hy => (poll_inOrder hnow hp).later
      (Int64.le_iff_toInt_le.mp (hU x y (hfirst y hy)))) hrest
    obtain ⟨_, hcountLe, _⟩ := hnow.moved_within
    simp only [granted_cons]
    unfold share at hle ⊢
    rw [hburst] at hle
    split
    · -- a granted poll in the window has taken one from the share
      rename_i hgranted
      obtain ⟨⟨hs, ht⟩, rfl⟩ := hgranted
      have hlt := hanswer.mp rfl
      have hUs := Int64.le_iff_toInt_le.mp (hU s x (le_of_lt hs))
      have hUt := Int64.le_iff_toInt_le.mp (hU x t ht)
      have hmoved : (upperBound x).toInt - limiter.burst.toInt ≤ limiter.moved (upperBound x) :=
        Int.le_max_right _ _
      rw [if_pos rfl] at hcount
      push_cast
      omega
    · have hmono : limiter.count.toInt ≤ next.count.toInt := by
        rw [hcount]
        split <;> omega
      omega

/-! ## Every sequence of polls -/

/-- What the limiter promises of polls at the times of a list. -/
structure Limits (upperBound : τ → Int64) (burst : Int64) (times : List τ)
    (log : List (τ × Bool)) (last : BasicRateLimiter) : Prop where
  /-- The count is within the bound of any time from the last poll on, -/
  within : ∀ t, (∀ x ∈ times, x ≤ t) → 0 ≤ last.count ∧ last.count ≤ upperBound t
  /-- a poll at such a time is answered with true exactly when something is available, -/
  answers : ∀ t, (∀ x ∈ times, x ≤ t) →
    ∃ b next, last.poll (upperBound t) = some (b, next) ∧
      (b = true ↔ 0 < last.available (upperBound t))
  /-- and no window grants more than the burst and what becomes available in it. -/
  window : ∀ s t, s ≤ t → (granted log s t : Int) ≤
    burst.toInt + (upperBound t).toInt - (upperBound s).toInt

/-- **The rate limiter keeps its limits**, over every sequence of polls at nondecreasing times. -/
theorem limits (upperBound : τ → Int64) (hU : ∀ s t, s ≤ t → upperBound s ≤ upperBound t)
    (hzero : ∀ t, 0 ≤ upperBound t) (burst : Int64) (hburst : 1 ≤ burst) (times : List τ)
    (hsorted : times.Pairwise (· ≤ ·)) :
    ∃ log last, polls upperBound { burst := burst } times = some (log, last) ∧
      Limits upperBound burst times log last := by
  have hstart (t : τ) : InOrder (upperBound t) { burst := burst } :=
    ⟨Int64.le_iff_toInt_le.mp hburst, Int.le_refl 0, Int64.le_iff_toInt_le.mp (hzero t)⟩
  obtain ⟨log, last, hrun, hlast⟩ := polls_inOrder hU hsorted fun x _ => hstart x
  refine ⟨log, last, hrun, ?_, ?_, ?_⟩
  · intro t ht
    have h := hlast t (hstart t) ht
    exact ⟨Int64.le_iff_toInt_le.mpr h.nonneg, Int64.le_iff_toInt_le.mpr h.within⟩
  · intro t ht
    have h := hlast t (hstart t) ht
    obtain ⟨b, next, hp, _⟩ := poll_spec h
    exact ⟨b, next, hp, poll_iff_available h hp⟩
  · intro s t hst
    have hle := granted_le hU hsorted (fun x _ => hstart x) hrun s t
    have hUst := Int64.le_iff_toInt_le.mp (hU s t hst)
    have hone := Int64.le_iff_toInt_le.mp hburst
    rw [Int64.toInt_one] at hone
    unfold share at hle
    simp only [Int64.toInt_zero] at hle
    omega

/-- Two units of time for one operation, and a burst of three. -/
def halved (t : Fin 11) : Int64 := Int64.ofNat (t.val / 2)

theorem limits_halved :
    ∃ log last, polls halved { burst := 3 } [0, 9, 9, 9, 9, 10] = some (log, last) ∧
      Limits halved 3 [0, 9, 9, 9, 9, 10] log last :=
  limits halved (by decide) (by decide) 3 (by decide) [0, 9, 9, 9, 9, 10] (by decide)

example : (polls halved { burst := 3 } [0, 9, 9, 9, 9, 10]).map (fun r => r.1.map (·.2)) =
    some [false, true, true, true, false, true] := by decide

end Window

end BasicRateLimiter

end Batt
