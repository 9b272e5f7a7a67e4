/-
  `RadixQueue` as a first-in-first-out queue of digits.

  A `Session` is a queue with the items that were pushed and not popped yet, oldest first.
  `Session.step` is one call: `push` with an item whose value is below its radix, `pop` with
  the radix of the oldest item, or `clear`. A step is `none` where the call breaks this use or
  where a check of the queue fails, so what `fifo_of_digits` says about the next call of a
  reachable session says which checks can fail at all.
-/
import Batt.RadixQueue.Encodes

namespace Batt.RadixQueue

open Choice

variable {K : Nat} {radix value : Nat}

/-! ## Calls -/

inductive Op where
  | push (radix value : Nat)
  | pop (radix : Nat)
  | clear
  deriving DecidableEq, Repr

structure Session (K : Nat) where
  queue : RadixQueue K
  items : List Digit
  deriving DecidableEq, Repr

def Session.new [NeZero K] : Session K := ⟨RadixQueue.new, []⟩

/-- What a caller may pass as the next item: `1 ≤ radix`, a `u64`, and `value < radix`. -/
def IsItem (radix value : Nat) : Prop := 1 ≤ radix ∧ radix ≤ maxU64 ∧ value < radix

instance (radix value : Nat) : Decidable (IsItem radix value) :=
  inferInstanceAs (Decidable (_ ∧ _ ∧ _))

def Session.step [NeZero K] (s : Session K) : Op → Option (Session K)
  | .push radix value =>
    if IsItem radix value then
      (s.queue.push radix value).map fun q => ⟨q, s.items ++ [⟨radix, value⟩]⟩
    else none
  | .pop radix =>
    match s.items with
    | [] => none
    | d :: rest =>
      if d.radix = radix then (s.queue.pop radix).map fun r => ⟨r.2, rest⟩ else none
  | .clear => some ⟨s.queue.clear, []⟩

def Session.run [NeZero K] (s : Session K) : List Op → Option (Session K)
  | [] => some s
  | op :: ops => (s.step op).bind fun s' => s'.run ops

/-! ## The queue holds the items -/

theorem encodes_step [NeZero K] {s s' : Session K} {op : Op} (h : Encodes s.queue s.items)
    (hs : s.step op = some s') : Encodes s'.queue s'.items := by
  cases op with
  | push radix value =>
    simp only [Session.step] at hs
    split at hs
    · rename_i hitem
      obtain ⟨q, hq, rfl⟩ := Option.map_eq_some_iff.mp hs
      exact encodes_push (d := ⟨radix, value⟩) h hitem.2.1 hq
    · cases hs
  | pop radix =>
    simp only [Session.step] at hs
    split at hs
    · cases hs
    · rename_i d rest hitems
      rw [hitems] at h
      obtain ⟨q, hq, henc⟩ := encodes_pop h
      split at hs
      · rename_i hradix
        rw [← hradix, hq] at hs
        cases hs
        exact henc
      · cases hs
  | clear =>
    cases hs
    exact encodes_clear _

theorem encodes_run [NeZero K] {s s' : Session K} {ops : List Op} (h : Encodes s.queue s.items)
    (hs : s.run ops = some s') : Encodes s'.queue s'.items := by
  induction ops generalizing s with
  | nil =>
    cases hs
    exact h
  | cons op ops ih =>
    obtain ⟨s₁, hstep, hrest⟩ := Option.bind_eq_some_iff.mp hs
    exact ih (encodes_step h hstep) hrest

/-! ## The segment that takes the next item -/

/-- Where `push` puts an item: the back segment, or a new one. -/
def target (q : RadixQueue K) (radix : Nat) : Option (RadixQueue K) :=
  if maxU64 / q.back.radix < radix then q.pushBack else some q

theorem push_eq_target (q : RadixQueue K) (h : value < radix) :
    q.push radix value = (q.target radix).map fun q =>
      q.setBack
        { radix := q.back.radix * radix % 2 ^ 64
          value := (q.back.value + value * q.back.radix) % 2 ^ 64 } := by
  unfold push target
  rw [if_pos h]

theorem Encodes.back_eq {q : RadixQueue K} {ds : List Digit} (h : Encodes q ds) :
    ∃ c, q.back = pack c ∧ WithinRadix c ∧ volume c ≤ maxU64 := by
  obtain ⟨cs, hlive, hflat, hle, _⟩ := h.chunks
  have hne := ne_nil_of_live hlive
  have hlast := q.live_eq_concat
  rw [hlive, ← List.dropLast_append_getLast hne, List.map_append, List.map_singleton] at hlast
  refine ⟨cs.getLast hne, (List.append_singleton_inj.mp hlast).2.symm, ?_, ?_⟩
  · intro d hd
    refine h.digits d ?_
    rw [← hflat]
    exact List.mem_flatten.mpr ⟨_, List.getLast_mem hne, hd⟩
  · exact hle _ (List.getLast_mem hne)

/-- The products and sums of `push` stay below `2 ^ 64`. -/
theorem target_fits {q r : RadixQueue K} {ds : List Digit} (h : Encodes q ds)
    (hitem : IsItem radix value) (hr : q.target radix = some r) :
    r.back.radix * radix ≤ maxU64 ∧ r.back.value + value * r.back.radix ≤ maxU64 := by
  obtain ⟨_, hmax, hlt⟩ := hitem
  have hroom : ∃ c, r.back = pack c ∧ WithinRadix c ∧ volume c * radix ≤ maxU64 := by
    unfold target at hr
    split at hr
    · have hlast := r.live_eq_concat
      rw [live_pushBack hr] at hlast
      have hback : r.back = ⟨1, 0⟩ := (List.append_singleton_inj.mp hlast).2.symm
      exact ⟨[], hback, nofun, by simpa [volume] using hmax⟩
    · cases hr
      rename_i hover
      obtain ⟨c, hback, hc, _⟩ := h.back_eq
      have hradix : q.back.radix = volume c := by
        rw [hback]
        rfl
      rw [hradix] at hover
      refine ⟨c, hback, hc, ?_⟩
      rw [Nat.mul_comm]
      exact (Nat.le_div_iff_mul_le (volume_pos hc)).mp (by omega)
  obtain ⟨c, hback, hc, hfit⟩ := hroom
  have hnum := number_lt hc
  rw [hback]
  refine ⟨hfit, ?_⟩
  -- the value of a segment stays below its radix
  have hmul : (value + 1) * volume c ≤ radix * volume c := Nat.mul_le_mul_right _ hlt
  rw [Nat.succ_mul, Nat.mul_comm radix] at hmul
  show number c + value * volume c ≤ maxU64
  omega

/-- `push` fails at the check for a full queue only. -/
theorem push_eq_none {q : RadixQueue K} (h : value < radix) :
    q.push radix value = none ↔ maxU64 / q.back.radix < radix ∧ q.queueSize = K := by
  rw [push_eq_target q h, Option.map_eq_none_iff, ← full_iff]
  unfold target pushBack
  by_cases hover : maxU64 / q.back.radix < radix
  · rw [if_pos hover]
    by_cases hfull : q.full = true <;> simp [hfull, hover]
  · simp [hover]

/-- **A queue of mixed-radix digits.** After any sequence of calls: the queue is empty exactly
    when every item left has radix one; `pop` with the radix of the oldest item returns that
    item's value and no check fails; a push fails only where it needs a new segment and all
    segments are in use; and where it does not fail, the new value and radix of the segment it
    goes to fit into 64 bits. -/
theorem fifo_of_digits [NeZero K] (ops : List Op) (s : Session K)
    (hr : Session.new.run ops = some s) :
    (s.queue.empty = true ↔ ∀ d ∈ s.items, d.radix = 1) ∧
      0 < s.queue.queueSize ∧
      (∀ d rest, s.items = d :: rest → ∃ q, s.queue.pop d.radix = some (d.value, q) ∧
        s.step (.pop d.radix) = some ⟨q, rest⟩) ∧
      (∀ radix value, IsItem radix value →
        (s.queue.push radix value = none ↔
          maxU64 / s.queue.back.radix < radix ∧ s.queue.queueSize = K) ∧
        ∀ r, s.queue.target radix = some r →
          r.back.radix * radix < 2 ^ 64 ∧ r.back.value + value * r.back.radix < 2 ^ 64) := by
  have henc : Encodes s.queue s.items := encodes_run encodes_new hr
  have hmax : maxU64 < 2 ^ 64 := by decide
  refine ⟨henc.empty_iff, s.queue.queueSize_pos, ?_, ?_⟩
  · intro d rest hitems
    rw [hitems] at henc
    obtain ⟨q, hq, _⟩ := encodes_pop henc
    refine ⟨q, hq, ?_⟩
    unfold Session.step
    simp only [hitems, if_true, hq, Option.map_some]
  · intro radix value hitem
    refine ⟨push_eq_none hitem.2.2, ?_⟩
    intro r hr
    obtain ⟨h1, h2⟩ := target_fits henc hitem hr
    exact ⟨by omega, by omega⟩

/-- The third item wraps around a ring of two segments, and a fourth has no room. -/
theorem fifo_of_digits_wraps :
    ∃ s : Session 2,
      Session.new.run [.push (2 ^ 63) 5, .push 7 3, .pop (2 ^ 63), .push (2 ^ 63) 9] = some s ∧
        s.items = [⟨7, 3⟩, ⟨2 ^ 63, 9⟩] ∧ s.queue.backIndex = 0 ∧
        (∃ q, s.queue.pop 7 = some (3, q)) ∧ s.queue.push (2 ^ 63) 1 = none := by
  obtain ⟨s, hs⟩ : ∃ s : Session 2,
      Session.new.run [.push (2 ^ 63) 5, .push 7 3, .pop (2 ^ 63), .push (2 ^ 63) 9] = some s :=
    Option.isSome_iff_exists.mp (by decide)
  have hview : (Session.new.run (K := 2)
      [.push (2 ^ 63) 5, .push 7 3, .pop (2 ^ 63), .push (2 ^ 63) 9]).map
      (fun s => (s.items, s.queue.backIndex, s.queue.back.radix, s.queue.queueSize)) =
      some ([⟨7, 3⟩, ⟨2 ^ 63, 9⟩], 0, 2 ^ 63, 2) := by
    decide
  rw [hs, Option.map_some, Option.some.injEq, Prod.mk.injEq, Prod.mk.injEq, Prod.mk.injEq] at hview
  obtain ⟨hitems, hback, hradix, hsize⟩ := hview
  obtain ⟨_, _, hpop, hpush⟩ := fifo_of_digits _ s hs
  obtain ⟨q, hq, _⟩ := hpop _ _ hitems
  refine ⟨s, hs, hitems, hback, ⟨q, hq⟩, ((hpush (2 ^ 63) 1 (by decide)).1).mpr ⟨?_, hsize⟩⟩
  rw [hradix]
  decide

end Batt.RadixQueue
