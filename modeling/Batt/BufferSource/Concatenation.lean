/-
  What `PrependBufferSource` delivers.

  The position in the buffers in front is right as long as `unread`, the bytes from it on, are
  those that have not been consumed. `consume_buffers_iter` moves it right (`unread_consume`) if
  it starts at the beginning of a buffer or takes at least what is left of that buffer
  (`Aligned`): from an offset within a buffer, what it returns as the new offset is what it has
  consumed, without the old offset, and nothing at all if it consumes nothing. The runs that
  keep to this, and ask for no more than there is (`Satisfiable`), deliver the buffers in front
  and then the source behind (`delivers_concatenation`), whatever its `size()` says.
-/
import Batt.BufferSource.Prepend
import Mathlib.Data.List.Infix

namespace Batt.PrependBufferSource

variable {R : Type}

/-! ## The position in front -/

/-- The bytes from `offset` within the first of the buffers on. -/
def unreadFrom (offset : Nat) : List (List UInt8) → List UInt8
  | [] => []
  | front :: buffers => front.drop offset ++ buffers.flatten

theorem unreadFrom_zero (buffers : List (List UInt8)) : unreadFrom 0 buffers = buffers.flatten := by
  cases buffers with
  | nil => rfl
  | cons front buffers => rw [unreadFrom, List.drop_zero, List.flatten_cons]

/-- An offset other than zero is one into a buffer. -/
def OffsetIn (offset : Nat) : List (List UInt8) → Prop
  | [] => offset = 0
  | front :: _ => offset = 0 ∨ offset < front.length

/-- The position is at the start of a buffer, or `count` bytes are at least what is left of it. -/
def AlignedAt (offset count : Nat) : List (List UInt8) → Prop
  | [] => True
  | front :: _ => offset = 0 ∨ front.length ≤ offset + count

theorem offsetIn_zero (buffers : List (List UInt8)) : OffsetIn 0 buffers := by
  cases buffers with
  | nil => rfl
  | cons front buffers => exact .inl rfl

/-- `consume_buffers_iter` moves on by some buffers, and leaves what is behind `count` bytes. -/
theorem consumeBuffersIter_spec (buffers : List (List UInt8)) (index offset count : Nat)
    (hoffset : OffsetIn offset buffers) (haligned : AlignedAt offset count buffers) :
    ∃ k, (consumeBuffersIter buffers index offset count).1 = index + k ∧
      OffsetIn (consumeBuffersIter buffers index offset count).2 (buffers.drop k) ∧
      unreadFrom (consumeBuffersIter buffers index offset count).2 (buffers.drop k) =
        (unreadFrom offset buffers).drop count := by
  induction buffers generalizing index offset count with
  | nil => exact ⟨0, rfl, rfl, by rw [List.drop_nil, unreadFrom, unreadFrom, List.drop_nil]⟩
  | cons front buffers ih =>
    unfold consumeBuffersIter
    by_cases hzero : count = 0
    · -- the offset is dropped: it was zero, as no buffer has been left behind
      have hoff : offset = 0 := by
        rcases hoffset with h | h <;> rcases haligned with h' | h' <;> omega
      rw [if_pos hzero, hzero, hoff, List.drop_zero]
      exact ⟨0, rfl, .inl rfl, rfl⟩
    · rw [if_neg hzero]
      by_cases hwithin : count < (front.drop offset).length
      · have hoff : offset = 0 := by
          rw [List.length_drop] at hwithin
          rcases haligned with h | h <;> omega
        rw [if_pos hwithin]
        rw [hoff, List.drop_zero] at hwithin
        rw [hoff]
        refine ⟨0, rfl, .inr hwithin, ?_⟩
        rw [List.drop_zero, unreadFrom, unreadFrom, List.drop_zero,
          List.drop_append_of_le_length (Nat.le_of_lt hwithin)]
      · have hle : (front.drop offset).length ≤ count := Nat.not_lt.mp hwithin
        have hnext : AlignedAt 0 (count - (front.drop offset).length) buffers := by
          cases buffers with
          | nil => trivial
          | cons next buffers => exact .inl rfl
        obtain ⟨k, hindex, hin, hunread⟩ := ih (index + 1) 0 _ (offsetIn_zero buffers) hnext
        rw [if_neg hwithin]
        refine ⟨k + 1, by rw [hindex]; omega, hin, ?_⟩
        rw [List.drop_succ_cons, hunread, unreadFrom_zero, unreadFrom, List.drop_append,
          List.drop_eq_nil_of_le hle, List.nil_append]

section Runs

variable (s : PrependBufferSource R)

/-- The bytes in front that are still to be delivered. -/
def unread : List UInt8 := unreadFrom s.firstBufferOffset (s.first.drop s.firstBufferIndex)

/-- The position is in the buffers, and the counter is that of the bytes from it on. -/
structure Positioned : Prop where
  offset_in : OffsetIn s.firstBufferOffset (s.first.drop s.firstBufferIndex)
  remaining : s.firstBytesRemaining = s.unread.length

variable {s}

theorem positioned_start (buffers : List (List UInt8)) (rest : R) :
    Positioned (start buffers rest) where
  offset_in := offsetIn_zero _
  remaining := by
    simp only [start, unread, List.drop_zero, unreadFrom_zero]

/-- The position is at the start of a buffer, or the bytes consumed in front are at least what is
    left of the buffer. -/
def Aligned (s : PrependBufferSource R) (count : Nat) : Prop :=
  AlignedAt s.firstBufferOffset (min s.firstBytesRemaining count)
    (s.first.drop s.firstBufferIndex)

variable [BufferSource R]

theorem consume_front (hs : Positioned s) {count : Nat} (haligned : s.Aligned count) :
    Positioned (s.consume count) ∧
      (s.consume count).unread = s.unread.drop (min s.firstBytesRemaining count) := by
  obtain ⟨k, hindex, hin, hunread⟩ :=
    consumeBuffersIter_spec _ s.firstBufferIndex _ _ hs.offset_in haligned
  have hdrop : (s.consume count).unread = s.unread.drop (min s.firstBytesRemaining count) := by
    simp only [unread, consume, hindex, ← List.drop_drop, hunread]
  refine ⟨⟨?_, ?_⟩, hdrop⟩
  · simp only [consume, hindex, ← List.drop_drop]
    exact hin
  · rw [hdrop, List.length_drop, ← hs.remaining]
    rfl

/-! ## What is still to come -/

theorem size_eq (hs : Positioned s) : s.size = s.unread.length + BufferSource.size s.rest := by
  rw [size, hs.remaining]

omit [BufferSource R] in
theorem drop_front (hs : Positioned s) (count : Nat) :
    s.unread.drop (min s.firstBytesRemaining count) = s.unread.drop count := by
  rw [hs.remaining]
  rcases Nat.le_total s.unread.length count with h | h
  · rw [Nat.min_eq_left h, List.drop_length, List.drop_eq_nil_of_le h]
  · rw [Nat.min_eq_right h]

/-- A consume takes from the source behind what the bytes in front do not cover. -/
theorem consume_rest (law : LawfulSource R) (hs : Positioned s) {count : Nat}
    (hcount : count ≤ s.unread.length + law.held s.rest) :
    law.bytes (s.consume count).rest = (law.bytes s.rest).drop (count - s.unread.length) ∧
      law.held s.rest - (count - s.unread.length) ≤ law.held (s.consume count).rest := by
  have hbehind : count - min s.firstBytesRemaining count = count - s.unread.length := by
    rw [hs.remaining]
    omega
  simp only [consume, hbehind]
  split
  · exact law.consume_held (by omega)
  · next hpos =>
    rw [Nat.eq_zero_of_not_pos hpos]
    exact ⟨List.drop_zero.symm, Nat.sub_le _ _⟩

omit [BufferSource R] in
/-- The buffers in front are there if bytes are: the check never fails. -/
theorem firstBuffers_some (hs : Positioned s) :
    ∃ buffer, s.firstBuffers = some buffer ∧ buffer.flatten = s.unread ∧
      (buffer.isEmpty = true ↔ s.firstBytesRemaining = 0) := by
  unfold firstBuffers
  have hremaining := hs.remaining
  unfold unread at hremaining ⊢
  by_cases hzero : s.firstBytesRemaining = 0
  · rw [if_pos hzero]
    rw [hzero] at hremaining
    exact ⟨[], rfl, (List.eq_nil_of_length_eq_zero hremaining.symm).symm, by simp [hzero]⟩
  · rw [if_neg hzero]
    cases hfirst : s.first.drop s.firstBufferIndex with
    | nil =>
      rw [hfirst] at hremaining
      exact absurd hremaining hzero
    | cons front buffers =>
      exact ⟨_, rfl, by rw [List.flatten_cons, unreadFrom], by simp [hzero]⟩

/-- The source behind has not come to its end short of what is asked for, with bytes in front
    that are not enough. -/
def Satisfiable (s : PrependBufferSource R) (minCount : Nat) : Prop :=
  ¬(0 < s.firstBytesRemaining ∧ s.firstBytesRemaining < minCount ∧
    (s.fetchRest minCount).1 = .error .kEndOfStream)

instance (s : PrependBufferSource R) (minCount : Nat) : Decidable (s.Satisfiable minCount) :=
  inferInstanceAs (Decidable ¬(_ ∧ _))

/-- The bytes that may be consumed after a fetch: those it returned, or what was left before. -/
def leftAfter (left : Nat) : StatusOr (List (List UInt8)) → Nat
  | .ok buffers => buffers.flatten.length
  | .error _ => left

theorem fetchAtLeast_spec (law : LawfulSource R) (hs : Positioned s) {minCount left : Nat}
    (hleft : left ≤ s.unread.length + law.held s.rest) (hsat : s.Satisfiable minCount) :
    ∃ result s', s.fetchAtLeast minCount = some (result, s') ∧ Positioned s' ∧
      s'.unread = s.unread ∧ law.bytes s'.rest = law.bytes s.rest ∧
      leftAfter left result ≤ s.unread.length + law.held s'.rest ∧
      ∀ buffers, result = .ok buffers →
        buffers.flatten <+: s.unread ++ law.bytes s.rest ∧ minCount ≤ buffers.flatten.length := by
  obtain ⟨buffer, hbuffer, hflatten, hempty⟩ := firstBuffers_some hs
  have hlength : s.firstBytesRemaining = buffer.flatten.length := by
    rw [hflatten, hs.remaining]
  rw [fetchAtLeast, hbuffer, Option.map_some]
  refine ⟨_, _, rfl, ⟨hs.offset_in, hs.remaining⟩, rfl, law.bytes_fetch _ _, ?_⟩
  cases hrest : (s.fetchRest minCount).1 with
  | ok fetched =>
    obtain ⟨hpre, hcount, hheld⟩ := law.fetch_ok hrest
    refine ⟨?_, ?_⟩
    · simp only [leftAfter, List.flatten_append, List.length_append, hflatten]
      exact Nat.add_le_add_left hheld _
    · rintro buffers ⟨⟩
      rw [List.flatten_append, List.length_append, ← hlength, hflatten]
      exact ⟨(List.prefix_append_right_inj _).mpr hpre, by omega⟩
  | error code =>
    have hheld := law.fetch_error hrest
    dsimp only
    split
    · exact ⟨Nat.le_trans hleft (Nat.add_le_add_left hheld _), fun _ h => by cases h⟩
    · next hcond =>
      rw [not_or, not_not, hempty] at hcond
      rw [hcond.2] at hrest
      refine ⟨?_, ?_⟩
      · rw [leftAfter, hflatten]
        exact Nat.le_add_right _ _
      · rintro buffers ⟨⟩
        refine ⟨by rw [hflatten]; exact List.prefix_append _ _, ?_⟩
        by_contra hshort
        exact hsat ⟨Nat.pos_of_ne_zero hcond.1, by omega, hrest⟩

/-! ## Runs -/

inductive Call where
  | fetchAtLeast (minCount : Nat)
  | consume (count : Nat)
deriving DecidableEq, Repr

/-- From here on, with the bytes `front` and then `behind` still to come: every fetch that returns
    buffers returns the next bytes, at least as many as asked for, a consume takes the first of
    them away, and `size()` is the number of bytes in front and the `size()` behind. -/
def Delivers : List UInt8 → List UInt8 → List Call → PrependBufferSource R → Prop
  | front, _, [], s => s.size = front.length + BufferSource.size s.rest
  | front, behind, .fetchAtLeast minCount :: calls, s =>
    s.size = front.length + BufferSource.size s.rest ∧
      ∃ result s', s.fetchAtLeast minCount = some (result, s') ∧
        (∀ buffers, result = .ok buffers →
          buffers.flatten <+: front ++ behind ∧ minCount ≤ buffers.flatten.length) ∧
        Delivers front behind calls s'
  | front, behind, .consume count :: calls, s =>
    s.size = front.length + BufferSource.size s.rest ∧
      Delivers (front.drop count) (behind.drop (count - front.length)) calls (s.consume count)

/-- Every step of the run is made in a state that bears it, and a consume takes no more than what
    is left of the bytes last fetched. -/
def Meets : Nat → List Call → PrependBufferSource R → Prop
  | _, [], _ => True
  | left, .fetchAtLeast minCount :: calls, s =>
    s.Satisfiable minCount ∧
      ∀ result s', s.fetchAtLeast minCount = some (result, s') →
        Meets (leftAfter left result) calls s'
  | left, .consume count :: calls, s =>
    count ≤ left ∧ s.Aligned count ∧ Meets (left - count) calls (s.consume count)

theorem delivers_unread (law : LawfulSource R) {calls : List Call} {left : Nat}
    (hs : Positioned s) (hleft : left ≤ s.unread.length + law.held s.rest)
    (hmeets : Meets left calls s) : Delivers s.unread (law.bytes s.rest) calls s := by
  induction calls generalizing s left with
  | nil => exact size_eq hs
  | cons call calls ih =>
    cases call with
    | fetchAtLeast minCount =>
      obtain ⟨hsat, hrest⟩ := hmeets
      obtain ⟨result, s', hfetch, hs', hfront, hbehind, hleft', hok⟩ :=
        fetchAtLeast_spec law hs hleft hsat
      refine ⟨size_eq hs, result, s', hfetch, hok, ?_⟩
      rw [← hfront] at hleft' ⊢
      rw [← hbehind]
      exact ih hs' hleft' (hrest result s' hfetch)
    | consume count =>
      obtain ⟨hcount, haligned, hrest⟩ := hmeets
      obtain ⟨hs', hfront⟩ := consume_front hs haligned
      obtain ⟨hbehind, hheld⟩ := consume_rest law hs (Nat.le_trans hcount hleft)
      rw [drop_front hs] at hfront
      refine ⟨size_eq hs, ?_⟩
      rw [← hfront, ← hbehind]
      refine ih hs' ?_ hrest
      rw [hfront, List.length_drop]
      omega

/-- **The buffers in front, then the source behind**: in every run of `fetch_at_least` and
    `consume` whose steps are all borne, from any buffers and any lawful source. -/
theorem delivers_concatenation (law : LawfulSource R) (first : List (List UInt8)) (rest : R)
    {calls : List Call} (hmeets : Meets 0 calls (start first rest)) :
    Delivers first.flatten (law.bytes rest) calls (start first rest) := by
  have h := delivers_unread law (positioned_start first rest) (Nat.zero_le _) hmeets
  rwa [unread, start, List.drop_zero, unreadFrom_zero] at h

/-- Two buffers in front, one of them empty, and a stream behind: a consume that starts within a
    buffer takes the rest of it. -/
theorem delivers_concatenation_twoBuffers :
    Delivers [1, 2, 3] [4, 5]
      [.fetchAtLeast 4, .consume 1, .fetchAtLeast 3, .consume 3, .fetchAtLeast 1]
      (start [[1, 2, 3], []] (ClosedStream.mk [4, 5])) :=
  delivers_concatenation ClosedStream.lawful [[1, 2, 3], []] ⟨[4, 5]⟩ (by
    refine ⟨by decide, ?_⟩
    rintro _ _ ⟨⟩
    refine ⟨by decide, .inl rfl, by decide, ?_⟩
    rintro _ _ ⟨⟩
    refine ⟨by decide, .inr (by decide), by decide, ?_⟩
    rintro _ _ ⟨⟩
    trivial)

/-- One buffer in front, consumed two bytes at a time: the bytes `3, 4` are fetched twice. -/
theorem second_consume_repeats :
    let s := start [[1, 2, 3, 4, 5, 6]] (ClosedStream.mk [])
    ¬Delivers [1, 2, 3, 4, 5, 6] [] [.fetchAtLeast 6, .consume 2, .consume 2, .fetchAtLeast 1] s ∧
      (((s.consume 2).fetchAtLeast 1).map Prod.fst = some (.ok [[3, 4, 5, 6], []])) ∧
      ((((s.consume 2).consume 2).fetchAtLeast 1).map Prod.fst = some (.ok [[3, 4, 5, 6], []])) := by
  refine ⟨?_, by decide, by decide⟩
  rintro ⟨-, _, _, ⟨⟩, -, -, -, -, _, _, ⟨⟩, hok, -⟩
  exact absurd (hok _ rfl).1 (by decide)

end Runs

end Batt.PrependBufferSource
