/-
  Adjacency of closed intervals of machine integers (batteries/bounds.hpp).

  `adjacent` asks whether each interval begins at or below the successor of the other's upper
  bound, and computes that successor in the bound's own type. The successor of the largest value
  is the smallest for the unsigned types and for the two signed ones that are promoted to `int`;
  for `i32` and `i64` there is none, the addition is undefined. So an interval that ends at the
  largest value is taken for one that ends below everything, or the call has no result
  (`adjacentTo_right_iff`).
-/
import Batt.Interval.Sets

namespace Batt

/-! ## The types -/

/-- The types of `BATT_DEFINE_INT_BOUNDS`. -/
inductive FixedInt
  | i8 | i16 | i32 | i64 | u8 | u16 | u32 | u64
deriving DecidableEq, Repr

namespace FixedInt

def signed : FixedInt → Bool
  | i8 | i16 | i32 | i64 => true
  | u8 | u16 | u32 | u64 => false

def width : FixedInt → Nat
  | i8 | u8 => 8
  | i16 | u16 => 16
  | i32 | u32 => 32
  | i64 | u64 => 64

def lo (t : FixedInt) : Int := if t.signed then -2 ^ (t.width - 1) else 0

/-- The least number above the values. -/
def hi (t : FixedInt) : Int := if t.signed then 2 ^ (t.width - 1) else 2 ^ t.width

abbrev Value (t : FixedInt) := MachineInt t.lo t.hi

/-- The type in which a sum of two values is computed: `int` for what fits in it. -/
def promoted : FixedInt → FixedInt
  | i8 | i16 | u8 | u16 => i32
  | t => t

/-- `n + 1` in this type. Beyond the values of a signed one it is undefined. -/
def plusOne (t : FixedInt) (n : Int) : Option Int :=
  if t.signed then if n + 1 < t.hi then some (n + 1) else none
  else some ((n + 1) % t.hi)

theorem lo_lt_hi (t : FixedInt) : t.lo < t.hi := by
  cases t <;> decide

/-- The conversion to this type, modulo the number of its values. -/
def convert (t : FixedInt) (n : Int) : t.Value :=
  ⟨t.lo + (n - t.lo) % (t.hi - t.lo), by
    have hlt := t.lo_lt_hi
    have hnn := Int.emod_nonneg (n - t.lo) (b := t.hi - t.lo) (by omega)
    have hub := Int.emod_lt_of_pos (n - t.lo) (b := t.hi - t.lo) (by omega)
    omega⟩

def leastUpperBound (t : FixedInt) (n : t.Value) : Option t.Value :=
  (t.promoted.plusOne n.1).map t.convert

/-- The successor of the largest value is undefined. -/
def overflows : FixedInt → Bool
  | i32 | i64 => true
  | _ => false

theorem convert_of_mem {t : FixedInt} {n : Int} (hlo : t.lo ≤ n) (hhi : n < t.hi) :
    (t.convert n).1 = n := by
  have hmod : (n - t.lo) % (t.hi - t.lo) = n - t.lo :=
    Int.emod_eq_of_lt (by omega) (by omega)
  change t.lo + (n - t.lo) % (t.hi - t.lo) = n
  omega

variable {t : FixedInt}

/-- Below the largest value the sum is exact. -/
theorem plusOne_of_lt {n : Int} (hlo : t.lo ≤ n) (hlt : n + 1 < t.hi) :
    t.promoted.plusOne n = some (n + 1) := by
  have hmod : 0 ≤ n + 1 → n + 1 < t.hi → (n + 1) % t.hi = n + 1 := Int.emod_eq_of_lt
  cases t <;>
    simp [plusOne, promoted, signed, hi, lo, width] at hlo hlt hmod ⊢ <;> omega

theorem leastUpperBound_of_lt {n : t.Value} (hlt : n.1 + 1 < t.hi) :
    t.leastUpperBound n = some ⟨n.1 + 1, by have := n.2; omega⟩ := by
  rw [leastUpperBound, plusOne_of_lt n.2.1 hlt, Option.map_some, Option.some.injEq]
  exact Subtype.ext (convert_of_mem (by have := n.2; omega) hlt)

theorem leastUpperBound_of_eq {n : t.Value} (heq : n.1 + 1 = t.hi) :
    t.leastUpperBound n =
      if t.overflows then none else some ⟨t.lo, Int.le_refl _, t.lo_lt_hi⟩ := by
  rw [leastUpperBound, plusOne, heq]
  cases t
  case i32 | i64 => rfl
  all_goals exact congrArg some (Subtype.ext (by decide))

end FixedInt

/-! ## Adjacency -/

namespace BasicInterval

variable {t : FixedInt}

/-- `a.adjacent_to(b)`, with the successors as the code computes them: none where one of those
    that it needs is undefined. -/
def adjacentIn (t : FixedInt) (a b : CInterval t.Value) : Option Bool := do
  let bNext ← t.leastUpperBound b.upperBound
  if (IntervalTraits.closed t.Value).lowerIncludesX a.lowerBound bNext then
    let aNext ← t.leastUpperBound a.upperBound
    some ((IntervalTraits.closed t.Value).xIncludedByUpper b.lowerBound aNext)
  else some false

/-- Above every point of `a` and below every point of `b`. -/
def StrictlyBetween (a b : CInterval t.Value) (x : t.Value) : Prop :=
  (∀ y, a.contains y = true → y < x) ∧ ∀ y, b.contains y = true → x < y

/-- There is no value between them, whichever is the lower. -/
def Touch (a b : CInterval t.Value) : Prop :=
  ∀ x, ¬StrictlyBetween a b x ∧ ¬StrictlyBetween b a x

/-- What adjacency is to be: the same from both sides, and that nothing is in between. -/
def AdjacencyRight (a b : CInterval t.Value) : Prop :=
  ∃ r, adjacentIn t a b = some r ∧ adjacentIn t b a = some r ∧ (r = true ↔ Touch a b)

/-- The bounds at which the successors do no harm: no interval ends at the largest value, or,
    for the types that wrap, the other begins at the smallest one or too far behind. -/
def SuccessorsFit (a b : CInterval t.Value) : Prop :=
  if t.overflows then a.upperBound.1 + 1 ≠ t.hi ∧ b.upperBound.1 + 1 ≠ t.hi
  else
    (b.upperBound.1 + 1 = t.hi →
      a.lowerBound.1 = t.lo ∨ a.upperBound.1 + 1 < b.lowerBound.1) ∧
    (a.upperBound.1 + 1 = t.hi →
      b.lowerBound.1 = t.lo ∨ b.upperBound.1 + 1 < a.lowerBound.1)

instance (a b : CInterval t.Value) : Decidable (SuccessorsFit a b) := by
  unfold SuccessorsFit
  infer_instance

variable {a b : CInterval t.Value}

theorem nonempty_value : a.empty = false ↔ a.lowerBound.1 ≤ a.upperBound.1 := by
  rw [← Bool.not_eq_true, empty_closed, not_lt]
  exact Iff.rfl

theorem strictlyBetween_iff (ha : a.empty = false) (hb : b.empty = false) (x : t.Value) :
    StrictlyBetween a b x ↔ a.upperBound.1 < x.1 ∧ x.1 < b.lowerBound.1 := by
  rw [nonempty_value] at ha hb
  constructor
  · rintro ⟨hbelow, habove⟩
    exact ⟨hbelow a.upperBound (contains_closed.mpr ⟨ha, le_refl _⟩),
      habove b.lowerBound (contains_closed.mpr ⟨le_refl _, hb⟩)⟩
  · rintro ⟨hlo, hhi⟩
    exact ⟨fun y hy => lt_of_le_of_lt (contains_closed.mp hy).2 hlo,
      fun y hy => lt_of_lt_of_le hhi (contains_closed.mp hy).1⟩

/-- Without a value in between, the lower bound of the one is at most one above the upper bound
    of the other. -/
theorem exists_strictlyBetween_iff (ha : a.empty = false) (hb : b.empty = false) :
    (∃ x, StrictlyBetween a b x) ↔ a.upperBound.1 + 1 < b.lowerBound.1 := by
  simp only [strictlyBetween_iff ha hb]
  constructor
  · rintro ⟨x, hlo, hhi⟩
    omega
  · intro hlt
    have hmem : t.lo ≤ a.upperBound.1 + 1 ∧ a.upperBound.1 + 1 < t.hi := by
      have := a.upperBound.2
      have := b.lowerBound.2
      omega
    exact ⟨⟨a.upperBound.1 + 1, hmem⟩, Int.lt_succ _, hlt⟩

theorem touch_iff (ha : a.empty = false) (hb : b.empty = false) :
    Touch a b ↔ b.lowerBound.1 ≤ a.upperBound.1 + 1 ∧ a.lowerBound.1 ≤ b.upperBound.1 + 1 := by
  have hab := exists_strictlyBetween_iff ha hb
  have hba := exists_strictlyBetween_iff hb ha
  rw [Touch, forall_and, ← not_exists, ← not_exists, hab, hba, not_lt, not_lt]

/-! ## The successors -/

/-- With both successors the test is on numbers. -/
theorem adjacentIn_of_some {m k : t.Value} (hm : t.leastUpperBound b.upperBound = some m)
    (hk : t.leastUpperBound a.upperBound = some k) :
    adjacentIn t a b =
      some (decide (a.lowerBound.1 ≤ m.1) && decide (b.lowerBound.1 ≤ k.1)) := by
  have hle : ∀ x y : t.Value, IntervalTraits.lessOrEqual x y = decide (x.1 ≤ y.1) := by
    intro x y
    rw [Bool.eq_iff_iff, decide_eq_true_iff]
    exact IntervalTraits.lessOrEqual_eq_true
  rw [adjacentIn, hm, hk]
  simp only [Option.bind_eq_bind, Option.bind_some, IntervalTraits.closed,
    IntervalTraits.closedBy, hle]
  cases decide (a.lowerBound.1 ≤ m.1) <;> rfl

/-- `adjacent` begins with the successor of the other's upper bound. -/
theorem adjacentIn_of_none (h : t.leastUpperBound b.upperBound = none) :
    adjacentIn t a b = none := by
  rw [adjacentIn, h]
  rfl

/-- Of a type that wraps, the successor as a number. -/
def next (t : FixedInt) (n : Int) : Int := if n + 1 = t.hi then t.lo else n + 1

theorem leastUpperBound_wraps (ht : t.overflows = false) (n : t.Value) :
    ∃ m, t.leastUpperBound n = some m ∧ m.1 = next t n.1 := by
  by_cases heq : n.1 + 1 = t.hi
  · rw [FixedInt.leastUpperBound_of_eq heq, ht, next, if_pos heq]
    exact ⟨_, rfl, rfl⟩
  · have hlt : n.1 + 1 < t.hi := by have := n.2; omega
    rw [FixedInt.leastUpperBound_of_lt hlt, next, if_neg heq]
    exact ⟨_, rfl, rfl⟩

theorem adjacentIn_wraps (ht : t.overflows = false) (a b : CInterval t.Value) :
    adjacentIn t a b =
      some (decide (a.lowerBound.1 ≤ next t b.upperBound.1) &&
        decide (b.lowerBound.1 ≤ next t a.upperBound.1)) := by
  obtain ⟨m, hm, hmval⟩ := leastUpperBound_wraps ht b.upperBound
  obtain ⟨k, hk, hkval⟩ := leastUpperBound_wraps ht a.upperBound
  rw [adjacentIn_of_some hm hk, hmval, hkval]

/-- Among the types that wrap the two sides always agree. -/
theorem adjacentIn_comm (ht : t.overflows = false) (a b : CInterval t.Value) :
    adjacentIn t a b = adjacentIn t b a := by
  rw [adjacentIn_wraps ht, adjacentIn_wraps ht, Bool.and_comm]

/-- Below the largest value the successors are exact, of every type. -/
theorem adjacentIn_of_ne (ha : a.upperBound.1 + 1 ≠ t.hi) (hb : b.upperBound.1 + 1 ≠ t.hi) :
    adjacentIn t a b =
      some (decide (a.lowerBound.1 ≤ b.upperBound.1 + 1) &&
        decide (b.lowerBound.1 ≤ a.upperBound.1 + 1)) := by
  have hlt : a.upperBound.1 + 1 < t.hi ∧ b.upperBound.1 + 1 < t.hi := by
    have := a.upperBound.2
    have := b.upperBound.2
    omega
  rw [adjacentIn_of_some (FixedInt.leastUpperBound_of_lt hlt.2)
    (FixedInt.leastUpperBound_of_lt hlt.1)]

/-- Away from the largest value adjacency is right. -/
theorem adjacencyRight_of_ne (hane : a.empty = false) (hbne : b.empty = false)
    (ha : a.upperBound.1 + 1 ≠ t.hi) (hb : b.upperBound.1 + 1 ≠ t.hi) : AdjacencyRight a b := by
  refine ⟨_, adjacentIn_of_ne ha hb, ?_, ?_⟩
  · rw [adjacentIn_of_ne hb ha, Bool.and_comm]
  · rw [touch_iff hane hbne, Bool.and_eq_true, decide_eq_true_iff, decide_eq_true_iff, and_comm]

/-- The wrapped test is the exact one under the condition. -/
theorem next_iff (hane : a.empty = false) (hbne : b.empty = false) (ht : t.overflows = false) :
    ((a.lowerBound.1 ≤ next t b.upperBound.1 ∧ b.lowerBound.1 ≤ next t a.upperBound.1) ↔
      (b.lowerBound.1 ≤ a.upperBound.1 + 1 ∧ a.lowerBound.1 ≤ b.upperBound.1 + 1)) ↔
    SuccessorsFit a b := by
  have hal := a.lowerBound.2
  have hau := a.upperBound.2
  have hbl := b.lowerBound.2
  have hbu := b.upperBound.2
  rw [nonempty_value] at hane hbne
  rw [SuccessorsFit, if_neg (by rw [ht]; exact Bool.false_ne_true)]
  unfold next
  split <;> split <;> omega

/-- **Adjacency is right exactly where the successors do no harm.** -/
theorem adjacentTo_right_iff (t : FixedInt) (a b : CInterval t.Value) (ha : a.empty = false)
    (hb : b.empty = false) : AdjacencyRight a b ↔ SuccessorsFit a b := by
  cases ht : t.overflows with
  | false =>
    rw [← next_iff ha hb ht, ← touch_iff ha hb, AdjacencyRight, adjacentIn_comm ht b a,
      adjacentIn_wraps ht]
    simp only [Option.some.injEq, exists_eq_left', true_and, Bool.and_eq_true,
      decide_eq_true_iff]
  | true =>
    rw [SuccessorsFit, if_pos ht]
    constructor
    · rintro ⟨r, hab, hba, -⟩
      constructor
      · intro heq
        rw [adjacentIn_of_none (by rw [FixedInt.leastUpperBound_of_eq heq, ht]; rfl)] at hba
        cases hba
      · intro heq
        rw [adjacentIn_of_none (by rw [FixedInt.leastUpperBound_of_eq heq, ht]; rfl)] at hab
        cases hab
    · rintro ⟨hane, hbne⟩
      exact adjacencyRight_of_ne ha hb hane hbne

/-- An interval of this type, from numbers in its range. -/
def ofBounds (t : FixedInt) (lower upper : Int) (hlower : t.lo ≤ lower ∧ lower < t.hi)
    (hupper : t.lo ≤ upper ∧ upper < t.hi) : CInterval t.Value :=
  ⟨⟨lower, hlower⟩, ⟨upper, hupper⟩⟩

/-- `[5, 10]` and `[7, 255]` share points, `[1, 2]` and `[4, 5]` leave room for 3. -/
theorem adjacentTo_right_iff_u8 :
    ¬AdjacencyRight (ofBounds .u8 5 10 (by decide) (by decide))
      (ofBounds .u8 7 255 (by decide) (by decide)) ∧
    AdjacencyRight (ofBounds .u8 1 2 (by decide) (by decide))
      (ofBounds .u8 4 5 (by decide) (by decide)) := by
  refine ⟨fun h => ?_, ?_⟩
  · exact absurd ((adjacentTo_right_iff .u8 _ _ (by decide) (by decide)).mp h) (by decide)
  · exact (adjacentTo_right_iff .u8 _ _ (by decide) (by decide)).mpr (by decide)

/-- Two intervals of bytes that share the points 7 to 10 are not adjacent, and of `i32` and `i64`
    an interval that ends at the largest value has no answer. -/
theorem adjacent_at_the_largest :
    (¬∀ (t : FixedInt) (a b : CInterval t.Value), a.empty = false → b.empty = false →
      AdjacencyRight a b) ∧
    adjacentIn .u8 (ofBounds .u8 5 10 (by decide) (by decide))
      (ofBounds .u8 7 255 (by decide) (by decide)) = some false ∧
    (ofBounds .u8 5 10 (by decide) (by decide)).overlaps
      (ofBounds .u8 7 255 (by decide) (by decide)) = true ∧
    adjacentIn .i32 (ofBounds .i32 5 10 (by decide) (by decide))
      (ofBounds .i32 7 2147483647 (by decide) (by decide)) = none := by
  have hfalse : adjacentIn .u8 (ofBounds .u8 5 10 (by decide) (by decide))
      (ofBounds .u8 7 255 (by decide) (by decide)) = some false := by decide
  refine ⟨fun h => ?_, hfalse, by decide, by decide⟩
  obtain ⟨r, hr, -, htouch⟩ := h .u8 (ofBounds .u8 5 10 (by decide) (by decide))
    (ofBounds .u8 7 255 (by decide) (by decide)) (by decide) (by decide)
  rw [hfalse, Option.some.injEq] at hr
  rw [touch_iff (by decide) (by decide), ← hr] at htouch
  exact absurd (htouch.mpr (by decide)) Bool.false_ne_true

end BasicInterval

end Batt
