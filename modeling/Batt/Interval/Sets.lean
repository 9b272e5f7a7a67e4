/-
  Intervals as sets of points.

  `IsIntersection` and `IsDifference` say what `intersection_with` and `without` are for, of any
  kind of interval. Half-open intervals meet both, whatever their bounds (`interval_algebra`).
  Closed ones do not: an empty intersection is returned as `[lower, lower]`, which has a point,
  and `without` cuts at the bounds of the other interval, which belong to it. The two cancel
  only where there is nothing to cut (`cinterval_algebra_iff`).
-/
import Batt.Interval.Model

namespace Batt.BasicInterval

variable {T : Type} {traits : IntervalTraits T} {first second : BasicInterval traits}

/-- `c` has the points which both `a` and `b` have. -/
def IsIntersection (c a b : BasicInterval traits) : Prop :=
  ∀ x, c.contains x = true ↔ a.contains x = true ∧ b.contains x = true

/-- The pieces have points, no two of them share one, and together they have those of `a` which
    `b` has not. -/
structure IsDifference (pieces : List (BasicInterval traits)) (a b : BasicInterval traits) :
    Prop where
  nonempty : ∀ p ∈ pieces, p.empty = false
  disjoint : pieces.Pairwise fun p q => ∀ x, ¬(p.contains x = true ∧ q.contains x = true)
  contains_iff : ∀ x, (∃ p ∈ pieces, p.contains x = true) ↔
    a.contains x = true ∧ ¬b.contains x = true

theorem isDifference_nil {a b : BasicInterval traits}
    (h : ∀ x, a.contains x = true → b.contains x = true) : IsDifference [] a b where
  nonempty := nofun
  disjoint := .nil
  contains_iff x := by
    constructor
    · rintro ⟨p, hp, -⟩
      cases hp
    · rintro ⟨hax, hbx⟩
      exact absurd (h x hax) hbx

theorem isDifference_self {a b : BasicInterval traits} (ha : a.empty = false)
    (hb : ∀ x, ¬b.contains x = true) : IsDifference [a] a b where
  nonempty p hp := by
    rw [List.mem_singleton.mp hp]
    exact ha
  disjoint := List.pairwise_singleton _ _
  contains_iff x := by
    simp only [List.mem_singleton, exists_eq_left]
    exact ⟨fun hx => ⟨hx, hb x⟩, And.left⟩

/-- The pieces that `without` keeps of two. -/
theorem mem_kept {p : BasicInterval traits} :
    p ∈ (if first.empty then [] else [first]) ++ (if second.empty then [] else [second]) ↔
      p.empty = false ∧ (p = first ∨ p = second) := by
  have hkept : ∀ q : BasicInterval traits,
      p ∈ (if q.empty then [] else [q]) ↔ p.empty = false ∧ p = q := by
    intro q
    split
    · next h =>
      simp only [List.not_mem_nil, false_iff]
      rintro ⟨hp, rfl⟩
      rw [hp] at h
      cases h
    · next h =>
      rw [List.mem_singleton]
      refine ⟨?_, And.right⟩
      rintro rfl
      exact ⟨Bool.eq_false_iff.mpr h, rfl⟩
  rw [List.mem_append, hkept, hkept, and_or_left]

/-- Two pieces, whichever of them are kept, are in the relation if `first` and `second` are. -/
theorem pairwise_kept {R : BasicInterval traits → BasicInterval traits → Prop} (h : R first second)
    :
    ((if first.empty then [] else [first]) ++
      (if second.empty then [] else [second])).Pairwise R := by
  split <;> split <;> simp [h]

theorem length_kept :
    ((if first.empty then [] else [first]) ++
      (if second.empty then [] else [second])).length ≤ 2 := by
  split <;> split <;> simp

/-! ## Half-open intervals -/

section HalfOpen

variable [LinearOrder T] {a b : Interval T} {x : T}

@[simp] theorem contains_closedOpen :
    a.contains x = true ↔ a.lowerBound ≤ x ∧ x < a.upperBound := by
  simp only [contains, IntervalTraits.closedOpen, Bool.and_eq_true,
    IntervalTraits.lessOrEqual_eq_true, IntervalTraits.lessThan_eq_true]

@[simp] theorem empty_closedOpen : a.empty = true ↔ a.upperBound ≤ a.lowerBound :=
  IntervalTraits.lessOrEqual_eq_true

theorem nonempty_closedOpen : a.empty = false ↔ a.lowerBound < a.upperBound := by
  rw [← Bool.not_eq_true, empty_closedOpen, not_le]

theorem adjacentTo_closedOpen :
    a.adjacentTo b = true ↔ b.lowerBound ≤ a.upperBound ∧ a.lowerBound ≤ b.upperBound := by
  simp only [adjacentTo, IntervalTraits.closedOpen, Bool.and_eq_true, Bool.not_eq_true',
    ← Bool.not_eq_true, IntervalTraits.lessThan_eq_true, not_lt]

theorem overlaps_closedOpen :
    a.overlaps b = true ↔ b.lowerBound < a.upperBound ∧ a.lowerBound < b.upperBound := by
  simp only [overlaps, IntervalTraits.closedOpen, Bool.and_eq_true, Bool.not_eq_true',
    ← Bool.not_eq_true, IntervalTraits.lessOrEqual_eq_true, not_le]

/-- The bounds of an intersection, if it has a point. -/
theorem intersectionWith_closedOpen (a b : Interval T) :
    (a.intersectionWith b).empty = false ↔
      (a.lowerBound < a.upperBound ∧ b.lowerBound < a.upperBound) ∧
        a.lowerBound < b.upperBound ∧ b.lowerBound < b.upperBound := by
  unfold intersectionWith
  simp only
  split
  · next h =>
    rw [empty_closedOpen, ← not_lt, IntervalTraits.lt_min, IntervalTraits.max_lt,
      IntervalTraits.max_lt] at h
    simp only [nonempty_closedOpen, lt_irrefl, false_iff]
    exact h
  · next h =>
    rw [empty_closedOpen, not_le, IntervalTraits.lt_min, IntervalTraits.max_lt,
      IntervalTraits.max_lt] at h
    rw [nonempty_closedOpen, IntervalTraits.lt_min, IntervalTraits.max_lt, IntervalTraits.max_lt]

theorem isIntersection_closedOpen (a b : Interval T) :
    IsIntersection (a.intersectionWith b) a b := by
  intro x
  unfold intersectionWith
  simp only
  split
  · next h =>
    rw [empty_closedOpen, ← not_lt, IntervalTraits.lt_min, IntervalTraits.max_lt,
      IntervalTraits.max_lt] at h
    simp only [contains_closedOpen]
    constructor
    · intro hx
      exact absurd (hx.1.trans_lt hx.2) (lt_irrefl _)
    · rintro ⟨⟨hal, hau⟩, hbl, hbu⟩
      exact absurd ⟨⟨hal.trans_lt hau, hbl.trans_lt hau⟩, hal.trans_lt hbu, hbl.trans_lt hbu⟩ h
  · simp only [contains_closedOpen, IntervalTraits.max_le, IntervalTraits.lt_min]
    constructor
    · rintro ⟨⟨hal, hbl⟩, hau, hbu⟩
      exact ⟨⟨hal, hau⟩, hbl, hbu⟩
    · rintro ⟨⟨hal, hau⟩, hbl, hbu⟩
      exact ⟨⟨hal, hbl⟩, hau, hbu⟩

/-- What `without` returns for an interval that has a point: all of it if the other is empty and
    lies within its bounds, else what is kept of the part below and the part above. -/
theorem without_closedOpen_cases (ha : a.lowerBound < a.upperBound) :
    (a.without b = [a] ∧ b.upperBound ≤ b.lowerBound) ∨
      ∃ first second : Interval T, first.upperBound < second.lowerBound ∧
        (∀ x, first.contains x = true ↔ a.contains x = true ∧ x < b.lowerBound) ∧
        (∀ x, second.contains x = true ↔ a.contains x = true ∧ b.upperBound ≤ x) ∧
        a.without b =
          (if first.empty then [] else [first]) ++ (if second.empty then [] else [second]) := by
  unfold without
  rw [if_neg (by rw [empty_closedOpen, not_le]; exact ha)]
  simp only
  split
  · next h =>
    rw [adjacentTo_closedOpen] at h
    simp only [IntervalTraits.max_le, IntervalTraits.le_min] at h
    exact .inl ⟨rfl, h.1.2.2⟩
  · next h =>
    refine .inr ⟨_, _, ?_, ?_, ?_, rfl⟩
    · rw [adjacentTo_closedOpen, not_and_or, not_le, not_le] at h
      exact h.resolve_right (not_lt.mpr ha.le)
    · intro x
      simp only [contains_closedOpen, IntervalTraits.lt_min, and_assoc]
    · intro x
      simp only [contains_closedOpen, IntervalTraits.max_le]
      constructor
      · rintro ⟨⟨hal, hbu⟩, hau⟩
        exact ⟨⟨hal, hau⟩, hbu⟩
      · rintro ⟨⟨hal, hau⟩, hbu⟩
        exact ⟨⟨hal, hbu⟩, hau⟩

theorem nonempty_of_contains (h : a.contains x = true) : a.empty = false := by
  rw [contains_closedOpen] at h
  exact nonempty_closedOpen.mpr (h.1.trans_lt h.2)

theorem isDifference_kept {p q : Interval T} (hgap : p.upperBound < q.lowerBound)
    (hp : ∀ x, p.contains x = true ↔ a.contains x = true ∧ x < b.lowerBound)
    (hq : ∀ x, q.contains x = true ↔ a.contains x = true ∧ b.upperBound ≤ x) :
    IsDifference ((if p.empty then [] else [p]) ++ (if q.empty then [] else [q])) a b := by
  refine ⟨fun r hr => (mem_kept.mp hr).1, pairwise_kept ?_, fun x => ⟨?_, ?_⟩⟩
  · rintro x ⟨hpx, hqx⟩
    rw [contains_closedOpen] at hpx hqx
    exact absurd (hqx.1.trans_lt hpx.2) (not_lt.mpr hgap.le)
  · rintro ⟨r, hr, hx⟩
    rcases (mem_kept.mp hr).2 with rfl | rfl
    · obtain ⟨hax, hlt⟩ := (hp x).mp hx
      exact ⟨hax, fun hbx => absurd (contains_closedOpen.mp hbx).1 (not_le.mpr hlt)⟩
    · obtain ⟨hax, hle⟩ := (hq x).mp hx
      exact ⟨hax, fun hbx => absurd (contains_closedOpen.mp hbx).2 (not_lt.mpr hle)⟩
  · rintro ⟨hax, hbx⟩
    rw [contains_closedOpen, not_and_or, not_le, not_lt] at hbx
    rcases hbx with hlt | hle
    · have hx := (hp x).mpr ⟨hax, hlt⟩
      exact ⟨p, mem_kept.mpr ⟨nonempty_of_contains hx, .inl rfl⟩, hx⟩
    · have hx := (hq x).mpr ⟨hax, hle⟩
      exact ⟨q, mem_kept.mpr ⟨nonempty_of_contains hx, .inr rfl⟩, hx⟩

theorem without_of_empty (ha : ¬a.lowerBound < a.upperBound) : a.without b = [] := by
  rw [without, if_pos (by rw [empty_closedOpen]; exact not_lt.mp ha)]

theorem isDifference_closedOpen (a b : Interval T) : IsDifference (a.without b) a b := by
  by_cases ha : a.lowerBound < a.upperBound
  · rcases without_closedOpen_cases (b := b) ha with ⟨hpieces, hb⟩ | ⟨p, q, hgap, hp, hq, hpieces⟩
    · rw [hpieces]
      refine isDifference_self (nonempty_closedOpen.mpr ha) fun x hx => ?_
      rw [contains_closedOpen] at hx
      exact absurd (hx.1.trans_lt hx.2) (not_lt.mpr hb)
    · rw [hpieces]
      exact isDifference_kept hgap hp hq
  · rw [without_of_empty ha]
    refine isDifference_nil fun x hx => ?_
    rw [contains_closedOpen] at hx
    exact absurd (hx.1.trans_lt hx.2) ha

/-- At most two pieces, each above the one before. -/
theorem without_increasing (a b : Interval T) :
    (a.without b).length ≤ 2 ∧
      (a.without b).Pairwise fun p q => p.upperBound < q.lowerBound := by
  by_cases ha : a.lowerBound < a.upperBound
  · rcases without_closedOpen_cases (b := b) ha with ⟨hpieces, hb⟩ | ⟨p, q, hgap, hp, hq, hpieces⟩
    · rw [hpieces]
      exact ⟨Nat.le_succ 1, List.pairwise_singleton _ _⟩
    · rw [hpieces]
      exact ⟨length_kept, pairwise_kept hgap⟩
  · rw [without_of_empty ha]
    exact ⟨Nat.zero_le 2, .nil⟩

/-- The set algebra of two half-open intervals. -/
structure SetAlgebra (a b : Interval T) : Prop where
  intersection : IsIntersection (a.intersectionWith b) a b
  difference : IsDifference (a.without b) a b
  length_without : (a.without b).length ≤ 2
  increasing : (a.without b).Pairwise fun p q => p.upperBound < q.lowerBound
  union : ∀ x, a.contains x = true ∨ b.contains x = true → (a.unionWith b).contains x = true
  overlaps_comm : a.empty = false → b.empty = false → a.overlaps b = b.overlaps a
  overlaps_iff : a.empty = false → b.empty = false →
    (a.overlaps b = true ↔ (a.intersectionWith b).empty = false)
  adjacentTo_comm : a.empty = false → b.empty = false → a.adjacentTo b = b.adjacentTo a
  adjacentTo_iff : a.empty = false → b.empty = false →
    (a.adjacentTo b = true ↔
      a.overlaps b = true ∨ b.lowerBound = a.upperBound ∨ a.lowerBound = b.upperBound)

theorem unionWith_contains (h : a.contains x = true ∨ b.contains x = true) :
    (a.unionWith b).contains x = true := by
  simp only [contains_closedOpen, unionWith] at h ⊢
  rcases h with ⟨hl, hu⟩ | ⟨hl, hu⟩
  · exact ⟨(min_le_left _ _).trans hl, hu.trans_le (le_max_left _ _)⟩
  · exact ⟨(min_le_right _ _).trans hl, hu.trans_le (le_max_right _ _)⟩

/-- **Half-open intervals are sets**: of any two, over any order, empty and inverted ones too. -/
theorem interval_algebra (a b : Interval T) : SetAlgebra a b where
  intersection := isIntersection_closedOpen a b
  difference := isDifference_closedOpen a b
  length_without := (without_increasing a b).1
  increasing := (without_increasing a b).2
  union _ := unionWith_contains
  overlaps_comm _ _ := by
    rw [Bool.eq_iff_iff, overlaps_closedOpen, overlaps_closedOpen, and_comm]
  overlaps_iff ha hb := by
    rw [nonempty_closedOpen] at ha hb
    rw [overlaps_closedOpen, intersectionWith_closedOpen]
    exact ⟨fun h => ⟨⟨ha, h.1⟩, h.2, hb⟩, fun h => ⟨h.1.2, h.2.1⟩⟩
  adjacentTo_comm _ _ := by
    rw [Bool.eq_iff_iff, adjacentTo_closedOpen, adjacentTo_closedOpen, and_comm]
  adjacentTo_iff ha hb := by
    rw [nonempty_closedOpen] at ha hb
    rw [adjacentTo_closedOpen, overlaps_closedOpen]
    constructor
    · rintro ⟨hba, hab⟩
      rcases hba.lt_or_eq with hlt | heq
      · rcases hab.lt_or_eq with hlt' | heq'
        · exact .inl ⟨hlt, hlt'⟩
        · exact .inr (.inr heq')
      · exact .inr (.inl heq)
    · rintro (⟨hlt, hlt'⟩ | heq | heq)
      · exact ⟨hlt.le, hlt'.le⟩
      · exact ⟨heq.le, (ha.trans_eq heq.symm).le.trans hb.le⟩
      · exact ⟨(hb.trans_eq heq.symm).le.trans ha.le, heq.le⟩

end HalfOpen

/-! ## Closed intervals -/

section Closed

variable [IntBounds T] {a b : CInterval T} {x : T}

@[simp] theorem contains_closed :
    a.contains x = true ↔ a.lowerBound ≤ x ∧ x ≤ a.upperBound := by
  simp only [contains, IntervalTraits.closed, IntervalTraits.closedBy, Bool.and_eq_true,
    IntervalTraits.lessOrEqual_eq_true]

@[simp] theorem empty_closed : a.empty = true ↔ a.upperBound < a.lowerBound :=
  IntervalTraits.lessThan_eq_true

/-- The two intervals have a point in common. -/
def Meet (a b : CInterval T) : Prop :=
  (a.lowerBound ≤ a.upperBound ∧ b.lowerBound ≤ a.upperBound) ∧
    a.lowerBound ≤ b.upperBound ∧ b.lowerBound ≤ b.upperBound

theorem meet_of_contains (ha : a.contains x = true) (hb : b.contains x = true) : Meet a b := by
  rw [contains_closed] at ha hb
  exact ⟨⟨ha.1.trans ha.2, hb.1.trans ha.2⟩, ha.1.trans hb.2, hb.1.trans hb.2⟩

/-- Without a point in common, `[lower, lower]` is returned, and it has one. -/
theorem isIntersection_closed_iff (a b : CInterval T) :
    IsIntersection (a.intersectionWith b) a b ↔ Meet a b := by
  have hempty : (BasicInterval.mk (IntervalTraits.max a.lowerBound b.lowerBound)
      (IntervalTraits.min a.upperBound b.upperBound) : CInterval T).empty = true ↔
        ¬Meet a b := by
    rw [empty_closed, ← not_le, IntervalTraits.le_min, IntervalTraits.max_le,
      IntervalTraits.max_le, Meet]
  unfold IsIntersection intersectionWith
  simp only
  by_cases hmeet : Meet a b
  · rw [if_neg (by rw [hempty, not_not]; exact hmeet)]
    refine ⟨fun _ => hmeet, fun _ x => ?_⟩
    simp only [contains_closed, IntervalTraits.max_le, IntervalTraits.le_min]
    constructor
    · rintro ⟨⟨hal, hbl⟩, hau, hbu⟩
      exact ⟨⟨hal, hau⟩, hbl, hbu⟩
    · rintro ⟨⟨hal, hau⟩, hbl, hbu⟩
      exact ⟨⟨hal, hbl⟩, hau, hbu⟩
  · rw [if_pos (hempty.mpr hmeet)]
    refine ⟨fun h => ?_, fun h => absurd h hmeet⟩
    have hlower := (h a.lowerBound).mp (contains_closed.mpr ⟨le_refl _, le_refl _⟩)
    exact meet_of_contains hlower.1 hlower.2

/-- What is returned shows a point of both if anything of `a` sticks out of `b`. -/
theorem not_isDifference_closed (hmeet : Meet a b)
    (hout : a.lowerBound ≤ b.lowerBound ∨ b.upperBound ≤ a.upperBound) :
    ¬IsDifference (a.without b) a b := by
  obtain ⟨⟨ha, hba⟩, hab, hb⟩ := hmeet
  -- it is enough to find a piece with a point of `b`
  suffices h : ∃ p ∈ a.without b, ∃ x, p.contains x = true ∧ b.contains x = true by
    rintro hdiff
    obtain ⟨p, hp, x, hpx, hbx⟩ := h
    exact ((hdiff.contains_iff x).mp ⟨p, hp, hpx⟩).2 hbx
  have hmin : IntervalTraits.min a.upperBound b.lowerBound = b.lowerBound := by
    refine le_antisymm ?_ (IntervalTraits.le_min.mpr ⟨hba, le_refl _⟩)
    exact (IntervalTraits.le_min.mp (le_refl _)).2
  have hmax : IntervalTraits.max a.lowerBound b.upperBound = b.upperBound := by
    refine le_antisymm (IntervalTraits.max_le.mpr ⟨hab, le_refl _⟩) ?_
    exact (IntervalTraits.max_le.mp (le_refl _)).2
  unfold without
  rw [if_neg (by rw [empty_closed, not_lt]; exact ha), hmin, hmax]
  simp only
  split
  · refine ⟨a, List.mem_singleton.mpr rfl, ?_⟩
    rcases hout with hout | hout
    · exact ⟨b.lowerBound, contains_closed.mpr ⟨hout, hba⟩, contains_closed.mpr ⟨le_refl _, hb⟩⟩
    · exact ⟨b.upperBound, contains_closed.mpr ⟨hab, hout⟩, contains_closed.mpr ⟨hb, le_refl _⟩⟩
  · rcases hout with hout | hout
    · refine ⟨_, mem_kept.mpr ⟨?_, .inl rfl⟩, b.lowerBound,
        contains_closed.mpr ⟨hout, le_refl _⟩, contains_closed.mpr ⟨le_refl _, hb⟩⟩
      rw [← Bool.not_eq_true, empty_closed, not_lt]
      exact hout
    · refine ⟨_, mem_kept.mpr ⟨?_, .inr rfl⟩, b.upperBound,
        contains_closed.mpr ⟨le_refl _, hout⟩, contains_closed.mpr ⟨hb, le_refl _⟩⟩
      rw [← Bool.not_eq_true, empty_closed, not_lt]
      exact hout

/-- Nothing is left of an interval that lies strictly inside the other. -/
theorem without_inside (hl : b.lowerBound < a.lowerBound) (ha : a.lowerBound ≤ a.upperBound)
    (hu : a.upperBound < b.upperBound) : a.without b = [] := by
  have hmin : IntervalTraits.min a.upperBound b.lowerBound = b.lowerBound := by
    rw [IntervalTraits.min, if_pos (IntervalTraits.lessThan_eq_true.mpr (hl.trans_le ha))]
  have hmax : IntervalTraits.max a.lowerBound b.upperBound = b.upperBound := by
    rw [IntervalTraits.max, if_pos (IntervalTraits.lessThan_eq_true.mpr (ha.trans_lt hu))]
  unfold without
  rw [if_neg (by rw [empty_closed, not_lt]; exact ha), hmin, hmax]
  simp only
  have hgap : ¬(b.upperBound ≤ IntBounds.leastUpperBound b.lowerBound) := by
    rw [not_le]
    exact ((IntBounds.leastUpperBound_le hl).trans ha).trans_lt hu
  rw [if_neg (by simp [adjacentTo, IntervalTraits.closed, IntervalTraits.closedBy, hgap]),
    if_pos (empty_closed.mpr hl), if_pos (empty_closed.mpr hu), List.append_nil]

/-- **Closed intervals are sets only where nothing is cut**: `intersection_with` and `without`
    are both right if and only if the first interval has a point and lies strictly inside the
    second. -/
theorem cinterval_algebra_iff (a b : CInterval T) :
    (IsIntersection (a.intersectionWith b) a b ∧ IsDifference (a.without b) a b) ↔
      b.lowerBound < a.lowerBound ∧ a.lowerBound ≤ a.upperBound ∧
        a.upperBound < b.upperBound := by
  constructor
  · rintro ⟨hinter, hdiff⟩
    have hmeet := (isIntersection_closed_iff a b).mp hinter
    refine ⟨?_, hmeet.1.1, ?_⟩
    · by_contra hout
      exact not_isDifference_closed hmeet (.inl (not_lt.mp hout)) hdiff
    · by_contra hout
      exact not_isDifference_closed hmeet (.inr (not_lt.mp hout)) hdiff
  · rintro ⟨hl, ha, hu⟩
    refine ⟨(isIntersection_closed_iff a b).mpr ?_, ?_⟩
    · exact ⟨⟨ha, hl.le.trans ha⟩, ha.trans hu.le, (hl.le.trans ha).trans hu.le⟩
    · rw [without_inside hl ha hu]
      refine isDifference_nil fun x hx => ?_
      rw [contains_closed] at hx ⊢
      exact ⟨hl.le.trans hx.1, hx.2.trans hu.le⟩

/-- `[0, 1]` and `[3, 4]` are disjoint, but their intersection has a point; and what is left of
    `[0, 10]` without `[3, 5]` has the points 3 and 5. -/
theorem cinterval_shares_points :
    (¬∀ a b : CInterval Int, IsIntersection (a.intersectionWith b) a b ∧
      IsDifference (a.without b) a b) ∧
    (BasicInterval.mk 0 1 : CInterval Int).intersectionWith ⟨3, 4⟩ = ⟨0, 0⟩ ∧
    (BasicInterval.mk 0 10 : CInterval Int).without ⟨3, 5⟩ = [⟨0, 3⟩, ⟨5, 10⟩] := by
  refine ⟨fun h => ?_, by decide, by decide⟩
  have hzero := ((h ⟨0, 1⟩ ⟨3, 4⟩).1 0).mp (by decide)
  exact absurd hzero.2 (by decide)

end Closed

end Batt.BasicInterval
