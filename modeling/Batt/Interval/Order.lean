/-
  `LinearOrder` of intervals and the search by it.

  The three overloads read the traits: an interval is before another if what lies between the
  lower bound of the other and its own upper bound is empty, and a point is compared with one
  bound. What makes them one order is that each kind of interval is bounded in the same way
  (`Bounding`): the lower bound belongs to the interval, the points that the upper bound lets in
  have all lesser ones among them, and an interval is empty if its upper bound does not let in
  its lower one.
-/
import Batt.Interval.Sets
import Batt.Lib.Search

namespace Batt

/-! ## The overloads -/

namespace IntervalTraits

variable {T : Type} (traits : IntervalTraits T)

def xIncludedByLower (x lower : T) : Bool := traits.lowerIncludesX lower x

def upperIncludesX (upper x : T) : Bool := traits.xIncludedByUpper x upper

def xExcludedByLower (x lower : T) : Bool := !traits.xIncludedByLower x lower

def upperExcludesX (upper x : T) : Bool := !traits.upperIncludesX upper x

end IntervalTraits

namespace BasicInterval

variable {T : Type} {traits : IntervalTraits T}

/-- `LinearOrder::operator()` of two intervals. -/
def linearOrder (l r : BasicInterval traits) : Bool := traits.empty r.lowerBound l.upperBound

/-- `LinearOrder::operator()` of a point and an interval. -/
def linearOrderXI (l : T) (r : BasicInterval traits) : Bool :=
  traits.xExcludedByLower l r.lowerBound

/-- `LinearOrder::operator()` of an interval and a point. -/
def linearOrderIX (l : BasicInterval traits) (r : T) : Bool :=
  traits.upperExcludesX l.upperBound r

theorem overlaps_eq (a b : BasicInterval traits) :
    a.overlaps b = (!linearOrder a b && !linearOrder b a) := rfl

theorem contains_iff (a : BasicInterval traits) (x : T) :
    a.contains x = true ↔ linearOrderXI x a = false ∧ linearOrderIX a x = false := by
  simp only [contains, linearOrderXI, linearOrderIX, IntervalTraits.xExcludedByLower,
    IntervalTraits.xIncludedByLower, IntervalTraits.upperExcludesX, IntervalTraits.upperIncludesX,
    Bool.and_eq_true, Bool.not_eq_false']

/-! ## The common bounds -/

/-- How the traits bound an interval of an ordered type. -/
structure Bounding [LinearOrder T] (traits : IntervalTraits T) : Prop where
  lowerIncludesX_iff : ∀ lower x, traits.lowerIncludesX lower x = true ↔ lower ≤ x
  empty_iff : ∀ lower upper, traits.empty lower upper = !traits.xIncludedByUpper lower upper
  falling : ∀ x y upper, x ≤ y → traits.xIncludedByUpper y upper = true →
    traits.xIncludedByUpper x upper = true

theorem bounding_closedOpen (T : Type) [LinearOrder T] :
    Bounding (IntervalTraits.closedOpen T) where
  lowerIncludesX_iff _ _ := IntervalTraits.lessOrEqual_eq_true
  empty_iff _ _ := rfl
  falling x y upper hle hy := by
    simp only [IntervalTraits.closedOpen, IntervalTraits.lessThan_eq_true] at hy ⊢
    exact hle.trans_lt hy

theorem bounding_closedBy [LinearOrder T] (leastUpperBound : T → T) :
    Bounding (IntervalTraits.closedBy leastUpperBound) where
  lowerIncludesX_iff _ _ := IntervalTraits.lessOrEqual_eq_true
  empty_iff _ _ := (Bool.not_not _).symm
  falling x y upper hle hy := by
    simp only [IntervalTraits.closedBy, IntervalTraits.lessOrEqual_eq_true] at hy ⊢
    exact hle.trans hy

section Bounding

variable [LinearOrder T] (h : Bounding traits) {a b c : BasicInterval traits} {x : T}

include h

theorem Bounding.linearOrderXI_iff : linearOrderXI x a = true ↔ x < a.lowerBound := by
  rw [linearOrderXI, IntervalTraits.xExcludedByLower, IntervalTraits.xIncludedByLower,
    Bool.not_eq_true', ← Bool.not_eq_true, h.lowerIncludesX_iff, not_le]

theorem Bounding.linearOrder_iff : linearOrder a b = true ↔ linearOrderIX a b.lowerBound = true := by
  rw [linearOrder, h.empty_iff]
  rfl

/-- What is above a point behind an interval is behind it. -/
theorem Bounding.linearOrderIX_mono {y : T} (hle : x ≤ y) (hx : linearOrderIX a x = true) :
    linearOrderIX a y = true := by
  simp only [linearOrderIX, IntervalTraits.upperExcludesX, IntervalTraits.upperIncludesX,
    Bool.not_eq_true', ← Bool.not_eq_true] at hx ⊢
  exact fun hy => hx (h.falling x y _ hle hy)

theorem Bounding.nonempty_iff : a.empty = false ↔ linearOrderIX a a.lowerBound = false := by
  rw [empty, h.empty_iff]
  rfl

/-- The lower bound is a point of the interval. -/
theorem Bounding.contains_lowerBound (ha : a.empty = false) : a.contains a.lowerBound = true := by
  rw [contains_iff, ← Bool.not_eq_true, h.linearOrderXI_iff]
  exact ⟨lt_irrefl _, h.nonempty_iff.mp ha⟩

theorem Bounding.irrefl (ha : a.empty = false) : linearOrder a a = false := by
  rw [← Bool.not_eq_true, h.linearOrder_iff, h.nonempty_iff.mp ha]
  exact Bool.false_ne_true

/-- A point is not on both sides. -/
theorem Bounding.not_both (ha : a.empty = false) (hbehind : linearOrderIX a x = true) :
    linearOrderXI x a = false := by
  rw [← Bool.not_eq_true, h.linearOrderXI_iff]
  intro hlt
  have hlower := h.linearOrderIX_mono hlt.le hbehind
  rw [h.nonempty_iff.mp ha] at hlower
  cases hlower

/-- The order is between two intervals if it is between a point that is not before the greater
    and the lesser. -/
theorem Bounding.linearOrderIX_of_linearOrder (hab : linearOrder a b = true)
    (hx : linearOrderXI x b = false) : linearOrderIX a x = true := by
  rw [← Bool.not_eq_true, h.linearOrderXI_iff, not_lt] at hx
  exact h.linearOrderIX_mono hx (h.linearOrder_iff.mp hab)

theorem Bounding.linearOrderXI_of_linearOrder (hab : linearOrder a b = true)
    (hx : linearOrderIX a x = false) : linearOrderXI x b = true := by
  rw [← Bool.not_eq_false]
  intro hnot
  rw [h.linearOrderIX_of_linearOrder hab hnot] at hx
  cases hx

theorem Bounding.lt_of_linearOrder (ha : a.empty = false) (hab : linearOrder a b = true) :
    a.lowerBound < b.lowerBound :=
  h.linearOrderXI_iff.mp (h.linearOrderXI_of_linearOrder hab (h.nonempty_iff.mp ha))

theorem Bounding.trans (hb : b.empty = false) (hab : linearOrder a b = true)
    (hbc : linearOrder b c = true) : linearOrder a c = true := by
  rw [h.linearOrder_iff] at hab ⊢
  exact h.linearOrderIX_mono (h.lt_of_linearOrder hb hbc).le hab

theorem Bounding.asymm (ha : a.empty = false) (hb : b.empty = false)
    (hab : linearOrder a b = true) : linearOrder b a = false := by
  rw [← Bool.not_eq_true]
  intro hba
  exact absurd (h.lt_of_linearOrder ha hab) (h.lt_of_linearOrder hb hba).not_gt

/-- The greater of the lower bounds is a common point, if any is. -/
theorem Bounding.overlaps_iff (ha : a.empty = false) (hb : b.empty = false) :
    a.overlaps b = true ↔ ∃ x, a.contains x = true ∧ b.contains x = true := by
  rw [overlaps_eq, Bool.and_eq_true, Bool.not_eq_true', Bool.not_eq_true']
  constructor
  · rintro ⟨hab, hba⟩
    rw [← Bool.not_eq_true, h.linearOrder_iff, Bool.not_eq_true] at hab hba
    rcases le_total a.lowerBound b.lowerBound with hle | hle
    · refine ⟨b.lowerBound, (contains_iff _ _).mpr ⟨?_, hab⟩, h.contains_lowerBound hb⟩
      rw [← Bool.not_eq_true, h.linearOrderXI_iff]
      exact hle.not_gt
    · refine ⟨a.lowerBound, h.contains_lowerBound ha, (contains_iff _ _).mpr ⟨?_, hba⟩⟩
      rw [← Bool.not_eq_true, h.linearOrderXI_iff]
      exact hle.not_gt
  · rintro ⟨x, hax, hbx⟩
    rw [contains_iff] at hax hbx
    simp only [← Bool.not_eq_true]
    constructor
    · intro hab
      rw [h.linearOrderIX_of_linearOrder hab hbx.1] at hax
      cases hax.2
    · intro hba
      rw [h.linearOrderIX_of_linearOrder hba hax.1] at hbx
      cases hbx.2

/-- An interval is before another if all its points are. -/
theorem Bounding.linearOrder_iff_before (ha : a.empty = false) :
    linearOrder a b = true ↔ ∀ x, a.contains x = true → linearOrderXI x b = true := by
  constructor
  · intro hab x hx
    exact h.linearOrderXI_of_linearOrder hab ((contains_iff _ _).mp hx).2
  · intro hall
    have hlt := h.linearOrderXI_iff.mp (hall _ (h.contains_lowerBound ha))
    rw [h.linearOrder_iff, ← Bool.not_eq_false]
    intro hin
    -- the lower bound of `b` would be a point of `a`
    have hmem : a.contains b.lowerBound = true := by
      rw [contains_iff, ← Bool.not_eq_true, h.linearOrderXI_iff]
      exact ⟨hlt.not_gt, hin⟩
    exact lt_irrefl _ (h.linearOrderXI_iff.mp (hall _ hmem))

/-- Or if the points of the other are all behind it. -/
theorem Bounding.linearOrder_iff_behind (hb : b.empty = false) :
    linearOrder a b = true ↔ ∀ x, b.contains x = true → linearOrderIX a x = true := by
  constructor
  · intro hab x hx
    exact h.linearOrderIX_of_linearOrder hab ((contains_iff _ _).mp hx).1
  · intro hall
    exact h.linearOrder_iff.mpr (hall _ (h.contains_lowerBound hb))

end Bounding

/-! ## Searching -/

/-- `std::is_sorted` by `LinearOrder`: none is before one in front of it. -/
def Sorted (xs : List (BasicInterval traits)) : Prop :=
  xs.Pairwise fun a b => linearOrder b a = false

def Disjoint (xs : List (BasicInterval traits)) : Prop :=
  xs.Pairwise fun a b => ∀ x, ¬(a.contains x = true ∧ b.contains x = true)

/-- The search for the interval that contains a point: what `std::lower_bound` stops at, if that
    is not behind the point. -/
def find (xs : List (BasicInterval traits)) (x : T) : Option Nat :=
  let i := BinarySearch.lowerBound linearOrderIX xs x
  if xs[i]?.any (!linearOrderXI x ·) then some i else none

theorem matches_iff {a : BasicInterval traits} {x : T} :
    BinarySearch.Matches linearOrderIX linearOrderXI x a ↔ a.contains x = true := by
  rw [contains_iff, BinarySearch.Matches, and_comm]

theorem find_eq_some_iff {xs : List (BasicInterval traits)} {x : T}
    (hxs : BinarySearch.Ordered linearOrderIX linearOrderXI xs x) {i : Nat} :
    find xs x = some i ↔ ∃ a, xs[i]? = some a ∧ a.contains x = true := by
  simp only [find, Option.ite_none_right_eq_some, Option.some.injEq, Option.any_eq_true,
    Bool.not_eq_true']
  constructor
  · rintro ⟨⟨a, ha, hx⟩, rfl⟩
    exact ⟨a, ha, matches_iff.mp (hxs.matches_lowerBound ha hx)⟩
  · rintro ⟨a, ha, hx⟩
    have hm := matches_iff.mpr hx
    obtain ⟨hlower, -⟩ := hxs.bounds_of_matches ha hm
    rw [hlower]
    exact ⟨⟨a, ha, hm.2⟩, rfl⟩

theorem Bounding.ordered_of_sorted [LinearOrder T] (h : Bounding traits)
    {xs : List (BasicInterval traits)} (hne : ∀ a ∈ xs, a.empty = false) (hsorted : Sorted xs)
    (hdisjoint : Disjoint xs) (x : T) :
    BinarySearch.Ordered linearOrderIX linearOrderXI xs x := by
  have hlt : ∀ (i j : Nat) (a b : BasicInterval traits), i < j → xs[i]? = some a →
      xs[j]? = some b → linearOrder a b = true := by
    intro i j a b hij ha hb
    obtain ⟨hi, rfl⟩ := List.getElem?_eq_some_iff.mp ha
    obtain ⟨hj, rfl⟩ := List.getElem?_eq_some_iff.mp hb
    have hba := List.pairwise_iff_getElem.mp hsorted i j hi hj hij
    have hno := List.pairwise_iff_getElem.mp hdisjoint i j hi hj hij
    rw [← Bool.not_eq_false]
    intro hab
    have hover : overlaps xs[i] xs[j] = true := by
      rw [overlaps_eq, hab, hba]
      rfl
    obtain ⟨y, hy⟩ := (h.overlaps_iff (hne _ (List.getElem_mem hi))
      (hne _ (List.getElem_mem hj))).mp hover
    exact hno y hy
  refine ⟨fun i j a b hij ha hb => ?_, fun i j a b hij ha hb => ?_, fun a ha => ?_⟩
  · exact h.linearOrderIX_of_linearOrder (hlt i j a b hij ha hb)
  · exact h.linearOrderXI_of_linearOrder (hlt i j a b hij ha hb)
  · exact h.not_both (hne a ha)

/-- What `LinearOrder` promises to the algorithms that search and sort by it. -/
structure Searchable (traits : IntervalTraits T) : Prop where
  irrefl : ∀ a : BasicInterval traits, a.empty = false → linearOrder a a = false
  trans : ∀ a b c : BasicInterval traits, a.empty = false → b.empty = false → c.empty = false →
    linearOrder a b = true → linearOrder b c = true → linearOrder a c = true
  asymm : ∀ a b : BasicInterval traits, a.empty = false → b.empty = false →
    linearOrder a b = true → linearOrder b a = false
  incomparable_iff : ∀ a b : BasicInterval traits, a.empty = false → b.empty = false →
    ((linearOrder a b = false ∧ linearOrder b a = false) ↔ a.overlaps b = true)
  overlaps_iff : ∀ a b : BasicInterval traits, a.empty = false → b.empty = false →
    (a.overlaps b = true ↔ ∃ x, a.contains x = true ∧ b.contains x = true)
  contains_iff : ∀ (a : BasicInterval traits) (x : T), a.empty = false →
    (a.contains x = true ↔ linearOrderXI x a = false ∧ linearOrderIX a x = false)
  not_both : ∀ (a : BasicInterval traits) (x : T), a.empty = false →
    ¬(linearOrderXI x a = true ∧ linearOrderIX a x = true)
  iff_before : ∀ a b : BasicInterval traits, a.empty = false → b.empty = false →
    (linearOrder a b = true ↔ ∀ x, a.contains x = true → linearOrderXI x b = true)
  iff_behind : ∀ a b : BasicInterval traits, a.empty = false → b.empty = false →
    (linearOrder a b = true ↔ ∀ x, b.contains x = true → linearOrderIX a x = true)
  find_iff : ∀ xs : List (BasicInterval traits), (∀ a ∈ xs, a.empty = false) → Disjoint xs →
    Sorted xs → ∀ (x : T) (i : Nat),
      find xs x = some i ↔ ∃ a, xs[i]? = some a ∧ a.contains x = true
  binarySearch_iff : ∀ xs : List (BasicInterval traits), (∀ a ∈ xs, a.empty = false) →
    Disjoint xs → Sorted xs → ∀ x : T,
      BinarySearch.binarySearch linearOrderIX linearOrderXI xs x = true ↔
        ∃ a ∈ xs, a.contains x = true
  equalRange_eq : ∀ xs : List (BasicInterval traits), (∀ a ∈ xs, a.empty = false) →
    Disjoint xs → Sorted xs → ∀ (x : T) (i : Nat) (a : BasicInterval traits),
      xs[i]? = some a → a.contains x = true →
        BinarySearch.equalRange linearOrderIX linearOrderXI xs x = (i, i + 1)
  equalRange_empty : ∀ xs : List (BasicInterval traits), (∀ a ∈ xs, a.empty = false) →
    Disjoint xs → Sorted xs → ∀ x : T, (∀ a ∈ xs, a.contains x = false) →
      ∃ i, BinarySearch.equalRange linearOrderIX linearOrderXI xs x = (i, i)

theorem Bounding.searchable [LinearOrder T] (h : Bounding traits) : Searchable traits where
  irrefl _ ha := h.irrefl ha
  trans _ _ _ _ hb _ := h.trans hb
  asymm _ _ ha hb := h.asymm ha hb
  incomparable_iff a b _ _ := by
    rw [overlaps_eq, Bool.and_eq_true, Bool.not_eq_true', Bool.not_eq_true']
  overlaps_iff _ _ ha hb := h.overlaps_iff ha hb
  contains_iff a x _ := BasicInterval.contains_iff a x
  not_both a x ha := by
    rintro ⟨hbefore, hbehind⟩
    rw [h.not_both ha hbehind] at hbefore
    cases hbefore
  iff_before _ _ ha _ := h.linearOrder_iff_before ha
  iff_behind _ _ _ hb := h.linearOrder_iff_behind hb
  find_iff xs hne hdisjoint hsorted x i :=
    find_eq_some_iff (h.ordered_of_sorted hne hsorted hdisjoint x)
  binarySearch_iff xs hne hdisjoint hsorted x := by
    rw [(h.ordered_of_sorted hne hsorted hdisjoint x).binarySearch_iff]
    simp only [matches_iff]
  equalRange_eq xs hne hdisjoint hsorted x i a ha hx := by
    obtain ⟨hlower, hupper⟩ := (h.ordered_of_sorted hne hsorted hdisjoint x).bounds_of_matches ha
      (matches_iff.mpr hx)
    rw [BinarySearch.equalRange, hlower, hupper]
  equalRange_empty xs hne hdisjoint hsorted x hnone := by
    refine ⟨_, Prod.ext rfl ?_⟩
    refine (h.ordered_of_sorted hne hsorted hdisjoint x).equalRange_of_none fun a ha hm => ?_
    rw [matches_iff, hnone a ha] at hm
    cases hm

/-- **`LinearOrder` supports searching**: half-open intervals of any ordered type and closed ones
    of any ordered type. -/
theorem linearOrder_searchable (T : Type) [LinearOrder T] :
    Searchable (IntervalTraits.closedOpen T) ∧
      ∀ leastUpperBound : T → T, Searchable (IntervalTraits.closedBy leastUpperBound) :=
  ⟨(bounding_closedOpen T).searchable, fun leastUpperBound =>
    (bounding_closedBy leastUpperBound).searchable⟩

end BasicInterval

end Batt
