/-
  Intervals (batteries/interval.hpp, batteries/interval_traits.hpp).

  `BasicInterval` is one class over traits, which say what the bounds mean: `Interval` has the
  upper bound out (`closedOpen`), `CInterval` has it in (`closed`). The operations below are
  written once and read the traits, as in the source. The order is `NaturalOrder`, `<` of the
  item type.
-/
import Mathlib.Order.Defs.LinearOrder
import Mathlib.Order.Lattice
import Mathlib.Algebra.Order.Ring.Int

namespace Batt

/-! ## Traits -/

/-- What the traits of one kind of interval define. -/
structure IntervalTraits (T : Type) where
  empty : T → T → Bool
  lowerIncludesX : T → T → Bool
  xIncludedByUpper : T → T → Bool
  adjacent : T → T → T → T → Bool

namespace IntervalTraits

variable {T : Type}

section Base

variable [LinearOrder T] {x y z : T}

def lessThan (left right : T) : Bool := decide (left < right)

def min (left right : T) : T := if lessThan right left then right else left

def max (left right : T) : T := if lessThan left right then right else left

def greaterThan (left right : T) : Bool := lessThan right left

def lessOrEqual (left right : T) : Bool := !greaterThan left right

/-- The traits of `Interval`. -/
def closedOpen (T : Type) [LinearOrder T] : IntervalTraits T where
  empty lower upper := lessOrEqual upper lower
  lowerIncludesX lower x := lessOrEqual lower x
  xIncludedByUpper x upper := lessThan x upper
  adjacent aLower aUpper bLower bUpper := !lessThan aUpper bLower && !lessThan bUpper aLower

@[simp] theorem lessThan_eq_true : lessThan x y = true ↔ x < y := decide_eq_true_iff

@[simp] theorem lessOrEqual_eq_true : lessOrEqual x y = true ↔ x ≤ y := by
  rw [lessOrEqual, greaterThan, Bool.not_eq_true', ← Bool.not_eq_true, lessThan_eq_true, not_lt]

@[simp] theorem lt_min : x < min y z ↔ x < y ∧ x < z := by
  unfold min
  split
  · next h =>
    rw [lessThan_eq_true] at h
    exact ⟨fun hx => ⟨hx.trans h, hx⟩, And.right⟩
  · next h =>
    rw [lessThan_eq_true, not_lt] at h
    exact ⟨fun hx => ⟨hx, hx.trans_le h⟩, And.left⟩

@[simp] theorem le_min : x ≤ min y z ↔ x ≤ y ∧ x ≤ z := by
  unfold min
  split
  · next h =>
    rw [lessThan_eq_true] at h
    exact ⟨fun hx => ⟨hx.trans h.le, hx⟩, And.right⟩
  · next h =>
    rw [lessThan_eq_true, not_lt] at h
    exact ⟨fun hx => ⟨hx, hx.trans h⟩, And.left⟩

@[simp] theorem max_le : max x y ≤ z ↔ x ≤ z ∧ y ≤ z := by
  unfold max
  split
  · next h =>
    rw [lessThan_eq_true] at h
    exact ⟨fun hz => ⟨h.le.trans hz, hz⟩, And.right⟩
  · next h =>
    rw [lessThan_eq_true, not_lt] at h
    exact ⟨fun hz => ⟨hz, h.trans hz⟩, And.left⟩

@[simp] theorem max_lt : max x y < z ↔ x < z ∧ y < z := by
  unfold max
  split
  · next h =>
    rw [lessThan_eq_true] at h
    exact ⟨fun hz => ⟨h.trans hz, hz⟩, And.right⟩
  · next h =>
    rw [lessThan_eq_true, not_lt] at h
    exact ⟨fun hz => ⟨hz, h.trans_lt hz⟩, And.left⟩

end Base

end IntervalTraits

/-- The integers, with `least_upper_bound`: nothing lies between a number and that of it, if it
    has a greater one. -/
class IntBounds (T : Type) extends LinearOrder T where
  leastUpperBound : T → T
  leastUpperBound_le : ∀ {x y : T}, x < y → leastUpperBound x ≤ y

instance : IntBounds Int where
  leastUpperBound n := n + 1
  leastUpperBound_le h := h

/-- An integer type of the machine: the numbers from `lo` to below `hi`. -/
abbrev MachineInt (lo hi : Int) := { n : Int // lo ≤ n ∧ n < hi }

/-- `n + 1` wraps. -/
instance (lo hi : Int) : IntBounds (MachineInt lo hi) where
  leastUpperBound n :=
    if h : n.1 + 1 < hi then ⟨n.1 + 1, by have := n.2; omega⟩
    else ⟨lo, by have := n.2; omega⟩
  leastUpperBound_le {x y} h := by
    have hlt : x.1 < y.1 := h
    have hy := y.2.2
    rw [dif_pos (by omega)]
    exact hlt

/-- The traits of `CInterval` for any order. -/
def IntervalTraits.closedBy {T : Type} [LinearOrder T] (leastUpperBound : T → T) :
    IntervalTraits T where
  empty lower upper := lessThan upper lower
  lowerIncludesX lower x := lessOrEqual lower x
  xIncludedByUpper x upper := lessOrEqual x upper
  adjacent aLower aUpper bLower bUpper :=
    lessOrEqual aLower (leastUpperBound bUpper) && lessOrEqual bLower (leastUpperBound aUpper)

/-- The traits of `CInterval`. -/
def IntervalTraits.closed (T : Type) [IntBounds T] : IntervalTraits T :=
  .closedBy IntBounds.leastUpperBound

/-! ## Intervals -/

structure BasicInterval {T : Type} (traits : IntervalTraits T) where
  lowerBound : T
  upperBound : T
deriving DecidableEq, Repr

namespace BasicInterval

variable {T : Type} {traits : IntervalTraits T}

def empty (a : BasicInterval traits) : Bool := traits.empty a.lowerBound a.upperBound

def contains (a : BasicInterval traits) (item : T) : Bool :=
  traits.lowerIncludesX a.lowerBound item && traits.xIncludedByUpper item a.upperBound

def adjacentTo (a b : BasicInterval traits) : Bool :=
  traits.adjacent a.lowerBound a.upperBound b.lowerBound b.upperBound

def overlaps (a b : BasicInterval traits) : Bool :=
  !traits.empty b.lowerBound a.upperBound && !traits.empty a.lowerBound b.upperBound

variable [LinearOrder T]

/-- From the lesser lower bound to the greater upper bound (`std::min`, `std::max`). -/
def unionWith (a b : BasicInterval traits) : BasicInterval traits :=
  { lowerBound := min a.lowerBound b.lowerBound, upperBound := max a.upperBound b.upperBound }

/-- An empty intersection is returned as the interval from the lower bound to itself. -/
def intersectionWith (a b : BasicInterval traits) : BasicInterval traits :=
  let i : BasicInterval traits :=
    { lowerBound := IntervalTraits.max a.lowerBound b.lowerBound
      upperBound := IntervalTraits.min a.upperBound b.upperBound }
  if i.empty then { lowerBound := a.lowerBound, upperBound := a.lowerBound } else i

def without (a b : BasicInterval traits) : List (BasicInterval traits) :=
  if a.empty then []
  else
    let first : BasicInterval traits :=
      { lowerBound := a.lowerBound
        upperBound := IntervalTraits.min a.upperBound b.lowerBound }
    let second : BasicInterval traits :=
      { lowerBound := IntervalTraits.max a.lowerBound b.upperBound
        upperBound := a.upperBound }
    if first.adjacentTo second then [a]
    else (if first.empty then [] else [first]) ++ (if second.empty then [] else [second])

end BasicInterval

/-- A half-open interval. -/
abbrev Interval (T : Type) [LinearOrder T] := BasicInterval (IntervalTraits.closedOpen T)

/-- A closed interval. -/
abbrev CInterval (T : Type) [IntBounds T] := BasicInterval (IntervalTraits.closed T)

end Batt
