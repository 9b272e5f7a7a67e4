/-
  Binary search by halving, as the C++ standard library has it.

  A predicate of the indices that holds up to some index and from there on does not is searched
  for that index (`partitionPoint_spec`). `lowerBound` and `upperBound` search a list for the
  first element that is not before the key, and for the first that is behind it. Elements and
  keys may be of different types, and two elements of the list that no test tells apart from
  the key are allowed: what is asked of the list is only that the tests cut it.
-/
import Mathlib.Data.List.Basic
import Mathlib.Order.Nat

namespace BinarySearch

variable {α κ : Type}

/-- The loop of `std::lower_bound` from `first` over `count` elements. -/
def partitionPoint (p : Nat → Bool) (first count : Nat) : Nat :=
  if count = 0 then first
  else
    let half := count / 2
    if p (first + half) then partitionPoint p (first + half + 1) (count - (half + 1))
    else partitionPoint p first half
termination_by count

/-- Between `first` and `last` the predicate holds below `i` and not from `i` on. -/
structure Cuts (p : Nat → Bool) (first last i : Nat) : Prop where
  first_le : first ≤ i
  le_last : i ≤ last
  below : ∀ j, first ≤ j → j < i → p j = true
  above : ∀ j, i ≤ j → j < last → p j = false

theorem Cuts.unique {p : Nat → Bool} {first last i i' : Nat} (h : Cuts p first last i)
    (h' : Cuts p first last i') : i = i' := by
  rcases Nat.lt_trichotomy i i' with hlt | heq | hgt
  · have hbelow := h'.below i h.first_le hlt
    rw [h.above i (le_refl i) (hlt.trans_le h'.le_last)] at hbelow
    cases hbelow
  · exact heq
  · have hbelow := h.below i' h'.first_le hgt
    rw [h'.above i' (le_refl i') (hgt.trans_le h.le_last)] at hbelow
    cases hbelow

/-- The predicate, once false, stays false. -/
def Falling (p : Nat → Bool) (first last : Nat) : Prop :=
  ∀ i j, first ≤ i → i ≤ j → j < last → p j = true → p i = true

theorem partitionPoint_spec (p : Nat → Bool) (first count : Nat)
    (hp : Falling p first (first + count)) :
    Cuts p first (first + count) (partitionPoint p first count) := by
  induction first, count using partitionPoint.induct p with
  | case1 first =>
    rw [partitionPoint, if_pos rfl]
    exact ⟨le_refl _, le_refl _, fun j _ _ => by omega, fun j _ _ => by omega⟩
  | case2 first count hcount half hmid ih =>
    have hlast : first + half + 1 + (count - (half + 1)) = first + count := by omega
    rw [hlast] at ih
    have hcuts := ih fun i j hi => hp i j (by omega)
    have heq : partitionPoint p first count =
        partitionPoint p (first + half + 1) (count - (half + 1)) := by
      rw [partitionPoint, if_neg hcount]
      exact if_pos hmid
    rw [heq]
    refine ⟨by have := hcuts.first_le; omega, hcuts.le_last, fun j hj hlt => ?_, hcuts.above⟩
    by_cases hle : j ≤ first + half
    · exact hp j _ hj hle (by omega) hmid
    · exact hcuts.below j (by omega) hlt
  | case3 first count hcount half hmid ih =>
    have hcuts := ih fun i j hi hij hj => hp i j hi hij (by omega)
    have heq : partitionPoint p first count = partitionPoint p first half := by
      rw [partitionPoint, if_neg hcount]
      exact if_neg hmid
    rw [heq]
    refine ⟨hcuts.first_le, by have := hcuts.le_last; omega, hcuts.below, fun j hj hlt => ?_⟩
    by_cases hge : first + half ≤ j
    · -- the predicate is false in the middle
      rw [← Bool.not_eq_true]
      exact fun hpj => hmid (hp _ j (by omega) hge hlt hpj)
    · exact hcuts.above j hj (by omega)

/-! ## Lists -/

/-- `std::lower_bound(begin, end, key, before)`, as the index it stops at. -/
def lowerBound (before : α → κ → Bool) (xs : List α) (key : κ) : Nat :=
  partitionPoint (fun i => xs[i]?.any (before · key)) 0 xs.length

/-- `std::upper_bound(begin, end, key, behind)`. -/
def upperBound (behind : κ → α → Bool) (xs : List α) (key : κ) : Nat :=
  partitionPoint (fun i => xs[i]?.any (!behind key ·)) 0 xs.length

/-- `std::equal_range(begin, end, key)`. -/
def equalRange (before : α → κ → Bool) (behind : κ → α → Bool) (xs : List α) (key : κ) :
    Nat × Nat :=
  (lowerBound before xs key, upperBound behind xs key)

/-- `std::binary_search(begin, end, key)`. -/
def binarySearch (before : α → κ → Bool) (behind : κ → α → Bool) (xs : List α) (key : κ) : Bool :=
  xs[lowerBound before xs key]?.any (!behind key ·)

/-- Where the tests hold: `before` of a first part of the list, `behind` of a last part, and no
    element between the parts but at most one. -/
structure Ordered (before : α → κ → Bool) (behind : κ → α → Bool) (xs : List α) (key : κ) :
    Prop where
  before_of_lt : ∀ (i j : Nat) (a b : α), i < j → xs[i]? = some a → xs[j]? = some b →
    behind key b = false → before a key = true
  behind_of_lt : ∀ (i j : Nat) (a b : α), i < j → xs[i]? = some a → xs[j]? = some b →
    before a key = false → behind key b = true
  not_both : ∀ a ∈ xs, before a key = true → behind key a = false

variable {before : α → κ → Bool} {behind : κ → α → Bool} {xs : List α} {key : κ}

theorem Ordered.falling_before (h : Ordered before behind xs key) :
    Falling (fun i => xs[i]?.any (before · key)) 0 (0 + xs.length) := by
  intro i j _ hij hj hpj
  simp only [Option.any_eq_true] at hpj ⊢
  obtain ⟨b, hb, hbefore⟩ := hpj
  rcases hij.eq_or_lt with rfl | hlt
  · exact ⟨b, hb, hbefore⟩
  · obtain ⟨a, ha⟩ : ∃ a, xs[i]? = some a := ⟨_, List.getElem?_eq_getElem (by omega)⟩
    exact ⟨a, ha, h.before_of_lt i j a b hlt ha hb
      (h.not_both b (List.mem_of_getElem? hb) hbefore)⟩

theorem Ordered.falling_behind (h : Ordered before behind xs key) :
    Falling (fun i => xs[i]?.any (!behind key ·)) 0 (0 + xs.length) := by
  intro i j _ hij hj hpj
  simp only [Option.any_eq_true, Bool.not_eq_true'] at hpj ⊢
  obtain ⟨b, hb, hbehind⟩ := hpj
  rcases hij.eq_or_lt with rfl | hlt
  · exact ⟨b, hb, hbehind⟩
  · obtain ⟨a, ha⟩ : ∃ a, xs[i]? = some a := ⟨_, List.getElem?_eq_getElem (by omega)⟩
    exact ⟨a, ha, h.not_both a (List.mem_of_getElem? ha)
      (h.before_of_lt i j a b hlt ha hb hbehind)⟩

/-- Neither before the key nor behind it. -/
def Matches (before : α → κ → Bool) (behind : κ → α → Bool) (key : κ) (a : α) : Prop :=
  before a key = false ∧ behind key a = false

theorem Ordered.lowerBound_cuts (h : Ordered before behind xs key) :
    Cuts (fun i => xs[i]?.any (before · key)) 0 xs.length (lowerBound before xs key) := by
  have hcuts := partitionPoint_spec _ 0 xs.length h.falling_before
  rwa [Nat.zero_add] at hcuts

theorem Ordered.upperBound_cuts (h : Ordered before behind xs key) :
    Cuts (fun i => xs[i]?.any (!behind key ·)) 0 xs.length (upperBound behind xs key) := by
  have hcuts := partitionPoint_spec _ 0 xs.length h.falling_behind
  rwa [Nat.zero_add] at hcuts

theorem any_of_getElem? {p : α → Bool} {i : Nat} {a : α} (ha : xs[i]? = some a) :
    xs[i]?.any p = p a := by
  rw [ha, Option.any_some]

/-- An element that matches is where `lowerBound` stops, and `upperBound` right behind it. -/
theorem Ordered.bounds_of_matches (h : Ordered before behind xs key) {i : Nat} {a : α}
    (ha : xs[i]? = some a) (hm : Matches before behind key a) :
    lowerBound before xs key = i ∧ upperBound behind xs key = i + 1 := by
  have hlen : i < xs.length := (List.getElem?_eq_some_iff.mp ha).1
  constructor
  · refine h.lowerBound_cuts.unique ⟨Nat.zero_le i, hlen.le, fun j _ hlt => ?_, fun j hle hj => ?_⟩
    · have hb := List.getElem?_eq_getElem (hlt.trans hlen)
      rw [any_of_getElem? hb]
      exact h.before_of_lt j i _ a hlt hb ha hm.2
    · have hb := List.getElem?_eq_getElem hj
      rcases hle.eq_or_lt with rfl | hlt
      · rw [any_of_getElem? ha, hm.1]
      · rw [any_of_getElem? hb, ← Bool.not_eq_true]
        intro hbefore
        have hbehind := h.behind_of_lt i j a _ hlt ha hb hm.1
        rw [h.not_both _ (List.getElem_mem hj) hbefore] at hbehind
        cases hbehind
  · refine h.upperBound_cuts.unique ⟨Nat.zero_le _, hlen, fun j _ hlt => ?_, fun j hle hj => ?_⟩
    · rcases (Nat.lt_succ_iff.mp hlt).eq_or_lt with rfl | hlt
      · rw [any_of_getElem? ha, hm.2]
        rfl
      · have hb := List.getElem?_eq_getElem (hlt.trans hlen)
        rw [any_of_getElem? hb, Bool.not_eq_true']
        exact h.not_both _ (List.getElem_mem _) (h.before_of_lt j i _ a hlt hb ha hm.2)
    · have hb := List.getElem?_eq_getElem hj
      rw [any_of_getElem? hb, Bool.not_eq_false']
      exact h.behind_of_lt i j a _ (by omega) ha hb hm.1

/-- Where `lowerBound` stops, no element matches or this one does. -/
theorem Ordered.matches_lowerBound (h : Ordered before behind xs key) {a : α}
    (ha : xs[lowerBound before xs key]? = some a) (hbehind : behind key a = false) :
    Matches before behind key a := by
  refine ⟨?_, hbehind⟩
  have hlen := (List.getElem?_eq_some_iff.mp ha).1
  have habove := h.lowerBound_cuts.above _ (le_refl _) hlen
  rwa [any_of_getElem? ha] at habove

theorem Ordered.binarySearch_iff (h : Ordered before behind xs key) :
    binarySearch before behind xs key = true ↔ ∃ a ∈ xs, Matches before behind key a := by
  simp only [binarySearch, Option.any_eq_true, Bool.not_eq_true']
  constructor
  · rintro ⟨a, ha, hbehind⟩
    exact ⟨a, List.mem_of_getElem? ha, h.matches_lowerBound ha hbehind⟩
  · rintro ⟨a, hmem, hm⟩
    obtain ⟨i, ha⟩ := List.mem_iff_getElem?.mp hmem
    rw [(h.bounds_of_matches ha hm).1]
    exact ⟨a, ha, hm.2⟩

/-- The range is empty where no element matches. -/
theorem Ordered.equalRange_of_none (h : Ordered before behind xs key)
    (hnone : ∀ a ∈ xs, ¬Matches before behind key a) :
    upperBound behind xs key = lowerBound before xs key := by
  refine h.upperBound_cuts.unique ⟨Nat.zero_le _, h.lowerBound_cuts.le_last, ?_, ?_⟩
  · intro j hj hlt
    have hlen := hlt.trans_le h.lowerBound_cuts.le_last
    have hbefore := h.lowerBound_cuts.below j hj hlt
    have hb := List.getElem?_eq_getElem hlen
    rw [any_of_getElem? hb] at hbefore ⊢
    rw [Bool.not_eq_true']
    exact h.not_both _ (List.getElem_mem hlen) hbefore
  · intro j hle hj
    have hbefore := h.lowerBound_cuts.above j hle hj
    have hb := List.getElem?_eq_getElem hj
    rw [any_of_getElem? hb] at hbefore ⊢
    rw [Bool.not_eq_false', ← Bool.not_eq_false]
    exact fun hbehind => hnone _ (List.getElem_mem hj) ⟨hbefore, hbehind⟩

end BinarySearch
