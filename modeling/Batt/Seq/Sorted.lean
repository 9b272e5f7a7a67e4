/-
  `is_sorted_by` and `is_sorted`.

  Both map a function over the neighbours of a sequence and ask whether it is true of all of them.
  `is_sorted_by` maps the order itself, and `is_sorted` what holds of neighbours that are in order
  or equivalent, so the first refuses what the second accepts where there are equivalent neighbours
  (`isSortedBy_iff_sorted`).
-/
import Mathlib.Data.List.Chain
import Batt.Seq.Expressions

namespace Batt.Seq

open Nexts

variable {S α β : Type}

/-! ## The operators -/

def allTrue [Nexts S Bool] (seq : S) : Bool :=
  (forEach (fun ans item => if !item then (.kBreak, false) else (.kContinue, ans)) true seq).2

def isSortedBy [Nexts S α] (compare : α → α → Bool) (seq : S) : Bool :=
  allTrue (MapAdjacent.start seq compare)

/-- `less` is the `operator<` of the items. -/
def isSorted [Nexts S α] (less : α → α → Bool) (seq : S) : Bool :=
  isSortedBy (fun left right => less left right || !less right left) seq

/-! ## What they compute -/

/-- The function between each item and the next. -/
def adjacent (fn : α → α → β) : List α → List β
  | [] => []
  | x :: xs => List.zipWith fn (x :: xs) xs

theorem items_mapAdjacent_some [Nexts S α] (fn : α → α → β) (s : S) :
    ∀ first, items (MapAdjacent.mk s fn (some first)) = adjacent fn (first :: items s) := by
  refine items_induct (P := fun s => ∀ first,
    items (MapAdjacent.mk s fn (some first)) = adjacent fn (first :: items s)) ?_ ?_ s
  · intro s hend first
    have hnext : AtEnd (MapAdjacent.mk s fn (some first)) := by
      rw [AtEnd] at hend ⊢
      simp only [next, MapAdjacent.next, hend, Option.map_none]
    rw [items_of_none hend, items_of_none hnext]
    rfl
  · intro s x hx ih first
    have hnext : next (MapAdjacent.mk s fn (some first)) =
        (some (fn first x), MapAdjacent.mk (next s).2 fn (some x)) := by
      simp only [next, MapAdjacent.next, hx, Option.map_some]
    rw [items_of_some hx, items_of_some (by rw [hnext]), hnext, ih x]
    rfl

theorem items_mapAdjacent [Nexts S α] (fn : α → α → β) (s : S) :
    items (MapAdjacent.start s fn) = adjacent fn (items s) := by
  cases hx : (next s).1 with
  | none =>
    have hnext : AtEnd (MapAdjacent.start s fn) := by
      simp only [AtEnd, MapAdjacent.start, next, MapAdjacent.next, hx]
    rw [items_of_none hx, items_of_none hnext]
    rfl
  | some x =>
    rw [items_of_some hx, MapAdjacent.start, hx]
    exact items_mapAdjacent_some fn (next s).2 x

/-- The loop breaks at the first item that is false. -/
theorem foldUntilBreak_all (l : List Bool) :
    (foldUntilBreak (fun ans item => if !item then (.kBreak, false) else (.kContinue, ans))
      true l).2 = l.all id := by
  induction l with
  | nil => rfl
  | cons item l ih =>
    cases item with
    | false => rfl
    | true => exact ih

theorem allTrue_eq [Nexts S Bool] (s : S) : allTrue s = (items s).all id := by
  rw [allTrue, forEach_eq, foldUntilBreak_all]

theorem all_adjacent (compare : α → α → Bool) (l : List α) :
    (adjacent compare l).all id = true ↔ l.IsChain fun a b => compare a b = true := by
  induction l with
  | nil => exact iff_of_true rfl .nil
  | cons x l ih =>
    cases l with
    | nil => exact iff_of_true rfl (.singleton x)
    | cons y l =>
      rw [List.isChain_cons_cons, ← ih]
      exact Bool.and_eq_true_iff

theorem isSortedBy_iff [Nexts S α] (compare : α → α → Bool) (s : S) :
    isSortedBy compare s = true ↔ (items s).IsChain fun a b => compare a b = true := by
  rw [isSortedBy, allTrue_eq, items_mapAdjacent, all_adjacent]

/-! ## Sortedness -/

/-- No item is less than the one in front of it (`std::is_sorted`). -/
def Sorted (order : α → α → Bool) (l : List α) : Prop :=
  l.IsChain fun a b => order b a = false

/-- No two neighbours are equivalent. -/
def NoTies (order : α → α → Bool) (l : List α) : Prop :=
  l.IsChain fun a b => order a b = true ∨ order b a = true

theorem isSorted_iff [Nexts S α] {less : α → α → Bool}
    (ho : IsStrictWeakOrder α fun a b => less a b = true) (s : S) :
    isSorted less s = true ↔ Sorted less (items s) := by
  rw [isSorted, isSortedBy_iff, Sorted]
  refine List.IsChain.iff fun a b => ?_
  rw [Bool.or_eq_true_iff, Bool.not_eq_true', or_iff_right_of_imp]
  intro hab
  rw [← Bool.not_eq_true]
  exact fun hba => ho.irrefl a (ho.trans a b a hab hba)

/-- Neighbours are in strict order where they are in order and not equivalent. -/
theorem isSortedBy_iff_noTies [Nexts S α] {order : α → α → Bool}
    (ho : IsStrictWeakOrder α fun a b => order a b = true) (s : S) :
    isSortedBy order s = true ↔ Sorted order (items s) ∧ NoTies order (items s) := by
  rw [isSortedBy_iff]
  constructor
  · intro h
    refine ⟨h.imp fun a b hab => ?_, h.imp fun a b hab => .inl hab⟩
    rw [← Bool.not_eq_true]
    exact fun hba => ho.irrefl a (ho.trans a b a hab hba)
  · rintro ⟨hsorted, hties⟩
    rw [List.isChain_iff_forall_rel_of_append_cons_cons]
    intro a b l₁ l₂ hl
    have hba := List.isChain_iff_forall_rel_of_append_cons_cons.mp hsorted hl
    refine (List.isChain_iff_forall_rel_of_append_cons_cons.mp hties hl).resolve_right ?_
    rw [hba]
    nofun

/-- **`is_sorted_by` and sortedness.** `is_sorted_by` says whether no item is less than the one in
    front of it, and agrees with `is_sorted`, exactly if some item is or no two neighbours are
    equivalent. -/
theorem isSortedBy_iff_sorted [Nexts S α] {order : α → α → Bool}
    (ho : IsStrictWeakOrder α fun a b => order a b = true) (s : S) :
    ((isSortedBy order s = true ↔ Sorted order (items s)) ∧
        isSorted order s = isSortedBy order s) ↔
      ¬Sorted order (items s) ∨ NoTies order (items s) := by
  rw [Bool.eq_iff_iff (a := isSorted order s), isSorted_iff ho, isSortedBy_iff_noTies ho, ← imp_iff_not_or,
    and_iff_left_iff_imp]
  exact and_iff_left_of_imp fun h => (and_iff_left_iff_imp.mpr h).symm

theorem less_strictWeak : IsStrictWeakOrder Nat fun a b => decide (a < b) = true where
  irrefl := by simp
  trans := by simp only [decide_eq_true_eq]; omega
  incomp_trans := by simp only [decide_eq_true_eq]; omega

theorem isSortedBy_iff_sorted_three :
    isSorted (fun a b => decide (a < b)) (SubRangeSeq.mk [1, 2, 4]) =
      isSortedBy (fun a b => decide (a < b)) (SubRangeSeq.mk [1, 2, 4]) := by
  refine ((isSortedBy_iff_sorted less_strictWeak (SubRangeSeq.mk [1, 2, 4])).mpr (.inr ?_)).2
  rw [items_subRangeSeq, NoTies]
  simp

/-- Two ones are sorted, but not by `<`. -/
theorem ones_not_sorted_by_less :
    isSortedBy (fun a b => decide (a < b)) (SubRangeSeq.mk [1, 1]) = false ∧
      Sorted (fun a b => decide (a < b)) (items (SubRangeSeq.mk [1, 1])) ∧
        isSorted (fun a b => decide (a < b)) (SubRangeSeq.mk [1, 1]) = true := by
  have hitems : items (SubRangeSeq.mk [1, 1]) = [1, 1] := items_subRangeSeq _
  refine ⟨?_, ?_, ?_⟩
  · rw [isSortedBy, allTrue_eq, items_mapAdjacent, hitems]
    rfl
  · rw [hitems, Sorted, List.isChain_pair]
    rfl
  · rw [isSorted, isSortedBy, allTrue_eq, items_mapAdjacent, hitems]
    rfl

end Batt.Seq
