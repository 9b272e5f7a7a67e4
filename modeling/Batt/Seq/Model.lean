/-
  The sequence algebra (batteries/seq/*.hpp): objects with `peek()` and `next()`.

  A class of the source is a structure here, with its data members as fields. Its `next()` is
  an instance of `Nexts`, its `peek()` one of `Seq`: each returns an Optional and the object
  as it leaves it. `CacheNext`, `GroupBy` and `Flatten` call only `next()` on their source
  (`Flatten` on its outer one), and ask for no more. An instance also carries a bound on the
  items to come, which goes down with every item: the loops of `Filter` and `Flatten` run on it.

  `clear s` says that `peek()` can be trusted on `s`: that the peeks it makes of the sequences
  below meet neither a `Chain` at the end of its first sequence while the second has an item,
  nor a `Fuse` at the end of its source. `MapAdjacent` has no `Seq` instance: its `peek()`
  returns an Optional<Optional<Item>> as an Optional<Item>, for which there is a conversion only
  if the item is a bool (`MapAdjacent.peekBool`).

  An item of `group_by` is taken for the list of the items it stands for, and shares no state
  with the sequence it came from: `next()` skips what the item before stood for.
-/
import Mathlib.Algebra.GroupWithZero.Nat
import Batt.Status

namespace Batt

/-- What the function of a `for_each` says (loop_control.hpp). -/
inductive LoopControl where
  | kContinue
  | kBreak
deriving DecidableEq, Repr

/-- What `next()` does, and a bound on the number of items it has to return. -/
class Nexts (S : Type) (α : outParam Type) where
  next : S → Option α × S
  bound : S → Nat
  bound_next_lt : ∀ {s : S}, (next s).1.isSome → bound (next s).2 < bound s
  bound_next_le : ∀ s : S, bound (next s).2 ≤ bound s

/-- What `peek()` does. A second `peek()` returns the same and changes nothing, and a `next()`
    after a `peek()` that shows an item makes progress. -/
class Seq (S : Type) (α : outParam Type) extends Nexts S α where
  peek : S → Option α × S
  clear : S → Prop
  bound_peek_le : ∀ s : S, bound (peek s).2 ≤ bound s
  peek_next_lt : ∀ {s : S}, (peek s).1.isSome → bound (next (peek s).2).2 < bound s
  peek_peek : ∀ s : S, peek (peek s).2 = peek s

namespace Seq

open Nexts

variable {S T α β γ σ : Type}

/-- No item is left. -/
def AtEnd [Nexts S α] (s : S) : Prop := (next s).1 = none

/-- The items up to the first `None`. -/
def items [Nexts S α] (s : S) : List α :=
  match _h : next s with
  | (none, _) => []
  | (some x, s') => x :: items s'
termination_by bound s
decreasing_by
  have hlt := bound_next_lt (s := s) (by rw [_h]; rfl)
  rw [_h] at hlt
  exact hlt

theorem items_of_none [Nexts S α] {s : S} (h : AtEnd s) : items s = [] := by
  rw [items]
  split
  · rfl
  · next heq =>
    rw [AtEnd, heq] at h
    cases h

theorem items_of_some [Nexts S α] {s : S} {x : α} (h : (next s).1 = some x) :
    items s = x :: items (next s).2 := by
  rw [items]
  split
  · next heq =>
    rw [heq] at h
    cases h
  · next heq =>
    rw [heq] at h ⊢
    cases h
    rfl

theorem next_head [Nexts S α] (s : S) : (next s).1 = (items s).head? := by
  cases hx : (next s).1 with
  | none => rw [items_of_none hx, List.head?_nil]
  | some x => rw [items_of_some hx, List.head?_cons]

/-! ## Containers -/

/-- `as_seq` of a container. -/
structure SubRangeSeq (α : Type) where
  subRange : List α
deriving Repr, DecidableEq

instance : Seq (SubRangeSeq α) α where
  next s := (s.subRange.head?, ⟨s.subRange.tail⟩)
  peek s := (s.subRange.head?, s)
  clear _ := True
  bound s := s.subRange.length
  bound_next_lt {s} h := by
    match s, h with
    | ⟨_ :: xs⟩, _ => exact Nat.lt_succ_self xs.length
  bound_next_le s := by
    rw [List.length_tail]
    exact Nat.sub_le _ _
  bound_peek_le _ := Nat.le_refl _
  peek_next_lt {s} h := by
    match s, h with
    | ⟨_ :: xs⟩, _ => exact Nat.lt_succ_self xs.length
  peek_peek _ := rfl

/-! ## map -/

structure Map (S α β : Type) where
  seq : S
  mapFn : α → β

instance [Nexts S α] : Nexts (Map S α β) β where
  next s := ((next s.seq).1.map s.mapFn, { s with seq := (next s.seq).2 })
  bound s := bound s.seq
  bound_next_lt h := bound_next_lt (by rwa [Option.isSome_map] at h)
  bound_next_le s := bound_next_le s.seq

instance [Seq S α] : Seq (Map S α β) β where
  peek s := ((peek s.seq).1.map s.mapFn, { s with seq := (peek s.seq).2 })
  clear s := clear s.seq
  bound_peek_le s := bound_peek_le s.seq
  peek_next_lt h := peek_next_lt (by rwa [Option.isSome_map] at h)
  peek_peek s := by simp only [peek_peek s.seq]

/-! ## take_n -/

structure TakeN (S : Type) where
  seq : S
  n : Nat
deriving Repr, DecidableEq

instance [Nexts S α] : Nexts (TakeN S) α where
  next s :=
    if s.n = 0 then (none, s)
    else ((next s.seq).1, { seq := (next s.seq).2, n := s.n - 1 })
  bound s := bound s.seq
  bound_next_lt {s} h := by
    by_cases hn : s.n = 0
    · rw [if_pos hn] at h
      cases h
    · rw [if_neg hn] at h ⊢
      exact bound_next_lt h
  bound_next_le s := by
    split
    · exact Nat.le_refl _
    · exact bound_next_le s.seq

instance [Seq S α] : Seq (TakeN S) α where
  peek s := if s.n = 0 then (none, s) else ((peek s.seq).1, { s with seq := (peek s.seq).2 })
  clear s := s.n ≠ 0 → clear s.seq
  bound_peek_le s := by
    split
    · exact Nat.le_refl _
    · exact bound_peek_le s.seq
  peek_next_lt {s} h := by
    by_cases hn : s.n = 0
    · rw [if_pos hn] at h
      cases h
    · simp only [if_neg hn, next] at h ⊢
      exact peek_next_lt h
  peek_peek s := by
    by_cases hn : s.n = 0
    · simp only [if_pos hn]
    · simp only [if_neg hn, peek_peek s.seq]

/-! ## skip_n -/

structure SkipN (S : Type) where
  seq : S
  n : Nat
deriving Repr, DecidableEq

instance [Nexts S α] : Nexts (SkipN S) α where
  next s :=
    if s.n ≠ 0 then (none, { seq := (next s.seq).2, n := s.n - 1 })
    else ((next s.seq).1, { s with seq := (next s.seq).2 })
  bound s := bound s.seq
  bound_next_lt {s} h := by
    by_cases hn : s.n ≠ 0
    · rw [if_pos hn] at h
      cases h
    · rw [if_neg hn] at h ⊢
      exact bound_next_lt h
  bound_next_le s := by
    split
    · exact bound_next_le s.seq
    · exact bound_next_le s.seq

instance [Seq S α] : Seq (SkipN S) α where
  peek s := if s.n ≠ 0 then (none, s) else ((peek s.seq).1, { s with seq := (peek s.seq).2 })
  clear s := s.n = 0 → clear s.seq
  bound_peek_le s := by
    split
    · exact Nat.le_refl _
    · exact bound_peek_le s.seq
  peek_next_lt {s} h := by
    by_cases hn : s.n ≠ 0
    · rw [if_pos hn] at h
      cases h
    · simp only [if_neg hn, next] at h ⊢
      exact peek_next_lt h
  peek_peek s := by
    by_cases hn : s.n ≠ 0
    · simp only [if_pos hn]
    · simp only [if_neg hn, peek_peek s.seq]

/-! ## take_while -/

structure TakeWhile (S α : Type) where
  seq : S
  predicate : α → Bool

def TakeWhile.peek [Seq S α] (s : TakeWhile S α) : Option α × TakeWhile S α :=
  ((Seq.peek s.seq).1.filter s.predicate, { s with seq := (Seq.peek s.seq).2 })

/-- `next()` returns what it has peeked. -/
def TakeWhile.next [Seq S α] (s : TakeWhile S α) : Option α × TakeWhile S α :=
  if s.peek.1.isSome then
    (s.peek.1, { s with seq := (Nexts.next (Seq.peek s.seq).2).2 })
  else s.peek

theorem TakeWhile.peek_isSome [Seq S α] {s : TakeWhile S α} (h : s.peek.1.isSome) :
    (Seq.peek s.seq).1.isSome := by
  cases hp : (Seq.peek s.seq).1 with
  | some x => rfl
  | none =>
    unfold TakeWhile.peek at h
    rw [hp] at h
    cases h

theorem TakeWhile.peek_peek [Seq S α] (s : TakeWhile S α) : s.peek.2.peek = s.peek := by
  simp only [TakeWhile.peek, Seq.peek_peek s.seq]

instance [Seq S α] : Seq (TakeWhile S α) α where
  next := TakeWhile.next
  peek := TakeWhile.peek
  -- `next()` goes by the peek, wrong or not
  clear _ := True
  bound s := bound s.seq
  bound_next_lt {s} h := by
    by_cases hp : s.peek.1.isSome
    · rw [TakeWhile.next, if_pos hp]
      exact peek_next_lt (TakeWhile.peek_isSome hp)
    · rw [TakeWhile.next, if_neg hp] at h
      exact absurd h hp
  bound_next_le s := by
    by_cases hp : s.peek.1.isSome
    · rw [TakeWhile.next, if_pos hp]
      exact Nat.le_of_lt (peek_next_lt (TakeWhile.peek_isSome hp))
    · rw [TakeWhile.next, if_neg hp]
      exact bound_peek_le s.seq
  bound_peek_le s := bound_peek_le s.seq
  peek_next_lt {s} h := by
    rw [TakeWhile.next, TakeWhile.peek_peek, if_pos h]
    have hseq : Seq.peek s.peek.2.seq = Seq.peek s.seq := peek_peek s.seq
    simp only [hseq]
    exact peek_next_lt (TakeWhile.peek_isSome h)
  peek_peek := TakeWhile.peek_peek

/-! ## map_fold -/

structure MapFold (S α σ β : Type) where
  seq : S
  state : σ
  mapFn : σ → α → σ × β

def MapFold.next [Nexts S α] (s : MapFold S α σ β) : Option β × MapFold S α σ β :=
  match (Nexts.next s.seq).1.map (s.mapFn s.state) with
  | none => (none, { s with seq := (Nexts.next s.seq).2 })
  | some (state, item) => (some item, { s with seq := (Nexts.next s.seq).2, state := state })

theorem MapFold.next_isSome [Nexts S α] {s : MapFold S α σ β} (h : s.next.1.isSome) :
    (Nexts.next s.seq).1.isSome := by
  cases hn : (Nexts.next s.seq).1 with
  | some x => rfl
  | none =>
    simp only [MapFold.next, hn, Option.map_none] at h
    cases h

theorem MapFold.next_seq [Nexts S α] (s : MapFold S α σ β) :
    s.next.2.seq = (Nexts.next s.seq).2 := by
  unfold MapFold.next
  split <;> rfl

instance [Nexts S α] : Nexts (MapFold S α σ β) β where
  next := MapFold.next
  bound s := bound s.seq
  bound_next_lt {s} h := by
    rw [MapFold.next_seq]
    exact bound_next_lt (MapFold.next_isSome h)
  bound_next_le s := by
    rw [MapFold.next_seq]
    exact bound_next_le s.seq

instance [Seq S α] : Seq (MapFold S α σ β) β where
  -- the state is not updated by a peek
  peek s :=
    (((peek s.seq).1.map (s.mapFn s.state)).map Prod.snd, { s with seq := (peek s.seq).2 })
  clear s := clear s.seq
  bound_peek_le s := bound_peek_le s.seq
  peek_next_lt {s} h := by
    simp only [next, MapFold.next_seq, bound]
    exact peek_next_lt (by rwa [Option.isSome_map, Option.isSome_map] at h)
  peek_peek s := by simp only [peek_peek s.seq]

/-! ## map_pairwise -/

structure MapPairwise (S T α β γ : Type) where
  left : S
  right : T
  mapFn : α → β → γ

def MapPairwise.next [Nexts S α] [Nexts T β] (s : MapPairwise S T α β γ) :
    Option γ × MapPairwise S T α β γ :=
  match (Nexts.next s.left).1 with
  | none => (none, { s with left := (Nexts.next s.left).2 })
  | some x =>
    ((Nexts.next s.right).1.map (s.mapFn x),
      { s with left := (Nexts.next s.left).2, right := (Nexts.next s.right).2 })

def MapPairwise.peek [Seq S α] [Seq T β] (s : MapPairwise S T α β γ) :
    Option γ × MapPairwise S T α β γ :=
  match (Seq.peek s.left).1 with
  | none => (none, { s with left := (Seq.peek s.left).2 })
  | some x =>
    ((Seq.peek s.right).1.map (s.mapFn x),
      { s with left := (Seq.peek s.left).2, right := (Seq.peek s.right).2 })

theorem MapPairwise.next_left [Nexts S α] [Nexts T β] (s : MapPairwise S T α β γ) :
    s.next.2.left = (Nexts.next s.left).2 := by
  unfold MapPairwise.next
  split <;> rfl

theorem MapPairwise.peek_left [Seq S α] [Seq T β] (s : MapPairwise S T α β γ) :
    s.peek.2.left = (Seq.peek s.left).2 := by
  unfold MapPairwise.peek
  split <;> rfl

instance [Nexts S α] [Nexts T β] : Nexts (MapPairwise S T α β γ) γ where
  next := MapPairwise.next
  bound s := bound s.left
  bound_next_lt {s} h := by
    rw [MapPairwise.next_left]
    cases hl : (Nexts.next s.left).1 with
    | none =>
      simp only [MapPairwise.next, hl] at h
      cases h
    | some x => exact bound_next_lt (by rw [hl]; rfl)
  bound_next_le s := by
    rw [MapPairwise.next_left]
    exact bound_next_le s.left

instance [Seq S α] [Seq T β] : Seq (MapPairwise S T α β γ) γ where
  peek := MapPairwise.peek
  clear s := clear s.left ∧ (¬AtEnd s.left → clear s.right)
  bound_peek_le s := by
    simp only [bound, MapPairwise.peek_left]
    exact bound_peek_le s.left
  peek_next_lt {s} h := by
    simp only [bound, next, MapPairwise.next_left, MapPairwise.peek_left]
    cases hl : (Seq.peek s.left).1 with
    | none =>
      simp only [MapPairwise.peek, hl] at h
      cases h
    | some x => exact peek_next_lt (by rw [hl]; rfl)
  peek_peek s := by
    cases hl : (Seq.peek s.left).1 with
    | none => simp only [MapPairwise.peek, hl, peek_peek s.left]
    | some x => simp only [MapPairwise.peek, hl, peek_peek s.left, peek_peek s.right]

end Seq

end Batt
