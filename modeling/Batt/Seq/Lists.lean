/-
  The operators on sequences and the functions on lists they are named after.

  `items s` is what `next()` returns up to its first `None`. Each operator turns the items of the
  sequences below it by its function on lists, whatever state these are in: one lemma for each. Two
  of the operators, `take_while` and `merge_by`, go by what they peek, and their lemmas ask that every
  peek of the sequences below can be trusted.
-/
import Batt.Lib.Merge
import Batt.Seq.Coherence

namespace Batt.Seq

open Nexts

variable {S T O I α β γ σ ι : Type}

/-- Induction over the items of a sequence. -/
theorem items_induct [Nexts S α] {P : S → Prop} (hend : ∀ s, AtEnd s → P s)
    (hnext : ∀ s x, (next s).1 = some x → P (next s).2 → P s) (s : S) : P s := by
  induction hn : bound s using Nat.strongRecOn generalizing s with
  | ind n ih =>
    cases hx : (next s).1 with
    | none => exact hend s hx
    | some x =>
      refine hnext s x hx (ih (bound (next s).2) ?_ _ rfl)
      rw [← hn]
      exact bound_next_lt (by rw [hx]; rfl)

/-- The items of a sequence are determined by its `next()`. -/
theorem items_congr [Nexts S α] {s t : S} (h : next s = next t) : items s = items t := by
  cases hx : (next t).1 with
  | none => rw [items_of_none (s := t) hx, items_of_none (s := s) (by rw [AtEnd, h, hx])]
  | some x => rw [items_of_some hx, items_of_some (s := s) (x := x) (by rw [h, hx]), h]

/-! ## One operator at a time -/

theorem items_subRangeSeq (l : List α) : items (SubRangeSeq.mk l) = l := by
  induction l with
  | nil => exact items_of_none rfl
  | cons x l ih => exact (items_of_some rfl).trans (congrArg (x :: ·) ih)

theorem items_map [Nexts S α] (f : α → β) (s : S) :
    items (Map.mk s f) = (items s).map f := by
  refine items_induct (P := fun s => items (Map.mk s f) = (items s).map f) ?_ ?_ s
  · intro s hend
    have hnext : AtEnd (Map.mk s f) := by
      rw [AtEnd] at hend ⊢
      simp [next, hend]
    rw [items_of_none hend, items_of_none hnext, List.map_nil]
  · intro s x hx ih
    have hnext : (next (Map.mk s f)).1 = some (f x) := by simp [next, hx]
    rw [items_of_some hx, items_of_some hnext, List.map_cons, ← ih]
    rfl

theorem items_takeN [Nexts S α] (n : Nat) (s : S) :
    items (TakeN.mk s n) = (items s).take n := by
  refine items_induct (P := fun s => ∀ n, items (TakeN.mk s n) = (items s).take n) ?_ ?_ s n
  · intro s hend n
    have hnext : AtEnd (TakeN.mk s n) := by
      rw [AtEnd] at hend ⊢
      by_cases hn : n = 0 <;> simp [next, hn, hend]
    rw [items_of_none hend, items_of_none hnext, List.take_nil]
  · intro s x hx ih n
    cases n with
    | zero =>
      have hnext : AtEnd (TakeN.mk s 0) := rfl
      rw [items_of_none hnext, List.take_zero]
    | succ n =>
      have hnext : (next (TakeN.mk s (n + 1))).1 = some x := by simp [next, hx]
      rw [items_of_some hx, items_of_some hnext, List.take_succ_cons, ← ih n]
      rfl

/-- `map_fold` on lists: the outputs of a fold. -/
def foldOutputs (f : σ → α → σ × β) : σ → List α → List β
  | _, [] => []
  | state, x :: xs => (f state x).2 :: foldOutputs f (f state x).1 xs

theorem items_mapFold [Nexts S α] (f : σ → α → σ × β) (state : σ) (s : S) :
    items (MapFold.mk s state f) = foldOutputs f state (items s) := by
  refine items_induct
    (P := fun s => ∀ state, items (MapFold.mk s state f) = foldOutputs f state (items s)) ?_ ?_ s state
  · intro s hend state
    have hnext : AtEnd (MapFold.mk s state f) := by
      rw [AtEnd] at hend ⊢
      simp [next, MapFold.next, hend]
    rw [items_of_none hend, items_of_none hnext, foldOutputs]
  · intro s x hx ih state
    have hnext : next (MapFold.mk s state f) =
        (some (f state x).2, ⟨(next s).2, (f state x).1, f⟩) := by
      simp [next, MapFold.next, hx]
    rw [items_of_some hx, items_of_some (by rw [hnext]), hnext, foldOutputs, ← ih]

/-- `map_pairwise` ends with the first of the two sequences that does. -/
theorem items_mapPairwise [Nexts S α] [Nexts T β] (f : α → β → γ) (s : S) (t : T) :
    items (MapPairwise.mk s t f) = List.zipWith f (items s) (items t) := by
  refine items_induct
    (P := fun s => ∀ t : T, items (MapPairwise.mk s t f) = List.zipWith f (items s) (items t))
    ?_ ?_ s t
  · intro s hend t
    have hnext : AtEnd (MapPairwise.mk s t f) := by
      rw [AtEnd] at hend ⊢
      simp [next, MapPairwise.next, hend]
    rw [items_of_none hend, items_of_none hnext, List.zipWith_nil_left]
  · intro s x hx ih t
    cases hy : (next t).1 with
    | none =>
      have hnext : AtEnd (MapPairwise.mk s t f) := by
        rw [AtEnd]
        simp [next, MapPairwise.next, hx, hy]
      rw [items_of_none (s := t) hy, items_of_none hnext, List.zipWith_nil_right]
    | some y =>
      have hnext : next (MapPairwise.mk s t f) =
          (some (f x y), ⟨(next s).2, (next t).2, f⟩) := by
        simp [next, MapPairwise.next, hx, hy]
      rw [items_of_some hx, items_of_some hy, items_of_some (by rw [hnext]), hnext,
        List.zipWith_cons_cons, ← ih]

/-- The loop of `filter` stops at the first item that passes. -/
theorem items_nextLoop [Nexts S α] (p : α → Bool) (s : S) :
    (items s).filter p =
      match (Filter.nextLoop p s).1 with
      | none => []
      | some x => x :: (items (Filter.nextLoop p s).2).filter p := by
  refine items_induct (P := fun s => (items s).filter p = match (Filter.nextLoop p s).1 with
    | none => []
    | some x => x :: (items (Filter.nextLoop p s).2).filter p) ?_ ?_ s
  · intro s hend
    rw [items_of_none hend, Filter.nextLoop_none hend, List.filter_nil]
  · intro s x hx ih
    rw [items_of_some hx, Filter.nextLoop_some hx]
    by_cases hp : p x = true
    · rw [List.filter_cons_of_pos hp, if_pos hp]
    · rw [List.filter_cons_of_neg hp, if_neg hp]
      exact ih

theorem items_filter [Nexts S α] (p : α → Bool) (s : S) :
    items (Filter.mk s p) = (items s).filter p := by
  have hlift : ∀ t : Filter S α, items t = (items t.seq).filter t.predicate := by
    refine items_induct ?_ ?_
    · intro t hend
      rw [items_of_none hend, items_nextLoop, show (Filter.nextLoop t.predicate t.seq).1 = none from hend]
    · intro t x hx ih
      rw [items_of_some hx, ih, items_nextLoop t.predicate t.seq,
        show (Filter.nextLoop t.predicate t.seq).1 = some x from hx]
      rfl
  exact hlift ⟨s, p⟩

theorem nextLoop_pass [Nexts S α] {p : α → Bool} {s : S} {x : α}
    (h : (Filter.nextLoop p s).1 = some x) : p x = true := by
  fun_induction Filter.nextLoop p s with
  | case1 s s' heq => cases h
  | case2 s y s' heq hpass =>
    cases h
    exact hpass
  | case3 s y s' heq hdrop ih => exact ih h

/-- What `filter_map` returns is what its filter lets pass, dereferenced. -/
theorem map_some_items_filterMap [Nexts S α] (t : FilterMap S α β) :
    (items t).map some = items t.impl := by
  refine items_induct (P := fun t : FilterMap S α β => (items t).map some = items t.impl) ?_ ?_ t
  · intro t hend
    have himpl : AtEnd t.impl := by
      cases hx : (next t.impl).1 with
      | none => exact hx
      | some y =>
        have hpass := nextLoop_pass (p := t.impl.predicate) (s := t.impl.seq) hx
        rw [t.isNotFalse] at hpass
        have hjoin : (next t.impl).1.join = none := hend
        rw [hx, Option.join_some] at hjoin
        rw [hjoin] at hpass
        cases hpass
    rw [items_of_none hend, items_of_none himpl, List.map_nil]
  · intro t y hy ih
    have himpl : (next t.impl).1 = some (some y) := Option.join_eq_some_iff.mp hy
    rw [items_of_some hy, items_of_some himpl, List.map_cons, ih]
    rfl

theorem map_some_filterMap (f : α → Option β) (l : List α) :
    (l.filterMap f).map some = (l.map f).filter Option.isSome := by
  induction l with
  | nil => rfl
  | cons x l ih =>
    cases hx : f x with
    | none => simp [hx, ih]
    | some y => simp [hx, ih]

theorem items_filterMap [Nexts S α] (f : α → Option β) (s : S) :
    items (FilterMap.mk (⟨⟨s, f⟩, Option.isSome⟩ : Filter (Map S α (Option β)) (Option β)) rfl) =
      (items s).filterMap f := by
  have hsome := map_some_items_filterMap
    (FilterMap.mk (⟨⟨s, f⟩, Option.isSome⟩ : Filter (Map S α (Option β)) (Option β)) rfl)
  rw [items_filter, items_map, ← map_some_filterMap] at hsome
  exact List.map_injective_iff.mpr (fun _ _ => Option.some.inj) hsome

theorem items_cacheNext [Nexts S α] (s : S) :
    items (⟨s, none⟩ : CacheNext S α) = items s := by
  refine items_induct (P := fun s => items (⟨s, none⟩ : CacheNext S α) = items s) ?_ ?_ s
  · intro s hend
    have hnext : AtEnd (⟨s, none⟩ : CacheNext S α) := hend
    rw [items_of_none hend, items_of_none hnext]
  · intro s x hx ih
    have hnext : (next (⟨s, none⟩ : CacheNext S α)).1 = some x := hx
    rw [items_of_some hx, items_of_some hnext, ← ih]
    rfl

theorem items_boxedSeq {impl : ι → Type} [∀ n, Nexts (impl n) α] (n : ι) (s : impl n) :
    items (BoxedSeq.mk n s) = items s := by
  refine items_induct (P := fun s : impl n => items (BoxedSeq.mk n s) = items s) ?_ ?_ s
  · intro s hend
    have hnext : AtEnd (BoxedSeq.mk n s) := hend
    rw [items_of_none hend, items_of_none hnext]
  · intro s x hx ih
    have hnext : (next (BoxedSeq.mk n s)).1 = some x := hx
    rw [items_of_some hx, items_of_some hnext, ← ih]
    rfl

/-! ### flatten -/

/-- What is left of a `flatten`: the inner sequence it is in, and those to come. -/
def Flatten.items [Nexts O I] [Nexts I β] (s : Flatten O I) : List β :=
  match s.inner with
  | none => []
  | some inner => Seq.items inner ++ (Seq.items s.outer).flatMap Seq.items

/-- The loop of `flatten` goes through the inner sequences that have no item. -/
theorem Flatten.items_loop [Nexts O I] [Nexts I β] (outer : O) (inner : I) :
    Seq.items inner ++ (Seq.items outer).flatMap Seq.items =
      match (Flatten.loop Nexts.next outer inner).1 with
      | none => []
      | some x => x :: (Flatten.loop Nexts.next outer inner).2.items := by
  refine items_induct (P := fun outer : O => ∀ inner : I,
    Seq.items inner ++ (Seq.items outer).flatMap Seq.items =
      match (Flatten.loop Nexts.next outer inner).1 with
      | none => []
      | some x => x :: (Flatten.loop Nexts.next outer inner).2.items) ?_ ?_ outer inner
  · intro outer hend inner
    cases hx : (next inner).1 with
    | none =>
      rw [Flatten.loop_last hx hend, items_of_none (s := inner) hx, items_of_none hend]
      rfl
    | some x =>
      rw [Flatten.loop_item hx, items_of_some hx]
      rfl
  · intro outer inner' hinner' ih inner
    cases hx : (next inner).1 with
    | none =>
      rw [Flatten.loop_step hx hinner', ← ih inner', items_of_none (s := inner) hx,
        items_of_some hinner', List.flatMap_cons, List.nil_append]
    | some x =>
      rw [Flatten.loop_item hx, items_of_some hx]
      rfl

theorem items_flatten [Nexts O I] [Nexts I β] (s : Flatten O I) : items s = s.items := by
  refine items_induct (P := fun s : Flatten O I => items s = s.items) ?_ ?_ s
  · intro s hend
    rw [items_of_none hend]
    match s, hend with
    | ⟨outer, none⟩, _ => rfl
    | ⟨outer, some inner⟩, hend =>
      have hloop : (Flatten.loop next outer inner).1 = none := hend
      have hitems := Flatten.items_loop outer inner
      rw [hloop] at hitems
      exact hitems.symm
  · intro s x hx ih
    rw [items_of_some hx, ih]
    match s, hx with
    | ⟨outer, some inner⟩, hx =>
      have hloop : (Flatten.loop next outer inner).1 = some x := hx
      have hitems := Flatten.items_loop outer inner
      rw [hloop] at hitems
      exact hitems.symm

theorem items_flatten_start [Nexts O I] [Nexts I β] (outer : O) :
    items (Flatten.start outer) = (items outer).flatMap items := by
  rw [items_flatten]
  cases hx : (next outer).1 with
  | none =>
    rw [items_of_none (s := outer) hx]
    simp [Flatten.items, Flatten.start, hx]
  | some inner =>
    rw [items_of_some hx, List.flatMap_cons]
    simp [Flatten.items, Flatten.start, hx]

/-- `merge_by` on lists: the item of the right list goes first only if it compares before the one of
    the left list. -/
def mergeLists (compare : β → α → Bool) (ofLeft : α → γ) (ofRight : β → γ) :
    List α → List β → List γ
  | [], ys => ys.map ofRight
  | xs, [] => xs.map ofLeft
  | x :: xs, y :: ys =>
    if compare y x then ofRight y :: mergeLists compare ofLeft ofRight (x :: xs) ys
    else ofLeft x :: mergeLists compare ofLeft ofRight xs (y :: ys)
termination_by xs ys => xs.length + ys.length

theorem mergeLists_nil_right (compare : β → α → Bool) (ofLeft : α → γ) (ofRight : β → γ)
    (xs : List α) : mergeLists compare ofLeft ofRight xs [] = xs.map ofLeft := by
  cases xs <;> simp [mergeLists]

/-! ### The operators that go by what they peek -/

section Peeks

variable [Seq S α]

theorem items_peek (h : Lawful S α) {s : S} (hclear : clear s) : items (peek s).2 = items s :=
  items_congr (h.next_peek hclear)

theorem items_takeWhile (h : Lawful S α) (hclear : ∀ s : S, clear s) (p : α → Bool) (s : S) :
    items (TakeWhile.mk s p) = (items s).takeWhile p := by
  refine items_induct (P := fun s : S => items (TakeWhile.mk s p) = (items s).takeWhile p) ?_ ?_ s
  · intro s hend
    have hpeek : (peek s).1 = none := (h.peek_value (hclear s)).trans hend
    have hnext : AtEnd (TakeWhile.mk s p) := by
      simp [AtEnd, next, TakeWhile.next, TakeWhile.peek, hpeek]
    rw [items_of_none hend, items_of_none hnext, List.takeWhile_nil]
  · intro s x hx ih
    have hpeek : (peek s).1 = some x := (h.peek_value (hclear s)).trans hx
    by_cases hp : p x = true
    · have hnext : next (TakeWhile.mk s p) = (some x, ⟨(next s).2, p⟩) := by
        simp [next, TakeWhile.next, TakeWhile.peek, hpeek, hp, h.next_peek (hclear s)]
      rw [items_of_some hx, items_of_some (by rw [hnext]), hnext, List.takeWhile_cons_of_pos hp, ← ih]
    · have hnext : AtEnd (TakeWhile.mk s p) := by
        simp [AtEnd, next, TakeWhile.next, TakeWhile.peek, hpeek, hp]
      rw [items_of_some hx, items_of_none hnext, List.takeWhile_cons_of_neg hp]

variable [Seq T β]

theorem MergeBy.next_left (h : Lawful S α) (hclear : ∀ s : S, clear s) {m : MergeBy S T α β γ} {x : α}
    (hside : m.side = some .left) (hx : (Nexts.next m.left).1 = some x) :
    Nexts.next m = (some (m.ofLeft x),
      { m with left := (Nexts.next m.left).2, right := (Seq.peek m.right).2 }) := by
  simp [Nexts.next, MergeBy.next, hside, h.next_peek (hclear m.left), hx]

theorem MergeBy.next_right (h : Lawful T β) (hclear : ∀ t : T, clear t) {m : MergeBy S T α β γ} {y : β}
    (hside : m.side = some .right) (hy : (Nexts.next m.right).1 = some y) :
    Nexts.next m = (some (m.ofRight y),
      { m with left := (Seq.peek m.left).2, right := (Nexts.next m.right).2 }) := by
  simp [Nexts.next, MergeBy.next, hside, h.next_peek (hclear m.right), hy]

theorem items_mergeBy (hl : Lawful S α) (hclearl : ∀ s : S, clear s) (hr : Lawful T β)
    (hclearr : ∀ t : T, clear t) (m : MergeBy S T α β γ) :
    items m = mergeLists m.compare m.ofLeft m.ofRight (items m.left) (items m.right) := by
  induction hn : bound m using Nat.strongRecOn generalizing m with
  | ind n ih =>
    have hside : m.side = mergeSide m.compare (next m.left).1 (next m.right).1 := by
      rw [MergeBy.side, hl.peek_value (hclearl _), hr.peek_value (hclearr _)]
    -- a step to one of the sides leaves the items of the other
    have hstep : ∀ z m', next m = (some z, m') →
        items m = z :: mergeLists m'.compare m'.ofLeft m'.ofRight (items m'.left) (items m'.right) := by
      intro z m' hnext
      have hlt : bound (next m).2 < n := hn ▸ bound_next_lt (by rw [hnext]; rfl)
      rw [items_of_some (by rw [hnext]), hnext, ih (bound m') (by rwa [hnext] at hlt) m' rfl]
    have hpeekl : items (peek m.left).2 = items m.left := items_peek hl (hclearl _)
    have hpeekr : items (peek m.right).2 = items m.right := items_peek hr (hclearr _)
    cases hx : (next m.left).1 with
    | none =>
      cases hy : (next m.right).1 with
      | none =>
        have hend : AtEnd m := by
          simp [AtEnd, next, MergeBy.next, hside, hx, hy, mergeSide]
        rw [items_of_none hend, items_of_none (s := m.left) hx, items_of_none (s := m.right) hy,
          mergeLists, List.map_nil]
      | some y =>
        have hnext := MergeBy.next_right hr hclearr (by rw [hside, hx, hy, mergeSide]) hy
        rw [hstep _ _ hnext, hpeekl, items_of_some hy, items_of_none (s := m.left) hx]
        simp [mergeLists]
    | some x =>
      cases hy : (next m.right).1 with
      | none =>
        have hnext := MergeBy.next_left hl hclearl (by rw [hside, hx, hy, mergeSide]) hx
        rw [hstep _ _ hnext, hpeekr, items_of_some hx, items_of_none (s := m.right) hy,
          mergeLists_nil_right, mergeLists_nil_right, List.map_cons]
      | some y =>
        by_cases hc : m.compare y x = true
        · have hnext := MergeBy.next_right hr hclearr (by rw [hside, hx, hy, mergeSide, if_pos hc]) hy
          rw [hstep _ _ hnext, hpeekl, items_of_some hx, items_of_some hy, mergeLists, if_pos hc]
        · have hnext := MergeBy.next_left hl hclearl (by rw [hside, hx, hy, mergeSide, if_neg hc]) hx
          rw [hstep _ _ hnext, hpeekr, items_of_some hx, items_of_some hy, mergeLists, if_neg hc]

end Peeks

end Batt.Seq
