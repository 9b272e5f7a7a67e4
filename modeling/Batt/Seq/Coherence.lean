/-
  Peeks that do not show, over every run of `peek()` and `next()`.

  `Lawful` is what one `peek()` owes: on a clear sequence it returns what `next()` would, and a
  `next()` after it does what it would have done. Every operator hands this on from the
  sequences it is built of; `Built.lawful` is the induction over the expression. From it
  `answers_eq_expected`: in a run whose peeks are all made on clear sequences, the `k`-th
  `next()` returns what it returns in the run without peeks, and so does every `peek()` that
  comes before it.
-/
import Batt.Seq.Concat

namespace Batt.Seq

open Nexts

variable {S T O I α β γ σ ι : Type}

/-- What `peek()` owes on a clear sequence. -/
structure Lawful (S α : Type) [Seq S α] : Prop where
  peek_value : ∀ {s : S}, clear s → (peek s).1 = (next s).1
  next_peek : ∀ {s : S}, clear s → next (peek s).2 = next s

/-! ## One operator at a time -/

theorem lawful_subRangeSeq : Lawful (SubRangeSeq α) α where
  peek_value _ := rfl
  next_peek _ := rfl

theorem lawful_map [Seq S α] (h : Lawful S α) : Lawful (Map S α β) β where
  peek_value {s} hs := congrArg (Option.map s.mapFn) (h.peek_value hs)
  next_peek {s} hs := by
    simp only [next, peek, h.next_peek (s := s.seq) hs]

theorem lawful_takeN [Seq S α] (h : Lawful S α) : Lawful (TakeN S) α where
  peek_value {s} hs := by
    by_cases hn : s.n = 0
    · simp only [peek, next, if_pos hn]
    · simp only [peek, next, if_neg hn, h.peek_value (hs hn)]
  next_peek {s} hs := by
    by_cases hn : s.n = 0
    · simp only [peek, next, if_pos hn]
    · simp only [peek, next, if_neg hn, h.next_peek (hs hn)]

theorem lawful_skipN [Seq S α] (h : Lawful S α) : Lawful (SkipN S) α where
  peek_value {s} hs := by
    by_cases hn : s.n ≠ 0
    · simp only [peek, next, if_pos hn]
    · simp only [peek, next, if_neg hn, h.peek_value (hs (Decidable.not_not.mp hn))]
  next_peek {s} hs := by
    by_cases hn : s.n ≠ 0
    · simp only [peek, next, if_pos hn]
    · simp only [peek, next, if_neg hn, h.next_peek (hs (Decidable.not_not.mp hn))]

/-- Nothing is asked of the source: `next()` goes by a `peek()` of its own. -/
theorem lawful_takeWhile [Seq S α] : Lawful (TakeWhile S α) α where
  peek_value {s} _ := by
    simp only [peek, next, TakeWhile.next]
    split <;> rfl
  next_peek {s} _ := by
    have hseq : peek s.peek.2.seq = peek s.seq := peek_peek s.seq
    simp only [peek, next, TakeWhile.next, TakeWhile.peek_peek, hseq]
    rfl

theorem lawful_mapFold [Seq S α] (h : Lawful S α) : Lawful (MapFold S α σ β) β where
  peek_value {s} hs := by
    simp only [peek, next, MapFold.next, h.peek_value (s := s.seq) hs]
    cases (next s.seq).1 <;> rfl
  next_peek {s} hs := by
    simp only [peek, next, MapFold.next, h.next_peek (s := s.seq) hs]

theorem lawful_mapPairwise [Seq S α] [Seq T β] (hl : Lawful S α) (hr : Lawful T β) :
    Lawful (MapPairwise S T α β γ) γ where
  peek_value {s} hs := by
    simp only [peek, next, MapPairwise.peek, MapPairwise.next, hl.peek_value hs.1]
    cases hx : (next s.left).1 with
    | none => rfl
    | some x => simp only [hr.peek_value (hs.2 (by rw [AtEnd, hx]; nofun))]
  next_peek {s} hs := by
    simp only [peek, next, MapPairwise.peek, hl.peek_value hs.1]
    cases hx : (next s.left).1 with
    | none => simp only [MapPairwise.next, hl.next_peek hs.1, hx]
    | some x =>
      have hright := hr.next_peek (hs.2 (by rw [AtEnd, hx]; nofun))
      simp only [MapPairwise.next, hl.next_peek hs.1, hx, hright]

/-- The loop of `peek()` drops what the loop of `next()` would drop, and no more. -/
theorem filter_loops [Seq S α] (h : Lawful S α) {predicate : α → Bool} {seq : S}
    (hs : Filter.Clear predicate seq) :
    (Filter.peekLoop predicate seq).1 = (Filter.nextLoop predicate seq).1 ∧
      Filter.nextLoop predicate (Filter.peekLoop predicate seq).2 =
        Filter.nextLoop predicate seq := by
  induction hs with
  | @stop seq hclear hpass =>
    have hvalue := h.peek_value hclear
    have hnext := h.next_peek hclear
    cases hx : (next seq).1 with
    | none =>
      rw [Filter.peekLoop_none (hvalue.trans hx), Filter.nextLoop_none hx]
      refine ⟨rfl, ?_⟩
      rw [Filter.nextLoop_none (by rw [hnext, hx]), hnext]
    | some x =>
      have hp := hpass x hx
      rw [Filter.peekLoop_some (hvalue.trans hx), Filter.nextLoop_some hx,
        if_pos hp, if_pos hp]
      refine ⟨rfl, ?_⟩
      rw [Filter.nextLoop_some (x := x) (by rw [hnext, hx]), if_pos hp, hnext]
  | @drop seq x hclear hx hfail _ ih =>
    have hp : ¬predicate x = true := by rw [hfail]; nofun
    rw [Filter.peekLoop_some ((h.peek_value hclear).trans hx),
      Filter.nextLoop_some hx, if_neg hp, if_neg hp, h.next_peek hclear]
    exact ih

theorem lawful_filter [Seq S α] (h : Lawful S α) : Lawful (Filter S α) α where
  peek_value hs := (filter_loops h hs).1
  next_peek hs := by simp only [peek, next, (filter_loops h hs).2]

theorem lawful_filterMap [Seq S α] (h : Lawful S α) : Lawful (FilterMap S α β) β where
  peek_value hs := congrArg Option.join ((lawful_filter (lawful_map h)).peek_value hs)
  next_peek {s} hs := by
    have himpl := (lawful_filter (lawful_map h)).next_peek (s := s.impl) hs
    exact Prod.ext (congrArg (·.1.join) himpl) (FilterMap.ext (congrArg Prod.snd himpl))

theorem lawful_cacheNext [Nexts S α] : Lawful (CacheNext S α) α where
  peek_value {s} _ := s.peek_value
  next_peek {s} _ := s.next_peek

theorem lawful_fuse [Seq S (Option α)] (h : Lawful S (Option α)) : Lawful (Fuse S α) α where
  peek_value {s} hs := by
    match s with
    | ⟨seq, true, undef⟩ => rfl
    | ⟨seq, false, undef⟩ =>
      obtain ⟨hclear, hitem⟩ := hs rfl
      simp only [peek, next, Fuse.peek, Bool.false_eq_true, if_false, h.peek_value hclear]
      match hx : (next seq).1 with
      | none => exact absurd hx hitem
      | some none => rw [Fuse.next_none (by rw [hx]; rfl), Option.getD_some]
      | some (some x) => rw [Fuse.next_some hx, Option.getD_some]
  next_peek {s} hs := by
    match s with
    | ⟨seq, true, undef⟩ => rfl
    | ⟨seq, false, undef⟩ =>
      simp only [peek, next, Fuse.peek, Fuse.next, Bool.false_eq_true, if_false,
        h.next_peek (hs rfl).1]

theorem lawful_statusOk [Seq S (StatusOr α)] (h : Lawful S (StatusOr α)) :
    Lawful (StatusOk S) α where
  peek_value {s} hs := by
    simp only [peek, next, h.peek_value (s := s.seq) hs]
  next_peek {s} hs := by
    simp only [peek, next, h.peek_value (s := s.seq) hs, h.next_peek (s := s.seq) hs,
      unwrapItem_unwrapItem]

theorem lawful_boxedSeq {impl : ι → Type} [∀ i, Seq (impl i) α] (h : ∀ i, Lawful (impl i) α) :
    Lawful (BoxedSeq ι impl) α where
  peek_value {s} hs := (h s.type).peek_value hs
  next_peek {s} hs := by
    simp only [peek, next, (h s.type).next_peek (s := s.storage) hs]

theorem lawful_chain [Seq S α] [Seq T α] (h1 : Lawful S α) (h2 : Lawful T α) :
    Lawful (Chain S T) α where
  peek_value {s} hs := by
    match s with
    | ⟨none, seq2⟩ => exact h2.peek_value hs
    | ⟨some t, seq2⟩ =>
      obtain ⟨hclear, hend⟩ := hs
      simp only [peek, next, Chain.peek, h1.peek_value hclear]
      cases hx : (next t).1 with
      | some x => rw [Chain.next_first hx]
      | none =>
        rw [Chain.next_second hx]
        exact (hend hx).symm
  next_peek {s} hs := by
    match s with
    | ⟨none, seq2⟩ => simp only [peek, next, Chain.peek, Chain.next, h2.next_peek (s := seq2) hs]
    | ⟨some t, seq2⟩ => simp only [peek, next, Chain.peek, Chain.next, h1.next_peek hs.1]

theorem lawful_mergeBy [Seq S α] [Seq T β] (hl : Lawful S α) (hr : Lawful T β) :
    Lawful (MergeBy S T α β γ) γ where
  peek_value {s} hs := by
    simp only [peek, next, MergeBy.peek, MergeBy.next]
    cases hside : s.side with
    | none => rfl
    | some side =>
      cases side with
      | left => simp only [hl.peek_value (hs.1 hside), hl.next_peek (hs.1 hside)]
      | right => simp only [hr.peek_value (hs.2 hside), hr.next_peek (hs.2 hside)]
  next_peek {s} _ := s.next_peek

/-- `peek()` stops in the inner sequence in which `next()` would find its item. -/
theorem flatten_loops [Nexts O I] [Seq I β] (h : Lawful I β) {outer : O} {inner : I}
    (hs : Flatten.Clear outer inner) :
    (Flatten.loop peek outer inner).1 = (Flatten.loop next outer inner).1 ∧
      Flatten.impl next (Flatten.loop peek outer inner).2 = Flatten.loop next outer inner := by
  induction hs with
  | @item outer inner hclear hitem =>
    have hvalue := h.peek_value hclear
    have hnext := h.next_peek hclear
    cases hx : (next inner).1 with
    | none => exact absurd hx hitem
    | some x =>
      rw [Flatten.loop_item (hvalue.trans hx), Flatten.loop_item hx]
      refine ⟨rfl, ?_⟩
      have hitem : (next (peek inner).2).1 = some x := by rw [hnext, hx]
      simp only [Flatten.impl, Flatten.loop_item hitem, hnext]
  | @last outer inner hclear hend houter =>
    have hvalue := h.peek_value hclear
    rw [Flatten.loop_last (hvalue.trans hend) houter, Flatten.loop_last hend houter]
    exact ⟨rfl, rfl⟩
  | @step outer inner inner' hclear hend houter _ ih =>
    have hvalue := h.peek_value hclear
    rw [Flatten.loop_step (hvalue.trans hend) houter, Flatten.loop_step hend houter]
    exact ih

theorem lawful_flatten [Nexts O I] [Seq I β] (h : Lawful I β) : Lawful (Flatten O I) β where
  peek_value {s} hs := by
    match s with
    | ⟨outer, none⟩ => rfl
    | ⟨outer, some inner⟩ => exact (flatten_loops h (hs inner rfl)).1
  next_peek {s} hs := by
    match s with
    | ⟨outer, none⟩ => rfl
    | ⟨outer, some inner⟩ => exact (flatten_loops h (hs inner rfl)).2

theorem lawful_groupBy [Nexts S α] : Lawful (GroupBy S α) (SubRangeSeq α) where
  peek_value _ := rfl
  next_peek _ := rfl

/-! ## Expressions -/

/-- The sequences built from containers with the operators. What is only ever asked for its
    `next()` may be any sequence, a `map_adjacent` too. -/
inductive Built : (S α : Type) → Seq S α → Prop
  | subRangeSeq {α : Type} : Built (SubRangeSeq α) α inferInstance
  | map {S α β : Type} [i : Seq S α] : Built S α i → Built (Map S α β) β inferInstance
  | filter {S α : Type} [i : Seq S α] : Built S α i → Built (Filter S α) α inferInstance
  | filterMap {S α β : Type} [i : Seq S α] : Built S α i →
      Built (FilterMap S α β) β inferInstance
  | chain {S T α : Type} [i : Seq S α] [j : Seq T α] : Built S α i → Built T α j →
      Built (Chain S T) α inferInstance
  | takeN {S α : Type} [i : Seq S α] : Built S α i → Built (TakeN S) α inferInstance
  | takeWhile {S α : Type} [i : Seq S α] : Built S α i → Built (TakeWhile S α) α inferInstance
  | skipN {S α : Type} [i : Seq S α] : Built S α i → Built (SkipN S) α inferInstance
  | mapFold {S α σ β : Type} [i : Seq S α] : Built S α i →
      Built (MapFold S α σ β) β inferInstance
  | mapPairwise {S T α β γ : Type} [i : Seq S α] [j : Seq T β] : Built S α i → Built T β j →
      Built (MapPairwise S T α β γ) γ inferInstance
  | flatten {O I β : Type} [Nexts O I] [j : Seq I β] : Built I β j →
      Built (Flatten O I) β inferInstance
  | mergeBy {S T α β γ : Type} [i : Seq S α] [j : Seq T β] : Built S α i → Built T β j →
      Built (MergeBy S T α β γ) γ inferInstance
  | fuse {S α : Type} [i : Seq S (Option α)] : Built S (Option α) i →
      Built (Fuse S α) α inferInstance
  | cacheNext {S α : Type} [Nexts S α] : Built (CacheNext S α) α inferInstance
  | boxed {ι α : Type} {impl : ι → Type} [i : ∀ n, Seq (impl n) α] :
      (∀ n, Built (impl n) α (i n)) → Built (BoxedSeq ι impl) α inferInstance
  | groupBy {S α : Type} [Nexts S α] : Built (GroupBy S α) (SubRangeSeq α) inferInstance
  | statusOk {S α : Type} [i : Seq S (StatusOr α)] : Built S (StatusOr α) i →
      Built (StatusOk S) α inferInstance

theorem Built.lawful {S α : Type} {inst : Seq S α} (h : Built S α inst) : Lawful S α := by
  induction h with
  | subRangeSeq => exact lawful_subRangeSeq
  | map _ ih => exact lawful_map ih
  | filter _ ih => exact lawful_filter ih
  | filterMap _ ih => exact lawful_filterMap ih
  | chain _ _ ih1 ih2 => exact lawful_chain ih1 ih2
  | takeN _ ih => exact lawful_takeN ih
  | takeWhile _ _ => exact lawful_takeWhile
  | skipN _ ih => exact lawful_skipN ih
  | mapFold _ ih => exact lawful_mapFold ih
  | mapPairwise _ _ ihl ihr => exact lawful_mapPairwise ihl ihr
  | flatten _ ih => exact lawful_flatten ih
  | mergeBy _ _ ihl ihr => exact lawful_mergeBy ihl ihr
  | fuse _ ih => exact lawful_fuse ih
  | cacheNext => exact lawful_cacheNext
  | boxed _ ih => exact lawful_boxedSeq ih
  | groupBy => exact lawful_groupBy
  | statusOk _ ih => exact lawful_statusOk ih

/-! ## Runs -/

inductive Call where
  | peek
  | next
deriving DecidableEq, Repr

/-- What `next()` returns after `k` others, with no `peek()` between them. -/
def plain [Nexts S α] (s : S) : Nat → Option α
  | 0 => (next s).1
  | k + 1 => plain (next s).2 k

section Runs

variable [Seq S α]

/-- What the calls return, in order. -/
def answers : List Call → S → List (Option α)
  | [], _ => []
  | .peek :: calls, s => (peek s).1 :: answers calls (peek s).2
  | .next :: calls, s => (next s).1 :: answers calls (next s).2

/-- The answers that are due: the `k`-th `next()` returns `values k`, and so does a `peek()`
    before it. -/
def expected (values : Nat → Option α) : Nat → List Call → List (Option α)
  | _, [] => []
  | k, .peek :: calls => values k :: expected values k calls
  | k, .next :: calls => values k :: expected values (k + 1) calls

/-- Every `peek()` of the run is made on a clear sequence. -/
def PeeksClear : List Call → S → Prop
  | [], _ => True
  | .peek :: calls, s => clear s ∧ PeeksClear calls (peek s).2
  | .next :: calls, s => PeeksClear calls (next s).2

theorem plain_peek (h : Lawful S α) {s : S} (hs : clear s) : plain (peek s).2 = plain s := by
  funext k
  cases k with
  | zero => rw [plain, plain, h.next_peek hs]
  | succ k => rw [plain, plain, h.next_peek hs]

theorem expected_next (values : Nat → Option α) (k : Nat) (calls : List Call) :
    expected values (k + 1) calls = expected (fun n => values (n + 1)) k calls := by
  induction calls generalizing k with
  | nil => rfl
  | cons call calls ih =>
    cases call with
    | peek => rw [expected, expected, ih]
    | next => rw [expected, expected, ih]

theorem Lawful.answers (h : Lawful S α) {calls : List Call} {s : S}
    (hs : PeeksClear calls s) : answers calls s = expected (plain s) 0 calls := by
  induction calls generalizing s with
  | nil => rfl
  | cons call calls ih =>
    cases call with
    | peek =>
      obtain ⟨hclear, hrest⟩ := hs
      rw [Seq.answers, expected, ih hrest, plain_peek h hclear, h.peek_value hclear, plain]
    | next =>
      rw [Seq.answers, expected, ih hs, expected_next]
      rfl

end Runs

end Batt.Seq
