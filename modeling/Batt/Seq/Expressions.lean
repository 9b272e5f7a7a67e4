/-
  Sequence expressions compute their functions on lists.

  `Plain` are the types of the expressions that are built from containers with `map`, `filter`,
  `filter_map`, `take_n`, `take_while`, `map_fold`, `map_pairwise`, `flatten`, `merge_by`,
  `cache_next` and `boxed`; on them every peek can be trusted, in every state (`Plain.clear`).
  `Expr s l` says that `s` is such an expression, as it is constructed, and that `l` is the value of
  the functions on lists: `Expr.items` is the induction over the expression.

  The loops that drain a sequence are `for_each`, and `collect_vec`, `reduce` and `count` by it. They
  run to the end of the sequence or to a break, and `expr_computes` says what they see.
-/
import Batt.Seq.Lists

namespace Batt.Seq

open Nexts

variable {S T O I α β γ σ ι : Type} {S α : Type}

/-! ## Types of expressions -/

inductive Plain : (S α : Type) → Seq S α → Prop
  | subRangeSeq {α : Type} : Plain (SubRangeSeq α) α inferInstance
  | map {S α β : Type} [i : Seq S α] : Plain S α i → Plain (Map S α β) β inferInstance
  | filter {S α : Type} [i : Seq S α] : Plain S α i → Plain (Filter S α) α inferInstance
  | filterMap {S α β : Type} [i : Seq S α] : Plain S α i →
      Plain (FilterMap S α β) β inferInstance
  | takeN {S α : Type} [i : Seq S α] : Plain S α i → Plain (TakeN S) α inferInstance
  | takeWhile {S α : Type} [i : Seq S α] : Plain S α i → Plain (TakeWhile S α) α inferInstance
  | mapFold {S α σ β : Type} [i : Seq S α] : Plain S α i →
      Plain (MapFold S α σ β) β inferInstance
  | mapPairwise {S T α β γ : Type} [i : Seq S α] [j : Seq T β] : Plain S α i → Plain T β j →
      Plain (MapPairwise S T α β γ) γ inferInstance
  | flatten {O I β : Type} [i : Seq O I] [j : Seq I β] : Plain O I i → Plain I β j →
      Plain (Flatten O I) β inferInstance
  | mergeBy {S T α β γ : Type} [i : Seq S α] [j : Seq T β] : Plain S α i → Plain T β j →
      Plain (MergeBy S T α β γ) γ inferInstance
  | cacheNext {S α : Type} [i : Seq S α] : Plain S α i → Plain (CacheNext S α) α inferInstance
  | boxed {ι α : Type} {impl : ι → Type} [i : ∀ n, Seq (impl n) α] :
      (∀ n, Plain (impl n) α (i n)) → Plain (BoxedSeq ι impl) α inferInstance

theorem Plain.built {inst : Seq S α} (h : Plain S α inst) : Built S α inst := by
  induction h with
  | subRangeSeq => exact .subRangeSeq
  | map _ ih => exact .map ih
  | filter _ ih => exact .filter ih
  | filterMap _ ih => exact .filterMap ih
  | takeN _ ih => exact .takeN ih
  | takeWhile _ ih => exact .takeWhile ih
  | mapFold _ ih => exact .mapFold ih
  | mapPairwise _ _ ihl ihr => exact .mapPairwise ihl ihr
  | flatten _ _ _ ih => exact .flatten ih
  | mergeBy _ _ ihl ihr => exact .mergeBy ihl ihr
  | cacheNext _ _ => exact .cacheNext
  | boxed _ ih => exact .boxed ih

theorem filter_clear [Seq S α] (h : ∀ s : S, clear s) (p : α → Bool) (s : S) : Filter.Clear p s := by
  refine items_induct (P := fun s : S => Filter.Clear p s) ?_ ?_ s
  · intro s hend
    refine .stop (h s) ?_
    intro x hx
    rw [hend] at hx
    cases hx
  · intro s x hx ih
    cases hp : p x with
    | false => exact .drop (h s) hx hp ih
    | true =>
      refine .stop (h s) ?_
      intro y hy
      obtain rfl : x = y := Option.some.inj (hx.symm.trans hy)
      exact hp

theorem flatten_clear [Nexts O I] [Seq I β] (h : ∀ i : I, clear i) (outer : O) (inner : I) :
    Flatten.Clear outer inner := by
  refine items_induct (P := fun outer : O => ∀ inner : I, Flatten.Clear outer inner) ?_ ?_ outer inner
  · intro outer hend inner
    by_cases hinner : AtEnd inner
    · exact .last (h inner) hinner hend
    · exact .item (h inner) hinner
  · intro outer inner' hinner' ih inner
    by_cases hinner : AtEnd inner
    · exact .step (h inner) hinner hinner' (ih inner')
    · exact .item (h inner) hinner

/-- Every state of an expression can be peeked at. -/
theorem Plain.clear {inst : Seq S α} (h : Plain S α inst) (s : S) : Seq.clear s := by
  induction h with
  | subRangeSeq => trivial
  | map _ ih => exact ih s.seq
  | filter _ ih => exact filter_clear ih s.predicate s.seq
  | filterMap _ ih => exact filter_clear (fun t => ih t.seq) s.impl.predicate s.impl.seq
  | takeN _ ih => exact fun _ => ih s.seq
  | takeWhile _ _ => trivial
  | mapFold _ ih => exact ih s.seq
  | mapPairwise _ _ ihl ihr => exact ⟨ihl s.left, fun _ => ihr s.right⟩
  | flatten _ _ _ ih => exact fun inner _ => flatten_clear ih s.outer inner
  | mergeBy _ _ ihl ihr => exact ⟨fun _ => ihl s.left, fun _ => ihr s.right⟩
  | cacheNext _ _ => trivial
  | boxed _ ih => exact ih s.type s.storage

/-! ## Expressions and their values -/

/-- An expression, as it is constructed, and its value. The inner sequences of a `flatten` are items
    of the outer one, and expressions in turn. -/
inductive Expr : (S α : Type) → Seq S α → S → List α → Prop
  | asSeq {α : Type} (l : List α) : Expr (SubRangeSeq α) α inferInstance ⟨l⟩ l
  | map {S α β : Type} [i : Seq S α] {s : S} {l : List α} (f : α → β) : Expr S α i s l →
      Expr (Map S α β) β inferInstance ⟨s, f⟩ (l.map f)
  | filter {S α : Type} [i : Seq S α] {s : S} {l : List α} (p : α → Bool) : Expr S α i s l →
      Expr (Filter S α) α inferInstance ⟨s, p⟩ (l.filter p)
  | filterMap {S α β : Type} [i : Seq S α] {s : S} {l : List α} (f : α → Option β) :
      Expr S α i s l →
      Expr (FilterMap S α β) β inferInstance ⟨⟨⟨s, f⟩, Option.isSome⟩, rfl⟩ (l.filterMap f)
  | takeN {S α : Type} [i : Seq S α] {s : S} {l : List α} (n : Nat) : Expr S α i s l →
      Expr (TakeN S) α inferInstance ⟨s, n⟩ (l.take n)
  | takeWhile {S α : Type} [i : Seq S α] {s : S} {l : List α} (p : α → Bool) : Expr S α i s l →
      Expr (TakeWhile S α) α inferInstance ⟨s, p⟩ (l.takeWhile p)
  | mapFold {S α σ β : Type} [i : Seq S α] {s : S} {l : List α} (state : σ) (f : σ → α → σ × β) :
      Expr S α i s l →
      Expr (MapFold S α σ β) β inferInstance ⟨s, state, f⟩ (foldOutputs f state l)
  | mapPairwise {S T α β γ : Type} [i : Seq S α] [j : Seq T β] {s : S} {t : T} {l : List α}
      {m : List β} (f : α → β → γ) : Expr S α i s l → Expr T β j t m →
      Expr (MapPairwise S T α β γ) γ inferInstance ⟨s, t, f⟩ (List.zipWith f l m)
  | mergeBy {S T α β γ : Type} [i : Seq S α] [j : Seq T β] {s : S} {t : T} {l : List α}
      {m : List β} (compare : β → α → Bool) (ofLeft : α → γ) (ofRight : β → γ) :
      Expr S α i s l → Expr T β j t m →
      Expr (MergeBy S T α β γ) γ inferInstance ⟨s, t, compare, ofLeft, ofRight⟩
        (mergeLists compare ofLeft ofRight l m)
  | cacheNext {S α : Type} [i : Seq S α] {s : S} {l : List α} : Expr S α i s l →
      Expr (CacheNext S α) α inferInstance ⟨s, none⟩ l
  | boxed {ι α : Type} {impl : ι → Type} [i : ∀ n, Seq (impl n) α] {n : ι} {s : impl n}
      {l : List α} : (∀ n, Plain (impl n) α (i n)) → Expr (impl n) α (i n) s l →
      Expr (BoxedSeq ι impl) α inferInstance ⟨n, s⟩ l
  | flatten {O I β : Type} [i : Seq O I] [j : Seq I β] {outer : O} {inners : List I}
      (value : I → List β) : Plain I β j → Expr O I i outer inners →
      (∀ inner ∈ inners, Expr I β j inner (value inner)) →
      Expr (Flatten O I) β inferInstance (Flatten.start outer) (inners.flatMap value)

theorem Expr.plain {inst : Seq S α} {s : S} {l : List α} (h : Expr S α inst s l) :
    Plain S α inst := by
  induction h with
  | asSeq l => exact .subRangeSeq
  | map f _ ih => exact .map ih
  | filter p _ ih => exact .filter ih
  | filterMap f _ ih => exact .filterMap ih
  | takeN n _ ih => exact .takeN ih
  | takeWhile p _ ih => exact .takeWhile ih
  | mapFold state f _ ih => exact .mapFold ih
  | mapPairwise f _ _ ihl ihr => exact .mapPairwise ihl ihr
  | mergeBy compare ofLeft ofRight _ _ ihl ihr => exact .mergeBy ihl ihr
  | cacheNext _ ih => exact .cacheNext ih
  | boxed hplain _ _ => exact .boxed hplain
  | flatten value hplain _ _ ih _ => exact .flatten ih hplain

/-- The items of an expression are those of its value. -/
theorem Expr.items {inst : Seq S α} {s : S} {l : List α} (h : Expr S α inst s l) :
    Seq.items s = l := by
  induction h with
  | asSeq l => exact items_subRangeSeq l
  | map f _ ih => rw [items_map, ih]
  | filter p _ ih => rw [items_filter, ih]
  | filterMap f _ ih => rw [items_filterMap, ih]
  | takeN n _ ih => rw [items_takeN, ih]
  | takeWhile p h ih => rw [items_takeWhile h.plain.built.lawful h.plain.clear, ih]
  | mapFold state f _ ih => rw [items_mapFold, ih]
  | mapPairwise f _ _ ihl ihr => rw [items_mapPairwise, ihl, ihr]
  | mergeBy compare ofLeft ofRight hl hr ihl ihr =>
    rw [items_mergeBy hl.plain.built.lawful hl.plain.clear hr.plain.built.lawful hr.plain.clear,
      ihl, ihr]
  | cacheNext _ ih => rw [items_cacheNext, ih]
  | boxed _ _ ih => rw [items_boxedSeq, ih]
  | flatten value _ _ _ ih ihinner =>
    rw [items_flatten_start, ih]
    exact List.flatMap_congr ihinner

/-! ## The loops that drain a sequence -/

/-- `for_each` with a function that keeps a state and may break. -/
def forEach [Nexts S α] (fn : σ → α → LoopControl × σ) (state : σ) (seq : S) : LoopControl × σ :=
  match _h : next seq with
  | (none, _) => (.kContinue, state)
  | (some x, seq') =>
    match fn state x with
    | (.kBreak, state') => (.kBreak, state')
    | (.kContinue, state') => forEach fn state' seq'
termination_by bound seq
decreasing_by
  have hlt := bound_next_lt (s := seq) (by rw [_h]; rfl)
  rw [_h] at hlt
  exact hlt

def collectVec [Nexts S α] (seq : S) : List α :=
  (forEach (fun v x => (.kContinue, v ++ [x])) [] seq).2

def reduce [Nexts S α] (state : σ) (reduceFn : σ → α → σ) (seq : S) : σ :=
  (forEach (fun state x => (.kContinue, reduceFn state x)) state seq).2

/-- The counter is a `usize`. -/
def count [Nexts S α] (seq : S) : Nat :=
  (forEach (fun n _ => (.kContinue, (n + 1) % 2 ^ 64)) 0 seq).2

/-- The fold over a list with a function that may break. -/
def foldUntilBreak (fn : σ → α → LoopControl × σ) : σ → List α → LoopControl × σ
  | state, [] => (.kContinue, state)
  | state, x :: xs =>
    match fn state x with
    | (.kBreak, state') => (.kBreak, state')
    | (.kContinue, state') => foldUntilBreak fn state' xs

theorem forEach_eq [Nexts S α] (fn : σ → α → LoopControl × σ) (state : σ) (seq : S) :
    forEach fn state seq = foldUntilBreak fn state (items seq) := by
  refine items_induct (P := fun seq : S =>
    ∀ state, forEach fn state seq = foldUntilBreak fn state (items seq)) ?_ ?_ seq state
  · intro seq hend state
    rw [items_of_none hend, forEach, foldUntilBreak]
    split
    · rfl
    · next heq =>
      rw [AtEnd, heq] at hend
      cases hend
  · intro seq x hx ih state
    rw [items_of_some hx, forEach, foldUntilBreak]
    split
    · next heq =>
      rw [heq] at hx
      cases hx
    · next y seq' heq =>
      rw [heq] at hx ih
      obtain rfl : y = x := Option.some.inj hx
      cases fn state y with
      | mk control state' =>
        cases control with
        | kBreak => rfl
        | kContinue => simpa [heq] using ih state'

/-- A fold that does not break. -/
theorem foldUntilBreak_continue (f : σ → α → σ) (state : σ) (l : List α) :
    (foldUntilBreak (fun state x => (.kContinue, f state x)) state l).2 = l.foldl f state := by
  induction l generalizing state with
  | nil => rfl
  | cons x l ih => exact ih (f state x)

theorem foldl_append_singleton (v l : List α) : l.foldl (fun v x => v ++ [x]) v = v ++ l := by
  induction l generalizing v with
  | nil => simp
  | cons x l ih => simp [ih]

theorem foldl_count (n : Nat) (l : List α) :
    l.foldl (fun n _ => (n + 1) % 2 ^ 64) (n % 2 ^ 64) = (n + l.length) % 2 ^ 64 := by
  induction l generalizing n with
  | nil => rfl
  | cons x l ih =>
    rw [List.foldl_cons, Nat.mod_add_mod, ih, List.length_cons]
    congr 1
    omega

/-! ## What the loops see -/

theorem collectVec_eq [Nexts S α] (s : S) : collectVec s = items s := by
  rw [collectVec, forEach_eq, foldUntilBreak_continue, foldl_append_singleton, List.nil_append]

theorem reduce_eq [Nexts S α] (f : σ → α → σ) (state : σ) (s : S) :
    reduce state f s = (items s).foldl f state := by
  rw [reduce, forEach_eq, foldUntilBreak_continue]

theorem count_eq [Nexts S α] (s : S) : count s = (items s).length % 2 ^ 64 := by
  have hfold := foldl_count 0 (items s)
  rw [Nat.zero_mod, Nat.zero_add] at hfold
  rw [count, forEach_eq, foldUntilBreak_continue, hfold]

/-- Without a conversion of the items `merge_by` merges as lists are merged, the left item first on
    ties. -/
theorem mergeLists_eq_merge (lt : α → α → Bool) (xs ys : List α) :
    mergeLists lt id id xs ys = List.merge xs ys fun x y => !lt y x := by
  fun_induction mergeLists lt id id xs ys with
  | case1 ys => simp
  | case2 xs hxs => simp
  | case3 x xs y ys hlt ih =>
    rw [List.cons_merge_cons_neg _ _ _ (by simp [hlt]), ih]
    rfl
  | case4 x xs y ys hlt ih =>
    rw [List.cons_merge_cons_pos _ _ _ (by simpa using hlt), ih]
    rfl

/-- **Sequence expressions compute their functions on lists.** `collect_vec` returns the value of the
    expression, `reduce`, `count` and `for_each` are folds over it, and `merge_by` of two expressions
    whose values are sorted is their stable merge. -/
theorem expr_computes {S α : Type} {inst : Seq S α} {s : S} {l : List α}
    (h : Expr S α inst s l) :
    collectVec s = l ∧
    (∀ (σ : Type) (f : σ → α → σ) (state : σ), reduce state f s = l.foldl f state) ∧
    count s = l.length % 2 ^ 64 ∧
    (∀ (σ : Type) (fn : σ → α → LoopControl × σ) (state : σ),
      forEach fn state s = foldUntilBreak fn state l) ∧
    ∀ (T : Type) (inst' : Seq T α) (t : T) (m : List α), Expr T α inst' t m →
      ∀ lt : α → α → Bool, IsStrictWeakOrder α (fun a b => lt a b = true) →
        l.Pairwise (fun a b => lt b a = false) → m.Pairwise (fun a b => lt b a = false) →
        Merging.IsStableMerge lt l m
          (collectVec (⟨s, t, lt, id, id⟩ : MergeBy S T α α α)) := by
  refine ⟨?_, ?_, ?_, ?_, ?_⟩
  · rw [collectVec_eq, h.items]
  · intro σ f state
    rw [reduce_eq, h.items]
  · rw [count_eq, h.items]
  · intro σ fn state
    rw [forEach_eq, h.items]
  · intro T inst' t m h' lt ho hl hm
    have hvalue := (Expr.mergeBy lt id id h h').items
    rw [collectVec_eq, hvalue, mergeLists_eq_merge]
    exact Merging.isStableMerge_merge ho hl hm

/-- The running sums of a flattened sequence with an empty part, merged by tens with the first
    numbers of another. -/
theorem expr_computes_merge_flatten :
    collectVec (⟨⟨Flatten.start ⟨[⟨[2, 1]⟩, ⟨[]⟩, ⟨[4]⟩]⟩, 0, fun state x => (state + x, state + x)⟩,
      ⟨⟨[5, 12, 30]⟩, (· < 20)⟩, fun a b => a / 10 < b / 10, id, id⟩ :
        MergeBy (MapFold (Flatten (SubRangeSeq (SubRangeSeq Nat)) (SubRangeSeq Nat)) Nat Nat Nat)
          (TakeWhile (SubRangeSeq Nat) Nat) Nat Nat Nat) = [2, 3, 7, 5, 12] ∧
    Merging.IsStableMerge (fun a b => decide (a / 10 < b / 10)) [2, 3, 7] [5, 12]
      [2, 3, 7, 5, 12] := by
  have hflat : Expr _ Nat _ (Flatten.start (⟨[⟨[2, 1]⟩, ⟨[]⟩, ⟨[4]⟩]⟩ : SubRangeSeq (SubRangeSeq Nat)))
      _ := .flatten (fun s => s.subRange) .subRangeSeq (.asSeq _) (fun inner _ => .asSeq inner.subRange)
  have hsums := Expr.mapFold 0 (fun state x => (state + x, state + x)) hflat
  have hfirst := Expr.takeWhile (fun x => decide (x < 20)) (.asSeq [5, 12, 30])
  have hmerge := Expr.mergeBy (fun a b => decide (a / 10 < b / 10)) id id hsums hfirst
  have hvalue := (expr_computes hmerge).1
  have htens : IsStrictWeakOrder Nat fun a b => decide (a / 10 < b / 10) = true :=
    { irrefl := by simp
      trans := by simp only [decide_eq_true_eq]; omega
      incomp_trans := by simp only [decide_eq_true_eq]; omega }
  have hstable := (expr_computes hsums).2.2.2.2 _ _ _ _ hfirst _ htens
    (by simp [foldOutputs]) (by simp)
  rw [hvalue] at hstable
  exact ⟨by simpa [foldOutputs, mergeLists] using hvalue,
    by simpa [foldOutputs, mergeLists] using hstable⟩

end Batt.Seq
