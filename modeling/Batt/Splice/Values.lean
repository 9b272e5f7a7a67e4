/-
  A splice as a value.

  As long as the references are used only in objects where they are to a member of their own, each
  object yields what is expected of it (`splice_yields`): the first `n` items of the outer sequence,
  the inner one, and the rest of the outer one. A copy reads and advances the sequence of the
  original, and what is moved out of a temporary is left with references to that.
-/
import Batt.Splice.Model
import Batt.Seq.Lists

namespace Batt.Splicing

open Batt.Seq

variable {O I S α : Type} [Seq O α] [Seq I α]

/-! ## The sequences below -/

/-- What the concept of a sequence asks: at its end it stays there, and a peek takes nothing. -/
structure SeqConcept (S α : Type) [Seq S α] : Prop where
  end_stays : ∀ s : S, AtEnd s → AtEnd (Nexts.next s).2
  next_peek : ∀ s : S, Nexts.next (Seq.peek s).2 = Nexts.next s

theorem SeqConcept.items_next [Seq S α] (h : SeqConcept S α) (s : S) :
    items (Nexts.next s).2 = (items s).tail := by
  cases hx : (Nexts.next s).1 with
  | none => rw [items_of_none hx, items_of_none (h.end_stays s hx), List.tail_nil]
  | some x => rw [items_of_some hx, List.tail_cons]

theorem SeqConcept.items_peek [Seq S α] (h : SeqConcept S α) (s : S) :
    items (Seq.peek s).2 = items s :=
  items_congr (h.next_peek s)

/-! ## An object that refers to itself -/

/-- What the inner `Chain` has still to yield, behind this outer sequence. -/
def innerYields (outer : O) (c : Chain I OuterSeqRef) : List α :=
  (c.seq1.elim [] items) ++ items outer

def Splice.yields (s : Splice O I) : List α :=
  match s.impl.seq1 with
  | none => innerYields s.outerSeq s.impl.seq2
  | some t =>
    (items s.outerSeq).take t.n ++ s.impl.seq2.seq1.elim [] items ++ (items s.outerSeq).drop t.n

variable {heap : Heap O I} {a : Nat} {s : Splice O I}

theorem object_eq_some_iff : heap.object a = some s ↔ heap[a]? = some (some s) :=
  Option.join_eq_some_iff

theorem object_set (h : heap.object a = some s) (s' : Splice O I) :
    Heap.object (heap.set a (some s')) a = some s' := by
  have hlt := (List.getElem?_eq_some_iff.mp (object_eq_some_iff.mp h)).1
  rw [object_eq_some_iff, List.getElem?_set_self hlt]

theorem setOuter_eq (h : heap.object a = some s) (outer : O) :
    heap.setOuter a outer = heap.set a (some { s with outerSeq := outer }) := by
  rw [Heap.setOuter, List.modify_eq_set_getElem?, object_eq_some_iff.mp h]
  rfl

theorem setImpl_eq (h : heap.object a = some s) (impl : Impl I) :
    heap.setImpl a impl = heap.set a (some { s with impl := impl }) := by
  rw [Heap.setImpl, List.modify_eq_set_getElem?, object_eq_some_iff.mp h]
  rfl

omit [Seq I α] in
theorem nextOuter_eq (h : heap.object a = some s) :
    nextOuter heap a = some ((items s.outerSeq).head?,
      heap.set a (some { s with outerSeq := (Nexts.next s.outerSeq).2 })) := by
  rw [nextOuter, h, Option.map_some, setOuter_eq h, next_head]

theorem set_object (h : heap.object a = some s) : heap.set a (some s) = heap := by
  obtain ⟨hlt, heq⟩ := List.getElem?_eq_some_iff.mp (object_eq_some_iff.mp h)
  rw [← heq, List.set_getElem_self]

theorem own_iff : s.own a = true ↔
    (∀ t, s.impl.seq1 = some t → t.seq = a) ∧ s.impl.seq2.seq2 = a := by
  rw [Splice.own, Bool.and_eq_true, decide_eq_true_eq, Option.all_eq_true]
  simp only [decide_eq_true_eq]

variable (hO : SeqConcept O α) (hI : SeqConcept I α)
include hO

/-- The inner `Chain` of the object at `a` yields the first of its items, and keeps the others. -/
theorem nextInner_own (h : heap.object a = some s) {c : Chain I OuterSeqRef} (hc : c.seq2 = a) :
    ∃ c' outer', nextInner heap c = some ((innerYields s.outerSeq c).head?, c',
        heap.set a (some { s with outerSeq := outer' })) ∧
      c'.seq2 = a ∧ innerYields outer' c' = (innerYields s.outerSeq c).tail := by
  obtain ⟨seq1, seq2⟩ := c
  subst hc
  match seq1 with
  | none =>
    refine ⟨⟨none, seq2⟩, (Nexts.next s.outerSeq).2, ?_, rfl, ?_⟩
    · simp only [nextInner, nextOuter_eq h, Option.map_some]
      rfl
    · simp only [innerYields, Option.elim_none, List.nil_append, hO.items_next]
  | some inner =>
    cases hx : (Nexts.next inner).1 with
    | none =>
      refine ⟨⟨none, seq2⟩, (Nexts.next s.outerSeq).2, ?_, rfl, ?_⟩
      · simp only [nextInner, hx, nextOuter_eq h, Option.map_some, innerYields, Option.elim_some,
          items_of_none hx, List.nil_append]
      · simp only [innerYields, Option.elim_some, Option.elim_none, items_of_none hx,
          List.nil_append, hO.items_next]
    | some x =>
      have hitems := items_of_some hx
      refine ⟨⟨some (Nexts.next inner).2, seq2⟩, s.outerSeq, ?_, rfl, ?_⟩
      · simp only [nextInner, hx, innerYields, Option.elim_some, hitems, List.cons_append,
          List.head?_cons, set_object h]
      · simp only [innerYields, Option.elim_some, hitems, List.cons_append, List.tail_cons]

theorem nextImpl_own (h : heap.object a = some s) (hown : s.own a = true) :
    ∃ s' : Splice O I, nextImpl heap s.impl = some (s.yields.head?, s'.impl,
        heap.set a (some { s with outerSeq := s'.outerSeq })) ∧
      s'.own a = true ∧ s'.yields = s.yields.tail := by
  obtain ⟨hfirst, hlast⟩ := own_iff.mp hown
  match ht : s.impl.seq1 with
  | none =>
    obtain ⟨c', outer', hnext, hc', htail⟩ := nextInner_own hO h hlast
    refine ⟨⟨outer', ⟨none, c'⟩⟩, ?_, own_iff.mpr ⟨nofun, hc'⟩, ?_⟩
    · simp only [nextImpl, ht, hnext, Option.map_some, Splice.yields]
    · rw [Splice.yields, Splice.yields, ht]
      exact htail
  | some ⟨ref, n⟩ =>
    obtain rfl : ref = a := hfirst _ ht
    -- where `take_n` has come to its end, what is left of the outer sequence is behind it
    have hdone : ∀ outer, n = 0 ∧ outer = s.outerSeq ∨
        items s.outerSeq = [] ∧ outer = (Nexts.next s.outerSeq).2 →
        s.yields = innerYields outer s.impl.seq2 := by
      rintro outer (⟨rfl, rfl⟩ | ⟨hempty, rfl⟩)
      · simp only [Splice.yields, ht, innerYields, List.take_zero, List.drop_zero, List.nil_append]
      · simp only [Splice.yields, ht, innerYields, hO.items_next, hempty, List.take_nil,
          List.drop_nil, List.tail_nil, List.nil_append]
    by_cases hn : n = 0
    · obtain ⟨c', outer', hnext, hc', htail⟩ := nextInner_own hO h hlast
      have hyields := hdone _ (.inl ⟨hn, rfl⟩)
      refine ⟨⟨outer', ⟨none, c'⟩⟩, ?_, own_iff.mpr ⟨nofun, hc'⟩, ?_⟩
      · simp only [nextImpl, ht, nextTakeN, if_pos hn, Option.bind_some, hnext, Option.map_some,
          hyields]
      · rw [hyields, ← htail]
        rfl
    · have htake : nextTakeN heap ⟨ref, n⟩ = some ((items s.outerSeq).head?, ⟨ref, n - 1⟩,
          heap.set ref (some { s with outerSeq := (Nexts.next s.outerSeq).2 })) := by
        rw [nextTakeN, if_neg hn, nextOuter_eq h]
        rfl
      cases hx : items s.outerSeq with
      | nil =>
        have h' := object_set h { s with outerSeq := (Nexts.next s.outerSeq).2 }
        obtain ⟨c', outer', hnext, hc', htail⟩ := nextInner_own hO h' hlast
        have hyields := hdone _ (.inr ⟨hx, rfl⟩)
        refine ⟨⟨outer', ⟨none, c'⟩⟩, ?_, own_iff.mpr ⟨nofun, hc'⟩, ?_⟩
        · simp only [nextImpl, ht, htake, hx, List.head?_nil, Option.bind_some, hnext,
            Option.map_some, hyields, List.set_set]
        · rw [hyields, ← htail]
          rfl
      | cons x xs =>
        obtain ⟨n, rfl⟩ := Nat.exists_eq_succ_of_ne_zero hn
        refine ⟨⟨(Nexts.next s.outerSeq).2, { s.impl with seq1 := some ⟨ref, n⟩ }⟩, ?_,
          own_iff.mpr ⟨?_, hlast⟩, ?_⟩
        · simp only [nextImpl, ht, htake, hx, List.head?_cons, Option.bind_some, Splice.yields,
            List.take_succ_cons, List.cons_append, Nat.succ_eq_add_one, Nat.add_sub_cancel]
        · rintro _ ⟨⟩
          rfl
        · simp only [Splice.yields, ht, hO.items_next, hx, List.tail_cons, List.take_succ_cons,
            List.drop_succ_cons, List.cons_append, Nat.succ_eq_add_one]

theorem next_own (h : heap.object a = some s) (hown : s.own a = true) :
    ∃ s' : Splice O I, next heap a = some (s.yields.head?, heap.set a (some s')) ∧ s'.own a = true ∧
      s'.yields = s.yields.tail := by
  obtain ⟨s', hnext, hown', htail⟩ := nextImpl_own hO h hown
  refine ⟨s', ?_, hown', htail⟩
  rw [next, h, Option.bind_some, hnext, Option.map_some, setImpl_eq (object_set h _), List.set_set]

include hI

/-- A call of `peek()` takes nothing. -/
theorem peek_own (h : heap.object a = some s) (hown : s.own a = true) :
    ∃ x, ∃ s' : Splice O I, peek heap a = some (x, heap.set a (some s')) ∧ s'.own a = true ∧
      s'.yields = s.yields := by
  obtain ⟨hfirst, hlast⟩ := own_iff.mp hown
  have hpeek : peekOuter heap a = some ((Seq.peek s.outerSeq).1,
      heap.set a (some { s with outerSeq := (Seq.peek s.outerSeq).2 })) := by
    rw [peekOuter, h, Option.map_some, setOuter_eq h]
  -- the outer sequence is peeked, and the rest is as it was
  have houter : ({ s with outerSeq := (Seq.peek s.outerSeq).2 } : Splice O I).yields = s.yields := by
    simp only [Splice.yields, innerYields, hO.items_peek]
  have hset : ∀ outer, Heap.setImpl (heap.set a (some { s with outerSeq := outer })) a s.impl =
      heap.set a (some { s with outerSeq := outer }) := by
    intro outer
    rw [setImpl_eq (object_set h _), List.set_set]
  cases ht : s.impl.seq1 with
  | some taken =>
    obtain ⟨ref, n⟩ := taken
    obtain rfl : ref = a := hfirst _ ht
    by_cases hn : n = 0
    · refine ⟨none, s, ?_, hown, rfl⟩
      simp only [peek, h, Option.bind_some, peekImpl, ht, if_pos hn, Option.map_some, setImpl_eq h]
    · refine ⟨(Seq.peek s.outerSeq).1, { s with outerSeq := (Seq.peek s.outerSeq).2 }, ?_, hown,
        houter⟩
      simp only [peek, h, Option.bind_some, peekImpl, ht, if_neg hn, hpeek, Option.map_some, hset]
  | none =>
    cases hi : s.impl.seq2.seq1 with
    | none =>
      refine ⟨(Seq.peek s.outerSeq).1, { s with outerSeq := (Seq.peek s.outerSeq).2 }, ?_, hown,
        houter⟩
      simp only [peek, h, Option.bind_some, peekImpl, ht, hi, hlast, hpeek, Option.map_some, hset]
    | some inner =>
      refine ⟨(Seq.peek inner).1, ⟨s.outerSeq, ⟨none, ⟨some (Seq.peek inner).2, a⟩⟩⟩, ?_,
        own_iff.mpr ⟨by simp, rfl⟩, ?_⟩
      · simp only [peek, h, Option.bind_some, peekImpl, ht, hi, hlast, Option.map_some, setImpl_eq h]
      · simp only [Splice.yields, ht, hi, innerYields, Option.elim_some, hI.items_peek]

omit hO hI

/-! ## An object that is called without its references -/

omit [Seq O α] in
theorem nextInside_iff : s.nextInside = true ↔ (∀ t, s.impl.seq1 = some t → t.n = 0) ∧
    ∃ inner x, s.impl.seq2.seq1 = some inner ∧ (Nexts.next inner).1 = some x := by
  simp only [Splice.nextInside, Bool.and_eq_true, Option.all_eq_true, decide_eq_true_eq,
    Option.any_eq_true, Option.isSome_iff_exists]
  refine and_congr_right fun _ => ⟨?_, ?_⟩
  · rintro ⟨inner, hi, x, hx⟩
    exact ⟨inner, x, hi, hx⟩
  · rintro ⟨inner, x, hi, hx⟩
    exact ⟨inner, hi, x, hx⟩

theorem next_inside (h : heap.object a = some s) (hin : s.nextInside = true) :
    ∃ s' : Splice O I, next heap a = some (s.yields.head?, heap.set a (some s')) ∧
      s'.yields = s.yields.tail := by
  obtain ⟨hfirst, inner, x, hinner, hx⟩ := nextInside_iff.mp hin
  have hitems := items_of_some hx
  have hyields : s.yields = x :: (items (Nexts.next inner).2 ++ items s.outerSeq) := by
    cases ht : s.impl.seq1 with
    | none => simp only [Splice.yields, ht, innerYields, hinner, Option.elim_some, hitems,
        List.cons_append]
    | some t => simp only [Splice.yields, ht, hfirst t ht, hinner, Option.elim_some, hitems,
        List.take_zero, List.drop_zero, List.nil_append, List.cons_append]
  refine ⟨⟨s.outerSeq, ⟨none, ⟨some (Nexts.next inner).2, s.impl.seq2.seq2⟩⟩⟩, ?_, ?_⟩
  · have hnext : nextInner heap s.impl.seq2 =
        some (some x, { s.impl.seq2 with seq1 := some (Nexts.next inner).2 }, heap) := by
      simp only [nextInner, hinner, hx]
    rw [hyields, List.head?_cons, next, h, Option.bind_some]
    cases ht : s.impl.seq1 with
    | none =>
      simp only [nextImpl, ht, hnext, Option.map_some, setImpl_eq h]
    | some t =>
      simp only [nextImpl, ht, nextTakeN, if_pos (hfirst t ht), Option.bind_some, hnext,
        Option.map_some, setImpl_eq h]
  · rw [hyields, List.tail_cons]
    rfl

theorem peek_inside (hI : SeqConcept I α) (h : heap.object a = some s)
    (hin : s.peekInside = true) :
    ∃ x, ∃ s' : Splice O I, peek heap a = some (x, heap.set a (some s')) ∧
      s'.yields = s.yields := by
  unfold Splice.peekInside at hin
  cases ht : s.impl.seq1 with
  | some t =>
    rw [ht] at hin
    refine ⟨none, s, ?_, rfl⟩
    simp only [peek, h, Option.bind_some, peekImpl, ht, if_pos (of_decide_eq_true hin),
      Option.map_some, setImpl_eq h]
  | none =>
    rw [ht] at hin
    obtain ⟨inner, hi⟩ := Option.isSome_iff_exists.mp hin
    refine ⟨(Seq.peek inner).1, ⟨s.outerSeq, ⟨none, ⟨some (Seq.peek inner).2, s.impl.seq2.seq2⟩⟩⟩,
      ?_, ?_⟩
    · simp only [peek, h, Option.bind_some, peekImpl, ht, hi, Option.map_some, setImpl_eq h]
    · simp only [Splice.yields, ht, hi, innerYields, Option.elim_some, hI.items_peek]

/-! ## Steps and runs -/

/-- An object is there unless it is expected to have been destroyed, and yields what is expected
    of it. -/
def Matches (object : Option (Splice O I)) : Option (Value α) → Prop
  | some (.yields l) => ∃ s, object = some s ∧ s.yields = l
  | some .movedFrom => ∃ s, object = some s
  | some .destroyed | none => True

/-- The objects are what is expected. -/
structure Represents (heap : Heap O I) (ls : Values α) : Prop where
  length : heap.length = ls.length
  agrees : ∀ a, Matches (heap.object a) ls[a]?

theorem getElem?_concat {β : Type} (xs : List β) (x : β) (i : Nat) :
    (xs ++ [x])[i]? = if i = xs.length then some x else xs[i]? := by
  split
  · rename_i hi
    rw [hi, List.getElem?_concat_length]
  · rcases Nat.lt_or_ge i xs.length with hlt | hge
    · exact List.getElem?_append_left hlt
    · rw [List.getElem?_eq_none hge, List.getElem?_eq_none]
      rw [List.length_append, List.length_singleton]
      omega

variable {ls : Values α}

theorem Represents.append (h : Represents heap ls) {v : Value α}
    (hm : Matches (some s) (some v)) : Represents (heap ++ [some s]) (ls ++ [v]) := by
  refine ⟨by rw [List.length_append, List.length_append, h.length]; rfl, fun a => ?_⟩
  rw [Heap.object, getElem?_concat, getElem?_concat, ← h.length]
  split
  · exact hm
  · exact h.agrees a

theorem Represents.set (h : Represents heap ls) {o : Option (Splice O I)} {v : Value α}
    (ha : a < heap.length) (hm : Matches o (some v)) :
    Represents (heap.set a o) (ls.set a v) := by
  refine ⟨by rw [List.length_set, List.length_set, h.length], fun b => ?_⟩
  rw [Heap.object]
  by_cases hb : a = b
  · subst hb
    rw [List.getElem?_set_self ha, List.getElem?_set_self (h.length ▸ ha)]
    exact hm
  · rw [List.getElem?_set_ne hb, List.getElem?_set_ne hb]
    exact h.agrees b

theorem object_lt (h : heap.object a = some s) : a < heap.length :=
  (List.getElem?_eq_some_iff.mp (object_eq_some_iff.mp h)).1

theorem left_eq_some_iff {l : List α} : ls.left a = some l ↔ ls[a]? = some (.yields l) := by
  constructor
  · intro hl
    unfold Values.left at hl
    split at hl
    · rename_i l' hv
      cases hl
      exact hv
    · cases hl
  · intro hv
    rw [Values.left, hv]

theorem Represents.object_of_left (h : Represents heap ls) {l : List α} (hl : ls.left a = some l) :
    ∃ s, heap.object a = some s ∧ s.yields = l := by
  have hm := h.agrees a
  rwa [left_eq_some_iff.mp hl] at hm

theorem Represents.object_of_alive (h : Represents heap ls) (hl : ls.alive a = true) :
    ∃ s, heap.object a = some s := by
  have hm := h.agrees a
  unfold Values.alive at hl
  split at hl
  · rename_i l hv
    rw [hv] at hm
    obtain ⟨s, hs, _⟩ := hm
    exact ⟨s, hs⟩
  · rename_i hv
    rwa [hv] at hm
  · cases hl

variable (moved : Moved O I)
include hO hI

theorem step_represents {e : Event O I} {out : List (Option α)} {ls' : Values α}
    (h : Represents heap ls) (hspec : specStep ls e = some (out, ls'))
    (hown : callsOwn heap e = true) :
    ∃ heap', step moved heap e = some (out, heap') ∧ Represents heap' ls' := by
  cases e with
  | construct outer n inner =>
    cases hspec
    exact ⟨_, rfl, h.append ⟨_, rfl, rfl⟩⟩
  | copy that =>
    obtain ⟨l, hl, heq⟩ := Option.map_eq_some_iff.mp hspec
    cases heq
    obtain ⟨s, hs, hyields⟩ := h.object_of_left hl
    exact ⟨heap ++ [some s], by rw [step, hs]; rfl, h.append ⟨s, rfl, hyields⟩⟩
  | move that =>
    obtain ⟨l, hl, heq⟩ := Option.map_eq_some_iff.mp hspec
    cases heq
    obtain ⟨s, hs, hyields⟩ := h.object_of_left hl
    exact ⟨heap.set that (some (s.left moved)) ++ [some s], by rw [step, hs]; rfl,
      (h.set (v := .movedFrom) (object_lt hs) ⟨_, rfl⟩).append ⟨s, rfl, hyields⟩⟩
  | destroy a =>
    simp only [specStep] at hspec
    split at hspec
    · rename_i halive
      cases hspec
      obtain ⟨s, hs⟩ := h.object_of_alive halive
      exact ⟨heap.set a none, by rw [step, hs]; rfl, h.set (object_lt hs) trivial⟩
    · cases hspec
  | next a =>
    obtain ⟨l, hl, heq⟩ := Option.map_eq_some_iff.mp hspec
    cases heq
    obtain ⟨s, hs, rfl⟩ := h.object_of_left hl
    rw [callsOwn, hs, Option.all_some, Bool.or_eq_true] at hown
    obtain ⟨s', hnext, htail⟩ : ∃ s' : Splice O I,
        next heap a = some (s.yields.head?, heap.set a (some s')) ∧ s'.yields = s.yields.tail := by
      rcases hown with hown | hinside
      · obtain ⟨s', hnext, -, htail⟩ := next_own hO hs hown
        exact ⟨s', hnext, htail⟩
      · exact next_inside hs hinside
    exact ⟨heap.set a (some s'), by rw [step, hnext]; rfl, h.set (object_lt hs) ⟨s', rfl, htail⟩⟩
  | peek a =>
    obtain ⟨l, hl, heq⟩ := Option.map_eq_some_iff.mp hspec
    cases heq
    obtain ⟨s, hs, rfl⟩ := h.object_of_left hl
    rw [callsOwn, hs, Option.all_some, Bool.or_eq_true] at hown
    obtain ⟨x, s', hpeek, hsame⟩ : ∃ x, ∃ s' : Splice O I,
        peek heap a = some (x, heap.set a (some s')) ∧ s'.yields = s.yields := by
      rcases hown with hown | hinside
      · obtain ⟨x, s', hpeek, -, hsame⟩ := peek_own hO hI hs hown
        exact ⟨x, s', hpeek, hsame⟩
      · exact peek_inside hI hs hinside
    have hset : Represents (heap.set a (some s')) (ls.set a (.yields s.yields)) :=
      h.set (object_lt hs) ⟨s', rfl, hsame⟩
    have hls : ls.set a (.yields s.yields) = ls := by
      obtain ⟨hlt, heq⟩ := List.getElem?_eq_some_iff.mp (left_eq_some_iff.mp hl)
      rw [← heq, List.set_getElem_self]
    rw [hls] at hset
    exact ⟨heap.set a (some s'), by rw [step, hpeek]; rfl, hset⟩

theorem run_represents {es : List (Event O I)} {out : List (Option α)} {ls' : Values α}
    (h : Represents heap ls) (hspec : specRun es ls = some (out, ls'))
    (hown : runsOwn moved es heap = true) :
    ∃ heap', run moved es heap = some (out, heap') ∧ Represents heap' ls' := by
  induction es generalizing heap ls out with
  | nil =>
    cases hspec
    exact ⟨heap, rfl, h⟩
  | cons e es ih =>
    obtain ⟨⟨first, ls₁⟩, hstep, hr⟩ := Option.bind_eq_some_iff.mp hspec
    obtain ⟨⟨later, ls₂⟩, hrest, hr⟩ := Option.map_eq_some_iff.mp hr
    cases hr
    obtain ⟨hcalls, hlater⟩ := Bool.and_eq_true_iff.mp hown
    obtain ⟨heap₁, he, h₁⟩ := step_represents hO hI moved h hstep hcalls
    rw [he, Option.all_some] at hlater
    obtain ⟨heap₂, hrun, h₂⟩ := ih h₁ hrest hlater
    refine ⟨heap₂, ?_, h₂⟩
    rw [run, he, Option.bind_some, hrun]
    rfl

/-- **A splice yields what it is expected to.** In every run of constructions, copies, moves,
    destructions, `peek()` and `next()` on objects that are there, in which each of the calls that
    uses the references is on an object where they are to a member of its own, no reference is to
    nothing, and each object returns the first `n` items of its outer sequence, then those of the
    inner one, then the rest of the outer one, whatever has become of its copies. -/
theorem splice_yields (es : List (Event O I)) (out : List (Option α)) (ls : Values α)
    (hspec : specRun es [] = some (out, ls)) (hown : runsOwn moved es [] = true) :
    ∃ heap, run moved es [] = some (out, heap) := by
  have hstart : Represents ([] : Heap O I) ([] : Values α) :=
    ⟨rfl, fun _ => trivial⟩
  obtain ⟨heap, hrun, _⟩ := run_represents hO hI moved hstart hspec hown
  exact ⟨heap, hrun⟩

omit hO hI

theorem seqConcept_subRangeSeq : SeqConcept (SubRangeSeq α) α where
  end_stays s h := by
    obtain ⟨l⟩ := s
    cases l with
    | nil => rfl
    | cons x l => cases h
  next_peek _ := rfl

/-- Nothing is left of what is moved from. -/
def emptied : Moved (SubRangeSeq Nat) (SubRangeSeq Nat) where
  outer _ := ⟨[]⟩
  inner _ := ⟨[]⟩

/-- A copy is made between the items, and moved on; it returns the item of the inner sequence, and
    the original is called to its end. -/
def originalRun : List (Event (SubRangeSeq Nat) (SubRangeSeq Nat)) :=
  [.construct ⟨[1, 2]⟩ 1 ⟨[7]⟩, .peek 0, .next 0, .copy 0, .move 1, .destroy 1, .next 2, .next 0,
    .next 0, .next 0]

theorem splice_yields_originalRun : ∃ heap,
    run emptied originalRun [] = some ([some 1, some 7, some 7, some 2, none], heap) := by
  have hspec : specRun originalRun [] = some ([some 1, some 7, some 7, some 2, none],
      [.yields [], .destroyed, .yields [2]]) := by
    rw [originalRun, specRun, specStep, items_subRangeSeq, items_subRangeSeq]
    rfl
  exact splice_yields seqConcept_subRangeSeq seqConcept_subRangeSeq emptied originalRun _ _ hspec
    (by decide)

/-- A copy is advanced before the original. -/
def copyRun : List (Event (SubRangeSeq Nat) (SubRangeSeq Nat)) :=
  [.construct ⟨[1, 2]⟩ 1 ⟨[7]⟩, .copy 0, .next 1, .next 0]

/-- A temporary is moved from and destroyed, as where a further operator takes it. -/
def temporaryRun : List (Event (SubRangeSeq Nat) (SubRangeSeq Nat)) :=
  [.construct ⟨[1, 2]⟩ 1 ⟨[7]⟩, .move 0, .destroy 0, .next 1]

/-- The first item is then that of another object, and there is a call through a reference to
    nothing. -/
theorem copies_share_outer :
    ((specRun copyRun []).map Prod.fst = some [some 1, some 1] ∧
        (run emptied copyRun []).map Prod.fst = some [some 1, some 2]) ∧
      (specRun temporaryRun []).map Prod.fst = some [some 1] ∧
        (run emptied temporaryRun []).map Prod.fst = none := by
  refine ⟨⟨?_, by decide⟩, ?_, by decide⟩
  · rw [copyRun, specRun, specStep, items_subRangeSeq, items_subRangeSeq]
    rfl
  · rw [temporaryRun, specRun, specStep, items_subRangeSeq, items_subRangeSeq]
    rfl

end Batt.Splicing
