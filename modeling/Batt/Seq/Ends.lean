/-
  Where `take_n`, `skip_n` and `status_ok` end.

  A `for_each` reads up to the first `None`. `skip_n` returns one for every item it skips, so it
  is the complement of `take_n` only where one of the two is the whole sequence
  (`takeN_skipN_iff`). `status_ok` returns `None` for an item that is not OK and reads on with the
  next call, so it has ended, with the status of that item, only where no later call finds an item
  that is OK or updates the status (`statusOk_calls_iff`).
-/
import Mathlib.Data.List.TakeDrop
import Batt.Seq.Lists

namespace Batt.Seq

open Nexts

variable {S α : Type}

/-! ## take_n and skip_n -/

theorem items_skipN_zero [Nexts S α] (s : S) : items (SkipN.mk s 0) = items s := by
  have hlift : ∀ t : SkipN S, t.n = 0 → items t = items t.seq := by
    refine items_induct ?_ ?_
    · intro t hend hn
      have hseq : AtEnd t.seq := by
        simp only [AtEnd, next, hn, ne_eq, not_true_eq_false, if_false] at hend
        exact hend
      rw [items_of_none hend, items_of_none hseq]
    · intro t x hx ih hn
      have hnext : next t = ((next t.seq).1, { t with seq := (next t.seq).2 }) := by
        simp only [next, hn, ne_eq, not_true_eq_false, if_false]
      rw [hnext] at hx
      rw [items_of_some (s := t) (by rw [hnext, hx]), ih (by rw [hnext]; exact hn),
        items_of_some (s := t.seq) hx, hnext]
  exact hlift ⟨s, 0⟩ rfl

/-- The first call of `next()` skips an item, and returns `None`. -/
theorem items_skipN_pos [Nexts S α] (s : S) {n : Nat} (hn : n ≠ 0) : items (SkipN.mk s n) = [] := by
  refine items_of_none ?_
  simp only [AtEnd, next, if_pos hn]

/-- **`take_n` and `skip_n`.** What the two yield, one behind the other, are the items of the
    sequence, with the item behind the first `n` to be peeked at, exactly if there is nothing to
    skip or nothing behind what is skipped. -/
theorem takeN_skipN_iff [Seq S α] (h : Lawful S α) (s : S) (hs : clear s) (n : Nat) :
    (items (TakeN.mk s n) ++ items (SkipN.mk s n) = items s ∧
        ∀ x, (items s)[n]? = some x → (peek (SkipN.mk s n)).1 = some x) ↔
      n = 0 ∨ (items s).length ≤ n := by
  rw [items_takeN]
  by_cases hn : n = 0
  · refine iff_of_true ⟨?_, ?_⟩ (.inl hn)
    · rw [hn, items_skipN_zero, List.take_zero, List.nil_append]
    · intro x hx
      have hpeek : peek (SkipN.mk s 0) = ((peek s).1, ⟨(peek s).2, 0⟩) := rfl
      rw [hn, hpeek, h.peek_value hs, next_head, List.head?_eq_getElem?, ← hn]
      exact hx
  · rw [items_skipN_pos s hn, List.append_nil, List.take_eq_self_iff, or_iff_right hn]
    refine and_iff_left_of_imp fun hle x hx => ?_
    rw [List.getElem?_eq_none hle] at hx
    cases hx

theorem takeN_skipN_iff_three :
    items (TakeN.mk (SubRangeSeq.mk [1, 2, 3]) 3) ++ items (SkipN.mk (SubRangeSeq.mk [1, 2, 3]) 3) =
      items (SubRangeSeq.mk [1, 2, 3]) := by
  refine ((takeN_skipN_iff lawful_subRangeSeq (SubRangeSeq.mk [1, 2, 3]) trivial 3).mpr
    (.inr ?_)).1
  rw [items_subRangeSeq]
  decide

/-- With one item of two to skip, the second is neither yielded nor to be peeked at. -/
theorem skipN_drops_the_rest :
    items (TakeN.mk (SubRangeSeq.mk [1, 2]) 1) ++ items (SkipN.mk (SubRangeSeq.mk [1, 2]) 1) = [1] ∧
      (items (SubRangeSeq.mk [1, 2]))[1]? = some 2 ∧
        (peek (SkipN.mk (SubRangeSeq.mk [1, 2]) 1)).1 = none := by
  refine ⟨?_, ?_, rfl⟩
  · rw [items_takeN, items_subRangeSeq, items_skipN_pos _ (by decide)]
    rfl
  · rw [items_subRangeSeq]
    rfl

/-! ## status_ok -/

/-- A sequence that need not come to an end: a peek takes nothing, and returns what `next()`
    would. -/
structure Source (S α : Type) where
  next : S → Option α × S
  peek : S → Option α × S
  next_peek : ∀ s, next (peek s).2 = next s
  peek_value : ∀ s, (peek s).1 = (next s).1

/-- What `next()` returns after `k` others. -/
def Source.value (src : Source S α) (s : S) : Nat → Option α
  | 0 => (src.next s).1
  | k + 1 => src.value (src.next s).2 k

theorem Source.value_peek (src : Source S α) (s : S) : src.value (src.peek s).2 = src.value s := by
  funext k
  cases k with
  | zero => exact congrArg Prod.fst (src.next_peek s)
  | succ k => exact congrArg (src.value ·.2 k) (src.next_peek s)

def StatusOk.call (src : Source S (StatusOr α)) (s : StatusOk S) : Call → Option α × StatusOk S
  | .peek =>
    ((unwrapItem s.status (src.peek s.seq).1).1,
      { seq := (src.peek s.seq).2, status := (unwrapItem s.status (src.peek s.seq).1).2 })
  | .next =>
    ((unwrapItem s.status (src.next s.seq).1).1,
      { seq := (src.next s.seq).2, status := (unwrapItem s.status (src.next s.seq).1).2 })

/-- What each call returns, and `status()` after it. -/
def StatusOk.calls (src : Source S (StatusOr α)) : List Call → StatusOk S →
    List (Option α × StatusCode)
  | [], _ => []
  | c :: cs, s => ((s.call src c).1, (s.call src c).2.status) :: calls src cs (s.call src c).2

/-- How many items have been taken after a call. -/
def Call.after : Call → Nat → Nat
  | .peek, k => k
  | .next, k => k + 1

/-- What the calls return, and `status()`, if the first item that is not OK ends the sequence. -/
def untilError (values : Nat → Option (StatusOr α)) : Nat → List Call →
    List (Option α × StatusCode)
  | _, [] => []
  | k, c :: cs =>
    match values k with
    | none => (none, .kOk) :: untilError values (c.after k) cs
    | some (.ok x) => (some x, .kOk) :: untilError values (c.after k) cs
    | some (.error code) => (none, code) :: untilError values k cs

/-- The item is not OK, and does not update the status. -/
def Silent (status : StatusCode) : StatusOr α → Prop
  | .ok _ => False
  | .error code => status = .kUnknown → code = .kUnknown

/-- Of what is read, every item behind the first that is not OK is silent. -/
def Quiet : List (Option (StatusOr α)) → Prop
  | [] => True
  | some (.error code) :: later => ∀ x, some x ∈ later → Silent code x
  | none :: later | some (.ok _) :: later => Quiet later

/-- The items that are read, unwrapped one by one. -/
def unwrapItems : StatusCode → List (Option (StatusOr α)) → List (Option α × StatusCode)
  | _, [] => []
  | status, item :: later => unwrapItem status item :: unwrapItems (unwrapItem status item).2 later

theorem expected_cons {β : Type} (values : Nat → Option β) (k : Nat) (c : Call) (cs : List Call) :
    expected values k (c :: cs) = values k :: expected values (c.after k) cs := by
  cases c <;> rfl

theorem length_expected {β : Type} (values : Nat → Option β) (k : Nat) (cs : List Call) :
    (expected values k cs).length = cs.length := by
  induction cs generalizing k with
  | nil => rfl
  | cons c cs ih => rw [expected_cons, List.length_cons, ih, List.length_cons]

/-- The calls unwrap what the same calls read of the source. -/
theorem StatusOk.calls_eq (src : Source S (StatusOr α)) (cs : List Call) (s : S)
    (status : StatusCode) :
    StatusOk.calls src cs ⟨s, status⟩ = unwrapItems status (expected (src.value s) 0 cs) := by
  induction cs generalizing s status with
  | nil => rfl
  | cons c cs ih =>
    rw [calls, expected_cons, unwrapItems]
    cases c with
    | peek =>
      have hvalue : src.value s 0 = (src.peek s).1 := (src.peek_value s).symm
      rw [call, hvalue, ih, src.value_peek]
      rfl
    | next =>
      rw [call, ih, Call.after, expected_next]
      rfl

theorem unwrapItem_eq_iff {status : StatusCode} (hne : status ≠ .kOk)
    {item : Option (StatusOr α)} :
    unwrapItem status item = (none, status) ↔ ∀ x, item = some x → Silent status x := by
  match item with
  | none => exact iff_of_true rfl nofun
  | some (.ok y) => exact iff_of_false (by rw [unwrapItem]; nofun) fun h => h _ rfl
  | some (.error code) =>
    rw [unwrapItem, Prod.mk.injEq, updateStatus]
    by_cases hu : status = .kUnknown
    · rw [if_pos (.inr hu)]
      constructor
      · rintro ⟨-, rfl⟩ x ⟨⟩
        exact id
      · intro h
        exact ⟨rfl, (h _ rfl hu).trans hu.symm⟩
    · rw [if_neg (not_or.mpr ⟨hne, hu⟩)]
      refine iff_of_true ⟨rfl, rfl⟩ ?_
      rintro x ⟨⟩
      exact fun h => absurd h hu

/-- Once the status is not OK, the sequence has ended as long as what is read is silent. -/
theorem unwrapItems_eq_iff {status : StatusCode} (hne : status ≠ .kOk)
    (read : List (Option (StatusOr α))) :
    unwrapItems status read = List.replicate read.length (none, status) ↔
      ∀ x, some x ∈ read → Silent status x := by
  induction read with
  | nil => exact iff_of_true rfl nofun
  | cons item later ih =>
    rw [unwrapItems, List.length_cons, List.replicate_succ, List.cons.injEq]
    constructor
    · rintro ⟨hitem, hlater⟩ x hx
      rw [hitem] at hlater
      rcases List.mem_cons.mp hx with h | h
      · exact (unwrapItem_eq_iff hne).mp hitem x h.symm
      · exact ih.mp hlater x h
    · intro h
      have hitem := (unwrapItem_eq_iff hne).mpr fun x hx => h x (hx ▸ List.mem_cons_self)
      refine ⟨hitem, ?_⟩
      rw [hitem]
      exact ih.mpr fun x hx => h x (List.mem_cons_of_mem _ hx)

theorem untilError_error {values : Nat → Option (StatusOr α)} {k : Nat} {code : StatusCode}
    (hk : values k = some (.error code)) (cs : List Call) :
    untilError values k cs = List.replicate cs.length (none, code) := by
  induction cs with
  | nil => rfl
  | cons c cs ih => rw [untilError, hk, ih, List.length_cons, List.replicate_succ]

theorem unwrapItems_expected_iff {values : Nat → Option (StatusOr α)}
    (hvalues : ∀ k, values k ≠ some (.error .kOk)) (k : Nat) (cs : List Call) :
    unwrapItems .kOk (expected values k cs) = untilError values k cs ↔
      Quiet (expected values k cs) := by
  induction cs generalizing k with
  | nil => exact iff_of_true rfl trivial
  | cons c cs ih =>
    rw [expected_cons, unwrapItems, untilError]
    match hk : values k with
    | none =>
      rw [List.cons.injEq, Quiet]
      exact (and_iff_right rfl).trans (ih (c.after k))
    | some (.ok x) =>
      rw [List.cons.injEq, Quiet]
      exact (and_iff_right rfl).trans (ih (c.after k))
    | some (.error code) =>
      have hne : code ≠ .kOk := fun h => hvalues k (h ▸ hk)
      rw [List.cons.injEq, Quiet, untilError_error hk, ← length_expected values (c.after k) cs]
      exact (and_iff_right rfl).trans (unwrapItems_eq_iff hne _)

/-- **`status_ok` ends at the first error.** Whatever calls are made, they return the items in
    front of the first that is not OK, and `None` once it has been reached, with its status from
    there on, exactly if no item that is read later is OK, or not `kUnknown` where the first is. -/
theorem statusOk_calls_iff (src : Source S (StatusOr α)) (s : S)
    (hs : ∀ k, src.value s k ≠ some (.error .kOk)) (cs : List Call) :
    StatusOk.calls src cs ⟨s, .kOk⟩ = untilError (src.value s) 0 cs ↔
      Quiet (expected (src.value s) 0 cs) := by
  rw [StatusOk.calls_eq]
  exact unwrapItems_expected_iff hs 0 cs

/-- A sequence is a source if every peek of it can be trusted. -/
def Lawful.source [Seq S α] (h : Lawful S α) (hclear : ∀ s : S, clear s) : Source S α where
  next := next
  peek := peek
  next_peek s := h.next_peek (hclear s)
  peek_value s := h.peek_value (hclear s)

/-- `as_seq` of a container. -/
def container : Source (SubRangeSeq α) α :=
  lawful_subRangeSeq.source fun _ => trivial

theorem value_container (l : List α) (k : Nat) : container.value ⟨l⟩ k = l[k]? := by
  induction k generalizing l with
  | zero => exact List.head?_eq_getElem?
  | succ k ih => exact (ih l.tail).trans List.getElem?_tail

/-- Behind a value there are errors alone. -/
def refused : List (StatusOr Nat) :=
  [.ok 1, .error .kNotFound, .error .kClosed]

theorem statusOk_calls_iff_refused :
    StatusOk.calls container [.peek, .next, .next, .peek] ⟨⟨refused⟩, .kOk⟩ =
      [(some 1, .kOk), (some 1, .kOk), (none, .kNotFound), (none, .kNotFound)] := by
  refine (statusOk_calls_iff container ⟨refused⟩ ?_ [.peek, .next, .next, .peek]).mpr ?_
  · intro k hk
    rw [value_container] at hk
    exact absurd (List.mem_of_getElem? hk) (by decide)
  · rintro _ (_ | ⟨_, ⟨⟩⟩) h
    cases h

/-- The call behind the `None` returns a value, and an unknown error is replaced by a later one. -/
theorem statusOk_reads_on :
    (StatusOk.calls container [.next, .next, .next]
          ⟨⟨[.ok 1, .error .kNotFound, .ok 2]⟩, .kOk⟩ =
        [(some 1, .kOk), (none, .kNotFound), (some 2, .kNotFound)] ∧
      untilError (container.value ⟨[.ok 1, .error .kNotFound, .ok 2]⟩) 0 [.next, .next, .next] =
        [(some 1, .kOk), (none, .kNotFound), (none, .kNotFound)]) ∧
    StatusOk.calls (α := Nat) container [.next, .next]
          ⟨⟨[.error .kUnknown, .error .kClosed]⟩, .kOk⟩ = [(none, .kUnknown), (none, .kClosed)] ∧
      untilError (α := Nat) (container.value ⟨[.error .kUnknown, .error .kClosed]⟩) 0
        [.next, .next] = [(none, .kUnknown), (none, .kUnknown)] :=
  ⟨⟨rfl, rfl⟩, rfl, rfl⟩

end Batt.Seq
