/-
  One object of `KMergeBy` by itself, on the array it owns.

  The heap holds the positions of the sequences that have items left, with those items cached
  (`Valid`). A call of `next()` takes the first item of one of them, and no other one begins with a
  smaller item (`next_spec`). Until the last of them is exhausted the calls return a shuffle of what
  is left (`shuffle_rest`), which is sorted if that is (`sorted_rest`).
-/
import Batt.KMerge.Model
import Batt.Lib.Merge
import Batt.Seq.Lists

namespace Batt.KMerge

open Batt.Seq

variable {S α : Type} [Nexts S α] {seq : CacheNext S α}

/-! ## cache_next -/

theorem peek_fst (seq : CacheNext S α) : seq.peek.1 = (items seq).head? := by
  rw [CacheNext.peek_value]
  cases hx : seq.next.1 with
  | none => rw [items_of_none (s := seq) hx, List.head?_nil]
  | some x => rw [items_of_some (s := seq) hx, List.head?_cons]

theorem items_peek_cacheNext (seq : CacheNext S α) : items seq.peek.2 = items seq :=
  items_congr (CacheNext.next_peek seq)

theorem next_of_items {x : α} {xs : List α} (h : items seq = x :: xs) :
    seq.next.1 = some x ∧ items seq.next.2 = xs := by
  cases hy : seq.next.1 with
  | none =>
    rw [items_of_none (s := seq) hy] at h
    cases h
  | some y =>
    rw [items_of_some (s := seq) hy] at h
    cases h
    exact ⟨rfl, rfl⟩

/-- A sequence that has been peeked is left as it is by another peek. -/
theorem peek_peek_cacheNext (seq : CacheNext S α) : seq.peek.2.peek.2 = seq.peek.2 :=
  congrArg Prod.snd (Seq.peek_peek seq)

/-! ## The order of the heap -/

omit [Nexts S α] in
@[simp] theorem load_vectorMemory (m : List (CacheNext S α)) (i : Nat) :
    vectorMemory.load m i = m[i]? := rfl

omit [Nexts S α] in
@[simp] theorem store_vectorMemory (m : List (CacheNext S α)) (i : Nat) (seq : CacheNext S α) :
    vectorMemory.store m i seq = m.set i seq := rfl

variable (H : HeapOps) (compare : α → α → Bool) {m : List (CacheNext S α)} {i n : Nat}

/-- What an object is the value of. -/
abbrev Value (S α : Type) := Merger (List (CacheNext S α)) Nat

theorem peekItem_eq_some_iff {x : α} :
    vectorMemory.peekItem m i = some x ↔ ∃ seq xs, m[i]? = some seq ∧ items seq = x :: xs := by
  simp only [Memory.peekItem, load_vectorMemory, Option.bind_eq_some_iff, peek_fst, List.head?_eq_some_iff]
  constructor
  · rintro ⟨seq, hseq, xs, hxs⟩
    exact ⟨seq, xs, hseq, hxs⟩
  · rintro ⟨seq, xs, hseq, hxs⟩
    exact ⟨seq, hseq, xs, hxs⟩

theorem heapOrder_eq {j : Nat} {x y : α} (hx : vectorMemory.peekItem m i = some x)
    (hy : vectorMemory.peekItem m j = some y) :
    heapOrder vectorMemory compare m i j = compare y x := by
  rw [heapOrder, hx, hy]

variable {compare} (ho : IsStrictWeakOrder α fun a b => compare a b = true) {l : List Nat}

include ho in
/-- On sequences that have items the order of the heap is a strict weak one. -/
theorem strictWeakOn_heapOrder (h : ∀ i ∈ l, ∃ x, vectorMemory.peekItem m i = some x)
    :
    HeapOps.StrictWeakOn (heapOrder vectorMemory compare m) l := by
  constructor
  · intro i hi j hj hij
    obtain ⟨x, hx⟩ := h i hi
    obtain ⟨y, hy⟩ := h j hj
    rw [heapOrder_eq compare hx hy] at hij
    rw [heapOrder_eq compare hy hx]
    by_contra hxy
    have hirrefl := ho.toIrrefl.irrefl y
    exact hirrefl (Merging.lt_trans ho hij (by simpa using hxy))
  · intro i hi j hj k hk hij hjk
    obtain ⟨x, hx⟩ := h i hi
    obtain ⟨y, hy⟩ := h j hj
    obtain ⟨z, hz⟩ := h k hk
    rw [heapOrder_eq compare hx hy] at hij
    rw [heapOrder_eq compare hy hz] at hjk
    rw [heapOrder_eq compare hx hz]
    exact Merging.not_lt_trans ho hij hjk

/-! ## Objects in order -/

/-- The heap holds the sequences before `n` that are not exhausted, each once and peeked. -/
structure ValidUpTo (compare : α → α → Bool) (n : Nat) (k : Value S α) : Prop where
  nodup : k.heap.Nodup
  mem_iff : ∀ i, i ∈ k.heap ↔ i < n ∧ ∃ seq, k.memory[i]? = some seq ∧ items seq ≠ []
  isHeap : HeapOps.IsHeap (heapOrder vectorMemory compare k.memory) k.heap
  peeked : ∀ i ∈ k.heap, ∀ seq, k.memory[i]? = some seq → seq.peek.2 = seq

def Valid (compare : α → α → Bool) (k : Value S α) : Prop :=
  ValidUpTo compare k.memory.length k

/-- The items left in each of the sequences. -/
def remaining (k : Value S α) : List (List α) := k.memory.map items

variable {H} {k : Value S α}

theorem ValidUpTo.peekItem (h : ValidUpTo compare n k) (hi : i ∈ k.heap) :
    ∃ x, vectorMemory.peekItem k.memory i = some x := by
  obtain ⟨_, seq, hseq, hne⟩ := (h.mem_iff i).mp hi
  obtain ⟨x, xs, hxs⟩ := List.exists_cons_of_ne_nil hne
  exact ⟨x, peekItem_eq_some_iff.mpr ⟨seq, xs, hseq, hxs⟩⟩

theorem peekItem_set_ne {j : Nat} (h : i ≠ j) :
    vectorMemory.peekItem (m.set i seq) j = vectorMemory.peekItem m j := by
  simp only [Memory.peekItem, load_vectorMemory, List.getElem?_set_ne h]

/-- A heap that does not hold `i` does not see what happens to it. -/
theorem isHeap_set (h : HeapOps.IsHeap (heapOrder vectorMemory compare m) l) (hi : i ∉ l) :
    HeapOps.IsHeap (heapOrder vectorMemory compare (m.set i seq)) l := by
  refine h.congr fun a ha b hb => ?_
  have hia : i ≠ a := fun he => hi (he ▸ ha)
  have hib : i ≠ b := fun he => hi (he ▸ hb)
  rw [heapOrder, heapOrder, peekItem_set_ne hia, peekItem_set_ne hib]

/-- A sequence that is not in the heap is put back where it was, and pushed if it has an item. -/
def settle (H : HeapOps) (compare : α → α → Bool) (m : List (CacheNext S α)) (l : List Nat) (i : Nat)
    (seq : CacheNext S α) : Value S α :=
  { memory := m.set i seq
    heap :=
      if seq.peek.1.isNone then l
      else H.pushHeap (heapOrder vectorMemory compare (m.set i seq)) (l ++ [i]) }

include ho in
theorem validUpTo_settle (hin : i < n) (hlen : i < m.length) (hnodup : l.Nodup)
    (hmem : ∀ j, j ∈ l ↔ j ≠ i ∧ j < n ∧ ∃ seq, m[j]? = some seq ∧ items seq ≠ [])
    (hheap : HeapOps.IsHeap (heapOrder vectorMemory compare m) l)
    (hpeeked : ∀ j ∈ l, ∀ seq, m[j]? = some seq → seq.peek.2 = seq) (hseq : seq.peek.2 = seq) :
    ValidUpTo compare n (settle H compare m l i seq) := by
  have hself : (m.set i seq)[i]? = some seq := List.getElem?_set_self hlen
  have hother : ∀ {j}, j ≠ i → (m.set i seq)[j]? = m[j]? := fun h => List.getElem?_set_ne h.symm
  have hi : i ∉ l := fun h => ((hmem i).mp h).1 rfl
  have hheap' : HeapOps.IsHeap (heapOrder vectorMemory compare (m.set i seq)) l :=
    isHeap_set hheap hi
  have hmem' : ∀ j, (j ∈ l ∨ j = i ∧ items seq ≠ []) ↔
      j < n ∧ ∃ seq', (m.set i seq)[j]? = some seq' ∧ items seq' ≠ [] := by
    intro j
    by_cases hj : j = i
    · subst hj
      simp only [hi, hself, hin, false_or, true_and, Option.some.injEq, exists_eq_left']
    · simp only [hmem j, hother hj, hj, ne_eq, not_false_eq_true, true_and, false_and, or_false]
  have hpeeked' : ∀ j, j ∈ l ∨ j = i → ∀ seq', (m.set i seq)[j]? = some seq' →
      seq'.peek.2 = seq' := by
    intro j hj seq' hj'
    by_cases hji : j = i
    · subst hji
      rw [hself] at hj'
      cases hj'
      exact hseq
    · rw [hother hji] at hj'
      exact hpeeked j (hj.resolve_right hji) seq' hj'
  unfold settle
  split
  · rename_i hnone
    have hempty : items seq = [] := by
      rw [peek_fst, Option.isNone_iff_eq_none, List.head?_eq_none_iff] at hnone
      exact hnone
    refine ⟨hnodup, fun j => ?_, hheap', fun j hj => hpeeked' j (.inl hj)⟩
    rw [← hmem' j, hempty]
    simp only [ne_eq, not_true_eq_false, and_false, or_false]
  · rename_i hsome
    have hne : items seq ≠ [] := by
      rw [peek_fst, Option.isNone_iff_eq_none, List.head?_eq_none_iff] at hsome
      exact hsome
    have hall : ∀ j ∈ l ++ [i], ∃ x, vectorMemory.peekItem (m.set i seq) j = some x := by
      intro j hj
      have hj' : j ∈ l ∨ j = i ∧ items seq ≠ [] :=
        (List.mem_append.mp hj).imp_right fun h => ⟨List.mem_singleton.mp h, hne⟩
      obtain ⟨_, seq', hseq', hne'⟩ := (hmem' j).mp hj'
      obtain ⟨x, xs, hxs⟩ := List.exists_cons_of_ne_nil hne'
      exact ⟨x, peekItem_eq_some_iff.mpr ⟨seq', xs, hseq', hxs⟩⟩
    obtain ⟨hperm, hpush⟩ := H.push (strictWeakOn_heapOrder ho hall) hheap'
    have hiff : ∀ j, j ∈ H.pushHeap (heapOrder vectorMemory compare (m.set i seq)) (l ++ [i]) ↔
        j ∈ l ∨ j = i := fun j => by
      rw [hperm.mem_iff, List.mem_append, List.mem_singleton]
    refine ⟨?_, fun j => ?_, hpush, fun j hj => hpeeked' j ((hiff j).mp hj)⟩
    · refine hperm.nodup_iff.mpr (List.nodup_append.mpr ⟨hnodup, List.nodup_singleton i, ?_⟩)
      rintro a ha b hb rfl
      exact hi (List.mem_singleton.mp hb ▸ ha)
    · rw [← hmem' j, hiff j]
      simp only [hne, ne_eq, not_false_eq_true, and_true]

theorem remaining_settle (m : List (CacheNext S α)) (l : List Nat) (i : Nat) (seq : CacheNext S α) :
    remaining (settle H compare m l i seq) = (m.map items).set i (items seq) :=
  List.map_set

/-! ## next() and peek() -/

theorem Valid.heap_eq_nil (h : Valid compare k) (hk : k.heap = []) :
    ∀ xs ∈ remaining k, xs = [] := by
  intro xs hxs
  obtain ⟨seq, hseq, rfl⟩ := List.mem_map.mp hxs
  obtain ⟨i, hi⟩ := List.mem_iff_getElem?.mp hseq
  by_contra hne
  have hmem := (h.mem_iff i).mpr ⟨(List.getElem?_eq_some_iff.mp hi).1, seq, hi, hne⟩
  rw [hk] at hmem
  cases hmem

include ho in
/-- The first of the heap has an item, and none of the sequences begins with a smaller one. -/
theorem Valid.front (h : Valid compare k) (hk : k.heap = i :: l) :
    ∃ seq x xs, k.memory[i]? = some seq ∧ items seq = x :: xs ∧
      ∀ (j : Nat) (y : α) (ys : List α), (remaining k)[j]? = some (y :: ys) →
        compare y x = false := by
  have hi : i ∈ k.heap := hk ▸ List.mem_cons_self
  obtain ⟨x, hx⟩ := h.peekItem hi
  obtain ⟨seq, xs, hseq, hxs⟩ := peekItem_eq_some_iff.mp hx
  refine ⟨seq, x, xs, hseq, hxs, ?_⟩
  intro j y ys hj
  rw [remaining, List.getElem?_map] at hj
  obtain ⟨seq', hseq', hys⟩ := Option.map_eq_some_iff.mp hj
  have hlen := (List.getElem?_eq_some_iff.mp hseq').1
  have hmem : j ∈ k.heap := (h.mem_iff j).mpr ⟨hlen, seq', hseq', by rw [hys]; nofun⟩
  have hy := peekItem_eq_some_iff.mpr ⟨seq', ys, hseq', hys⟩
  have hweak := strictWeakOn_heapOrder ho fun _ ha => h.peekItem ha
  have hheap := h.isHeap
  rw [hk] at hmem hweak hheap
  rw [← heapOrder_eq compare hx hy]
  exact hheap.not_above hweak j hmem

include ho in
/-- `next()` takes the first item of a sequence, and none begins with a smaller one. -/
theorem next_spec (h : Valid compare k) :
    (k.heap = [] ∧ next H vectorMemory compare k = some (none, k)) ∨
      ∃ i x xs k', k.heap.head? = some i ∧ (remaining k)[i]? = some (x :: xs) ∧
        (∀ (j : Nat) (y : α) (ys : List α), (remaining k)[j]? = some (y :: ys) →
          compare y x = false) ∧
        next H vectorMemory compare k = some (some x, k') ∧ Valid compare k' ∧
        remaining k' = (remaining k).set i xs := by
  cases hk : k.heap with
  | nil =>
    left
    rw [next, hk]
    exact ⟨rfl, rfl⟩
  | cons i l =>
    right
    obtain ⟨seq, x, xs, hseq, hxs, hleast⟩ := h.front ho hk
    have hweak := strictWeakOn_heapOrder ho fun _ ha => h.peekItem ha
    have hheap := h.isHeap
    have hnodup := h.nodup
    rw [hk] at hweak hheap hnodup
    obtain ⟨l', hpop, hperm, hheap'⟩ := H.pop hweak hheap
    obtain ⟨hi, hnodup⟩ := List.nodup_cons.mp hnodup
    obtain ⟨hnext, hrest⟩ := next_of_items hxs
    have hlen := (List.getElem?_eq_some_iff.mp hseq).1
    refine ⟨i, x, xs, settle H compare k.memory l' i seq.next.2.peek.2, rfl, ?_, hleast, ?_, ?_, ?_⟩
    · rw [remaining, List.getElem?_map, hseq, Option.map_some, hxs]
    · have hpeek : seq.next.2.peek.2.peek.1 = seq.next.2.peek.1 :=
        congrArg Prod.fst (Seq.peek_peek seq.next.2)
      simp only [next, hk, List.isEmpty_cons, Bool.false_eq_true, if_false, hpop,
        List.getLast?_concat, load_vectorMemory, store_vectorMemory, hseq, hnext, List.dropLast_concat, settle, hpeek]
      split <;> rfl
    · have hvalid : ValidUpTo compare k.memory.length
          (settle H compare k.memory l' i seq.next.2.peek.2) := by
        refine validUpTo_settle ho hlen hlen (hperm.nodup_iff.mpr hnodup) ?_ hheap' ?_
          (peek_peek_cacheNext _)
        · intro j
          rw [hperm.mem_iff, ← h.mem_iff j, hk, List.mem_cons]
          constructor
          · exact fun hj => ⟨fun hji => hi (hji ▸ hj), .inr hj⟩
          · exact fun ⟨hne, hj⟩ => hj.resolve_left hne
        · intro j hj
          exact h.peeked j (hk ▸ List.mem_cons_of_mem i (hperm.mem_iff.mp hj))
      rwa [Valid, settle, List.length_set]
    · rw [remaining_settle, items_peek_cacheNext, hrest]
      rfl

include ho in
/-- `peek()` shows what `next()` would take, and changes nothing. -/
theorem peek_spec (h : Valid compare k) :
    peek vectorMemory k = (next H vectorMemory compare k).map fun r => (r.1, k) := by
  cases hk : k.heap with
  | nil =>
    rw [peek, next, hk]
    rfl
  | cons i l =>
    obtain ⟨seq, x, xs, hseq, hxs, _⟩ := h.front ho hk
    have hpeeked := h.peeked i (hk ▸ List.mem_cons_self) seq hseq
    have hset : k.memory.set i seq = k.memory := by
      obtain ⟨hlen, rfl⟩ := List.getElem?_eq_some_iff.mp hseq
      exact List.set_getElem_self hlen
    have hpeek : peek vectorMemory k = some (some x, k) := by
      simp only [peek, hk, load_vectorMemory, store_vectorMemory, hseq, hpeeked, hset, peek_fst, hxs, List.head?_cons]
      rw [← hk]
    rcases next_spec (H := H) ho h with ⟨hnil, _⟩ | ⟨j, y, ys, k', hfront, hj, _, hnext, _⟩
    · rw [hnil] at hk
      cases hk
    · rw [hk] at hfront
      cases hfront
      rw [remaining, List.getElem?_map, hseq, Option.map_some, hxs] at hj
      cases hj
      rw [hpeek, hnext]
      rfl

/-! ## What is left -/

def itemCount (k : Value S α) : Nat := Interleave.total List.length (remaining k)

/-- The items that calls of `next()` return. -/
def yields (H : HeapOps) (compare : α → α → Bool) : Nat → Value S α → List α
  | 0, _ => []
  | n + 1, k =>
    match next H vectorMemory compare k with
    | some (some x, k') => x :: yields H compare n k'
    | _ => []

/-- All that are left. -/
def rest (H : HeapOps) (compare : α → α → Bool) (k : Value S α) : List α :=
  yields H compare (itemCount k) k

include ho in
theorem rest_cases (h : Valid compare k) :
    ((∀ xs ∈ remaining k, xs = []) ∧ rest H compare k = [] ∧
        next H vectorMemory compare k = some (none, k)) ∨
      ∃ i x xs k', (remaining k)[i]? = some (x :: xs) ∧
        (∀ (j : Nat) (y : α) (ys : List α), (remaining k)[j]? = some (y :: ys) →
          compare y x = false) ∧
        next H vectorMemory compare k = some (some x, k') ∧ Valid compare k' ∧
        remaining k' = (remaining k).set i xs ∧ itemCount k = itemCount k' + 1 ∧
        rest H compare k = x :: rest H compare k' := by
  rcases next_spec (H := H) ho h with ⟨hnil, hnext⟩ | ⟨i, x, xs, k', _, hi, hle, hnext, hv, hrem⟩
  · have hempty := h.heap_eq_nil hnil
    have hzero : itemCount k = 0 := Interleave.total_eq_zero.mpr fun xs hxs => by
      rw [hempty xs hxs, List.length_nil]
    exact .inl ⟨hempty, by rw [rest, hzero, yields], hnext⟩
  · have hcount : itemCount k = itemCount k' + 1 := by
      have htotal := Interleave.total_set List.length xs hi
      rw [List.length_cons, ← hrem, ← itemCount, ← itemCount] at htotal
      omega
    refine .inr ⟨i, x, xs, k', hi, hle, hnext, hv, hrem, hcount, ?_⟩
    rw [rest, hcount, yields, hnext]
    rfl

include ho in
/-- A call returns the first of the items that are left, and leaves the others. -/
theorem next_rest (h : Valid compare k) :
    ∃ k', next H vectorMemory compare k = some ((rest H compare k).head?, k') ∧
      Valid compare k' ∧ rest H compare k' = (rest H compare k).tail := by
  rcases rest_cases (H := H) ho h with ⟨_, hrest, hnext⟩ | ⟨_, x, _, k', _, _, hnext, hv, _, _, hrest⟩
  · rw [hrest]
    exact ⟨k, hnext, h, hrest⟩
  · rw [hrest]
    exact ⟨k', hnext, hv, rfl⟩

include ho in
theorem peek_rest (h : Valid compare k) :
    peek vectorMemory k = some ((rest H compare k).head?, k) := by
  obtain ⟨k', hnext, _⟩ := next_rest (H := H) ho h
  rw [peek_spec (H := H) ho h, hnext]
  rfl

include ho in
theorem shuffle_rest (h : Valid compare k) :
    Shuffle (remaining k) (rest H compare k) := by
  induction hn : itemCount k using Nat.strong_induction_on generalizing k with
  | h n ih =>
    rcases rest_cases (H := H) ho h with
      ⟨hempty, hrest, _⟩ | ⟨i, x, xs, k', hi, _, _, hv, hrem, hcount, hrest⟩
    · rw [hrest]
      exact .nil hempty
    · rw [hrest]
      refine .cons hi ?_
      rw [← hrem]
      exact ih _ (by omega) hv rfl

include ho in
theorem sorted_rest (h : Valid compare k)
    (hs : ∀ xs ∈ remaining k, xs.Pairwise fun a b => compare b a = false) :
    (rest H compare k).Pairwise fun a b => compare b a = false := by
  induction hn : itemCount k using Nat.strong_induction_on generalizing k with
  | h n ih =>
    rcases rest_cases (H := H) ho h with
      ⟨_, hrest, _⟩ | ⟨i, x, xs, k', hi, hleast, _, hv, hrem, hcount, hrest⟩
    · rw [hrest]
      exact .nil
    · have hs' : ∀ ys ∈ remaining k', ys.Pairwise fun a b => compare b a = false := by
        rw [hrem]
        refine Interleave.forall_set ?_ fun _ ys _ hys => hs ys (List.mem_of_getElem? hys)
        exact (List.pairwise_cons.mp (hs _ (List.mem_of_getElem? hi))).2
      rw [hrest]
      refine List.pairwise_cons.mpr ⟨fun y hy => ?_, ih _ (by omega) hv hs' rfl⟩
      -- `y` is in one of the lists, and that begins with nothing smaller than `x`
      have hmem : y ∈ rest H compare k := hrest ▸ List.mem_cons_of_mem x hy
      obtain ⟨ys, hys, hyin⟩ := List.mem_flatten.mp ((shuffle_rest ho h).perm.mem_iff.mp hmem)
      obtain ⟨j, hj⟩ := List.mem_iff_getElem?.mp hys
      cases ys with
      | nil => cases hyin
      | cons z zs =>
        have hzx := hleast j z zs hj
        rcases List.mem_cons.mp hyin with rfl | hyin
        · exact hzx
        · exact Merging.not_lt_trans ho hzx ((List.pairwise_cons.mp (hs _ hys)).1 y hyin)

/-! ## The constructor -/

include ho in
theorem pushSeqs_spec (h : ValidUpTo compare n k) {c : Nat} (hlen : n + c = k.memory.length) :
    ∃ k', pushSeqs H vectorMemory compare (List.range' n c) k = some k' ∧ Valid compare k' ∧
      remaining k' = remaining k := by
  induction c generalizing n k with
  | zero =>
    refine ⟨k, rfl, ?_, rfl⟩
    rwa [Valid, ← hlen]
  | succ c ih =>
    have hn : n < k.memory.length := by omega
    have hseq := List.getElem?_eq_getElem hn
    have hpeek : k.memory[n].peek.2.peek.1 = k.memory[n].peek.1 :=
      congrArg Prod.fst (Seq.peek_peek k.memory[n])
    have hvalid : ValidUpTo compare (n + 1) (settle H compare k.memory k.heap n k.memory[n].peek.2) := by
      refine validUpTo_settle ho (Nat.lt_succ_self n) hn h.nodup ?_ h.isHeap h.peeked
        (peek_peek_cacheNext _)
      intro j
      rw [h.mem_iff j]
      constructor
      · rintro ⟨hj, hrest⟩
        exact ⟨hj.ne, Nat.lt_succ_of_lt hj, hrest⟩
      · rintro ⟨hne, hj, hrest⟩
        exact ⟨by omega, hrest⟩
    obtain ⟨k', hpush, hv, hrem⟩ := ih hvalid (by rw [settle, List.length_set]; omega)
    refine ⟨k', ?_, hv, ?_⟩
    · rw [List.range'_succ, pushSeqs, load_vectorMemory, hseq]
      rw [← hpush, settle, hpeek]
      simp only [store_vectorMemory]
      split <;> rfl
    · rw [hrem, remaining_settle, items_peek_cacheNext, remaining]
      refine List.ext_getElem? fun j => ?_
      by_cases hj : n = j
      · subst hj
        rw [List.getElem?_set_self (by rwa [List.length_map]), List.getElem?_map, hseq]
        rfl
      · rw [List.getElem?_set_ne hj]

theorem validUpTo_zero (m : List (CacheNext S α)) :
    ValidUpTo compare 0 { memory := m, heap := [] } :=
  ⟨List.nodup_nil, fun _ => ⟨nofun, fun h => absurd h.1 (Nat.not_lt_zero _)⟩, HeapOps.isHeap_nil,
    nofun⟩

/-- What a constructor makes, as a value. -/
def constructed (H : HeapOps) (compare : α → α → Bool) (kSeqs : List S) : Option (Value S α) :=
  pushSeqs H vectorMemory compare (List.range kSeqs.length)
    { memory := cachedSeqs kSeqs, heap := [] }

/-- The items of an object that has been constructed. -/
def mergedSeqs (H : HeapOps) (compare : α → α → Bool) (kSeqs : List S) : List α :=
  (constructed H compare kSeqs).elim [] (rest H compare)

include ho in
theorem constructed_spec (kSeqs : List S) :
    ∃ k, constructed H compare kSeqs = some k ∧ Valid compare k ∧
      remaining k = kSeqs.map items := by
  have hstart : ValidUpTo compare 0 ({ memory := cachedSeqs kSeqs, heap := [] } : Value S α) :=
    validUpTo_zero _
  obtain ⟨k, hpush, hv, hrem⟩ := pushSeqs_spec (H := H) ho hstart (c := kSeqs.length)
    (by rw [cachedSeqs, List.length_map, Nat.zero_add])
  refine ⟨k, ?_, hv, ?_⟩
  · rw [constructed, List.range_eq_range']
    exact hpush
  · rw [hrem, remaining, cachedSeqs, List.map_map]
    exact List.map_congr_left fun seq _ => items_cacheNext seq

end Batt.KMerge
