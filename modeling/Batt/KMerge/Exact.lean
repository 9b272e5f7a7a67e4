/-
  `KMergeBy` merges, and its objects are values.

  Whatever is called, on whichever objects and in whatever order, the calls return what they would
  return on lists of the items that are left, one list for each object (`kmerge_exact`). The list of
  an object that has been constructed is a shuffle of the sequences given, sorted if these are.
-/
import Batt.KMerge.Objects

namespace Batt.KMerge

open Batt.Seq

variable {S α : Type} [Nexts S α] {H : HeapOps} {compare : α → α → Bool}

/-- The heap of an object: pointers to the sequences of its own that have an item left, each once,
    and in the order of a heap. -/
structure HeapExact (compare : α → α → Bool) (arrays : Arrays S α) (object : KMergeBy) : Prop where
  nodup : object.heap.Nodup
  mem_iff : ∀ ptr, ptr ∈ object.heap ↔ ptr.array = object.kSeqs ∧
    ∃ seq, Arrays.memory.load arrays ptr = some seq ∧ items seq ≠ []
  isHeap : HeapOps.IsHeap (heapOrder Arrays.memory compare arrays) object.heap

variable {st : State S α} {ks : List (Value S α)}

theorem Represents.heapExact (h : Represents compare st ks) :
    ∀ object ∈ st.objects, HeapExact compare st.arrays object := by
  intro object hobject
  obtain ⟨o, ho⟩ := List.mem_iff_getElem?.mp hobject
  have hlen : o < ks.length := h.length ▸ (List.getElem?_eq_some_iff.mp ho).1
  have hk := List.getElem?_eq_getElem hlen
  have hholds := h.holds o object _ ho hk
  have hv := h.valid _ (List.mem_of_getElem? hk)
  have hload : ∀ i, Arrays.memory.load st.arrays ⟨object.kSeqs, i⟩ = (ks[o]).memory[i]? := by
    intro i
    simp only [Arrays.memory, hholds.array, Option.bind_some]
  refine ⟨?_, ?_, ?_⟩
  · rw [hholds.heap]
    exact hv.nodup.map fun i j hij => congrArg Ptr.index hij
  · rintro ⟨array, i⟩
    rw [hholds.heap]
    constructor
    · intro hmem
      obtain ⟨j, hj, heq⟩ := List.mem_map.mp hmem
      cases heq
      rw [hload]
      exact ⟨rfl, ((hv.mem_iff i).mp hj).2⟩
    · rintro ⟨harray, seq, hseq, hne⟩
      simp only at harray
      subst harray
      rw [hload] at hseq
      exact List.mem_map_of_mem
        ((hv.mem_iff i).mpr ⟨(List.getElem?_eq_some_iff.mp hseq).1, seq, hseq, hne⟩)
  · rw [hholds.heap]
    refine (HeapOps.isHeap_map fun i j => ?_).mpr hv.isHeap
    simp only [heapOrder, Memory.peekItem, hload, load_vectorMemory]

theorem Represents.lookup (h : Represents compare st ks) (o : Nat) :
    (st.objects[o]? = none ∧ ks[o]? = none) ∨
      ∃ object k, st.objects[o]? = some object ∧ ks[o]? = some k ∧ Holds st.arrays object k ∧
        Valid compare k ∧ object.kSeqs < st.arrays.length := by
  cases ho : st.objects[o]? with
  | none =>
    rw [List.getElem?_eq_none_iff, h.length] at ho
    exact .inl ⟨rfl, List.getElem?_eq_none ho⟩
  | some object =>
    have hlen : o < ks.length := h.length ▸ (List.getElem?_eq_some_iff.mp ho).1
    have hk := List.getElem?_eq_getElem hlen
    have hholds := h.holds o object _ ho hk
    exact .inr ⟨object, ks[o], rfl, hk, hholds, h.valid _ (List.mem_of_getElem? hk),
      (List.getElem?_eq_some_iff.mp hholds.array).1⟩

/-- What a call returns, and what is returned on the lists. -/
def Answers (H : HeapOps) (compare : α → α → Bool)
    (result : Option (List (Option α) × State S α))
    (expected : Option (List (Option α) × List (List α))) : Prop :=
  (result = none ∧ expected = none) ∨
    ∃ out st' ks', result = some (out, st') ∧
      expected = some (out, ks'.map (rest H compare)) ∧ Represents compare st' ks'

variable (ho : IsStrictWeakOrder α fun a b => compare a b = true)
include ho

theorem step_answers (h : Represents compare st ks) (e : Event S) :
    Answers H compare (step H compare st e)
      (specStep (mergedSeqs H compare) (ks.map (rest H compare)) e) := by
  cases e with
  | construct kSeqs =>
    obtain ⟨k, hk, hv, hrem⟩ := constructed_spec (H := H) ho kSeqs
    have hlen : k.memory.length = kSeqs.length := by
      have hmap := congrArg List.length hrem
      rwa [remaining, List.length_map, List.length_map] at hmap
    have hthis : st.arrays.length < (st.arrays ++ [cachedSeqs kSeqs]).length := by
      rw [List.length_append]
      exact Nat.lt_succ_self _
    have hset : ∀ seqs : List (CacheNext S α),
        (st.arrays ++ [cachedSeqs kSeqs]).set st.arrays.length seqs = st.arrays ++ [seqs] := by
      intro seqs
      rw [List.set_append_right _ _ (Nat.le_refl _), Nat.sub_self]
      rfl
    have hpush := pushSeqs_embed H compare (embeds_arrays hthis) (List.range kSeqs.length)
      { memory := cachedSeqs kSeqs, heap := [] }
    have hheap : k.heap.length ≤ kSeqs.length := by
      have hsub : k.heap ⊆ List.range kSeqs.length := fun i hi =>
        List.mem_range.mpr (hlen ▸ ((hv.mem_iff i).mp hi).1)
      simpa using (List.subperm_of_subset hv.nodup hsub).length_le
    refine .inr ⟨[], _, ks ++ [k], ?_, ?_, h.append hv⟩
    · rw [constructed] at hk
      rw [hk, Merger.embed, hset] at hpush
      simp only [List.map_nil] at hpush
      rw [step, hpush, Option.map_some, Option.bind_some, Merger.embed, List.length_map,
        if_pos hheap, hset]
    · rw [specStep, mergedSeqs, hk, List.map_append]
      rfl
  | next o =>
    rcases h.lookup o with ⟨hnone, hk⟩ | ⟨object, k, hobject, hk, hholds, hv, hin⟩
    · refine .inl ⟨by rw [step, hnone]; rfl, ?_⟩
      rw [specStep, List.getElem?_map, hk]
      rfl
    · obtain ⟨k', hnext, hv', hrest⟩ := next_rest (H := H) ho hv
      refine .inr ⟨[(rest H compare k).head?], _, ks.set o k', ?_, ?_, h.put hobject hv'⟩
      · rw [step, hobject, Option.bind_some, hholds.eq_placed, placed,
          next_embed H compare (embeds_arrays hin), hnext]
        rfl
      · rw [specStep, List.getElem?_map, hk, List.map_set, hrest]
        rfl
  | peek o =>
    rcases h.lookup o with ⟨hnone, hk⟩ | ⟨object, k, hobject, hk, hholds, hv, hin⟩
    · refine .inl ⟨by rw [step, hnone]; rfl, ?_⟩
      rw [specStep, List.getElem?_map, hk]
      rfl
    · refine .inr ⟨[(rest H compare k).head?], _, ks.set o k, ?_, ?_, h.put hobject hv⟩
      · rw [step, hobject, Option.bind_some, hholds.eq_placed, placed,
          peek_embed (embeds_arrays hin), peek_rest (H := H) ho hv]
        rfl
      · have hset : ks.set o k = ks := by
          obtain ⟨hlen, rfl⟩ := List.getElem?_eq_some_iff.mp hk
          exact List.set_getElem_self hlen
        rw [specStep, List.getElem?_map, hk, hset]
        rfl
  | copy that =>
    rcases h.lookup that with ⟨hnone, hk⟩ | ⟨object, k, hobject, hk, hholds, hv, hin⟩
    · refine .inl ⟨by rw [step, hnone]; rfl, ?_⟩
      rw [specStep, List.getElem?_map, hk]
      rfl
    · refine .inr ⟨[], _, ks ++ [k], ?_, ?_, h.append hv⟩
      · rw [step, hobject, Option.bind_some, hholds.array, Option.bind_some]
        simp only [fixHeapPointers_eq _ hholds hv, Option.map_some]
      · rw [specStep, List.getElem?_map, hk, List.map_append]
        rfl
  | assign this that =>
    rcases h.lookup this with ⟨hnone, hk⟩ | ⟨target, kt, htarget, hkt, _, _, _⟩
    · refine .inl ⟨by rw [step, hnone]; rfl, ?_⟩
      rw [specStep, List.getElem?_map, hk]
      rfl
    · rcases h.lookup that with ⟨hnone, hk⟩ | ⟨object, k, hobject, hk, hholds, hv, hin⟩
      · refine .inl ⟨by rw [step, htarget, hnone]; rfl, ?_⟩
        rw [specStep, List.getElem?_map, hkt, List.getElem?_map, hk]
        rfl
      · have hspec : specStep (mergedSeqs H compare) (ks.map (rest H compare))
            (.assign this that : Event S) = some ([], (ks.set this k).map (rest H compare)) := by
          rw [specStep, List.getElem?_map, hkt, List.getElem?_map, hk, List.map_set]
          rfl
        by_cases hself : this = that
        · subst hself
          rw [hk] at hkt
          cases hkt
          refine .inr ⟨[], st, ks, ?_, ?_, h⟩
          · rw [step, hobject, Option.bind_some, Option.bind_some, if_pos rfl]
          · rw [hspec]
            obtain ⟨hlen, rfl⟩ := List.getElem?_eq_some_iff.mp hk
            rw [List.set_getElem_self hlen]
        · refine .inr ⟨[], _, ks.set this k, ?_, hspec, h.put htarget hv⟩
          rw [step, htarget, hobject, Option.bind_some, Option.bind_some, if_neg hself,
            hholds.array, Option.bind_some, fixHeapPointers_eq _ hholds hv]
          rfl

theorem run_answers (es : List (Event S)) (h : Represents compare st ks) :
    Answers H compare (run H compare es st)
      (specRun (mergedSeqs H compare) es (ks.map (rest H compare))) := by
  induction es generalizing st ks with
  | nil => exact .inr ⟨[], st, ks, rfl, rfl, h⟩
  | cons e es ih =>
    rw [run, specRun]
    rcases step_answers (H := H) ho h e with ⟨hnone, hspec⟩ | ⟨out, st', ks', hstep, hspec, h'⟩
    · rw [hnone, hspec]
      exact .inl ⟨rfl, rfl⟩
    · rw [hstep, hspec, Option.bind_some, Option.bind_some]
      rcases ih h' with ⟨hnone, hrest⟩ | ⟨later, st'', ks'', hrun, hrest, h''⟩
      · rw [hnone, hrest]
        exact .inl ⟨rfl, rfl⟩
      · rw [hrun, hrest]
        exact .inr ⟨out ++ later, st'', ks'', rfl, rfl, h''⟩

/-- **`kmerge` is a k-way merge, and its objects are values.** There is a list for every list of
    sequences, a shuffle of them that is sorted if they are, such that in every sequence of
    constructions, copies, assignments, `peek()` and `next()` the calls return what they return on
    these lists, with one list for each object, of what is left. It stops only at an object that
    does not exist. In every state the heap of each object holds pointers to those of its sequences
    that are not exhausted, each once, and is a heap. -/
theorem kmerge_exact : ∃ merged : List S → List α,
    (∀ kSeqs, Shuffle (kSeqs.map items) (merged kSeqs) ∧
      ((∀ seq ∈ kSeqs, (items seq).Pairwise fun a b => compare b a = false) →
        (merged kSeqs).Pairwise fun a b => compare b a = false)) ∧
    ∀ es, (run H compare es { arrays := [], objects := [] }).map Prod.fst =
        (specRun merged es []).map Prod.fst ∧
      ∀ out st, run H compare es { arrays := [], objects := [] } = some (out, st) →
        ∀ object ∈ st.objects, HeapExact compare st.arrays object := by
  refine ⟨mergedSeqs H compare, fun kSeqs => ?_, fun es => ?_⟩
  · obtain ⟨k, hk, hv, hrem⟩ := constructed_spec (H := H) ho kSeqs
    rw [mergedSeqs, hk, Option.elim_some, ← hrem]
    refine ⟨shuffle_rest ho hv, fun hs => sorted_rest ho hv ?_⟩
    intro xs hxs
    rw [hrem] at hxs
    obtain ⟨seq, hseq, rfl⟩ := List.mem_map.mp hxs
    exact hs seq hseq
  · have hstart : Represents compare ({ arrays := [], objects := [] } : State S α) [] :=
      ⟨rfl, List.nodup_nil, nofun, nofun⟩
    rcases run_answers (H := H) ho es hstart with ⟨hrun, hspec⟩ | ⟨out, st, ks, hrun, hspec, h⟩
    · rw [List.map_nil] at hspec
      rw [hrun, hspec]
      exact ⟨rfl, nofun⟩
    · rw [List.map_nil] at hspec
      rw [hrun, hspec]
      refine ⟨rfl, fun out' st' heq => ?_⟩
      cases heq
      exact h.heapExact

omit ho

/-- A copy is taken after the first item; then the two are advanced in turns, and a third object is
    assigned from one of them. -/
def copyRun : List (Event (SubRangeSeq Nat)) :=
  [.construct [⟨[1, 4]⟩, ⟨[]⟩, ⟨[2, 4, 5]⟩], .peek 0, .next 0, .copy 0, .next 1, .next 1, .next 0,
    .peek 1, .construct [⟨[7]⟩], .assign 2 1, .next 2, .next 1, .next 1, .next 1, .next 0]

theorem kmerge_exact_copyRun : ∃ merged : List (SubRangeSeq Nat) → List Nat,
    (merged [⟨[1, 4]⟩, ⟨[]⟩, ⟨[2, 4, 5]⟩]).Pairwise (fun a b => decide (b < a) = false) ∧
      (specRun merged copyRun []).map Prod.fst =
        some [some 1, some 1, some 2, some 4, some 2, some 4, some 4, some 4, some 5, none,
          some 4] := by
  have ho : IsStrictWeakOrder Nat fun a b => decide (a < b) = true :=
    { irrefl := by simp
      trans := by simp only [decide_eq_true_eq]; omega
      incomp_trans := by simp only [decide_eq_true_eq]; omega }
  obtain ⟨merged, hmerged, hruns⟩ :=
    kmerge_exact (S := SubRangeSeq Nat) (H := HeapOps.insertion) ho
  have hrun : (run HeapOps.insertion (fun a b => decide (a < b)) copyRun
      { arrays := [], objects := [] }).map Prod.fst =
        some [some 1, some 1, some 2, some 4, some 2, some 4, some 4, some 4, some 5, none,
          some 4] := by
    decide
  refine ⟨merged, (hmerged _).2 ?_, (hruns copyRun).1.symm.trans hrun⟩
  have hsorted : ∀ seq ∈ ([⟨[1, 4]⟩, ⟨[]⟩, ⟨[2, 4, 5]⟩] : List (SubRangeSeq Nat)),
      seq.subRange.Pairwise fun a b => decide (b < a) = false := by
    decide
  intro seq hseq
  rw [show items seq = seq.subRange from items_subRangeSeq seq.subRange]
  exact hsorted seq hseq

end Batt.KMerge
