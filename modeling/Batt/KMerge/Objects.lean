/-
  Objects of `KMergeBy` with the pointers between their members.

  Each object owns an array that no other one owns, and its heap points into that one. So what an
  operation does is what it does to the object by itself (`next_embed`, `pushSeqs_embed`), put at the
  place of its array, and the objects are the values they are meant to be (`Represents`).
-/
import Batt.KMerge.Values

namespace Batt.KMerge

open Batt.Seq

variable {S α M M' P P' : Type} [Nexts S α] (H : HeapOps) (compare : α → α → Bool)
  {object : KMergeBy} {arrays : Arrays S α}

/-! ## A memory within another one -/

/-- `e` and `f` put a memory and its pointers into another one. -/
structure Embeds (mem : Memory S α M P) (mem' : Memory S α M' P') (e : M → M') (f : P → P') :
    Prop where
  load : ∀ m p, mem'.load (e m) (f p) = mem.load m p
  store : ∀ m p seq, mem'.store (e m) (f p) seq = e (mem.store m p seq)

def Merger.embed (e : M → M') (f : P → P') (k : Merger M P) : Merger M' P' :=
  { memory := e k.memory, heap := k.heap.map f }

section

variable {mem : Memory S α M P} {mem' : Memory S α M' P'} {e : M → M'} {f : P → P'}
  (h : Embeds mem mem' e f)
include h

theorem heapOrder_embed (m : M) (a b : P) :
    heapOrder mem' compare (e m) (f a) (f b) = heapOrder mem compare m a b := by
  simp only [heapOrder, Memory.peekItem, h.load]

theorem pushSeqs_embed (ptrs : List P) (k : Merger M P) :
    pushSeqs H mem' compare (ptrs.map f) (k.embed e f) =
      (pushSeqs H mem compare ptrs k).map (Merger.embed e f) := by
  induction ptrs generalizing k with
  | nil => rfl
  | cons ptr ptrs ih =>
    rw [List.map_cons, pushSeqs, pushSeqs]
    simp only [Merger.embed, h.load, h.store]
    cases mem.load k.memory ptr with
    | none => rfl
    | some seq =>
      simp only
      split
      · exact ih { k with memory := mem.store k.memory ptr seq.peek.2 }
      · have hpush := H.push_map f (k.heap ++ [ptr])
          (heapOrder_embed compare h (mem.store k.memory ptr seq.peek.2))
        rw [List.map_append, List.map_singleton] at hpush
        rw [hpush]
        exact ih { memory := mem.store k.memory ptr seq.peek.2, heap := _ }

theorem next_embed (k : Merger M P) :
    next H mem' compare (k.embed e f) =
      (next H mem compare k).map fun r => (r.1, r.2.embed e f) := by
  have hpop := H.pop_map f k.heap (heapOrder_embed compare h k.memory)
  simp only [next, Merger.embed, hpop, List.isEmpty_map, List.getLast?_map]
  split
  · rfl
  · cases (H.popHeap (heapOrder mem compare k.memory) k.heap).getLast? with
    | none => rfl
    | some nextSeq =>
      simp only [Option.map_some, h.load]
      cases mem.load k.memory nextSeq with
      | none => rfl
      | some seq =>
        simp only [h.store]
        cases seq.next.1 with
        | none => rfl
        | some nextItem =>
          have hpush := H.push_map f (H.popHeap (heapOrder mem compare k.memory) k.heap)
            (heapOrder_embed compare h (mem.store k.memory nextSeq seq.next.2.peek.2))
          simp only [hpush]
          split
          · rw [Option.map_some, List.map_dropLast]
          · rfl

theorem peek_embed (k : Merger M P) :
    peek mem' (k.embed e f) = (peek mem k).map fun r => (r.1, r.2.embed e f) := by
  obtain ⟨m, heap⟩ := k
  cases heap with
  | nil => rfl
  | cons front l =>
    simp only [peek, Merger.embed, List.map_cons, h.load, h.store]
    cases mem.load m front <;> rfl

end

omit [Nexts S α] in
/-- The array number `this` among the others. -/
theorem embeds_arrays {this : Nat} (h : this < arrays.length) :
    Embeds vectorMemory Arrays.memory (fun seqs => arrays.set this seqs) (Ptr.mk this) where
  load seqs i := by
    simp only [Arrays.memory, load_vectorMemory, List.getElem?_set_self h, Option.bind_some]
  store seqs i seq := by
    simp only [Arrays.memory, store_vectorMemory, List.modify_eq_set_getElem?,
      List.getElem?_set_self h, Option.map_eq_map, Option.map_some, Option.getD_some, List.set_set]

/-! ## Objects and values -/

/-- The object has this value: its array is that of the value, and its heap is that of the value,
    with pointers into its array. -/
structure Holds (arrays : Arrays S α) (object : KMergeBy) (k : Value S α) : Prop where
  array : arrays[object.kSeqs]? = some k.memory
  heap : object.heap = k.heap.map (Ptr.mk object.kSeqs)

/-- The object as its array is, among the others. -/
def placed (arrays : Arrays S α) (this : Nat) (k : Value S α) : Merger (Arrays S α) Ptr :=
  k.embed (fun seqs => arrays.set this seqs) (Ptr.mk this)

omit [Nexts S α] in
theorem Holds.eq_placed {k : Value S α} (h : Holds arrays object k) :
    ({ memory := arrays, heap := object.heap } : Merger (Arrays S α) Ptr) =
      placed arrays object.kSeqs k := by
  obtain ⟨hlen, hk⟩ := List.getElem?_eq_some_iff.mp h.array
  rw [placed, Merger.embed, h.heap, ← hk, List.set_getElem_self]

structure Represents (st : State S α) (ks : List (Value S α)) : Prop where
  length : st.objects.length = ks.length
  nodup : (st.objects.map KMergeBy.kSeqs).Nodup
  holds : ∀ (o : Nat) (object : KMergeBy) (k : Value S α), st.objects[o]? = some object →
    ks[o]? = some k → Holds st.arrays object k
  valid : ∀ k ∈ ks, Valid compare k

variable {compare} {st : State S α} {ks : List (Value S α)}

/-- No two objects own one array. -/
theorem Represents.kSeqs_ne (h : Represents compare st ks) {o o' : Nat} {object' : KMergeBy}
    (ho : st.objects[o]? = some object) (ho' : st.objects[o']? = some object') (hne : o' ≠ o) :
    object'.kSeqs ≠ object.kSeqs := by
  intro heq
  have hlt : o' < (st.objects.map KMergeBy.kSeqs).length := by
    rw [List.length_map]
    exact (List.getElem?_eq_some_iff.mp ho').1
  refine hne ((List.getElem?_inj hlt h.nodup).mp ?_)
  rw [List.getElem?_map, List.getElem?_map, ho, ho', Option.map_some, Option.map_some, heq]

/-- An operation puts another value in the place of that of one object. -/
theorem Represents.put (h : Represents compare st ks) {o : Nat} (ho : st.objects[o]? = some object)
    {k' : Value S α} (hv : Valid compare k') :
    Represents compare (st.put o object.kSeqs (placed st.arrays object.kSeqs k')) (ks.set o k') := by
  have hlen : o < ks.length := h.length ▸ (List.getElem?_eq_some_iff.mp ho).1
  have hk := List.getElem?_eq_getElem hlen
  have hin := (List.getElem?_eq_some_iff.mp (h.holds o object _ ho hk).array).1
  refine ⟨?_, ?_, ?_, ?_⟩
  · rw [State.put, List.length_set, List.length_set, h.length]
  · have hmap : (st.objects.map KMergeBy.kSeqs).set o object.kSeqs =
        st.objects.map KMergeBy.kSeqs := by
      obtain ⟨hlt, rfl⟩ := List.getElem?_eq_some_iff.mp ho
      rw [← List.getElem_map KMergeBy.kSeqs (h := by simpa using hlt), List.set_getElem_self]
    rw [State.put, List.map_set, hmap]
    exact h.nodup
  · intro o' object' k'' ho' hk''
    rcases Interleave.set_cases ho' with ⟨rfl, rfl⟩ | ⟨hne, ho'⟩
    · rw [List.getElem?_set_self hlen] at hk''
      cases hk''
      exact ⟨List.getElem?_set_self hin, rfl⟩
    · rw [List.getElem?_set_ne hne.symm] at hk''
      have hholds := h.holds o' object' k'' ho' hk''
      refine ⟨?_, hholds.heap⟩
      rw [← hholds.array]
      exact List.getElem?_set_ne (h.kSeqs_ne ho ho' hne).symm
  · exact Interleave.forall_set hv fun _ k _ hk => h.valid k (List.mem_of_getElem? hk)

/-- A new object comes with a new array. -/
theorem Represents.append (h : Represents compare st ks) {k : Value S α} (hv : Valid compare k) :
    Represents compare { arrays := st.arrays ++ [k.memory],
                         objects := st.objects ++
                           [⟨st.arrays.length, k.heap.map (Ptr.mk st.arrays.length)⟩] }
      (ks ++ [k]) := by
  have hin : ∀ o ∈ st.objects, o.kSeqs < st.arrays.length := by
    intro object hobject
    obtain ⟨o, ho⟩ := List.mem_iff_getElem?.mp hobject
    have hlen : o < ks.length := h.length ▸ (List.getElem?_eq_some_iff.mp ho).1
    exact (List.getElem?_eq_some_iff.mp
      (h.holds o object _ ho (List.getElem?_eq_getElem hlen)).array).1
  refine ⟨?_, ?_, ?_, ?_⟩
  · rw [List.length_append, List.length_append, h.length]
    rfl
  · rw [List.map_append, List.map_singleton]
    refine List.nodup_append.mpr ⟨h.nodup, List.nodup_singleton _, ?_⟩
    rintro _ ha _ hb rfl
    obtain ⟨object, hobject, rfl⟩ := List.mem_map.mp ha
    exact absurd (List.mem_singleton.mp hb) (hin object hobject).ne
  · intro o object k' ho hk'
    rw [List.getElem?_append] at ho hk'
    rw [← h.length] at hk'
    split at ho
    · rename_i hlt
      rw [if_pos hlt] at hk'
      have hholds := h.holds o object k' ho hk'
      exact ⟨by rw [List.getElem?_append_left (hin object (List.mem_of_getElem? ho)), hholds.array],
        hholds.heap⟩
    · rename_i hge
      rw [if_neg hge] at hk'
      obtain rfl := List.mem_singleton.mp (List.mem_of_getElem? ho)
      obtain rfl := List.mem_singleton.mp (List.mem_of_getElem? hk')
      exact ⟨List.getElem?_concat_length, rfl⟩
  · intro k' hk'
    rcases List.mem_append.mp hk' with hk' | hk'
    · exact h.valid k' hk'
    · rw [List.mem_singleton.mp hk']
      exact hv

/-- The assertions on the pointers of a copy hold. -/
theorem fixHeapPointers_eq {k : Value S α} (this : Nat) (h : Holds arrays object k)
    (hv : Valid compare k) :
    fixHeapPointers this object.kSeqs k.memory.length object.heap =
      some (k.heap.map (Ptr.mk this)) := by
  have hall : object.heap.all
      (fun ptr => ptr.array = object.kSeqs && ptr.index < k.memory.length) = true := by
    rw [h.heap, List.all_map]
    refine List.all_eq_true.mpr fun i hi => ?_
    simpa using ((hv.mem_iff i).mp hi).1
  rw [fixHeapPointers, if_pos hall, h.heap, List.map_map]
  rfl

end Batt.KMerge
