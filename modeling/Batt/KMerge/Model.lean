/-
  `batt::seq::KMergeBy` (`seq/kmerge.hpp`): objects whose heaps point into the arrays they own.

  An array is what a `k_seqs_` owns: it is numbered, and a pointer is the number of an array and a
  position in it. The difference of two pointers has a meaning only within one array, and an
  assertion that fails is a fault (`none`), as is a pointer to nothing.

  A comparison of the heap peeks the two sequences. Both have their items cached whenever it is made,
  so that it changes nothing, and is taken as a function of the memory here (`heapOrder`). The
  operations are written for any memory: that of the program (`Arrays.memory`), and the array of one
  object by itself, which is what an object is the value of (`vectorMemory`).

  The class declares its copy operations, so it has no others, and a move is a copy.
-/
import Batt.Lib.HeapOps
import Batt.Seq.Lookahead

namespace Batt.KMerge

open Batt.Seq

variable {S α M P : Type} [Nexts S α]

/-! ## The algorithm -/

/-- Where the sequences are. -/
structure Memory (S α M P : Type) where
  load : M → P → Option (CacheNext S α)
  store : M → P → CacheNext S α → M

/-- What is in the memory, and the heap of one object. -/
structure Merger (M P : Type) where
  memory : M
  heap : List P

variable (H : HeapOps) (mem : Memory S α M P) (compare : α → α → Bool)

/-- `*ptr->peek()`, if there is an item. -/
def Memory.peekItem (m : M) (ptr : P) : Option α := (mem.load m ptr).bind fun seq => seq.peek.1

/-- `HeapOrder`. -/
def heapOrder (m : M) (l r : P) : Bool :=
  match mem.peekItem m r, mem.peekItem m l with
  | some y, some x => compare y x
  | _, _ => false

/-- The loop of the constructor. -/
def pushSeqs : List P → Merger M P → Option (Merger M P)
  | [], k => some k
  | ptr :: ptrs, k =>
    match mem.load k.memory ptr with
    | none => none
    | some seq =>
      let m := mem.store k.memory ptr seq.peek.2
      if seq.peek.1.isNone then pushSeqs ptrs { k with memory := m }
      else
        pushSeqs ptrs
          { memory := m, heap := H.pushHeap (heapOrder mem compare m) (k.heap ++ [ptr]) }

def next (k : Merger M P) : Option (Option α × Merger M P) :=
  if k.heap.isEmpty then some (none, k)
  else
    let popped := H.popHeap (heapOrder mem compare k.memory) k.heap
    match popped.getLast? with
    | none => none
    | some nextSeq =>
      match mem.load k.memory nextSeq with
      | none => none
      | some seq =>
        match seq.next.1 with
        | none => none
        | some nextItem =>
          let m := mem.store k.memory nextSeq seq.next.2.peek.2
          if seq.next.2.peek.1.isNone then
            some (some nextItem, { memory := m, heap := popped.dropLast })
          else
            some (some nextItem,
              { memory := m, heap := H.pushHeap (heapOrder mem compare m) popped })

def peek (k : Merger M P) : Option (Option α × Merger M P) :=
  match k.heap with
  | [] => some (none, k)
  | front :: _ =>
    match mem.load k.memory front with
    | none => none
    | some seq => some (seq.peek.1, { k with memory := mem.store k.memory front seq.peek.2 })

/-! ## Objects -/

abbrev Arrays (S α : Type) := List (List (CacheNext S α))

structure Ptr where
  array : Nat
  index : Nat
deriving DecidableEq

def Arrays.memory : Memory S α (Arrays S α) Ptr where
  load arrays ptr := (arrays[ptr.array]?).bind fun seqs => seqs[ptr.index]?
  store arrays ptr seq := arrays.modify ptr.array fun seqs => seqs.set ptr.index seq

structure KMergeBy where
  kSeqs : Nat
  heap : List Ptr

structure State (S α : Type) where
  arrays : Arrays S α
  objects : List KMergeBy

/-- `fix_heap_pointers` with its assertions: the pointers are into the array of `that`. -/
def fixHeapPointers (this that size : Nat) (heap : List Ptr) : Option (List Ptr) :=
  if heap.all fun ptr => ptr.array = that && ptr.index < size then
    some (heap.map fun ptr => { array := this, index := ptr.index })
  else none

/-- What the constructor puts into its array. -/
def cachedSeqs (kSeqs : List S) : List (CacheNext S α) :=
  kSeqs.map fun seq => { seq := seq, cached := none }

inductive Event (S : Type) where
  | construct (kSeqs : List S)
  | next (o : Nat)
  | peek (o : Nat)
  /-- The copy is the object that comes last. -/
  | copy (that : Nat)
  | assign (this that : Nat)

/-- What an operation on object `o` leaves. -/
def State.put (st : State S α) (o kSeqs : Nat) (k : Merger (Arrays S α) Ptr) : State S α :=
  { arrays := k.memory, objects := st.objects.set o { kSeqs := kSeqs, heap := k.heap } }

/-- What a call returns, and the state after it. -/
def step (st : State S α) : Event S → Option (List (Option α) × State S α)
  | .construct kSeqs =>
    let this := st.arrays.length
    (pushSeqs H Arrays.memory compare ((List.range kSeqs.length).map (Ptr.mk this))
        { memory := st.arrays ++ [cachedSeqs kSeqs], heap := [] }).bind fun k =>
      if k.heap.length ≤ kSeqs.length then
        some ([], { arrays := k.memory,
                    objects := st.objects ++ [{ kSeqs := this, heap := k.heap }] })
      else none
  | .next o =>
    (st.objects[o]?).bind fun object =>
      (next H Arrays.memory compare { memory := st.arrays, heap := object.heap }).map fun r =>
        ([r.1], st.put o object.kSeqs r.2)
  | .peek o =>
    (st.objects[o]?).bind fun object =>
      (peek Arrays.memory { memory := st.arrays, heap := object.heap }).map fun r =>
        ([r.1], st.put o object.kSeqs r.2)
  | .copy that =>
    (st.objects[that]?).bind fun object => (st.arrays[object.kSeqs]?).bind fun seqs =>
      let this := st.arrays.length
      (fixHeapPointers this object.kSeqs seqs.length object.heap).map fun heap =>
        ([], { arrays := st.arrays ++ [seqs],
               objects := st.objects ++ [{ kSeqs := this, heap := heap }] })
  | .assign this that =>
    (st.objects[this]?).bind fun target => (st.objects[that]?).bind fun object =>
      if this = that then some ([], st)
      else
        (st.arrays[object.kSeqs]?).bind fun seqs =>
          (fixHeapPointers target.kSeqs object.kSeqs seqs.length object.heap).map fun heap =>
            ([], { arrays := st.arrays.set target.kSeqs seqs,
                   objects := st.objects.set this { target with heap := heap } })

def run : List (Event S) → State S α → Option (List (Option α) × State S α)
  | [], st => some ([], st)
  | e :: es, st => (step H compare st e).bind fun r => (run es r.2).map fun t => (r.1 ++ t.1, t.2)

/-! ## Objects as values -/

/-- The array of one object, by itself. -/
def vectorMemory : Memory S α (List (CacheNext S α)) Nat where
  load seqs i := seqs[i]?
  store seqs i seq := seqs.set i seq

/-- What an object is meant to be: the list of the items that are left. The rest is none of its
    business. -/
def specStep (merged : List S → List α) (ls : List (List α)) :
    Event S → Option (List (Option α) × List (List α))
  | .construct kSeqs => some ([], ls ++ [merged kSeqs])
  | .next o => (ls[o]?).map fun l => ([l.head?], ls.set o l.tail)
  | .peek o => (ls[o]?).map fun l => ([l.head?], ls)
  | .copy that => (ls[that]?).map fun l => ([], ls ++ [l])
  | .assign this that => (ls[this]?).bind fun _ => (ls[that]?).map fun l => ([], ls.set this l)

def specRun (merged : List S → List α) :
    List (Event S) → List (List α) → Option (List (Option α) × List (List α))
  | [], ls => some ([], ls)
  | e :: es, ls =>
    (specStep merged ls e).bind fun r => (specRun merged es r.2).map fun t => (r.1 ++ t.1, t.2)

end Batt.KMerge
