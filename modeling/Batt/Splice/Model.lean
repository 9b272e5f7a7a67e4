/-
  `batt::seq::Splice` (`seq/splice.hpp`): an object with references to a member of its own.

  `impl_` is a `Chain<TakeN<OuterSeq&>, Chain<InnerSeq, OuterSeq&>>`, and the constructor binds both
  references to `outer_seq_`. The objects have numbers, which no two of them share; a reference is
  the number of the object whose `outer_seq_` it is bound to. The class declares no copy and no move:
  those that the compiler makes copy the members, and a reference member is bound to what the
  original's was bound to. Assignment is deleted, for a reference cannot be bound anew.

  What a move leaves in the sequences it moves from is up to these (`Moved`). A call through a
  reference to an object that has been destroyed is a fault (`none`).
-/
import Batt.Seq.Concat

namespace Batt.Splicing

open Batt.Seq

/-- The object whose `outer_seq_` it is. -/
abbrev OuterSeqRef := Nat

abbrev Impl (I : Type) := Chain (TakeN OuterSeqRef) (Chain I OuterSeqRef)

structure Splice (O I : Type) where
  outerSeq : O
  impl : Impl I
deriving Repr, DecidableEq

/-- The objects by their numbers, with `none` for one that has been destroyed. -/
abbrev Heap (O I : Type) := List (Option (Splice O I))

variable {O I α : Type} [Seq O α] [Seq I α]

def Heap.object (heap : Heap O I) (a : Nat) : Option (Splice O I) := (heap[a]?).join

def Heap.setOuter (heap : Heap O I) (ref : OuterSeqRef) (outer : O) : Heap O I :=
  heap.modify ref (Option.map fun s => { s with outerSeq := outer })

def Heap.setImpl (heap : Heap O I) (a : Nat) (impl : Impl I) : Heap O I :=
  heap.modify a (Option.map fun s => { s with impl := impl })

/-! ## next() -/

def nextOuter (heap : Heap O I) (ref : OuterSeqRef) : Option (Option α × Heap O I) :=
  (heap.object ref).map fun s =>
    ((Nexts.next s.outerSeq).1, heap.setOuter ref (Nexts.next s.outerSeq).2)

def nextTakeN (heap : Heap O I) (t : TakeN OuterSeqRef) :
    Option (Option α × TakeN OuterSeqRef × Heap O I) :=
  if t.n = 0 then some (none, t, heap)
  else (nextOuter heap t.seq).map fun r => (r.1, { t with n := t.n - 1 }, r.2)

/-- Of the inner `Chain`. -/
def nextInner (heap : Heap O I) (c : Chain I OuterSeqRef) :
    Option (Option α × Chain I OuterSeqRef × Heap O I) :=
  match c.seq1 with
  | none => (nextOuter heap c.seq2).map fun r => (r.1, c, r.2)
  | some inner =>
    match (Nexts.next inner).1 with
    | some item => some (some item, { c with seq1 := some (Nexts.next inner).2 }, heap)
    | none => (nextOuter heap c.seq2).map fun r => (r.1, { c with seq1 := none }, r.2)

/-- Of the outer `Chain`. -/
def nextImpl (heap : Heap O I) (c : Impl I) : Option (Option α × Impl I × Heap O I) :=
  match c.seq1 with
  | none => (nextInner heap c.seq2).map fun r => (r.1, { c with seq2 := r.2.1 }, r.2.2)
  | some t =>
    (nextTakeN heap t).bind fun r =>
      match r.1 with
      | some item => some (some item, { c with seq1 := some r.2.1 }, r.2.2)
      | none =>
        (nextInner r.2.2 c.seq2).map fun q => (q.1, { seq1 := none, seq2 := q.2.1 }, q.2.2)

def next (heap : Heap O I) (a : Nat) : Option (Option α × Heap O I) :=
  (heap.object a).bind fun s =>
    (nextImpl heap s.impl).map fun r => (r.1, r.2.2.setImpl a r.2.1)

/-! ## peek() -/

def peekOuter (heap : Heap O I) (ref : OuterSeqRef) : Option (Option α × Heap O I) :=
  (heap.object ref).map fun s =>
    ((Seq.peek s.outerSeq).1, heap.setOuter ref (Seq.peek s.outerSeq).2)

def peekImpl (heap : Heap O I) (c : Impl I) : Option (Option α × Impl I × Heap O I) :=
  match c.seq1 with
  | some t =>
    if t.n = 0 then some (none, c, heap)
    else (peekOuter heap t.seq).map fun r => (r.1, c, r.2)
  | none =>
    match c.seq2.seq1 with
    | some inner =>
      some ((Seq.peek inner).1,
        { c with seq2 := { c.seq2 with seq1 := some (Seq.peek inner).2 } }, heap)
    | none => (peekOuter heap c.seq2.seq2).map fun r => (r.1, c, r.2)

def peek (heap : Heap O I) (a : Nat) : Option (Option α × Heap O I) :=
  (heap.object a).bind fun s =>
    (peekImpl heap s.impl).map fun r => (r.1, r.2.2.setImpl a r.2.1)

/-! ## Objects -/

/-- What a move leaves in a sequence that it moves from. -/
structure Moved (O I : Type) where
  outer : O → O
  inner : I → I

inductive Event (O I : Type) where
  | construct (outer : O) (n : Nat) (inner : I)
  | copy (that : Nat)
  | move (that : Nat)
  | destroy (a : Nat)
  | next (a : Nat)
  | peek (a : Nat)

/-- The object that the constructor makes at `a`. -/
def Splice.construct (a : Nat) (outer : O) (n : Nat) (inner : I) : Splice O I :=
  { outerSeq := outer
    impl := { seq1 := some { seq := a, n := n }, seq2 := { seq1 := some inner, seq2 := a } } }

/-- What a move leaves of an object. -/
def Splice.left (moved : Moved O I) (s : Splice O I) : Splice O I :=
  { outerSeq := moved.outer s.outerSeq
    impl := { s.impl with seq2 := { s.impl.seq2 with seq1 := s.impl.seq2.seq1.map moved.inner } } }

variable (moved : Moved O I)

/-- The items that a call of `next()` returns, and the objects after it. -/
def step (heap : Heap O I) : Event O I → Option (List (Option α) × Heap O I)
  | .construct outer n inner => some ([], heap ++ [some (.construct heap.length outer n inner)])
  | .copy that => (heap.object that).map fun s => ([], heap ++ [some s])
  | .move that =>
    (heap.object that).map fun s => ([], heap.set that (some (s.left moved)) ++ [some s])
  | .destroy a => (heap.object a).map fun _ => ([], heap.set a none)
  | .next a => (next heap a).map fun r => ([r.1], r.2)
  | .peek a => (peek heap a).map fun r => ([], r.2)

def run : List (Event O I) → Heap O I → Option (List (Option α) × Heap O I)
  | [], heap => some ([], heap)
  | e :: es, heap =>
    (step moved heap e).bind fun r => (run es r.2).map fun t => (r.1 ++ t.1, t.2)

/-! ## Objects as values -/

/-- What is expected of an object: what it has still to yield, unless it has been moved from. -/
inductive Value (α : Type) where
  | yields (l : List α)
  | movedFrom
  | destroyed
deriving Repr, DecidableEq

abbrev Values (α : Type) := List (Value α)

def Values.left (ls : Values α) (a : Nat) : Option (List α) :=
  match ls[a]? with
  | some (.yields l) => some l
  | _ => none

def Values.alive (ls : Values α) (a : Nat) : Bool :=
  match ls[a]? with
  | some (.yields _) | some .movedFrom => true
  | _ => false

def specStep (ls : Values α) : Event O I → Option (List (Option α) × Values α)
  | .construct outer n inner =>
    some ([], ls ++ [.yields ((items outer).take n ++ items inner ++ (items outer).drop n)])
  | .copy that => (ls.left that).map fun l => ([], ls ++ [.yields l])
  | .move that => (ls.left that).map fun l => ([], ls.set that .movedFrom ++ [.yields l])
  | .destroy a => if ls.alive a then some ([], ls.set a .destroyed) else none
  | .next a => (ls.left a).map fun l => ([l.head?], ls.set a (.yields l.tail))
  | .peek a => (ls.left a).map fun _ => ([], ls)

def specRun : List (Event O I) → Values α → Option (List (Option α) × Values α)
  | [], ls => some ([], ls)
  | e :: es, ls =>
    (specStep ls e).bind fun r => (specRun es r.2).map fun t => (r.1 ++ t.1, t.2)

/-- The references of an object at `a` are to a member of its own. -/
def Splice.own (a : Nat) (s : Splice O I) : Bool :=
  (s.impl.seq1.all fun t => t.seq = a) && s.impl.seq2.seq2 = a

/-- The next item is one of the inner sequence. -/
def Splice.nextInside (s : Splice O I) : Bool :=
  (s.impl.seq1.all fun t => t.n = 0) &&
    s.impl.seq2.seq1.any fun inner => (Nexts.next inner).1.isSome

/-- A peek is one of the inner sequence, or of the end of `take_n`. -/
def Splice.peekInside (s : Splice O I) : Bool :=
  match s.impl.seq1 with
  | some t => t.n = 0
  | none => s.impl.seq2.seq1.isSome

/-- A call goes through the references only on an object where they are to a member of its own. -/
def callsOwn (heap : Heap O I) : Event O I → Bool
  | .next a => (heap.object a).all fun s => s.own a || s.nextInside
  | .peek a => (heap.object a).all fun s => s.own a || s.peekInside
  | _ => true

/-- Every step of the run is so. -/
def runsOwn : List (Event O I) → Heap O I → Bool
  | [], _ => true
  | e :: es, heap => callsOwn heap e && (step moved heap e).all fun r => runsOwn es r.2

end Batt.Splicing
