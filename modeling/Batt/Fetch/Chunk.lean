/-
  `BasicScopedChunk` and `fetch_chunk` (batteries/async/fetch.hpp), and programs that make,
  move, shorten and destroy such chunks.

  A chunk looks at a buffer of the stream or at bytes it has gathered in `local_storage_`; what
  `buffer_` points at is modelled by its bytes. The pointer to the stream carries the number of
  the fetch it comes from. No operation looks at this number: it is there so that each call of
  `consume` in `calls` shows to which fetch it belongs.

  `fetches` is what a program has done, from outside: each fetch with its stream, and how many
  of its bytes have not been backed up.
-/
import Mathlib.Algebra.GroupWithZero.Nat
import Batt.Status

namespace Batt.Fetch

abbrev Bytes := List UInt8

structure Source (σ : Type) where
  stream : σ
  fetch : Nat
deriving DecidableEq, Repr

/-- A call of `consume(count)` on the stream. -/
structure Call (σ : Type) where
  source : Source σ
  count : Nat
deriving DecidableEq, Repr

structure BasicScopedChunk (σ : Type) where
  source : Option (Source σ) := none
  localStorage : Bytes := []
  buffer : Bytes := []
deriving DecidableEq, Repr

variable {σ : Type}

namespace BasicScopedChunk

def ofBuffer (source : Source σ) (buffer : Bytes) : BasicScopedChunk σ := ⟨some source, [], buffer⟩

def ofStorage (source : Source σ) (storage : Bytes) : BasicScopedChunk σ :=
  ⟨some source, storage, storage⟩

/-- The buffer of a chunk that is moved: one that was gathered is looked at as a whole. -/
def fixUp (other : BasicScopedChunk σ) : Bytes :=
  if other.localStorage.isEmpty then other.buffer else other.localStorage

/-- The fields of `other` go to another object, with what is left in `other`. `leftOver` is what
    a small vector holds when it has been moved from. -/
def moved (leftOver : Bytes → Bytes) (other : BasicScopedChunk σ) :
    BasicScopedChunk σ × BasicScopedChunk σ :=
  (⟨other.source, other.localStorage, other.fixUp⟩, ⟨none, leftOver other.localStorage, []⟩)

/-- The move constructor. -/
def moveConstruct (leftOver : Bytes → Bytes) (other : BasicScopedChunk σ) :
    BasicScopedChunk σ × BasicScopedChunk σ := other.moved leftOver

/-- The move assignment to another object. Nothing is done with the pointer that is overwritten:
    its deleter does nothing. -/
def moveAssign (leftOver : Bytes → Bytes) (_this other : BasicScopedChunk σ) :
    BasicScopedChunk σ × BasicScopedChunk σ := other.moved leftOver

def size (c : BasicScopedChunk σ) : Nat := c.buffer.length

def backUp (c : BasicScopedChunk σ) (n : Nat) : BasicScopedChunk σ :=
  { c with buffer := c.buffer.take (c.size - min n c.size) }

theorem size_backUp (c : BasicScopedChunk σ) (n : Nat) : (c.backUp n).size = c.size - n := by
  simp only [backUp, size, List.length_take]
  omega

/-- `consume()`, with the call it makes. -/
def consume (c : BasicScopedChunk σ) : BasicScopedChunk σ × List (Call σ) :=
  match c.source with
  | none => (c, [])
  | some source => ({ c with source := none, buffer := [] }, [⟨source, c.size⟩])

end BasicScopedChunk

/-! ## fetch_chunk -/

def memcpy (dst : Bytes) (offset : Nat) (src : Bytes) : Bytes :=
  dst.take offset ++ src ++ dst.drop (offset + src.length)

/-- The loop over the fetched buffers, with `bytes_remaining` and the storage at its end. -/
def gather : List Bytes → Nat → Nat → Bytes → Nat × Bytes
  | [], bytesRemaining, _, storage => (bytesRemaining, storage)
  | next :: buffers, bytesRemaining, offset, storage =>
    if bytesRemaining > 0 then
      gather buffers (bytesRemaining - min bytesRemaining next.length)
        (offset + min bytesRemaining next.length)
        (memcpy storage offset (next.take (min bytesRemaining next.length)))
    else (bytesRemaining, storage)

/-- `answer` is what `async_fetch` returns; `none` is a failed BATT_CHECK. The chunk is moved
    into the `StatusOr`. -/
def fetchChunk (leftOver : Bytes → Bytes) (source : Source σ) (minSize : Nat)
    (answer : StatusOr (List Bytes)) : Option (StatusOr (BasicScopedChunk σ)) :=
  if minSize = 0 then some (.error .kInvalidArgument)
  else
    match answer with
    | .error code => some (.error code)
    | .ok [] => none
    | .ok (first :: rest) =>
      if minSize ≤ first.length then
        some (.ok (BasicScopedChunk.moveConstruct leftOver (.ofBuffer source first)).1)
      else
        let (bytesRemaining, storage) :=
          gather (first :: rest) minSize 0 (List.replicate minSize 0)
        if bytesRemaining = 0 then
          some (.ok (BasicScopedChunk.moveConstruct leftOver (.ofStorage source storage)).1)
        else none

/-! ## Programs -/

/-- A fetch, with how many of its bytes are to be consumed. -/
structure Fetched (σ : Type) where
  stream : σ
  left : Nat
deriving DecidableEq, Repr

/-- An object that has been destroyed is `none`. -/
structure World (σ : Type) where
  objects : List (Option (BasicScopedChunk σ)) := []
  fetches : List (Fetched σ) := []
  calls : List (Call σ) := []
deriving DecidableEq, Repr

inductive Op (σ : Type) where
  | construct
  | fetch (stream : σ) (minSize : Nat) (answer : StatusOr (List Bytes))
  | ofBuffer (stream : σ) (buffer : Bytes)
  | backUp (x n : Nat)
  | moveConstruct (x : Nat)
  | moveAssign (x y : Nat)
  | consume (x : Nat)
  | destroy (x : Nat)

namespace World

def object (w : World σ) (x : Nat) : Option (BasicScopedChunk σ) := w.objects[x]?.join

def put (w : World σ) (x : Nat) (c : Option (BasicScopedChunk σ)) : World σ :=
  { w with objects := w.objects.set x c }

def addObject (w : World σ) (c : BasicScopedChunk σ) : World σ :=
  { w with objects := w.objects ++ [some c] }

/-- A new chunk, and the fetch it stands for. -/
def addFetched (w : World σ) (stream : σ) (c : BasicScopedChunk σ) : World σ :=
  { w.addObject c with fetches := w.fetches ++ [⟨stream, c.size⟩] }

/-- The bytes of a fetch that are backed up need not be consumed. -/
def backedUp (w : World σ) (c : BasicScopedChunk σ) (n : Nat) : List (Fetched σ) :=
  match c.source with
  | none => w.fetches
  | some source => w.fetches.modify source.fetch fun f => { f with left := f.left - n }

def consume (w : World σ) (x : Nat) (c : BasicScopedChunk σ) : World σ :=
  { w.put x (some c.consume.1) with calls := w.calls ++ c.consume.2 }

def destroy (w : World σ) (x : Nat) : World σ :=
  match w.object x with
  | none => w
  | some c => { w.put x none with calls := w.calls ++ c.consume.2 }

/-- One statement of a program; `none` where it has no such object, or a check fails. -/
def step (leftOver : Bytes → Bytes) (w : World σ) : Op σ → Option (World σ)
  | .construct => some (w.addObject {})
  | .fetch stream minSize answer =>
    match fetchChunk leftOver ⟨stream, w.fetches.length⟩ minSize answer with
    | none => none
    | some (.error _) => some w
    | some (.ok c) => some (w.addFetched stream c)
  | .ofBuffer stream buffer =>
    some (w.addFetched stream (.ofBuffer ⟨stream, w.fetches.length⟩ buffer))
  | .backUp x n => do
    let c ← w.object x
    some { w.put x (some (c.backUp n)) with fetches := w.backedUp c n }
  | .moveConstruct x => do
    let other ← w.object x
    let (this, other) := other.moveConstruct leftOver
    some ((w.put x (some other)).addObject this)
  | .moveAssign x y => do
    let this ← w.object x
    let other ← w.object y
    if x = y then some w
    else
      let (this, other) := this.moveAssign leftOver other
      some ((w.put y (some other)).put x (some this))
  | .consume x => do
    let c ← w.object x
    some (w.consume x c)
  | .destroy x => do
    let _ ← w.object x
    some (w.destroy x)

def exec (leftOver : Bytes → Bytes) (w : World σ) : List (Op σ) → Option (World σ)
  | [] => some w
  | op :: ops => (w.step leftOver op).bind fun w' => w'.exec leftOver ops

/-- All objects are destroyed. -/
def close (w : World σ) : World σ := (List.range w.objects.length).foldl destroy w

/-- The calls that are to be made: one for each fetch, on its stream, with the number of its
    bytes that have not been backed up. -/
def due (w : World σ) : List (Call σ) := w.fetches.mapIdx fun i f => ⟨⟨f.stream, i⟩, f.left⟩

/-- If all objects were destroyed now, each fetch would have been consumed once, as it should. -/
def Settled (w : World σ) : Prop := w.close.calls.Perm w.due

end World

end Batt.Fetch
