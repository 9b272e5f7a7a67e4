/-
  `TypeErasedStorage` (batteries/type_erasure.hpp) as operations on objects and their storage.

  A storage is its buffer and `impl_`. The buffer has an implementation object in it, or an
  `AbstractValuePointer` to one on the heap, or nothing that is alive: before the first object
  and after the last the bytes are there, but a call through them follows whatever they hold. A
  pointer to an object is the object's number in the ledger; an object on the heap and one in a
  buffer differ in what the buffer holds.

  A copy or a move constructor of a value may throw. The constructors from a value are `noexcept`:
  a program that throws there ends. `misused` records a call through a null pointer or a dead
  buffer, an object that is used or destroyed after its end, and one that is still in a buffer
  when something else is constructed there or the storage goes.
-/
import Batt.Lib.Lifetime

namespace Batt.TypeErasedStorage

open Lifetime (Ledger)

/-- What the types that are stored have in common: `sizeof` of their `TypedImpl`, `kReservedSize`,
    and what is left of a value that was moved. -/
structure Erasure (τ V : Type) where
  sizeofImpl : τ → Nat
  reservedSize : Nat
  movedFrom : V → V

/-- A `TypedImpl<T>`: its type and `obj_`. -/
structure Impl (τ V : Type) where
  type : τ
  obj : V
deriving DecidableEq, Repr

/-- `AbstractValuePointer::ptr_` is null once it was moved from. -/
inductive Buffer
  | raw
  | inline (i : Nat)
  | boxed (ptr : Option Nat)
deriving DecidableEq, Repr

structure Storage where
  buffer : Buffer := .raw
  impl : Option Nat := none
deriving DecidableEq, Repr

structure World (τ V : Type) where
  storages : Nat → Option Storage := fun _ => none
  ledger : Ledger (Impl τ V) := {}
  misused : Bool := false

variable {τ V : Type} (E : Erasure τ V)

def Erasure.fits (t : τ) : Bool := decide (E.sizeofImpl t ≤ E.reservedSize)

namespace World

/-! ## Storage -/

def flag (w : World τ V) (misuse : Bool) : World τ V := { w with misused := w.misused || misuse }

def put (w : World τ V) (x : Nat) (s : Option Storage) : World τ V :=
  { w with storages := Function.update w.storages x s }

def modify (w : World τ V) (x : Nat) (f : Storage → Storage) : World τ V :=
  w.put x ((w.storages x).map f)

/-- `get()`. -/
def impl (w : World τ V) (x : Nat) : Option Nat := (w.storages x).bind (·.impl)

def buffer (w : World τ V) (x : Nat) : Buffer := ((w.storages x).map (·.buffer)).getD .raw

def isValid (w : World τ V) (x : Nat) : Bool := (w.impl x).isSome

def setImpl (w : World τ V) (x : Nat) (p : Option Nat) : World τ V :=
  w.modify x fun s => { s with impl := p }

def setBuffer (w : World τ V) (x : Nat) (b : Buffer) : World τ V :=
  w.modify x fun s => { s with buffer := b }

/-- Something is constructed in the buffer. -/
def place (w : World τ V) (x : Nat) (b : Buffer) : World τ V :=
  (w.setBuffer x b).flag (decide (w.buffer x ≠ .raw))

def destroyObject (w : World τ V) (i : Nat) : World τ V :=
  { w with ledger := w.ledger.destroy i }.flag (w.ledger.alive i).isNone

/-- `construct_impl(static_type, memory(), args...)`. -/
def constructImpl (w : World τ V) (x : Nat) (o : Impl τ V) : World τ V × Option Nat :=
  let i := w.ledger.made
  let made : World τ V := { w with ledger := w.ledger.make o }
  if E.fits o.type then (made.place x (.inline i), some i)
  else (made.place x (.boxed (some i)), some i)

/-! ## The virtual functions -/

/-- `impl->copy_to(memory())`, into the buffer of `x`: the pointer that it returns, or none if the
    copy constructor throws. -/
def copyTo (w : World τ V) (impl : Option Nat) (x : Nat) (throws : Bool) :
    World τ V × Option (Option Nat) :=
  match impl.bind w.ledger.alive with
  | none => (w.flag true, some none)
  | some o =>
    if throws then (w, none)
    else
      let r := w.constructImpl E x o
      (r.1, some r.2)

/-- `get_abstract()->move_to(memory())`, from the buffer of `y` into that of `x`. A move constructor
    that throws leaves the value `left` behind. -/
def moveTo (w : World τ V) (y x : Nat) (left : Option V) : World τ V × Option (Option Nat) :=
  match w.buffer y with
  | .raw => (w.flag true, some none)
  | .inline i =>
    match w.ledger.alive i with
    | none => (w.flag true, some none)
    | some o =>
      match left with
      | some v => ({ w with ledger := w.ledger.set i { o with obj := v } }, none)
      | none =>
        let moved := { w with ledger := w.ledger.set i { o with obj := E.movedFrom o.obj } }
        let r := moved.constructImpl E x o
        (r.1, some r.2)
  | .boxed p => ((w.place x (.boxed p)).setBuffer y (.boxed none), some p)

/-- `get_abstract()->~AbstractValue()`. -/
def destroyAbstract (w : World τ V) (x : Nat) : World τ V :=
  match w.buffer x with
  | .raw => w.flag true
  | .inline i => (w.destroyObject i).setBuffer x .raw
  | .boxed none => w.setBuffer x .raw
  | .boxed (some i) => (w.destroyObject i).setBuffer x .raw

/-! ## Members -/

def clear (w : World τ V) (x : Nat) : World τ V :=
  if w.isValid x then (w.destroyAbstract x).setImpl x none else w

/-- `construct(static_type, args...)`. -/
def construct (w : World τ V) (x : Nat) (o : Impl τ V) : World τ V :=
  let r := w.constructImpl E x o
  r.1.setImpl x r.2

/-- `emplace(static_type, args...)`. -/
def emplace (w : World τ V) (x : Nat) (o : Impl τ V) (throws : Bool) : World τ V :=
  if throws then w.clear x else (w.clear x).construct E x o

/-- `TypeErasedStorage()`. -/
def new (w : World τ V) (x : Nat) : World τ V := w.put x (some {})

/-- `TypeErasedStorage(static_type, args...)`. -/
def newValue (w : World τ V) (x : Nat) (o : Impl τ V) : World τ V := (w.new x).emplace E x o false

/-- `TypeErasedStorage(const TypeErasedStorage&)`. -/
def newCopy (w : World τ V) (x y : Nat) (throws : Bool) : World τ V :=
  let w := w.new x
  let r := w.copyTo E (w.impl y) x throws
  match r.2 with
  | none => r.1.put x none
  | some p => r.1.setImpl x p

/-- `TypeErasedStorage(TypeErasedStorage&&)`. -/
def newMove (w : World τ V) (x y : Nat) (left : Option V) : World τ V :=
  let r := (w.new x).moveTo E y x left
  match r.2 with
  | none => r.1.put x none
  | some p => (r.1.setImpl x p).clear y

/-- `~TypeErasedStorage()`. -/
def delete (w : World τ V) (x : Nat) : World τ V :=
  let w := w.clear x
  (w.put x none).flag (decide (w.buffer x ≠ .raw))

/-- `operator=(TypeErasedStorage&&)`. -/
def moveAssign (w : World τ V) (x y : Nat) (left : Option V) : World τ V :=
  if x = y then w
  else
    let w := w.clear x
    let r := w.moveTo E y x left
    match r.2 with
    | none => r.1
    | some p => (r.1.setImpl x p).clear y

/-- `operator=(const TypeErasedStorage&)`. -/
def copyAssign (w : World τ V) (x y : Nat) (throws : Bool) : World τ V :=
  if x = y then w
  else
    let w := w.clear x
    let r := w.copyTo E (w.impl y) x throws
    match r.2 with
    | none => r.1
    | some p => r.1.setImpl x p

/-- The object changes by a call through `operator->`. -/
def write (w : World τ V) (x : Nat) (v : V) : World τ V :=
  match w.impl x with
  | none => w.flag true
  | some i =>
    match w.ledger.alive i with
    | none => w.flag true
    | some o => { w with ledger := w.ledger.set i { o with obj := v } }

end World

/-! ## Programs -/

/-- `x` is the storage that is constructed, destroyed or assigned to. -/
inductive Op (τ V : Type) where
  | new (x : Nat)
  | newValue (x : Nat) (o : Impl τ V)
  | newCopy (x y : Nat) (throws : Bool)
  | newMove (x y : Nat) (left : Option V)
  | delete (x : Nat)
  | emplace (x : Nat) (o : Impl τ V) (throws : Bool)
  | clear (x : Nat)
  | copyAssign (x y : Nat) (throws : Bool)
  | moveAssign (x y : Nat) (left : Option V)
  | write (x : Nat) (v : V)

namespace World

def exists? (w : World τ V) (x : Nat) : Bool := (w.storages x).isSome

/-- A program calls through `operator->` where the storage is valid. -/
def step (w : World τ V) : Op τ V → Option (World τ V)
  | .new x => if w.exists? x then none else some (w.new x)
  | .newValue x o => if w.exists? x then none else some (w.newValue E x o)
  | .newCopy x y throws =>
    if !w.exists? x && w.exists? y then some (w.newCopy E x y throws) else none
  | .newMove x y left => if !w.exists? x && w.exists? y then some (w.newMove E x y left) else none
  | .delete x => if w.exists? x then some (w.delete x) else none
  | .emplace x o throws => if w.exists? x then some (w.emplace E x o throws) else none
  | .clear x => if w.exists? x then some (w.clear x) else none
  | .copyAssign x y throws =>
    if w.exists? x && w.exists? y then some (w.copyAssign E x y throws) else none
  | .moveAssign x y left =>
    if w.exists? x && w.exists? y then some (w.moveAssign E x y left) else none
  | .write x v => if w.isValid x then some (w.write x v) else none

end World

end Batt.TypeErasedStorage
