/-
  The special members of `StatusOr<T>` (batteries/status.hpp) as operations on objects.

  An object is its status and its `value_`, storage in which a `T` may be alive. A program makes
  operations on the objects of a `World`; every construction or assignment of a `T` may throw, and
  what the member function does behind it is skipped then. `misused` records that a value that is
  not alive was read, assigned to or destroyed, that one was constructed over one that is alive, or
  that storage went with a value alive in it: without it each value is constructed before it is
  read and destroyed once.

  A program that has no such object, refers to the value of an object that is not OK, or fails a
  `BATT_CHECK` ends: there is no step. `U` may be another type than `T` in the converting members,
  whose bodies are those of the others; the values of all types are in `V`.
-/
import Mathlib.Data.List.Basic
import Batt.Status

namespace Batt.StatusOrObject

structure Object (V : Type) where
  status : StatusCode
  value : Option V := none
deriving DecidableEq, Repr

structure World (V : Type) where
  objects : Nat → Option (Object V) := fun _ => none
  misused : Bool := false

/-- What a value that has been moved from, or destroyed, reads as. -/
structure Values (V : Type) where
  movedFrom : V → V
  destroyed : V

/-- The argument that a `T` is constructed from: the value in an object, moved or not, or one
    that is in no object. -/
inductive Arg (V : Type) where
  | given (v : V)
  | inside (y : Nat) (move : Bool)
deriving DecidableEq, Repr

variable {V : Type}

def Arg.source : Arg V → Option Nat
  | .given _ => none
  | .inside y _ => some y

namespace World

/-! ## Storage -/

def put (w : World V) (x : Nat) (o : Option (Object V)) : World V :=
  { w with objects := fun i => if i = x then o else w.objects i }

def modify (w : World V) (x : Nat) (f : Object V → Object V) : World V :=
  w.put x ((w.objects x).map f)

def flag (w : World V) (misuse : Bool) : World V := { w with misused := w.misused || misuse }

def status (w : World V) (x : Nat) : StatusCode :=
  ((w.objects x).map (·.status)).getD .kUnknown

def ok (w : World V) (x : Nat) : Bool := decide (w.status x = .kOk)

def value (w : World V) (x : Nat) : Option V := (w.objects x).bind (·.value)

def setStatus (w : World V) (x : Nat) (s : StatusCode) : World V :=
  w.modify x fun o => { o with status := s }

/-- `value_.destroy()`. -/
def destroyValue (w : World V) (x : Nat) : World V :=
  (w.modify x fun o => { o with value := none }).flag (w.value x).isNone

/-- The value of an object is read. -/
def touch (w : World V) (y : Nat) : World V := w.flag (w.value y).isNone

def moveOut (vals : Values V) (w : World V) (y : Nat) (move : Bool) : World V :=
  if move then w.modify y fun o => { o with value := o.value.map vals.movedFrom } else w

/-- A new value in the storage of an object. -/
def place (w : World V) (x : Nat) (v : V) : World V :=
  (w.modify x fun o => { o with value := some v }).flag (w.value x).isSome

/-- `value_.construct(arg)`. -/
def construct (vals : Values V) (w : World V) (x : Nat) (arg : Arg V) (throws : Bool) : World V :=
  match arg with
  | .given v => if throws then w else w.place x v
  | .inside y move =>
    let read := w.touch y
    if throws then read
    else (read.moveOut vals y move).place x ((w.value y).getD vals.destroyed)

/-- The storage of an object goes. -/
def release (w : World V) (x : Nat) : World V := (w.put x none).flag (w.value x).isSome

/-! ## Constructors -/

/-- `StatusOr()`. -/
def new (w : World V) (x : Nat) : World V := w.put x (some { status := .kUnknown })

/-- `StatusOr(const Status&)`. -/
def newStatus (w : World V) (x : Nat) (s : StatusCode) : Option (World V) :=
  if s = .kOk then none else some (w.put x (some { status := s }))

/-- `StatusOr(StatusOr&&)`, `StatusOr(StatusOr<U>&&)`. -/
def newMove (vals : Values V) (w : World V) (x y : Nat) (throws : Bool) : World V :=
  let w := w.put x (some { status := .kUnknown })
  if w.ok y then
    let w := w.construct vals x (.inside y true) throws
    if throws then w.release x
    else ((w.setStatus x .kOk).destroyValue y).setStatus y .kUnknown
  else w.setStatus x (w.status y)

/-- `StatusOr(const StatusOr&)`. -/
def newCopy (vals : Values V) (w : World V) (x y : Nat) (throws : Bool) : World V :=
  let w := w.put x (some { status := w.status y })
  if w.ok x then
    let w := w.construct vals x (.inside y false) throws
    if throws then w.release x else w
  else w

/-- `StatusOr(const T&)`, `StatusOr(T&)`, `StatusOr(T&&)`, `StatusOr(U&&)`. -/
def newValue (vals : Values V) (w : World V) (x : Nat) (arg : Arg V) (throws : Bool) : World V :=
  let w := w.put x (some { status := .kOk })
  let w := w.construct vals x arg throws
  if throws then w.release x else w

/-- `~StatusOr()`. -/
def delete (w : World V) (x : Nat) : World V :=
  let w := if w.ok x then w.destroyValue x else w
  w.release x

/-! ## Assignments -/

/-- `operator=(T&&)`, `operator=(const T&)`, `operator=(U&&)`. -/
def assignValue (vals : Values V) (w : World V) (x : Nat) (arg : Arg V) (throws : Bool) :
    World V :=
  let w := if w.ok x then w.destroyValue x else w
  let w := w.setStatus x .kOk
  w.construct vals x arg throws

/-- The assignment from another object. Where that of the values throws, it leaves the value
    that `throws` names behind. -/
def assignFrom (vals : Values V) (move : Bool) (w : World V) (x y : Nat) (throws : Option V) :
    World V :=
  if x = y then w
  else if w.ok x then
    if w.ok y then
      let read := (w.touch x).touch y
      match throws with
      | some left => read.modify x fun o => { o with value := some left }
      | none =>
        let v := (w.value y).getD vals.destroyed
        ((read.moveOut vals y move).modify x fun o => { o with value := some v }).setStatus x
          (w.status y)
    else (w.destroyValue x).setStatus x (w.status y)
  else if w.ok y then
    let made := w.construct vals x (.inside y move) throws.isSome
    if throws.isSome then made else made.setStatus x (w.status y)
  else w.setStatus x (w.status y)

/-- `operator=(const StatusOr&)`. -/
def copyAssign (vals : Values V) : World V → Nat → Nat → Option V → World V := assignFrom vals false

/-- `operator=(StatusOr&&)`. -/
def moveAssign (vals : Values V) : World V → Nat → Nat → Option V → World V := assignFrom vals true

/-- `operator=(const Status&)`. -/
def assignStatus (w : World V) (x : Nat) (s : StatusCode) : Option (World V) :=
  if s = .kOk then none
  else some ((if w.ok x then w.destroyValue x else w).setStatus x s)

/-! ## emplace -/

/-- `emplace(args...)`. -/
def emplace (vals : Values V) (w : World V) (x : Nat) (arg : Arg V) (throws : Bool) : World V :=
  let w := if w.ok x then w.destroyValue x else w
  let w := w.construct vals x arg throws
  if throws then w else w.setStatus x .kOk

/-- `emplace(StatusOr<U>&&)`, `emplace(const StatusOr<U>&)`. -/
def emplaceFrom (vals : Values V) (move : Bool) (w : World V) (x y : Nat) (throws : Bool) :
    World V :=
  let w := if w.ok x then (w.destroyValue x).setStatus x .kUnknown else w
  if w.ok y then
    let made := w.construct vals x (.inside y move) throws
    if throws then made else made.setStatus x (w.status y)
  else w.setStatus x (w.status y)

end World

/-! ## Programs -/

/-- `x` is the object that is constructed, destroyed or assigned to. -/
inductive Op (V : Type) where
  | new (x : Nat)
  | newStatus (x : Nat) (s : StatusCode)
  | newMove (x y : Nat) (throws : Bool)
  | newCopy (x y : Nat) (throws : Bool)
  | newValue (x : Nat) (arg : Arg V) (throws : Bool)
  | delete (x : Nat)
  | assignValue (x : Nat) (arg : Arg V) (throws : Bool)
  | copyAssign (x y : Nat) (throws : Option V)
  | moveAssign (x y : Nat) (throws : Option V)
  | assignStatus (x : Nat) (s : StatusCode)
  | emplace (x : Nat) (arg : Arg V) (throws : Bool)
  | emplaceFrom (move : Bool) (x y : Nat) (throws : Bool)

namespace World

def exists? (w : World V) (x : Nat) : Bool := (w.objects x).isSome

/-- An argument can be named: the object it is in, if any, is OK. -/
def names (w : World V) (arg : Arg V) : Bool := arg.source.all w.ok

def step (vals : Values V) (w : World V) : Op V → Option (World V)
  | .new x => if w.exists? x then none else some (w.new x)
  | .newStatus x s => if w.exists? x then none else w.newStatus x s
  | .newMove x y throws =>
    if !w.exists? x && w.exists? y then some (w.newMove vals x y throws) else none
  | .newCopy x y throws =>
    if !w.exists? x && w.exists? y then some (w.newCopy vals x y throws) else none
  | .newValue x arg throws =>
    if !w.exists? x && w.names arg then some (w.newValue vals x arg throws) else none
  | .delete x => if w.exists? x then some (w.delete x) else none
  | .assignValue x arg throws =>
    if w.exists? x && w.names arg then some (w.assignValue vals x arg throws) else none
  | .copyAssign x y throws =>
    if w.exists? x && w.exists? y then some (w.copyAssign vals x y throws) else none
  | .moveAssign x y throws =>
    if w.exists? x && w.exists? y then some (w.moveAssign vals x y throws) else none
  | .assignStatus x s => if w.exists? x then w.assignStatus x s else none
  | .emplace x arg throws =>
    if w.exists? x && w.names arg then some (w.emplace vals x arg throws) else none
  | .emplaceFrom move x y throws =>
    if w.exists? x && w.exists? y then some (w.emplaceFrom vals move x y throws) else none

end World

end Batt.StatusOrObject
