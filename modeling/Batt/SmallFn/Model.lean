/-
  `SmallFn` (batteries/small_fn.hpp) as operations on objects.

  An object is its `storage_`, in which an implementation object may be alive, and `impl_`. It has
  a capacity and is copyable or move-only, and stays that. An implementation is a callable behind
  an interface; `MoveFnImpl` and `CopyFnImpl` of a callable have one size. A pointer to an
  implementation is its number in the ledger. The calls return what the callables return, in
  `returned`; a callable may change when it is called.

  A function of another type is a callable like any other: the constructor and the assignment that
  take a callable put the function itself into the implementation, where what that has lives and
  ends with it. The members that convert are chosen only for an lvalue of a copyable function, by a
  move-only one that has room for it.

  The members are `noexcept`: a program in which a callable throws ends. A program calls a
  function that is not empty, and makes what the code lets it compile. `misused` records a call
  through a null pointer, a `BATT_CHECK` that fails, an implementation that is used or destroyed
  after its end, one that is larger than the storage it is constructed in, and one that is still
  in a storage when something else is constructed there or the storage goes.
-/
import Batt.Lib.Lifetime

namespace Batt.SmallFunction

open Lifetime (Ledger)

/-- What the callables have in common: `sizeof` of their `FnImpl`, and of that of a function with a
    capacity, what is left of one that was moved, and what a call returns and leaves. -/
structure Callables (τ F A B : Type) where
  sizeofImpl : τ → Nat
  sizeofSmallFn : Nat → Nat
  movedFrom : F → F
  invoke : F → A → B × F

/-- An `FnImpl<Fn>`: the type of the callable and `fn_`. That may be a function with a capacity,
    which is empty or has an implementation of its own. -/
inductive FnImpl (τ F : Type) where
  | of (type : τ) (fn : F)
  | ofEmpty (maxSize : Nat)
  | ofSmallFn (maxSize : Nat) (impl : FnImpl τ F)

/-- The implementation for a function with this capacity and implementation. -/
def FnImpl.wrap {τ F : Type} (maxSize : Nat) : Option (FnImpl τ F) → FnImpl τ F
  | none => .ofEmpty maxSize
  | some o => .ofSmallFn maxSize o

structure SmallFn where
  maxSize : Nat
  moveOnly : Bool
  storage : Option Nat := none
  impl : Option Nat := none
deriving DecidableEq, Repr

structure World (τ F B : Type) where
  fns : Nat → Option SmallFn := fun _ => none
  ledger : Ledger (FnImpl τ F) := {}
  returned : List B := []
  misused : Bool := false

variable {τ F A B : Type} (C : Callables τ F A B)

namespace Callables

/-- `sizeof` of an implementation. -/
def sizeof : FnImpl τ F → Nat
  | .of type _ => C.sizeofImpl type
  | .ofEmpty maxSize | .ofSmallFn maxSize _ => C.sizeofSmallFn maxSize

/-- What is left of an implementation when `fn_` was moved: a function is empty then. -/
def left : FnImpl τ F → FnImpl τ F
  | .of type fn => .of type (C.movedFrom fn)
  | .ofEmpty maxSize | .ofSmallFn maxSize _ => .ofEmpty maxSize

/-- `invoke(args...)`, which an empty function does not have. -/
def call : FnImpl τ F → A → Option (B × FnImpl τ F)
  | .of type fn, a => some ((C.invoke fn a).1, .of type (C.invoke fn a).2)
  | .ofEmpty _, _ => none
  | .ofSmallFn maxSize o, a => (call o a).map fun r => (r.1, .ofSmallFn maxSize r.2)

end Callables

namespace World

/-! ## Storage -/

def flag (w : World τ F B) (misuse : Bool) : World τ F B :=
  { w with misused := w.misused || misuse }

def put (w : World τ F B) (x : Nat) (s : Option SmallFn) : World τ F B :=
  { w with fns := Function.update w.fns x s }

def modify (w : World τ F B) (x : Nat) (f : SmallFn → SmallFn) : World τ F B :=
  w.put x ((w.fns x).map f)

def impl (w : World τ F B) (x : Nat) : Option Nat := (w.fns x).bind (·.impl)

def storage (w : World τ F B) (x : Nat) : Option Nat := (w.fns x).bind (·.storage)

def maxSize (w : World τ F B) (x : Nat) : Nat := ((w.fns x).map (·.maxSize)).getD 0

def moveOnly (w : World τ F B) (x : Nat) : Bool := ((w.fns x).map (·.moveOnly)).getD false

/-- `operator bool`. -/
def toBool (w : World τ F B) (x : Nat) : Bool := (w.impl x).isSome

def setImpl (w : World τ F B) (x : Nat) (p : Option Nat) : World τ F B :=
  w.modify x fun s => { s with impl := p }

/-- `new (&storage_) FnImpl(fn)`. -/
def construct (w : World τ F B) (x : Nat) (o : FnImpl τ F) : World τ F B × Option Nat :=
  let i := w.ledger.made
  let made : World τ F B := { w with ledger := w.ledger.make o }
  ((made.modify x fun s => { s with storage := some i }).flag
    ((w.storage x).isSome || decide (w.maxSize x < C.sizeof o)), some i)

/-! ## The virtual functions -/

/-- `impl->copy(&storage_, kMaxSize)`, into the storage of `x`. -/
def copy (w : World τ F B) (impl : Option Nat) (x : Nat) : World τ F B × Option Nat :=
  match impl.bind w.ledger.alive with
  | none => (w.flag true, none)
  | some o =>
    if C.sizeof o ≤ w.maxSize x then w.construct C x o else (w.flag true, none)

/-- `impl->copy_to_move_only(&storage_, kMaxSize)`: the same check, of the same size, and the
    implementation behind the other interface. -/
def copyToMoveOnly (w : World τ F B) (impl : Option Nat) (x : Nat) : World τ F B × Option Nat :=
  w.copy C impl x

/-- `impl->move(&storage_, kMaxSize)`. -/
def move (w : World τ F B) (impl : Option Nat) (x : Nat) : World τ F B × Option Nat :=
  match impl, impl.bind w.ledger.alive with
  | some i, some o =>
    if C.sizeof o ≤ w.maxSize x then
      let moved := { w with ledger := w.ledger.set i (C.left o) }
      moved.construct C x o
    else (w.flag true, none)
  | _, _ => (w.flag true, none)

/-- `impl_->~AbstractFn()`. -/
def destroyImpl (w : World τ F B) (x i : Nat) : World τ F B :=
  ({ w with ledger := w.ledger.destroy i }.modify x fun s =>
    { s with storage := if s.storage = some i then none else s.storage }).flag
      (w.ledger.alive i).isNone

/-! ## Members -/

def clear (w : World τ F B) (x : Nat) : World τ F B :=
  match w.impl x with
  | none => w
  | some i => (w.destroyImpl x i).setImpl x none

/-- `that.impl_ != nullptr ? that.impl_->copy(&storage_, kMaxSize) : nullptr`. -/
def copyOrNull (w : World τ F B) (y x : Nat) : World τ F B × Option Nat :=
  if w.toBool y then w.copy C (w.impl y) x else (w, none)

/-- `that.impl_ != nullptr ? that.impl_->move(&storage_, kMaxSize) : nullptr`. -/
def moveOrNull (w : World τ F B) (y x : Nat) : World τ F B × Option Nat :=
  if w.toBool y then w.move C (w.impl y) x else (w, none)

/-- `impl_` becomes what the call returned. -/
def assignImpl (x : Nat) (r : World τ F B × Option Nat) : World τ F B := r.1.setImpl x r.2

/-- `SmallFn()`. -/
def new (w : World τ F B) (x maxSize : Nat) (moveOnly : Bool) : World τ F B :=
  w.put x (some { maxSize := maxSize, moveOnly := moveOnly })

/-- `SmallFn(Fn&&)`. -/
def newFn (w : World τ F B) (x maxSize : Nat) (moveOnly : Bool) (type : τ) (fn : F) :
    World τ F B :=
  assignImpl x ((w.new x maxSize moveOnly).construct C x (.of type fn))

/-- `new (&storage_) FnImpl(std::forward<Fn>(fn))` where `fn` is the function `y`, which is moved
    or copied into the implementation. -/
def wrap (w : World τ F B) (x y : Nat) (moved : Bool) : World τ F B × Option Nat :=
  match w.impl y, (w.impl y).bind w.ledger.alive with
  | none, _ => w.construct C x (.wrap (w.maxSize y) none)
  | some _, none => (w.flag true, none)
  | some i, some o =>
    if moved then
      let left := { w with ledger := w.ledger.set i (C.left o) }
      let r := left.construct C x (.wrap (w.maxSize y) (some o))
      (r.1.clear y, r.2)
    else w.construct C x (.wrap (w.maxSize y) (some o))

/-- `SmallFn(self_type&&)`. -/
def newMove (w : World τ F B) (x y : Nat) : World τ F B :=
  let w := w.new x (w.maxSize y) (w.moveOnly y)
  let r := w.moveOrNull C y x
  (r.1.clear y).setImpl x r.2

/-- `SmallFn(const self_type&)`. -/
def newCopy (w : World τ F B) (x y : Nat) : World τ F B :=
  let w := w.new x (w.maxSize y) (w.moveOnly y)
  assignImpl x (w.copyOrNull C y x)

/-- `SmallFn(Fn&&)` of a function of another type. -/
def newWrap (w : World τ F B) (x y maxSize : Nat) (moveOnly moved : Bool) : World τ F B :=
  assignImpl x ((w.new x maxSize moveOnly).wrap C x y moved)

/-- `SmallFn(SmallFn<Result(Args...), kThatSize, false>&)`. -/
def newConvert (w : World τ F B) (x y maxSize : Nat) : World τ F B :=
  let w := w.new x maxSize true
  assignImpl x (w.copyToMoveOnly C (w.impl y) x)

/-- `~SmallFn()`. -/
def delete (w : World τ F B) (x : Nat) : World τ F B :=
  let w := w.clear x
  (w.put x none).flag (w.storage x).isSome

/-- `operator=(nullptr)`. -/
def assignNull (w : World τ F B) (x : Nat) : World τ F B := w.clear x

/-- `operator=(Fn&&)`. -/
def assignFn (w : World τ F B) (x : Nat) (type : τ) (fn : F) : World τ F B :=
  assignImpl x ((w.clear x).construct C x (.of type fn))

/-- `operator=(Fn&&)` of a function of another type. -/
def assignWrap (w : World τ F B) (x y : Nat) (moved : Bool) : World τ F B :=
  assignImpl x ((w.clear x).wrap C x y moved)

/-- `operator=(self_type&&)`. -/
def moveAssign (w : World τ F B) (x y : Nat) : World τ F B :=
  if x = y then w
  else
    let w := w.clear x
    (assignImpl x (w.moveOrNull C y x)).clear y

/-- `operator=(const self_type&)`. -/
def copyAssign (w : World τ F B) (x y : Nat) : World τ F B :=
  if x = y then w
  else
    let w := w.clear x
    assignImpl x (w.copyOrNull C y x)

/-- `operator=(SmallFn<Result(Args...), kThatSize, false>&)`. -/
def assignConvert (w : World τ F B) (x y : Nat) : World τ F B :=
  let w := w.clear x
  assignImpl x (w.copyToMoveOnly C (w.impl y) x)

/-- `operator()(args...)`. -/
def call (w : World τ F B) (x : Nat) (a : A) : World τ F B :=
  match w.impl x, ((w.impl x).bind w.ledger.alive).bind (C.call · a) with
  | some i, some r =>
    { w with ledger := w.ledger.set i r.2, returned := w.returned ++ [r.1] }
  | _, _ => w.flag true

end World

/-! ## Programs -/

/-- `x` is the function that is constructed, destroyed, assigned to or called. A conversion is from
    a function of another type, which may be moved (an rvalue) or not. -/
inductive Op (τ F A : Type) where
  | new (x maxSize : Nat) (moveOnly : Bool)
  | newFn (x maxSize : Nat) (moveOnly : Bool) (type : τ) (fn : F)
  | newMove (x y : Nat)
  | newCopy (x y : Nat)
  | newConvert (x y maxSize : Nat) (moveOnly moved : Bool)
  | delete (x : Nat)
  | assignNull (x : Nat)
  | assignFn (x : Nat) (type : τ) (fn : F)
  | moveAssign (x y : Nat)
  | copyAssign (x y : Nat)
  | assignConvert (x y : Nat) (moved : Bool)
  | call (x : Nat) (a : A)

namespace World

def exists? (w : World τ F B) (x : Nat) : Bool := (w.fns x).isSome

/-- The type of `y` is that of the functions with this capacity, copyable or move-only. -/
def hasType (w : World τ F B) (y maxSize : Nat) (moveOnly : Bool) : Bool :=
  decide (w.maxSize y = maxSize ∧ w.moveOnly y = moveOnly)

/-- The members that convert are for an lvalue, and for a move-only function that has room for a
    copyable one. -/
def converts (w : World τ F B) (y maxSize : Nat) (moveOnly moved : Bool) : Bool :=
  !moved && moveOnly && !w.moveOnly y && decide (w.maxSize y ≤ maxSize)

/-- `y`, of another type, can be put into an implementation: a copyable function has to be able to
    copy it, and what is not moved is copied at once. -/
def wraps (w : World τ F B) (y maxSize : Nat) (moveOnly moved : Bool) : Bool :=
  !w.hasType y maxSize moveOnly && (moveOnly && moved || !w.moveOnly y)

/-- The construction from a callable checks its size, the assignment does not. -/
def step (w : World τ F B) : Op τ F A → Option (World τ F B)
  | .new x maxSize moveOnly => if w.exists? x then none else some (w.new x maxSize moveOnly)
  | .newFn x maxSize moveOnly type fn =>
    if !w.exists? x && decide (C.sizeofImpl type ≤ maxSize) then
      some (w.newFn C x maxSize moveOnly type fn)
    else none
  | .newMove x y => if !w.exists? x && w.exists? y then some (w.newMove C x y) else none
  | .newCopy x y =>
    if !w.exists? x && w.exists? y && !w.moveOnly y then some (w.newCopy C x y) else none
  | .newConvert x y maxSize moveOnly moved =>
    if !w.exists? x && w.exists? y then
      if w.converts y maxSize moveOnly moved then some (w.newConvert C x y maxSize)
      else if w.wraps y maxSize moveOnly moved && decide (C.sizeofSmallFn (w.maxSize y) ≤ maxSize)
      then some (w.newWrap C x y maxSize moveOnly moved)
      else none
    else none
  | .delete x => if w.exists? x then some (w.delete x) else none
  | .assignNull x => if w.exists? x then some (w.assignNull x) else none
  | .assignFn x type fn => if w.exists? x then some (w.assignFn C x type fn) else none
  | .moveAssign x y =>
    if w.exists? x && w.exists? y && w.hasType y (w.maxSize x) (w.moveOnly x) then
      some (w.moveAssign C x y)
    else none
  | .copyAssign x y =>
    if w.exists? x && w.exists? y && w.hasType y (w.maxSize x) (w.moveOnly x) && !w.moveOnly x then
      some (w.copyAssign C x y)
    else none
  | .assignConvert x y moved =>
    if w.exists? x && w.exists? y then
      if w.converts y (w.maxSize x) (w.moveOnly x) moved then some (w.assignConvert C x y)
      else if w.wraps y (w.maxSize x) (w.moveOnly x) moved then some (w.assignWrap C x y moved)
      else none
    else none
  | .call x a => if w.toBool x then some (w.call C x a) else none

end World

end Batt.SmallFunction
