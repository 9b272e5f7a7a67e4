/-
  Which programs keep `TypeErasedStorage` a value.

  `Sound` is the representation invariant of all storages: each is empty, with nothing in the
  buffer and a null pointer, or `impl_` points to the live object that the buffer holds or boxes.
  The `_eq` lemmas bring a sound world after an operation to the form of what it does to one or
  two storages. A copy calls `copy_to` through `impl_` and a move `move_to` through the buffer
  without a test, so what a program has to keep to is that it copies and moves from storages
  that hold an object (`Careful`); `value_semantics_iff` says that this is all.
-/
import Batt.Lib.Program
import Batt.TypeErasure.Model

namespace Batt.TypeErasedStorage

open Lifetime (Holder Ledger)

variable {τ V : Type} {E : Erasure τ V} {w w' : World τ V} {x y i : Nat} {o : Impl τ V}

/-- Where an object of this type is. -/
def Erasure.bufferOf (E : Erasure τ V) (t : τ) (i : Nat) : Buffer :=
  if E.fits t then .inline i else .boxed (some i)

/-- A storage is as it was constructed by default, or its buffer is where the object is that
    `impl_` points to. -/
def Erasure.holder (E : Erasure τ V) : Holder Storage (Impl τ V) where
  impl s := s.impl
  Empty s := s = {}
  Full s i o := s = { buffer := E.bufferOf o.type i, impl := some i }
  impl_of_empty h := congrArg Storage.impl h
  impl_of_full h := congrArg Storage.impl h

namespace World

/-! ## The invariant -/

structure Sound (E : Erasure τ V) (w : World τ V) : Prop where
  unmisused : w.misused = false
  held : E.holder.Sound w.storages w.ledger

/-- What the storages hold: none for one that does not exist. -/
def contents (w : World τ V) (x : Nat) : Option (Option (Impl τ V)) :=
  (w.storages x).map fun s => s.impl.bind w.ledger.alive

/-- The storage is empty. -/
def Lacks (w : World τ V) (x : Nat) : Prop := w.storages x = some {}

/-- The storage holds the object with this number. -/
def Holds (E : Erasure τ V) (w : World τ V) (x i : Nat) (o : Impl τ V) : Prop :=
  E.holder.Holds w.storages w.ledger x i o

theorem sound_empty : ({} : World τ V).Sound E := ⟨rfl, Holder.sound_empty⟩

theorem Lacks.impl (h : w.Lacks x) : w.impl x = none := by
  rw [World.impl, show w.storages x = _ from h]
  rfl

theorem Lacks.buffer (h : w.Lacks x) : w.buffer x = .raw := by
  rw [World.buffer, show w.storages x = _ from h]
  rfl

theorem Lacks.contents (h : w.Lacks x) : w.contents x = some none := by
  rw [World.contents, show w.storages x = _ from h]
  rfl

theorem Holds.storage (h : w.Holds E x i o) :
    w.storages x = some { buffer := E.bufferOf o.type i, impl := some i } := by
  obtain ⟨s, hs, rfl, -⟩ := h
  exact hs

theorem Holds.alive (h : w.Holds E x i o) : w.ledger.alive i = some o := Holder.Holds.alive h

theorem Holds.impl (h : w.Holds E x i o) : w.impl x = some i := Holder.Holds.owned h

theorem Holds.buffer (h : w.Holds E x i o) : w.buffer x = E.bufferOf o.type i := by
  rw [World.buffer, h.storage]
  rfl

theorem Holds.contents (h : w.Holds E x i o) : w.contents x = some (some o) := Holder.Holds.held h

theorem Sound.cases (h : w.Sound E) (hx : w.exists? x = true) :
    w.Lacks x ∨ ∃ i o, w.Holds E x i o := by
  obtain ⟨s, hs⟩ := Option.isSome_iff_exists.mp hx
  rcases h.held.cases x s hs with rfl | hholds
  · exact .inl hs
  · exact .inr hholds

/-! ## What the operations do -/

/-- The storage of `x` becomes `s`, and the objects become those of `l`. -/
def update (w : World τ V) (x : Nat) (s : Option Storage) (l : Ledger (Impl τ V)) : World τ V :=
  { w with storages := Function.update w.storages x s, ledger := l }

@[simp] theorem update_self (w : World τ V) (x : Nat) (s : Option Storage)
    (l : Ledger (Impl τ V)) : (w.update x s l).storages x = s :=
  Function.update_self _ _ _

theorem update_other (w : World τ V) (s : Option Storage) (l : Ledger (Impl τ V)) (hne : y ≠ x) :
    (w.update x s l).storages y = w.storages y :=
  Function.update_of_ne hne _ _

theorem impl_update (w : World τ V) (s : Option Storage) (l : Ledger (Impl τ V)) (hne : y ≠ x) :
    (w.update x s l).impl y = w.impl y :=
  congrArg (Option.bind · _) (update_other w s l hne)

theorem Holds.update {s : Option Storage} {l : Ledger (Impl τ V)} (h : w.Holds E y i o)
    (hne : y ≠ x) (hl : l.alive i = w.ledger.alive i) : (w.update x s l).Holds E y i o :=
  Holder.Holds.update h s hne hl

theorem Lacks.update {s : Option Storage} {l : Ledger (Impl τ V)} (h : w.Lacks y) (hne : y ≠ x) :
    (w.update x s l).Lacks y :=
  (update_other w s l hne).trans h

/-- The object of the storage is destroyed. -/
def destroyed (w : World τ V) (x i : Nat) : World τ V :=
  w.update x (some {}) (w.ledger.destroy i)

/-- The storage gets a new object. -/
def filled (E : Erasure τ V) (w : World τ V) (x : Nat) (o : Impl τ V) : World τ V :=
  w.update x
    (some { buffer := E.bufferOf o.type w.ledger.made, impl := some w.ledger.made })
    (w.ledger.make o)

/-- The object of the storage changes. -/
def changed (w : World τ V) (i : Nat) (o : Impl τ V) : World τ V :=
  { w with ledger := w.ledger.set i o }

/-- A box changes hands. -/
def passed (w : World τ V) (x y i : Nat) : World τ V :=
  (w.update x (some { buffer := .boxed (some i), impl := some i }) w.ledger).update y (some {})
    w.ledger

theorem Sound.destroyed (h : w.Sound E) (hx : w.Holds E x i o) : (w.destroyed x i).Sound E :=
  ⟨h.unmisused, h.held.destroy hx rfl⟩

theorem Sound.contents_destroyed (h : w.Sound E) (hx : w.Holds E x i o) :
    (w.destroyed x i).contents = Function.update w.contents x (some none) :=
  h.held.held_destroy hx rfl

theorem Sound.filled (h : w.Sound E) (hx : w.impl x = none) (o : Impl τ V) :
    (w.filled E x o).Sound E :=
  ⟨h.unmisused, h.held.make hx rfl⟩

theorem Sound.contents_filled (h : w.Sound E) (o : Impl τ V) :
    (w.filled E x o).contents = Function.update w.contents x (some (some o)) :=
  h.held.held_make (R := E.holder) rfl

theorem Holds.changed (hx : w.Holds E x i o) (v : V) :
    (w.changed i { o with obj := v }).Holds E x i { o with obj := v } :=
  Holder.Holds.set hx fun _ hs => hs

theorem Sound.changed (h : w.Sound E) (hx : w.Holds E x i o) (v : V) :
    (w.changed i { o with obj := v }).Sound E :=
  ⟨h.unmisused, h.held.set hx fun _ hs => hs⟩

theorem Sound.contents_changed (h : w.Sound E) (hx : w.Holds E x i o) (v : V) :
    (w.changed i { o with obj := v }).contents =
      Function.update w.contents x (some (some { o with obj := v })) :=
  h.held.held_set hx _

theorem Sound.new (h : w.Sound E) (hx : w.impl x = none) : (w.new x).Sound E :=
  ⟨h.unmisused, h.held.add hx rfl⟩

theorem contents_new (E : Erasure τ V) (w : World τ V) (x : Nat) :
    (w.new x).contents = Function.update w.contents x (some none) :=
  Holder.held_add (R := E.holder) rfl

/-- An empty storage goes. -/
theorem Sound.removed (h : w.Sound E) (hx : w.impl x = none) : (w.put x none).Sound E :=
  ⟨h.unmisused, h.held.remove hx⟩

theorem contents_removed (E : Erasure τ V) (w : World τ V) (x : Nat) :
    (w.put x none).contents = Function.update w.contents x none :=
  Holder.held_remove (R := E.holder)

theorem Sound.passed (h : w.Sound E) (hne : x ≠ y) (hx : w.impl x = none) (hy : w.Holds E y i o)
    (hbox : E.fits o.type = false) : (w.passed x y i).Sound E := by
  refine ⟨h.unmisused, h.held.pass hne hx hy ?_ rfl⟩
  change _ = Storage.mk (E.bufferOf o.type i) (some i)
  rw [Erasure.bufferOf, hbox]
  rfl

theorem contents_passed (hy : w.Holds E y i o) (hbox : E.fits o.type = false) :
    (w.passed x y i).contents =
      Function.update (Function.update w.contents x (some (some o))) y (some none) := by
  refine Holder.held_pass (R := E.holder) hy ?_ rfl
  change _ = Storage.mk (E.bufferOf o.type i) (some i)
  rw [Erasure.bufferOf, hbox]
  rfl

/-! ## The members -/

@[simp] theorem flag_false (w : World τ V) : w.flag false = w := by
  unfold flag
  rw [Bool.or_false]

theorem clear_of_impl (hx : w.impl x = none) : w.clear x = w := by
  rw [clear, isValid, hx]
  rfl

theorem clear_of_holds (hx : w.Holds E x i o) : w.clear x = w.destroyed x i := by
  have hvalid : w.isValid x = true := by
    rw [isValid, hx.impl]
    rfl
  have hdestroy : w.destroyAbstract x = (w.destroyObject i).setBuffer x .raw := by
    rw [destroyAbstract, hx.buffer, Erasure.bufferOf]
    cases E.fits o.type <;> rfl
  rw [clear, if_pos hvalid, hdestroy, destroyObject, hx.alive]
  simp [setImpl, setBuffer, modify, put, destroyed, update, flag, hx.storage]

theorem constructImpl_eq (hx : w.Lacks x) (o : Impl τ V) :
    w.constructImpl E x o =
      (w.update x (some { buffer := E.bufferOf o.type w.ledger.made }) (w.ledger.make o),
        some w.ledger.made) := by
  have hraw : ∀ l : Ledger (Impl τ V), ({ w with ledger := l } : World τ V).buffer x = .raw :=
    fun _ => hx.buffer
  have hstorage : w.storages x = some {} := hx
  unfold constructImpl Erasure.bufferOf
  cases E.fits o.type <;>
    simp [place, hraw, setBuffer, modify, put, update, hstorage]

theorem construct_eq (hx : w.Lacks x) (o : Impl τ V) : w.construct E x o = w.filled E x o := by
  rw [construct, constructImpl_eq hx]
  simp [setImpl, modify, put, update, filled]

/-! ### Copies -/

theorem copyTo_of_holds (hy : w.Holds E y i o) (throws : Bool) :
    w.copyTo E (w.impl y) x throws =
      if throws then (w, none)
      else ((w.constructImpl E x o).1, some (w.constructImpl E x o).2) := by
  rw [copyTo, hy.impl, Option.bind_some, hy.alive]

theorem copyTo_of_impl (hy : w.impl y = none) (throws : Bool) :
    w.copyTo E (w.impl y) x throws = (w.flag true, some none) := by
  rw [copyTo, hy]
  rfl

theorem Holds.new (hy : w.Holds E y i o) (hne : y ≠ x) : (w.new x).Holds E y i o :=
  Holds.update hy hne rfl

theorem newCopy_eq (hy : w.Holds E y i o) (hne : x ≠ y) (throws : Bool) :
    w.newCopy E x y throws =
      if throws then (w.new x).put x none else (w.new x).filled E x o := by
  have hlacks : (w.new x).Lacks x := update_self _ _ _ _
  unfold newCopy
  simp only [copyTo_of_holds (hy.new hne.symm)]
  cases throws with
  | true => rfl
  | false => exact construct_eq hlacks o

/-- A copy of an empty storage is a call through a null pointer. -/
theorem newCopy_misused (hy : w.impl y = none) (hne : x ≠ y) (throws : Bool) :
    (w.newCopy E x y throws).misused = true := by
  have himpl : (w.new x).impl y = none := by
    exact (impl_update w (some {}) w.ledger hne.symm).trans hy
  unfold newCopy
  simp only [copyTo_of_impl himpl]
  exact Bool.or_true _

/-- The storage of an assignment, emptied. -/
theorem Sound.cleared (h : w.Sound E) (hx : w.exists? x = true) :
    (w.clear x).Sound E ∧ (w.clear x).Lacks x ∧
      (w.clear x).contents = Function.update w.contents x (some none) ∧
      (∀ y, y ≠ x → (w.clear x).storages y = w.storages y) ∧
      ∀ y i o, y ≠ x → w.Holds E y i o → (w.clear x).Holds E y i o := by
  rcases h.cases hx with hlacks | ⟨i, o, hholds⟩
  · rw [clear_of_impl hlacks.impl]
    refine ⟨h, hlacks, ?_, fun _ _ => rfl, fun _ _ _ _ hy => hy⟩
    rw [← hlacks.contents, Function.update_eq_self]
  · rw [clear_of_holds hholds]
    refine ⟨h.destroyed hholds, update_self _ _ _ _, h.contents_destroyed hholds,
      fun y hne => update_other _ _ _ hne, fun y j o' hne hy => ?_⟩
    exact hy.update hne (Function.update_of_ne (h.held.ne hholds hy hne) _ _)

theorem copyAssign_eq (h : w.Sound E) (hx : w.exists? x = true) (hy : w.Holds E y i o)
    (hne : x ≠ y) (throws : Bool) :
    w.copyAssign E x y throws = if throws then w.clear x else (w.clear x).filled E x o := by
  obtain ⟨-, hlacks, -, -, hother⟩ := h.cleared hx
  unfold copyAssign
  simp only [if_neg hne, copyTo_of_holds (hother y i o hne.symm hy)]
  cases throws with
  | true => rfl
  | false => exact construct_eq hlacks o

theorem copyAssign_misused (h : w.Sound E) (hx : w.exists? x = true) (hy : w.impl y = none)
    (hne : x ≠ y) (throws : Bool) : (w.copyAssign E x y throws).misused = true := by
  obtain ⟨-, -, -, hother, -⟩ := h.cleared hx
  have himpl : (w.clear x).impl y = none := by
    rw [impl, hother y hne.symm]
    exact hy
  unfold copyAssign
  simp only [if_neg hne, copyTo_of_impl himpl]
  exact Bool.or_true _

/-! ### Moves -/

theorem moveTo_of_impl (hy : w.Lacks y) (left : Option V) :
    w.moveTo E y x left = (w.flag true, some none) := by
  rw [moveTo, hy.buffer]

/-- What the members do with what `move_to` returns. -/
def takeOver (x y : Nat) (failed : World τ V → World τ V)
    (r : World τ V × Option (Option Nat)) : World τ V :=
  match r.2 with
  | none => failed r.1
  | some p => (r.1.setImpl x p).clear y

theorem newMove_eq (w : World τ V) (x y : Nat) (left : Option V) :
    w.newMove E x y left = takeOver x y (·.put x none) ((w.new x).moveTo E y x left) := rfl

theorem moveAssign_eq (w : World τ V) (hne : x ≠ y) (left : Option V) :
    w.moveAssign E x y left = takeOver x y id ((w.clear x).moveTo E y x left) := if_neg hne

/-- A move constructor throws. -/
theorem takeOver_throws (hy : w.Holds E y i o) (hfits : E.fits o.type = true) (v : V)
    (failed : World τ V → World τ V) :
    takeOver x y failed (w.moveTo E y x (some v)) = failed (w.changed i { o with obj := v }) := by
  have hbuffer : w.buffer y = .inline i := by
    rw [hy.buffer, Erasure.bufferOf, hfits]
    rfl
  rw [moveTo, hbuffer]
  simp only [hy.alive]
  rfl

/-- The object in the buffer is moved, and what is left of it destroyed. -/
theorem takeOver_inline (h : w.Sound E) (hx : w.Lacks x) (hy : w.Holds E y i o) (hne : x ≠ y)
    (hfits : E.fits o.type = true) (failed : World τ V → World τ V) :
    takeOver x y failed (w.moveTo E y x none) =
      ((w.changed i { o with obj := E.movedFrom o.obj }).filled E x o).destroyed y i := by
  have hbuffer : w.buffer y = .inline i := by
    rw [hy.buffer, Erasure.bufferOf, hfits]
    rfl
  have hlacks : (w.changed i { o with obj := E.movedFrom o.obj }).Lacks x := hx
  have hholds : ((w.changed i { o with obj := E.movedFrom o.obj }).filled E x o).Holds E y i
      { o with obj := E.movedFrom o.obj } :=
    (hy.changed _).update hne.symm (Function.update_of_ne (h.held.tracked.lt_made hy.alive).ne _ _)
  rw [moveTo, hbuffer]
  simp only [hy.alive]
  exact (congrArg (clear · y) (construct_eq hlacks o)).trans (clear_of_holds hholds)

theorem modify_eq {s : Storage} (hx : w.storages x = some s) (f : Storage → Storage) :
    w.modify x f = w.update x (some (f s)) w.ledger := by
  rw [modify, hx]
  rfl

theorem update_update (w : World τ V) (x : Nat) (s s' : Option Storage)
    (l l' : Ledger (Impl τ V)) : (w.update x s l).update x s' l' = w.update x s' l' := by
  simp only [update, Function.update_idem]

theorem update_comm (w : World τ V) (hne : x ≠ y) (s s' : Option Storage)
    (l : Ledger (Impl τ V)) :
    (w.update x s l).update y s' l = (w.update y s' l).update x s l := by
  simp only [update, Function.update_comm hne]

/-- The box is moved, and an empty one is left to be destroyed. -/
theorem takeOver_boxed (hx : w.Lacks x) (hy : w.Holds E y i o) (hne : x ≠ y)
    (hbox : E.fits o.type = false) (left : Option V) (failed : World τ V → World τ V) :
    takeOver x y failed (w.moveTo E y x left) = w.passed x y i := by
  have hbuffer : w.buffer y = .boxed (some i) := by
    rw [hy.buffer, Erasure.bufferOf, hbox]
    rfl
  have hplace : w.place x (.boxed (some i)) =
      w.update x (some { buffer := .boxed (some i) }) w.ledger := by
    rw [place, hx.buffer, setBuffer, modify_eq hx]
    exact flag_false _
  have hstorage : w.storages y = some { buffer := .boxed (some i), impl := some i } := by
    rw [hy.storage, Erasure.bufferOf, hbox]
    rfl
  -- the four changes, each at the storage as the one before left it
  have hboth : ((w.place x (.boxed (some i))).setBuffer y (.boxed none)).setImpl x (some i) =
      (w.update x (some { buffer := .boxed (some i), impl := some i }) w.ledger).update y
        (some { buffer := .boxed none, impl := some i }) w.ledger := by
    rw [hplace, setBuffer, modify_eq ((update_other _ _ _ hne.symm).trans hstorage), setImpl,
      modify_eq ((update_other _ _ _ hne).trans (update_self _ _ _ _))]
    change ((w.update x _ w.ledger).update y _ w.ledger).update x _ w.ledger = _
    rw [← update_comm _ hne, update_update]
  rw [moveTo, hbuffer]
  change (((w.place x (.boxed (some i))).setBuffer y (.boxed none)).setImpl x (some i)).clear y = _
  rw [hboth, clear, isValid, destroyAbstract, impl, buffer, update_self]
  simp only [Option.map_some, Option.getD_some, Option.bind_some, Option.isSome_some, if_true]
  rw [setBuffer, modify_eq (update_self _ _ _ _), setImpl, modify_eq (update_self _ _ _ _),
    update_update, update_update]
  rfl

end World

/-! ## Programs -/

/-- What the storages hold. -/
abbrev Contents (τ V : Type) := Nat → Option (Option (Impl τ V))

/-- What `y` holds is moved to `x`, but for a move constructor that throws: then `x` is `failed`. -/
def handedOver (E : Erasure τ V) (c : Contents τ V) (x y : Nat) (left : Option V)
    (failed : Option (Option (Impl τ V))) : Contents τ V :=
  match c y with
  | some (some o) =>
    match E.fits o.type, left with
    | true, some v =>
      Function.update (Function.update c x failed) y (some (some { o with obj := v }))
    | _, _ => Function.update (Function.update c x (some (some o))) y (some none)
  | a => Function.update (Function.update c x a) y (some none)

section HandedOver

variable {c : Contents τ V} {left : Option V} {failed : Option (Option (Impl τ V))}

theorem handedOver_throws (hy : c y = some (some o)) (hfits : E.fits o.type = true) (v : V) :
    handedOver E c x y (some v) failed =
      Function.update (Function.update c x failed) y (some (some { o with obj := v })) := by
  simp only [handedOver, hy, hfits]

theorem handedOver_boxed (hy : c y = some (some o)) (hfits : E.fits o.type = false) :
    handedOver E c x y left failed =
      Function.update (Function.update c x (some (some o))) y (some none) := by
  simp only [handedOver, hy, hfits]

theorem handedOver_none (hy : c y = some (some o)) :
    handedOver E c x y none failed =
      Function.update (Function.update c x (some (some o))) y (some none) := by
  cases hfits : E.fits o.type <;> simp only [handedOver, hy, hfits]

/-- What `x` held before does not matter. -/
theorem handedOver_update (hne : x ≠ y) (b : Option (Option (Impl τ V))) :
    handedOver E (Function.update c x b) x y left failed = handedOver E c x y left failed := by
  unfold handedOver
  rw [Function.update_of_ne hne.symm]
  simp only [Function.update_idem]

end HandedOver

/-- An operation on values that each storage has for itself. -/
def intended (E : Erasure τ V) (c : Contents τ V) : Op τ V → Contents τ V
  | .new x => Function.update c x (some none)
  | .newValue x o => Function.update c x (some (some o))
  | .newCopy x y throws => Function.update c x (if throws then none else c y)
  | .newMove x y left => handedOver E c x y left none
  | .delete x => Function.update c x none
  | .emplace x o throws => Function.update c x (some (if throws then none else some o))
  | .clear x => Function.update c x (some none)
  | .copyAssign x y throws =>
    if x = y then c else Function.update c x (if throws then some none else c y)
  | .moveAssign x y left => if x = y then c else handedOver E c x y left (some none)
  | .write x v => Function.update c x ((c x).map (·.map fun o => { o with obj := v }))

namespace World

/-- Copies and moves are from storages that hold an object. -/
def Careful (w : World τ V) : Op τ V → Prop
  | .newCopy _ y _ | .newMove _ y _ => w.isValid y = true
  | .copyAssign x y _ | .moveAssign x y _ => x ≠ y → w.isValid y = true
  | _ => True

/-- An operation leaves a sound world and does what it is for. -/
def Keeps (E : Erasure τ V) (w : World τ V) (op : Op τ V) (w' : World τ V) : Prop :=
  w'.Sound E ∧ w'.contents = intended E w.contents op

theorem ne_of_exists (hx : w.exists? x = false) (hy : w.exists? y = true) : x ≠ y := by
  rintro rfl
  rw [hx] at hy
  cases hy

theorem impl_of_not_exists (hx : w.exists? x = false) : w.impl x = none := by
  rw [exists?, Option.isSome_eq_false_iff, Option.isNone_iff_eq_none] at hx
  rw [impl, hx]
  rfl

theorem Sound.holds_of_isValid (h : w.Sound E) (hx : w.isValid x = true) :
    ∃ i o, w.Holds E x i o := by
  have hexists : w.exists? x = true := by
    by_contra hno
    rw [isValid, impl_of_not_exists (Bool.eq_false_iff.mpr hno)] at hx
    cases hx
  rcases h.cases hexists with hlacks | hholds
  · rw [isValid, hlacks.impl] at hx
    cases hx
  · exact hholds

theorem Sound.lacks_of_not_isValid (h : w.Sound E) (hx : w.exists? x = true)
    (hvalid : ¬w.isValid x = true) : w.Lacks x := by
  rcases h.cases hx with hlacks | ⟨i, o, hholds⟩
  · exact hlacks
  · rw [isValid, hholds.impl] at hvalid
    exact absurd rfl hvalid

theorem keeps_emplace (h : w.Sound E) (hx : w.exists? x = true) (o : Impl τ V) (throws : Bool) :
    Keeps E w (.emplace x o throws) (w.emplace E x o throws) := by
  obtain ⟨hsound, hlacks, hcontents, -, -⟩ := h.cleared hx
  cases throws with
  | true => exact ⟨hsound, hcontents⟩
  | false =>
    have heq : w.emplace E x o false = (w.clear x).filled E x o := construct_eq hlacks o
    rw [heq]
    refine ⟨hsound.filled hlacks.impl o, ?_⟩
    rw [hsound.contents_filled, hcontents, Function.update_idem]
    rfl

theorem exists_new (w : World τ V) (x : Nat) : (w.new x).exists? x = true := by
  have hlacks : (w.new x).Lacks x := update_self _ _ _ _
  rw [exists?, show (w.new x).storages x = some {} from hlacks]
  rfl

theorem keeps_newValue (h : w.Sound E) (hx : w.exists? x = false) (o : Impl τ V) :
    Keeps E w (.newValue x o) (w.newValue E x o) := by
  have hnew := h.new (impl_of_not_exists hx)
  obtain ⟨hsound, hcontents⟩ := keeps_emplace hnew (exists_new w x) o false
  refine ⟨hsound, hcontents.trans ?_⟩
  rw [contents_new E]
  exact Function.update_idem _ _ _

theorem keeps_delete (h : w.Sound E) (hx : w.exists? x = true) :
    Keeps E w (.delete x) (w.delete x) := by
  obtain ⟨hsound, hlacks, hcontents, -, -⟩ := h.cleared hx
  have heq : w.delete x = (w.clear x).put x none := by
    rw [delete]
    simp only [hlacks.buffer]
    exact flag_false _
  rw [heq]
  refine ⟨hsound.removed hlacks.impl, ?_⟩
  rw [contents_removed E, hcontents, Function.update_idem]
  rfl

theorem keeps_newCopy (h : w.Sound E) (hx : w.exists? x = false) (hy : w.Holds E y i o)
    (hne : x ≠ y) (throws : Bool) : Keeps E w (.newCopy x y throws) (w.newCopy E x y throws) := by
  have hnew := h.new (impl_of_not_exists hx)
  have hlacks : (w.new x).Lacks x := update_self _ _ _ _
  rw [newCopy_eq hy hne]
  cases throws with
  | true =>
    refine ⟨hnew.removed hlacks.impl, ?_⟩
    rw [if_pos rfl, contents_removed E, contents_new E, Function.update_idem]
    rfl
  | false =>
    refine ⟨hnew.filled hlacks.impl o, ?_⟩
    rw [if_neg Bool.false_ne_true, hnew.contents_filled, contents_new E, Function.update_idem,
      intended, hy.contents]
    rfl

theorem keeps_copyAssign (h : w.Sound E) (hx : w.exists? x = true) (hy : w.Holds E y i o)
    (hne : x ≠ y) (throws : Bool) :
    Keeps E w (.copyAssign x y throws) (w.copyAssign E x y throws) := by
  obtain ⟨hsound, hlacks, hcontents, -, -⟩ := h.cleared hx
  rw [copyAssign_eq h hx hy hne]
  cases throws with
  | true =>
    refine ⟨hsound, ?_⟩
    rw [if_pos rfl, hcontents, intended, if_neg hne]
    rfl
  | false =>
    refine ⟨hsound.filled hlacks.impl o, ?_⟩
    rw [if_neg Bool.false_ne_true, hsound.contents_filled, hcontents, Function.update_idem,
      intended, if_neg hne, hy.contents]
    rfl

/-- A move into a storage that is there and empty. -/
theorem keeps_takeOver (h : w.Sound E) (hx : w.Lacks x) (hy : w.Holds E y i o) (hne : x ≠ y)
    (left : Option V) (failed : World τ V → World τ V) (a : Option (Option (Impl τ V)))
    (hfailed : ∀ w : World τ V, w.Sound E → w.Lacks x →
      (failed w).Sound E ∧ (failed w).contents = Function.update w.contents x a) :
    (takeOver x y failed (w.moveTo E y x left)).Sound E ∧
      (takeOver x y failed (w.moveTo E y x left)).contents =
        handedOver E w.contents x y left a := by
  cases hfits : E.fits o.type with
  | false =>
    rw [takeOver_boxed hx hy hne hfits, handedOver_boxed hy.contents hfits]
    exact ⟨h.passed hne hx.impl hy hfits, contents_passed hy hfits⟩
  | true =>
    cases left with
    | some v =>
      rw [takeOver_throws hy hfits, handedOver_throws hy.contents hfits]
      obtain ⟨hsound, hcontents⟩ := hfailed _ (h.changed hy v) hx
      refine ⟨hsound, ?_⟩
      rw [hcontents, h.contents_changed hy, Function.update_comm hne]
    | none =>
      have hchanged := h.changed hy (E.movedFrom o.obj)
      have hfilled := hchanged.filled (x := x) hx.impl o
      have hholds : ((w.changed i { o with obj := E.movedFrom o.obj }).filled E x o).Holds E y i
          { o with obj := E.movedFrom o.obj } :=
        (hy.changed _).update hne.symm (Function.update_of_ne (h.held.tracked.lt_made hy.alive).ne _ _)
      rw [takeOver_inline h hx hy hne hfits, handedOver_none hy.contents]
      refine ⟨hfilled.destroyed hholds, ?_⟩
      rw [hfilled.contents_destroyed hholds, hchanged.contents_filled, h.contents_changed hy,
        Function.update_comm hne, Function.update_idem, Function.update_comm hne.symm]

theorem keeps_newMove (h : w.Sound E) (hx : w.exists? x = false) (hy : w.Holds E y i o)
    (hne : x ≠ y) (left : Option V) :
    Keeps E w (.newMove x y left) (w.newMove E x y left) := by
  have hnew := h.new (impl_of_not_exists hx)
  rw [newMove_eq]
  obtain ⟨hsound, hcontents⟩ := keeps_takeOver hnew (update_self _ _ _ _) (hy.new hne.symm) hne
    left (·.put x none) none fun w' hw' hlacks =>
      ⟨hw'.removed hlacks.impl, contents_removed E w' x⟩
  rw [contents_new E, handedOver_update hne] at hcontents
  exact ⟨hsound, hcontents⟩

theorem keeps_moveAssign (h : w.Sound E) (hx : w.exists? x = true) (hy : w.Holds E y i o)
    (hne : x ≠ y) (left : Option V) :
    Keeps E w (.moveAssign x y left) (w.moveAssign E x y left) := by
  obtain ⟨hsound, hlacks, hcontents, -, hother⟩ := h.cleared hx
  have hy' := hother y i o hne.symm hy
  rw [moveAssign_eq _ hne]
  obtain ⟨hsound', hcontents'⟩ := keeps_takeOver hsound hlacks hy' hne left id (some none)
    fun w' hw' hlacks' => ⟨hw', by rw [← hlacks'.contents, Function.update_eq_self]; rfl⟩
  rw [hcontents, handedOver_update hne] at hcontents'
  exact ⟨hsound', hcontents'.trans (if_neg hne).symm⟩

theorem impl_setImpl (w : World τ V) (p : Option Nat) (hne : y ≠ x) :
    (w.setImpl x p).impl y = w.impl y := by
  rw [impl, setImpl, modify, put, impl]
  exact congrArg (Option.bind · _) (Function.update_of_ne hne _ _)

/-- A move from an empty storage is a call through a dead buffer. -/
theorem takeOver_misused (hy : w.Lacks y) (hne : x ≠ y) (left : Option V)
    (failed : World τ V → World τ V) :
    (takeOver x y failed (w.moveTo E y x left)).misused = true := by
  have himpl : ((w.flag true).setImpl x none).impl y = none := by
    rw [impl_setImpl _ _ hne.symm]
    exact hy.impl
  rw [moveTo_of_impl hy, takeOver]
  simp only
  rw [clear_of_impl himpl]
  exact Bool.or_true _

theorem newMove_misused (hy : w.Lacks y) (hne : x ≠ y) (left : Option V) :
    (w.newMove E x y left).misused = true := by
  rw [newMove_eq]
  exact takeOver_misused (hy.update hne.symm) hne left _

theorem moveAssign_misused (h : w.Sound E) (hx : w.exists? x = true) (hy : w.Lacks y)
    (hne : x ≠ y) (left : Option V) : (w.moveAssign E x y left).misused = true := by
  obtain ⟨-, -, -, hother, -⟩ := h.cleared hx
  rw [moveAssign_eq _ hne]
  exact takeOver_misused ((hother y hne.symm).trans hy) hne left id

theorem keeps_write (h : w.Sound E) (hx : w.Holds E x i o) (v : V) :
    Keeps E w (.write x v) (w.write x v) := by
  have heq : w.write x v = w.changed i { o with obj := v } := by
    rw [write, hx.impl]
    simp only [hx.alive]
    rfl
  rw [heq]
  refine ⟨h.changed hx v, ?_⟩
  rw [h.contents_changed hx, intended, hx.contents]
  rfl

/-- **One step**: an operation on a sound world keeps it sound, with the effect that it is for, if
    and only if it is careful. -/
theorem Sound.step {op : Op τ V} (h : w.Sound E) (hstep : w.step E op = some w') :
    (w'.Sound E ↔ w.Careful op) ∧
      (w'.Sound E → w'.contents = intended E w.contents op) := by
  have hkeeps : ∀ {w'}, Keeps E w op w' → w.Careful op → (w'.Sound E ↔ w.Careful op) ∧
      (w'.Sound E → w'.contents = intended E w.contents op) := fun hk hc =>
    ⟨iff_of_true hk.1 hc, fun _ => hk.2⟩
  have hmisused : ∀ {w' : World τ V}, w'.misused = true → ¬w.Careful op →
      (w'.Sound E ↔ w.Careful op) ∧ (w'.Sound E → w'.contents = intended E w.contents op) := by
    intro w' hm hc
    have hno : ¬w'.Sound E := fun hs => by
      rw [hs.unmisused] at hm
      cases hm
    exact ⟨iff_of_false hno hc, fun hs => absurd hs hno⟩
  cases op with
  | new x =>
    simp only [World.step, Option.ite_none_left_eq_some, Option.some.injEq] at hstep
    obtain ⟨hx, rfl⟩ := hstep
    exact hkeeps ⟨h.new (impl_of_not_exists (Bool.eq_false_iff.mpr hx)), contents_new E w x⟩ trivial
  | newValue x o =>
    simp only [World.step, Option.ite_none_left_eq_some, Option.some.injEq] at hstep
    obtain ⟨hx, rfl⟩ := hstep
    exact hkeeps (keeps_newValue h (Bool.eq_false_iff.mpr hx) o) trivial
  | newCopy x y throws =>
    simp only [World.step, Option.ite_none_right_eq_some, Option.some.injEq, Bool.and_eq_true,
      Bool.not_eq_true'] at hstep
    obtain ⟨⟨hx, hy⟩, rfl⟩ := hstep
    have hne := ne_of_exists hx hy
    by_cases hvalid : w.isValid y = true
    · obtain ⟨i, o, hholds⟩ := h.holds_of_isValid hvalid
      exact hkeeps (keeps_newCopy h hx hholds hne throws) hvalid
    · exact hmisused (newCopy_misused (h.lacks_of_not_isValid hy hvalid).impl hne throws) hvalid
  | newMove x y left =>
    simp only [World.step, Option.ite_none_right_eq_some, Option.some.injEq, Bool.and_eq_true,
      Bool.not_eq_true'] at hstep
    obtain ⟨⟨hx, hy⟩, rfl⟩ := hstep
    have hne := ne_of_exists hx hy
    by_cases hvalid : w.isValid y = true
    · obtain ⟨i, o, hholds⟩ := h.holds_of_isValid hvalid
      exact hkeeps (keeps_newMove h hx hholds hne left) hvalid
    · exact hmisused (newMove_misused (h.lacks_of_not_isValid hy hvalid) hne left) hvalid
  | delete x =>
    simp only [World.step, Option.ite_none_right_eq_some, Option.some.injEq] at hstep
    obtain ⟨hx, rfl⟩ := hstep
    exact hkeeps (keeps_delete h hx) trivial
  | emplace x o throws =>
    simp only [World.step, Option.ite_none_right_eq_some, Option.some.injEq] at hstep
    obtain ⟨hx, rfl⟩ := hstep
    exact hkeeps (keeps_emplace h hx o throws) trivial
  | clear x =>
    simp only [World.step, Option.ite_none_right_eq_some, Option.some.injEq] at hstep
    obtain ⟨hx, rfl⟩ := hstep
    obtain ⟨hsound, -, hcontents, -, -⟩ := h.cleared hx
    exact hkeeps ⟨hsound, hcontents⟩ trivial
  | copyAssign x y throws =>
    simp only [World.step, Option.ite_none_right_eq_some, Option.some.injEq, Bool.and_eq_true]
      at hstep
    obtain ⟨⟨hx, hy⟩, rfl⟩ := hstep
    by_cases hne : x = y
    · rw [copyAssign, if_pos hne]
      exact hkeeps ⟨h, (if_pos hne).symm⟩ fun hn => absurd hne hn
    by_cases hvalid : w.isValid y = true
    · obtain ⟨i, o, hholds⟩ := h.holds_of_isValid hvalid
      exact hkeeps (keeps_copyAssign h hx hholds hne throws) fun _ => hvalid
    · exact hmisused (copyAssign_misused h hx (h.lacks_of_not_isValid hy hvalid).impl hne throws)
        fun hc => hvalid (hc hne)
  | moveAssign x y left =>
    simp only [World.step, Option.ite_none_right_eq_some, Option.some.injEq, Bool.and_eq_true]
      at hstep
    obtain ⟨⟨hx, hy⟩, rfl⟩ := hstep
    by_cases hne : x = y
    · rw [moveAssign, if_pos hne]
      exact hkeeps ⟨h, (if_pos hne).symm⟩ fun hn => absurd hne hn
    by_cases hvalid : w.isValid y = true
    · obtain ⟨i, o, hholds⟩ := h.holds_of_isValid hvalid
      exact hkeeps (keeps_moveAssign h hx hholds hne left) fun _ => hvalid
    · exact hmisused (moveAssign_misused h hx (h.lacks_of_not_isValid hy hvalid) hne left)
        fun hc => hvalid (hc hne)
  | write x v =>
    simp only [World.step, Option.ite_none_right_eq_some, Option.some.injEq] at hstep
    obtain ⟨hvalid, rfl⟩ := hstep
    obtain ⟨i, o, hholds⟩ := h.holds_of_isValid hvalid
    exact hkeeps (keeps_write h hholds v) trivial

end World

/-! ## The result -/

/-- The state after the operations `pre` is that of values: a sound world, in which the storages
    hold what the operations are for, and nothing is destroyed twice or left. -/
structure ValueSemantics (E : Erasure τ V) (pre : List (Op τ V)) (w : World τ V) : Prop where
  sound : w.Sound E
  contents : w.contents = pre.foldl (intended E) fun _ => none
  null_iff : ∀ x, w.exists? x = true → (w.impl x = none ↔ w.contents x = some none)
  once : ∀ i, w.ledger.destroyed i ≤ 1
  all : (∀ x, w.exists? x = false) → ∀ i, i < w.ledger.made → w.ledger.destroyed i = 1

theorem valueSemantics_iff {pre : List (Op τ V)} :
    ValueSemantics E pre w ↔
      w.Sound E ∧ w.contents = pre.foldl (intended E) fun _ => none := by
  constructor
  · intro h
    exact ⟨h.sound, h.contents⟩
  · rintro ⟨hsound, hcontents⟩
    refine ⟨hsound, hcontents, fun x hx => ?_, hsound.held.tracked.destroyed_le, fun hnone i hi => ?_⟩
    · rcases hsound.cases hx with hlacks | ⟨i, o, hholds⟩
      · exact iff_of_true hlacks.impl hlacks.contents
      · rw [hholds.impl, hholds.contents]
        exact iff_of_false nofun nofun
    · exact hsound.held.tracked.destroyed_of_none (fun x => World.impl_of_not_exists (hnone x)) hi

/-- **Storages are values exactly in the programs that copy and move from those that hold an
    object.** -/
theorem value_semantics_iff (E : Erasure τ V) (ops : List (Op τ V)) :
    (∀ pre w, pre <+: ops → Program.exec (World.step E) {} pre = some w →
        ValueSemantics E pre w) ↔
      ∀ pre op w w', pre ++ [op] <+: ops → Program.exec (World.step E) {} pre = some w →
        w.step E op = some w' → w.Careful op := by
  simp only [valueSemantics_iff]
  exact Program.refines_iff_careful (World.Sound E) World.contents
    World.sound_empty (fun h hs => (h.step hs).1) (fun h hs => (h.step hs).2) ops

/-- `int` in the default storage. -/
def intErasure : Erasure Unit Nat := { sizeofImpl := fun _ => 16, reservedSize := 56, movedFrom := id }

/-- A default-constructed storage is copied, or moved, and one that was moved from is copied. -/
theorem empty_source_misused :
    (¬∀ (ops pre : List (Op Unit Nat)) (w : World Unit Nat), pre <+: ops →
      Program.exec (World.step intErasure) {} pre = some w → ValueSemantics intErasure pre w) ∧
    (Program.exec (World.step intErasure) {} [.new 0, .newCopy 1 0 false]).map (·.misused) =
      some true ∧
    (Program.exec (World.step intErasure) {} [.new 0, .newMove 1 0 none]).map (·.misused) =
      some true ∧
    (Program.exec (World.step intErasure) {}
      [.newValue 0 ⟨(), 7⟩, .newMove 1 0 none, .copyAssign 1 0 false]).map (·.misused) =
      some true := by
  have hcopy : (Program.exec (World.step intErasure) {} [.new 0, .newCopy 1 0 false]).map
      (·.misused) = some true := by decide
  refine ⟨fun hall => ?_, hcopy, by decide, by decide⟩
  obtain ⟨w, hw, hmisused⟩ := Option.map_eq_some_iff.mp hcopy
  have hsound := (hall _ _ w (List.prefix_refl _) hw).sound
  rw [hsound.unmisused] at hmisused
  cases hmisused

end Batt.TypeErasedStorage
