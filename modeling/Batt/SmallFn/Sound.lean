/-
  Which programs keep `SmallFn` a value.

  `Owned` is the representation invariant: each function is empty, with a null pointer and
  nothing alive in its storage, or `impl_` points to the implementation in the storage, which
  has room for it. In a `Sound` world there is a callable behind each implementation, too. The
  copy and the move of an empty function are empty. The conversion to a move-only function calls
  `copy_to_move_only` without a test for null, an empty function that is put into an
  implementation makes another one that has no callable and is not empty, and the assignment of a
  callable does not check its size, as the construction does. A program has to avoid these three
  (`Careful`), and `small_fn_iff` says that this is all.
-/
import Batt.Lib.Program
import Batt.SmallFn.Model

namespace Batt.SmallFunction

open Lifetime (Holder Ledger)

variable {τ F A B : Type} {C : Callables τ F A B} {w w' : World τ F B} {x y i : Nat}
  {o o' : FnImpl τ F} {s : SmallFn}

/-- A function has nothing, or what is in its storage, and room for that. -/
def Callables.holder (C : Callables τ F A B) : Holder SmallFn (FnImpl τ F) where
  impl s := s.impl
  Empty s := s.impl = none ∧ s.storage = none
  Full s i o := s.impl = some i ∧ s.storage = some i ∧ C.sizeof o ≤ s.maxSize
  impl_of_empty h := h.1
  impl_of_full h := h.1

namespace World

/-! ## The invariant -/

structure Owned (C : Callables τ F A B) (w : World τ F B) : Prop where
  unmisused : w.misused = false
  held : C.holder.Sound w.fns w.ledger

/-- The implementations that the functions have: none for a function that does not exist. -/
def objects (w : World τ F B) (x : Nat) : Option (Option (FnImpl τ F)) :=
  (w.fns x).map fun s => s.impl.bind w.ledger.alive

/-- The function is there, and empty. -/
def Lacks (w : World τ F B) (x : Nat) (s : SmallFn) : Prop :=
  w.fns x = some s ∧ s.impl = none ∧ s.storage = none

/-- The function has the implementation with this number. -/
def Holds (C : Callables τ F A B) (w : World τ F B) (x i : Nat) (o : FnImpl τ F) : Prop :=
  C.holder.Holds w.fns w.ledger x i o

theorem owned_empty : ({} : World τ F B).Owned C := ⟨rfl, Holder.sound_empty⟩

theorem Lacks.impl (h : w.Lacks x s) : w.impl x = none := by
  rw [World.impl, h.1]
  exact h.2.1

theorem Lacks.storage (h : w.Lacks x s) : w.storage x = none := by
  rw [World.storage, h.1]
  exact h.2.2

theorem Lacks.toBool (h : w.Lacks x s) : w.toBool x = false := by
  rw [World.toBool, h.impl]
  rfl

theorem Lacks.objects (h : w.Lacks x s) : w.objects x = some none := by
  rw [World.objects, h.1, Option.map_some, h.2.1]
  rfl

theorem Holds.alive (h : w.Holds C x i o) : w.ledger.alive i = some o := Holder.Holds.alive h

theorem Holds.impl (h : w.Holds C x i o) : w.impl x = some i := Holder.Holds.owned h

theorem Holds.toBool (h : w.Holds C x i o) : w.toBool x = true := by
  rw [World.toBool, h.impl]
  rfl

theorem Holds.objects (h : w.Holds C x i o) : w.objects x = some (some o) := Holder.Holds.held h

theorem maxSize_eq (hx : w.fns x = some s) : w.maxSize x = s.maxSize := by
  rw [maxSize, hx]
  rfl

theorem Holds.fits (h : w.Holds C x i o) : C.sizeof o ≤ w.maxSize x := by
  obtain ⟨s, hs, ⟨-, -, hfits⟩, -⟩ := h
  rw [maxSize_eq hs]
  exact hfits

theorem Owned.cases (h : w.Owned C) (hx : w.exists? x = true) :
    (∃ s, w.Lacks x s) ∨ ∃ i o, w.Holds C x i o := by
  obtain ⟨s, hs⟩ := Option.isSome_iff_exists.mp hx
  rcases h.held.cases x s hs with hempty | hholds
  · exact .inl ⟨s, hs, hempty⟩
  · exact .inr hholds

/-! ## Storage -/

/-- The function `x` becomes `s`, and the implementations become those of `l`. -/
def update (w : World τ F B) (x : Nat) (s : Option SmallFn) (l : Ledger (FnImpl τ F)) :
    World τ F B :=
  { w with fns := Function.update w.fns x s, ledger := l }

@[simp] theorem update_self (w : World τ F B) (x : Nat) (s : Option SmallFn)
    (l : Ledger (FnImpl τ F)) : (w.update x s l).fns x = s :=
  Function.update_self _ _ _

theorem update_other (w : World τ F B) (s : Option SmallFn) (l : Ledger (FnImpl τ F))
    (hne : y ≠ x) : (w.update x s l).fns y = w.fns y :=
  Function.update_of_ne hne _ _

theorem update_update (w : World τ F B) (x : Nat) (s s' : Option SmallFn)
    (l l' : Ledger (FnImpl τ F)) : (w.update x s l).update x s' l' = w.update x s' l' := by
  simp only [update, Function.update_idem]

theorem modify_eq (hx : w.fns x = some s) (f : SmallFn → SmallFn) :
    w.modify x f = w.update x (some (f s)) w.ledger := by
  rw [modify, hx]
  rfl

@[simp] theorem flag_false (w : World τ F B) : w.flag false = w := by
  unfold flag
  rw [Bool.or_false]

theorem Holds.update {l : Ledger (FnImpl τ F)} {a : Option SmallFn} (h : w.Holds C y i o)
    (hne : y ≠ x) (hl : l.alive i = w.ledger.alive i) : (w.update x a l).Holds C y i o :=
  Holder.Holds.update h a hne hl

/-! ## What the operations do -/

/-- An operation on `x` only: it holds `a` behind it, or nothing. -/
structure Sets (C : Callables τ F A B) (w : World τ F B) (x : Nat) (a : Option (FnImpl τ F))
    (w' : World τ F B) : Prop where
  owned : w'.Owned C
  objects : w'.objects = Function.update w.objects x (some a)
  returned : w'.returned = w.returned
  others : ∀ y, y ≠ x → w'.fns y = w.fns y

theorem sets_new (h : w.Owned C) (hx : w.impl x = none) (maxSize : Nat) (moveOnly : Bool) :
    Sets C w x none (w.new x maxSize moveOnly) where
  owned := ⟨h.unmisused, h.held.add hx ⟨rfl, rfl⟩⟩
  objects := Holder.held_add (R := C.holder) ⟨rfl, rfl⟩
  returned := rfl
  others _ hne := Function.update_of_ne hne _ _

theorem lacks_new (w : World τ F B) (x maxSize : Nat) (moveOnly : Bool) :
    (w.new x maxSize moveOnly).Lacks x { maxSize := maxSize, moveOnly := moveOnly } :=
  ⟨Function.update_self _ _ _, rfl, rfl⟩

/-- A new implementation in an empty function. -/
theorem assignImpl_construct (hx : w.Lacks x s) (hfits : C.sizeof o ≤ w.maxSize x) :
    assignImpl x (w.construct C x o) =
      w.update x (some { s with storage := some w.ledger.made, impl := some w.ledger.made })
        (w.ledger.make o) := by
  have hstored : ({ w with ledger := w.ledger.make o } : World τ F B).modify x
      (fun s => { s with storage := some w.ledger.made }) =
        w.update x (some { s with storage := some w.ledger.made }) (w.ledger.make o) :=
    modify_eq (w := { w with ledger := w.ledger.make o }) hx.1 _
  rw [assignImpl, construct]
  simp only [hstored, hx.storage, Nat.not_lt.mpr hfits, decide_false, Option.isSome_none,
    Bool.or_false, flag_false]
  rw [setImpl, modify_eq (update_self _ _ _ _), update_update]
  rfl

theorem Owned.sets_construct (h : w.Owned C) (hx : w.Lacks x s)
    (hfits : C.sizeof o ≤ w.maxSize x) :
    Sets C w x (some o) (assignImpl x (w.construct C x o)) := by
  have hfull : C.holder.Full
      { s with storage := some w.ledger.made, impl := some w.ledger.made } w.ledger.made o :=
    ⟨rfl, rfl, maxSize_eq hx.1 ▸ hfits⟩
  rw [assignImpl_construct hx hfits]
  exact ⟨⟨h.unmisused, h.held.make hx.impl hfull⟩, h.held.held_make hfull, rfl,
    fun _ hne => Function.update_of_ne hne _ _⟩

/-- A callable that is too large for the function. -/
theorem construct_misused (hsize : w.maxSize x < C.sizeof o) :
    (assignImpl x (w.construct C x o)).misused = true := by
  change (w.misused || ((w.storage x).isSome || decide (w.maxSize x < C.sizeof o))) = true
  rw [decide_eq_true hsize, Bool.or_true, Bool.or_true]

theorem Sets.trans {w₁ w₂ : World τ F B} {a b : Option (FnImpl τ F)} (h : Sets C w x a w₁)
    (h' : Sets C w₁ x b w₂) : Sets C w x b w₂ where
  owned := h'.owned
  objects := by rw [h'.objects, h.objects, Function.update_idem]
  returned := h'.returned.trans h.returned
  others y hne := (h'.others y hne).trans (h.others y hne)

theorem Sets.refl (h : w.Owned C) (hx : w.Lacks x s) : Sets C w x none w where
  owned := h
  objects := by rw [← hx.objects, Function.update_eq_self]
  returned := rfl
  others _ _ := rfl

/-! ### clear -/

theorem clear_of_impl (hx : w.impl x = none) : w.clear x = w := by
  rw [clear, hx]

theorem clear_of_holds (hx : w.Holds C x i o) (hs : w.fns x = some s) :
    w.clear x =
      w.update x (some { s with storage := none, impl := none }) (w.ledger.destroy i) := by
  have hstorage : s.storage = some i := by
    obtain ⟨t, ht, ⟨-, hst, -⟩, -⟩ := hx
    rw [hs, Option.some.injEq] at ht
    rw [ht, hst]
  have hdestroy : w.destroyImpl x i =
      w.update x (some { s with storage := none }) (w.ledger.destroy i) := by
    rw [destroyImpl, hx.alive, modify_eq (w := { w with ledger := w.ledger.destroy i }) hs,
      if_pos hstorage]
    exact flag_false _
  rw [clear, hx.impl]
  simp only [hdestroy]
  rw [setImpl, modify_eq (update_self _ _ _ _), update_update]
  rfl

/-- After `clear` a function is empty, of the type it was, and the others are as they were. -/
theorem Owned.cleared (h : w.Owned C) (hx : w.exists? x = true) :
    Sets C w x none (w.clear x) ∧ (∃ s, (w.clear x).Lacks x s) ∧
      (w.clear x).maxSize x = w.maxSize x ∧
      ∀ y i o, y ≠ x → w.Holds C y i o → (w.clear x).Holds C y i o := by
  rcases h.cases hx with ⟨s, hlacks⟩ | ⟨i, o, hholds⟩
  · rw [clear_of_impl hlacks.impl]
    exact ⟨.refl h hlacks, ⟨s, hlacks⟩, rfl, fun _ _ _ _ hy => hy⟩
  · obtain ⟨s, hs⟩ := Option.isSome_iff_exists.mp hx
    have hempty : C.holder.Empty { s with storage := none, impl := none } := ⟨rfl, rfl⟩
    rw [clear_of_holds hholds hs]
    refine ⟨⟨⟨h.unmisused, h.held.destroy hholds hempty⟩, h.held.held_destroy hholds hempty, rfl,
      fun _ hne => update_other _ _ _ hne⟩, ⟨_, update_self _ _ _ _, rfl, rfl⟩, ?_,
      fun y j o' hne hy => ?_⟩
    · rw [maxSize_eq (update_self _ _ _ _), maxSize_eq hs]
    · exact hy.update hne (Function.update_of_ne (h.held.ne hholds hy hne) _ _)

/-! ### Copies -/

theorem setImpl_none (hx : w.Lacks x s) : w.setImpl x none = w := by
  have hsame : ({ s with impl := none } : SmallFn) = s := by
    rw [← hx.2.1]
  rw [setImpl, modify_eq hx.1, hsame, update, ← hx.1, Function.update_eq_self]

theorem copy_of_holds (hy : w.Holds C y i o) (hfits : C.sizeof o ≤ w.maxSize x) :
    w.copy C (w.impl y) x = w.construct C x o := by
  rw [copy, hy.impl, Option.bind_some, hy.alive]
  exact if_pos hfits

/-- `copy_to_move_only` through a null pointer. -/
theorem copy_of_impl (hy : w.impl y = none) :
    w.copyToMoveOnly C (w.impl y) x = (w.flag true, none) := by
  rw [copyToMoveOnly, copy, hy]
  rfl

theorem Owned.sets_copyOrNull (h : w.Owned C) (hx : w.Lacks x s) (hy : w.exists? y = true)
    (hsize : w.maxSize y ≤ w.maxSize x) :
    ∃ a, w.objects y = some a ∧ Sets C w x a (assignImpl x (w.copyOrNull C y x)) := by
  rcases h.cases hy with ⟨t, hlacks⟩ | ⟨i, o, hholds⟩
  · refine ⟨none, hlacks.objects, ?_⟩
    rw [copyOrNull, hlacks.toBool, if_neg Bool.false_ne_true, assignImpl, setImpl_none hx]
    exact .refl h hx
  · have hfits := hholds.fits.trans hsize
    refine ⟨some o, hholds.objects, ?_⟩
    rw [copyOrNull, hholds.toBool, if_pos rfl, copy_of_holds hholds hfits]
    exact h.sets_construct hx hfits

/-! ### Moves -/

/-- The implementation with the number `i` changes. -/
def changed (w : World τ F B) (i : Nat) (o : FnImpl τ F) : World τ F B :=
  { w with ledger := w.ledger.set i o }

theorem full_of_sizeof (hsize : C.sizeof o' = C.sizeof o) (s : SmallFn)
    (h : C.holder.Full s i o) : C.holder.Full s i o' := by
  obtain ⟨himpl, hstorage, hfits⟩ := h
  exact ⟨himpl, hstorage, hsize.trans_le hfits⟩

theorem Owned.changed (h : w.Owned C) (hx : w.Holds C x i o) (hsize : C.sizeof o' = C.sizeof o) :
    (w.changed i o').Owned C :=
  ⟨h.unmisused, h.held.set hx (full_of_sizeof hsize)⟩

theorem Holds.changed (hx : w.Holds C x i o) (hsize : C.sizeof o' = C.sizeof o) :
    (w.changed i o').Holds C x i o' :=
  Holder.Holds.set hx (full_of_sizeof hsize)

theorem Owned.objects_changed (h : w.Owned C) (hx : w.Holds C x i o) (o' : FnImpl τ F) :
    (w.changed i o').objects = Function.update w.objects x (some (some o')) :=
  h.held.held_set hx _

theorem sizeof_left (o : FnImpl τ F) : C.sizeof (C.left o) = C.sizeof o := by
  cases o <;> rfl

theorem move_of_holds (hy : w.Holds C y i o) (hfits : C.sizeof o ≤ w.maxSize x) :
    w.move C (w.impl y) x = (w.changed i (C.left o)).construct C x o := by
  unfold move
  rw [hy.impl, Option.bind_some, hy.alive]
  exact if_pos hfits

/-- There is `a` in `x` then, and `y` is empty. -/
structure Moves (C : Callables τ F A B) (w : World τ F B) (x y : Nat) (a : Option (FnImpl τ F))
    (w' : World τ F B) : Prop where
  owned : w'.Owned C
  objects : w'.objects = Function.update (Function.update w.objects x (some a)) y (some none)
  returned : w'.returned = w.returned

theorem Sets.moves {w₁ : World τ F B} {a b : Option (FnImpl τ F)} (h : Sets C w x b w₁)
    (h' : Moves C w₁ x y a w') : Moves C w x y a w' where
  owned := h'.owned
  objects := by rw [h'.objects, h.objects, Function.update_idem]
  returned := h'.returned.trans h.returned

/-- A new implementation in `x` takes what `y` has. -/
theorem Owned.moves_construct (h : w.Owned C) (hx : w.Lacks x s) (hy : w.Holds C y i o)
    (hne : x ≠ y) (hfits : C.sizeof o' ≤ w.maxSize x) :
    Moves C w x y (some o')
      ((assignImpl x ((w.changed i (C.left o)).construct C x o')).clear y) := by
  have hchanged := h.changed hy (sizeof_left o)
  have hsets := hchanged.sets_construct (x := x) (s := s) hx hfits
  -- what is left is in `y` until that is cleared
  have hleft : (assignImpl x ((w.changed i (C.left o)).construct C x o')).Holds
      C y i (C.left o) := by
    rw [assignImpl_construct (w := w.changed i (C.left o)) hx hfits]
    exact (hy.changed (sizeof_left o)).update hne.symm
      (Function.update_of_ne (h.held.tracked.lt_made hy.alive).ne _ _)
  have hexists : World.exists?
      (assignImpl x ((w.changed i (C.left o)).construct C x o')) y = true := by
    obtain ⟨t, ht, -, -⟩ := hleft
    rw [exists?, ht]
    rfl
  obtain ⟨hclear, -, -, -⟩ := hsets.owned.cleared hexists
  refine ⟨hclear.owned, ?_, hclear.returned.trans hsets.returned⟩
  rw [hclear.objects, hsets.objects, h.objects_changed hy, Function.update_comm hne,
    Function.update_idem, Function.update_comm hne.symm]

theorem Owned.moves_moveOrNull (h : w.Owned C) (hx : w.Lacks x s) (hy : w.exists? y = true)
    (hne : x ≠ y) (hsize : w.maxSize y ≤ w.maxSize x) :
    ∃ a, w.objects y = some a ∧
      Moves C w x y a ((assignImpl x (w.moveOrNull C y x)).clear y) := by
  rcases h.cases hy with ⟨t, hlacks⟩ | ⟨i, o, hholds⟩
  · refine ⟨none, hlacks.objects, ?_⟩
    rw [moveOrNull, hlacks.toBool, if_neg Bool.false_ne_true, assignImpl, setImpl_none hx,
      clear_of_impl hlacks.impl]
    refine ⟨h, ?_, rfl⟩
    rw [← hx.objects, Function.update_eq_self, hx.objects, ← hlacks.objects,
      Function.update_eq_self]
  · have hfits := hholds.fits.trans hsize
    refine ⟨some o, hholds.objects, ?_⟩
    rw [moveOrNull, hholds.toBool, if_pos rfl, move_of_holds hholds hfits]
    exact h.moves_construct hx hholds hne hfits

/-- The move constructor clears the other function before it has its own pointer. -/
theorem clear_setImpl (w : World τ F B) (p : Option Nat) (hne : x ≠ y) :
    (w.clear y).setImpl x p = (w.setImpl x p).clear y := by
  have himpl : (w.setImpl x p).impl y = w.impl y :=
    congrArg (Option.bind · _) (Function.update_of_ne hne.symm _ _)
  rw [clear, clear, himpl]
  cases w.impl y with
  | none => rfl
  | some i =>
    simp only [setImpl, destroyImpl, modify, put, flag, Function.update_self,
      Function.update_of_ne hne, Function.update_of_ne hne.symm, Function.update_comm hne,
      Function.update_idem]

/-! ### Functions in functions -/

@[simp] theorem sizeof_wrap (M : Nat) (a : Option (FnImpl τ F)) :
    C.sizeof (.wrap M a) = C.sizeofSmallFn M := by
  cases a <;> rfl

theorem wrap_of_lacks (hy : w.Lacks y s) (moved : Bool) :
    w.wrap C x y moved = w.construct C x (.wrap (w.maxSize y) none) := by
  rw [wrap, hy.impl]

theorem wrap_copy_of_holds (hy : w.Holds C y i o) :
    w.wrap C x y false = w.construct C x (.wrap (w.maxSize y) (some o)) := by
  rw [wrap, hy.impl, Option.bind_some, hy.alive]
  rfl

theorem wrap_move_of_holds (hy : w.Holds C y i o) (hne : x ≠ y) :
    assignImpl x (w.wrap C x y true) =
      (assignImpl x ((w.changed i (C.left o)).construct C x (.wrap (w.maxSize y) (some o)))).clear
        y := by
  rw [wrap, hy.impl, Option.bind_some, hy.alive]
  exact clear_setImpl _ _ hne

/-- A function that has an implementation is put into a new one, where that has room for it. -/
theorem Owned.wrap (h : w.Owned C) (hx : w.Lacks x s) (hy : w.Holds C y i o) (hne : x ≠ y)
    (hfits : C.sizeofSmallFn (w.maxSize y) ≤ w.maxSize x) :
    Sets C w x (some (.wrap (w.maxSize y) (some o))) (assignImpl x (w.wrap C x y false)) ∧
      Moves C w x y (some (.wrap (w.maxSize y) (some o)))
        (assignImpl x (w.wrap C x y true)) := by
  rw [wrap_copy_of_holds hy, wrap_move_of_holds hy hne]
  exact ⟨h.sets_construct hx (by rwa [sizeof_wrap]),
    h.moves_construct hx hy hne (by rwa [sizeof_wrap])⟩

theorem clear_misused (h : w.misused = true) (y : Nat) : (w.clear y).misused = true := by
  rw [clear]
  cases w.impl y with
  | none => exact h
  | some i =>
    change (w.misused || (w.ledger.alive i).isNone) = true
    rw [h, Bool.true_or]

/-- A function that does not fit is put into a new implementation. -/
theorem Owned.wrap_misused (h : w.Owned C) (hy : w.exists? y = true) (hne : x ≠ y) (moved : Bool)
    (hsize : w.maxSize x < C.sizeofSmallFn (w.maxSize y)) :
    (assignImpl x (w.wrap C x y moved)).misused = true := by
  rcases h.cases hy with ⟨t, hlacks⟩ | ⟨i, o, hholds⟩
  · rw [wrap_of_lacks hlacks]
    exact construct_misused (by rwa [sizeof_wrap])
  · cases moved with
    | false =>
      rw [wrap_copy_of_holds hholds]
      exact construct_misused (by rwa [sizeof_wrap])
    | true =>
      rw [wrap_move_of_holds hholds hne]
      refine clear_misused (construct_misused (w := w.changed i (C.left o)) ?_) y
      rwa [sizeof_wrap]

end World

/-! ## Programs -/

/-- The callable behind an implementation: that of the function, if the callable is one. -/
def FnImpl.fn : FnImpl τ F → Option F
  | .of _ fn => some fn
  | .ofEmpty _ => none
  | .ofSmallFn _ o => o.fn

/-- A call is one of the callable, and leaves an implementation of the same size. -/
theorem Callables.call_eq {f : F} (hf : o.fn = some f) (a : A) :
    ∃ o', C.call o a = some ((C.invoke f a).1, o') ∧ o'.fn = some (C.invoke f a).2 ∧
      C.sizeof o' = C.sizeof o := by
  induction o with
  | of type fn =>
    cases hf
    exact ⟨_, rfl, rfl, rfl⟩
  | ofEmpty maxSize => cases hf
  | ofSmallFn maxSize o ih =>
    obtain ⟨o', hcall, hfn, -⟩ := ih hf
    refine ⟨.ofSmallFn maxSize o', ?_, hfn, rfl⟩
    rw [Callables.call, hcall]
    rfl

/-- What the functions hold and the calls have returned. -/
structure Seen (F B : Type) where
  contents : Nat → Option (Option F) := fun _ => none
  returned : List B := []

def Seen.set (s : Seen F B) (x : Nat) (a : Option (Option F)) : Seen F B :=
  { s with contents := Function.update s.contents x a }

/-- What `y` holds is in `x`, and if it was moved, not in `y` any more. -/
def Seen.transfer (s : Seen F B) (x y : Nat) (moved : Bool) : Seen F B :=
  if moved then (s.set x (s.contents y)).set y (some none) else s.set x (s.contents y)

/-- An operation on callables that each function has for itself. -/
def intended (C : Callables τ F A B) (s : Seen F B) : Op τ F A → Seen F B
  | .new x _ _ | .assignNull x => s.set x (some none)
  | .newFn x _ _ _ fn | .assignFn x _ fn => s.set x (some (some fn))
  | .newCopy x y => s.transfer x y false
  | .newMove x y => s.transfer x y true
  | .newConvert x y _ _ moved | .assignConvert x y moved => s.transfer x y moved
  | .delete x => s.set x none
  | .copyAssign x y => if x = y then s else s.transfer x y false
  | .moveAssign x y => if x = y then s else s.transfer x y true
  | .call x a =>
    match s.contents x with
    | some (some fn) =>
      { contents := Function.update s.contents x (some (some (C.invoke fn a).2))
        returned := s.returned ++ [(C.invoke fn a).1] }
    | _ => s

namespace World

/-- There is a callable behind each implementation. -/
def Callable (c : Nat → Option (Option (FnImpl τ F))) : Prop :=
  ∀ x o, c x = some (some o) → ∃ f, o.fn = some f

theorem Callable.update {c : Nat → Option (Option (FnImpl τ F))}
    {b : Option (Option (FnImpl τ F))} (h : Callable c)
    (hb : ∀ o, b = some (some o) → ∃ f, o.fn = some f) (x : Nat) :
    Callable (Function.update c x b) := by
  intro z o hz
  by_cases hzx : z = x
  · rw [hzx, Function.update_self] at hz
    exact hb o hz
  · rw [Function.update_of_ne hzx] at hz
    exact h z o hz

/-- The representation is in order, and what is there can be called. -/
structure Sound (C : Callables τ F A B) (w : World τ F B) : Prop extends Owned C w where
  callable : Callable w.objects

/-- The callables that the functions hold: none for a function that does not exist. -/
def contents (w : World τ F B) (x : Nat) : Option (Option F) :=
  (w.objects x).map (·.bind FnImpl.fn)

def seen (w : World τ F B) : Seen F B := { contents := w.contents, returned := w.returned }

/-- A function of another type, and a callable, fit where they are put into an implementation, and
    conversions are from functions that hold a callable. -/
def Careful (C : Callables τ F A B) (w : World τ F B) : Op τ F A → Prop
  | .newConvert _ y _ _ _ => w.toBool y = true
  | .assignConvert x y moved => w.toBool y = true ∧
      (w.converts y (w.maxSize x) (w.moveOnly x) moved = true ∨
        C.sizeofSmallFn (w.maxSize y) ≤ w.maxSize x)
  | .assignFn x type _ => C.sizeofImpl type ≤ w.maxSize x
  | _ => True

/-- An operation leaves a sound world and does what it is for. -/
def Keeps (C : Callables τ F A B) (w : World τ F B) (op : Op τ F A) (w' : World τ F B) : Prop :=
  w'.Sound C ∧ w'.seen = intended C w.seen op

variable {op : Op τ F A} {a : Option (FnImpl τ F)}

theorem sound_empty : ({} : World τ F B).Sound C := ⟨owned_empty, fun _ _ h => by cases h⟩

theorem contents_eq (h : w.objects x = some a) : w.contents x = some (a.bind FnImpl.fn) := by
  rw [contents, h, Option.map_some]

theorem Sound.fn (h : w.Sound C) (hx : w.Holds C x i o) :
    ∃ f, o.fn = some f ∧ w.contents x = some (some f) := by
  obtain ⟨f, hf⟩ := h.callable x o hx.objects
  refine ⟨f, hf, ?_⟩
  rw [contents_eq hx.objects, Option.bind_some, hf]

theorem contents_update {c : Nat → Option (Option (FnImpl τ F))} {b : Option (Option (FnImpl τ F))}
    (h : w.objects = Function.update c x b) :
    w.contents = Function.update (fun z => (c z).map (·.bind FnImpl.fn)) x
      (b.map (·.bind FnImpl.fn)) := by
  have hcomp := Function.comp_update (Option.map fun p : Option (FnImpl τ F) => p.bind FnImpl.fn)
    c x b
  rw [← h] at hcomp
  exact hcomp

/-- The operation sets `x`, to something with a callable or to nothing. -/
theorem Sets.sound (hs : Sets C w x a w') (h : w.Sound C)
    (ha : ∀ o, a = some o → ∃ f, o.fn = some f) : w'.Sound C := by
  refine ⟨hs.owned, ?_⟩
  rw [hs.objects]
  exact h.callable.update (fun o ho => ha o (Option.some.inj ho)) x

theorem Sets.keeps (hs : Sets C w x a w') (h : w.Sound C)
    (ha : ∀ o, a = some o → ∃ f, o.fn = some f)
    (hop : intended C w.seen op = w.seen.set x (some (a.bind FnImpl.fn))) : Keeps C w op w' := by
  refine ⟨hs.sound h ha, ?_⟩
  rw [hop, seen, contents_update hs.objects, hs.returned]
  rfl

/-- What `x` gets is what `y` has. -/
theorem Sets.keeps_transfer {b : Option (FnImpl τ F)} (hs : Sets C w x a w') (h : w.Sound C)
    (hy : w.objects y = some b) (hab : a.bind FnImpl.fn = b.bind FnImpl.fn)
    (ha : ∀ o, a = some o → ∃ f, o.fn = some f)
    (hop : intended C w.seen op = w.seen.transfer x y false) : Keeps C w op w' := by
  refine hs.keeps h ha (hop.trans (congrArg (w.seen.set x) ?_))
  rw [hab]
  exact contents_eq hy

theorem Moves.keeps {b : Option (FnImpl τ F)} (hm : Moves C w x y a w') (h : w.Sound C)
    (hy : w.objects y = some b) (hab : a.bind FnImpl.fn = b.bind FnImpl.fn)
    (ha : ∀ o, a = some o → ∃ f, o.fn = some f)
    (hop : intended C w.seen op = w.seen.transfer x y true) : Keeps C w op w' := by
  refine ⟨⟨hm.owned, ?_⟩, ?_⟩
  · rw [hm.objects]
    exact (h.callable.update (fun o ho => ha o (Option.some.inj ho)) x).update
      (fun _ ho => by cases ho) y
  · have hinner := Function.comp_update
      (Option.map fun p : Option (FnImpl τ F) => p.bind FnImpl.fn) w.objects x (some a)
    have hseen : w.contents y = some (a.bind FnImpl.fn) := (contents_eq hy).trans (by rw [hab])
    rw [hop, seen, contents_update hm.objects, hm.returned, Seen.transfer, if_pos rfl]
    simp only [Seen.set, seen, hseen]
    exact congrArg (fun c => (⟨Function.update c y (some none), w.returned⟩ : Seen F B)) hinner

theorem Sound.copied (h : w.Sound C) (hy : w.objects y = some a) :
    ∀ o, a = some o → ∃ f, o.fn = some f :=
  fun o ho => h.callable y o (hy.trans (congrArg some ho))

theorem impl_of_not_exists (hx : w.exists? x = false) : w.impl x = none := by
  rw [exists?, Option.isSome_eq_false_iff, Option.isNone_iff_eq_none] at hx
  rw [impl, hx]
  rfl

theorem ne_of_exists (hx : w.exists? x = false) (hy : w.exists? y = true) : x ≠ y := by
  rintro rfl
  rw [hx] at hy
  cases hy

theorem exists_of_ne (hne : y ≠ x) (maxSize : Nat) (moveOnly : Bool) :
    (w.new x maxSize moveOnly).exists? y = w.exists? y :=
  congrArg Option.isSome (Function.update_of_ne hne _ _)

theorem maxSize_new (w : World τ F B) (x maxSize : Nat) (moveOnly : Bool) :
    (w.new x maxSize moveOnly).maxSize x = maxSize :=
  maxSize_eq (lacks_new w x maxSize moveOnly).1

theorem maxSize_of_ne (hne : y ≠ x) (maxSize : Nat) (moveOnly : Bool) :
    (w.new x maxSize moveOnly).maxSize y = w.maxSize y := by
  have hsame : (w.new x maxSize moveOnly).fns y = w.fns y := Function.update_of_ne hne _ _
  rw [World.maxSize, hsame]
  rfl

theorem Owned.holds_of_toBool (h : w.Owned C) (hx : w.toBool x = true) :
    ∃ i o, w.Holds C x i o := by
  have hexists : w.exists? x = true := by
    by_contra hno
    rw [toBool, impl_of_not_exists (Bool.eq_false_iff.mpr hno)] at hx
    cases hx
  rcases h.cases hexists with ⟨s, hlacks⟩ | hholds
  · rw [hlacks.toBool] at hx
    cases hx
  · exact hholds

theorem Owned.lacks_of_toBool (h : w.Owned C) (hx : w.exists? x = true)
    (hbool : ¬w.toBool x = true) : ∃ s, w.Lacks x s := by
  rcases h.cases hx with hlacks | ⟨i, o, hholds⟩
  · exact hlacks
  · exact absurd hholds.toBool hbool

/-! ### Constructors -/

theorem none_callable (o : FnImpl τ F) (h : none = some o) : ∃ f, o.fn = some f := by
  cases h

theorem of_callable {type : τ} {fn : F} (o : FnImpl τ F)
    (h : some (FnImpl.of type fn) = some o) : ∃ f, o.fn = some f :=
  ⟨fn, by rw [← Option.some.inj h]; rfl⟩

theorem wrap_callable {f : F} (hf : o.fn = some f) (M : Nat) (p : FnImpl τ F)
    (h : some (FnImpl.wrap M (some o)) = some p) : ∃ f, p.fn = some f :=
  ⟨f, by rw [← Option.some.inj h]; exact hf⟩

theorem keeps_newFn (h : w.Sound C) (hx : w.exists? x = false) (maxSize : Nat) (moveOnly : Bool)
    {type : τ} (fn : F) (hfits : C.sizeofImpl type ≤ maxSize) :
    Keeps C w (.newFn x maxSize moveOnly type fn) (w.newFn C x maxSize moveOnly type fn) := by
  have hnew := sets_new h.toOwned (impl_of_not_exists hx) maxSize moveOnly
  refine (hnew.trans (hnew.owned.sets_construct (lacks_new w x _ _) ?_)).keeps h of_callable rfl
  rw [maxSize_new]
  exact hfits

theorem keeps_newMove (h : w.Sound C) (hx : w.exists? x = false) (hy : w.exists? y = true) :
    Keeps C w (.newMove x y) (w.newMove C x y) := by
  have hne := ne_of_exists hx hy
  have hnew := sets_new h.toOwned (impl_of_not_exists hx) (w.maxSize y) (w.moveOnly y)
  obtain ⟨a, ha, hmoves⟩ := hnew.owned.moves_moveOrNull (lacks_new w x _ _)
    ((exists_of_ne hne.symm _ _).trans hy) hne
    ((maxSize_of_ne hne.symm _ _).trans (maxSize_new w x _ _).symm).le
  rw [hnew.objects, Function.update_of_ne hne.symm] at ha
  rw [newMove, clear_setImpl _ _ hne]
  exact (hnew.moves hmoves).keeps h ha rfl (h.copied ha) rfl

theorem keeps_newCopy (h : w.Sound C) (hx : w.exists? x = false) (hy : w.exists? y = true) :
    Keeps C w (.newCopy x y) (w.newCopy C x y) := by
  have hne := ne_of_exists hx hy
  have hnew := sets_new h.toOwned (impl_of_not_exists hx) (w.maxSize y) (w.moveOnly y)
  obtain ⟨a, ha, hsets⟩ := hnew.owned.sets_copyOrNull (lacks_new w x _ _)
    ((exists_of_ne hne.symm _ _).trans hy)
    ((maxSize_of_ne hne.symm _ _).trans (maxSize_new w x _ _).symm).le
  rw [hnew.objects, Function.update_of_ne hne.symm] at ha
  exact (hnew.trans hsets).keeps_transfer h ha rfl (h.copied ha) rfl

theorem keeps_newConvert (h : w.Sound C) (hx : w.exists? x = false) (hy : w.Holds C y i o)
    (hne : x ≠ y) {maxSize : Nat} (moveOnly : Bool) (hsize : w.maxSize y ≤ maxSize) :
    Keeps C w (.newConvert x y maxSize moveOnly false) (w.newConvert C x y maxSize) := by
  have hnew := sets_new h.toOwned (impl_of_not_exists hx) maxSize true
  have hy' : (w.new x maxSize true).Holds C y i o := Holds.update hy hne.symm rfl
  have hfits : C.sizeof o ≤ (w.new x maxSize true).maxSize x := by
    rw [maxSize_new]
    exact hy.fits.trans hsize
  have hsets := hnew.owned.sets_construct (lacks_new w x _ _) hfits
  rw [← copy_of_holds hy' hfits] at hsets
  exact (hnew.trans hsets).keeps_transfer h hy.objects rfl (h.copied hy.objects) rfl

theorem keeps_newWrap (h : w.Sound C) (hx : w.exists? x = false) (hy : w.Holds C y i o)
    (hne : x ≠ y) {maxSize : Nat} (moveOnly moved : Bool)
    (hsize : C.sizeofSmallFn (w.maxSize y) ≤ maxSize) :
    Keeps C w (.newConvert x y maxSize moveOnly moved)
      (w.newWrap C x y maxSize moveOnly moved) := by
  have hnew := sets_new h.toOwned (impl_of_not_exists hx) maxSize moveOnly
  have hy' : (w.new x maxSize moveOnly).Holds C y i o := Holds.update hy hne.symm rfl
  have hfits : C.sizeofSmallFn ((w.new x maxSize moveOnly).maxSize y) ≤
      (w.new x maxSize moveOnly).maxSize x := by
    rw [maxSize_new, maxSize_of_ne hne.symm]
    exact hsize
  obtain ⟨hcopy, hmove⟩ := hnew.owned.wrap (lacks_new w x _ _) hy' hne hfits
  obtain ⟨f, hf, -⟩ := h.fn hy
  cases moved with
  | false => exact (hnew.trans hcopy).keeps_transfer h hy.objects rfl (wrap_callable hf _) rfl
  | true => exact (hnew.moves hmove).keeps h hy.objects rfl (wrap_callable hf _) rfl

theorem keeps_delete (h : w.Sound C) (hx : w.exists? x = true) :
    Keeps C w (.delete x) (w.delete x) := by
  obtain ⟨hsets, ⟨s, hlacks⟩, -, -⟩ := h.cleared hx
  have heq : w.delete x = (w.clear x).put x none := by
    rw [delete]
    simp only [hlacks.storage]
    exact flag_false _
  have hobjects : ((w.clear x).put x none).objects = Function.update (w.clear x).objects x none :=
    Holder.held_remove (R := C.holder)
  have hsound := hsets.sound h none_callable
  rw [heq]
  refine ⟨⟨⟨hsound.unmisused, hsound.held.remove hlacks.impl⟩, ?_⟩, ?_⟩
  · rw [hobjects]
    exact hsound.callable.update (fun _ ho => by cases ho) x
  · rw [hsets.objects, Function.update_idem] at hobjects
    rw [seen, contents_update hobjects,
      show ((w.clear x).put x none).returned = w.returned from hsets.returned]
    rfl

/-! ### Assignments -/

theorem keeps_assignFn (h : w.Sound C) (hx : w.exists? x = true) {type : τ} (fn : F)
    (hfits : C.sizeofImpl type ≤ w.maxSize x) :
    Keeps C w (.assignFn x type fn) (w.assignFn C x type fn) := by
  obtain ⟨hsets, ⟨s, hlacks⟩, hsize, -⟩ := h.cleared hx
  exact (hsets.trans (hsets.owned.sets_construct (o := .of type fn) hlacks
    (hfits.trans_eq hsize.symm))).keeps h of_callable rfl

theorem assignFn_misused (h : w.Owned C) (hx : w.exists? x = true) {type : τ} (fn : F)
    (hfits : w.maxSize x < C.sizeofImpl type) : (w.assignFn C x type fn).misused = true := by
  obtain ⟨-, -, hsize, -⟩ := h.cleared hx
  exact construct_misused (hsize.trans_lt hfits)

/-- The two functions of an assignment, after the first was cleared. -/
theorem Owned.cleared_other (h : w.Owned C) (hx : w.exists? x = true) (hne : y ≠ x) :
    (w.clear x).exists? y = w.exists? y ∧ (w.clear x).maxSize y = w.maxSize y ∧
      (w.clear x).fns y = w.fns y ∧ (w.clear x).objects y = w.objects y := by
  obtain ⟨hsets, -, -, -⟩ := h.cleared hx
  have hsame := hsets.others y hne
  refine ⟨by rw [exists?, hsame]; rfl, by rw [World.maxSize, hsame]; rfl, hsame, ?_⟩
  rw [hsets.objects, Function.update_of_ne hne]

theorem keeps_moveAssign (h : w.Sound C) (hx : w.exists? x = true) (hy : w.exists? y = true)
    (hsize : w.maxSize y ≤ w.maxSize x) :
    Keeps C w (.moveAssign x y) (w.moveAssign C x y) := by
  by_cases hne : x = y
  · rw [moveAssign, if_pos hne]
    exact ⟨h, (if_pos hne).symm⟩
  obtain ⟨hsets, ⟨s, hlacks⟩, hsizex, -⟩ := h.cleared hx
  obtain ⟨hexists, hsizey, -, hobjects⟩ := h.cleared_other hx (Ne.symm hne)
  obtain ⟨a, ha, hmoves⟩ := hsets.owned.moves_moveOrNull hlacks (hexists.trans hy) hne
    (hsizey.trans_le (hsize.trans_eq hsizex.symm))
  rw [hobjects] at ha
  rw [moveAssign, if_neg hne]
  exact (hsets.moves hmoves).keeps h ha rfl (h.copied ha) (if_neg hne)

theorem keeps_copyAssign (h : w.Sound C) (hx : w.exists? x = true) (hy : w.exists? y = true)
    (hsize : w.maxSize y ≤ w.maxSize x) :
    Keeps C w (.copyAssign x y) (w.copyAssign C x y) := by
  by_cases hne : x = y
  · rw [copyAssign, if_pos hne]
    exact ⟨h, (if_pos hne).symm⟩
  obtain ⟨hsets, ⟨s, hlacks⟩, hsizex, -⟩ := h.cleared hx
  obtain ⟨hexists, hsizey, -, hobjects⟩ := h.cleared_other hx (Ne.symm hne)
  obtain ⟨a, ha, hcopy⟩ := hsets.owned.sets_copyOrNull hlacks (hexists.trans hy)
    (hsizey.trans_le (hsize.trans_eq hsizex.symm))
  rw [hobjects] at ha
  rw [copyAssign, if_neg hne]
  exact (hsets.trans hcopy).keeps_transfer h ha rfl (h.copied ha) (if_neg hne)

theorem keeps_assignConvert (h : w.Sound C) (hx : w.exists? x = true) (hy : w.Holds C y i o)
    (hne : x ≠ y) (hsize : w.maxSize y ≤ w.maxSize x) :
    Keeps C w (.assignConvert x y false) (w.assignConvert C x y) := by
  obtain ⟨hsets, ⟨s, hlacks⟩, hsizex, hother⟩ := h.cleared hx
  have hfits : C.sizeof o ≤ (w.clear x).maxSize x :=
    (hy.fits.trans hsize).trans_eq hsizex.symm
  have hcopy := hsets.owned.sets_construct hlacks hfits
  rw [← copy_of_holds (hother y i o hne.symm hy) hfits] at hcopy
  exact (hsets.trans hcopy).keeps_transfer h hy.objects rfl (h.copied hy.objects) rfl

theorem keeps_assignWrap (h : w.Sound C) (hx : w.exists? x = true) (hy : w.Holds C y i o)
    (hne : x ≠ y) (moved : Bool) (hsize : C.sizeofSmallFn (w.maxSize y) ≤ w.maxSize x) :
    Keeps C w (.assignConvert x y moved) (w.assignWrap C x y moved) := by
  obtain ⟨hsets, ⟨s, hlacks⟩, hsizex, hother⟩ := h.cleared hx
  obtain ⟨-, hsizey, -, -⟩ := h.cleared_other hx hne.symm
  have hfits : C.sizeofSmallFn ((w.clear x).maxSize y) ≤ (w.clear x).maxSize x := by
    rw [hsizey, hsizex]
    exact hsize
  obtain ⟨hcopy, hmove⟩ := hsets.owned.wrap hlacks (hother y i o hne.symm hy) hne hfits
  obtain ⟨f, hf, -⟩ := h.fn hy
  cases moved with
  | false => exact (hsets.trans hcopy).keeps_transfer h hy.objects rfl (wrap_callable hf _) rfl
  | true => exact (hsets.moves hmove).keeps h hy.objects rfl (wrap_callable hf _) rfl

/-! ### What is misused -/

theorem not_sound_of_misused (h : w.misused = true) : ¬w.Sound C := by
  intro hsound
  rw [hsound.unmisused] at h
  cases h

theorem copyToMoveOnly_misused (hy : w.Lacks y s) :
    (assignImpl x (w.copyToMoveOnly C (w.impl y) x)).misused = true := by
  rw [copy_of_impl hy.impl]
  exact Bool.or_true _

/-- An empty function, put into an implementation that is then not empty. -/
theorem Owned.not_sound_wrap {t : SmallFn} (h : w.Owned C) (hx : w.Lacks x s) (hy : w.Lacks y t)
    (moved : Bool) (hfits : C.sizeofSmallFn (w.maxSize y) ≤ w.maxSize x) :
    ¬(assignImpl x (w.wrap C x y moved)).Sound C := by
  intro hsound
  have hsets := h.sets_construct (o := .wrap (w.maxSize y) none) hx (by rwa [sizeof_wrap])
  rw [← wrap_of_lacks hy moved] at hsets
  obtain ⟨f, hf⟩ := hsound.callable x _
    ((congrFun hsets.objects x).trans (Function.update_self _ _ _))
  cases hf

/-! ### Calls -/

theorem keeps_call (h : w.Sound C) (hx : w.Holds C x i o) (a : A) :
    Keeps C w (.call x a) (w.call C x a) := by
  obtain ⟨f, hf, hcontents⟩ := h.fn hx
  obtain ⟨o', hcall, hfn, hsize⟩ := Callables.call_eq (C := C) hf a
  have heq : w.call C x a =
      { w.changed i o' with returned := w.returned ++ [(C.invoke f a).1] } := by
    unfold call
    rw [hx.impl, Option.bind_some, hx.alive, Option.bind_some, hcall]
    rfl
  have hchanged := h.changed hx hsize
  have hobjects := h.objects_changed hx o'
  rw [heq]
  refine ⟨⟨⟨hchanged.unmisused, hchanged.held⟩, ?_⟩, ?_⟩
  · have hcallable : Callable (w.changed i o').objects := by
      rw [hobjects]
      refine h.callable.update (fun p hp => ?_) x
      rw [Option.some.injEq, Option.some.injEq] at hp
      exact ⟨_, hp ▸ hfn⟩
    exact hcallable
  · have hseen : w.seen.contents x = some (some f) := hcontents
    have hnew := contents_update hobjects
    rw [Option.map_some, Option.bind_some, hfn] at hnew
    rw [intended, hseen]
    exact congrArg (fun c => (⟨c, w.returned ++ [(C.invoke f a).1]⟩ : Seen F B)) hnew

/-! ### Steps -/

/-- A conversion to a new function, by the member that converts or by a callable. -/
theorem newConvert_iff {maxSize : Nat} {moveOnly moved : Bool} (h : w.Sound C)
    (hstep : w.step C (.newConvert x y maxSize moveOnly moved) = some w') :
    (w.toBool y = true → Keeps C w (.newConvert x y maxSize moveOnly moved) w') ∧
      (¬w.toBool y = true → ¬w'.Sound C) := by
  simp only [World.step, Option.ite_none_right_eq_some, Bool.and_eq_true,
    Bool.not_eq_true'] at hstep
  obtain ⟨⟨hx, hy⟩, hstep⟩ := hstep
  have hne := ne_of_exists hx hy
  have hlacks' : ∀ {t : SmallFn} (n : Nat) (b : Bool), w.Lacks y t → (w.new x n b).Lacks y t :=
    fun n b ht => ⟨(Function.update_of_ne hne.symm _ _).trans ht.1, ht.2⟩
  split_ifs at hstep with hconverts hwraps
  · simp only [Option.some.injEq] at hstep
    simp only [converts, Bool.and_eq_true, Bool.not_eq_true', decide_eq_true_eq] at hconverts
    obtain ⟨⟨⟨rfl, -⟩, -⟩, hsize⟩ := hconverts
    subst hstep
    refine ⟨fun hbool => ?_, fun hbool => ?_⟩
    · obtain ⟨i, o, hholds⟩ := h.holds_of_toBool hbool
      exact keeps_newConvert h hx hholds hne _ hsize
    · obtain ⟨t, hlacks⟩ := h.lacks_of_toBool hy hbool
      exact not_sound_of_misused (copyToMoveOnly_misused (hlacks' maxSize true hlacks))
  · simp only [Option.some.injEq] at hstep
    simp only [decide_eq_true_eq] at hwraps
    subst hstep
    refine ⟨fun hbool => ?_, fun hbool => ?_⟩
    · obtain ⟨i, o, hholds⟩ := h.holds_of_toBool hbool
      exact keeps_newWrap h hx hholds hne _ _ hwraps.2
    · obtain ⟨t, hlacks⟩ := h.lacks_of_toBool hy hbool
      have hnew := sets_new h.toOwned (impl_of_not_exists hx) maxSize moveOnly
      refine hnew.owned.not_sound_wrap (lacks_new w x _ _) (hlacks' _ _ hlacks) moved ?_
      rw [maxSize_new, maxSize_of_ne hne.symm]
      exact hwraps.2

/-- The same by assignment, where the size of a callable is not checked. -/
theorem assignConvert_iff {moved : Bool} (h : w.Sound C)
    (hstep : w.step C (.assignConvert x y moved) = some w') :
    (w.Careful C (.assignConvert x y moved) → Keeps C w (.assignConvert x y moved) w') ∧
      (¬w.Careful C (.assignConvert x y moved) → ¬w'.Sound C) := by
  simp only [World.step, Option.ite_none_right_eq_some, Bool.and_eq_true] at hstep
  obtain ⟨⟨hx, hy⟩, hstep⟩ := hstep
  obtain ⟨hsets, ⟨s, hcleared⟩, hsizex, -⟩ := h.cleared hx
  have hlacks' : ∀ {t : SmallFn}, x ≠ y → w.Lacks y t → (w.clear x).Lacks y t := fun hne ht =>
    ⟨(h.cleared_other hx hne.symm).2.2.1.trans ht.1, ht.2⟩
  split_ifs at hstep with hconverts hwraps
  · simp only [Option.some.injEq] at hstep
    have hall := hconverts
    simp only [converts, Bool.and_eq_true, Bool.not_eq_true', decide_eq_true_eq] at hall
    obtain ⟨⟨⟨rfl, hmove⟩, hcopy⟩, hsize⟩ := hall
    have hne : x ≠ y := by
      rintro rfl
      rw [hmove] at hcopy
      cases hcopy
    subst hstep
    refine ⟨fun hc => ?_, fun hc => ?_⟩
    · obtain ⟨i, o, hholds⟩ := h.holds_of_toBool hc.1
      exact keeps_assignConvert h hx hholds hne hsize
    · obtain ⟨t, hlacks⟩ := h.lacks_of_toBool hy fun hbool => hc ⟨hbool, .inl hconverts⟩
      exact not_sound_of_misused (copyToMoveOnly_misused (hlacks' hne hlacks))
  · simp only [Option.some.injEq] at hstep
    have hne : x ≠ y := by
      rintro rfl
      simp [wraps, hasType] at hwraps
    have hsizey := (h.cleared_other hx hne.symm).2.1
    subst hstep
    refine ⟨fun hc => ?_, fun hc => ?_⟩
    · obtain ⟨i, o, hholds⟩ := h.holds_of_toBool hc.1
      exact keeps_assignWrap h hx hholds hne moved (hc.2.resolve_left hconverts)
    · by_cases hfits : C.sizeofSmallFn (w.maxSize y) ≤ w.maxSize x
      · obtain ⟨t, hlacks⟩ := h.lacks_of_toBool hy fun hbool => hc ⟨hbool, .inr hfits⟩
        refine hsets.owned.not_sound_wrap hcleared (hlacks' hne hlacks) moved ?_
        rw [hsizey, hsizex]
        exact hfits
      · refine not_sound_of_misused (hsets.owned.wrap_misused ?_ hne moved ?_)
        · exact (h.cleared_other hx hne.symm).1.trans hy
        · rw [hsizey, hsizex]
          exact Nat.lt_of_not_le hfits

/-- **One step**: an operation on a sound world keeps it sound, with the effect that it is for, if
    and only if it is careful. -/
theorem Sound.step (h : w.Sound C) (hstep : w.step C op = some w') :
    (w'.Sound C ↔ w.Careful C op) ∧ (w'.Sound C → w'.seen = intended C w.seen op) := by
  have hkeeps : ∀ {w'}, Keeps C w op w' → w.Careful C op → (w'.Sound C ↔ w.Careful C op) ∧
      (w'.Sound C → w'.seen = intended C w.seen op) := fun hk hc =>
    ⟨iff_of_true hk.1 hc, fun _ => hk.2⟩
  have hbreaks : ∀ {w' : World τ F B}, ¬w'.Sound C → ¬w.Careful C op →
      (w'.Sound C ↔ w.Careful C op) ∧ (w'.Sound C → w'.seen = intended C w.seen op) :=
    fun hno hc => ⟨iff_of_false hno hc, fun hs => absurd hs hno⟩
  cases op with
  | new x maxSize moveOnly =>
    simp only [World.step, Option.ite_none_left_eq_some, Option.some.injEq] at hstep
    obtain ⟨hx, rfl⟩ := hstep
    exact hkeeps ((sets_new h.toOwned (impl_of_not_exists (Bool.eq_false_iff.mpr hx)) _ _).keeps h
      none_callable rfl) trivial
  | newFn x maxSize moveOnly type fn =>
    simp only [World.step, Option.ite_none_right_eq_some, Option.some.injEq, Bool.and_eq_true,
      Bool.not_eq_true', decide_eq_true_eq] at hstep
    obtain ⟨⟨hx, hfits⟩, rfl⟩ := hstep
    exact hkeeps (keeps_newFn h hx _ _ fn hfits) trivial
  | newMove x y =>
    simp only [World.step, Option.ite_none_right_eq_some, Option.some.injEq, Bool.and_eq_true,
      Bool.not_eq_true'] at hstep
    obtain ⟨⟨hx, hy⟩, rfl⟩ := hstep
    exact hkeeps (keeps_newMove h hx hy) trivial
  | newCopy x y =>
    simp only [World.step, Option.ite_none_right_eq_some, Option.some.injEq, Bool.and_eq_true,
      Bool.not_eq_true'] at hstep
    obtain ⟨⟨⟨hx, hy⟩, -⟩, rfl⟩ := hstep
    exact hkeeps (keeps_newCopy h hx hy) trivial
  | newConvert x y maxSize moveOnly moved =>
    obtain ⟨hholds, hempty⟩ := newConvert_iff h hstep
    by_cases hbool : w.toBool y = true
    · exact hkeeps (hholds hbool) hbool
    · exact hbreaks (hempty hbool) hbool
  | delete x =>
    simp only [World.step, Option.ite_none_right_eq_some, Option.some.injEq] at hstep
    obtain ⟨hx, rfl⟩ := hstep
    exact hkeeps (keeps_delete h hx) trivial
  | assignNull x =>
    simp only [World.step, Option.ite_none_right_eq_some, Option.some.injEq] at hstep
    obtain ⟨hx, rfl⟩ := hstep
    exact hkeeps ((h.cleared hx).1.keeps h none_callable rfl) trivial
  | assignFn x type fn =>
    simp only [World.step, Option.ite_none_right_eq_some, Option.some.injEq] at hstep
    obtain ⟨hx, rfl⟩ := hstep
    by_cases hfits : C.sizeofImpl type ≤ w.maxSize x
    · exact hkeeps (keeps_assignFn h hx fn hfits) hfits
    · exact hbreaks (not_sound_of_misused
        (assignFn_misused h.toOwned hx fn (Nat.lt_of_not_le hfits))) hfits
  | moveAssign x y =>
    simp only [World.step, Option.ite_none_right_eq_some, Option.some.injEq, Bool.and_eq_true,
      hasType, decide_eq_true_eq] at hstep
    obtain ⟨⟨⟨hx, hy⟩, hsize, -⟩, rfl⟩ := hstep
    exact hkeeps (keeps_moveAssign h hx hy hsize.le) trivial
  | copyAssign x y =>
    simp only [World.step, Option.ite_none_right_eq_some, Option.some.injEq, Bool.and_eq_true,
      hasType, decide_eq_true_eq] at hstep
    obtain ⟨⟨⟨⟨hx, hy⟩, hsize, -⟩, -⟩, rfl⟩ := hstep
    exact hkeeps (keeps_copyAssign h hx hy hsize.le) trivial
  | assignConvert x y moved =>
    obtain ⟨hcareful, hnot⟩ := assignConvert_iff h hstep
    by_cases hc : w.Careful C (.assignConvert x y moved)
    · exact hkeeps (hcareful hc) hc
    · exact hbreaks (hnot hc) hc
  | call x a =>
    simp only [World.step, Option.ite_none_right_eq_some, Option.some.injEq] at hstep
    obtain ⟨hbool, rfl⟩ := hstep
    obtain ⟨i, o, hholds⟩ := h.holds_of_toBool hbool
    exact hkeeps (keeps_call h hholds a) trivial

end World

/-! ## The result -/

/-- The state after the operations `pre` is that of values: a sound world, in which the functions
    hold and the calls have returned what the operations are for, `operator bool` tells whether
    there is a callable, and none is destroyed twice or left. -/
structure ValueSemantics (C : Callables τ F A B) (pre : List (Op τ F A)) (w : World τ F B) :
    Prop where
  sound : w.Sound C
  seen : w.seen = pre.foldl (intended C) {}
  bool_iff : ∀ x, w.exists? x = true → (w.toBool x = true ↔ ∃ f, w.contents x = some (some f))
  once : ∀ i, w.ledger.destroyed i ≤ 1
  all : (∀ x, w.exists? x = false) → ∀ i, i < w.ledger.made → w.ledger.destroyed i = 1

theorem valueSemantics_iff {pre : List (Op τ F A)} :
    ValueSemantics C pre w ↔ w.Sound C ∧ w.seen = pre.foldl (intended C) {} := by
  constructor
  · intro h
    exact ⟨h.sound, h.seen⟩
  · rintro ⟨hsound, hseen⟩
    refine ⟨hsound, hseen, fun x hx => ?_, hsound.held.tracked.destroyed_le, fun hnone i hi => ?_⟩
    · rcases hsound.cases hx with ⟨s, hlacks⟩ | ⟨i, o, hholds⟩
      · rw [hlacks.toBool, World.contents_eq hlacks.objects]
        refine iff_of_false Bool.false_ne_true ?_
        rintro ⟨f, hf⟩
        cases hf
      · obtain ⟨f, -, hf⟩ := hsound.fn hholds
        exact iff_of_true hholds.toBool ⟨f, hf⟩
    · exact hsound.held.tracked.destroyed_of_none
        (fun x => World.impl_of_not_exists (hnone x)) hi

/-- **Functions are values exactly in the programs that convert functions which hold a callable and
    assign what fits.** -/
theorem small_fn_iff (C : Callables τ F A B) (ops : List (Op τ F A)) :
    (∀ pre w, pre <+: ops → Program.exec (World.step C) {} pre = some w →
        ValueSemantics C pre w) ↔
      ∀ pre op w w', pre ++ [op] <+: ops → Program.exec (World.step C) {} pre = some w →
        w.step C op = some w' → w.Careful C op := by
  simp only [valueSemantics_iff]
  exact Program.refines_iff_careful (World.Sound C) World.seen
    World.sound_empty (fun h hs => (h.step hs).1) (fun h hs => (h.step hs).2) ops

/-- Callables that return a number, of any size, on a machine of 64 bits. -/
def constants : Callables Nat Nat Unit Nat where
  sizeofImpl size := size
  sizeofSmallFn maxSize := (maxSize + 15) / 16 * 16 + 32
  movedFrom n := n
  invoke n _ := (n, n)

/-- An empty function is converted, by construction and by assignment, a callable of 72 bytes is
    assigned to a function that has room for 56, and so is an rvalue of a copyable function, whose
    implementation takes 96. An empty rvalue with room is not empty afterwards. -/
theorem empty_conversion_misused :
    (¬∀ (ops pre : List (Op Nat Nat Unit)) (w : World Nat Nat Nat), pre <+: ops →
      Program.exec (World.step constants) {} pre = some w → ValueSemantics constants pre w) ∧
    (Program.exec (World.step constants) {}
      [.new 0 56 false, .newConvert 1 0 56 true false]).map (·.misused) = some true ∧
    (Program.exec (World.step constants) {}
      [.new 0 56 false, .newFn 1 56 true 16 7, .assignConvert 1 0 false]).map (·.misused) =
      some true ∧
    (Program.exec (World.step constants) {}
      [.new 0 56 false, .assignFn 0 72 7]).map (·.misused) = some true ∧
    (Program.exec (World.step constants) {}
      [.newFn 0 56 false 16 7, .new 1 56 true, .assignConvert 1 0 true]).map (·.misused) =
      some true ∧
    (Program.exec (World.step constants) {}
      [.new 0 56 false, .newConvert 1 0 96 true true]).map (fun w => (w.misused, w.toBool 1)) =
      some (false, true) := by
  have hconvert : (Program.exec (World.step constants) {}
      [.new 0 56 false, .newConvert 1 0 56 true false]).map (·.misused) = some true := by decide
  refine ⟨fun hall => ?_, hconvert, by decide, by decide, by decide, by decide⟩
  obtain ⟨w, hw, hmisused⟩ := Option.map_eq_some_iff.mp hconvert
  have hsound := (hall _ _ w (List.prefix_refl _) hw).sound
  rw [hsound.unmisused] at hmisused
  cases hmisused

end Batt.SmallFunction
