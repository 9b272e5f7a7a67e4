/-
  Objects with lifetimes, and slots that own them.

  A ledger knows the objects that are alive and how often each of those that were made has been
  destroyed. `Tracked` says that the slots own the live objects, one each and each by one slot,
  and that what is not alive any more was destroyed once. It is kept where an empty slot gets a
  new object, an owner destroys what it has or hands it to an empty slot, or an object changes in
  place; `contents` is what the owners see of it.
-/
import Mathlib.Logic.Function.Basic
import Mathlib.Order.Nat

namespace Lifetime

structure Ledger (O : Type) where
  alive : Nat → Option O := fun _ => none
  made : Nat := 0
  destroyed : Nat → Nat := fun _ => 0

variable {O S : Type}

namespace Ledger

/-- A new object, whose number is that of the objects made before. -/
def make (l : Ledger O) (o : O) : Ledger O :=
  { l with alive := Function.update l.alive l.made (some o), made := l.made + 1 }

def destroy (l : Ledger O) (i : Nat) : Ledger O :=
  { l with
    alive := Function.update l.alive i none
    destroyed := Function.update l.destroyed i (l.destroyed i + 1) }

def set (l : Ledger O) (i : Nat) (o : O) : Ledger O :=
  { l with alive := Function.update l.alive i (some o) }

end Ledger

variable {l : Ledger O} {own : S → Option Nat} {x y : S} {i : Nat} {o : O}

/-- The slots own the live objects, and no object is destroyed twice. -/
structure Tracked (l : Ledger O) (own : S → Option Nat) : Prop where
  unmade : ∀ i, l.made ≤ i → l.alive i = none ∧ l.destroyed i = 0
  kept : ∀ i o, l.alive i = some o → l.destroyed i = 0
  gone : ∀ i, i < l.made → l.alive i = none → l.destroyed i = 1
  alive : ∀ x i, own x = some i → ∃ o, l.alive i = some o
  injective : ∀ x y i, own x = some i → own y = some i → x = y
  owner : ∀ i o, l.alive i = some o → ∃ x, own x = some i

/-- What the slots own. -/
def contents (l : Ledger O) (own : S → Option Nat) (x : S) : Option O := (own x).bind l.alive

theorem tracked_empty : Tracked ({} : Ledger O) fun _ : S => none where
  unmade _ _ := ⟨rfl, rfl⟩
  kept _ _ h := by cases h
  gone i hi := absurd hi (Nat.not_lt_zero i)
  alive _ _ h := by cases h
  injective _ _ _ h := by cases h
  owner _ _ h := by cases h

theorem Tracked.lt_made (h : Tracked l own) (ho : l.alive i = some o) : i < l.made := by
  by_contra hge
  rw [(h.unmade i (Nat.le_of_not_lt hge)).1] at ho
  cases ho

theorem Tracked.destroyed_le (h : Tracked l own) (i : Nat) : l.destroyed i ≤ 1 := by
  by_cases hi : i < l.made
  · cases ho : l.alive i with
    | none => exact (h.gone i hi ho).le
    | some o => exact (h.kept i o ho).le.trans (Nat.zero_le 1)
  · exact (h.unmade i (Nat.le_of_not_lt hi)).2.le.trans (Nat.zero_le 1)

/-- Where no slot owns anything, each object that was made has been destroyed once. -/
theorem Tracked.destroyed_of_none (h : Tracked l own) (hnone : ∀ x, own x = none)
    (hi : i < l.made) : l.destroyed i = 1 := by
  have halive : l.alive i = none := by
    cases ho : l.alive i with
    | none => rfl
    | some o =>
      obtain ⟨x, hx⟩ := h.owner i o ho
      rw [hnone x] at hx
      cases hx
  exact h.gone i hi halive

theorem contents_of_own (hx : own x = some i) : contents l own x = l.alive i := by
  rw [contents, hx, Option.bind_some]

/-- An object changes where it is. -/
theorem Tracked.set (h : Tracked l own) (hx : own x = some i) (o : O) :
    Tracked (l.set i o) own := by
  obtain ⟨o₀, ho₀⟩ := h.alive x i hx
  have hold : ∀ j, j ≠ i → (l.set i o).alive j = l.alive j := fun j hj =>
    Function.update_of_ne hj _ _
  have hnew : (l.set i o).alive i = some o := Function.update_self _ _ _
  refine ⟨fun j hj => ?_, fun j o' hj => ?_, fun j hj hnone => ?_, fun y j hy => ?_,
    h.injective, fun j o' hj => ?_⟩
  · have hlt : i < j := (h.lt_made ho₀).trans_le hj
    rw [hold j hlt.ne']
    exact h.unmade j hj
  · by_cases hji : j = i
    · exact hji ▸ h.kept i o₀ ho₀
    · rw [hold j hji] at hj
      exact h.kept j o' hj
  · by_cases hji : j = i
    · rw [hji, hnew] at hnone
      cases hnone
    · rw [hold j hji] at hnone
      exact h.gone j hj hnone
  · by_cases hji : j = i
    · exact ⟨o, hji ▸ hnew⟩
    · rw [hold j hji]
      exact h.alive y j hy
  · by_cases hji : j = i
    · exact ⟨x, hji ▸ hx⟩
    · rw [hold j hji] at hj
      exact h.owner j o' hj

section Slots

variable [DecidableEq S]

/-! ## A new object -/

theorem Tracked.make (h : Tracked l own) (hx : own x = none) (o : O) :
    Tracked (l.make o) (Function.update own x (some l.made)) := by
  have hfresh : ∀ y, own y ≠ some l.made := by
    intro y hy
    obtain ⟨o', ho'⟩ := h.alive y _ hy
    exact absurd (h.lt_made ho') (Nat.lt_irrefl _)
  have hold : ∀ i, i ≠ l.made → (l.make o).alive i = l.alive i := fun i hi =>
    Function.update_of_ne hi _ _
  have hnew : (l.make o).alive l.made = some o := Function.update_self _ _ _
  refine ⟨fun i hi => ?_, fun i o' hi => ?_, fun i hi hnone => ?_, fun y i hy => ?_,
    fun y z i hy hz => ?_, fun i o' hi => ?_⟩
  · have hlt : l.made < i := hi
    rw [hold i (by omega)]
    exact h.unmade i (by omega)
  · by_cases hi' : i = l.made
    · rw [hi']
      exact (h.unmade _ (le_refl _)).2
    · rw [hold i hi'] at hi
      exact h.kept i o' hi
  · have hi' : i ≠ l.made := by
      rintro rfl
      rw [hnew] at hnone
      cases hnone
    rw [hold i hi'] at hnone
    exact h.gone i (by have hlt : i < l.made + 1 := hi; omega) hnone
  · by_cases hyx : y = x
    · rw [hyx, Function.update_self, Option.some.injEq] at hy
      exact ⟨o, hy ▸ hnew⟩
    · rw [Function.update_of_ne hyx] at hy
      obtain ⟨o', ho'⟩ := h.alive y i hy
      exact ⟨o', (hold i (h.lt_made ho').ne).trans ho'⟩
  · by_cases hyx : y = x <;> by_cases hzx : z = x
    · exact hyx.trans hzx.symm
    · rw [hyx, Function.update_self, Option.some.injEq] at hy
      rw [Function.update_of_ne hzx, ← hy] at hz
      exact absurd hz (hfresh z)
    · rw [hzx, Function.update_self, Option.some.injEq] at hz
      rw [Function.update_of_ne hyx, ← hz] at hy
      exact absurd hy (hfresh y)
    · rw [Function.update_of_ne hyx] at hy
      rw [Function.update_of_ne hzx] at hz
      exact h.injective y z i hy hz
  · by_cases hi' : i = l.made
    · exact ⟨x, by rw [Function.update_self, hi']⟩
    · rw [hold i hi'] at hi
      obtain ⟨y, hy⟩ := h.owner i o' hi
      refine ⟨y, ?_⟩
      rw [Function.update_of_ne, hy]
      rintro rfl
      rw [hx] at hy
      cases hy

theorem Tracked.contents_make (h : Tracked l own) (o : O) :
    contents (l.make o) (Function.update own x (some l.made)) =
      Function.update (contents l own) x (some o) := by
  funext y
  by_cases hyx : y = x
  · rw [hyx, contents, Function.update_self, Function.update_self]
    exact Function.update_self _ _ _
  · rw [contents, Function.update_of_ne hyx, Function.update_of_ne hyx, contents]
    cases hy : own y with
    | none => rfl
    | some i =>
      obtain ⟨o', ho'⟩ := h.alive y i hy
      exact Function.update_of_ne (h.lt_made ho').ne _ _

/-! ## Destroying -/

theorem Tracked.destroy (h : Tracked l own) (hx : own x = some i) :
    Tracked (l.destroy i) (Function.update own x none) := by
  obtain ⟨o, ho⟩ := h.alive x i hx
  have hold : ∀ j, j ≠ i → (l.destroy i).alive j = l.alive j := fun j hj =>
    Function.update_of_ne hj _ _
  have hgone : (l.destroy i).alive i = none := Function.update_self _ _ _
  have hother : ∀ y, y ≠ x → own y ≠ some i := fun y hyx hy => hyx (h.injective y x i hy hx)
  have hcount : ∀ j, j ≠ i → (l.destroy i).destroyed j = l.destroyed j := fun j hj =>
    Function.update_of_ne hj _ _
  refine ⟨fun j hj => ?_, fun j o' hj => ?_, fun j hj hnone => ?_, fun y j hy => ?_,
    fun y z j hy hz => ?_, fun j o' hj => ?_⟩
  · have hji : j ≠ i := ((h.lt_made ho).trans_le hj).ne'
    rw [hold j hji, hcount j hji]
    exact h.unmade j hj
  · by_cases hji : j = i
    · rw [hji, hgone] at hj
      cases hj
    · rw [hold j hji] at hj
      exact (hcount j hji).trans (h.kept j o' hj)
  · by_cases hji : j = i
    · have hone : (l.destroy i).destroyed i = l.destroyed i + 1 := Function.update_self _ _ _
      rw [hji, hone, h.kept i o ho]
    · rw [hold j hji] at hnone
      exact (hcount j hji).trans (h.gone j hj hnone)
  · by_cases hyx : y = x
    · rw [hyx, Function.update_self] at hy
      cases hy
    · rw [Function.update_of_ne hyx] at hy
      obtain ⟨o', ho'⟩ := h.alive y j hy
      exact ⟨o', (hold j fun hji => hother y hyx (hji ▸ hy)).trans ho'⟩
  · by_cases hyx : y = x
    · rw [hyx, Function.update_self] at hy
      cases hy
    · by_cases hzx : z = x
      · rw [hzx, Function.update_self] at hz
        cases hz
      · rw [Function.update_of_ne hyx] at hy
        rw [Function.update_of_ne hzx] at hz
        exact h.injective y z j hy hz
  · by_cases hji : j = i
    · rw [hji, hgone] at hj
      cases hj
    · rw [hold j hji] at hj
      obtain ⟨y, hy⟩ := h.owner j o' hj
      refine ⟨y, ?_⟩
      rw [Function.update_of_ne, hy]
      rintro rfl
      rw [hx] at hy
      exact hji (Option.some.inj hy).symm

theorem Tracked.contents_destroy (h : Tracked l own) (hx : own x = some i) :
    contents (l.destroy i) (Function.update own x none) =
      Function.update (contents l own) x none := by
  funext y
  by_cases hyx : y = x
  · rw [hyx, contents, Function.update_self, Function.update_self, Option.bind_none]
  · rw [contents, Function.update_of_ne hyx, Function.update_of_ne hyx, contents]
    cases hy : own y with
    | none => rfl
    | some j =>
      have hji : j ≠ i := fun hji => hyx (h.injective y x i (hji ▸ hy) hx)
      exact Function.update_of_ne hji _ _

/-! ## Changing in place -/

theorem Tracked.contents_set (h : Tracked l own) (hx : own x = some i) (o : O) :
    contents (l.set i o) own = Function.update (contents l own) x (some o) := by
  funext y
  by_cases hyx : y = x
  · rw [hyx, contents_of_own hx, Function.update_self]
    exact Function.update_self _ _ _
  · rw [Function.update_of_ne hyx, contents, contents]
    cases hy : own y with
    | none => rfl
    | some j =>
      have hji : j ≠ i := fun hji => hyx (h.injective y x i (hji ▸ hy) hx)
      exact Function.update_of_ne hji _ _

/-! ## Handing over -/

theorem Tracked.pass (h : Tracked l own) (hxy : x ≠ y) (hx : own x = none)
    (hy : own y = some i) :
    Tracked l (Function.update (Function.update own x (some i)) y none) := by
  have hat : ∀ z, Function.update (Function.update own x (some i)) y none z =
      if z = y then none else if z = x then some i else own z := by
    intro z
    by_cases hzy : z = y
    · rw [hzy, Function.update_self, if_pos rfl]
    · rw [Function.update_of_ne hzy, if_neg hzy]
      by_cases hzx : z = x
      · rw [hzx, Function.update_self, if_pos rfl]
      · rw [Function.update_of_ne hzx, if_neg hzx]
  refine ⟨h.unmade, h.kept, h.gone, fun z j hz => ?_, fun z z' j hz hz' => ?_, fun j o hj => ?_⟩
  · rw [hat] at hz
    split_ifs at hz with hzy hzx
    · rw [← Option.some.inj hz]
      exact h.alive y i hy
    · exact h.alive z j hz
  · rw [hat] at hz hz'
    split_ifs at hz hz' with hzy hzx hzy' hzx' hzy' hzx'
    · exact hzx.trans hzx'.symm
    · rw [← Option.some.inj hz] at hz'
      exact absurd (h.injective z' y i hz' hy) hzy'
    · rw [← Option.some.inj hz'] at hz
      exact absurd (h.injective z y i hz hy) hzy
    · exact h.injective z z' j hz hz'
  · obtain ⟨z, hz⟩ := h.owner j o hj
    by_cases hzy : z = y
    · rw [hzy, hy] at hz
      exact ⟨x, by rw [hat, if_neg hxy, if_pos rfl, hz]⟩
    · refine ⟨z, ?_⟩
      rw [hat, if_neg hzy, if_neg, hz]
      rintro rfl
      rw [hx] at hz
      cases hz

theorem contents_update_own (p : Option Nat) :
    contents l (Function.update own x p) =
      Function.update (contents l own) x (p.bind l.alive) := by
  funext z
  by_cases hzx : z = x
  · rw [hzx, contents, Function.update_self, Function.update_self]
  · rw [contents, Function.update_of_ne hzx, Function.update_of_ne hzx, contents]

end Slots

/-! ## Holders -/

/-- How a holder in the state `s` has its object: none, or the one with a number. -/
structure Holder (H O : Type) where
  impl : H → Option Nat
  Empty : H → Prop
  Full : H → Nat → O → Prop
  impl_of_empty : ∀ {s}, Empty s → impl s = none
  impl_of_full : ∀ {s i o}, Full s i o → impl s = some i

namespace Holder

variable {H : Type} (R : Holder H O) {slots : S → Option H} {s s' : H} {o' : O}

def owned (slots : S → Option H) (x : S) : Option Nat := (slots x).bind R.impl

/-- What the holders hold: none for one that is not there. -/
def held (slots : S → Option H) (l : Ledger O) (x : S) : Option (Option O) :=
  (slots x).map fun s => (R.impl s).bind l.alive

/-- The holder at `x` has the object with the number `i`. -/
def Holds (slots : S → Option H) (l : Ledger O) (x : S) (i : Nat) (o : O) : Prop :=
  ∃ s, slots x = some s ∧ R.Full s i o ∧ l.alive i = some o

structure Sound (slots : S → Option H) (l : Ledger O) : Prop where
  tracked : Tracked l (R.owned slots)
  cases : ∀ x s, slots x = some s → R.Empty s ∨ ∃ i o, R.Holds slots l x i o

variable {R}

theorem Holds.owned (h : R.Holds slots l x i o) : R.owned slots x = some i := by
  obtain ⟨s, hs, hfull, -⟩ := h
  rw [Holder.owned, hs, Option.bind_some, R.impl_of_full hfull]

theorem Holds.alive (h : R.Holds slots l x i o) : l.alive i = some o := by
  obtain ⟨-, -, -, ho⟩ := h
  exact ho

theorem Holds.held (h : R.Holds slots l x i o) : R.held slots l x = some (some o) := by
  obtain ⟨s, hs, hfull, ho⟩ := h
  rw [Holder.held, hs, Option.map_some, R.impl_of_full hfull, Option.bind_some, ho]

theorem sound_empty : R.Sound (fun _ : S => none) {} where
  tracked := tracked_empty
  cases _ _ h := by cases h

theorem held_eq (R : Holder H O) (slots : S → Option H) (l : Ledger O) (x : S) :
    R.held slots l x = (slots x).map fun _ => contents l (R.owned slots) x := by
  unfold held contents owned
  cases slots x <;> rfl

/-- Two holders have two objects. -/
theorem Sound.ne (h : R.Sound slots l) {j : Nat} (hx : R.Holds slots l x i o)
    (hy : R.Holds slots l y j o') (hne : y ≠ x) : j ≠ i := by
  rintro rfl
  exact hne (h.tracked.injective y x j hy.owned hx.owned)

/-- The object changes where it is, to one that the holder has in the same state. -/
theorem Holds.set (hx : R.Holds slots l x i o) (hs : ∀ s, R.Full s i o → R.Full s i o') :
    R.Holds slots (l.set i o') x i o' := by
  obtain ⟨s, hslot, hfull, -⟩ := hx
  exact ⟨s, hslot, hs s hfull, Function.update_self _ _ _⟩

theorem Sound.set (h : R.Sound slots l) (hx : R.Holds slots l x i o)
    (hs : ∀ s, R.Full s i o → R.Full s i o') : R.Sound slots (l.set i o') where
  tracked := h.tracked.set hx.owned _
  cases z t hz := by
    rcases h.cases z t hz with hempty | ⟨j, p, hholds⟩
    · exact .inl hempty
    · by_cases hzx : z = x
      · exact .inr ⟨i, o', hzx ▸ hx.set hs⟩
      · obtain ⟨u, hu, hfull, hp⟩ := hholds
        exact .inr ⟨j, p, u, hu, hfull, (Function.update_of_ne
          (h.ne hx ⟨u, hu, hfull, hp⟩ hzx) _ _).trans hp⟩

variable [DecidableEq S]

theorem owned_update (R : Holder H O) (slots : S → Option H) (x : S) (a : Option H) :
    R.owned (Function.update slots x a) = Function.update (R.owned slots) x (a.bind R.impl) := by
  funext z
  by_cases hz : z = x
  · rw [hz, Function.update_self, owned, Function.update_self]
  · rw [Function.update_of_ne hz, owned, owned, Function.update_of_ne hz]

theorem held_update {l' : Ledger O} {a : Option H} {b : Option O}
    (h : contents l' (Function.update (R.owned slots) x (a.bind R.impl)) =
      Function.update (contents l (R.owned slots)) x b) :
    R.held (Function.update slots x a) l' =
      Function.update (R.held slots l) x (a.map fun _ => b) := by
  funext z
  have hat := congrFun h z
  rw [held_eq, owned_update]
  by_cases hz : z = x
  · rw [hz, Function.update_self] at hat ⊢
    rw [Function.update_self]
    exact congrArg (Option.map · a) (funext fun _ => hat)
  · rw [Function.update_of_ne hz] at hat ⊢
    rw [Function.update_of_ne hz, held_eq]
    exact congrArg (Option.map · (slots z)) (funext fun _ => hat)

/-- Another holder keeps its object if that stays. -/
theorem Holds.update {l' : Ledger O} (h : R.Holds slots l y i o) (a : Option H) (hne : y ≠ x)
    (hl : l'.alive i = l.alive i) : R.Holds (Function.update slots x a) l' y i o := by
  obtain ⟨s, hs, hfull, ho⟩ := h
  exact ⟨s, (Function.update_of_ne hne _ _).trans hs, hfull, hl.trans ho⟩

theorem Sound.update {l' : Ledger O} {a : Option H} (h : R.Sound slots l)
    (htracked : Tracked l' (Function.update (R.owned slots) x (a.bind R.impl)))
    (hself : ∀ s, a = some s →
      R.Empty s ∨ ∃ i o, R.Holds (Function.update slots x a) l' x i o)
    (hstay : ∀ y i o, y ≠ x → R.Holds slots l y i o → l'.alive i = l.alive i) :
    R.Sound (Function.update slots x a) l' where
  tracked := by
    rw [owned_update]
    exact htracked
  cases z t hz := by
    by_cases hzx : z = x
    · rw [hzx, Function.update_self] at hz
      rw [hzx]
      exact hself t hz
    · rw [Function.update_of_ne hzx] at hz
      rcases h.cases z t hz with hempty | ⟨i, o, hholds⟩
      · exact .inl hempty
      · exact .inr ⟨i, o, hholds.update a hzx (hstay z i o hzx hholds)⟩

/-! ### Coming and going -/

theorem Sound.add (h : R.Sound slots l) (hx : R.owned slots x = none) (hs : R.Empty s) :
    R.Sound (Function.update slots x (some s)) l := by
  refine h.update ?_ (fun t ht => .inl (Option.some.inj ht ▸ hs)) fun _ _ _ _ _ => rfl
  rw [Option.bind_some, R.impl_of_empty hs, ← hx, Function.update_eq_self]
  exact h.tracked

theorem held_add (hs : R.Empty s) :
    R.held (Function.update slots x (some s)) l =
      Function.update (R.held slots l) x (some none) :=
  held_update (by rw [Option.bind_some, R.impl_of_empty hs]; exact contents_update_own none)

theorem Sound.remove (h : R.Sound slots l) (hx : R.owned slots x = none) :
    R.Sound (Function.update slots x none) l := by
  refine h.update ?_ (fun _ ht => by cases ht) fun _ _ _ _ _ => rfl
  rw [Option.bind_none, ← hx, Function.update_eq_self]
  exact h.tracked

theorem held_remove :
    R.held (Function.update slots x none) l = Function.update (R.held slots l) x none :=
  held_update (b := none) (contents_update_own none)

/-! ### Objects -/

theorem Sound.make (h : R.Sound slots l) (hx : R.owned slots x = none)
    (hs : R.Full s l.made o) : R.Sound (Function.update slots x (some s)) (l.make o) := by
  refine h.update ?_ (fun t ht => .inr ?_) fun y i o' _ hy => ?_
  · rw [Option.bind_some, R.impl_of_full hs]
    exact h.tracked.make hx o
  · exact ⟨l.made, o, s, Function.update_self _ _ _, hs, Function.update_self _ _ _⟩
  · exact Function.update_of_ne (h.tracked.lt_made hy.alive).ne _ _

theorem Sound.held_make (h : R.Sound slots l) (hs : R.Full s l.made o) :
    R.held (Function.update slots x (some s)) (l.make o) =
      Function.update (R.held slots l) x (some (some o)) :=
  held_update (by
    rw [Option.bind_some, R.impl_of_full hs]
    exact h.tracked.contents_make o)

theorem Sound.destroy (h : R.Sound slots l) (hx : R.Holds slots l x i o) (hs : R.Empty s) :
    R.Sound (Function.update slots x (some s)) (l.destroy i) := by
  refine h.update ?_ (fun t ht => .inl (Option.some.inj ht ▸ hs)) fun y j o' hne hy => ?_
  · rw [Option.bind_some, R.impl_of_empty hs]
    exact h.tracked.destroy hx.owned
  · exact Function.update_of_ne (h.ne hx hy hne) _ _

theorem Sound.held_destroy (h : R.Sound slots l) (hx : R.Holds slots l x i o) (hs : R.Empty s) :
    R.held (Function.update slots x (some s)) (l.destroy i) =
      Function.update (R.held slots l) x (some none) :=
  held_update (by
    rw [Option.bind_some, R.impl_of_empty hs]
    exact h.tracked.contents_destroy hx.owned)

theorem Sound.held_set (h : R.Sound slots l) (hx : R.Holds slots l x i o) (o' : O) :
    R.held slots (l.set i o') = Function.update (R.held slots l) x (some (some o')) := by
  funext z
  have hat := congrFun (h.tracked.contents_set hx.owned o') z
  rw [held_eq]
  by_cases hz : z = x
  · rw [hz, Function.update_self] at hat ⊢
    obtain ⟨s, hs, -, -⟩ := hx
    rw [hs]
    exact congrArg some hat
  · rw [Function.update_of_ne hz] at hat ⊢
    rw [held_eq]
    exact congrArg (Option.map · (slots z)) (funext fun _ => hat)

/-- An empty holder takes over the object of another one, which is empty then. -/
theorem Sound.pass (h : R.Sound slots l) (hne : x ≠ y) (hx : R.owned slots x = none)
    (hy : R.Holds slots l y i o) (hs : R.Full s i o) (hs' : R.Empty s') :
    R.Sound (Function.update (Function.update slots x (some s)) y (some s')) l where
  tracked := by
    rw [owned_update, owned_update, Option.bind_some, Option.bind_some, R.impl_of_full hs,
      R.impl_of_empty hs']
    exact h.tracked.pass hne hx hy.owned
  cases z t hz := by
    by_cases hzy : z = y
    · rw [hzy, Function.update_self] at hz
      exact .inl (Option.some.inj hz ▸ hs')
    · by_cases hzx : z = x
      · refine .inr ⟨i, o, s, ?_, hs, hy.alive⟩
        rw [Function.update_of_ne hzy, hzx, Function.update_self]
      · have hsame : Function.update (Function.update slots x (some s)) y (some s') z = slots z := by
          rw [Function.update_of_ne hzy, Function.update_of_ne hzx]
        rcases h.cases z t (hsame ▸ hz) with hempty | ⟨j, p, hholds⟩
        · exact .inl hempty
        · exact .inr ⟨j, p, (hholds.update _ hzx rfl).update _ hzy rfl⟩

theorem held_pass (hy : R.Holds slots l y i o) (hs : R.Full s i o) (hs' : R.Empty s') :
    R.held (Function.update (Function.update slots x (some s)) y (some s')) l =
      Function.update (Function.update (R.held slots l) x (some (some o))) y (some none) := by
  rw [held_add hs', held_update (b := some o) (by
    rw [Option.bind_some, R.impl_of_full hs, contents_update_own, Option.bind_some, hy.alive])]
  rfl

end Holder

end Lifetime
