/-
  Which programs keep the value of a `StatusOr` alive exactly while it is OK.

  `Sound` is the representation invariant of all objects, and that no value was misused. Every
  operation on a sound world amounts to a few `put`s (the `_eq` lemmas), and gives a sound one,
  whether a construction in it throws or not, with two exceptions: an assignment of a value sets
  the status to OK before it constructs, and `emplace` of an object that is OK leaves the status
  as it is. Both destroy the old value first, which may be the argument. `Careful` is what a
  program has to keep to.
-/
import Batt.Lib.Program
import Batt.StatusOr.Model

namespace Batt.StatusOrObject

variable {V : Type} {vals : Values V} {w w' : World V} {x y : Nat} {o : Object V} {s : StatusCode}
  {v : V} {arg : Arg V} {throws : Bool}

/-! ## The invariant -/

def Object.Sound (o : Object V) : Prop := o.value.isSome = true ↔ o.status = .kOk

/-- What a moved-from value leaves in an object that holds `v`. -/
def leftIn (vals : Values V) (move : Bool) (v : V) : V := if move then vals.movedFrom v else v

namespace World

structure Sound (w : World V) : Prop where
  unmisused : w.misused = false
  objects : ∀ x o, w.objects x = some o → o.Sound

/-- The object is OK and holds a value. -/
def Holds (w : World V) (x : Nat) (v : V) : Prop := w.objects x = some ⟨.kOk, some v⟩

/-- The object is not OK and holds none. -/
def Lacks (w : World V) (x : Nat) (s : StatusCode) : Prop :=
  s ≠ .kOk ∧ w.objects x = some ⟨s, none⟩

theorem Sound.cases (h : w.Sound) (hx : w.exists? x = true) :
    (∃ v, w.Holds x v) ∨ ∃ s, w.Lacks x s := by
  obtain ⟨⟨s, value⟩, ho⟩ := Option.isSome_iff_exists.mp hx
  have hsound := h.objects x _ ho
  unfold Object.Sound at hsound
  cases value with
  | some v =>
    obtain rfl : s = .kOk := hsound.mp rfl
    exact .inl ⟨v, ho⟩
  | none =>
    refine .inr ⟨s, fun hs => ?_, ho⟩
    cases hsound.mpr hs

theorem Sound.put (h : w.Sound) (ho : o.Sound) : (w.put x (some o)).Sound where
  unmisused := h.unmisused
  objects i o' hi := by
    unfold World.put at hi
    dsimp only at hi
    split at hi
    · cases hi
      exact ho
    · exact h.objects i o' hi

theorem Sound.remove (h : w.Sound) : (w.put x none).Sound where
  unmisused := h.unmisused
  objects i o' hi := by
    unfold World.put at hi
    dsimp only at hi
    split at hi
    · cases hi
    · exact h.objects i o' hi

theorem sound_value (v : V) : (⟨.kOk, some v⟩ : Object V).Sound := iff_of_true rfl rfl

theorem sound_status (hs : s ≠ .kOk) : (⟨s, none⟩ : Object V).Sound :=
  iff_of_false (by simp) hs

/-! ## Storage -/

@[simp] theorem put_self (w : World V) (x : Nat) (o : Option (Object V)) :
    (w.put x o).objects x = o := if_pos rfl

theorem put_other (w : World V) (o : Option (Object V)) (h : y ≠ x) :
    (w.put x o).objects y = w.objects y := if_neg h

@[simp] theorem put_put (w : World V) (x : Nat) (a b : Option (Object V)) :
    (w.put x a).put x b = w.put x b := by
  unfold put
  simp only [World.mk.injEq, and_true]
  funext i
  split <;> rfl

@[simp] theorem flag_false (w : World V) : w.flag false = w := by
  unfold flag
  rw [Bool.or_false]

/-- A later `put` hides an earlier one. -/
@[simp] theorem put_hides (w : World V) (a b d : Option (Object V)) :
    ((w.put x a).put y b).put x d = (w.put y b).put x d := by
  unfold put
  simp only [World.mk.injEq, and_true]
  funext i
  split
  · rfl
  · split <;> rfl

theorem put_same {o : Option (Object V)} (h : w.objects x = o) : w.put x o = w := by
  unfold put
  cases w
  simp only [World.mk.injEq, and_true]
  funext i
  split
  · rename_i hi
    rw [hi]
    exact h.symm
  · rfl

/-! ## What the operations are for -/

/-- What an object holds: a value, or the code of a status that is not OK. -/
def contents (w : World V) (x : Nat) : Option (StatusOr V) :=
  (w.objects x).map fun o => o.value.elim (.error o.status) .ok

end World

/-- The contents with those of one object replaced. -/
def replace (c : Nat → Option (StatusOr V)) (x : Nat) (a : Option (StatusOr V)) :
    Nat → Option (StatusOr V) :=
  fun i => if i = x then a else c i

theorem replace_same {c : Nat → Option (StatusOr V)} {a : Option (StatusOr V)} (h : c x = a) :
    replace c x a = c := by
  funext i
  unfold replace
  split
  · rename_i hi
    rw [hi, h]
  · rfl

/-- A value goes into an object, moved out of another one if the argument says so. -/
def stored (vals : Values V) (c : Nat → Option (StatusOr V)) (x : Nat) :
    Arg V → Nat → Option (StatusOr V)
  | .given v => replace c x (some (.ok v))
  | .inside y move =>
    match c y with
    | some (.ok v) => replace (replace c y (some (.ok (leftIn vals move v)))) x (some (.ok v))
    | other => replace c x other

/-- An operation on the contents, where nothing throws. -/
def intended (vals : Values V) (c : Nat → Option (StatusOr V)) : Op V → Nat → Option (StatusOr V)
  | .new x => replace c x (some (.error .kUnknown))
  | .newStatus x s => replace c x (some (.error s))
  | .newMove x y _ =>
    match c y with
    | some (.ok v) => replace (replace c x (some (.ok v))) y (some (.error .kUnknown))
    | other => replace c x other
  | .newCopy x y _ => stored vals c x (.inside y false)
  | .newValue x arg _ => stored vals c x arg
  | .delete x => replace c x none
  | .assignValue x arg _ => stored vals c x arg
  | .copyAssign x y _ => if x = y then c else stored vals c x (.inside y false)
  | .moveAssign x y _ => if x = y then c else stored vals c x (.inside y true)
  | .assignStatus x s => replace c x (some (.error s))
  | .emplace x arg _ => stored vals c x arg
  | .emplaceFrom move x y _ => stored vals c x (.inside y move)

/-- The operation does not throw, and does not take the value of the object it replaces. -/
def Op.Plain : Op V → Prop
  | .newMove _ _ throws | .newCopy _ _ throws | .newValue _ _ throws => throws = false
  | .assignValue x arg throws | .emplace x arg throws => throws = false ∧ arg.source ≠ some x
  | .copyAssign _ _ throws | .moveAssign _ _ throws => throws = none
  | .emplaceFrom _ x y throws => throws = false ∧ x ≠ y
  | _ => True

namespace World

/-- What a program has to keep to. -/
def Careful (w : World V) : Op V → Prop
  | .assignValue x arg throws => throws = false ∧ arg.source ≠ some x
  | .emplace x arg throws => w.ok x = true → throws = false ∧ arg.source ≠ some x
  | _ => True

/-- An operation leaves a sound world, and a plain one does what it is for. -/
structure Keeps (vals : Values V) (w : World V) (op : Op V) (w' : World V) : Prop where
  sound : w'.Sound
  stores : op.Plain → w'.contents = intended vals w.contents op

@[simp] theorem contents_put (w : World V) (x : Nat) (o : Object V) :
    (w.put x (some o)).contents =
      replace w.contents x (some (o.value.elim (.error o.status) .ok)) := by
  funext i
  unfold contents replace put
  dsimp only
  split <;> rfl

@[simp] theorem contents_remove (w : World V) (x : Nat) :
    (w.put x none).contents = replace w.contents x none := by
  funext i
  unfold contents replace put
  dsimp only
  split <;> rfl

theorem Holds.contents (hx : w.Holds x v) : w.contents x = some (.ok v) := by
  simp [World.contents, show w.objects x = _ from hx]

theorem Lacks.contents (hx : w.Lacks x s) : w.contents x = some (.error s) := by
  simp [World.contents, hx.2]

variable {move : Bool}

theorem Sound.holds_of_names (h : w.Sound) (harg : w.names (.inside y move) = true) :
    ∃ v, w.Holds y v := by
  have hok : w.ok y = true := by simpa [names, Arg.source] using harg
  have hy : w.exists? y = true := by
    unfold exists?
    cases hobj : w.objects y with
    | some o => rfl
    | none => simp [ok, status, hobj] at hok
  rcases h.cases hy with hv | ⟨s, hs⟩
  · exact hv
  · simp [ok, status, hs.2, hs.1] at hok

/-! ## Constructors -/

theorem ne_of_new (hx : w.exists? x = false) (hy : w.exists? y = true) : x ≠ y := by
  rintro rfl
  rw [hx] at hy
  cases hy

theorem keeps_newMove (h : w.Sound) (hne : x ≠ y) (hy : w.exists? y = true) :
    Keeps vals w (.newMove x y throws) (w.newMove vals x y throws) := by
  rcases h.cases hy with ⟨v, hv⟩ | ⟨s, hs⟩
  · have hobj : w.objects y = _ := hv
    cases throws with
    | true =>
      have heq : w.newMove vals x y true = w.put x none := by
        simp [newMove, construct, touch, release, value, ok, status, put_other, hne.symm, hobj]
      rw [heq]
      exact ⟨h.remove, fun hp => by cases hp⟩
    | false =>
      have heq : w.newMove vals x y false =
          (w.put x (some ⟨.kOk, some v⟩)).put y (some ⟨.kUnknown, none⟩) := by
        simp [newMove, construct, touch, moveOut, place, setStatus, destroyValue, modify, value, ok,
          status, put_other, hne, hne.symm, hobj]
      rw [heq]
      refine ⟨(h.put (sound_value v)).put (sound_status (by decide)), fun _ => ?_⟩
      simp [intended, hv.contents]
  · have heq : w.newMove vals x y throws = w.put x (some ⟨s, none⟩) := by
      simp [newMove, setStatus, modify, ok, status, put_other, hne.symm, hs.2, hs.1]
    rw [heq]
    refine ⟨h.put (sound_status hs.1), fun _ => ?_⟩
    simp [intended, hs.contents]

theorem keeps_newCopy (h : w.Sound) (hne : x ≠ y) (hy : w.exists? y = true) :
    Keeps vals w (.newCopy x y throws) (w.newCopy vals x y throws) := by
  rcases h.cases hy with ⟨v, hv⟩ | ⟨s, hs⟩
  · have hobj : w.objects y = _ := hv
    cases throws with
    | true =>
      have heq : w.newCopy vals x y true = w.put x none := by
        simp [newCopy, construct, touch, release, value, ok, status, put_other, hne.symm, hobj]
      rw [heq]
      exact ⟨h.remove, fun hp => by cases hp⟩
    | false =>
      have heq : w.newCopy vals x y false = w.put x (some ⟨.kOk, some v⟩) := by
        simp [newCopy, construct, touch, moveOut, place, modify, value, ok, status, put_other,
          hne.symm, hobj]
      rw [heq]
      refine ⟨h.put (sound_value v), fun _ => ?_⟩
      simp [intended, stored, leftIn, hv.contents, replace_same hv.contents]
  · have heq : w.newCopy vals x y throws = w.put x (some ⟨s, none⟩) := by
      simp [newCopy, ok, status, hs.2, hs.1]
    rw [heq]
    refine ⟨h.put (sound_status hs.1), fun _ => ?_⟩
    simp [intended, stored, hs.contents]

theorem keeps_newValue (h : w.Sound) (hx : w.exists? x = false) (harg : w.names arg = true) :
    Keeps vals w (.newValue x arg throws) (w.newValue vals x arg throws) := by
  cases arg with
  | given v =>
    cases throws with
    | true =>
      have heq : w.newValue vals x (.given v) true = w.put x none := by
        simp [newValue, construct, release, value]
      rw [heq]
      exact ⟨h.remove, fun hp => by cases hp⟩
    | false =>
      have heq : w.newValue vals x (.given v) false = w.put x (some ⟨.kOk, some v⟩) := by
        simp [newValue, construct, place, modify, value]
      rw [heq]
      refine ⟨h.put (sound_value v), fun _ => ?_⟩
      simp [intended, stored]
  | inside y move =>
    obtain ⟨v, hv⟩ := h.holds_of_names harg
    have hobj : w.objects y = _ := hv
    have hne : x ≠ y := ne_of_new hx (by rw [exists?, hobj]; rfl)
    cases throws with
    | true =>
      have heq : w.newValue vals x (.inside y move) true = w.put x none := by
        simp [newValue, construct, touch, release, value, put_other, hne.symm, hobj]
      rw [heq]
      exact ⟨h.remove, fun hp => by cases hp⟩
    | false =>
      have heq : w.newValue vals x (.inside y move) false =
          (w.put y (some ⟨.kOk, some (leftIn vals move v)⟩)).put x (some ⟨.kOk, some v⟩) := by
        cases move <;>
          simp [newValue, construct, touch, moveOut, place, modify, value, put_other, leftIn, hne,
            hne.symm, hobj, put_same hobj]
      rw [heq]
      refine ⟨(h.put (sound_value _)).put (sound_value v), fun _ => ?_⟩
      simp [intended, stored, hv.contents]

theorem keeps_delete (h : w.Sound) (hx : w.exists? x = true) :
    Keeps vals w (.delete x) (w.delete x) := by
  have heq : w.delete x = w.put x none := by
    rcases h.cases hx with ⟨v, hv⟩ | ⟨s, hs⟩
    · have hobj : w.objects x = _ := hv
      simp [delete, destroyValue, release, modify, value, ok, status, hobj]
    · simp [delete, release, value, ok, status, hs.2, hs.1]
  rw [heq]
  refine ⟨h.remove, fun _ => ?_⟩
  simp [intended]

/-! ## Statuses -/

theorem keeps_new (h : w.Sound) : Keeps vals w (.new x) (w.new x) :=
  ⟨h.put (sound_status (by decide)), fun _ => by simp [new, intended]⟩

theorem keeps_newStatus (h : w.Sound) (hw' : w.newStatus x s = some w') :
    Keeps vals w (.newStatus x s) w' := by
  unfold newStatus at hw'
  split at hw'
  · cases hw'
  · rename_i hs
    cases hw'
    exact ⟨h.put (sound_status hs), fun _ => by simp [intended]⟩

theorem keeps_assignStatus (h : w.Sound) (hx : w.exists? x = true)
    (hw' : w.assignStatus x s = some w') : Keeps vals w (.assignStatus x s) w' := by
  unfold assignStatus at hw'
  split at hw'
  · cases hw'
  · rename_i hs
    have heq : w' = w.put x (some ⟨s, none⟩) := by
      refine (Option.some.inj hw').symm.trans ?_
      rcases h.cases hx with ⟨v, hv⟩ | ⟨t, ht⟩
      · have hobj : w.objects x = _ := hv
        simp [destroyValue, setStatus, modify, value, ok, status, hobj]
      · simp [setStatus, modify, ok, status, ht.2, ht.1]
    rw [heq]
    exact ⟨h.put (sound_status hs), fun _ => by simp [intended]⟩

/-! ## From another object -/

/-- The value that the two objects have ends up in both, but for what moving it leaves. -/
def handOver (vals : Values V) (move : Bool) (w : World V) (x y : Nat) (v : V) : World V :=
  (w.put y (some ⟨.kOk, some (leftIn vals move v)⟩)).put x (some ⟨.kOk, some v⟩)

theorem Sound.handOver (h : w.Sound) : (handOver vals move w x y v).Sound :=
  (h.put (sound_value _)).put (sound_value v)

theorem contents_handOver (hy : w.Holds y v) :
    (handOver vals move w x y v).contents = stored vals w.contents x (.inside y move) := by
  simp [World.handOver, stored, hy.contents]

theorem assignFrom_value (hne : x ≠ y) (hx : w.exists? x = true) (h : w.Sound) (hy : w.Holds y v) :
    w.assignFrom vals move x y none = handOver vals move w x y v := by
  have hobj : w.objects y = _ := hy
  rcases h.cases hx with ⟨u, hu⟩ | ⟨t, ht⟩
  · have hobj' : w.objects x = _ := hu
    cases move <;>
      simp [assignFrom, handOver, touch, moveOut, setStatus, modify, value, ok, status, put_other,
        leftIn, hne, hobj, hobj', put_same hobj]
  · cases move <;>
      simp [assignFrom, handOver, construct, place, touch, moveOut, setStatus, modify, value, ok,
        status, put_other, leftIn, hne, hobj, ht.2, ht.1, put_same hobj]

theorem assignFrom_status {throws : Option V} (hne : x ≠ y) (hx : w.exists? x = true) (h : w.Sound)
    (hy : w.Lacks y s) :
    w.assignFrom vals move x y throws = w.put x (some ⟨s, none⟩) := by
  rcases h.cases hx with ⟨u, hu⟩ | ⟨t, ht⟩
  · have hobj' : w.objects x = _ := hu
    simp [assignFrom, destroyValue, setStatus, modify, value, ok, status, hne, hobj', hy.2, hy.1]
  · simp [assignFrom, setStatus, modify, ok, status, hne, ht.2, ht.1, hy.2, hy.1]

/-- What the assignment of the value leaves behind when it throws is still alive. -/
theorem sound_assignFrom_throws {left : V} (hne : x ≠ y) (hx : w.exists? x = true) (h : w.Sound)
    (hy : w.Holds y v) : (w.assignFrom vals move x y (some left)).Sound := by
  have hobj : w.objects y = _ := hy
  rcases h.cases hx with ⟨u, hu⟩ | ⟨t, ht⟩
  · have hobj' : w.objects x = _ := hu
    have heq : w.assignFrom vals move x y (some left) = w.put x (some ⟨.kOk, some left⟩) := by
      simp [assignFrom, touch, modify, value, ok, status, hne, hobj, hobj']
    rw [heq]
    exact h.put (sound_value left)
  · have heq : w.assignFrom vals move x y (some left) = w := by
      simp [assignFrom, construct, touch, value, ok, status, hne, hobj, ht.2, ht.1]
    rw [heq]
    exact h

theorem sound_assignFrom {throws : Option V} (h : w.Sound) (hx : w.exists? x = true)
    (hy : w.exists? y = true) :
    (w.assignFrom vals move x y throws).Sound := by
  by_cases hne : x = y
  · rw [assignFrom, if_pos hne]
    exact h
  rcases h.cases hy with ⟨v, hv⟩ | ⟨s, hs⟩
  · cases throws with
    | none =>
      rw [assignFrom_value hne hx h hv]
      exact h.handOver
    | some left => exact sound_assignFrom_throws hne hx h hv
  · rw [assignFrom_status hne hx h hs]
    exact h.put (sound_status hs.1)

theorem contents_assignFrom (h : w.Sound) (hx : w.exists? x = true) (hy : w.exists? y = true) :
    (w.assignFrom vals move x y none).contents =
      if x = y then w.contents else stored vals w.contents x (.inside y move) := by
  by_cases hne : x = y
  · rw [assignFrom, if_pos hne, if_pos hne]
  rw [if_neg hne]
  rcases h.cases hy with ⟨v, hv⟩ | ⟨s, hs⟩
  · rw [assignFrom_value hne hx h hv, contents_handOver hv]
  · rw [assignFrom_status hne hx h hs]
    simp [stored, hs.contents]

theorem keeps_copyAssign {throws : Option V} (h : w.Sound) (hx : w.exists? x = true)
    (hy : w.exists? y = true) :
    Keeps vals w (.copyAssign x y throws) (w.copyAssign vals x y throws) where
  sound := sound_assignFrom h hx hy
  stores hplain := by
    obtain rfl : throws = none := hplain
    exact contents_assignFrom h hx hy

theorem keeps_moveAssign {throws : Option V} (h : w.Sound) (hx : w.exists? x = true)
    (hy : w.exists? y = true) :
    Keeps vals w (.moveAssign x y throws) (w.moveAssign vals x y throws) where
  sound := sound_assignFrom h hx hy
  stores hplain := by
    obtain rfl : throws = none := hplain
    exact contents_assignFrom h hx hy

/-! ## Into an object whose value is gone -/

/-- The storage of an object that has no value takes one that is not its own. -/
theorem construct_fresh (vals : Values V) (h : w.Sound) (harg : w.names arg = true)
    (hown : arg.source ≠ some x) (t : StatusCode) :
    ∃ (w₁ : World V) (v : V), w₁.Sound ∧
      (w.put x (some ⟨t, none⟩)).construct vals x arg false = w₁.put x (some ⟨t, some v⟩) ∧
      (w₁.put x (some ⟨.kOk, some v⟩)).contents = stored vals w.contents x arg := by
  cases arg with
  | given v =>
    refine ⟨w, v, h, ?_, by simp [stored]⟩
    simp [construct, place, modify, value]
  | inside y move =>
    have hne : y ≠ x := fun he => hown (congrArg some he)
    obtain ⟨v, hv⟩ := h.holds_of_names harg
    have hobj : w.objects y = _ := hv
    refine ⟨w.put y (some ⟨.kOk, some (leftIn vals move v)⟩), v, h.put (sound_value _), ?_,
      contents_handOver hv⟩
    cases move <;>
      simp [construct, touch, moveOut, place, modify, value, put_other, leftIn, hne, hne.symm, hobj,
        put_same hobj]

theorem construct_throws (vals : Values V) (h : w.Sound) (harg : w.names arg = true)
    (hown : arg.source ≠ some x) (o : Object V) :
    (w.put x (some o)).construct vals x arg true = w.put x (some o) := by
  cases arg with
  | given v => rfl
  | inside y move =>
    have hne : y ≠ x := fun he => hown (congrArg some he)
    obtain ⟨v, hv⟩ := h.holds_of_names harg
    have hobj : w.objects y = _ := hv
    simp [construct, touch, value, put_other, hne, hobj]

/-- A value that is gone is read. -/
theorem construct_own (vals : Values V) (w : World V) (t : StatusCode) (move : Bool) :
    ((w.put x (some ⟨t, none⟩)).construct vals x (.inside x move) throws).misused = true := by
  cases throws <;> cases move <;>
    simp [construct, touch, moveOut, place, modify, value, flag, put]

/-- `emplace` from another object first takes the value out of the one it is called on. -/
theorem keeps_emplaceFrom (h : w.Sound) (hx : w.exists? x = true) (hy : w.exists? y = true) :
    Keeps vals w (.emplaceFrom move x y throws) (w.emplaceFrom vals move x y throws) := by
  obtain ⟨t, ht, hcleared⟩ : ∃ t, t ≠ .kOk ∧
      (if w.ok x then (w.destroyValue x).setStatus x .kUnknown else w) =
        w.put x (some ⟨t, none⟩) := by
    rcases h.cases hx with ⟨u, hu⟩ | ⟨t, ht⟩
    · have hobj : w.objects x = _ := hu
      refine ⟨.kUnknown, by decide, ?_⟩
      simp [destroyValue, setStatus, modify, value, ok, status, hobj]
    · refine ⟨t, ht.1, ?_⟩
      simp [ok, status, ht.2, ht.1, put_same ht.2]
  unfold emplaceFrom
  rw [hcleared]
  by_cases hne : x = y
  · subst hne
    have hstatus : (w.put x (some ⟨t, none⟩)).status x = t := by simp [status]
    have heq : (w.put x (some ⟨t, none⟩)).setStatus x t = w.put x (some ⟨t, none⟩) := by
      simp [setStatus, modify]
    simp only [ok, hstatus, decide_eq_false ht, heq, Bool.false_eq_true, if_false]
    exact ⟨h.put (sound_status ht), fun hplain => absurd rfl hplain.2⟩
  have hown : (Arg.inside y move : Arg V).source ≠ some x := fun he => hne (Option.some.inj he).symm
  rcases h.cases hy with ⟨v, hv⟩ | ⟨s, hs⟩
  · have hobj : w.objects y = _ := hv
    have harg : w.names (.inside y move) = true := by simp [names, Arg.source, ok, status, hobj]
    have hstatus : (w.put x (some ⟨t, none⟩)).status y = .kOk := by
      simp [status, put_other _ _ (Ne.symm hne), hobj]
    cases throws with
    | true =>
      simp only [ok, hstatus, construct_throws vals h harg hown, decide_true, if_true]
      exact ⟨h.put (sound_status ht), fun hplain => by cases hplain.1⟩
    | false =>
      obtain ⟨w₁, u, hsound, hmade, hstored⟩ := construct_fresh vals h harg hown t
      have heq : (w₁.put x (some ⟨t, some u⟩)).setStatus x .kOk =
          w₁.put x (some ⟨.kOk, some u⟩) := by
        simp [setStatus, modify]
      simp only [ok, hstatus, hmade, heq, decide_true, if_true, Bool.false_eq_true, if_false]
      exact ⟨hsound.put (sound_value u), fun _ => hstored⟩
  · have hstatus : (w.put x (some ⟨t, none⟩)).status y = s := by
      simp [status, put_other _ _ (Ne.symm hne), hs.2]
    have heq : (w.put x (some ⟨t, none⟩)).setStatus x s = w.put x (some ⟨s, none⟩) := by
      simp [setStatus, modify]
    simp only [ok, hstatus, decide_eq_false hs.1, heq, Bool.false_eq_true, if_false]
    refine ⟨h.put (sound_status hs.1), fun _ => ?_⟩
    simp [intended, stored, hs.contents]

/-! ## Values that are assigned or emplaced -/

/-- The status is OK before the value is there. -/
theorem assignValue_eq (h : w.Sound) (hx : w.exists? x = true) :
    w.assignValue vals x arg throws =
      (w.put x (some ⟨.kOk, none⟩)).construct vals x arg throws := by
  rcases h.cases hx with ⟨u, hu⟩ | ⟨t, ht⟩
  · have hobj : w.objects x = _ := hu
    simp [assignValue, destroyValue, setStatus, modify, value, ok, status, hobj]
  · simp [assignValue, setStatus, modify, ok, status, ht.2, ht.1]

theorem not_sound_put (w : World V) : ¬(w.put x (some ⟨.kOk, none⟩)).Sound := fun h => by
  cases (h.objects x _ (put_self w x _)).mpr rfl

theorem keeps_assignValue (h : w.Sound) (hx : w.exists? x = true) (harg : w.names arg = true)
    (hcareful : throws = false ∧ arg.source ≠ some x) :
    Keeps vals w (.assignValue x arg throws) (w.assignValue vals x arg throws) := by
  obtain ⟨rfl, hown⟩ := hcareful
  obtain ⟨w₁, v, hsound, hmade, hstored⟩ := construct_fresh vals h harg hown .kOk
  rw [assignValue_eq h hx, hmade]
  exact ⟨hsound.put (sound_value v), fun _ => hstored⟩

theorem careful_of_assignValue (h : w.Sound) (hx : w.exists? x = true)
    (harg : w.names arg = true) (hafter : (w.assignValue vals x arg throws).Sound) :
    throws = false ∧ arg.source ≠ some x := by
  rw [assignValue_eq h hx] at hafter
  have hown : arg.source ≠ some x := by
    intro hsrc
    cases arg with
    | given v => cases hsrc
    | inside y move =>
      cases hsrc
      have hread := hafter.unmisused
      rw [construct_own] at hread
      cases hread
  refine ⟨Bool.eq_false_iff.mpr fun hthrows => ?_, hown⟩
  rw [hthrows, construct_throws vals h harg hown] at hafter
  exact not_sound_put w hafter

/-- The status stays what it was until the value is there. -/
theorem emplace_eq (h : w.Sound) (hx : w.exists? x = true) :
    w.emplace vals x arg throws =
      let made := (w.put x (some ⟨w.status x, none⟩)).construct vals x arg throws
      if throws then made else made.setStatus x .kOk := by
  rcases h.cases hx with ⟨u, hu⟩ | ⟨t, ht⟩
  · have hobj : w.objects x = _ := hu
    simp [emplace, destroyValue, modify, value, ok, status, hobj]
  · simp [emplace, ok, status, ht.2, ht.1, put_same ht.2]

theorem not_own_of_not_ok (harg : w.names arg = true) (hok : w.ok x = false) :
    arg.source ≠ some x := by
  intro hsrc
  rw [names, hsrc, Option.all_some, hok] at harg
  cases harg

theorem keeps_emplace (h : w.Sound) (hx : w.exists? x = true) (harg : w.names arg = true)
    (hcareful : w.ok x = true → throws = false ∧ arg.source ≠ some x) :
    Keeps vals w (.emplace x arg throws) (w.emplace vals x arg throws) := by
  have hown : arg.source ≠ some x := by
    cases hok : w.ok x with
    | true => exact (hcareful hok).2
    | false => exact not_own_of_not_ok harg hok
  rw [emplace_eq h hx]
  cases throws with
  | true =>
    have hstatus : w.status x ≠ .kOk := fun hs => by
      cases (hcareful (decide_eq_true hs)).1
    simp only [construct_throws vals h harg hown, if_true]
    exact ⟨h.put (sound_status hstatus), fun hplain => by cases hplain.1⟩
  | false =>
    obtain ⟨w₁, v, hsound, hmade, hstored⟩ := construct_fresh vals h harg hown (w.status x)
    have heq : (w₁.put x (some ⟨w.status x, some v⟩)).setStatus x .kOk =
        w₁.put x (some ⟨.kOk, some v⟩) := by
      simp [setStatus, modify]
    simp only [hmade, heq, Bool.false_eq_true, if_false]
    exact ⟨hsound.put (sound_value v), fun _ => hstored⟩

theorem careful_of_emplace (h : w.Sound) (hx : w.exists? x = true) (harg : w.names arg = true)
    (hafter : (w.emplace vals x arg throws).Sound) (hok : w.ok x = true) :
    throws = false ∧ arg.source ≠ some x := by
  rw [emplace_eq h hx, show w.status x = .kOk from of_decide_eq_true hok] at hafter
  have hown : arg.source ≠ some x := by
    intro hsrc
    cases arg with
    | given v => cases hsrc
    | inside y move =>
      cases hsrc
      have hread :
          ((w.put x (some ⟨.kOk, none⟩)).construct vals x (.inside x move) throws).misused = true :=
        construct_own vals w .kOk move
      cases throws with
      | true => cases hread.symm.trans hafter.unmisused
      | false => cases hread.symm.trans hafter.unmisused
  refine ⟨Bool.eq_false_iff.mpr fun hthrows => ?_, hown⟩
  rw [hthrows] at hafter
  simp only [construct_throws vals h harg hown, if_true] at hafter
  exact not_sound_put w hafter

/-! ## Programs -/

theorem sound_empty : ({} : World V).Sound := ⟨rfl, fun _ _ h => by cases h⟩

/-- Every careful operation on a sound world keeps to it. -/
theorem step_keeps {op : Op V} (h : w.Sound) (hw' : w.step vals op = some w')
    (hcareful : w.Careful op) : Keeps vals w op w' := by
  cases op with
  | new x =>
    simp only [step, Option.ite_none_left_eq_some] at hw'
    cases hw'.2
    exact keeps_new h
  | newStatus x s =>
    simp only [step, Option.ite_none_left_eq_some] at hw'
    exact keeps_newStatus h hw'.2
  | newMove x y throws =>
    simp only [step, Option.ite_none_right_eq_some, Option.some.injEq, Bool.and_eq_true,
      Bool.not_eq_true'] at hw'
    obtain ⟨⟨hx, hy⟩, rfl⟩ := hw'
    exact keeps_newMove h (ne_of_new hx hy) hy
  | newCopy x y throws =>
    simp only [step, Option.ite_none_right_eq_some, Option.some.injEq, Bool.and_eq_true,
      Bool.not_eq_true'] at hw'
    obtain ⟨⟨hx, hy⟩, rfl⟩ := hw'
    exact keeps_newCopy h (ne_of_new hx hy) hy
  | newValue x arg throws =>
    simp only [step, Option.ite_none_right_eq_some, Option.some.injEq, Bool.and_eq_true,
      Bool.not_eq_true'] at hw'
    obtain ⟨⟨hx, harg⟩, rfl⟩ := hw'
    exact keeps_newValue h hx harg
  | delete x =>
    simp only [step, Option.ite_none_right_eq_some, Option.some.injEq] at hw'
    obtain ⟨hx, rfl⟩ := hw'
    exact keeps_delete h hx
  | assignValue x arg throws =>
    simp only [step, Option.ite_none_right_eq_some, Option.some.injEq, Bool.and_eq_true] at hw'
    obtain ⟨⟨hx, harg⟩, rfl⟩ := hw'
    exact keeps_assignValue h hx harg hcareful
  | copyAssign x y throws =>
    simp only [step, Option.ite_none_right_eq_some, Option.some.injEq, Bool.and_eq_true] at hw'
    obtain ⟨⟨hx, hy⟩, rfl⟩ := hw'
    exact keeps_copyAssign h hx hy
  | moveAssign x y throws =>
    simp only [step, Option.ite_none_right_eq_some, Option.some.injEq, Bool.and_eq_true] at hw'
    obtain ⟨⟨hx, hy⟩, rfl⟩ := hw'
    exact keeps_moveAssign h hx hy
  | assignStatus x s =>
    simp only [step, Option.ite_none_right_eq_some] at hw'
    exact keeps_assignStatus h hw'.1 hw'.2
  | emplace x arg throws =>
    simp only [step, Option.ite_none_right_eq_some, Option.some.injEq, Bool.and_eq_true] at hw'
    obtain ⟨⟨hx, harg⟩, rfl⟩ := hw'
    exact keeps_emplace h hx harg hcareful
  | emplaceFrom move x y throws =>
    simp only [step, Option.ite_none_right_eq_some, Option.some.injEq, Bool.and_eq_true] at hw'
    obtain ⟨⟨hx, hy⟩, rfl⟩ := hw'
    exact keeps_emplaceFrom h hx hy

theorem step_sound_iff {op : Op V} (h : w.Sound) (hw' : w.step vals op = some w') :
    w'.Sound ↔ w.Careful op := by
  refine ⟨fun hafter => ?_, fun hcareful => (step_keeps h hw' hcareful).sound⟩
  cases op with
  | assignValue x arg throws =>
    simp only [step, Option.ite_none_right_eq_some, Option.some.injEq, Bool.and_eq_true] at hw'
    obtain ⟨⟨hx, harg⟩, rfl⟩ := hw'
    exact careful_of_assignValue h hx harg hafter
  | emplace x arg throws =>
    simp only [step, Option.ite_none_right_eq_some, Option.some.injEq, Bool.and_eq_true] at hw'
    obtain ⟨⟨hx, harg⟩, rfl⟩ := hw'
    exact careful_of_emplace h hx harg hafter
  | _ => trivial

theorem careful_of_plain {op : Op V} (h : op.Plain) (w : World V) : w.Careful op := by
  cases op with
  | assignValue x arg throws => exact h
  | emplace x arg throws => exact fun _ => h
  | _ => trivial

end World

/-- **The objects of a program are sound, and its plain operations store what they are given,
    exactly when no assignment of a value, and no `emplace` of an object that is OK, throws or
    takes the value that it replaces.** -/
theorem upheld_iff (vals : Values V) (ops : List (Op V)) :
    ((∀ pre w, pre <+: ops → Program.exec (World.step vals) {} pre = some w → w.Sound) ∧
      ∀ pre op w w', pre ++ [op] <+: ops → Program.exec (World.step vals) {} pre = some w →
        w.step vals op = some w' → op.Plain → w'.contents = intended vals w.contents op) ↔
      ∀ pre op w w', pre ++ [op] <+: ops → Program.exec (World.step vals) {} pre = some w →
        w.step vals op = some w' → w.Careful op := by
  have hiff :
      (∀ pre w, pre <+: ops → Program.exec (World.step vals) {} pre = some w → w.Sound) ↔ _ :=
    Program.good_iff_careful World.sound_empty World.step_sound_iff ops
  refine ⟨fun h => hiff.mp h.1, fun hcareful => ?_⟩
  have hsound := hiff.mpr hcareful
  refine ⟨hsound, fun pre op w w' hpre hexec hw' hplain => ?_⟩
  have hbefore := hsound pre w ((List.prefix_append pre [op]).trans hpre) hexec
  exact (World.step_keeps hbefore hw' (World.careful_of_plain hplain w)).stores hplain

/-- An assignment that throws leaves a status that is OK without a value, and an object that is
    assigned its own value reads it destroyed. -/
theorem assignments_break :
    (∃ w : World Nat, Program.exec (World.step ⟨id, 0⟩) {}
      [.newValue 0 (.given 1) false, .assignValue 0 (.given 2) true] = some w ∧
        w.ok 0 = true ∧ w.value 0 = none) ∧
      ∃ w : World Nat, Program.exec (World.step ⟨id, 0⟩) {}
        [.newValue 0 (.given 1) false, .assignValue 0 (.inside 0 false) false] = some w ∧
          w.misused = true :=
  ⟨⟨_, rfl, rfl, rfl⟩, ⟨_, rfl, rfl⟩⟩

end Batt.StatusOrObject
