/-
  The links between the objects.

  In a well-formed heap a SubGroup is consumed, attached to the GroupBy that points back to it, or
  detached with a private GroupBy of its own, and only a GroupBy with an item left has a SubGroup.
  `groups` and `items` are what the objects have still to return.

  An operation changes a few objects. `Patch` says what it has to respect so that the heap stays
  well formed and the other objects keep what they return: no link leads from the objects it changes
  to one it does not, before or after.

  `detach`, `private_group_by_ = None`, `move_impl` and `copy_impl` come down to replacements of one
  GroupBy or one SubGroup, or of a GroupBy together with the SubGroup it is linked to. Every
  operation is made of these.
-/
import Batt.Grouping.Runs

namespace Batt.Grouping

variable {α : Type}

inductive SubGroup.WF (j : Nat) : SubGroup α → Prop where
  | consumed (storage : Option (GroupBy α)) : WF j ⟨false, storage, .null⟩
  | attached (storage : Option (GroupBy α)) (i : Nat) : WF j ⟨false, storage, .outer i⟩
  | detached {g : GroupBy α} (hsub : g.subGroup = some j) (hitem : g.nextItem.isSome) :
      WF j ⟨true, some g, .priv j⟩

structure Heap.WF (h : Heap α) : Prop where
  outers : ∀ i g, h.outers i = some g → g.subGroup.isSome → g.nextItem.isSome
  subs : ∀ j s, h.subs j = some s → s.WF j
  links : ∀ i j, h.attached i = some j ↔ h.link j = .outer i
  ok : h.ok = true

def Heap.groups (h : Heap α) (i : Nat) : Option (List (List α)) := (h.outers i).map GroupBy.groups

/-- What a SubGroup reads at `l`. -/
def Heap.front (h : Heap α) (l : Link) : List α := (h.target l).elim [] GroupBy.front

def Heap.items (h : Heap α) (j : Nat) : Option (List α) := (h.subs j).map fun s => h.front s.groupBy

/-- The heap is well formed and its objects have these groups and items to return. -/
structure Heap.Shows (h : Heap α) (groups : Nat → Option (List (List α)))
    (items : Nat → Option (List α)) : Prop where
  wf : h.WF
  groups : h.groups = groups
  items : h.items = items

theorem Heap.empty_wf : (Heap.empty : Heap α).WF where
  outers _ _ h := by cases h
  subs _ _ h := by cases h
  links _ _ := ⟨nofun, nofun⟩
  ok := rfl

/-- From `h` to `h'` only the GroupBys `I` and the SubGroups `J` change. -/
structure Patch (h h' : Heap α) (I J : Nat → Prop) : Prop where
  sameOuter : ∀ i, ¬ I i → h'.outers i = h.outers i
  sameSub : ∀ j, ¬ J j → h'.subs j = h.subs j
  closed : ∀ i j, h.attached i = some j → (I i ↔ J j)
  outers : ∀ i, I i → ∀ g, h'.outers i = some g → g.subGroup.isSome → g.nextItem.isSome
  subs : ∀ j, J j → ∀ s, h'.subs j = some s → s.WF j
  attached : ∀ i, I i → ∀ j, h'.attached i = some j → J j ∧ h'.link j = .outer i
  link : ∀ j, J j → ∀ i, h'.link j = .outer i → I i ∧ h'.attached i = some j
  ok : h'.ok = true

section

variable {h h' : Heap α} {I J : Nat → Prop}

theorem Patch.wf (p : Patch h h' I J) (hwf : h.WF) : h'.WF where
  outers i g hg := by
    by_cases hi : I i
    · exact p.outers i hi g hg
    · exact hwf.outers i g (p.sameOuter i hi ▸ hg)
  subs j s hs := by
    by_cases hj : J j
    · exact p.subs j hj s hs
    · exact hwf.subs j s (p.sameSub j hj ▸ hs)
  links i j := by
    constructor
    · intro hatt
      by_cases hi : I i
      · exact (p.attached i hi j hatt).2
      · unfold Heap.attached at hatt
        rw [p.sameOuter i hi] at hatt
        have hj : ¬ J j := fun hj => hi ((p.closed i j hatt).mpr hj)
        unfold Heap.link
        rw [p.sameSub j hj]
        exact (hwf.links i j).mp hatt
    · intro hlink
      by_cases hj : J j
      · exact (p.link j hj i hlink).2
      · unfold Heap.link at hlink
        rw [p.sameSub j hj] at hlink
        have hatt : h.attached i = some j := (hwf.links i j).mpr hlink
        have hi : ¬ I i := fun hi => hj ((p.closed i j hatt).mp hi)
        unfold Heap.attached
        rw [p.sameOuter i hi]
        exact hatt
  ok := p.ok

theorem Patch.groups (p : Patch h h' I J) {i : Nat} (hi : ¬ I i) : h'.groups i = h.groups i := by
  unfold Heap.groups
  rw [p.sameOuter i hi]

theorem Patch.items (p : Patch h h' I J) (hwf : h.WF) {j : Nat} (hj : ¬ J j) :
    h'.items j = h.items j := by
  unfold Heap.items
  rw [p.sameSub j hj]
  cases hs : h.subs j with
  | none => rfl
  | some s =>
    have hfront : h'.front s.groupBy = h.front s.groupBy := by
      unfold Heap.front
      cases hwf.subs j s hs with
      | consumed st => rfl
      | attached st i =>
        -- the GroupBy points back to `j`, so it is not one that changes
        have hatt : h.attached i = some j := (hwf.links i j).mpr (by unfold Heap.link; rw [hs])
        have hi : ¬ I i := fun hi => hj ((p.closed i j hatt).mp hi)
        exact congrArg (Option.elim · [] GroupBy.front) (p.sameOuter i hi)
      | detached hsub hitem =>
        simp only [Heap.target, p.sameSub j hj]
    exact congrArg some hfront

/-- It is enough to look at the objects that change. -/
theorem Patch.shows (p : Patch h h' I J) (hwf : h.WF) {groups : Nat → Option (List (List α))}
    {items : Nat → Option (List α)} (hgroups : ∀ i, ¬ I i → groups i = h.groups i)
    (hgroups' : ∀ i, I i → h'.groups i = groups i) (hitems : ∀ j, ¬ J j → items j = h.items j)
    (hitems' : ∀ j, J j → h'.items j = items j) : h'.Shows groups items where
  wf := p.wf hwf
  groups := by
    funext i
    by_cases hi : I i
    · exact hgroups' i hi
    · rw [p.groups hi, hgroups i hi]
  items := by
    funext j
    by_cases hj : J j
    · exact hitems' j hj
    · rw [p.items hwf hj, hitems j hj]

end

variable {h : Heap α} {i j j' k : Nat} {g : GroupBy α} {s : SubGroup α}

/-! ## Reads and writes -/

@[simp] theorem assert_outers (b : Bool) : (h.assert b).outers = h.outers := rfl
@[simp] theorem assert_subs (b : Bool) : (h.assert b).subs = h.subs := rfl
@[simp] theorem assert_ok (b : Bool) : (h.assert b).ok = (h.ok && b) := rfl

@[simp] theorem assert_true : h.assert true = h := by
  unfold Heap.assert
  rw [Bool.and_true]

@[simp] theorem setOuter_outers (o : Option (GroupBy α)) :
    (h.setOuter i o).outers = Function.update h.outers i o := rfl
@[simp] theorem setOuter_subs (o : Option (GroupBy α)) : (h.setOuter i o).subs = h.subs := rfl
@[simp] theorem setOuter_ok (o : Option (GroupBy α)) : (h.setOuter i o).ok = h.ok := rfl

@[simp] theorem setSub_outers (o : Option (SubGroup α)) : (h.setSub j o).outers = h.outers := rfl
@[simp] theorem setSub_subs (o : Option (SubGroup α)) :
    (h.setSub j o).subs = Function.update h.subs j o := rfl
@[simp] theorem setSub_ok (o : Option (SubGroup α)) : (h.setSub j o).ok = h.ok := rfl

theorem setSub_subs_self (o : Option (SubGroup α)) : (h.setSub j o).subs j = o :=
  Function.update_self ..

theorem modifySub_eq (hs : h.subs j = some s) (f : SubGroup α → SubGroup α) :
    h.modifySub j f = h.setSub j (some (f s)) := by
  unfold Heap.modifySub
  rw [hs]
  exact assert_true

theorem modifyTarget_outer (hg : h.outers i = some g) (f : GroupBy α → GroupBy α) :
    h.modifyTarget (.outer i) f = h.setOuter i (some (f g)) := by
  simp only [Heap.modifyTarget, hg, Option.map_some, Option.isSome_some, assert_true]

theorem modifyTarget_priv (hs : h.subs j = some s) (hg : s.storage = some g)
    (f : GroupBy α → GroupBy α) :
    h.modifyTarget (.priv j) f = h.setSub j (some { s with storage := some (f g) }) := by
  simp only [Heap.modifyTarget, modifySub_eq hs, Heap.target, hs, hg, Option.bind_some,
    Option.isSome_some, Option.map_some, assert_true]

theorem setSub_setSub (o o' : Option (SubGroup α)) : (h.setSub j o).setSub j o' = h.setSub j o' := by
  unfold Heap.setSub
  rw [Function.update_idem]

theorem setSub_comm (hne : j ≠ j') (o o' : Option (SubGroup α)) :
    (h.setSub j o).setSub j' o' = (h.setSub j' o').setSub j o := by
  unfold Heap.setSub
  rw [Function.update_comm hne.symm]

theorem setOuter_setOuter (o o' : Option (GroupBy α)) :
    (h.setOuter i o).setOuter i o' = h.setOuter i o' := by
  unfold Heap.setOuter
  rw [Function.update_idem]

theorem setOuter_comm {i' : Nat} (hne : i ≠ i') (o o' : Option (GroupBy α)) :
    (h.setOuter i o).setOuter i' o' = (h.setOuter i' o').setOuter i o := by
  unfold Heap.setOuter
  rw [Function.update_comm hne.symm]

theorem setSub_setOuter (o : Option (SubGroup α)) (o' : Option (GroupBy α)) :
    (h.setSub j o).setOuter i o' = (h.setOuter i o').setSub j o := rfl

theorem link_of_sub (hs : h.subs j = some s) : h.link j = s.groupBy := by
  unfold Heap.link
  rw [hs]

@[simp] theorem setSub_link (s : SubGroup α) : (h.setSub j (some s)).link j = s.groupBy :=
  link_of_sub (Function.update_self ..)

theorem setSub_link_of_ne (hne : k ≠ j) (o : Option (SubGroup α)) :
    (h.setSub j o).link k = h.link k := by
  unfold Heap.link
  rw [setSub_subs, Function.update_of_ne hne]

/-! ## detach -/

/-- An attached sub-sequence takes a copy of the state. -/
theorem detach_attached {st : Option (GroupBy α)} (hs : h.subs j = some ⟨false, st, .outer i⟩)
    (hg : h.outers i = some g) (hsub : g.subGroup = some j) (hitem : g.nextItem.isSome)
    (skipAdvance : Bool) :
    h.detach (some j) skipAdvance =
      (h.setOuter i (some (if skipAdvance then g.state else g.consume))).setSub j
        (some ⟨true, some { g with subGroup := some j }, .priv j⟩) := by
  have hdetach : h.detach (some j) skipAdvance =
      h.detachFrom j ⟨false, st, .outer i⟩ g skipAdvance := by
    simp [Heap.detach, hs, SubGroup.isDetached, Heap.target, hg]
  rw [hdetach]
  cases skipAdvance
  · simp [Heap.detachFrom, Heap.modifySub, Heap.modifyTarget, Heap.target, hs, hg, hsub, hitem,
      setSub_setSub, setSub_setOuter, GroupBy.state]
  · simp [Heap.detachFrom, Heap.modifySub, Heap.modifyTarget, Heap.target, hs, hg, hsub,
      setSub_setSub, setSub_setOuter, GroupBy.state]

/-- Any other is left as it is. -/
theorem detach_detached (hs : h.subs j = some s) (hwf : s.WF j) (hlink : ∀ i, s.groupBy ≠ .outer i)
    (skipAdvance : Bool) : h.detach (some j) skipAdvance = h := by
  cases hwf with
  | consumed st => simp [Heap.detach, hs, SubGroup.isDetached]
  | attached st i => exact absurd rfl (hlink i)
  | detached hsub hitem => simp [Heap.detach, hs, SubGroup.isDetached]

/-! ## private_group_by_ -/

theorem reset_of_not_valid (hs : h.subs j = some s) (hvalid : s.valid = false) : h.reset j = h := by
  simp [Heap.reset, hs, hvalid]

/-- On a sub-sequence that reads nothing any more, ~GroupBy has nothing to detach. -/
theorem reset_consumed (hs : h.subs j = some s)
    (hown : s.valid = true → s.storage.bind (·.subGroup) = some j) :
    (h.modifySub j fun s => { s with groupBy := .null }).reset j =
      h.setSub j (some ⟨false, s.storage, .null⟩) := by
  rw [modifySub_eq hs]
  obtain ⟨valid, st, l⟩ := s
  cases valid with
  | false => exact reset_of_not_valid (Function.update_self ..) rfl
  | true =>
    have hsub : st.bind (·.subGroup) = some j := hown rfl
    simp [Heap.reset, hsub, Heap.detach, Heap.modifySub, SubGroup.isDetached, setSub_setSub]

theorem SubGroup.WF.own_subGroup (hwf : s.WF j) (hvalid : s.valid = true) :
    s.storage.bind (·.subGroup) = some j := by
  cases hwf with
  | consumed st => cases hvalid
  | attached st i => cases hvalid
  | detached hsub hitem => exact hsub

/-- On a detached one it puts the object back that is being destroyed. -/
theorem reset_detached (hs : h.subs j = some ⟨true, some g, .priv j⟩) (hsub : g.subGroup = some j) :
    h.reset j = h := by
  have hg : { g with subGroup := some j } = g := by
    rw [← hsub]
  have hsame : h.setSub j (h.subs j) = h := by
    unfold Heap.setSub
    rw [Function.update_eq_self]
  rw [hs] at hsame
  simpa [Heap.reset, hs, hsub, Heap.detach, Heap.detachFrom, Heap.modifySub, Heap.modifyTarget,
    Heap.target, SubGroup.isDetached, setSub_setSub, GroupBy.state, hg] using hsame

theorem emplace_eq (hs : h.subs j = some s) (hwf : s.WF j) (hlink : ∀ i, s.groupBy ≠ .outer i)
    (g : GroupBy α) : h.emplace j g = h.setSub j (some ⟨true, some g.state, s.groupBy⟩) := by
  have hreset : h.reset j = h := by
    cases hwf with
    | consumed st => exact reset_of_not_valid hs rfl
    | attached st i => exact absurd rfl (hlink i)
    | detached hsub hitem => exact reset_detached hs hsub
  rw [Heap.emplace, hreset, modifySub_eq hs]

/-! ## move_impl, copy_impl -/

theorem moveImpl_consumed (hs : h.subs j = some s) (hwf : s.WF j)
    {st : Option (GroupBy α)} (hthat : h.subs j' = some ⟨false, st, .null⟩) :
    h.moveImpl j j' = h.setSub j (some ⟨false, s.storage, .null⟩) := by
  simp only [Heap.moveImpl, hthat, if_true]
  exact reset_consumed hs hwf.own_subGroup

theorem moveImpl_attached (hne : j ≠ j') {st st' : Option (GroupBy α)}
    (hs : h.subs j = some ⟨false, st, .null⟩) (hthat : h.subs j' = some ⟨false, st', .outer i⟩)
    (hg : h.outers i = some g) :
    h.moveImpl j j' =
      ((h.setOuter i (some { g with subGroup := some j })).setSub j
        (some ⟨false, st, .outer i⟩)).setSub j' (some ⟨false, st', .null⟩) := by
  simp [Heap.moveImpl, hs, hthat, reset_of_not_valid hs, link_of_sub hthat,
    Heap.modifyTarget, hg, hne.symm, Heap.modifySub, setSub_setOuter]

theorem moveImpl_detached (hne : j ≠ j') (hs : h.subs j = some s) (hwf : s.WF j)
    (hlink : ∀ i, s.groupBy ≠ .outer i) (hthat : h.subs j' = some ⟨true, some g, .priv j'⟩) :
    h.moveImpl j j' =
      (h.setSub j (some ⟨true, some { g with subGroup := some j }, .priv j⟩)).setSub j'
        (some ⟨false, some g.state, .null⟩) := by
  have hmove : h.movePrivate j j' = (h.setSub j (some ⟨true, some g.state, .priv j⟩)).setSub j'
      (some ⟨false, some g.state, .priv j'⟩) := by
    simp [Heap.movePrivate, Heap.target, hthat, emplace_eq hs hwf hlink, Heap.modifyTarget,
      Heap.modifySub, hne.symm, Heap.reset, Heap.detach, setSub_setSub,
      setSub_comm hne, GroupBy.state]
  simp [Heap.moveImpl, hthat, hmove, Heap.modifyTarget, Heap.modifySub, Heap.target, hne.symm,
    setSub_setSub, setSub_comm hne, GroupBy.state]

theorem copyImpl_consumed (hs : h.subs j = some s) (hwf : s.WF j) (hthat : h.link j' = .null) :
    h.copyImpl j j' = h.setSub j (some ⟨false, s.storage, .null⟩) := by
  rw [Heap.copyImpl, if_pos hthat]
  exact reset_consumed hs hwf.own_subGroup

theorem copyImpl_eq (hs : h.subs j = some s) (hwf : s.WF j) (hlink : ∀ i, s.groupBy ≠ .outer i)
    (hthat : h.link j' ≠ .null) (hg : h.target (h.link j') = some g) :
    h.copyImpl j j' =
      h.setSub j (some ⟨true, some { g with subGroup := some j }, .priv j⟩) := by
  simp only [Heap.copyImpl, if_neg hthat, hg, emplace_eq hs hwf hlink]
  simp [Heap.modifySub, Heap.modifyTarget, Heap.target, setSub_setSub, GroupBy.state]

/-! ## One object -/

/-- What a SubGroup that is not attached reads. -/
def SubGroup.own (s : SubGroup α) : List α :=
  match s.groupBy with
  | .null => []
  | _ => s.storage.elim [] GroupBy.front

theorem items_of_sub (hs : h.subs j = some s) (hwf : s.WF j) (hlink : ∀ i, s.groupBy ≠ .outer i) :
    h.items j = some s.own := by
  unfold Heap.items
  rw [hs]
  cases hwf with
  | consumed st => rfl
  | attached st i => exact absurd rfl (hlink i)
  | detached hsub hitem =>
    simp only [Option.map_some, Heap.front, Heap.target, hs, Option.bind_some]
    rfl

theorem items_of_attached {st : Option (GroupBy α)} (hs : h.subs j = some ⟨false, st, .outer i⟩)
    (hg : h.outers i = some g) : h.items j = some g.front := by
  unfold Heap.items
  rw [hs]
  simp only [Option.map_some, Heap.front, Heap.target, hg]
  rfl

theorem not_linked_of_sub (hs : h.subs j = some s) (hlink : ∀ i, s.groupBy ≠ .outer i) :
    ∀ i, h.link j ≠ .outer i := by
  intro i
  rw [link_of_sub hs]
  exact hlink i

/-- A SubGroup that is not attached is replaced by one that is not. -/
theorem shows_setSub (hwf : h.WF) (hold : ∀ i, h.link j ≠ .outer i) {o : Option (SubGroup α)}
    (ho : ∀ s, o = some s → s.WF j ∧ ∀ i, s.groupBy ≠ .outer i) :
    (h.setSub j o).Shows h.groups (Function.update h.items j (o.map SubGroup.own)) := by
  have hp : Patch h (h.setSub j o) (fun _ => False) (· = j) :=
    { sameOuter := fun _ _ => rfl
      sameSub := fun k hk => Function.update_of_ne hk ..
      closed := fun i k hatt => by
        refine ⟨nofun, ?_⟩
        rintro rfl
        exact hold i ((hwf.links i k).mp hatt)
      outers := nofun
      subs := by
        rintro k rfl s hs
        rw [setSub_subs, Function.update_self] at hs
        exact (ho s hs).1
      attached := nofun
      link := by
        rintro k rfl i hlink
        cases o with
        | none => simp [Heap.link] at hlink
        | some s =>
          rw [setSub_link] at hlink
          exact absurd hlink ((ho s rfl).2 i)
      ok := hwf.ok }
  refine hp.shows hwf (fun _ _ => rfl) nofun (fun k hk => Function.update_of_ne hk ..) ?_
  rintro k rfl
  rw [Function.update_self]
  cases o with
  | none => simp [Heap.items]
  | some s => exact items_of_sub (Function.update_self ..) (ho s rfl).1 (ho s rfl).2

/-- A GroupBy without a SubGroup is replaced by one without. -/
theorem shows_setOuter (hwf : h.WF) (hold : h.attached i = none) {o : Option (GroupBy α)}
    (ho : ∀ g, o = some g → g.subGroup = none) :
    (h.setOuter i o).Shows (Function.update h.groups i (o.map GroupBy.groups)) h.items := by
  have hatt' : (h.setOuter i o).attached i = none := by
    unfold Heap.attached
    rw [setOuter_outers, Function.update_self]
    cases o with
    | none => rfl
    | some g => exact ho g rfl
  have hp : Patch h (h.setOuter i o) (· = i) (fun _ => False) :=
    { sameOuter := fun k hk => Function.update_of_ne hk ..
      sameSub := fun _ _ => rfl
      closed := fun k j hatt => by
        refine ⟨?_, nofun⟩
        rintro rfl
        rw [hold] at hatt
        cases hatt
      outers := by
        rintro k rfl g hg hsub
        rw [setOuter_outers, Function.update_self] at hg
        rw [ho g hg] at hsub
        cases hsub
      subs := nofun
      attached := by
        rintro k rfl j hatt
        rw [hatt'] at hatt
        cases hatt
      link := nofun
      ok := hwf.ok }
  refine hp.shows hwf (fun k hk => Function.update_of_ne hk ..) ?_ (fun _ _ => rfl) nofun
  rintro k rfl
  simp [Heap.groups]

/-! ## A GroupBy and a SubGroup -/

/-- What is linked to the GroupBy at `i` is the SubGroup at `j`, and the other way round. -/
structure Apart (h : Heap α) (i j : Nat) : Prop where
  outer : ∀ k, h.attached i = some k → k = j
  sub : ∀ k, h.link j = .outer k → k = i

theorem apart_of_none (hatt : h.attached i = none) (hlink : ∀ k, h.link j ≠ .outer k) :
    Apart h i j where
  outer k hk := by
    rw [hatt] at hk
    cases hk
  sub k hk := absurd hk (hlink k)

theorem apart_of_attached (hwf : h.WF) (hatt : h.attached i = some j) : Apart h i j where
  outer k hk := by
    rw [hatt] at hk
    exact (Option.some.inj hk).symm
  sub k hk := by
    have hlink := (hwf.links i j).mp hatt
    rw [hlink] at hk
    exact (Link.outer.inj hk).symm

/-- Both are replaced, and their link with them. -/
theorem patch_pair (hwf : h.WF) (hapart : Apart h i j) {g : GroupBy α} {s : SubGroup α}
    (hs : s.WF j) (hg : g.subGroup.isSome → g.nextItem.isSome)
    (hlinks : (g.subGroup = some j ∧ s.groupBy = .outer i) ∨
      (g.subGroup = none ∧ ∀ k, s.groupBy ≠ .outer k)) :
    Patch h ((h.setOuter i (some g)).setSub j (some s)) (· = i) (· = j) where
  sameOuter k hk := Function.update_of_ne hk ..
  sameSub k hk := Function.update_of_ne hk ..
  closed k l hatt := by
    constructor
    · rintro rfl
      exact hapart.outer l hatt
    · rintro rfl
      exact hapart.sub k ((hwf.links k l).mp hatt)
  outers := by
    rintro k rfl g' hg'
    obtain rfl : g = g' := by simpa using hg'
    exact hg
  subs := by
    rintro k rfl s' hs'
    obtain rfl : s = s' := by simpa using hs'
    exact hs
  attached := by
    rintro k rfl l hatt
    have hsub : g.subGroup = some l := by simpa [Heap.attached] using hatt
    obtain ⟨hsub', hlink⟩ | ⟨hsub', -⟩ := hlinks
    · obtain rfl : l = j := Option.some.inj (hsub.symm.trans hsub')
      exact ⟨rfl, (setSub_link s).trans hlink⟩
    · rw [hsub'] at hsub
      cases hsub
  link := by
    rintro l rfl k hlink
    rw [setSub_link] at hlink
    obtain ⟨hsub, hlink'⟩ | ⟨-, hlink'⟩ := hlinks
    · obtain rfl : k = i := Link.outer.inj (hlink.symm.trans hlink')
      exact ⟨rfl, by simpa [Heap.attached] using hsub⟩
    · exact absurd hlink (hlink' k)
  ok := hwf.ok

theorem shows_attach (hwf : h.WF) (hapart : Apart h i j) {g : GroupBy α} (hsub : g.subGroup = some j)
    (hitem : g.nextItem.isSome) (st : Option (GroupBy α)) :
    ((h.setOuter i (some g)).setSub j (some ⟨false, st, .outer i⟩)).Shows
      (Function.update h.groups i (some g.runs.tail)) (Function.update h.items j (some g.front)) := by
  have hp := patch_pair hwf hapart (.attached st i) (fun _ => hitem) (.inl ⟨hsub, rfl⟩)
  refine hp.shows hwf (fun k hk => Function.update_of_ne hk ..) ?_
    (fun k hk => Function.update_of_ne hk ..) ?_
  · rintro k rfl
    simp [Heap.groups, GroupBy.groups, hsub]
  · rintro k rfl
    rw [Function.update_self]
    exact items_of_attached (Function.update_self ..) (Function.update_self ..)

theorem shows_unlink (hwf : h.WF) (hapart : Apart h i j) {g : GroupBy α} (hsub : g.subGroup = none)
    {s : SubGroup α} (hs : s.WF j) (hlink : ∀ k, s.groupBy ≠ .outer k) :
    ((h.setOuter i (some g)).setSub j (some s)).Shows
      (Function.update h.groups i (some g.runs)) (Function.update h.items j (some s.own)) := by
  have hg : g.subGroup.isSome → g.nextItem.isSome := by
    rw [hsub]
    nofun
  have hp := patch_pair hwf hapart hs hg (.inr ⟨hsub, hlink⟩)
  refine hp.shows hwf (fun k hk => Function.update_of_ne hk ..) ?_
    (fun k hk => Function.update_of_ne hk ..) ?_
  · rintro k rfl
    simp [Heap.groups, GroupBy.groups, hsub]
  · rintro k rfl
    rw [Function.update_self]
    exact items_of_sub (Function.update_self ..) hs hlink

end Batt.Grouping
