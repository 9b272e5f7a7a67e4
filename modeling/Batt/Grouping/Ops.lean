/-
  The operations of the user, one by one: what each shows in a well-formed heap.
-/
import Batt.Grouping.Links

namespace Batt.Grouping

variable {α : Type} {h : Heap α} {i i' j j' k : Nat} {g : GroupBy α} {s : SubGroup α}

theorem outer_of_link (hwf : h.WF) (hlink : h.link j = .outer i) :
    ∃ g, h.outers i = some g ∧ g.subGroup = some j ∧ g.nextItem.isSome := by
  have hatt : h.attached i = some j := (hwf.links i j).mpr hlink
  obtain ⟨g, hg, hsub⟩ := Option.bind_eq_some_iff.mp hatt
  exact ⟨g, hg, hsub, hwf.outers i g hg (by rw [hsub]; rfl)⟩

theorem sub_of_link (hwf : h.WF) (hlink : h.link j = .outer i) :
    ∃ st, h.subs j = some ⟨false, st, .outer i⟩ := by
  cases hs : h.subs j with
  | none => simp [Heap.link, hs] at hlink
  | some s =>
    rw [link_of_sub hs] at hlink
    cases hwf.subs j s hs with
    | consumed st => cases hlink
    | detached _ _ => cases hlink
    | attached st i' =>
      obtain rfl : i' = i := Link.outer.inj hlink
      exact ⟨st, rfl⟩

theorem Heap.Shows.of_eq {h : Heap α} {groups groups' : Nat → Option (List (List α))}
    {items items' : Nat → Option (List α)} (hs : h.Shows groups items) (hgroups : groups = groups')
    (hitems : items = items') : h.Shows groups' items' := by
  rw [← hgroups, ← hitems]
  exact hs

theorem Heap.WF.shows (hwf : h.WF) : h.Shows h.groups h.items := ⟨hwf, rfl, rfl⟩

/-! ## detach -/

theorem own_detached (g : GroupBy α) (j : Nat) :
    (⟨true, some { g with subGroup := some j }, .priv j⟩ : SubGroup α).own = g.front := rfl

/-- A detached sub-sequence keeps its items; the GroupBy forgets it. -/
theorem shows_detach_attached (hwf : h.WF) {st : Option (GroupBy α)}
    (hs : h.subs j = some ⟨false, st, .outer i⟩) (hg : h.outers i = some g)
    (hitem : g.nextItem.isSome) {g' : GroupBy α} (hsub' : g'.subGroup = none) :
    ((h.setOuter i (some g')).setSub j
        (some ⟨true, some { g with subGroup := some j }, .priv j⟩)).Shows
      (Function.update h.groups i (some g'.runs)) h.items := by
  have hatt : h.attached i = some j := (hwf.links i j).mpr (link_of_sub hs)
  have hshows := shows_unlink hwf (apart_of_attached hwf hatt) hsub'
    (.detached (g := { g with subGroup := some j }) rfl hitem) nofun
  refine hshows.of_eq rfl ?_
  rw [own_detached, Function.update_eq_self_iff]
  exact (items_of_attached hs hg).symm

theorem groups_of_attached (hg : h.outers i = some g) (hsub : g.subGroup = some j) :
    h.groups i = some g.runs.tail := by
  simp [Heap.groups, hg, GroupBy.groups, hsub]

theorem consume_subGroup (hitem : g.nextItem.isSome) : g.consume.subGroup = none := by
  obtain ⟨x, hx⟩ := Option.isSome_iff_exists.mp hitem
  simp [GroupBy.consume, hx]

/-- After `detach` of a SubGroup nothing is attached to it, and all that anyone can see is as
    before. -/
theorem shows_detachThis (hwf : h.WF) (hs : h.subs j = some s) :
    (h.detachThis j).Shows h.groups h.items ∧ (∀ k, k ≠ j → (h.detachThis j).subs k = h.subs k) ∧
      ((h.detachThis j).link j = .null ↔ h.link j = .null) ∧
      ∃ s', (h.detachThis j).subs j = some s' ∧ s'.WF j ∧ ∀ i, s'.groupBy ≠ .outer i := by
  have hswf := hwf.subs j s hs
  cases hswf with
  | consumed st =>
    have hsame : h.detachThis j = h := if_pos (link_of_sub hs)
    rw [hsame]
    exact ⟨hwf.shows, fun _ _ => rfl, Iff.rfl, _, hs, .consumed st, nofun⟩
  | attached st i =>
    have hlink : h.link j = .outer i := link_of_sub hs
    obtain ⟨g, hg, hsub, hitem⟩ := outer_of_link hwf hlink
    have hne : h.link j ≠ .null := by
      rw [hlink]
      nofun
    have hdetach := detach_attached hs hg hsub hitem false
    rw [Heap.detachThis, if_neg hne, hdetach, if_neg nofun]
    refine ⟨?_, fun k hk => Function.update_of_ne hk .., ?_, _, Function.update_self .., ?_, nofun⟩
    · refine (shows_detach_attached hwf hs hg hitem (consume_subGroup hitem)).of_eq ?_ rfl
      rw [runs_consume hitem, Function.update_eq_self_iff]
      exact (groups_of_attached hg hsub).symm
    · rw [setSub_link, hlink]
      exact ⟨nofun, nofun⟩
    · exact .detached rfl hitem
  | detached hsub hitem =>
    have hne : h.link j ≠ .null := by
      rw [link_of_sub hs]
      nofun
    have hsame : h.detachThis j = h := by
      rw [Heap.detachThis, if_neg hne]
      exact detach_detached hs (.detached hsub hitem) nofun false
    rw [hsame]
    exact ⟨hwf.shows, fun _ _ => rfl, Iff.rfl, _, hs, .detached hsub hitem, nofun⟩

/-- After `detach` by a GroupBy it has no SubGroup. -/
theorem shows_detach_outer (hwf : h.WF) (hg : h.outers i = some g) (skipAdvance : Bool) :
    ∃ g', (h.detach (h.attached i) skipAdvance).outers i = some g' ∧ g'.subGroup = none ∧
      (skipAdvance = false → g'.runs = g.groups) ∧
      (∀ k, k ≠ i → (h.detach (h.attached i) skipAdvance).outers k = h.outers k) ∧
      (h.detach (h.attached i) skipAdvance).Shows
        (Function.update h.groups i (some g'.runs)) h.items := by
  cases hatt : h.attached i with
  | none =>
    have hsub : g.subGroup = none := by simpa [Heap.attached, hg] using hatt
    have hgroups : g.groups = g.runs := by simp [GroupBy.groups, hsub]
    refine ⟨g, hg, hsub, fun _ => hgroups.symm, fun _ _ => rfl, hwf.shows.of_eq ?_ rfl⟩
    rw [← hgroups, eq_comm, Function.update_eq_self_iff]
    simp [Heap.groups, hg]
  | some j =>
    have hlink : h.link j = .outer i := (hwf.links i j).mp hatt
    obtain ⟨g', hg', hsub, hitem⟩ := outer_of_link hwf hlink
    obtain rfl : g = g' := Option.some.inj (hg.symm.trans hg')
    obtain ⟨st, hs⟩ := sub_of_link hwf hlink
    rw [detach_attached hs hg hsub hitem]
    have hsub' : (if skipAdvance then g.state else g.consume).subGroup = none := by
      cases skipAdvance
      · exact consume_subGroup hitem
      · rfl
    refine ⟨_, Function.update_self .., hsub', ?_, fun k hk => Function.update_of_ne hk ..,
      shows_detach_attached hwf hs hg hitem hsub'⟩
    rintro rfl
    simp [GroupBy.groups, hsub, runs_consume hitem]

/-! ## GroupBy -/

theorem newAttached_eq (hg : h.outers i = some g) :
    h.newAttached i j = (h.setOuter i (some { g with subGroup := some j })).setSub j
      (some ⟨false, none, .outer i⟩) := by
  rw [Heap.newAttached, modifyTarget_outer (h := h.setSub j _) hg]
  rfl

theorem not_linked_of_none (hj : h.subs j = none) : ∀ i, h.link j ≠ .outer i := by
  intro i
  simp [Heap.link, hj]

/-- `next` first makes the GroupBy free of its last SubGroup. -/
theorem next_eq (hwf : h.WF) (hg : h.outers i = some g) (hj : h.subs j = none) :
    ∃ (h' : Heap α) (g' : GroupBy α), h'.Shows h.groups h.items ∧ h'.outers i = some g' ∧
      g'.subGroup = none ∧
      g'.runs = g.groups ∧ h'.subs j = none ∧
      h.next i j = if g'.nextItem.isSome then (h'.newAttached i j, true) else (h', false) := by
  obtain ⟨g', hg', hsub, hruns, -, hshows⟩ := shows_detach_outer hwf hg false
  have hruns := hruns rfl
  unfold Heap.next
  generalize h.detach (h.attached i) false = h' at *
  have hsame : h'.Shows h.groups h.items := by
    refine hshows.of_eq ?_ rfl
    rw [hruns, Function.update_eq_self_iff]
    simp [Heap.groups, hg]
  have hfree : h'.subs j = none := by
    have hitems := congrFun hsame.items j
    simpa [Heap.items, hj] using hitems
  refine ⟨h', g', hsame, hg', hsub, hruns, hfree, ?_⟩
  have hatt : h'.attached i = none := by simp [Heap.attached, hg', hsub]
  cases hitem : g'.nextItem <;> simp [hatt, Heap.target, hg', hitem]

theorem shows_next_none (hwf : h.WF) (hg : h.outers i = some g) (hj : h.subs j = none)
    (hgroups : g.groups = []) :
    (h.next i j).2 = false ∧ (h.next i j).1.Shows h.groups h.items := by
  obtain ⟨h', g', hshows, hg', hsub, hruns, hfree, heq⟩ := next_eq hwf hg hj
  have hitem : g'.nextItem = none := by
    rw [← head?_front, GroupBy.front, hruns, hgroups]
    rfl
  rw [heq, hitem]
  exact ⟨rfl, hshows⟩

theorem shows_next_some (hwf : h.WF) (hg : h.outers i = some g) (hj : h.subs j = none) {r : List α}
    {rs : List (List α)} (hgroups : g.groups = r :: rs) :
    (h.next i j).2 = true ∧ (h.next i j).1.Shows (Function.update h.groups i (some rs))
      (Function.update h.items j (some r)) := by
  obtain ⟨h', g', hshows, hg', hsub, hruns, hfree, heq⟩ := next_eq hwf hg hj
  have hitem : g'.nextItem.isSome := by
    by_contra hnone
    rw [runs_of_none (by simpa using hnone), hgroups] at hruns
    cases hruns
  have hatt : h'.attached i = none := by simp [Heap.attached, hg', hsub]
  have hattach := shows_attach hshows.wf (apart_of_none hatt (not_linked_of_none hfree))
    (g := { g' with subGroup := some j }) rfl hitem none
  rw [heq, if_pos hitem, newAttached_eq hg']
  refine ⟨rfl, hattach.of_eq ?_ ?_⟩
  · have htail : GroupBy.runs { g' with subGroup := some j } = r :: rs := hruns.trans hgroups
    rw [htail, hshows.groups]
    rfl
  · have hfront : GroupBy.front { g' with subGroup := some j } = r := by
      have hruns' : GroupBy.runs { g' with subGroup := some j } = r :: rs := hruns.trans hgroups
      rw [GroupBy.front, hruns']
      rfl
    rw [hfront, hshows.items]

/-! ### Copies -/

theorem copyOf_spec (hwf : h.WF) (hg : h.outers i = some g) :
    g.copyOf.subGroup = none ∧ g.copyOf.runs = g.groups ∧
      (g.subGroup.isNone || g.nextItem.isSome) = true := by
  have hitem := hwf.outers i g hg
  unfold GroupBy.copyOf GroupBy.groups
  cases hsub : g.subGroup with
  | none => exact ⟨rfl, rfl, rfl⟩
  | some j =>
    have hitem : g.state.nextItem.isSome := hitem (by rw [hsub]; rfl)
    refine ⟨consume_subGroup hitem, runs_consume hitem, ?_⟩
    exact hitem

theorem shows_peek_none (hwf : h.WF) (hg : h.outers i = some g) (hgroups : g.groups = []) :
    (h.peek g j).2 = false ∧ (h.peek g j).1.Shows h.groups h.items := by
  obtain ⟨hsub, hruns, hassert⟩ := copyOf_spec hwf hg
  have hitem : g.copyOf.nextItem = none := by
    rw [← head?_front, GroupBy.front, hruns, hgroups]
    rfl
  simp only [Heap.peek, hassert, hitem, assert_true]
  exact ⟨trivial, hwf.shows⟩

theorem shows_peek_some (hwf : h.WF) (hg : h.outers i = some g) (hj : h.subs j = none) {r : List α}
    {rs : List (List α)} (hgroups : g.groups = r :: rs) :
    (h.peek g j).2 = true ∧
      (h.peek g j).1.Shows h.groups (Function.update h.items j (some r)) := by
  obtain ⟨hsub, hruns, hassert⟩ := copyOf_spec hwf hg
  obtain ⟨x, hitem⟩ : ∃ x, g.copyOf.nextItem = some x := by
    refine Option.ne_none_iff_exists'.mp fun hnone => ?_
    rw [runs_of_none hnone, hgroups] at hruns
    cases hruns
  simp only [Heap.peek, hassert, hitem, assert_true, Heap.newPrivate]
  refine ⟨trivial, (shows_setSub hwf (not_linked_of_none hj) ?_).of_eq rfl ?_⟩
  · rintro s hs
    obtain rfl := Option.some.inj hs
    exact ⟨.detached rfl (Option.isSome_iff_exists.mpr ⟨x, hitem⟩), nofun⟩
  · have hfront : g.copyOf.front = r := by
      rw [GroupBy.front, hruns, hgroups]
      rfl
    exact congrArg (fun x => Function.update h.items j (some x)) hfront

theorem shows_copyOuter (hwf : h.WF) (hold : h.attached i = none) (hg : h.outers i' = some g) :
    (h.copyOuter i g).Shows (Function.update h.groups i (h.groups i')) h.items := by
  obtain ⟨hsub, hruns, hassert⟩ := copyOf_spec hwf hg
  rw [Heap.copyOuter, hassert, assert_true]
  refine (shows_setOuter hwf hold ?_).of_eq ?_ rfl
  · rintro g' hg'
    obtain rfl := Option.some.inj hg'
    exact hsub
  · have hgroups : g.copyOf.groups = g.groups := by
      rw [GroupBy.groups, hsub]
      exact hruns
    simp only [Option.map_some, hgroups, Heap.groups, hg]

/-! ### Moves -/

/-- A GroupBy without a SubGroup is moved to `i`. -/
theorem moveOuter_free (hne : i ≠ i') (hsub : g.subGroup = none) (left : GroupBy α) :
    h.moveOuter i i' g left = (h.setOuter i' (some left.state)).setOuter i (some g) := by
  have hg : { g with subGroup := none } = g := by rw [← hsub]
  simp [Heap.moveOuter, Heap.moveSubGroup, hsub, Heap.attached, Heap.modifyTarget, hne.symm,
    setOuter_setOuter, setOuter_comm hne, GroupBy.state, hg]

/-- A SubGroup goes with it. -/
theorem moveOuter_linked (hne : i ≠ i') (hsub : g.subGroup = some k) (hs : h.subs k = some s)
    (left : GroupBy α) :
    h.moveOuter i i' g left =
      ((h.setOuter i' (some left.state)).setOuter i (some g)).setSub k
        (some { s with groupBy := .outer i }) := by
  have hg : { g with subGroup := some k } = g := by rw [← hsub]
  simp [Heap.moveOuter, Heap.moveSubGroup, hsub, hs, Heap.attached, Heap.modifyTarget, hne.symm,
    Heap.modifySub, setSub_setOuter, setOuter_setOuter, setOuter_comm hne, GroupBy.state, hg]

theorem attached_setOuter_of_ne (hne : i ≠ i') (o : Option (GroupBy α)) :
    (h.setOuter i' o).attached i = h.attached i := by
  unfold Heap.attached
  rw [setOuter_outers, Function.update_of_ne hne]

theorem shows_moveOuter (hwf : h.WF) (hne : i ≠ i') (hold : h.attached i = none)
    (hg : h.outers i' = some g) (left : GroupBy α) :
    (h.moveOuter i i' g left).Shows
      (Function.update (Function.update h.groups i (h.groups i')) i' (some left.runs)) h.items := by
  rw [Function.update_comm hne]
  cases hsub : g.subGroup with
  | none =>
    have hatt : h.attached i' = none := by simp [Heap.attached, hg, hsub]
    have hleft := shows_setOuter hwf hatt (o := some left.state) (by rintro _ ⟨⟩; rfl)
    have hold' : (h.setOuter i' (some left.state)).attached i = none := by
      rwa [attached_setOuter_of_ne hne]
    have hmoved := shows_setOuter hleft.wf hold' (o := some g) (by rintro _ ⟨⟩; exact hsub)
    rw [moveOuter_free hne hsub]
    refine hmoved.of_eq ?_ hleft.items
    rw [hleft.groups, Heap.groups, hg]
    rfl
  | some k =>
    have hatt : h.attached i' = some k := by simp [Heap.attached, hg, hsub]
    obtain ⟨st, hs⟩ := sub_of_link hwf ((hwf.links i' k).mp hatt)
    have hitem := hwf.outers i' g hg (by rw [hsub]; rfl)
    -- the SubGroup is first let go, then attached to the new place
    have hleft := shows_unlink hwf (apart_of_attached hwf hatt) (g := left.state) rfl
      (.consumed st) (by simp)
    have hold' : ((h.setOuter i' (some left.state)).setSub k (some ⟨false, st, .null⟩)).attached i
        = none := (attached_setOuter_of_ne hne _).trans hold
    have hmoved := shows_attach hleft.wf (apart_of_none hold' (by simp [setSub_link])) hsub
      hitem st
    rw [setSub_setOuter, setSub_setSub, hleft.groups, hleft.items, Function.update_idem] at hmoved
    rw [moveOuter_linked hne hsub hs]
    refine hmoved.of_eq ?_ ?_
    · rw [groups_of_attached hg hsub]
      rfl
    · rw [Function.update_eq_self_iff]
      exact (items_of_attached hs hg).symm

theorem shows_destroy (hwf : h.WF) (hg : h.outers i = some g) :
    ((h.detach (h.attached i) true).setOuter i none).Shows (Function.update h.groups i none)
      h.items := by
  obtain ⟨g', hg', hsub, -, -, hshows⟩ := shows_detach_outer hwf hg true
  have hatt : (h.detach (h.attached i) true).attached i = none := by
    rw [Heap.attached, hg']
    exact hsub
  refine (shows_setOuter hshows.wf hatt (o := none) (by simp)).of_eq ?_ hshows.items
  rw [hshows.groups, Function.update_idem]
  rfl

/-! ## SubGroup -/

theorem shows_setSub_consumed (hwf : h.WF) (hold : ∀ i, h.link j ≠ .outer i)
    (st : Option (GroupBy α)) :
    (h.setSub j (some ⟨false, st, .null⟩)).Shows h.groups (Function.update h.items j (some [])) :=
  shows_setSub hwf hold (by rintro _ ⟨⟩; exact ⟨.consumed st, nofun⟩)

theorem shows_setSub_detached (hwf : h.WF) (hold : ∀ i, h.link j ≠ .outer i)
    (hitem : g.nextItem.isSome) :
    (h.setSub j (some ⟨true, some { g with subGroup := some j }, .priv j⟩)).Shows h.groups
      (Function.update h.items j (some g.front)) :=
  shows_setSub hwf hold (by rintro _ ⟨⟩; exact ⟨.detached rfl hitem, nofun⟩)

/-- What a SubGroup with items reads is there. -/
theorem target_of_link (hwf : h.WF) (hs : h.subs j = some s) (hlink : h.link j ≠ .null) :
    ∃ g, h.target (h.link j) = some g ∧ g.subGroup = some j ∧ g.nextItem.isSome ∧
      h.items j = some g.front := by
  cases hwf.subs j s hs with
  | consumed st => exact absurd (link_of_sub hs) hlink
  | attached st i =>
    obtain ⟨g, hg, hsub, hitem⟩ := outer_of_link hwf (link_of_sub hs)
    rw [link_of_sub hs]
    exact ⟨g, hg, hsub, hitem, items_of_attached hs hg⟩
  | detached hsub hitem =>
    rw [link_of_sub hs]
    refine ⟨_, by simp only [Heap.target, hs]; rfl, hsub, hitem, ?_⟩
    exact items_of_sub hs (.detached hsub hitem) (by simp)

theorem items_of_null (hs : h.subs j = some s) (hlink : h.link j = .null) :
    h.items j = some [] := by
  rw [link_of_sub hs] at hlink
  simp [Heap.items, hs, hlink, Heap.front, Heap.target]

theorem shows_copyImpl (hwf : h.WF) (hs : h.subs j = some s) (hnot : ∀ i, s.groupBy ≠ .outer i)
    {s' : SubGroup α} (hs' : h.subs j' = some s') :
    (h.copyImpl j j').Shows h.groups (Function.update h.items j (h.items j')) := by
  have hswf := hwf.subs j s hs
  have hold := not_linked_of_sub hs hnot
  by_cases hlink : h.link j' = .null
  · rw [copyImpl_consumed hs hswf hlink, items_of_null hs' hlink]
    exact shows_setSub_consumed hwf hold s.storage
  · obtain ⟨g, hg, -, hitem, hitems⟩ := target_of_link hwf hs' hlink
    rw [copyImpl_eq hs hswf hnot hlink hg, hitems]
    exact shows_setSub_detached hwf hold hitem

/-- The one thing that goes wrong is left out: an attached sub-sequence is moved to one that has
    items. -/
theorem shows_moveImpl (hwf : h.WF) (hne : j ≠ j') (hs : h.subs j = some s)
    (hnot : ∀ i, s.groupBy ≠ .outer i) {s' : SubGroup α} (hs' : h.subs j' = some s')
    (hcareful : s.groupBy = .null ∨ ∀ i, s'.groupBy ≠ .outer i) :
    (h.moveImpl j j').Shows h.groups
      (Function.update (Function.update h.items j (h.items j')) j' (some [])) := by
  have hswf := hwf.subs j s hs
  have hold := not_linked_of_sub hs hnot
  cases hwf.subs j' s' hs' with
  | consumed st =>
    have hnull : h.items j' = some [] := items_of_null hs' (link_of_sub hs')
    rw [moveImpl_consumed hs hswf hs', hnull]
    refine (shows_setSub_consumed hwf hold s.storage).of_eq rfl ?_
    rw [eq_comm, Function.update_eq_self_iff, Function.update_of_ne hne.symm]
    exact hnull.symm
  | attached st' i =>
    obtain ⟨g, hg, hsub, hitem⟩ := outer_of_link hwf (link_of_sub hs')
    obtain hnull | hfree := hcareful
    · cases hswf with
      | attached st _ => cases hnull
      | detached _ _ => cases hnull
      | consumed st =>
        have hatt : h.attached i = some j' := (hwf.links i j').mpr (link_of_sub hs')
        have hfreed := shows_unlink hwf (apart_of_attached hwf hatt) (g := g.state) rfl
          (.consumed st') (by simp)
        have hlink : ∀ k, ((h.setOuter i (some g.state)).setSub j'
            (some ⟨false, st', .null⟩)).link j ≠ .outer k := by
          rw [setSub_link_of_ne hne]
          exact hold
        have hnone : ((h.setOuter i (some g.state)).setSub j'
            (some ⟨false, st', .null⟩)).attached i = none := by
          simp [Heap.attached, GroupBy.state]
        have hmoved := shows_attach hfreed.wf (apart_of_none hnone hlink)
          (g := { g with subGroup := some j }) rfl hitem st
        rw [setSub_setOuter, setOuter_setOuter, setSub_comm hne.symm] at hmoved
        rw [moveImpl_attached hne hs hs' hg]
        refine hmoved.of_eq ?_ ?_
        · rw [hfreed.groups, Function.update_idem, Function.update_eq_self_iff]
          exact (groups_of_attached hg hsub).symm
        · rw [hfreed.items, Function.update_comm hne, items_of_attached hs' hg]
          rfl
    · exact absurd rfl (hfree i)
  | detached hsub hitem =>
    rename_i g
    rw [moveImpl_detached hne hs hswf hnot hs']
    have hmoved := shows_setSub_detached hwf hold hitem
    have hlink : ∀ i, (h.setSub j (some ⟨true, some { g with subGroup := some j },
        .priv j⟩)).link j' ≠ .outer i := by
      rw [setSub_link_of_ne hne.symm, link_of_sub hs']
      intro i heq
      cases heq
    have hleft := shows_setSub_consumed hmoved.wf hlink (some g.state)
    refine hleft.of_eq hmoved.groups ?_
    rw [hmoved.items, items_of_sub hs' (.detached hsub hitem) (by simp)]
    rfl

/-! ### next, peek -/

theorem subPeek_eq (hwf : h.WF) (hs : h.subs j = some s) :
    h.subPeek j = (h.items j).bind List.head? := by
  unfold Heap.subPeek
  by_cases hlink : h.link j = .null
  · rw [hlink, items_of_null hs hlink]
    rfl
  · obtain ⟨g, hg, -, -, hitems⟩ := target_of_link hwf hs hlink
    rw [hg, hitems]
    exact (head?_front g).symm

/-- Within the run: the item goes, and the SubGroup stays linked. -/
theorem shows_advance (hwf : h.WF) (hs : h.subs j = some s) {x : α}
    (htarget : h.target s.groupBy = some g) (hsub : g.subGroup = some j)
    (hitem : g.nextItem = some x) (hends : g.ends x = false) :
    (h.modifyTarget s.groupBy GroupBy.advance).Shows h.groups
      (Function.update h.items j (some g.front.tail)) := by
  obtain ⟨y, r, rs, hitem', hruns', hruns⟩ := runs_advance_of_not_ends hitem hends
  have hsome : g.advance.nextItem.isSome := Option.isSome_iff_exists.mpr ⟨y, hitem'⟩
  have hfront : g.advance.front = g.front.tail := by
    rw [GroupBy.front, GroupBy.front, hruns, hruns']
    rfl
  rw [← hfront]
  cases hwf.subs j s hs with
  | consumed st => cases htarget
  | attached st i =>
    have hg : h.outers i = some g := htarget
    have hatt : h.attached i = some j := (hwf.links i j).mpr (link_of_sub hs)
    have hshows := shows_attach hwf (apart_of_attached hwf hatt) (g := g.advance) hsub hsome st
    have hsame : (h.setOuter i (some g.advance)).setSub j (some ⟨false, st, .outer i⟩) =
        h.setOuter i (some g.advance) := by
      unfold Heap.setSub
      rw [Function.update_eq_self_iff.mpr (by exact hs.symm)]
    rw [hsame] at hshows
    rw [modifyTarget_outer hg]
    refine hshows.of_eq ?_ rfl
    rw [hruns', Function.update_eq_self_iff, groups_of_attached hg hsub, hruns]
    rfl
  | detached hsub' hitem'' =>
    rename_i g'
    obtain rfl : g' = g := by simpa [Heap.target, hs] using htarget
    have hadvance : { g'.advance with subGroup := some j } = g'.advance := by
      rw [← hsub]
      rfl
    have hshows := shows_setSub_detached hwf (not_linked_of_sub hs (by simp)) hsome
    rw [hadvance] at hshows
    rw [modifyTarget_priv hs rfl]
    exact hshows

/-- At its end: the SubGroup is consumed, and the GroupBy is at the next run. -/
theorem shows_finish (hwf : h.WF) (hs : h.subs j = some s) {x : α}
    (htarget : h.target s.groupBy = some g) (hsub : g.subGroup = some j)
    (hitem : g.nextItem = some x) (hends : g.ends x = true) :
    ((((h.modifyTarget s.groupBy GroupBy.advance).modifySub j
        fun s => { s with groupBy := .null }).reset j).modifyTarget s.groupBy
          fun g => { g with subGroup := none }).Shows
      h.groups (Function.update h.items j (some [])) := by
  have hruns := runs_advance_of_ends hitem hends
  cases hwf.subs j s hs with
  | consumed st => cases htarget
  | attached st i =>
    have hg : h.outers i = some g := htarget
    have hatt : h.attached i = some j := (hwf.links i j).mpr (link_of_sub hs)
    rw [modifyTarget_outer hg, reset_consumed (h := h.setOuter i _) hs (by simp),
      modifyTarget_outer (Function.update_self ..), setSub_setOuter, setOuter_setOuter]
    have hshows := shows_unlink hwf (apart_of_attached hwf hatt)
      (g := { g.advance with subGroup := none }) rfl (.consumed st) (by simp)
    refine hshows.of_eq ?_ rfl
    rw [Function.update_eq_self_iff, groups_of_attached hg hsub, hruns]
    rfl
  | detached hsub' hitem'' =>
    rename_i g'
    obtain rfl : g' = g := by simpa [Heap.target, hs] using htarget
    have hreset := reset_consumed
      (setSub_subs_self (h := h) (some ⟨true, some g'.advance, .priv j⟩)) (fun _ => hsub)
    rw [modifyTarget_priv hs rfl, hreset, modifyTarget_priv (setSub_subs_self _) rfl,
      setSub_setSub, setSub_setSub]
    exact shows_setSub_consumed hwf (not_linked_of_sub hs (by simp)) _

theorem shows_subNext (hwf : h.WF) (hs : h.subs j = some s) :
    (h.subNext j).2 = (h.items j).bind List.head? ∧
      (h.subNext j).1.Shows h.groups (Function.update h.items j ((h.items j).map List.tail)) := by
  by_cases hlink : h.link j = .null
  · have hnull := items_of_null hs hlink
    rw [hnull]
    simp only [Heap.subNext, hlink]
    refine ⟨rfl, hwf.shows.of_eq rfl ?_⟩
    rw [eq_comm, Function.update_eq_self_iff]
    exact hnull.symm
  · obtain ⟨g, hg, hsub, hsome, hitems⟩ := target_of_link hwf hs hlink
    obtain ⟨x, hitem⟩ := Option.isSome_iff_exists.mp hsome
    have hnext : h.subNext j = h.subGroupNext (h.link j) g := by
      unfold Heap.subNext
      split
      · exact absurd ‹_› hlink
      · rw [hg]
    rw [hnext, hitems, Heap.subGroupNext, hitem]
    rw [link_of_sub hs] at hg ⊢
    have hhead : g.front.head? = some x := by rw [head?_front, hitem]
    simp only [hsub]
    cases hends : g.ends x with
    | false => exact ⟨hhead.symm, shows_advance hwf hs hg hsub hitem hends⟩
    | true =>
      have htail : g.front.tail = [] := by
        rw [GroupBy.front, runs_advance_of_ends hitem hends]
        rfl
      refine ⟨hhead.symm, ?_⟩
      rw [Option.map_some, htail]
      exact shows_finish hwf hs hg hsub hitem hends

theorem shows_subDestroy (hwf : h.WF) (hs : h.subs j = some s) :
    (h.subDestroy j).Shows h.groups (Function.update h.items j none) := by
  obtain ⟨hshows, -, -, s', hs', hswf, hnot⟩ := shows_detachThis hwf hs
  unfold Heap.subDestroy
  generalize h.detachThis j = h' at *
  have hsame : (if s'.valid then h'.detach (s'.storage.bind (·.subGroup)) true else h') = h' := by
    split
    · rw [hswf.own_subGroup ‹_›]
      exact detach_detached hs' hswf hnot true
    · rfl
  simp only [hs', hsame]
  refine (shows_setSub hshows.wf (not_linked_of_sub hs' hnot) (o := none) nofun).of_eq
    hshows.groups ?_
  rw [hshows.items]
  rfl

end Batt.Grouping
