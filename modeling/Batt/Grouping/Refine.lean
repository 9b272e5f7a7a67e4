/-
  `group_by` yields the maximal runs, however its result is driven.

  The heap and the machine without sharing go in step: they show the user the same, and each object
  of the heap has what its counterpart has to return (`Refines`). One operation breaks this: moving
  an attached SubGroup to one that still has items (`Careful`). There `private_group_by_ = None` runs
  ~GroupBy while `group_by_` still points to the object it destroys, so that ~GroupBy detaches once
  more, and the flag is set again over a destroyed object. The SubGroup then counts as detached, the
  GroupBy does not advance past its run, and `next` returns the run a second time.
-/
import Batt.Grouping.Ops

namespace Batt.Grouping

variable {α : Type} {h : Heap α} {s : Spec α} {op : Op α}

def Cursor.remaining (c : Cursor α) : List (List α) := c.runs.drop c.taken

def Refines (h : Heap α) (s : Spec α) : Prop :=
  h.Shows (fun i => (s.outers i).map Cursor.remaining) s.subs

/-- An attached SubGroup is not moved to another one that has items left. -/
def Careful (h : Heap α) : Op α → Prop
  | .subAssignMove j j' => j ≠ j' → h.link j = .null ∨ ∀ i, h.link j' ≠ .outer i
  | _ => True

/-- Every operation of the run is careful. -/
def CarefulRun (h : Heap α) : List (Op α) → Prop
  | [] => True
  | op :: ops =>
    (op.fits (fun i => (h.outers i).isSome) (fun j => (h.subs j).isSome) = true → Careful h op) ∧
      CarefulRun (h.exec op).1 ops

/-! ## One operation -/

theorem remaining_head? (c : Cursor α) : c.remaining.head? = c.current := List.head?_drop ..

theorem remaining_advance (c : Cursor α) : c.advance.remaining = c.remaining.tail :=
  List.tail_drop.symm

theorem Refines.outer (hr : Refines h s) {i : Nat} {g : GroupBy α} (hg : h.outers i = some g) :
    ∃ c, s.outers i = some c ∧ g.groups = c.remaining := by
  have hgroups := congrFun hr.groups i
  simp only [Heap.groups, hg, Option.map_some] at hgroups
  obtain ⟨c, hc, hremaining⟩ := Option.map_eq_some_iff.mp hgroups.symm
  exact ⟨c, hc, hremaining.symm⟩

theorem Refines.outer_isSome (hr : Refines h s) (i : Nat) :
    (h.outers i).isSome = (s.outers i).isSome := by
  have hgroups := congrArg Option.isSome (congrFun hr.groups i)
  simpa [Heap.groups] using hgroups

theorem Refines.sub_isSome (hr : Refines h s) (j : Nat) :
    (h.subs j).isSome = (s.subs j).isSome := by
  have hitems := congrArg Option.isSome (congrFun hr.items j)
  simpa [Heap.items] using hitems

theorem map_update {β γ : Type} (f : β → γ) (o : Nat → Option β) (i : Nat) (x : Option β) :
    (fun k => (Function.update o i x k).map f) =
      Function.update (fun k => (o k).map f) i (x.map f) := by
  funext k
  by_cases hk : k = i
  · rw [hk, Function.update_self, Function.update_self]
  · rw [Function.update_of_ne hk, Function.update_of_ne hk]

theorem groups_construct (seq : List α) (groupEq : α → α → Bool) :
    (GroupBy.construct seq groupEq).groups = seq.splitBy groupEq := by
  cases seq <;> rfl

theorem detached_outer (hwf : h.WF) {i i' : Nat} {g g' : GroupBy α} (hne : i ≠ i')
    (hg : h.outers i = some g) (hg' : h.outers i' = some g') :
    ∃ h' : Heap α, h' = h.detach (h.attached i) true ∧ h'.WF ∧ h'.attached i = none ∧
      h'.outers i' = some g' ∧ h'.items = h.items ∧ h'.groups i' = h.groups i' ∧
      ∀ x, Function.update h'.groups i x = Function.update h.groups i x := by
  obtain ⟨g₁, hg₁, hsub, -, hsame, hshows⟩ := shows_detach_outer hwf hg true
  refine ⟨_, rfl, hshows.wf, ?_, ?_, hshows.items, ?_, ?_⟩
  · rw [Heap.attached, hg₁]
    exact hsub
  · rw [hsame i' hne.symm, hg']
  · rw [hshows.groups, Function.update_of_ne hne.symm]
  · intro x
    rw [hshows.groups, Function.update_idem]

/-- The heap and the machine do the same. -/
def Agree (h : Heap α) (s : Spec α) (op : Op α) : Prop :=
  (h.run op).2 = (s.run op).2 ∧ Refines (h.run op).1 (s.run op).1

attribute [local simp] Heap.run Spec.run

variable {i i' j j' : Nat}

theorem make_agree (hr : Refines h s) (hi : h.outers i = none) (seq : List α)
    (groupEq : α → α → Bool) : Agree h s (.make i seq groupEq) := by
  have hatt : h.attached i = none := by simp [Heap.attached, hi]
  refine ⟨rfl, (shows_setOuter hr.wf hatt ?_).of_eq ?_ hr.items⟩
  · rintro _ ⟨⟩
    rfl
  · simp only [Spec.run, map_update, hr.groups]
    rw [Option.map_some, groups_construct]
    rfl

theorem next_agree (hr : Refines h s) (hi : (h.outers i).isSome) (hj : h.subs j = none) :
    Agree h s (.next i j) := by
  obtain ⟨g, hg⟩ := Option.isSome_iff_exists.mp hi
  obtain ⟨c, hc, hgroups⟩ := hr.outer hg
  have hcur := remaining_head? c
  unfold Agree
  cases hrem : c.remaining with
  | nil =>
    rw [hrem] at hcur
    obtain ⟨hobs, hshows⟩ := shows_next_none hr.wf hg hj (hgroups.trans hrem)
    simp only [Heap.run, Spec.run, hc, Option.bind_some, ← hcur, List.head?_nil, hobs, true_and]
    exact hshows.of_eq hr.groups hr.items
  | cons r rs =>
    rw [hrem] at hcur
    obtain ⟨hobs, hshows⟩ := shows_next_some hr.wf hg hj (hgroups.trans hrem)
    simp only [Heap.run, Spec.run, hc, Option.bind_some, ← hcur, List.head?_cons, hobs, true_and]
    refine hshows.of_eq ?_ ?_
    · rw [map_update, hr.groups, Option.map_some, Option.map_some, remaining_advance, hrem]
      rfl
    · rw [hr.items]

theorem peek_agree (hr : Refines h s) (hi : (h.outers i).isSome) (hj : h.subs j = none) :
    Agree h s (.peek i j) := by
  obtain ⟨g, hg⟩ := Option.isSome_iff_exists.mp hi
  obtain ⟨c, hc, hgroups⟩ := hr.outer hg
  have hcur := remaining_head? c
  unfold Agree
  cases hrem : c.remaining with
  | nil =>
    rw [hrem] at hcur
    obtain ⟨hobs, hshows⟩ := shows_peek_none (j := j) hr.wf hg (hgroups.trans hrem)
    simp only [Heap.run, Spec.run, hg, hc, Option.bind_some, ← hcur, List.head?_nil, hobs,
      true_and]
    exact hshows.of_eq hr.groups hr.items
  | cons r rs =>
    rw [hrem] at hcur
    obtain ⟨hobs, hshows⟩ := shows_peek_some hr.wf hg hj (hgroups.trans hrem)
    simp only [Heap.run, Spec.run, hg, hc, Option.bind_some, ← hcur, List.head?_cons, hobs,
      true_and]
    refine hshows.of_eq hr.groups ?_
    rw [hr.items]

theorem copy_agree (hr : Refines h s) (hi : h.outers i = none) (hi' : (h.outers i').isSome) :
    Agree h s (.copy i i') := by
  obtain ⟨g, hg⟩ := Option.isSome_iff_exists.mp hi'
  have hatt : h.attached i = none := by simp [Heap.attached, hi]
  simp only [Agree, Heap.run, hg, Spec.run, true_and]
  refine (shows_copyOuter hr.wf hatt hg).of_eq ?_ hr.items
  rw [map_update, hr.groups]

theorem move_agree (hr : Refines h s) (hi : h.outers i = none) (hi' : (h.outers i').isSome)
    (left : GroupBy α) : Agree h s (.move i i' left) := by
  obtain ⟨g, hg⟩ := Option.isSome_iff_exists.mp hi'
  have hatt : h.attached i = none := by simp [Heap.attached, hi]
  have hne : i ≠ i' := by
    rintro rfl
    rw [hi] at hg
    cases hg
  simp only [Agree, Heap.run, hg, Spec.run, if_neg hne, true_and]
  refine (shows_moveOuter hr.wf hne hatt hg left).of_eq ?_ hr.items
  rw [map_update, map_update, hr.groups]
  rfl

theorem assignCopy_agree (hr : Refines h s) (hi : (h.outers i).isSome)
    (hi' : (h.outers i').isSome) : Agree h s (.assignCopy i i') := by
  obtain ⟨g, hg⟩ := Option.isSome_iff_exists.mp hi
  obtain ⟨g', hg'⟩ := Option.isSome_iff_exists.mp hi'
  by_cases hne : i = i'
  · subst hne
    simp only [Agree, Heap.run, if_true, Spec.run, Function.update_eq_self, true_and]
    exact hr
  · obtain ⟨h', hh', hwf', hatt, hg₁, hitems, hgroups, hupdate⟩ := detached_outer hr.wf hne hg hg'
    simp only [Agree, Heap.run, if_neg hne, ← hh', hg₁, Spec.run, true_and]
    refine (shows_copyOuter hwf' hatt hg₁).of_eq ?_ (hitems.trans hr.items)
    rw [hgroups, hupdate, map_update, hr.groups]

theorem assignMove_agree (hr : Refines h s) (hi : (h.outers i).isSome)
    (hi' : (h.outers i').isSome) (left : GroupBy α) : Agree h s (.assignMove i i' left) := by
  obtain ⟨g, hg⟩ := Option.isSome_iff_exists.mp hi
  obtain ⟨g', hg'⟩ := Option.isSome_iff_exists.mp hi'
  by_cases hne : i = i'
  · simp only [Agree, Heap.run, if_pos hne, Spec.run, true_and]
    exact hr
  · obtain ⟨h', hh', hwf', hatt, hg₁, hitems, hgroups, hupdate⟩ := detached_outer hr.wf hne hg hg'
    simp only [Agree, Heap.run, if_neg hne, ← hh', hg₁, Spec.run, true_and]
    refine (shows_moveOuter hwf' hne hatt hg₁ left).of_eq ?_ (hitems.trans hr.items)
    rw [hgroups, hupdate, map_update, map_update, hr.groups]
    rfl

theorem destroy_agree (hr : Refines h s) (hi : (h.outers i).isSome) :
    Agree h s (.destroy i) := by
  obtain ⟨g, hg⟩ := Option.isSome_iff_exists.mp hi
  refine ⟨rfl, (shows_destroy hr.wf hg).of_eq ?_ hr.items⟩
  simp only [Spec.run, map_update, hr.groups]
  rfl

theorem subNext_agree (hr : Refines h s) (hj : (h.subs j).isSome) : Agree h s (.subNext j) := by
  obtain ⟨sub, hs⟩ := Option.isSome_iff_exists.mp hj
  obtain ⟨hobs, hshows⟩ := shows_subNext hr.wf hs
  rw [hr.items] at hobs hshows
  exact ⟨congrArg Obs.item hobs, hshows.of_eq hr.groups rfl⟩

theorem subPeek_agree (hr : Refines h s) (hj : (h.subs j).isSome) : Agree h s (.subPeek j) := by
  obtain ⟨sub, hs⟩ := Option.isSome_iff_exists.mp hj
  have hobs := subPeek_eq hr.wf hs
  rw [hr.items] at hobs
  exact ⟨congrArg Obs.item hobs, hr⟩

/-- A new SubGroup is empty before it is filled. -/
theorem shows_newSub (hr : Refines h s) (hj : h.subs j = none) (hj' : (h.subs j').isSome) :
    ∃ h', h' = h.setSub j (some ⟨false, none, .null⟩) ∧ j ≠ j' ∧
      h'.Shows h.groups (Function.update h.items j (some [])) ∧
      h'.subs j = some ⟨false, none, .null⟩ ∧ h'.subs j' = h.subs j' ∧
      h'.items j' = h.items j' := by
  have hne : j ≠ j' := by
    rintro rfl
    rw [hj] at hj'
    cases hj'
  have hshows := shows_setSub_consumed hr.wf (not_linked_of_none hj) none
  refine ⟨_, rfl, hne, hshows, setSub_subs_self _, Function.update_of_ne hne.symm .., ?_⟩
  rw [hshows.items, Function.update_of_ne hne.symm]

theorem subCopy_agree (hr : Refines h s) (hj : h.subs j = none) (hj' : (h.subs j').isSome) :
    Agree h s (.subCopy j j') := by
  obtain ⟨h', hh', hne, hshows, hs, hs', hitems⟩ := shows_newSub hr hj hj'
  obtain ⟨sub', hsub'⟩ := Option.isSome_iff_exists.mp hj'
  have hcopy := shows_copyImpl hshows.wf hs nofun (hs'.trans hsub')
  simp only [Agree, Heap.run, ← hh', Spec.run, true_and]
  refine hcopy.of_eq (hshows.groups.trans hr.groups) ?_
  rw [hitems, hshows.items, Function.update_idem, hr.items]

theorem subMove_agree (hr : Refines h s) (hj : h.subs j = none) (hj' : (h.subs j').isSome) :
    Agree h s (.subMove j j') := by
  obtain ⟨h', hh', hne, hshows, hs, hs', hitems⟩ := shows_newSub hr hj hj'
  obtain ⟨sub', hsub'⟩ := Option.isSome_iff_exists.mp hj'
  have hmove := shows_moveImpl hshows.wf hne hs nofun (hs'.trans hsub') (.inl rfl)
  simp only [Agree, Heap.run, ← hh', Spec.run, if_neg hne, true_and]
  refine hmove.of_eq (hshows.groups.trans hr.groups) ?_
  rw [hitems, hshows.items, Function.update_idem, hr.items]

theorem subAssignCopy_agree (hr : Refines h s) (hj : (h.subs j).isSome)
    (hj' : (h.subs j').isSome) : Agree h s (.subAssignCopy j j') := by
  obtain ⟨sub, hs⟩ := Option.isSome_iff_exists.mp hj
  obtain ⟨sub', hs'⟩ := Option.isSome_iff_exists.mp hj'
  by_cases hne : j = j'
  · subst hne
    simp only [Agree, Heap.run, if_true, Spec.run, Function.update_eq_self, true_and]
    exact hr
  · obtain ⟨hshows, hsame, -, sub₁, hs₁, -, hnot⟩ := shows_detachThis hr.wf hs
    have hcopy := shows_copyImpl hshows.wf hs₁ hnot ((hsame j' (Ne.symm hne)).trans hs')
    simp only [Agree, Heap.run, if_neg hne, Spec.run, true_and]
    refine hcopy.of_eq (hshows.groups.trans hr.groups) ?_
    rw [hshows.items, hr.items]

theorem subAssignMove_agree (hr : Refines h s) (hj : (h.subs j).isSome)
    (hj' : (h.subs j').isSome) (hcareful : Careful h (.subAssignMove j j')) :
    Agree h s (.subAssignMove j j') := by
  obtain ⟨sub, hs⟩ := Option.isSome_iff_exists.mp hj
  obtain ⟨sub', hs'⟩ := Option.isSome_iff_exists.mp hj'
  by_cases hne : j = j'
  · simp only [Agree, Heap.run, if_pos hne, Spec.run, true_and]
    exact hr
  · obtain ⟨hshows, hsame, hnull, sub₁, hs₁, -, hnot⟩ := shows_detachThis hr.wf hs
    have hfree : sub₁.groupBy = .null ∨ ∀ i, sub'.groupBy ≠ .outer i := by
      have hcareful := hcareful hne
      rwa [← hnull, link_of_sub hs₁, link_of_sub hs'] at hcareful
    have hmove := shows_moveImpl hshows.wf hne hs₁ hnot ((hsame j' (Ne.symm hne)).trans hs') hfree
    simp only [Agree, Heap.run, if_neg hne, Spec.run, true_and]
    refine hmove.of_eq (hshows.groups.trans hr.groups) ?_
    rw [hshows.items, hr.items]

theorem subDestroy_agree (hr : Refines h s) (hj : (h.subs j).isSome) :
    Agree h s (.subDestroy j) := by
  obtain ⟨sub, hs⟩ := Option.isSome_iff_exists.mp hj
  have hshows := shows_subDestroy hr.wf hs
  rw [hr.items] at hshows
  exact ⟨rfl, hshows.of_eq hr.groups rfl⟩

/-- One operation on objects that are there. -/
theorem run_agree (hr : Refines h s)
    (hfits : op.fits (fun i => (h.outers i).isSome) (fun j => (h.subs j).isSome) = true)
    (hcareful : Careful h op) : Agree h s op := by
  cases op with
  | make i seq groupEq => exact make_agree hr (by simpa [Op.fits] using hfits) seq groupEq
  | next i j =>
    simp [Op.fits] at hfits
    exact next_agree hr hfits.1 hfits.2
  | peek i j =>
    simp [Op.fits] at hfits
    exact peek_agree hr hfits.1 hfits.2
  | copy i i' =>
    simp [Op.fits] at hfits
    exact copy_agree hr hfits.1 hfits.2
  | move i i' left =>
    simp [Op.fits] at hfits
    exact move_agree hr hfits.1 hfits.2 left
  | assignCopy i i' =>
    simp [Op.fits] at hfits
    exact assignCopy_agree hr hfits.1 hfits.2
  | assignMove i i' left =>
    simp [Op.fits] at hfits
    exact assignMove_agree hr hfits.1 hfits.2 left
  | destroy i => exact destroy_agree hr hfits
  | subNext j => exact subNext_agree hr hfits
  | subPeek j => exact subPeek_agree hr hfits
  | subCopy j j' =>
    simp [Op.fits] at hfits
    exact subCopy_agree hr hfits.1 hfits.2
  | subMove j j' =>
    simp [Op.fits] at hfits
    exact subMove_agree hr hfits.1 hfits.2
  | subAssignCopy j j' =>
    simp [Op.fits] at hfits
    exact subAssignCopy_agree hr hfits.1 hfits.2
  | subAssignMove j j' =>
    simp [Op.fits] at hfits
    exact subAssignMove_agree hr hfits.1 hfits.2 hcareful
  | subDestroy j => exact subDestroy_agree hr hfits

/-! ## Runs -/

theorem exec_refines (hr : Refines h s)
    (hcareful : op.fits (fun i => (h.outers i).isSome) (fun j => (h.subs j).isSome) = true →
      Careful h op) :
    (h.exec op).2 = (s.exec op).2 ∧ Refines (h.exec op).1 (s.exec op).1 := by
  unfold Heap.exec Spec.exec
  simp only [hr.outer_isSome, hr.sub_isSome] at hcareful ⊢
  by_cases hfits : op.fits (fun i => (s.outers i).isSome) (fun j => (s.subs j).isSome) = true
  · rw [if_pos hfits, if_pos hfits]
    refine run_agree hr ?_ (hcareful hfits)
    simpa only [hr.outer_isSome, hr.sub_isSome] using hfits
  · rw [if_neg hfits, if_neg hfits]
    exact ⟨rfl, hr⟩

theorem execAll_refines {ops : List (Op α)} (hr : Refines h s) (hcareful : CarefulRun h ops) :
    (h.execAll ops).2 = (s.execAll ops).2 ∧ Refines (h.execAll ops).1 (s.execAll ops).1 := by
  induction ops generalizing h s with
  | nil => exact ⟨rfl, hr⟩
  | cons op ops ih =>
    obtain ⟨hobs, hr'⟩ := exec_refines hr hcareful.1
    obtain ⟨hobs', hr''⟩ := ih hr' hcareful.2
    exact ⟨congrArg₂ List.cons hobs hobs', hr''⟩

theorem empty_refines : Refines (Heap.empty : Heap α) Spec.empty :=
  ⟨Heap.empty_wf, rfl, rfl⟩

/-- **Every careful run sees the maximal runs.** What the user sees is what the machine without
    sharing shows: the k-th group of a GroupBy is the k-th maximal run of its input. No assertion
    fails, a GroupBy has the runs from `taken` on to return, and a SubGroup its items. -/
theorem groups_are_maximal_runs (ops : List (Op α)) (hcareful : CarefulRun Heap.empty ops) :
    (Heap.empty.execAll ops).2 = (Spec.empty.execAll ops).2 ∧
      (Heap.empty.execAll ops).1.ok = true ∧
      (∀ i, (Heap.empty.execAll ops).1.groups i =
        ((Spec.empty.execAll ops).1.outers i).map fun c => c.runs.drop c.taken) ∧
      (∀ j, (Heap.empty.execAll ops).1.items j = (Spec.empty.execAll ops).1.subs j) ∧
      ∀ i c, (Spec.empty.execAll ops).1.outers i = some c →
        MaximalRuns c.groupEq c.input c.runs := by
  obtain ⟨hobs, hr⟩ := execAll_refines empty_refines hcareful
  refine ⟨hobs, hr.wf.ok, congrFun hr.groups, congrFun hr.items, ?_⟩
  intro i c _
  exact maximalRuns_splitBy c.groupEq c.input

/-- A sub-sequence that has been read is used again for the next one. -/
def readThenReuse : List (Op Nat) :=
  [.make 0 [1, 1, 2] (· == ·), .next 0 0, .subNext 0, .subNext 0, .next 0 1, .subAssignMove 0 1,
    .subDestroy 1, .next 0 1, .subNext 0]

theorem groups_are_maximal_runs_reuse :
    CarefulRun Heap.empty readThenReuse ∧
      (Heap.empty.execAll readThenReuse).2 = (Spec.empty.execAll readThenReuse).2 := by
  have hcareful : CarefulRun Heap.empty readThenReuse := by
    refine ⟨fun _ => trivial, fun _ => trivial, fun _ => trivial, fun _ => trivial,
      fun _ => trivial, fun _ _ => .inl ?_, fun _ => trivial, fun _ => trivial, fun _ => trivial,
      trivial⟩
    decide
  exact ⟨hcareful, (groups_are_maximal_runs readThenReuse hcareful).1⟩

/-- `s = *g.next(); s = *g.next();` with items left in `s`. -/
def reuseUnread : List (Op Nat) :=
  [.make 0 [1, 1, 2] (· == ·), .next 0 0, .next 0 1, .subAssignMove 0 1, .subDestroy 1, .next 0 1,
    .subNext 1]

/-- There are two runs, and `next` returns a third group, which is the second again; an assertion
    has failed. -/
theorem reuse_of_unread_group_repeats :
    (Heap.empty.execAll reuseUnread).2 =
        [.done, .group true, .group true, .done, .done, .group true, .item (some 2)] ∧
      (Spec.empty.execAll reuseUnread).2 =
        [.done, .group true, .group true, .done, .done, .group false, .skip] ∧
      (Heap.empty.execAll reuseUnread).1.ok = false := by
  decide

end Batt.Grouping
