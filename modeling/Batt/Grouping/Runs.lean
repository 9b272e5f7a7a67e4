/-
  What `group_by` is for.

  A GroupBy over `input` has the maximal runs of `input` to return, and `taken` counts those it has
  returned. A SubGroup is the list of the items it has still to return. No object shares anything
  with another: a copy is equal to its source, a move leaves an empty SubGroup, or a GroupBy over
  whatever is left of its source, and what is done to one object does not change the others.

  The lemmas are about the runs that a GroupBy has still to return, and how taking an item and
  skipping a run change them.
-/
import Batt.Grouping.Model

namespace Batt.Grouping

variable {α : Type}

/-- The lists are not empty, adjacent items within one are related, the last item of one is not
    related to the first of the next, and together they are `input`. -/
structure MaximalRuns (groupEq : α → α → Bool) (input : List α) (runs : List (List α)) : Prop where
  flatten : runs.flatten = input
  nonempty : ∀ r ∈ runs, r ≠ []
  related : ∀ r ∈ runs, r.IsChain fun x y => groupEq x y
  apart : runs.IsChain fun r r' => ∃ hr hr', groupEq (r.getLast hr) (r'.head hr') = false

theorem maximalRuns_splitBy (groupEq : α → α → Bool) (input : List α) :
    MaximalRuns groupEq input (input.splitBy groupEq) where
  flatten := List.flatten_splitBy groupEq input
  nonempty _ := List.ne_nil_of_mem_splitBy
  related _ := List.isChain_of_mem_splitBy
  apart := List.isChain_getLast_head_splitBy groupEq input

/-- There are no other maximal runs. -/
theorem MaximalRuns.eq_splitBy {groupEq : α → α → Bool} {input : List α} {runs : List (List α)}
    (h : MaximalRuns groupEq input runs) : runs = input.splitBy groupEq := by
  have hnil : [] ∉ runs := fun hmem => h.nonempty [] hmem rfl
  rw [← h.flatten, List.splitBy_flatten hnil h.related h.apart]

structure Cursor (α : Type) where
  input : List α
  groupEq : α → α → Bool
  taken : Nat

def Cursor.runs (c : Cursor α) : List (List α) := c.input.splitBy c.groupEq

/-- The group that is next. -/
def Cursor.current (c : Cursor α) : Option (List α) := c.runs[c.taken]?

def Cursor.advance (c : Cursor α) : Cursor α := { c with taken := c.taken + 1 }

structure Spec (α : Type) where
  outers : Nat → Option (Cursor α)
  subs : Nat → Option (List α)

def Spec.empty : Spec α := ⟨fun _ => none, fun _ => none⟩

/-- The items that a GroupBy has not returned, with those of its SubGroup. -/
def GroupBy.rest (g : GroupBy α) : List α :=
  match g.nextItem with
  | none => []
  | some item => item :: g.seq

def Cursor.ofLeft (left : GroupBy α) : Cursor α := ⟨left.rest, left.groupEq, 0⟩

def Spec.run (s : Spec α) : Op α → Spec α × Obs α
  | .make i seq groupEq =>
    ({ s with outers := Function.update s.outers i (some ⟨seq, groupEq, 0⟩) }, .done)
  | .next i j =>
    match (s.outers i).bind Cursor.current with
    | none => (s, .group false)
    | some r =>
      (⟨Function.update s.outers i ((s.outers i).map Cursor.advance),
        Function.update s.subs j (some r)⟩, .group true)
  | .peek i j =>
    match (s.outers i).bind Cursor.current with
    | none => (s, .group false)
    | some r => ({ s with subs := Function.update s.subs j (some r) }, .group true)
  | .copy i i' | .assignCopy i i' =>
    ({ s with outers := Function.update s.outers i (s.outers i') }, .done)
  | .move i i' left | .assignMove i i' left =>
    if i = i' then (s, .done)
    else
      let outers := Function.update s.outers i (s.outers i')
      ({ s with outers := Function.update outers i' (some (.ofLeft left)) }, .done)
  | .destroy i => ({ s with outers := Function.update s.outers i none }, .done)
  | .subNext j =>
    ({ s with subs := Function.update s.subs j ((s.subs j).map List.tail) },
      .item ((s.subs j).bind List.head?))
  | .subPeek j => (s, .item ((s.subs j).bind List.head?))
  | .subCopy j j' | .subAssignCopy j j' =>
    ({ s with subs := Function.update s.subs j (s.subs j') }, .done)
  | .subMove j j' | .subAssignMove j j' =>
    if j = j' then (s, .done)
    else
      let subs := Function.update s.subs j (s.subs j')
      ({ s with subs := Function.update subs j' (some []) }, .done)
  | .subDestroy j => ({ s with subs := Function.update s.subs j none }, .done)

def Spec.exec (s : Spec α) (op : Op α) : Spec α × Obs α :=
  if op.fits (fun i => (s.outers i).isSome) (fun j => (s.subs j).isSome) then s.run op
  else (s, .skip)

def Spec.execAll (s : Spec α) : List (Op α) → Spec α × List (Obs α)
  | [] => (s, [])
  | op :: ops =>
    (((s.exec op).1.execAll ops).1, (s.exec op).2 :: ((s.exec op).1.execAll ops).2)

variable {groupEq : α → α → Bool} {x y : α} {r seq : List α} {rs : List (List α)}

/-! ## Lists -/

theorem exists_splitBy_cons (groupEq : α → α → Bool) (x : α) (seq : List α) :
    ∃ r rs, (x :: seq).splitBy groupEq = (x :: r) :: rs := by
  have hruns := maximalRuns_splitBy groupEq (x :: seq)
  obtain ⟨r, rs, hsplit⟩ := List.exists_cons_of_ne_nil
    (List.splitBy_ne_nil.mpr (List.cons_ne_nil x seq) : (x :: seq).splitBy groupEq ≠ [])
  rw [hsplit] at hruns
  obtain ⟨z, r, rfl⟩ := List.exists_cons_of_ne_nil (hruns.nonempty r List.mem_cons_self)
  obtain rfl : z = x := (List.cons.inj hruns.flatten).1
  exact ⟨r, rs, hsplit⟩

theorem splitBy_cons_of_apart (h : groupEq x y = false) :
    (x :: y :: seq).splitBy groupEq = [x] :: (y :: seq).splitBy groupEq := by
  have hruns := maximalRuns_splitBy groupEq (y :: seq)
  obtain ⟨r, rs, hsplit⟩ := exists_splitBy_cons groupEq y seq
  rw [hsplit] at hruns ⊢
  refine (MaximalRuns.eq_splitBy ⟨?_, ?_, ?_, ?_⟩).symm
  · rw [List.flatten_cons, hruns.flatten]
    rfl
  · exact List.forall_mem_cons.mpr ⟨List.cons_ne_nil x [], hruns.nonempty⟩
  · exact List.forall_mem_cons.mpr ⟨List.isChain_singleton x, hruns.related⟩
  · exact List.isChain_cons_cons.mpr
      ⟨⟨List.cons_ne_nil x [], List.cons_ne_nil y r, h⟩, hruns.apart⟩

theorem splitBy_cons_of_related (h : groupEq x y = true)
    (hsplit : (y :: seq).splitBy groupEq = (y :: r) :: rs) :
    (x :: y :: seq).splitBy groupEq = (x :: y :: r) :: rs := by
  have hruns := maximalRuns_splitBy groupEq (y :: seq)
  rw [hsplit] at hruns
  refine (MaximalRuns.eq_splitBy ⟨?_, ?_, ?_, ?_⟩).symm
  · rw [← hruns.flatten]
    rfl
  · exact List.forall_mem_cons.mpr
      ⟨List.cons_ne_nil x _, fun q hq => hruns.nonempty q (List.mem_cons_of_mem _ hq)⟩
  · refine List.forall_mem_cons.mpr
      ⟨?_, fun q hq => hruns.related q (List.mem_cons_of_mem _ hq)⟩
    exact List.isChain_cons_cons.mpr ⟨h, hruns.related _ List.mem_cons_self⟩
  · cases rs with
    | nil => exact List.isChain_singleton _
    | cons q rs =>
      obtain ⟨⟨_, hq, hlast⟩, htail⟩ := List.isChain_cons_cons.mp hruns.apart
      refine List.isChain_cons_cons.mpr ⟨⟨List.cons_ne_nil x _, hq, ?_⟩, htail⟩
      rwa [List.getLast_cons (List.cons_ne_nil y r)]

/-! ## GroupBy -/

def GroupBy.runs (g : GroupBy α) : List (List α) := g.rest.splitBy g.groupEq

/-- The groups to come: the run that the SubGroup reads is not one of them. -/
def GroupBy.groups (g : GroupBy α) : List (List α) :=
  if g.subGroup.isSome then g.runs.tail else g.runs

/-- What the SubGroup reads. -/
def GroupBy.front (g : GroupBy α) : List α := g.runs.headD []

variable {g : GroupBy α}

theorem runs_of_none (h : g.nextItem = none) : g.runs = [] := by
  unfold GroupBy.runs GroupBy.rest
  rw [h]
  rfl

theorem runs_of_some (h : g.nextItem = some x) : ∃ r rs, g.runs = (x :: r) :: rs := by
  unfold GroupBy.runs GroupBy.rest
  rw [h]
  exact exists_splitBy_cons g.groupEq x g.seq

theorem head?_front (g : GroupBy α) : g.front.head? = g.nextItem := by
  unfold GroupBy.front
  cases h : g.nextItem with
  | none =>
    rw [runs_of_none h]
    rfl
  | some x =>
    obtain ⟨r, rs, hruns⟩ := runs_of_some h
    rw [hruns]
    rfl

theorem runs_advance_of_ends (h : g.nextItem = some x) (hends : g.ends x = true) :
    g.runs = [x] :: g.advance.runs := by
  unfold GroupBy.ends at hends
  unfold GroupBy.runs GroupBy.rest GroupBy.advance
  rw [h]
  cases hseq : g.seq with
  | nil => rfl
  | cons y seq =>
    rw [hseq] at hends
    exact splitBy_cons_of_apart (by simpa using hends)

theorem runs_advance_of_not_ends (h : g.nextItem = some x) (hends : g.ends x = false) :
    ∃ y r rs, g.advance.nextItem = some y ∧ g.advance.runs = (y :: r) :: rs ∧
      g.runs = (x :: y :: r) :: rs := by
  unfold GroupBy.ends at hends
  unfold GroupBy.runs GroupBy.rest GroupBy.advance
  rw [h]
  cases hseq : g.seq with
  | nil =>
    rw [hseq] at hends
    cases hends
  | cons y seq =>
    rw [hseq] at hends
    obtain ⟨r, rs, hsplit⟩ := exists_splitBy_cons g.groupEq y seq
    exact ⟨y, r, rs, rfl, hsplit, splitBy_cons_of_related (by simpa using hends) hsplit⟩

theorem splitBy_skipRun (groupEq : α → α → Bool) (x : α) (seq : List α) :
    GroupBy.runs ⟨none, (skipRun groupEq x seq).1, groupEq, (skipRun groupEq x seq).2⟩ =
      ((x :: seq).splitBy groupEq).tail := by
  induction seq generalizing x with
  | nil => rfl
  | cons y seq ih =>
    cases heq : groupEq x y with
    | true =>
      obtain ⟨r, rs, hsplit⟩ := exists_splitBy_cons groupEq y seq
      rw [splitBy_cons_of_related heq hsplit, skipRun, if_pos heq, ih, hsplit]
      rfl
    | false =>
      rw [splitBy_cons_of_apart heq, skipRun, if_neg (Bool.eq_false_iff.mp heq)]
      rfl

theorem runs_consume (h : g.nextItem.isSome) : g.consume.runs = g.runs.tail := by
  obtain ⟨x, hx⟩ := Option.isSome_iff_exists.mp h
  have hskip := splitBy_skipRun g.groupEq x g.seq
  unfold GroupBy.consume GroupBy.runs GroupBy.rest at *
  rw [hx]
  exact hskip

end Batt.Grouping
