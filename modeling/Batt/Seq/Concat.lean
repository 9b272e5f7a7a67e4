/-
  The operators that put sequences together or take them apart: `boxed`, `chain`, `merge_by`,
  `flatten` and `group_by`.
-/
import Batt.Seq.Lookahead

namespace Batt.Seq

open Nexts

variable {S T O I α β γ ι : Type}

/-! ## boxed -/

/-- The sequence in a box is of one of the types of a family. -/
structure BoxedSeq (ι : Type) (impl : ι → Type) where
  type : ι
  storage : impl type

section Boxed

variable {impl : ι → Type}

instance [∀ i, Nexts (impl i) α] : Nexts (BoxedSeq ι impl) α where
  next s := ((next s.storage).1, { s with storage := (next s.storage).2 })
  bound s := bound s.storage
  bound_next_lt h := bound_next_lt h
  bound_next_le s := bound_next_le s.storage

instance [∀ i, Seq (impl i) α] : Seq (BoxedSeq ι impl) α where
  peek s := ((peek s.storage).1, { s with storage := (peek s.storage).2 })
  clear s := clear s.storage
  bound_peek_le s := bound_peek_le s.storage
  peek_next_lt h := peek_next_lt h
  peek_peek s := by simp only [peek_peek s.storage]

end Boxed

/-! ## chain -/

structure Chain (S T : Type) where
  seq1 : Option S
  seq2 : T
deriving Repr, DecidableEq

def Chain.next [Nexts S α] [Nexts T α] (s : Chain S T) : Option α × Chain S T :=
  match s.seq1 with
  | none => ((Nexts.next s.seq2).1, { s with seq2 := (Nexts.next s.seq2).2 })
  | some t =>
    match (Nexts.next t).1 with
    | some x => (some x, { s with seq1 := some (Nexts.next t).2 })
    | none => ((Nexts.next s.seq2).1, { seq1 := none, seq2 := (Nexts.next s.seq2).2 })

/-- At the end of the first sequence `peek()` does not go on to the second. -/
def Chain.peek [Seq S α] [Seq T α] (s : Chain S T) : Option α × Chain S T :=
  match s.seq1 with
  | none => ((Seq.peek s.seq2).1, { s with seq2 := (Seq.peek s.seq2).2 })
  | some t => ((Seq.peek t).1, { s with seq1 := some (Seq.peek t).2 })

def Chain.bound [Nexts S α] [Nexts T α] (s : Chain S T) : Nat :=
  s.seq1.elim 0 Nexts.bound + Nexts.bound s.seq2

section ChainNext

variable [Nexts S α] [Nexts T α] {t : S} {seq2 : T}

theorem Chain.next_first {x : α} (h : (Nexts.next t).1 = some x) :
    Chain.next ⟨some t, seq2⟩ = (some x, ⟨some (Nexts.next t).2, seq2⟩) := by
  simp only [Chain.next, h]

theorem Chain.next_second (h : AtEnd t) :
    Chain.next ⟨some t, seq2⟩ =
      ((Nexts.next seq2).1, ⟨none, (Nexts.next seq2).2⟩) := by
  rw [AtEnd] at h
  simp only [Chain.next, h]

theorem Chain.bound_next_le (s : Chain S T) : s.next.2.bound ≤ s.bound := by
  match s with
  | ⟨none, seq2⟩ => exact Nat.add_le_add_left (Nexts.bound_next_le seq2) _
  | ⟨some t, seq2⟩ =>
    cases hx : (Nexts.next t).1 with
    | some x =>
      rw [Chain.next_first hx]
      exact Nat.add_le_add_right (Nexts.bound_next_le t) _
    | none =>
      rw [Chain.next_second hx]
      exact Nat.add_le_add (Nat.zero_le _) (Nexts.bound_next_le seq2)

theorem Chain.bound_next_lt {s : Chain S T} (h : s.next.1.isSome) : s.next.2.bound < s.bound := by
  match s with
  | ⟨none, seq2⟩ => exact Nat.add_lt_add_left (Nexts.bound_next_lt h) _
  | ⟨some t, seq2⟩ =>
    cases hx : (Nexts.next t).1 with
    | some x =>
      rw [Chain.next_first hx]
      exact Nat.add_lt_add_right (Nexts.bound_next_lt (by rw [hx]; rfl)) _
    | none =>
      rw [Chain.next_second hx] at h ⊢
      exact Nat.add_lt_add_of_le_of_lt (Nat.zero_le _) (Nexts.bound_next_lt h)

end ChainNext

instance [Nexts S α] [Nexts T α] : Nexts (Chain S T) α where
  next := Chain.next
  bound := Chain.bound
  bound_next_lt := Chain.bound_next_lt
  bound_next_le := Chain.bound_next_le

theorem Chain.peek_next_lt [Seq S α] [Seq T α] {s : Chain S T} (h : s.peek.1.isSome) :
    s.peek.2.next.2.bound < s.bound := by
  match s with
  | ⟨none, seq2⟩ => exact Nat.add_lt_add_left (Seq.peek_next_lt h) _
  | ⟨some t, seq2⟩ =>
    have hlt : Nexts.bound (Nexts.next (Seq.peek t).2).2 < Nexts.bound t := Seq.peek_next_lt h
    simp only [Chain.peek]
    cases hx : (Nexts.next (Seq.peek t).2).1 with
    | some x =>
      rw [Chain.next_first hx]
      exact Nat.add_lt_add_right hlt _
    | none =>
      rw [Chain.next_second hx]
      exact Nat.add_lt_add_of_lt_of_le (Nat.zero_lt_of_lt hlt) (Nexts.bound_next_le seq2)

/-- What a `peek()` of a chain needs, by the first sequence it holds. -/
def Chain.Clear [Seq S α] [Seq T α] (s : Chain S T) : Prop :=
  match s.seq1 with
  | none => clear s.seq2
  | some t => clear t ∧ (AtEnd t → AtEnd s.seq2)

instance [Seq S α] [Seq T α] : Seq (Chain S T) α where
  peek := Chain.peek
  clear := Chain.Clear
  bound_peek_le s := by
    match s with
    | ⟨none, seq2⟩ => exact Nat.add_le_add_left (bound_peek_le seq2) _
    | ⟨some t, seq2⟩ => exact Nat.add_le_add_right (bound_peek_le t) _
  peek_next_lt := Chain.peek_next_lt
  peek_peek s := by
    match s with
    | ⟨none, seq2⟩ => simp only [Chain.peek, peek_peek seq2]
    | ⟨some t, seq2⟩ => simp only [Chain.peek, peek_peek t]

/-! ## merge_by -/

/-- `ofLeft` and `ofRight` are `ToItem`: the items of two sequences of one type are taken as they
    are, else they go into a variant. -/
structure MergeBy (S T α β γ : Type) where
  left : S
  right : T
  compare : β → α → Bool
  ofLeft : α → γ
  ofRight : β → γ

/-- The side whose item comes first. -/
inductive MergeSide where
  | left
  | right
deriving DecidableEq, Repr

def mergeSide (compare : β → α → Bool) : Option α → Option β → Option MergeSide
  | some l, some r => if compare r l then some .right else some .left
  | some _, none => some .left
  | none, some _ => some .right
  | none, none => none

theorem isSome_of_mergeSide_left {compare : β → α → Bool} {l : Option α} {r : Option β}
    (h : mergeSide compare l r = some .left) : l.isSome := by
  match l, r with
  | some _, _ => rfl
  | none, some _ => cases h
  | none, none => cases h

theorem isSome_of_mergeSide_right {compare : β → α → Bool} {l : Option α} {r : Option β}
    (h : mergeSide compare l r = some .right) : r.isSome := by
  match l, r with
  | _, some _ => rfl
  | some _, none => cases h
  | none, none => cases h

section Merge

variable [Seq S α] [Seq T β] {s : MergeBy S T α β γ}

/-- The side that `impl` goes to. -/
def MergeBy.side (s : MergeBy S T α β γ) : Option MergeSide :=
  mergeSide s.compare (Seq.peek s.left).1 (Seq.peek s.right).1

def MergeBy.peek (s : MergeBy S T α β γ) : Option γ × MergeBy S T α β γ :=
  match s.side with
  | some .left =>
    ((Seq.peek s.left).1.map s.ofLeft,
      { s with left := (Seq.peek s.left).2, right := (Seq.peek s.right).2 })
  | some .right =>
    ((Seq.peek s.right).1.map s.ofRight,
      { s with left := (Seq.peek s.left).2, right := (Seq.peek s.right).2 })
  | none => (none, { s with left := (Seq.peek s.left).2, right := (Seq.peek s.right).2 })

/-- `next()` peeks at both sides and consumes from the one it has chosen. -/
def MergeBy.next (s : MergeBy S T α β γ) : Option γ × MergeBy S T α β γ :=
  match s.side with
  | some .left =>
    ((Nexts.next (Seq.peek s.left).2).1.map s.ofLeft,
      { s with left := (Nexts.next (Seq.peek s.left).2).2, right := (Seq.peek s.right).2 })
  | some .right =>
    ((Nexts.next (Seq.peek s.right).2).1.map s.ofRight,
      { s with left := (Seq.peek s.left).2, right := (Nexts.next (Seq.peek s.right).2).2 })
  | none => (none, { s with left := (Seq.peek s.left).2, right := (Seq.peek s.right).2 })

def MergeBy.bound (s : MergeBy S T α β γ) : Nat := Nexts.bound s.left + Nexts.bound s.right

theorem MergeBy.peek_none (h : s.side = none) : s.peek =
    (none, { s with left := (Seq.peek s.left).2, right := (Seq.peek s.right).2 }) := by
  simp only [MergeBy.peek, h]

theorem MergeBy.next_none (h : s.side = none) : s.next =
    (none, { s with left := (Seq.peek s.left).2, right := (Seq.peek s.right).2 }) := by
  simp only [MergeBy.next, h]

theorem MergeBy.peek_state (s : MergeBy S T α β γ) :
    s.peek.2 = { s with left := (Seq.peek s.left).2, right := (Seq.peek s.right).2 } := by
  delta MergeBy.peek
  split <;> rfl

theorem MergeBy.side_peek (s : MergeBy S T α β γ) : s.peek.2.side = s.side := by
  rw [MergeBy.peek_state]
  simp only [MergeBy.side, peek_peek]

theorem MergeBy.peek_peek (s : MergeBy S T α β γ) : s.peek.2.peek = s.peek := by
  have hside := s.side_peek
  rw [MergeBy.peek_state] at hside ⊢
  simp only [MergeBy.peek, hside, Seq.peek_peek]

/-- Whatever the peeks show, `next()` does the same after them. -/
theorem MergeBy.next_peek (s : MergeBy S T α β γ) : s.peek.2.next = s.next := by
  have hside := s.side_peek
  rw [MergeBy.peek_state] at hside ⊢
  simp only [MergeBy.next, hside, Seq.peek_peek]

theorem MergeBy.bound_next_lt (h : s.side.isSome) :
    s.next.2.bound < s.bound := by
  delta MergeBy.next MergeBy.bound
  match hside : s.side with
  | some .left =>
    exact Nat.add_lt_add_of_lt_of_le (peek_next_lt (isSome_of_mergeSide_left hside))
      (bound_peek_le s.right)
  | some .right =>
    exact Nat.add_lt_add_of_le_of_lt (bound_peek_le s.left)
      (peek_next_lt (isSome_of_mergeSide_right hside))
  | none =>
    rw [hside] at h
    cases h

theorem MergeBy.bound_peek_le (s : MergeBy S T α β γ) : s.peek.2.bound ≤ s.bound := by
  rw [MergeBy.peek_state]
  exact Nat.add_le_add (Seq.bound_peek_le s.left) (Seq.bound_peek_le s.right)

theorem MergeBy.bound_next_le (s : MergeBy S T α β γ) : s.next.2.bound ≤ s.bound := by
  cases hside : s.side with
  | some side => exact Nat.le_of_lt (MergeBy.bound_next_lt (by rw [hside]; rfl))
  | none =>
    have hle := s.bound_peek_le
    rw [MergeBy.peek_state] at hle
    rwa [MergeBy.next_none hside]

theorem MergeBy.side_of_peek (h : s.peek.1.isSome) :
    s.side.isSome := by
  cases hside : s.side with
  | some side => rfl
  | none =>
    rw [MergeBy.peek_none hside] at h
    cases h

theorem MergeBy.side_of_next (h : s.next.1.isSome) :
    s.side.isSome := by
  cases hside : s.side with
  | some side => rfl
  | none =>
    rw [MergeBy.next_none hside] at h
    cases h

instance : Seq (MergeBy S T α β γ) γ where
  next := MergeBy.next
  peek := MergeBy.peek
  clear s := (s.side = some .left → clear s.left) ∧ (s.side = some .right → clear s.right)
  bound := MergeBy.bound
  bound_next_lt h := MergeBy.bound_next_lt (MergeBy.side_of_next h)
  bound_next_le := MergeBy.bound_next_le
  bound_peek_le := MergeBy.bound_peek_le
  peek_next_lt {s} h := by
    rw [MergeBy.next_peek]
    exact MergeBy.bound_next_lt (MergeBy.side_of_peek h)
  peek_peek := MergeBy.peek_peek

end Merge

/-! ## flatten -/

/-- The constructor takes the first inner sequence (`Flatten.start`). -/
structure Flatten (O I : Type) where
  outer : O
  inner : Option I
deriving Repr, DecidableEq

def Flatten.start [Nexts O I] (outer : O) : Flatten O I :=
  { outer := (next outer).2, inner := (next outer).1 }

/-- The loop of `impl`. What it does to an inner sequence, `next()` or `peek()`, is `visit`. -/
def Flatten.loop [Nexts O I] (visit : I → Option β × I) (outer : O) (inner : I) :
    Option β × Flatten O I :=
  match (visit inner).1 with
  | some x => (some x, { outer := outer, inner := some (visit inner).2 })
  | none =>
    match _h : next outer with
    | (none, outer') => (none, { outer := outer', inner := none })
    | (some inner', outer') => loop visit outer' inner'
termination_by bound outer
decreasing_by
  have hlt := bound_next_lt (s := outer) (by rw [_h]; rfl)
  rw [_h] at hlt
  exact hlt

def Flatten.impl [Nexts O I] (visit : I → Option β × I) (s : Flatten O I) :
    Option β × Flatten O I :=
  match s.inner with
  | none => (none, s)
  | some inner => loop visit s.outer inner

section FlattenLoop

variable [Nexts O I] {visit : I → Option β × I} {outer : O} {inner inner' : I} {x : β}

theorem Flatten.loop_item (h : (visit inner).1 = some x) :
    loop visit outer inner = (some x, ⟨outer, some (visit inner).2⟩) := by
  rw [loop, h]

theorem Flatten.loop_last (h : (visit inner).1 = none) (hend : AtEnd outer) :
    loop visit outer inner = (none, ⟨(next outer).2, none⟩) := by
  rw [loop, h]
  simp only
  split
  · next heq => rw [heq]
  · next heq =>
    rw [AtEnd, heq] at hend
    cases hend

theorem Flatten.loop_step (h : (visit inner).1 = none) (hnext : (next outer).1 = some inner') :
    loop visit outer inner = loop visit (next outer).2 inner' := by
  rw [loop, h]
  simp only
  split
  · next heq =>
    rw [heq] at hnext
    cases hnext
  · next heq =>
    rw [heq] at hnext ⊢
    cases hnext
    rfl

end FlattenLoop

/-- A bound on the items of the inner sequences to come. -/
def Flatten.rest [Nexts O I] [Nexts I β] (outer : O) : Nat := ((items outer).map bound).sum

def Flatten.bound [Nexts O I] [Nexts I β] (s : Flatten O I) : Nat :=
  s.inner.elim 0 fun inner => Nexts.bound inner + rest s.outer

theorem Flatten.rest_of_next [Nexts O I] [Nexts I β] {outer outer' : O} {inner : I}
    (h : Nexts.next outer = (some inner, outer')) :
    rest outer = Nexts.bound inner + rest outer' := by
  rw [rest, items_of_some (by rw [h]), List.map_cons, List.sum_cons, h, rest]

theorem Flatten.loop_bound_le [Nexts O I] [Nexts I β] {visit : I → Option β × I}
    (hvisit : ∀ i, Nexts.bound (visit i).2 ≤ Nexts.bound i) (outer : O) (inner : I) :
    (loop visit outer inner).2.bound ≤ Nexts.bound (visit inner).2 + rest outer := by
  fun_induction Flatten.loop visit outer inner with
  | case1 outer inner x hx => exact Nat.le_refl _
  | case2 outer inner hx outer' heq => exact Nat.zero_le _
  | case3 outer inner hx inner' outer' heq ih =>
    have hle := hvisit inner'
    have hrest := rest_of_next heq
    omega

theorem Flatten.next_loop_lt [Nexts O I] [Nexts I β] {outer : O} {inner : I}
    (h : (loop Nexts.next outer inner).1.isSome) :
    (loop Nexts.next outer inner).2.bound < Nexts.bound inner + rest outer := by
  fun_induction Flatten.loop Nexts.next outer inner with
  | case1 outer inner x hx => exact Nat.add_lt_add_right (bound_next_lt (by rw [hx]; rfl)) _
  | case2 outer inner hx outer' heq => cases h
  | case3 outer inner hx inner' outer' heq ih =>
    have hlt := ih h
    have hrest := rest_of_next heq
    omega

/-- After a `peek()` that shows an item, `next()` takes from the inner sequence it was found
    in or goes on from there. -/
theorem Flatten.peek_loop_next_lt [Nexts O I] [Seq I β] {outer : O} {inner : I}
    (h : (loop Seq.peek outer inner).1.isSome) :
    (impl Nexts.next (loop Seq.peek outer inner).2).2.bound < Nexts.bound inner + rest outer := by
  fun_induction Flatten.loop Seq.peek outer inner with
  | case1 outer inner x hx =>
    have hle := loop_bound_le bound_next_le outer (Seq.peek inner).2
    have hlt := peek_next_lt (s := inner) (by rw [hx]; rfl)
    exact Nat.lt_of_le_of_lt hle (Nat.add_lt_add_right hlt _)
  | case2 outer inner hx outer' heq => cases h
  | case3 outer inner hx inner' outer' heq ih =>
    have hlt := ih h
    have hrest := rest_of_next heq
    omega

theorem Flatten.peek_loop_peek [Nexts O I] [Seq I β] (outer : O) (inner : I) :
    impl Seq.peek (loop Seq.peek outer inner).2 = loop Seq.peek outer inner := by
  fun_induction Flatten.loop Seq.peek outer inner with
  | case1 outer inner x hx =>
    have hpeek := peek_peek inner
    have hitem : (Seq.peek (Seq.peek inner).2).1 = some x := by rw [hpeek, hx]
    simp only [impl, loop_item hitem, hpeek]
  | case2 outer inner hx outer' heq => rfl
  | case3 outer inner hx inner' outer' heq ih => exact ih

/-- Every inner sequence that `peek()` goes through is clear. -/
inductive Flatten.Clear [Nexts O I] [Seq I β] : O → I → Prop
  | item {outer : O} {inner : I} : clear inner → ¬AtEnd inner → Clear outer inner
  | last {outer : O} {inner : I} : clear inner → AtEnd inner → AtEnd outer → Clear outer inner
  | step {outer : O} {inner inner' : I} : clear inner → AtEnd inner →
      (next outer).1 = some inner' → Clear (next outer).2 inner' → Clear outer inner

instance [Nexts O I] [Nexts I β] : Nexts (Flatten O I) β where
  next := Flatten.impl next
  bound := Flatten.bound
  bound_next_lt {s} h := by
    match s with
    | ⟨outer, none⟩ => cases h
    | ⟨outer, some inner⟩ => exact Flatten.next_loop_lt h
  bound_next_le s := by
    match s with
    | ⟨outer, none⟩ => exact Nat.le_refl _
    | ⟨outer, some inner⟩ =>
      have hle := Flatten.loop_bound_le bound_next_le outer inner
      exact Nat.le_trans hle (Nat.add_le_add_right (bound_next_le inner) _)

instance [Nexts O I] [Seq I β] : Seq (Flatten O I) β where
  peek := Flatten.impl peek
  clear s := ∀ inner, s.inner = some inner → Flatten.Clear s.outer inner
  bound_peek_le s := by
    match s with
    | ⟨outer, none⟩ => exact Nat.le_refl _
    | ⟨outer, some inner⟩ =>
      have hle := Flatten.loop_bound_le bound_peek_le outer inner
      exact Nat.le_trans hle (Nat.add_le_add_right (bound_peek_le inner) _)
  peek_next_lt {s} h := by
    match s with
    | ⟨outer, none⟩ => cases h
    | ⟨outer, some inner⟩ => exact Flatten.peek_loop_next_lt h
  peek_peek s := by
    match s with
    | ⟨outer, none⟩ => rfl
    | ⟨outer, some inner⟩ => exact Flatten.peek_loop_peek outer inner

/-! ## group_by -/

/-- `opened`: the last group returned is attached (`sub_group_ != nullptr`), so that `nextItem`
    is the first item of that group. -/
structure GroupBy (S α : Type) where
  seq : S
  groupEq : α → α → Bool
  nextItem : Option α
  opened : Bool

def GroupBy.start [Nexts S α] (seq : S) (groupEq : α → α → Bool) : GroupBy S α :=
  { seq := (next seq).2, groupEq := groupEq, nextItem := (next seq).1, opened := false }

/-- The items of the group that starts with `x`, the item after it, and the sequence then. -/
def GroupBy.run [Nexts S α] (groupEq : α → α → Bool) (x : α) (seq : S) :
    List α × Option α × S :=
  match _h : next seq with
  | (none, seq') => ([x], none, seq')
  | (some y, seq') =>
    if groupEq x y then (x :: (run groupEq y seq').1, (run groupEq y seq').2)
    else ([x], some y, seq')
termination_by bound seq
decreasing_by
  all_goals
    have hlt := bound_next_lt (s := seq) (by rw [_h]; rfl)
    rw [_h] at hlt
    exact hlt

/-- The group that is attached is consumed. -/
def GroupBy.settle [Nexts S α] (s : GroupBy S α) : GroupBy S α :=
  match s.opened, s.nextItem with
  | true, some x =>
    { s with
      seq := (run s.groupEq x s.seq).2.2
      nextItem := (run s.groupEq x s.seq).2.1
      opened := false }
  | _, _ => { s with opened := false }

/-- The group that starts with `nextItem`. -/
def GroupBy.group [Nexts S α] (s : GroupBy S α) : Option (SubRangeSeq α) :=
  s.nextItem.map fun x => { subRange := (run s.groupEq x s.seq).1 }

def GroupBy.next [Nexts S α] (s : GroupBy S α) : Option (SubRangeSeq α) × GroupBy S α :=
  (s.settle.group, { s.settle with opened := s.settle.nextItem.isSome })

/-- Number of groups to come. -/
def GroupBy.bound [Nexts S α] (s : GroupBy S α) : Nat :=
  match s.opened, s.nextItem with
  | false, some _ => Nexts.bound s.seq + 1
  | _, _ => Nexts.bound s.seq

theorem GroupBy.run_bound [Nexts S α] (groupEq : α → α → Bool) (x : α) (seq : S) :
    Nexts.bound (run groupEq x seq).2.2 ≤ Nexts.bound seq ∧
      ((run groupEq x seq).2.1.isSome →
        Nexts.bound (run groupEq x seq).2.2 < Nexts.bound seq) := by
  fun_induction GroupBy.run groupEq x seq with
  | case1 x seq seq' heq =>
    have hle := bound_next_le seq
    rw [heq] at hle
    exact ⟨hle, nofun⟩
  | case2 x seq y seq' heq hsame ih =>
    have hlt := bound_next_lt (s := seq) (by rw [heq]; rfl)
    rw [heq] at hlt
    exact ⟨Nat.le_trans ih.1 (Nat.le_of_lt hlt), fun _ => Nat.lt_of_le_of_lt ih.1 hlt⟩
  | case3 x seq y seq' heq hother =>
    have hlt := bound_next_lt (s := seq) (by rw [heq]; rfl)
    rw [heq] at hlt
    exact ⟨Nat.le_of_lt hlt, fun _ => hlt⟩

theorem GroupBy.settle_bound [Nexts S α] (s : GroupBy S α) : s.settle.bound ≤ s.bound := by
  match s with
  | ⟨seq, groupEq, none, opened⟩ => cases opened <;> exact Nat.le_refl _
  | ⟨seq, groupEq, some x, false⟩ => exact Nat.le_refl _
  | ⟨seq, groupEq, some x, true⟩ =>
    have hrun := run_bound groupEq x seq
    cases hy : (run groupEq x seq).2.1 with
    | none =>
      simp only [settle, bound, hy]
      exact hrun.1
    | some y =>
      simp only [settle, bound, hy]
      exact hrun.2 (by rw [hy]; rfl)

theorem GroupBy.settle_opened [Nexts S α] (s : GroupBy S α) : s.settle.opened = false := by
  unfold GroupBy.settle
  split <;> rfl

theorem GroupBy.bound_next_le [Nexts S α] (s : GroupBy S α) : s.next.2.bound ≤ s.bound := by
  refine Nat.le_trans ?_ s.settle_bound
  have hopened := s.settle_opened
  cases hx : s.settle.nextItem with
  | none =>
    simp only [next, bound, hx, hopened]
    exact Nat.le_refl _
  | some x =>
    simp only [next, bound, hx, hopened]
    exact Nat.le_succ _

theorem GroupBy.bound_next_lt [Nexts S α] {s : GroupBy S α} (h : s.settle.group.isSome) :
    s.next.2.bound < s.bound := by
  refine Nat.lt_of_lt_of_le ?_ s.settle_bound
  have hopened := s.settle_opened
  cases hx : s.settle.nextItem with
  | none =>
    rw [group, hx] at h
    cases h
  | some x =>
    simp only [next, bound, hx, hopened]
    exact Nat.lt_succ_self _

instance [Nexts S α] : Seq (GroupBy S α) (SubRangeSeq α) where
  next := GroupBy.next
  -- on a copy, in which the group that is attached has been consumed
  peek s := (s.settle.group, s)
  clear _ := True
  bound := GroupBy.bound
  bound_next_lt := GroupBy.bound_next_lt
  bound_next_le := GroupBy.bound_next_le
  bound_peek_le _ := Nat.le_refl _
  peek_next_lt := GroupBy.bound_next_lt
  peek_peek _ := rfl

end Batt.Seq
