/-
  The operators over one sequence that skip items, keep one or stop early: `filter`,
  `filter_map`, `map_adjacent`, `cache_next`, `fuse` and `status_ok`.
-/
import Batt.Seq.Model

namespace Batt.Seq

open Nexts

variable {S T I α β γ ι : Type}

/-! ## filter -/

structure Filter (S α : Type) where
  seq : S
  predicate : α → Bool

/-- The loop of `Filter::next()`. -/
def Filter.nextLoop [Nexts S α] (predicate : α → Bool) (seq : S) : Option α × S :=
  match _h : next seq with
  | (none, seq') => (none, seq')
  | (some x, seq') => if predicate x then (some x, seq') else nextLoop predicate seq'
termination_by bound seq
decreasing_by
  have hlt := bound_next_lt (s := seq) (by rw [_h]; rfl)
  rw [_h] at hlt
  exact hlt

/-- The loop of `Filter::peek()`: an item that does not pass is consumed. -/
def Filter.peekLoop [Seq S α] (predicate : α → Bool) (seq : S) : Option α × S :=
  match _h : peek seq with
  | (none, seq') => (none, seq')
  | (some x, seq') =>
    if predicate x then (some x, seq') else peekLoop predicate (next seq').2
termination_by bound seq
decreasing_by
  have hlt := peek_next_lt (s := seq) (by rw [_h]; rfl)
  rw [_h] at hlt
  exact hlt

section FilterLoops

variable {predicate : α → Bool} {x : α} {seq : S}

theorem Filter.nextLoop_none [Nexts S α] (h : (next seq).1 = none) :
    nextLoop predicate seq = (none, (next seq).2) := by
  rw [nextLoop]
  split
  · next heq => rw [heq]
  · next heq =>
    rw [heq] at h
    cases h

theorem Filter.nextLoop_some [Nexts S α] (h : (next seq).1 = some x) :
    nextLoop predicate seq =
      if predicate x then (some x, (next seq).2) else nextLoop predicate (next seq).2 := by
  rw [nextLoop]
  split
  · next heq =>
    rw [heq] at h
    cases h
  · next heq =>
    rw [heq] at h ⊢
    cases h
    rfl

theorem Filter.peekLoop_none [Seq S α] (h : (peek seq).1 = none) :
    peekLoop predicate seq = (none, (peek seq).2) := by
  rw [peekLoop]
  split
  · next heq => rw [heq]
  · next heq =>
    rw [heq] at h
    cases h

theorem Filter.peekLoop_some [Seq S α] (h : (peek seq).1 = some x) :
    peekLoop predicate seq =
      if predicate x then (some x, (peek seq).2)
      else peekLoop predicate (next (peek seq).2).2 := by
  rw [peekLoop]
  split
  · next heq =>
    rw [heq] at h
    cases h
  · next heq =>
    rw [heq] at h ⊢
    cases h
    rfl

theorem Filter.nextLoop_bound [Nexts S α] (predicate : α → Bool) (seq : S) :
    bound (nextLoop predicate seq).2 ≤ bound seq ∧
      ((nextLoop predicate seq).1.isSome → bound (nextLoop predicate seq).2 < bound seq) := by
  fun_induction Filter.nextLoop predicate seq with
  | case1 seq seq' heq =>
    have hle := bound_next_le seq
    rw [heq] at hle
    exact ⟨hle, nofun⟩
  | case2 seq x seq' heq hpass =>
    have hlt := bound_next_lt (s := seq) (by rw [heq]; rfl)
    rw [heq] at hlt
    exact ⟨Nat.le_of_lt hlt, fun _ => hlt⟩
  | case3 seq x seq' heq hdrop ih =>
    have hlt := bound_next_lt (s := seq) (by rw [heq]; rfl)
    rw [heq] at hlt
    exact ⟨Nat.le_trans ih.1 (Nat.le_of_lt hlt), fun _ => Nat.lt_of_le_of_lt ih.1 hlt⟩

theorem Filter.peekLoop_bound [Seq S α] (predicate : α → Bool) (seq : S) :
    bound (peekLoop predicate seq).2 ≤ bound seq := by
  fun_induction Filter.peekLoop predicate seq with
  | case1 seq seq' heq =>
    have hle := bound_peek_le seq
    rwa [heq] at hle
  | case2 seq x seq' heq hpass =>
    have hle := bound_peek_le seq
    rwa [heq] at hle
  | case3 seq x seq' heq hdrop ih =>
    have hlt := peek_next_lt (s := seq) (by rw [heq]; rfl)
    rw [heq] at hlt
    exact Nat.le_trans ih (Nat.le_of_lt hlt)

/-- After the loop of `peek()` the source shows the item it stopped at. -/
theorem Filter.peek_peekLoop [Seq S α] (predicate : α → Bool) (seq : S) :
    peek (peekLoop predicate seq).2 = peekLoop predicate seq := by
  fun_induction Filter.peekLoop predicate seq with
  | case1 seq seq' heq =>
    have hpeek := peek_peek seq
    rwa [heq] at hpeek
  | case2 seq x seq' heq hpass =>
    have hpeek := peek_peek seq
    rwa [heq] at hpeek
  | case3 seq x seq' heq hdrop ih => exact ih

theorem Filter.peekLoop_pass [Seq S α] (h : (peekLoop predicate seq).1 = some x) :
    predicate x = true := by
  fun_induction Filter.peekLoop predicate seq with
  | case1 seq seq' heq => cases h
  | case2 seq y seq' heq hpass =>
    cases h
    exact hpass
  | case3 seq y seq' heq hdrop ih => exact ih h

/-- The loop does nothing where it has stopped. -/
theorem Filter.peekLoop_peekLoop [Seq S α] (predicate : α → Bool) (seq : S) :
    peekLoop predicate (peekLoop predicate seq).2 = peekLoop predicate seq := by
  have hpeek := peek_peekLoop predicate seq
  cases hx : (peekLoop predicate seq).1 with
  | none => rw [peekLoop_none (by rw [hpeek, hx]), hpeek, ← hx]
  | some x => rw [peekLoop_some (by rw [hpeek, hx]), if_pos (peekLoop_pass hx), hpeek, ← hx]

theorem Filter.nextLoop_peekLoop_lt [Seq S α] (h : (peekLoop predicate seq).1.isSome) :
    bound (nextLoop predicate (peekLoop predicate seq).2).2 < bound seq := by
  fun_induction Filter.peekLoop predicate seq with
  | case1 seq seq' heq => cases h
  | case2 seq y seq' heq hpass =>
    have hlt := peek_next_lt (s := seq) (by rw [heq]; rfl)
    rw [heq] at hlt
    cases hy : (next seq').1 with
    | none =>
      rw [nextLoop_none hy]
      exact hlt
    | some z =>
      rw [nextLoop_some hy]
      split
      · exact hlt
      · exact Nat.lt_of_le_of_lt (nextLoop_bound predicate _).1 hlt
  | case3 seq y seq' heq hdrop ih =>
    have hlt := peek_next_lt (s := seq) (by rw [heq]; rfl)
    rw [heq] at hlt
    exact Nat.lt_trans (ih h) hlt

end FilterLoops

/-- Every sequence the loop of `peek()` goes through is clear. -/
inductive Filter.Clear [Seq S α] (predicate : α → Bool) : S → Prop
  | stop {seq : S} : clear seq → (∀ x, (next seq).1 = some x → predicate x = true) →
      Clear predicate seq
  | drop {seq : S} {x : α} : clear seq → (next seq).1 = some x → predicate x = false →
      Clear predicate (next seq).2 → Clear predicate seq

instance [Nexts S α] : Nexts (Filter S α) α where
  next s :=
    ((Filter.nextLoop s.predicate s.seq).1,
      { s with seq := (Filter.nextLoop s.predicate s.seq).2 })
  bound s := bound s.seq
  bound_next_lt {s} h := (Filter.nextLoop_bound s.predicate s.seq).2 h
  bound_next_le s := (Filter.nextLoop_bound s.predicate s.seq).1

instance [Seq S α] : Seq (Filter S α) α where
  peek s :=
    ((Filter.peekLoop s.predicate s.seq).1,
      { s with seq := (Filter.peekLoop s.predicate s.seq).2 })
  clear s := Filter.Clear s.predicate s.seq
  bound_peek_le s := Filter.peekLoop_bound s.predicate s.seq
  peek_next_lt h := Filter.nextLoop_peekLoop_lt h
  peek_peek s := by simp only [Filter.peekLoop_peekLoop]

/-! ## filter_map -/

/-- The function is mapped over the source, and what is `None` is filtered out. -/
@[ext]
structure FilterMap (S α β : Type) where
  impl : Filter (Map S α (Option β)) (Option β)
  isNotFalse : impl.predicate = Option.isSome

-- what has passed the filter is dereferenced: `join`
instance [Nexts S α] : Nexts (FilterMap S α β) β where
  next s := ((next s.impl).1.join, { impl := (next s.impl).2, isNotFalse := s.isNotFalse })
  bound s := bound s.impl
  bound_next_lt h := bound_next_lt (Option.isSome_of_any (Option.isSome_join ▸ h))
  bound_next_le s := bound_next_le s.impl

instance [Seq S α] : Seq (FilterMap S α β) β where
  peek s := ((peek s.impl).1.join, { impl := (peek s.impl).2, isNotFalse := s.isNotFalse })
  clear s := clear s.impl
  bound_peek_le s := bound_peek_le s.impl
  peek_next_lt h := peek_next_lt (Option.isSome_of_any (Option.isSome_join ▸ h))
  peek_peek s := by simp only [peek_peek s.impl]

/-! ## map_adjacent -/

/-- The constructor takes the first item (`MapAdjacent.start`). -/
structure MapAdjacent (S α β : Type) where
  seq : S
  fn : α → α → β
  item : Option α

def MapAdjacent.start [Nexts S α] (seq : S) (fn : α → α → β) : MapAdjacent S α β :=
  { seq := (next seq).2, fn := fn, item := (next seq).1 }

def MapAdjacent.next [Nexts S α] (s : MapAdjacent S α β) : Option β × MapAdjacent S α β :=
  match s.item with
  | none => (none, s)
  | some first =>
    ((Nexts.next s.seq).1.map (s.fn first),
      { s with seq := (Nexts.next s.seq).2, item := (Nexts.next s.seq).1 })

/-- `peek()` where the item is a bool: the Optional<Optional<bool>> it returns is turned into a
    bool, which is the value of the Optional<bool> that results. -/
def MapAdjacent.peekBool [Seq S α] (s : MapAdjacent S α Bool) :
    Option Bool × MapAdjacent S α Bool :=
  match s.item with
  | none => (some false, s)
  | some _ => (some true, { s with seq := (peek s.seq).2 })

instance [Nexts S α] : Nexts (MapAdjacent S α β) β where
  next := MapAdjacent.next
  bound s := bound s.seq
  bound_next_lt {s} h := by
    unfold MapAdjacent.next at h ⊢
    split at h
    · cases h
    · exact bound_next_lt (by rwa [Option.isSome_map] at h)
  bound_next_le s := by
    unfold MapAdjacent.next
    split
    · exact Nat.le_refl _
    · exact bound_next_le s.seq

/-! ## cache_next -/

structure CacheNext (S α : Type) where
  seq : S
  cached : Option (Option α)
deriving Repr, DecidableEq

def CacheNext.next [Nexts S α] (s : CacheNext S α) : Option α × CacheNext S α :=
  match s.cached with
  | some item => (item, { s with cached := none })
  | none => ((Nexts.next s.seq).1, { seq := (Nexts.next s.seq).2, cached := none })

def CacheNext.peek [Nexts S α] (s : CacheNext S α) : Option α × CacheNext S α :=
  match s.cached with
  | some item => (item, s)
  | none =>
    ((Nexts.next s.seq).1, { seq := (Nexts.next s.seq).2, cached := some (Nexts.next s.seq).1 })

/-- A cached item is still to come. -/
def CacheNext.bound [Nexts S α] (s : CacheNext S α) : Nat :=
  Nexts.bound s.seq + s.cached.join.elim 0 fun _ => 1

theorem CacheNext.bound_next [Nexts S α] (s : CacheNext S α) :
    s.next.2.bound ≤ s.bound ∧ (s.next.1.isSome → s.next.2.bound < s.bound) := by
  unfold CacheNext.next CacheNext.bound
  match s.cached with
  | some (some x) => exact ⟨Nat.le_succ _, fun _ => Nat.lt_succ_self _⟩
  | some none => exact ⟨Nat.le_refl _, nofun⟩
  | none => exact ⟨bound_next_le s.seq, bound_next_lt⟩

theorem CacheNext.bound_peek_le [Nexts S α] (s : CacheNext S α) : s.peek.2.bound ≤ s.bound := by
  match s with
  | ⟨seq, some item⟩ => exact Nat.le_refl _
  | ⟨seq, none⟩ =>
    cases hx : (Nexts.next seq).1 with
    | none =>
      simp only [CacheNext.peek, CacheNext.bound, hx, Option.join_some, Option.join_none]
      exact bound_next_le seq
    | some x =>
      simp only [CacheNext.peek, CacheNext.bound, hx, Option.join_some, Option.join_none]
      exact bound_next_lt (by rw [hx]; rfl)

theorem CacheNext.next_peek [Nexts S α] (s : CacheNext S α) : s.peek.2.next = s.next := by
  match s with
  | ⟨seq, some item⟩ => rfl
  | ⟨seq, none⟩ => rfl

theorem CacheNext.peek_value [Nexts S α] (s : CacheNext S α) : s.peek.1 = s.next.1 := by
  match s with
  | ⟨seq, some item⟩ => rfl
  | ⟨seq, none⟩ => rfl

instance [Nexts S α] : Seq (CacheNext S α) α where
  next := CacheNext.next
  peek := CacheNext.peek
  clear _ := True
  bound := CacheNext.bound
  bound_next_lt {s} h := s.bound_next.2 h
  bound_next_le s := s.bound_next.1
  bound_peek_le := CacheNext.bound_peek_le
  peek_next_lt {s} h := by
    rw [CacheNext.next_peek]
    exact s.bound_next.2 (by rwa [← CacheNext.peek_value])
  peek_peek s := by
    match s with
    | ⟨seq, some item⟩ => rfl
    | ⟨seq, none⟩ => rfl

/-! ## fuse -/

/-- `undef` stands for what `*seq_.peek()` reads if the source has no item. -/
structure Fuse (S α : Type) where
  seq : S
  fused : Bool
  undef : Option α
deriving Repr, DecidableEq

def Fuse.next [Nexts S (Option α)] (s : Fuse S α) : Option α × Fuse S α :=
  if s.fused then (none, s)
  else
    match (Nexts.next s.seq).1 with
    | some (some x) => (some x, { s with seq := (Nexts.next s.seq).2 })
    | _ => (none, { s with seq := (Nexts.next s.seq).2, fused := true })

def Fuse.peek [Seq S (Option α)] (s : Fuse S α) : Option α × Fuse S α :=
  if s.fused then (none, s)
  else ((Seq.peek s.seq).1.getD s.undef, { s with seq := (Seq.peek s.seq).2 })

/-- A source that is not fused is asked once more than it has items. -/
def Fuse.bound [Nexts S (Option α)] (s : Fuse S α) : Nat :=
  if s.fused then 0 else Nexts.bound s.seq + 1

section FuseNext

variable {seq : S} {undef : Option α}

theorem Fuse.next_some [Nexts S (Option α)] {x : α} (h : (Nexts.next seq).1 = some (some x)) :
    Fuse.next ⟨seq, false, undef⟩ = (some x, ⟨(Nexts.next seq).2, false, undef⟩) := by
  simp only [Fuse.next, h, Bool.false_eq_true, if_false]

theorem Fuse.next_none [Nexts S (Option α)] (h : (Nexts.next seq).1.join = none) :
    Fuse.next ⟨seq, false, undef⟩ = (none, ⟨(Nexts.next seq).2, true, undef⟩) := by
  rcases Option.join_eq_none_iff.mp h with h | h <;>
    simp only [Fuse.next, h, Bool.false_eq_true, if_false]

theorem Fuse.bound_next_open [Nexts S (Option α)] :
    (Fuse.next ⟨seq, false, undef⟩).2.bound < Nexts.bound seq + 1 := by
  cases hx : (Nexts.next seq).1.join with
  | none =>
    rw [Fuse.next_none hx]
    exact Nat.succ_pos _
  | some x =>
    have hx := Option.join_eq_some_iff.mp hx
    have hlt := bound_next_lt (s := seq) (by rw [hx]; rfl)
    rw [Fuse.next_some hx]
    exact Nat.succ_lt_succ hlt

end FuseNext

instance [Nexts S (Option α)] : Nexts (Fuse S α) α where
  next := Fuse.next
  bound := Fuse.bound
  bound_next_lt {s} h := by
    match s with
    | ⟨seq, true, undef⟩ => cases h
    | ⟨seq, false, undef⟩ => exact Fuse.bound_next_open
  bound_next_le s := by
    match s with
    | ⟨seq, true, undef⟩ => exact Nat.le_refl _
    | ⟨seq, false, undef⟩ => exact Nat.le_of_lt Fuse.bound_next_open

instance [Seq S (Option α)] : Seq (Fuse S α) α where
  peek := Fuse.peek
  clear s := s.fused = false → clear s.seq ∧ ¬AtEnd s.seq
  bound_peek_le s := by
    match s with
    | ⟨seq, true, undef⟩ => exact Nat.le_refl _
    | ⟨seq, false, undef⟩ => exact Nat.succ_le_succ (bound_peek_le seq)
  peek_next_lt {s} h := by
    match s with
    | ⟨seq, true, undef⟩ => cases h
    | ⟨seq, false, undef⟩ =>
      have hle : bound (peek seq).2 + 1 ≤ bound seq + 1 := Nat.succ_le_succ (bound_peek_le seq)
      exact Nat.lt_of_lt_of_le Fuse.bound_next_open hle
  peek_peek s := by
    match s with
    | ⟨seq, true, undef⟩ => rfl
    | ⟨seq, false, undef⟩ =>
      simp only [Fuse.peek, Bool.false_eq_true, if_false, peek_peek seq]

/-! ## status_ok -/

/-- `Status::Update`: the first error is kept. -/
def updateStatus (status newStatus : StatusCode) : StatusCode :=
  if status = .kOk ∨ status = .kUnknown then newStatus else status

theorem updateStatus_updateStatus (status newStatus : StatusCode) :
    updateStatus (updateStatus status newStatus) newStatus = updateStatus status newStatus := by
  by_cases h : status = .kOk ∨ status = .kUnknown
  · simp only [updateStatus, if_pos h, ite_self]
  · simp only [updateStatus, if_neg h]

structure StatusOk (S : Type) where
  seq : S
  status : StatusCode
deriving Repr, DecidableEq

/-- `unwrap_item`: the item, and the status after it. -/
def unwrapItem (status : StatusCode) : Option (StatusOr α) → Option α × StatusCode
  | none => (none, status)
  | some (.error code) => (none, updateStatus status code)
  | some (.ok x) => (some x, status)

theorem unwrapItem_isSome {status : StatusCode} {item : Option (StatusOr α)}
    (h : (unwrapItem status item).1.isSome) : item.isSome := by
  match item with
  | none => cases h
  | some _ => rfl

/-- An item unwrapped once more returns the same, and leaves the status. -/
theorem unwrapItem_unwrapItem (status : StatusCode) (item : Option (StatusOr α)) :
    unwrapItem (unwrapItem status item).2 item = unwrapItem status item := by
  match item with
  | none => rfl
  | some (.ok x) => rfl
  | some (.error code) => exact congrArg (none, ·) (updateStatus_updateStatus status code)

instance [Nexts S (StatusOr α)] : Nexts (StatusOk S) α where
  next s :=
    ((unwrapItem s.status (next s.seq).1).1,
      { seq := (next s.seq).2, status := (unwrapItem s.status (next s.seq).1).2 })
  bound s := bound s.seq
  bound_next_lt h := bound_next_lt (unwrapItem_isSome h)
  bound_next_le s := bound_next_le s.seq

instance [Seq S (StatusOr α)] : Seq (StatusOk S) α where
  peek s :=
    ((unwrapItem s.status (peek s.seq).1).1,
      { seq := (peek s.seq).2, status := (unwrapItem s.status (peek s.seq).1).2 })
  clear s := clear s.seq
  bound_peek_le s := bound_peek_le s.seq
  peek_next_lt h := peek_next_lt (unwrapItem_isSome h)
  peek_peek s := by simp only [peek_peek s.seq, unwrapItem_unwrapItem]

end Batt.Seq
