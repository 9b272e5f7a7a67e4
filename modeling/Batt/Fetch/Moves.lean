/-
  Which programs pair each fetch with one call of `consume`.

  `outstanding` are the calls that have been made and those that the destructors of the
  objects would make now. A world is settled when these are the calls that are due. Two
  statements break this: a move from a gathered chunk of which bytes were backed up makes its
  buffer whole again, and an assignment over a chunk that has not been consumed drops its call
  (`Careful`). Every other statement keeps it (`settled_step_iff`).
-/
import Batt.Lib.Interleave
import Batt.Lib.Program
import Batt.Fetch.Chunk

namespace Batt.Fetch
open Interleave (perm_set flatMap_set)

variable {σ : Type} {leftOver : Bytes → Bytes}

/-! ## Calls that are still to be made -/

/-- What the destructor of an object calls. -/
def owed : Option (BasicScopedChunk σ) → List (Call σ)
  | none => []
  | some c => c.consume.2

theorem owed_of_source {c : BasicScopedChunk σ} {source : Source σ} (h : c.source = some source) :
    owed (some c) = [⟨source, c.size⟩] := by
  simp only [owed, BasicScopedChunk.consume, h]

theorem owed_of_none {c : BasicScopedChunk σ} (h : c.source = none) : owed (some c) = [] := by
  simp only [owed, BasicScopedChunk.consume, h]

theorem owed_consumed (c : BasicScopedChunk σ) : owed (some c.consume.1) = [] := by
  cases h : c.source with
  | none =>
    simp only [BasicScopedChunk.consume, h]
    exact owed_of_none h
  | some source =>
    simp only [BasicScopedChunk.consume, h]
    exact owed_of_none rfl

namespace World

def outstanding (w : World σ) : List (Call σ) := w.calls ++ w.objects.flatMap owed

variable {w w' : World σ} {x y : Nat} {c : BasicScopedChunk σ}

theorem object_eq_some (h : w.object x = some c) : w.objects[x]? = some (some c) := by
  rw [object, Option.join_eq_some_iff] at h
  exact h

theorem outstanding_put {o : Option (BasicScopedChunk σ)} (h : w.objects[x]? = some o) :
    ∃ others, w.outstanding.Perm (owed o ++ others) ∧
      ∀ o', (w.put x o').outstanding.Perm (owed o' ++ others) := by
  obtain ⟨others, hall, hset⟩ := flatMap_set owed h
  refine ⟨w.calls ++ others, ?_, fun o' => ?_⟩
  · exact (hall.append_left w.calls).trans (List.perm_append_comm_assoc _ _ _)
  · exact ((hset o').append_left w.calls).trans (List.perm_append_comm_assoc _ _ _)

theorem outstanding_addObject (w : World σ) (c : BasicScopedChunk σ) :
    (w.addObject c).outstanding = w.outstanding ++ owed (some c) := by
  simp only [outstanding, addObject, List.flatMap_append, List.flatMap_cons, List.flatMap_nil,
    List.append_nil, List.append_assoc]

/-- Making the call of an object leaves the calls as they are. -/
theorem outstanding_called {o : Option (BasicScopedChunk σ)} (h : w.object x = some c)
    (ho : owed o = []) :
    ({ w.put x o with calls := w.calls ++ c.consume.2 } : World σ).outstanding.Perm
      w.outstanding := by
  obtain ⟨others, hall, hset⟩ := outstanding_put (object_eq_some h)
  have hput := hset o
  rw [ho, List.nil_append] at hput
  rw [outstanding, List.append_assoc]
  exact (List.perm_append_comm_assoc _ _ _).trans ((hput.append_left _).trans hall.symm)

theorem outstanding_destroy (w : World σ) (x : Nat) :
    (w.destroy x).outstanding.Perm w.outstanding := by
  unfold destroy
  cases h : w.object x with
  | none => exact List.Perm.refl _
  | some c => exact outstanding_called h rfl

theorem due_destroy (w : World σ) (x : Nat) : (w.destroy x).due = w.due := by
  unfold destroy
  split <;> rfl

theorem length_destroy (w : World σ) (x : Nat) :
    (w.destroy x).objects.length = w.objects.length := by
  unfold destroy
  split
  · rfl
  · exact List.length_set

theorem object_destroy (w : World σ) (x y : Nat) (h : x = y ∨ w.object y = none) :
    (w.destroy x).object y = none := by
  unfold destroy
  cases hx : w.object x with
  | none =>
    rcases h with rfl | h
    · exact hx
    · exact h
  | some c =>
    show ((w.objects.set x none)[y]?).join = none
    by_cases heq : x = y
    · subst heq
      rw [List.getElem?_set_self']
      cases w.objects[x]? <;> rfl
    · rw [List.getElem?_set_ne heq]
      exact h.resolve_left heq

/-- In a list of objects that are to be destroyed. -/
theorem destroyAll_spec (xs : List Nat) (w : World σ) :
    (xs.foldl destroy w).outstanding.Perm w.outstanding ∧ (xs.foldl destroy w).due = w.due ∧
      (xs.foldl destroy w).objects.length = w.objects.length ∧
      ∀ y, y ∈ xs ∨ w.object y = none → (xs.foldl destroy w).object y = none := by
  induction xs generalizing w with
  | nil => exact ⟨List.Perm.refl _, rfl, rfl, fun y h => h.resolve_left List.not_mem_nil⟩
  | cons x xs ih =>
    obtain ⟨hperm, hdue, hlen, hgone⟩ := ih (w.destroy x)
    refine ⟨hperm.trans (w.outstanding_destroy x), hdue.trans (w.due_destroy x),
      hlen.trans (w.length_destroy x), fun y h => hgone y ?_⟩
    rcases h with hmem | hnone
    · rcases List.mem_cons.mp hmem with rfl | hmem
      · exact .inr (w.object_destroy y y (.inl rfl))
      · exact .inl hmem
    · exact .inr (w.object_destroy x y (.inr hnone))

/-- Once all objects are destroyed nothing is outstanding but the calls that have been made. -/
theorem calls_close (w : World σ) : w.close.calls.Perm w.outstanding := by
  obtain ⟨hperm, -, hlen, hgone⟩ := w.destroyAll_spec (List.range w.objects.length)
  have hnone : w.close.objects.flatMap owed = [] := by
    rw [List.flatMap_eq_nil_iff]
    intro o ho
    obtain ⟨y, hlt, rfl⟩ := List.mem_iff_getElem.mp ho
    have hy := hgone y (.inl (List.mem_range.mpr (hlen ▸ hlt)))
    rw [object, show ((List.range w.objects.length).foldl destroy w).objects[y]? = _ from
      List.getElem?_eq_getElem hlt] at hy
    rw [show w.close.objects[y] = none from hy]
    rfl
  have heq : w.close.outstanding = w.close.calls := by
    rw [outstanding, hnone, List.append_nil]
  rw [← heq]
  exact hperm

theorem settled_iff (w : World σ) : w.Settled ↔ w.outstanding.Perm w.due :=
  ⟨fun h => w.calls_close.symm.trans h, fun h => w.calls_close.trans h⟩

end World

/-! ## Moves -/

/-- The chunk has gathered its bytes, and some were backed up since. -/
def BasicScopedChunk.Shortened (c : BasicScopedChunk σ) : Prop :=
  c.source.isSome ∧ c.localStorage ≠ [] ∧ c.size ≠ c.localStorage.length

/-- A move does not shorten its chunk, and does not overwrite one that is not consumed. -/
def World.Careful (w : World σ) : Op σ → Prop
  | .moveConstruct x => ∀ c, w.object x = some c → ¬ c.Shortened
  | .moveAssign x y => x = y ∨ (∀ this, w.object x = some this → this.source = none) ∧
      ∀ other, w.object y = some other → ¬ other.Shortened
  | _ => True

theorem owed_leftOver (c : BasicScopedChunk σ) : owed (some (c.moved leftOver).2) = [] :=
  owed_of_none rfl

/-- What a chunk owes when it has been moved. -/
theorem owed_moved_iff (c : BasicScopedChunk σ) :
    owed (some (c.moved leftOver).1) = owed (some c) ↔ ¬ c.Shortened := by
  cases h : c.source with
  | none =>
    rw [owed_of_none h, owed_of_none (show (c.moved leftOver).1.source = none from h)]
    refine iff_of_true rfl fun hs => ?_
    rw [BasicScopedChunk.Shortened, h] at hs
    exact absurd hs.1 Bool.false_ne_true
  | some source =>
    rw [owed_of_source h, owed_of_source (show (c.moved leftOver).1.source = some source from h)]
    have hsize : (c.moved leftOver).1.size =
        if c.localStorage = [] then c.size else c.localStorage.length := by
      show (if c.localStorage.isEmpty then c.buffer else c.localStorage).length = _
      cases c.localStorage <;> rfl
    simp only [List.cons.injEq, Call.mk.injEq, true_and, and_true, hsize,
      BasicScopedChunk.Shortened, h, Option.isSome_some, ne_eq]
    split
    · rename_i hempty
      exact iff_of_true rfl fun hs => hs.1 hempty
    · rename_i hsome
      exact ⟨fun heq hs => hs.2 heq.symm, fun hs => by_contra fun hne =>
        hs ⟨hsome, fun heq => hne heq.symm⟩⟩

theorem length_owed_moved (c : BasicScopedChunk σ) :
    (owed (some (c.moved leftOver).1)).length = (owed (some c)).length := by
  cases h : c.source with
  | none => rw [owed_of_none h, owed_of_none (show (c.moved leftOver).1.source = none from h)]
  | some source =>
    rw [owed_of_source h, owed_of_source (show (c.moved leftOver).1.source = some source from h)]
    rfl

/-- The calls of one object are as many as those of another: then they are the same calls, if all
    are. -/
theorem owed_eq_of_perm {c d : BasicScopedChunk σ} (h : (owed (some c)).Perm (owed (some d))) :
    owed (some c) = owed (some d) := by
  cases hd : d.source with
  | none =>
    rw [owed_of_none hd] at h ⊢
    exact h.eq_nil
  | some source =>
    rw [owed_of_source hd] at h ⊢
    exact List.perm_singleton.mp h

namespace World

variable {w w' : World σ} {x y n : Nat} {c : BasicScopedChunk σ}

theorem settled_moveConstruct_iff (h : w.Settled) (hx : w.object x = some c) :
    ((w.put x (some (c.moveConstruct leftOver).2)).addObject (c.moveConstruct leftOver).1).Settled ↔
      ¬ c.Shortened := by
  obtain ⟨others, hall, hput⟩ := outstanding_put (object_eq_some hx)
  have hmoved := hput (some (c.moved leftOver).2)
  rw [owed_leftOver, List.nil_append] at hmoved
  rw [settled_iff] at h ⊢
  have hdue := hall.symm.trans h
  rw [outstanding_addObject, ← owed_moved_iff]
  constructor
  · intro hsettled
    have hsame := ((hmoved.append_right _).symm.trans hsettled).trans hdue.symm
    exact owed_eq_of_perm ((List.perm_append_left_iff others).mp
      (hsame.trans List.perm_append_comm))
  · intro heq
    rw [show (c.moveConstruct leftOver).1 = (c.moved leftOver).1 from rfl, heq]
    exact (hmoved.append_right _).trans (List.perm_append_comm.trans hdue)

theorem settled_moveAssign_iff (h : w.Settled) {this other : BasicScopedChunk σ}
    (hx : w.object x = some this) (hy : w.object y = some other) (hne : x ≠ y) :
    ((w.put y (some (this.moveAssign leftOver other).2)).put x
        (some (this.moveAssign leftOver other).1)).Settled ↔
      this.source = none ∧ ¬ other.Shortened := by
  obtain ⟨others, hall, hput⟩ := outstanding_put (object_eq_some hy)
  have hmoved := hput (some (other.moved leftOver).2)
  rw [owed_leftOver, List.nil_append] at hmoved
  have hx' : (w.put y (some (other.moved leftOver).2)).objects[x]? = some (some this) := by
    show (w.objects.set y _)[x]? = _
    rw [List.getElem?_set_ne hne.symm]
    exact object_eq_some hx
  obtain ⟨rest, hrest, hassign⟩ := outstanding_put hx'
  have hassigned := hassign (some (other.moved leftOver).1)
  rw [settled_iff] at h ⊢
  -- what was due: the calls of both objects and the others
  have hdue : (owed (some other) ++ (owed (some this) ++ rest)).Perm w.due :=
    (((hrest.symm.trans hmoved).append_left _).trans hall.symm).trans h
  have hiff : ((w.put y (some (this.moveAssign leftOver other).2)).put x
      (some (this.moveAssign leftOver other).1)).outstanding.Perm w.due ↔
        (owed (some (other.moved leftOver).1)).Perm (owed (some other) ++ owed (some this)) := by
    rw [← List.append_assoc] at hdue
    exact ⟨fun hs => (List.perm_append_right_iff rest).mp
        ((hassigned.symm.trans hs).trans hdue.symm),
      fun hs => hassigned.trans ((hs.append_right rest).trans hdue)⟩
  refine hiff.trans ⟨fun hs => ?_, fun hs => ?_⟩
  · have hlen := hs.length_eq
    rw [length_owed_moved, List.length_append] at hlen
    have hempty : owed (some this) = [] := List.length_eq_zero_iff.mp (by omega)
    rw [hempty, List.append_nil] at hs
    refine ⟨?_, (owed_moved_iff other).mp (owed_eq_of_perm hs)⟩
    cases hsource : this.source with
    | none => rfl
    | some source =>
      rw [owed_of_source hsource] at hempty
      exact absurd hempty (List.cons_ne_nil _ _)
  · rw [owed_of_none hs.1, List.append_nil, (owed_moved_iff other).mpr hs.2]

/-! ## The other statements -/

theorem settled_addFetched (h : w.Settled) (stream : σ)
    (hc : c.source = some ⟨stream, w.fetches.length⟩) : (w.addFetched stream c).Settled := by
  rw [settled_iff] at h ⊢
  have hdue : (w.addFetched stream c).due =
      w.due ++ [⟨⟨stream, w.fetches.length⟩, c.size⟩] := List.mapIdx_concat
  have hout : (w.addFetched stream c).outstanding =
      w.outstanding ++ [⟨⟨stream, w.fetches.length⟩, c.size⟩] := by
    rw [← owed_of_source hc]
    exact w.outstanding_addObject c
  rw [hdue, hout]
  exact h.append_right _

theorem fetchChunk_source {source : Source σ} {minSize : Nat} {answer : StatusOr (List Bytes)}
    (h : fetchChunk leftOver source minSize answer = some (.ok c)) : c.source = some source := by
  unfold fetchChunk at h
  split at h
  · cases h
  · split at h
    · cases h
    · cases h
    · split at h
      · cases h
        rfl
      · simp only at h
        split at h
        · cases h
          rfl
        · cases h

theorem due_modify (w : World σ) (i n : Nat) :
    ({ w with fetches := w.fetches.modify i fun f => { f with left := f.left - n } } : World σ).due =
      w.due.modify i fun call => { call with count := call.count - n } := by
  refine List.ext_getElem? fun j => ?_
  simp only [due, List.getElem?_mapIdx, List.getElem?_modify, Option.map_eq_map, Option.map_map]
  by_cases heq : i = j
  · simp only [heq, if_true]
    rfl
  · simp only [heq, if_false]
    rfl

theorem settled_backUp (h : w.Settled) (hx : w.object x = some c) :
    ({ w.put x (some (c.backUp n)) with fetches := w.backedUp c n } : World σ).Settled := by
  obtain ⟨others, hall, hput⟩ := outstanding_put (object_eq_some hx)
  have hshort := hput (some (c.backUp n))
  rw [settled_iff] at h ⊢
  have hdue := hall.symm.trans h
  cases hsource : c.source with
  | none =>
    rw [owed_of_none hsource] at hdue
    rw [owed_of_none (show (c.backUp n).source = none from hsource)] at hshort
    simp only [backedUp, hsource]
    exact hshort.trans hdue
  | some source =>
    rw [owed_of_source hsource] at hdue
    rw [owed_of_source (show (c.backUp n).source = some source from hsource),
      BasicScopedChunk.size_backUp] at hshort
    simp only [backedUp, hsource]
    -- the call is the one that is due for the fetch with its number
    have hmem : Call.mk source c.size ∈ w.due := hdue.subset List.mem_cons_self
    obtain ⟨i, hi⟩ := List.mem_iff_getElem?.mp hmem
    have hfetch : i = source.fetch := by
      rw [due, List.getElem?_mapIdx, Option.map_eq_some_iff] at hi
      obtain ⟨f, -, hcall⟩ := hi
      rw [← (Call.mk.inj hcall).1]
    subst hfetch
    obtain ⟨rest, hrest, hset⟩ := perm_set hi
    have hothers : others.Perm rest := (hdue.trans hrest).cons_inv
    have hmodify : (w.due.modify source.fetch fun call => { call with count := call.count - n }) =
        w.due.set source.fetch ⟨source, c.size - n⟩ := by
      rw [List.modify_eq_set_getElem?, hi]
      rfl
    refine hshort.trans (((hothers.cons _).trans (hset _).symm).trans ?_)
    exact List.Perm.of_eq (hmodify.symm.trans (due_modify w source.fetch n).symm)

/-- **What one statement does**: a settled world is settled behind it if and only if it is a
    careful move, or none. -/
theorem settled_step_iff {op : Op σ} (h : w.Settled) (hstep : w.step leftOver op = some w') :
    w'.Settled ↔ w.Careful op := by
  cases op with
  | construct =>
    cases hstep
    refine iff_of_true ?_ trivial
    rw [settled_iff] at h ⊢
    rw [outstanding_addObject, owed_of_none rfl, List.append_nil]
    exact h
  | fetch stream minSize answer =>
    refine iff_of_true ?_ trivial
    rw [step] at hstep
    split at hstep
    · cases hstep
    · cases hstep
      exact h
    · rename_i hfetch
      cases hstep
      exact settled_addFetched h stream (fetchChunk_source hfetch)
  | ofBuffer stream buffer =>
    cases hstep
    exact iff_of_true (settled_addFetched h stream rfl) trivial
  | backUp x n =>
    obtain ⟨c, hx, hc⟩ := Option.bind_eq_some_iff.mp hstep
    cases hc
    exact iff_of_true (settled_backUp h hx) trivial
  | moveConstruct x =>
    obtain ⟨c, hx, hc⟩ := Option.bind_eq_some_iff.mp hstep
    cases hc
    refine (settled_moveConstruct_iff h hx).trans ⟨fun hs d hd => ?_, fun hs => hs c hx⟩
    rw [hx] at hd
    cases hd
    exact hs
  | moveAssign x y =>
    obtain ⟨this, hx, hthis⟩ := Option.bind_eq_some_iff.mp hstep
    obtain ⟨other, hy, hother⟩ := Option.bind_eq_some_iff.mp hthis
    by_cases heq : x = y
    · rw [if_pos heq] at hother
      cases hother
      exact iff_of_true h (.inl heq)
    · rw [if_neg heq] at hother
      cases hother
      refine (settled_moveAssign_iff h hx hy heq).trans ⟨fun hs => .inr ⟨?_, ?_⟩, fun hs => ?_⟩
      · intro d hd
        rw [hx] at hd
        cases hd
        exact hs.1
      · intro d hd
        rw [hy] at hd
        cases hd
        exact hs.2
      · have hcareful := hs.resolve_left heq
        exact ⟨hcareful.1 this hx, hcareful.2 other hy⟩
  | consume x =>
    obtain ⟨c, hx, hc⟩ := Option.bind_eq_some_iff.mp hstep
    cases hc
    refine iff_of_true ?_ trivial
    rw [settled_iff] at h ⊢
    exact (outstanding_called hx (owed_consumed c)).trans h
  | destroy x =>
    obtain ⟨c, hx, hc⟩ := Option.bind_eq_some_iff.mp hstep
    cases hc
    refine iff_of_true ?_ trivial
    rw [settled_iff] at h ⊢
    rw [due_destroy]
    exact (w.outstanding_destroy x).trans h

/-! ## Programs -/

theorem exec_eq (leftOver : Bytes → Bytes) (w : World σ) (ops : List (Op σ)) :
    w.exec leftOver ops = Program.exec (fun w op => w.step leftOver op) w ops := by
  induction ops generalizing w with
  | nil => rfl
  | cons op ops ih =>
    rw [exec, Program.exec]
    exact congrArg _ (funext ih)

theorem settled_start : ({} : World σ).Settled := List.Perm.refl _

/-- **When each fetch is consumed once.** Whatever a program does, if all its objects were
    destroyed at any point, each fetch would have been paired with one call of `consume` on its
    own stream, with the number of bytes that were not backed up, if and only if every move
    that it makes is careful. -/
theorem settled_iff_careful (leftOver : Bytes → Bytes) (ops : List (Op σ)) :
    (∀ pre w, pre <+: ops → ({} : World σ).exec leftOver pre = some w → w.Settled) ↔
      ∀ pre op w w', pre ++ [op] <+: ops → ({} : World σ).exec leftOver pre = some w →
        w.step leftOver op = some w' → w.Careful op := by
  simp only [exec_eq]
  exact Program.good_iff_careful settled_start settled_step_iff ops

/-- Three bytes are backed up on a chunk of ten that was gathered, and it is moved: all ten are
    consumed. And a chunk that is assigned over is not consumed at all. -/
theorem moves_unpaired :
    (∃ w, ({} : World Bool).exec id [.fetch true 10 (.ok [[1, 2, 3, 4, 5, 6, 7], [8, 9, 10, 11]]),
        .backUp 0 3, .moveConstruct 0] = some w ∧
      w.close.calls = [⟨⟨true, 0⟩, 10⟩] ∧ w.due = [⟨⟨true, 0⟩, 7⟩] ∧ ¬ w.Settled) ∧
    ∃ w, ({} : World Bool).exec id [.fetch false 1 (.ok [[1, 2]]), .fetch true 1 (.ok [[3]]),
        .moveAssign 0 1] = some w ∧
      w.close.calls = [⟨⟨true, 1⟩, 1⟩] ∧ w.due = [⟨⟨false, 0⟩, 2⟩, ⟨⟨true, 1⟩, 1⟩] ∧
      ¬ w.Settled := by
  refine ⟨⟨_, rfl, by decide, by decide, fun h => ?_⟩, ⟨_, rfl, by decide, by decide, fun h => ?_⟩⟩
  · exact absurd h (by unfold Settled; decide)
  · exact absurd h.length_eq (by decide)

end World

end Batt.Fetch
