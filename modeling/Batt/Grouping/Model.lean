/-
  `group_by` (batteries/seq/group_by.hpp): the sequence of the runs of a sequence, where each run
  is a sequence again.

  A GroupBy and the SubGroup it has last returned share their state: the SubGroup reads through
  `group_by_`, the GroupBy knows it by `sub_group_`, and copying, moving, detaching and destroying
  either side links them anew. So the objects live in a heap. `outers` are the GroupBy objects of the
  user, `subs` the SubGroup objects, by their address; the user chooses the address of an object it
  creates, and an address is free again when its object is destroyed. The private GroupBy of a
  SubGroup is a member of it: `storage` is the memory of `private_group_by_`, `valid` its flag. The
  memory keeps what is in it when the flag is cleared, as ~GroupBy reads it after that.

  `ok` says that no BATT_ASSERT has failed so far, and that no null or dangling pointer was followed:
  without BATT_ASSERT the code goes on, and so does the model. The source sequence is the list of the
  items it has still to return, with the state after a move left open.
-/
import Mathlib.Data.List.SplitBy
import Mathlib.Logic.Function.Basic

namespace Batt.Grouping

variable {α : Type}

/-! ## Objects -/

/-- A GroupBy pointer: null, to the object of the user at `i`, or to the private one that the
    SubGroup at `j` holds. -/
inductive Link where
  | null
  | outer (i : Nat)
  | priv (j : Nat)
deriving Repr, DecidableEq

structure GroupBy (α : Type) where
  subGroup : Option Nat
  seq : List α
  groupEq : α → α → Bool
  nextItem : Option α

structure SubGroup (α : Type) where
  valid : Bool
  storage : Option (GroupBy α)
  groupBy : Link

structure Heap (α : Type) where
  outers : Nat → Option (GroupBy α)
  subs : Nat → Option (SubGroup α)
  ok : Bool

def Heap.empty : Heap α := ⟨fun _ => none, fun _ => none, true⟩

/-- BATT_ASSERT -/
def Heap.assert (h : Heap α) (b : Bool) : Heap α := { h with ok := h.ok && b }

/-- `group_by_` of the SubGroup at `j`. -/
def Heap.link (h : Heap α) (j : Nat) : Link :=
  match h.subs j with
  | none => .null
  | some s => s.groupBy

/-- `sub_group_` of the GroupBy at `i`. -/
def Heap.attached (h : Heap α) (i : Nat) : Option Nat := (h.outers i).bind (·.subGroup)

def Heap.target (h : Heap α) : Link → Option (GroupBy α)
  | .null => none
  | .outer i => h.outers i
  | .priv j => (h.subs j).bind (·.storage)

def Heap.setOuter (h : Heap α) (i : Nat) (g : Option (GroupBy α)) : Heap α :=
  { h with outers := Function.update h.outers i g }

def Heap.setSub (h : Heap α) (j : Nat) (s : Option (SubGroup α)) : Heap α :=
  { h with subs := Function.update h.subs j s }

/-- A write through a SubGroup pointer. -/
def Heap.modifySub (h : Heap α) (j : Nat) (f : SubGroup α → SubGroup α) : Heap α :=
  (h.setSub j ((h.subs j).map f)).assert (h.subs j).isSome

/-- A write through a GroupBy pointer. -/
def Heap.modifyTarget (h : Heap α) (l : Link) (f : GroupBy α → GroupBy α) : Heap α :=
  match l with
  | .null => h.assert false
  | .outer i => (h.setOuter i ((h.outers i).map f)).assert (h.outers i).isSome
  | .priv j =>
    (h.modifySub j fun s => { s with storage := s.storage.map f }).assert
      (h.target (.priv j)).isSome

/-! ## GroupBy -/

/-- GroupBy(Seq&&, GroupEq&&) -/
def GroupBy.construct (seq : List α) (groupEq : α → α → Bool) : GroupBy α :=
  ⟨none, seq.tail, groupEq, seq.head?⟩

/-- GroupBy(Seq&&, GroupEq&&, Optional<SubGroupItem>&&) with the members of `g`. -/
def GroupBy.state (g : GroupBy α) : GroupBy α := { g with subGroup := none }

/-- `sub_group_next` on a GroupBy whose `next_item_` is `item`: the state after it. -/
def GroupBy.advance (g : GroupBy α) : GroupBy α :=
  { g with nextItem := g.seq.head?, seq := g.seq.tail }

/-- Nothing after `item` belongs to its run. -/
def GroupBy.ends (g : GroupBy α) (item : α) : Bool :=
  match g.seq.head? with
  | none => true
  | some n => !g.groupEq item n

/-- The loop of `consume()`: `next()` of the SubGroup until it returns None. -/
def skipRun (groupEq : α → α → Bool) : α → List α → List α × Option α
  | _, [] => ([], none)
  | item, n :: seq => if groupEq item n then skipRun groupEq n seq else (seq, some n)

/-- `SubGroup{&g.sub_group_, &g} | consume()` -/
def GroupBy.consume (g : GroupBy α) : GroupBy α :=
  match g.nextItem with
  | none => g
  | some item =>
    { g with
      subGroup := none
      seq := (skipRun g.groupEq item g.seq).1
      nextItem := (skipRun g.groupEq item g.seq).2 }

/-- GroupBy(const GroupBy&), with `copy_sub_group`. -/
def GroupBy.copyOf (g : GroupBy α) : GroupBy α :=
  if g.subGroup.isSome then g.state.consume else g.state

/-! ## detach -/

def SubGroup.isDetached (s : SubGroup α) : Bool := s.groupBy == .null || s.valid

/-- The part of `detach` after its first test: the sub-sequence at `j` reads `g`, at `s.groupBy`. -/
def Heap.detachFrom (h : Heap α) (j : Nat) (s : SubGroup α) (g : GroupBy α) (skipAdvance : Bool) :
    Heap α :=
  let h := h.assert (g.subGroup == some j)
  let h := h.modifySub j fun s => { s with valid := true, storage := some g.state }
  let h :=
    if skipAdvance then h.modifyTarget s.groupBy fun g => { g with subGroup := none }
    -- with no item left, consume() would not end
    else (h.assert g.nextItem.isSome).modifyTarget s.groupBy GroupBy.consume
  let h := h.modifySub j fun s => { s with groupBy := .priv j }
  h.modifyTarget (.priv j) fun g => { g with subGroup := some j }

def Heap.detach (h : Heap α) (p : Option Nat) (skipAdvance : Bool) : Heap α :=
  match p with
  | none => h
  | some j =>
    match h.subs j with
    | none => h.assert false
    | some s =>
      -- the assertion of is_detached()
      let h := h.assert (s.groupBy == .null || !s.valid || s.groupBy == .priv j)
      if s.isDetached then h
      else match h.target s.groupBy with
        | none => h.assert false
        | some g => h.detachFrom j s g skipAdvance

/-- `private_group_by_ = None` of the SubGroup at `j`. The flag goes first, then ~GroupBy
    detaches. -/
def Heap.reset (h : Heap α) (j : Nat) : Heap α :=
  match h.subs j with
  | none => h.assert false
  | some s =>
    if s.valid then
      (h.modifySub j fun s => { s with valid := false }).detach (s.storage.bind (·.subGroup)) true
    else h

/-- `private_group_by_.emplace(..)` with the members of `g`. -/
def Heap.emplace (h : Heap α) (j : Nat) (g : GroupBy α) : Heap α :=
  (h.reset j).modifySub j fun s => { s with valid := true, storage := some g.state }

/-! ## SubGroup -/

/-- The private state of the SubGroup at `j'` goes to the one at `j`. -/
def Heap.movePrivate (h : Heap α) (j j' : Nat) : Heap α :=
  match h.target (.priv j') with
  | none => h.assert false
  | some g =>
    let h := h.emplace j g
    let h := h.modifyTarget (.priv j') fun g => { g with subGroup := none }
    let h := h.reset j'
    h.modifySub j fun s => { s with groupBy := .priv j }

/-- `move_impl` on the SubGroup at `j`, where `that` is at `j'`. -/
def Heap.moveImpl (h : Heap α) (j j' : Nat) : Heap α :=
  match h.subs j' with
  | none => h.assert false
  | some that =>
    if that.groupBy = .null then
      (h.modifySub j fun s => { s with groupBy := .null }).reset j
    else
      let h :=
        if that.valid then h.movePrivate j j'
        else
          let h := h.reset j
          h.modifySub j fun s => { s with groupBy := h.link j' }
      let h := h.modifyTarget (h.link j) fun g => { g with subGroup := some j }
      h.modifySub j' fun s => { s with groupBy := .null }

/-- `copy_impl` -/
def Heap.copyImpl (h : Heap α) (j j' : Nat) : Heap α :=
  if h.link j' = .null then
    (h.modifySub j fun s => { s with groupBy := .null }).reset j
  else match h.target (h.link j') with
    | none => h.assert false
    | some g =>
      let h := h.emplace j g
      let h := h.modifySub j fun s => { s with groupBy := .priv j }
      h.modifyTarget (.priv j) fun g => { g with subGroup := some j }

/-- `if (this->group_by_) { GroupBy::detach(this, false); }` -/
def Heap.detachThis (h : Heap α) (j : Nat) : Heap α :=
  if h.link j = .null then h else h.detach (some j) false

/-- `sub_group_next` of the GroupBy `g` at `l`. -/
def Heap.subGroupNext (h : Heap α) (l : Link) (g : GroupBy α) : Heap α × Option α :=
  match g.nextItem with
  | none => (h.assert g.subGroup.isNone, none)
  | some item =>
    let h := h.modifyTarget l GroupBy.advance
    if g.ends item then
      match g.subGroup with
      | none => (h.assert false, some item)
      | some k =>
        let h := (h.modifySub k fun s => { s with groupBy := .null }).reset k
        (h.modifyTarget l fun g => { g with subGroup := none }, some item)
    else (h, some item)

def Heap.subNext (h : Heap α) (j : Nat) : Heap α × Option α :=
  match h.link j with
  | .null => (h, none)
  | l =>
    match h.target l with
    | none => (h.assert false, none)
    | some g => h.subGroupNext l g

def Heap.subPeek (h : Heap α) (j : Nat) : Option α := (h.target (h.link j)).bind (·.nextItem)

/-! ## The operations of the user -/

/-- An address is where an object is made, or where it is. `left` is what a move leaves of the
    source sequence, of the predicate and of `next_item_`. -/
inductive Op (α : Type) where
  | make (i : Nat) (seq : List α) (groupEq : α → α → Bool)
  | next (i j : Nat)
  | peek (i j : Nat)
  | copy (i i' : Nat)
  | move (i i' : Nat) (left : GroupBy α)
  | assignCopy (i i' : Nat)
  | assignMove (i i' : Nat) (left : GroupBy α)
  | destroy (i : Nat)
  | subNext (j : Nat)
  | subPeek (j : Nat)
  | subCopy (j j' : Nat)
  | subMove (j j' : Nat)
  | subAssignCopy (j j' : Nat)
  | subAssignMove (j j' : Nat)
  | subDestroy (j : Nat)

/-- What the user sees: nothing, whether there is a group, or an item. `skip` is an operation
    whose object is not there, or whose new object has no place. -/
inductive Obs (α : Type) where
  | skip
  | done
  | group (yes : Bool)
  | item (x : Option α)
deriving Repr, DecidableEq

/-- The new SubGroup at `j` is attached to the GroupBy at `i`. -/
def Heap.newAttached (h : Heap α) (i j : Nat) : Heap α :=
  (h.setSub j (some ⟨false, none, .outer i⟩)).modifyTarget (.outer i)
    fun g => { g with subGroup := some j }

/-- The new SubGroup at `j` has a private copy of `g`. -/
def Heap.newPrivate (h : Heap α) (j : Nat) (g : GroupBy α) : Heap α :=
  h.setSub j (some ⟨true, some { g.state with subGroup := some j }, .priv j⟩)

/-- `next` of the GroupBy at `i`; its SubGroup is at `j`. -/
def Heap.next (h : Heap α) (i j : Nat) : Heap α × Bool :=
  let h := h.detach (h.attached i) false
  let h := h.assert (h.attached i).isNone
  match (h.target (.outer i)).bind (·.nextItem) with
  | none => (h, false)
  | some _ => (h.newAttached i j, true)

/-- `peek` of `g`. -/
def Heap.peek (h : Heap α) (g : GroupBy α) (j : Nat) : Heap α × Bool :=
  let h := h.assert (g.subGroup.isNone || g.nextItem.isSome)
  match g.copyOf.nextItem with
  | none => (h, false)
  | some _ => (h.newPrivate j g.copyOf, true)

/-- `move_sub_group` -/
def Heap.moveSubGroup (h : Heap α) (i i' : Nat) : Heap α :=
  let h :=
    match h.attached i' with
    | some k =>
      (h.modifyTarget (.outer i) fun g => { g with subGroup := some k }).modifySub k
        fun s => { s with groupBy := .outer i }
    | none => h.modifyTarget (.outer i) fun g => { g with subGroup := none }
  h.modifyTarget (.outer i') fun g => { g with subGroup := none }

/-- The members of `g`, at `i'`, are moved to `i`. -/
def Heap.moveOuter (h : Heap α) (i i' : Nat) (g left : GroupBy α) : Heap α :=
  let h := h.setOuter i (some { g with subGroup := h.attached i })
  let h := h.setOuter i' (some { left with subGroup := g.subGroup })
  h.moveSubGroup i i'

/-- The members of `g` are copied to `i`. -/
def Heap.copyOuter (h : Heap α) (i : Nat) (g : GroupBy α) : Heap α :=
  (h.assert (g.subGroup.isNone || g.nextItem.isSome)).setOuter i (some g.copyOf)

/-- ~SubGroup -/
def Heap.subDestroy (h : Heap α) (j : Nat) : Heap α :=
  let h := h.detachThis j
  -- ~Optional leaves the flag set
  let h :=
    match h.subs j with
    | none => h.assert false
    | some s => if s.valid then h.detach (s.storage.bind (·.subGroup)) true else h
  h.setSub j none

/-- One operation on objects that are there. -/
def Heap.run (h : Heap α) : Op α → Heap α × Obs α
  | .make i seq groupEq => (h.setOuter i (some (.construct seq groupEq)), .done)
  | .next i j => ((h.next i j).1, .group (h.next i j).2)
  | .peek i j =>
    match h.outers i with
    | none => (h, .skip)
    | some g => ((h.peek g j).1, .group (h.peek g j).2)
  | .copy i i' =>
    match h.outers i' with
    | none => (h, .skip)
    | some g => (h.copyOuter i g, .done)
  | .move i i' left =>
    match h.outers i' with
    | none => (h, .skip)
    | some g => (h.moveOuter i i' g left, .done)
  | .assignCopy i i' =>
    if i = i' then (h, .done)
    else
      let h := h.detach (h.attached i) true
      match h.outers i' with
      | none => (h, .skip)
      | some g => (h.copyOuter i g, .done)
  | .assignMove i i' left =>
    if i = i' then (h, .done)
    else
      let h := h.detach (h.attached i) true
      match h.outers i' with
      | none => (h, .skip)
      | some g => (h.moveOuter i i' g left, .done)
  | .destroy i => ((h.detach (h.attached i) true).setOuter i none, .done)
  | .subNext j => ((h.subNext j).1, .item (h.subNext j).2)
  | .subPeek j => (h, .item (h.subPeek j))
  | .subCopy j j' => ((h.setSub j (some ⟨false, none, .null⟩)).copyImpl j j', .done)
  | .subMove j j' => ((h.setSub j (some ⟨false, none, .null⟩)).moveImpl j j', .done)
  | .subAssignCopy j j' =>
    if j = j' then (h, .done) else ((h.detachThis j).copyImpl j j', .done)
  | .subAssignMove j j' =>
    if j = j' then (h, .done) else ((h.detachThis j).moveImpl j j', .done)
  | .subDestroy j => (h.subDestroy j, .done)

/-- The objects an operation uses are there, and the place of the one it makes is free. -/
def Op.fits (op : Op α) (outer sub : Nat → Bool) : Bool :=
  match op with
  | .make i _ _ => !outer i
  | .next i j | .peek i j => outer i && !sub j
  | .copy i i' | .move i i' _ => !outer i && outer i'
  | .assignCopy i i' | .assignMove i i' _ => outer i && outer i'
  | .destroy i => outer i
  | .subNext j | .subPeek j | .subDestroy j => sub j
  | .subCopy j j' | .subMove j j' => !sub j && sub j'
  | .subAssignCopy j j' | .subAssignMove j j' => sub j && sub j'

def Heap.exec (h : Heap α) (op : Op α) : Heap α × Obs α :=
  if op.fits (fun i => (h.outers i).isSome) (fun j => (h.subs j).isSome) then h.run op
  else (h, .skip)

def Heap.execAll (h : Heap α) : List (Op α) → Heap α × List (Obs α)
  | [] => (h, [])
  | op :: ops =>
    (((h.exec op).1.execAll ops).1, (h.exec op).2 :: ((h.exec op).1.execAll ops).2)

end Batt.Grouping
