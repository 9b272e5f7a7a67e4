/-
  `notify`, `lock` and `await_condition` of `batt::Runtime` (`async/runtime.hpp`).

  Objects are hashed to one of the `weak_notify_slot_`s: a counter, which is a watch of the
  `Watch` model, and a mutex. The calls into the counter take their steps there; `get_value` is
  one load. The mutex is a `batt::Mutex`, which is granted to one task at a time; here it is a
  flag, and a task that wants it is blocked while it is set.

  Any number of threads call, on any objects. `hash` is a parameter, and so is what
  `check_condition` answers: the schedule chooses it (`Act.checked`), and other threads may take
  steps while it is evaluated. Nobody closes a counter, but a wait that is told an error returns.

  `evaluated` records the run and no step reads it: it is the number of notifications of the
  slot that had taken effect when the last evaluation of the condition started.
-/
import Batt.Watch.Model

namespace Batt.Runtime

open Interleave

abbrev U64 := BitVec 64

structure WeakNotifySlot where
  counter : Watch.Shared U64
  /-- The slot's `mutex` is taken. -/
  locked : Bool

structure Shared where
  slots : List WeakNotifySlot

/-- Where `await_condition` is. -/
inductive Wait where
  | getValue
  | lock (observedTs : U64)
  | check (observedTs : U64)
  | checking (observedTs : U64)
  | unlock (observedTs : U64)
  /-- In `counter.await_not_equal(observed_ts)`, with the handler it passed. -/
  | awaitNotEqual (observedTs : U64) (handler : Nat) (pc : Watch.Pc U64)
  /-- Returning, with the lock held. -/
  | leave

/-- What a thread does at a slot. -/
inductive Party where
  /-- In `counter.fetch_add(1)`. -/
  | notify (pc : Watch.Pc U64)
  | await (evaluated : Nat) (pc : Wait)
  | lock
  | holding

inductive Local where
  | idle
  | busy (slot : Nat) (party : Party)

inductive Act (Objs : Type) where
  | notify (objs : Objs)
  | awaitCondition (objs : Objs)
  | lock (objs : Objs)
  | unlock
  | checked (lastResult : Bool)
  | run

/-- The notifications of the slot that have taken effect. -/
def WeakNotifySlot.notified (s : WeakNotifySlot) : Nat := s.counter.links.length

/-! ## One slot -/

/-- The loop goes to sleep: `await_not_equal` passes a handler to the counter. -/
def WeakNotifySlot.beginWait (s : WeakNotifySlot) (evaluated : Nat) (observedTs : U64) :
    WeakNotifySlot × Option Party :=
  let (w, pc) := Watch.begin s.counter (.awaitNotEqual observedTs)
  ({ s with counter := w, locked := false },
    some (.await evaluated (.awaitNotEqual observedTs s.counter.handlers.length pc)))

/-- `await_not_equal` has returned. -/
def afterAwaitNotEqual (evaluated : Nat) : Watch.Ret U64 → Option Party
  | .value updatedTs => some (.await evaluated (.lock updatedTs))
  | _ => none

/-- One step of a thread at a slot; `none` where the call has returned. -/
def Party.step (s : WeakNotifySlot) {Objs : Type} :
    Act Objs → Party → Option (WeakNotifySlot × Option Party)
  | .run, .notify pc =>
    (Watch.exec true s.counter 0 pc).map fun r =>
      ({ s with counter := r.1 },
        match r.2 with
        | .finish _ => none
        | pc' => some (.notify pc'))
  | .run, .await evaluated .getValue => some (s, some (.await evaluated (.lock s.counter.value)))
  | .run, .await evaluated (.lock observedTs) =>
    if s.locked then none
    else some ({ s with locked := true }, some (.await evaluated (.check observedTs)))
  | .run, .await _ (.check observedTs) =>
    some (s, some (.await s.notified (.checking observedTs)))
  | .checked lastResult, .await evaluated (.checking observedTs) =>
    some (s, some (.await evaluated (if lastResult then .leave else .unlock observedTs)))
  | .run, .await evaluated (.unlock observedTs) => some (s.beginWait evaluated observedTs)
  | .run, .await evaluated (.awaitNotEqual observedTs handler pc) =>
    (Watch.exec true s.counter 0 pc).map fun r =>
      ({ s with counter := r.1 },
        match r.2 with
        | .finish ret => afterAwaitNotEqual evaluated ret
        | pc' => some (.await evaluated (.awaitNotEqual observedTs handler pc')))
  | .run, .await _ .leave => some ({ s with locked := false }, none)
  | .run, .lock => if s.locked then none else some ({ s with locked := true }, some .holding)
  | .unlock, .holding => some ({ s with locked := false }, none)
  | _, _ => none

/-! ## The runtime -/

section

variable {Objs : Type}

def getWeakNotifySlotIndex (hash : Objs → Nat) (sh : Shared) (objs : Objs) : Nat :=
  hash objs % sh.slots.length

def atSlot (slot : Nat) : Option Party → Local
  | none => .idle
  | some p => .busy slot p

def step (hash : Objs → Nat) : Act Objs → Shared → Local → Option (Shared × Local)
  | .notify objs, sh, .idle =>
    some (sh, .busy (getWeakNotifySlotIndex hash sh objs) (.notify (.fetch .add 1)))
  | .awaitCondition objs, sh, .idle =>
    some (sh, .busy (getWeakNotifySlotIndex hash sh objs) (.await 0 .getValue))
  | .lock objs, sh, .idle => some (sh, .busy (getWeakNotifySlotIndex hash sh objs) .lock)
  | a, sh, .busy slot p =>
    (sh.slots[slot]?).bind fun s =>
      (p.step s a).map fun r => ({ slots := sh.slots.set slot r.1 }, atSlot slot r.2)
  | _, _, _ => none

def machine (hash : Objs → Nat) : Machine Shared Local (Act Objs) where
  step := step hash

def newSlot : WeakNotifySlot where
  counter := (Watch.initial 0 (0 : U64)).shared
  locked := false

/-- A runtime with `nSlots` slots and `n` threads. -/
def initial (nSlots n : Nat) : Conf Shared Local where
  shared := { slots := List.replicate nSlots newSlot }
  locals := List.replicate n .idle

end

end Batt.Runtime
