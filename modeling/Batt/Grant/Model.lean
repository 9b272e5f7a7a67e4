/-
  `batt::Grant` and `batt::Grant::Issuer` (`async/grant_decl.hpp`, `async/grant_impl.hpp`).

  One `Issuer` and the grants taken from it, used by any number of tasks. A task is in one
  member function at a time; every access to a `Watch<u64>` (`available_`, a grant's
  `size_`) and to `total_size_` is one step, so `modify_if` is a load and a
  compare-exchange that may fail and be retried. `notify` does not change the value of a
  watch and has no step here.

  `await_not_equal` blocks until the watch is closed or a mutator hands its value over. Which
  value that is, and that it may be out of date by the time the task runs, is left to the
  schedule (`Act.woken`).

  Grants are numbered in the order they are constructed. A grant returned through
  `StatusOr<Grant>` may be moved on the way; such a move and the destruction of what is left
  behind are calls like any others. `issuer` is whether `issuer_` is not null: a move clears
  it. Where a `BATT_CHECK` fails the program ends, so the model has no step there;
  `debug` says whether `BATT_ASSERT` is compiled in. `swap` is not part of this model.

  A grant must not be moved or destroyed while another call on it is running, and no call may
  be made on a grant that is gone: `admits` is this promise of the callers.
-/
import Batt.Lib.Interleave
import Batt.Status

namespace Batt.Grant

open Interleave

/-! ## The pool and the grants -/

structure GrantState where
  issuer : Bool
  size : UInt64
  closed : Bool
  alive : Bool
  deriving DecidableEq, Repr

structure Shared where
  available : UInt64
  availableClosed : Bool
  totalSize : UInt64
  grants : List GrantState
  /-- Sum of the counts passed to `grow`; no step reads it. -/
  grown : Nat

/-- The watch a transfer takes its units from. -/
inductive Source where
  | available
  | grant (g : Nat)
  deriving DecidableEq, Repr

def Shared.get (sh : Shared) : Source → Option UInt64
  | .available => some sh.available
  | .grant g => (sh.grants[g]?).map (·.size)

def Shared.isClosed (sh : Shared) : Source → Option Bool
  | .available => some sh.availableClosed
  | .grant g => (sh.grants[g]?).map (·.closed)

def Shared.setSize (sh : Shared) (g : Nat) (size : UInt64) : Shared :=
  { sh with grants := sh.grants.modify g fun gr => { gr with size := size } }

def Shared.set (sh : Shared) : Source → UInt64 → Shared
  | .available, v => { sh with available := v }
  | .grant g, v => sh.setSize g v

/-- A constructor of `Grant` runs. -/
def Shared.construct (sh : Shared) (issuer : Bool) (size : UInt64) : Shared :=
  { sh with grants := sh.grants ++ [{ issuer := issuer, size := size, closed := false, alive := true }] }

def Shared.alive (sh : Shared) (g : Nat) : Bool := (sh.grants[g]?).any (·.alive)

def Shared.hasIssuer (sh : Shared) (g : Nat) : Bool := (sh.grants[g]?).any (·.issuer)

/-- The check in `~Issuer`. -/
def Shared.issuerDtorCheck (sh : Shared) : Bool := sh.totalSize == sh.available

/-! ## Calls -/

inductive Op where
  | issueGrant (count : UInt64) (waitForResource : Bool)
  | spend (g : Nat) (count : UInt64) (waitForResource : Bool)
  | spendAll (g : Nat)
  | revoke (g : Nat)
  | subsume (this that : Nat)
  | move (g : Nat)
  | destroy (g : Nat)
  | grow (count : UInt64)
  | close
  deriving DecidableEq, Repr

/-- The grants a call is made on. -/
def Op.grants : Op → List Nat
  | .spend g _ _ | .spendAll g | .revoke g | .move g | .destroy g => [g]
  | .subsume this that => [this, that]
  | .issueGrant _ _ | .grow _ | .close => []

/-- The grant that the call must have for itself. -/
def Op.exclusive : Op → Option Nat
  | .move g | .destroy g => some g
  | _ => none

inductive Ret where
  | unit
  | count (n : UInt64)
  | grant (g : Nat)
  | status (code : StatusCode)
  deriving DecidableEq, Repr

/-- The callers of `spend_all`: the user, `revoke`, and `revoke` in `~Grant`. -/
inductive Caller where
  | user
  | revoke
  | destroy
  deriving DecidableEq, Repr

/-- The callers of `recycle`. -/
inductive Recycler where
  | grow
  | spendAll (g : Nat) (caller : Caller)
  deriving DecidableEq, Repr

inductive Pc where
  | modifyIfLoad (source : Source) (count : UInt64) (wait : Bool)
  | modifyIfCas (source : Source) (count : UInt64) (wait : Bool) (observed : UInt64)
  | isClosed (source : Source)
  | awaitTrue (source : Source) (count : UInt64)
  | awaitNotEqual (source : Source) (count : UInt64)
  | makeGrant (count : UInt64)
  | setZero (g : Nat) (caller : Caller)
  | recycle (count : UInt64) (k : Recycler)
  | closeSize (g : Nat) (caller : Caller)
  | endLife (g : Nat)
  | subsumeTake (this that : Nat)
  | subsumeAdd (this : Nat) (count : UInt64)
  | moveTake (g : Nat)
  | moveMake (issuer : Bool) (size : UInt64)
  | growTotal (count : UInt64)
  | closeAvailable
  | finish (ret : Ret)
  deriving DecidableEq, Repr

inductive Local where
  | idle
  | running (pc : Pc)
  deriving DecidableEq, Repr

inductive Act where
  | call (op : Op)
  | run
  | spurious
  | woken (v : UInt64)

/-! ## Steps -/

/-- What follows `spend_all`, which returned `previousSize`. -/
def afterSpendAll (g : Nat) (previousSize : UInt64) : Caller → Pc
  | .user => .finish (.count previousSize)
  | caller => .closeSize g caller

/-- `spend_all` looks at `issuer_` first. -/
def beginSpendAll (sh : Shared) (g : Nat) (caller : Caller) : Pc :=
  if sh.hasIssuer g then .setZero g caller else afterSpendAll g 0 caller

/-- What a call does before its first access to a watch. -/
def begin (sh : Shared) : Op → Option Pc
  | .issueGrant count wait => some (.modifyIfLoad .available count wait)
  | .spend g count wait =>
    if sh.hasIssuer g then some (.modifyIfLoad (.grant g) count wait)
    else some (.finish (.status .kFailedPrecondition))
  | .spendAll g => some (beginSpendAll sh g .user)
  | .revoke g => some (beginSpendAll sh g .revoke)
  | .destroy g => some (beginSpendAll sh g .destroy)
  | .subsume this that =>
    if sh.hasIssuer that then
      -- `BATT_CHECK_NOT_NULLPTR(this->issuer_)`; with one issuer the pointers are then equal.
      if sh.hasIssuer this then some (.subsumeTake this that) else none
    else some (.finish .unit)
  | .move g => some (.moveTake g)
  | .grow count => some (.growTotal count)
  | .close => some .closeAvailable

/-- The next access of a call. `weak` is false where `compare_exchange_weak` fails although
    the value matches. -/
def exec (debug weak : Bool) (sh : Shared) : Pc → Option (Shared × Pc)
  | .modifyIfLoad source count wait =>
    (sh.get source).map fun observed => (sh, .modifyIfCas source count wait observed)
  | .modifyIfCas source count wait observed =>
    if observed ≥ count then
      (sh.get source).map fun value =>
        if weak ∧ value = observed then (sh.set source (observed - count), .makeGrant count)
        else (sh, .modifyIfCas source count wait value)
    else if wait then some (sh, .awaitTrue source count)
    else some (sh, .isClosed source)
  | .isClosed source =>
    (sh.isClosed source).map fun closed =>
      (sh, .finish (.status (if closed then .kGrantRevoked else .kGrantUnavailable)))
  | .awaitTrue source count =>
    (sh.get source).map fun lastSeen =>
      (sh, if lastSeen ≥ count then .modifyIfLoad source count true
        else .awaitNotEqual source count)
  | .awaitNotEqual source _ =>
    (sh.isClosed source).bind fun closed =>
      if closed then some (sh, .finish (.status .kClosed)) else none
  | .makeGrant count => some (sh.construct true count, .finish (.grant sh.grants.length))
  | .setZero g caller =>
    (sh.get (.grant g)).map fun previousSize =>
      (sh.setSize g 0, .recycle previousSize (.spendAll g caller))
  | .recycle count k =>
    some ({ sh with available := sh.available + count },
      match k with
      | .grow => .finish .unit
      | .spendAll g caller => afterSpendAll g count caller)
  | .closeSize g caller =>
    some ({ sh with grants := sh.grants.modify g fun gr => { gr with closed := true } },
      if caller = .destroy then .endLife g else .finish .unit)
  | .endLife g =>
    some ({ sh with grants := sh.grants.modify g fun gr => { gr with alive := false } },
      .finish .unit)
  | .subsumeTake this that =>
    (sh.get (.grant that)).map fun count => (sh.setSize that 0, .subsumeAdd this count)
  | .subsumeAdd this count =>
    (sh.get (.grant this)).map fun size => (sh.setSize this (size + count), .finish .unit)
  | .moveTake g =>
    (sh.get (.grant g)).map fun size =>
      ({ sh with grants := sh.grants.modify g fun gr => { gr with issuer := false, size := 0 } },
        .moveMake (sh.hasIssuer g) size)
  | .moveMake issuer size =>
    some (sh.construct issuer size, .finish (.grant sh.grants.length))
  | .growTotal count =>
    let newSize := sh.totalSize + count
    if debug ∧ ¬ newSize > sh.totalSize then none
    else some ({ sh with totalSize := newSize, grown := sh.grown + count.toNat },
      .recycle count .grow)
  | .closeAvailable => some ({ sh with availableClosed := true }, .finish .unit)
  | .finish _ => none

def step (debug : Bool) : Act → Shared → Local → Option (Shared × Local)
  | .call op, sh, .idle => (begin sh op).map fun pc => (sh, .running pc)
  | .run, sh, .running (.finish _) => some (sh, .idle)
  | .run, sh, .running pc => (exec debug true sh pc).map fun r => (r.1, .running r.2)
  | .spurious, sh, .running (.modifyIfCas source count wait observed) =>
    (exec debug false sh (.modifyIfCas source count wait observed)).map fun r =>
      (r.1, .running r.2)
  | .woken v, sh, .running (.awaitNotEqual source count) =>
    some (sh, .running (if v ≥ count then .modifyIfLoad source count true
      else .awaitNotEqual source count))
  | _, _, _ => none

/-! ## What the callers promise -/

def Source.grants : Source → List Nat
  | .available => []
  | .grant g => [g]

/-- The grants a call still has accesses to make to. -/
def Pc.uses : Pc → List Nat
  | .modifyIfLoad source _ _ | .modifyIfCas source _ _ _ | .isClosed source
  | .awaitTrue source _ | .awaitNotEqual source _ => source.grants
  | .setZero g _ | .recycle _ (.spendAll g _) | .closeSize g _ | .endLife g | .moveTake g => [g]
  | .subsumeTake this that => [this, that]
  | .subsumeAdd this _ => [this]
  | _ => []

/-- The grant that a running move or destructor has for itself. -/
def Pc.exclusive : Pc → Option Nat
  | .setZero g .destroy | .recycle _ (.spendAll g .destroy) | .closeSize g .destroy
  | .endLife g | .moveTake g => some g
  | _ => none

def Local.uses : Local → List Nat
  | .idle => []
  | .running pc => pc.uses

def Local.exclusive : Local → Option Nat
  | .idle => none
  | .running pc => pc.exclusive

/-- A call is made on grants that exist; it is not concurrent with a move or destruction of
    one of them, and a move or destruction not with any call on its grant. -/
def admits : Act → Shared → List Local → Local → Bool
  | .call op, sh, ls, _ =>
    op.grants.all (fun g => sh.alive g && ls.all fun l => l.exclusive ≠ some g) &&
      (match op.exclusive with
       | some g => ls.all fun l => !l.uses.contains g
       | none => true)
  | _, _, _, _ => true

def machine (debug : Bool) : Machine Shared Local Act where
  step := step debug
  admits := admits

/-- A new issuer with `initialCount` units and `n` tasks. -/
def initial (n : Nat) (initialCount : UInt64) : Conf Shared Local where
  shared :=
    { available := initialCount, availableClosed := false, totalSize := initialCount,
      grants := [], grown := 0 }
  locals := List.replicate n .idle

end Batt.Grant
