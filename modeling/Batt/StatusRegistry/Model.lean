/-
  The registry behind `Status` (batteries/status.hpp, batteries/status_impl.hpp).

  A `Status` is a number: the index of a group of codes, times the size of a group, plus the place
  of a code in its group. `register_codes` gives an enumeration its group, with one more entry for
  the values that are not among the registered ones; `register_error_category` registers the codes
  of a category of error codes in the same way and keeps their statuses in a global map, from which
  `status_from_error_category` fills a map of the calling thread.

  A check of the source that fails ends the process, and so does nothing here: the functions return
  an `Option`. `BATT_ASSERT` is off, except that a `Status` of a value outside of the numeric range
  of its group is not made (the source reads outside of a vector there). The difference of two
  values is computed without overflow. What the source takes from outside, the messages of `strerror`
  and of the categories, is in `Externals`; `!ec` of an error code is the one of a category that does
  not override `failed`.
-/
import Mathlib.Logic.Function.Basic
import Mathlib.Data.List.Basic
import Mathlib.Algebra.Ring.Int.Defs

namespace Batt.StatusRegistry

/-! ## Groups of codes -/

def kGroupSize : Nat := 4096

def kMaxGroups : Nat := 0x7fffff00 - kGroupSize

def kMaxGroupCount : Nat := 256

def kMaxCodeNumericRange : Int := 0xffff

structure CodeEntry where
  code : Nat
  enumValue : Int
  message : String
deriving DecidableEq, Repr

structure CodeGroup where
  index : Nat
  minEnumValue : Int
  enumValueToCode : List Nat
  entries : List CodeEntry
deriving DecidableEq, Repr

/-- The enumerations that are registered: the two that `StatusBase` registers, and others. -/
inductive EnumType (T : Type) where
  | statusCode
  | errnoValue
  | other (t : T)
deriving DecidableEq, Repr

abbrev Codes := List (Int × String)

def minEnumValue (codes : Codes) : Int :=
  codes.foldl (fun least c => min least c.1) (2 ^ 31 - 1)

def maxEnumValue (codes : Codes) : Int :=
  codes.foldl (fun greatest c => max greatest c.1) (- 2 ^ 31)

/-- The loop over the codes, from `nextCode` on. -/
def makeEntries (nextCode : Nat) : Codes → List CodeEntry
  | [] => []
  | (value, message) :: codes => ⟨nextCode, value, message⟩ :: makeEntries (nextCode + 1) codes

def unknownEnumValueMessage : String :=
  "(Unknown enum value; not registered via batt::Status::register_codes)"

/-- The table of codes: every value has the unknown code, and then the entries are written to it. -/
def makeTable (least : Int) (size : Nat) (unknown : Nat) (entries : List CodeEntry) : List Nat :=
  entries.foldl (fun table e => table.set (e.enumValue - least).toNat e.code)
    (List.replicate size unknown)

/-- The group that `register_codes_internal` builds. -/
def makeGroup (index : Nat) (codes : Codes) : CodeGroup :=
  let entries := makeEntries (index * kGroupSize) codes
  let nextCode := index * kGroupSize + codes.length
  { index := index
    minEnumValue := minEnumValue codes
    enumValueToCode :=
      makeTable (minEnumValue codes) (maxEnumValue codes - minEnumValue codes + 1).toNat nextCode entries
    entries := entries ++ [⟨nextCode, maxEnumValue codes + 1, unknownEnumValueMessage⟩] }

/-! ## Registration -/

structure Registry (T : Type) where
  nextIndex : Nat
  /-- The types whose `exactly_once` is initialized. -/
  exactlyOnce : List (EnumType T)
  /-- `code_group_for_type`; `none` is a group without entries. -/
  groups : EnumType T → Option CodeGroup
  /-- `registered_groups`: the type whose group is at an index. -/
  allGroups : Nat → Option (EnumType T)

variable {T C Thread : Type} [DecidableEq T] [DecidableEq C] [DecidableEq Thread]

def Registry.empty : Registry T :=
  { nextIndex := 0, exactlyOnce := [], groups := fun _ => none, allGroups := fun _ => none }

def registerCodesInternal (type : EnumType T) (codes : Codes) (r : Registry T) :
    Option (Registry T) :=
  if type ∈ r.exactlyOnce then some r
  else if kMaxGroupCount ≤ r.nextIndex then none
  else if kMaxGroups ≤ r.nextIndex then none
  else
    let r' := { r with nextIndex := r.nextIndex + 1, exactlyOnce := type :: r.exactlyOnce }
    if codes = [] then some r'
    else if kMaxCodeNumericRange < maxEnumValue codes - minEnumValue codes then none
    else if (r.groups type).isSome then none
    else
      some { r' with
        groups := Function.update r.groups type (some (makeGroup r.nextIndex codes))
        allGroups := Function.update r.allGroups r.nextIndex (some type) }

inductive Category (C : Type) where
  | misc
  | system
  | other (c : C)
deriving DecidableEq, Repr

structure Externals (C : Type) where
  strerror : Nat → Option String
  message : Category C → Int → String

def statusCodes : Codes :=
  [(0, "Ok"), (1, "Cancelled"), (2, "Unknown"), (3, "Invalid Argument"), (4, "Deadline Exceeded"),
    (5, "Not Found"), (6, "Already Exists"), (7, "Permission Denied"), (8, "Resource Exhausted"),
    (9, "Failed Precondition"), (10, "Aborted"), (11, "Out of Range"), (12, "Unimplemented"),
    (13, "Internal"), (14, "Unavailable"), (15, "Data Loss"), (16, "Unauthenticated"),
    (100, "Closed"), (101, "The requested grant count exceeds available count"),
    (102, "Loop break"), (103, "End of stream"),
    (104, "The stream was closed before the end of data"), (105, "The Grant was revoked")]

def errnoCodes (x : Externals C) : Codes :=
  (List.range kGroupSize).map fun code : Nat => ((code : Int), (x.strerror code).getD "(unknown)")

/-- The constructor of `StatusBase`, which runs before everything else. -/
def registerBase (x : Externals C) (r : Registry T) : Option (Registry T) :=
  (registerCodesInternal .statusCode statusCodes r).bind
    (registerCodesInternal .errnoValue (errnoCodes x))

def registerCodes (x : Externals C) (type : EnumType T) (codes : Codes) (r : Registry T) :
    Option (Registry T) :=
  (registerBase x r).bind (registerCodesInternal type codes)

/-! ## Statuses -/

/-- `Status(ForceLookup, enum_value)`: the code of the status. -/
def forceLookup (r : Registry T) (type : EnumType T) (value : Int) : Option Nat :=
  match r.groups type with
  | none => none
  | some group =>
    if value < group.minEnumValue then none
    else group.enumValueToCode[(value - group.minEnumValue).toNat]?

def getIndexOfGroup (code : Nat) : Nat := code / kGroupSize

def getIndexWithinGroup (code : Nat) : Nat := code % kGroupSize

/-- `Status::ok`. -/
def isOk (code : Nat) : Bool := getIndexWithinGroup code = 0

/-- An entry by where it is: the group of a type and a place in it. -/
structure EntryRef (T : Type) where
  type : EnumType T
  place : Nat
  entry : CodeEntry
deriving DecidableEq, Repr

/-- `get_entry_from_code`; `none` where a check fails or the pointer to the group is null. -/
def getEntryFromCode (r : Registry T) (code : Nat) : Option (EntryRef T) :=
  if kMaxGroupCount ≤ getIndexOfGroup code then none
  else
    match r.allGroups (getIndexOfGroup code) with
    | none => none
    | some type =>
      match r.groups type with
      | none => none
      | some group =>
        match group.entries[getIndexWithinGroup code]? with
        | none => none
        | some entry => some ⟨type, getIndexWithinGroup code, entry⟩

/-! ## Categories of error codes -/

/-- `unordered_map<int, Status>`. -/
abbrev CategoryMap := List (Int × Nat)

/-- `unordered_map<const error_category*, const unordered_map<int, Status>>`. -/
abbrev CategoryCache (C : Type) := Category C → Option CategoryMap

/-- `emplace` keeps what is there. -/
def emplace (cache : CategoryCache C) (category : Category C) (m : CategoryMap) : CategoryCache C :=
  if (cache category).isSome then cache else Function.update cache category (some m)

structure State (T C Thread : Type) where
  registry : Registry T
  /-- The types whose `result_` in `register_error_category` is initialized. -/
  categoryTypes : List (EnumType T)
  globalCache : CategoryCache C
  threadCache : Thread → CategoryCache C

def registerErrorCategory (x : Externals C) (type : EnumType T) (category : Category C)
    (codes : List Int) (s : State T C Thread) : Option (State T C Thread) :=
  if type ∈ s.categoryTypes then some s
  else
    (registerCodes x type (codes.map fun code => (code, x.message category code)) s.registry).bind
      fun registry =>
        (codes.mapM fun code => (forceLookup registry type code).map fun status => (code, status)).map
          fun categoryMap =>
            { s with
              registry := registry
              categoryTypes := type :: s.categoryTypes
              globalCache := emplace s.globalCache category categoryMap }

/-- How a conversion ends: with a status, or at a lock of the mutex that its own thread holds. -/
inductive Outcome where
  | returned (status : Nat)
  | relock
deriving DecidableEq, Repr

/-! The codes of three statuses of the group that is registered first. -/

def kOk : Nat := 0

def kUnknown : Nat := 2

def kNotFound : Nat := 5

def kEndOfStream : Nat := 20

/-- `held` says that the caller holds the mutex of the global map. -/
def statusFromErrorCategory (globalCache : CategoryCache C) (held : Bool)
    (threadCache : CategoryCache C) (category : Category C) (code : Int) :
    Outcome × CategoryCache C :=
  match (threadCache category).bind (List.lookup code) with
  | some status => (.returned status, threadCache)
  | none =>
    if _h : held then (.relock, threadCache)
    else
      match globalCache category with
      | none => (.returned kUnknown, threadCache)
      | some m =>
        statusFromErrorCategory globalCache true (emplace threadCache category m) category code
termination_by if held then 0 else 1
decreasing_by simp [_h]

/-- The values of the system category that `to_status` knows, with their `errno` (on Linux they are
the same numbers). -/
def systemErrors : List (Int × Nat) :=
  [(13, 13), (97, 97), (98, 98), (106, 106), (114, 114), (32, 32), (103, 103), (111, 111),
    (104, 104), (9, 9), (14, 14), (113, 113), (115, 115), (4, 4), (22, 22), (90, 90), (36, 36),
    (100, 100), (102, 102), (101, 101), (24, 24), (105, 105), (12, 12), (1, 1), (92, 92), (19, 19),
    (107, 107), (88, 88), (125, 125), (95, 95), (108, 108), (110, 110), (11, 11)]

/-- `status_from_errno`, in the group that is registered second. -/
def statusFromErrno (code : Nat) : Nat := kGroupSize + code

/-- `boost::system::error_code`. -/
structure ErrorCode (C : Type) where
  category : Category C
  value : Int
deriving DecidableEq, Repr

/-- The values of the two categories of asio that have a status of their own. -/
def knownStatus (ec : ErrorCode C) : Option Nat :=
  match ec.category with
  | .misc =>
    if ec.value = 2 then some kEndOfStream else if ec.value = 3 then some kNotFound else none
  | .system => (systemErrors.lookup ec.value).map statusFromErrno
  | .other _ => none

def toStatus (globalCache threadCache : CategoryCache C) (ec : ErrorCode C) :
    Outcome × CategoryCache C :=
  if ec.value = 0 then (.returned kOk, threadCache)
  else
    match knownStatus ec with
    | some status => (.returned status, threadCache)
    | none => statusFromErrorCategory globalCache false threadCache ec.category ec.value

/-! ## Runs -/

inductive Event (T C Thread : Type) where
  | registerCodes (type : EnumType T) (codes : Codes)
  | registerErrorCategory (type : EnumType T) (category : Category C) (codes : List Int)
  | convert (thread : Thread) (category : Category C) (code : Int)

/-- A call that returns. -/
def step (x : Externals C) (s : State T C Thread) : Event T C Thread → Option (State T C Thread)
  | .registerCodes type codes =>
    (registerCodes x type codes s.registry).map fun registry => { s with registry := registry }
  | .registerErrorCategory type category codes => registerErrorCategory x type category codes s
  | .convert thread category code =>
    match statusFromErrorCategory s.globalCache false (s.threadCache thread) category code with
    | (.relock, _) => none
    | (.returned _, cache) =>
      some { s with threadCache := Function.update s.threadCache thread cache }

/-- The state when the first `Status` is made. -/
def start (x : Externals C) : Option (State T C Thread) :=
  (registerBase x Registry.empty).map fun registry =>
    { registry := registry, categoryTypes := [], globalCache := fun _ => none
      threadCache := fun _ _ => none }

def run (x : Externals C) (events : List (Event T C Thread)) : Option (State T C Thread) :=
  (start x).bind fun s => events.foldlM (step x) s

end Batt.StatusRegistry
