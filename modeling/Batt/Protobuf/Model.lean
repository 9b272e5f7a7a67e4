/-
  `batt::StreamBufferInputStream` and `batt::StreamBufferOutputStream`
  (`protobuf/stream_buffer_input_stream.hpp`, `stream_buffer_output_stream.hpp`): the zero-copy
  streams of protobuf over a `StreamBuffer`.

  The two classes are one: the input stream has `consume`, `fetch_at_least` and `n_to_consume_`
  where the output stream has `commit`, `prepare_at_least` and `n_to_commit_`, and which of the two
  it is follows from the side of the buffer its thread is on. Only the input stream has `Skip`.

  A thread of the machine is a side of the `StreamBuffer` with at most one such object. Without one
  it makes the calls of `StreamBuffer` as it likes, so what the object finds, and what the other
  side does meanwhile, is anything at all. While a call of the object is under way, its calls of
  the `StreamBuffer` are made step by step.

  A buffer whose size is no `int`, signed overflow of a count and a failed `BATT_CHECK` end the
  program: there is no step. `start`, `goal`, `done` and `page` are for the statements, and no step
  reads them: where the buffer was when the object was made, the `ByteCount()` that a `Skip` is to
  end with, the bytes of the buffers `Next` has returned before, less those backed up, and those of
  the last one. In an output stream the bytes of a buffer are what its user has put there.
-/
import Batt.StreamBuffer.Fifo

namespace Batt.Protobuf

open Interleave CellRing StreamBuffer

/-! ## The object -/

/-- What a call wants from `consume_data()` and from the buffer it gets. -/
inductive Purpose where
  | next
  /-- The loop of `Skip`, with so many bytes to go. -/
  | skip (count : Int)
  | destroy
  deriving DecidableEq, Repr

inductive Ret where
  | constructed
  | next (buffer : Option Buffer)
  | backedUp
  | skipped (ok : Bool)
  deriving DecidableEq, Repr

inductive Pc where
  /-- No call is under way; what the last one returned. -/
  | returned (ret : Ret)
  /-- At the beginning of `consume_data()` or `commit_data()`. -/
  | release (purpose : Purpose)
  | releasing (purpose : Purpose)
  /-- In `fetch_next()` or `prepare_next()`, past that. -/
  | pull (purpose : Purpose)
  | pulling (purpose : Purpose)
  | destroyed
  deriving DecidableEq, Repr

structure ZeroCopy where
  byteCount : Int
  /-- `n_to_consume_` or `n_to_commit_`. -/
  n : Int
  pc : Pc
  start : Int
  goal : Int
  done : List UInt8
  page : List UInt8
  deriving DecidableEq, Repr

/-- `consume(n)` of an input stream, `commit(n)` of an output stream. -/
def hand : Side → Int → Op
  | .consumer, n => .consume n
  | .producer, n => .commit n

/-- `fetch_at_least(1)` of an input stream, `prepare_at_least(1)` of an output stream. -/
def atLeastOne : Side → Transfer
  | .consumer => .fetchAtLeast 1
  | .producer => .prepareAtLeast 1

def fitsInt (n : Int) : Bool := -2147483648 ≤ n && n ≤ 2147483647

namespace ZeroCopy

/-- The constructor. -/
def construct (pos : Int) : ZeroCopy :=
  { byteCount := 0, n := 0, pc := .returned .constructed, start := pos, goal := 0, done := [],
    page := [] }

/-- `BackUp(count)`. -/
def backUp (z : ZeroCopy) (count : Int) : Option ZeroCopy :=
  if count ≤ z.n then
    some { z with
      n := z.n - count, byteCount := z.byteCount - count,
      page := z.page.take (z.n - count).toNat }
  else none

/-- The loop of `Skip`. -/
def skipLoop (z : ZeroCopy) (count : Int) : ZeroCopy :=
  { z with pc := if count > 0 then .release (.skip count) else .returned (.skipped true) }

/-- What `Next` and the body of the loop of `Skip` do with a buffer. -/
def take (z : ZeroCopy) (next : Buffer) : Purpose → Option ZeroCopy
  | .next => some { z with pc := .returned (.next (some next)) }
  | .skip count =>
    if next.size = 0 then some { z with pc := .returned (.skipped false) }
    else if next.size > count then
      (z.backUp (next.size - count)).map fun z => z.skipLoop 0
    else some (z.skipLoop (count - next.size))
  | .destroy => none

/-- The end of `fetch_next()` or `prepare_next()`, and what its caller does then. -/
def pulled (z : ZeroCopy) (mem : Nat → UInt8) (purpose : Purpose) : StreamBuffer.Ret → Option ZeroCopy
  | .buffers _ (next :: _) =>
    if fitsInt next.size && inI64 (z.byteCount + next.size) then
      take { z with
        n := next.size, byteCount := z.byteCount + next.size,
        page := next.cells.map (Cell.read mem) } next purpose
    else none
  | .buffers _ [] => none
  | _ =>
    match purpose with
    | .next => some { z with pc := .returned (.next none) }
    | .skip _ => some { z with pc := .returned (.skipped false) }
    | .destroy => none

/-- `consume_data()` or `commit_data()` is over. -/
def released (z : ZeroCopy) : Purpose → ZeroCopy
  | .destroy => { z with pc := .destroyed }
  | purpose => { z with pc := .pull purpose }

end ZeroCopy

/-! ## Threads -/

structure Thread where
  io : Local
  stream : Option ZeroCopy

inductive Call where
  | next
  | backUp (count : Int)
  | skip (count : Int)
  | destroy
  /-- The user of an output stream puts a byte into the buffer `Next` has returned. -/
  | write (index : Nat) (byte : UInt8)
  deriving DecidableEq, Repr

inductive Act where
  /-- A step of a side that has no zero-copy stream. -/
  | raw (a : StreamBuffer.Act)
  | construct
  | call (op : Call)
  | run
  | woken (v : Int)
  /-- The object is gone. -/
  | leave

def begin (sh : Shared) (io : Local) (z : ZeroCopy) : Call → Option (Shared × ZeroCopy)
  | .next => some (sh, { z with pc := .release .next })
  | .backUp count => (z.backUp count).map fun z => (sh, { z with pc := .returned .backedUp })
  | .skip count => some (sh, { z with goal := z.byteCount + max count 0 }.skipLoop count)
  | .destroy => some (sh, { z with pc := .release .destroy })
  | .write index byte =>
    some (access sh io.region (.write index byte), { z with page := z.page.set index byte })

/-- The next step of a call. -/
def exec (sh : Shared) (io : Local) (z : ZeroCopy) : Option (Shared × Local × ZeroCopy) :=
  match z.pc with
  | .release purpose =>
    if z.n > 0 then
      (StreamBuffer.step (.call (hand io.side z.n)) sh io).map fun r =>
        (r.1, r.2, { z with
          pc := .releasing purpose, n := 0, done := z.done ++ z.page, page := [] })
    else some (sh, io, z.released purpose)
  | .releasing purpose =>
    (StreamBuffer.step .run sh io).map fun r =>
      (r.1, r.2, if r.2.pc = .idle then z.released purpose else z)
  | .pull purpose =>
    (StreamBuffer.step (.call (.transfer (atLeastOne io.side))) sh io).map fun r =>
      (r.1, r.2, { z with pc := .pulling purpose })
  | .pulling purpose =>
    (StreamBuffer.step .run sh io).bind fun r =>
      match io.pc with
      | .finish ret => (z.pulled sh.mem purpose ret).map fun z => (r.1, r.2, z)
      | _ => some (r.1, r.2, z)
  | .returned _ | .destroyed => none

def step : Act → Shared → Thread → Option (Shared × Thread)
  | .raw a, sh, l =>
    match l.stream with
    | none => (StreamBuffer.step a sh l.io).map fun r => (r.1, { l with io := r.2 })
    | some _ => none
  | .construct, sh, l =>
    match l.stream with
    | none =>
      if l.io.pc = .idle then
        some (sh, { l with stream := some (.construct (sh.fixedPos l.io.side).value) })
      else none
    | some _ => none
  | .call op, sh, l =>
    match l.stream with
    | some z =>
      match z.pc with
      | .returned _ => (begin sh l.io z op).map fun r => (r.1, { l with stream := some r.2 })
      | _ => none
    | none => none
  | .run, sh, l =>
    match l.stream with
    | some z => (exec sh l.io z).map fun r => (r.1, { io := r.2.1, stream := some r.2.2 })
    | none => none
  | .woken v, sh, l =>
    match l.stream with
    | some z => (StreamBuffer.step (.woken v) sh l.io).map fun r => (r.1, ⟨r.2, some z⟩)
    | none => none
  | .leave, sh, l =>
    match l.stream with
    | some z => if z.pc = .destroyed then some (sh, { l with stream := none }) else none
    | none => none

/-- What the callers keep to: `Skip` is for an input stream, bytes are put into the buffer of an
    output stream where they are not backed up, and `BackUp(count)` comes directly after a `Next`,
    with a `count` of at most the size that one returned. -/
def admits : Act → Shared → List Thread → Thread → Bool
  | .raw a, sh, ls, l => StreamBuffer.admits a sh (ls.map Thread.io) l.io
  | .call (.backUp count), _, _, l =>
    match l.stream with
    | some { pc := .returned (.next (some next)), .. } => 0 ≤ count && count ≤ next.size
    | _ => false
  | .call (.skip _), _, _, l => l.io.side = .consumer
  | .call (.write index _), _, _, l =>
    l.io.side = .producer && l.stream.any fun z => (index : Int) < z.n
  | _, _, _, _ => true

def machine : Machine Shared Thread Act where
  step := step
  admits := admits

/-- A `StreamBuffer` and its two sides. -/
def construct (capacity : Nat) (mem : Nat → UInt8) : Option (Conf Shared Thread) :=
  (StreamBuffer.construct capacity mem).map fun c =>
    { shared := c.shared, locals := c.locals.map fun io => { io := io, stream := none } }

end Batt.Protobuf
