/-
  `batt::StreamBuffer` (`async/stream_buffer.hpp`, `stream_buffer_impl.hpp`,
  `stream_buffer.ipp`) with one producer and one consumer.

  Positions are `i64` watches: `consume_pos_` and `commit_pos_`. Every access to one of them is
  a step. `pre_transfer` is one function for both sides, as in the source: `fixed_pos` is the
  position of the side that calls it and `moving_pos` that of the other. Where `size()` or the
  call of `get_buffers` reads both positions, C++ leaves the order open; one of the two is the
  caller's own and does not move meanwhile, so one order stands for both.

  `await_true` blocks until the watch is closed or a mutator hands over a value the watch has
  held (`Watch.past`); which one, and how late, is up to the schedule (`Act.woken`).

  `async_prepare_at_least` waits with a handler that tries again. The handler may run in the
  consumer's thread, inside its `consume`; it is still the producer's operation and its
  accesses are steps of the producer here.

  Signed overflow of a position, a failed `BATT_CHECK` or checked cast and `% 0` end the
  program: there is no step. `mem` is the array `buffer_`; what `new u8[capacity]` holds at
  first is arbitrary. `committed` and `consumed` record the bytes that `commit` and `consume`
  passed over and no step reads them.
-/
import Batt.Lib.Interleave
import Batt.Lib.Ring
import Batt.Status

namespace Batt.StreamBuffer

open Interleave CellRing

/-! ## The buffer -/

/-- A `Watch<i64>`: its value, the values before it, and whether it is closed. -/
structure Watch where
  value : Int
  past : List Int
  closed : Bool

def Watch.held (w : Watch) : List Int := w.value :: w.past

def Watch.add (w : Watch) (count : Int) : Watch :=
  { w with value := w.value + count, past := w.value :: w.past }

structure Shared where
  capacity : Nat
  mem : Nat → UInt8
  consumePos : Watch
  commitPos : Watch
  committed : List UInt8
  consumed : List UInt8

def inI64 (n : Int) : Bool := -9223372036854775808 ≤ n && n ≤ 9223372036854775807

/-- A `MutableBuffer` or `ConstBuffer`: a piece of `buffer_`, or a copy in `tmp_buffer_`. -/
inductive Buffer where
  | ring (begin len : Nat)
  | tmp (bytes : List UInt8)
  deriving DecidableEq, Repr

def Buffer.size : Buffer → Nat
  | .ring _ len => len
  | .tmp bytes => bytes.length

/-- One byte of a buffer: where it is, or what it is. -/
inductive Cell where
  | ring (address : Nat)
  | tmp (byte : UInt8)
  deriving DecidableEq, Repr

def Buffer.cells : Buffer → List Cell
  | .ring begin len => (List.range' begin len).map .ring
  | .tmp bytes => bytes.map .tmp

def Cell.read (mem : Nat → UInt8) : Cell → UInt8
  | .ring address => mem address
  | .tmp byte => byte

def Cell.address? : Cell → Option Nat
  | .ring address => some address
  | .tmp _ => none

def cells (buffers : List Buffer) : List Cell := buffers.flatMap Buffer.cells

def getBuffers (capacity : Nat) (offset count : Int) : Option (List Buffer) :=
  if offset < 0 then none
  else if capacity = 0 then none
  else
    let firstBegin := offset.toNat % capacity
    let firstToEnd : Int := (capacity - firstBegin : Nat)
    if count ≤ firstToEnd then
      if count < 0 then none else some [.ring firstBegin count.toNat]
    else some [.ring firstBegin firstToEnd.toNat, .ring 0 (count - firstToEnd).toNat]

/-- `fetch_at_least` after `pre_transfer`: the first buffer is to have `min_count` bytes. -/
def gather (mem : Nat → UInt8) (minCount : Nat) : List Buffer → Option (List Buffer)
  | [front, .ring begin len] =>
    if front.size < minCount then
      let copied := ((cells [front, .ring begin len]).map (Cell.read mem)).take minCount
      if copied.length = minCount then
        -- `back() += n` moves by at most the size of the buffer.
        let n := min (minCount - front.size) len
        some (.tmp copied :: if len - n = 0 then [] else [.ring (begin + n) (len - n)])
      else none
    else some [front, .ring begin len]
  | buffers => some buffers

/-! ## Calls -/

inductive Side where
  | producer
  | consumer
  deriving DecidableEq, Repr

/-- The callers of `pre_transfer`. For `write_all`, the bytes still to be written. -/
inductive Transfer where
  | prepareExactly (exactCount : Int)
  | prepareAtLeast (minCount : Int)
  | asyncPrepareAtLeast (minCount : Int)
  | writeAll (buffer : List UInt8)
  | fetchAtLeast (minCount : Int)
  deriving DecidableEq, Repr

def Transfer.side : Transfer → Side
  | .fetchAtLeast _ => .consumer
  | _ => .producer

def Transfer.minCount : Transfer → Int
  | .prepareExactly n | .prepareAtLeast n | .asyncPrepareAtLeast n | .fetchAtLeast n => n
  | .writeAll _ => 1

/-- `min_count - this->capacity()` is computed in `usize` and passed as `i64`. -/
def Transfer.minDelta (capacity : Nat) (t : Transfer) : Int :=
  match t.side with
  | .consumer => t.minCount
  | .producer => Int.bmod (t.minCount - capacity) (2 ^ 64)

inductive Op where
  | transfer (t : Transfer)
  | commit (count : Int)
  | consume (count : Int)
  /-- The producer writes a byte into a buffer that was prepared for it. -/
  | write (index : Nat) (byte : UInt8)
  | closeForWrite
  | closeForRead
  deriving DecidableEq, Repr

inductive Ret where
  | unit
  | buffers (t : Transfer) (buffers : List Buffer)
  | status (code : StatusCode)
  | brokenPipe
  | invalidArgument
  deriving DecidableEq, Repr

inductive Pc where
  | idle
  | minTarget (t : Transfer)
  | awaitTrue (t : Transfer) (minTarget : Int)
  | awaitNotEqual (t : Transfer) (minTarget : Int)
  | recheck (t : Transfer) (minTarget : Int)
  | observe (t : Transfer) (minTarget : Int)
  | asyncWait (t : Transfer)
  | offset (t : Transfer)
  | sizeCommit (t : Transfer) (offset : Int)
  | sizeConsume (t : Transfer) (offset commitPos : Int)
  | bufferCopy (prepared : List Buffer) (buffer : List UInt8)
  | commitAdd (count : Int) (buffer : Option (List UInt8))
  | consumeAdd (count : Int)
  | finish (ret : Ret)
  deriving DecidableEq, Repr

/-- `region` is what the side may touch: the bytes prepared and not committed yet, or fetched
    and not consumed yet. -/
structure Local where
  side : Side
  pc : Pc
  region : List Cell
  deriving DecidableEq, Repr

inductive Act where
  | call (op : Op)
  | run
  | woken (v : Int)

def Shared.fixedPos (sh : Shared) : Side → Watch
  | .producer => sh.commitPos
  | .consumer => sh.consumePos

def Shared.movingPos (sh : Shared) : Side → Watch
  | .producer => sh.consumePos
  | .consumer => sh.commitPos

/-- What `moving_pos` is closed with. -/
def closeStatus : Side → StatusCode
  | .producer => .kClosed
  | .consumer => .kEndOfStream

/-! ## Steps -/

/-- The regions handed out since the last commit start at the same byte: the longest holds
    the others. -/
def longer (xs ys : List Cell) : List Cell := if xs.length ≤ ys.length then ys else xs

/-- `pre_transfer` refuses a `min_count` above the capacity. -/
def refused : Transfer → Ret
  | .asyncPrepareAtLeast _ => .invalidArgument
  | _ => .status .kInvalidArgument

/-- The loop of `write_all`. -/
def writeAllLoop : List UInt8 → Pc
  | [] => .finish (.status .kOk)
  | buffer => .minTarget (.writeAll buffer)

/-- First access of a call. -/
def begin : Op → Option Pc
  | .transfer (.writeAll buffer) => some (writeAllLoop buffer)
  | .transfer (.fetchAtLeast minCount) =>
    -- `BATT_CHECKED_CAST(usize, min_count)`
    if minCount < 0 then none else some (.minTarget (.fetchAtLeast minCount))
  | .transfer t => some (.minTarget t)
  | .commit count => some (.commitAdd count none)
  | .consume count => some (.consumeAdd count)
  | .write _ _ | .closeForWrite | .closeForRead => some (.finish .unit)

/-- The access `begin` leaves to the calls that make one only. -/
def access (sh : Shared) (region : List Cell) : Op → Shared
  | .write index byte =>
    match (region[index]?).bind Cell.address? with
    | some address => { sh with mem := Function.update sh.mem address byte }
    | none => sh
  | .closeForWrite => { sh with commitPos := { sh.commitPos with closed := true } }
  | .closeForRead => { sh with consumePos := { sh.consumePos with closed := true } }
  | _ => sh

/-- The buffers `pre_transfer` returned, to the caller of it. -/
def deliver (sh : Shared) (region : List Cell) (buffers : List Buffer) :
    Transfer → Option (Pc × List Cell)
  | .writeAll buffer => some (.bufferCopy buffers buffer, region)
  | .fetchAtLeast minCount =>
    (gather sh.mem minCount.toNat buffers).map fun bs =>
      (.finish (.buffers (.fetchAtLeast minCount) bs), cells bs)
  | t => some (.finish (.buffers t buffers), longer region (cells buffers))

/-- `boost::asio::buffer_copy` into the ring. -/
def writeCells (mem : Nat → UInt8) : List Cell → List UInt8 → (Nat → UInt8)
  | .ring address :: cs, b :: bs => writeCells (Function.update mem address b) cs bs
  | .tmp _ :: cs, _ :: bs => writeCells mem cs bs
  | _, _ => mem

/-- The bytes `consume(count)` passes over: what the consumer reads in the buffers it fetched
    and, past those, what the ring holds. -/
def passed (sh : Shared) (region : List Cell) (count : Nat) : List UInt8 :=
  (region.map (Cell.read sh.mem) ++
    (slots sh.capacity (sh.consumePos.value.toNat + region.length)
      (count - region.length)).map sh.mem).take count

/-- The next access of a call. -/
def exec (sh : Shared) (region : List Cell) : Pc → Option (Shared × Pc × List Cell)
  | .minTarget t =>
    let target := (sh.fixedPos t.side).value + t.minDelta sh.capacity
    if t.minCount > sh.capacity then some (sh, .finish (refused t), region)
    else if inI64 target then
      match t with
      | .asyncPrepareAtLeast _ => some (sh, .observe t target, region)
      | _ => some (sh, .awaitTrue t target, region)
    else none
  | .awaitTrue t target =>
    if (sh.movingPos t.side).value ≥ target then some (sh, .offset t, region)
    else some (sh, .awaitNotEqual t target, region)
  | .awaitNotEqual t target =>
    if (sh.movingPos t.side).closed then
      if closeStatus t.side ≠ .kEndOfStream then
        some (sh, .finish (.status (closeStatus t.side)), region)
      else some (sh, .recheck t target, region)
    else none
  | .recheck t target =>
    if (sh.movingPos t.side).value < target then
      some (sh, .finish (.status (closeStatus t.side)), region)
    else some (sh, .offset t, region)
  | .observe t target =>
    if (sh.movingPos t.side).value < target then some (sh, .asyncWait t, region)
    else some (sh, .offset t, region)
  | .asyncWait t =>
    if (sh.movingPos t.side).closed then some (sh, .finish .brokenPipe, region) else none
  | .offset t =>
    let offset := (sh.fixedPos t.side).value
    match t with
    | .prepareExactly exactCount =>
      (getBuffers sh.capacity offset exactCount).bind fun buffers =>
        (deliver sh region buffers t).map fun r => (sh, r)
    | _ => some (sh, .sizeCommit t offset, region)
  | .sizeCommit t offset => some (sh, .sizeConsume t offset sh.commitPos.value, region)
  | .sizeConsume t offset commitPos =>
    let size := commitPos - sh.consumePos.value
    let count := match t.side with
      | .consumer => size
      | .producer => (sh.capacity : Int) - size
    -- the checked casts of `size()` to `usize` and of `space()` back to `i64`
    if 0 ≤ size ∧ 0 ≤ count then
      (getBuffers sh.capacity offset count).bind fun buffers =>
        (deliver sh region buffers t).map fun r => (sh, r)
    else none
  | .bufferCopy prepared buffer =>
    let n := min (cells prepared).length buffer.length
    some ({ sh with mem := writeCells sh.mem (cells prepared) buffer },
      .commitAdd n (some buffer), region)
  | .commitAdd count buffer =>
    if inI64 (sh.commitPos.value + count) then
      some ({ sh with
          commitPos := sh.commitPos.add count,
          committed := sh.committed ++
            (slots sh.capacity sh.commitPos.value.toNat count.toNat).map sh.mem },
        (match buffer with
          | none => .finish .unit
          | some buffer => writeAllLoop (buffer.drop count.toNat)),
        region.drop count.toNat)
    else none
  | .consumeAdd count =>
    if inI64 (sh.consumePos.value + count) then
      some ({ sh with
          consumePos := sh.consumePos.add count,
          consumed := sh.consumed ++ passed sh region count.toNat },
        .finish .unit, region.drop count.toNat)
    else none
  | .idle | .finish _ => none

def step : Act → Shared → Local → Option (Shared × Local)
  | .call op, sh, l =>
    if l.pc = .idle then
      (begin op).map fun pc => (access sh l.region op, { l with pc := pc })
    else none
  | .run, sh, l =>
    match l.pc with
    | .finish _ => some (sh, { l with pc := .idle })
    | pc => (exec sh l.region pc).map fun r => (r.1, { l with pc := r.2.1, region := r.2.2 })
  | .woken v, sh, l =>
    match l.pc with
    | .awaitNotEqual t target =>
      if v ∈ (sh.movingPos t.side).held then
        some (sh, { l with pc := if v ≥ target then .offset t else .awaitNotEqual t target })
      else none
    | .asyncWait t =>
      if v ∈ (sh.movingPos t.side).held then some (sh, { l with pc := .minTarget t }) else none
    | _ => none

/-- What the callers keep to: each side makes its own calls, `i64` arguments, and no more is
    committed than there is space for or consumed than there is data. -/
def admits : Act → Shared → List Local → Local → Bool
  | .call (.transfer t), _, _, l => l.side = t.side && inI64 t.minCount
  | .call (.commit count), sh, _, l =>
    l.side = .producer && 0 ≤ count &&
      sh.commitPos.value + count ≤ sh.consumePos.value + sh.capacity
  | .call (.consume count), sh, _, l =>
    l.side = .consumer && 0 ≤ count && sh.consumePos.value + count ≤ sh.commitPos.value
  | .call (.write index _), _, _, l => l.side = .producer && index < l.region.length
  | _, _, _, _ => true

def machine : Machine Shared Local Act where
  step := step
  admits := admits

/-- The constructor, with what the new array holds; `capacity` has to fit an `i64`. -/
def construct (capacity : Nat) (mem : Nat → UInt8) : Option (Conf Shared Local) :=
  if capacity < 2 ^ 63 then
    some
      { shared :=
          { capacity := capacity, mem := mem,
            consumePos := { value := 0, past := [], closed := false },
            commitPos := { value := 0, past := [], closed := false },
            committed := [], consumed := [] }
        locals :=
          [{ side := .producer, pc := .idle, region := [] },
            { side := .consumer, pc := .idle, region := [] }] }
  else none

end Batt.StreamBuffer
