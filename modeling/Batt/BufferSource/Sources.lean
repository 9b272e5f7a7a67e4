/-
  Sources built from a stream, and `write_to` (batteries/async/buffer_source.hpp).

  `SourceExpr` is how a source is put together, `Source` the object at run time: nested
  `TakeNSource` and `PrependBufferSource` around the reader's side of a `StreamBuffer`. The
  template arguments of the two classes are sources again, so their operations are spelled
  out here by recursion; `fetchAtLeast_takeN` to `consume_prepend` say that they are those
  of the classes.

  `Stream` holds what the writer has yet to commit as well; the writer closes it behind the
  last byte. `arrivals` says what happens while a fetch waits: how many more bytes have been
  committed when it returns, and how many of them are in front of the end of the ring. A
  destination takes a part of what it is offered, at least one byte if there is one.
-/
import Batt.BufferSource.Concatenation
import Batt.BufferSource.TakeN
import Batt.Http.Model

namespace Batt
open PrependBufferSource
open Http (Bytes)

/-! ## The stream -/

structure Arrival where
  more : Nat
  wrap : Nat
deriving DecidableEq, Repr

/-- An open-ended list of arrivals: behind its end everything arrives, in one piece. -/
structure Stream where
  bytes : Bytes
  committed : Nat
  arrivals : List Arrival
deriving DecidableEq, Repr

/-- `get_buffers`, and the gathering of `fetch_at_least`. -/
def pieces (data : Bytes) (wrap minCount : Nat) : List Bytes :=
  if 0 < wrap ∧ max wrap minCount < data.length then
    [data.take (max wrap minCount), data.drop (max wrap minCount)]
  else [data]

namespace Stream

def nextArrival (s : Stream) : Arrival := s.arrivals.headD ⟨s.bytes.length, 0⟩

def fetchAtLeast (s : Stream) (minCount : Nat) : StatusOr (List Bytes) × Stream :=
  if s.bytes.length < minCount then
    (.error .kEndOfStream,
      { s with committed := s.bytes.length, arrivals := s.arrivals.tail })
  else
    let available := min s.bytes.length (max minCount (s.committed + s.nextArrival.more))
    (.ok (pieces (s.bytes.take available) s.nextArrival.wrap minCount),
      { s with committed := available, arrivals := s.arrivals.tail })

def consume (s : Stream) (count : Nat) : Stream :=
  { s with bytes := s.bytes.drop count, committed := s.committed - count }

end Stream

/-! ## The buffers in front -/

/-- The fields of a `PrependBufferSource` but its source. What remains in front is there to be
    read, so the check of `fetch_at_least` cannot fail. -/
structure Front where
  first : List Bytes
  index : Nat
  offset : Nat
  remaining : Nat
  inside : remaining ≤ (unreadFrom offset (first.drop index)).length

namespace Front

def start (buffers : List Bytes) : Front where
  first := buffers
  index := 0
  offset := 0
  remaining := buffers.flatten.length
  inside := by rw [List.drop_zero, unreadFrom_zero]

/-- What `fetch_at_least` puts in front of the rest. -/
def buffers (f : Front) : List Bytes :=
  if f.remaining = 0 then []
  else
    match f.first.drop f.index with
    | [] => []
    | front :: buffers => front.drop f.offset :: buffers

/-- Whatever the position, it moves on by at most `count` bytes. -/
theorem unreadFrom_consumeBuffersIter (buffers : List Bytes) (index offset count : Nat) :
    ∃ k, (consumeBuffersIter buffers index offset count).1 = index + k ∧
      (unreadFrom offset buffers).length ≤ count +
        (unreadFrom (consumeBuffersIter buffers index offset count).2 (buffers.drop k)).length := by
  induction buffers generalizing index offset count with
  | nil => exact ⟨0, rfl, Nat.zero_le _⟩
  | cons front buffers ih =>
    unfold consumeBuffersIter
    split
    · refine ⟨0, rfl, ?_⟩
      simp only [List.drop_zero, unreadFrom, List.length_append, List.length_drop]
      omega
    · split
      · refine ⟨0, rfl, ?_⟩
        simp only [List.drop_zero, unreadFrom, List.length_append, List.length_drop]
        omega
      · rename_i hbehind
        rw [Nat.not_lt] at hbehind
        obtain ⟨k, hindex, hleft⟩ := ih (index + 1) 0 (count - (front.drop offset).length)
        refine ⟨k + 1, by rw [hindex]; omega, ?_⟩
        rw [unreadFrom_zero] at hleft
        rw [List.drop_succ_cons, unreadFrom, List.length_append]
        omega

def consume (f : Front) (count : Nat) : Front where
  first := f.first
  index := (consumeBuffersIter (f.first.drop f.index) f.index f.offset (min f.remaining count)).1
  offset := (consumeBuffersIter (f.first.drop f.index) f.index f.offset (min f.remaining count)).2
  remaining := f.remaining - min f.remaining count
  inside := by
    obtain ⟨k, hindex, hleft⟩ := unreadFrom_consumeBuffersIter (f.first.drop f.index) f.index
      f.offset (min f.remaining count)
    have hinside := f.inside
    rw [hindex, ← List.drop_drop]
    omega

end Front

/-! ## Sources -/

inductive Source where
  | stream (s : Stream)
  | takeN (limit : Nat) (src : Source)
  | prepend (front : Front) (rest : Source)

namespace Source

def size : Source → Nat
  | .stream s => s.committed
  | .takeN limit src => min limit src.size
  | .prepend front rest => front.remaining + rest.size

def fetchAtLeast : Source → Nat → StatusOr (List Bytes) × Source
  | .stream s, minCount => ((s.fetchAtLeast minCount).1, .stream (s.fetchAtLeast minCount).2)
  | .takeN limit src, minCount =>
    (match (src.fetchAtLeast minCount).1 with
      | .error code => .error code
      | .ok buffers => .ok (trimBack limit buffers.flatten.length buffers.reverse).reverse,
      .takeN limit (src.fetchAtLeast minCount).2)
  | .prepend front rest, minCount =>
    (match (rest.fetchAtLeast (minCount - min front.remaining minCount)).1 with
      | .ok fetched => .ok (front.buffers ++ fetched)
      | .error code =>
        if front.buffers.isEmpty ∨ code ≠ .kEndOfStream then .error code else .ok front.buffers,
      .prepend front (rest.fetchAtLeast (minCount - min front.remaining minCount)).2)

def consume : Source → Nat → Source
  | .stream s, count => .stream (s.consume count)
  | .takeN limit src, count => .takeN (limit - min count limit) (src.consume (min count limit))
  | .prepend front rest, count =>
    .prepend (front.consume count)
      (if 0 < count - min front.remaining count then
        rest.consume (count - min front.remaining count) else rest)

instance : BufferSource Source where
  size := size
  fetchAtLeast := fetchAtLeast
  consume := consume

instance : Http.BufferSource Source where
  fetchAtLeast := fetchAtLeast
  consume := consume

/-! ## The operations are those of the classes -/

/-- The object of the class. -/
def toPrepend (front : Front) (rest : Source) : PrependBufferSource Source :=
  ⟨front.first, front.index, front.offset, front.remaining, rest⟩

theorem fetchAtLeast_takeN (limit : Nat) (src : Source) (minCount : Nat) :
    (fetchAtLeast (.takeN limit src) minCount).1 =
        (TakeNSource.fetchAtLeast ⟨limit, src⟩ minCount).1 ∧
      (fetchAtLeast (.takeN limit src) minCount).2 =
        .takeN (TakeNSource.fetchAtLeast ⟨limit, src⟩ minCount).2.limit
          (TakeNSource.fetchAtLeast ⟨limit, src⟩ minCount).2.src :=
  ⟨rfl, rfl⟩

theorem consume_takeN (limit : Nat) (src : Source) (count : Nat) :
    consume (.takeN limit src) count =
      .takeN (TakeNSource.consume ⟨limit, src⟩ count).limit
        (TakeNSource.consume ⟨limit, src⟩ count).src := rfl

theorem firstBuffers_toPrepend (front : Front) (rest : Source) :
    (toPrepend front rest).firstBuffers = some front.buffers := by
  unfold firstBuffers Front.buffers
  by_cases hzero : front.remaining = 0
  · rw [if_pos (show (toPrepend front rest).firstBytesRemaining = 0 from hzero), if_pos hzero]
  · rw [if_neg (show (toPrepend front rest).firstBytesRemaining ≠ 0 from hzero), if_neg hzero]
    simp only [toPrepend]
    cases hdrop : front.first.drop front.index with
    | nil =>
      have hinside := front.inside
      rw [hdrop] at hinside
      exact absurd (Nat.le_zero.mp hinside) hzero
    | cons buffer buffers => rfl

theorem fetchAtLeast_prepend (front : Front) (rest : Source) (minCount : Nat) :
    (toPrepend front rest).fetchAtLeast minCount =
      some ((fetchAtLeast (.prepend front rest) minCount).1,
        toPrepend front ((toPrepend front rest).fetchRest minCount).2) := by
  rw [PrependBufferSource.fetchAtLeast, firstBuffers_toPrepend]
  rfl

theorem consume_prepend (front : Front) (rest : Source) (count : Nat) :
    (toPrepend front rest).consume count =
      toPrepend (front.consume count) (if 0 < count - min front.remaining count then
        rest.consume (count - min front.remaining count) else rest) := rfl

end Source

/-- `stream | seq::take_n(..) | seq::prepend(..)`, in any nesting. -/
inductive SourceExpr where
  | stream (bytes : Bytes)
  | takeN (src : SourceExpr) (n : Nat)
  | prepend (src : SourceExpr) (buffers : List Bytes)
deriving DecidableEq, Repr

namespace SourceExpr

/-- The source that is built. -/
def start (arrivals : List Arrival) : SourceExpr → Source
  | .stream bytes => .stream ⟨bytes, 0, arrivals⟩
  | .takeN src n => .takeN n (src.start arrivals)
  | .prepend src buffers => .prepend (.start buffers) (src.start arrivals)

/-- The stream it stands for. -/
def payload : SourceExpr → Bytes
  | .stream bytes => bytes
  | .takeN src n => src.payload.take n
  | .prepend src buffers => buffers.flatten ++ src.payload

/-- No `take_n` cuts anything off. -/
def Uncut : SourceExpr → Prop
  | .stream _ => True
  | .takeN src n => src.payload.length ≤ n ∧ src.Uncut
  | .prepend src _ => src.Uncut

end SourceExpr

/-! ## write_to -/

/-- An `AsyncWriteStream`: what it has been given, and how much of the next writes it takes. -/
structure Sink where
  written : Bytes
  accepts : List Nat
deriving DecidableEq, Repr

namespace Sink

/-- `Task::await_write_some(dst, buffers)`. -/
def writeSome (dst : Sink) (buffers : List Bytes) : Nat × Sink :=
  if buffers.flatten = [] then (0, dst)
  else
    let count := min buffers.flatten.length (max 1 (dst.accepts.headD buffers.flatten.length))
    (count, ⟨dst.written ++ buffers.flatten.take count, dst.accepts.tail⟩)

/-- `Task::await_write` goes on until everything has been taken. -/
instance : Http.AsyncWriteStream Sink where
  awaitWrite dst buffers := (.ok (), { dst with written := dst.written ++ buffers.flatten })

end Sink

def writeTo : Nat → Source → Sink → Nat → Option (StatusOr Nat × Source × Sink)
  | 0, _, _, _ => none
  | fuel + 1, src, dst, bytesTransferred =>
    match src.fetchAtLeast 1 with
    | (.error code, src) =>
      some (if code = .kEndOfStream then .ok bytesTransferred else .error code, src, dst)
    | (.ok fetched, src) =>
      writeTo fuel (src.consume (dst.writeSome fetched).1) (dst.writeSome fetched).2
        (bytesTransferred + (dst.writeSome fetched).1)

end Batt
