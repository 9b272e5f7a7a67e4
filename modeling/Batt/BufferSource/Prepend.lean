/-
  `PrependBufferSource` (batteries/async/buffer_source.hpp): a sequence of buffers in front of
  another source.

  A buffer is the list of its bytes. The source behind is a parameter, as in the template: the
  class `BufferSource` has its operations, `LawfulSource` what is documented of them. The
  position in the buffers in front is the index of a buffer and an offset into it, which
  `consume_buffers_iter` (batteries/buffer.hpp) moves. A check that fails is `none`.
-/
import Batt.Status

namespace Batt

/-- The operations of a source that are used here. -/
class BufferSource (R : Type) where
  size : R → Nat
  fetchAtLeast : R → Nat → StatusOr (List (List UInt8)) × R
  consume : R → Nat → R

/-- What a source promises: `bytes` is what it still has to deliver, of which `held` bytes can be
    consumed. Of `size()`, a hint, nothing is promised. -/
structure LawfulSource (R : Type) [BufferSource R] where
  bytes : R → List UInt8
  held : R → Nat
  bytes_fetch : ∀ r n, bytes (BufferSource.fetchAtLeast r n).2 = bytes r
  fetch_ok : ∀ {r n buffers}, (BufferSource.fetchAtLeast r n).1 = .ok buffers →
    buffers.flatten <+: bytes r ∧ n ≤ buffers.flatten.length ∧
      buffers.flatten.length ≤ held (BufferSource.fetchAtLeast r n).2
  fetch_error : ∀ {r n code}, (BufferSource.fetchAtLeast r n).1 = .error code →
    held r ≤ held (BufferSource.fetchAtLeast r n).2
  consume_held : ∀ {r n}, n ≤ held r →
    bytes (BufferSource.consume r n) = (bytes r).drop n ∧
      held r - n ≤ held (BufferSource.consume r n)

/-- `consume_buffers_iter`, over the buffers from the iterator on, with the index of the first. -/
def consumeBuffersIter : List (List UInt8) → Nat → Nat → Nat → Nat × Nat
  | [], index, _, _ => (index, 0)
  | front :: buffers, index, offset, count =>
    if count = 0 then (index, 0)
    else if count < (front.drop offset).length then (index, count)
    else consumeBuffersIter buffers (index + 1) 0 (count - (front.drop offset).length)

structure PrependBufferSource (R : Type) where
  first : List (List UInt8)
  firstBufferIndex : Nat
  firstBufferOffset : Nat
  firstBytesRemaining : Nat
  rest : R
deriving DecidableEq, Repr

namespace PrependBufferSource

variable {R : Type} [BufferSource R]

def start (buffers : List (List UInt8)) (rest : R) : PrependBufferSource R :=
  { first := buffers
    firstBufferIndex := 0
    firstBufferOffset := 0
    firstBytesRemaining := buffers.flatten.length
    rest := rest }

def size (s : PrependBufferSource R) : Nat := s.firstBytesRemaining + BufferSource.size s.rest

omit [BufferSource R] in
/-- The buffers from the position on. -/
def firstBuffers (s : PrependBufferSource R) : Option (List (List UInt8)) :=
  if s.firstBytesRemaining = 0 then some []
  else
    match s.first.drop s.firstBufferIndex with
    | [] => none
    | front :: buffers => some (front.drop s.firstBufferOffset :: buffers)

/-- What is asked of the source behind. -/
def fetchRest (s : PrependBufferSource R) (minCount : Nat) :
    StatusOr (List (List UInt8)) × R :=
  BufferSource.fetchAtLeast s.rest (minCount - min s.firstBytesRemaining minCount)

def fetchAtLeast (s : PrependBufferSource R) (minCount : Nat) :
    Option (StatusOr (List (List UInt8)) × PrependBufferSource R) :=
  s.firstBuffers.map fun buffer =>
    (match (s.fetchRest minCount).1 with
      | .ok fetched => .ok (buffer ++ fetched)
      | .error code =>
        -- the end of the source behind is no error if there is something in front
        if buffer.isEmpty ∨ code ≠ .kEndOfStream then .error code else .ok buffer,
      { s with rest := (s.fetchRest minCount).2 })

def consume (s : PrependBufferSource R) (count : Nat) : PrependBufferSource R :=
  let consumeFromFirst := min s.firstBytesRemaining count
  let consumeFromRest := count - consumeFromFirst
  let pos := consumeBuffersIter (s.first.drop s.firstBufferIndex) s.firstBufferIndex
    s.firstBufferOffset consumeFromFirst
  { s with
    firstBufferIndex := pos.1
    firstBufferOffset := pos.2
    firstBytesRemaining := s.firstBytesRemaining - consumeFromFirst
    rest := if 0 < consumeFromRest then BufferSource.consume s.rest consumeFromRest else s.rest }

end PrependBufferSource

/-- A `StreamBuffer` that has been closed for writing and holds `bytes`. -/
structure ClosedStream where
  bytes : List UInt8
deriving DecidableEq, Repr

instance : BufferSource ClosedStream where
  size r := r.bytes.length
  fetchAtLeast r n := (if n ≤ r.bytes.length then .ok [r.bytes] else .error .kEndOfStream, r)
  consume r n := ⟨r.bytes.drop n⟩

def ClosedStream.lawful : LawfulSource ClosedStream where
  bytes r := r.bytes
  held r := r.bytes.length
  bytes_fetch _ _ := rfl
  fetch_ok {r n buffers} h := by
    by_cases hn : n ≤ r.bytes.length
    · simp only [BufferSource.fetchAtLeast, if_pos hn] at h
      cases h
      rw [List.flatten_singleton]
      exact ⟨List.prefix_refl _, hn, Nat.le_refl _⟩
    · simp only [BufferSource.fetchAtLeast, if_neg hn] at h
      cases h
  fetch_error _ := Nat.le_refl _
  consume_held _ := ⟨rfl, Nat.le_of_eq List.length_drop.symm⟩

end Batt
