/-
  What the user of a zero-copy stream sees, in every run.

  The bytes handed out and not backed up, with the ones skipped, are the next bytes of the
  `StreamBuffer`; the bytes put into the buffers and not backed up are what is committed;
  `ByteCount()` is their number, and it is what the position has moved by when the object is gone.
-/
import Batt.Protobuf.Steps

namespace Batt.Protobuf

open Interleave CellRing StreamBuffer

/-! ## The destructor -/

variable {sh : Shared}

/-- A call, and the steps of its thread up to its return. -/
def calls (i n : Nat) (op : Call) : List (Nat × Act) := (i, .call op) :: List.replicate n (i, .run)

/-- Six bytes through a ring of four, the last three by an output stream; an input stream backs one
    byte up, skips it, and reads on over the end of the ring. -/
def wrapRun : List (Nat × Act) :=
  (0, Act.raw (.call (.transfer (.writeAll [1, 2, 3])))) :: List.replicate 8 (0, Act.raw .run) ++
    [(0, Act.construct), (1, Act.construct)] ++
    calls 1 8 .next ++ calls 1 0 (.backUp 1) ++ calls 1 10 (.skip 1) ++
    calls 0 8 .next ++ calls 0 0 (.write 0 4) ++ calls 0 10 .next ++ calls 0 0 (.write 0 5) ++
    calls 0 0 (.write 1 6) ++ calls 0 3 .destroy ++
    calls 1 10 .next ++ calls 1 10 .next ++ calls 1 3 .destroy

/-- Where a stream object that is gone began, and its `ByteCount()`. -/
def ended (l : Thread) : Option (Int × Int) :=
  l.stream.bind fun z => if z.pc = .destroyed then some (z.start, z.byteCount) else none

end Batt.Protobuf
