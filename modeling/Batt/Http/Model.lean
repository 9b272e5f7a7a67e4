/-
  HTTP chunked transfer coding: `pico_http::decode_chunked` (pico_http/parser_impl.hpp),
  `HttpChunkDecoder` (http/http_chunk_decoder.hpp) and `http_encode_chunked`
  (http/http_chunk_encoder.hpp).

  A buffer is the list of its bytes. `decode_chunked` walks over one buffer: `src` counts the
  bytes behind it, the rest of the buffer is the list it recurses on. The source under the
  decoder and the two ends of the encoder are type parameters, as in the code: `BufferSource`
  and `AsyncWriteStream` name what is called on them.

  A loop that the code leaves by `return` has a bound on its turns here, and `none` says that
  the bound was too small. `abort` is a failed BATT_CHECK or BATT_CHECKED_CAST, or a sum
  that does not fit an i64.
-/
import Mathlib.Algebra.GroupWithZero.Nat
import Batt.Status

namespace Batt.Http

abbrev Bytes := List UInt8

def cr : UInt8 := 13
def lf : UInt8 := 10
def crlf : Bytes := [cr, lf]

/-! ## `pico_http::decode_chunked` -/

inductive ChunkState where
  | chunkSize
  | chunkExt
  | chunkData
  | chunkCrlf
  | trailersLineHead
  | trailersLineMiddle
deriving Repr, DecidableEq

structure ChunkedDecoder where
  bytesLeftInChunk : Nat := 0
  consumeTrailer : Bool
  hexCount : Nat := 0
  state : ChunkState := .chunkSize
deriving Repr, DecidableEq

structure DecodeResult where
  done : Bool
  bytesConsumed : Nat
deriving Repr, DecidableEq

/-- `decode_hex`; `none` is kParseFailed. -/
def decodeHex (ch : UInt8) : Option Nat :=
  if 48 ≤ ch.toNat ∧ ch.toNat ≤ 57 then some (ch.toNat - 48)
  else if 65 ≤ ch.toNat ∧ ch.toNat ≤ 70 then some (ch.toNat - 65 + 0xa)
  else if 97 ≤ ch.toNat ∧ ch.toNat ≤ 102 then some (ch.toNat - 97 + 0xa)
  else none

/-- `sizeof(usize) * 2`. -/
def maxHexCount : Nat := 16

/-- What a call leaves behind: its result, the decoder and `*output`. -/
structure Decoded where
  result : StatusOr DecodeResult
  decoder : ChunkedDecoder
  output : List Bytes
deriving Repr, DecidableEq

/-- How a `case` of the switch ends: by `return`, or by `break`, with the loop around the
    switch going on at `src`. -/
inductive Flow where
  | ret (result : StatusOr DecodeResult) (decoder : ChunkedDecoder) (output : List Bytes)
  | brk (decoder : ChunkedDecoder) (src : Nat) (output : List Bytes) (rest : Bytes)
deriving Repr, DecidableEq

def inTrailersLineMiddle (d : ChunkedDecoder) (src : Nat) (output : List Bytes) : Bytes → Flow
  | [] => .ret (.ok ⟨false, src⟩) d output
  | b :: rest =>
    if b = lf then .brk { d with state := .trailersLineHead } (src + 1) output rest
    else inTrailersLineMiddle d (src + 1) output rest

def inTrailersLineHead (d : ChunkedDecoder) (src : Nat) (output : List Bytes) : Bytes → Flow
  | [] => .ret (.ok ⟨false, src⟩) d output
  | b :: rest =>
    if b = cr then inTrailersLineHead d (src + 1) output rest
    else if b = lf then .ret (.ok ⟨true, src + 1⟩) d output
    else inTrailersLineMiddle { d with state := .trailersLineMiddle } (src + 1) output rest

def inChunkCrlf (d : ChunkedDecoder) (src : Nat) (output : List Bytes) : Bytes → Flow
  | [] => .ret (.ok ⟨false, src⟩) d output
  | b :: rest =>
    if b = cr then inChunkCrlf d (src + 1) output rest
    else if b ≠ lf then .ret (.error .kInvalidArgument) d output
    else .brk { d with state := .chunkSize } (src + 1) output rest

def inChunkData (d : ChunkedDecoder) (src : Nat) (output : List Bytes) (rest : Bytes) : Flow :=
  let avail := rest.length
  if avail < d.bytesLeftInChunk then
    .ret (.ok ⟨false, src + avail⟩)
      { d with bytesLeftInChunk := d.bytesLeftInChunk - avail }
      (if avail > 0 then output ++ [rest] else output)
  else
    inChunkCrlf { d with bytesLeftInChunk := 0, state := .chunkCrlf }
      (src + d.bytesLeftInChunk) (output ++ [rest.take d.bytesLeftInChunk])
      (rest.drop d.bytesLeftInChunk)

def inChunkExt (d : ChunkedDecoder) (src : Nat) (output : List Bytes) : Bytes → Flow
  | [] => .ret (.ok ⟨false, src⟩) d output
  | b :: rest =>
    if b = lf then
      if d.bytesLeftInChunk = 0 then
        if d.consumeTrailer then
          .brk { d with state := .trailersLineHead } (src + 1) output rest
        else .ret (.ok ⟨true, src + 1⟩) d output
      else inChunkData { d with state := .chunkData } (src + 1) output rest
    else inChunkExt d (src + 1) output rest

def inChunkSize (d : ChunkedDecoder) (src : Nat) (output : List Bytes) : Bytes → Flow
  | [] => .ret (.ok ⟨false, src⟩) d output
  | b :: rest =>
    match decodeHex b with
    | none =>
      if d.hexCount = 0 then .ret (.error .kInvalidArgument) d output
      else inChunkExt { d with hexCount := 0, state := .chunkExt } src output (b :: rest)
    | some v =>
      if d.hexCount = maxHexCount then .ret (.error .kInvalidArgument) d output
      else
        inChunkSize { d with
          bytesLeftInChunk := (d.bytesLeftInChunk * 16 + v) % 2 ^ 64
          hexCount := d.hexCount + 1 } (src + 1) output rest

/-- The switch; a `case` that falls through calls the next one. -/
def decodeSwitch (d : ChunkedDecoder) (src : Nat) (output : List Bytes) (rest : Bytes) : Flow :=
  match d.state with
  | .chunkSize => inChunkSize d src output rest
  | .chunkExt => inChunkExt d src output rest
  | .chunkData => inChunkData d src output rest
  | .chunkCrlf => inChunkCrlf d src output rest
  | .trailersLineHead => inTrailersLineHead d src output rest
  | .trailersLineMiddle => inTrailersLineMiddle d src output rest

def decodeLoop : Nat → ChunkedDecoder → Nat → List Bytes → Bytes → Option Decoded
  | 0, _, _, _, _ => none
  | fuel + 1, d, src, output, rest =>
    match decodeSwitch d src output rest with
    | .ret result d output => some ⟨result, d, output⟩
    | .brk d src output rest => decodeLoop fuel d src output rest

/-- `decode_chunked(&decoder, input, &output)`. Each `break` is behind a byte, so the loop
    around the switch turns at most once more than there are bytes. -/
def decodeChunked (d : ChunkedDecoder) (input : Bytes) (output : List Bytes) : Option Decoded :=
  decodeLoop (input.length + 1) d 0 output input

/-! ## Buffers -/

/-- `consume_buffers_copy(buffers, count)`; `none` is a failed BATT_CHECK. -/
def consumeBuffers : List Bytes → Nat → Option (List Bytes)
  | buffers, 0 => some buffers
  | [], _ + 1 => none
  | b :: buffers, count + 1 =>
    if b.length > count + 1 then some (b.drop (count + 1) :: buffers)
    else consumeBuffers buffers (count + 1 - b.length)

/-- `boost::asio::buffer_size`. -/
def bufferSize (buffers : List Bytes) : Nat := (buffers.map List.length).sum

/-- What the decoder and the encoder call on a source. -/
class BufferSource (S : Type) where
  fetchAtLeast : S → Nat → StatusOr (List Bytes) × S
  consume : S → Nat → S

/-! ## `HttpChunkDecoder` -/

structure HttpChunkDecoder (S : Type) where
  src : S
  decoderCheckpoint : ChunkedDecoder
  decoderLatest : ChunkedDecoder
  done : Bool := false
  decodedSrcSize : Nat := 0
  outputAvailable : Nat := 0
  outputConsumed : Nat := 0
  decodedChunks : List Bytes := []
deriving Repr, DecidableEq

inductive FetchResult where
  | ok (buffers : List Bytes)
  | error (status : StatusCode)
  | abort
deriving Repr, DecidableEq

namespace HttpChunkDecoder

variable {S : Type}

def new (src : S) (consumeTrailer : Bool) : HttpChunkDecoder S where
  src := src
  decoderCheckpoint := { consumeTrailer := consumeTrailer }
  decoderLatest := { consumeTrailer := consumeTrailer }

/-- `size()`, an unsigned difference. -/
def size (st : HttpChunkDecoder S) : Nat :=
  if st.outputConsumed ≤ st.outputAvailable then st.outputAvailable - st.outputConsumed
  else st.outputAvailable + 2 ^ 64 - st.outputConsumed

variable [BufferSource S]

def consumeFromSrc (st : HttpChunkDecoder S) (count : Nat) : HttpChunkDecoder S :=
  { st with
    decodedSrcSize := st.decodedSrcSize - count
    src := BufferSource.consume st.src count }

def releaseDecodedChunks (st : HttpChunkDecoder S) : HttpChunkDecoder S :=
  consumeFromSrc
    { st with
      outputAvailable := 0
      outputConsumed := 0
      decodedChunks := []
      decoderCheckpoint := st.decoderLatest }
    st.decodedSrcSize

def releaseIfEmpty (st : HttpChunkDecoder S) : HttpChunkDecoder S :=
  if st.size = 0 then st.releaseDecodedChunks else st

omit [BufferSource S] in
/-- The `if (this->output_consumed_ != 0)` block: output that was consumed before this turn
    decoded it again is let go, with the source bytes it came from. -/
def skipConsumed (st : HttpChunkDecoder S) (nToConsume bytesConsumed : Nat) :
    HttpChunkDecoder S × Nat :=
  if st.outputConsumed ≠ 0 ∧ st.outputConsumed ≥ bufferSize st.decodedChunks then
    ({ st with
        outputConsumed := st.outputConsumed - bufferSize st.decodedChunks
        decodedChunks := []
        decoderCheckpoint := st.decoderLatest },
      nToConsume + bytesConsumed)
  else (st, nToConsume)

omit [BufferSource S] in
/-- The loop over the fetched buffers, with `n_to_consume_from_src`. The status is that of a
    failed `decode_chunked`, which leaves the loop. -/
def decodeBuffers : List Bytes → HttpChunkDecoder S → Nat →
    Option (Option StatusCode × HttpChunkDecoder S × Nat)
  | [], st, nToConsume => some (none, st, nToConsume)
  | srcBuffer :: buffers, st, nToConsume =>
    match decodeChunked st.decoderLatest srcBuffer st.decodedChunks with
    | none => none
    | some ⟨.error status, latest, chunks⟩ =>
      some (some status, { st with decoderLatest := latest, decodedChunks := chunks }, nToConsume)
    | some ⟨.ok result, latest, chunks⟩ =>
      let (st, nToConsume) := skipConsumed
        { st with
          decoderLatest := latest
          decodedChunks := chunks
          decodedSrcSize := st.decodedSrcSize + result.bytesConsumed }
        nToConsume result.bytesConsumed
      if result.done then some (none, { st with done := true }, nToConsume)
      else decodeBuffers buffers st nToConsume

/-- `on_loop_exit`. -/
def onLoopExit (st : HttpChunkDecoder S) (nToConsume : Nat) : HttpChunkDecoder S :=
  let st := if nToConsume > 0 then st.consumeFromSrc nToConsume else st
  { st with outputAvailable := bufferSize st.decodedChunks }

/-- A turn of the while loop with the buffers the source gave: decode them from the
    checkpoint on. -/
def decodeFetched (st : HttpChunkDecoder S) (fetched : List Bytes) :
    Option (Option StatusCode × HttpChunkDecoder S) :=
  match decodeBuffers fetched
      { st with
        decodedSrcSize := 0
        decodedChunks := []
        decoderLatest := st.decoderCheckpoint } 0 with
  | none => none
  | some (status, st, nToConsume) => some (status, st.onLoopExit nToConsume)

/-- `src_min_count`. -/
def srcMinCount (st : HttpChunkDecoder S) (minCount : Nat) : Nat :=
  st.decodedSrcSize + (minCount - st.size)

/-- What the code makes of a source that has no bytes for it. -/
def sourceFailed (st : HttpChunkDecoder S) (status : StatusCode) :
    FetchResult × HttpChunkDecoder S :=
  if status = .kEndOfStream then (.error .kClosedBeforeEndOfStream, st.releaseIfEmpty)
  else (.error status, st)

/-- The end of `fetch_at_least`, when there is enough to return. -/
def fetchedChunks (st : HttpChunkDecoder S) : FetchResult :=
  match consumeBuffers st.decodedChunks st.outputConsumed with
  | some buffers => .ok buffers
  | none => .abort

def fetchAtLeast : Nat → Nat → HttpChunkDecoder S → Option (FetchResult × HttpChunkDecoder S)
  | 0, _, _ => none
  | fuel + 1, minCount, st =>
    if minCount ≤ st.size then some (st.fetchedChunks, st)
    else if st.done then some (.error .kEndOfStream, st.releaseIfEmpty)
    else if 2 ^ 63 ≤ st.srcMinCount minCount then some (.abort, st)
    else
      match BufferSource.fetchAtLeast st.src (st.srcMinCount minCount) with
      | (.error status, src) => some (sourceFailed { st with src := src } status)
      | (.ok fetched, src) =>
        match decodeFetched { st with src := src } fetched with
        | none => none
        | some (some status, st) => some (.error status, st)
        | some (none, st) => fetchAtLeast fuel minCount st

/-- `consume(count)`; `none` is its failed BATT_CHECK. -/
def consume (st : HttpChunkDecoder S) (count : Nat) : Option (HttpChunkDecoder S) :=
  let st := { st with outputConsumed := st.outputConsumed + count }
  if st.outputConsumed ≤ st.outputAvailable then
    if st.outputConsumed = st.outputAvailable then some st.releaseDecodedChunks else some st
  else none

end HttpChunkDecoder

/-! ## `http_encode_chunked` -/

/-- `Task::await_write(dst, buffers)`. -/
class AsyncWriteStream (D : Type) where
  awaitWrite : D → List Bytes → StatusOr Unit × D

/-- `hex_digits`. -/
def hexDigits : List UInt8 :=
  [48, 49, 50, 51, 52, 53, 54, 55, 56, 57, 65, 66, 67, 68, 69, 70]

/-- `(n >> bit_offset) & 0b1111` for `bit_offset = 4 * k`. -/
def nibble (n k : Nat) : Nat := n / 16 ^ k % 16

/-- The digit at which the `while` loop over `bit_offset` stops, from digit `k` on. -/
def firstDigit (n : Nat) : Nat → Nat
  | 0 => 0
  | k + 1 => if nibble n (k + 1) = 0 then firstDigit n k else k + 1

/-- The `do` loop, from digit `k` down. -/
def digitsFrom (n : Nat) : Nat → Bytes
  | 0 => [hexDigits.getD (nibble n 0) 0]
  | k + 1 => hexDigits.getD (nibble n (k + 1)) 0 :: digitsFrom n k

def encodeHex (n : Nat) : Bytes :=
  if n = 0 then [48] else digitsFrom n (firstDigit n 15)

/-- `last_chunk` and `last_chunk_with_trailer`. -/
def lastChunk (includeTrailer : Bool) : Bytes :=
  crlf ++ [48] ++ crlf ++ if includeTrailer then crlf else []

def chunkHeader (firstChunk : Bool) (size : Nat) : Bytes :=
  (if firstChunk then [] else crlf) ++ encodeHex (size % 2 ^ 64) ++ crlf

inductive EncodeResult where
  | ok
  | error (status : StatusCode)
  | abort
deriving Repr, DecidableEq

section Encode

variable {S D : Type} [BufferSource S] [AsyncWriteStream D]

omit [BufferSource S] in
/-- The loop over the fetched chunks, with `first_chunk` and `n_consumed`; a result when it
    leaves the function. -/
def encodeChunks : List Bytes → D → Bool → Nat → Option EncodeResult × D × Bool × Nat
  | [], dst, firstChunk, nConsumed => (none, dst, firstChunk, nConsumed)
  | chunk :: chunks, dst, firstChunk, nConsumed =>
    match AsyncWriteStream.awaitWrite dst
        (chunkHeader firstChunk chunk.length :: if chunk.length > 0 then [chunk] else []) with
    | (.error status, dst) => (some (.error status), dst, false, nConsumed)
    | (.ok _, dst) =>
      if chunk.length = 0 then (some .abort, dst, false, nConsumed)
      else encodeChunks chunks dst false (nConsumed + chunk.length)

omit [BufferSource S] in
def encodeLast (dst : D) (includeTrailer : Bool) : EncodeResult × D :=
  match AsyncWriteStream.awaitWrite dst [lastChunk includeTrailer] with
  | (.error status, dst) => (.error status, dst)
  | (.ok _, dst) => (.ok, dst)

def httpEncodeChunked : Nat → S → D → Bool → Bool → Option (EncodeResult × S × D)
  | 0, _, _, _, _ => none
  | fuel + 1, src, dst, includeTrailer, firstChunk =>
    match BufferSource.fetchAtLeast src 1 with
    | (.error status, src) =>
      if status = .kEndOfStream then
        let (result, dst) := encodeLast dst includeTrailer
        some (result, src, dst)
      else some (.error status, src, dst)
    | (.ok fetched, src) =>
      match encodeChunks fetched dst firstChunk 0 with
      | (some result, dst, _, nConsumed) =>
        some (result, BufferSource.consume src nConsumed, dst)
      | (none, dst, firstChunk, nConsumed) =>
        httpEncodeChunked fuel (BufferSource.consume src nConsumed) dst includeTrailer firstChunk

end Encode

end Batt.Http
