/-
  `HttpClientConnection::process_responses` (http/http_client_connection_impl.hpp): one response
  after the other, read from the input buffer of a connection.

  `InputBuffer` is the `StreamBuffer` as its reader sees it. `rest` is what the peer still has for
  us, of which `arrived` bytes have been committed; `plan` says how many more come in by the time
  of each fetch, so a start with every `plan` is every arrival of the bytes. When all of it has come
  the peer closes.

  The parser of the head (`pico_http::Response::parse`) is a parameter. The application is a script
  for each response: it fetches, and consumes of what it was given, any number of times.
  `processResponses` returns the input buffer at every call of `read_next_response`.
-/
import Batt.BufferSource.TakeN
import Batt.FromString.Model
import Batt.Http.Model

namespace Batt.Http

open FromString (chars fromString usize)

/-! ## The input buffer -/

structure InputBuffer where
  capacity : Nat
  /-- `consume_pos_`. -/
  consumed : Nat
  rest : Bytes
  arrived : Nat
  plan : List Nat
deriving Repr, DecidableEq

namespace InputBuffer

/-- How much is there when a fetch that needs `n` bytes returns. -/
def filled (b : InputBuffer) (n : Nat) : Nat :=
  min (min b.rest.length b.capacity) (max (b.arrived + b.plan.headD 0) n)

/-- `get_buffers`, and the copy which puts at least `n` bytes into the first buffer. -/
def getBuffers (b : InputBuffer) (n : Nat) (committed : Bytes) : List Bytes :=
  let firstToEnd := b.capacity - b.consumed % b.capacity
  if committed.length ≤ max firstToEnd n then [committed]
  else [committed.take (max firstToEnd n), committed.drop (max firstToEnd n)]

instance : BufferSource InputBuffer where
  fetchAtLeast b n :=
    if b.capacity < n then (.error .kInvalidArgument, b)
    else
      let b' := { b with arrived := b.filled n, plan := b.plan.tail }
      if b.filled n < n then (.error .kEndOfStream, b')
      else (.ok (b.getBuffers n (b.rest.take (b.filled n))), b')
  consume b n :=
    { b with consumed := b.consumed + n, rest := b.rest.drop n, arrived := b.arrived - n }

end InputBuffer

/-! ## Sources of a body -/

/-- What is called on an `HttpData`: `fetch_at_least` (with a bound on its turns) and `consume`,
    whose `none` is a failed BATT_CHECK. -/
class DataSource (Src : Type) where
  fetchAtLeast : Nat → Nat → Src → Option (FetchResult × Src)
  consume : Nat → Src → Option Src

instance : DataSource InputBuffer where
  fetchAtLeast _ n b :=
    match BufferSource.fetchAtLeast b n with
    | (.ok buffers, b') => some (.ok buffers, b')
    | (.error status, b') => some (.error status, b')
  consume n b := some (BufferSource.consume b n)

instance : DataSource (HttpChunkDecoder InputBuffer) where
  fetchAtLeast fuel n d := d.fetchAtLeast fuel n
  consume n d := d.consume n

structure TakeNSource (Src : Type) where
  limit : Nat
  src : Src
deriving Repr, DecidableEq

def trimTo (limit : Nat) (buffers : List Bytes) : List Bytes :=
  (trimBack limit (bufferSize buffers) buffers.reverse).reverse

instance {Src : Type} [DataSource Src] : DataSource (TakeNSource Src) where
  fetchAtLeast fuel n t :=
    (DataSource.fetchAtLeast fuel n t.src).map fun r =>
      match r.1 with
      | .ok buffers => (.ok (trimTo t.limit buffers), { t with src := r.2 })
      | result => (result, { t with src := r.2 })
  consume count t :=
    let nToConsume := min count t.limit
    (DataSource.consume nToConsume t.src).map fun src =>
      { limit := t.limit - nToConsume, src := src }

section

variable {Src : Type} [DataSource Src]

/-- The application: for each pair it asks for so many bytes, and consumes so many of those it was
    given. `none` also where the program is aborted. -/
def readBy (fuel : Nat) : List (Nat × Nat) → Src → Option Src
  | [], src => some src
  | (minCount, count) :: more, src =>
    match DataSource.fetchAtLeast fuel minCount src with
    | some (.ok buffers, src') =>
      (DataSource.consume (min count (bufferSize buffers)) src').bind (readBy fuel more)
    | some (.error _, src') => readBy fuel more src'
    | _ => none

/-- `src | seq::consume()`, with a bound on the turns of `for_each`. -/
def consumeAll (fuel : Nat) : Nat → Src → Option (StatusOr Unit × Src)
  | 0, _ => none
  | turns + 1, src =>
    match DataSource.fetchAtLeast fuel 1 src with
    | some (.ok buffers, src') =>
      if bufferSize buffers = 0 then some (.ok (), src')
      else (DataSource.consume (bufferSize buffers) src').bind (consumeAll fuel turns)
    | some (.error status, src') =>
      some (if status = .kEndOfStream then .ok () else .error status, src')
    | _ => none

/-- The body is with the application; then, to keep the connection alive, what is left of it is
    consumed. -/
def serve (fuel : Nat) (reads : List (Nat × Nat)) (src : Src) : Option (StatusOr Unit × Src) :=
  (readBy fuel reads src).bind (consumeAll fuel fuel)

end

/-! ## The head of a response -/

/-- A string as it stands in the stream. -/
def ascii (s : String) : Bytes := s.toList.map fun c => UInt8.ofNat c.toNat

/-- `pico_http::Response`. -/
structure Message where
  majorVersion : Int
  minorVersion : Int
  status : Int
  message : Bytes
  headers : List (Bytes × Bytes)
deriving Repr, DecidableEq

/-- What `parse` returns: kParseIncomplete, kParseFailed, or the length of the head. -/
inductive ParseResult where
  | incomplete
  | failed
  | ok (length : Nat) (message : Message)
deriving Repr, DecidableEq

def findHeader (headers : List (Bytes × Bytes)) (name : Bytes) : Option Bytes :=
  (headers.find? fun hdr => hdr.1 = name).map Prod.snd

structure ResponseInfo where
  contentLength : Option Nat
  keepAlive : Bool
  chunkedEncoding : Bool
deriving Repr, DecidableEq

/-- The value of a Content-Length that is blank is not specified; it is taken as 0. -/
def ResponseInfo.new (response : Message) : ResponseInfo where
  contentLength := (findHeader response.headers (ascii "Content-Length")).bind fun str =>
    (fromString usize 0 (chars str)).map Int.toNat
  keepAlive :=
    match findHeader response.headers (ascii "Connection") with
    | some s => s = ascii "keep-alive"
    | none => response.majorVersion = 1 && 1 ≤ response.minorVersion
  chunkedEncoding :=
    match findHeader response.headers (ascii "Transfer-Encoding") with
    | some s => s = ascii "chunked"
    | none => false

def ResponseInfo.isValid (info : ResponseInfo) : Bool :=
  info.contentLength.isSome || info.chunkedEncoding || !info.keepAlive

/-- `get_data`, and what is done with the data of a connection that is kept alive. An empty
    `BufferSource` gives nothing and consumes nothing. -/
def ResponseInfo.serveData (info : ResponseInfo) (fuel : Nat) (reads : List (Nat × Nat))
    (input : InputBuffer) : Option (StatusOr Unit × InputBuffer) :=
  match info.contentLength, info.chunkedEncoding with
  | none, true => (serve fuel reads (HttpChunkDecoder.new input false)).map fun r => (r.1, r.2.src)
  | none, false => some (.ok (), input)
  | some n, true =>
    (serve fuel reads (TakeNSource.mk n (HttpChunkDecoder.new input false))).map fun r =>
      (r.1, r.2.src.src)
  | some n, false => (serve fuel reads (TakeNSource.mk n input)).map fun r => (r.1, r.2.src)

/-! ## `process_responses` -/

/-- What the application does with a response: it takes the message or drops the response, and
    reads of the body. -/
structure Script where
  takesMessage : Bool
  reads : List (Nat × Nat)
deriving Repr, DecidableEq

section

variable (parse : Bytes → ParseResult)

/-- `read_next_response`; `none` is an error or a failed BATT_CHECK. -/
def readNextResponse : Nat → Nat → InputBuffer → Option (Nat × Message × InputBuffer)
  | 0, _, _ => none
  | fuel + 1, minToFetch, input =>
    match BufferSource.fetchAtLeast input minToFetch with
    | (.ok (first :: more), input') =>
      match parse first with
      | .incomplete =>
        readNextResponse fuel (max (minToFetch + 1) (bufferSize (first :: more))) input'
      | .failed => none
      | .ok length message => if 0 < length then some (length, message, input') else none
    | _ => none

/-- A turn of the loop that gets to its end. -/
def nextResponse (fuel : Nat) (script : Script) (input : InputBuffer) : Option InputBuffer :=
  match readNextResponse parse fuel 1 input with
  | none => none
  | some (length, message, input) =>
    let info := ResponseInfo.new message
    if info.isValid && script.takesMessage && info.keepAlive then
      match info.serveData fuel script.reads (BufferSource.consume input length) with
      | some (.ok _, input) => some input
      | _ => none
    else none

/-- The loop over the queue of responses: the input buffer at each call of `read_next_response`. -/
def processResponses (fuel : Nat) : List Script → InputBuffer → List InputBuffer
  | [], _ => []
  | script :: scripts, input =>
    input ::
      match nextResponse parse fuel script input with
      | some input' => processResponses fuel scripts input'
      | none => []

end

end Batt.Http
