/-
  The parser of HTTP messages (`pico_http/parser_decl.hpp`, `pico_http/parser_impl.hpp`).

  A pointer into the buffer is the rest of the buffer from there on, and `buf == buf_end` is the
  empty rest. A function that returns a null pointer with -2 in `ret` is `incomplete`, with -1 it is
  `failed`, and `overrun` is a read, or a `string_view`, that goes behind the end of the buffer.
  `sse` says whether the code was built with SSE4.2.

  What the fields of a message are after a parse that did not come to its end is left open.
-/
import Batt.Lib.Incremental

namespace Batt.PicoHttp

open Incremental

abbrev Bytes := List UInt8

/-! ## Characters -/

def isPrintableAscii (c : UInt8) : Bool := 32 ≤ c.toNat && c.toNat < 127

/-- What `FOUND_CTL` is left for: a control character that is not HT, or DEL. -/
def isCtl (c : UInt8) : Bool := (c.toNat < 32 && c != 9) || c = 127

def isBlank (c : UInt8) : Bool := c = 32 || c = 9

def tokenCharMap : List UInt8 :=
  [0,0,0,0,0,0,0,0,0,0,0,0,0,0,0,0,0,0,0,0,0,0,0,0,0,0,0,0,0,0,0,0,
   0,1,0,1,1,1,1,1,0,0,1,1,0,1,1,0,1,1,1,1,1,1,1,1,1,1,0,0,0,0,0,0,
   0,1,1,1,1,1,1,1,1,1,1,1,1,1,1,1,1,1,1,1,1,1,1,1,1,1,1,0,0,0,1,1,
   1,1,1,1,1,1,1,1,1,1,1,1,1,1,1,1,1,1,1,1,1,1,1,1,1,1,1,0,1,0,1,0,
   0,0,0,0,0,0,0,0,0,0,0,0,0,0,0,0,0,0,0,0,0,0,0,0,0,0,0,0,0,0,0,0,
   0,0,0,0,0,0,0,0,0,0,0,0,0,0,0,0,0,0,0,0,0,0,0,0,0,0,0,0,0,0,0,0,
   0,0,0,0,0,0,0,0,0,0,0,0,0,0,0,0,0,0,0,0,0,0,0,0,0,0,0,0,0,0,0,0,
   0,0,0,0,0,0,0,0,0,0,0,0,0,0,0,0,0,0,0,0,0,0,0,0,0,0,0,0,0,0,0,0]

def isTokenChar (c : UInt8) : Bool := tokenCharMap.getD c.toNat 0 != 0

/-! ## `findchar_fast` -/

/-- Whether a byte is in one of the ranges, which are pairs. -/
def inRanges : List UInt8 → UInt8 → Bool
  | lo :: hi :: ranges, c => (lo ≤ c && c ≤ hi) || inRanges ranges c
  | _, _ => false

/-- So many blocks of 16 bytes, up to a byte within the ranges. -/
def findcharBlocks (ranges : List UInt8) : Nat → Bytes → Bytes × Bool
  | 0, buf => (buf, false)
  | n + 1, buf =>
    let r := (buf.take 16).findIdx (inRanges ranges)
    if r ≠ 16 then (buf.drop r, true) else findcharBlocks ranges n (buf.drop 16)

/-- The position, and `found`. Without SSE4.2 the position stays where it is. -/
def findcharFast (sse : Bool) (ranges : List UInt8) (buf : Bytes) : Bytes × Bool :=
  if sse then findcharBlocks ranges (buf.length / 16) buf else (buf, false)

/-! ## Characters and numbers -/

def expectCharNoCheck (ch : UInt8) : Parser UInt8 Unit := do
  let c ← deref
  advance
  ensure (c = ch)

def expectChar (ch : UInt8) : Parser UInt8 Unit := do
  checkEof
  expectCharNoCheck ch

/-- `BATT_PICO_HTTP_PARSE_INT`. -/
def parseInt (mul : Int) : Parser UInt8 Int := do
  let c ← deref
  ensure (48 ≤ c.toNat && c.toNat ≤ 57)
  advance
  pure (mul * (c.toNat - 48))

/-- `BATT_PICO_HTTP_PARSE_INT_3`. -/
def parseInt3 : Parser UInt8 Int := do
  let hundreds ← parseInt 100
  let tens ← parseInt 10
  let ones ← parseInt 1
  pure (hundreds + tens + ones)

/-! ## Tokens -/

/-- An `int` that was assigned a number. -/
def toInt (n : Nat) : Int := (BitVec.ofNat 32 n).toInt

/-- `std::string_view{start, static_cast<usize>(token_len)}`, where `token_len` is an `int`. -/
def view (start : Bytes) (tokenLen : Nat) : Parser UInt8 Bytes := fun buf =>
  let size := (BitVec.ofInt 64 (toInt tokenLen)).toNat
  if size ≤ start.length then .done (start.take size) buf else .overrun

/-- The loop over eight bytes at a time, of which `k` are still to come, and whether it has gone to
    `FOUND_CTL`. -/
def unrolled : Nat → Bytes → Bytes × Bool
  | _, [] => ([], false)
  | k, c :: buf =>
    if k = 0 ∧ (c :: buf).length < 8 then (c :: buf, false)
    else if isPrintableAscii c then unrolled (if k = 0 then 7 else k - 1) buf
    else if isCtl c then (c :: buf, true)
    else unrolled 0 buf

def ranges1 : List UInt8 := [0, 8, 10, 31, 127, 127]

/-- `get_token_to_eol` up to `FOUND_CTL`. -/
def toCtl (sse : Bool) : Parser UInt8 Unit := fun buf =>
  let fast := if sse then findcharFast true ranges1 buf else unrolled 0 buf
  if fast.2 then .done () fast.1
  else skipWhile (fun c => isPrintableAscii c || !isCtl c) fast.1

/-- `FOUND_CTL`: how many bytes the end of the line has. -/
def foundCtl : Parser UInt8 Nat := do
  let c ← deref
  if c = 13 then do
    advance
    expectChar 10
    pure 2
  else if c = 10 then do
    advance
    pure 1
  else fail

def getTokenToEol (sse : Bool) : Parser UInt8 Bytes := do
  let line ← consumed do
    toCtl sse
    foundCtl
  view line.1 (line.1.length - line.2)

/-- Byte by byte up to one that ends the token. -/
def scanLoop (stop bad : UInt8 → Bool) : Bytes → Outcome UInt8 Unit
  | [] => .overrun
  | c :: buf =>
    if stop c then .done () (c :: buf)
    else if bad c then .failed
    else if buf = [] then .incomplete
    else scanLoop stop bad buf

/-- `parse_token` and `BATT_PICO_HTTP_ADVANCE_TOKEN`: the loop goes on from where the fast search
    has come to. -/
def scanToken (sse : Bool) (ranges : List UInt8) (stop bad : UInt8 → Bool) :
    Parser UInt8 Bytes := do
  let token ← consumed fun buf =>
    let fast := findcharFast sse ranges buf
    if fast.2 = false ∧ fast.1 = [] then .incomplete else scanLoop stop bad fast.1
  pure token.1

/-- `ranges` of `parse_token`. -/
def tokenRanges : List UInt8 :=
  [0, 32, 34, 34, 40, 41, 44, 44, 47, 47, 58, 64, 91, 93, 123, 255]

def parseToken (sse : Bool) (nextChar : UInt8) : Parser UInt8 Bytes :=
  scanToken sse tokenRanges (fun c => c = nextChar) (fun c => !isTokenChar c)

def ranges2 : List UInt8 := [0, 32, 127, 127]

def advanceToken (sse : Bool) : Parser UInt8 Bytes :=
  scanToken sse ranges2 (fun c => c = 32)
    (fun c => !isPrintableAscii c && (c.toNat < 32 || c = 127))

/-- `do { ++buf; CHECK_EOF(); } while (*buf == ' ')`. -/
def skipSpaces : Parser UInt8 Unit := do
  advance
  skipWhile fun c => c = 32

/-! ## Messages -/

structure MessageHeader where
  name : Bytes
  value : Bytes
deriving DecidableEq

structure Request where
  method : Bytes
  path : Bytes
  majorVersion : Int
  minorVersion : Int
  headers : List MessageHeader
deriving DecidableEq

structure Response where
  majorVersion : Int
  minorVersion : Int
  status : Int
  message : Bytes
  headers : List MessageHeader
deriving DecidableEq

/-- It wants at least nine bytes. -/
def parseHttpVersion : Parser UInt8 Int := do
  atLeast 9
  expectCharNoCheck 72
  expectCharNoCheck 84
  expectCharNoCheck 84
  expectCharNoCheck 80
  expectCharNoCheck 47
  expectCharNoCheck 49
  expectCharNoCheck 46
  parseInt 1

section

variable (sse : Bool)

/-- The name of a header, up to its value; it is empty where the line continues a value. -/
def headerName (numHeaders : Nat) : Parser UInt8 Bytes := do
  let c ← deref
  if !(numHeaders ≠ 0 && isBlank c) then do
    let name ← parseToken sse 58
    ensure (name.length ≠ 0)
    advance
    skipWhile isBlank
    pure name
  else pure []

/-- The value without the blanks at its end. -/
def trimEnd (value : Bytes) : Bytes := (value.reverse.dropWhile isBlank).reverse

/-- One turn of the loop of `parse_headers_impl`. -/
def headerLine (headers : List MessageHeader) :
    Parser UInt8 (List MessageHeader ⊕ List MessageHeader) := do
  checkEof
  let c ← deref
  if c = 13 then do
    advance
    expectChar 10
    pure (.inr headers)
  else if c = 10 then do
    advance
    pure (.inr headers)
  else do
    let name ← headerName sse headers.length
    let value ← getTokenToEol sse
    pure (.inl (headers ++ [⟨name, trimEnd value⟩]))

def parseHeadersImpl : Parser UInt8 (List MessageHeader) := loop (headerLine sse) []

/-- The first empty line of a request, which is skipped. -/
def skipEmptyLine : Parser UInt8 Unit := do
  checkEof
  let c ← deref
  if c = 13 then do
    advance
    expectChar 10
  else if c = 10 then advance
  else pure ()

/-- The end of the request line. -/
def endOfLine : Parser UInt8 Unit := do
  let c ← deref
  if c = 13 then do
    advance
    expectChar 10
  else if c = 10 then advance
  else fail

/-- `major_version` is set by the caller. -/
def parseRequestImpl : Parser UInt8 Request := do
  skipEmptyLine
  let method ← parseToken sse 32
  skipSpaces
  let path ← advanceToken sse
  skipSpaces
  ensure (method.length ≠ 0 && path.length ≠ 0)
  let minorVersion ← parseHttpVersion
  endOfLine
  let headers ← parseHeadersImpl sse
  pure ⟨method, path, 1, minorVersion, headers⟩

/-- `msg` without the spaces in front of it. -/
def responseMessage (msg : Bytes) : Parser UInt8 Bytes :=
  if msg.length = 0 then pure msg
  else if msg.head? = some 32 then pure (msg.dropWhile fun c => c = 32)
  else fail

def parseResponseImpl : Parser UInt8 Response := do
  let minorVersion ← parseHttpVersion
  let c ← deref
  ensure (c = 32)
  skipSpaces
  atLeast 4
  let status ← parseInt3
  let msg ← getTokenToEol sse
  let message ← responseMessage msg
  let headers ← parseHeadersImpl sse
  pure ⟨1, minorVersion, status, message, headers⟩

end

/-! ## `parse` -/

/-- The loop of `is_complete`: two ends of lines, one behind the other. -/
def completeLoop : Nat → Parser UInt8 Unit
  | _, [] => .incomplete
  | retCnt, c :: buf =>
    if c = 13 then
      match buf with
      | [] => .incomplete
      | d :: buf =>
        if d ≠ 10 then .failed
        else if retCnt + 1 = 2 then .done () buf
        else completeLoop (retCnt + 1) buf
    else if c = 10 then
      if retCnt + 1 = 2 then .done () buf else completeLoop (retCnt + 1) buf
    else completeLoop 0 buf

/-- `if (last_len != 0 && is_complete(..) == nullptr) return`. -/
def isComplete (lastLen : Nat) : Parser UInt8 Unit := fun buf =>
  if lastLen = 0 then .done () buf
  else if buf.length < lastLen - 3 then .overrun
  else
    match completeLoop 0 (buf.drop (lastLen - 3)) with
    | .done _ _ => .done () buf
    | .incomplete => .incomplete
    | .failed => .failed
    | .overrun => .overrun

def kParseOk : Int := 0

def kParseFailed : Int := -1

def kParseIncomplete : Int := -2

/-- The number that is returned, and what was read where that is a length. `none` is an overrun. -/
def answer {T : Type} (buf : Bytes) : Outcome UInt8 T → Option (Int × Option T)
  | .done t rest => some (toInt (buf.length - rest.length), some t)
  | .incomplete => some (kParseIncomplete, none)
  | .failed => some (kParseFailed, none)
  | .overrun => none

section

variable (sse : Bool) (buf : Bytes) (lastLen : Nat)

def Request.parse : Option (Int × Option Request) :=
  answer buf ((do isComplete lastLen; parseRequestImpl sse : Parser UInt8 Request) buf)

def Response.parse : Option (Int × Option Response) :=
  answer buf ((do isComplete lastLen; parseResponseImpl sse : Parser UInt8 Response) buf)

def parseHeaders : Option (Int × Option (List MessageHeader)) :=
  answer buf
    ((do isComplete lastLen; parseHeadersImpl sse : Parser UInt8 (List MessageHeader)) buf)

end

end Batt.PicoHttp
