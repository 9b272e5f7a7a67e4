/-
  The parser of URLs (batteries/url_parse.hpp).

  A `std::string_view` is the list of its characters, and a parse keeps views of the text it was
  given. The operations of a view carry their preconditions: `substr` throws when it starts behind
  the end, `front`, `operator[]` and `remove_prefix` are undefined there, and the code has three
  `BATT_PANIC` branches of its own. Each of these is a `Fault`, so that "the parser returns" is a
  statement about the model.

  The variable of `from_string<i64>` has no initial value and the extraction leaves it alone when
  there is nothing but blanks; what it holds then is the parameter `uninit`.
-/
import Batt.FromString.Model
import Batt.Status

namespace Batt.Url

open FromString (fromString i64)

/-! ## Views -/

inductive Fault where
  | panic
  | outOfRange
  | undefined
deriving DecidableEq, Repr

abbrev View := List Char

/-- What a function of the parser does: it returns, or it comes to a fault. -/
abbrev Run (α : Type) := Except Fault α

/-- `find_first_of`; `find` of a character is the one with a single delimiter. `npos` is `none`. -/
def findFirstOf (url : View) (delims : List Char) : Option Nat :=
  url.findIdx? (fun c => decide (c ∈ delims))

def find (url : View) (delim : Char) : Option Nat :=
  findFirstOf url [delim]

def substr (url : View) (pos : Nat) (count : Option Nat) : Run View :=
  if url.length < pos then .error .outOfRange
  else
    match count with
    | none => .ok (url.drop pos)
    | some n => .ok ((url.drop pos).take n)

def removePrefix (url : View) (n : Nat) : Run View :=
  if url.length < n then .error .undefined else .ok (url.drop n)

/-- `operator[]`; `front` is the one at the first place. -/
def charAt (url : View) (i : Nat) : Run Char :=
  match url[i]? with
  | none => .error .undefined
  | some c => .ok c

def front (url : View) : Run Char :=
  charAt url 0

/-- The `&&` of the source: its right side is evaluated only when the left one holds. -/
def andAlso (left : Bool) (right : Run Bool) : Run Bool :=
  if left then right else pure false

/-- A view of the first `n` characters from the pointer of another. -/
def viewOfData (url : View) (n : Nat) : Run View :=
  if url.length < n then .error .undefined else .ok (url.take n)

/-! ## The parser -/

structure UrlParse where
  scheme : View := []
  user : View := []
  host : View := []
  port : Option Int := none
  path : View := []
  query : View := []
  fragment : View := []
deriving DecidableEq, Repr

def parseUrlQuery (url : View) (parse : UrlParse) : Run (StatusOr UrlParse) := do
  match find url '#' with
  | none => pure (.ok { parse with query := url })
  | some queryDelim =>
    let query ← substr url 0 (some queryDelim)
    let fragment ← substr url (queryDelim + 1) none
    pure (.ok { parse with query := query, fragment := fragment })

def parseUrlPath (url : View) (parse : UrlParse) : Run (StatusOr UrlParse) := do
  match findFirstOf url ['?', '#'] with
  | none => pure (.ok { parse with path := url })
  | some pathDelim =>
    let path ← viewOfData url pathDelim
    let parse := { parse with path := path }
    let url ← removePrefix url pathDelim
    match ← front url with
    | '?' =>
      let url ← removePrefix url 1
      parseUrlQuery url parse
    | '#' =>
      let url ← removePrefix url 1
      pure (.ok { parse with fragment := url })
    | _ => throw .panic

def parseUrlPort (uninit : Int) (url : View) (parse : UrlParse) : Run (StatusOr UrlParse) := do
  let portStr ← substr url 0 (find url '/')
  match fromString i64 uninit portStr with
  | none => pure (.error .kInvalidArgument)
  | some port =>
    let url ← removePrefix url portStr.length
    parseUrlPath url { parse with port := some port }

/-- The end of `parse_url_host`, from the second test for an empty view on. -/
def parseAfterHost (uninit : Int) (url : View) (parse : UrlParse) : Run (StatusOr UrlParse) := do
  if url.isEmpty then pure (.ok parse)
  else
    match ← front url with
    | ':' =>
      let url ← removePrefix url 1
      parseUrlPort uninit url parse
    | '/' => parseUrlPath url parse
    | _ => throw .panic

def parseUrlHost (uninit : Int) (url : View) (parse : UrlParse) : Run (StatusOr UrlParse) := do
  if url.isEmpty then pure (.ok parse)
  else if (← front url) = '[' then
    let url ← removePrefix url 1
    match findFirstOf url [']'] with
    | none => pure (.error .kInvalidArgument)
    | some hostDelim =>
      let host ← substr url 0 (some hostDelim)
      let url ← removePrefix url (hostDelim + 1)
      parseAfterHost uninit url { parse with host := host }
  else
    match findFirstOf url [':', '/'] with
    | none => pure (.ok { parse with host := url })
    | some hostDelim =>
      let host ← substr url 0 (some hostDelim)
      let url ← removePrefix url hostDelim
      parseAfterHost uninit url { parse with host := host }

def parseUrlAuth (uninit : Int) (url : View) (parse : UrlParse) : Run (StatusOr UrlParse) := do
  if ← andAlso (!url.isEmpty) (do pure ((← front url) = '[')) then parseUrlHost uninit url parse
  else
    match findFirstOf url ['@', ':', '/'] with
    | none => pure (.ok { parse with host := url })
    | some authFirstDelim =>
      match ← charAt url authFirstDelim with
      | '@' =>
        let user ← substr url 0 (some authFirstDelim)
        let url ← removePrefix url (user.length + 1)
        parseUrlHost uninit url { parse with user := user }
      | ':' =>
        let host ← substr url 0 (some authFirstDelim)
        let url ← removePrefix url (host.length + 1)
        parseUrlPort uninit url { parse with user := [], host := host }
      | '/' =>
        let host ← substr url 0 (some authFirstDelim)
        let url ← removePrefix url host.length
        parseUrlPath url { parse with user := [], host := host, port := none }
      | _ => throw .panic

def parseUrl (uninit : Int) (url : View) : Run (StatusOr UrlParse) := do
  if url.isEmpty then pure (.ok {})
  else if (← front url) = '/' then parseUrlPath url {}
  else
    match find url ':' with
    | none => pure (.ok { scheme := url })
    | some schemeDelim =>
      let scheme ← substr url 0 (some schemeDelim)
      let url ← removePrefix url (schemeDelim + 1)
      if ← andAlso (url.length > 1) (do
          andAlso ((← charAt url 0) = '/') (do pure ((← charAt url 1) = '/'))) then
        let url ← removePrefix url 2
        parseUrlAuth uninit url { scheme := scheme }
      else parseUrlPath url { scheme := scheme }

end Batt.Url
