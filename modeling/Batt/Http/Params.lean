/-
  The parameters of `http_request` (batteries/http/http_client.hpp, HttpClientRequestContext).

  `set_params` takes its parameters one by one, each to the overload of its kind. All but the
  headers end up as they should: the last data, version, client and response object are those of
  the request (`setParams_spec`). A header is pushed by `set_header` and once more by `set_params`
  itself, so that it is sent twice. An `HttpData` is moved by a virtual call on the storage of its
  source, which nothing was constructed in where it is empty.
-/
import Batt.Status
import Batt.Url.Model

namespace Batt.Http
open Url (View UrlParse)

structure HttpHeader where
  name : View
  value : View
deriving DecidableEq, Repr

structure HttpVersion where
  majorVersion : Int
  minorVersion : Int
deriving DecidableEq, Repr

structure HostAddress where
  scheme : View := []
  hostname : View := []
  port : Option Int := none
deriving DecidableEq, Repr

/-- `pico_http::Request`. -/
structure RequestMessage where
  method : View := []
  path : View := []
  majorVersion : Int := 0
  minorVersion : Int := 0
  headers : List HttpHeader := []
deriving DecidableEq, Repr

/-- The `BufferSource` that it holds. -/
abbrev HttpData (D : Type) := Option D

/-- `C`, `D` and `R` are the clients, the sources of data and the response objects. -/
structure HttpClientRequestContext (C D R : Type) where
  client : C
  hostAddress : HostAddress := {}
  message : RequestMessage := {}
  data : HttpData D
  response : Option R := none
deriving DecidableEq, Repr

/-- A parameter of `http_request`; the pointer to a response object may be null. -/
inductive Param (C D R : Type) where
  | header (hdr : HttpHeader)
  | data (data : HttpData D)
  | client (client : C)
  | response (response : Option R)
  | version (version : HttpVersion)
deriving DecidableEq, Repr

variable {C D R : Type} {params : List (Param C D R)}

namespace HttpClientRequestContext

def setVersion (context : HttpClientRequestContext C D R) (version : HttpVersion) :
    StatusOr Unit × HttpClientRequestContext C D R :=
  (.ok (), { context with message := { context.message with
    majorVersion := version.majorVersion, minorVersion := version.minorVersion } })

def setMethod (context : HttpClientRequestContext C D R) (method : View) :
    StatusOr Unit × HttpClientRequestContext C D R :=
  (.ok (), { context with message := { context.message with method := method } })

def setUrl (context : HttpClientRequestContext C D R) (url : UrlParse) :
    StatusOr Unit × HttpClientRequestContext C D R :=
  (.ok (), { context with
    hostAddress := ⟨url.scheme, url.host, url.port⟩
    message := { context.message with
      path := url.path ++ (if url.query = [] then [] else '?' :: url.query) ++
        (if url.fragment = [] then [] else '#' :: url.fragment) } })

def setHeader (context : HttpClientRequestContext C D R) (hdr : HttpHeader) :
    HttpClientRequestContext C D R :=
  { context with message := { context.message with headers := context.message.headers ++ [hdr] } }

/-- `none` is the virtual call on the storage of an empty source. -/
def setData (context : HttpClientRequestContext C D R) :
    HttpData D → Option (HttpClientRequestContext C D R)
  | none => none
  | some source => some { context with data := some source }

def setResponseObject (context : HttpClientRequestContext C D R) (response : R) :
    HttpClientRequestContext C D R := { context with response := some response }

/-- The context as the constructor leaves it. -/
def new (client : C) (data : HttpData D) : HttpClientRequestContext C D R :=
  (setVersion { client := client, data := data } ⟨1, 1⟩).2

/-- `none` is the failed BATT_CHECK of a null pointer, or what `setData` comes to. -/
def setParams (context : HttpClientRequestContext C D R) :
    List (Param C D R) → Option (StatusOr Unit × HttpClientRequestContext C D R)
  | [] => some (.ok (), context)
  | .header hdr :: rest =>
    let context := context.setHeader hdr
    setParams { context with message := { context.message with
      headers := context.message.headers ++ [hdr] } } rest
  | .data data :: rest => (context.setData data).bind fun context => setParams context rest
  | .client client :: rest => setParams { context with client := client } rest
  | .response none :: _ => none
  | .response (some response) :: rest => setParams (context.setResponseObject response) rest
  | .version version :: rest =>
    match context.setVersion version with
    | (.error code, context) => some (.error code, context)
    | (.ok _, context) => setParams context rest

/-- A request up to its parameters: a new context with the method and the URL. -/
def prepared (client : C) (data : HttpData D) (method : View) (url : UrlParse) :
    HttpClientRequestContext C D R := (((new client data).setMethod method).2.setUrl url).2

def version (context : HttpClientRequestContext C D R) : HttpVersion :=
  ⟨context.message.majorVersion, context.message.minorVersion⟩

end HttpClientRequestContext

/-! ## The parameters of a kind -/

namespace Param

def header? : Param C D R → Option HttpHeader
  | .header hdr => some hdr
  | _ => none

def data? : Param C D R → Option (HttpData D)
  | .data d => some d
  | _ => none

def client? : Param C D R → Option C
  | .client c => some c
  | _ => none

def response? : Param C D R → Option R
  | .response r => r
  | _ => none

def version? : Param C D R → Option HttpVersion
  | .version v => some v
  | _ => none

end Param

def lastOf {α : Type} (kind : Param C D R → Option α) (params : List (Param C D R)) : Option α :=
  (params.filterMap kind).getLast?

theorem lastOf_cons {α : Type} (kind : Param C D R → Option α) (param : Param C D R)
    (params : List (Param C D R)) (a : α) :
    (lastOf kind (param :: params)).getD a =
      (lastOf kind params).getD ((kind param).getD a) := by
  unfold lastOf
  cases h : kind param with
  | none => rw [List.filterMap_cons_none h, Option.getD_none]
  | some b => rw [List.filterMap_cons_some h, List.getLast?_cons, Option.getD_some, Option.getD_some]

theorem lastOf_cons_or {α : Type} (kind : Param C D R → Option α) (param : Param C D R)
    (params : List (Param C D R)) (a : Option α) :
    (lastOf kind (param :: params)).or a = (lastOf kind params).or ((kind param).or a) := by
  unfold lastOf
  cases h : kind param with
  | none => rw [List.filterMap_cons_none h, Option.none_or]
  | some b =>
    rw [List.filterMap_cons_some h, List.getLast?_cons, Option.some_or, Option.some_or]
    cases (params.filterMap kind).getLast? <;> rfl

/-- `after` differs from `before` by the parameters: all headers behind those that were there, and
    the last of each other kind. -/
structure Applied (before : HttpClientRequestContext C D R) (params : List (Param C D R))
    (after : HttpClientRequestContext C D R) : Prop where
  headers : after.message.headers = before.message.headers ++ params.filterMap Param.header?
  data : after.data = (lastOf Param.data? params).getD before.data
  version : after.version = (lastOf Param.version? params).getD before.version
  client : after.client = (lastOf Param.client? params).getD before.client
  response : after.response = (lastOf Param.response? params).or before.response

/-! ## What set_params does -/

/-- As `Applied`, but with every header twice. -/
structure Doubled (before : HttpClientRequestContext C D R) (params : List (Param C D R))
    (after : HttpClientRequestContext C D R) : Prop where
  headers : after.message.headers = before.message.headers ++
    (params.filterMap Param.header?).flatMap fun hdr => [hdr, hdr]
  data : after.data = (lastOf Param.data? params).getD before.data
  version : after.version = (lastOf Param.version? params).getD before.version
  client : after.client = (lastOf Param.client? params).getD before.client
  response : after.response = (lastOf Param.response? params).or before.response

/-- One parameter, then the others. -/
theorem Doubled.cons {before next after : HttpClientRequestContext C D R} {param : Param C D R}
    (h : Doubled next params after) (hheaders : next.message.headers =
      before.message.headers ++ param.header?.toList.flatMap fun hdr => [hdr, hdr])
    (hdata : next.data = param.data?.getD before.data)
    (hversion : next.version = param.version?.getD before.version)
    (hclient : next.client = param.client?.getD before.client)
    (hresponse : next.response = param.response?.or before.response) :
    Doubled before (param :: params) after where
  headers := by
    rw [h.headers, hheaders, List.append_assoc, ← List.flatMap_append]
    cases hdr : param.header? with
    | none => rw [List.filterMap_cons_none hdr, Option.toList_none, List.nil_append]
    | some b => rw [List.filterMap_cons_some hdr, Option.toList_some, List.singleton_append]
  data := by rw [h.data, hdata, lastOf_cons]
  version := by rw [h.version, hversion, lastOf_cons]
  client := by rw [h.client, hclient, lastOf_cons]
  response := by rw [h.response, hresponse, lastOf_cons_or]

theorem setParams_spec (hnull : .response none ∉ params) (hempty : .data none ∉ params)
    (context : HttpClientRequestContext C D R) :
    ∃ after, context.setParams params = some (.ok (), after) ∧ Doubled context params after := by
  induction params generalizing context with
  | nil => exact ⟨context, rfl, (List.append_nil _).symm, rfl, rfl, rfl, rfl⟩
  | cons param params ih =>
    replace ih := ih (fun h => hnull (List.mem_cons_of_mem param h))
      (fun h => hempty (List.mem_cons_of_mem param h))
    cases param with
    | header hdr =>
      obtain ⟨after, heq, h⟩ := ih { context.setHeader hdr with
        message := { (context.setHeader hdr).message with
          headers := (context.setHeader hdr).message.headers ++ [hdr] } }
      exact ⟨after, heq, h.cons (List.append_assoc _ _ _) rfl rfl rfl rfl⟩
    | data data =>
      cases data with
      | none => exact absurd List.mem_cons_self hempty
      | some source =>
        obtain ⟨after, heq, h⟩ := ih { context with data := some source }
        exact ⟨after, heq, h.cons (List.append_nil _).symm rfl rfl rfl rfl⟩
    | client client =>
      obtain ⟨after, heq, h⟩ := ih { context with client := client }
      exact ⟨after, heq, h.cons (List.append_nil _).symm rfl rfl rfl rfl⟩
    | response response =>
      cases response with
      | none => exact absurd List.mem_cons_self hnull
      | some response =>
        obtain ⟨after, heq, h⟩ := ih (context.setResponseObject response)
        exact ⟨after, heq, h.cons (List.append_nil _).symm rfl rfl rfl rfl⟩
    | version version =>
      obtain ⟨after, heq, h⟩ := ih (context.setVersion version).2
      exact ⟨after, heq, h.cons (List.append_nil _).symm rfl rfl rfl rfl⟩

theorem setParams_of_empty (h : .data none ∈ params) (context : HttpClientRequestContext C D R) :
    context.setParams params = none := by
  induction params generalizing context with
  | nil => cases h
  | cons param params ih =>
    rcases List.mem_cons.mp h with rfl | hrest
    · rfl
    · cases param with
      | header hdr => exact ih hrest _
      | data data =>
        cases data with
        | none => rfl
        | some source => exact ih hrest _
      | client client => exact ih hrest _
      | response response =>
        cases response with
        | none => rfl
        | some response => exact ih hrest _
      | version version => exact ih hrest _

/-- Nothing is repeated if and only if there is nothing. -/
theorem flatMap_twice_eq_iff {α : Type} (xs : List α) :
    (xs.flatMap fun x => [x, x]) = xs ↔ xs = [] := by
  cases xs with
  | nil => exact iff_of_true rfl rfl
  | cons x xs =>
    refine iff_of_false (fun h => ?_) (List.cons_ne_nil x xs)
    have hlen : (xs.flatMap fun y => [y, y]).length = 2 * xs.length := by
      clear h
      induction xs with
      | nil => rfl
      | cons y xs ih =>
        rw [List.flatMap_cons, List.length_append, ih, List.length_cons, List.length_cons,
          List.length_cons, List.length_nil]
        omega
    have heq := congrArg List.length h
    rw [List.flatMap_cons, List.length_append, hlen, List.length_cons, List.length_cons,
      List.length_cons, List.length_nil] at heq
    omega

theorem filterMap_header_eq_nil_iff (params : List (Param C D R)) :
    params.filterMap Param.header? = [] ↔ ∀ hdr, .header hdr ∉ params := by
  rw [List.filterMap_eq_nil_iff]
  constructor
  · exact fun h hdr hmem => absurd (h _ hmem) (Option.some_ne_none hdr)
  · intro h param hmem
    cases param with
    | header hdr => exact absurd hmem (h hdr)
    | data _ | client _ | response _ | version _ => rfl

/-- **When the parameters are applied faithfully.** For every request and every list of
    parameters without a null pointer, `set_params` succeeds, and has applied them all, the
    headers once each, if and only if there is no header and no empty data among them. -/
theorem applied_iff (client : C) (data : HttpData D) (method : View) (url : UrlParse)
    {params : List (Param C D R)} (hnull : .response none ∉ params) :
    (∃ after, (HttpClientRequestContext.prepared client data method url).setParams params =
        some (.ok (), after) ∧
      Applied (.prepared client data method url) params after) ↔
      (∀ hdr, .header hdr ∉ params) ∧ .data none ∉ params := by
  by_cases hempty : .data none ∈ params
  · refine iff_of_false ?_ fun h => h.2 hempty
    rintro ⟨after, heq, _⟩
    rw [setParams_of_empty hempty] at heq
    cases heq
  · obtain ⟨after, heq, h⟩ :=
      setParams_spec hnull hempty (HttpClientRequestContext.prepared client data method url)
    have hheaders := h.headers
    rw [show (HttpClientRequestContext.prepared client data method url : HttpClientRequestContext
      C D R).message.headers = [] from rfl, List.nil_append] at hheaders
    rw [and_iff_left hempty, ← filterMap_header_eq_nil_iff, ← flatMap_twice_eq_iff]
    constructor
    · rintro ⟨after', heq', happlied⟩
      rw [heq] at heq'
      cases heq'
      exact hheaders.symm.trans happlied.headers
    · intro hnone
      exact ⟨after, heq, hheaders.trans hnone, h.data, h.version, h.client, h.response⟩

theorem applied_iff_two_versions :
    ∃ after, (HttpClientRequestContext.prepared 0 none "GET".toList {}).setParams
          [.version ⟨1, 0⟩, .data (some 7), .response (some 3), .version ⟨1, 1⟩] =
        some (.ok (), after) ∧
      Applied (.prepared 0 none "GET".toList {})
        [.version ⟨1, 0⟩, .data (some 7), .response (some 3), .version ⟨1, 1⟩] after :=
  (@applied_iff Nat Nat Nat 0 none "GET".toList {}
    [.version ⟨1, 0⟩, .data (some 7), .response (some 3), .version ⟨1, 1⟩] (by decide)).mpr
      ⟨fun hdr h => by simp at h, by decide⟩

/-- One header is there twice. -/
theorem header_twice :
    ∃ after, (HttpClientRequestContext.prepared 0 none "GET".toList {} :
          HttpClientRequestContext Nat Nat Nat).setParams
        [.header ⟨"Accept".toList, "*/*".toList⟩] = some (.ok (), after) ∧
      after.message.headers =
        [⟨"Accept".toList, "*/*".toList⟩, ⟨"Accept".toList, "*/*".toList⟩] ∧
      ¬ Applied (.prepared 0 none "GET".toList {}) [.header ⟨"Accept".toList, "*/*".toList⟩]
        after :=
  ⟨_, rfl, rfl, fun h => absurd (congrArg List.length h.headers) (by decide)⟩

end Batt.Http
