/-
  `HttpClientConnection` as a whole (http/http_client_connection_impl.hpp), with the callers of
  `http_request` (http/http_client.hpp) at one end.

  A connection has three tasks. `process_requests` takes requests from the queue of its host, writes
  them to the socket and puts their responses into the response queue; `process_responses` takes the
  responses from there and reads them from the input buffer; `fill_input_buffer` fills that buffer
  from the socket. A caller submits its request and waits for the states of the request and of the
  response. Request and response have the number of their caller.

  What the network and the application do is up to the schedule: the outcome of connecting, of
  writing a request, of reading a response, and what the application returns, any of them at any
  time. The two queues are `batt::Queue`s; `await_next` takes the oldest item, and fails where the
  queue is closed (which it may find before it sees the last items). `Task::host` stands for the
  host context: another connection takes the next request, or the queue is closed.

  `dequeued` records the run and no step reads it.
-/
import Batt.Http.Connection
import Batt.Lib.Interleave

namespace Batt.Http.Client

open Interleave

/-! ## Messages -/

inductive State where
  | kCreated
  | kInitialized
  | kConsumed
  deriving DecidableEq, Repr

/-- `HttpMessageBase`: the watch `state_`, and `status_`. -/
structure MessageBase where
  state : State
  closed : Bool
  status : StatusCode
  deriving DecidableEq, Repr

namespace MessageBase

def new : MessageBase := ⟨.kCreated, false, .kOk⟩

def setValue (m : MessageBase) (state : State) : MessageBase := { m with state := state }

def close (m : MessageBase) : MessageBase := { m with closed := true }

/-- `status_.Update(status)`. -/
def updateStatus (m : MessageBase) (status : StatusCode) : MessageBase :=
  if m.status = .kOk ∨ m.status = .kUnknown then { m with status := status } else m

/-- `state().await_equal(val)`; `none` while it blocks. -/
def awaitEqual (m : MessageBase) (val : State) : Option (StatusOr Unit) :=
  if m.state = val then some (.ok ()) else if m.closed then some (.error .kClosed) else none

end MessageBase

/-! ## Tasks -/

structure Shared where
  request : Nat → MessageBase
  response : Nat → MessageBase
  requestQueue : List Nat
  requestQueueClosed : Bool
  responseQueue : List Nat
  responseQueueClosed : Bool
  /-- `fill_input_buffer_task` has been started, and has ended. -/
  fillStarted : Bool
  fillDone : Bool
  inputClosedForRead : Bool
  /-- The requests this connection has taken, oldest first. -/
  dequeued : List Nat

inductive RequestsPc where
  | awaitNextRequest (connected : Bool)
  | openConnection (n : Nat)
  | updateStatus (n : Nat) (status : StatusCode)
  | closeRequest (n : Nat)
  | push (n : Nat)
  | serialize (n : Nat)
  | setConsumed (n : Nat)
  | onExit
  | joinFill
  | returned
  deriving DecidableEq, Repr

inductive ResponsesPc where
  | awaitNext
  | readNextResponse (n : Nat)
  | updateStatus (n : Nat)
  | closeResponse (n : Nat)
  | setInitialized (n : Nat) (info : ResponseInfo)
  | setMessage (info : ResponseInfo)
  | setData (info : ResponseInfo)
  | afterData (info : ResponseInfo)
  | onExit
  | returned
  deriving DecidableEq, Repr

inductive FillPc where
  | waiting
  | prepareAtLeast
  | readSome
  | onExit
  | done
  deriving DecidableEq, Repr

/-- A caller of `http_request`, from `submit` on. -/
inductive CallerPc where
  | setInitialized
  | submitRequest
  | awaitRequest
  | awaitResponse
  | done (result : StatusOr Unit)
  deriving DecidableEq

inductive Task where
  | requests (pc : RequestsPc)
  | responses (pc : ResponsesPc)
  | fill (pc : FillPc)
  | host
  | caller (n : Nat) (pc : CallerPc)
  deriving DecidableEq

inductive Act where
  | run
  /-- `await_next` finds its queue closed. -/
  | closed
  /-- The endpoints that were resolved; whether each of them accepts the connection. -/
  | hosts (hosts : StatusOr (List Bool))
  /-- What `read_next_response` returns. -/
  | message (message : StatusOr Message)
  /-- What any other call on the socket or the channels returns. -/
  | status (status : StatusOr Unit)
  | takeElsewhere
  | closeRequestQueue

/-! ## Steps -/

namespace Shared

variable (sh : Shared)

def updateRequest (n : Nat) (f : MessageBase → MessageBase) : Shared :=
  { sh with request := Function.update sh.request n (f (sh.request n)) }

def updateResponse (n : Nat) (f : MessageBase → MessageBase) : Shared :=
  { sh with response := Function.update sh.response n (f (sh.response n)) }

/-- `request_queue_.push`, whose result is ignored. -/
def pushRequest (n : Nat) : Shared :=
  if sh.requestQueueClosed then sh else { sh with requestQueue := sh.requestQueue ++ [n] }

def pushResponse (n : Nat) : Shared :=
  if sh.responseQueueClosed then sh else { sh with responseQueue := sh.responseQueue ++ [n] }

theorem updateRequest_self (n : Nat) (f : MessageBase → MessageBase) :
    (sh.updateRequest n f).request n = f (sh.request n) :=
  Function.update_self _ _ _

theorem updateRequest_of_ne {n k : Nat} (hk : k ≠ n) (f : MessageBase → MessageBase) :
    (sh.updateRequest n f).request k = sh.request k :=
  Function.update_of_ne hk _ _

theorem updateResponse_self (n : Nat) (f : MessageBase → MessageBase) :
    (sh.updateResponse n f).response n = f (sh.response n) :=
  Function.update_self _ _ _

theorem updateResponse_of_ne {n k : Nat} (hk : k ≠ n) (f : MessageBase → MessageBase) :
    (sh.updateResponse n f).response k = sh.response k :=
  Function.update_of_ne hk _ _

end Shared

def openConnection : StatusOr (List Bool) → StatusOr Unit
  | .error status => .error status
  | .ok hosts => if hosts.any id then .ok () else .error .kUnavailable

def processRequests : Act → Shared → RequestsPc → Option (Shared × RequestsPc)
  | .run, sh, .awaitNextRequest connected =>
    match sh.requestQueue with
    | [] => none
    | n :: rest =>
      -- BATT_CHECK_EQ(request->state().get_value(), HttpRequest::kInitialized)
      if (sh.request n).state = .kInitialized then
        some ({ sh with requestQueue := rest, dequeued := sh.dequeued ++ [n] },
          if connected then .push n else .openConnection n)
      else none
  | .closed, sh, .awaitNextRequest _ => if sh.requestQueueClosed then some (sh, .onExit) else none
  | .hosts hosts, sh, .openConnection n =>
    match openConnection hosts with
    | .ok _ => some ({ sh with fillStarted := true }, .push n)
    | .error status => some (sh, .updateStatus n status)
  | .run, sh, .updateStatus n status =>
    some (sh.updateRequest n fun m => m.updateStatus status, .closeRequest n)
  | .run, sh, .closeRequest n => some (sh.updateRequest n MessageBase.close, .onExit)
  | .run, sh, .push n => some (sh.pushResponse n, .serialize n)
  | .status (.ok _), sh, .serialize n => some (sh, .setConsumed n)
  | .status (.error _), sh, .serialize _ => some (sh, .onExit)
  | .run, sh, .setConsumed n =>
    some (sh.updateRequest n fun m => m.setValue .kConsumed, .awaitNextRequest true)
  | .run, sh, .onExit => some ({ sh with responseQueueClosed := true }, .joinFill)
  | .run, sh, .joinFill => if sh.fillStarted && !sh.fillDone then none else some (sh, .returned)
  | _, _, _ => none

def processResponses : Act → Shared → ResponsesPc → Option (Shared × ResponsesPc)
  | .run, sh, .awaitNext =>
    match sh.responseQueue with
    | [] => none
    | n :: rest => some ({ sh with responseQueue := rest }, .readNextResponse n)
  | .closed, sh, .awaitNext => if sh.responseQueueClosed then some (sh, .onExit) else none
  | .message (.ok message), sh, .readNextResponse n =>
    let info := ResponseInfo.new message
    some (sh, if info.isValid then .setInitialized n info else .updateStatus n)
  | .message (.error _), sh, .readNextResponse _ => some (sh, .onExit)
  | .run, sh, .updateStatus n =>
    some (sh.updateResponse n fun m => m.updateStatus .kInvalidArgument, .closeResponse n)
  | .run, sh, .closeResponse n => some (sh.updateResponse n MessageBase.close, .onExit)
  | .run, sh, .setInitialized n info =>
    some (sh.updateResponse n fun m => m.setValue .kInitialized, .setMessage info)
  | .status (.ok _), sh, .setMessage info => some (sh, .setData info)
  | .status (.error _), sh, .setMessage _ => some (sh, .onExit)
  -- await_set_data(response_data).IgnoreError()
  | .status _, sh, .setData info => some (sh, .afterData info)
  | .status (.ok _), sh, .afterData info =>
    some (sh, if info.keepAlive then .awaitNext else .onExit)
  | .status (.error _), sh, .afterData _ => some (sh, .onExit)
  | .run, sh, .onExit => some ({ sh with inputClosedForRead := true }, .returned)
  | _, _, _ => none

def fillInputBuffer : Act → Shared → FillPc → Option (Shared × FillPc)
  | .run, sh, .waiting => if sh.fillStarted then some (sh, .prepareAtLeast) else none
  | .run, sh, .prepareAtLeast => some (sh, if sh.inputClosedForRead then .onExit else .readSome)
  | .status (.ok _), sh, .readSome => some (sh, .prepareAtLeast)
  | .status (.error _), sh, .readSome => some (sh, .onExit)
  | .run, sh, .onExit => some ({ sh with fillDone := true }, .done)
  | _, _, _ => none

def hostContext : Act → Shared → Option Shared
  | .takeElsewhere, sh => some { sh with requestQueue := sh.requestQueue.tail }
  | .closeRequestQueue, sh => some { sh with requestQueueClosed := true }
  | _, _ => none

/-- The status of the message, if it has one, goes before that of the wait. -/
def requireOk (m : MessageBase) (status : StatusCode) : StatusOr Unit :=
  .error (if m.status = .kOk then status else m.status)

def httpRequest : Act → Nat → Shared → CallerPc → Option (Shared × CallerPc)
  | .run, n, sh, .setInitialized =>
    some (sh.updateRequest n fun m => m.setValue .kInitialized, .submitRequest)
  | .run, n, sh, .submitRequest => some (sh.pushRequest n, .awaitRequest)
  | .run, n, sh, .awaitRequest =>
    ((sh.request n).awaitEqual .kConsumed).map fun r =>
      match r with
      | .ok _ => (sh, .awaitResponse)
      | .error status => (sh, .done (requireOk (sh.request n) status))
  | .run, n, sh, .awaitResponse =>
    ((sh.response n).awaitEqual .kInitialized).map fun r =>
      match r with
      | .ok _ => (sh, .done (.ok ()))
      | .error status => (sh, .done (requireOk (sh.response n) status))
  | _, _, _, _ => none

def step (a : Act) (sh : Shared) : Task → Option (Shared × Task)
  | .requests pc => (processRequests a sh pc).map fun r => (r.1, .requests r.2)
  | .responses pc => (processResponses a sh pc).map fun r => (r.1, .responses r.2)
  | .fill pc => (fillInputBuffer a sh pc).map fun r => (r.1, .fill r.2)
  | .host => (hostContext a sh).map fun sh' => (sh', .host)
  | .caller n pc => (httpRequest a n sh pc).map fun r => (r.1, .caller n r.2)

def machine : Machine Shared Task Act where
  step := step

/-! ## Configurations -/

/-- The tasks of the connection, and callers by their numbers. -/
def conf (sh : Shared) (q : RequestsPc) (r : ResponsesPc) (f : FillPc) (callers : List CallerPc) :
    Conf Shared Task :=
  ⟨sh, .requests q :: .responses r :: .fill f :: .host :: callers.mapIdx .caller⟩

/-- A new connection, and `k` callers with the responses they brought. -/
def init (k : Nat) (response : Nat → MessageBase) : Conf Shared Task :=
  conf
    { request := fun _ => .new
      response := response
      requestQueue := []
      requestQueueClosed := false
      responseQueue := []
      responseQueueClosed := false
      fillStarted := false
      fillDone := false
      inputClosedForRead := false
      dequeued := [] }
    (.awaitNextRequest false) .awaitNext .waiting (List.replicate k .setInitialized)

/-- Which task takes a step, and what the step is. -/
inductive Moved (i : Nat) (a : Act) (sh : Shared) (q : RequestsPc) (r : ResponsesPc) (f : FillPc)
    (callers : List CallerPc) : Conf Shared Task → Prop
  | requests {sh' : Shared} {q' : RequestsPc} (hi : i = 0)
      (h : processRequests a sh q = some (sh', q')) : Moved i a sh q r f callers (conf sh' q' r f callers)
  | responses {sh' : Shared} {r' : ResponsesPc} (hi : i = 1)
      (h : processResponses a sh r = some (sh', r')) : Moved i a sh q r f callers (conf sh' q r' f callers)
  | fill {sh' : Shared} {f' : FillPc} (hi : i = 2)
      (h : fillInputBuffer a sh f = some (sh', f')) : Moved i a sh q r f callers (conf sh' q r f' callers)
  | host {sh' : Shared} (hi : i = 3)
      (h : hostContext a sh = some sh') : Moved i a sh q r f callers (conf sh' q r f callers)
  | caller {n : Nat} {pc pc' : CallerPc} {sh' : Shared} (hi : i = n + 4)
      (hpc : callers[n]? = some pc) (h : httpRequest a n sh pc = some (sh', pc')) :
      Moved i a sh q r f callers (conf sh' q r f (callers.set n pc'))

theorem moved_of_fire {i : Nat} {a : Act} {sh : Shared} {q : RequestsPc} {r : ResponsesPc} {f : FillPc}
    {callers : List CallerPc} {c' : Conf Shared Task}
    (h : machine.fire i a (conf sh q r f callers) = some c') : Moved i a sh q r f callers c' := by
  obtain ⟨l, sh', l', hl, -, hs, rfl⟩ := machine.fire_cases h
  match i, hl with
  | 0, hl =>
    cases hl
    obtain ⟨⟨sh₁, q'⟩, hq, heq⟩ := Option.map_eq_some_iff.mp hs
    cases heq
    exact .requests rfl hq
  | 1, hl =>
    cases hl
    obtain ⟨⟨sh₁, r'⟩, hr, heq⟩ := Option.map_eq_some_iff.mp hs
    cases heq
    exact .responses rfl hr
  | 2, hl =>
    cases hl
    obtain ⟨⟨sh₁, f'⟩, hf, heq⟩ := Option.map_eq_some_iff.mp hs
    cases heq
    exact .fill rfl hf
  | 3, hl =>
    cases hl
    obtain ⟨sh₁, hh, heq⟩ := Option.map_eq_some_iff.mp hs
    cases heq
    exact .host rfl hh
  | n + 4, hl =>
    have hidx : (callers.mapIdx Task.caller)[n]? = some l := hl
    rw [List.getElem?_mapIdx] at hidx
    obtain ⟨pc, hpc, rfl⟩ := Option.map_eq_some_iff.mp hidx
    obtain ⟨⟨sh₁, pc'⟩, hc, heq⟩ := Option.map_eq_some_iff.mp hs
    cases heq
    have hset : conf sh₁ q r f (callers.set n pc') =
        ⟨sh₁, (conf sh q r f callers).locals.set (n + 4) (.caller n pc')⟩ := by
      simp [conf, List.mapIdx_set]
    rw [← hset]
    exact .caller rfl hpc hc

end Batt.Http.Client
