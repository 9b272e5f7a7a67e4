/-
  Which requests and responses of a connection get an answer.

  A message is resolved when a caller that waits for it goes on. `process_requests` has the request it
  took in its hands until it has been written, and its response until it is in the response queue;
  `process_responses` has a response in its hands from there until it is initialized or closed. Five
  steps let go of a message that is not resolved: a connection that is not opened (the request is
  closed, its response is not), a request that is not written, a response that is not read, the end of
  `process_responses` with responses in the queue, and a response that is put into the queue after
  that. `meets` are the steps that are none of these.

  `Held` is what they keep: each message that is not resolved is in the hands of a task or in the
  queue. After any other step there is a message that nobody will resolve (`Orphan`), and no step ever
  makes up for it.
-/
import Batt.Http.Client

namespace Batt.Http.Client

open Interleave

/-! ## What the tasks have in their hands -/

/-- A caller that waits for the value goes on. -/
def MessageBase.Resolved (m : MessageBase) (val : State) : Prop := m.state = val ∨ m.closed = true

def RequestsPc.request : RequestsPc → Option Nat
  | .openConnection n | .updateStatus n _ | .closeRequest n | .push n | .serialize n
  | .setConsumed n => some n
  | .awaitNextRequest _ | .onExit | .joinFill | .returned => none

def RequestsPc.response : RequestsPc → Option Nat
  | .openConnection n | .push n => some n
  | _ => none

def ResponsesPc.response : ResponsesPc → Option Nat
  | .readNextResponse n | .updateStatus n | .closeResponse n | .setInitialized n _ => some n
  | _ => none

/-- The responses on their way. -/
def flow (sh : Shared) (q : RequestsPc) (r : ResponsesPc) : List Nat :=
  q.response.toList ++ sh.responseQueue ++ r.response.toList

variable {sh sh' : Shared} {r r' : ResponsesPc} {q q' : RequestsPc} {callers : List CallerPc}
  {a : Act} {k n : Nat} {pc pc' : CallerPc}

theorem mem_flow :
    n ∈ flow sh q r ↔ q.response = some n ∨ n ∈ sh.responseQueue ∨ r.response = some n := by
  simp [flow]

def CallerPc.unsubmitted : CallerPc → Bool
  | .setInitialized | .submitRequest => true
  | _ => false

/-- The steps that do not let go of a message. -/
def meets (c : Conf Shared Task) (i : Nat) (a : Act) : Bool :=
  match c.locals[i]?, a with
  | some (.requests (.openConnection _)), .hosts hosts => (openConnection hosts).isOk
  | some (.requests (.push _)), _ => !c.shared.inputClosedForRead
  | some (.requests (.serialize _)), .status status => status.isOk
  | some (.responses (.readNextResponse _)), .message message => message.isOk
  | some (.responses .onExit), _ => c.shared.responseQueue.isEmpty
  | _, _ => true

/-- Every request that was dequeued is resolved, and so is its response. -/
def Settled (sh : Shared) : Prop :=
  ∀ n ∈ sh.dequeued, (sh.request n).Resolved .kConsumed ∧ (sh.response n).Resolved .kInitialized

/-! ## Messages -/

theorem MessageBase.resolved_setValue (m : MessageBase) (val : State) : (m.setValue val).Resolved val :=
  .inl rfl

theorem MessageBase.resolved_close (m : MessageBase) (val : State) : m.close.Resolved val := .inr rfl

theorem MessageBase.resolved_updateStatus (m : MessageBase) (status : StatusCode) (val : State) :
    (m.updateStatus status).Resolved val ↔ m.Resolved val := by
  unfold updateStatus
  split <;> rfl

theorem MessageBase.awaitEqual_of_resolved {m : MessageBase} {val : State} (h : m.Resolved val) :
    ∃ status, m.awaitEqual val = some status := by
  unfold awaitEqual
  by_cases hstate : m.state = val
  · exact ⟨_, if_pos hstate⟩
  · rw [if_neg hstate, if_pos (h.resolve_left hstate)]
    exact ⟨_, rfl⟩

/-- A change of a message keeps what another one is. -/
theorem resolved_update {g : Nat → MessageBase} {m : MessageBase} {val : State}
    (h : k = n → m.Resolved val) (hk : k ≠ n → (g k).Resolved val) :
    (Function.update g n m k).Resolved val := by
  by_cases hkn : k = n
  · rw [hkn, Function.update_self]
    exact h hkn
  · rw [Function.update_of_ne hkn]
    exact hk hkn

/-! ## The steps of the tasks -/

inductive RequestsStep (sh : Shared) : Act → RequestsPc → Shared → RequestsPc → Prop
  | dequeue {n : Nat} {rest : List Nat} (connected : Bool) (hq : sh.requestQueue = n :: rest)
      (hstate : (sh.request n).state = .kInitialized) :
      RequestsStep sh .run (.awaitNextRequest connected)
        { sh with requestQueue := rest, dequeued := sh.dequeued ++ [n] }
        (if connected then .push n else .openConnection n)
  | noMore (connected : Bool) : RequestsStep sh .closed (.awaitNextRequest connected) sh .onExit
  | connected {hosts : StatusOr (List Bool)} (n : Nat) (h : openConnection hosts = .ok ()) :
      RequestsStep sh (.hosts hosts) (.openConnection n) { sh with fillStarted := true } (.push n)
  | refused {hosts : StatusOr (List Bool)} (n : Nat) {status : StatusCode}
      (h : openConnection hosts = .error status) :
      RequestsStep sh (.hosts hosts) (.openConnection n) sh (.updateStatus n status)
  | updateStatus (n : Nat) (status : StatusCode) :
      RequestsStep sh .run (.updateStatus n status)
        (sh.updateRequest n fun m => m.updateStatus status) (.closeRequest n)
  | close (n : Nat) :
      RequestsStep sh .run (.closeRequest n) (sh.updateRequest n MessageBase.close) .onExit
  | push (n : Nat) : RequestsStep sh .run (.push n) (sh.pushResponse n) (.serialize n)
  | written (n : Nat) : RequestsStep sh (.status (.ok ())) (.serialize n) sh (.setConsumed n)
  | notWritten (n : Nat) (status : StatusCode) :
      RequestsStep sh (.status (.error status)) (.serialize n) sh .onExit
  | consumed (n : Nat) :
      RequestsStep sh .run (.setConsumed n) (sh.updateRequest n fun m => m.setValue .kConsumed)
        (.awaitNextRequest true)
  | exit : RequestsStep sh .run .onExit { sh with responseQueueClosed := true } .joinFill
  | joined : RequestsStep sh .run .joinFill sh .returned

theorem requestsStep (h : processRequests a sh q = some (sh', q')) :
    RequestsStep sh a q sh' q' := by
  unfold processRequests at h
  split at h
  · split at h
    · cases h
    · rename_i n rest hq
      split at h
      · rename_i hstate
        cases h
        exact .dequeue _ hq hstate
      · cases h
  · split at h
    · cases h
      exact .noMore _
    · cases h
  · split at h
    · rename_i hopen
      cases h
      exact .connected _ hopen
    · rename_i hopen
      cases h
      exact .refused _ hopen
  · cases h
    exact .updateStatus _ _
  · cases h
    exact .close _
  · cases h
    exact .push _
  · cases h
    exact .written _
  · cases h
    exact .notWritten _ _
  · cases h
    exact .consumed _
  · cases h
    exact .exit
  · split at h
    · cases h
    · cases h
      exact .joined
  · cases h

inductive ResponsesStep (sh : Shared) : Act → ResponsesPc → Shared → ResponsesPc → Prop
  | pop {n : Nat} {rest : List Nat} (hq : sh.responseQueue = n :: rest) :
      ResponsesStep sh .run .awaitNext { sh with responseQueue := rest } (.readNextResponse n)
  | noMore : ResponsesStep sh .closed .awaitNext sh .onExit
  | valid {message : Message} (n : Nat) :
      ResponsesStep sh (.message (.ok message)) (.readNextResponse n) sh
        (.setInitialized n (.new message))
  | invalid {message : Message} (n : Nat) :
      ResponsesStep sh (.message (.ok message)) (.readNextResponse n) sh (.updateStatus n)
  | notRead (n : Nat) (status : StatusCode) :
      ResponsesStep sh (.message (.error status)) (.readNextResponse n) sh .onExit
  | updateStatus (n : Nat) :
      ResponsesStep sh .run (.updateStatus n)
        (sh.updateResponse n fun m => m.updateStatus .kInvalidArgument) (.closeResponse n)
  | close (n : Nat) :
      ResponsesStep sh .run (.closeResponse n) (sh.updateResponse n MessageBase.close) .onExit
  | initialized (n : Nat) (info : ResponseInfo) :
      ResponsesStep sh .run (.setInitialized n info)
        (sh.updateResponse n fun m => m.setValue .kInitialized) (.setMessage info)
  /-- The rest of the turn does not touch the states. -/
  | serve {a : Act} {r r' : ResponsesPc} (hr : r.response = none) (hr' : r'.response = none)
      (hexit : r ≠ .onExit) (hreturned : r ≠ .returned ∧ r' ≠ .returned) : ResponsesStep sh a r sh r'
  | exit : ResponsesStep sh .run .onExit { sh with inputClosedForRead := true } .returned

theorem responsesStep (h : processResponses a sh r = some (sh', r')) :
    ResponsesStep sh a r sh' r' := by
  unfold processResponses at h
  split at h
  · split at h
    · cases h
    · rename_i hq
      cases h
      exact .pop hq
  · split at h
    · cases h
      exact .noMore
    · cases h
  · cases h
    split
    · exact .valid _
    · exact .invalid _
  · cases h
    exact .notRead _ _
  · cases h
    exact .updateStatus _
  · cases h
    exact .close _
  · cases h
    exact .initialized _ _
  · cases h
    exact .serve rfl rfl (by simp) (by simp)
  · cases h
    exact .serve rfl rfl (by simp) (by simp)
  · cases h
    exact .serve rfl rfl (by simp) (by simp)
  · cases h
    split
    · exact .serve rfl rfl (by simp) (by simp)
    · exact .serve rfl rfl (by simp) (by simp)
  · cases h
    exact .serve rfl rfl (by simp) (by simp)
  · cases h
    exact .exit
  · cases h

inductive CallerStep (sh : Shared) (n : Nat) : CallerPc → Shared → CallerPc → Prop
  | prepare :
      CallerStep sh n .setInitialized (sh.updateRequest n fun m => m.setValue .kInitialized)
        .submitRequest
  | submit : CallerStep sh n .submitRequest (sh.pushRequest n) .awaitRequest
  | wait {pc pc' : CallerPc} (h : pc.unsubmitted = false) (h' : pc'.unsubmitted = false) :
      CallerStep sh n pc sh pc'

theorem callerStep (h : httpRequest a n sh pc = some (sh', pc')) :
    CallerStep sh n pc sh' pc' := by
  unfold httpRequest at h
  split at h
  · cases h
    exact .prepare
  · cases h
    exact .submit
  · obtain ⟨result, -, hr⟩ := Option.map_eq_some_iff.mp h
    cases result <;> cases hr <;> exact .wait rfl rfl
  · obtain ⟨result, -, hr⟩ := Option.map_eq_some_iff.mp h
    cases result <;> cases hr <;> exact .wait rfl rfl
  · cases h

/-! ## The bookkeeping -/

/-- What holds in every run: only submitted requests are in the queue of the host, the response queue
    is open until the end of `process_requests`, and the input buffer until that of
    `process_responses`. -/
structure Booked (sh : Shared) (q : RequestsPc) (r : ResponsesPc) (callers : List CallerPc) : Prop where
  submitted : ∀ {n pc}, callers[n]? = some pc → pc.unsubmitted = true →
    ¬ (n ∈ sh.requestQueue ∨ n ∈ sh.dequeued)
  closed : sh.responseQueueClosed = true → q = .joinFill ∨ q = .returned
  returned : sh.inputClosedForRead = true ↔ r = .returned

theorem mem_pushRequest (h : k ∈ (sh.pushRequest n).requestQueue) :
    k ∈ sh.requestQueue ∨ k = n := by
  unfold Shared.pushRequest at h
  split at h
  · exact .inl h
  · simpa using h

/-- The response queue takes a response while `process_requests` is at work. -/
theorem Booked.pushResponse (h : Booked sh (.push n) r callers) :
    sh.pushResponse n = { sh with responseQueue := sh.responseQueue ++ [n] } := by
  unfold Shared.pushResponse
  rw [if_neg]
  intro hclosed
  rcases h.closed hclosed with hq | hq <;> cases hq

/-- What `process_requests` leaves alone. -/
theorem RequestsStep.frame (hs : RequestsStep sh a q sh' q') :
    sh'.response = sh.response ∧ sh'.inputClosedForRead = sh.inputClosedForRead ∧
      (∀ n, n ∈ sh'.requestQueue ∨ n ∈ sh'.dequeued → n ∈ sh.requestQueue ∨ n ∈ sh.dequeued) ∧
      (sh'.responseQueueClosed = true → sh.responseQueueClosed = true ∨ q = .onExit) := by
  cases hs with
  | @dequeue n rest connected hq _ =>
    refine ⟨rfl, rfl, ?_, .inl⟩
    intro k hk
    rw [hq]
    simp only [List.mem_append, List.mem_cons, List.not_mem_nil, or_false] at hk ⊢
    tauto
  | push n =>
    unfold Shared.pushResponse
    split <;> exact ⟨rfl, rfl, fun _ h => h, .inl⟩
  | exit => exact ⟨rfl, rfl, fun _ h => h, fun _ => .inr rfl⟩
  | _ => exact ⟨rfl, rfl, fun _ h => h, .inl⟩

theorem RequestsStep.booked (hs : RequestsStep sh a q sh' q') (h : Booked sh q r callers) :
    Booked sh' q' r callers := by
  obtain ⟨-, hread, hmem, hclosed⟩ := hs.frame
  refine ⟨fun hpc hun hn => h.submitted hpc hun (hmem _ hn), ?_, by rw [hread]; exact h.returned⟩
  intro hc
  rcases hclosed hc with hc | rfl
  · rcases h.closed hc with rfl | rfl
    · cases hs
      exact .inr rfl
    · cases hs
  · cases hs
    exact .inl rfl

/-- What `process_responses` leaves alone. -/
theorem ResponsesStep.frame (hs : ResponsesStep sh a r sh' r') :
    sh'.request = sh.request ∧ sh'.requestQueue = sh.requestQueue ∧ sh'.dequeued = sh.dequeued ∧
      sh'.responseQueueClosed = sh.responseQueueClosed := by
  cases hs <;> exact ⟨rfl, rfl, rfl, rfl⟩

theorem ResponsesStep.booked (hs : ResponsesStep sh a r sh' r') (h : Booked sh q r callers) :
    Booked sh' q r' callers := by
  obtain ⟨-, hqueue, hdeq, hclosed⟩ := hs.frame
  refine ⟨?_, by rw [hclosed]; exact h.closed, ?_⟩
  · intro n pc hpc hun
    rw [hqueue, hdeq]
    exact h.submitted hpc hun
  · cases hs with
    | serve _ _ _ hreturned =>
      exact ⟨fun hc => absurd (h.returned.mp hc) hreturned.1, fun hr => absurd hr hreturned.2⟩
    | exit => exact ⟨fun _ => rfl, fun _ => rfl⟩
    | _ => exact ⟨fun hc => (by cases h.returned.mp hc), fun hr => (by cases hr)⟩

/-- What the other tasks leave alone. -/
structure Aside (sh sh' : Shared) : Prop where
  response : sh'.response = sh.response
  responseQueue : sh'.responseQueue = sh.responseQueue
  dequeued : sh'.dequeued = sh.dequeued
  responseQueueClosed : sh'.responseQueueClosed = sh.responseQueueClosed
  inputClosedForRead : sh'.inputClosedForRead = sh.inputClosedForRead
  request : ∀ n ∈ sh.dequeued, sh'.request n = sh.request n

theorem aside_of_fill {f f' : FillPc} (h : fillInputBuffer a sh f = some (sh', f')) :
    Aside sh sh' ∧ sh'.request = sh.request ∧ sh'.requestQueue = sh.requestQueue := by
  unfold fillInputBuffer at h
  split at h
  · split at h <;> cases h
    exact ⟨⟨rfl, rfl, rfl, rfl, rfl, fun _ _ => rfl⟩, rfl, rfl⟩
  all_goals
    cases h
  all_goals
    exact ⟨⟨rfl, rfl, rfl, rfl, rfl, fun _ _ => rfl⟩, rfl, rfl⟩

theorem aside_of_host (h : hostContext a sh = some sh') :
    Aside sh sh' ∧ sh'.request = sh.request ∧ sh'.requestQueue.Sublist sh.requestQueue := by
  unfold hostContext at h
  split at h
  · cases h
    exact ⟨⟨rfl, rfl, rfl, rfl, rfl, fun _ _ => rfl⟩, rfl, List.tail_sublist _⟩
  · cases h
    exact ⟨⟨rfl, rfl, rfl, rfl, rfl, fun _ _ => rfl⟩, rfl, List.Sublist.refl _⟩
  · cases h

theorem CallerStep.aside (hs : CallerStep sh n pc sh' pc') (h : Booked sh q r callers)
    (hpc : callers[n]? = some pc) : Aside sh sh' := by
  cases hs with
  | prepare =>
    refine ⟨rfl, rfl, rfl, rfl, rfl, ?_⟩
    intro k hk
    have hne : k ≠ n := by
      rintro rfl
      exact h.submitted hpc rfl (.inr hk)
    exact Function.update_of_ne hne _ _
  | submit =>
    unfold Shared.pushRequest
    split <;> exact ⟨rfl, rfl, rfl, rfl, rfl, fun _ _ => rfl⟩
  | wait _ _ => exact ⟨rfl, rfl, rfl, rfl, rfl, fun _ _ => rfl⟩

/-- A caller that has submitted its request does not do so again. -/
theorem CallerStep.submitted (hs : CallerStep sh n pc sh' pc') (h : Booked sh q r callers)
    (hpc : callers[n]? = some pc) {pk : CallerPc} (hk : (callers.set n pc')[k]? = some pk)
    (hun : pk.unsubmitted = true) :
    ¬ (k ∈ sh'.requestQueue ∨ k ∈ sh'.dequeued) := by
  rw [(hs.aside h hpc).dequeued]
  rcases set_cases hk with ⟨rfl, rfl⟩ | ⟨hne, hk⟩
  · cases hs with
    | prepare => exact h.submitted hpc rfl
    | submit => cases hun
    | wait _ h' => rw [h'] at hun; cases hun
  · have hnot := h.submitted hk hun
    cases hs with
    | prepare => exact hnot
    | submit =>
      rintro (hmem | hmem)
      · rcases mem_pushRequest hmem with hmem | hmem
        · exact hnot (.inl hmem)
        · exact hne hmem
      · exact hnot (.inr hmem)
    | wait _ _ => exact hnot

theorem Aside.booked {callers' : List CallerPc} (ha : Aside sh sh') (h : Booked sh q r callers)
    (hsub : ∀ {n pc}, callers'[n]? = some pc → pc.unsubmitted = true →
      ¬ (n ∈ sh'.requestQueue ∨ n ∈ sh'.dequeued)) : Booked sh' q r callers' where
  submitted := hsub
  closed := by rw [ha.responseQueueClosed]; exact h.closed
  returned := by rw [ha.inputClosedForRead]; exact h.returned

/-- A property of the tasks of a connection, as one of configurations. -/
def Holds (P : Shared → RequestsPc → ResponsesPc → List CallerPc → Prop) (c : Conf Shared Task) : Prop :=
  ∃ sh q r f callers, c = conf sh q r f callers ∧ P sh q r callers

/-- The rule for properties that hold next to the bookkeeping: what the two tasks of the connection
    keep, and what the others keep by leaving it alone. -/
theorem Moved.holds {P : Shared → RequestsPc → ResponsesPc → List CallerPc → Prop} {i : Nat}
    {f : FillPc} {c' : Conf Shared Task} (hm : Moved i a sh q r f callers c')
    (hb : Booked sh q r callers)
    (hrequests : ∀ sh' q', i = 0 → RequestsStep sh a q sh' q' → P sh' q' r callers)
    (hresponses : ∀ sh' r', i = 1 → ResponsesStep sh a r sh' r' → P sh' q r' callers)
    (hothers : ∀ sh', 2 ≤ i → Aside sh sh' → sh'.request = sh.request →
      sh'.requestQueue.Sublist sh.requestQueue → P sh' q r callers)
    (hcaller : ∀ sh' n pc pc', 2 ≤ i → callers[n]? = some pc → CallerStep sh n pc sh' pc' →
      Aside sh sh' → P sh' q r (callers.set n pc')) :
    Holds (fun sh q r callers => Booked sh q r callers ∧ P sh q r callers) c' := by
  cases hm with
  | requests hi h =>
    have hs := requestsStep h
    exact ⟨_, _, _, _, _, rfl, hs.booked hb, hrequests _ _ hi hs⟩
  | responses hi h =>
    have hs := responsesStep h
    exact ⟨_, _, _, _, _, rfl, hs.booked hb, hresponses _ _ hi hs⟩
  | fill hi h =>
    obtain ⟨ha, hreq, hqueue⟩ := aside_of_fill h
    refine ⟨_, _, _, _, _, rfl, ha.booked hb ?_, hothers _ (by omega) ha hreq (by rw [hqueue])⟩
    intro n pc hpc hun
    rw [ha.dequeued, hqueue]
    exact hb.submitted hpc hun
  | host hi h =>
    obtain ⟨ha, hreq, hqueue⟩ := aside_of_host h
    refine ⟨_, _, _, _, _, rfl, ha.booked hb ?_, hothers _ (by omega) ha hreq hqueue⟩
    intro n pc hpc hun
    rw [ha.dequeued]
    exact fun hn => hb.submitted hpc hun (hn.imp_left fun hmem => hqueue.subset hmem)
  | caller hi hpc h =>
    have hs := callerStep h
    have ha := hs.aside hb hpc
    exact ⟨_, _, _, _, _, rfl, ha.booked hb (fun hk hun => hs.submitted hb hpc hk hun),
      hcaller _ _ _ _ (by omega) hpc hs ha⟩

/-! ## What is not resolved is held -/

structure Held (sh : Shared) (q : RequestsPc) (r : ResponsesPc) : Prop where
  request : ∀ n ∈ sh.dequeued, (sh.request n).Resolved .kConsumed ∨ q.request = some n
  response : ∀ n ∈ sh.dequeued, (sh.response n).Resolved .kInitialized ∨ n ∈ flow sh q r
  drained : sh.inputClosedForRead = true → sh.responseQueue = []

theorem Aside.held (ha : Aside sh sh') (h : Held sh q r) : Held sh' q r := by
  refine ⟨?_, ?_, ?_⟩
  · intro n hn
    rw [ha.dequeued] at hn
    rw [ha.request n hn]
    exact h.request n hn
  · intro n hn
    rw [ha.dequeued] at hn
    rw [ha.response, flow, ha.responseQueue]
    exact h.response n hn
  · rw [ha.inputClosedForRead, ha.responseQueue]
    exact h.drained

/-- A step of `process_requests` that moves no response. -/
theorem Held.stay (h : Held sh q r) (hdeq : sh'.dequeued = sh.dequeued)
    (hresp : sh'.response = sh.response) (hqueue : sh'.responseQueue = sh.responseQueue)
    (hread : sh'.inputClosedForRead = sh.inputClosedForRead) (hpc : q'.response = q.response)
    (hreq : ∀ n, (sh.request n).Resolved .kConsumed ∨ q.request = some n →
      (sh'.request n).Resolved .kConsumed ∨ q'.request = some n) : Held sh' q' r := by
  refine ⟨?_, ?_, by rw [hread, hqueue]; exact h.drained⟩
  · rw [hdeq]
    exact fun n hn => hreq n (h.request n hn)
  · rw [hdeq, hresp, flow, hqueue, hpc]
    exact h.response

theorem RequestsStep.held {f : FillPc} (hs : RequestsStep sh a q sh' q')
    (hb : Booked sh q r callers) (h : Held sh q r)
    (hmeets : meets (conf sh q r f callers) 0 a = true) : Held sh' q' r := by
  cases hs with
  | @dequeue n rest connected hq hstate =>
    have hnew : ∀ k ∈ sh.dequeued ++ [n], k ∈ sh.dequeued ∨ k = n := by simp
    refine ⟨?_, ?_, h.drained⟩
    · intro k hk
      rcases hnew k hk with hk | rfl
      · exact (h.request k hk).imp_right (by simp [RequestsPc.request])
      · right
        cases connected <;> rfl
    · intro k hk
      have hflow : k ∈ flow { sh with requestQueue := rest, dequeued := sh.dequeued ++ [n] }
          (if connected then .push n else .openConnection n) r ↔
          k = n ∨ k ∈ flow sh (.awaitNextRequest connected) r := by
        cases connected <;> simp [flow, RequestsPc.response]
      rw [hflow]
      rcases hnew k hk with hk | rfl
      · exact (h.response k hk).imp_right .inr
      · exact .inr (.inl rfl)
  | noMore connected => exact h.stay rfl rfl rfl rfl rfl fun _ => id
  | connected n hopen => exact h.stay rfl rfl rfl rfl rfl fun _ => id
  | refused n hopen =>
    simp [meets, conf, hopen, Except.isOk, Except.toBool] at hmeets
  | updateStatus n status =>
    refine h.stay rfl rfl rfl rfl rfl ?_
    rintro k (hk | hk)
    · exact .inl (resolved_update (fun hkn => (MessageBase.resolved_updateStatus _ _ _).mpr (hkn ▸ hk))
        fun _ => hk)
    · exact .inr hk
  | close n =>
    refine h.stay rfl rfl rfl rfl rfl ?_
    rintro k (hk | hk)
    · exact .inl (resolved_update (fun _ => MessageBase.resolved_close _ _) fun _ => hk)
    · exact .inl (resolved_update (fun _ => MessageBase.resolved_close _ _)
        fun hne => absurd (Option.some.inj hk).symm hne)
  | push n =>
    have hopen : sh.inputClosedForRead = false := by simpa [meets, conf] using hmeets
    rw [hb.pushResponse]
    refine ⟨h.request, ?_, ?_⟩
    · intro k hk
      refine (h.response k hk).imp_right ?_
      simp only [flow, RequestsPc.response, Option.toList_some, Option.toList_none, List.mem_append,
        List.mem_singleton, List.nil_append]
      tauto
    · intro hread
      rw [hopen] at hread
      cases hread
  | written n => exact h.stay rfl rfl rfl rfl rfl fun _ => id
  | notWritten n status =>
    simp [meets, conf, Except.isOk, Except.toBool] at hmeets
  | consumed n =>
    refine h.stay rfl rfl rfl rfl rfl ?_
    rintro k (hk | hk)
    · exact .inl (resolved_update (fun _ => MessageBase.resolved_setValue _ _) fun _ => hk)
    · exact .inl (resolved_update (fun _ => MessageBase.resolved_setValue _ _)
        fun hne => absurd (Option.some.inj hk).symm hne)
  | exit => exact h.stay rfl rfl rfl rfl rfl fun _ => id
  | joined => exact h.stay rfl rfl rfl rfl rfl fun _ => id

/-- A step of `process_responses` with a response that it has. -/
theorem Held.serve (h : Held sh q r) (hreq : sh'.request = sh.request)
    (hdeq : sh'.dequeued = sh.dequeued) (hqueue : sh'.responseQueue = sh.responseQueue)
    (hdrained : sh'.inputClosedForRead = true → sh'.responseQueue = [])
    (hresp : ∀ n, (sh.response n).Resolved .kInitialized ∨ r.response = some n →
      (sh'.response n).Resolved .kInitialized ∨ r'.response = some n) : Held sh' q r' := by
  refine ⟨by rw [hreq, hdeq]; exact h.request, ?_, hdrained⟩
  intro n hn
  rw [hdeq] at hn
  rw [mem_flow, hqueue]
  have hheld := h.response n hn
  rw [mem_flow] at hheld
  have hmoved := hresp n
  tauto

theorem ResponsesStep.held {f : FillPc} (hs : ResponsesStep sh a r sh' r') (h : Held sh q r)
    (hmeets : meets (conf sh q r f callers) 1 a = true) : Held sh' q r' := by
  cases hs with
  | @pop n rest hq =>
    refine ⟨h.request, ?_, ?_⟩
    · intro k hk
      have hheld := h.response k hk
      rw [mem_flow, hq, List.mem_cons] at hheld
      rw [mem_flow]
      simp only [ResponsesPc.response, Option.some.injEq] at hheld ⊢
      tauto
    · intro hread
      rw [h.drained hread] at hq
      cases hq
  | noMore => exact h.serve rfl rfl rfl h.drained fun _ => id
  | valid n => exact h.serve rfl rfl rfl h.drained fun _ => id
  | invalid n => exact h.serve rfl rfl rfl h.drained fun _ => id
  | notRead n status => simp [meets, conf, Except.isOk, Except.toBool] at hmeets
  | updateStatus n =>
    refine h.serve rfl rfl rfl h.drained ?_
    rintro k (hk | hk)
    · exact .inl (resolved_update (fun hkn => (MessageBase.resolved_updateStatus _ _ _).mpr (hkn ▸ hk))
        fun _ => hk)
    · exact .inr hk
  | close n =>
    refine h.serve rfl rfl rfl h.drained ?_
    rintro k (hk | hk)
    · exact .inl (resolved_update (fun _ => MessageBase.resolved_close _ _) fun _ => hk)
    · exact .inl (resolved_update (fun _ => MessageBase.resolved_close _ _)
        fun hne => absurd (Option.some.inj hk).symm hne)
  | initialized n info =>
    refine h.serve rfl rfl rfl h.drained ?_
    rintro k (hk | hk)
    · exact .inl (resolved_update (fun _ => MessageBase.resolved_setValue _ _) fun _ => hk)
    · exact .inl (resolved_update (fun _ => MessageBase.resolved_setValue _ _)
        fun hne => absurd (Option.some.inj hk).symm hne)
  | serve hr hr' _ _ =>
    refine h.serve rfl rfl rfl h.drained ?_
    rw [hr, hr']
    exact fun _ => id
  | exit =>
    have hempty : sh.responseQueue = [] := by simpa [meets, conf] using hmeets
    exact h.serve rfl rfl rfl (fun _ => hempty) fun _ => id

/-! ## Runs -/

theorem booked_init (k : Nat) (response : Nat → MessageBase) :
    Booked (init k response).shared (.awaitNextRequest false) .awaitNext
      (List.replicate k .setInitialized) where
  submitted _ _ := by simp [init, conf]
  closed h := by cases h
  returned := by simp [init, conf]

/-- In a run whose steps all meet the condition, nobody lets go of a message. -/
theorem held_of_meets {response : Nat → MessageBase} {c : Conf Shared Task}
    (h : machine.ReachableWhere meets (init k response) c) :
    Holds (fun sh q r callers => Booked sh q r callers ∧ Held sh q r) c := by
  refine machine.invariant_runWhere ?_ ?_ h
  · rintro c i a c' ⟨sh, q, r, f, callers, rfl, hb, hheld⟩ hmeets hf
    refine (moved_of_fire hf).holds hb ?_ ?_ ?_ ?_
    · rintro sh' q' rfl hs
      exact hs.held hb hheld hmeets
    · rintro sh' r' rfl hs
      exact hs.held hheld hmeets
    · exact fun sh' _ ha _ _ => ha.held hheld
    · exact fun sh' n pc pc' _ _ _ ha => ha.held hheld
  · refine ⟨_, _, _, _, _, rfl, booked_init k response, ?_, ?_, ?_⟩
    · intro n hn
      cases hn
    · intro n hn
      cases hn
    · intro hread
      cases hread

end Batt.Http.Client
