/-
  Where the work items are and what the two counts of a context count.

  An item is a `Token` with the phase it is in. It is with one thread (in the call that submits it,
  in `await_next`, or on the stack of work functions) or in a queue. A step moves at most one token
  to its next phase, and `Ledger` says with which update of the counts and of the record: the
  reference count goes up before an item is `counting` and down when it is gone, the work count
  goes up before it is `queued` and down before it is `uncounted`.

  `balance f` sums a weight over all tokens. Every count is such a sum (`Balanced`), and so are the
  items that have run and those that are still to finish.
-/
import Batt.WorkerPool.Steps

namespace Batt.WorkerPool

open Interleave

/-! ## Tokens -/

inductive Phase where
  | entering
  | counting
  | queued
  | running
  | done
  | uncounted
  deriving DecidableEq, Repr

abbrev Token := Item × Phase

/-- Whether a `fetch_add` or `fetch_sub` has made its update. -/
def updated : Watch.Pc Int → Bool
  | .fetch _ _ => false
  | _ => true

def pcTokens : Pc → List Token
  | .startRef item => [(item, .entering)]
  | .startWork item pc => [(item, if updated pc then .queued else .counting)]
  | .pick item => [(item, .queued)]
  | .push _ item (.isOpen _) | .push _ item (.lockPush _) | .push _ item (.insert _ (_ :: _)) =>
    [(item, .queued)]
  | .next (.unlockPop _ item) => [(item, .queued)]
  | _ => []

/-- The phase of the innermost work function. -/
def topPhase : Pc → Phase
  | .finishWork pc => if updated pc then .uncounted else .done
  | .finishRef => .uncounted
  | _ => .running

def stackTokens (pc : Pc) : List Item → List Token
  | [] => []
  | item :: rest => (item, topPhase pc) :: rest.map fun x => (x, .running)

def tokens (t : Thread) : List Token := pcTokens t.pc ++ stackTokens t.pc t.stack

/-! ## Weights -/

def weigh (f : Token → Nat) (ts : List Token) : Nat := (ts.map f).sum

@[simp] theorem weigh_nil (f : Token → Nat) : weigh f [] = 0 := rfl

@[simp] theorem weigh_cons (f : Token → Nat) (x : Token) (ts : List Token) :
    weigh f (x :: ts) = f x + weigh f ts := by
  simp [weigh]

@[simp] theorem weigh_append (f : Token → Nat) (ts us : List Token) :
    weigh f (ts ++ us) = weigh f ts + weigh f us := by
  simp [weigh]

def threadWeight (f : Token → Nat) (t : Thread) : Nat := weigh f (tokens t)

def queueWeight (f : Token → Nat) (q : Queue.Shared Item) : Nat :=
  weigh f (q.items.map fun item => (item, .queued))

def balance (f : Token → Nat) (c : Conf Shared Thread) : Nat :=
  total (threadWeight f) c.locals + total (queueWeight f) c.shared.queues

/-! ## What a step moves -/

def refOf (sh : Shared) (k : Nat) : Int := ((sh.contexts[k]?).map Context.refCount).getD 0

def workOf (sh : Shared) (k : Nat) : Int :=
  ((sh.contexts[k]?).map fun ctx => ctx.workCount.value).getD 0

/-- What a step does to the counts of the contexts and to the record of the run. -/
structure Books (sh sh' : Shared) (ref work : Nat → Int) (submitted dropped ran finished : List Item) :
    Prop where
  ref : ∀ k, refOf sh' k = refOf sh k + ref k
  work : ∀ k, workOf sh' k = workOf sh k + work k
  submitted : sh'.submitted = sh.submitted ++ submitted
  dropped : sh'.dropped = sh.dropped ++ dropped
  ran : sh'.ran = sh.ran ++ ran
  finished : sh'.finished = sh.finished ++ finished

/-- A change of one context's count. -/
def only (k : Nat) (d : Int) (j : Nat) : Int := if j = k then d else 0

def nothing (_ : Nat) : Int := 0

/-- The phase in which an item is passed to `async_run`. -/
def firstPhase (item : Item) : Phase := if item.context.isSome then .entering else .queued

inductive Ledger (sh : Shared) : List Token → List Token → Shared → Prop where
  | keep {sh' : Shared} (books : Books sh sh' nothing nothing [] [] [] []) : Ledger sh [] [] sh'
  | submit {sh' : Shared} (item : Item) (fresh : item.id = sh.submitted.length)
      (books : Books sh sh' nothing nothing [item] [] [] []) :
      Ledger sh [] [(item, firstPhase item)] sh'
  | ref {sh' : Shared} (item : Item) (k : Nat) (context : item.context = some k)
      (books : Books sh sh' (only k 1) nothing [] [] [] []) :
      Ledger sh [(item, .entering)] [(item, .counting)] sh'
  | work {sh' : Shared} (item : Item) (k : Nat) (context : item.context = some k)
      (books : Books sh sh' nothing (only k 1) [] [] [] []) :
      Ledger sh [(item, .counting)] [(item, .queued)] sh'
  | drop {sh' : Shared} (item : Item) (books : Books sh sh' nothing nothing [] [item] [] []) :
      Ledger sh [(item, .queued)] [] sh'
  | start {sh' : Shared} (item : Item) (books : Books sh sh' nothing nothing [] [] [item] []) :
      Ledger sh [(item, .queued)] [(item, .running)] sh'
  | finish {sh' : Shared} (item : Item) (k : Nat) (context : item.context = some k)
      (books : Books sh sh' nothing nothing [] [] [] [item]) :
      Ledger sh [(item, .running)] [(item, .done)] sh'
  | finishPool {sh' : Shared} (item : Item) (context : item.context = none)
      (books : Books sh sh' nothing nothing [] [] [] [item]) : Ledger sh [(item, .running)] [] sh'
  | unwork {sh' : Shared} (item : Item) (k : Nat) (context : item.context = some k)
      (books : Books sh sh' nothing (only k (-1)) [] [] [] []) :
      Ledger sh [(item, .done)] [(item, .uncounted)] sh'
  | unref {sh' : Shared} (item : Item) (k : Nat) (context : item.context = some k)
      (books : Books sh sh' (only k (-1)) nothing [] [] [] []) :
      Ledger sh [(item, .uncounted)] [] sh'

/-- A step takes the tokens `old` away and brings the tokens `new`. -/
structure Moved (sh : Shared) (t : Thread) (sh' : Shared) (t' : Thread) (old new : List Token) :
    Prop where
  weight : ∀ f, threadWeight f t' + total (queueWeight f) sh'.queues + weigh f old =
    threadWeight f t + total (queueWeight f) sh.queues + weigh f new
  ledger : Ledger sh old new sh'

/-! ## Books -/

section

variable {sh sh' : Shared} {k : Nat} {ctx : Context}

theorem refOf_at (h : sh.contexts[k]? = some ctx) : refOf sh k = ctx.refCount := by
  rw [refOf, h]
  rfl

theorem workOf_at (h : sh.contexts[k]? = some ctx) : workOf sh k = ctx.workCount.value := by
  rw [workOf, h]
  rfl

theorem contexts_set (h : sh.contexts[k]? = some ctx) (ctx' : Context) (j : Nat) :
    (sh.setContext k ctx').contexts[j]? = if j = k then some ctx' else sh.contexts[j]? := by
  have hlt := (List.getElem?_eq_some_iff.mp h).1
  split
  · rename_i hj
    subst hj
    exact List.getElem?_set_self hlt
  · rename_i hj
    exact List.getElem?_set_ne (Ne.symm hj)

theorem only_zero (k : Nat) : only k 0 = nothing := by
  funext j
  unfold only nothing
  split <;> rfl

/-- A step that changes the counts of one context. -/
theorem books_context (h : sh.contexts[k]? = some ctx) (ctx' : Context) (ref work : Int)
    (href : ctx'.refCount = ctx.refCount + ref)
    (hwork : ctx'.workCount.value = ctx.workCount.value + work) :
    Books sh (sh.setContext k ctx') (only k ref) (only k work) [] [] [] [] := by
  refine ⟨fun j => ?_, fun j => ?_, ?_, ?_, ?_, ?_⟩
  · unfold refOf only
    rw [contexts_set h]
    split
    · rename_i hj
      subst hj
      rw [h]
      exact href
    · simp
  · unfold workOf only
    rw [contexts_set h]
    split
    · rename_i hj
      subst hj
      rw [h]
      exact hwork
    · simp
  all_goals exact (List.append_nil _).symm

/-- A step that changes no context. -/
theorem books_record {submitted dropped ran finished : List Item}
    (hcontexts : sh'.contexts = sh.contexts) (hsubmitted : sh'.submitted = sh.submitted ++ submitted)
    (hdropped : sh'.dropped = sh.dropped ++ dropped) (hran : sh'.ran = sh.ran ++ ran)
    (hfinished : sh'.finished = sh.finished ++ finished) :
    Books sh sh' nothing nothing submitted dropped ran finished := by
  refine ⟨fun j => ?_, fun j => ?_, hsubmitted, hdropped, hran, hfinished⟩
  · rw [refOf, hcontexts, refOf, nothing, Int.add_zero]
  · rw [workOf, hcontexts, workOf, nothing, Int.add_zero]

theorem books_keep (hcontexts : sh'.contexts = sh.contexts) (hsubmitted : sh'.submitted = sh.submitted)
    (hdropped : sh'.dropped = sh.dropped) (hran : sh'.ran = sh.ran)
    (hfinished : sh'.finished = sh.finished) : Books sh sh' nothing nothing [] [] [] [] := by
  refine books_record hcontexts ?_ ?_ ?_ ?_ <;> rwa [List.append_nil]

/-- A context whose counts stay. -/
theorem books_steady (h : sh.contexts[k]? = some ctx) (ctx' : Context)
    (href : ctx'.refCount = ctx.refCount)
    (hwork : ctx'.workCount.value = ctx.workCount.value) :
    Books sh (sh.setContext k ctx') nothing nothing [] [] [] [] := by
  have hb := books_context h ctx' 0 0 (by omega) (by omega)
  rwa [only_zero] at hb

end

/-! ## Weights of the steps -/

variable {q q' : Queue.Shared Item} {pc pc' : Watch.Pc Int}

section

variable {sh sh' : Shared} {t t' : Thread} {old new : List Token}

/-- A step that leaves the items of the queues alone. -/
theorem moved_thread (hqueues : sh'.queues = sh.queues) (hledger : Ledger sh old new sh')
    (hweight : ∀ f, threadWeight f t' + weigh f old = threadWeight f t + weigh f new) :
    Moved sh t sh' t' old new := by
  refine ⟨fun f => ?_, hledger⟩
  have := hweight f
  rw [hqueues]
  omega

/-- A step at one queue. -/
theorem moved_queue {v : Nat} (here : sh.queues[v]? = some q)
    (hqueues : sh'.queues = sh.queues.set v q') (hledger : Ledger sh old new sh')
    (hweight : ∀ f, threadWeight f t' + queueWeight f q' + weigh f old =
      threadWeight f t + queueWeight f q + weigh f new) : Moved sh t sh' t' old new := by
  refine ⟨fun f => ?_, hledger⟩
  have := hweight f
  have hset := total_set (queueWeight f) q' here
  rw [hqueues]
  omega

theorem queueWeight_eq {f : Token → Nat} (h : q'.items = q.items) :
    queueWeight f q' = queueWeight f q := by
  rw [queueWeight, h, queueWeight]

theorem threadWeight_leave (f : Token → Nat) (o : Option Nat) (item : Item) (rest : List Item)
    (pc : Pc) : threadWeight f (Thread.leave ⟨o, item :: rest, pc⟩) =
      weigh f (rest.map fun x => (x, .running)) := by
  have hpc : ∀ pc', pc' = .next .awaitModifyLoad ∨ pc' = .user →
      threadWeight f ⟨o, rest, pc'⟩ = weigh f (rest.map fun x => (x, .running)) := by
    rintro pc' (rfl | rfl) <;> cases rest <;> rfl
  refine hpc _ ?_
  cases hb : o.isSome && rest.isEmpty with
  | true => exact .inl (by simp [hb])
  | false => exact .inr (by simp [hb])

/-- What an access of `fetch_add` or `fetch_sub` does to the value. -/
theorem counts_value {op : Watch.FetchOp} {w w' : Watch.Shared Int} (hc : Counts op pc)
    (ht : Watch.Trans w 0 pc w' pc') : updated pc' = true ∧
      w'.value = if updated pc then w.value else op.apply w.value 1 := by
  have hdone : ∀ {pc : Watch.Pc Int} {ret : Watch.Ret Int}, pc.stage = .done ret →
      updated pc = true := by
    intro pc ret hst
    cases pc with
    | fetch op arg => cases hst
    | _ => rfl
  rcases hc with rfl | ⟨ret, hst⟩
  · cases ht with
    | update applied same told =>
      cases applied
      exact ⟨hdone (Watch.stage_afterUpdate _ _ _), rfl⟩
  · obtain ⟨hst', hv, _⟩ := Watch.trans_done ht hst
    rw [hdone hst]
    exact ⟨hdone hst', hv⟩

end

/-! ## Every step moves one token at most -/

/-- A worker that is about to pop an item has seen it at the front. -/
def PopOk (sh : Shared) (t : Thread) : Prop :=
  ∀ (v : Nat) (item : Item) (q : Queue.Shared Item), t.worker = some v →
    t.pc = .next (.popFront .awaitNext item) → sh.queues[v]? = some q → ∃ rest, q.items = item :: rest

section

variable {sh sh' : Shared} {t' : Thread} {o : Option Nat} {st : List Item}

theorem moved_startWork {item : Item} {k : Nat} {ctx : Context} {w : Watch.Shared Int} {next : Pc}
    (context : item.context = some k) (here : sh.contexts[k]? = some ctx) (hc : Counts .add pc)
    (trans : Watch.Trans ctx.workCount 0 pc w pc') (hnext : ∀ f,
      threadWeight f ⟨o, st, next⟩ = f (item, .queued) + weigh f (stackTokens .user st)) :
    ∃ old new, Moved sh ⟨o, st, .startWork item pc⟩ (sh.setContext k { ctx with workCount := w })
      ⟨o, st, next⟩ old new := by
  obtain ⟨-, hv⟩ := counts_value hc trans
  have hstack : ∀ f, threadWeight f ⟨o, st, .startWork item pc⟩ =
      f (item, if updated pc then .queued else .counting) + weigh f (stackTokens .user st) := by
    intro f
    rw [threadWeight, tokens, weigh_append]
    cases st <;> rfl
  cases hu : updated pc with
  | true =>
    refine ⟨[], [], moved_thread rfl (.keep (books_steady here _ rfl ?_)) fun f => ?_⟩
    · rwa [hu] at hv
    · rw [hnext, hstack, hu]
      rfl
  | false =>
    have hb := books_context here { ctx with workCount := w } 0 1
      (Int.add_zero _).symm (by rw [hv, hu]; rfl)
    rw [only_zero] at hb
    refine ⟨_, _, moved_thread rfl (.work item k context hb) fun f => ?_⟩
    rw [hnext, hstack, hu]
    simp only [weigh_cons, weigh_nil, Bool.false_eq_true, if_false]
    omega

theorem moved_finishWork {item : Item} {rest : List Item} {k : Nat} {ctx : Context}
    {w : Watch.Shared Int} {next : Pc} (context : item.context = some k)
    (here : sh.contexts[k]? = some ctx) (hc : Counts .sub pc)
    (trans : Watch.Trans ctx.workCount 0 pc w pc') (hnext : ∀ f,
      threadWeight f ⟨o, item :: rest, next⟩ =
        f (item, .uncounted) + weigh f (rest.map fun x => (x, .running))) :
    ∃ old new, Moved sh ⟨o, item :: rest, .finishWork pc⟩
      (sh.setContext k { ctx with workCount := w }) ⟨o, item :: rest, next⟩ old new := by
  obtain ⟨-, hv⟩ := counts_value hc trans
  have hstack : ∀ f, threadWeight f ⟨o, item :: rest, .finishWork pc⟩ =
      f (item, if updated pc then .uncounted else .done) +
        weigh f (rest.map fun x => (x, .running)) := by
    intro f
    rw [threadWeight, tokens, weigh_append]
    exact Nat.zero_add _
  cases hu : updated pc with
  | true =>
    refine ⟨[], [], moved_thread rfl (.keep (books_steady here _ rfl ?_)) fun f => ?_⟩
    · rwa [hu] at hv
    · rw [hnext, hstack, hu]
      rfl
  | false =>
    have hb := books_context here { ctx with workCount := w } 0 (-1)
      (Int.add_zero _).symm (by rw [hv, hu]; rfl)
    rw [only_zero] at hb
    refine ⟨_, _, moved_thread rfl (.unwork item k context hb) fun f => ?_⟩
    rw [hnext, hstack, hu]
    simp only [weigh_cons, weigh_nil, Bool.false_eq_true, if_false]
    omega

/-- An access of `push` puts the item into the queue, or nothing changes place. -/
theorem weight_push {item : Item} {v : Nat} {pc pc' : Queue.Pc Item}
    (step : PushStep item q pc q' pc') (hopen : q.closed = true → pc' ≠ .finish (.flag false))
    (f : Token → Nat) :
    weigh f (pcTokens (.push v item pc')) + queueWeight f q' =
      weigh f (pcTokens (.push v item pc)) + queueWeight f q := by
  cases step with
  | isOpen => rfl
  | refuse closed => exact absurd rfl (hopen closed)
  | lock => rfl
  | insert =>
    simp [pcTokens, queueWeight]
    omega
  | unlock => rfl
  | notify => rfl

/-- An access of `await_next` takes the item out of the queue, or nothing changes place. -/
theorem weight_take {pc pc' : Queue.Pc Item} (step : TakeStep q pc q' pc')
    (on : ∀ ret, pc' ≠ .finish ret)
    (hpop : ∀ item, pc = .popFront .awaitNext item → ∃ rest, q.items = item :: rest)
    (f : Token → Nat) :
    weigh f (pcTokens (.next pc')) + queueWeight f q' =
      weigh f (pcTokens (.next pc)) + queueWeight f q := by
  cases step with
  | quiet takes takes' items closed stays =>
    rw [queueWeight_eq items]
    cases takes <;> cases takes' <;> rfl
  | closed => exact absurd rfl (on _)
  | front => rfl
  | pop item =>
    obtain ⟨rest, hitems⟩ := hpop item rfl
    simp [pcTokens, queueWeight, hitems]
  | unlock => exact absurd rfl (on _)

end

theorem moved_trans {sh sh' : Shared} {t t' : Thread} (hok : ThreadOk t) (hpop : PopOk sh t)
    (h : Trans sh t sh' t') : ∃ old new, Moved sh t sh' t' old new := by
  have hkeep : ∀ {sh' : Shared} {t' : Thread}, sh'.queues = sh.queues →
      Books sh sh' nothing nothing [] [] [] [] → (∀ f, threadWeight f t' = threadWeight f t) →
      ∃ old new, Moved sh t sh' t' old new := fun hqueues hbooks hweight =>
    ⟨[], [], moved_thread hqueues (.keep hbooks) fun f => congrArg (· + _) (hweight f)⟩
  have hsame : Books sh sh nothing nothing [] [] [] [] := books_keep rfl rfl rfl rfl rfl
  cases h with
  | submit o st k =>
    refine ⟨_, _, moved_thread rfl
      (.submit ⟨sh.submitted.length, some k⟩ rfl (books_record rfl rfl ?_ ?_ ?_)) fun f => ?_⟩
    · exact (List.append_nil _).symm
    · exact (List.append_nil _).symm
    · exact (List.append_nil _).symm
    · cases st <;> simp [threadWeight, tokens, pcTokens, stackTokens, topPhase, firstPhase]
      omega
  | submitPool o st =>
    refine ⟨_, _, moved_thread rfl
      (.submit ⟨sh.submitted.length, none⟩ rfl (books_record rfl rfl ?_ ?_ ?_)) fun f => ?_⟩
    · exact (List.append_nil _).symm
    · exact (List.append_nil _).symm
    · exact (List.append_nil _).symm
    · cases st <;> simp [threadWeight, tokens, pcTokens, stackTokens, topPhase, firstPhase]
      omega
  | returns o item rest k context =>
    refine ⟨_, _, moved_thread rfl
      (.finish item k context (books_record rfl ?_ ?_ ?_ rfl)) fun f => ?_⟩
    · exact (List.append_nil _).symm
    · exact (List.append_nil _).symm
    · exact (List.append_nil _).symm
    · simp [threadWeight, tokens, pcTokens, stackTokens, topPhase, updated]
      omega
  | returnsPool o item rest context =>
    refine ⟨_, _, moved_thread rfl
      (.finishPool item context (books_record rfl ?_ ?_ ?_ rfl)) fun f => ?_⟩
    · exact (List.append_nil _).symm
    · exact (List.append_nil _).symm
    · exact (List.append_nil _).symm
    · rw [threadWeight_leave]
      simp [threadWeight, tokens, pcTokens, stackTokens, topPhase]
      omega
  | awaitDone o k ctx here => exact hkeep rfl (books_steady here _ rfl rfl) fun f => rfl
  | halt o st => exact hkeep rfl hsame fun f => by cases st <;> rfl
  | startRef o st item k ctx context here =>
    have hb := books_context here { ctx with refCount := ctx.refCount + 1 } 1 0
      rfl (Int.add_zero _).symm
    rw [only_zero] at hb
    refine ⟨_, _, moved_thread rfl (.ref item k context hb) fun f => ?_⟩
    cases st <;> simp [threadWeight, tokens, pcTokens, stackTokens, topPhase, updated] <;> omega
  | @startWork o st item k ctx pc pc' w context here trans on =>
    refine moved_startWork context here hok.2.1 trans fun f => ?_
    rw [threadWeight, tokens, weigh_append]
    simp only [pcTokens, (counts_value hok.2.1 trans).1, if_true]
    cases st <;> rfl
  | startedWork o st item k ctx context here trans =>
    refine moved_startWork context here hok.2.1 trans fun f => ?_
    rw [threadWeight, tokens, weigh_append]
    cases st <;> rfl
  | runHere o st item alone =>
    refine ⟨_, _, moved_thread rfl (.start item (books_record rfl ?_ ?_ rfl ?_)) fun f => ?_⟩
    · exact (List.append_nil _).symm
    · exact (List.append_nil _).symm
    · exact (List.append_nil _).symm
    · cases st <;> simp [threadWeight, tokens, pcTokens, stackTokens, topPhase] <;> omega
  | pick o st item =>
    exact hkeep rfl (books_keep rfl rfl rfl rfl rfl) fun f => by cases st <;> rfl
  | push o st item v q here step on =>
    refine ⟨[], [], moved_queue here rfl (.keep (books_keep rfl rfl rfl rfl rfl)) fun f => ?_⟩
    have := weight_push (v := v) step (fun _ => on _) f
    simp only [threadWeight, tokens, weigh_append]
    change _ + weigh f (stackTokens .user st) + _ + 0 = _ + weigh f (stackTokens .user st) + _ + 0
    omega
  | pushed o st item v q here step =>
    refine ⟨[], [], moved_queue here rfl (.keep (books_keep rfl rfl rfl rfl rfl)) fun f => ?_⟩
    have := weight_push (v := v) step (fun _ => nofun) f
    simp only [threadWeight, tokens, weigh_append]
    change 0 + weigh f (stackTokens .user st) + _ + 0 = _ + weigh f (stackTokens .user st) + _ + 0
    change 0 + queueWeight f _ = _ at this
    omega
  | refused o st item v q here closed =>
    refine ⟨_, _, moved_queue here rfl (.drop item (books_record rfl ?_ rfl ?_ ?_)) fun f => ?_⟩
    · exact (List.append_nil _).symm
    · exact (List.append_nil _).symm
    · exact (List.append_nil _).symm
    · cases st <;> simp [threadWeight, tokens, pcTokens, stackTokens, topPhase] <;> omega
  | finishWork o item rest k ctx context here trans on =>
    refine moved_finishWork context here hok.2 trans fun f => ?_
    rw [threadWeight, tokens, weigh_append]
    simp only [stackTokens, topPhase, (counts_value hok.2 trans).1, if_true]
    exact Nat.zero_add _
  | finishedWork o item rest k ctx context here trans =>
    refine moved_finishWork context here hok.2 trans fun f => ?_
    rw [threadWeight, tokens, weigh_append]
    exact Nat.zero_add _
  | finishRef o item rest k ctx context here =>
    have hb := books_context here { ctx with refCount := ctx.refCount + -1 } (-1) 0
      rfl (Int.add_zero _).symm
    rw [only_zero] at hb
    refine ⟨_, _, moved_thread rfl (.unref item k context hb) fun f => ?_⟩
    rw [threadWeight_leave]
    simp [threadWeight, tokens, pcTokens, stackTokens, topPhase]
    omega
  | awaitLoad o st k ctx here => exact hkeep rfl hsame fun f => by cases st <;> rfl
  | checkFails o st k count negative =>
    exact hkeep rfl (books_keep rfl rfl rfl rfl rfl) fun f => rfl
  | checkZero o st k => exact hkeep rfl hsame fun f => by cases st <;> rfl
  | checkWaits o st k ctx count here =>
    exact hkeep rfl (books_steady here _ rfl (Watch.begin_value _ _)) fun f => by cases st <;> rfl
  | await o st k ctx here trans on =>
    obtain ⟨-, handler, hst⟩ := hok
    have hv := (Watch.trans_wait trans hst (fun _ => nofun)).1.1
    exact hkeep rfl (books_steady here _ rfl hv) fun f => by cases st <;> rfl
  | awake o st k ctx count here trans =>
    obtain ⟨-, handler, hst⟩ := hok
    have hv := (Watch.trans_wait trans hst (fun _ => nofun)).1.1
    exact hkeep rfl (books_steady here _ rfl hv) fun f => by cases st <;> rfl
  | closed o st k ctx here trans =>
    obtain ⟨-, handler, hst⟩ := hok
    have hv := (Watch.trans_wait trans hst (fun _ => nofun)).1.1
    exact hkeep rfl (books_steady here _ rfl hv) fun f => by cases st <;> rfl
  | spin o st k => exact hkeep rfl hsame fun f => rfl
  | done o st k ctx here zero =>
    exact hkeep rfl (books_steady here _ rfl rfl) fun f => by cases st <;> rfl
  | close o st n q here =>
    refine ⟨[], [], moved_queue here rfl (.keep (books_keep rfl rfl rfl rfl rfl)) fun f => ?_⟩
    rw [show queueWeight f { q with closed := true } = queueWeight f q from queueWeight_eq rfl]
    cases st <;> rfl
  | halted o st n last => exact hkeep rfl hsame fun f => by cases st <;> rfl
  | take v st q here step on =>
    refine ⟨[], [], moved_queue here rfl (.keep (books_keep rfl rfl rfl rfl rfl)) fun f => ?_⟩
    have := weight_take step on (fun item hpc => hpop v item q rfl (by rw [hpc]) here) f
    simp only [threadWeight, tokens, weigh_append]
    change _ + weigh f (stackTokens .user st) + _ + 0 = _ + weigh f (stackTokens .user st) + _ + 0
    omega
  | taken v st q item here =>
    refine ⟨_, _, moved_queue here rfl (.start item (books_record rfl ?_ ?_ rfl ?_)) fun f => ?_⟩
    · exact (List.append_nil _).symm
    · exact (List.append_nil _).symm
    · exact (List.append_nil _).symm
    · rw [show queueWeight f { q with locked := false } = queueWeight f q from queueWeight_eq rfl]
      cases st <;> simp [threadWeight, tokens, pcTokens, stackTokens, topPhase] <;> omega
  | exit v st q old here closed =>
    refine ⟨[], [], moved_queue here rfl (.keep (books_keep rfl rfl rfl rfl rfl)) fun f => ?_⟩
    cases st <;> rfl

end Batt.WorkerPool
