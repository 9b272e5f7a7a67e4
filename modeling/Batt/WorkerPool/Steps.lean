/-
  What one step of a thread can do, said once.

  A constructor of `Trans` is a branch of `step` that fails no check, with the branch's condition.
  A call into a watch goes on (`on`) or has returned. The accesses to a work queue are told apart
  by what they do with the item: `Pushes` and `Takes` name the program points of `push` and of
  `await_next`.
-/
import Batt.WorkerPool.Model
import Batt.Watch.Moves

namespace Batt.WorkerPool

open Interleave

/-! ## Calls into a queue -/

/-- Where `push(item)` is, and whether the item is still to be inserted. -/
inductive Pushes (item : Item) : Queue.Pc Item → Bool → Prop where
  | isOpen : Pushes item (.isOpen [item]) true
  | lock : Pushes item (.lockPush [item]) true
  | insert : Pushes item (.insert [] [item]) true
  | unlock : Pushes item (.insert [item] []) false
  | notify : Pushes item (.notify [item]) false

/-- Where `await_next` is, before it has taken an item out. -/
inductive Takes : Queue.Pc Item → Prop where
  | load : Takes .awaitModifyLoad
  | cas (old : Int) : Takes (.awaitModifyCas old)
  | wait (old : Int) : Takes (.awaitNotEqual old)
  | lock : Takes (.lockPop .awaitNext)
  | front : Takes (.front .awaitNext)
  | pop (v : Item) : Takes (.popFront .awaitNext v)

/-- What an access of `push(item)` does to the queue. -/
inductive PushStep (item : Item) (q : Queue.Shared Item) :
    Queue.Pc Item → Queue.Shared Item → Queue.Pc Item → Prop where
  | isOpen (isOpen : q.closed = false) : PushStep item q (.isOpen [item]) q (.lockPush [item])
  | refuse (closed : q.closed = true) :
      PushStep item q (.isOpen [item]) q (.finish (.flag false))
  | lock : PushStep item q (.lockPush [item]) { q with locked := true } (.insert [] [item])
  | insert :
      PushStep item q (.insert [] [item])
        { q with items := q.items ++ [item], inserted := q.inserted ++ [item] } (.insert [item] [])
  | unlock :
      PushStep item q (.insert [item] [])
        { q with locked := false, batches := q.batches ++ [[item]] } (.notify [item])
  | notify :
      PushStep item q (.notify [item]) (q.setPending (Queue.addI64 q.pendingCount 1))
        (.finish (.flag true))

/-- What an access of `await_next` does to the queue. -/
inductive TakeStep (q : Queue.Shared Item) :
    Queue.Pc Item → Queue.Shared Item → Queue.Pc Item → Prop where
  | quiet {pc pc' : Queue.Pc Item} {q' : Queue.Shared Item} (takes : Takes pc) (takes' : Takes pc')
      (items : q'.items = q.items) (closed : q'.closed = q.closed)
      (stays : ∀ v, pc' ≠ .popFront .awaitNext v) : TakeStep q pc q' pc'
  | closed (old : Int) (closed : q.closed = true) :
      TakeStep q (.awaitNotEqual old) q (.finish (.status .kClosed))
  | front (v : Item) (rest : List Item) (items : q.items = v :: rest) :
      TakeStep q (.front .awaitNext) q (.popFront .awaitNext v)
  | pop (v : Item) :
      TakeStep q (.popFront .awaitNext v)
        { q with items := q.items.tail, popped := q.popped ++ [v] } (.unlockPop .awaitNext v)
  | unlock (v : Item) :
      TakeStep q (.unlockPop .awaitNext v) { q with locked := false } (.finish (.item v))

variable {pc pc' : Queue.Pc Item} {q q' : Queue.Shared Item} {item : Item} {a : Act}

theorem pushStep_of_queueStep {b : Bool} (hp : Pushes item pc b)
    (h : queueStep a q pc = some (q', pc')) : PushStep item q pc q' pc' := by
  cases a with
  | run =>
    cases hp with
    | isOpen =>
      simp only [queueStep, Queue.exec] at h
      cases hc : q.closed with
      | true =>
        rw [hc] at h
        cases h
        exact .refuse hc
      | false =>
        rw [hc] at h
        cases h
        exact .isOpen hc
    | lock =>
      simp only [queueStep, Queue.exec] at h
      split at h
      · cases h
      · cases h
        exact .lock
    | insert => cases h; exact .insert
    | unlock => cases h; exact .unlock
    | notify => cases h; exact .notify
  | _ => cases hp <;> cases h

/-- Counting `pending_count_` down, or finding that it cannot be. -/
theorem takeStep_cas {weak : Bool} {old : Int}
    (h : Queue.exec weak q (.awaitModifyCas old) = some (q', pc')) :
    TakeStep q (.awaitModifyCas old) q' pc' := by
  simp only [Queue.exec] at h
  split at h
  · cases h
    exact .quiet (.cas _) (.wait _) rfl rfl nofun
  · split at h
    · cases h
      exact .quiet (.cas _) .lock rfl rfl nofun
    · cases h
      exact .quiet (.cas _) (.cas _) rfl rfl nofun

theorem takeStep_of_queueStep (hp : Takes pc ∨ ∃ v, pc = .unlockPop .awaitNext v)
    (h : queueStep a q pc = some (q', pc')) :
    TakeStep q pc q' pc' := by
  rcases hp with hp | ⟨v, rfl⟩
  · cases hp with
    | load =>
      cases a with
      | run => cases h; exact .quiet .load (.cas _) rfl rfl nofun
      | _ => cases h
    | cas old =>
      cases a with
      | run => exact takeStep_cas h
      | spurious => exact takeStep_cas h
      | _ => cases h
    | wait old =>
      cases a with
      | run =>
        simp only [queueStep, Queue.exec] at h
        split at h
        · rename_i hc
          cases h
          exact .closed old hc
        · cases h
      | woken v =>
        simp only [queueStep] at h
        split at h
        · cases h
          exact .quiet (.wait _) (.cas _) rfl rfl nofun
        · cases h
      | _ => cases h
    | lock =>
      cases a with
      | run =>
        simp only [queueStep, Queue.exec] at h
        split at h
        · cases h
        · cases h
          exact .quiet .lock .front rfl rfl nofun
      | _ => cases h
    | front =>
      cases a with
      | run =>
        simp only [queueStep, Queue.exec] at h
        split at h
        · cases h
        · rename_i v rest hitems
          cases h
          exact .front v rest hitems
      | _ => cases h
    | pop v =>
      cases a with
      | run => cases h; exact .pop v
      | _ => cases h
  · cases a with
    | run => cases h; exact .unlock v
    | _ => cases h

/-! ## Threads that are well formed -/

/-- `fetch_add` and `fetch_sub` are before their update or after it. -/
def Counts (op : Watch.FetchOp) (pc : Watch.Pc Int) : Prop :=
  pc = .fetch op 1 ∨ ∃ ret, pc.stage = .done ret

/-- The task of a worker runs the user's code inside a work function only. -/
def InWork (t : Thread) : Prop := t.worker.isSome = true → t.stack ≠ []

/-- The innermost work function is one of a context. -/
def InContext (t : Thread) : Prop := ∃ item rest k, t.stack = item :: rest ∧ item.context = some k

def ThreadOk (t : Thread) : Prop :=
  match t.pc with
  | .user | .halt _ | .pick _ => InWork t
  | .startRef item => (∃ k, item.context = some k) ∧ InWork t
  | .startWork item pc => (∃ k, item.context = some k) ∧ Counts .add pc ∧ InWork t
  | .push _ item pc => (∃ b, Pushes item pc b) ∧ InWork t
  | .finishWork pc => InContext t ∧ Counts .sub pc
  | .finishRef => InContext t
  | .awaitLoad _ | .awaitCheck _ _ | .awaitRef _ => t.worker = none
  | .awaitNotEqual _ pc => t.worker = none ∧ ∃ h, pc.stage = .wait h .awaitNotEqual
  | .next pc => (∃ w, t.worker = some w) ∧ t.stack = [] ∧
      (Takes pc ∨ ∃ v, pc = .unlockPop .awaitNext v)
  | .exited => (∃ w, t.worker = some w) ∧ t.stack = []

/-! ## Steps -/

/-- The call goes on. -/
def Goes (pc : Watch.Pc Int) : Prop := ∀ ret, pc ≠ .finish ret

section

variable (sh : Shared)

inductive Trans : Thread → Shared → Thread → Prop where
  | submit (o : Option Nat) (st : List Item) (k : Nat) :
      Trans ⟨o, st, .user⟩
        { sh with submitted := sh.submitted ++ [⟨sh.submitted.length, some k⟩] }
        ⟨o, st, .startRef ⟨sh.submitted.length, some k⟩⟩
  | submitPool (o : Option Nat) (st : List Item) :
      Trans ⟨o, st, .user⟩ { sh with submitted := sh.submitted ++ [⟨sh.submitted.length, none⟩] }
        ⟨o, st, .pick ⟨sh.submitted.length, none⟩⟩
  | returns (o : Option Nat) (item : Item) (rest : List Item) (k : Nat)
      (context : item.context = some k) :
      Trans ⟨o, item :: rest, .user⟩ { sh with finished := sh.finished ++ [item] }
        ⟨o, item :: rest, .finishWork (.fetch .sub 1)⟩
  | returnsPool (o : Option Nat) (item : Item) (rest : List Item) (context : item.context = none) :
      Trans ⟨o, item :: rest, .user⟩ { sh with finished := sh.finished ++ [item] }
        (Thread.leave ⟨o, item :: rest, .user⟩)
  | awaitDone (o : Option Nat) (k : Nat) (ctx : Context) (here : sh.contexts[k]? = some ctx) :
      Trans ⟨o, [], .user⟩ (sh.setContext k { ctx with awaited := true }) ⟨o, [], .awaitLoad k⟩
  | halt (o : Option Nat) (st : List Item) : Trans ⟨o, st, .user⟩ sh ⟨o, st, .halt 0⟩
  | startRef (o : Option Nat) (st : List Item) (item : Item) (k : Nat) (ctx : Context)
      (context : item.context = some k) (here : sh.contexts[k]? = some ctx) :
      Trans ⟨o, st, .startRef item⟩ (sh.setContext k { ctx with refCount := ctx.refCount + 1 })
        ⟨o, st, .startWork item (.fetch .add 1)⟩
  | startWork (o : Option Nat) (st : List Item) (item : Item) (k : Nat) (ctx : Context)
      {pc pc' : Watch.Pc Int} {w : Watch.Shared Int} (context : item.context = some k)
      (here : sh.contexts[k]? = some ctx) (trans : Watch.Trans ctx.workCount 0 pc w pc')
      (on : Goes pc') :
      Trans ⟨o, st, .startWork item pc⟩ (sh.setContext k { ctx with workCount := w })
        ⟨o, st, .startWork item pc'⟩
  | startedWork (o : Option Nat) (st : List Item) (item : Item) (k : Nat) (ctx : Context)
      {pc : Watch.Pc Int} {w : Watch.Shared Int} {ret : Watch.Ret Int}
      (context : item.context = some k) (here : sh.contexts[k]? = some ctx)
      (trans : Watch.Trans ctx.workCount 0 pc w (.finish ret)) :
      Trans ⟨o, st, .startWork item pc⟩ (sh.setContext k { ctx with workCount := w })
        ⟨o, st, .pick item⟩
  | runHere (o : Option Nat) (st : List Item) (item : Item) (alone : sh.queues.length = 0) :
      Trans ⟨o, st, .pick item⟩ { sh with ran := sh.ran ++ [item] } ⟨o, item :: st, .user⟩
  | pick (o : Option Nat) (st : List Item) (item : Item) :
      Trans ⟨o, st, .pick item⟩ { sh with roundRobin := (sh.roundRobin + 1) % 2 ^ 64 }
        ⟨o, st, .push (sh.roundRobin % sh.queues.length) item (.isOpen [item])⟩
  | push (o : Option Nat) (st : List Item) (item : Item) (v : Nat) (q : Queue.Shared Item)
      {pc pc' : Queue.Pc Item} {q' : Queue.Shared Item} (here : sh.queues[v]? = some q)
      (step : PushStep item q pc q' pc') (on : ∀ ret, pc' ≠ .finish ret) :
      Trans ⟨o, st, .push v item pc⟩ (sh.setQueue v q') ⟨o, st, .push v item pc'⟩
  | pushed (o : Option Nat) (st : List Item) (item : Item) (v : Nat) (q : Queue.Shared Item)
      {pc : Queue.Pc Item} {q' : Queue.Shared Item} (here : sh.queues[v]? = some q)
      (step : PushStep item q pc q' (.finish (.flag true))) :
      Trans ⟨o, st, .push v item pc⟩ (sh.setQueue v q') ⟨o, st, .user⟩
  | refused (o : Option Nat) (st : List Item) (item : Item) (v : Nat) (q : Queue.Shared Item)
      (here : sh.queues[v]? = some q) (closed : q.closed = true) :
      Trans ⟨o, st, .push v item (.isOpen [item])⟩
        { sh.setQueue v q with dropped := sh.dropped ++ [item] } ⟨o, st, .user⟩
  | finishWork (o : Option Nat) (item : Item) (rest : List Item) (k : Nat) (ctx : Context)
      {pc pc' : Watch.Pc Int} {w : Watch.Shared Int} (context : item.context = some k)
      (here : sh.contexts[k]? = some ctx) (trans : Watch.Trans ctx.workCount 0 pc w pc')
      (on : Goes pc') :
      Trans ⟨o, item :: rest, .finishWork pc⟩ (sh.setContext k { ctx with workCount := w })
        ⟨o, item :: rest, .finishWork pc'⟩
  | finishedWork (o : Option Nat) (item : Item) (rest : List Item) (k : Nat) (ctx : Context)
      {pc : Watch.Pc Int} {w : Watch.Shared Int} {ret : Watch.Ret Int}
      (context : item.context = some k) (here : sh.contexts[k]? = some ctx)
      (trans : Watch.Trans ctx.workCount 0 pc w (.finish ret)) :
      Trans ⟨o, item :: rest, .finishWork pc⟩ (sh.setContext k { ctx with workCount := w })
        ⟨o, item :: rest, .finishRef⟩
  | finishRef (o : Option Nat) (item : Item) (rest : List Item) (k : Nat) (ctx : Context)
      (context : item.context = some k) (here : sh.contexts[k]? = some ctx) :
      Trans ⟨o, item :: rest, .finishRef⟩
        (sh.setContext k { ctx with refCount := ctx.refCount + -1 })
        (Thread.leave ⟨o, item :: rest, .finishRef⟩)
  | awaitLoad (o : Option Nat) (st : List Item) (k : Nat) (ctx : Context)
      (here : sh.contexts[k]? = some ctx) :
      Trans ⟨o, st, .awaitLoad k⟩ sh ⟨o, st, .awaitCheck k ctx.workCount.value⟩
  | checkFails (o : Option Nat) (st : List Item) (k : Nat) (count : Int) (negative : count < 0) :
      Trans ⟨o, st, .awaitCheck k count⟩ { sh with panicked := true } ⟨o, st, .awaitCheck k count⟩
  | checkZero (o : Option Nat) (st : List Item) (k : Nat) :
      Trans ⟨o, st, .awaitCheck k 0⟩ sh ⟨o, st, .awaitRef k⟩
  | checkWaits (o : Option Nat) (st : List Item) (k : Nat) (ctx : Context) (count : Int)
      (here : sh.contexts[k]? = some ctx) :
      Trans ⟨o, st, .awaitCheck k count⟩
        (sh.setContext k
          { ctx with workCount := (Watch.begin ctx.workCount (.awaitNotEqual count)).1 })
        ⟨o, st, .awaitNotEqual k (Watch.begin ctx.workCount (.awaitNotEqual count)).2⟩
  | await (o : Option Nat) (st : List Item) (k : Nat) (ctx : Context) {pc pc' : Watch.Pc Int}
      {w : Watch.Shared Int} (here : sh.contexts[k]? = some ctx)
      (trans : Watch.Trans ctx.workCount 0 pc w pc') (on : Goes pc') :
      Trans ⟨o, st, .awaitNotEqual k pc⟩ (sh.setContext k { ctx with workCount := w })
        ⟨o, st, .awaitNotEqual k pc'⟩
  | awake (o : Option Nat) (st : List Item) (k : Nat) (ctx : Context) (count : Int)
      {pc : Watch.Pc Int} {w : Watch.Shared Int} (here : sh.contexts[k]? = some ctx)
      (trans : Watch.Trans ctx.workCount 0 pc w (.finish (.value count))) :
      Trans ⟨o, st, .awaitNotEqual k pc⟩ (sh.setContext k { ctx with workCount := w })
        ⟨o, st, .awaitCheck k count⟩
  | closed (o : Option Nat) (st : List Item) (k : Nat) (ctx : Context) {pc : Watch.Pc Int}
      {w : Watch.Shared Int} {ret : Watch.Ret Int} (here : sh.contexts[k]? = some ctx)
      (trans : Watch.Trans ctx.workCount 0 pc w (.finish ret)) :
      Trans ⟨o, st, .awaitNotEqual k pc⟩ (sh.setContext k { ctx with workCount := w })
        ⟨o, st, .awaitRef k⟩
  | spin (o : Option Nat) (st : List Item) (k : Nat) :
      Trans ⟨o, st, .awaitRef k⟩ sh ⟨o, st, .awaitRef k⟩
  | done (o : Option Nat) (st : List Item) (k : Nat) (ctx : Context)
      (here : sh.contexts[k]? = some ctx) (zero : ctx.refCount ≤ 0) :
      Trans ⟨o, st, .awaitRef k⟩ (sh.setContext k { ctx with returned := true }) ⟨o, st, .user⟩
  | close (o : Option Nat) (st : List Item) (n : Nat) (q : Queue.Shared Item)
      (here : sh.queues[n]? = some q) :
      Trans ⟨o, st, .halt n⟩ (sh.setQueue n { q with closed := true }) ⟨o, st, .halt (n + 1)⟩
  | halted (o : Option Nat) (st : List Item) (n : Nat) (last : sh.queues[n]? = none) :
      Trans ⟨o, st, .halt n⟩ sh ⟨o, st, .user⟩
  | take (v : Nat) (st : List Item) (q : Queue.Shared Item) {pc pc' : Queue.Pc Item}
      {q' : Queue.Shared Item} (here : sh.queues[v]? = some q) (step : TakeStep q pc q' pc')
      (on : ∀ ret, pc' ≠ .finish ret) :
      Trans ⟨some v, st, .next pc⟩ (sh.setQueue v q') ⟨some v, st, .next pc'⟩
  | taken (v : Nat) (st : List Item) (q : Queue.Shared Item) (item : Item)
      (here : sh.queues[v]? = some q) :
      Trans ⟨some v, st, .next (.unlockPop .awaitNext item)⟩
        { sh.setQueue v { q with locked := false } with ran := sh.ran ++ [item] }
        ⟨some v, item :: st, .user⟩
  | exit (v : Nat) (st : List Item) (q : Queue.Shared Item) (old : Int)
      (here : sh.queues[v]? = some q) (closed : q.closed = true) :
      Trans ⟨some v, st, .next (.awaitNotEqual old)⟩ (sh.setQueue v q) ⟨some v, st, .exited⟩

end

/-! ## They are all there is -/

section

variable {sh sh' : Shared} {o : Option Nat} {st : List Item} {t' : Thread}

theorem trans_call (h : Thread.call sh ⟨o, st, .user⟩ a = some (sh', t')) :
    Trans sh ⟨o, st, .user⟩ sh' t' := by
  cases a with
  | asyncRun context =>
    cases context with
    | some k => cases h; exact .submit o st k
    | none => cases h; exact .submitPool o st
  | workReturns =>
    cases st with
    | nil => cases h
    | cons item rest =>
      simp only [Thread.call, workReturns] at h
      split at h
      · rename_i k hk
        cases h
        exact .returns o item rest k hk
      · rename_i hk
        cases h
        exact .returnsPool o item rest hk
  | awaitDone k =>
    cases st with
    | nil =>
      obtain ⟨ctx, hctx, hr⟩ := Option.map_eq_some_iff.mp h
      cases hr
      exact .awaitDone o k ctx hctx
    | cons item rest => cases h
  | halt => cases h; exact .halt o st
  | _ => cases h

/-- A call into `work_count_` makes its next access. -/
theorem watchStep_trans {k : Nat} {pc pc' : Watch.Pc Int}
    (h : sh.watchStep k pc = some (sh', pc')) :
    ∃ ctx w, sh.contexts[k]? = some ctx ∧ Watch.Trans ctx.workCount 0 pc w pc' ∧
      sh' = sh.setContext k { ctx with workCount := w } := by
  obtain ⟨ctx, hctx, h⟩ := Option.bind_eq_some_iff.mp h
  obtain ⟨⟨w, pc''⟩, he, hr⟩ := Option.map_eq_some_iff.mp h
  cases hr
  exact ⟨ctx, w, hctx, Watch.exec_trans he, rfl⟩

theorem trans_startRef (h : Thread.run sh ⟨o, st, .startRef item⟩ = some (sh', t')) :
    Trans sh ⟨o, st, .startRef item⟩ sh' t' := by
  obtain ⟨k, hk, h⟩ := Option.bind_eq_some_iff.mp h
  obtain ⟨sh₁, hadd, hr⟩ := Option.map_eq_some_iff.mp h
  obtain ⟨ctx, hctx, rfl⟩ := Option.map_eq_some_iff.mp hadd
  cases hr
  exact .startRef o st item k ctx hk hctx

theorem trans_startWork {pc : Watch.Pc Int}
    (h : Thread.run sh ⟨o, st, .startWork item pc⟩ = some (sh', t')) :
    Trans sh ⟨o, st, .startWork item pc⟩ sh' t' := by
  obtain ⟨k, hk, h⟩ := Option.bind_eq_some_iff.mp h
  obtain ⟨⟨sh₁, pc'⟩, hw, hr⟩ := Option.map_eq_some_iff.mp h
  obtain ⟨ctx, w, hctx, ht, rfl⟩ := watchStep_trans hw
  cases pc' with
  | finish ret => cases hr; exact .startedWork o st item k ctx hk hctx ht
  | _ => cases hr; exact .startWork o st item k ctx hk hctx ht (by intro ret; exact nofun)

theorem trans_finishWork {rest : List Item} {pc : Watch.Pc Int}
    (h : Thread.run sh ⟨o, item :: rest, .finishWork pc⟩ = some (sh', t')) :
    Trans sh ⟨o, item :: rest, .finishWork pc⟩ sh' t' := by
  obtain ⟨k, hk, h⟩ := Option.bind_eq_some_iff.mp h
  obtain ⟨⟨sh₁, pc'⟩, hw, hr⟩ := Option.map_eq_some_iff.mp h
  obtain ⟨ctx, w, hctx, ht, rfl⟩ := watchStep_trans hw
  cases pc' with
  | finish ret => cases hr; exact .finishedWork o item rest k ctx hk hctx ht
  | _ => cases hr; exact .finishWork o item rest k ctx hk hctx ht (by intro ret; exact nofun)

theorem trans_finishRef {rest : List Item}
    (h : Thread.run sh ⟨o, item :: rest, .finishRef⟩ = some (sh', t')) :
    Trans sh ⟨o, item :: rest, .finishRef⟩ sh' t' := by
  obtain ⟨k, hk, h⟩ := Option.bind_eq_some_iff.mp h
  obtain ⟨sh₁, hadd, hr⟩ := Option.map_eq_some_iff.mp h
  obtain ⟨ctx, hctx, rfl⟩ := Option.map_eq_some_iff.mp hadd
  cases hr
  exact .finishRef o item rest k ctx hk hctx

theorem trans_pick (h : Thread.run sh ⟨o, st, .pick item⟩ = some (sh', t')) :
    Trans sh ⟨o, st, .pick item⟩ sh' t' := by
  simp only [Thread.run] at h
  split at h
  · rename_i halone
    cases h
    exact .runHere o st item halone
  · cases h
    exact .pick o st item

theorem trans_awaitCheck {k : Nat} {count : Int}
    (h : Thread.run sh ⟨o, st, .awaitCheck k count⟩ = some (sh', t')) :
    Trans sh ⟨o, st, .awaitCheck k count⟩ sh' t' := by
  simp only [Thread.run, awaitCheck] at h
  split at h
  · rename_i hneg
    cases h
    exact .checkFails o st k count hneg
  · split at h
    · obtain rfl : count = 0 := by omega
      cases h
      exact .checkZero o st k
    · obtain ⟨ctx, hctx, hr⟩ := Option.map_eq_some_iff.mp h
      cases hr
      exact .checkWaits o st k ctx count hctx

theorem trans_awaitNotEqual {k : Nat} {pc : Watch.Pc Int}
    (h : Thread.run sh ⟨o, st, .awaitNotEqual k pc⟩ = some (sh', t')) :
    Trans sh ⟨o, st, .awaitNotEqual k pc⟩ sh' t' := by
  obtain ⟨⟨sh₁, pc'⟩, hw, hr⟩ := Option.map_eq_some_iff.mp h
  obtain ⟨ctx, w, hctx, ht, rfl⟩ := watchStep_trans hw
  cases pc' with
  | finish ret =>
    cases ret with
    | value count => cases hr; exact .awake o st k ctx count hctx ht
    | _ => cases hr; exact .closed o st k ctx hctx ht
  | _ => cases hr; exact .await o st k ctx hctx ht (by intro ret; exact nofun)

theorem trans_awaitRef {k : Nat} (h : Thread.run sh ⟨o, st, .awaitRef k⟩ = some (sh', t')) :
    Trans sh ⟨o, st, .awaitRef k⟩ sh' t' := by
  obtain ⟨ctx, hctx, hr⟩ := Option.map_eq_some_iff.mp h
  split at hr
  · cases hr
    exact .spin o st k
  · rename_i hzero
    cases hr
    exact .done o st k ctx hctx (by omega)

theorem trans_halt {n : Nat} (h : Thread.run sh ⟨o, st, .halt n⟩ = some (sh', t')) :
    Trans sh ⟨o, st, .halt n⟩ sh' t' := by
  simp only [Thread.run] at h
  split at h
  · rename_i q hq
    cases h
    exact .close o st n q hq
  · rename_i hlast
    cases h
    exact .halted o st n hlast

theorem trans_push {v : Nat} {b : Bool} (hp : Pushes item pc b)
    (h : Thread.queueRun a sh ⟨o, st, .push v item pc⟩ = some (sh', t')) :
    Trans sh ⟨o, st, .push v item pc⟩ sh' t' := by
  obtain ⟨q, hq, h⟩ := Option.bind_eq_some_iff.mp h
  obtain ⟨⟨q', pc'⟩, hs, hr⟩ := Option.map_eq_some_iff.mp h
  have hstep := pushStep_of_queueStep hp hs
  cases hstep with
  | refuse hclosed => cases hr; exact .refused o st item v q hq hclosed
  | notify => cases hr; exact .pushed o st item v q hq .notify
  | isOpen hopen => cases hr; exact .push o st item v q hq (.isOpen hopen) nofun
  | lock => cases hr; exact .push o st item v q hq .lock nofun
  | insert => cases hr; exact .push o st item v q hq .insert nofun
  | unlock => cases hr; exact .push o st item v q hq .unlock nofun

theorem trans_next {v : Nat} (hp : Takes pc ∨ ∃ item, pc = .unlockPop .awaitNext item)
    (h : Thread.queueRun a sh ⟨some v, st, .next pc⟩ = some (sh', t')) :
    Trans sh ⟨some v, st, .next pc⟩ sh' t' := by
  obtain ⟨q, hq, h⟩ := Option.bind_eq_some_iff.mp h
  obtain ⟨⟨q', pc'⟩, hs, hr⟩ := Option.map_eq_some_iff.mp h
  have hstep := takeStep_of_queueStep hp hs
  cases hstep with
  | quiet takes takes' items closed stays =>
    have hstep : TakeStep q pc q' pc' := .quiet takes takes' items closed stays
    cases takes' <;> cases hr <;> exact .take v st q hq hstep nofun
  | closed old hclosed => cases hr; exact .exit v st q old hq hclosed
  | front item rest items => cases hr; exact .take v st q hq (.front item rest items) nofun
  | pop item => cases hr; exact .take v st q hq (.pop item) nofun
  | unlock item => cases hr; exact .taken v st q item hq

theorem run_of_ite {x : Option (Shared × Thread)} {r : Shared × Thread}
    (h : (if a = .run then x else none) = some r) : x = some r := by
  split at h
  · exact h
  · cases h

theorem trans_of_step {t : Thread} (hok : ThreadOk t) (h : step a sh t = some (sh', t')) :
    Trans sh t sh' t' := by
  obtain ⟨o, st, pc⟩ := t
  unfold step at h
  split at h
  · cases h
  · cases pc with
    | user => exact trans_call h
    | push v item pc =>
      obtain ⟨⟨b, hp⟩, -⟩ := hok
      exact trans_push hp h
    | next pc =>
      obtain ⟨⟨v, hv⟩, -, hp⟩ := hok
      obtain rfl : o = some v := hv
      exact trans_next hp h
    | exited => cases run_of_ite h
    | finishWork pc =>
      obtain ⟨⟨item, rest, k, hst, hk⟩, -⟩ := hok
      obtain rfl : st = item :: rest := hst
      exact trans_finishWork (run_of_ite h)
    | finishRef =>
      obtain ⟨item, rest, k, hst, hk⟩ := hok
      obtain rfl : st = item :: rest := hst
      exact trans_finishRef (run_of_ite h)
    | startRef item => exact trans_startRef (run_of_ite h)
    | startWork item pc => exact trans_startWork (run_of_ite h)
    | pick item => exact trans_pick (run_of_ite h)
    | awaitLoad k =>
      obtain ⟨ctx, hctx, hr⟩ := Option.map_eq_some_iff.mp (run_of_ite h)
      cases hr
      exact .awaitLoad o st k ctx hctx
    | awaitCheck k count => exact trans_awaitCheck (run_of_ite h)
    | awaitNotEqual k pc => exact trans_awaitNotEqual (run_of_ite h)
    | awaitRef k => exact trans_awaitRef (run_of_ite h)
    | halt n => exact trans_halt (run_of_ite h)

/-! ## What a step keeps of the shape of a thread -/

theorem counts_trans {op : Watch.FetchOp} {w w' : Watch.Shared Int} {pc pc' : Watch.Pc Int}
    (hc : Counts op pc) (ht : Watch.Trans w 0 pc w' pc') : Counts op pc' := by
  rcases hc with rfl | ⟨ret, hst⟩
  · cases ht with
    | update applied same told => exact .inr ⟨_, Watch.stage_afterUpdate _ _ _⟩
  · exact .inr ⟨ret, (Watch.trans_done ht hst).1⟩

theorem threadOk_leave (t : Thread) : ThreadOk t.leave := by
  obtain ⟨o, st, pc⟩ := t
  cases o with
  | none => exact nofun
  | some v =>
    cases hst : st.tail with
    | nil =>
      have : (Thread.leave ⟨some v, st, pc⟩) = ⟨some v, [], .next .awaitModifyLoad⟩ := by
        simp [Thread.leave, hst]
      rw [this]
      exact ⟨⟨v, rfl⟩, rfl, .inl .load⟩
    | cons item rest =>
      have : (Thread.leave ⟨some v, st, pc⟩) = ⟨some v, item :: rest, .user⟩ := by
        simp [Thread.leave, hst]
      rw [this]
      exact fun _ => nofun

theorem pushes_step (h : PushStep item q pc q' pc') (on : ∀ ret, pc' ≠ .finish ret) :
    ∃ b, Pushes item pc' b := by
  cases h with
  | isOpen => exact ⟨_, .lock⟩
  | refuse => exact absurd rfl (on _)
  | lock => exact ⟨_, .insert⟩
  | insert => exact ⟨_, .unlock⟩
  | unlock => exact ⟨_, .notify⟩
  | notify => exact absurd rfl (on _)

theorem takes_step (h : TakeStep q pc q' pc') (on : ∀ ret, pc' ≠ .finish ret) :
    Takes pc' ∨ ∃ v, pc' = .unlockPop .awaitNext v := by
  cases h with
  | quiet takes takes' => exact .inl takes'
  | closed => exact absurd rfl (on _)
  | front v => exact .inl (.pop v)
  | pop v => exact .inr ⟨v, rfl⟩
  | unlock => exact absurd rfl (on _)

theorem threadOk_trans {t : Thread} (hok : ThreadOk t) (h : Trans sh t sh' t') : ThreadOk t' := by
  cases h with
  | submit o st k => exact ⟨⟨k, rfl⟩, hok⟩
  | submitPool o st => exact hok
  | returns o item rest k context => exact ⟨⟨item, rest, k, rfl, context⟩, .inl rfl⟩
  | returnsPool o item rest context => exact threadOk_leave _
  | awaitDone o k ctx here =>
    cases o with
    | none => rfl
    | some v => exact absurd rfl (hok rfl)
  | halt o st => exact hok
  | startRef o st item k ctx context here => exact ⟨⟨k, context⟩, .inl rfl, hok.2⟩
  | startWork o st item k ctx context here trans on =>
    exact ⟨⟨k, context⟩, counts_trans hok.2.1 trans, hok.2.2⟩
  | startedWork o st item k ctx context here trans => exact hok.2.2
  | runHere o st item alone => exact fun _ => nofun
  | pick o st item => exact ⟨⟨_, .isOpen⟩, hok⟩
  | push o st item v q here step on => exact ⟨pushes_step step on, hok.2⟩
  | pushed o st item v q here step => exact hok.2
  | refused o st item v q here closed => exact hok.2
  | finishWork o item rest k ctx context here trans on => exact ⟨hok.1, counts_trans hok.2 trans⟩
  | finishedWork o item rest k ctx context here trans => exact hok.1
  | finishRef o item rest k ctx context here => exact threadOk_leave _
  | awaitLoad o st k ctx here => exact hok
  | checkFails o st k count negative => exact hok
  | checkZero o st k => exact hok
  | checkWaits o st k ctx count here => exact ⟨hok, _, rfl⟩
  | await o st k ctx here trans on =>
    obtain ⟨ho, handler, hst⟩ := hok
    refine ⟨ho, handler, ?_⟩
    rcases Watch.trans_wait_finish trans hst with ⟨hst', _⟩ | ⟨_, _, _, hfin⟩
    · exact hst'
    · exact absurd hfin (on _)
  | awake o st k ctx count here trans => exact hok.1
  | closed o st k ctx here trans => exact hok.1
  | spin o st k => exact hok
  | done o st k ctx here zero =>
    obtain rfl : o = none := hok
    exact nofun
  | close o st n q here => exact hok
  | halted o st n last => exact hok
  | take v st q here step on => exact ⟨⟨v, rfl⟩, hok.2.1, takes_step step on⟩
  | taken v st q item here => exact fun _ => nofun
  | exit v st q old here closed => exact ⟨⟨v, rfl⟩, hok.2.1⟩

end

end Batt.WorkerPool
