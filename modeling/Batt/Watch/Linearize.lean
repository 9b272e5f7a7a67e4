/-
  Updates of `WatchAtomic` are linearizable.

  `links` records every update of `value_` with the call that made it. The history is a
  chain from the initial value to the current one; each call that succeeds has one link in
  it, from the value it returns to what its function makes of that value.

  Seen from its caller a call is at one of three stages (`Stage`): still attempting its
  operation, waiting for a handler between two attempts, or done with the return value
  fixed. `StageStep` is what a step can do to the stage and to the history; the retry loops,
  the lock and the notification are all stutters of it. The invariant `Linear` ties the
  stage of each running call to the links of that call.
-/
import Batt.Watch.Steps

namespace Batt.Watch

open Interleave

variable {T : Type} {initValue : T} {op : Op T}

/-! ## The sequential reading of a call -/

section

variable [Add T] [Sub T] [OrOp T] [AndOp T]

/-- What the operation does to the value it is applied to, `none` where it declines or does
    not write at all. -/
def Op.apply : Op T → T → Option T
  | .setValue newValue, _ => some newValue
  | .fetch op arg, v => some (op.apply v arg)
  | .modify fn, v => some (fn v)
  | .modifyIf fn, v => fn v
  | .awaitModify fn, v => fn v
  | _, _ => none

end

/-- The returns of a call that wrote nothing: any return of a reader, `None` of `modify_if`
    and an error status of `await_modify`. `set_value`, `fetch_*` and `modify` have none. -/
def Op.Declined : Op T → Ret T → Prop
  | .setValue _, _ | .fetch _ _, _ | .modify _, _ => False
  | .modifyIf _, ret => ret = .none
  | .awaitModify _, ret => ∃ code, ret = .status code
  | _, _ => True

/-- The values of the history, oldest first, from `v` to `w`. -/
def Chain : T → List (Link T) → T → Prop
  | v, [], w => v = w
  | v, e :: es, w => e.pre = v ∧ Chain e.post es w

theorem Chain.snoc {v w : T} {es : List (Link T)} (h : Chain v es w) (call : Nat) (w' : T) :
    Chain v (es ++ [⟨call, w, w'⟩]) w' := by
  induction es generalizing v with
  | nil => exact ⟨h.symm, rfl⟩
  | cons e es ih => exact ⟨h.1, ih h.2⟩

/-- The updates made by one call. -/
def linksOf (call : Nat) (sh : Shared T) : List (Link T) :=
  sh.links.filter fun e => e.call == call

theorem linksOf_update_self (call : Nat) (newValue : T) (sh : Shared T) :
    linksOf call (sh.update call newValue) = linksOf call sh ++ [⟨call, sh.value, newValue⟩] := by
  simp [linksOf, Shared.update]

section

variable [Add T] [Sub T] [OrOp T] [AndOp T]

/-- A call of `op` that returns `ret` wrote once, from the value it returns, or declined and
    wrote nothing. -/
def RetOk (op : Op T) (call : Nat) (ret : Ret T) (links : List (Link T)) : Prop :=
  (∃ pre post, ret = .value pre ∧ op.apply pre = some post ∧ links = [⟨call, pre, post⟩]) ∨
    (op.Declined ret ∧ links = [])

theorem RetOk.length_le {call : Nat} {ret : Ret T} {links : List (Link T)}
    (h : RetOk op call ret links) : links.length ≤ 1 := by
  rcases h with ⟨pre, post, _, _, rfl⟩ | ⟨_, rfl⟩ <;> simp

end

/-! ## Stages -/

inductive Stage (T : Type) where
  | attempt (op : Op T)
  | wait (handler : Nat) (k : After T)
  | done (ret : Ret T)

def Site.stage : Site T → Stage T
  | .asyncWait handler _ k => .wait handler k
  | .notify _ ret => .done ret
  | .close _ => .done .unit

def Unlocked.stage : Unlocked T → Stage T
  | .waitClosed handler k => .wait handler k
  | .waitPushed handler k => .wait handler k
  | .waitChanged handler _ k => .wait handler k
  | .notified _ _ ret => .done ret
  | .closed _ => .done .unit

def Pc.stage : Pc T → Stage T
  | .exchange newValue => .attempt (.setValue newValue)
  | .fetch op arg => .attempt (.fetch op arg)
  | .modifyLoad fn | .modifyCas fn _ _ => .attempt (.modify fn)
  | .modifyIfLoad fn | .modifyIfCas fn _ _ => .attempt (.modifyIf fn)
  | .awaitModifyLoad fn | .awaitModifyCas fn _ => .attempt (.awaitModify fn)
  | .waitLoad handler _ k => .wait handler k
  | .notifyLoad _ ret => .done ret
  | .lockObservers site => site.stage
  | .inLock site _ => site.stage
  | .pushHandler handler _ _ k => .wait handler k
  | .unlockObservers _ u => u.stage
  | .getFinalStatus (.wait handler k) => .wait handler k
  | .getFinalStatus (.close _) => .done .unit
  | .invokeNow handler _ k => .wait handler k
  | .invokeAll _ _ ret => .done ret
  | .awaitResult handler k => .wait handler k
  | .loadValue => .attempt .getValue
  | .loadClosed => .attempt .isClosed
  | .finish ret => .done ret

theorem stage_afterUpdate (changed : Bool) (newValue : T) (ret : Ret T) :
    (afterUpdate changed newValue ret).stage = .done ret := by
  cases changed <;> rfl

/-- The operation that waits with handler `handler` and continues with `k`. -/
def Waits (sh : Shared T) : Op T → Nat → After T → Prop
  | .asyncWait lastSeen, handler, .ret => sh.handlers[handler]? = some lastSeen
  | .awaitNotEqual lastSeen, handler, .awaitNotEqual => sh.handlers[handler]? = some lastSeen
  | .awaitModify fn, _, .awaitModify fn' => fn' = fn
  | _, _, _ => False

section

variable [Add T] [Sub T] [OrOp T] [AndOp T]

inductive StageStep (sh : Shared T) (call : Nat) : Stage T → Shared T → Stage T → Prop where
  | stutter (st : Stage T) {sh' : Shared T} (value : sh'.value = sh.value)
      (links : sh'.links = sh.links) (handlers : sh'.handlers = sh.handlers) :
      StageStep sh call st sh' st
  | write (op : Op T) {newValue : T} (applied : op.apply sh.value = some newValue) :
      StageStep sh call (.attempt op) (sh.update call newValue) (.done (.value sh.value))
  | decline (fn : T → Option T) :
      StageStep sh call (.attempt (.modifyIf fn)) sh (.done .none)
  | block (fn : T → Option T) (oldValue : T) :
      StageStep sh call (.attempt (.awaitModify fn)) (sh.addHandler oldValue)
        (.wait sh.handlers.length (.awaitModify fn))
  | retry (fn : T → Option T) (handler : Nat) :
      StageStep sh call (.wait handler (.awaitModify fn)) sh (.attempt (.awaitModify fn))
  | closed (fn : T → Option T) (handler : Nat) (code : StatusCode) :
      StageStep sh call (.wait handler (.awaitModify fn)) sh (.done (.status code))
  | waited {sh' : Shared T} (handler : Nat) (k : After T) (ret : Ret T)
      (value : sh'.value = sh.value) (links : sh'.links = sh.links)
      (handlers : sh'.handlers = sh.handlers) (reader : ∀ fn, k ≠ .awaitModify fn) :
      StageStep sh call (.wait handler k) sh' (.done ret)
  | getValue : StageStep sh call (.attempt .getValue) sh (.done (.value sh.value))
  | isClosed (b : Bool) : StageStep sh call (.attempt .isClosed) sh (.done (.flag b))

/-- The point that makes an update belongs to the operation that makes it. -/
theorem stage_of_apply {pc : Pc T} {v newValue : T} (h : pc.apply v = some newValue) :
    ∃ op : Op T, pc.stage = .attempt op ∧ op.apply v = some newValue := by
  unfold Pc.apply at h
  split at h
  case h_6 => cases h
  all_goals exact ⟨_, rfl, h⟩

/-- Where `async_wait` leaves off, its caller is done or still waits for the handler. -/
theorem stageStep_afterWait {sh sh' : Shared T} (call handler : Nat) (k : After T)
    (value : sh'.value = sh.value) (links : sh'.links = sh.links)
    (handlers : sh'.handlers = sh.handlers) :
    StageStep sh call (.wait handler k) sh' (afterWait handler k).stage := by
  cases k with
  | ret => exact .waited handler _ .unit value links handlers (fun _ => nofun)
  | awaitNotEqual => exact .stutter _ value links handlers
  | awaitModify fn => exact .stutter _ value links handlers

theorem stageStep_resume (sh : Shared T) (call handler : Nat) (k : After T)
    (result : StatusOr T) :
    StageStep sh call (.wait handler k) sh (resume k result).stage := by
  cases k with
  | ret => exact .waited handler _ _ rfl rfl rfl (fun _ => nofun)
  | awaitNotEqual => exact .waited handler _ _ rfl rfl rfl (fun _ => nofun)
  | awaitModify fn =>
    cases result with
    | ok v => exact .retry fn handler
    | error code => exact .closed fn handler code

theorem trans_stage [DecidableEq T] {sh sh' : Shared T} {call : Nat} {pc pc' : Pc T}
    (h : Trans sh call pc sh' pc') : StageStep sh call pc.stage sh' pc'.stage := by
  cases h with
  | update applied same told =>
    obtain ⟨op, hst, happ⟩ := stage_of_apply applied
    rw [hst, stage_afterUpdate]
    exact .write op happ
  | modifyIfNone fn oldValue changed => exact .decline fn
  | awaitModifyNone fn oldValue => exact .block fn oldValue
  | unlockPushed desiredState handler k => exact stageStep_afterWait call handler k rfl rfl rfl
  | invokeNow handler result k => exact stageStep_afterWait call handler k rfl rfl rfl
  | resume handler k result given => exact stageStep_resume sh call handler k result
  | loadValue => exact .getValue
  | loadClosed b => exact .isClosed b
  | _ => exact .stutter _ rfl rfl rfl

/-! ## The invariant -/

/-- A running call of `op` has no link before it is done, and then those of its return. -/
def StageOk (sh : Shared T) (call : Nat) (op : Op T) : Stage T → Prop
  | .attempt op' => op' = op ∧ linksOf call sh = []
  | .wait handler k => Waits sh op handler k ∧ linksOf call sh = []
  | .done ret => RetOk op call ret (linksOf call sh)

def LocalOk (sh : Shared T) : Local T → Prop
  | .idle => True
  | .running call pc => ∃ op, sh.calls[call]? = some op ∧ StageOk sh call op pc.stage

/-- Whether the thread runs the call numbered `call`. -/
def runs (call : Nat) : Local T → Bool
  | .idle => false
  | .running call' _ => call' == call

structure Linear (initValue : T) (sh : Shared T) (ls : List (Local T)) : Prop where
  chain : Chain initValue sh.links sh.value
  /-- A call that was made runs in one thread, or it has returned once. -/
  once : ∀ call, total (ind (runs call)) ls + (sh.returns.map Prod.fst).count call =
    if call < sh.calls.length then 1 else 0
  link : ∀ e ∈ sh.links, ∃ op, sh.calls[e.call]? = some op ∧ op.apply e.pre = some e.post
  running : ∀ l ∈ ls, LocalOk sh l
  returned : ∀ e ∈ sh.returns, ∃ op, sh.calls[e.1]? = some op ∧
    RetOk op e.1 e.2 (linksOf e.1 sh)

/-! ## The invariant is kept -/

variable {sh sh' : Shared T} {ls : List (Local T)} {i call : Nat} {st st' : Stage T}

omit [Add T] [Sub T] [OrOp T] [AndOp T] in
theorem Waits.mono {handler : Nat} {k : After T} (h : Waits sh op handler k)
    (hh : sh.handlers <+: sh'.handlers) : Waits sh' op handler k := by
  unfold Waits at *
  split at h
  · exact getElem?_of_prefix hh h
  · exact getElem?_of_prefix hh h
  · exact h
  · exact h

theorem StageOk.length_le (h : StageOk sh call op st) :
    (linksOf call sh).length ≤ 1 := by
  cases st with
  | attempt op' => simp [h.2]
  | wait handler k => simp [h.2]
  | done ret => exact RetOk.length_le h

theorem StageOk.mono (h : StageOk sh call op st) (hh : sh.handlers <+: sh'.handlers)
    (hl : linksOf call sh' = linksOf call sh) :
    StageOk sh' call op st := by
  unfold StageOk at *
  rw [hl]
  cases st with
  | attempt op' => exact h
  | wait handler k => exact ⟨h.1.mono hh, h.2⟩
  | done ret => exact h

theorem LocalOk.mono {l : Local T} (h : LocalOk sh l) (hc : sh.calls <+: sh'.calls)
    (hh : sh.handlers <+: sh'.handlers)
    (hl : ∀ call, runs call l = true → linksOf call sh' = linksOf call sh) : LocalOk sh' l := by
  cases l with
  | idle => trivial
  | running call pc =>
    obtain ⟨op, hop, hst⟩ := h
    exact ⟨op, getElem?_of_prefix hc hop, hst.mono hh (hl call (by simp [runs]))⟩

/-- A call that declines to write returns so. -/
theorem retOk_declined {ret : Ret T} (hd : op.Declined ret) (hl : linksOf call sh = []) :
    RetOk op call ret (linksOf call sh) :=
  .inr ⟨hd, hl⟩

/-- What one step makes of the stage of its call. -/
theorem stageOk_step (hok : StageOk sh call op st) (hs : StageStep sh call st sh' st') :
    StageOk sh' call op st' := by
  cases hs with
  | stutter st value links handlers =>
    exact hok.mono (handlers ▸ List.prefix_refl _) (by simp [linksOf, links])
  | write op' applied =>
    obtain ⟨rfl, hl⟩ := hok
    refine .inl ⟨sh.value, _, rfl, applied, ?_⟩
    rw [linksOf_update_self, hl, List.nil_append]
  | decline fn =>
    obtain ⟨rfl, hl⟩ := hok
    exact retOk_declined rfl hl
  | block fn oldValue =>
    obtain ⟨rfl, hl⟩ := hok
    exact ⟨rfl, hl⟩
  | retry fn handler =>
    obtain ⟨hw, hl⟩ := hok
    cases op <;> first | exact ⟨congrArg _ hw, hl⟩ | cases hw
  | closed fn handler code =>
    obtain ⟨hw, hl⟩ := hok
    cases op <;> first | exact retOk_declined ⟨code, rfl⟩ hl | cases hw
  | waited handler k ret value links handlers reader =>
    obtain ⟨hw, hl⟩ := hok
    have hl' : linksOf call sh' = [] := by
      unfold linksOf at *
      rw [links]
      exact hl
    cases k with
    | awaitModify fn => exact absurd rfl (reader fn)
    | ret => cases op <;> first | exact retOk_declined trivial hl' | cases hw
    | awaitNotEqual => cases op <;> first | exact retOk_declined trivial hl' | cases hw
  | getValue =>
    obtain ⟨rfl, hl⟩ := hok
    exact retOk_declined trivial hl
  | isClosed b =>
    obtain ⟨rfl, hl⟩ := hok
    exact retOk_declined trivial hl

/-- A step of a call changes the history by at most one link of that call, at its end. -/
theorem StageStep.history (h : StageStep sh call st sh' st') :
    (sh'.value = sh.value ∧ sh'.links = sh.links) ∨
      ∃ op, st = .attempt op ∧ op.apply sh.value = some sh'.value ∧
        sh'.links = sh.links ++ [⟨call, sh.value, sh'.value⟩] := by
  cases h with
  | write op applied => exact .inr ⟨op, rfl, applied, rfl⟩
  | stutter st value links handlers => exact .inl ⟨value, links⟩
  | waited handler k ret value links handlers reader => exact .inl ⟨value, links⟩
  | _ => exact .inl ⟨rfl, rfl⟩

theorem StageStep.handlers_prefix (h : StageStep sh call st sh' st') :
    sh.handlers <+: sh'.handlers := by
  cases h with
  | stutter st value links handlers => exact handlers ▸ List.prefix_refl _
  | waited handler k ret value links handlers reader => exact handlers ▸ List.prefix_refl _
  | block fn oldValue => exact List.prefix_append _ _
  | _ => exact List.prefix_refl _

/-- No other call is numbered like the one that steps. -/
theorem linksOf_other {other : Nat} (h : StageStep sh call st sh' st') (hne : call ≠ other) :
    linksOf other sh' = linksOf other sh := by
  unfold linksOf
  rcases h.history with ⟨_, hl⟩ | ⟨op, _, _, hl⟩
  · rw [hl]
  · simp [hl, hne]

/-- A call that takes a step runs in no other thread. -/
theorem Linear.runs_once (lin : Linear initValue sh ls) {l k : Local T} {j : Nat}
    (hi : ls[i]? = some l) (hl : runs call l = true) (hj : ls[j]? = some k) (hne : j ≠ i) :
    runs call k = false := by
  have h1 : total (ind (runs call)) ls ≤ 1 := by
    have := lin.once call
    split at this <;> omega
  have := others_zero h1 hi (by simp [ind, hl]) j k hne hj
  simpa [ind] using this

/-- A running call has not returned. -/
theorem Linear.not_returned (lin : Linear initValue sh ls) {l : Local T} (hi : ls[i]? = some l)
    (hl : runs call l = true) (e : Nat × Ret T) (he : e ∈ sh.returns) :
    call ≠ e.1 := by
  rintro rfl
  have hin := le_total (ind (runs e.1)) (List.mem_of_getElem? hi)
  have hcount := List.count_pos_iff.mpr (List.mem_map_of_mem (f := Prod.fst) he)
  have honce := lin.once e.1
  rw [ind_true hl] at hin
  split at honce <;> omega

theorem Linear.no_link (lin : Linear initValue sh ls) (h : sh.calls.length ≤ call) :
    linksOf call sh = [] := by
  refine List.filter_eq_nil_iff.mpr fun e he => ?_
  obtain ⟨op, hop, _⟩ := lin.link e he
  have := (List.getElem?_eq_some_iff.mp hop).1
  simp only [beq_iff_eq]
  omega

/-- No call makes two updates, whether it still runs or has returned. -/
theorem Linear.links_le_one (lin : Linear initValue sh ls) (call : Nat) :
    (linksOf call sh).length ≤ 1 := by
  have honce := lin.once call
  split at honce
  · by_cases hrun : 0 < total (ind (runs call)) ls
    · obtain ⟨l, hl, hpos⟩ := exists_of_total_pos hrun
      have hruns := ind_pos.mp hpos
      have hok := lin.running l hl
      cases l with
      | idle => cases hruns
      | running call' pc =>
        obtain rfl : call' = call := by simpa [runs] using hruns
        obtain ⟨op, _, hst⟩ := hok
        exact hst.length_le
    · have hret : 0 < (sh.returns.map Prod.fst).count call := by omega
      obtain ⟨e, he, rfl⟩ := List.mem_map.mp (List.count_pos_iff.mp hret)
      obtain ⟨op, _, hret⟩ := lin.returned e he
      exact hret.length_le
  · rename_i hge
    simp [lin.no_link (Nat.not_lt.mp hge)]

theorem linear_trans [DecidableEq T] (lin : Linear initValue sh ls) {pc pc' : Pc T}
    (hi : ls[i]? = some (.running call pc)) (ht : Trans sh call pc sh' pc')
    (hcalls : sh'.calls = sh.calls) (hreturns : sh'.returns = sh.returns) :
    Linear initValue sh' (ls.set i (.running call pc')) := by
  have hst := trans_stage ht
  have hrun : runs call (.running call pc : Local T) = true := by simp [runs]
  obtain ⟨op, hop, hok⟩ := lin.running _ (List.mem_of_getElem? hi)
  refine ⟨?_, ?_, ?_, ?_, ?_⟩
  · rcases hst.history with ⟨hv, hl⟩ | ⟨_, _, _, hl⟩
    · rw [hv, hl]
      exact lin.chain
    · rw [hl]
      exact lin.chain.snoc call _
  · intro other
    have hset := total_set (ind (runs other)) (.running call pc') hi
    have hsame : ind (runs other) (.running call pc' : Local T) =
        ind (runs other) (.running call pc) := rfl
    rw [hsame] at hset
    rw [hcalls, hreturns, ← lin.once other]
    omega
  · intro e he
    rw [hcalls]
    rcases hst.history with ⟨_, hl⟩ | ⟨op', hatt, happ, hl⟩
    · exact lin.link e (hl ▸ he)
    · rw [hl] at he
      rcases List.mem_append.mp he with he | he
      · exact lin.link e he
      · obtain rfl := List.mem_singleton.mp he
        rw [hatt] at hok
        obtain ⟨rfl, _⟩ := hok
        exact ⟨op', hop, happ⟩
  · refine forall_set ⟨op, hcalls ▸ hop, stageOk_step hok hst⟩ fun j k hne hj => ?_
    refine (lin.running k (List.mem_of_getElem? hj)).mono (hcalls ▸ List.prefix_refl _)
      hst.handlers_prefix fun other hk => linksOf_other hst ?_
    rintro rfl
    rw [lin.runs_once hi hrun hj hne] at hk
    cases hk
  · intro e he
    rw [hreturns] at he
    obtain ⟨op', hop', hret⟩ := lin.returned e he
    refine ⟨op', hcalls ▸ hop', ?_⟩
    rw [linksOf_other hst (lin.not_returned hi hrun e he)]
    exact hret

/-- A thread makes a call: it gets the next number, and no link has that number yet. -/
theorem linear_begin (lin : Linear initValue sh ls) (op : Op T) (hi : ls[i]? = some .idle) :
    Linear initValue { (begin sh op).1 with calls := sh.calls ++ [op] }
      (ls.set i (.running sh.calls.length (begin sh op).2)) := by
  have hpre : sh.calls <+: sh.calls ++ [op] := List.prefix_append _ _
  have hfresh := lin.no_link (Nat.le_refl sh.calls.length)
  have hframe : (begin sh op).1.value = sh.value ∧ (begin sh op).1.links = sh.links ∧
      (begin sh op).1.returns = sh.returns ∧ sh.handlers <+: (begin sh op).1.handlers := by
    cases op <;> simp [begin, Shared.addHandler]
  obtain ⟨hv, hl, hr, hh⟩ := hframe
  have hlinks : ∀ call, linksOf call { (begin sh op).1 with calls := sh.calls ++ [op] } =
      linksOf call sh := fun call => congrArg (List.filter _) hl
  refine ⟨?_, ?_, ?_, ?_, ?_⟩
  · simpa [hv, hl] using lin.chain
  · intro call
    have honce := lin.once call
    have hset := total_set (ind (runs call)) (.running sh.calls.length (begin sh op).2) hi
    have hnew : ind (runs call) (.running sh.calls.length (begin sh op).2 : Local T) =
        if sh.calls.length = call then 1 else 0 := by simp [ind, runs]
    have hidle : ind (runs call) (.idle : Local T) = 0 := rfl
    simp only [hr, List.length_append, List.length_singleton]
    split at hnew <;> split at honce <;> split <;> omega
  · intro e he
    obtain ⟨op', hop', happ⟩ := lin.link e (hl ▸ he)
    exact ⟨op', getElem?_of_prefix hpre hop', happ⟩
  · refine forall_set ⟨op, by simp, ?_⟩ fun j k _ hj =>
      (lin.running k (List.mem_of_getElem? hj)).mono hpre hh fun call _ => hlinks call
    have hnone := (hlinks sh.calls.length).trans hfresh
    cases op with
    | close code => exact retOk_declined trivial hnone
    | asyncWait lastSeen | awaitNotEqual lastSeen =>
      exact ⟨by simp [Waits, begin, Shared.addHandler], hnone⟩
    | _ => exact ⟨rfl, hnone⟩
  · intro e he
    obtain ⟨op', hop', hret⟩ := lin.returned e (hr ▸ he)
    exact ⟨op', getElem?_of_prefix hpre hop', (hlinks e.1).symm ▸ hret⟩

/-- A call returns what its stage fixed. -/
theorem linear_return (lin : Linear initValue sh ls) {ret : Ret T}
    (hi : ls[i]? = some (.running call (.finish ret))) :
    Linear initValue { sh with returns := sh.returns ++ [(call, ret)] } (ls.set i .idle) := by
  refine ⟨lin.chain, ?_, lin.link, ?_, ?_⟩
  · intro other
    have honce := lin.once other
    have hset := total_set (ind (runs other)) .idle hi
    have hold : ind (runs other) (.running call (.finish ret) : Local T) =
        if call = other then 1 else 0 := by simp [ind, runs]
    have hidle : ind (runs other) (.idle : Local T) = 0 := rfl
    simp only [List.map_append, List.map_cons, List.map_nil, List.count_append,
      List.count_singleton, beq_iff_eq]
    omega
  · exact forall_set trivial fun j k _ hj => lin.running k (List.mem_of_getElem? hj)
  · intro e he
    rcases List.mem_append.mp he with he | he
    · exact lin.returned e he
    · obtain rfl := List.mem_singleton.mp he
      exact lin.running _ (List.mem_of_getElem? hi)

end

section

variable [DecidableEq T] [Add T] [Sub T] [OrOp T] [AndOp T]

theorem linear_reachable {n : Nat} {c : Conf (Shared T) (Local T)}
    (hr : machine.Reachable (initial n initValue) c) : Linear initValue c.shared c.locals := by
  refine machine.invariant (I := fun c => Linear initValue c.shared c.locals) ?_ ?_ hr
  · intro c i a c' lin hf
    obtain ⟨l, sh', l', hi, _, hs, rfl⟩ := machine.fire_cases hf
    rcases step_cases hs with ⟨op, rfl, rfl, rfl⟩ | ⟨call, ret, rfl, rfl, rfl⟩ |
      ⟨call, pc, pc', rfl, ht, rfl⟩
    · exact linear_begin lin op hi
    · exact linear_return lin hi
    · obtain ⟨hcalls, hreturns⟩ := trans_record ht
      exact linear_trans lin hi ht hcalls hreturns
  · refine ⟨rfl, ?_, ?_, ?_, ?_⟩
    · intro call
      simp [initial, total_replicate, ind, runs]
    · intro e he
      cases he
    · intro l hl
      rw [List.eq_of_mem_replicate hl]
      trivial
    · intro e he
      cases he

/-- **Updates are linearizable.** For any number of threads, any interleaving and any number
    of spurious failures: the updates form a chain from the initial value to the current
    one; each of them applies the operation of the call that made it; a call that has
    returned a value through a write made exactly one update, from the value it returned,
    and a call that declined (`None`, an error status) made none; no call ever makes two.
    A step moves the value only by adding its own link at the end. -/
theorem updates_linearizable (n : Nat) (initValue : T) (c : Conf (Shared T) (Local T))
    (hr : machine.Reachable (initial n initValue) c) :
    Chain initValue c.shared.links c.shared.value ∧
      (∀ e ∈ c.shared.links, ∃ op, c.shared.calls[e.call]? = some op ∧
        op.apply e.pre = some e.post) ∧
      (∀ call, (linksOf call c.shared).length ≤ 1) ∧
      (∀ call ret, (call, ret) ∈ c.shared.returns →
        ∃ op, c.shared.calls[call]? = some op ∧ RetOk op call ret (linksOf call c.shared)) ∧
      (∀ i a c', machine.fire i a c = some c' →
        (c'.shared.value = c.shared.value ∧ c'.shared.links = c.shared.links) ∨
          ∃ call pc, c.locals[i]? = some (.running call pc) ∧
            c'.shared.links = c.shared.links ++ [⟨call, c.shared.value, c'.shared.value⟩]) := by
  have lin := linear_reachable hr
  refine ⟨lin.chain, lin.link, lin.links_le_one, fun call ret he => lin.returned (call, ret) he, ?_⟩
  intro i a c' hf
  obtain ⟨l, sh', l', hi, _, hs, rfl⟩ := machine.fire_cases hf
  rcases step_cases hs with ⟨op, rfl, rfl, rfl⟩ | ⟨call, ret, rfl, rfl, rfl⟩ |
    ⟨call, pc, pc', rfl, ht, rfl⟩
  · left
    cases op <;> exact ⟨rfl, rfl⟩
  · exact .inl ⟨rfl, rfl⟩
  · exact (trans_stage ht).history.imp_right fun ⟨_, _, _, hl⟩ => ⟨call, pc, hi, hl⟩

/-- Takes one unit when there is one. -/
def takeOne (v : BitVec 64) : Option (BitVec 64) :=
  if v = 0 then none else some (v - 1)

/-- `await_modify(takeOne)` blocks on zero until `fetch_add(1)`, and its compare-exchange
    fails once for no reason. -/
def takeRun : List (Nat × Act (BitVec 64)) :=
  (1, Act.call (.awaitModify takeOne)) :: List.replicate 7 (1, Act.run) ++
    (0, Act.call (fetchAdd 1)) :: List.replicate 8 (0, Act.run) ++
    [(1, Act.run), (1, Act.spurious), (1, Act.run), (1, Act.run), (1, Act.run)]

theorem updates_linearizable_takeRun :
    ∃ c, machine.run takeRun (initial 2 (0 : BitVec 64)) = some c ∧
      c.shared.links = [⟨1, 0, 1⟩, ⟨0, 1, 0⟩] ∧ c.shared.returns = [(1, .value 0), (0, .value 1)] ∧
      Chain 0 c.shared.links c.shared.value ∧
      ∃ op, c.shared.calls[0]? = some op ∧ RetOk op 0 (.value 1) (linksOf 0 c.shared) := by
  have hlin := updates_linearizable 2 (0 : BitVec 64) _ ⟨takeRun, rfl⟩
  refine ⟨_, rfl, rfl, rfl, hlin.1, ?_⟩
  exact hlin.2.2.2.1 0 (.value 1) (by decide)

end

end Batt.Watch
