/-
  A `WatchAtomic<T>` that is called by one thread only.

  A call takes many steps, and a compare-exchange may fail although nobody interferes. `outcome`
  gives the state that the rest of a call leads to, which no step of it changes (`outcome_exec`).
  So the machine with one thread is `watchAtomicCall`, call by call (`sequential_run`), and every
  call comes to its end (`sequential_total`).
-/
import Mathlib.Data.List.Induction
import Batt.Watch.FinalStatus

namespace Batt.Watch

open Interleave

variable {T : Type}

/-! ## The calls, one at a time -/

/-- The calls that both classes have. -/
inductive Call (T : Type) where
  | setValue (newValue : T)
  | modify (fn : T → T)
  | close
  | asyncWait (lastSeen : T)
  | getValue

/-- `close()` of `WatchAtomic` has the default argument `kClosed`. -/
def Call.op : Call T → Op T
  | .setValue newValue => .setValue newValue
  | .modify fn => .modify fn
  | .close => .close .kClosed
  | .asyncWait lastSeen => .asyncWait lastSeen
  | .getValue => .getValue

/-- What a watch is between two calls; a handler is its number among those passed. -/
structure Sequential (T : Type) where
  value : T
  closed : Bool
  observers : List Nat
  handlers : Nat
  invoked : List (Nat × StatusOr T)

def Sequential.new (initValue : T) : Sequential T where
  value := initValue
  closed := false
  observers := []
  handlers := 0
  invoked := []

/-- `invoke_all_handlers` on a list that was taken out of the watch. -/
def Sequential.invokeAll (s : Sequential T) (handlers : List Nat) (result : StatusOr T) :
    Sequential T :=
  { s with invoked := s.invoked ++ handlers.map (·, result) }

def Sequential.notifyAll (s : Sequential T) (result : StatusOr T) : Sequential T :=
  { s with observers := [] }.invokeAll s.observers result

section

variable [DecidableEq T]

def Sequential.setValue (s : Sequential T) (newValue : T) : Sequential T :=
  if newValue ≠ s.value then { s with value := newValue }.notifyAll (.ok newValue) else s

def Sequential.close (s : Sequential T) : Sequential T :=
  { s with closed := true }.notifyAll (.error .kClosed)

/-- `WatchAtomic::async_wait` looks at the value first. -/
def watchAtomicWait (s : Sequential T) (handler : Nat) (lastSeen : T) : Sequential T :=
  if s.value ≠ lastSeen then s.invokeAll [handler] (.ok s.value)
  else if s.closed then s.invokeAll [handler] (.error .kClosed)
  else { s with observers := s.observers ++ [handler] }

/-- A call, for a class with this `async_wait`. -/
def Sequential.call (wait : Sequential T → Nat → T → Sequential T) (s : Sequential T) :
    Call T → Sequential T
  | .setValue newValue => s.setValue newValue
  | .modify fn => s.setValue (fn s.value)
  | .close => s.close
  | .asyncWait lastSeen => wait { s with handlers := s.handlers + 1 } s.handlers lastSeen
  | .getValue => s

def watchAtomicCall : Sequential T → Call T → Sequential T := Sequential.call watchAtomicWait

/-! ## Where a call of `WatchAtomic` leads -/

def Shared.sequential (sh : Shared T) : Sequential T where
  value := sh.value
  closed := !isOpen sh.spinState
  observers := sh.observers
  handlers := sh.handlers.length
  invoked := sh.invoked

/-- What is left to do after `unlock_observers`. -/
def Unlocked.outcome (s : Sequential T) : Unlocked T → Option (Sequential T)
  | .waitClosed handler .ret => some (s.invokeAll [handler] (.error .kClosed))
  | .waitPushed _ .ret => some s
  | .waitChanged handler nowSeen .ret => some (s.invokeAll [handler] (.ok nowSeen))
  | .notified localObservers newValue _ => some (s.invokeAll localObservers (.ok newValue))
  | .closed localObservers => some (s.invokeAll localObservers (.error .kClosed))
  | _ => none

/-- The state at the end of the call. With one thread a value that was loaded is current. -/
def outcome (sh : Shared T) : Pc T → Option (Sequential T)
  | .exchange newValue => some (sh.sequential.setValue newValue)
  | .modifyLoad fn => some (sh.sequential.setValue (fn sh.value))
  | .modifyCas fn oldValue changed =>
    if oldValue = sh.value ∧ (changed = true → fn oldValue ≠ oldValue) then
      some (sh.sequential.setValue (fn sh.value))
    else none
  | .notifyLoad newValue _ | .lockObservers (.notify newValue _)
  | .inLock (.notify newValue _) _ => some (sh.sequential.notifyAll (.ok newValue))
  | .waitLoad handler lastSeen .ret => some (watchAtomicWait sh.sequential handler lastSeen)
  | .lockObservers (.asyncWait handler lastSeen .ret)
  | .inLock (.asyncWait handler lastSeen .ret) _ =>
    if sh.value = lastSeen then some (watchAtomicWait sh.sequential handler lastSeen) else none
  | .lockObservers (.close .kClosed) | .inLock (.close .kClosed) _ => some sh.sequential.close
  | .pushHandler handler _ _ .ret =>
    some { sh.sequential with observers := sh.observers ++ [handler] }
  | .unlockObservers desiredState k =>
    k.outcome { sh.sequential with closed := !isOpen desiredState }
  | .getFinalStatus (.wait handler .ret) =>
    some (sh.sequential.invokeAll [handler] (.error .kClosed))
  | .getFinalStatus (.close localObservers) =>
    some (sh.sequential.invokeAll localObservers (.error .kClosed))
  | .invokeNow handler result .ret => some (sh.sequential.invokeAll [handler] result)
  | .invokeAll localObservers result _ => some (sh.sequential.invokeAll localObservers result)
  | .loadValue | .finish _ => some sh.sequential
  | _ => none

theorem outcome_begin (sh : Shared T) (call : Call T) (calls : List (Op T)) :
    outcome { (begin sh call.op).1 with calls := calls } (begin sh call.op).2 =
      some (watchAtomicCall sh.sequential call) := by
  cases call with
  | asyncWait lastSeen =>
    simp [begin, Call.op, outcome, watchAtomicCall, Sequential.call, Shared.sequential,
      Shared.addHandler]
  | _ => rfl

end

section

variable [DecidableEq T] [Add T] [Sub T] [OrOp T] [AndOp T] {c : Conf (Shared T) (Local T)}
  {sh : Shared T} {s : Sequential T}

/-! ## Steps of one thread -/

/-- Only `close()` closes. -/
def DefaultCloses (sh : Shared T) : Prop := ∀ code ∈ sh.closers, code = .kClosed

omit [DecidableEq T] [Add T] [Sub T] [OrOp T] [AndOp T] in
theorem finalStatus_default {ls : List (Local T)} (fin : Final sh ls) (hd : DefaultCloses sh)
    (hclosed : isOpen sh.spinState = false) :
    finalStatus sh.spinState = .kClosed := by
  obtain ⟨code, hhead, hbits⟩ := fin.closed hclosed
  rw [finalStatus_of_bits hbits, hd code (List.mem_of_mem_head? hhead)]
  rfl

omit [Add T] [Sub T] [OrOp T] [AndOp T] in
theorem outcome_update {newValue : T} {changed : Bool} (call : Nat) (ret : Ret T)
    (htold : changed = true → newValue ≠ sh.value)
    (hsame : changed = false → newValue = sh.value) :
    outcome (sh.update call newValue) (afterUpdate changed newValue ret) =
      some (sh.sequential.setValue newValue) := by
  cases changed with
  | true => exact congrArg some (if_pos (htold rfl)).symm
  | false =>
    obtain rfl := hsame rfl
    exact congrArg some (if_neg (not_not.mpr rfl)).symm

omit [DecidableEq T] [Add T] [Sub T] [OrOp T] [AndOp T] in
theorem Sequential.notifyAll_nil (h : s.observers = []) (result : StatusOr T) :
    s.notifyAll result = s := by
  obtain ⟨value, closed, observers, handlers, invoked⟩ := s
  obtain rfl : observers = [] := h
  simp [Sequential.notifyAll, Sequential.invokeAll]

omit [DecidableEq T] [Add T] [Sub T] [OrOp T] [AndOp T] in
theorem sequential_lock (sh : Shared T) (closers : List StatusCode) :
    ({ sh with spinState := sh.spinState ||| kLocked, closers := closers } : Shared T).sequential =
      sh.sequential := by
  simp [Shared.sequential]

omit [DecidableEq T] [Add T] [Sub T] [OrOp T] [AndOp T] in
theorem sequential_unlock (sh : Shared T) (desiredState : SpinState) :
    ({ sh with spinState := desiredState &&& ~~~kLocked } : Shared T).sequential =
      { sh.sequential with closed := !isOpen desiredState } := by
  simp [Shared.sequential]

omit [DecidableEq T] [Add T] [Sub T] [OrOp T] [AndOp T] in
theorem sequential_invoke (sh : Shared T) (handler : Nat) (result : StatusOr T) :
    (sh.invoke handler result).sequential = sh.sequential.invokeAll [handler] result := rfl

omit [Add T] [Sub T] [OrOp T] [AndOp T] in
/-- With one thread a handler that is about to wait still finds the value it has seen. -/
theorem outcome_inLock {handler : Nat} {lastSeen : T} {k : After T} {priorState : SpinState}
    (ho : outcome sh (.inLock (.asyncWait handler lastSeen k) priorState) = some s) :
    k = .ret ∧ sh.value = lastSeen ∧ s = watchAtomicWait sh.sequential handler lastSeen := by
  cases k with
  | ret =>
    change (if sh.value = lastSeen then some (watchAtomicWait sh.sequential handler lastSeen)
      else none) = some s at ho
    split at ho
    · rename_i hvalue
      exact ⟨rfl, hvalue, (Option.some.inj ho).symm⟩
    · cases ho
  | _ => cases ho

/-- A step of the only thread does not change where its call leads. -/
theorem outcome_exec {weak : Bool} {sh' : Shared T} {call : Nat} {pc pc' : Pc T}
    (inv : Inv sh [.running call pc]) (fin : Final sh [.running call pc]) (hd : DefaultCloses sh)
    (ho : outcome sh pc = some s) (he : exec weak sh call pc = some (sh', pc')) :
    outcome sh' pc' = some s ∧ DefaultCloses sh' := by
  have howner := inv.owner _ List.mem_cons_self
  have htold := fin.told _ List.mem_cons_self
  cases exec_trans he with
  | update applied same told =>
    cases pc with
    | exchange newValue =>
      cases ho
      cases applied
      refine ⟨outcome_update call _ (fun h => ?_) same, hd⟩
      exact (of_decide_eq_true (told h)).symm
    | modifyCas fn oldValue changed =>
      cases applied
      simp only [outcome] at ho
      split at ho
      · rename_i hcas
        obtain ⟨rfl, hchanged⟩ := hcas
        cases ho
        refine ⟨outcome_update call _ (fun h => ?_) same, hd⟩
        have hnotifies : changed = true ∨ fn sh.value ≠ sh.value := by
          simpa [Pc.notifies] using told h
        exact hnotifies.elim hchanged id
      · cases ho
    | fetch | modifyIfCas | awaitModifyCas => cases ho
    | _ => cases applied
  | modifyLoad fn =>
    cases ho
    exact ⟨if_pos ⟨rfl, by simp⟩, hd⟩
  | modifyFail fn oldValue changed changed' =>
    simp only [outcome] at ho
    split at ho
    · rename_i hcas
      obtain ⟨rfl, hchanged⟩ := hcas
      simp only [exec] at he
      split at he
      · -- the exchange would have succeeded
        obtain ⟨_, hpc⟩ := Prod.mk.inj (Option.some.inj he)
        unfold afterUpdate at hpc
        split at hpc <;> cases hpc
      · cases he
        refine ⟨(if_pos ⟨rfl, fun h => ?_⟩).trans ho, hd⟩
        rcases Bool.or_eq_true_iff.mp h with h | h
        · exact hchanged h
        · exact of_decide_eq_true h
    · cases ho
  | waitChanged handler lastSeen k changed =>
    cases k with
    | ret =>
      cases ho
      exact ⟨congrArg some (if_pos changed).symm, hd⟩
    | _ => cases ho
  | waitSame handler k =>
    cases k with
    | ret =>
      cases ho
      exact ⟨if_pos rfl, hd⟩
    | _ => cases ho
  | notifyFast newValue ret free none =>
    cases ho
    have hnil : sh.observers = [] := by
      by_contra hne
      rw [(inv.free free).1.mpr hne] at none
      cases none
    exact ⟨congrArg some (Sequential.notifyAll_nil hnil _).symm, hd⟩
  | notifySlow newValue ret => exact ⟨ho, hd⟩
  | lockWait handler lastSeen k free =>
    cases k with
    | ret =>
      simp only [outcome, sequential_lock sh sh.closers] at ho ⊢
      exact ⟨ho, hd⟩
    | _ => cases ho
  | lockNotify newValue ret free =>
    simp only [outcome, sequential_lock sh sh.closers] at ho ⊢
    exact ⟨ho, hd⟩
  | lockClose code free =>
    cases code with
    | kClosed =>
      simp only [outcome, sequential_lock] at ho ⊢
      refine ⟨ho, ?_⟩
      intro code hcode
      rcases List.mem_append.mp hcode with h | h
      · exact hd code h
      · exact List.mem_singleton.mp h
    | _ => cases ho
  | lockHeld site held =>
    -- nobody else could hold the lock
    have hheld := inv.lock
    rw [held] at hheld
    cases hheld
  | waitClosed handler lastSeen k priorState closed =>
    obtain ⟨rfl, rfl, rfl⟩ := outcome_inLock ho
    have hopen : isOpen sh.spinState = false := howner.1.1 ▸ closed
    refine ⟨?_, hd⟩
    simp [outcome, Unlocked.outcome, watchAtomicWait, Shared.sequential, closed, hopen]
  | reloadChanged handler lastSeen k priorState isOpen changed =>
    obtain ⟨_, rfl, _⟩ := outcome_inLock ho
    exact absurd rfl changed
  | reloadSame handler k priorState hopen =>
    obtain ⟨rfl, _, rfl⟩ := outcome_inLock ho
    have hopen : isOpen sh.spinState = true := howner.1.1 ▸ hopen
    refine ⟨?_, hd⟩
    simp [outcome, watchAtomicWait, Shared.sequential, hopen]
  | notifyTake newValue ret preLockState =>
    cases ho
    have hopen : isOpen preLockState = isOpen sh.spinState := howner.1.1
    refine ⟨?_, hd⟩
    simp [outcome, Unlocked.outcome, Sequential.notifyAll, Shared.sequential, hopen]
  | closeTake code priorState =>
    cases code with
    | kClosed =>
      cases ho
      refine ⟨?_, hd⟩
      simp [outcome, Unlocked.outcome, Sequential.close, Sequential.notifyAll, Shared.sequential]
    | _ => cases ho
  | push handler lastSeen priorState k =>
    cases k with
    | ret =>
      cases ho
      have hopen : isOpen priorState = isOpen sh.spinState := howner.1.1
      refine ⟨?_, hd⟩
      simp [outcome, Unlocked.outcome, Shared.sequential, hopen]
    | _ => cases ho
  | unlockClosed desiredState handler k | unlockPushed desiredState handler k
  | unlockChanged desiredState handler nowSeen k =>
    cases k with
    | ret =>
      cases ho
      refine ⟨?_, hd⟩
      simp only [outcome, afterWait, sequential_unlock]
    | _ => cases ho
  | unlockNotified desiredState localObservers newValue ret
  | unlockClose desiredState localObservers =>
    cases ho
    refine ⟨?_, hd⟩
    simp only [outcome, sequential_unlock]
  | statusWait handler k =>
    cases k with
    | ret =>
      cases ho
      rw [finalStatus_default fin hd htold]
      exact ⟨rfl, hd⟩
    | _ => cases ho
  | statusClose localObservers =>
    cases ho
    rw [finalStatus_default fin hd htold]
    exact ⟨rfl, hd⟩
  | invokeNow handler result k =>
    cases k with
    | ret =>
      cases ho
      exact ⟨rfl, hd⟩
    | _ => cases ho
  | invokeNil result ret =>
    cases ho
    refine ⟨?_, hd⟩
    simp [outcome, Sequential.invokeAll]
  | invokeCons handler rest result ret =>
    cases ho
    refine ⟨?_, hd⟩
    simp [outcome, sequential_invoke, Sequential.invokeAll]
  | loadValue => exact ⟨ho, hd⟩
  | _ => cases ho

/-! ## Runs of one thread -/

def Local.outcome (sh : Shared T) : Local T → Option (Sequential T)
  | .idle => some sh.sequential
  | .running _ pc => Watch.outcome sh pc

/-- What a trace does to a new `WatchAtomic<T>`. -/
def watchAtomicRun (initValue : T) (trace : List (Call T)) : Sequential T :=
  trace.foldl watchAtomicCall (.new initValue)

theorem outcome_reachable {initValue : T} (hr : machine.Reachable (initial 1 initValue) c) :
    ∃ l, c.locals = [l] ∧ ∀ trace : List (Call T), c.shared.calls = trace.map Call.op →
      l.outcome c.shared = some (watchAtomicRun initValue trace) ∧ DefaultCloses c.shared := by
  refine machine.invariant_reachable (I := fun c => ∃ l, c.locals = [l] ∧
    ∀ trace : List (Call T), c.shared.calls = trace.map Call.op →
      l.outcome c.shared = some (watchAtomicRun initValue trace) ∧ DefaultCloses c.shared) ?_ ?_ hr
  · rintro c i a c' hr ⟨l, hl, hout⟩ hf
    have inv := inv_reachable hr
    have fin := final_reachable hr
    obtain ⟨l₀, sh', l', hi, _, hs, rfl⟩ := machine.fire_cases hf
    rw [hl] at hi inv fin ⊢
    obtain ⟨rfl, rfl⟩ : i = 0 ∧ l₀ = l := by
      cases i with
      | zero => exact ⟨rfl, (Option.some.inj hi).symm⟩
      | succ i => cases hi
    refine ⟨l', rfl, fun trace htrace => ?_⟩
    rcases step_execs hs with ⟨op, rfl, rfl, rfl⟩ | ⟨call, ret, rfl, rfl, rfl⟩ |
      ⟨weak, call, pc, pc', rfl, he, rfl⟩
    · -- a call: the trace is one longer
      obtain ⟨pre, last, rfl, hpre, hlast⟩ := List.map_eq_append_iff.mp htrace.symm
      obtain ⟨k, rfl, rfl⟩ := List.map_eq_singleton_iff.mp hlast
      obtain ⟨ho, hd⟩ := hout pre hpre.symm
      refine ⟨(outcome_begin c.shared k _).trans ?_, ?_⟩
      · rw [watchAtomicRun, List.foldl_append]
        exact congrArg (fun s => some (watchAtomicCall s k)) (Option.some.inj ho)
      · cases k <;> exact hd
    · exact hout trace htrace
    · obtain ⟨ho, hd⟩ := hout trace ((trans_record (exec_trans he)).1 ▸ htrace)
      exact outcome_exec inv fin hd ho he
  · refine ⟨.idle, rfl, fun trace htrace => ?_⟩
    obtain rfl : trace = [] := List.map_eq_nil_iff.mp htrace.symm
    refine ⟨?_, nofun⟩
    simp [Local.outcome, Shared.sequential, initial, watchAtomicRun, Sequential.new]

/-- **One thread on a `WatchAtomic<T>`**: between two calls the state is that of the calls made so
    far, one after the other. -/
theorem sequential_run {initValue : T} {trace : List (Call T)}
    (hr : machine.Reachable (initial 1 initValue) c) (hidle : c.locals = [.idle])
    (htrace : c.shared.calls = trace.map Call.op) :
    c.shared.sequential = watchAtomicRun initValue trace := by
  obtain ⟨l, hl, hout⟩ := outcome_reachable hr
  rw [hidle] at hl
  cases hl
  exact Option.some.inj (hout trace htrace).1

/-! ## Every call comes to its end -/

def Unlocked.rank : Unlocked T → Nat
  | .waitClosed _ _ => 4
  | .waitPushed _ _ => 2
  | .waitChanged _ _ _ => 3
  | .notified localObservers _ _ => localObservers.length + 3
  | .closed localObservers => localObservers.length + 4

/-- A bound on the steps that a call still takes when nobody interferes. -/
def rank (sh : Shared T) : Pc T → Nat
  | .modifyLoad _ => sh.observers.length + 8
  | .exchange _ | .modifyCas _ _ _ => sh.observers.length + 7
  | .notifyLoad _ _ | .lockObservers (.close _) => sh.observers.length + 6
  | .lockObservers (.notify _ _) | .inLock (.close _) _ => sh.observers.length + 5
  | .inLock (.notify _ _) _ => sh.observers.length + 4
  | .waitLoad _ _ _ => 7
  | .lockObservers (.asyncWait _ _ _) => 6
  | .inLock (.asyncWait _ _ _) _ => 5
  | .pushHandler _ _ _ _ => 3
  | .unlockObservers _ k => k.rank
  | .getFinalStatus (.wait _ _) => 3
  | .getFinalStatus (.close localObservers) => localObservers.length + 3
  | .invokeNow _ _ _ => 2
  | .invokeAll localObservers _ _ => localObservers.length + 2
  | .loadValue => 2
  | _ => 1

/-- A call of the only thread goes on until it has finished. -/
theorem exec_progress {call : Nat} {pc : Pc T} (inv : Inv sh [.running call pc])
    (ho : (outcome sh pc).isSome) :
    (∃ ret, pc = .finish ret) ∨
      ∃ sh' pc', exec true sh call pc = some (sh', pc') ∧ rank sh' pc' < rank sh pc := by
  have hupdate : ∀ (newValue : T) (changed : Bool) (ret : Ret T),
      rank (sh.update call newValue) (afterUpdate changed newValue ret) <
        sh.observers.length + 7 := by
    intro newValue changed ret
    cases changed with
    | true => exact Nat.lt_succ_self _
    | false => exact Nat.succ_lt_succ (Nat.zero_lt_succ _)
  have hfree : ∀ site, pc = .lockObservers site → sh.spinState &&& kLocked = 0 := by
    rintro site rfl
    rw [and_kLocked_eq_zero]
    by_contra h
    have hlock := inv.lock
    rw [if_pos (by simpa using h)] at hlock
    cases hlock
  cases pc with
  | finish ret => exact .inl ⟨ret, rfl⟩
  | exchange newValue => exact .inr ⟨_, _, rfl, hupdate _ _ _⟩
  | modifyLoad fn => exact .inr ⟨_, _, rfl, Nat.lt_succ_self _⟩
  | modifyCas fn oldValue changed =>
    simp only [outcome] at ho
    split at ho
    · rename_i hcas
      exact .inr ⟨_, _, if_pos ⟨rfl, hcas.1.symm⟩, hupdate _ _ _⟩
    · cases ho
  | waitLoad handler lastSeen k =>
    by_cases hchanged : sh.value ≠ lastSeen
    · exact .inr ⟨_, _, if_pos hchanged, by simp [rank]⟩
    · exact .inr ⟨_, _, if_neg hchanged, by simp [rank]⟩
  | notifyLoad newValue ret =>
    by_cases hfast : sh.spinState &&& (kLocked ||| kWaiting) = 0
    · exact .inr ⟨_, _, if_pos hfast, Nat.succ_lt_succ (Nat.zero_lt_succ _)⟩
    · exact .inr ⟨_, _, if_neg hfast, Nat.lt_succ_self _⟩
  | lockObservers site =>
    refine .inr ⟨_, _, if_pos (hfree site rfl), ?_⟩
    cases site <;> exact Nat.lt_succ_self _
  | inLock site priorState =>
    cases site with
    | asyncWait handler lastSeen k =>
      by_cases hopen : priorState &&& kOpen = 0
      · exact .inr ⟨_, _, if_pos hopen, by simp [rank, Unlocked.rank]⟩
      · by_cases hchanged : sh.value ≠ lastSeen
        · exact .inr ⟨_, _, (if_neg hopen).trans (if_pos hchanged), by simp [rank, Unlocked.rank]⟩
        · exact .inr ⟨_, _, (if_neg hopen).trans (if_neg hchanged), by simp [rank]⟩
    | notify newValue ret => exact .inr ⟨_, _, rfl, Nat.lt_succ_self _⟩
    | close code => exact .inr ⟨_, _, rfl, Nat.lt_succ_self _⟩
  | pushHandler handler lastSeen priorState k => exact .inr ⟨_, _, rfl, by simp [rank, Unlocked.rank]⟩
  | unlockObservers desiredState k =>
    cases k with
    | waitPushed handler k =>
      cases k with
      | ret => exact .inr ⟨_, _, rfl, by simp [rank, Unlocked.rank, afterWait]⟩
      | _ => cases ho
    | _ => exact .inr ⟨_, _, rfl, Nat.lt_succ_self _⟩
  | getFinalStatus k =>
    cases k with
    | wait handler k => exact .inr ⟨_, _, rfl, by simp [rank]⟩
    | close localObservers => exact .inr ⟨_, _, rfl, Nat.lt_succ_self _⟩
  | invokeNow handler result k =>
    cases k with
    | ret => exact .inr ⟨_, _, rfl, by simp [rank, afterWait]⟩
    | _ => cases ho
  | invokeAll localObservers result ret =>
    cases localObservers with
    | nil => exact .inr ⟨_, _, rfl, by simp [rank]⟩
    | cons handler rest => exact .inr ⟨_, _, rfl, Nat.lt_succ_self _⟩
  | loadValue => exact .inr ⟨_, _, rfl, by simp [rank]⟩
  | _ => cases ho

theorem runs_to_idle {initValue : T} {trace : List (Call T)} (n : Nat)
    (hr : machine.Reachable (initial 1 initValue) c) {call : Nat} {pc : Pc T}
    (hl : c.locals = [.running call pc]) (htrace : c.shared.calls = trace.map Call.op)
    (hn : rank c.shared pc ≤ n) :
    ∃ c', machine.Reachable (initial 1 initValue) c' ∧ c'.locals = [.idle] ∧
      c'.shared.calls = c.shared.calls := by
  induction n generalizing c pc with
  | zero =>
    have hpos : 0 < rank c.shared pc := by
      unfold rank
      split <;> first | omega | (unfold Unlocked.rank; split <;> omega)
    omega
  | succ n ih =>
    have inv := inv_reachable hr
    obtain ⟨l, hl', hout⟩ := outcome_reachable hr
    rw [hl] at hl' inv
    cases hl'
    have ho : (outcome c.shared pc).isSome := by
      rw [show outcome c.shared pc = _ from (hout trace htrace).1]
      rfl
    rcases exec_progress inv ho with ⟨ret, rfl⟩ | ⟨sh', pc', he, hlt⟩
    · -- the call returns
      have hf : machine.fire 0 .run c =
          some ⟨{ c.shared with returns := c.shared.returns ++ [(call, ret)] }, [.idle]⟩ := by
        simp [Machine.fire, hl, machine, step]
      exact ⟨_, hr.step hf, rfl, rfl⟩
    · have hnot : ∀ ret, pc ≠ .finish ret := by
        rintro ret rfl
        cases he
      have hf : machine.fire 0 .run c = some ⟨sh', [.running call pc']⟩ := by
        have hs : step .run c.shared (.running call pc) = some (sh', .running call pc') := by
          cases pc with
          | finish ret => exact absurd rfl (hnot ret)
          | _ => simp only [step, he, Option.map_some]
        simp [Machine.fire, hl, machine, hs]
      have hcalls := (trans_record (exec_trans he)).1
      obtain ⟨c', hr', hidle, hcalls'⟩ :=
        ih (hr.step hf) rfl (hcalls.trans htrace) (Nat.le_of_lt_succ (Nat.lt_of_lt_of_le hlt hn))
      exact ⟨c', hr', hidle, hcalls'.trans hcalls⟩

/-- Every trace can be made. -/
theorem sequential_total (initValue : T) (trace : List (Call T)) :
    ∃ c, machine.Reachable (initial 1 initValue) c ∧ c.locals = [.idle] ∧
      c.shared.calls = trace.map Call.op := by
  induction trace using List.reverseRecOn with
  | nil => exact ⟨initial 1 initValue, ⟨[], rfl⟩, rfl, rfl⟩
  | append_singleton trace call ih =>
    obtain ⟨c, hr, hidle, htrace⟩ := ih
    have hf : machine.fire 0 (.call call.op) c =
        some ⟨{ (begin c.shared call.op).1 with calls := c.shared.calls ++ [call.op] },
          [.running c.shared.calls.length (begin c.shared call.op).2]⟩ := by
      simp [Machine.fire, hidle, machine, step]
    have hcalls : c.shared.calls ++ [call.op] = (trace ++ [call]).map Call.op := by
      rw [htrace, List.map_append, List.map_singleton]
    obtain ⟨c', hr', hidle', hcalls'⟩ := runs_to_idle _ (hr.step hf) rfl hcalls (Nat.le_refl _)
    exact ⟨c', hr', hidle', hcalls'.trans hcalls⟩

end

end Batt.Watch
