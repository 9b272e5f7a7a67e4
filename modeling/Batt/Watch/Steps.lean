/-
  What one step of a `WatchAtomic` call can do, said once. `Trans sh call pc sh' pc'` has one
  case for each branch of `exec`, with the branch's condition on the bits of the spin word;
  the five places that store to `value_` are one case. Every proof about runs of the watch
  goes by cases on `Trans`.
-/
import Batt.Watch.Bits

namespace Batt.Watch

open Interleave

variable {T : Type} [DecidableEq T] [Add T] [Sub T] [OrOp T] [AndOp T] {sh sh' : Shared T}

/-- What the update a program point is about to make does to the value, `none` where the
    point makes no update or its function declines. -/
def Pc.apply : Pc T → T → Option T
  | .exchange newValue, _ => some newValue
  | .fetch op arg, v => some (op.apply v arg)
  | .modifyCas fn _ _, v => some (fn v)
  | .modifyIfCas fn _ _, v => fn v
  | .awaitModifyCas fn _, v => fn v
  | _, _ => none

/-- Whether a call that stores from `v` at this point goes on to `notify`: it saw a change,
    in this attempt or, in the loops that keep `changed`, in an earlier one. -/
def Pc.notifies : Pc T → T → Bool
  | .exchange newValue, v => v ≠ newValue
  | .fetch op arg, v => v ≠ op.apply v arg
  | .modifyCas fn oldValue changed, v => oldValue = v && (changed || fn v ≠ v)
  | .modifyIfCas fn oldValue changed, v => oldValue = v && (changed || fn v ≠ some v)
  | .awaitModifyCas fn oldValue, v => oldValue = v && fn v ≠ some v
  | _, _ => false

inductive Trans (sh : Shared T) (call : Nat) : Pc T → Shared T → Pc T → Prop where
  | update {pc : Pc T} {newValue : T} {changed : Bool} (applied : pc.apply sh.value = some newValue)
      (same : changed = false → newValue = sh.value)
      (told : changed = true → pc.notifies sh.value = true) :
      Trans sh call pc (sh.update call newValue)
        (afterUpdate changed newValue (.value sh.value))
  | modifyLoad (fn : T → T) : Trans sh call (.modifyLoad fn) sh (.modifyCas fn sh.value false)
  | modifyFail (fn : T → T) (oldValue : T) (changed changed' : Bool) :
      Trans sh call (.modifyCas fn oldValue changed) sh (.modifyCas fn sh.value changed')
  | modifyIfLoad (fn : T → Option T) :
      Trans sh call (.modifyIfLoad fn) sh (.modifyIfCas fn sh.value false)
  | modifyIfNone (fn : T → Option T) (oldValue : T) (changed : Bool) :
      Trans sh call (.modifyIfCas fn oldValue changed) sh (.finish .none)
  | modifyIfFail (fn : T → Option T) (oldValue : T) (changed changed' : Bool) :
      Trans sh call (.modifyIfCas fn oldValue changed) sh (.modifyIfCas fn sh.value changed')
  | awaitModifyLoad (fn : T → Option T) :
      Trans sh call (.awaitModifyLoad fn) sh (.awaitModifyCas fn sh.value)
  | awaitModifyNone (fn : T → Option T) (oldValue : T) :
      Trans sh call (.awaitModifyCas fn oldValue) (sh.addHandler oldValue)
        (.waitLoad sh.handlers.length oldValue (.awaitModify fn))
  | awaitModifyFail (fn : T → Option T) (oldValue : T) :
      Trans sh call (.awaitModifyCas fn oldValue) sh (.awaitModifyCas fn sh.value)
  | waitChanged (handler : Nat) (lastSeen : T) (k : After T) (changed : sh.value ≠ lastSeen) :
      Trans sh call (.waitLoad handler lastSeen k) sh (.invokeNow handler (.ok sh.value) k)
  | waitSame (handler : Nat) (k : After T) :
      Trans sh call (.waitLoad handler sh.value k) sh
        (.lockObservers (.asyncWait handler sh.value k))
  | notifyFast (newValue : T) (ret : Ret T) (free : locked sh.spinState = false)
      (none : waiting sh.spinState = false) :
      Trans sh call (.notifyLoad newValue ret) sh (.finish ret)
  | notifySlow (newValue : T) (ret : Ret T) :
      Trans sh call (.notifyLoad newValue ret) sh (.lockObservers (.notify newValue ret))
  | lockWait (handler : Nat) (lastSeen : T) (k : After T) (free : locked sh.spinState = false) :
      Trans sh call (.lockObservers (.asyncWait handler lastSeen k))
        { sh with spinState := sh.spinState ||| kLocked }
        (.inLock (.asyncWait handler lastSeen k) sh.spinState)
  | lockNotify (newValue : T) (ret : Ret T) (free : locked sh.spinState = false) :
      Trans sh call (.lockObservers (.notify newValue ret))
        { sh with spinState := sh.spinState ||| kLocked }
        (.inLock (.notify newValue ret) sh.spinState)
  | lockClose (code : StatusCode) (free : locked sh.spinState = false) :
      Trans sh call (.lockObservers (.close code))
        { sh with spinState := sh.spinState ||| kLocked, closers := sh.closers ++ [code] }
        (.inLock (.close code) sh.spinState)
  | lockHeld (site : Site T) (held : locked sh.spinState = true) :
      Trans sh call (.lockObservers site) { sh with spinState := sh.spinState ||| kLocked }
        (.lockObservers site)
  | waitClosed (handler : Nat) (lastSeen : T) (k : After T) (priorState : SpinState)
      (closed : isOpen priorState = false) :
      Trans sh call (.inLock (.asyncWait handler lastSeen k) priorState) sh
        (.unlockObservers priorState (.waitClosed handler k))
  | reloadChanged (handler : Nat) (lastSeen : T) (k : After T) (priorState : SpinState)
      (isOpen : isOpen priorState = true) (changed : sh.value ≠ lastSeen) :
      Trans sh call (.inLock (.asyncWait handler lastSeen k) priorState) sh
        (.unlockObservers priorState (.waitChanged handler sh.value k))
  | reloadSame (handler : Nat) (k : After T) (priorState : SpinState)
      (isOpen : isOpen priorState = true) :
      Trans sh call (.inLock (.asyncWait handler sh.value k) priorState) sh
        (.pushHandler handler sh.value priorState k)
  | notifyTake (newValue : T) (ret : Ret T) (preLockState : SpinState) :
      Trans sh call (.inLock (.notify newValue ret) preLockState) { sh with observers := [] }
        (.unlockObservers (preLockState &&& ~~~kWaiting) (.notified sh.observers newValue ret))
  | closeTake (code : StatusCode) (priorState : SpinState) :
      Trans sh call (.inLock (.close code) priorState) { sh with observers := [] }
        (.unlockObservers (closedState code priorState) (.closed sh.observers))
  | push (handler : Nat) (lastSeen : T) (priorState : SpinState) (k : After T) :
      Trans sh call (.pushHandler handler lastSeen priorState k)
        { sh with observers := sh.observers ++ [handler] }
        (.unlockObservers (priorState ||| kWaiting) (.waitPushed handler k))
  | unlockClosed (desiredState : SpinState) (handler : Nat) (k : After T) :
      Trans sh call (.unlockObservers desiredState (.waitClosed handler k))
        { sh with spinState := desiredState &&& ~~~kLocked } (.getFinalStatus (.wait handler k))
  | unlockPushed (desiredState : SpinState) (handler : Nat) (k : After T) :
      Trans sh call (.unlockObservers desiredState (.waitPushed handler k))
        { sh with spinState := desiredState &&& ~~~kLocked } (afterWait handler k)
  | unlockChanged (desiredState : SpinState) (handler : Nat) (nowSeen : T) (k : After T) :
      Trans sh call (.unlockObservers desiredState (.waitChanged handler nowSeen k))
        { sh with spinState := desiredState &&& ~~~kLocked }
        (.invokeNow handler (.ok nowSeen) k)
  | unlockNotified (desiredState : SpinState) (localObservers : List Nat) (newValue : T)
      (ret : Ret T) :
      Trans sh call (.unlockObservers desiredState (.notified localObservers newValue ret))
        { sh with spinState := desiredState &&& ~~~kLocked }
        (.invokeAll localObservers (.ok newValue) ret)
  | unlockClose (desiredState : SpinState) (localObservers : List Nat) :
      Trans sh call (.unlockObservers desiredState (.closed localObservers))
        { sh with spinState := desiredState &&& ~~~kLocked }
        (.getFinalStatus (.close localObservers))
  | statusWait (handler : Nat) (k : After T) :
      Trans sh call (.getFinalStatus (.wait handler k)) sh
        (.invokeNow handler (.error (finalStatus sh.spinState)) k)
  | statusClose (localObservers : List Nat) :
      Trans sh call (.getFinalStatus (.close localObservers)) sh
        (.invokeAll localObservers (.error (finalStatus sh.spinState)) .unit)
  | invokeNow (handler : Nat) (result : StatusOr T) (k : After T) :
      Trans sh call (.invokeNow handler result k) (sh.invoke handler result)
        (afterWait handler k)
  | invokeNil (result : StatusOr T) (ret : Ret T) :
      Trans sh call (.invokeAll [] result ret) sh (.finish ret)
  | invokeCons (handler : Nat) (rest : List Nat) (result : StatusOr T) (ret : Ret T) :
      Trans sh call (.invokeAll (handler :: rest) result ret) (sh.invoke handler result)
        (.invokeAll rest result ret)
  | resume (handler : Nat) (k : After T) (result : StatusOr T)
      (given : sh.invoked.lookup handler = some result) :
      Trans sh call (.awaitResult handler k) sh (resume k result)
  | loadValue : Trans sh call .loadValue sh (.finish (.value sh.value))
  | loadClosed (b : Bool) : Trans sh call .loadClosed sh (.finish (.flag b))

theorem exec_trans {weak : Bool} {call : Nat} {pc pc' : Pc T}
    (h : exec weak sh call pc = some (sh', pc')) : Trans sh call pc sh' pc' := by
  cases pc with
  | exchange newValue =>
    cases h
    exact .update rfl (fun hc => (not_ne_iff.mp (of_decide_eq_false hc)).symm) id
  | fetch op arg =>
    cases h
    exact .update rfl (fun hc => (not_ne_iff.mp (of_decide_eq_false hc)).symm) id
  | modifyLoad fn => cases h; exact .modifyLoad fn
  | modifyCas fn oldValue changed =>
    simp only [exec] at h
    split at h
    · rename_i hcas
      obtain ⟨_, rfl⟩ := hcas
      cases h
      exact .update rfl (by simp) (by simp [Pc.notifies])
    · cases h
      exact .modifyFail fn oldValue changed _
  | modifyIfLoad fn => cases h; exact .modifyIfLoad fn
  | modifyIfCas fn oldValue changed =>
    simp only [exec] at h
    split at h
    · cases h
      exact .modifyIfNone fn oldValue changed
    · rename_i modifiedValue hfn
      split at h
      · rename_i hcas
        obtain ⟨_, rfl⟩ := hcas
        cases h
        exact .update hfn (by simp) (by simp [Pc.notifies, hfn])
      · cases h
        exact .modifyIfFail fn oldValue changed _
  | awaitModifyLoad fn => cases h; exact .awaitModifyLoad fn
  | awaitModifyCas fn oldValue =>
    simp only [exec] at h
    split at h
    · cases h
      exact .awaitModifyNone fn oldValue
    · rename_i modifiedValue hfn
      split at h
      · rename_i hcas
        obtain ⟨_, rfl⟩ := hcas
        cases h
        exact .update hfn (by simp) (by simp [Pc.notifies, hfn])
      · cases h
        exact .awaitModifyFail fn oldValue
  | waitLoad handler lastSeen k =>
    simp only [exec] at h
    split at h
    · rename_i hne
      cases h
      exact .waitChanged handler lastSeen k hne
    · rename_i heq
      obtain rfl := not_ne_iff.mp heq
      cases h
      exact .waitSame handler k
  | notifyLoad newValue ret =>
    simp only [exec, and_kLocked_kWaiting_eq_zero] at h
    split at h
    · rename_i hfree
      cases h
      exact .notifyFast newValue ret hfree.1 hfree.2
    · cases h
      exact .notifySlow newValue ret
  | lockObservers site =>
    simp only [exec, and_kLocked_eq_zero] at h
    split at h
    · rename_i hfree
      cases site with
      | asyncWait handler lastSeen k => cases h; exact .lockWait handler lastSeen k hfree
      | notify newValue ret => cases h; exact .lockNotify newValue ret hfree
      | close code => cases h; exact .lockClose code hfree
    · rename_i hheld
      cases h
      exact .lockHeld site (by simpa using hheld)
  | inLock site priorState =>
    cases site with
    | asyncWait handler lastSeen k =>
      simp only [exec, and_kOpen_eq_zero] at h
      split at h
      · rename_i hclosed
        cases h
        exact .waitClosed handler lastSeen k priorState hclosed
      · rename_i hopen
        split at h
        · rename_i hne
          cases h
          exact .reloadChanged handler lastSeen k priorState (by simpa using hopen) hne
        · rename_i heq
          obtain rfl := not_ne_iff.mp heq
          cases h
          exact .reloadSame handler k priorState (by simpa using hopen)
    | notify newValue ret => cases h; exact .notifyTake newValue ret priorState
    | close code => cases h; exact .closeTake code priorState
  | pushHandler handler lastSeen priorState k =>
    cases h
    exact .push handler lastSeen priorState k
  | unlockObservers desiredState u =>
    cases u with
    | waitClosed handler k => cases h; exact .unlockClosed desiredState handler k
    | waitPushed handler k => cases h; exact .unlockPushed desiredState handler k
    | waitChanged handler nowSeen k =>
      cases h
      exact .unlockChanged desiredState handler nowSeen k
    | notified localObservers newValue ret =>
      cases h
      exact .unlockNotified desiredState localObservers newValue ret
    | closed localObservers => cases h; exact .unlockClose desiredState localObservers
  | getFinalStatus k =>
    cases k with
    | wait handler k => cases h; exact .statusWait handler k
    | close localObservers => cases h; exact .statusClose localObservers
  | invokeNow handler result k => cases h; exact .invokeNow handler result k
  | invokeAll localObservers result ret =>
    cases localObservers with
    | nil => cases h; exact .invokeNil result ret
    | cons handler rest => cases h; exact .invokeCons handler rest result ret
  | awaitResult handler k =>
    obtain ⟨result, hgiven, hr⟩ := Option.map_eq_some_iff.mp h
    cases hr
    exact .resume handler k result hgiven
  | loadValue => cases h; exact .loadValue
  | loadClosed => cases h; exact .loadClosed _
  | finish ret => cases h

/-- Inside a call nothing is recorded about calls and returns. -/
theorem trans_record {call : Nat} {pc pc' : Pc T} (h : Trans sh call pc sh' pc') :
    sh'.calls = sh.calls ∧ sh'.returns = sh.returns := by
  cases h <;> exact ⟨rfl, rfl⟩

/-- A step of a thread makes a call, returns from one, or takes the next access of one. -/
theorem step_execs {a : Act T} {l l' : Local T} (h : step a sh l = some (sh', l')) :
    (∃ op, l = .idle ∧ sh' = { (begin sh op).1 with calls := sh.calls ++ [op] } ∧
        l' = .running sh.calls.length (begin sh op).2) ∨
    (∃ call ret, l = .running call (.finish ret) ∧
        sh' = { sh with returns := sh.returns ++ [(call, ret)] } ∧ l' = .idle) ∨
    (∃ weak call pc pc', l = .running call pc ∧ exec weak sh call pc = some (sh', pc') ∧
        l' = .running call pc') := by
  unfold step at h
  split at h
  · rename_i op
    cases h
    exact .inl ⟨op, rfl, rfl, rfl⟩
  · rename_i call ret
    cases h
    exact .inr (.inl ⟨call, ret, rfl, rfl, rfl⟩)
  · rename_i call pc _
    obtain ⟨⟨s, pc'⟩, he, hr⟩ := Option.map_eq_some_iff.mp h
    cases hr
    exact .inr (.inr ⟨true, call, pc, pc', rfl, he, rfl⟩)
  · rename_i call pc
    split at h
    case h_4 => cases h
    all_goals
      obtain ⟨⟨s, pc'⟩, he, hr⟩ := Option.map_eq_some_iff.mp h
      cases hr
      exact .inr (.inr ⟨false, call, _, pc', rfl, he, rfl⟩)
  · cases h

theorem step_cases {a : Act T} {l l' : Local T} (h : step a sh l = some (sh', l')) :
    (∃ op, l = .idle ∧ sh' = { (begin sh op).1 with calls := sh.calls ++ [op] } ∧
        l' = .running sh.calls.length (begin sh op).2) ∨
    (∃ call ret, l = .running call (.finish ret) ∧
        sh' = { sh with returns := sh.returns ++ [(call, ret)] } ∧ l' = .idle) ∨
    (∃ call pc pc', l = .running call pc ∧ Trans sh call pc sh' pc' ∧ l' = .running call pc') := by
  rcases step_execs h with h | h | ⟨weak, call, pc, pc', hl, he, hl'⟩
  · exact .inl h
  · exact .inr (.inl h)
  · exact .inr (.inr ⟨call, pc, pc', hl, exec_trans he, hl'⟩)

end Batt.Watch
