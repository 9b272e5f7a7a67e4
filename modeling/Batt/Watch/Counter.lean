/-
  A watch that one party adds to and one other party waits on.

  `Adds` and `Awaits` classify the program points of `fetch_add` and of `async_wait` on an
  open watch: what the adder still has to tell, how far the waiting party's handler has
  come. `Flight` is the invariant of the two together. There is one handler at most; it is
  in `observers_`, or taken by the adder, or has been invoked, and never two of these. What
  it is given was stored by the adder, and differs from its `last_seen` if the handler was
  not pushed while the adder was carrying that very value (`strict`).

  `adder_cases` and `waiter_cases` say once what a step of either party can do, and the
  `Flight` lemmas below them follow each outcome.
-/
import Batt.Watch.Steps

namespace Batt.Watch

variable {T : Type} {h : Nat}

/-! ## Where the two parties are -/

/-- How far a `fetch_add` is: before its store, with a value to tell, or with the handlers
    it has taken. -/
inductive AddAt (T : Type) where
  | before
  | told (v : T)
  | took (obs : List Nat) (v : T)

/-- How far a handler is: not pushed, about to be invoked with a loaded value, or handed
    over. -/
inductive WaitAt (T : Type) where
  | arming (handler : Nat) (lastSeen : T)
  | direct (handler : Nat) (v : T)
  | armed (handler : Nat)

def WaitAt.handler : WaitAt T → Nat
  | .arming h _ => h
  | .direct h _ => h
  | .armed h => h

inductive Adds [Add T] (arg : T) : Pc T → AddAt T → Prop where
  | fetch : Adds arg (.fetch .add arg) .before
  | load (old : T) : Adds arg (.notifyLoad (old + arg) (.value old)) (.told (old + arg))
  | lock (old : T) :
      Adds arg (.lockObservers (.notify (old + arg) (.value old))) (.told (old + arg))
  | inLock (old : T) (s : SpinState) (hopen : isOpen s = true) :
      Adds arg (.inLock (.notify (old + arg) (.value old)) s) (.told (old + arg))
  | unlock (old : T) (s : SpinState) (obs : List Nat) (hopen : isOpen s = true) :
      Adds arg (.unlockObservers s (.notified obs (old + arg) (.value old)))
        (.took obs (old + arg))
  | invoke (old : T) (obs : List Nat) :
      Adds arg (.invokeAll obs (.ok (old + arg)) (.value old)) (.took obs (old + arg))

inductive Awaits (k : After T) : Pc T → WaitAt T → Prop where
  | load (h : Nat) (ls : T) : Awaits k (.waitLoad h ls k) (.arming h ls)
  | lock (h : Nat) (ls : T) : Awaits k (.lockObservers (.asyncWait h ls k)) (.arming h ls)
  | inLock (h : Nat) (ls : T) (s : SpinState) (hopen : isOpen s = true) :
      Awaits k (.inLock (.asyncWait h ls k) s) (.arming h ls)
  | push (h : Nat) (ls : T) (s : SpinState) (hopen : isOpen s = true) :
      Awaits k (.pushHandler h ls s k) (.arming h ls)
  | unlockChanged (h : Nat) (v : T) (s : SpinState) (hopen : isOpen s = true) :
      Awaits k (.unlockObservers s (.waitChanged h v k)) (.direct h v)
  | invoke (h : Nat) (v : T) : Awaits k (.invokeNow h (.ok v) k) (.direct h v)
  | unlockPushed (h : Nat) (s : SpinState) (hopen : isOpen s = true) :
      Awaits k (.unlockObservers s (.waitPushed h k)) (.armed h)
  | result (h : Nat) : Awaits k (.awaitResult h k) (.armed h)

/-! ## What a step can do -/

/-- Nothing but the spin word changed, and the watch is open. -/
structure Same (w w' : Shared T) : Prop where
  value : w'.value = w.value
  observers : w'.observers = w.observers
  handlers : w'.handlers = w.handlers
  invoked : w'.invoked = w.invoked
  isOpen : isOpen w'.spinState = true

theorem Same.refl {w : Shared T} (h : Watch.isOpen w.spinState = true) : Same w w :=
  ⟨rfl, rfl, rfl, rfl, h⟩

theorem Same.spin {w : Shared T} {s : SpinState} (h : Watch.isOpen s = true) :
    Same w { w with spinState := s } :=
  ⟨rfl, rfl, rfl, rfl, h⟩

theorem isOpen_unlock {s : SpinState} (h : isOpen s = true) :
    isOpen (s &&& ~~~kLocked) = true := by
  rw [(bits_unlock s).2.1]
  exact h

section

variable [DecidableEq T] [Add T] [Sub T] [OrOp T] [AndOp T]
variable {arg : T} {w w' : Shared T} {call : Nat} {pc pc' : Pc T} {k : After T}

/-- What a step of `fetch_add(arg)` can do. -/
inductive AddStep (arg : T) (w : Shared T) (call : Nat) : AddAt T → Shared T → Pc T → Prop where
  | store : AddStep arg w call .before (w.update call (w.value + arg))
      (.notifyLoad (w.value + arg) (.value w.value))
  | same {x : AddAt T} {w' : Shared T} {pc' : Pc T} (same : Same w w') (adds : Adds arg pc' x) :
      AddStep arg w call x w' pc'
  | quick (old : T) : AddStep arg w call (.told (old + arg)) w (.finish (.value old))
  | take {v : T} {pc' : Pc T} (adds : Adds arg pc' (.took w.observers v)) :
      AddStep arg w call (.told v) { w with observers := [] } pc'
  | done (old : T) : AddStep arg w call (.took [] (old + arg)) w (.finish (.value old))
  | invoke (h : Nat) (rest : List Nat) {v : T} {pc' : Pc T} (adds : Adds arg pc' (.took rest v)) :
      AddStep arg w call (.took (h :: rest) v) (w.invoke h (.ok v)) pc'

/-- The store of `fetch_add`. -/
theorem exec_add (hne : w.value ≠ w.value + arg) :
    exec true w call (.fetch .add arg) =
      some (w.update call (w.value + arg), .notifyLoad (w.value + arg) (.value w.value)) := by
  simp only [exec, FetchOp.apply, afterUpdate, ne_eq, hne, not_false_eq_true, decide_true, if_true]

theorem adder_cases {x : AddAt T} (ha : Adds arg pc x) (hopen : isOpen w.spinState = true)
    (hne : w.value ≠ w.value + arg) (h : exec true w call pc = some (w', pc')) :
    AddStep arg w call x w' pc' := by
  cases ha with
  | fetch =>
    rw [exec_add hne] at h
    cases h
    exact .store
  | load old =>
    simp only [exec] at h
    split at h
    · cases h
      exact .quick old
    · cases h
      exact .same (Same.refl hopen) (.lock old)
  | lock old =>
    simp only [exec] at h
    split at h
    · cases h
      exact .same (Same.spin (by simpa using hopen)) (.inLock old _ hopen)
    · cases h
      exact .same (Same.spin (by simpa using hopen)) (.lock old)
  | inLock old s hs =>
    cases h
    exact .take (.unlock old _ _ (by simpa using hs))
  | unlock old s obs hs =>
    cases h
    exact .same (Same.spin (isOpen_unlock hs)) (.invoke old obs)
  | invoke old obs =>
    cases obs with
    | nil =>
      cases h
      exact .done old
    | cons handler rest =>
      cases h
      exact .invoke handler rest (.invoke old rest)

/-- What a step of `async_wait` on an open watch can do; `k` says what its caller does
    afterwards. -/
inductive WaitStep (k : After T) (w : Shared T) : Pc T → WaitAt T → Shared T → Pc T → Prop where
  | same {pc : Pc T} {x : WaitAt T} {w' : Shared T} {pc' : Pc T} (same : Same w w')
      (waits : Awaits k pc' x) : WaitStep k w pc x w' pc'
  | changed {pc : Pc T} (h : Nat) (ls : T) {pc' : Pc T} (changed : w.value ≠ ls)
      (waits : Awaits k pc' (.direct h w.value)) : WaitStep k w pc (.arming h ls) w pc'
  | push (h : Nat) (ls : T) (s : SpinState) {pc' : Pc T} (waits : Awaits k pc' (.armed h)) :
      WaitStep k w (.pushHandler h ls s k) (.arming h ls)
        { w with observers := w.observers ++ [h] } pc'
  | invoke {pc : Pc T} (h : Nat) (v : T) :
      WaitStep k w pc (.direct h v) (w.invoke h (.ok v)) (afterWait h k)
  | leave {pc : Pc T} (h : Nat) {w' : Shared T} (same : Same w w') :
      WaitStep k w pc (.armed h) w' (afterWait h k)
  | resume {pc : Pc T} (h : Nat) (result : StatusOr T)
      (given : w.invoked.lookup h = some result) :
      WaitStep k w pc (.armed h) w (Watch.resume k result)

theorem waiter_cases {x : WaitAt T} (hw : Awaits k pc x) (hopen : isOpen w.spinState = true)
    (h : exec true w call pc = some (w', pc')) : WaitStep k w pc x w' pc' := by
  cases hw with
  | load handler ls =>
    simp only [exec] at h
    split at h
    · rename_i hne
      cases h
      exact .changed handler ls hne (.invoke handler _)
    · cases h
      exact .same (Same.refl hopen) (.lock handler ls)
  | lock handler ls =>
    simp only [exec] at h
    split at h
    · cases h
      exact .same (Same.spin (by simpa using hopen)) (.inLock handler ls _ hopen)
    · cases h
      exact .same (Same.spin (by simpa using hopen)) (.lock handler ls)
  | inLock handler ls s hs =>
    simp only [exec] at h
    rw [if_neg (by rw [and_kOpen_eq_zero, hs]; exact Bool.true_eq_false.mp)] at h
    split at h
    · rename_i hne
      cases h
      exact .changed handler ls hne (.unlockChanged handler _ s hs)
    · cases h
      exact .same (Same.refl hopen) (.push handler ls s hs)
  | push handler ls s hs =>
    cases h
    exact .push handler ls s (.unlockPushed handler _ (by simpa using hs))
  | unlockChanged handler v s hs =>
    cases h
    exact .same (Same.spin (isOpen_unlock hs)) (.invoke handler v)
  | invoke handler v =>
    cases h
    exact .invoke handler v
  | unlockPushed handler s hs =>
    cases h
    exact .leave handler (Same.spin (isOpen_unlock hs))
  | result handler =>
    obtain ⟨result, hgiven, hr⟩ := Option.map_eq_some_iff.mp h
    cases hr
    exact .resume handler result hgiven

end

/-! ## The two parties together -/

/-- The value the adder has stored. -/
def stored : Option (AddAt T) → Option T
  | some (.told v) => some v
  | some (.took _ v) => some v
  | _ => none

/-- The value it will hand to handler `h`, were `h` in the list now. -/
def owed : Option (AddAt T) → Nat → Option T
  | some (.told v), _ => some v
  | some (.took obs v), h => if h ∈ obs then some v else none
  | _, _ => none

/-- Handlers that have been pushed and not been invoked. -/
def pending (w : Shared T) : Option (AddAt T) → List Nat
  | some (.took obs _) => w.observers ++ obs
  | _ => w.observers

/-- Where the waiting party's handler is. -/
def Placed (w : Shared T) (a : Option (AddAt T)) (strict : Bool) : Option (WaitAt T) → Prop
  | none => pending w a = []
  | some (.arming h ls) =>
    pending w a = [] ∧ w.handlers[h]? = some ls ∧ w.invoked.lookup h = none
  | some (.direct h v) =>
    pending w a = [] ∧ v = w.value ∧ w.invoked.lookup h = none ∧
      ∃ ls, w.handlers[h]? = some ls ∧ v ≠ ls
  | some (.armed h) =>
    h < w.handlers.length ∧
    ((pending w a = [h] ∧ w.invoked.lookup h = none ∧
        (strict = true → ∀ v, owed a h = some v → w.handlers[h]? ≠ some v)) ∨
      (pending w a = [] ∧ ∃ v, w.invoked.lookup h = some (.ok v) ∧
        (strict = true → w.handlers[h]? ≠ some v) ∧ (w.handlers[h]? = some v ∨ v = w.value)))

structure Flight (w : Shared T) (a : Option (AddAt T)) (o : Option (WaitAt T)) (strict : Bool) :
    Prop where
  isOpen : isOpen w.spinState = true
  known : ∀ e ∈ w.invoked, e.1 < w.handlers.length
  current : ∀ v, stored a = some v → v = w.value
  placed : Placed w a strict o

section

variable {w w' : Shared T} {a a' : Option (AddAt T)} {o : Option (WaitAt T)} {strict : Bool}

/-- A step that moves no handler. -/
theorem Flight.congr (f : Flight w a o strict) (same : Same w w')
    (hs : ∀ v, stored a' = some v → stored a = some v)
    (ho : ∀ h v, owed a' h = some v → owed a h = some v) (hp : pending w a' = pending w a) :
    Flight w' a' o strict := by
  have hp' : pending w' a' = pending w a := by
    rw [← hp]
    unfold pending
    rw [same.observers]
  refine ⟨same.isOpen, ?_, ?_, ?_⟩
  · rw [same.invoked, same.handlers]
    exact f.known
  · intro v hv
    rw [same.value]
    exact f.current v (hs v hv)
  · have hplaced := f.placed
    unfold Placed at hplaced ⊢
    rw [hp', same.handlers, same.invoked, same.value]
    split
    · exact hplaced
    · exact hplaced
    · exact hplaced
    · obtain ⟨hlt, hpend | hdone⟩ := hplaced
      · exact ⟨hlt, .inl ⟨hpend.1, hpend.2.1, fun hst v hv => hpend.2.2 hst v (ho _ v hv)⟩⟩
      · exact ⟨hlt, .inr hdone⟩

/-- The add has not stored yet, or is over. -/
theorem Flight.rest (f : Flight w a o strict) (hs : stored a' = none)
    (ho : ∀ h, owed a' h = none) (hp : pending w a' = pending w a) : Flight w a' o strict := by
  refine f.congr (Same.refl f.isOpen) (fun v hv => ?_) (fun h v hv => ?_) hp
  · rw [hs] at hv
    cases hv
  · rw [ho h] at hv
    cases hv

/-- The store: the handler, if there is one, has seen the value before it. -/
theorem Flight.store [Add T] {arg : T} {call : Nat} (f : Flight w (some .before) o strict)
    (hne : w.value ≠ w.value + arg)
    (hseen : ∀ x, o = some x → w.handlers[x.handler]? = some w.value) :
    Flight (w.update call (w.value + arg)) (some (.told (w.value + arg))) o strict := by
  refine ⟨f.isOpen, f.known, ?_, ?_⟩
  · intro v hv
    cases hv
    rfl
  · have hplaced := f.placed
    cases o with
    | none => exact hplaced
    | some x =>
      have hlast := hseen x rfl
      cases x with
      | arming h ls => exact hplaced
      | direct h v =>
        obtain ⟨_, rfl, _, ls, hls, hdiff⟩ := hplaced
        rw [WaitAt.handler, hls] at hlast
        exact absurd (Option.some.inj hlast).symm hdiff
      | armed h =>
        rw [WaitAt.handler] at hlast
        obtain ⟨hlt, ⟨hpend, hnone, _⟩ | ⟨hpend, v, hgot, hstrict, hv⟩⟩ := hplaced
        · refine ⟨hlt, .inl ⟨hpend, hnone, ?_⟩⟩
          intro _ v hv hls
          cases hv
          exact hne (Option.some.inj (hlast.symm.trans hls))
        · have hsame : w.handlers[h]? = some v := by
            rcases hv with hv | hv
            · exact hv
            · rw [hv, hlast]
          exact ⟨hlt, .inr ⟨hpend, v, hgot, hstrict, .inl hsame⟩⟩

theorem Flight.take {v : T} (f : Flight w (some (.told v)) o strict) :
    Flight { w with observers := [] } (some (.took w.observers v)) o strict := by
  refine ⟨f.isOpen, f.known, f.current, ?_⟩
  have hplaced := f.placed
  cases o with
  | none => exact hplaced
  | some x =>
    cases x with
    | arming h ls => exact hplaced
    | direct h u => exact hplaced
    | armed h =>
      obtain ⟨hlt, ⟨hpend, hnone, hstrict⟩ | hdone⟩ := hplaced
      · refine ⟨hlt, .inl ⟨hpend, hnone, fun hs u hu => hstrict hs u ?_⟩⟩
        simp only [owed] at hu ⊢
        split at hu
        · exact hu
        · cases hu
      · exact ⟨hlt, .inr hdone⟩

theorem lookup_invoke {result : StatusOr T} (hnone : w.invoked.lookup h = none) :
    (w.invoke h result).invoked.lookup h = some result := by
  unfold Shared.invoke
  rw [List.lookup_append, hnone]
  simp

/-- The adder invokes a handler it has taken: it is the waiting party's. -/
theorem Flight.invokeTaken {rest : List Nat} {v : T}
    (f : Flight w (some (.took (h :: rest) v)) o strict) :
    o = some (.armed h) ∧ w.invoked.lookup h = none ∧ rest = [] ∧
      (strict = true → w.handlers[h]? ≠ some v) ∧
      Flight (w.invoke h (.ok v)) (some (.took [] v)) o strict := by
  have hplaced := f.placed
  have hne : pending w (some (.took (h :: rest) v)) ≠ [] := by simp [pending]
  have hcur := f.current v rfl
  cases o with
  | none => exact absurd hplaced hne
  | some x =>
    cases x with
    | arming g ls => exact absurd hplaced.1 hne
    | direct g u => exact absurd hplaced.1 hne
    | armed g =>
      obtain ⟨hlt, ⟨hpend, hnone, hstrict⟩ | ⟨hpend, _⟩⟩ := hplaced
      · obtain ⟨hobs, rfl, rfl⟩ : w.observers = [] ∧ h = g ∧ rest = [] := by
          unfold pending at hpend
          cases hobs : w.observers with
          | nil => simpa [hobs] using hpend
          | cons y ys => simp [hobs] at hpend
        have hdiff : strict = true → w.handlers[h]? ≠ some v := fun hs =>
          hstrict hs v (by simp [owed])
        refine ⟨rfl, hnone, rfl, hdiff, ?_, ?_, ?_, ?_⟩
        · exact f.isOpen
        · intro e he
          rcases List.mem_append.mp he with he | he
          · exact f.known e he
          · obtain rfl := List.mem_singleton.mp he
            exact hlt
        · exact f.current
        · refine ⟨hlt, .inr ⟨?_, v, lookup_invoke hnone, hdiff, .inr hcur⟩⟩
          unfold pending
          simpa [Shared.invoke] using hobs
      · exact absurd hpend hne

end

/-! ## The waiting party -/

section

variable {w w' : Shared T} {a : Option (AddAt T)} {strict : Bool}

theorem Flight.changed {ls : T} (f : Flight w a (some (.arming h ls)) strict) (hne : w.value ≠ ls) :
    Flight w a (some (.direct h w.value)) strict := by
  obtain ⟨hpend, hls, hnone⟩ := f.placed
  exact ⟨f.isOpen, f.known, f.current, hpend, rfl, hnone, ls, hls, hne⟩

theorem Flight.push {ls : T} (f : Flight w a (some (.arming h ls)) strict)
    (hfresh : strict = true → a ≠ some (.told ls)) :
    Flight { w with observers := w.observers ++ [h] } a (some (.armed h)) strict := by
  obtain ⟨hpend, hls, hnone⟩ := f.placed
  refine ⟨f.isOpen, f.known, f.current, (List.getElem?_eq_some_iff.mp hls).1,
    .inl ⟨?_, hnone, ?_⟩⟩
  · cases a with
    | none => exact congrArg (· ++ [h]) hpend
    | some x =>
      cases x with
      | before => exact congrArg (· ++ [h]) hpend
      | told v => exact congrArg (· ++ [h]) hpend
      | took obs v =>
        obtain ⟨hobs, htook⟩ := List.append_eq_nil_iff.mp hpend
        simp [pending, hobs, htook]
  · -- a taken list is empty here, so only a value still to be told could be owed
    intro hs v hv hsame
    obtain rfl : ls = v := Option.some.inj (hls.symm.trans hsame)
    cases a with
    | none => cases hv
    | some x =>
      cases x with
      | before => cases hv
      | told u =>
        cases hv
        exact hfresh hs rfl
      | took obs u =>
        obtain ⟨_, htook⟩ := List.append_eq_nil_iff.mp hpend
        simp [owed, htook] at hv

theorem Flight.invokeDirect {v : T} (f : Flight w a (some (.direct h v)) strict) :
    w.invoked.lookup h = none ∧ w.handlers[h]? ≠ some v ∧
      Flight (w.invoke h (.ok v)) a (some (.armed h)) strict := by
  obtain ⟨hpend, hv, hnone, ls, hls, hne⟩ := f.placed
  have hlt := (List.getElem?_eq_some_iff.mp hls).1
  have hdiff : w.handlers[h]? ≠ some v := by
    rw [hls]
    exact fun heq => hne (Option.some.inj heq).symm
  refine ⟨hnone, hdiff, f.isOpen, ?_, f.current, hlt,
    .inr ⟨hpend, v, lookup_invoke hnone, fun _ => hdiff, .inr hv⟩⟩
  intro e he
  rcases List.mem_append.mp he with he | he
  · exact f.known e he
  · obtain rfl := List.mem_singleton.mp he
    exact hlt

/-- A new handler, with the `last_seen` it is passed with. -/
theorem Flight.start (f : Flight w a none strict) (ls : T) (strict' : Bool) :
    Flight (w.addHandler ls) a (some (.arming w.handlers.length ls)) strict' := by
  refine ⟨f.isOpen, ?_, f.current, f.placed, ?_, ?_⟩
  · intro e he
    have := f.known e he
    simp only [Shared.addHandler, List.length_append]
    omega
  · simp [Shared.addHandler]
  · by_contra hsome
    obtain ⟨r, hr⟩ := Option.ne_none_iff_exists'.mp hsome
    obtain ⟨before, after, hinvoked, _⟩ := List.lookup_eq_some_iff.mp hr
    have hmem : (w.handlers.length, r) ∈ w.invoked := by
      rw [show w.invoked = before ++ (w.handlers.length, r) :: after from hinvoked]
      simp
    have := f.known _ hmem
    omega

/-- The waiting party goes its way with what its handler was given. -/
theorem Flight.leave (f : Flight w a (some (.armed h)) strict) {result : StatusOr T}
    (hgot : w.invoked.lookup h = some result) (strict' : Bool) :
    Flight w a none strict' ∧ ∃ v, result = .ok v ∧ (strict = true → w.handlers[h]? ≠ some v) ∧
      (w.handlers[h]? = some v ∨ v = w.value) := by
  obtain ⟨_, ⟨_, hnone, _⟩ | ⟨hpend, v, hv, hrest⟩⟩ := f.placed
  · rw [hnone] at hgot
    cases hgot
  · refine ⟨⟨f.isOpen, f.known, f.current, hpend⟩, v, ?_, hrest⟩
    exact Option.some.inj (hgot.symm.trans hv)

end

end Batt.Watch
