/-
  What one step of a `Latch` call can do, said once. `Moves sh frame sh' frames` has one case for
  each branch of `Frame.step`; the proofs about runs go by cases on it.
-/
import Batt.Latch.Model
import Batt.Watch.Callers
import Batt.Watch.Linearize

namespace Batt.Latch

open Interleave

variable {T : Type} {sh sh' : Shared T} {frames : List (Frame T)}

/-- The frame has loaded `observed` from `state_` and decides what its call does next. -/
inductive Observes (sh : Shared T) : Frame T → Nat → U32 → Prop where
  | load (call : Nat) : Observes sh (.awaitLoad call) call sh.state.value
  | awaited (call : Nat) (observed : U32) :
      Observes sh (.inWatch call .awaitNotEqual (.finish (.value observed))) call observed

theorem Observes.frame {f : Frame T} {call : Nat} {observed : U32} (h : Observes sh f call observed)
    :
    f = .awaitLoad call ∨ f = .inWatch call .awaitNotEqual (.finish (.value observed)) := by
  cases h with
  | load call => exact .inl rfl
  | awaited call observed => exact .inr rfl

/-- The checks, and reads of storage that holds no value. -/
inductive Fails (sh : Shared T) : Frame T → Failure → Prop where
  | setError (call : Nat) : Fails sh (.setError call .kOk) .okStatus
  | construct (call : Nat) : Fails sh (.construct call (.error .kOk)) .okStatus
  | checkReady (call : Nat) (h : sh.state.value ≠ kReady) : Fails sh (.checkReady call) .check
  | checkValue (call : Nat) (h : sh.valid = false) : Fails sh (.checkValue call) .check
  | readValue (call : Nat) (h : sh.storage = none) : Fails sh (.readValue call) .uninitialised
  | handler (call : Nat) (h : sh.valid = false) : Fails sh (.handler call (.ok kReady)) .check
  | handlerRead (call : Nat) (h : sh.storage = none) :
      Fails sh (.handlerRead call) .uninitialised

inductive Moves (sh : Shared T) : Frame T → Shared T → List (Frame T) → Prop where
  | access (call : Nat) (site : Site T) {pc pc' : Watch.Pc U32} {w : Watch.Shared U32}
      (access : Watch.Trans sh.state call pc w pc') :
      Moves sh (.inWatch call site pc) { sh with state := w }
        ((w.invoked.drop sh.state.invoked.length).filterMap sh.frameOf ++
          [.inWatch call site pc'])
  | fail {frame : Frame T} {failure : Failure} (fails : Fails sh frame failure) :
      Moves sh frame (sh.fail failure) [frame]
  | setError (call : Nat) {status : StatusCode} (notOk : status ≠ .kOk) :
      Moves sh (.setError call status) sh
        [.inWatch call (.fetchOr (.error status)) (.fetch .or kSetting)]
  | lose (call : Nat) (v : StatusOr T) {priorState : U32} (taken : priorState ≠ kInitial) :
      Moves sh (.inWatch call (.fetchOr v) (.finish (.value priorState)))
        (sh.return call (.set false)) []
  | win (call : Nat) (v : StatusOr T) :
      Moves sh (.inWatch call (.fetchOr v) (.finish (.value kInitial))) sh [.emplace call v]
  | emplace (call : Nat) (v : StatusOr T) (storage : Option (StatusOr T)) :
      Moves sh (.emplace call v) { sh with valid := false, storage := storage }
        [.construct call v]
  | construct (call : Nat) {v : StatusOr T} (notOk : v ≠ .error .kOk) :
      Moves sh (.construct call v) { sh with storage := some v } [.engage call]
  | engage (call : Nat) :
      Moves sh (.engage call) { sh with valid := true }
        [.inWatch call .setReady (.exchange kReady)]
  | setReady (call : Nat) (ret : Watch.Ret U32) :
      Moves sh (.inWatch call .setReady (.finish ret)) (sh.return call (.set true)) []
  | isReady (call : Nat) :
      Moves sh (.isReady call) (sh.return call (.ready (sh.state.value = kReady))) []
  | unavailable (call : Nat) :
      Moves sh (.poll call) (sh.return call (.result (.error .kUnavailable))) []
  | pollReady (call : Nat) (ready : sh.state.value = kReady) :
      Moves sh (.poll call) sh [.checkReady call]
  | awaitReady {frame : Frame T} {call : Nat} (ready : Observes sh frame call kReady) :
      Moves sh frame sh [.checkReady call]
  | wait {frame : Frame T} {call : Nat} {observed : U32} (observes : Observes sh frame call observed)
      (unready : observed ≠ kReady) :
      Moves sh frame (sh.beginWait (.awaitNotEqual observed) .resume).1
        [.inWatch call .awaitNotEqual (sh.beginWait (.awaitNotEqual observed) .resume).2]
  | awaitClosed (call : Nat) (code : StatusCode) :
      Moves sh (.inWatch call .awaitNotEqual (.finish (.status code)))
        (sh.return call (.result (.error code))) []
  | checkReady (call : Nat) (ready : sh.state.value = kReady) :
      Moves sh (.checkReady call) sh [.checkValue call]
  | checkValue (call : Nat) : Moves sh (.checkValue call) sh [.readValue call]
  | readValue (call : Nat) {v : StatusOr T} (stored : sh.storage = some v) :
      Moves sh (.readValue call) (sh.return call (.result v)) []
  | asyncGet (call : Nat) (ret : Watch.Ret U32) :
      Moves sh (.inWatch call .asyncGet (.finish ret)) (sh.return call .unit) []
  | handlerError (call : Nat) (code : StatusCode) :
      Moves sh (.handler call (.error code)) (sh.give call (.error code)) [.user]
  | handlerReady (call : Nat) : Moves sh (.handler call (.ok kReady)) sh [.handlerRead call]
  | rearm (call : Nat) {observed : U32} (unready : observed ≠ kReady) :
      Moves sh (.handler call (.ok observed))
        (sh.beginWait (.asyncWait observed) (.asyncGet call)).1
        [.inWatch call .rearm (sh.beginWait (.asyncWait observed) (.asyncGet call)).2]
  | handlerRead (call : Nat) {v : StatusOr T} (stored : sh.storage = some v) :
      Moves sh (.handlerRead call) (sh.give call v) [.user]
  | rearmed (call : Nat) (ret : Watch.Ret U32) :
      Moves sh (.inWatch call .rearm (.finish ret)) sh []
  | user : Moves sh .user sh []

theorem moves_awaitEqual {frame : Frame T} {call : Nat} {observed : U32}
    (hobs : Observes sh frame call observed) (h : awaitEqual sh call observed = (sh', frames)) :
    Moves sh frame sh' frames := by
  unfold awaitEqual at h
  split at h
  · rename_i hready
    cases h
    exact .awaitReady (hready ▸ hobs)
  · rename_i hready
    cases h
    exact .wait hobs hready

theorem moves_afterWatch {call : Nat} {site : Site T} {ret : Watch.Ret U32}
    (h : afterWatch sh call site ret = some (sh', frames)) :
    Moves sh (.inWatch call site (.finish ret)) sh' frames := by
  unfold afterWatch at h
  split at h
  · rename_i v priorState
    split at h
    · rename_i htaken
      cases h
      exact .lose call v htaken
    · rename_i hfree
      obtain rfl := not_ne_iff.mp hfree
      cases h
      exact .win call v
  · cases h
    exact .setReady call ret
  · exact moves_awaitEqual (.awaited call _) (Option.some.inj h)
  · cases h
    exact .awaitClosed call _
  · cases h
    exact .asyncGet call ret
  · cases h
    exact .rearmed call ret
  · cases h

theorem step_moves {frame : Frame T} (h : frame.step sh = some (sh', frames)) :
    Moves sh frame sh' frames := by
  cases frame with
  | setError call status =>
    simp only [Frame.step] at h
    split at h
    · rename_i hok
      subst hok
      cases h
      exact .fail (.setError call)
    · rename_i hok
      cases h
      exact .setError call hok
  | inWatch call site pc =>
    by_cases hpc : ∃ ret, pc = .finish ret
    · obtain ⟨ret, rfl⟩ := hpc
      exact moves_afterWatch h
    · have hstep : sh.watchStep call site pc = some (sh', frames) := by
        cases pc <;> first | exact h | exact absurd ⟨_, rfl⟩ hpc
      obtain ⟨⟨w, pc'⟩, he, hr⟩ := Option.map_eq_some_iff.mp hstep
      cases hr
      exact .access call site (Watch.exec_trans he)
  | emplace call v =>
    simp only [Frame.step] at h
    split at h
    · cases h
      exact .emplace call v none
    · rename_i hvalid
      cases h
      have hsh : { sh with valid := false, storage := sh.storage } = sh := by
        rw [← Bool.eq_false_iff.mpr hvalid]
      have hm : Moves sh (.emplace call v) { sh with valid := false, storage := sh.storage }
          [.construct call v] := .emplace call v sh.storage
      rwa [hsh] at hm
  | construct call v =>
    by_cases hok : v = .error .kOk
    · subst hok
      cases h
      exact .fail (.construct call)
    · have hstep : some ({ sh with storage := some v }, [Frame.engage call]) =
          some (sh', frames) := by
        rw [← h]
        cases v with
        | ok a => rfl
        | error code => cases code <;> first | rfl | exact absurd rfl hok
      cases hstep
      exact .construct call hok
  | engage call =>
    cases h
    exact .engage call
  | isReady call =>
    cases h
    exact .isReady call
  | poll call =>
    simp only [Frame.step] at h
    split at h
    · cases h
      exact .unavailable call
    · rename_i hready
      cases h
      exact .pollReady call (not_ne_iff.mp hready)
  | awaitLoad call => exact moves_awaitEqual (.load call) (Option.some.inj h)
  | checkReady call =>
    simp only [Frame.step] at h
    split at h
    · rename_i hready
      cases h
      exact .checkReady call hready
    · rename_i hready
      cases h
      exact .fail (.checkReady call hready)
  | checkValue call =>
    simp only [Frame.step] at h
    split at h
    · cases h
      exact .checkValue call
    · rename_i hvalid
      cases h
      exact .fail (.checkValue call (Bool.eq_false_iff.mpr hvalid))
  | readValue call =>
    simp only [Frame.step] at h
    split at h
    · rename_i v hstored
      cases h
      exact .readValue call hstored
    · rename_i hnone
      cases h
      exact .fail (.readValue call hnone)
  | handler call result =>
    cases result with
    | error code =>
      cases h
      exact .handlerError call code
    | ok observed =>
      simp only [Frame.step] at h
      split at h
      · rename_i hready
        subst hready
        split at h
        · cases h
          exact .handlerReady call
        · rename_i hvalid
          cases h
          exact .fail (.handler call (Bool.eq_false_iff.mpr hvalid))
      · rename_i hready
        cases h
        exact .rearm call hready
  | handlerRead call =>
    simp only [Frame.step] at h
    split at h
    · rename_i v hstored
      cases h
      exact .handlerRead call hstored
    · rename_i hnone
      cases h
      exact .fail (.handlerRead call hnone)
  | user =>
    cases h
    exact .user

/-! ## The frames of all threads -/

/-- The invariant rule for a property of the shared state and of the frames of all threads, in
    whatever order they are listed. -/
theorem frames_invariant {I : Shared T → List (Frame T) → Prop}
    (hperm : ∀ {sh fs fs'}, I sh fs → fs.Perm fs' → I sh fs')
    (hcall : ∀ {sh fs} (op : Op T), I sh fs →
      I (begin { sh with calls := sh.calls ++ [op] } sh.calls.length op).1
        ((begin { sh with calls := sh.calls ++ [op] } sh.calls.length op).2 ++ fs))
    (hmove : ∀ {sh sh' frame frames rest}, I sh (frame :: rest) → sh.failure = none →
      Moves sh frame sh' frames → I sh' (frames ++ rest))
    {n : Nat} (h₀ : I (initial n).shared []) {c : Conf (Shared T) (List (Frame T))}
    (hr : machine.Reachable (initial n) c) : I c.shared c.locals.flatten := by
  refine machine.invariant (I := fun c => I c.shared c.locals.flatten) ?_ ?_ hr
  · intro c i a c' hI hf
    obtain ⟨stack, sh', stack', hi, -, hs, rfl⟩ := machine.fire_cases hf
    obtain ⟨rest, hbefore, hafter⟩ := flatten_set hi
    have hI := hperm hI hbefore
    refine hperm ?_ (hafter stack').symm
    simp only [machine, step] at hs
    split at hs
    · cases hs
    · rename_i hok
      split at hs
      · rename_i op
        split at hs
        · cases hs
          rw [List.append_assoc]
          exact hcall op hI
        · cases hs
      · obtain ⟨⟨sh₁, frames⟩, hstep, hr⟩ := Option.map_eq_some_iff.mp hs
        cases hr
        rw [List.append_assoc]
        exact hmove hI (Option.not_isSome_iff_eq_none.mp hok) (step_moves hstep)
      · cases hs
  · have hnil : (initial (T := T) n).locals.flatten = [] := by simp [initial]
    rw [hnil]
    exact h₀

end Batt.Latch
