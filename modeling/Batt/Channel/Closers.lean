/-
  A channel that any thread may close.

  `close_for_read` and `close_for_write` may be called while the consumer is inside a read, or the
  producer inside a write: beside the two parties there are any number of threads that call them.

  `ProducerStep` and `ConsumerStep` say once what a step of either party can do that fails no
  check, with the accesses to the watches as `Ran`. From them comes the `Used` of both watches:
  the lock, the place of every handler, the counts that are told and the status of the closes.
-/
import Batt.Watch.Moves
import Batt.Channel.Handlers

namespace Batt.Channel

open Watch Interleave

variable {V : Type}

/-! ## The threads -/

/-- A thread that closes the channel, and which of its counts. -/
inductive Closer where
  | idle
  | closing (c : Count) (pc : Watch.Pc I32)

inductive Thread (V : Type) where
  | party (l : Local V)
  | closer (k : Closer)

def Closer.step (sh : Shared V) : Act V → Closer → Option (Shared V × Closer)
  | .closeForRead, .idle =>
    let (w, pc) := Watch.begin sh.readCount (.close .kClosed)
    some ({ sh with readCount := w }, .closing .read pc)
  | .closeForWrite, .idle =>
    let (w, pc) := Watch.begin sh.writeCount (.close .kClosed)
    some ({ sh with writeCount := w }, .closing .write pc)
  | .run, .closing c pc =>
    (sh.watchStep c pc).map fun r =>
      match r.2 with
      | .finish _ => (r.1, .idle)
      | pc' => (r.1, .closing c pc')
  | _, _ => none

namespace Closers

/-- After a failure nobody goes on. -/
def step (a : Act V) (sh : Shared V) : Thread V → Option (Shared V × Thread V)
  | .party l => (Channel.step a sh l).map fun r => (r.1, .party r.2)
  | .closer k =>
    if sh.failure.isSome then none else (k.step sh a).map fun r => (r.1, .closer r.2)

def machine : Machine (Shared V) (Thread V) (Act V) where
  step := step

/-- A new channel, one producer, one consumer and `n` threads that may close it. -/
def initial (n : Nat) : Conf (Shared V) (Thread V) where
  shared := Channel.initial.shared
  locals := .party (.producer .idle) :: .party (.consumer .idle) ::
    List.replicate n (.closer .idle)

end Closers

/-! ## The calls under way -/

def Producer.call : Count → Producer V → Watch.Local I32
  | .write, .fetchAdd _ pc | .write, .closing pc => .running 0 pc
  | .read, .asyncWait _ pc | .read, .awaitNotEqual _ pc => .running 0 pc
  | _, _ => .idle

def Consumer.call : Count → Consumer → Watch.Local I32
  | .write, .asyncWait _ pc | .write, .awaitNotEqual pc => .running 0 pc
  | .read, .fetchAdd pc | .read, .closing pc _ => .running 0 pc
  | _, _ => .idle

def Closer.call (c : Count) : Closer → Watch.Local I32
  | .closing d pc => if d = c then .running 0 pc else .idle
  | .idle => .idle

/-! ## Accesses to a watch -/

/-- The handler an access invokes, if any, and what its body does to `value_`. -/
inductive Fired (sh : Shared V) (c : Count) (pc : Watch.Pc I32) (sh' : Shared V) : Prop where
  | nobody (invoked : (sh'.watch c).invoked = (sh.watch c).invoked) (value : sh'.value = sh.value)
  | handler (h : Nat) (result : StatusOr I32) (invokes : Invokes h result pc)
      (invoked : (sh'.watch c).invoked = (sh.watch c).invoked ++ [(h, result)])
      (value : (∀ target, (sh.bodies c)[h]? ≠ some (.asyncWrite target)) ∧ sh'.value = sh.value ∨
        ∃ target, (sh.bodies c)[h]? = some (.asyncWrite target) ∧ sh'.value = none ∧
          ∀ v, result = .ok v → v = target)

/-- The next access of a call, with the bodies of the handlers it invokes; none fails. -/
structure Ran (sh : Shared V) (c : Count) (pc : Watch.Pc I32) (sh' : Shared V)
    (pc' : Watch.Pc I32) : Prop where
  trans : Trans (sh.watch c) 0 pc (sh'.watch c) pc'
  other : ∀ d, d ≠ c → sh'.watch d = sh.watch d
  bodies : ∀ d, sh'.bodies d = sh.bodies d
  fired : Fired sh c pc sh'
  max : ∀ arg, pc = .fetch .add arg → (sh.watch c).value ≠ i32Max

@[simp] theorem watch_setWatch (sh : Shared V) (c : Count) (w : Watch.Shared I32) :
    (sh.setWatch c w).watch c = w := by
  cases c <;> rfl

theorem watch_setWatch_ne (sh : Shared V) {c d : Count} (h : d ≠ c) (w : Watch.Shared I32) :
    (sh.setWatch c w).watch d = sh.watch d := by
  cases c <;> cases d <;> first | rfl | exact absurd rfl h

@[simp] theorem bodies_setWatch (sh : Shared V) (c d : Count) (w : Watch.Shared I32) :
    (sh.setWatch c w).bodies d = sh.bodies d := by
  cases c <;> cases d <;> rfl

@[simp] theorem value_setWatch (sh : Shared V) (c : Count) (w : Watch.Shared I32) :
    (sh.setWatch c w).value = sh.value := by
  cases c <;> rfl

theorem runBody_keeps (sh : Shared V) (body : Body) (result : StatusOr I32) :
    (∀ c, (sh.runBody body result).watch c = sh.watch c) ∧
      ∀ c, (sh.runBody body result).bodies c = sh.bodies c := by
  have hdeliver : (∀ c, sh.deliver.watch c = sh.watch c) ∧ ∀ c, sh.deliver.bodies c = sh.bodies c := by
    unfold Shared.deliver
    split <;> exact ⟨fun c => by cases c <;> rfl, fun c => by cases c <;> rfl⟩
  unfold Shared.runBody
  split
  · split
    · exact hdeliver
    · exact ⟨fun c => by cases c <;> rfl, fun c => by cases c <;> rfl⟩
  · exact ⟨fun c => rfl, fun c => rfl⟩
  · split <;> exact ⟨fun c => by cases c <;> rfl, fun c => by cases c <;> rfl⟩
  · exact ⟨fun c => by cases c <;> rfl, fun c => by cases c <;> rfl⟩
  · exact ⟨fun c => rfl, fun c => rfl⟩

theorem runBody_value (sh : Shared V) (body : Body) (result : StatusOr I32)
    (hf : (sh.runBody body result).failure = none) :
    (∀ target, body ≠ .asyncWrite target) ∧ (sh.runBody body result).value = sh.value ∨
      ∃ target, body = .asyncWrite target ∧ (sh.runBody body result).value = none ∧
        ∀ v, result = .ok v → v = target := by
  cases body with
  | asyncRead observed =>
    refine .inl ⟨by simp, ?_⟩
    cases result with
    | error code => rfl
    | ok v =>
      simp only [Shared.runBody, Shared.deliver]
      split
      · split <;> rfl
      · rfl
  | asyncWrite target =>
    refine .inr ⟨target, rfl, ?_⟩
    cases result with
    | error code => exact ⟨rfl, by simp⟩
    | ok v =>
      simp only [Shared.runBody] at hf ⊢
      split at hf
      · rename_i heq
        rw [if_pos heq]
        refine ⟨rfl, ?_⟩
        intro v' hv
        cases hv
        exact heq.symm
      · cases hf
  | resume => exact .inl ⟨by simp, by cases result <;> rfl⟩

theorem ran_runInvoked {sh : Shared V} {c : Count} {pc pc' : Watch.Pc I32}
    {w : Watch.Shared I32} (ht : Trans (sh.watch c) 0 pc w pc')
    (hmax : ∀ arg, pc = .fetch .add arg → (sh.watch c).value ≠ i32Max)
    (hf : (sh.runInvoked c w).failure = none) : Ran sh c pc (sh.runInvoked c w) pc' := by
  rcases trans_invokes ht with hsame | ⟨h, result, hinvokes, rfl⟩
  · rw [runInvoked_same hsame]
    refine ⟨?_, fun d hd => watch_setWatch_ne sh hd w, fun d => bodies_setWatch sh c d w, ?_, hmax⟩
    · rw [watch_setWatch]
      exact ht
    · exact .nobody (by rw [watch_setWatch, hsame]) (value_setWatch sh c w)
  · rw [runInvoked_invoke] at hf ⊢
    unfold Shared.runHandler at hf ⊢
    rw [bodies_setWatch] at hf ⊢
    cases hbody : (sh.bodies c)[h]? with
    | none =>
      refine ⟨?_, fun d hd => watch_setWatch_ne sh hd _, fun d => bodies_setWatch sh c d _, ?_,
        hmax⟩
      · simpa using ht
      · exact .handler h result hinvokes (by simp [Watch.Shared.invoke])
          (.inl ⟨fun _ => by simp [hbody], by simp⟩)
    | some body =>
      simp only [hbody] at hf ⊢
      obtain ⟨hwatch, hbodies⟩ := runBody_keeps
        (sh.setWatch c ((sh.watch c).invoke h result)) body result
      refine ⟨?_, ?_, ?_, ?_, hmax⟩
      · rw [hwatch, watch_setWatch]
        exact ht
      · intro d hd
        rw [hwatch, watch_setWatch_ne sh hd]
      · intro d
        rw [hbodies, bodies_setWatch]
      · refine .handler h result hinvokes ?_ ?_
        · rw [hwatch, watch_setWatch]
          rfl
        · have hvalue := runBody_value _ body result hf
          simpa [hbody] using hvalue

theorem watchStep_ran {sh sh' : Shared V} {c : Count} {pc pc' : Watch.Pc I32}
    (h : sh.watchStep c pc = some (sh', pc')) (hf : sh'.failure = none) : Ran sh c pc sh' pc' := by
  unfold Shared.watchStep at h
  split at h
  · split at h
    · cases h
      cases hf
    · rename_i hmax
      obtain ⟨⟨w, pc₁⟩, he, hr⟩ := Option.map_eq_some_iff.mp h
      cases hr
      have ht := exec_trans he
      have hsame : w.invoked = (sh.watch c).invoked := by
        cases ht
        rfl
      have hran := ran_runInvoked ht (fun _ _ => hmax)
      rw [runInvoked_same hsame] at hran
      exact hran hf
  · rename_i hne
    obtain ⟨⟨w, pc₁⟩, he, hr⟩ := Option.map_eq_some_iff.mp h
    cases hr
    exact ran_runInvoked (exec_trans he) (fun arg h => absurd h (hne arg)) hf

end Batt.Channel
