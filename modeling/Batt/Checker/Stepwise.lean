/-
  `check_stepwise_invariants` (`state_machine_model.hpp`), which no checker calls.

  The hook is about one call of `step()`: the state entered, the values picked and the state
  stepped to. `run()` has no use of it on any of its paths, so a run is that of the model
  without it, and a transition that violates the hook is told apart from none only where
  `check_invariants` fails as well. `stepwise_enforced_iff` says of every model when the result
  of `check_model` is nevertheless what the hook asks for.
-/
import Batt.Checker.Parallel

namespace Batt.Checker

open Interleave Choice

variable {St : Type} {K : Nat}

/-- A model that overrides `check_stepwise_invariants`. -/
structure StepwiseModel (St : Type) extends StateMachineModel St where
  checkStepwiseInvariants : Execution St → Bool := fun _ => true

/-- The hook holds on every transition out of a reachable state. -/
def StepwiseHolds (m : StepwiseModel St) : Prop :=
  ∀ x, m.Reach x → ∀ ds raw, Outcome (m.step x) ds raw →
    m.checkStepwiseInvariants ⟨x, ds, raw⟩ = true

/-- A result that is ok tells that the hook holds on every transition executed, and one that it
    does not hold on makes the result not ok. -/
structure Enforced (m : StepwiseModel St) (c : Conf (Shared St K) (Local St K)) (r : Result) :
    Prop where
  ok : r.ok = true → ∀ l ∈ c.locals, ∀ e ∈ l.executed, m.checkStepwiseInvariants e = true
  violated : (∃ l ∈ c.locals, ∃ e ∈ l.executed, m.checkStepwiseInvariants e = false) → r.ok = false

variable [NeZero K] [DecidableEq St]
variable {mesh : Mesh St} {c : Conf (Shared St K) (Local St K)} {r : Result} {visited : List St}

/-- `check_model` returns ok if and only if every shard has. -/
theorem checkModel_ok {m : StateMachineModel St}
    (hr : (machine mesh m).Reachable (initial mesh) c) (hn : 0 < mesh.shardCount)
    (hresult : checkModel c = some (r, visited)) :
    r.ok = true ↔ ∀ l ∈ c.locals, l.result.ok = true := by
  have hs := sound_reachable hr
  have hlen := hs.basic.shards
  have hle : mesh.shardCount ≤ 64 := by
    by_contra hgt
    rw [checkModel_none hr (by omega)] at hresult
    cases hresult
  unfold checkModel at hresult
  split at hresult
  · rename_i l hl
    cases hresult
    simp [hl]
  · have hnodup : ∀ r ∈ c.locals.map fun l => (⟨l.result, 0, l.visited⟩ : ShardResult St),
        r.visited.Nodup := by
      intro r hr
      obtain ⟨l, hl, rfl⟩ := List.mem_map.mp hr
      exact (hs.held l hl).nodup
    obtain ⟨s, hcovers, hmerge⟩ := merge_covers (by simpa [hlen] using hn)
      (by simpa [hlen] using hle) hnodup
    rw [hmerge] at hresult
    cases hresult
    simp [hcovers.ok]

/-- A shard that returns with a failed check has found one that fails. -/
theorem not_checksHold {m : StateMachineModel St}
    (hr : (machine mesh m).Reachable (initial mesh) c) {l : Local St K} (hl : l ∈ c.locals)
    (hret : l.pc = .returned) (hok : ¬ l.result.ok = true) : ¬ ChecksHold m := by
  intro hchecks
  have hheld := (sound_reachable hr).held l hl
  have hhonest := (honest_reachable hr l hl).ok (by rw [hret]; rfl)
  refine hok (hhonest.mpr ⟨?_, ?_⟩)
  · by_contra hne
    obtain ⟨κ, hκ⟩ := List.exists_mem_of_ne_nil _ hne
    obtain ⟨hreach, hfail⟩ := hheld.rejected κ hκ
    rw [(hchecks _ hreach).1] at hfail
    cases hfail
  · intro e he
    obtain ⟨hreach, ho⟩ := hheld.outcomes e he
    exact (hchecks _ hreach).2 _ _ ho

/-- **When the stepwise invariants are enforced**: for every model and every run of `check_model`
    that has a result, on one or more shards, the result agrees with the hook on the transitions
    executed if and only if the hook holds on every transition out of a reachable state, or
    `check_invariants` fails on one of them or on a reachable state. -/
theorem stepwise_enforced_iff (mesh : Mesh St) (m : StepwiseModel St)
    (c : Conf (Shared St K) (Local St K)) (r : Result) (visited : List St)
    (hn : 0 < mesh.shardCount)
    (hr : (machine mesh m.toStateMachineModel).Reachable (initial mesh) c)
    (hret : ∀ l ∈ c.locals, l.pc = .returned) (hresult : checkModel c = some (r, visited)) :
    Enforced m c r ↔ (StepwiseHolds m ∨ ¬ ChecksHold m.toStateMachineModel) := by
  have hok := checkModel_ok hr hn hresult
  by_cases hall : r.ok = true
  · -- every transition out of a reachable state has been executed
    have hsettled := settled_of_allOk hr hn fun l hl => ⟨hret l hl, hok.mp hall l hl⟩
    constructor
    · intro henforced
      refine .inl fun x hx ds raw ho => ?_
      obtain ⟨l, hl, he⟩ := hsettled.executed (hsettled.arrives hx) ho
      exact henforced.ok hall l hl _ he
    · rintro (hholds | hfails)
      · have hpasses : ∀ l ∈ c.locals, ∀ e ∈ l.executed, m.checkStepwiseInvariants e = true := by
          intro l hl e he
          obtain ⟨hreach, ho⟩ := (hsettled.explored.sound.held l hl).outcomes e he
          exact hholds _ hreach _ _ ho
        refine ⟨fun _ => hpasses, ?_⟩
        rintro ⟨l, hl, e, he, hfalse⟩
        rw [hpasses l hl e he] at hfalse
        cases hfalse
      · exact absurd hsettled.checksHold hfails
  · obtain ⟨l, hl, hfail⟩ : ∃ l ∈ c.locals, ¬ l.result.ok = true := by
      by_contra hnone
      push Not at hnone
      exact hall (hok.mpr hnone)
    refine iff_of_true ⟨fun h => absurd h hall, fun _ => by simpa using hall⟩ (.inr ?_)
    exact not_checksHold hr hl (hret l hl) hfail

/-! ## A switch that must not be set twice -/

/-- `toggle` with the default hook. -/
def toggleDefault : StepwiseModel Bool := { toggle with }

/-- `toggle`, where no step may leave the switch as it is. -/
def toggleAlternates : StepwiseModel Bool :=
  { toggle with checkStepwiseInvariants := fun e => e.raw != e.snapshot }

theorem stepwise_enforced_iff_toggleDefault :
    ∃ (c : Conf (Shared Bool 1) (Local Bool 1)) (r : Result) (visited : List Bool),
      (machine oneShard toggleDefault.toStateMachineModel).run (List.replicate 53 (0, .run))
        (initial oneShard) = some c ∧
      checkModel c = some (r, visited) ∧ Enforced toggleDefault c r := by
  have hrun : ((machine oneShard toggleDefault.toStateMachineModel).run
      (List.replicate 53 (0, .run))
      (initial oneShard : Conf (Shared Bool 1) (Local Bool 1))).map
        (fun c => c.locals.all Local.returnedOk) = some true := by
    decide
  obtain ⟨c, hc, hall⟩ := Option.map_eq_some_iff.mp hrun
  obtain ⟨l, hl⟩ := List.length_eq_one_iff.mp (basic_reachable ⟨_, hc⟩).shards
  have hresult : checkModel c = some (l.result, l.visited) := by
    unfold checkModel
    rw [hl]
  refine ⟨c, _, _, hc, hresult, ?_⟩
  exact (stepwise_enforced_iff oneShard toggleDefault c _ _ (by decide) ⟨_, hc⟩
    (fun l hl => (allOk_of_all hall l hl).1) hresult).mpr (.inl fun _ _ _ _ _ => rfl)

/-- **A violated hook goes unnoticed**: the run of `check_model` executes a step that leaves the
    switch as it is, and its result is ok. -/
theorem violated_hook_unnoticed :
    ∃ (c : Conf (Shared Bool 1) (Local Bool 1)) (l : Local Bool 1),
      (machine oneShard toggleAlternates.toStateMachineModel).run (List.replicate 53 (0, .run))
        (initial oneShard) = some c ∧
      c.locals = [l] ∧ l.pc = .returned ∧ checkModel c = some (l.result, l.visited) ∧
      l.result.ok = true ∧ ∃ e ∈ l.executed, toggleAlternates.checkStepwiseInvariants e = false := by
  have hrun : ((machine oneShard toggleAlternates.toStateMachineModel).run
      (List.replicate 53 (0, .run))
      (initial oneShard : Conf (Shared Bool 1) (Local Bool 1))).map
        (fun c => c.locals.all fun l =>
          l.returnedOk && l.executed.any fun e => !toggleAlternates.checkStepwiseInvariants e) =
          some true := by
    decide
  obtain ⟨c, hc, hall⟩ := Option.map_eq_some_iff.mp hrun
  obtain ⟨l, hl⟩ := List.length_eq_one_iff.mp (basic_reachable ⟨_, hc⟩).shards
  rw [hl] at hall
  simp only [List.all_cons, List.all_nil, Bool.and_true, Bool.and_eq_true, List.any_eq_true,
    Bool.not_eq_true'] at hall
  obtain ⟨hreturned, hviolated⟩ := hall
  obtain ⟨hret, hok⟩ := allOk_of_all (c := c) (by simp [hl, hreturned]) l (by simp [hl])
  refine ⟨c, l, hc, hl, hret, ?_, hok, hviolated⟩
  unfold checkModel
  rw [hl]

end Batt.Checker
