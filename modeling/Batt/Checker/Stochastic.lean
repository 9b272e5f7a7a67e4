/-
  `StochasticModelChecker` (`state_machine_model/stochastic_model_checker.hpp`) beside the
  exhaustive one.

  The random engine is a parameter, and so is the number of turns that the loop of `run` makes
  before its time is up. A `BATT_CHECK` that fails is an error with its name. A turn runs
  `step()` from the current state with the values drawn (`stepModel`) and goes on from where it
  led, or from the initial state when nothing was picked or nothing has changed
  (`turn_of_outcome`).

  An exhaustive run on one shard that returned `ok` has made every sequence of choices of every
  reachable state, so these choices fit into a `RadixQueue` in whatever order they are drawn
  (`Settled.covered`). What it does not ask for is that a step without a choice leads nowhere.
-/
import Batt.Checker.Returns
import Batt.RadixQueue.Congruence
import Mathlib.Logic.Relation

namespace Batt.Checker

open Interleave Choice RadixQueue

variable {St R : Type} {K : Nat} {delta : RadixQueue K} {done : List Digit} {x raw : St}

/-! ## The checker -/

/-- `std::default_random_engine` under `std::uniform_int_distribution<usize>`. -/
structure RandomEngine (R : Type) where
  seed : Nat → R
  uniformInt : (minValue maxValue : Nat) → R → Nat × R
  inRange : ∀ minValue maxValue rng, minValue ≤ maxValue →
    minValue ≤ (uniformInt minValue maxValue rng).1 ∧
      (uniformInt minValue maxValue rng).1 ≤ maxValue

structure StochasticModelChecker (R : Type) where
  engine : RandomEngine R
  nShards : Nat
  shardI : Nat
  startingSeed : Option Nat := none

inductive StochasticCheck where
  /-- `BATT_CHECK_LT(min_value, max_value)` -/
  | pickRange
  /-- A check of `RadixQueue::push`. -/
  | push
  /-- `BATT_CHECK(branch_delta_.empty())` after it was cleared. -/
  | deltaCleared
  /-- `BATT_CHECK_EQ(branch_delta_ == BranchDelta{}, branch_delta_.empty())` -/
  | deltaEqual
  /-- `BATT_CHECK_IMPLIES(branch_delta_.empty(), current_state == next_state)` -/
  | unchanged
  deriving DecidableEq, Repr

structure StochasticResult extends Result where
  seed : Option Nat := none
  deriving DecidableEq, Repr

/-- The loop variables of `run`, and the members it changes. -/
structure Walk (St : Type) (K : Nat) (R : Type) where
  currentState : St
  seed : Nat
  rng : R
  branchDelta : RadixQueue K
  visited : List St
  result : StochasticResult

/-- The entropy source. -/
def RandomEngine.pickInt (e : RandomEngine R) (minValue maxValue : Nat) (delta : RadixQueue K)
    (rng : R) : Except StochasticCheck (Nat × RadixQueue K × R) :=
  if minValue = maxValue then .ok (minValue, delta, rng)
  else if minValue < maxValue then
    let drawn := e.uniformInt minValue maxValue rng
    match delta.push ((maxValue - minValue + 1) % 2 ^ 64) (drawn.1 - minValue) with
    | some delta' => .ok (drawn.1, delta', drawn.2)
    | none => .error .push
  else .error .pickRange

/-- The model's `step()`. -/
def RandomEngine.stepModel (e : RandomEngine R) :
    Prog St → RadixQueue K → R → Except StochasticCheck (St × RadixQueue K × R)
  | .ret raw, delta, rng => .ok (raw, delta, rng)
  | .pick minValue maxValue next, delta, rng =>
    (e.pickInt minValue maxValue delta rng).bind fun picked =>
      e.stepModel (next picked.1) picked.2.1 picked.2.2

section

variable [NeZero K] [DecidableEq St] (k : StochasticModelChecker R) (m : StateMachineModel St)

/-- `visit`, which counts a state that is new. -/
def Walk.visit (w : Walk St K R) (x : St) : Walk St K R :=
  if x ∈ w.visited then w
  else { w with
    visited := w.visited ++ [x]
    result := { w.result with stateCount := w.result.stateCount + 1 } }

/-- Back to the initial state, with a new seed. -/
def restart (w : Walk St K R) : Walk St K R :=
  { w with
    currentState := m.normalize m.initialState
    seed := (w.seed + k.nShards) % 2 ^ 64
    rng := k.engine.seed ((w.seed + k.nShards) % 2 ^ 64) }

def Walk.goOn (w : Walk St K R) (nextState : St) : Walk St K R :=
  { w with
    currentState := nextState
    result := { w.result with
      branchPushCount := w.result.branchPushCount + 1
      branchPopCount := w.result.branchPopCount + 1
      selfBranchCount := w.result.selfBranchCount + 1 } }

/-- The end of a turn, from the test for a terminal state on. -/
def endTurn (w : Walk St K R) (nextState : St) : Except StochasticCheck (Walk St K R) :=
  if w.branchDelta.equal .new ≠ w.branchDelta.empty then .error .deltaEqual
  else if w.branchDelta.empty ∧ w.currentState ≠ nextState then .error .unchanged
  else if w.branchDelta.equal .new ∨ w.currentState = nextState then .ok (restart k m w)
  else .ok (w.goOn nextState)

/-- One turn of the loop of `run`; whether the loop goes on after it. -/
def turn (w : Walk St K R) : Except StochasticCheck (Walk St K R × Bool) :=
  if (new : RadixQueue K).empty then
    (k.engine.stepModel (m.step w.currentState) (new : RadixQueue K) w.rng).bind fun left =>
      let stepped := { w with branchDelta := left.2.1, rng := left.2.2 }
      if m.checkInvariants left.1 then
        (endTurn k m (stepped.visit (m.normalize left.1)) (m.normalize left.1)).map (·, true)
      else
        .ok ({ stepped with result := { w.result with ok := false, seed := some w.seed } }, false)
  else .error .deltaCleared

/-- `run`, up to its loop. -/
def start : Walk St K R where
  currentState := m.normalize m.initialState
  seed := k.startingSeed.getD k.shardI
  rng := k.engine.seed (k.startingSeed.getD k.shardI)
  branchDelta := .new
  visited := [m.normalize m.initialState]
  result := { ok := true, stateCount := 1 }

def loop : Nat → Walk St K R → Except StochasticCheck (Walk St K R)
  | 0, w => .ok w
  | turns + 1, w =>
    (turn k m w).bind fun after => if after.2 then loop turns after.1 else .ok after.1

/-- `run()`, where the time is up after this many turns. -/
def StochasticModelChecker.run (turns : Nat) : Except StochasticCheck (Walk St K R) :=
  loop k m turns (start k m)

end

/-! ## What a returned exhaustive run has packed -/

section

variable [NeZero K] {l l' : Local St K} {mesh : Mesh St}

/-- The queue after pushing the choices into a new one. -/
def Packed (ds : List Digit) (q : RadixQueue K) : Prop :=
  (new : RadixQueue K).pushAll ds = some q ∧ Encodes q ds

/-- Every beginning of a run of the program, after the choices `done`, belongs to a run whose
    choices fit into the queue. -/
def Covered (K : Nat) [NeZero K] (p : Prog St) (done : List Digit) : Prop :=
  ∀ ds, Follows p ds → ∃ es raw, Outcome p (ds ++ es) raw ∧
    ∃ q : RadixQueue K, Packed (done ++ (ds ++ es)) q

/-- The choices of every finished call of `step()` fit into a new queue. -/
structure Local.Tried (l : Local St K) : Prop where
  roomy : l.Roomy
  executed : ∀ e ∈ l.executed, ∃ q : RadixQueue K, Packed e.choices q

theorem Queued.tried {b : Branch St K} {caller : ExploreCaller St K} (h : Queued mesh l b caller l')
    (hl : l.Tried) : l'.Tried := by
  obtain ⟨_, _, _, rfl⟩ := h
  exact ⟨hl.roomy, hl.executed⟩

theorem Buffered.tried {force : Bool} {b : Branch St K} {caller : ExploreCaller St K}
    (h : Buffered mesh force l b caller l') (hl : l.Tried) :
    l'.Tried := by
  obtain ⟨_, _, _, rfl⟩ := h
  exact ⟨hl.roomy, hl.executed⟩

/-- What has been pushed to the history fits into a new queue as well. -/
theorem Local.Roomy.push (h : l.Roomy) {radix value : Nat} {history : RadixQueue K}
    (hpush : l.history.push radix value = some history) (hhistory : l'.history = history)
    (hchosen : l'.chosen = l.chosen ++ [⟨radix, value⟩]) : l'.Roomy := by
  obtain ⟨q, hq, hlive⟩ := h
  obtain ⟨q', hq', hlive'⟩ := push_of_live hlive.symm hpush
  refine ⟨q', ?_, by rw [hhistory, hlive']⟩
  rw [hchosen, pushAll_append, hq, Option.bind_some, pushAll, hq']
  rfl

/-- A call that returns has packed its choices. -/
theorem Local.Tried.leave (h : l.Tried) {current : Branch St K}
    (hpc : l.pc = .step current (.ret raw)) (hdata : l.pc.Data l) :
    ∀ e ∈ l.executed ++ [⟨current.snapshot, l.chosen, raw⟩],
      ∃ q : RadixQueue K, Packed e.choices q := by
  rw [hpc] at hdata
  obtain ⟨_, _, hencodes⟩ := hdata
  obtain ⟨q, hq, hlive⟩ := h.roomy
  exact List.forall_mem_append.mpr
    ⟨h.executed, List.forall_mem_singleton.mpr ⟨q, hq, hencodes.congr hlive⟩⟩

variable [DecidableEq St] {m : StateMachineModel St}

theorem tried_trans {sh sh' : Shared St K} (h : l.Tried) (hdata : l.pc.Data l)
    (ht : Trans mesh m sh l sh' l') :
    l'.Tried := by
  have hclear : ∀ k : Local St K, k.history = l.history.clear → k.chosen = [] → k.Roomy := by
    intro k hhistory hchosen
    refine ⟨new, by rw [hchosen]; rfl, ?_⟩
    rw [hhistory, live_new, live_clear]
  cases ht with
  | seed _ _ send => exact send.tried h
  | enter | reject => exact ⟨hclear _ rfl rfl, h.executed⟩
  | replay _ _ _ _ _ _ _ _ _ _ _ _ _ hpush => exact ⟨h.roomy.push hpush rfl rfl, h.executed⟩
  | lowest _ _ _ _ _ _ _ _ hpush => exact ⟨h.roomy.push hpush rfl rfl, h.executed⟩
  | sibling _ _ _ _ _ _ _ _ _ _ send =>
    rcases send with hq | hb
    · exact hq.tried h
    · exact hb.tried h
  | violated _ _ at_ => exact ⟨h.roomy, h.leave at_ hdata⟩
  | known _ _ _ at_ => exact ⟨h.roomy, h.leave at_ hdata⟩
  | discover current raw l₁ _ at_ _ _ hl₁ send =>
    have hleft : l₁.Tried := by
      subst hl₁
      exact ⟨h.roomy, h.leave at_ hdata⟩
    rcases send with hq | hb
    · exact hq.tried hleft
    · exact hb.tried hleft
  | _ => exact ⟨h.roomy, h.executed⟩

theorem tried_reachable {c : Conf (Shared St K) (Local St K)}
    (h : (machine mesh m).Reachable (initial mesh) c) : ∀ l ∈ c.locals, l.Tried := by
  refine Machine.invariant_reachable (I := fun c => ∀ l ∈ c.locals, l.Tried) ?_ ?_ h
  · intro c i a c' hr hi hf
    obtain ⟨l, sh', l', hl, ht, rfl⟩ := fire_trans hf
    have hmem := List.mem_of_getElem? hl
    exact forall_set (tried_trans (hi l hmem) ((sound_reachable hr).data l hmem) ht)
      fun j k _ hj => hi k (List.mem_of_getElem? hj)
  · intro l hl
    obtain ⟨i, _, rfl⟩ := List.mem_map.mp hl
    exact ⟨⟨new, rfl, rfl⟩, by simp⟩

/-- **Whatever is drawn fits**: a run that has returned with `ok` everywhere has gone through
    all choices of the reachable states. -/
theorem Settled.covered {c : Conf (Shared St K) (Local St K)} (h : Settled mesh m c)
    (ht : ∀ l ∈ c.locals, l.Tried) (hx : m.Reach x) :
    Covered K (m.step x) [] := by
  intro ds hds
  obtain ⟨zs, hz, heq⟩ := exists_lowest ds
  have hbranch : IsBranch (m.step x) (stem ds) := by
    refine ⟨?_, stem_stem ds⟩
    rw [heq] at hds
    exact follows_append hds
  obtain ⟨l, hl, ⟨y, cs, raw⟩, he, hkey⟩ := h.rerun (h.arrives hx) hbranch
  obtain ⟨rfl, hstem⟩ := Prod.mk.inj hkey
  simp only at hstem
  have houtcome : Outcome (m.step y) cs raw := ((h.explored.sound.held l hl).outcomes _ he).2
  -- the rerun of the branch goes by way of `ds`
  have hfinish : finish (m.step y) ds [] = .some (cs, raw) := by
    rw [heq] at hds
    rw [heq, finish_append_lowest hds hz, ← hstem]
    exact (finish_stem houtcome).2
  obtain ⟨es, _, hcs, ho⟩ := outcome_of_finish hds hfinish
  rw [List.nil_append] at hcs
  exact ⟨es, raw, ho, hcs ▸ (ht l hl).executed _ he⟩

end

/-! ## A call of `step()` -/

section

variable [NeZero K] {next : Nat → Prog St}

theorem pushAll_nil : (new : RadixQueue K).pushAll [] = some new := rfl

/-- The choices up to some point of a run are packed one by one. -/
theorem pushed_of_packed {es : List Digit} {d : Digit} {q : RadixQueue K}
    (h : Packed (done ++ d :: es) q) (hdelta : (new : RadixQueue K).pushAll done = some delta) :
    ∃ delta', delta.push d.radix d.value = some delta' ∧
      (new : RadixQueue K).pushAll (done ++ [d]) = some delta' := by
  have hall := h.1
  rw [pushAll_append, hdelta, Option.bind_some, pushAll] at hall
  obtain ⟨delta', hpush, _⟩ := Option.bind_eq_some_iff.mp hall
  refine ⟨delta', hpush, ?_⟩
  rw [pushAll_append, hdelta, Option.bind_some, pushAll, hpush]
  rfl

theorem Covered.only {lo : Nat} (h : Covered K (.pick lo lo next) done) :
    Covered K (next lo) done := by
  intro ds hds
  obtain ⟨es, raw, ho, hq⟩ := h ds (by rw [follows_pick, if_pos rfl]; exact hds)
  refine ⟨es, raw, ?_, hq⟩
  generalize ds ++ es = cs at ho
  cases ho with
  | only ho => exact ho
  | pick hlt => exact absurd hlt (Nat.lt_irrefl _)

/-- One pick of a covered program: the range is one, and each value from it fits. -/
theorem Covered.pick {lo hi : Nat} (h : Covered K (.pick lo hi next) done) (hne : lo ≠ hi)
    (hdelta : (new : RadixQueue K).pushAll done = some delta) :
    lo < hi ∧ hi - lo + 1 ≤ maxU64 ∧ ∀ v, v < hi - lo + 1 →
      Covered K (next (lo + v)) (done ++ [⟨hi - lo + 1, v⟩]) ∧
      ∃ delta', delta.push (hi - lo + 1) v = some delta' ∧
        (new : RadixQueue K).pushAll (done ++ [⟨hi - lo + 1, v⟩]) = some delta' := by
  have hlt : lo < hi := by
    obtain ⟨es, raw, ho, _⟩ := h [] (follows_nil _)
    cases ho with
    | only => exact absurd rfl hne
    | pick hlt => exact hlt
  -- the run that goes on by a value and the choices after it
  have hgo : ∀ v ds, v < hi - lo + 1 → Follows (next (lo + v)) ds → ∃ es raw,
      Outcome (next (lo + v)) (ds ++ es) raw ∧
      ∃ q : RadixQueue K, Packed (done ++ ⟨hi - lo + 1, v⟩ :: (ds ++ es)) q := by
    intro v ds hv hds
    obtain ⟨es, raw, ho, hq⟩ := h (⟨hi - lo + 1, v⟩ :: ds) (by
      rw [follows_pick, if_neg hne]
      exact ⟨hlt, rfl, hv, hds⟩)
    cases ho with
    | only => exact absurd rfl hne
    | pick _ _ ho => exact ⟨es, raw, ho, hq⟩
  refine ⟨hlt, ?_, fun v hv => ⟨fun ds hds => ?_, ?_⟩⟩
  · obtain ⟨es, _, _, q, hq⟩ := hgo 0 [] (by omega) (follows_nil _)
    exact hq.2.radix_le (d := ⟨hi - lo + 1, 0⟩) (by simp)
  · obtain ⟨es, raw, ho, hq⟩ := hgo v ds hv hds
    exact ⟨es, raw, ho, by rwa [List.append_assoc, List.singleton_append]⟩
  · obtain ⟨es, _, _, q, hq⟩ := hgo v [] hv (follows_nil _)
    exact pushed_of_packed hq hdelta

/-- What the entropy source does with a pick of a covered program. -/
theorem Covered.pickInt {lo hi : Nat} (h : Covered K (.pick lo hi next) done) (hne : lo ≠ hi)
    (hdelta : (new : RadixQueue K).pushAll done = some delta) (e : RandomEngine R) (rng : R) :
    lo < hi ∧ ∃ v rng' delta', v < hi - lo + 1 ∧ e.uniformInt lo hi rng = (lo + v, rng') ∧
      e.pickInt lo hi delta rng = .ok (lo + v, delta', rng') ∧
      Covered K (next (lo + v)) (done ++ [⟨hi - lo + 1, v⟩]) ∧
      (new : RadixQueue K).pushAll (done ++ [⟨hi - lo + 1, v⟩]) = some delta' := by
  obtain ⟨hlt, hword, hfits⟩ := h.pick hne hdelta
  obtain ⟨hmin, hmax⟩ := e.inRange lo hi rng (by omega)
  obtain ⟨hcov, delta', hpush, hpushed⟩ :=
    hfits ((e.uniformInt lo hi rng).1 - lo) (by omega)
  have hvalue : lo + ((e.uniformInt lo hi rng).1 - lo) = (e.uniformInt lo hi rng).1 := by omega
  have hradix : (hi - lo + 1) % 2 ^ 64 = hi - lo + 1 := by
    unfold maxU64 at hword
    exact Nat.mod_eq_of_lt (by omega)
  refine ⟨hlt, _, (e.uniformInt lo hi rng).2, delta', by omega, by rw [hvalue], ?_, hcov, hpushed⟩
  unfold RandomEngine.pickInt
  rw [if_neg hne, if_pos hlt]
  simp only [hradix, hpush, hvalue]

omit [NeZero K] in
theorem stepModel_only (e : RandomEngine R) (lo : Nat) (next : Nat → Prog St)
    (delta : RadixQueue K) (rng : R) :
    e.stepModel (.pick lo lo next) delta rng = e.stepModel (next lo) delta rng := by
  rw [RandomEngine.stepModel, RandomEngine.pickInt, if_pos rfl]
  rfl

/-- **A call of `step()` with random values** is one of the outcomes, and the branch delta
    holds its choices. -/
theorem stepModel_covered (e : RandomEngine R) {p : Prog St} (h : Covered K p done)
    (hdelta : (new : RadixQueue K).pushAll done = some delta) (rng : R) :
    ∃ ds raw delta' rng', e.stepModel p delta rng = .ok (raw, delta', rng') ∧
      Outcome p ds raw ∧ Packed (done ++ ds) delta' := by
  induction p generalizing done delta rng with
  | ret raw =>
    obtain ⟨es, _, ho, q, hq⟩ := h [] rfl
    cases ho
    simp only [List.append_nil] at hq
    have hsame : q = delta := Option.some.inj (hq.1.symm.trans hdelta)
    exact ⟨[], raw, delta, rng, rfl, .ret raw, by rw [List.append_nil, ← hsame]; exact hq⟩
  | pick lo hi next ih =>
    by_cases heq : lo = hi
    · subst heq
      obtain ⟨ds, raw, delta', rng', hrun, ho, hq⟩ := ih lo h.only hdelta rng
      exact ⟨ds, raw, delta', rng', by rw [stepModel_only, hrun], .only ho, hq⟩
    · obtain ⟨hlt, v, rng₁, delta₁, hv, _, hpick, hcov, hdelta₁⟩ := h.pickInt heq hdelta e rng
      obtain ⟨ds, raw, delta', rng', hrun, ho, hq⟩ := ih (lo + v) hcov hdelta₁ rng₁
      refine ⟨_, raw, delta', rng', ?_, .pick hlt hv ho, ?_⟩
      · rw [RandomEngine.stepModel, hpick]
        exact hrun
      · rwa [List.append_assoc, List.singleton_append] at hq

end

/-! ## A turn of the loop -/

section

variable [NeZero K] [DecidableEq St] {k : StochasticModelChecker R} {m : StateMachineModel St}
  {w : Walk St K R}

omit [NeZero K] in
@[simp] theorem visit_branchDelta (w : Walk St K R) (x : St) :
    (w.visit x).branchDelta = w.branchDelta := by
  unfold Walk.visit
  split <;> rfl

omit [NeZero K] in
@[simp] theorem visit_currentState (w : Walk St K R) (x : St) :
    (w.visit x).currentState = w.currentState := by
  unfold Walk.visit
  split <;> rfl

omit [NeZero K] in
@[simp] theorem visit_rng (w : Walk St K R) (x : St) : (w.visit x).rng = w.rng := by
  unfold Walk.visit
  split <;> rfl

/-- **What a turn does**, by the choices that `step()` has made. It fails where a step without
    a choice has led to another state, and nowhere else. -/
theorem turn_of_outcome {ds : List Digit} {rng : R}
    (hstep : k.engine.stepModel (m.step w.currentState) (new : RadixQueue K) w.rng =
      .ok (raw, delta, rng))
    (ho : Outcome (m.step w.currentState) ds raw) (hpacked : Packed ds delta)
    (hcheck : m.checkInvariants raw = true) :
    turn k m w =
      let visited := ({ w with branchDelta := delta, rng := rng } : Walk St K R).visit
        (m.normalize raw)
      if ds = [] ∧ w.currentState ≠ m.normalize raw then .error .unchanged
      else if ds = [] ∨ w.currentState = m.normalize raw then .ok (restart k m visited, true)
      else .ok (visited.goOn (m.normalize raw), true) := by
  have hnew : (new : RadixQueue K).empty = true :=
    (delta_empty_iff (follows_nil (m.step w.currentState)) encodes_new).mpr rfl
  have hempty : delta.empty = true ↔ ds = [] := delta_empty_iff ho.follows hpacked.2
  have hequal : delta.equal new = true ↔ ds = [] := by
    rw [equal_iff]
    constructor
    · intro hlive
      exact hempty.mp ((empty_iff delta).mpr ⟨⟨1, 0⟩, hlive.trans live_new, rfl⟩)
    · rintro rfl
      rw [Option.some.inj hpacked.1]
  have hagree : delta.equal new = delta.empty := Bool.eq_iff_iff.mpr (hequal.trans hempty.symm)
  unfold turn
  rw [if_pos hnew, hstep, Except.bind]
  simp only [hcheck, if_true]
  unfold endTurn
  simp only [visit_branchDelta, visit_currentState, hagree, hempty, ne_eq, not_true_eq_false,
    if_false]
  split
  · rfl
  · split <;> rfl

/-- What holds of a run that no check has ended. -/
structure Walk.Sound (m : StateMachineModel St) (w : Walk St K R) : Prop where
  current : m.Reach w.currentState
  visited : ∀ x ∈ w.visited, m.Reach x
  ok : w.result.ok = true

omit [NeZero K] in
theorem Walk.Sound.visit (h : w.Sound m) (hx : m.Reach x) :
    (w.visit x).Sound m := by
  unfold Walk.visit
  split
  · exact h
  · exact ⟨h.current, List.forall_mem_append.mpr ⟨h.visited, List.forall_mem_singleton.mpr hx⟩,
      h.ok⟩

omit [DecidableEq St] in
theorem sound_start : (start k m : Walk St K R).Sound m where
  current := .init
  visited := List.forall_mem_singleton.mpr .init
  ok := rfl

/-- Where a step without a choice leads back, no check fails in a turn. -/
theorem turn_sound (hcovered : ∀ x, m.Reach x → Covered K (m.step x) []) (hchecks : ChecksHold m)
    (hback : ∀ x raw, m.Reach x → Outcome (m.step x) [] raw → m.normalize raw = x)
    (h : w.Sound m) : ∃ w', turn k m w = .ok (w', true) ∧ w'.Sound m := by
  obtain ⟨ds, raw, delta, rng, hstep, ho, hpacked⟩ :=
    stepModel_covered k.engine (hcovered _ h.current) pushAll_nil w.rng
  have hreach : m.Reach (m.normalize raw) := .step h.current ho
  have hcheck := (hchecks _ h.current).2 ds raw ho
  have hstepped : ({ w with branchDelta := delta, rng := rng } : Walk St K R).Sound m :=
    ⟨h.current, h.visited, h.ok⟩
  have hvisited := hstepped.visit hreach
  rw [turn_of_outcome hstep ho hpacked hcheck]
  simp only
  split
  · rename_i hmoved
    obtain ⟨rfl, hne⟩ := hmoved
    exact absurd (hback _ raw h.current ho).symm hne
  · split
    · exact ⟨_, rfl, .init, hvisited.visited, hvisited.ok⟩
    · exact ⟨_, rfl, hreach, hvisited.visited, hvisited.ok⟩

theorem loop_sound (hcovered : ∀ x, m.Reach x → Covered K (m.step x) []) (hchecks : ChecksHold m)
    (hback : ∀ x raw, m.Reach x → Outcome (m.step x) [] raw → m.normalize raw = x)
    (turns : Nat) (h : w.Sound m) :
    ∃ w', loop k m turns w = .ok w' ∧ w'.Sound m := by
  induction turns generalizing w with
  | zero => exact ⟨w, rfl, h⟩
  | succ turns ih =>
    obtain ⟨w₁, hturn, h₁⟩ := turn_sound (k := k) hcovered hchecks hback h
    obtain ⟨w', hloop, h'⟩ := ih h₁
    refine ⟨w', ?_, h'⟩
    rw [loop, hturn]
    exact hloop

/-! ## A run to any reachable state -/

/-- The loop gets from one state to the other, and goes on. -/
def Turns (k : StochasticModelChecker R) (m : StateMachineModel St) :
    Walk St K R → Walk St K R → Prop :=
  Relation.ReflTransGen fun w w' => turn k m w = .ok (w', true)

theorem loop_of_turns {w' : Walk St K R} (h : Turns k m w w') :
    ∃ before, ∀ turns, loop k m (before + turns) w = loop k m turns w' := by
  induction h using Relation.ReflTransGen.head_induction_on with
  | refl => exact ⟨0, fun turns => by rw [Nat.zero_add]⟩
  | head hturn _ ih =>
    obtain ⟨before, hbefore⟩ := ih
    refine ⟨before + 1, fun turns => ?_⟩
    rw [Nat.add_right_comm, loop, hturn]
    exact hbefore turns

/-- An engine that gives the values of a list, counted from the lowest. -/
def scripted (script : List Nat) : RandomEngine (List Nat) where
  seed _ := script
  uniformInt minValue maxValue
    | [] => (minValue, [])
    | v :: rest => (minValue + min v (maxValue - minValue), rest)
  inRange := by
    intro minValue maxValue rng hle
    cases rng with
    | nil => exact ⟨Nat.le_refl _, hle⟩
    | cons v rest => exact ⟨Nat.le_add_right _ _, by simp only; omega⟩

def scriptedChecker (script : List Nat) : StochasticModelChecker (List Nat) where
  engine := scripted script
  nShards := 1
  shardI := 0

omit [DecidableEq St] in
/-- The values of an outcome lead to it. -/
theorem stepModel_scripted (script : List Nat) {p : Prog St} {ds : List Digit}
    (ho : Outcome p ds raw) (h : Covered K p done)
    (hdelta : (new : RadixQueue K).pushAll done = some delta) (rest : List Nat) :
    ∃ delta', (scripted script).stepModel p delta (ds.map (·.value) ++ rest) =
      .ok (raw, delta', rest) ∧ Packed (done ++ ds) delta' := by
  induction ho generalizing done delta with
  | ret raw =>
    obtain ⟨_, _, _, _, hrun, ho, hq⟩ := stepModel_covered (scripted script) h hdelta rest
    cases ho
    cases hrun
    exact ⟨_, rfl, hq⟩
  | only ho ih =>
    obtain ⟨delta', hrun, hq⟩ := ih h.only hdelta
    exact ⟨delta', by rw [stepModel_only, hrun], hq⟩
  | @pick lo hi v next ds raw hlt hv ho ih =>
    obtain ⟨_, u, rng, delta₁, _, hdrawn, hpick, hcov, hdelta₁⟩ :=
      h.pickInt (Nat.ne_of_lt hlt) hdelta (scripted script) (v :: (ds.map (·.value) ++ rest))
    -- the value drawn is the first of the list
    have hfirst : (lo + min v (hi - lo), ds.map (·.value) ++ rest) = (lo + u, rng) := hdrawn
    obtain ⟨hu, rfl⟩ := Prod.mk.inj hfirst
    have hsame : u = v := by omega
    subst hsame
    obtain ⟨delta', hrun, hq⟩ := ih hcov hdelta₁
    refine ⟨delta', ?_, by rwa [List.append_assoc, List.singleton_append] at hq⟩
    rw [RandomEngine.stepModel, List.map_cons, List.cons_append, hpick]
    exact hrun

/-- A list of values takes the loop to the state, with any values after it. -/
def Attained (K : Nat) [NeZero K] (m : StateMachineModel St) (x : St) : Prop :=
  ∃ script, ∀ rest, ∃ w : Walk St K (List Nat),
    Turns (scriptedChecker (script ++ rest)) m (start (scriptedChecker (script ++ rest)) m) w ∧
      w.currentState = x ∧ w.rng = rest

/-- No check fails in any run, so a step without a choice leads back. -/
theorem back_of_attained (hcovered : ∀ x, m.Reach x → Covered K (m.step x) [])
    (hchecks : ChecksHold m)
    (hruns : ∀ (k : StochasticModelChecker (List Nat)) (turns : Nat),
      ∃ w : Walk St K (List Nat), k.run m turns = .ok w)
    (hx : m.Reach x) (ha : Attained K m x) (ho : Outcome (m.step x) [] raw) :
    m.normalize raw = x := by
  by_contra hne
  obtain ⟨script, hscript⟩ := ha
  obtain ⟨w, hturns, rfl, hrng⟩ := hscript []
  obtain ⟨delta, hstep, hpacked⟩ := stepModel_scripted (script ++ []) ho (hcovered _ hx)
    pushAll_nil w.rng
  have hfails : turn (scriptedChecker (script ++ [])) m w = .error .unchanged := by
    rw [turn_of_outcome hstep ho hpacked ((hchecks _ hx).2 [] raw ho)]
    exact if_pos ⟨rfl, Ne.symm hne⟩
  obtain ⟨before, hbefore⟩ := loop_of_turns hturns
  obtain ⟨w', hrun⟩ := hruns (scriptedChecker (script ++ [])) (before + 1)
  unfold StochasticModelChecker.run at hrun
  rw [hbefore, loop, hfails] at hrun
  cases hrun

/-- **Every reachable state is reached by some values**, unless a check fails. -/
theorem attained_of_reach (hcovered : ∀ x, m.Reach x → Covered K (m.step x) [])
    (hchecks : ChecksHold m)
    (hruns : ∀ (k : StochasticModelChecker (List Nat)) (turns : Nat),
      ∃ w : Walk St K (List Nat), k.run m turns = .ok w) (hx : m.Reach x) : Attained K m x := by
  induction hx with
  | init => exact ⟨[], fun rest => ⟨_, .refl, rfl, rfl⟩⟩
  | @step x raw ds hx ho ih =>
    by_cases hself : m.normalize raw = x
    · rw [hself]
      exact ih
    · have hne : ds ≠ [] := by
        rintro rfl
        exact hself (back_of_attained hcovered hchecks hruns hx ih ho)
      obtain ⟨script, hscript⟩ := ih
      refine ⟨script ++ ds.map (·.value), fun rest => ?_⟩
      obtain ⟨w, hturns, rfl, hrng⟩ := hscript (ds.map (·.value) ++ rest)
      rw [List.append_assoc]
      generalize script ++ (ds.map (·.value) ++ rest) = values at hturns
      obtain ⟨delta, hrest, hpacked⟩ := stepModel_scripted values ho (hcovered _ hx)
        pushAll_nil rest
      have hstep : (scriptedChecker values).engine.stepModel (m.step w.currentState)
          (new : RadixQueue K) w.rng = .ok (raw, delta, rest) := by
        rw [hrng]
        exact hrest
      have hturn : ∃ w', turn (scriptedChecker values) m w = .ok (w', true) ∧
          w'.currentState = m.normalize raw ∧ w'.rng = rest := by
        rw [turn_of_outcome hstep ho hpacked ((hchecks _ hx).2 ds raw ho)]
        simp only [hne, false_and, if_false, false_or, if_neg (Ne.symm hself)]
        exact ⟨_, rfl, rfl, visit_rng _ _⟩
      obtain ⟨w', hturn, hcurrent, hleft⟩ := hturn
      exact ⟨w', hturns.tail hturn, hcurrent, hleft⟩

end

/-! ## The two checkers -/

/-- **Random checking agrees with exhaustive checking exactly where nothing moves on its own.**
    Take a model that the exhaustive checker has passed on a single shard. In every run of the
    stochastic checker, whatever is drawn, no check fails, no violation is reported and the
    states visited are among those of the exhaustive run, if and only if each reachable state
    is kept by every run of `step()` that picks from no range of more than one value. -/
theorem stochastic_agrees_iff [NeZero K] [DecidableEq St] (mesh : Mesh St)
    (m : StateMachineModel St) (c : Conf (Shared St K) (Local St K)) (l : Local St K)
    (hone : mesh.shardCount = 1) (hr : (machine mesh m).Reachable (initial mesh) c)
    (hl : c.locals = [l]) (hret : l.pc = .returned) (hok : l.result.ok = true) :
    (∀ (R : Type) (k : StochasticModelChecker R) (turns : Nat), ∃ w : Walk St K R,
      k.run m turns = .ok w ∧ w.result.ok = true ∧ ∀ x ∈ w.visited, x ∈ l.visited) ↔
    ∀ x raw, m.Reach x → Outcome (m.step x) [] raw → m.normalize raw = x := by
  have hsettled : Settled mesh m c := settled_of_allOk hr (by omega) fun j hj => by
    rw [hl] at hj
    rw [List.mem_singleton.mp hj]
    exact ⟨hret, hok⟩
  have hcovered : ∀ x, m.Reach x → Covered K (m.step x) [] := fun x hx =>
    hsettled.covered (tried_reachable hr) hx
  have hvisited : ∀ x, m.Reach x → x ∈ l.visited := by
    intro x hx
    obtain ⟨j, hj, hmem⟩ := (hsettled.visited_iff x).mpr hx
    rw [hl] at hj
    rwa [List.mem_singleton.mp hj] at hmem
  have hchecks := hsettled.checksHold
  constructor
  · intro hall x raw hx ho
    have hruns : ∀ (k : StochasticModelChecker (List Nat)) (turns : Nat),
        ∃ w : Walk St K (List Nat), k.run m turns = .ok w := by
      intro k turns
      obtain ⟨w, hrun, _⟩ := hall (List Nat) k turns
      exact ⟨w, hrun⟩
    exact back_of_attained hcovered hchecks hruns hx
      (attained_of_reach hcovered hchecks hruns hx) ho
  · intro hback R k turns
    obtain ⟨w, hrun, hsound⟩ := loop_sound hcovered hchecks hback turns (sound_start (k := k))
    exact ⟨w, hrun, hsound.ok, fun x hx => hvisited x (hsound.visited x hx)⟩

theorem stochastic_agrees_toggle :
    ∃ (c : Conf (Shared Bool 4) (Local Bool 4)) (l : Local Bool 4),
      (machine oneShard toggle).run (List.replicate 53 (0, .run)) (initial oneShard) = some c ∧
      c.locals = [l] ∧ l.pc = .returned ∧
      ∀ (R : Type) (k : StochasticModelChecker R) (turns : Nat), ∃ w : Walk Bool 4 R,
        k.run toggle turns = .ok w ∧ w.result.ok = true ∧ ∀ x ∈ w.visited, x ∈ l.visited := by
  have hrun : ((machine oneShard toggle).run (List.replicate 53 (0, .run))
      (initial oneShard : Conf (Shared Bool 4) (Local Bool 4))).map
        (fun c => c.locals.all Local.returnedOk) = some true := by
    decide
  obtain ⟨c, hc, hall⟩ := Option.map_eq_some_iff.mp hrun
  obtain ⟨l, hl⟩ := List.length_eq_one_iff.mp (basic_reachable ⟨_, hc⟩).shards
  obtain ⟨hret, hok⟩ := allOk_of_all hall l (by rw [hl]; simp)
  refine ⟨c, l, hc, hl, hret, ?_⟩
  refine (stochastic_agrees_iff oneShard toggle c l rfl ⟨_, hc⟩ hl hret hok).mpr ?_
  -- a step of `toggle` always makes a choice
  intro x raw _ ho
  cases ho

/-- A switch that the first step sets, without a choice. -/
def setOnce : StateMachineModel Bool where
  initialState := false
  normalize := id
  step _ := .ret true
  checkInvariants _ := true

/-- **A model that the exhaustive checker passes and the stochastic one cannot check.** The
    first turn of every run fails the check that relates an empty branch delta to an unchanged
    state. -/
theorem set_once_fails :
    ∃ (c : Conf (Shared Bool 4) (Local Bool 4)) (l : Local Bool 4),
      (machine oneShard setOnce).run (List.replicate 39 (0, .run)) (initial oneShard) = some c ∧
      c.locals = [l] ∧ l.pc = .returned ∧ l.result.ok = true ∧
      ∀ (R : Type) (k : StochasticModelChecker R) (turns : Nat),
        k.run setOnce (turns + 1) = (.error .unchanged : Except _ (Walk Bool 4 R)) := by
  have hrun : ((machine oneShard setOnce).run (List.replicate 39 (0, .run))
      (initial oneShard : Conf (Shared Bool 4) (Local Bool 4))).map
        (fun c => c.locals.all Local.returnedOk) = some true := by
    decide
  obtain ⟨c, hc, hall⟩ := Option.map_eq_some_iff.mp hrun
  obtain ⟨l, hl⟩ := List.length_eq_one_iff.mp (basic_reachable ⟨_, hc⟩).shards
  obtain ⟨hret, hok⟩ := allOk_of_all hall l (by rw [hl]; simp)
  exact ⟨c, l, hc, hl, hret, hok, fun R k turns => rfl⟩

end Batt.Checker
