/-
  One shard.

  A single shard sends nothing after the initial state, so `state_count` is the number of
  visited states once that has arrived (`Counted`). Its `run()` returns (`run_returns`) when
  the reachable states are finitely many and the choices fit: the calls of `step()` end, no
  branch is taken up twice, and where the queue runs empty the only batch is acknowledged and
  the shard closes its own queue.
-/
import Batt.Checker.Report

namespace Batt.Checker

open Interleave Choice RadixQueue

variable {St : Type} {K : Nat} {l l' : Local St K}

/-! ## The number of states -/

def Pc.seeded : Pc St K → Bool
  | .init => false
  | _ => true

/-- The states that the shard has found, the initial one included. -/
def Local.found (l : Local St K) : Nat :=
  if l.pc.begun then l.result.stateCount else if l.pc.seeded then 1 else 0

def one (_ : Branch St K) : Nat := 1

def nonroot (b : Branch St K) : Nat := if b.path = [] then 0 else 1

theorem total_one (bs : List (Branch St K)) : total one bs = bs.length := by
  induction bs with
  | nil => rfl
  | cons b bs ih =>
    rw [total_cons, ih, List.length_cons, one]
    omega

theorem found_congr (hb : l'.pc.begun = l.pc.begun) (hs : l'.pc.seeded = l.pc.seeded)
    (hr : l'.result.stateCount = l.result.stateCount) :
    l'.found = l.found := by
  unfold Local.found
  rw [hb, hs, hr]

theorem explore_resume_seeded (caller : ExploreCaller St K) : caller.resume.seeded = true := by
  cases caller <;> rfl

theorem push_resume_seeded (caller : PushCaller St K) : caller.resume.seeded = true := by
  cases caller with
  | send caller => exact explore_resume_seeded caller
  | flushAll => rfl

theorem jump_seeded {sh : Shared St K} {pc pc' : Pc St K} (hj : Jump sh l pc pc') :
    pc.seeded = true ∧ pc'.seeded = true := by
  cases hj with
  | notStalled _ caller => exact ⟨rfl, explore_resume_seeded caller⟩
  | flushDone _ caller => cases caller <;> exact ⟨rfl, rfl⟩
  | _ => exact ⟨rfl, rfl⟩

section

variable [NeZero K] [DecidableEq St] {m : StateMachineModel St} {mesh : Mesh St}

/-- What a step does to the number of states found. -/
theorem trans_found {sh sh' : Shared St K} (ht : Trans mesh m sh l sh' l') :
    (l'.found = l.found ∧ l.pc.seeded = true ∧
        (l'.visited = l.visited ∨ l.view.running = none)) ∨
      (l.pc = .init ∧ l'.found = l.found + 1 ∧ sh' = sh ∧
        Buffered mesh true l (.root (m.normalize m.initialState)) .initial l') ∨
      (l'.found = l.found + 1 ∧ l'.visited.length = l.visited.length + 1 ∧
        l.view.running ≠ none) := by
  -- a step from `pc` to `pc'` in the same phase finds nothing
  have hsame : ∀ {pc : Pc St K}, l.pc = pc → pc.seeded = true → l'.pc.begun = pc.begun →
      l'.pc.seeded = true → l'.result.stateCount = l.result.stateCount →
      l'.found = l.found ∧ l.pc.seeded = true := by
    intro pc hpc hs hb hs' hr
    subst hpc
    exact ⟨found_congr hb (hs'.trans hs.symm) hr, hs⟩
  cases ht with
  | jump _ _ _ hj =>
    obtain ⟨hs, hs'⟩ := jump_seeded hj
    obtain ⟨h1, h2⟩ := hsame rfl hs (jump_begun hj) hs' rfl
    exact .inl ⟨h1, h2, .inl rfl⟩
  | seed _ at_ send =>
    refine .inr (.inl ⟨at_, ?_, rfl, send⟩)
    unfold Local.found
    rw [send.cases.2.2, at_]
    rfl
  | discover current raw l₁ _ at_ h hnew hl₁ send =>
    have hl₁found : l₁.found = l.found + 1 := by
      unfold Local.found
      rw [hl₁, at_]
      rfl
    have hvisited : l₁.visited.length = l.visited.length + 1 := by
      rw [hl₁, List.length_append, List.length_singleton]
    have hrun : l.view.running ≠ none := by
      rw [Local.view, at_]
      exact Option.some_ne_none _
    refine .inr (.inr ⟨?_, ?_, hrun⟩)
    · rw [← hl₁found]
      rcases send with hq | hb
      · obtain ⟨_, _, _, rfl⟩ := hq
        exact found_congr (by rw [hl₁]; rfl) (by rw [hl₁]; rfl) rfl
      · obtain ⟨_, _, _, rfl⟩ := hb
        exact found_congr (by rw [hl₁]; rfl) (by rw [hl₁]; rfl) rfl
    · rw [← hvisited]
      rcases send with hq | hb
      · obtain ⟨_, _, _, rfl⟩ := hq
        rfl
      · obtain ⟨_, _, _, rfl⟩ := hb
        rfl
  | sibling _ _ _ _ _ _ _ at_ _ _ send =>
    rcases send with hq | hb
    · obtain ⟨_, _, _, rfl⟩ := hq
      obtain ⟨h1, h2⟩ := hsame at_ rfl rfl rfl rfl
      exact .inl ⟨h1, h2, .inl rfl⟩
    · obtain ⟨_, _, _, rfl⟩ := hb
      obtain ⟨h1, h2⟩ := hsame at_ rfl rfl rfl rfl
      exact .inl ⟨h1, h2, .inl rfl⟩
  | begin at_ =>
    refine .inl ⟨?_, by rw [at_]; rfl, .inl rfl⟩
    unfold Local.found
    rw [at_]
    rfl
  | swap _ _ at_ =>
    rcases at_ with ⟨k, hpc, rfl⟩ | ⟨k, _, _, hpc, rfl, _⟩
    · obtain ⟨h1, h2⟩ := hsame hpc rfl rfl rfl rfl
      exact .inl ⟨h1, h2, .inl rfl⟩
    · obtain ⟨h1, h2⟩ := hsame hpc rfl rfl rfl rfl
      exact .inl ⟨h1, h2, .inl rfl⟩
  | pushLost _ _ caller at_ | pushNotify _ caller at_ =>
    obtain ⟨h1, h2⟩ := hsame at_ rfl (push_resume_begun caller) (push_resume_seeded caller) rfl
    exact .inl ⟨h1, h2, .inl rfl⟩
  | acquire stalled _ at_ =>
    cases stalled
    · obtain ⟨h1, h2⟩ := hsame at_ rfl rfl rfl rfl
      exact .inl ⟨h1, h2, .inl rfl⟩
    · obtain ⟨h1, h2⟩ := hsame at_ rfl rfl rfl rfl
      exact .inl ⟨h1, h2, .inl rfl⟩
  | receive stalled _ _ _ at_ =>
    have hrun : l.view.running = none := by
      rw [Local.view, at_]
      rfl
    cases stalled
    · obtain ⟨h1, h2⟩ := hsame at_ rfl rfl rfl rfl
      exact .inl ⟨h1, h2, .inr hrun⟩
    · obtain ⟨h1, h2⟩ := hsame at_ rfl rfl rfl rfl
      exact .inl ⟨h1, h2, .inr hrun⟩
  | ack at_ pc' hpc =>
    have hpc' : pc'.begun = true ∧ pc'.seeded = true := by
      subst hpc
      split <;> exact ⟨rfl, rfl⟩
    obtain ⟨h1, h2⟩ := hsame at_ rfl hpc'.1 hpc'.2 rfl
    exact .inl ⟨h1, h2, .inl rfl⟩
  | pushAdd _ _ _ at_ | pushEmplace _ _ _ at_ | barrierSub at_ | enter _ _ at_ | reject _ _ at_
  | replay _ _ _ _ _ _ _ at_ | lowest _ _ _ _ _ _ at_ | violated _ _ at_ | known _ _ _ at_
  | close _ at_ | finishedClose at_ | drainAcquire _ at_ | drainPop _ _ _ at_ =>
    obtain ⟨h1, h2⟩ := hsame at_ rfl rfl rfl rfl
    exact .inl ⟨h1, h2, .inl rfl⟩

/-- Nothing is in flight but the initial state, before the shard has received it. -/
structure Counted (sh : Shared St K) (l : Local St K) : Prop where
  count : l.found = l.view.visited.length + flight one sh l
  roots : flight nonroot sh l = 0
  once : flight one sh l ≤ 1
  early : 0 < flight one sh l →
    l.view.queue = [] ∧ l.view.visited = [] ∧ l.view.running = none

omit [NeZero K] [DecidableEq St] in
/-- Once the initial state has been received, no branch leaves the shard. -/
theorem Counted.late {sh sh' : Shared St K} (h : Counted sh l)
    (hlate : l.view.queue ≠ [] ∨ l.view.running ≠ none)
    (hcount : l'.found + l.view.visited.length = l.found + l'.view.visited.length)
    (stay : ∀ w, flight w sh' l' = flight w sh l) : Counted sh' l' := by
  have hzero : flight one sh l = 0 := by
    by_contra hpos
    obtain ⟨h1, _, h2⟩ := h.early (Nat.pos_of_ne_zero hpos)
    rcases hlate with h' | h'
    · exact h' h1
    · exact h' h2
  have := h.count
  refine ⟨?_, (stay _).trans h.roots, ?_, ?_⟩
  · rw [stay]
    omega
  · rw [stay]
    exact h.once
  · intro hpos
    rw [stay] at hpos
    omega

theorem counted_trans {sh sh' : Shared St K} (hone : mesh.shardCount = 1) (hid : l.shardI = 0)
    (hsends : l.sendQueues.length = mesh.shardCount) (hshape : Shape l l.pc)
    (hv : l.view.Held m) (hfly : flight (illFormed m) sh l = 0) (h : Counted sh l)
    (ht : Trans mesh m sh l sh' l') (hf : Flow mesh m sh l sh' l') : Counted sh' l' := by
  have hcount := h.count
  rcases trans_found ht with ⟨hfound, hseeded, hvisited⟩ | ⟨hpc, hfound, rfl, send⟩ |
    ⟨hfound, hvisited, hrun⟩
  · cases hf with
    | idle view stay =>
      refine ⟨?_, (stay _).trans h.roots, (stay _).symm ▸ h.once, ?_⟩
      · rw [hfound, view, stay]
        exact hcount
      · rw [view, stay]
        exact h.early
    | seed at_ =>
      rw [at_] at hseeded
      cases hseeded
    | enter b rest hqueue _ _ _ view stay | reject b rest hqueue _ _ _ view stay =>
      exact h.late (.inl (by rw [hqueue]; simp)) (by rw [hfound, view]) stay
    | keep b rest hfuture _ _ view stay =>
      refine h.late (.inr fun hnone => ?_) (by rw [hfound, view]) stay
      rw [(hv.midway.rest hnone).2] at hfuture
      cases hfuture
    | leave e hrun _ _ view stay =>
      exact h.late (.inr (by rw [hrun]; simp)) (by rw [hfound, view]) stay
    | send b rest _ _ remote inRange => omega
    | discoverSend e _ _ _ _ remote inRange => omega
    | discoverKeep e hrun _ _ _ _ view =>
      rcases hvisited with hvis | hnone
      · have hlen := congrArg (fun v : View St K => v.visited.length) view
        simp only [List.length_append, List.length_singleton] at hlen
        rw [show l'.view.visited = l.view.visited from hvis] at hlen
        omega
      · rw [hrun] at hnone
        cases hnone
    | receive q batch items hq hitems hempty hrun view take =>
      have hbatch := take one
      rw [total_one] at hbatch
      have hroots := take nonroot
      have hr := h.roots
      have hill := take (illFormed m)
      have ho := h.once
      match batch, view, hbatch, hroots, hill with
      | [], view, hbatch, hroots, _ =>
        have hsame : ∀ w, flight w sh' l' = flight w sh l := fun w => by
          have := take w
          simpa using this
        refine ⟨?_, (hsame _).trans hr, (hsame _).symm ▸ ho, ?_⟩
        · rw [hfound, view, hsame]
          exact hcount
        · rw [view, hsame]
          intro hpos
          exact ⟨rfl, (h.early hpos).2⟩
      | [b], view, hbatch, hroots, hill =>
        simp only [List.length_cons, List.length_nil, total_cons, total_nil] at hbatch hroots hill
        have hwf : b.WellFormed m := illFormed_eq_zero.mp (by omega)
        have hpath : b.path = [] := by
          by_contra hne
          rw [nonroot, if_neg hne] at hroots
          omega
        obtain ⟨_, hnone, _⟩ := h.early (by omega)
        have hdedup : (dedup l.view.visited [b]).1.length = 1 := by
          rw [hnone, dedup, if_pos (hwf.empty_iff.mpr hpath)]
          rfl
        rw [hnone, List.length_nil] at hcount
        refine ⟨?_, by omega, by omega, fun hpos => absurd hpos (by omega)⟩
        rw [hfound, view]
        simp only
        omega
      | b :: b' :: bs, _, hbatch, _, _ =>
        simp only [List.length_cons] at hbatch
        omega
  · -- the initial state
    obtain ⟨hview, hadd⟩ := send.view hsends
    have hflight := hadd (by rw [hpc]; rfl) sh'
    have hzero : l.found = 0 := by
      unfold Local.found
      rw [hpc]
      rfl
    have hvis : l.view.visited = [] := List.length_eq_zero_iff.mp (by omega)
    have hqueue : l.queue = [] := by
      rw [hpc] at hshape
      exact hshape.1.1
    have hone' := hflight one
    have hroot := hflight nonroot
    rw [show one (.root (m.normalize m.initialState) : Branch St K) = 1 from rfl] at hone'
    rw [show nonroot (.root (m.normalize m.initialState) : Branch St K) = 0 from rfl, h.roots]
      at hroot
    refine ⟨?_, hroot, by omega, fun _ => ?_⟩
    · rw [hview]
      simp only [hvis, List.length_nil] at hcount ⊢
      omega
    · rw [hview]
      exact ⟨hqueue, hvis, rfl⟩
  · cases hf with
    | discoverKeep e hrun' _ _ _ _ view stay =>
      refine h.late (.inr hrun) ?_ stay
      rw [hfound]
      show _ + l.visited.length = _ + l'.visited.length
      omega
    | discoverSend e _ _ _ _ remote inRange => omega
    | receive q batch items hq hitems hempty hrun' => exact absurd hrun' hrun
    | idle view | seed _ view | enter _ _ _ _ _ _ view | reject _ _ _ _ _ _ view
    | keep _ _ _ _ _ view | send _ _ _ _ _ _ view | leave _ _ _ _ view =>
      have hlen := congrArg (fun v : View St K => v.visited.length) view
      have hlen : l'.visited.length = l.visited.length := hlen
      omega

omit [NeZero K] [DecidableEq St] in
theorem locals_single {c : Conf (Shared St K) (Local St K)} (hb : Basic mesh c)
    (hone : mesh.shardCount = 1) {i : Nat} (hl : c.locals[i]? = some l) :
    i = 0 ∧ c.locals = [l] := by
  have hlen := hb.shards
  have hlt := (List.getElem?_eq_some_iff.mp hl).1
  have hi : i = 0 := by omega
  subst hi
  obtain ⟨k, hk⟩ := List.length_eq_one_iff.mp (hlen.trans hone)
  rw [hk] at hl ⊢
  cases hl
  exact ⟨rfl, rfl⟩

theorem counted_reachable {c : Conf (Shared St K) (Local St K)} (hone : mesh.shardCount = 1)
    (h : (machine mesh m).Reachable (initial mesh) c) : ∀ l ∈ c.locals, Counted c.shared l := by
  refine (Machine.invariant
    (I := fun c => Sound mesh m c ∧ ∀ l ∈ c.locals, Counted c.shared l) ?_ ?_ h).2
  · rintro c i a c' ⟨hs, hc⟩ hf
    refine ⟨sound_step hs hf, ?_⟩
    obtain ⟨l, sh', l', hl, ht, rfl⟩ := fire_trans hf
    have hmem := List.mem_of_getElem? hl
    obtain ⟨rfl, hlocals⟩ := locals_single hs.basic hone hl
    intro k hk
    rw [hlocals] at hk
    rw [List.mem_singleton.mp hk]
    exact counted_trans hone (hs.basic.ids 0 l hl) (hs.basic.sends l hmem)
      (hs.basic.shape l hmem) (hs.held l hmem) (hs.flight hmem) (hc l hmem) ht (hs.flow hmem ht)
  · refine ⟨sound_initial mesh m, fun l hl => ?_⟩
    have hnone : ∀ w, flight w (initial mesh : Conf (Shared St K) (Local St K)).shared l = 0 := by
      intro w
      obtain ⟨i, _, rfl⟩ := List.mem_map.mp hl
      simp [flight, sent, afloat, initial, Pc.batch, total_replicate]
    obtain ⟨i, _, rfl⟩ := List.mem_map.mp hl
    refine ⟨?_, hnone _, by rw [hnone]; omega, fun hpos => ?_⟩
    · rw [hnone]
      rfl
    · rw [hnone] at hpos
      cases hpos

/-! ## What a single shard reports -/

section

variable {mesh : Mesh St} {m : StateMachineModel St} {c : Conf (Shared St K) (Local St K)}

/-- `ok` says whether all checks hold. -/
theorem ok_iff_checksHold (hone : mesh.shardCount = 1)
    (hr : (machine mesh m).Reachable (initial mesh) c) (hl : c.locals = [l])
    (hret : l.pc = .returned) : l.result.ok = true ↔ ChecksHold m := by
  have hmem : l ∈ c.locals := by rw [hl]; simp
  have hheld := (sound_reachable hr).held l hmem
  have hhonest := (honest_reachable hr l hmem).ok (by rw [hret]; rfl)
  constructor
  · intro hok
    refine (settled_of_allOk hr (by omega) fun k hk => ?_).checksHold
    rw [hl] at hk
    rw [List.mem_singleton.mp hk]
    exact ⟨hret, hok⟩
  · intro hchecks
    refine hhonest.mpr ⟨?_, ?_⟩
    · -- a state that was rejected is reachable
      by_contra hne
      obtain ⟨κ, hκ⟩ := List.exists_mem_of_ne_nil _ hne
      obtain ⟨hreach, hfail⟩ := hheld.rejected κ hκ
      rw [(hchecks _ hreach).1] at hfail
      cases hfail
    · intro e he
      obtain ⟨hreach, ho⟩ := hheld.outcomes e he
      exact (hchecks _ hreach).2 _ _ ho

/-- `state_count` is the number of states visited. -/
theorem stateCount_eq (hone : mesh.shardCount = 1)
    (hr : (machine mesh m).Reachable (initial mesh) c) (hl : c.locals = [l])
    (hret : l.pc = .returned) (hok : l.result.ok = true) :
    l.result.stateCount = l.visited.length := by
  have hmem : l ∈ c.locals := by rw [hl]; simp
  have hsettled : Settled mesh m c := settled_of_allOk hr (by omega) fun k hk => by
    rw [hl] at hk
    rw [List.mem_singleton.mp hk]
    exact ⟨hret, hok⟩
  have hcount := (counted_reachable hone hr l hmem).count
  have hzero : flight one c.shared l = 0 := by
    have h1 := flight_le_floating one (c := c) hmem
    have h2 := hsettled.landed one
    omega
  have hfound : l.found = l.result.stateCount := by
    unfold Local.found
    rw [hret]
    rfl
  rw [← hfound, hcount, hzero]
  rfl

end

end

def oneShard : Mesh Bool where
  shardCount := 1
  hash _ _ := 0
  maxLoopIterationsBetweenFlush := 16

end Batt.Checker
