/-
  The check after the start-up barrier, that `total_pending_count` is positive.

  Every shard sends the branch of the initial state before it waits for the others, so the count
  is positive when the barrier comes down (`Seeded`). From then on the shards run at their own
  pace. One that has passed its check may take up what all of them have sent, explore it and
  acknowledge it before another has made its check; where that acknowledgement leaves nothing
  pending, the other finds zero. `startup_check_iff` says that there is no other way to fail.
-/
import Batt.Checker.Parallel

namespace Batt.Checker

open Interleave Choice

variable {St : Type} {K : Nat}

/-- The branch of the initial state has not been counted as pending. -/
def Unsent (l : Local St K) : Prop :=
  l.pc = .init ∨ (∃ s ∈ l.sendQueues, s ≠ []) ∨ ∃ dst batch caller, l.pc = .pushAdd dst batch caller

/-- A shard that has not made its check has sent its branch, or has it still to send. -/
def Seeded (sh : Shared St K) (l : Local St K) : Prop :=
  l.pc.begun = false → sh.totalPendingCount > 0 ∨ Unsent l

/-! ## The step that goes wrong -/

def Pc.isAck : Pc St K → Bool
  | .ack => true
  | _ => false

theorem isAck_iff {pc : Pc St K} : pc.isAck = true ↔ pc = .ack := by
  cases pc <;> simp [Pc.isAck]

/-- The shard acknowledges all that is pending. -/
def acksLast (sh : Shared St K) (l : Local St K) : Bool :=
  l.pc.isAck && sh.totalPendingCount - l.localConsumeCount == 0

/-- Not the acknowledgement of all that is pending while a shard has still to make its check. -/
def checksMade (c : Conf (Shared St K) (Local St K)) (i : Nat) (_ : Act) : Bool :=
  match c.locals[i]? with
  | some l => !acksLast c.shared l || c.locals.all fun k => k.pc.begun
  | none => true

/-- The check succeeds on every shard that has waited for the others and has still to make it. -/
def CheckSucceeds (c : Conf (Shared St K) (Local St K)) : Prop :=
  ∀ l ∈ c.locals, l.pc = .pendingCheck ∨ (l.pc = .barrierAwait ∧ c.shared.barrier = 0) →
    c.shared.totalPendingCount > 0

section

variable [NeZero K] [DecidableEq St]
variable {mesh : Mesh St} {m : StateMachineModel St} {sh sh' : Shared St K} {l l' : Local St K}
variable {c c' : Conf (Shared St K) (Local St K)}

/-! ## Steps -/

omit [NeZero K] [DecidableEq St] in
theorem exists_ne_nil_modify {α : Type} {qs : List (List α)} {d : Nat} (hd : d < qs.length)
    (b : α) : ∃ s ∈ qs.modify d (· ++ [b]), s ≠ [] := by
  have hset : (qs.modify d (· ++ [b]))[d]? = some (qs[d] ++ [b]) := by
    rw [List.getElem?_modify_eq, List.getElem?_eq_getElem hd]
    rfl
  exact ⟨_, List.mem_of_getElem? hset, by simp⟩

/-- Only an acknowledgement of all that is pending makes the count zero. -/
theorem trans_positive (ht : Trans mesh m sh l sh' l') (hnonneg : 0 ≤ sh'.totalPendingCount)
    (hpos : sh.totalPendingCount > 0) (hlast : acksLast sh l = false) :
    sh'.totalPendingCount > 0 := by
  rcases trans_total ht with h | h | hack
  · omega
  · omega
  · obtain ⟨rfl, _⟩ := trans_ack ht hack
    simp only [acksLast, hack, Pc.isAck, Bool.true_and, beq_eq_false_iff_ne] at hlast
    simp only at hnonneg ⊢
    omega

/-- A shard that has its branch to send keeps it until it counts it. -/
theorem trans_unsent (ht : Trans mesh m sh l sh' l') (hunbegun : l.pc.begun = false)
    (hlen : l.sendQueues.length = mesh.shardCount) (hnonneg : 0 ≤ sh.totalPendingCount)
    (h : Unsent l) : sh'.totalPendingCount > 0 ∨ Unsent l' := by
  have hkeep : ∀ {pc pc' : Pc St K}, l.pc = pc → pc ≠ .init →
      (∀ dst batch caller, pc ≠ .pushAdd dst batch caller) →
      Unsent ({ l with pc := pc' } : Local St K) := by
    rintro pc pc' rfl hinit hadd
    rcases h with h | h | ⟨dst, batch, caller, h⟩
    · exact absurd h hinit
    · exact .inr (.inl h)
    · exact absurd h (hadd _ _ _)
  cases ht with
  | seed _ at_ send =>
    -- the branch goes into a buffer
    obtain ⟨hlt, _, _, rfl⟩ := send
    rw [← hlen] at hlt
    exact .inr (.inr (.inl (exists_ne_nil_modify hlt _)))
  | jump _ _ same hj =>
    refine .inr (hkeep rfl ?_ ?_)
    · intro hinit
      rw [hinit] at hj
      cases hj
    · intro dst batch caller hadd
      rw [hadd] at hj
      cases hj
  | swap dst caller => exact .inr (.inr (.inr ⟨dst, _, caller, rfl⟩))
  | pushAdd =>
    refine .inl ?_
    show sh.totalPendingCount + 1 > 0
    omega
  | pushLost _ _ _ at_ | pushEmplace _ _ _ at_ | pushNotify _ _ at_ | barrierSub at_ =>
    exact .inr (hkeep at_ nofun nofun)
  | begin at_ =>
    rcases h with h | h | ⟨_, _, _, h⟩
    · rw [at_] at h
      cases h
    · exact .inr (.inr (.inl h))
    · rw [at_] at h
      cases h
  | acquire stalled _ at_ =>
    rw [at_] at hunbegun
    cases stalled <;> cases hunbegun
  | enter _ _ at_ | reject _ _ at_ | replay _ _ _ _ _ _ _ at_ | sibling _ _ _ _ _ _ _ at_
  | lowest _ _ _ _ _ _ at_ | violated _ _ at_ | known _ _ _ at_ | discover _ _ _ _ at_
  | receive _ _ _ _ at_ | ack at_ | close _ at_ | finishedClose at_ | drainAcquire _ at_
  | drainPop _ _ _ at_ =>
    rw [at_] at hunbegun
    cases hunbegun

omit [NeZero K] [DecidableEq St] in
theorem begun_of_ack (h : acksLast sh l = true) : l.pc.begun = true := by
  have hack := isAck_iff.mp (Bool.and_eq_true_iff.mp h).1
  rw [hack]
  rfl

theorem seeded_step {i : Nat} {a : Act} (hb : Basic mesh c) (hc : Accounted c)
    (hs : ∀ l ∈ c.locals, Seeded c.shared l) (hmade : checksMade c i a = true)
    (hf : (machine mesh m).fire i a c = some c') : ∀ l ∈ c'.locals, Seeded c'.shared l := by
  have hc' := accounted_step hb hc hf
  obtain ⟨l, sh', l', hl, ht, rfl⟩ := fire_trans hf
  have hmem := List.mem_of_getElem? hl
  have hnonneg : 0 ≤ c.shared.totalPendingCount := hc ▸ Int.natCast_nonneg _
  have hnonneg' : 0 ≤ sh'.totalPendingCount := hc' ▸ Int.natCast_nonneg _
  simp only [checksMade, hl, Bool.or_eq_true, Bool.not_eq_true', List.all_eq_true] at hmade
  refine forall_set ?_ fun j k _ hj => ?_
  · intro hunbegun'
    have hunbegun : l.pc.begun = false := by
      rcases trans_begun ht with h | ⟨_, _, h, _⟩
      · exact h ▸ hunbegun'
      · exact h
    rcases hs l hmem hunbegun with hpos | hunsent
    · refine .inl (trans_positive ht hnonneg' hpos ?_)
      by_contra hlast
      rw [begun_of_ack (by simpa using hlast)] at hunbegun
      cases hunbegun
    · exact trans_unsent ht hunbegun (hb.sends l hmem) hnonneg hunsent
  · intro hunbegun
    have hk := List.mem_of_getElem? hj
    refine (hs k hk hunbegun).imp_left fun hpos => ?_
    rcases hmade with hlast | hall
    · exact trans_positive ht hnonneg' hpos hlast
    · rw [hall k hk] at hunbegun
      cases hunbegun

/-! ## Runs -/

omit [NeZero K] [DecidableEq St] in
theorem checkSucceeds_of_seeded (hb : Basic mesh c) (hs : ∀ l ∈ c.locals, Seeded c.shared l) :
    CheckSucceeds c := by
  intro l hl hat
  have hpc : l.pc = .pendingCheck ∨ l.pc = .barrierAwait := hat.imp_right And.left
  have hshape := hb.shape l hl
  have hunbegun : l.pc.begun = false := by
    rcases hpc with h | h <;> rw [h] <;> rfl
  rcases hs l hl hunbegun with hpos | h | ⟨s, hs, hne⟩ | ⟨_, _, _, h⟩
  · exact hpos
  · rcases hpc with h' | h' <;> rw [h] at h' <;> cases h'
  · have hacked : Acked l := by
      rcases hpc with h | h <;> rw [h] at hshape <;> exact hshape
    exact absurd (hacked.1.2 s hs) hne
  · rcases hpc with h' | h' <;> rw [h] at h' <;> cases h'

theorem seeded_reachable (hr : (machine mesh m).ReachableWhere checksMade (initial mesh) c) :
    ∀ l ∈ c.locals, Seeded c.shared l := by
  have h := Machine.invariant_runWhere
    (I := fun c => Basic mesh c ∧ Accounted c ∧ ∀ l ∈ c.locals, Seeded c.shared l) ?_ ?_ hr
  · exact h.2.2
  · rintro c i a c' ⟨hb, hc, hs⟩ hmade hf
    exact ⟨basic_step hb hf, accounted_step hb hc hf, seeded_step hb hc hs hmade hf⟩
  · refine ⟨basic_initial mesh, accounted_reachable (m := m) ⟨[], rfl⟩, fun l hl _ => ?_⟩
    obtain ⟨i, _, rfl⟩ := List.mem_map.mp hl
    exact .inr (.inl rfl)

/-- After the acknowledgement that goes wrong the check fails on a shard. -/
theorem checksMade_of_succeeds {i : Nat} {a : Act} (hb : Basic mesh c)
    (hf : (machine mesh m).fire i a c = some c') (hsucceeds : CheckSucceeds c') :
    checksMade c i a = true := by
  have hb' := basic_step hb hf
  obtain ⟨l, sh', l', hl, ht, rfl⟩ := fire_trans hf
  simp only [checksMade, hl, Bool.or_eq_true, Bool.not_eq_true', List.all_eq_true]
  by_contra hnot
  push Not at hnot
  obtain ⟨hlast, k, hk, hunbegun⟩ := hnot
  have hlast : acksLast c.shared l = true := by simpa using hlast
  have hpast := begun_of_ack hlast
  obtain ⟨hack, hzero⟩ := Bool.and_eq_true_iff.mp hlast
  obtain ⟨rfl, rfl⟩ := trans_ack ht (isAck_iff.mp hack)
  have hdown := hb.opened l (List.mem_of_getElem? hl) (by rw [isAck_iff.mp hack]; rfl)
  -- the shard that has still to make its check has left the start, and stays where it is
  have hstart : k.pc.start = false := by
    have htotal := hb.barrier
    rw [hdown] at htotal
    by_contra h
    have hone := total_eq_zero.mp htotal.symm k hk
    rw [ind_true (by simpa using h)] at hone
    cases hone
  obtain ⟨j, hj⟩ := List.mem_iff_getElem?.mp hk
  have hji : j ≠ i := by
    rintro rfl
    rw [hl] at hj
    cases hj
    exact hunbegun hpast
  have hpos := hsucceeds k (List.mem_of_getElem? ((List.getElem?_set_ne hji.symm).trans hj)) ?_
  · simp only [beq_iff_eq] at hzero
    simp only [hzero] at hpos
    cases hpos
  · by_cases hawait : k.pc = .barrierAwait
    · exact .inr ⟨hawait, hdown⟩
    · left
      have hpastk : k.pc.past = true := past_iff.mpr ⟨hstart, hawait⟩
      unfold Pc.begun at hunbegun
      split at hunbegun
      · assumption
      · exact absurd hpastk hunbegun

/-- **When the start-up check succeeds**: over every interleaving of the shards of every model,
    the check succeeds on every shard in every state of a run if and only if no shard of the run
    acknowledges all that is pending while another has still to make its check. -/
theorem startup_check_iff (mesh : Mesh St) (m : StateMachineModel St) (sched : List (Nat × Act))
    (c : Conf (Shared St K) (Local St K))
    (hr : (machine mesh m).run sched (initial mesh) = some c) :
    (∀ (s t : List (Nat × Act)) (c₁ : Conf (Shared St K) (Local St K)), sched = s ++ t →
        (machine mesh m).run s (initial mesh) = some c₁ → CheckSucceeds c₁) ↔
      (machine mesh m).runWhere checksMade sched (initial mesh) = some c := by
  refine Machine.good_iff_runWhere ?_ ?_ hr
  · intro c₁ hr₁
    exact checkSucceeds_of_seeded (basic_reachable hr₁.reachable) (seeded_reachable hr₁)
  · intro c₁ i a c₂ hr₁ hf hsucceeds
    exact checksMade_of_succeeds (basic_reachable hr₁.reachable) hf hsucceeds

end

/-! ## Two shards -/

set_option maxRecDepth 3000 in
theorem startup_check_iff_toggle :
    ∃ c : Conf (Shared Bool 1) (Local Bool 1),
      (machine twoShards toggle).run toggleDone (initial twoShards) = some c ∧
      c.locals.all Local.returnedOk = true ∧
      ∀ (s t : List (Nat × Act)) (c₁ : Conf (Shared Bool 1) (Local Bool 1)), toggleDone = s ++ t →
        (machine twoShards toggle).run s (initial twoShards) = some c₁ → CheckSucceeds c₁ := by
  have hrun : ((machine twoShards toggle).runWhere checksMade toggleDone
      (initial twoShards : Conf (Shared Bool 1) (Local Bool 1))).map
        (fun c => c.locals.all Local.returnedOk) = some true := by
    decide
  obtain ⟨c, hc, hall⟩ := Option.map_eq_some_iff.mp hrun
  have hr := Machine.run_of_runWhere hc
  exact ⟨c, hr, hall, (startup_check_iff twoShards toggle toggleDone c hr).mpr hc⟩

/-- Two shards, and all branches belong to the first. -/
def oneOwner : Mesh Unit where
  shardCount := 2
  hash _ _ := 0
  maxLoopIterationsBetweenFlush := 16

/-- Both shards up to the barrier, and the second past it; then the first to its return. -/
def fastShard : List (Nat × Nat) := [(0, 10), (1, 11), (0, 36)]

/-- Whether the shard is at the check. -/
def Pc.isCheck : Pc St K → Bool
  | .pendingCheck => true
  | _ => false

/-- **The check fails on a slow shard**: the first shard has explored everything and returned with
    `ok`, and the second finds nothing pending. -/
theorem slow_shard_fails_check :
    ∃ (c : Conf (Shared Unit 1) (Local Unit 1)) (l : Local Unit 1),
      (machine oneOwner still).run
        (fastShard.flatMap fun b => List.replicate b.2 (b.1, .run)) (initial oneOwner) = some c ∧
      c.locals[1]? = some l ∧ l.pc = .pendingCheck ∧ ¬ c.shared.totalPendingCount > 0 ∧
      ¬ CheckSucceeds c := by
  have hrun : ((machine oneOwner still).bursts .run fastShard
      (initial oneOwner : Conf (Shared Unit 1) (Local Unit 1))).map
        (fun c => (c.shared.totalPendingCount, (c.locals[1]?).map fun l => l.pc.isCheck)) =
          some (0, some true) := by
    decide
  obtain ⟨c, hc, hview⟩ := Option.map_eq_some_iff.mp hrun
  obtain ⟨hzero, hl⟩ := Prod.mk.inj hview
  obtain ⟨l, hl, hcheck⟩ := Option.map_eq_some_iff.mp hl
  have hpc : l.pc = .pendingCheck := by
    cases hpc : l.pc <;> rw [hpc] at hcheck <;> first | rfl | cases hcheck
  have hnone : ¬ c.shared.totalPendingCount > 0 := by
    rw [hzero]
    decide
  exact ⟨c, l, Machine.run_bursts (fun _ _ _ _ => rfl) hc, hl, hpc, hnone,
    fun h => hnone (h l (List.mem_of_getElem? hl) (.inl hpc))⟩

end Batt.Checker
