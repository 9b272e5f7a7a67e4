/-
  On a single shard `run()` returns.

  The model must be finite: finitely many reachable states, and choices that fit into a
  `RadixQueue` (`Bounded`). A call of `step()` then ends (`call_returns`), by induction on the
  program. Each round of the loop takes up a branch that was not taken up before, of which
  there are finitely many (`loop_returns`). When the queue is empty the shard acknowledges the
  one batch it has ever received, closes its queue, and leaves `recv` (`drained_leads`).
-/
import Batt.Checker.Single

namespace Batt.Checker

open Interleave Choice RadixQueue

variable {St : Type} {K : Nat} [NeZero K]

/-! ## Bounded models -/

/-- The choices fit into the queue. -/
def FitsQueue (K : Nat) [NeZero K] (ds : List Digit) : Prop :=
  ∃ q, (new : RadixQueue K).pushAll ds = some q

/-- After the choices `ds`, every range that the program picks from is one of machine words,
    and every choice from it fits into the queue. -/
def Fits (K : Nat) [NeZero K] : Prog St → List Digit → Prop
  | .ret _, _ => True
  | .pick lo hi next, ds =>
    if lo = hi then Fits K (next lo) ds
    else lo < hi ∧ hi ≤ maxU64 ∧ hi - lo + 1 ≤ maxU64 ∧
      ∀ v, v < hi - lo + 1 → FitsQueue K (ds ++ [⟨hi - lo + 1, v⟩]) ∧
        Fits K (next (lo + v)) (ds ++ [⟨hi - lo + 1, v⟩])

structure Bounded (mesh : Mesh St) (m : StateMachineModel St) (K : Nat) [NeZero K] : Prop where
  finite : {x | m.Reach x}.Finite
  fits : ∀ x, m.Reach x → Fits K (m.step x) []
  inRange : ∀ b : Branch St K, b.WellFormed m → mesh.findShard b < mesh.shardCount
  flush : mesh.maxLoopIterationsBetweenFlush ≠ 0

theorem Bounded.branches {mesh : Mesh St} {m : StateMachineModel St} (hb : Bounded mesh m K) :
    {κ : St × List Digit | m.Reach κ.1 ∧ IsBranch (m.step κ.1) κ.2}.Finite := by
  have hall : (⋃ x ∈ {x | m.Reach x}, Prod.mk x '' {ds | Follows (m.step x) ds}).Finite :=
    Set.Finite.biUnion hb.finite fun x _ => (finite_follows (m.step x)).image _
  refine hall.subset fun κ hκ => ?_
  exact Set.mem_biUnion (x := κ.1) hκ.1 ⟨κ.2, hκ.2.1, rfl⟩

/-! ## The history has room -/

/-- The segments of the history are those of a new queue after the same choices. -/
def Local.Roomy (l : Local St K) : Prop :=
  ∃ q, (new : RadixQueue K).pushAll l.chosen = some q ∧ q.live = l.history.live

theorem roomy_push {l : Local St K} (h : l.Roomy) {d : Digit}
    (hfit : FitsQueue K (l.chosen ++ [d])) :
    ∃ q', l.history.push d.radix d.value = some q' ∧
      ∀ l' : Local St K, l'.history = q' → l'.chosen = l.chosen ++ [d] → l'.Roomy := by
  obtain ⟨q, hq, hlive⟩ := h
  obtain ⟨r, hr⟩ := hfit
  rw [pushAll_append, hq, Option.bind_some] at hr
  obtain ⟨r', hr', hlast⟩ := Option.bind_eq_some_iff.mp hr
  cases hlast
  obtain ⟨q', hq', hlive'⟩ := push_of_live hlive hr'
  refine ⟨q', hq', fun l' hh hc => ⟨r, ?_, hh ▸ hlive'⟩⟩
  rw [hc, pushAll_append, hq, Option.bind_some, pushAll, hr']
  rfl

/-! ## The only thread -/

variable [DecidableEq St] {mesh : Mesh St} {m : StateMachineModel St} {sh : Shared St K}
  {current : Branch St K}

/-- The thread gets from one state to the other on its own. -/
def Leads (mesh : Mesh St) (m : StateMachineModel St) (s s' : Shared St K × Local St K) : Prop :=
  ∃ k, (machine mesh m).alone .run k s = some s'

theorem Leads.trans {s s' s'' : Shared St K × Local St K} (h : Leads mesh m s s')
    (h' : Leads mesh m s' s'') : Leads mesh m s s'' := by
  obtain ⟨j, hj⟩ := h
  obtain ⟨k, hk⟩ := h'
  refine ⟨j + k, ?_⟩
  rw [Machine.alone_add, hj]
  exact hk

theorem leads_of_exec {l : Local St K} {s : Shared St K × Local St K}
    (h : exec mesh m sh l = some s) : Leads mesh m (sh, l) s := by
  refine ⟨1, ?_⟩
  rw [Machine.alone]
  show (exec mesh m sh l).bind _ = _
  rw [h]
  rfl

/-- A state that the only thread gets to. -/
def Ran (mesh : Mesh St) (m : StateMachineModel St) (sh : Shared St K) (l : Local St K) : Prop :=
  (machine mesh m).Reachable (initial mesh) ⟨sh, [l]⟩

theorem Ran.leads {sh' : Shared St K} {l l' : Local St K} (h : Ran mesh m sh l)
    (hl : Leads mesh m (sh, l) (sh', l')) : Ran mesh m sh' l' := by
  obtain ⟨sched, hr⟩ := h
  obtain ⟨k, hk⟩ := hl
  have halone := Machine.run_alone (m := machine mesh m) (fun _ _ _ _ => rfl)
    (c := (⟨sh, [l]⟩ : Conf (Shared St K) (Local St K))) (i := 0) rfl hk
  refine ⟨sched ++ List.replicate k (0, .run), ?_⟩
  rw [Machine.run_append, hr]
  exact halone

theorem Ran.sound {l : Local St K} (h : Ran mesh m sh l) :
    Sound mesh m ⟨sh, [l]⟩ ∧ l.shardI = 0 ∧ l.view.Held m ∧ l.pc.Data l := by
  have hs := sound_reachable h
  exact ⟨hs, hs.basic.ids 0 l rfl, hs.held l (by simp), hs.data l (by simp)⟩

/-- What the loop of `run` leaves as it is until the queue runs empty. -/
structure Kept (l l' : Local St K) : Prop where
  sendQueues : l'.sendQueues = l.sendQueues
  localConsumeCount : l'.localConsumeCount = l.localConsumeCount
  entered : l'.entered = l.entered

omit [NeZero K] [DecidableEq St] in
theorem Kept.trans {l l' l'' : Local St K} (h : Kept l l') (h' : Kept l' l'') : Kept l l'' :=
  ⟨h'.sendQueues.trans h.sendQueues, h'.localConsumeCount.trans h.localConsumeCount,
    h'.entered.trans h.entered⟩

omit [DecidableEq St] in
/-- On a single shard a branch is queued where it is found. -/
theorem explore_here (hb : Bounded mesh m K) (hone : mesh.shardCount = 1) {l : Local St K}
    (hid : l.shardI = 0) {b : Branch St K} (hwf : b.WellFormed m)
    (caller : ExploreCaller St K) :
    ∃ l', explore mesh l b false caller = some l' ∧ Kept l l' ∧ l'.pc = caller.resume ∧
      l'.chosen = l.chosen ∧ l'.history = l.history := by
  have hin := hb.inRange b hwf
  have howner : mesh.findShard b = l.shardI := by omega
  unfold explore
  dsimp only
  rw [if_pos ⟨howner, rfl⟩]
  exact ⟨_, rfl, ⟨rfl, rfl, rfl⟩, rfl, rfl, rfl⟩

theorem leave_returns (hb : Bounded mesh m K) (hone : mesh.shardCount = 1) {l : Local St K}
    (hr : Ran mesh m sh l) {raw : St} (hpc : l.pc = .step current (.ret raw)) :
    ∃ l', Leads mesh m (sh, l) (sh, l') ∧ Kept l l' ∧
      (l'.pc = .enterLoop ∨ l'.pc = .flushAll 0 .finished) := by
  obtain ⟨_, hid, hheld, _⟩ := hr.sound
  have hreach : m.Reach (m.normalize raw) := by
    obtain ⟨hx, ho, _⟩ := hheld.returned (e := ⟨current.snapshot, l.chosen, raw⟩)
      (by rw [Local.view, hpc]; rfl)
    exact .step hx ho
  have hleave : ∃ l', leave mesh m l current raw = some l' ∧ Kept l l' ∧
      (l'.pc = .enterLoop ∨ l'.pc = .flushAll 0 .finished) := by
    unfold leave
    simp only
    split
    · split
      · exact ⟨_, rfl, ⟨rfl, rfl, rfl⟩, .inl rfl⟩
      · split
        · exact ⟨_, rfl, ⟨rfl, rfl, rfl⟩, .inl rfl⟩
        · obtain ⟨l', hl', hkept, hpc', _⟩ := explore_here hb hone
            (l := { l with
              executed := l.executed ++ [⟨current.snapshot, l.chosen, raw⟩]
              loopCounter := l.loopCounter + 1
              pc := .enterLoop
              visited := l.visited ++ [m.normalize raw]
              result := { l.result with stateCount := l.result.stateCount + 1 } })
            hid (wellFormed_root hreach) .discovered
          exact ⟨l', hl', ⟨hkept.1, hkept.2, hkept.3⟩, .inl hpc'⟩
    · exact ⟨_, rfl, ⟨rfl, rfl, rfl⟩, .inr rfl⟩
  obtain ⟨l', hl', hkept, hpc'⟩ := hleave
  refine ⟨l', leads_of_exec ?_, hkept, hpc'⟩
  simp only [exec, hpc, hl', Option.map_some]

/-- The loop of `pick_int` queues the other values and goes on with the lowest. -/
theorem pickLoop_returns (hb : Bounded mesh m K) (hone : mesh.shardCount = 1)
    {minValue radix : Nat} {next : Nat → Prog St} {value : Nat} {l : Local St K}
    (hr : Ran mesh m sh l) (hpc : l.pc = .pickLoop current minValue radix value next)
    (hroom : l.Roomy) (hfits : ∀ v, v < radix → FitsQueue K (l.chosen ++ [⟨radix, v⟩])) :
    ∃ l', Leads mesh m (sh, l) (sh, l') ∧ Kept l l' ∧ l'.Roomy ∧
      l'.chosen = l.chosen ++ [⟨radix, 0⟩] ∧ l'.pc = .step current (next minValue) := by
  obtain ⟨_, hid, hheld, hdata⟩ := hr.sound
  rw [hpc] at hdata
  obtain ⟨_, _, htwo, hmax, hvalue, hhistory⟩ := hdata
  by_cases hlt : value < radix
  · obtain ⟨delta, hpush, _⟩ := roomy_push hroom (hfits value hlt)
    have hwf : (⟨current.snapshot, delta, l.chosen ++ [⟨radix, value⟩]⟩ : Branch St K).WellFormed
        m := by
      have hfuture : (current.snapshot, l.chosen ++ [Digit.mk radix value]) ∈ l.view.future := by
        simp only [Local.view, hpc, Pc.future, ExploreCaller.future]
        refine List.mem_map.mpr ⟨_, List.mem_append_left _ (List.mem_map.mpr ⟨value, ?_, rfl⟩), rfl⟩
        rw [List.mem_range'_1]
        omega
      obtain ⟨hreach, hbranch, _⟩ := hheld.upcoming hfuture
      exact ⟨hreach, hbranch, encodes_push (d := ⟨radix, value⟩) hhistory hmax hpush⟩
    obtain ⟨l₁, hl₁, hkept, hpc₁, hchosen, hhist⟩ := explore_here hb hone hid hwf
      (.pickInt current minValue radix (value + 1) next)
    have hstep : Leads mesh m (sh, l) (sh, l₁) := by
      refine leads_of_exec ?_
      simp only [exec, hpc, pickLoop, if_pos hlt, hpush, Option.bind_some, hl₁, Option.map_some]
    have hroom₁ : l₁.Roomy := by
      unfold Local.Roomy
      rw [hchosen, hhist]
      exact hroom
    obtain ⟨l', hleads, hkept', hroom', hchosen', hpc'⟩ := pickLoop_returns hb hone
      (hr.leads hstep) hpc₁ hroom₁ (by rw [hchosen]; exact hfits)
    exact ⟨l', hstep.trans hleads, hkept.trans hkept', hroom', by rw [hchosen', hchosen], hpc'⟩
  · obtain ⟨history, hpush, hroom'⟩ := roomy_push hroom (hfits 0 (by omega))
    refine ⟨{ l with
        history := history
        chosen := l.chosen ++ [⟨radix, 0⟩]
        pc := .step current (next minValue) }, leads_of_exec ?_, ⟨rfl, rfl, rfl⟩,
      hroom' _ rfl rfl, rfl, rfl⟩
    simp only [exec, hpc, pickLoop, if_neg hlt, hpush, Option.map_some]
termination_by radix - value

/-- **A call of `step()` returns.** -/
theorem call_returns (hb : Bounded mesh m K) (hone : mesh.shardCount = 1) (p : Prog St)
    {l : Local St K} (hr : Ran mesh m sh l) (hpc : l.pc = .step current p)
    (hfits : Fits K p l.chosen) (hroom : l.Roomy) :
    ∃ l', Leads mesh m (sh, l) (sh, l') ∧ Kept l l' ∧
      (l'.pc = .enterLoop ∨ l'.pc = .flushAll 0 .finished) := by
  induction p generalizing l current with
  | ret raw => exact leave_returns hb hone hr hpc
  | pick lo hi next ih =>
    obtain ⟨_, _, _, hdata⟩ := hr.sound
    rw [hpc] at hdata
    obtain ⟨hfollows, hencodes, _⟩ := hdata
    unfold Fits at hfits
    by_cases heq : lo = hi
    · rw [if_pos heq] at hfits
      have hstep : Leads mesh m (sh, l) (sh, { l with pc := .step current (next lo) }) := by
        refine leads_of_exec ?_
        simp only [exec, hpc, pickInt, if_pos heq, Option.map_some]
      obtain ⟨l', hleads, hkept, hpc'⟩ := ih lo (hr.leads hstep) rfl hfits hroom
      exact ⟨l', hstep.trans hleads, ⟨hkept.1, hkept.2, hkept.3⟩, hpc'⟩
    · rw [if_neg heq] at hfits
      obtain ⟨hlt, hmax, hradix, hall⟩ := hfits
      have hmod : (hi - lo + 1) % 2 ^ 64 = hi - lo + 1 := by
        unfold maxU64 at hradix
        exact Nat.mod_eq_of_lt (by omega)
      have hrange : lo < hi ∧ hi ≤ maxU64 ∧ hi - lo + 1 ≠ 0 := ⟨hlt, hmax, by omega⟩
      by_cases hempty : current.delta.empty = true
      · -- the first pick after the replay
        have hstep : Leads mesh m (sh, l)
            (sh, { l with pc := .pickLoop current lo (hi - lo + 1) 1 next }) := by
          refine leads_of_exec ?_
          simp only [exec, hpc, pickInt, if_neg heq, hmod, if_pos hrange, if_pos hempty,
            Option.map_some]
        obtain ⟨l₁, hleads₁, hkept₁, hroom₁, hchosen₁, hpc₁⟩ := pickLoop_returns hb hone
          (hr.leads hstep) rfl hroom fun v hv => (hall v hv).1
        have hfits₁ : Fits K (next lo) l₁.chosen := by
          rw [hchosen₁]
          exact (hall 0 (by omega)).2
        obtain ⟨l', hleads, hkept, hpc'⟩ := ih lo ((hr.leads hstep).leads hleads₁) hpc₁ hfits₁ hroom₁
        have hkept' := hkept₁.trans hkept
        exact ⟨l', (hstep.trans hleads₁).trans hleads, ⟨hkept'.1, hkept'.2, hkept'.3⟩, hpc'⟩
      · -- the next choice of the replay
        have hne : current.path ≠ [] := fun h => hempty ((delta_empty_iff hfollows hencodes).mpr h)
        obtain ⟨d, ds, hpath⟩ := List.exists_cons_of_ne_nil hne
        rw [hpath] at hfollows hencodes
        unfold Follows at hfollows
        rw [if_neg heq] at hfollows
        obtain ⟨_, hr', hv, _⟩ := hfollows
        obtain ⟨delta, hpop, _⟩ := encodes_pop hencodes
        obtain ⟨hfit, hnext⟩ := hall d.value (by omega)
        obtain ⟨history, hpush, hroom'⟩ := roomy_push hroom hfit
        rw [hr'] at hpop
        have hstep : Leads mesh m (sh, l) (sh, { l with
            history := history
            chosen := l.chosen ++ [⟨hi - lo + 1, d.value⟩]
            pc := .step { current with delta := delta, path := current.path.tail }
              (next (lo + d.value)) }) := by
          refine leads_of_exec ?_
          simp only at hpush
          simp only [exec, hpc, pickInt, if_neg heq, hmod, if_pos hrange, if_neg hempty, hpop,
            hpush, Option.bind_some, Option.map_some]
        obtain ⟨l', hleads, hkept, hpc'⟩ := ih (lo + d.value) (hr.leads hstep) rfl hnext
          (hroom' _ rfl rfl)
        exact ⟨l', hstep.trans hleads, ⟨hkept.1, hkept.2, hkept.3⟩, hpc'⟩

/-! ## The end of the run -/

/-- The shared store while the only shard works on its own: the initial batch is received and
    not acknowledged. -/
def Calm (sh : Shared St K) : Prop :=
  ∃ stalled barrier, sh = ⟨1, [⟨[], 0, false⟩], stalled, barrier, []⟩

/-- `finished()`. -/
theorem finished_leads (mesh : Mesh St) (m : StateMachineModel St) {l : Local St K} (hid : l.shardI = 0) (hsends : l.sendQueues = [[]])
    (hpc : l.pc = .flushAll 0 .finished) (total : Int) (closed : Bool)
    (stalled : Nat → Nat → Bool) (barrier : Nat) :
    ∃ s, Leads mesh m (⟨total, [⟨[], 0, closed⟩], stalled, barrier, []⟩, l) s ∧
      s.2.pc = .returned := by
  obtain ⟨shardI, pc, queue, visited, history, chosen, result, loopCounter, sendQueues,
    localConsumeCount, entered, rejected, executed⟩ := l
  subst hid hsends hpc
  exact ⟨_, ⟨4, rfl⟩, rfl⟩

/-- `recv` with nothing queued, nothing pending and one batch to acknowledge. -/
theorem drained_leads (hone : mesh.shardCount = 1) {l : Local St K} (hcalm : Calm sh)
    (hid : l.shardI = 0) (hqueue : l.queue = []) (hsends : l.sendQueues = [[]])
    (hcount : l.localConsumeCount = 1) (hpc : l.pc = .popNext) :
    ∃ s, Leads mesh m (sh, l) s ∧ s.2.pc = .returned := by
  obtain ⟨stalled, barrier, rfl⟩ := hcalm
  obtain ⟨n, hash, flush⟩ := mesh
  obtain ⟨shardI, pc, queue, visited, history, chosen, result, loopCounter, sendQueues,
    localConsumeCount, entered, rejected, executed⟩ := l
  simp only at hone hid hqueue hsends hcount hpc
  subst hone hid hqueue hsends hcount hpc
  have hclosed : ∃ stalled' l', Leads (⟨1, hash, flush⟩ : Mesh St) m
      (⟨1, [⟨[], 0, false⟩], stalled, barrier, []⟩,
        ⟨0, .popNext, [], visited, history, chosen, result, loopCounter, [[]], 1, entered,
          rejected, executed⟩)
      (⟨0, [⟨[], 0, true⟩], stalled', barrier, []⟩, l') ∧ l'.shardI = 0 ∧
        l'.sendQueues = [[]] ∧ l'.pc = .flushAll 0 .finished :=
    ⟨_, _, ⟨14, rfl⟩, rfl, rfl, rfl⟩
  obtain ⟨stalled', l', hleads, hid, hsends, hpc⟩ := hclosed
  obtain ⟨s, hs, hret⟩ := finished_leads ⟨1, hash, flush⟩ m hid hsends hpc 0 true
    stalled' barrier
  exact ⟨s, hleads.trans hs, hret⟩

/-- No branch is taken up twice, and there are finitely many. -/
theorem entered_le (hb : Bounded mesh m K) {l : Local St K} (hr : Ran mesh m sh l) :
    l.entered.length ≤ hb.branches.toFinset.card := by
  have he := explored_reachable hr
  have hnodup : l.entered.Nodup := List.nodup_iff_count_le_one.mpr fun κ =>
    (le_total (fun l : Local St K => l.entered.count κ) (List.mem_singleton_self l)).trans
      (he.taken_le_one κ.1 κ.2)
  rw [← List.toFinset_card_of_nodup hnodup]
  refine Finset.card_le_card fun κ hκ => ?_
  obtain ⟨hreach, hbranch, _⟩ := (hr.sound.2.2.1).entered κ (List.mem_toFinset.mp hκ)
  exact hb.branches.mem_toFinset.mpr ⟨hreach, hbranch⟩

/-- **The loop of `run` ends.** -/
theorem loop_returns (hb : Bounded mesh m K) (hone : mesh.shardCount = 1) (left : Nat)
    {l : Local St K} (hr : Ran mesh m sh l) (hcalm : Calm sh) (hsends : l.sendQueues = [[]])
    (hcount : l.localConsumeCount = 1) (hpc : l.pc = .popNext)
    (hleft : hb.branches.toFinset.card ≤ l.entered.length + left) :
    ∃ s, Leads mesh m (sh, l) s ∧ s.2.pc = .returned := by
  obtain ⟨hs, hid, hheld, _⟩ := hr.sound
  cases hqueue : l.queue with
  | nil => exact drained_leads hone hcalm hid hqueue hsends hcount hpc
  | cons b rest =>
    have hown : mesh.findShard b = l.shardI := (hs.placed l (by simp)).queue b (by rw [hqueue]; simp)
    have hstep : Leads mesh m (sh, l) (sh, enter m l b rest) := by
      refine leads_of_exec ?_
      simp only [exec, hpc, hqueue, if_pos hown]
    have hr₁ := hr.leads hstep
    have hstop : ∀ {l' : Local St K}, Leads mesh m (sh, l) (sh, l') → l'.sendQueues = [[]] →
        l'.pc = .flushAll 0 .finished → ∃ s, Leads mesh m (sh, l) s ∧ s.2.pc = .returned := by
      intro l' hl' hsends' hpc'
      obtain ⟨stalled, barrier, rfl⟩ := hcalm
      obtain ⟨s, hs, hret⟩ := finished_leads mesh m (hr.leads hl').sound.2.1
        hsends' hpc' 1 false stalled barrier
      exact ⟨s, hl'.trans hs, hret⟩
    by_cases hcheck : m.checkInvariants b.snapshot = true
    · have henter : enter m l b rest = { l with
          queue := rest
          history := l.history.clear
          chosen := []
          result := { l.result with branchPopCount := l.result.branchPopCount + 1 }
          entered := l.entered ++ [(b.snapshot, b.path)]
          pc := .step b (m.step b.snapshot) } := by
        unfold enter
        rw [if_pos hcheck]
      rw [henter] at hstep hr₁
      have hmore : l.entered.length + 1 ≤ hb.branches.toFinset.card := by
        have hle := entered_le hb hr₁
        rwa [List.length_append, List.length_singleton] at hle
      have hwf := hheld.queue b (by rw [Local.view, hqueue]; simp)
      have hroom : (⟨l.shardI, .step b (m.step b.snapshot), rest, l.visited, l.history.clear, [],
          { l.result with branchPopCount := l.result.branchPopCount + 1 }, l.loopCounter,
          l.sendQueues, l.localConsumeCount, l.entered ++ [(b.snapshot, b.path)], l.rejected,
          l.executed⟩ : Local St K).Roomy :=
        ⟨new, rfl, by rw [live_new, live_clear]⟩
      obtain ⟨l₂, hleads₂, hkept, hpc₂⟩ := call_returns hb hone (m.step b.snapshot) hr₁ rfl
        (hb.fits _ hwf.reach) hroom
      rcases hpc₂ with hpc₂ | hpc₂
      · have hround := hstep.trans hleads₂
        have hnext : Leads mesh m (sh, l) (sh, { l₂ with pc := .popNext }) := by
          refine hround.trans (leads_of_exec ?_)
          simp only [exec, hpc₂, if_neg hb.flush, hone, goto]
          rw [if_neg (by omega)]
        have hlen : l₂.entered.length = l.entered.length + 1 := by
          rw [hkept.entered, List.length_append, List.length_singleton]
        obtain ⟨s, hs, hret⟩ := loop_returns hb hone (left - 1) (hr.leads hnext) hcalm
          (hkept.sendQueues.trans hsends) (hkept.localConsumeCount.trans hcount) rfl
          (by simp only [hlen]; omega)
        exact ⟨s, hnext.trans hs, hret⟩
      · exact hstop (hstep.trans hleads₂) (hkept.sendQueues.trans hsends) hpc₂
    · have henter : enter m l b rest = { l with
          queue := rest
          history := l.history.clear
          chosen := []
          result := { l.result with
            branchPopCount := l.result.branchPopCount + 1
            ok := false }
          rejected := l.rejected ++ [(b.snapshot, b.path)]
          pc := .flushAll 0 .finished } := by
        unfold enter
        rw [if_neg hcheck]
      rw [henter] at hstep
      exact hstop hstep hsends rfl
termination_by left
decreasing_by omega

/-- The start of `run`, up to the first batch. -/
theorem start_leads (hb : Bounded mesh m K) (hone : mesh.shardCount = 1) :
    ∃ (sh : Shared St K) (l : Local St K), Leads mesh m ((initial mesh).shared,
        { shardI := 0, history := .new, sendQueues := [[]] }) (sh, l) ∧ Calm sh ∧
      l.sendQueues = [[]] ∧ l.localConsumeCount = 1 ∧ l.pc = .popNext := by
  have hfind : mesh.findShard (.root (m.normalize m.initialState) : Branch St K) = 0 := by
    have := hb.inRange _ (wellFormed_root .init)
    omega
  have hflush := hb.flush
  obtain ⟨n, hash, flush⟩ := mesh
  simp only at hone hflush
  subst hone
  -- the seed goes into the send buffer
  have hseed : Leads (⟨1, hash, flush⟩ : Mesh St) m
      ((initial ⟨1, hash, flush⟩ : Conf (Shared St K) (Local St K)).shared,
        { shardI := 0, history := .new, sendQueues := [[]] })
      ((initial ⟨1, hash, flush⟩ : Conf (Shared St K) (Local St K)).shared,
        { shardI := 0, history := .new, sendQueues := [[.root (m.normalize m.initialState)]],
          pc := .sendStalled 0 .initial }) := by
    refine leads_of_exec ?_
    simp only [exec, explore, hfind]
    rfl
  have hloop : ∃ (sh : Shared St K) (l : Local St K), Leads (⟨1, hash, flush⟩ : Mesh St) m
      ((initial ⟨1, hash, flush⟩ : Conf (Shared St K) (Local St K)).shared,
        { shardI := 0, history := .new, sendQueues := [[.root (m.normalize m.initialState)]],
          pc := .sendStalled 0 .initial }) (sh, l) ∧
      (∃ stalled, sh = ⟨1, [⟨[[.root (m.normalize m.initialState)]], 1, false⟩], stalled, 0, []⟩) ∧
      l.shardI = 0 ∧ l.queue = [] ∧ l.sendQueues = [[]] ∧ l.localConsumeCount = 0 ∧
      l.pc = .enterLoop :=
    ⟨_, _, ⟨10, rfl⟩, ⟨_, rfl⟩, rfl, rfl, rfl, rfl, rfl⟩
  obtain ⟨sh, l, hleads, ⟨stalled, rfl⟩, hid, hqueue, hsends, hcount, hpc⟩ := hloop
  have hnext : Leads (⟨1, hash, flush⟩ : Mesh St) m
      (⟨1, [⟨[[.root (m.normalize m.initialState)]], 1, false⟩], stalled, 0, []⟩, l)
      (⟨1, [⟨[[.root (m.normalize m.initialState)]], 1, false⟩], stalled, 0, []⟩,
        { l with pc := .popNext }) := by
    refine leads_of_exec ?_
    simp only [exec, hpc, if_neg hflush, goto]
    rw [if_neg (by omega)]
  have hrecv : ∃ l', Leads (⟨1, hash, flush⟩ : Mesh St) m
      (⟨1, [⟨[[.root (m.normalize m.initialState)]], 1, false⟩], stalled, 0, []⟩,
        { l with pc := .popNext })
      (⟨1, [⟨[], 0, false⟩], stalled, 0, []⟩, l') ∧ l'.sendQueues = [[]] ∧
        l'.localConsumeCount = 1 ∧ l'.pc = .popNext := by
    obtain ⟨shardI, pc, queue, visited, history, chosen, result, loopCounter, sendQueues,
      localConsumeCount, entered, rejected, executed⟩ := l
    simp only at hid hqueue hsends hcount
    subst hid hqueue hsends hcount
    exact ⟨_, ⟨3, rfl⟩, rfl, rfl, rfl⟩
  obtain ⟨l', hleads', hsends', hcount', hpc'⟩ := hrecv
  exact ⟨_, l', ((hseed.trans hleads).trans hnext).trans hleads', ⟨stalled, 0, rfl⟩, hsends',
    hcount', hpc'⟩

/-- **`run()` on a single shard returns.** -/
theorem run_returns (hb : Bounded mesh m K) (hone : mesh.shardCount = 1) :
    ∃ (k : Nat) (c : Conf (Shared St K) (Local St K)) (l : Local St K),
      (machine mesh m).run (List.replicate k (0, .run)) (initial mesh) = some c ∧
      c.locals = [l] ∧ l.pc = .returned := by
  obtain ⟨sh, l, hstart, hcalm, hsends, hcount, hpc⟩ := start_leads (K := K) hb hone
  have hlocals : (initial mesh : Conf (Shared St K) (Local St K)).locals =
      [{ shardI := 0, history := .new, sendQueues := [[]] }] := by
    unfold initial
    rw [hone]
    rfl
  have hr₀ : Ran mesh m (initial mesh).shared
      ({ shardI := 0, history := .new, sendQueues := [[]] } : Local St K) := by
    refine ⟨[], ?_⟩
    rw [← hlocals]
    rfl
  obtain ⟨s, hleads, hret⟩ := loop_returns hb hone hb.branches.toFinset.card (hr₀.leads hstart)
    hcalm hsends hcount hpc (by omega)
  obtain ⟨k, hk⟩ := hstart.trans hleads
  refine ⟨k, _, s.2, Machine.run_alone (fun _ _ _ _ => rfl) (by rw [hlocals]; rfl) hk, ?_, hret⟩
  rw [hlocals]
  rfl

/-! ## Soundness and completeness on a single shard -/

/-- **A single shard explores what is reachable.** No complete choice sequence is executed
    twice. A run that has returned has visited reachable states only, all of them if it
    returned `ok`, and it returned `ok` if and only if the checks hold. For a finite model
    whose choices fit, the run returns. -/
theorem single_shard_check (mesh : Mesh St) (m : StateMachineModel St)
    (hone : mesh.shardCount = 1) :
    (∀ (c : Conf (Shared St K) (Local St K)) (l : Local St K),
      (machine mesh m).Reachable (initial mesh) c → c.locals = [l] →
        (l.executed.map fun e => (e.snapshot, e.choices)).Nodup ∧
        (l.pc = .returned → (∀ x ∈ l.visited, m.Reach x) ∧
          (l.result.ok = true → ∀ x, x ∈ l.visited ↔ m.Reach x) ∧
          (l.result.ok = true ↔ ChecksHold m))) ∧
    (Bounded mesh m K → ∃ (k : Nat) (c : Conf (Shared St K) (Local St K)) (l : Local St K),
      (machine mesh m).run (List.replicate k (0, .run)) (initial mesh) = some c ∧
        c.locals = [l] ∧ l.pc = .returned) := by
  refine ⟨fun c l hr hl => ?_, fun hb => run_returns hb hone⟩
  have hmem : l ∈ c.locals := by rw [hl]; simp
  have hheld := (sound_reachable hr).held l hmem
  refine ⟨(explored_reachable hr).executed_nodup hmem, fun hret => ⟨hheld.reach, fun hok x => ?_,
    ok_iff_checksHold hone hr hl hret⟩⟩
  have hsettled : Settled mesh m c := settled_of_allOk hr (by omega) fun k hk => by
    rw [hl] at hk
    rw [List.mem_singleton.mp hk]
    exact ⟨hret, hok⟩
  rw [← hsettled.visited_iff, hl]
  simp

theorem single_shard_check_toggle :
    ∃ (c : Conf (Shared Bool 1) (Local Bool 1)) (l : Local Bool 1),
      (machine oneShard toggle).run (List.replicate 53 (0, .run)) (initial oneShard) = some c ∧
      c.locals = [l] ∧ l.pc = .returned ∧ l.result.ok = true ∧
      (∀ x, x ∈ l.visited ↔ toggle.Reach x) ∧ ChecksHold toggle := by
  have hrun : ((machine oneShard toggle).run (List.replicate 53 (0, .run))
      (initial oneShard : Conf (Shared Bool 1) (Local Bool 1))).map
        (fun c => c.locals.all Local.returnedOk) = some true := by
    decide
  obtain ⟨c, hc, hall⟩ := Option.map_eq_some_iff.mp hrun
  obtain ⟨l, hl⟩ := List.length_eq_one_iff.mp (basic_reachable ⟨_, hc⟩).shards
  obtain ⟨hret, hok⟩ := allOk_of_all hall l (by rw [hl]; simp)
  obtain ⟨_, hdone⟩ := (single_shard_check oneShard toggle rfl).1 c l ⟨_, hc⟩ hl
  obtain ⟨_, hvisited, hchecks⟩ := hdone hret
  exact ⟨c, l, hc, hl, hret, hok, hvisited hok, hchecks.mp hok⟩

/-- `toggle`, where the switch must not be set. -/
def toggleOnFails : StateMachineModel Bool := { toggle with checkInvariants := fun s => !s }

def Pc.isReturned : Pc St K → Bool
  | .returned => true
  | _ => false

/-- **A run that stops at a violation has not visited everything.** -/
theorem violated_run_visits_less :
    ∃ (c : Conf (Shared Bool 1) (Local Bool 1)) (l : Local Bool 1),
      (machine oneShard toggleOnFails).run (List.replicate 28 (0, .run)) (initial oneShard) =
        some c ∧
      c.locals = [l] ∧ l.pc = .returned ∧ toggleOnFails.Reach true ∧ true ∉ l.visited := by
  have hrun : ((machine oneShard toggleOnFails).run (List.replicate 28 (0, .run))
      (initial oneShard : Conf (Shared Bool 1) (Local Bool 1))).map
        (fun c => c.locals.map fun l => (l.pc.isReturned, l.visited)) =
          some [(true, [false])] := by
    decide
  obtain ⟨c, hc, hview⟩ := Option.map_eq_some_iff.mp hrun
  obtain ⟨l, hl⟩ := List.length_eq_one_iff.mp (basic_reachable ⟨_, hc⟩).shards
  rw [hl] at hview
  simp only [List.map_cons, List.map_nil, List.cons.injEq, Prod.mk.injEq, and_true] at hview
  obtain ⟨hreturned, hvisited⟩ := hview
  have hret : l.pc = .returned := by
    cases hpc : l.pc <;> rw [hpc] at hreturned <;> first | rfl | cases hreturned
  have hset : Outcome (toggleOnFails.step false) [⟨2, 1⟩] true :=
    .pick (by omega) (by omega) (.ret true)
  have hreach : toggleOnFails.Reach true := .step .init hset
  exact ⟨c, l, hc, hl, hret, hreach, by simp [hvisited]⟩

end Batt.Checker
