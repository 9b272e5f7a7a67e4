/-
  What `run()` reports, and what it has then done.

  `ok` is true after the loop has begun exactly as long as no check has failed
  (`Report.Honest`), and `branch_pop_count` counts the branches taken up and those rejected.
  A run whose shards have all returned with `ok` has explored everything: its visited states
  are the reachable ones (`visited_iff`), each branch of each was taken up by one shard, once
  (`entered_once`), and all checks hold on all of them (`checks_hold`).
-/
import Batt.Checker.Explore

namespace Batt.Checker

open Interleave Choice

variable {St : Type} {K : Nat} {l l' : Local St K} {mesh : Mesh St}

/-! ## The result of a shard -/

structure Report (St : Type) where
  ok : Bool
  popped : Nat
  entered : List (St × List Digit)
  rejected : List (St × List Digit)
  executed : List (Execution St)

def Local.report (l : Local St K) : Report St where
  ok := l.result.ok
  popped := l.result.branchPopCount
  entered := l.entered
  rejected := l.rejected
  executed := l.executed

structure Report.Honest (m : StateMachineModel St) (begun : Bool) (r : Report St) : Prop where
  unbegun : begun = false → r.rejected = [] ∧ r.executed = []
  ok : begun = true →
    (r.ok = true ↔ r.rejected = [] ∧ ∀ e ∈ r.executed, m.checkInvariants e.raw = true)
  popped : r.popped = r.entered.length + r.rejected.length

theorem Queued.report {b : Branch St K} {caller : ExploreCaller St K}
    (h : Queued mesh l b caller l') : l'.report = l.report := by
  obtain ⟨_, _, _, rfl⟩ := h
  rfl

theorem Buffered.report {force : Bool} {b : Branch St K} {caller : ExploreCaller St K}
    (h : Buffered mesh force l b caller l') :
    l'.report = l.report := by
  obtain ⟨_, _, _, rfl⟩ := h
  rfl

section

variable [NeZero K] [DecidableEq St] {c : Conf (Shared St K) (Local St K)}
  {m : StateMachineModel St} {x : St}

/-- What a step changes of the report. -/
theorem trans_report {sh sh' : Shared St K} (ht : Trans mesh m sh l sh' l') :
    l'.report = l.report ∨
      (l.pc.begun = false ∧ l'.report = { l.report with ok := true }) ∨
      (∃ κ, l.pc.begun = true ∧ l'.report = { l.report with
        popped := l.report.popped + 1
        entered := l.report.entered ++ [κ] }) ∨
      (∃ κ, l.pc.begun = true ∧ l'.report = { l.report with
        ok := false
        popped := l.report.popped + 1
        rejected := l.report.rejected ++ [κ] }) ∨
      ∃ e, l.pc.begun = true ∧ l'.report = { l.report with
        ok := l.report.ok && m.checkInvariants e.raw
        executed := l.report.executed ++ [e] } := by
  cases ht with
  | begin at_ => exact .inr (.inl ⟨by rw [at_]; rfl, rfl⟩)
  | enter b _ at_ => exact .inr (.inr (.inl ⟨b.key, by rw [at_]; rfl, rfl⟩))
  | reject b _ at_ => exact .inr (.inr (.inr (.inl ⟨b.key, by rw [at_]; rfl, rfl⟩)))
  | violated current raw at_ h =>
    refine .inr (.inr (.inr (.inr ⟨⟨current.snapshot, l.chosen, raw⟩, by rw [at_]; rfl, ?_⟩)))
    simp only [h, Bool.and_false]
    rfl
  | known current raw _ at_ h =>
    refine .inr (.inr (.inr (.inr ⟨⟨current.snapshot, l.chosen, raw⟩, by rw [at_]; rfl, ?_⟩)))
    simp only [h, Bool.and_true]
    rfl
  | discover current raw l₁ _ at_ h _ hl₁ send =>
    refine .inr (.inr (.inr (.inr ⟨⟨current.snapshot, l.chosen, raw⟩, by rw [at_]; rfl, ?_⟩)))
    have hreport : l'.report = l₁.report := by
      rcases send with hq | hb
      · exact hq.report
      · exact hb.report
    rw [hreport, hl₁]
    simp only [h, Bool.and_true]
    rfl
  | seed _ _ send => exact .inl send.report
  | sibling _ _ _ _ _ _ _ _ _ _ send =>
    rcases send with hq | hb
    · exact .inl hq.report
    · exact .inl hb.report
  | _ => exact .inl rfl

theorem honest_trans {sh sh' : Shared St K} (h : l.report.Honest m l.pc.begun)
    (ht : Trans mesh m sh l sh' l') :
    l'.report.Honest m l'.pc.begun := by
  have hreport := trans_report ht
  rcases trans_begun ht with hb | ⟨_, hok, hunbegun, hbegun⟩
  · rw [hb]
    rcases hreport with hr | ⟨hf, hr⟩ | ⟨κ, ht, hr⟩ | ⟨κ, ht, hr⟩ | ⟨e, ht, hr⟩
    · rw [hr]
      exact h
    · rw [hr]
      exact ⟨h.unbegun, fun ht => absurd (hf.symm.trans ht) (by simp), h.popped⟩
    · rw [hr]
      refine ⟨h.unbegun, h.ok, ?_⟩
      simp only [h.popped, List.length_append, List.length_singleton]
      omega
    · rw [hr]
      refine ⟨fun hf => absurd (ht.symm.trans hf) (by simp), fun _ => ?_, ?_⟩
      · simp
      · simp only [h.popped, List.length_append, List.length_singleton]
        omega
    · rw [hr]
      refine ⟨fun hf => absurd (ht.symm.trans hf) (by simp), fun _ => ?_, h.popped⟩
      simp only [Bool.and_eq_true, h.ok ht, List.forall_mem_append, List.forall_mem_singleton,
        and_assoc]
  · -- the loop begins, and nothing has been done before it
    obtain ⟨hrej, hexe⟩ := h.unbegun hunbegun
    have hkeep : l'.report.rejected = l.report.rejected ∧ l'.report.executed = l.report.executed ∧
        l'.report.popped = l'.report.entered.length + l.report.rejected.length := by
      rcases hreport with hr | ⟨_, hr⟩ | ⟨_, ht, _⟩ | ⟨_, ht, _⟩ | ⟨_, ht, _⟩
      · rw [hr]
        exact ⟨rfl, rfl, h.popped⟩
      · rw [hr]
        exact ⟨rfl, rfl, h.popped⟩
      all_goals
        rw [hunbegun] at ht
        cases ht
    obtain ⟨h1, h2, h3⟩ := hkeep
    rw [hbegun]
    refine ⟨fun hf => absurd hf (by simp), fun _ => ?_, h1 ▸ h3⟩
    rw [h1, h2, hrej, hexe]
    exact iff_of_true hok ⟨rfl, by simp⟩

theorem honest_reachable (h : (machine mesh m).Reachable (initial mesh) c) :
    ∀ l ∈ c.locals, l.report.Honest m l.pc.begun := by
  refine Machine.invariant (I := fun c => ∀ l ∈ c.locals, l.report.Honest m l.pc.begun) ?_ ?_ h
  · intro c i a c' hi hf
    obtain ⟨l, sh', l', hl, ht, rfl⟩ := fire_trans hf
    exact forall_set (honest_trans (hi l (List.mem_of_getElem? hl)) ht)
      fun j k _ hj => hi k (List.mem_of_getElem? hj)
  · intro l hl
    obtain ⟨i, _, rfl⟩ := List.mem_map.mp hl
    exact ⟨fun _ => ⟨rfl, rfl⟩, fun hb => (by cases hb), rfl⟩

/-! ## No branch twice -/

section

variable {mesh : Mesh St} {m : StateMachineModel St} {c : Conf (Shared St K) (Local St K)}

/-- How often the branch was taken up, on all shards. -/
def taken (κ : St × List Digit) (c : Conf (Shared St K) (Local St K)) : Nat :=
  total (fun l => l.entered.count κ) c.locals

omit [NeZero K] in
theorem exists_of_taken {κ : St × List Digit} (h : 0 < taken κ c) :
    ∃ l ∈ c.locals, κ ∈ l.entered := by
  obtain ⟨l, hl, hpos⟩ := exists_of_total_pos h
  exact ⟨l, hl, List.count_pos_iff.mp hpos⟩

/-- Only the shard that owns a state takes up its root. -/
theorem Explored.taken_root (h : Explored mesh m c) {i : Nat} (hl : c.locals[i]? = some l)
    (hx : (x, []) ∈ l.entered) :
    taken (x, []) c = l.entered.count (x, []) ∧ l.entered.count (x, []) ≤ 1 := by
  have hroots : ∀ k ∈ c.locals, k.entered.count (x, []) ≤
      if mesh.owner K x = k.shardI ∧ x ∈ k.view.visited then 1 else 0 := by
    intro k hk
    rw [← h.rooted k hk x]
    show _ ≤ total (weigh (x, [])) k.queue + k.entered.count (x, []) + k.rejected.count (x, [])
    omega
  have hmem := List.mem_of_getElem? hl
  have hpos := List.count_pos_iff.mpr hx
  have hl' := hroots l hmem
  have howner : mesh.owner K x = l.shardI := by
    by_contra hne
    rw [if_neg fun h' => hne h'.1] at hl'
    omega
  refine ⟨total_eq_single hl fun j k hji hj => ?_, hl'.trans (by split <;> omega)⟩
  have hk := hroots k (List.mem_of_getElem? hj)
  have hids := h.sound.basic.ids
  have h1 := hids i l hl
  have h2 := hids j k hj
  rw [if_neg fun h' => hji (by omega)] at hk
  omega

/-- **A branch is taken up at most once**, whatever the shards and in whatever order. -/
theorem Explored.taken_le_one (h : Explored mesh m c) (x : St) (ds : List Digit) :
    taken (x, ds) c ≤ 1 := by
  by_cases hne : ds = []
  · subst hne
    by_contra hgt
    obtain ⟨l, hl, hx⟩ := exists_of_taken (show 0 < taken (x, []) c by omega)
    obtain ⟨i, hi⟩ := List.mem_iff_getElem?.mp hl
    obtain ⟨heq, hle⟩ := h.taken_root hi hx
    omega
  · have ih := h.taken_le_one x (parent ds)
    have hg := h.grown (x, ds) hne
    have hshare : taken (x, ds) c ≤ total (fun l : Local St K => l.view.share (x, ds)) c.locals :=
      total_mono c.locals fun l => by
        show _ ≤ total (weigh (x, ds)) l.queue + _ + l.entered.count (x, ds) + _
        omega
    have hdue : total (fun l : Local St K => due m (x, ds) l.view.entered) c.locals ≤
        taken (x, parent ds) c :=
      total_mono c.locals fun l => by
        unfold due
        split
        · exact Nat.le_refl _
        · exact Nat.zero_le _
    omega
termination_by ds.length
decreasing_by exact length_parent_lt hne

/-- No complete choice sequence is executed twice. -/
theorem Explored.executed_nodup (h : Explored mesh m c) (hl : l ∈ c.locals) :
    (l.executed.map fun e => (e.snapshot, e.choices)).Nodup := by
  have hentered : l.entered.Nodup := by
    refine List.nodup_iff_count_le_one.mpr fun κ => ?_
    exact (le_total (fun l : Local St K => l.entered.count κ) hl).trans (h.taken_le_one κ.1 κ.2)
  have hfirst : l.executed.map Execution.key <+: l.entered := by
    have hheld := h.sound.held l hl
    cases hrun : l.view.running with
    | none => exact (hheld.midway.rest hrun).1 ▸ List.prefix_refl _
    | some r =>
      obtain ⟨es, heq, _⟩ := hheld.midway.call r.1 r.2 hrun
      exact ⟨_, heq.symm⟩
  have hkeys := hentered.sublist hfirst.sublist
  have hmap : l.executed.map Execution.key =
      (l.executed.map fun e => (e.snapshot, e.choices)).map fun r => (r.1, stem r.2) := by
    rw [List.map_map]
    rfl
  rw [hmap] at hkeys
  exact hkeys.of_map _

end

/-! ## A run that has returned -/

/-- `run()` has returned on every shard with `ok`. -/
def AllOk (c : Conf (Shared St K) (Local St K)) : Prop :=
  ∀ l ∈ c.locals, l.pc = .returned ∧ l.result.ok = true

def Local.returnedOk (l : Local St K) : Bool :=
  match l.pc with
  | .returned => l.result.ok
  | _ => false

omit [DecidableEq St] [NeZero K] in
theorem allOk_of_all (h : c.locals.all Local.returnedOk = true) : AllOk c := by
  intro l hl
  have hret := List.all_eq_true.mp h l hl
  unfold Local.returnedOk at hret
  split at hret
  · rename_i hpc
    exact ⟨hpc, hret⟩
  · cases hret

omit [DecidableEq St] [NeZero K] in
/-- No branch is left anywhere. -/
theorem floating_of_quiet (hq : AllQuiet c) (hdropped : c.shared.dropped = [])
    (w : Branch St K → Nat) : floating w c = 0 := by
  have hleft := hq.nothingLeft
  have hsent : total (sent w) c.locals = 0 := total_eq_zero.mpr fun l hl => by
    unfold sent
    rw [hleft.batches l hl, total_nil, Nat.add_zero, total_eq_zero]
    intro s hs
    rw [hleft.sendBuffers l hl s hs, total_nil]
  have hitems : total (fun q : RecvQueue St K => total (total w) q.items) c.shared.recvQueues = 0 :=
    total_eq_zero.mpr fun q hq => by
      rw [hleft.recvQueues q hq, total_nil]
  unfold floating afloat
  rw [hsent, hitems, hdropped, total_nil]

/-- What is known of a run in which all shards have returned with `ok`. -/
structure Settled (mesh : Mesh St) (m : StateMachineModel St)
    (c : Conf (Shared St K) (Local St K)) : Prop where
  explored : Explored mesh m c
  returned : ∀ l ∈ c.locals, l.pc = .returned
  queues : ∀ l ∈ c.locals, l.queue = []
  landed : ∀ w, floating w c = 0
  rejected : ∀ l ∈ c.locals, l.rejected = []
  passed : ∀ l ∈ c.locals, ∀ e ∈ l.executed, m.checkInvariants e.raw = true
  some : ∃ l, l ∈ c.locals

theorem settled_of_allOk (hr : (machine mesh m).Reachable (initial mesh) c)
    (hn : 0 < mesh.shardCount) (hok : AllOk c) : Settled mesh m c := by
  have he := explored_reachable hr
  have hd := detected_reachable hr
  obtain ⟨l₀, hl₀⟩ : ∃ l, l ∈ c.locals :=
    List.exists_mem_of_length_pos (by rw [he.sound.basic.shards]; exact hn)
  have hno : NoEarlyExit c := fun l hl _ => (hok l hl).2
  have hquiet := hd.quiet hno (.inl ⟨l₀, hl₀, by rw [(hok l₀ hl₀).1]; rfl⟩)
  have hhonest : ∀ l ∈ c.locals,
      l.rejected = [] ∧ ∀ e ∈ l.executed, m.checkInvariants e.raw = true := by
    intro l hl
    have := honest_reachable hr l hl
    exact (this.ok (by rw [(hok l hl).1]; rfl)).mp (hok l hl).2
  exact
    { explored := he
      returned := fun l hl => (hok l hl).1
      queues := fun l hl => (hquiet.shards l hl).1.1.1
      landed := floating_of_quiet hquiet (hd.kept hno)
      rejected := fun l hl => (hhonest l hl).1
      passed := fun l hl => (hhonest l hl).2
      some := ⟨l₀, hl₀⟩ }

section

variable {mesh : Mesh St} {m : StateMachineModel St} {c : Conf (Shared St K) (Local St K)}

theorem Settled.view (h : Settled mesh m c) (hl : l ∈ c.locals) :
    l.view.running = none ∧ l.view.future = [] := by
  unfold Local.view
  rw [h.returned l hl]
  exact ⟨rfl, rfl⟩

/-- A child is taken up as often as its parent. -/
theorem Settled.taken_child (h : Settled mesh m c) {κ : St × List Digit} (hκ : κ.2 ≠ []) :
    taken κ c =
      if κ.2 ∈ pending (m.step κ.1) (parent κ.2) [] then taken (κ.1, parent κ.2) c else 0 := by
  have hg := h.explored.grown κ hκ
  have hshare : total (fun l : Local St K => l.view.share κ) c.locals = taken κ c := by
    refine congrArg List.sum (List.map_congr_left fun l hl => ?_)
    unfold View.share
    rw [(h.view hl).2]
    show total (weigh κ) l.queue + _ + l.entered.count κ + l.rejected.count κ = _
    rw [h.queues l hl, h.rejected l hl]
    simp
  rw [hshare, h.landed, Nat.add_zero] at hg
  rw [hg]
  unfold due
  split
  · rfl
  · exact total_eq_zero.mpr fun _ _ => rfl

/-- The root of a state is taken up by the owner, once, if anybody has visited the state. -/
theorem Settled.taken_root (h : Settled mesh m c) (hx : Arrives mesh x c) :
    taken (x, []) c = 1 := by
  rcases hx with ⟨l, hl, howner, hx⟩ | hpos
  · obtain ⟨i, hi⟩ := List.mem_iff_getElem?.mp hl
    have hroots : ∀ k ∈ c.locals, k.entered.count (x, []) = k.view.roots x := by
      intro k hk
      show _ = total (weigh (x, [])) k.queue + k.entered.count (x, []) + k.rejected.count (x, [])
      rw [h.queues k hk, h.rejected k hk]
      simp
    have hone : l.entered.count (x, []) = 1 := by
      rw [hroots l hl, h.explored.rooted l hl x, if_pos ⟨howner.symm, hx⟩]
    rw [← hone]
    refine total_eq_single hi fun j k hji hj => ?_
    have hk := List.mem_of_getElem? hj
    rw [hroots k hk, h.explored.rooted k hk x]
    refine if_neg fun hown => hji ?_
    have hids := h.explored.sound.basic.ids
    have h1 := hids i l hi
    have h2 := hids j k hj
    omega
  · rw [h.landed] at hpos
    cases hpos

theorem Settled.taken_branch (h : Settled mesh m c) (hx : Arrives mesh x c) {ds : List Digit}
    (hds : IsBranch (m.step x) ds) : taken (x, ds) c = 1 := by
  by_cases hne : ds = []
  · rw [hne]
    exact h.taken_root hx
  · have hparent := isBranch_parent hds hne
    have ih := h.taken_branch hx hparent
    rw [h.taken_child hne, if_pos ((mem_pending_iff hparent).mpr ⟨hds, hne, rfl⟩)]
    exact ih
termination_by ds.length
decreasing_by exact length_parent_lt hne

/-- Every branch of a state that somebody has visited was rerun. -/
theorem Settled.rerun (h : Settled mesh m c) (hx : Arrives mesh x c) {ds : List Digit}
    (hds : IsBranch (m.step x) ds) :
    ∃ l ∈ c.locals, ∃ e ∈ l.executed, e.key = (x, ds) := by
  have hone := h.taken_branch hx hds
  obtain ⟨l, hl, hentered⟩ := exists_of_taken (show 0 < taken (x, ds) c by omega)
  have hheld := h.explored.sound.held l hl
  have hkeys : l.entered = l.executed.map Execution.key := (hheld.midway.rest (h.view hl).1).1
  rw [hkeys] at hentered
  obtain ⟨e, he, hkey⟩ := List.mem_map.mp hentered
  exact ⟨l, hl, e, he, hkey⟩

/-- Every outcome was executed. -/
theorem Settled.executed (h : Settled mesh m c) {raw : St} (hx : Arrives mesh x c) {ds : List Digit}
    (ho : Outcome (m.step x) ds raw) :
    ∃ l ∈ c.locals, (⟨x, ds, raw⟩ : Execution St) ∈ l.executed := by
  obtain ⟨hbranch, hfinish⟩ := finish_stem ho
  obtain ⟨l, hl, ⟨y, cs, raw'⟩, he, hkey⟩ := h.rerun hx hbranch
  obtain ⟨rfl, hstem⟩ := Prod.mk.inj hkey
  -- the same branch ends in the same way
  obtain ⟨_, hfinish'⟩ := finish_stem ((h.explored.sound.held l hl).outcomes _ he).2
  simp only at hstem hfinish'
  rw [hstem, hfinish] at hfinish'
  cases hfinish'
  exact ⟨l, hl, he⟩

/-- **Completeness**: the owner of a reachable state has visited it. -/
theorem Settled.arrives (h : Settled mesh m c) (hx : m.Reach x) : Arrives mesh x c := by
  induction hx with
  | init =>
    obtain ⟨l, hl⟩ := h.some
    exact h.explored.known.seeded ⟨l, hl, by rw [h.returned l hl]; simp⟩
  | step _ ho ih =>
    obtain ⟨l, hl, he⟩ := h.executed ih ho
    have hheld := h.explored.sound.held l hl
    rcases hheld.seen _ he (h.passed l hl _ he) with hself | hvisited
    · rw [hself]
      exact ih
    · exact h.explored.known.visited l hl _ hvisited

theorem Settled.visited_iff (h : Settled mesh m c) (x : St) :
    (∃ l ∈ c.locals, x ∈ l.visited) ↔ m.Reach x := by
  constructor
  · rintro ⟨l, hl, hx⟩
    exact (h.explored.sound.held l hl).reach x hx
  · intro hx
    rcases h.arrives hx with ⟨l, hl, _, hx⟩ | hpos
    · exact ⟨l, hl, hx⟩
    · rw [h.landed] at hpos
      cases hpos

/-- The checks hold on every reachable state and on every transition out of one. -/
def ChecksHold (m : StateMachineModel St) : Prop :=
  ∀ x, m.Reach x → m.checkInvariants x = true ∧
    ∀ ds raw, Outcome (m.step x) ds raw → m.checkInvariants raw = true

theorem Settled.checksHold (h : Settled mesh m c) : ChecksHold m := by
  intro x hx
  have harrives := h.arrives hx
  constructor
  · have hone := h.taken_root harrives
    obtain ⟨l, hl, hentered⟩ := exists_of_taken (show 0 < taken (x, []) c by omega)
    exact ((h.explored.sound.held l hl).entered _ hentered).2.2
  · intro ds raw ho
    obtain ⟨l, hl, he⟩ := h.executed harrives ho
    exact h.passed l hl _ he

end

end

end Batt.Checker
