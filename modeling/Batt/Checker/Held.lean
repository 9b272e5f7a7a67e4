/-
  What the shards hold is right.

  `Reach` are the states of the model. Every branch anywhere is a branch of a reachable state,
  encoded in its `delta` (`WellFormed`), and is where `find_shard` says (`Placed`). A shard
  has visited reachable states only and has executed outcomes of `step()` only; the branches it
  has taken up are those it has executed and the one it is executing (`Midway`).
-/
import Batt.Checker.Branches

namespace Batt.Checker

open Interleave Choice RadixQueue

variable {St : Type} {K : Nat} {m : StateMachineModel St} {mesh : Mesh St} {l l' : Local St K}
  {sh sh' : Shared St K} {b : Branch St K} {visited : List St} {v : View St K}

/-! ## The states of a model -/

/-- The normalized states that `step()` leads to from the initial one, over all choices. -/
inductive StateMachineModel.Reach (m : StateMachineModel St) : St → Prop where
  | init : m.Reach (m.normalize m.initialState)
  | step {x raw : St} {ds : List Digit} (hx : m.Reach x) (h : Outcome (m.step x) ds raw) :
      m.Reach (m.normalize raw)

structure Branch.WellFormed (m : StateMachineModel St) (b : Branch St K) : Prop where
  reach : m.Reach b.snapshot
  branch : IsBranch (m.step b.snapshot) b.path
  encodes : Encodes b.delta b.path

theorem Branch.WellFormed.empty_iff (h : b.WellFormed m) : b.delta.empty = true ↔ b.path = [] :=
  delta_empty_iff h.branch.1 h.encodes

theorem wellFormed_root [NeZero K] {x : St} (h : m.Reach x) :
    (Branch.root x : Branch St K).WellFormed m :=
  ⟨h, isBranch_nil _, encodes_new⟩

/-- `find_shard` of the branch that `explore` is called with for a state. -/
def Mesh.owner (mesh : Mesh St) (K : Nat) [NeZero K] (x : St) : Nat :=
  mesh.findShard (.root x : Branch St K)

/-- `find_shard` reads no more of an empty `delta` than of a new one. -/
theorem findShard_of_path_nil [NeZero K] (h : b.WellFormed m) (hpath : b.path = []) :
    mesh.findShard b = mesh.owner K b.snapshot := by
  have hlive : b.delta.live = [⟨1, 0⟩] := by
    have he := h.encodes
    rw [hpath] at he
    exact he.live_nil
  unfold Mesh.owner Mesh.findShard Branch.root
  rw [hlive, live_new]

/-! ## Branches are where they belong -/

def Pc.Placed (mesh : Mesh St) : Pc St K → Prop
  | .pushAdd dst batch _ | .pushOpen dst batch _ | .pushEmplace dst batch _ =>
    ∀ b ∈ batch, mesh.findShard b = dst
  | _ => True

structure Local.Placed (mesh : Mesh St) (l : Local St K) : Prop where
  queue : ∀ b ∈ l.queue, mesh.findShard b = l.shardI
  sends : ∀ (d : Nat) (s : List (Branch St K)), l.sendQueues[d]? = some s →
    ∀ b ∈ s, mesh.findShard b = d
  batch : l.pc.Placed mesh

def Shared.Placed (mesh : Mesh St) (sh : Shared St K) : Prop :=
  ∀ (d : Nat) (q : RecvQueue St K), sh.recvQueues[d]? = some q →
    ∀ batch ∈ q.items, ∀ b ∈ batch, mesh.findShard b = d

theorem explore_resume_placed (mesh : Mesh St) (caller : ExploreCaller St K) :
    caller.resume.Placed mesh := by
  cases caller <;> trivial

theorem push_resume_placed (mesh : Mesh St) (caller : PushCaller St K) :
    caller.resume.Placed mesh := by
  cases caller with
  | send caller => exact explore_resume_placed mesh caller
  | flushAll => trivial

theorem jump_placed {pc pc' : Pc St K} (hj : Jump sh l pc pc') (h : pc.Placed mesh) :
    pc'.Placed mesh := by
  cases hj with
  | notStalled _ caller => exact explore_resume_placed mesh caller
  | flushDone _ caller => cases caller <;> trivial
  | pushOpen => exact h
  | _ => trivial

theorem Queued.placed {caller : ExploreCaller St K} (h : Queued mesh l b caller l')
    (hl : l.Placed mesh) :
    l'.Placed mesh := by
  obtain ⟨howner, _, _, rfl⟩ := h
  refine ⟨?_, hl.sends, explore_resume_placed mesh caller⟩
  intro b' hb'
  rcases List.mem_append.mp hb' with h | h
  · exact hl.queue b' h
  · rw [List.mem_singleton.mp h]
    exact howner

theorem Buffered.placed {force : Bool} {caller : ExploreCaller St K}
    (h : Buffered mesh force l b caller l') (hl : l.Placed mesh) :
    l'.Placed mesh := by
  obtain ⟨_, _, _, rfl⟩ := h
  refine ⟨hl.queue, ?_, trivial⟩
  intro d s hs b' hb'
  simp only [List.getElem?_modify] at hs
  obtain ⟨s₀, hs₀, rfl⟩ := Option.map_eq_some_iff.mp hs
  split at hb'
  · rename_i heq
    rcases List.mem_append.mp hb' with h | h
    · exact hl.sends d s₀ hs₀ b' h
    · rw [List.mem_singleton.mp h]
      exact heq
  · exact hl.sends d s₀ hs₀ b' hb'

theorem placed_beginPush (hl : l.Placed mesh) (dst : Nat) (caller : PushCaller St K) :
    (beginPush l dst caller).Placed mesh := by
  refine ⟨hl.queue, ?_, ?_⟩
  · intro d s hs b hb
    simp only [beginPush, List.getElem?_set] at hs
    split at hs
    · split at hs
      · cases hs
        cases hb
      · cases hs
    · exact hl.sends d s hs b hb
  · intro b hb
    cases hs : l.sendQueues[dst]? with
    | none =>
      rw [hs] at hb
      cases hb
    | some s =>
      rw [hs] at hb
      exact hl.sends dst s hs b hb

/-- A queue is changed in place. -/
theorem placed_modify {i : Nat} {f : RecvQueue St K → RecvQueue St K} (h : sh.Placed mesh)
    (hf : ∀ q, sh.recvQueues[i]? = some q →
      ∀ batch ∈ (f q).items, batch ∈ q.items ∨ ∀ b ∈ batch, mesh.findShard b = i) :
    (sh.modifyQueue i f).Placed mesh := by
  intro d q hq batch hbatch b hb
  simp only [Shared.modifyQueue, List.getElem?_modify] at hq
  obtain ⟨q₀, hq₀, rfl⟩ := Option.map_eq_some_iff.mp hq
  split at hbatch
  · rename_i heq
    subst heq
    rcases hf q₀ hq₀ batch hbatch with h' | h'
    · exact h i q₀ hq₀ batch h' b hb
    · exact h' b hb
  · exact h d q₀ hq₀ batch hbatch b hb

theorem dedup_subset [DecidableEq St] (visited : List St) (bs : List (Branch St K)) :
    (dedup visited bs).2 ⊆ bs := by
  induction bs generalizing visited with
  | nil => exact List.nil_subset _
  | cons b bs ih =>
    unfold dedup
    split
    · split
      · exact List.subset_cons_of_subset _ (ih _)
      · exact List.cons_subset_cons _ (ih _)
    · exact List.cons_subset_cons _ (ih _)

section

variable [NeZero K] [DecidableEq St]

theorem placed_trans (hsh : sh.Placed mesh) (hl : l.Placed mesh) (ht : Trans mesh m sh l sh' l') :
    sh'.Placed mesh ∧ l'.Placed mesh := by
  have hmove : ∀ pc : Pc St K, pc.Placed mesh → ({ l with pc := pc } : Local St K).Placed mesh :=
    fun pc hpc => ⟨hl.queue, hl.sends, hpc⟩
  have hbatch := hl.batch
  cases ht with
  | jump pc' _ same hj =>
    obtain ⟨_, rfl⟩ := same
    exact ⟨hsh, hmove pc' (jump_placed hj hl.batch)⟩
  | seed _ _ send => exact ⟨hsh, send.placed hl⟩
  | swap dst caller => exact ⟨hsh, placed_beginPush hl dst caller⟩
  | pushAdd dst batch caller at_ =>
    rw [at_] at hbatch
    exact ⟨hsh, hmove _ hbatch⟩
  | pushLost dst batch caller => exact ⟨hsh, hmove _ (push_resume_placed mesh caller)⟩
  | pushEmplace dst batch caller at_ =>
    rw [at_] at hbatch
    refine ⟨placed_modify hsh fun q _ s hs => ?_, hmove _ trivial⟩
    rcases List.mem_append.mp hs with h | h
    · exact .inl h
    · rw [List.mem_singleton.mp h]
      exact .inr hbatch
  | pushNotify dst caller =>
    exact ⟨placed_modify hsh fun _ _ _ hs => .inl hs, hmove _ (push_resume_placed mesh caller)⟩
  | enter b rest at_ hqueue | reject b rest at_ hqueue =>
    refine ⟨hsh, ⟨fun b' hb' => hl.queue b' ?_, hl.sends, trivial⟩⟩
    rw [hqueue]
    exact List.mem_cons_of_mem _ hb'
  | sibling _ _ _ _ _ _ _ _ _ _ send =>
    rcases send with hq | hb
    · exact ⟨hsh, hq.placed hl⟩
    · exact ⟨hsh, hb.placed hl⟩
  | discover _ _ l₁ _ _ _ _ hl₁ send =>
    have hl₁' : l₁.Placed mesh := by
      rw [hl₁]
      exact ⟨hl.queue, hl.sends, trivial⟩
    rcases send with hq | hb
    · exact ⟨hsh, hq.placed hl₁'⟩
    · exact ⟨hsh, hb.placed hl₁'⟩
  | receive stalled q batch items at_ hq hitems =>
    refine ⟨placed_modify hsh fun q' hq' s hs => ?_, ⟨?_, hl.sends, ?_⟩⟩
    · rw [hq] at hq'
      cases hq'
      rw [hitems]
      exact .inl (List.mem_cons_of_mem _ hs)
    · intro b hb
      rcases List.mem_append.mp (dedup_subset _ _ hb) with h | h
      · exact hl.queue b h
      · exact hsh _ q hq batch (by rw [hitems]; simp) b h
    · cases stalled <;> trivial
  | ack at_ pc' hpc =>
    refine ⟨hsh, ⟨hl.queue, hl.sends, ?_⟩⟩
    subst hpc
    show Pc.Placed mesh (if _ then _ else _)
    split <;> trivial
  | acquire | close | finishedClose | drainAcquire =>
    exact ⟨placed_modify hsh fun _ _ _ hs => .inl hs, hmove _ trivial⟩
  | drainPop q batch items at_ hq hitems =>
    have hpop : (sh.modifyQueue l.shardI fun q => { q with items := items }).Placed mesh :=
      placed_modify hsh fun q' hq' s hs => by
        rw [hq] at hq'
        cases hq'
        rw [hitems]
        exact .inl (List.mem_cons_of_mem _ hs)
    exact ⟨hpop, hmove _ trivial⟩
  | barrierSub | begin | replay | lowest | violated | known =>
    exact ⟨hsh, ⟨hl.queue, hl.sends, trivial⟩⟩

end

/-! ## What a shard holds -/

/-- The branches taken up are those executed and the one being executed, which has still to
    queue some of its children. -/
structure View.Midway (m : StateMachineModel St) (v : View St K) : Prop where
  rest : v.running = none → v.entered = v.executed.map Execution.key ∧ v.future = []
  call : ∀ x r, v.running = some (x, r) → ∃ es,
    v.entered = v.executed.map Execution.key ++ [(x, es)] ∧ m.Reach x ∧
      IsBranch (m.step x) es ∧ r = finish (m.step x) es [] ∧
      ∀ κ ∈ v.future, κ.1 = x ∧ κ.2 ∈ pending (m.step x) es []

/-- The next of the children is queued. -/
theorem View.Midway.advance (h : v.Midway m) {κ : St × List Digit} {rest : List (St × List Digit)}
    (hfuture : v.future = κ :: rest) {queue : List (Branch St K)} :
    ({ v with queue := queue, future := rest } : View St K).Midway m := by
  refine ⟨fun hrun => ?_, fun x r hrun => ?_⟩
  · have hnil := (h.rest hrun).2
    rw [hfuture] at hnil
    cases hnil
  · obtain ⟨es, hentered, hreach, hbranch, hr, hall⟩ := h.call x r hrun
    refine ⟨es, hentered, hreach, hbranch, hr, fun κ' hκ' => hall κ' ?_⟩
    rw [hfuture]
    exact List.mem_cons_of_mem _ hκ'

structure View.Held (m : StateMachineModel St) (v : View St K) : Prop where
  queue : ∀ b ∈ v.queue, b.WellFormed m
  reach : ∀ x ∈ v.visited, m.Reach x
  nodup : v.visited.Nodup
  entered : ∀ κ ∈ v.entered, m.Reach κ.1 ∧ IsBranch (m.step κ.1) κ.2 ∧
    m.checkInvariants κ.1 = true
  rejected : ∀ κ ∈ v.rejected, m.Reach κ.1 ∧ m.checkInvariants κ.1 = false
  outcomes : ∀ e ∈ v.executed, m.Reach e.snapshot ∧ Outcome (m.step e.snapshot) e.choices e.raw
  seen : ∀ e ∈ v.executed, m.checkInvariants e.raw = true →
    m.normalize e.raw = e.snapshot ∨ m.normalize e.raw ∈ v.visited
  midway : v.Midway m

/-- A call of `step()` that returns has run the branch taken up last. -/
theorem View.Held.returned (h : v.Held m) {e : Execution St}
    (hrun : v.running = some (e.snapshot, some (e.choices, e.raw))) :
    m.Reach e.snapshot ∧ Outcome (m.step e.snapshot) e.choices e.raw ∧
      v.entered = (v.executed ++ [e]).map Execution.key := by
  obtain ⟨es, hentered, hreach, hbranch, hfinish, _⟩ := h.midway.call _ _ hrun
  obtain ⟨zs, hz, hcs, ho⟩ := outcome_of_finish hbranch.1 hfinish.symm
  rw [List.nil_append] at hcs
  refine ⟨hreach, hcs ▸ ho, ?_⟩
  have hkey : e.key = (e.snapshot, es) := by
    unfold Execution.key
    rw [hcs, stem_append_lowest hz, hbranch.2]
  rw [hentered, List.map_append, List.map_singleton, hkey]

/-- A branch that a call has still to queue. -/
theorem View.Held.upcoming (h : v.Held m) {κ : St × List Digit} (hκ : κ ∈ v.future)
    :
    m.Reach κ.1 ∧ IsBranch (m.step κ.1) κ.2 ∧ κ.2 ≠ [] := by
  cases hrun : v.running with
  | none =>
    rw [(h.midway.rest hrun).2] at hκ
    cases hκ
  | some r =>
    obtain ⟨es, _, hreach, hbranch, _, hfuture⟩ := h.midway.call r.1 r.2 hrun
    obtain ⟨hx, hmem⟩ := hfuture κ hκ
    rw [← hx] at hreach hbranch hmem
    obtain ⟨hbr, hne, _⟩ := (mem_pending_iff hbranch).mp hmem
    exact ⟨hreach, hbr, hne⟩

/-- Counts the branches that are not well-formed. -/
noncomputable def illFormed (m : StateMachineModel St) (b : Branch St K) : Nat :=
  open Classical in if b.WellFormed m then 0 else 1

theorem illFormed_eq_zero :
    illFormed m b = 0 ↔ b.WellFormed m := by
  unfold illFormed
  split <;> simp_all

theorem total_illFormed {bs : List (Branch St K)} :
    total (illFormed m) bs = 0 ↔ ∀ b ∈ bs, b.WellFormed m := by
  rw [total_eq_zero]
  exact forall₂_congr fun _ _ => illFormed_eq_zero

theorem nodup_concat {x : St} (h : visited.Nodup) (hx : x ∉ visited) :
    (visited ++ [x]).Nodup :=
  List.nodup_append'.mpr ⟨h, List.nodup_singleton x, List.disjoint_singleton.mpr hx⟩

/-- The end of a call of `step()`. -/
theorem View.Held.leave (h : v.Held m) {e : Execution St}
    (hrun : v.running = some (e.snapshot, some (e.choices, e.raw))) (hfuture : v.future = [])
    {queue : List (Branch St K)} (hqueue : ∀ b ∈ queue, b.WellFormed m)
    (hvisited : v.visited ⊆ visited) (hreach : ∀ x ∈ visited, m.Reach x) (hnodup : visited.Nodup)
    (hseen : m.checkInvariants e.raw = true →
      m.normalize e.raw = e.snapshot ∨ m.normalize e.raw ∈ visited) :
    ({ v with
      queue := queue
      visited := visited
      executed := v.executed ++ [e]
      running := none } : View St K).Held m := by
  obtain ⟨hx, ho, hentered⟩ := h.returned hrun
  refine ⟨hqueue, hreach, hnodup, h.entered, h.rejected, ?_, ?_, ⟨fun _ => ⟨hentered, hfuture⟩,
    fun _ _ hnone => by cases hnone⟩⟩
  · intro e' he'
    rcases List.mem_append.mp he' with h' | h'
    · exact h.outcomes e' h'
    · rw [List.mem_singleton.mp h']
      exact ⟨hx, ho⟩
  · intro e' he' hok
    rcases List.mem_append.mp he' with h' | h'
    · exact (h.seen e' h' hok).imp_right fun hm => hvisited hm
    · rw [List.mem_singleton.mp h'] at hok ⊢
      exact hseen hok

section

variable [DecidableEq St]

theorem mem_dedup {bs : List (Branch St K)} {x : St} :
    x ∈ (dedup visited bs).1 ↔
      x ∈ visited ∨ ∃ b ∈ bs, b.delta.empty = true ∧ b.snapshot = x := by
  induction bs generalizing visited with
  | nil => simp [dedup]
  | cons b bs ih =>
    unfold dedup
    split
    · rename_i hempty
      split
      · rename_i hseen
        rw [ih]
        constructor
        · rintro (h | ⟨b', hb', h⟩)
          · exact .inl h
          · exact .inr ⟨b', List.mem_cons_of_mem _ hb', h⟩
        · rintro (h | ⟨b', hb', h⟩)
          · exact .inl h
          · rcases List.mem_cons.mp hb' with rfl | hb'
            · exact .inl (h.2 ▸ hseen)
            · exact .inr ⟨b', hb', h⟩
      · simp only [ih, List.mem_append, List.mem_singleton, List.exists_mem_cons_iff, hempty,
          true_and, eq_comm, or_assoc]
    · rename_i hne
      simp only [ih, List.exists_mem_cons_iff, hne, false_and, false_or, Bool.false_eq_true]

theorem nodup_dedup (h : visited.Nodup) (bs : List (Branch St K)) :
    (dedup visited bs).1.Nodup := by
  induction bs generalizing visited with
  | nil => exact h
  | cons b bs ih =>
    unfold dedup
    split
    · split
      · exact ih h
      · rename_i hnew
        exact ih (nodup_concat h hnew)
    · exact ih h

variable [NeZero K] {c : Conf (Shared St K) (Local St K)}

theorem held_flow (hv : l.view.Held m) (hfly : flight (illFormed m) sh l = 0)
    (hf : Flow mesh m sh l sh' l') :
    l'.view.Held m ∧ flight (illFormed m) sh' l' = 0 := by
  cases hf with
  | idle view stay =>
    rw [view, stay]
    exact ⟨hv, hfly⟩
  | seed _ view add =>
    rw [view, add, hfly, illFormed_eq_zero.mpr (wellFormed_root .init)]
    exact ⟨hv, rfl⟩
  | enter b rest hqueue hrun hfuture h view stay =>
    have hb := hv.queue b (by rw [hqueue]; simp)
    rw [view, stay]
    refine ⟨⟨?_, hv.reach, hv.nodup, ?_, hv.rejected, hv.outcomes, hv.seen, ?_⟩, hfly⟩
    · intro b' hb'
      exact hv.queue b' (by rw [hqueue]; exact List.mem_cons_of_mem _ hb')
    · intro κ hκ
      rcases List.mem_append.mp hκ with h' | h'
      · exact hv.entered κ h'
      · rw [List.mem_singleton.mp h']
        exact ⟨hb.reach, hb.branch, h⟩
    · refine ⟨fun hnone => (by cases hnone), ?_⟩
      intro x r hsome
      cases hsome
      refine ⟨b.path, ?_, hb.reach, hb.branch, rfl, ?_⟩
      · rw [(hv.midway.rest hrun).1]
        rfl
      · intro κ hκ
        obtain ⟨ds, hds, rfl⟩ := List.mem_map.mp hκ
        exact ⟨rfl, hds⟩
  | reject b rest hqueue hrun hfuture h view stay =>
    have hb := hv.queue b (by rw [hqueue]; simp)
    rw [view, stay]
    refine ⟨⟨?_, hv.reach, hv.nodup, hv.entered, ?_, hv.outcomes, hv.seen, ?_⟩, hfly⟩
    · intro b' hb'
      exact hv.queue b' (by rw [hqueue]; exact List.mem_cons_of_mem _ hb')
    · intro κ hκ
      rcases List.mem_append.mp hκ with h' | h'
      · exact hv.rejected κ h'
      · rw [List.mem_singleton.mp h']
        exact ⟨hb.reach, h⟩
    · exact ⟨hv.midway.rest, hv.midway.call⟩
  | keep b rest hfuture hencodes owner view stay =>
    obtain ⟨hreach, hbranch, _⟩ := hv.upcoming (show b.key ∈ l.view.future by rw [hfuture]; simp)
    rw [view, stay]
    refine ⟨⟨?_, hv.reach, hv.nodup, hv.entered, hv.rejected, hv.outcomes, hv.seen,
      hv.midway.advance hfuture⟩, hfly⟩
    intro b' hb'
    rcases List.mem_append.mp hb' with h' | h'
    · exact hv.queue b' h'
    · rw [List.mem_singleton.mp h']
      exact ⟨hreach, hbranch, hencodes⟩
  | send b rest hfuture hencodes remote inRange view add =>
    obtain ⟨hreach, hbranch, _⟩ := hv.upcoming (show b.key ∈ l.view.future by rw [hfuture]; simp)
    rw [view, add, hfly, illFormed_eq_zero.mpr ⟨hreach, hbranch, hencodes⟩]
    exact ⟨⟨hv.queue, hv.reach, hv.nodup, hv.entered, hv.rejected, hv.outcomes, hv.seen,
      hv.midway.advance hfuture⟩, rfl⟩
  | leave e hrun hfuture hseen view stay =>
    rw [view, stay]
    exact ⟨hv.leave hrun hfuture hv.queue (List.Subset.refl _) hv.reach hv.nodup hseen, hfly⟩
  | discoverKeep e hrun hfuture h hnew owner view stay =>
    have hreach : m.Reach (m.normalize e.raw) := by
      obtain ⟨hx, ho, _⟩ := hv.returned hrun
      exact .step hx ho
    rw [view, stay]
    refine ⟨hv.leave hrun hfuture ?_ (List.subset_append_left _ _) ?_ (nodup_concat hv.nodup hnew)
      fun _ => .inr (by simp), hfly⟩
    · intro b hb
      rcases List.mem_append.mp hb with h' | h'
      · exact hv.queue b h'
      · rw [List.mem_singleton.mp h']
        exact wellFormed_root hreach
    · intro x hx
      rcases List.mem_append.mp hx with h' | h'
      · exact hv.reach x h'
      · rw [List.mem_singleton.mp h']
        exact hreach
  | discoverSend e hrun hfuture h hnew remote inRange view add =>
    have hreach : m.Reach (m.normalize e.raw) := by
      obtain ⟨hx, ho, _⟩ := hv.returned hrun
      exact .step hx ho
    rw [view, add, hfly, illFormed_eq_zero.mpr (wellFormed_root hreach)]
    refine ⟨hv.leave hrun hfuture hv.queue (List.subset_append_left _ _) ?_
      (nodup_concat hv.nodup hnew) fun _ => .inr (by simp), rfl⟩
    intro x hx
    rcases List.mem_append.mp hx with h' | h'
    · exact hv.reach x h'
    · rw [List.mem_singleton.mp h']
      exact hreach
  | receive q batch items hq hitems hempty hrun view take =>
    have htake := take (illFormed m)
    have hbatch : ∀ b ∈ batch, b.WellFormed m := total_illFormed.mp (by omega)
    rw [view]
    refine ⟨⟨fun b hb => hbatch b (dedup_subset _ _ hb), ?_, nodup_dedup hv.nodup _, hv.entered,
      hv.rejected, hv.outcomes, ?_, ⟨hv.midway.rest, hv.midway.call⟩⟩, by omega⟩
    · intro x hx
      rcases mem_dedup.mp hx with h' | ⟨b, hb, _, rfl⟩
      · exact hv.reach x h'
      · exact (hbatch b hb).reach
    · intro e he hok
      exact (hv.seen e he hok).imp_right fun hm => mem_dedup.mpr (.inl hm)

/-! ## Every run -/

structure Sound (mesh : Mesh St) (m : StateMachineModel St)
    (c : Conf (Shared St K) (Local St K)) : Prop where
  basic : Basic mesh c
  queues : c.shared.Placed mesh
  placed : ∀ l ∈ c.locals, l.Placed mesh
  data : ∀ l ∈ c.locals, l.pc.Data l
  held : ∀ l ∈ c.locals, l.view.Held m
  sends : ∀ l ∈ c.locals, sent (illFormed m) l = 0
  floats : afloat (illFormed m) c.shared = 0

omit [DecidableEq St] [NeZero K] in
theorem Sound.flight (hs : Sound mesh m c) (hl : l ∈ c.locals) :
    flight (illFormed m) c.shared l = 0 := by
  unfold Checker.flight
  rw [hs.sends l hl, hs.floats]

/-- What a step of a run does to the branches. -/
theorem Sound.flow (hs : Sound mesh m c) (hl : l ∈ c.locals) (ht : Trans mesh m c.shared l sh' l') :
    Flow mesh m c.shared l sh' l' := by
  refine trans_flow (hs.data l hl) (hs.basic.shape l hl) (hs.basic.sends l hl) ?_ ht
  rw [hs.basic.queues]
  exact hs.basic.targets l hl

theorem sound_step {i : Nat} {a : Act} {c' : Conf (Shared St K) (Local St K)} (hs : Sound mesh m c)
    (hf : (machine mesh m).fire i a c = some c') : Sound mesh m c' := by
  have hbasic := basic_step hs.basic hf
  obtain ⟨l, sh', l', hl, ht, rfl⟩ := fire_trans hf
  have hmem := List.mem_of_getElem? hl
  have hrest : ∀ {P : Local St K → Prop}, (∀ k ∈ c.locals, P k) →
      ∀ j k, j ≠ i → c.locals[j]? = some k → P k :=
    fun h j k _ hj => h k (List.mem_of_getElem? hj)
  obtain ⟨hqueues, hplaced⟩ := placed_trans hs.queues (hs.placed l hmem) ht
  have hqueue := (hs.held l hmem).queue
  have hdata := data_trans (fun b hb => ⟨(hqueue b hb).branch.1, (hqueue b hb).encodes⟩)
    (hs.data l hmem) ht
  obtain ⟨hheld, hflight⟩ := held_flow (hs.held l hmem) (hs.flight hmem) (hs.flow hmem ht)
  unfold Checker.flight at hflight
  exact
    { basic := hbasic
      queues := hqueues
      placed := forall_set hplaced (hrest hs.placed)
      data := forall_set hdata (hrest hs.data)
      held := forall_set hheld (hrest hs.held)
      sends := forall_set (P := fun l => sent (illFormed m) l = 0) (by omega) (hrest hs.sends)
      floats := by
        show afloat (illFormed m) sh' = 0
        omega }

omit [DecidableEq St] in
theorem sound_initial (mesh : Mesh St) (m : StateMachineModel St) :
    Sound mesh m (initial mesh : Conf (Shared St K) (Local St K)) := by
  have hlocal : ∀ l ∈ (initial mesh : Conf (Shared St K) (Local St K)).locals,
      l.Placed mesh ∧ l.pc.Data l ∧ l.view.Held m ∧ sent (illFormed m) l = 0 := by
    intro l hl
    obtain ⟨i, _, rfl⟩ := List.mem_map.mp hl
    refine ⟨⟨by simp, ?_, trivial⟩, trivial, ?_, ?_⟩
    · intro d s hs b hb
      rw [(List.mem_replicate.mp (List.mem_of_getElem? hs)).2] at hb
      cases hb
    · have hrest : (none : Option (St × Option (List Digit × St))) = none →
          ([] : List (St × List Digit)) = ([] : List (Execution St)).map Execution.key ∧
            ([] : List (St × List Digit)) = [] := fun _ => ⟨rfl, rfl⟩
      exact ⟨by simp [Local.view], by simp [Local.view], List.nodup_nil, by simp [Local.view],
        by simp [Local.view], by simp [Local.view], by simp [Local.view],
        ⟨hrest, fun _ _ hrun => by cases hrun⟩⟩
    · simp [sent, Pc.batch, total_replicate]
  refine ⟨basic_initial mesh, ?_, fun l hl => (hlocal l hl).1, fun l hl => (hlocal l hl).2.1,
    fun l hl => (hlocal l hl).2.2.1, fun l hl => (hlocal l hl).2.2.2, ?_⟩
  · intro d q hq batch hbatch
    rw [(List.mem_replicate.mp (List.mem_of_getElem? hq)).2] at hbatch
    cases hbatch
  · simp [afloat, initial, total_replicate]

theorem sound_reachable (h : (machine mesh m).Reachable (initial mesh) c) : Sound mesh m c :=
  Machine.invariant (fun _ _ _ _ hi hf => sound_step hi hf) (sound_initial mesh m) h

end

end Batt.Checker
