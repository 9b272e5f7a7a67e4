/-
  What is known of a shard from where it is.

  `Shape` is the local invariant: which of the shard's own queue and send buffers are empty and
  whether it has consumed batches that it has not acknowledged. It says that a shard which has
  acknowledged everything holds no branch. `Basic` adds the sizes, the numbering of the shards
  and the start-up barrier.
-/
import Batt.Checker.Steps

namespace Batt.Checker

open Interleave Choice

variable {St : Type} {K : Nat} {l l' : Local St K} {mesh : Mesh St} {sh sh' : Shared St K}
  {caller : ExploreCaller St K} {pc pc' : Pc St K} {b : Branch St K} {dst : Nat}

/-! ## Phases -/

def ExploreCaller.start : ExploreCaller St K → Bool
  | .initial => true
  | _ => false

def PushCaller.start : PushCaller St K → Bool
  | .send caller => caller.start
  | .flushAll _ caller => caller = .start

/-- Before the decrement of `barrier_`. -/
def Pc.start : Pc St K → Bool
  | .init | .barrierSub => true
  | .sendStalled _ caller => caller.start
  | .pushAdd _ _ caller | .pushOpen _ _ caller | .pushEmplace _ _ caller
  | .pushNotify _ caller => caller.start
  | .flushAll _ caller => caller = .start
  | _ => false

/-- The shard has seen `barrier_` at zero. -/
def Pc.past : Pc St K → Bool
  | .barrierAwait => false
  | pc => !pc.start

/-- In the loop of `run` or after it. -/
def Pc.begun : Pc St K → Bool
  | .pendingCheck => false
  | pc => pc.past

def PushCaller.finished : PushCaller St K → Bool
  | .send _ => false
  | .flushAll _ caller => caller = .finished

/-- `finished` has been called. -/
def Pc.finished : Pc St K → Bool
  | .finishedClose | .drain | .drainPop | .returned => true
  | .pushAdd _ _ caller | .pushOpen _ _ caller | .pushEmplace _ _ caller
  | .pushNotify _ caller => caller.finished
  | .flushAll _ caller => caller = .finished
  | _ => false

/-- In `close_all`. -/
def Pc.closing : Pc St K → Bool
  | .closeEmpty _ | .closeRecheck _ | .close _ => true
  | _ => false

def ExploreCaller.stepping : ExploreCaller St K → Bool
  | .pickInt .. => true
  | _ => false

def PushCaller.stepping : PushCaller St K → Bool
  | .send caller => caller.stepping
  | .flushAll _ _ => false

/-- In a call of `step()`. -/
def Pc.stepping : Pc St K → Bool
  | .step _ _ | .pickLoop .. => true
  | .sendStalled _ caller => caller.stepping
  | .pushAdd _ _ caller | .pushOpen _ _ caller | .pushEmplace _ _ caller
  | .pushNotify _ caller => caller.stepping
  | _ => false

/-- The batch that `queue_push` has taken out of a send buffer and not yet put into a queue. -/
def Pc.batch : Pc St K → List (Branch St K)
  | .pushAdd _ batch _ | .pushOpen _ batch _ | .pushEmplace _ batch _ => batch
  | _ => []

/-- The queue that `push` has found open. -/
def Pc.target : Pc St K → Option Nat
  | .pushEmplace dst _ _ | .pushNotify dst _ => some dst
  | _ => none

/-! ## What the shard holds -/

def SendsEmpty (l : Local St K) : Prop := ∀ s ∈ l.sendQueues, s = []

/-- The send buffers before `dst` are empty. -/
def FlushedTo (l : Local St K) (dst : Nat) : Prop :=
  ∀ j s, j < dst → l.sendQueues[j]? = some s → s = []

def Fresh (l : Local St K) : Prop := l.queue = [] ∧ l.localConsumeCount = 0

def Drained (l : Local St K) : Prop := l.queue = [] ∧ SendsEmpty l

def Acked (l : Local St K) : Prop := Drained l ∧ l.localConsumeCount = 0

def Busy (l : Local St K) : Prop := 0 < l.localConsumeCount

/-- Only a shard with batches to acknowledge holds branches. -/
def Working (l : Local St K) : Prop := l.localConsumeCount = 0 → Drained l

def ExploreShape (l : Local St K) : ExploreCaller St K → Prop
  | .initial => Fresh l
  | _ => Busy l

def FlushShape (l : Local St K) (dst : Nat) : FlushCaller → Prop
  | .start => Fresh l ∧ FlushedTo l dst
  | .enterLoop => Working l
  | .recv => l.queue = [] ∧ Working l ∧ FlushedTo l dst
  | .finished => True

def PushShape (l : Local St K) : PushCaller St K → Prop
  | .send caller => ExploreShape l caller
  | .flushAll dst .start => Fresh l ∧ FlushedTo l (dst + 1)
  | .flushAll _ .enterLoop => Busy l
  | .flushAll dst .recv => l.queue = [] ∧ Busy l ∧ FlushedTo l (dst + 1)
  | .flushAll _ .finished => True

def Shape (l : Local St K) : Pc St K → Prop
  | .init | .barrierSub | .barrierAwait | .pendingCheck => Acked l
  | .sendStalled _ caller => ExploreShape l caller
  | .pushAdd _ _ caller | .pushOpen _ _ caller | .pushEmplace _ _ caller
  | .pushNotify _ caller => PushShape l caller
  | .flushAll dst caller => FlushShape l dst caller
  | .enterLoop | .popNext => Working l
  | .step _ _ | .pickLoop .. | .resetStalled _ false => Busy l
  | .tryAcquire | .popItem false | .setStalled _ => l.queue = [] ∧ Working l
  | .ack => Drained l
  | .popItem true | .closeEmpty _ | .closeRecheck _ | .close _ | .awaitNext | .awaitUpdate
  | .resetStalled _ true => Acked l
  | .finishedClose | .drain | .drainPop | .returned => True

theorem FlushedTo.all (h : FlushedTo l dst) (hnone : l.sendQueues[dst]? = none) :
    SendsEmpty l := by
  intro s hs
  obtain ⟨j, hj⟩ := List.mem_iff_getElem?.mp hs
  have hlt := (List.getElem?_eq_some_iff.mp hj).1
  have hle := List.getElem?_eq_none_iff.mp hnone
  exact h j s (by omega) hj

theorem FlushedTo.zero (l : Local St K) : FlushedTo l 0 := fun j _ hj => absurd hj (by omega)

theorem FlushedTo.skip (h : FlushedTo l dst) (hnil : l.sendQueues[dst]? = some []) :
    FlushedTo l (dst + 1) := by
  intro j s hj hs
  by_cases hd : j = dst
  · subst hd
    rw [hnil] at hs
    exact (Option.some.inj hs).symm
  · exact h j s (by omega) hs

/-- After the swap of `queue_push` one more send buffer is empty. -/
theorem FlushedTo.swap (h : FlushedTo l dst) (caller : PushCaller St K) :
    FlushedTo (beginPush l dst caller) (dst + 1) := by
  intro j s hj hs
  rcases set_cases hs with ⟨_, rfl⟩ | ⟨hne, hs⟩
  · rfl
  · exact h j s (by omega) hs

theorem busy_of_working (h : Working l) {bs : List (Branch St K)}
    (hs : l.sendQueues[dst]? = some (b :: bs)) : Busy l := by
  unfold Busy
  by_contra h0
  have := (h (by omega)).2 _ (List.mem_of_getElem? hs)
  cases this

theorem Busy.working (h : Busy l) : Working l := by
  intro h0
  unfold Busy at h
  omega

theorem Acked.working (h : Acked l) : Working l := fun _ => h.1

/-! ## Steps keep the shape -/

theorem shape_explore_resume (h : ExploreShape l caller) : Shape l caller.resume := by
  cases caller with
  | initial => exact ⟨h, .zero l⟩
  | pickInt => exact h
  | discovered => exact Busy.working h

theorem shape_flush_resume {caller : FlushCaller} (h : FlushShape l dst caller)
    (hnone : l.sendQueues[dst]? = none) :
    Shape l (caller.resume : Pc St K) := by
  cases caller with
  | start => exact ⟨⟨h.1.1, h.2.all hnone⟩, h.1.2⟩
  | enterLoop => exact h
  | recv => exact ⟨h.1, h.2.2.all hnone⟩
  | finished => trivial

theorem shape_push_resume {caller : PushCaller St K} (h : PushShape l caller) :
    Shape l caller.resume := by
  cases caller with
  | send caller => exact shape_explore_resume h
  | flushAll dst caller =>
    cases caller with
    | start => exact h
    | enterLoop => exact Busy.working h
    | recv => exact ⟨h.1, Busy.working h.2.1, h.2.2⟩
    | finished => trivial

theorem shape_jump (h : Shape l pc) (hj : Jump sh l pc pc') : Shape l pc' := by
  cases hj with
  | notStalled => exact shape_explore_resume h
  | flushDone _ _ hnone => exact shape_flush_resume h hnone
  | flushSkip dst caller hnil =>
    cases caller with
    | start => exact ⟨h.1, h.2.skip hnil⟩
    | enterLoop => exact h
    | recv => exact ⟨h.1, h.2.1, h.2.2.skip hnil⟩
    | finished => trivial
  | nothingQueued hq => exact ⟨hq, h⟩
  | allStalled => exact ⟨h.1, h.2, .zero l⟩
  | resetStalled _ closed => cases closed <;> exact h
  | resetClosed => trivial
  | resetOpen => exact Busy.working h
  | drained => trivial
  | _ => exact h

/-- The shape is about the queue, the send buffers and the count. -/
theorem shape_congr (hq : l'.queue = l.queue) (hs : l'.sendQueues = l.sendQueues)
    (hc : l'.localConsumeCount = l.localConsumeCount) (h : Shape l pc) : Shape l' pc := by
  obtain ⟨_, _, queue, _, _, _, _, _, sends, count, _, _, _⟩ := l
  obtain ⟨_, _, queue', _, _, _, _, _, sends', count', _, _, _⟩ := l'
  simp only at hq hs hc
  subst hq hs hc
  revert h
  cases pc with
  | sendStalled _ caller => cases caller <;> exact id
  | pushAdd _ _ caller | pushOpen _ _ caller | pushEmplace _ _ caller | pushNotify _ caller =>
    cases caller with
    | send caller => cases caller <;> exact id
    | flushAll _ caller => cases caller <;> exact id
  | flushAll _ caller => cases caller <;> exact id
  | popItem stalled => cases stalled <;> exact id
  | resetStalled _ closed => cases closed <;> exact id
  | _ => exact id

theorem shape_queued [NeZero K] (h : Queued mesh l b caller l') (hbusy : Busy l)
    (hcaller : caller.start = false) : Shape l' l'.pc := by
  obtain ⟨_, _, _, rfl⟩ := h
  cases caller with
  | initial => cases hcaller
  | pickInt => exact hbusy
  | discovered => exact Busy.working hbusy

theorem shape_buffered [NeZero K] {force : Bool} (h : Buffered mesh force l b caller l')
    (hl : ExploreShape l caller) : Shape l' l'.pc := by
  obtain ⟨_, _, _, rfl⟩ := h
  cases caller with
  | initial => exact hl
  | pickInt => exact hl
  | discovered => exact hl

variable [NeZero K] [DecidableEq St] {m : StateMachineModel St}

/-- **A step of a shard keeps its shape.** -/
theorem shape_trans (h : Shape l l.pc) (ht : Trans mesh m sh l sh' l') : Shape l' l'.pc := by
  cases ht with
  | jump pc' sh' _ hj =>
    have hjump := shape_jump h hj
    exact shape_congr rfl rfl rfl hjump
  | seed l' at_ send =>
    rw [at_] at h
    exact shape_buffered send ⟨h.1.1, h.2⟩
  | swap dst caller at_ =>
    rcases at_ with ⟨k, hpc, rfl⟩ | ⟨k, b, bs, hpc, rfl, hs⟩
    · rw [hpc] at h
      cases k <;> exact h
    · rw [hpc] at h
      cases k with
      | start => exact ⟨h.1, h.2.swap _⟩
      | enterLoop =>
        have hbusy := busy_of_working (l := l) h hs
        exact hbusy
      | recv =>
        have hbusy := busy_of_working h.2.1 hs
        exact ⟨h.1, hbusy, h.2.2.swap _⟩
      | finished => trivial
  | pushAdd dst batch caller at_ =>
    rw [at_] at h
    have hpush : Shape l (.pushOpen dst batch caller) := h
    exact shape_congr rfl rfl rfl hpush
  | pushEmplace dst batch caller at_ =>
    rw [at_] at h
    have hpush : Shape l (.pushNotify dst caller) := h
    exact shape_congr rfl rfl rfl hpush
  | pushLost dst batch caller at_ | pushNotify dst caller at_ =>
    rw [at_] at h
    have hresume := shape_push_resume h
    exact shape_congr rfl rfl rfl hresume
  | barrierSub at_ =>
    rw [at_] at h
    exact h
  | begin at_ =>
    rw [at_] at h
    exact Acked.working h
  | enter b rest at_ hqueue =>
    rw [at_] at h
    show Busy l
    by_contra h0
    unfold Busy at h0
    have := (h (by omega)).1
    rw [hqueue] at this
    cases this
  | reject => trivial
  | replay current minValue maxValue value k delta history at_ =>
    rw [at_] at h
    exact h
  | sibling current minValue radix value k delta l' at_ _ _ send =>
    rw [at_] at h
    rcases send with hq | hb
    · exact shape_queued hq h rfl
    · exact shape_buffered hb h
  | lowest current minValue radix value k history at_ =>
    rw [at_] at h
    exact h
  | violated => trivial
  | known current raw n at_ =>
    rw [at_] at h
    exact Busy.working (show Busy l from h)
  | discover current raw l₁ l' at_ _ _ hl₁ send =>
    rw [at_] at h
    subst hl₁
    rcases send with hq | hb
    · exact shape_queued hq (show Busy l from h) rfl
    · exact shape_buffered hb (show Busy l from h)
  | acquire stalled q at_ =>
    rw [at_] at h
    cases stalled <;> exact h
  | receive stalled q batch items at_ =>
    have hbusy : Busy (receive l batch (if stalled then .resetStalled 0 false else .popNext)) :=
      Nat.succ_pos _
    cases stalled
    · exact hbusy.working
    · exact hbusy
  | ack at_ pc' hpc =>
    rw [at_] at h
    have hacked : Acked { l with localConsumeCount := 0, pc := pc' } := ⟨h, rfl⟩
    subst hpc
    show Shape _ (if _ then _ else _)
    split <;> exact hacked
  | close dst at_ =>
    rw [at_] at h
    exact h
  | finishedClose => trivial
  | drainAcquire => trivial
  | drainPop => trivial

/-! ## Phases, step by step -/

omit [NeZero K] [DecidableEq St] in
theorem Queued.cases (h : Queued mesh l b caller l') :
    l'.shardI = l.shardI ∧ l'.sendQueues = l.sendQueues ∧ l'.pc = caller.resume := by
  obtain ⟨_, _, _, rfl⟩ := h
  exact ⟨rfl, rfl, rfl⟩

omit [NeZero K] [DecidableEq St] in
theorem Buffered.cases {force : Bool} (h : Buffered mesh force l b caller l') :
    l'.shardI = l.shardI ∧
      l'.sendQueues = l.sendQueues.modify (mesh.findShard b) (· ++ [b]) ∧
      l'.pc = .sendStalled (mesh.findShard b) caller := by
  obtain ⟨_, _, _, rfl⟩ := h
  exact ⟨rfl, rfl, rfl⟩

theorem trans_sizes (ht : Trans mesh m sh l sh' l') :
    l'.shardI = l.shardI ∧ l'.sendQueues.length = l.sendQueues.length ∧
      sh'.recvQueues.length = sh.recvQueues.length := by
  cases ht with
  | jump _ _ same =>
    obtain ⟨_, rfl⟩ := same
    exact ⟨rfl, rfl, rfl⟩
  | seed _ _ send =>
    obtain ⟨hi, hs, _⟩ := send.cases
    exact ⟨hi, by rw [hs, List.length_modify], rfl⟩
  | sibling _ _ _ _ _ _ _ _ _ _ send =>
    rcases send with hq | hb
    · obtain ⟨hi, hs, _⟩ := hq.cases
      exact ⟨hi, by rw [hs], rfl⟩
    · obtain ⟨hi, hs, _⟩ := hb.cases
      exact ⟨hi, by rw [hs, List.length_modify], rfl⟩
  | discover _ _ l₁ _ _ _ _ hl₁ send =>
    subst hl₁
    rcases send with hq | hb
    · obtain ⟨hi, hs, _⟩ := hq.cases
      exact ⟨hi, by rw [hs], rfl⟩
    · obtain ⟨hi, hs, _⟩ := hb.cases
      exact ⟨hi, by rw [hs, List.length_modify], rfl⟩
  | swap => exact ⟨rfl, List.length_set, rfl⟩
  | pushEmplace | pushNotify | acquire | receive | close | finishedClose | drainAcquire
  | drainPop => exact ⟨rfl, rfl, List.length_modify _ _ _⟩
  | _ => exact ⟨rfl, rfl, rfl⟩

omit [NeZero K] [DecidableEq St] in
theorem explore_resume_start (caller : ExploreCaller St K) :
    caller.resume.start = caller.start := by
  cases caller <;> rfl

omit [NeZero K] [DecidableEq St] in
theorem push_resume_start (caller : PushCaller St K) : caller.resume.start = caller.start := by
  cases caller with
  | send caller => exact explore_resume_start caller
  | flushAll => rfl

omit [NeZero K] [DecidableEq St] in
theorem jump_start (hj : Jump sh l pc pc') : pc'.start = pc.start := by
  cases hj with
  | notStalled _ caller => exact explore_resume_start caller
  | flushDone _ caller => cases caller <;> rfl
  | flushSkip => rfl
  | _ => rfl

/-- Only the decrement of `barrier_` takes a shard out of its start. -/
theorem trans_start (ht : Trans mesh m sh l sh' l') :
    (l'.pc.start = l.pc.start ∧ sh'.barrier = sh.barrier) ∨
      (l.pc = .barrierSub ∧ l'.pc = .barrierAwait ∧ sh'.barrier = sh.barrier - 1) := by
  cases ht with
  | barrierSub at_ => exact .inr ⟨at_, rfl, rfl⟩
  | jump _ _ same hj =>
    obtain ⟨_, rfl⟩ := same
    exact .inl ⟨jump_start hj, rfl⟩
  | seed _ at_ send =>
    left
    rw [send.cases.2.2, at_]
    exact ⟨rfl, rfl⟩
  | sibling _ _ _ _ _ _ _ at_ _ _ send =>
    left
    rw [at_]
    rcases send with hq | hb
    · rw [hq.cases.2.2]
      exact ⟨rfl, rfl⟩
    · rw [hb.cases.2.2]
      exact ⟨rfl, rfl⟩
  | discover _ _ _ _ at_ _ _ _ send =>
    left
    rw [at_]
    rcases send with hq | hb
    · rw [hq.cases.2.2]
      exact ⟨rfl, rfl⟩
    · rw [hb.cases.2.2]
      exact ⟨rfl, rfl⟩
  | swap _ _ at_ =>
    left
    rcases at_ with ⟨k, hpc, rfl⟩ | ⟨k, _, _, hpc, rfl, _⟩ <;> rw [hpc] <;> exact ⟨rfl, rfl⟩
  | pushLost _ _ caller at_ | pushNotify _ caller at_ =>
    left
    rw [at_]
    exact ⟨push_resume_start caller, rfl⟩
  | acquire stalled _ at_ =>
    left
    rw [at_]
    cases stalled <;> exact ⟨rfl, rfl⟩
  | receive stalled _ _ _ at_ =>
    left
    rw [at_]
    cases stalled <;> exact ⟨rfl, rfl⟩
  | ack at_ pc' hpc =>
    left
    rw [at_]
    subst hpc
    refine ⟨?_, rfl⟩
    show (if _ then _ else _ : Pc St K).start = _
    split <;> rfl
  | pushAdd _ _ _ at_ | pushEmplace _ _ _ at_ | begin at_ | enter _ _ at_ | reject _ _ at_
  | replay _ _ _ _ _ _ _ at_ | lowest _ _ _ _ _ _ at_ | violated _ _ at_ | known _ _ _ at_
  | close _ at_ | finishedClose at_ | drainAcquire _ at_ | drainPop _ _ _ at_ =>
    left
    rw [at_]
    exact ⟨rfl, rfl⟩

omit [NeZero K] [DecidableEq St] in
theorem past_iff : pc.past = true ↔ pc.start = false ∧ pc ≠ .barrierAwait := by
  unfold Pc.past
  split
  · simp
  · rename_i hne
    rw [Bool.not_eq_true']
    exact ⟨fun h => ⟨h, hne⟩, fun h => h.1⟩

/-- A shard waits at the barrier until it is down. -/
theorem trans_barrierAwait (ht : Trans mesh m sh l sh' l') (hpc : l.pc = .barrierAwait) :
    sh.barrier = 0 := by
  cases ht with
  | jump _ _ _ hj =>
    rw [hpc] at hj
    cases hj
    assumption
  | swap _ _ at_ =>
    rcases at_ with ⟨k, h, _⟩ | ⟨k, _, _, h, _, _⟩ <;> rw [hpc] at h <;> cases h
  | acquire stalled _ at_ =>
    rw [hpc] at at_
    cases stalled <;> cases at_
  | seed _ at_ | sibling _ _ _ _ _ _ _ at_ | discover _ _ _ _ at_ | pushLost _ _ _ at_
  | pushNotify _ _ at_ | receive _ _ _ _ at_ | ack at_ | pushAdd _ _ _ at_
  | pushEmplace _ _ _ at_ | begin at_ | enter _ _ at_ | reject _ _ at_ | barrierSub at_
  | replay _ _ _ _ _ _ _ at_ | lowest _ _ _ _ _ _ at_ | violated _ _ at_ | known _ _ _ at_
  | close _ at_ | finishedClose at_ | drainAcquire _ at_ | drainPop _ _ _ at_ =>
    rw [hpc] at at_
    cases at_

omit [NeZero K] [DecidableEq St] in
theorem explore_resume_target (caller : ExploreCaller St K) : caller.resume.target = none := by
  cases caller <;> rfl

omit [NeZero K] [DecidableEq St] in
theorem push_resume_target (caller : PushCaller St K) : caller.resume.target = none := by
  cases caller with
  | send caller => exact explore_resume_target caller
  | flushAll => rfl

/-- The queue that a batch goes to has been found in the mesh. -/
theorem trans_target (ht : Trans mesh m sh l sh' l') {d : Nat} (hd : l'.pc.target = some d) :
    l.pc.target = some d ∨ d < sh.recvQueues.length := by
  cases ht with
  | jump pc' _ _ hj =>
    have hd : pc'.target = some d := hd
    generalize l.pc = pc at hj
    cases hj with
    | pushOpen dst _ _ q hq =>
      cases hd
      exact .inr (List.getElem?_eq_some_iff.mp hq).1
    | notStalled _ caller =>
      rw [explore_resume_target] at hd
      cases hd
    | flushDone _ caller => cases caller <;> cases hd
    | _ => cases hd
  | seed _ _ send =>
    rw [send.cases.2.2] at hd
    cases hd
  | sibling _ _ _ _ _ _ _ _ _ _ send =>
    rcases send with hq | hb
    · rw [hq.cases.2.2] at hd
      cases hd
    · rw [hb.cases.2.2] at hd
      cases hd
  | discover _ _ _ _ _ _ _ _ send =>
    rcases send with hq | hb
    · rw [hq.cases.2.2] at hd
      cases hd
    · rw [hb.cases.2.2] at hd
      cases hd
  | pushEmplace dst batch caller at_ =>
    rw [at_]
    exact .inl hd
  | pushLost _ _ caller | pushNotify _ caller =>
    have hd : caller.resume.target = some d := hd
    rw [push_resume_target] at hd
    cases hd
  | receive stalled => cases stalled <;> cases hd
  | ack at_ pc' hpc =>
    subst hpc
    have hd : (if _ then _ else _ : Pc St K).target = some d := hd
    split at hd <;> cases hd
  | _ => cases hd

/-! ## The loop -/

omit [NeZero K] [DecidableEq St] in
theorem explore_resume_begun (caller : ExploreCaller St K) :
    caller.resume.begun = !caller.start := by
  cases caller <;> rfl

omit [NeZero K] [DecidableEq St] in
theorem push_resume_begun (caller : PushCaller St K) : caller.resume.begun = !caller.start := by
  cases caller with
  | send caller => exact explore_resume_begun caller
  | flushAll => rfl

omit [NeZero K] [DecidableEq St] in
theorem jump_begun (hj : Jump sh l pc pc') : pc'.begun = pc.begun := by
  cases hj with
  | notStalled _ caller => exact explore_resume_begun caller
  | flushDone _ caller => cases caller <;> rfl
  | _ => rfl

omit [NeZero K] [DecidableEq St] in
theorem begun_of_finished (h : pc.finished = true) : pc.begun = true := by
  cases pc with
  | pushAdd _ _ caller | pushOpen _ _ caller | pushEmplace _ _ caller | pushNotify _ caller =>
    cases caller with
    | send => cases h
    | flushAll _ caller => cases caller <;> first | rfl | cases h
  | flushAll _ caller => cases caller <;> first | rfl | cases h
  | finishedClose | drain | drainPop | returned => rfl
  | _ => cases h

/-- The loop begins after the check that the count is positive. -/
theorem trans_begun (ht : Trans mesh m sh l sh' l') :
    l'.pc.begun = l.pc.begun ∨
      (sh'.totalPendingCount > 0 ∧ l'.result.ok = true ∧ l.pc.begun = false ∧
        l'.pc.begun = true) := by
  cases ht with
  | jump _ _ _ hj => exact .inl (jump_begun hj)
  | begin at_ hpos => exact .inr ⟨hpos, rfl, by rw [at_]; rfl, rfl⟩
  | seed _ at_ send =>
    rw [send.cases.2.2, at_]
    exact .inl rfl
  | swap _ _ at_ =>
    rcases at_ with ⟨k, hpc, rfl⟩ | ⟨k, _, _, hpc, rfl, _⟩ <;> rw [hpc] <;> exact .inl rfl
  | pushLost _ _ caller at_ | pushNotify _ caller at_ =>
    rw [at_]
    exact .inl (push_resume_begun caller)
  | sibling _ _ _ _ _ _ _ at_ _ _ send =>
    rw [at_]
    rcases send with hq | hb
    · rw [hq.cases.2.2]
      exact .inl rfl
    · rw [hb.cases.2.2]
      exact .inl rfl
  | discover _ _ _ _ at_ _ _ _ send =>
    rw [at_]
    rcases send with hq | hb
    · rw [hq.cases.2.2]
      exact .inl rfl
    · rw [hb.cases.2.2]
      exact .inl rfl
  | acquire stalled _ at_ | receive stalled _ _ _ at_ =>
    rw [at_]
    cases stalled <;> exact .inl rfl
  | ack at_ pc' hpc =>
    rw [at_]
    subst hpc
    show (if _ then _ else _ : Pc St K).begun = _ ∨ _
    split <;> exact .inl rfl
  | pushAdd _ _ _ at_ | pushEmplace _ _ _ at_ | barrierSub at_ | enter _ _ at_ | reject _ _ at_
  | replay _ _ _ _ _ _ _ at_ | lowest _ _ _ _ _ _ at_ | violated _ _ at_ | known _ _ _ at_
  | close _ at_ | finishedClose at_ | drainAcquire _ at_ | drainPop _ _ _ at_ =>
    rw [at_]
    exact .inl rfl

/-! ## Sizes, numbering and the barrier -/

structure Basic (mesh : Mesh St) (c : Conf (Shared St K) (Local St K)) : Prop where
  queues : c.shared.recvQueues.length = mesh.shardCount
  shards : c.locals.length = mesh.shardCount
  ids : ∀ (i : Nat) (l : Local St K), c.locals[i]? = some l → l.shardI = i
  sends : ∀ l ∈ c.locals, l.sendQueues.length = mesh.shardCount
  targets : ∀ l ∈ c.locals, ∀ d, l.pc.target = some d → d < mesh.shardCount
  shape : ∀ l ∈ c.locals, Shape l l.pc
  barrier : c.shared.barrier = total (ind fun l => l.pc.start) c.locals
  opened : ∀ l ∈ c.locals, l.pc.past = true → c.shared.barrier = 0

omit [DecidableEq St] in
theorem basic_initial (mesh : Mesh St) : Basic mesh (initial mesh : Conf (Shared St K) _) where
  queues := by simp [initial]
  shards := by simp [initial]
  ids := by
    intro i l h
    simp only [initial, List.getElem?_map, Option.map_eq_some_iff] at h
    obtain ⟨j, hj, rfl⟩ := h
    rw [List.getElem?_range (by simpa using (List.getElem?_eq_some_iff.mp hj).1)] at hj
    exact (Option.some.inj hj).symm
  sends := by simp [initial]
  targets := by simp [initial, Pc.target]
  shape := by
    intro l h
    simp only [initial, List.mem_map] at h
    obtain ⟨i, _, rfl⟩ := h
    exact ⟨⟨rfl, fun s hs => (List.mem_replicate.mp hs).2⟩, rfl⟩
  barrier := by
    have hstart : ((fun l : Local St K => ind (fun l => l.pc.start) l) ∘ fun i =>
        ({ shardI := i, history := .new, sendQueues := List.replicate mesh.shardCount [] } :
          Local St K)) = fun _ => 1 := by
      funext i
      rfl
    simp [initial, total, hstart]
  opened := by
    intro l h hpast
    simp only [initial, List.mem_map] at h
    obtain ⟨i, _, rfl⟩ := h
    cases hpast

theorem basic_step {i : Nat} {a : Act} {c c' : Conf (Shared St K) (Local St K)} (hb : Basic mesh c)
    (hf : (machine mesh m).fire i a c = some c') : Basic mesh c' := by
  obtain ⟨l, sh', l', hl, ht, rfl⟩ := fire_trans hf
  have hmem := List.mem_of_getElem? hl
  obtain ⟨hid, hsends, hqueues⟩ := trans_sizes ht
  have hrest : ∀ {P : Local St K → Prop}, (∀ k ∈ c.locals, P k) →
      ∀ j k, j ≠ i → c.locals[j]? = some k → P k :=
    fun h j k _ hj => h k (List.mem_of_getElem? hj)
  refine ⟨hqueues.trans hb.queues, by simpa using hb.shards, ?_, ?_, ?_, ?_, ?_, ?_⟩
  · intro j k hj
    rcases set_cases hj with ⟨rfl, rfl⟩ | ⟨_, hj⟩
    · rw [hid]
      exact hb.ids j l hl
    · exact hb.ids j k hj
  · exact forall_set (hsends.trans (hb.sends l hmem)) (hrest hb.sends)
  · refine forall_set ?_ (hrest hb.targets)
    intro d hd
    rcases trans_target ht hd with h | h
    · exact hb.targets l hmem d h
    · rwa [hb.queues] at h
  · exact forall_set (shape_trans (hb.shape l hmem) ht) (hrest hb.shape)
  · have hset := total_set (ind fun l => l.pc.start) l' hl
    have hbar := hb.barrier
    rcases trans_start ht with ⟨hs, hbs⟩ | ⟨hpc, hpc', hbs⟩
    · have hind : ind (fun l : Local St K => l.pc.start) l' = ind (fun l => l.pc.start) l := by
        simp only [ind, hs]
      simp only [hbs]
      omega
    · have h1 : ind (fun l : Local St K => l.pc.start) l = 1 := ind_true (by rw [hpc]; rfl)
      have h2 : ind (fun l : Local St K => l.pc.start) l' = 0 := ind_false (by rw [hpc']; rfl)
      have hle := le_total (ind fun l : Local St K => l.pc.start) hmem
      simp only [hbs]
      omega
  · -- the barrier stays down once a shard has seen it down
    have hdown : c.shared.barrier = 0 → sh'.barrier = 0 := by
      intro h0
      rcases trans_start ht with ⟨_, hbs⟩ | ⟨_, _, hbs⟩ <;> omega
    refine forall_set ?_ fun j k _ hj hpast => hdown (hb.opened k (List.mem_of_getElem? hj) hpast)
    intro hpast
    apply hdown
    by_cases hawait : l.pc = .barrierAwait
    · exact trans_barrierAwait ht hawait
    · obtain ⟨hstart, hne⟩ := past_iff.mp hpast
      rcases trans_start ht with ⟨hs, _⟩ | ⟨_, hpc', _⟩
      · exact hb.opened l hmem (past_iff.mpr ⟨hs ▸ hstart, hawait⟩)
      · exact absurd hpc' hne

theorem basic_reachable {c : Conf (Shared St K) (Local St K)}
    (h : (machine mesh m).Reachable (initial mesh) c) : Basic mesh c :=
  Machine.invariant (fun _ _ _ _ hi hf => basic_step hi hf) (basic_initial mesh) h

end Batt.Checker
