/-
  Termination detection: `total_pending_count` and `close_all`.

  The count is the number of batches that are in a queue, on the way into one, consumed but
  not acknowledged, or lost (`Accounted`). A shard acknowledges only after it has flushed its
  send buffers, so where the count gets to zero every shard is at rest and every queue is
  empty (`allQuiet_of_ack`), and from there no step makes a branch (`allQuiet_trans`).
-/
import Mathlib.Data.UInt
import Batt.Checker.Shape

namespace Batt.Checker

open Interleave Choice

variable {St : Type} {K : Nat} {m : StateMachineModel St} {c c' : Conf (Shared St K) (Local St K)}
  {l l' : Local St K} {sh sh' : Shared St K} {mesh : Mesh St} {pc pc' : Pc St K} {i : Nat}

/-! ## What the count stands for -/

/-- The batch of a `queue_push` that is counted and not yet in a queue. -/
def Pc.inFlight : Pc St K → Nat
  | .pushOpen .. | .pushEmplace .. => 1
  | _ => 0

def outstanding (l : Local St K) : Nat := l.pc.inFlight + l.localConsumeCount

/-- The batches in the queues and those lost. -/
def settled (sh : Shared St K) : Nat :=
  total (fun q => q.items.length) sh.recvQueues + sh.dropped.length

theorem outstanding_eq (h : l.pc.inFlight = 0) :
    outstanding l = l.localConsumeCount := by
  rw [outstanding, h, Nat.zero_add]

def Accounted (c : Conf (Shared St K) (Local St K)) : Prop :=
  c.shared.totalPendingCount = (settled c.shared + total outstanding c.locals : Nat)

theorem explore_resume_inFlight (caller : ExploreCaller St K) : caller.resume.inFlight = 0 := by
  cases caller <;> rfl

theorem push_resume_inFlight (caller : PushCaller St K) : caller.resume.inFlight = 0 := by
  cases caller with
  | send caller => exact explore_resume_inFlight caller
  | flushAll => rfl

theorem jump_inFlight (hj : Jump sh l pc pc') : pc'.inFlight = pc.inFlight := by
  cases hj with
  | notStalled _ caller => exact explore_resume_inFlight caller
  | flushDone _ caller => cases caller <;> rfl
  | _ => rfl

theorem settled_modify {q : RecvQueue St K} (hq : sh.recvQueues[i]? = some q)
    (f : RecvQueue St K → RecvQueue St K) :
    settled (sh.modifyQueue i f) + q.items.length = settled sh + (f q).items.length := by
  have := total_modify (fun q : RecvQueue St K => q.items.length) f hq
  unfold settled Shared.modifyQueue
  simp only
  omega

theorem settled_close (dst : Nat) :
    settled (sh.modifyQueue dst fun q => { q with closed := true }) = settled sh := by
  by_cases hlt : dst < sh.recvQueues.length
  · have := settled_modify (List.getElem?_eq_getElem hlt)
      fun q : RecvQueue St K => { q with closed := true }
    simp only at this
    omega
  · unfold Shared.modifyQueue
    rw [List.modify_eq_self (by omega)]

theorem Queued.outstanding {b : Branch St K} {caller : ExploreCaller St K}
    (h : Queued mesh l b caller l') :
    outstanding l' = l.localConsumeCount := by
  obtain ⟨_, _, _, rfl⟩ := h
  exact outstanding_eq (explore_resume_inFlight caller)

theorem Buffered.outstanding {b : Branch St K} {force : Bool} {caller : ExploreCaller St K}
    (h : Buffered mesh force l b caller l') :
    outstanding l' = l.localConsumeCount := by
  obtain ⟨_, _, _, rfl⟩ := h
  exact outstanding_eq rfl

section

variable [NeZero K] [DecidableEq St]

/-- The count moves with what it counts. -/
theorem trans_accounted (ht : Trans mesh m sh l sh' l')
    (htarget : ∀ d, l.pc.target = some d → d < sh.recvQueues.length) :
    sh'.totalPendingCount + (settled sh + outstanding l : Nat) =
      sh.totalPendingCount + (settled sh' + outstanding l' : Nat) := by
  cases ht with
  | jump pc' _ same hj =>
    obtain ⟨_, rfl⟩ := same
    have := jump_inFlight hj
    simp only [outstanding, settled, this]
  | seed _ at_ send => rw [send.outstanding, outstanding_eq (by rw [at_]; rfl)]
  | sibling _ _ _ _ _ _ _ at_ _ _ send =>
    rw [outstanding_eq (l := l) (by rw [at_]; rfl)]
    rcases send with hq | hb
    · rw [hq.outstanding]
    · rw [hb.outstanding]
  | discover _ _ l₁ _ at_ _ _ hl₁ send =>
    have hcount : l₁.localConsumeCount = l.localConsumeCount := by rw [hl₁]
    rw [outstanding_eq (l := l) (by rw [at_]; rfl)]
    rcases send with hq | hb
    · rw [hq.outstanding, hcount]
    · rw [hb.outstanding, hcount]
  | swap _ _ at_ =>
    rcases at_ with ⟨k, hpc, rfl⟩ | ⟨k, _, _, hpc, rfl, _⟩ <;>
      simp only [outstanding, beginPush, hpc, Pc.inFlight]
  | pushAdd _ _ _ at_ =>
    simp only [outstanding, at_, Pc.inFlight, settled]
    omega
  | pushLost _ _ caller at_ =>
    simp only [outstanding, push_resume_inFlight]
    simp only [at_, Pc.inFlight, settled, List.length_append, List.length_singleton]
    omega
  | pushEmplace dst batch _ at_ =>
    have hlt : dst < sh.recvQueues.length := htarget dst (by rw [at_]; rfl)
    have := settled_modify (List.getElem?_eq_getElem hlt)
      fun q : RecvQueue St K => { q with items := q.items ++ [batch] }
    simp only [List.length_append, List.length_singleton] at this
    simp only [outstanding, at_, Pc.inFlight]
    simp only [Shared.modifyQueue] at this ⊢
    omega
  | pushNotify dst caller at_ =>
    have hlt : dst < sh.recvQueues.length := htarget dst (by rw [at_]; rfl)
    have := settled_modify (List.getElem?_eq_getElem hlt)
      fun q : RecvQueue St K => { q with pendingCount := q.pendingCount + 1 }
    simp only [outstanding, push_resume_inFlight]
    simp only [at_, Pc.inFlight]
    simp only [Shared.modifyQueue] at this ⊢
    omega
  | acquire stalled q at_ hq =>
    have := settled_modify hq
      fun q : RecvQueue St K => { q with pendingCount := q.pendingCount - 1 }
    have hl : outstanding l = l.localConsumeCount :=
      outstanding_eq (by rw [at_]; cases stalled <;> rfl)
    have hl' : outstanding { l with pc := .popItem stalled } = l.localConsumeCount :=
      outstanding_eq rfl
    rw [hl, hl']
    simp only [Shared.modifyQueue] at this ⊢
    omega
  | receive stalled q batch items at_ hq hitems =>
    have := settled_modify hq fun q : RecvQueue St K => { q with items := items }
    have hl : outstanding l = l.localConsumeCount := outstanding_eq (by rw [at_]; rfl)
    have hl' : outstanding (receive l batch (if stalled then .resetStalled 0 false else .popNext)) =
        l.localConsumeCount + 1 := outstanding_eq (by cases stalled <;> rfl)
    rw [hl, hl']
    simp only [hitems, List.length_cons] at this
    simp only [Shared.modifyQueue] at this ⊢
    omega
  | ack at_ pc' hpc =>
    have hl : outstanding l = l.localConsumeCount := outstanding_eq (by rw [at_]; rfl)
    have hl' : outstanding { l with localConsumeCount := 0, pc := pc' } = 0 :=
      outstanding_eq (by subst hpc; show (if _ then _ else _ : Pc St K).inFlight = 0; split <;> rfl)
    rw [hl, hl']
    simp only [settled]
    omega
  | close dst at_ =>
    rw [settled_close]
    simp only [outstanding, at_, Pc.inFlight, Shared.modifyQueue]
  | finishedClose at_ =>
    rw [settled_close]
    simp only [outstanding, at_, Pc.inFlight, Shared.modifyQueue]
  | drainAcquire q at_ hq =>
    have := settled_modify hq
      fun q : RecvQueue St K => { q with pendingCount := q.pendingCount - 1 }
    simp only [outstanding, at_, Pc.inFlight]
    simp only [Shared.modifyQueue] at this ⊢
    omega
  | drainPop q batch items at_ hq hitems =>
    have := settled_modify hq fun q : RecvQueue St K => { q with items := items }
    simp only [hitems, List.length_cons] at this
    simp only [outstanding, at_, Pc.inFlight]
    simp only [settled, Shared.modifyQueue, List.length_append, List.length_singleton] at this ⊢
    omega
  | barrierSub at_ | begin at_ | enter _ _ at_ | reject _ _ at_ | replay _ _ _ _ _ _ _ at_
  | lowest _ _ _ _ _ _ at_ | violated _ _ at_ | known _ _ _ at_ =>
    simp only [outstanding, settled, at_, Pc.inFlight]

theorem accounted_step {a : Act} (hb : Basic mesh c) (hc : Accounted c)
    (hf : (machine mesh m).fire i a c = some c') : Accounted c' := by
  obtain ⟨l, sh', l', hl, ht, rfl⟩ := fire_trans hf
  have hset := total_set outstanding l' hl
  have hmove := trans_accounted ht fun d hd =>
    hb.queues ▸ hb.targets l (List.mem_of_getElem? hl) d hd
  unfold Accounted at hc ⊢
  simp only
  omega

theorem accounted_reachable (h : (machine mesh m).Reachable (initial mesh) c) : Accounted c := by
  have h₀ : Accounted (initial mesh : Conf (Shared St K) (Local St K)) := by
    have hlocals : total outstanding (initial mesh : Conf (Shared St K) (Local St K)).locals = 0 :=
      total_eq_zero.mpr fun l hl => by
        obtain ⟨i, _, rfl⟩ := List.mem_map.mp hl
        rfl
    unfold Accounted
    rw [hlocals]
    simp [initial, settled, total_replicate]
  exact (Machine.invariant (I := fun c => Basic mesh c ∧ Accounted c)
    (fun _ _ _ _ hi hf => ⟨basic_step hi.1 hf, accounted_step hi.1 hi.2 hf⟩)
    ⟨basic_initial mesh, h₀⟩ h).2

end

/-! ## At rest -/

/-- The points from which a shard that holds no branch does not come to hold one. -/
def Pc.resting : Pc St K → Bool
  | .init | .barrierSub | .sendStalled .. | .pushAdd .. | .pushOpen .. | .pushEmplace ..
  | .pushNotify .. | .step .. | .pickLoop .. | .resetStalled _ false => false
  | .flushAll _ caller => caller ≠ .start
  | _ => true

def Resting (l : Local St K) : Prop := Acked l ∧ l.pc.resting = true

structure AllQuiet (c : Conf (Shared St K) (Local St K)) : Prop where
  shards : ∀ l ∈ c.locals, Resting l
  queues : ∀ q ∈ c.shared.recvQueues, q.items = []

/-- A shard with nothing to acknowledge is at rest, unless it is at its start or has left the
    loop. -/
theorem resting_of_shape (h : Shape l l.pc) (hcount : l.localConsumeCount = 0)
    (hstart : l.pc.start = false) (hfin : l.pc.finished = false) : Resting l := by
  have hnot : ¬ Busy l := by
    unfold Busy
    omega
  unfold Resting
  cases hpc : l.pc with
  | init | barrierSub =>
    rw [hpc] at hstart
    cases hstart
  | sendStalled _ caller =>
    rw [hpc] at h hstart
    cases caller <;> first | exact absurd h hnot | cases hstart
  | pushAdd _ _ caller | pushOpen _ _ caller | pushEmplace _ _ caller | pushNotify _ caller =>
    rw [hpc] at h hstart hfin
    cases caller with
    | send caller => cases caller <;> first | exact absurd h hnot | cases hstart
    | flushAll _ caller =>
      cases caller with
      | start => cases hstart
      | enterLoop => exact absurd h hnot
      | recv => exact absurd h.2.1 hnot
      | finished => cases hfin
  | flushAll _ caller =>
    rw [hpc] at h hstart hfin
    cases caller with
    | start => cases hstart
    | enterLoop => exact ⟨⟨h hcount, hcount⟩, rfl⟩
    | recv => exact ⟨⟨h.2.1 hcount, hcount⟩, rfl⟩
    | finished => cases hfin
  | step | pickLoop =>
    rw [hpc] at h
    exact absurd h hnot
  | enterLoop | popNext =>
    rw [hpc] at h
    exact ⟨⟨h hcount, hcount⟩, rfl⟩
  | tryAcquire | setStalled =>
    rw [hpc] at h
    exact ⟨⟨h.2 hcount, hcount⟩, rfl⟩
  | popItem stalled =>
    rw [hpc] at h
    cases stalled with
    | false => exact ⟨⟨h.2 hcount, hcount⟩, rfl⟩
    | true => exact ⟨h, rfl⟩
  | resetStalled _ closed =>
    rw [hpc] at h
    cases closed with
    | false => exact absurd h hnot
    | true => exact ⟨h, rfl⟩
  | ack =>
    rw [hpc] at h
    exact ⟨⟨h, hcount⟩, rfl⟩
  | barrierAwait | pendingCheck | closeEmpty | closeRecheck | close | awaitNext | awaitUpdate =>
    rw [hpc] at h
    exact ⟨h, rfl⟩
  | finishedClose | drain | drainPop | returned =>
    rw [hpc] at hfin
    cases hfin

theorem jump_resting (hj : Jump sh l pc pc') (h : pc.resting = true) : pc'.resting = true := by
  cases hj with
  | notStalled | pushOpen | onlyValue | pickFresh => cases h
  | flushDone _ caller => cases caller <;> first | rfl | cases h
  | flushSkip => exact h
  | resetStalled _ closed => cases closed <;> first | rfl | cases h
  | resetOpen => cases h
  | _ => rfl

theorem items_modify {f : RecvQueue St K → RecvQueue St K} (h : ∀ q ∈ sh.recvQueues, q.items = [])
    (hf : ∀ q, q.items = [] → (f q).items = []) :
    ∀ q ∈ (sh.modifyQueue i f).recvQueues, q.items = [] := by
  intro q hq
  obtain ⟨j, hj⟩ := List.mem_iff_getElem?.mp hq
  unfold Shared.modifyQueue at hj
  rw [List.getElem?_modify] at hj
  obtain ⟨q₀, hq₀, rfl⟩ := Option.map_eq_some_iff.mp hj
  have h₀ := h q₀ (List.mem_of_getElem? hq₀)
  split
  · exact hf q₀ h₀
  · exact h₀

section

variable [NeZero K] [DecidableEq St]

/-- At rest no step makes a branch, sends one or changes the count. -/
theorem quiet_trans (hrest : Resting l) (hitems : ∀ q ∈ sh.recvQueues, q.items = [])
    (ht : Trans mesh m sh l sh' l') :
    Resting l' ∧ (∀ q ∈ sh'.recvQueues, q.items = []) ∧
      sh'.totalPendingCount = sh.totalPendingCount ∧ sh'.dropped = sh.dropped := by
  obtain ⟨hacked, hpc⟩ := hrest
  cases ht with
  | jump pc' _ same hj =>
    obtain ⟨_, rfl⟩ := same
    exact ⟨⟨hacked, jump_resting hj hpc⟩, hitems, rfl, rfl⟩
  | swap dst _ at_ =>
    rcases at_ with ⟨k, hk, rfl⟩ | ⟨k, _, _, _, rfl, hs⟩
    · rw [hk] at hpc
      cases hpc
    · cases hacked.1.2 _ (List.mem_of_getElem? hs)
  | begin => exact ⟨⟨hacked, rfl⟩, hitems, rfl, rfl⟩
  | enter _ _ _ hqueue =>
    rw [hacked.1.1] at hqueue
    cases hqueue
  | reject _ _ _ hqueue =>
    rw [hacked.1.1] at hqueue
    cases hqueue
  | acquire => exact ⟨⟨hacked, rfl⟩, items_modify hitems fun _ h => h, rfl, rfl⟩
  | receive _ q _ _ _ hq hcons =>
    rw [hitems q (List.mem_of_getElem? hq)] at hcons
    cases hcons
  | ack at_ pc' hpc' =>
    refine ⟨⟨⟨hacked.1, rfl⟩, ?_⟩, hitems, ?_, rfl⟩
    · subst hpc'
      show (if _ then _ else _ : Pc St K).resting = true
      split <;> rfl
    · simp only [hacked.2]
      omega
  | close | finishedClose | drainAcquire =>
    exact ⟨⟨hacked, rfl⟩, items_modify hitems fun _ h => h, rfl, rfl⟩
  | drainPop q _ _ _ hq hcons =>
    rw [hitems q (List.mem_of_getElem? hq)] at hcons
    cases hcons
  | seed _ at_ | sibling _ _ _ _ _ _ _ at_ | discover _ _ _ _ at_ | pushLost _ _ _ at_
  | pushNotify _ _ at_ | pushAdd _ _ _ at_ | pushEmplace _ _ _ at_ | barrierSub at_
  | replay _ _ _ _ _ _ _ at_ | lowest _ _ _ _ _ _ at_ | violated _ _ at_ | known _ _ _ at_ =>
    rw [at_] at hpc
    cases hpc

/-- **Quiet for good.** -/
theorem allQuiet_step {a : Act} (hq : AllQuiet c) (hf : (machine mesh m).fire i a c = some c') :
    AllQuiet c' ∧ c'.shared.dropped = c.shared.dropped := by
  obtain ⟨l, sh', l', hl, ht, rfl⟩ := fire_trans hf
  obtain ⟨hrest, hitems, _, hdropped⟩ :=
    quiet_trans (hq.shards l (List.mem_of_getElem? hl)) hq.queues ht
  refine ⟨⟨?_, hitems⟩, hdropped⟩
  exact forall_set hrest fun j k _ hj => hq.shards k (List.mem_of_getElem? hj)

end

/-! ## Closing the queues -/

/-- The shard closes the queues, has found its own closed, or has left the loop. -/
def Pc.ending : Pc St K → Bool
  | .resetStalled _ closed => closed
  | pc => pc.closing || pc.finished

def Ended (c : Conf (Shared St K) (Local St K)) : Prop :=
  (∃ l ∈ c.locals, l.pc.ending = true) ∨ ∃ q ∈ c.shared.recvQueues, q.closed = true

/-- No shard has left the loop because `check_invariants` failed. -/
def NoEarlyExit (c : Conf (Shared St K) (Local St K)) : Prop :=
  ∀ l ∈ c.locals, l.pc.finished = true → l.result.ok = true

theorem explore_resume_ending (caller : ExploreCaller St K) :
    caller.resume.ending = false ∧ caller.resume.finished = false := by
  cases caller <;> exact ⟨rfl, rfl⟩

theorem push_resume_finished (caller : PushCaller St K) :
    caller.resume.ending = caller.finished ∧ caller.resume.finished = caller.finished := by
  cases caller with
  | send caller => exact explore_resume_ending caller
  | flushAll _ caller => cases caller <;> exact ⟨rfl, rfl⟩

theorem ending_of_finished (h : pc.finished = true) : pc.ending = true := by
  unfold Pc.ending
  split
  · cases h
  · rw [h, Bool.or_true]

theorem jump_finished (hj : Jump sh l pc pc') (h : pc.finished = true) : pc'.finished = true := by
  cases hj with
  | notStalled => cases h
  | flushDone _ caller => cases caller <;> first | rfl | cases h
  | flushSkip => exact h
  | pushOpen => exact h
  | drained => rfl
  | _ => cases h

theorem jump_ending (hj : Jump sh l pc pc') (h : pc'.ending = true) :
    pc.ending = true ∨ ∃ q ∈ sh.recvQueues, q.closed = true := by
  cases hj with
  | notStalled _ caller =>
    rw [(explore_resume_ending caller).1] at h
    cases h
  | flushDone _ caller => cases caller <;> first | exact .inl rfl | cases h
  | flushSkip | pushOpen | resetStalled => exact .inl h
  | awaitClosed q hq hclosed => exact .inr ⟨q, List.mem_of_getElem? hq, hclosed⟩
  | resetClosed | closeEmpty | closeBusy | closeRecheck | drained => exact .inl rfl
  | _ => cases h

theorem closed_modify {f : RecvQueue St K → RecvQueue St K}
    (h : ∃ q ∈ (sh.modifyQueue i f).recvQueues, q.closed = true)
    (hf : ∀ q, (f q).closed = q.closed) : ∃ q ∈ sh.recvQueues, q.closed = true := by
  obtain ⟨q, hq, hclosed⟩ := h
  obtain ⟨j, hj⟩ := List.mem_iff_getElem?.mp hq
  unfold Shared.modifyQueue at hj
  rw [List.getElem?_modify] at hj
  obtain ⟨q₀, hq₀, rfl⟩ := Option.map_eq_some_iff.mp hj
  refine ⟨q₀, List.mem_of_getElem? hq₀, ?_⟩
  split at hclosed
  · rwa [hf] at hclosed
  · exact hclosed

/-- **Where an acknowledgement brings the count to zero, nothing is left to explore.** -/
theorem allQuiet_of_ack (hb : Basic mesh c) (hc : Accounted c) (hl : c.locals[i]? = some l)
    (hpc : l.pc = .ack) (hzero : c.shared.totalPendingCount - l.localConsumeCount = 0)
    (hfin : ∀ k ∈ c.locals, k.pc.finished = false) :
    (∀ j k, j ≠ i → c.locals[j]? = some k → Resting k) ∧
      (∀ q ∈ c.shared.recvQueues, q.items = []) ∧ c.shared.dropped = [] := by
  have hmem := List.mem_of_getElem? hl
  have hout : outstanding l = l.localConsumeCount := outstanding_eq (by rw [hpc]; rfl)
  unfold Accounted settled at hc
  have hdown : c.shared.barrier = 0 := hb.opened l hmem (by rw [hpc]; rfl)
  have hstart : ∀ k ∈ c.locals, k.pc.start = false := by
    have hnone : total (ind fun l : Local St K => l.pc.start) c.locals = 0 := by
      rw [← hb.barrier, hdown]
    intro k hk
    by_contra h
    have := total_eq_zero.mp hnone k hk
    rw [ind_true (by simpa using h)] at this
    cases this
  have hle := le_total outstanding hmem
  refine ⟨?_, ?_, List.length_eq_zero_iff.mp (by omega)⟩
  · intro j k hji hj
    have hk := List.mem_of_getElem? hj
    -- what another shard has outstanding would count on top of what this one acknowledges
    have hboth := add_le_total outstanding hji.symm hl hj
    have hk0 : outstanding k = 0 := by omega
    unfold outstanding at hk0
    exact resting_of_shape (hb.shape k hk) (by omega) (hstart k hk) (hfin k hk)
  · intro q hq
    have hnone : total (fun q : RecvQueue St K => q.items.length) c.shared.recvQueues = 0 := by
      omega
    exact List.length_eq_zero_iff.mp (total_eq_zero.mp hnone q hq)

/-- What holds at the end of a run in which no check has failed. -/
structure Detected (c : Conf (Shared St K) (Local St K)) : Prop where
  quiet : NoEarlyExit c → Ended c → AllQuiet c
  kept : NoEarlyExit c → c.shared.dropped = []

section

variable [NeZero K] [DecidableEq St]

theorem trans_finished (ht : Trans mesh m sh l sh' l') (h : l.pc.finished = true) :
    l'.pc.finished = true ∧ l'.result.ok = l.result.ok := by
  cases ht with
  | jump _ _ _ hj => exact ⟨jump_finished hj h, rfl⟩
  | swap _ _ at_ =>
    rcases at_ with ⟨k, hpc, rfl⟩ | ⟨k, _, _, hpc, rfl, _⟩
    · rw [hpc] at h
      cases h
    · rw [hpc] at h
      exact ⟨h, rfl⟩
  | pushAdd _ _ _ at_ | pushEmplace _ _ _ at_ =>
    rw [at_] at h
    exact ⟨h, rfl⟩
  | pushLost _ _ caller at_ | pushNotify _ caller at_ =>
    rw [at_] at h
    exact ⟨(push_resume_finished caller).2.trans h, rfl⟩
  | finishedClose | drainAcquire | drainPop => exact ⟨rfl, rfl⟩
  | acquire stalled _ at_ =>
    rw [at_] at h
    cases stalled <;> cases h
  | seed _ at_ | sibling _ _ _ _ _ _ _ at_ | discover _ _ _ _ at_ | receive _ _ _ _ at_
  | ack at_ | begin at_ | enter _ _ at_ | reject _ _ at_ | barrierSub at_
  | replay _ _ _ _ _ _ _ at_ | lowest _ _ _ _ _ _ at_ | violated _ _ at_ | known _ _ _ at_
  | close _ at_ =>
    rw [at_] at h
    cases h

/-- What brings the end: the count gets to zero, or a check fails. -/
theorem trans_ended (ht : Trans mesh m sh l sh' l')
    (h : l'.pc.ending = true ∨ ∃ q ∈ sh'.recvQueues, q.closed = true) :
    (l.pc.ending = true ∨ ∃ q ∈ sh.recvQueues, q.closed = true) ∨
      (l.pc = .ack ∧ sh.totalPendingCount - l.localConsumeCount = 0) ∨
      (l'.pc.finished = true ∧ l'.result.ok = false) := by
  cases ht with
  | jump _ _ same hj =>
    obtain ⟨_, rfl⟩ := same
    rcases h with h | h
    · exact .inl (jump_ending hj h)
    · exact .inl (.inr h)
  | reject => exact .inr (.inr ⟨rfl, rfl⟩)
  | violated => exact .inr (.inr ⟨rfl, rfl⟩)
  | ack at_ pc' hpc =>
    by_cases hzero : sh.totalPendingCount - l.localConsumeCount = 0
    · exact .inr (.inl ⟨at_, hzero⟩)
    · rw [if_neg hzero] at hpc
      subst hpc
      rcases h with h | h
      · cases h
      · exact .inl (.inr h)
  | swap _ _ at_ =>
    left
    rcases at_ with ⟨k, hpc, rfl⟩ | ⟨k, _, _, hpc, rfl, _⟩
    · rcases h with h | h
      · cases h
      · exact .inr h
    · rw [hpc]
      exact h
  | pushAdd _ _ _ at_ =>
    rw [at_]
    exact .inl h
  | pushEmplace _ _ _ at_ =>
    rw [at_]
    rcases h with h | h
    · exact .inl (.inl h)
    · exact .inl (.inr (closed_modify h fun _ => rfl))
  | pushLost _ _ caller at_ =>
    rw [at_]
    exact .inl (h.imp_left fun h => (push_resume_finished caller).1.symm.trans h)
  | pushNotify _ caller at_ =>
    rw [at_]
    rcases h with h | h
    · exact .inl (.inl ((push_resume_finished caller).1.symm.trans h))
    · exact .inl (.inr (closed_modify h fun _ => rfl))
  | close _ at_ | finishedClose at_ | drainAcquire _ at_ | drainPop _ _ _ at_ =>
    rw [at_]
    exact .inl (.inl rfl)
  | acquire =>
    rcases h with h | h
    · cases h
    · exact .inl (.inr (closed_modify h fun _ => rfl))
  | receive stalled =>
    rcases h with h | h
    · cases stalled <;> cases h
    · exact .inl (.inr (closed_modify h fun _ => rfl))
  | seed _ _ send =>
    rcases h with h | h
    · rw [send.cases.2.2] at h
      cases h
    · exact .inl (.inr h)
  | sibling _ _ _ _ _ _ _ _ _ _ send =>
    rcases h with h | h
    · rcases send with hq | hb
      · rw [hq.cases.2.2] at h
        cases h
      · rw [hb.cases.2.2] at h
        cases h
    · exact .inl (.inr h)
  | discover _ _ _ _ _ _ _ _ send =>
    rcases h with h | h
    · rcases send with hq | hb
      · rw [hq.cases.2.2] at h
        cases h
      · rw [hb.cases.2.2] at h
        cases h
    · exact .inl (.inr h)
  | barrierSub | begin | enter | replay | lowest | known =>
    rcases h with h | h
    · cases h
    · exact .inl (.inr h)

/-- Batches are lost in queues that are closed. -/
theorem trans_dropped (ht : Trans mesh m sh l sh' l') :
    sh'.dropped = sh.dropped ∨ l.pc.ending = true ∨ ∃ q ∈ sh.recvQueues, q.closed = true := by
  cases ht with
  | jump _ _ same =>
    obtain ⟨_, rfl⟩ := same
    exact .inl rfl
  | pushLost _ _ _ _ q hq h => exact .inr (.inr ⟨q, List.mem_of_getElem? hq, h⟩)
  | drainPop _ _ _ at_ =>
    rw [at_]
    exact .inr (.inl rfl)
  | _ => exact .inl rfl

theorem noEarlyExit_of_step {a : Act} (hf : (machine mesh m).fire i a c = some c')
    (h : NoEarlyExit c') : NoEarlyExit c := by
  obtain ⟨l, sh', l', hl, ht, rfl⟩ := fire_trans hf
  intro k hk hfin
  obtain ⟨j, hj⟩ := List.mem_iff_getElem?.mp hk
  by_cases hji : j = i
  · subst hji
    rw [hl] at hj
    cases hj
    obtain ⟨hfin', hok⟩ := trans_finished ht hfin
    rw [← hok]
    exact h l' (List.mem_of_getElem? (List.getElem?_set_self (List.getElem?_eq_some_iff.mp hl).1))
      hfin'
  · refine h k (List.mem_of_getElem? (i := j) ?_) hfin
    rw [List.getElem?_set_ne (Ne.symm hji)]
    exact hj

theorem detected_step {a : Act} (hb : Basic mesh c) (hc : Accounted c) (hd : Detected c)
    (hf : (machine mesh m).fire i a c = some c') : Detected c' := by
  by_cases hend : NoEarlyExit c ∧ Ended c
  · -- quiet already
    obtain ⟨hq, hdropped⟩ := allQuiet_step (hd.quiet hend.1 hend.2) hf
    exact ⟨fun _ _ => hq, fun _ => hdropped.trans (hd.kept hend.1)⟩
  · obtain ⟨l, sh', l', hl, ht, rfl⟩ := fire_trans hf
    have hmem := List.mem_of_getElem? hl
    have hnot : NoEarlyExit c → ¬ Ended c := fun h h' => hend ⟨h, h'⟩
    have hopen : NoEarlyExit c → (l.pc.ending = false) ∧ ∀ q ∈ c.shared.recvQueues,
        q.closed = false := by
      intro h
      refine ⟨?_, fun q hq => ?_⟩
      · by_contra he
        exact hnot h (.inl ⟨l, hmem, by simpa using he⟩)
      · by_contra he
        exact hnot h (.inr ⟨q, hq, by simpa using he⟩)
    constructor
    · intro hno hended
      have hno₀ := noEarlyExit_of_step hf hno
      obtain ⟨hl0, hq0⟩ := hopen hno₀
      have hnew : l'.pc.ending = true ∨ ∃ q ∈ sh'.recvQueues, q.closed = true := by
        rcases hended with ⟨k, hk, hkend⟩ | h
        · obtain ⟨j, hj⟩ := List.mem_iff_getElem?.mp hk
          rcases set_cases hj with ⟨_, rfl⟩ | ⟨_, hj⟩
          · exact .inl hkend
          · exact absurd (.inl ⟨k, List.mem_of_getElem? hj, hkend⟩) (hnot hno₀)
        · exact .inr h
      rcases trans_ended ht hnew with (h | ⟨q, hq, h⟩) | ⟨hpc, hzero⟩ | ⟨hfin, hok⟩
      · rw [hl0] at h
        cases h
      · rw [hq0 q hq] at h
        cases h
      · have hfin : ∀ k ∈ c.locals, k.pc.finished = false := by
          intro k hk
          by_contra h
          exact hnot hno₀ (.inl ⟨k, hk, ending_of_finished (by simpa using h)⟩)
        obtain ⟨hothers, hitems, _⟩ := allQuiet_of_ack hb hc hl hpc hzero hfin
        obtain ⟨rfl, rfl⟩ := trans_ack ht hpc
        rw [if_pos hzero]
        have hshape := hb.shape l hmem
        rw [hpc] at hshape
        exact ⟨forall_set ⟨⟨hshape, rfl⟩, rfl⟩ hothers, hitems⟩
      · have hmem' : l' ∈ c.locals.set i l' :=
          List.mem_of_getElem? (List.getElem?_set_self (List.getElem?_eq_some_iff.mp hl).1)
        rw [hno l' hmem' hfin] at hok
        cases hok
    · intro hno
      have hno₀ := noEarlyExit_of_step hf hno
      obtain ⟨hl0, hq0⟩ := hopen hno₀
      rcases trans_dropped ht with h | h | ⟨q, hq, h⟩
      · exact h.trans (hd.kept hno₀)
      · rw [hl0] at h
        cases h
      · rw [hq0 q hq] at h
        cases h

theorem detected_reachable (h : (machine mesh m).Reachable (initial mesh) c) : Detected c := by
  have h₀ : Detected (initial mesh : Conf (Shared St K) (Local St K)) := by
    refine ⟨fun _ hended => ?_, fun _ => rfl⟩
    rcases hended with ⟨l, hl, hend⟩ | ⟨q, hq, hclosed⟩
    · obtain ⟨i, _, rfl⟩ := List.mem_map.mp hl
      cases hend
    · rw [(List.mem_replicate.mp hq).2] at hclosed
      cases hclosed
  exact (Machine.invariant (I := fun c => Basic mesh c ∧ Accounted c ∧ Detected c)
    (fun _ _ _ _ hi hf => ⟨basic_step hi.1 hf, accounted_step hi.1 hi.2.1 hf,
      detected_step hi.1 hi.2.1 hi.2.2 hf⟩)
    ⟨basic_initial mesh, accounted_reachable (m := m) ⟨[], rfl⟩, h₀⟩ h).2.2

/-! ## Safety of termination detection -/

/-- No branch is left to explore, and no shard can still produce one. -/
structure NothingLeft (c : Conf (Shared St K) (Local St K)) : Prop where
  localQueues : ∀ l ∈ c.locals, l.queue = []
  sendBuffers : ∀ l ∈ c.locals, ∀ s ∈ l.sendQueues, s = []
  recvQueues : ∀ q ∈ c.shared.recvQueues, q.items = []
  batches : ∀ l ∈ c.locals, l.pc.batch = []
  stepping : ∀ l ∈ c.locals, l.pc.stepping = false

omit [NeZero K] [DecidableEq St] in
theorem AllQuiet.nothingLeft (h : AllQuiet c) :
    NothingLeft c := by
  have hpc : ∀ pc : Pc St K, pc.resting = true → pc.batch = [] ∧ pc.stepping = false := by
    intro pc hrest
    cases pc <;> first | exact ⟨rfl, rfl⟩ | cases hrest
  exact
    { localQueues := fun l hl => (h.shards l hl).1.1.1
      sendBuffers := fun l hl => (h.shards l hl).1.1.2
      recvQueues := h.queues
      batches := fun l hl => (hpc l.pc (h.shards l hl).2).1
      stepping := fun l hl => (hpc l.pc (h.shards l hl).2).2 }

theorem trans_total (ht : Trans mesh m sh l sh' l') :
    sh'.totalPendingCount = sh.totalPendingCount ∨
      sh'.totalPendingCount = sh.totalPendingCount + 1 ∨ l.pc = .ack := by
  cases ht with
  | jump _ _ same =>
    obtain ⟨_, rfl⟩ := same
    exact .inl rfl
  | pushAdd => exact .inr (.inl rfl)
  | ack at_ => exact .inr (.inr at_)
  | _ => exact .inl rfl

/-- **Safety of termination detection.** While no shard has called `finished()`, a step that
    brings `total_pending_count` to zero leaves nothing to explore, and wherever a shard is in
    `close_all()` there is nothing to explore: not in a local queue, not in a send buffer, not
    in a queue between shards or on the way into one, and no call of `step()` is running. -/
theorem close_all_only_when_done (mesh : Mesh St) (m : StateMachineModel St)
    (c : Conf (Shared St K) (Local St K))
    (hr : (machine mesh m).Reachable (initial mesh) c)
    (hfin : ∀ l ∈ c.locals, l.pc.finished = false) :
    (∀ i a c', (machine mesh m).fire i a c = some c' → c.shared.totalPendingCount ≠ 0 →
        c'.shared.totalPendingCount = 0 → NothingLeft c') ∧
      ((∃ l ∈ c.locals, l.pc.closing = true) → NothingLeft c) := by
  have hb := basic_reachable hr
  have hc := accounted_reachable hr
  have hno : NoEarlyExit c := by
    intro l hl h
    rw [hfin l hl] at h
    cases h
  constructor
  · intro i a c' hf hne hzero
    obtain ⟨l, sh', l', hl, ht, rfl⟩ := fire_trans hf
    simp only at hzero
    rcases trans_total ht with h | h | hpc
    · omega
    · unfold Accounted at hc
      omega
    · obtain ⟨rfl, rfl⟩ := trans_ack ht hpc
      obtain ⟨hothers, hitems, _⟩ := allQuiet_of_ack hb hc hl hpc hzero hfin
      have hshape := hb.shape l (List.mem_of_getElem? hl)
      rw [hpc] at hshape
      refine AllQuiet.nothingLeft ⟨forall_set ⟨⟨hshape, rfl⟩, ?_⟩ hothers, hitems⟩
      rw [if_pos hzero]
      rfl
  · rintro ⟨l, hl, hclosing⟩
    refine ((detected_reachable hr).quiet hno (.inl ⟨l, hl, ?_⟩)).nothingLeft
    cases hpc : l.pc <;> rw [hpc] at hclosing <;> first | rfl | cases hclosing

end

/-- A switch that each step sets either way. -/
def toggle : StateMachineModel Bool where
  initialState := false
  normalize := id
  step _ := .pick 0 1 fun v => .ret (v = 1)
  checkInvariants _ := true

/-- Two shards: the branches of `false` belong to the first and those of `true` to the other. -/
def twoShards : Mesh Bool where
  shardCount := 2
  hash s _ := if s then 2 ^ 63 else 0
  maxLoopIterationsBetweenFlush := 16

/-- Both shards on `toggle`, up to the last acknowledgement. -/
def toggleAck : List (Nat × Act) :=
  List.replicate 10 (0, Act.run) ++ List.replicate 23 (1, Act.run) ++
    List.replicate 34 (0, Act.run) ++
    (1, Act.wake) :: List.replicate 30 (1, Act.run) ++ (0, Act.wake) ::
    List.replicate 13 (0, Act.run)

set_option maxRecDepth 3000 in
theorem close_all_only_when_done_toggleAck :
    ∃ c c' : Conf (Shared Bool 1) (Local Bool 1),
      (machine twoShards toggle).run toggleAck (initial twoShards) = some c ∧
      (machine twoShards toggle).fire 0 .run c = some c' ∧
      c.shared.totalPendingCount = 1 ∧ c'.shared.totalPendingCount = 0 ∧ NothingLeft c' := by
  have hrun : ((machine twoShards toggle).run toggleAck
      (initial twoShards : Conf (Shared Bool 1) (Local Bool 1))).bind (fun c =>
        ((machine twoShards toggle).fire 0 .run c).map fun c' =>
          (c.shared.totalPendingCount, c'.shared.totalPendingCount,
            c.locals.map fun l => l.pc.finished)) = some (1, 0, [false, false]) := by
    decide
  obtain ⟨c, hc, hview⟩ := Option.bind_eq_some_iff.mp hrun
  obtain ⟨c', hc', hview⟩ := Option.map_eq_some_iff.mp hview
  simp only [Prod.mk.injEq] at hview
  obtain ⟨hone, hzero, hfin⟩ := hview
  have hopen : ∀ l ∈ c.locals, l.pc.finished = false := by
    intro l hl
    have := hfin ▸ List.mem_map_of_mem hl
    simpa using this
  have hsafe := close_all_only_when_done twoShards toggle c ⟨toggleAck, hc⟩ hopen
  exact ⟨c, c', hc, hc', hone, hzero, hsafe.1 0 .run c' hc' (by omega) hzero⟩

end Batt.Checker
