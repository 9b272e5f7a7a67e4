/-
  Waiting in `recv`.

  A shard that waits for a batch is woken when `close_all` closes its queue. Somebody runs
  `close_all` whenever the count is zero (`Signalled`), and the count is zero when the others
  have returned from a run in which no check failed. A shard that stops because
  `check_invariants` failed never acknowledges the batches it has consumed and closes no queue
  but its own, so the others wait for good (`failed_check_leaves_shard_waiting`).
-/
import Batt.Checker.Quiescence

namespace Batt.Checker

open Interleave Choice

variable {St : Type} {K : Nat} {mesh : Mesh St} {l l' : Local St K}

/-! ## A queue and its count -/

def Pc.acquired : Pc St K → Nat
  | .popItem _ | .drainPop => 1
  | _ => 0

def Pc.unnotified (d : Nat) : Pc St K → Nat
  | .pushNotify dst _ => if dst = d then 1 else 0
  | _ => 0

/-- The items of queue `d` that are not in its count because of this shard: one it has
    acquired and not yet taken out, or one it has put in and not yet counted. -/
def uncounted (d : Nat) (l : Local St K) : Nat :=
  (if l.shardI = d then l.pc.acquired else 0) + l.pc.unnotified d

def Matched (c : Conf (Shared St K) (Local St K)) : Prop :=
  ∀ (d : Nat) (q : RecvQueue St K), c.shared.recvQueues[d]? = some q →
    q.items.length = q.pendingCount + total (uncounted d) c.locals

/-- What a step does to a queue that was `q` and is `q'`. -/
def QueueMove (d : Nat) (l l' : Local St K) (q q' : RecvQueue St K) : Prop :=
  (q.closed = true → q'.closed = true) ∧
    q'.items.length + q.pendingCount + uncounted d l =
      q.items.length + q'.pendingCount + uncounted d l'

theorem getElem?_modifyQueue {sh : Shared St K} {d : Nat} {q : RecvQueue St K}
    (hq : sh.recvQueues[d]? = some q) (i : Nat) (f : RecvQueue St K → RecvQueue St K) :
    (sh.modifyQueue i f).recvQueues[d]? = some (if i = d then f q else q) := by
  unfold Shared.modifyQueue
  rw [List.getElem?_modify, hq]
  rfl

theorem explore_resume_uncounted (caller : ExploreCaller St K) (d : Nat) :
    caller.resume.acquired = 0 ∧ caller.resume.unnotified d = 0 := by
  cases caller <;> exact ⟨rfl, rfl⟩

theorem push_resume_uncounted (caller : PushCaller St K) (d : Nat) :
    caller.resume.acquired = 0 ∧ caller.resume.unnotified d = 0 := by
  cases caller with
  | send caller => exact explore_resume_uncounted caller d
  | flushAll => exact ⟨rfl, rfl⟩

theorem uncounted_eq_zero {d : Nat} (ha : l.pc.acquired = 0) (hn : l.pc.unnotified d = 0) :
    uncounted d l = 0 := by
  unfold uncounted
  rw [ha, hn, ite_self]

theorem jump_uncounted {sh : Shared St K} {pc pc' : Pc St K} (hj : Jump sh l pc pc') (d : Nat) :
    (pc.acquired = 0 ∧ pc.unnotified d = 0) ∧ pc'.acquired = 0 ∧ pc'.unnotified d = 0 := by
  cases hj with
  | notStalled _ caller => exact ⟨⟨rfl, rfl⟩, explore_resume_uncounted caller d⟩
  | flushDone _ caller => cases caller <;> exact ⟨⟨rfl, rfl⟩, rfl, rfl⟩
  | _ => exact ⟨⟨rfl, rfl⟩, rfl, rfl⟩

theorem Queued.uncounted {b : Branch St K} {caller : ExploreCaller St K}
    (h : Queued mesh l b caller l') (d : Nat) :
    uncounted d l' = 0 := by
  have hpc : l'.pc = caller.resume := by
    obtain ⟨_, _, _, rfl⟩ := h
    rfl
  refine uncounted_eq_zero ?_ ?_ <;> rw [hpc]
  · exact (explore_resume_uncounted caller d).1
  · exact (explore_resume_uncounted caller d).2

theorem Buffered.uncounted {b : Branch St K} {force : Bool} {caller : ExploreCaller St K}
    (h : Buffered mesh force l b caller l') (d : Nat) :
    uncounted d l' = 0 := by
  obtain ⟨_, _, _, rfl⟩ := h
  exact uncounted_eq_zero rfl rfl

section

variable [NeZero K] [DecidableEq St] {m : StateMachineModel St}
  {c c' : Conf (Shared St K) (Local St K)} {i : Nat}

theorem trans_queue {sh sh' : Shared St K} (ht : Trans mesh m sh l sh' l') {d : Nat}
    {q : RecvQueue St K} (hq : sh.recvQueues[d]? = some q) :
    ∃ q', sh'.recvQueues[d]? = some q' ∧ QueueMove d l l' q q' := by
  cases ht with
  | jump pc' _ same hj =>
    obtain ⟨_, rfl⟩ := same
    obtain ⟨⟨h1, h2⟩, h3, h4⟩ := jump_uncounted hj d
    refine ⟨q, hq, id, ?_⟩
    rw [uncounted_eq_zero (l := l) h1 h2, uncounted_eq_zero (l := { l with pc := pc' }) h3 h4]
  | seed _ at_ send =>
    refine ⟨q, hq, id, ?_⟩
    rw [send.uncounted, uncounted_eq_zero] <;> rw [at_] <;> rfl
  | sibling _ _ _ _ _ _ _ at_ _ _ send =>
    refine ⟨q, hq, id, ?_⟩
    have hl : uncounted d l = 0 := by
      rw [uncounted_eq_zero] <;> rw [at_] <;> rfl
    rcases send with h | h <;> rw [h.uncounted, hl]
  | discover _ _ _ _ at_ _ _ _ send =>
    refine ⟨q, hq, id, ?_⟩
    have hl : uncounted d l = 0 := by
      rw [uncounted_eq_zero] <;> rw [at_] <;> rfl
    rcases send with h | h <;> rw [h.uncounted, hl]
  | swap dst caller at_ =>
    refine ⟨q, hq, id, ?_⟩
    have hl : uncounted d l = 0 := by
      rcases at_ with ⟨k, hpc, rfl⟩ | ⟨k, _, _, hpc, rfl, _⟩ <;>
        rw [uncounted_eq_zero] <;> rw [hpc] <;> rfl
    rw [hl, uncounted_eq_zero (l := beginPush l dst caller) rfl rfl]
  | pushEmplace dst batch caller at_ =>
    refine ⟨_, getElem?_modifyQueue hq dst _, ?_, ?_⟩
    · split <;> exact id
    · simp only [uncounted, at_, Pc.acquired, Pc.unnotified]
      split <;> simp
      omega
  | pushNotify dst caller at_ =>
    refine ⟨_, getElem?_modifyQueue hq dst _, ?_, ?_⟩
    · split <;> exact id
    · obtain ⟨h1, h2⟩ := push_resume_uncounted caller d
      simp only [uncounted, h1, h2]
      simp only [at_, Pc.acquired, Pc.unnotified]
      split <;> simp
      omega
  | pushLost dst batch caller at_ =>
    refine ⟨q, hq, id, ?_⟩
    obtain ⟨h1, h2⟩ := push_resume_uncounted caller d
    rw [uncounted_eq_zero (l := { l with pc := caller.resume }) h1 h2, uncounted_eq_zero] <;>
      rw [at_] <;> rfl
  | acquire stalled q₀ at_ hq₀ hpos =>
    refine ⟨_, getElem?_modifyQueue hq l.shardI _, ?_, ?_⟩
    · split <;> exact id
    · have h1 : l.pc.acquired = 0 := by rw [at_]; cases stalled <;> rfl
      have h2 : l.pc.unnotified d = 0 := by rw [at_]; cases stalled <;> rfl
      simp only [uncounted, h1, h2]
      simp only [Pc.acquired, Pc.unnotified]
      split
      · rename_i hd
        subst hd
        rw [hq] at hq₀
        cases hq₀
        simp
        omega
      · simp
  | receive stalled q₀ batch items at_ hq₀ hitems =>
    refine ⟨_, getElem?_modifyQueue hq l.shardI _, ?_, ?_⟩
    · split <;> exact id
    · have hl' : uncounted d
          (receive l batch (if stalled then .resetStalled 0 false else .popNext)) = 0 := by
        refine uncounted_eq_zero ?_ ?_ <;> cases stalled <;> rfl
      rw [hl']
      simp only [uncounted, at_, Pc.acquired, Pc.unnotified]
      split
      · rename_i hd
        subst hd
        rw [hq] at hq₀
        cases hq₀
        simp [hitems]
        omega
      · simp
  | ack at_ pc' hpc =>
    refine ⟨q, hq, id, ?_⟩
    have h1 : pc'.acquired = 0 ∧ pc'.unnotified d = 0 := by
      subst hpc
      split <;> exact ⟨rfl, rfl⟩
    rw [uncounted_eq_zero (l := { l with localConsumeCount := 0, pc := pc' }) h1.1 h1.2,
      uncounted_eq_zero] <;> rw [at_] <;> rfl
  | close dst at_ =>
    refine ⟨_, getElem?_modifyQueue hq dst _, ?_, ?_⟩
    · split
      · exact fun _ => rfl
      · exact id
    · simp only [uncounted, at_, Pc.acquired, Pc.unnotified]
      split <;> rfl
  | finishedClose at_ =>
    refine ⟨_, getElem?_modifyQueue hq l.shardI _, ?_, ?_⟩
    · split
      · exact fun _ => rfl
      · exact id
    · simp only [uncounted, at_, Pc.acquired, Pc.unnotified]
      split <;> rfl
  | drainAcquire q₀ at_ hq₀ hpos =>
    refine ⟨_, getElem?_modifyQueue hq l.shardI _, ?_, ?_⟩
    · split <;> exact id
    · simp only [uncounted, at_, Pc.acquired, Pc.unnotified]
      split
      · rename_i hd
        subst hd
        rw [hq] at hq₀
        cases hq₀
        simp
        omega
      · simp
  | drainPop q₀ batch items at_ hq₀ hitems =>
    refine ⟨_, getElem?_modifyQueue hq l.shardI _, ?_, ?_⟩
    · split <;> exact id
    · simp only [uncounted, at_, Pc.acquired, Pc.unnotified]
      split
      · rename_i hd
        subst hd
        rw [hq] at hq₀
        cases hq₀
        simp [hitems]
        omega
      · simp
  | pushAdd _ _ _ at_ | barrierSub at_ | begin at_ | enter _ _ at_ | reject _ _ at_
  | replay _ _ _ _ _ _ _ at_ | lowest _ _ _ _ _ _ at_ | violated _ _ at_ | known _ _ _ at_ =>
    refine ⟨q, hq, id, ?_⟩
    simp only [uncounted, at_, Pc.acquired, Pc.unnotified]

theorem matched_step {a : Act} (hm : Matched c) (hf : (machine mesh m).fire i a c = some c') :
    Matched c' := by
  obtain ⟨l, sh', l', hl, ht, rfl⟩ := fire_trans hf
  intro d q' hq'
  have hlt : d < c.shared.recvQueues.length := by
    rw [← (trans_sizes ht).2.2]
    exact (List.getElem?_eq_some_iff.mp hq').1
  have hq := List.getElem?_eq_getElem hlt
  obtain ⟨q₁, hq₁, _, hmove⟩ := trans_queue ht hq
  have heq : q₁ = q' := Option.some.inj (hq₁.symm.trans hq')
  subst heq
  have hmatched := hm d _ hq
  have hset := total_set (uncounted d) l' hl
  simp only
  omega

/-! ## Somebody closes the queues -/

/-- The queue that `close_all` is at. -/
def Pc.closeDst : Pc St K → Option Nat
  | .closeEmpty dst | .closeRecheck dst | .close dst => some dst
  | _ => none

/-- The queues before the one that a shard is about to close are closed. -/
def ClosedBelow (c : Conf (Shared St K) (Local St K)) : Prop :=
  ∀ l ∈ c.locals, ∀ d, l.pc.closeDst = some d →
    ∀ (j : Nat) (q : RecvQueue St K), j < d → c.shared.recvQueues[j]? = some q → q.closed = true

def AllClosed (sh : Shared St K) : Prop := ∀ q ∈ sh.recvQueues, q.closed = true

/-- `close_all` is running or has run. -/
def Signal (c : Conf (Shared St K) (Local St K)) : Prop :=
  (∃ l ∈ c.locals, l.pc.closing = true) ∨ AllClosed c.shared

def Signalled (c : Conf (Shared St K) (Local St K)) : Prop :=
  (∃ l ∈ c.locals, l.pc.begun = true) → c.shared.totalPendingCount = 0 → Signal c

omit [NeZero K] [DecidableEq St] in
theorem explore_resume_closeDst (caller : ExploreCaller St K) : caller.resume.closeDst = none := by
  cases caller <;> rfl

omit [NeZero K] [DecidableEq St] in
theorem push_resume_closeDst (caller : PushCaller St K) : caller.resume.closeDst = none := by
  cases caller with
  | send caller => exact explore_resume_closeDst caller
  | flushAll => rfl

/-- `close_all` starts at the first queue and goes on to the next after closing one. -/
theorem trans_closeDst {sh sh' : Shared St K} (ht : Trans mesh m sh l sh' l') {d : Nat}
    (hd : l'.pc.closeDst = some d) :
    l.pc.closeDst = some d ∨ d = 0 ∨
      ∃ e, d = e + 1 ∧ l.pc.closeDst = some e ∧
        ∀ q, sh'.recvQueues[e]? = some q → q.closed = true := by
  cases ht with
  | jump pc' _ _ hj =>
    have hd : pc'.closeDst = some d := hd
    generalize l.pc = pc at hj ⊢
    cases hj with
    | notStalled _ caller =>
      rw [explore_resume_closeDst] at hd
      cases hd
    | flushDone _ caller => cases caller <;> cases hd
    | closeEmpty | closeBusy | closeRecheck => exact .inl hd
    | _ => cases hd
  | seed _ _ send =>
    rw [send.cases.2.2] at hd
    cases hd
  | sibling _ _ _ _ _ _ _ _ _ _ send =>
    rcases send with hq | hb
    · rw [hq.cases.2.2] at hd
      cases hd
    · rw [hb.cases.2.2] at hd
      cases hd
  | discover _ _ _ _ _ _ _ _ send =>
    rcases send with hq | hb
    · rw [hq.cases.2.2] at hd
      cases hd
    · rw [hb.cases.2.2] at hd
      cases hd
  | pushLost _ _ caller | pushNotify _ caller =>
    have hd : caller.resume.closeDst = some d := hd
    rw [push_resume_closeDst] at hd
    cases hd
  | receive stalled => cases stalled <;> cases hd
  | ack at_ pc' hpc =>
    subst hpc
    have hd : (if _ then _ else _ : Pc St K).closeDst = some d := hd
    split at hd <;> cases hd
    exact .inr (.inl rfl)
  | close dst at_ =>
    cases hd
    refine .inr (.inr ⟨dst, rfl, by rw [at_]; rfl, ?_⟩)
    intro q hq
    unfold Shared.modifyQueue at hq
    rw [List.getElem?_modify] at hq
    obtain ⟨q₀, _, rfl⟩ := Option.map_eq_some_iff.mp hq
    rw [if_pos rfl]
  | _ => cases hd

theorem closedBelow_step {a : Act} (hc : ClosedBelow c)
    (hf : (machine mesh m).fire i a c = some c') :
    ClosedBelow c' := by
  obtain ⟨l, sh', l', hl, ht, rfl⟩ := fire_trans hf
  -- queues stay closed
  have hmono : ∀ (j : Nat) (q' : RecvQueue St K), sh'.recvQueues[j]? = some q' →
      (∀ q, c.shared.recvQueues[j]? = some q → q.closed = true) → q'.closed = true := by
    intro j q' hq' hclosed
    have hlt : j < c.shared.recvQueues.length := by
      rw [← (trans_sizes ht).2.2]
      exact (List.getElem?_eq_some_iff.mp hq').1
    have hq := List.getElem?_eq_getElem hlt
    obtain ⟨q₁, hq₁, hkeep, _⟩ := trans_queue ht hq
    rw [← Option.some.inj (hq₁.symm.trans hq')]
    exact hkeep (hclosed _ hq)
  refine forall_set ?_ ?_
  · intro d hd j q' hj hq'
    rcases trans_closeDst ht hd with h | rfl | ⟨e, rfl, he, hnew⟩
    · exact hmono j q' hq' fun q hq => hc l (List.mem_of_getElem? hl) d h j q hj hq
    · omega
    · by_cases hje : j = e
      · subst hje
        exact hnew q' hq'
      · exact hmono j q' hq' fun q hq =>
          hc l (List.mem_of_getElem? hl) e he j q (by omega) hq
  · intro j k _ hk d hd n q' hn hq'
    exact hmono n q' hq' fun q hq => hc k (List.mem_of_getElem? hk) d hd n q hn hq

/-- A shard leaves `close_all` when it has closed every queue. -/
theorem trans_closing {sh sh' : Shared St K} (ht : Trans mesh m sh l sh' l')
    (h : l.pc.closing = true) :
    l'.pc.closing = true ∨ ∃ d, l.pc.closeDst = some d ∧ sh'.recvQueues[d]? = none := by
  cases ht with
  | jump pc' _ same hj =>
    obtain ⟨_, rfl⟩ := same
    have hgoal : pc'.closing = true ∨ ∃ d, l.pc.closeDst = some d ∧ sh.recvQueues[d]? = none := by
      generalize l.pc = pc at hj h ⊢
      cases hj with
      | closeEmpty | closeBusy | closeRecheck => exact .inl rfl
      | closedAll dst hnone => exact .inr ⟨dst, rfl, hnone⟩
      | _ => cases h
    exact hgoal
  | close => exact .inl rfl
  | swap _ _ at_ =>
    rcases at_ with ⟨k, hpc, _⟩ | ⟨k, _, _, hpc, _, _⟩ <;> rw [hpc] at h <;> cases h
  | acquire stalled _ at_ =>
    rw [at_] at h
    cases stalled <;> cases h
  | seed _ at_ | sibling _ _ _ _ _ _ _ at_ | discover _ _ _ _ at_ | pushLost _ _ _ at_
  | pushNotify _ _ at_ | receive _ _ _ _ at_ | ack at_ | pushAdd _ _ _ at_
  | pushEmplace _ _ _ at_ | begin at_ | enter _ _ at_ | reject _ _ at_ | barrierSub at_
  | replay _ _ _ _ _ _ _ at_ | lowest _ _ _ _ _ _ at_ | violated _ _ at_ | known _ _ _ at_
  | finishedClose at_ | drainAcquire _ at_ | drainPop _ _ _ at_ =>
    rw [at_] at h
    cases h

theorem signal_step {a : Act} (hc : ClosedBelow c) (hs : Signal c)
    (hf : (machine mesh m).fire i a c = some c') : Signal c' := by
  have hc' := closedBelow_step hc hf
  obtain ⟨l, sh', l', hl, ht, rfl⟩ := fire_trans hf
  have hlt := (List.getElem?_eq_some_iff.mp hl).1
  have hsize := (trans_sizes ht).2.2
  have hclosed : (∀ (j : Nat) (q : RecvQueue St K), c.shared.recvQueues[j]? = some q →
      q.closed = true) → AllClosed sh' := by
    intro hall q' hq'
    obtain ⟨j, hj⟩ := List.mem_iff_getElem?.mp hq'
    have hjlt : j < c.shared.recvQueues.length := by
      rw [← hsize]
      exact (List.getElem?_eq_some_iff.mp hj).1
    obtain ⟨q₁, hq₁, hkeep, _⟩ := trans_queue ht (List.getElem?_eq_getElem hjlt)
    rw [← Option.some.inj (hq₁.symm.trans hj)]
    exact hkeep (hall j _ (List.getElem?_eq_getElem hjlt))
  rcases hs with ⟨k, hk, hclosing⟩ | hall
  · obtain ⟨j, hj⟩ := List.mem_iff_getElem?.mp hk
    by_cases hji : j = i
    · subst hji
      rw [hl] at hj
      cases hj
      rcases trans_closing ht hclosing with h | ⟨d, hd, hnone⟩
      · exact .inl ⟨l', List.mem_of_getElem? (List.getElem?_set_self hlt), h⟩
      · -- past the last queue
        refine .inr (hclosed fun n q hq => ?_)
        have hn := (List.getElem?_eq_some_iff.mp hq).1
        have hd' := List.getElem?_eq_none_iff.mp hnone
        exact hc l hk d hd n q (by omega) hq
    · refine .inl ⟨k, List.mem_of_getElem? (i := j) ?_, hclosing⟩
      rw [List.getElem?_set_ne (Ne.symm hji)]
      exact hj
  · exact .inr (hclosed fun j q hq => hall q (List.mem_of_getElem? hq))

theorem signalled_step {a : Act} (hacc : Accounted c) (hc : ClosedBelow c) (hs : Signalled c)
    (hf : (machine mesh m).fire i a c = some c') : Signalled c' := by
  intro hbegun hzero
  by_cases hpre : (∃ l ∈ c.locals, l.pc.begun = true) ∧ c.shared.totalPendingCount = 0
  · exact signal_step hc (hs hpre.1 hpre.2) hf
  · obtain ⟨l, sh', l', hl, ht, rfl⟩ := fire_trans hf
    have hlt := (List.getElem?_eq_some_iff.mp hl).1
    simp only at hzero
    rcases trans_total ht with htot | htot | hpc
    · -- the first shard in the loop has just seen a positive count
      exfalso
      have hnone : ∀ k ∈ c.locals, k.pc.begun = false := by
        intro k hk
        by_contra hk'
        exact hpre ⟨⟨k, hk, by simpa using hk'⟩, htot ▸ hzero⟩
      obtain ⟨k, hk, hkb⟩ := hbegun
      obtain ⟨j, hj⟩ := List.mem_iff_getElem?.mp hk
      rcases set_cases hj with ⟨_, rfl⟩ | ⟨_, hj⟩
      · rcases trans_begun ht with h | ⟨hpos, _⟩
        · rw [h, hnone l (List.mem_of_getElem? hl)] at hkb
          cases hkb
        · omega
      · rw [hnone k (List.mem_of_getElem? hj)] at hkb
        cases hkb
    · unfold Accounted at hacc
      omega
    · obtain ⟨rfl, rfl⟩ := trans_ack ht hpc
      refine .inl ⟨_, List.mem_of_getElem? (List.getElem?_set_self hlt), ?_⟩
      rw [if_pos hzero]
      rfl

/-- What is known about the waiting in `recv`. -/
structure Waiting (mesh : Mesh St) (c : Conf (Shared St K) (Local St K)) : Prop where
  basic : Basic mesh c
  accounted : Accounted c
  detected : Detected c
  matched : Matched c
  closedBelow : ClosedBelow c
  signalled : Signalled c

theorem waiting_reachable (h : (machine mesh m).Reachable (initial mesh) c) : Waiting mesh c := by
  refine Machine.invariant ?_ ?_ h
  · intro c i a c' hw hf
    exact ⟨basic_step hw.basic hf, accounted_step hw.basic hw.accounted hf,
      detected_step hw.basic hw.accounted hw.detected hf, matched_step hw.matched hf,
      closedBelow_step hw.closedBelow hf, signalled_step hw.accounted hw.closedBelow hw.signalled hf⟩
  · have hinit : ∀ l ∈ (initial mesh : Conf (Shared St K) (Local St K)).locals, l.pc = .init := by
      intro l hl
      obtain ⟨i, _, rfl⟩ := List.mem_map.mp hl
      rfl
    have hreach : (machine mesh m).Reachable (initial mesh) (initial mesh : Conf (Shared St K) _) :=
      ⟨[], rfl⟩
    refine ⟨basic_reachable hreach, accounted_reachable hreach, detected_reachable hreach, ?_, ?_, ?_⟩
    · intro d q hq
      have hnone : total (uncounted d) (initial mesh : Conf (Shared St K) (Local St K)).locals = 0 :=
        total_eq_zero.mpr fun l hl => by
          rw [uncounted_eq_zero] <;> rw [hinit l hl] <;> rfl
      rw [(List.mem_replicate.mp (List.mem_of_getElem? hq)).2, hnone]
      rfl
    · intro l hl d hd
      rw [hinit l hl] at hd
      cases hd
    · rintro ⟨l, hl, hbegun⟩
      rw [hinit l hl] at hbegun
      cases hbegun

/-! ## No shard waits for good -/

/-- Shard `i` waits in `recv` with its queue empty and open, and the others have returned. -/
def WaitsForGood (c : Conf (Shared St K) (Local St K)) (i : Nat) : Prop :=
  (∃ l, c.locals[i]? = some l ∧ (l.pc = .awaitNext ∨ l.pc = .awaitUpdate)) ∧
    (∃ q, c.shared.recvQueues[i]? = some q ∧ q.pendingCount = 0 ∧ q.closed = false) ∧
    ∀ (j : Nat) (k : Local St K), j ≠ i → c.locals[j]? = some k → k.pc = .returned

omit [NeZero K] [DecidableEq St] in
theorem not_waitsForGood (hw : Waiting mesh c) (hno : NoEarlyExit c) :
    ¬ WaitsForGood c i := by
  rintro ⟨⟨l, hl, hpc⟩, ⟨q, hq, hpending, hopen⟩, hothers⟩
  have hmem := List.mem_of_getElem? hl
  have hbegun : l.pc.begun = true := by rcases hpc with h | h <;> rw [h] <;> rfl
  by_cases hzero : c.shared.totalPendingCount = 0
  · -- somebody has closed the queue or is about to, and only this shard is left
    rcases hw.signalled ⟨l, hmem, hbegun⟩ hzero with ⟨k, hk, hclosing⟩ | hall
    · obtain ⟨j, hj⟩ := List.mem_iff_getElem?.mp hk
      by_cases hji : j = i
      · subst hji
        rw [hl] at hj
        cases hj
        rcases hpc with h | h <;> rw [h] at hclosing <;> cases hclosing
      · rw [hothers j k hji hj] at hclosing
        cases hclosing
    · rw [hall q (List.mem_of_getElem? hq)] at hopen
      cases hopen
  · apply hzero
    have hshape := hw.basic.shape l hmem
    have hacked : Acked l := by rcases hpc with h | h <;> rw [h] at hshape <;> exact hshape
    have hout : outstanding l = 0 := by
      rw [outstanding_eq (by rcases hpc with h | h <;> rw [h] <;> rfl)]
      exact hacked.2
    have hdropped := hw.detected.kept hno
    have hitems : total (fun q : RecvQueue St K => q.items.length) c.shared.recvQueues = 0 ∧
        total outstanding c.locals = 0 := by
      by_cases hother : ∃ j k, j ≠ i ∧ c.locals[j]? = some k
      · -- another shard has returned, so all is quiet
        obtain ⟨j, k, hji, hj⟩ := hother
        have hret := hothers j k hji hj
        have hquiet := hw.detected.quiet hno
          (.inl ⟨k, List.mem_of_getElem? hj, by rw [hret]; rfl⟩)
        refine ⟨total_eq_zero.mpr fun q hq => by rw [hquiet.queues q hq]; rfl,
          total_eq_zero.mpr fun k hk => ?_⟩
        obtain ⟨⟨_, hcount⟩, hrest⟩ := hquiet.shards k hk
        rw [outstanding_eq, hcount]
        cases hkpc : k.pc <;> rw [hkpc] at hrest <;> first | rfl | cases hrest
      · -- the only shard, with one queue
        have honly : ∀ (j : Nat) (k : Local St K), c.locals[j]? = some k → j = i := by
          intro j k hj
          by_contra hji
          exact hother ⟨j, k, hji, hj⟩
        have hone : ∀ k ∈ c.locals, k = l := by
          intro k hk
          obtain ⟨j, hj⟩ := List.mem_iff_getElem?.mp hk
          rw [honly j k hj, hl] at hj
          exact (Option.some.inj hj).symm
        refine ⟨total_eq_zero.mpr fun q' hq' => ?_, total_eq_zero.mpr fun k hk => by
          rw [hone k hk, hout]⟩
        obtain ⟨d, hd⟩ := List.mem_iff_getElem?.mp hq'
        have hdlt : d < c.locals.length := by
          rw [hw.basic.shards, ← hw.basic.queues]
          exact (List.getElem?_eq_some_iff.mp hd).1
        have hdi := honly d _ (List.getElem?_eq_getElem hdlt)
        subst hdi
        rw [hq] at hd
        cases hd
        have hmatched := hw.matched d q hq
        have hnone : total (uncounted d) c.locals = 0 := total_eq_zero.mpr fun k hk => by
          rw [hone k hk, uncounted_eq_zero] <;> rcases hpc with h | h <;> rw [h] <;> rfl
        omega
    have hacc := hw.accounted
    unfold Accounted settled at hacc
    rw [hdropped, hitems.1, hitems.2] at hacc
    simpa using hacc

/-- The shard's next step is a call of `check_invariants` that returns false. -/
def checkFails (m : StateMachineModel St) (l : Local St K) : Bool :=
  match l.pc, l.queue with
  | .popNext, b :: _ => !m.checkInvariants b.snapshot
  | .step _ (.ret raw), _ => !m.checkInvariants raw
  | _, _ => false

theorem trans_ok {sh sh' : Shared St K} (ht : Trans mesh m sh l sh' l') :
    l'.result.ok = l.result.ok ∨ l'.result.ok = true ∨ checkFails m l = true := by
  cases ht with
  | reject b rest at_ hqueue _ h =>
    refine .inr (.inr ?_)
    simp [checkFails, at_, hqueue, h]
  | violated current raw at_ h =>
    refine .inr (.inr ?_)
    simp [checkFails, at_, h]
  | begin => exact .inr (.inl rfl)
  | seed _ _ send =>
    obtain ⟨_, _, _, rfl⟩ := send
    exact .inl rfl
  | sibling _ _ _ _ _ _ _ _ _ _ send =>
    rcases send with hq | hb
    · obtain ⟨_, _, _, rfl⟩ := hq
      exact .inl rfl
    · obtain ⟨_, _, _, rfl⟩ := hb
      exact .inl rfl
  | discover _ _ l₁ _ _ _ _ hl₁ send =>
    subst hl₁
    rcases send with hq | hb
    · obtain ⟨_, _, _, rfl⟩ := hq
      exact .inl rfl
    · obtain ⟨_, _, _, rfl⟩ := hb
      exact .inl rfl
  | _ => exact .inl rfl

/-- Steps at which no check fails; on a single shard any step. -/
def noCheckFails (mesh : Mesh St) (m : StateMachineModel St)
    (c : Conf (Shared St K) (Local St K)) (i : Nat) (_ : Act) : Bool :=
  mesh.shardCount = 1 || (c.locals[i]?).all fun l => !checkFails m l

theorem ok_of_begun (hn : mesh.shardCount ≠ 1)
    (h : (machine mesh m).ReachableWhere (noCheckFails mesh m) (initial mesh) c) :
    ∀ l ∈ c.locals, l.pc.begun = true → l.result.ok = true := by
  refine Machine.invariant_runWhere
    (I := fun c => ∀ l ∈ c.locals, l.pc.begun = true → l.result.ok = true) ?_ ?_ h
  · intro c i a c' hok hp hf
    obtain ⟨l, sh', l', hl, ht, rfl⟩ := fire_trans hf
    refine forall_set ?_ fun j k _ hj => hok k (List.mem_of_getElem? hj)
    intro hbegun
    rcases trans_begun ht with hb | ⟨_, h, _⟩
    · have hl' := hok l (List.mem_of_getElem? hl) (hb ▸ hbegun)
      rcases trans_ok ht with h | h | h
      · exact h.trans hl'
      · exact h
      · simp [noCheckFails, hn, hl, h] at hp
    · exact h
  · intro l hl hbegun
    obtain ⟨i, _, rfl⟩ := List.mem_map.mp hl
    cases hbegun

/-- **No shard waits for good** in a run in which no shard stops because `check_invariants`
    failed; with a single shard, in no run at all. -/
theorem no_shard_waits_for_good (mesh : Mesh St) (m : StateMachineModel St)
    (c : Conf (Shared St K) (Local St K))
    (hr : (machine mesh m).ReachableWhere (noCheckFails mesh m) (initial mesh) c) (i : Nat) :
    ¬ WaitsForGood c i := by
  intro hstuck
  have hw := waiting_reachable hr.reachable
  refine not_waitsForGood hw ?_ hstuck
  intro k hk hfin
  by_cases hn : mesh.shardCount = 1
  · -- the only shard is the one that waits
    obtain ⟨⟨l, hl, hpc⟩, _⟩ := hstuck
    obtain ⟨j, hj⟩ := List.mem_iff_getElem?.mp hk
    have hlen := hw.basic.shards
    have h1 := (List.getElem?_eq_some_iff.mp hj).1
    have h2 := (List.getElem?_eq_some_iff.mp hl).1
    have hji : j = i := by omega
    rw [hji, hl] at hj
    cases hj
    rcases hpc with h | h <;> rw [h] at hfin <;> cases hfin
  · exact ok_of_begun hn hr k hk (begun_of_finished hfin)

end

/-- Where a run on two shards stands, for the runs below. -/
def standing : Pc St K → Nat
  | .returned => 0
  | .awaitUpdate => 1
  | _ => 2

theorem standing_eq {pc : Pc St K} :
    (standing pc = 0 → pc = .returned) ∧ (standing pc = 1 → pc = .awaitUpdate) := by
  cases pc <;> simp [standing]

set_option maxRecDepth 3000 in
theorem no_shard_waits_for_good_toggleAck :
    ∃ c : Conf (Shared Bool 1) (Local Bool 1),
      (machine twoShards toggle).runWhere (noCheckFails twoShards toggle) toggleAck
        (initial twoShards) = some c ∧
      c.locals.map (fun l => standing l.pc) = [2, 1] ∧ ¬ WaitsForGood c 1 := by
  have hrun : ((machine twoShards toggle).runWhere (noCheckFails twoShards toggle) toggleAck
      (initial twoShards : Conf (Shared Bool 1) (Local Bool 1))).map
        (fun c => c.locals.map fun l => standing l.pc) = some [2, 1] := by
    decide
  obtain ⟨c, hc, hview⟩ := Option.map_eq_some_iff.mp hrun
  exact ⟨c, hc, hview, no_shard_waits_for_good twoShards toggle c ⟨toggleAck, hc⟩ 1⟩

/-- `toggle`, where the initial state does not pass the check. -/
def toggleStuckOff : StateMachineModel Bool := { toggle with checkInvariants := id }

/-- Shard 0 owns the initial state, rejects it and returns; shard 1 waits for work. -/
def rejectRun : List (Nat × Act) :=
  List.replicate 10 (0, Act.run) ++ List.replicate 23 (1, Act.run) ++ List.replicate 14 (0, Act.run)

/-- **Shard 1 waits for good**: shard 0 has returned, and no shard has a step left. -/
theorem failed_check_leaves_shard_waiting :
    ∃ c : Conf (Shared Bool 1) (Local Bool 1),
      (machine twoShards toggleStuckOff).run rejectRun (initial twoShards) = some c ∧
      WaitsForGood c 1 ∧ ∀ j a, (machine twoShards toggleStuckOff).fire j a c = none := by
  have hrun : ((machine twoShards toggleStuckOff).run rejectRun
      (initial twoShards : Conf (Shared Bool 1) (Local Bool 1))).map
        (fun c => (c.locals.map (fun l => standing l.pc),
          c.shared.recvQueues.map fun q => (q.pendingCount, q.closed),
          [(0, Act.run), (0, .wake), (1, .run), (1, .wake)].all fun e =>
            ((machine twoShards toggleStuckOff).fire e.1 e.2 c).isNone)) =
      some ([0, 1], [(0, true), (0, false)], true) := by
    decide
  obtain ⟨c, hc, hview⟩ := Option.map_eq_some_iff.mp hrun
  simp only [Prod.mk.injEq] at hview
  obtain ⟨hpcs, hqueues, hblocked⟩ := hview
  have hlocal : ∀ (j : Nat) (l : Local Bool 1), c.locals[j]? = some l →
      [0, 1][j]? = some (standing l.pc) := by
    intro j l hl
    rw [← hpcs, List.getElem?_map, hl]
    rfl
  obtain ⟨l, hl, hpc⟩ : ∃ l, c.locals[1]? = some l ∧ standing l.pc = 1 := by
    have h1 : (c.locals.map fun l => standing l.pc)[1]? = some 1 := by rw [hpcs]; rfl
    rw [List.getElem?_map] at h1
    exact Option.map_eq_some_iff.mp h1
  obtain ⟨q, hq, hqview⟩ : ∃ q, c.shared.recvQueues[1]? = some q ∧
      (q.pendingCount, q.closed) = (0, false) := by
    have h1 : (c.shared.recvQueues.map fun q => (q.pendingCount, q.closed))[1]? =
        some (0, false) := by rw [hqueues]; rfl
    rw [List.getElem?_map] at h1
    exact Option.map_eq_some_iff.mp h1
  simp only [Prod.mk.injEq] at hqview
  refine ⟨c, hc, ⟨⟨l, hl, .inr (standing_eq.2 hpc)⟩, ⟨q, hq, hqview⟩, ?_⟩, ?_⟩
  · intro j k hj hk
    have := hlocal j k hk
    match j with
    | 0 =>
      simp only [List.getElem?_cons_zero, Option.some.injEq] at this
      exact standing_eq.1 this.symm
    | 1 => exact absurd rfl hj
    | j + 2 => simp at this
  · intro j a
    simp only [List.all_cons, List.all_nil, Bool.and_true, Bool.and_eq_true,
      Option.isNone_iff_eq_none] at hblocked
    match j with
    | 0 => cases a <;> simp [hblocked]
    | 1 => cases a <;> simp [hblocked]
    | j + 2 =>
      have hlen := congrArg List.length hpcs
      simp only [List.length_map, List.length_cons, List.length_nil] at hlen
      unfold Machine.fire
      rw [List.getElem?_eq_none (by omega)]

end Batt.Checker
