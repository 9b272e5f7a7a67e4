/-
  What one step of a shard can do, said once. `Jump` are the steps that change nothing but the
  program point and the `stalled` flags; `Trans` are all steps, each with what it found and
  what it leaves.
-/
import Batt.Checker.Model

namespace Batt.Checker

open Interleave Choice

variable {St : Type} {K : Nat} [NeZero K] {l l' : Local St K} {mesh : Mesh St}

/-! ## Exploring a branch -/

/-- The branch belongs to this shard and goes to its own queue. -/
structure Queued (mesh : Mesh St) (l : Local St K) (b : Branch St K)
    (caller : ExploreCaller St K) (l' : Local St K) : Prop where
  owner : mesh.findShard b = l.shardI
  push : ∃ pushCount missCount, l' = { l with
    queue := l.queue ++ [b]
    result := { l.result with branchPushCount := pushCount, branchMissCount := missCount }
    pc := caller.resume }

/-- The branch goes to the send buffer of the shard it belongs to. -/
structure Buffered (mesh : Mesh St) (force : Bool) (l : Local St K) (b : Branch St K)
    (caller : ExploreCaller St K) (l' : Local St K) : Prop where
  inRange : mesh.findShard b < mesh.shardCount
  remote : force = false → mesh.findShard b ≠ l.shardI
  push : ∃ missCount, l' = { l with
    sendQueues := l.sendQueues.modify (mesh.findShard b) (· ++ [b])
    result := { l.result with branchMissCount := missCount }
    pc := .sendStalled (mesh.findShard b) caller }

omit [NeZero K] in
theorem explore_cases {b : Branch St K} {force : Bool} {caller : ExploreCaller St K}
    (h : explore mesh l b force caller = some l') :
    (force = false ∧ Queued mesh l b caller l') ∨ Buffered mesh force l b caller l' := by
  unfold explore at h
  simp only at h
  split at h
  · rename_i hown
    obtain ⟨howner, hforce⟩ := hown
    cases h
    exact .inl ⟨hforce, howner, _, _, rfl⟩
  · rename_i hremote
    split at h
    · rename_i hlt
      cases h
      exact .inr ⟨hlt, fun hforce hown => hremote ⟨hown, hforce⟩, _, rfl⟩
    · cases h

/-! ## Steps that only move on -/

inductive Jump (sh : Shared St K) (l : Local St K) : Pc St K → Pc St K → Prop where
  | notStalled (dst : Nat) (caller : ExploreCaller St K) :
      Jump sh l (.sendStalled dst caller) caller.resume
  | flushDone (dst : Nat) (caller : FlushCaller) (h : l.sendQueues[dst]? = none) :
      Jump sh l (.flushAll dst caller) caller.resume
  | flushSkip (dst : Nat) (caller : FlushCaller) (h : l.sendQueues[dst]? = some []) :
      Jump sh l (.flushAll dst caller) (.flushAll (dst + 1) caller)
  | barrierDown (h : sh.barrier = 0) : Jump sh l .barrierAwait .pendingCheck
  | loopFlush : Jump sh l .enterLoop (.flushAll 0 .enterLoop)
  | loopPop : Jump sh l .enterLoop .popNext
  | nothingQueued (h : l.queue = []) : Jump sh l .popNext .tryAcquire
  | pushOpen (dst : Nat) (batch : List (Branch St K)) (caller : PushCaller St K)
      (q : RecvQueue St K) (hq : sh.recvQueues[dst]? = some q) (h : q.closed = false) :
      Jump sh l (.pushOpen dst batch caller) (.pushEmplace dst batch caller)
  | nothingPending : Jump sh l .tryAcquire (.setStalled 0)
  | setStalled (other : Nat) : Jump sh l (.setStalled other) (.setStalled (other + 1))
  | allStalled (other : Nat) : Jump sh l (.setStalled other) (.flushAll 0 .recv)
  | awaitUpdate : Jump sh l .awaitNext .awaitUpdate
  | awaitClosed (q : RecvQueue St K) (hq : sh.recvQueues[l.shardI]? = some q)
      (h : q.closed = true) : Jump sh l .awaitUpdate (.resetStalled 0 true)
  | awaitWake : Jump sh l .awaitUpdate .awaitNext
  | resetStalled (other : Nat) (closed : Bool) :
      Jump sh l (.resetStalled other closed) (.resetStalled (other + 1) closed)
  | resetClosed (other : Nat) : Jump sh l (.resetStalled other true) (.flushAll 0 .finished)
  | resetOpen (other : Nat) : Jump sh l (.resetStalled other false) .popNext
  | closeEmpty (dst : Nat) (q : RecvQueue St K) (hq : sh.recvQueues[dst]? = some q) :
      Jump sh l (.closeEmpty dst) (.close dst)
  | closeBusy (dst : Nat) (q : RecvQueue St K) (hq : sh.recvQueues[dst]? = some q) :
      Jump sh l (.closeEmpty dst) (.closeRecheck dst)
  | closeRecheck (dst : Nat) : Jump sh l (.closeRecheck dst) (.close dst)
  | closedAll (dst : Nat) (h : sh.recvQueues[dst]? = none) :
      Jump sh l (.closeEmpty dst) .awaitNext
  | drained : Jump sh l .drain .returned
  | onlyValue (current : Branch St K) (value : Nat) (k : Nat → Prog St) :
      Jump sh l (.step current (.pick value value k)) (.step current (k value))
  | pickFresh (current : Branch St K) (minValue maxValue : Nat) (k : Nat → Prog St)
      (hlt : minValue < maxValue) (hmax : maxValue ≤ maxU64)
      (hradix : (maxValue - minValue + 1) % 2 ^ 64 ≠ 0) (hempty : current.delta.empty = true) :
      Jump sh l (.step current (.pick minValue maxValue k))
        (.pickLoop current minValue ((maxValue - minValue + 1) % 2 ^ 64) 1 k)

/-- `sh'` differs from `sh` in nothing but the `stalled` flags. -/
def SameButStalled (sh sh' : Shared St K) : Prop :=
  ∃ stalled, sh' = { sh with stalled := stalled }

/-! ## All steps -/

variable [DecidableEq St] {m : StateMachineModel St} {sh sh' : Shared St K} {current : Branch St K}

inductive Trans (mesh : Mesh St) (m : StateMachineModel St) (sh : Shared St K)
    (l : Local St K) : Shared St K → Local St K → Prop where
  | jump (pc' : Pc St K) (sh' : Shared St K) (same : SameButStalled sh sh')
      (jump : Jump sh l l.pc pc') : Trans mesh m sh l sh' { l with pc := pc' }
  | seed (l' : Local St K) (at_ : l.pc = .init)
      (send : Buffered mesh true l (.root (m.normalize m.initialState)) .initial l') :
      Trans mesh m sh l sh l'
  | swap (dst : Nat) (caller : PushCaller St K)
      (at_ : (∃ k, l.pc = .sendStalled dst k ∧ caller = .send k) ∨
        ∃ k b bs, l.pc = .flushAll dst k ∧ caller = .flushAll dst k ∧
          l.sendQueues[dst]? = some (b :: bs)) :
      Trans mesh m sh l sh (beginPush l dst caller)
  | pushAdd (dst : Nat) (batch : List (Branch St K)) (caller : PushCaller St K)
      (at_ : l.pc = .pushAdd dst batch caller) :
      Trans mesh m sh l { sh with totalPendingCount := sh.totalPendingCount + 1 }
        { l with pc := .pushOpen dst batch caller }
  | pushLost (dst : Nat) (batch : List (Branch St K)) (caller : PushCaller St K)
      (at_ : l.pc = .pushOpen dst batch caller) (q : RecvQueue St K)
      (hq : sh.recvQueues[dst]? = some q) (h : q.closed = true) :
      Trans mesh m sh l { sh with dropped := sh.dropped ++ [batch] } { l with pc := caller.resume }
  | pushEmplace (dst : Nat) (batch : List (Branch St K)) (caller : PushCaller St K)
      (at_ : l.pc = .pushEmplace dst batch caller) :
      Trans mesh m sh l (sh.modifyQueue dst fun q => { q with items := q.items ++ [batch] })
        { l with pc := .pushNotify dst caller }
  | pushNotify (dst : Nat) (caller : PushCaller St K) (at_ : l.pc = .pushNotify dst caller) :
      Trans mesh m sh l
        (sh.modifyQueue dst fun q => { q with pendingCount := q.pendingCount + 1 })
        { l with pc := caller.resume }
  | barrierSub (at_ : l.pc = .barrierSub) :
      Trans mesh m sh l { sh with barrier := sh.barrier - 1 } { l with pc := .barrierAwait }
  | begin (at_ : l.pc = .pendingCheck) (h : sh.totalPendingCount > 0) :
      Trans mesh m sh l sh { l with
        result := { l.result with ok := true, stateCount := 1 }
        loopCounter := 0
        pc := .enterLoop }
  | enter (b : Branch St K) (rest : List (Branch St K)) (at_ : l.pc = .popNext)
      (hqueue : l.queue = b :: rest) (owner : mesh.findShard b = l.shardI)
      (h : m.checkInvariants b.snapshot = true) :
      Trans mesh m sh l sh { l with
        queue := rest
        history := l.history.clear
        chosen := []
        result := { l.result with branchPopCount := l.result.branchPopCount + 1 }
        entered := l.entered ++ [(b.snapshot, b.path)]
        pc := .step b (m.step b.snapshot) }
  | reject (b : Branch St K) (rest : List (Branch St K)) (at_ : l.pc = .popNext)
      (hqueue : l.queue = b :: rest) (owner : mesh.findShard b = l.shardI)
      (h : m.checkInvariants b.snapshot = false) :
      Trans mesh m sh l sh { l with
        queue := rest
        history := l.history.clear
        chosen := []
        result := { l.result with branchPopCount := l.result.branchPopCount + 1, ok := false }
        rejected := l.rejected ++ [(b.snapshot, b.path)]
        pc := .flushAll 0 .finished }
  | replay (current : Branch St K) (minValue maxValue value : Nat) (k : Nat → Prog St)
      (delta history : RadixQueue K) (at_ : l.pc = .step current (.pick minValue maxValue k))
      (hlt : minValue < maxValue) (hmax : maxValue ≤ maxU64)
      (hradix : (maxValue - minValue + 1) % 2 ^ 64 ≠ 0) (hne : current.delta.empty = false)
      (hpop : current.delta.pop ((maxValue - minValue + 1) % 2 ^ 64) = some (value, delta))
      (hpush : l.history.push ((maxValue - minValue + 1) % 2 ^ 64) value = some history) :
      Trans mesh m sh l sh { l with
        history := history
        chosen := l.chosen ++ [⟨(maxValue - minValue + 1) % 2 ^ 64, value⟩]
        pc := .step { current with delta := delta, path := current.path.tail }
          (k (minValue + value)) }
  | sibling (current : Branch St K) (minValue radix value : Nat) (k : Nat → Prog St)
      (delta : RadixQueue K) (l' : Local St K)
      (at_ : l.pc = .pickLoop current minValue radix value k) (hlt : value < radix)
      (hpush : l.history.push radix value = some delta)
      (send : Queued mesh l ⟨current.snapshot, delta, l.chosen ++ [⟨radix, value⟩]⟩
          (.pickInt current minValue radix (value + 1) k) l' ∨
        Buffered mesh false l ⟨current.snapshot, delta, l.chosen ++ [⟨radix, value⟩]⟩
          (.pickInt current minValue radix (value + 1) k) l') :
      Trans mesh m sh l sh l'
  | lowest (current : Branch St K) (minValue radix value : Nat) (k : Nat → Prog St)
      (history : RadixQueue K) (at_ : l.pc = .pickLoop current minValue radix value k)
      (hle : radix ≤ value) (hpush : l.history.push radix 0 = some history) :
      Trans mesh m sh l sh { l with
        history := history
        chosen := l.chosen ++ [⟨radix, 0⟩]
        pc := .step current (k minValue) }
  | violated (current : Branch St K) (raw : St) (at_ : l.pc = .step current (.ret raw))
      (h : m.checkInvariants raw = false) :
      Trans mesh m sh l sh { l with
        executed := l.executed ++ [⟨current.snapshot, l.chosen, raw⟩]
        result := { l.result with ok := false }
        pc := .flushAll 0 .finished }
  | known (current : Branch St K) (raw : St) (selfBranchCount : Nat)
      (at_ : l.pc = .step current (.ret raw)) (h : m.checkInvariants raw = true)
      (hseen : m.normalize raw = current.snapshot ∨ m.normalize raw ∈ l.visited) :
      Trans mesh m sh l sh { l with
        executed := l.executed ++ [⟨current.snapshot, l.chosen, raw⟩]
        result := { l.result with selfBranchCount := selfBranchCount }
        loopCounter := l.loopCounter + 1
        pc := .enterLoop }
  | discover (current : Branch St K) (raw : St) (l₁ l' : Local St K)
      (at_ : l.pc = .step current (.ret raw)) (h : m.checkInvariants raw = true)
      (hnew : m.normalize raw ∉ l.visited)
      (hl₁ : l₁ = { l with
        executed := l.executed ++ [⟨current.snapshot, l.chosen, raw⟩]
        visited := l.visited ++ [m.normalize raw]
        result := { l.result with stateCount := l.result.stateCount + 1 }
        loopCounter := l.loopCounter + 1
        pc := .enterLoop })
      (send : Queued mesh l₁ (.root (m.normalize raw)) .discovered l' ∨
        Buffered mesh false l₁ (.root (m.normalize raw)) .discovered l') :
      Trans mesh m sh l sh l'
  | acquire (stalled : Bool) (q : RecvQueue St K)
      (at_ : l.pc = if stalled then .awaitNext else .tryAcquire)
      (hq : sh.recvQueues[l.shardI]? = some q) (h : 0 < q.pendingCount) :
      Trans mesh m sh l
        (sh.modifyQueue l.shardI fun q => { q with pendingCount := q.pendingCount - 1 })
        { l with pc := .popItem stalled }
  | receive (stalled : Bool) (q : RecvQueue St K) (batch : List (Branch St K))
      (items : List (List (Branch St K))) (at_ : l.pc = .popItem stalled)
      (hq : sh.recvQueues[l.shardI]? = some q) (hitems : q.items = batch :: items)
      (hne : batch ≠ []) :
      Trans mesh m sh l (sh.modifyQueue l.shardI fun q => { q with items := items })
        (receive l batch (if stalled then .resetStalled 0 false else .popNext))
  | ack (at_ : l.pc = .ack) (pc' : Pc St K)
      (hpc : pc' = if sh.totalPendingCount - l.localConsumeCount = 0 then .closeEmpty 0
        else .awaitNext) :
      Trans mesh m sh l
        { sh with totalPendingCount := sh.totalPendingCount - l.localConsumeCount }
        { l with localConsumeCount := 0, pc := pc' }
  | close (dst : Nat) (at_ : l.pc = .close dst) :
      Trans mesh m sh l (sh.modifyQueue dst fun q => { q with closed := true })
        { l with pc := .closeEmpty (dst + 1) }
  | finishedClose (at_ : l.pc = .finishedClose) :
      Trans mesh m sh l (sh.modifyQueue l.shardI fun q => { q with closed := true })
        { l with pc := .drain }
  | drainAcquire (q : RecvQueue St K) (at_ : l.pc = .drain)
      (hq : sh.recvQueues[l.shardI]? = some q) (h : 0 < q.pendingCount) :
      Trans mesh m sh l
        (sh.modifyQueue l.shardI fun q => { q with pendingCount := q.pendingCount - 1 })
        { l with pc := .drainPop }
  | drainPop (q : RecvQueue St K) (batch : List (Branch St K))
      (items : List (List (Branch St K))) (at_ : l.pc = .drainPop)
      (hq : sh.recvQueues[l.shardI]? = some q) (hitems : q.items = batch :: items) :
      Trans mesh m sh l
        { (sh.modifyQueue l.shardI fun q => { q with items := items }) with
          dropped := sh.dropped ++ [batch] }
        { l with pc := .drain }

theorem trans_jump {pc pc' : Pc St K} (hpc : l.pc = pc) (hj : Jump sh l pc pc') :
    Trans mesh m sh l sh { l with pc := pc' } :=
  .jump pc' sh ⟨sh.stalled, rfl⟩ (hpc ▸ hj)

theorem trans_setStalled {pc pc' : Pc St K} (src dst : Nat) (b : Bool) (hpc : l.pc = pc)
    (hj : Jump sh l pc pc') :
    Trans mesh m sh l (sh.setStalled src dst b) { l with pc := pc' } :=
  .jump pc' _ ⟨_, rfl⟩ (hpc ▸ hj)

theorem enter_trans {b : Branch St K} {rest : List (Branch St K)} (hpc : l.pc = .popNext)
    (hqueue : l.queue = b :: rest) (owner : mesh.findShard b = l.shardI) :
    Trans mesh m sh l sh (enter m l b rest) := by
  unfold Checker.enter
  simp only
  split
  · rename_i h
    exact .enter b rest hpc hqueue owner h
  · rename_i h
    exact .reject b rest hpc hqueue owner (by simpa using h)

theorem pickInt_trans {minValue maxValue : Nat} {k : Nat → Prog St}
    (hpc : l.pc = .step current (.pick minValue maxValue k))
    (h : pickInt l current minValue maxValue k = some l') : Trans mesh m sh l sh l' := by
  unfold pickInt at h
  simp only at h
  split at h
  · rename_i heq
    subst heq
    cases h
    exact trans_jump hpc (.onlyValue current minValue k)
  · split at h
    · rename_i hrange
      obtain ⟨hlt, hmax, hradix⟩ := hrange
      split at h
      · rename_i hempty
        cases h
        exact trans_jump hpc (.pickFresh current minValue maxValue k hlt hmax hradix hempty)
      · rename_i hne
        obtain ⟨⟨value, delta⟩, hpop, h⟩ := Option.bind_eq_some_iff.mp h
        obtain ⟨history, hpush, h⟩ := Option.map_eq_some_iff.mp h
        subst h
        exact .replay current minValue maxValue value k delta history hpc hlt hmax hradix
          (by simpa using hne) hpop hpush
    · cases h

theorem pickLoop_trans {minValue radix value : Nat} {k : Nat → Prog St}
    (hpc : l.pc = .pickLoop current minValue radix value k)
    (h : pickLoop mesh l current minValue radix value k = some l') :
    Trans mesh m sh l sh l' := by
  unfold pickLoop at h
  split at h
  · rename_i hlt
    obtain ⟨delta, hpush, h⟩ := Option.bind_eq_some_iff.mp h
    rcases explore_cases h with ⟨_, hq⟩ | hb
    · exact .sibling current minValue radix value k delta l' hpc hlt hpush (.inl hq)
    · exact .sibling current minValue radix value k delta l' hpc hlt hpush (.inr hb)
  · rename_i hlt
    obtain ⟨history, hpush, h⟩ := Option.map_eq_some_iff.mp h
    subst h
    exact .lowest current minValue radix value k history hpc (by omega) hpush

theorem leave_trans {raw : St} (hpc : l.pc = .step current (.ret raw))
    (h : leave mesh m l current raw = some l') :
    Trans mesh m sh l sh l' := by
  unfold leave at h
  simp only at h
  split at h
  · rename_i hok
    split at h
    · rename_i hself
      cases h
      exact .known current raw _ hpc hok (.inl hself)
    · split at h
      · rename_i hseen
        cases h
        exact .known current raw l.result.selfBranchCount hpc hok (.inr hseen)
      · rename_i hnew
        rcases explore_cases h with ⟨_, hq⟩ | hb
        · exact .discover current raw _ l' hpc hok hnew rfl (.inl hq)
        · exact .discover current raw _ l' hpc hok hnew rfl (.inr hb)
  · rename_i hbad
    cases h
    exact .violated current raw hpc (by simpa using hbad)

theorem exec_trans (h : exec mesh m sh l = some (sh', l')) : Trans mesh m sh l sh' l' := by
  cases hpc : l.pc with
  | init =>
    simp only [exec, hpc] at h
    obtain ⟨l₁, he, hr⟩ := Option.map_eq_some_iff.mp h
    cases hr
    rcases explore_cases he with ⟨hforce, _⟩ | hb
    · cases hforce
    · exact .seed l' hpc hb
  | barrierSub =>
    simp only [exec, hpc, goto] at h
    cases h
    exact .barrierSub hpc
  | barrierAwait =>
    simp only [exec, hpc, goto] at h
    split at h <;> cases h
    rename_i hb
    exact trans_jump hpc (.barrierDown hb)
  | pendingCheck =>
    simp only [exec, hpc] at h
    split at h <;> cases h
    rename_i hpos
    exact .begin hpc hpos
  | enterLoop =>
    simp only [exec, hpc, goto] at h
    split at h
    · cases h
    · split at h <;> cases h
      · exact trans_jump hpc .loopFlush
      · exact trans_jump hpc .loopPop
  | popNext =>
    simp only [exec, hpc, goto] at h
    split at h
    · rename_i hq
      cases h
      exact trans_jump hpc (.nothingQueued hq)
    · rename_i b rest hq
      split at h <;> cases h
      rename_i howner
      exact enter_trans hpc hq howner
  | step current p =>
    cases p with
    | ret raw =>
      simp only [exec, hpc] at h
      obtain ⟨l₁, he, hr⟩ := Option.map_eq_some_iff.mp h
      cases hr
      exact leave_trans hpc he
    | pick minValue maxValue k =>
      simp only [exec, hpc] at h
      obtain ⟨l₁, he, hr⟩ := Option.map_eq_some_iff.mp h
      cases hr
      exact pickInt_trans hpc he
  | pickLoop current minValue radix value k =>
    simp only [exec, hpc] at h
    obtain ⟨l₁, he, hr⟩ := Option.map_eq_some_iff.mp h
    cases hr
    exact pickLoop_trans hpc he
  | sendStalled dst caller =>
    simp only [exec, hpc, goto] at h
    split at h <;> cases h
    · exact .swap dst (.send caller) (.inl ⟨caller, hpc, rfl⟩)
    · exact trans_jump hpc (.notStalled dst caller)
  | flushAll dst caller =>
    simp only [exec, hpc, goto] at h
    split at h <;> cases h
    · rename_i hnone
      exact trans_jump hpc (.flushDone dst caller hnone)
    · rename_i hnil
      exact trans_jump hpc (.flushSkip dst caller hnil)
    · rename_i b bs hcons
      exact .swap dst (.flushAll dst caller) (.inr ⟨caller, b, bs, hpc, rfl, hcons⟩)
  | pushAdd dst batch caller =>
    simp only [exec, hpc, goto] at h
    cases h
    exact .pushAdd dst batch caller hpc
  | pushOpen dst batch caller =>
    simp only [exec, hpc, goto] at h
    obtain ⟨q, hq, hr⟩ := Option.bind_eq_some_iff.mp h
    split at hr <;> cases hr
    · rename_i hclosed
      exact .pushLost dst batch caller hpc q hq hclosed
    · rename_i hopen
      exact trans_jump hpc (.pushOpen dst batch caller q hq (by simpa using hopen))
  | pushEmplace dst batch caller =>
    simp only [exec, hpc, goto] at h
    cases h
    exact .pushEmplace dst batch caller hpc
  | pushNotify dst caller =>
    simp only [exec, hpc, goto] at h
    cases h
    exact .pushNotify dst caller hpc
  | tryAcquire =>
    simp only [exec, hpc, goto] at h
    obtain ⟨q, hq, hr⟩ := Option.bind_eq_some_iff.mp h
    split at hr <;> cases hr
    · rename_i hpos
      exact .acquire false q hpc hq hpos
    · exact trans_jump hpc .nothingPending
  | popItem stalled =>
    simp only [exec, hpc] at h
    obtain ⟨q, hq, hr⟩ := Option.bind_eq_some_iff.mp h
    split at hr
    · cases hr
    · cases hr
    · rename_i batch items hne hitems
      cases hr
      exact .receive stalled q batch items hpc hq hitems hne
  | setStalled other =>
    simp only [exec, hpc, goto] at h
    split at h <;> cases h
    · exact trans_setStalled _ _ _ hpc (.setStalled other)
    · exact trans_jump hpc (.allStalled other)
  | ack =>
    simp only [exec, hpc] at h
    cases h
    exact .ack hpc _ rfl
  | awaitNext =>
    simp only [exec, hpc, goto] at h
    obtain ⟨q, hq, hr⟩ := Option.bind_eq_some_iff.mp h
    split at hr <;> cases hr
    · rename_i hpos
      exact .acquire true q hpc hq hpos
    · exact trans_jump hpc .awaitUpdate
  | awaitUpdate =>
    simp only [exec, hpc, goto] at h
    obtain ⟨q, hq, hr⟩ := Option.bind_eq_some_iff.mp h
    split at hr <;> cases hr
    rename_i hclosed
    exact trans_jump hpc (.awaitClosed q hq hclosed)
  | resetStalled other closed =>
    simp only [exec, hpc, goto] at h
    split at h
    · cases h
      exact trans_setStalled _ _ _ hpc (.resetStalled other closed)
    · split at h <;> cases h
      · rename_i hclosed
        subst hclosed
        exact trans_jump hpc (.resetClosed other)
      · rename_i hopen
        have hopen : closed = false := by simpa using hopen
        subst hopen
        exact trans_jump hpc (.resetOpen other)
  | closeEmpty dst =>
    simp only [exec, hpc, goto] at h
    split at h
    · rename_i hnone
      cases h
      exact trans_jump hpc (.closedAll dst hnone)
    · rename_i q hq
      split at h <;> cases h
      · exact trans_jump hpc (.closeEmpty dst q hq)
      · exact trans_jump hpc (.closeBusy dst q hq)
  | closeRecheck dst =>
    simp only [exec, hpc, goto] at h
    obtain ⟨q, hq, hr⟩ := Option.bind_eq_some_iff.mp h
    split at hr <;> cases hr
    exact trans_jump hpc (.closeRecheck dst)
  | close dst =>
    simp only [exec, hpc, goto] at h
    cases h
    exact .close dst hpc
  | finishedClose =>
    simp only [exec, hpc, goto] at h
    cases h
    exact .finishedClose hpc
  | drain =>
    simp only [exec, hpc, goto] at h
    obtain ⟨q, hq, hr⟩ := Option.bind_eq_some_iff.mp h
    split at hr <;> cases hr
    · rename_i hpos
      exact .drainAcquire q hpc hq hpos
    · exact trans_jump hpc .drained
  | drainPop =>
    simp only [exec, hpc, goto] at h
    obtain ⟨q, hq, hr⟩ := Option.bind_eq_some_iff.mp h
    split at hr <;> cases hr
    rename_i batch items hitems
    exact .drainPop q batch items hpc hq hitems
  | returned =>
    simp only [exec, hpc] at h
    cases h

/-- Every step of a shard is one of `Trans`. -/
theorem step_trans {a : Act} (h : step mesh m a sh l = some (sh', l')) :
    Trans mesh m sh l sh' l' := by
  cases a with
  | run => exact exec_trans h
  | wake =>
    simp only [step, goto] at h
    split at h
    · rename_i hpc
      obtain ⟨q, _, hr⟩ := Option.bind_eq_some_iff.mp h
      split at hr <;> cases hr
      exact trans_jump hpc .awaitWake
    · cases h

/-- A step of the mesh is a step of one shard. -/
theorem fire_trans {i : Nat} {a : Act} {c c' : Conf (Shared St K) (Local St K)}
    (h : (machine mesh m).fire i a c = some c') :
    ∃ l sh' l', c.locals[i]? = some l ∧ Trans mesh m c.shared l sh' l' ∧
      c' = ⟨sh', c.locals.set i l'⟩ := by
  obtain ⟨l, sh', l', hl, _, hs, rfl⟩ := Machine.fire_cases h
  exact ⟨l, sh', l', hl, step_trans hs, rfl⟩

/-- The step at the acknowledgement. -/
theorem trans_ack (ht : Trans mesh m sh l sh' l') (hpc : l.pc = .ack) :
    sh' = { sh with totalPendingCount := sh.totalPendingCount - l.localConsumeCount } ∧
      l' = { l with
        localConsumeCount := 0
        pc := if sh.totalPendingCount - l.localConsumeCount = 0 then .closeEmpty 0
          else .awaitNext } := by
  cases ht with
  | ack _ pc' hpc' =>
    subst hpc'
    exact ⟨rfl, rfl⟩
  | jump _ _ _ hj =>
    rw [hpc] at hj
    cases hj
  | swap _ _ at_ =>
    rcases at_ with ⟨k, h, _⟩ | ⟨k, _, _, h, _, _⟩ <;> rw [hpc] at h <;> cases h
  | acquire stalled _ at_ =>
    rw [hpc] at at_
    cases stalled <;> cases at_
  | seed _ at_ | sibling _ _ _ _ _ _ _ at_ | discover _ _ _ _ at_ | pushLost _ _ _ at_
  | pushNotify _ _ at_ | receive _ _ _ _ at_ | pushAdd _ _ _ at_
  | pushEmplace _ _ _ at_ | begin at_ | enter _ _ at_ | reject _ _ at_ | barrierSub at_
  | replay _ _ _ _ _ _ _ at_ | lowest _ _ _ _ _ _ at_ | violated _ _ at_ | known _ _ _ at_
  | close _ at_ | finishedClose at_ | drainAcquire _ at_ | drainPop _ _ _ at_ =>
    rw [hpc] at at_
    cases at_

end Batt.Checker
