/-
  What a step of the producer or the consumer can do, said once.

  A constructor of `ProducerStep` or `ConsumerStep` is a branch of the party's step function that
  fails no check, with the branch's condition. A call into a watch goes on (`on`) or has returned.
-/
import Batt.Channel.Closers

namespace Batt.Channel

open Watch

variable {V : Type} {sh sh' : Shared V} {p p' : Producer V} {a : Act V} {q q' : Consumer}

/-- The call goes on. -/
def Goes (pc : Watch.Pc I32) : Prop := ∀ ret, pc ≠ .finish ret

inductive ProducerStep (sh : Shared V) : Producer V → Shared V → Producer V → Prop where
  | start (mode : Mode) (v : V) :
      ProducerStep sh .idle { sh with written := sh.written ++ [v] } (.activeWrite mode v)
  | startClose : ProducerStep sh .idle sh (.closing (.lockObservers (.close .kClosed)))
  | activeWrite (mode : Mode) (v : V) :
      ProducerStep sh (.activeWrite mode v) sh (.activeRead mode v sh.writeCount.value)
  | inactive (mode : Mode) (v : V) (writeCount : I32)
      (inactive : ¬ (writeCount - sh.readCount.value).toInt > 0) :
      ProducerStep sh (.activeRead mode v writeCount) sh (.isClosed mode v)
  | refuse (mode : Mode) (v : V) (closed : sh.writeCount.spinState &&& kOpen = 0) :
      ProducerStep sh (.isClosed mode v) sh .idle
  | accept (mode : Mode) (v : V) : ProducerStep sh (.isClosed mode v) sh (.setValue mode v)
  | setAsync (v : V) :
      ProducerStep sh (.setValue .asyncWrite v) { sh with value := some v } .loadLastSeen
  | setSync (v : V) :
      ProducerStep sh (.setValue .write v) { sh with value := some v }
        (.fetchAdd none (.fetch .add 1))
  | lastSeen :
      ProducerStep sh .loadLastSeen sh (.fetchAdd (some sh.readCount.value) (.fetch .add 1))
  | fetch (lastSeen : Option I32) {pc pc' : Watch.Pc I32} {sh' : Shared V}
      (ran : Ran sh .write pc sh' pc') (on : Goes pc') :
      ProducerStep sh (.fetchAdd lastSeen pc) sh' (.fetchAdd lastSeen pc')
  | post (lastSeen old : I32) {pc : Watch.Pc I32} {sh' : Shared V}
      (ran : Ran sh .write pc sh' (.finish (.value old))) (check : lastSeen + 1 = old + 1) :
      ProducerStep sh (.fetchAdd (some lastSeen) pc)
        (sh'.beginWait .read (.asyncWait lastSeen) (.asyncWrite (old + 1))).1
        (.asyncWait sh'.readCount.handlers.length
          (sh'.beginWait .read (.asyncWait lastSeen) (.asyncWrite (old + 1))).2)
  | poll (old : I32) {pc : Watch.Pc I32} {sh' : Shared V}
      (ran : Ran sh .write pc sh' (.finish (.value old))) :
      ProducerStep sh (.fetchAdd none pc) sh' (.awaitLoad (old + 1))
  | wait (h : Nat) {pc pc' : Watch.Pc I32} {sh' : Shared V} (ran : Ran sh .read pc sh' pc')
      (on : Goes pc') : ProducerStep sh (.asyncWait h pc) sh' (.asyncWait h pc')
  | waited (h : Nat) {pc : Watch.Pc I32} {ret : Watch.Ret I32} {sh' : Shared V}
      (ran : Ran sh .read pc sh' (.finish ret)) :
      ProducerStep sh (.asyncWait h pc) sh' (.awaitHandler h)
  | handled (h : Nat) (result : StatusOr I32)
      (given : sh.readCount.invoked.lookup h = some result) :
      ProducerStep sh (.awaitHandler h) sh .idle
  | load (target : I32) :
      ProducerStep sh (.awaitLoad target) (awaitEqual sh target sh.readCount.value).1
        (awaitEqual sh target sh.readCount.value).2
  | await (target : I32) {pc pc' : Watch.Pc I32} {sh' : Shared V} (ran : Ran sh .read pc sh' pc')
      (on : Goes pc') : ProducerStep sh (.awaitNotEqual target pc) sh' (.awaitNotEqual target pc')
  | reload (target observed : I32) {pc : Watch.Pc I32} {sh' : Shared V}
      (ran : Ran sh .read pc sh' (.finish (.value observed))) :
      ProducerStep sh (.awaitNotEqual target pc) (awaitEqual sh' target observed).1
        (awaitEqual sh' target observed).2
  | closed (target : I32) (code : StatusCode) {pc : Watch.Pc I32} {sh' : Shared V}
      (ran : Ran sh .read pc sh' (.finish (.status code))) :
      ProducerStep sh (.awaitNotEqual target pc) sh' .idle
  | close {pc pc' : Watch.Pc I32} {sh' : Shared V} (ran : Ran sh .write pc sh' pc')
      (on : Goes pc') : ProducerStep sh (.closing pc) sh' (.closing pc')
  | hasClosed {pc : Watch.Pc I32} {ret : Watch.Ret I32} {sh' : Shared V}
      (ran : Ran sh .write pc sh' (.finish ret)) : ProducerStep sh (.closing pc) sh' .idle

inductive ConsumerStep (sh : Shared V) : Consumer → Shared V → Consumer → Prop where
  | asyncRead : ConsumerStep sh .idle sh .isClosed
  | read : ConsumerStep sh .idle sh .readLoad
  | consume : ConsumerStep sh .holding sh .activeWrite
  | startClose (held : Bool) :
      ConsumerStep sh (if held then .holding else .idle) sh
        (.closing (.lockObservers (.close .kClosed)) held)
  | refuse : ConsumerStep sh .isClosed sh .idle
  | accept : ConsumerStep sh .isClosed sh .loadWrite
  | loadWrite : ConsumerStep sh .loadWrite sh (.loadRead sh.writeCount.value)
  | ready (observed : I32) : ConsumerStep sh (.loadRead observed) sh .deref
  | ask (observed : I32) :
      ConsumerStep sh (.loadRead observed)
        (sh.beginWait .write (.asyncWait observed) (.asyncRead sh.readCount.value)).1
        (.asyncWait sh.writeCount.handlers.length
          (sh.beginWait .write (.asyncWait observed) (.asyncRead sh.readCount.value)).2)
  | wait (h : Nat) {pc pc' : Watch.Pc I32} {sh' : Shared V} (ran : Ran sh .write pc sh' pc')
      (on : Goes pc') : ConsumerStep sh (.asyncWait h pc) sh' (.asyncWait h pc')
  | waited (h : Nat) {pc : Watch.Pc I32} {ret : Watch.Ret I32} {sh' : Shared V}
      (ran : Ran sh .write pc sh' (.finish ret)) :
      ConsumerStep sh (.asyncWait h pc) sh' (.awaitHandler h)
  | handled (h : Nat) (result : StatusOr I32) (held : Bool)
      (given : sh.writeCount.invoked.lookup h = some result) :
      ConsumerStep sh (.awaitHandler h) sh (if held then .holding else .idle)
  | readLoad :
      ConsumerStep sh .readLoad
        (sh.beginWait .write (.awaitNotEqual sh.readCount.value) .resume).1
        (.awaitNotEqual (sh.beginWait .write (.awaitNotEqual sh.readCount.value) .resume).2)
  | await {pc pc' : Watch.Pc I32} {sh' : Shared V} (ran : Ran sh .write pc sh' pc')
      (on : Goes pc') : ConsumerStep sh (.awaitNotEqual pc) sh' (.awaitNotEqual pc')
  | awaited (ok : Bool) {pc : Watch.Pc I32} {ret : Watch.Ret I32} {sh' : Shared V}
      (ran : Ran sh .write pc sh' (.finish ret)) :
      ConsumerStep sh (.awaitNotEqual pc) sh' (if ok then .deref else .idle)
  | deref (v : V) (value : sh.value = some v) :
      ConsumerStep sh .deref { sh with reads := sh.reads ++ [v] } .holding
  | activeWrite : ConsumerStep sh .activeWrite sh (.activeRead sh.writeCount.value)
  | active (writeCount : I32) (active : (writeCount - sh.readCount.value).toInt > 0) :
      ConsumerStep sh (.activeRead writeCount) sh .clearValue
  | clear :
      ConsumerStep sh .clearValue { sh with value := none, consumed := sh.consumed + 1 }
        (.fetchAdd (.fetch .add 1))
  | fetch {pc pc' : Watch.Pc I32} {sh' : Shared V} (ran : Ran sh .read pc sh' pc')
      (on : Goes pc') : ConsumerStep sh (.fetchAdd pc) sh' (.fetchAdd pc')
  | fetched {pc : Watch.Pc I32} {ret : Watch.Ret I32} {sh' : Shared V}
      (ran : Ran sh .read pc sh' (.finish ret)) : ConsumerStep sh (.fetchAdd pc) sh' .idle
  | close (held : Bool) {pc pc' : Watch.Pc I32} {sh' : Shared V} (ran : Ran sh .read pc sh' pc')
      (on : Goes pc') : ConsumerStep sh (.closing pc held) sh' (.closing pc' held)
  | hasClosed (held : Bool) {pc : Watch.Pc I32} {ret : Watch.Ret I32} {sh' : Shared V}
      (ran : Ran sh .read pc sh' (.finish ret)) :
      ConsumerStep sh (.closing pc held) sh' (if held then .holding else .idle)

/-! ## They are all there is -/

theorem awaitEqual_failure (sh : Shared V) (target observed : I32) :
    (awaitEqual sh target observed).1.failure = sh.failure := by
  unfold awaitEqual
  split <;> rfl

theorem beginWait_failure (sh : Shared V) (c : Count) (op : Op I32) (body : Body) :
    (sh.beginWait c op body).1.failure = sh.failure := by
  cases c <;> rfl

theorem producerStep_of_step (hs : p.step sh a = some (sh', p')) (hf : sh'.failure = none) :
    ProducerStep sh p sh' p' := by
  cases p with
  | idle =>
    cases a with
    | asyncWrite v | write v =>
      cases hs
      exact .start _ v
    | closeForWrite =>
      cases hs
      exact .startClose
    | _ => cases hs
  | activeWrite mode v =>
    cases a <;> cases hs
    exact .activeWrite mode v
  | activeRead mode v writeCount =>
    cases a <;> simp only [Producer.step] at hs <;> try cases hs
    split at hs
    · cases hs
      cases hf
    · rename_i hn
      cases hs
      exact .inactive mode v writeCount hn
  | isClosed mode v =>
    cases a <;> simp only [Producer.step] at hs <;> try cases hs
    split at hs
    · rename_i hclosed
      cases hs
      exact .refuse mode v hclosed
    · cases hs
      exact .accept mode v
  | setValue mode v =>
    cases mode with
    | asyncWrite =>
      cases a <;> cases hs
      exact .setAsync v
    | write =>
      cases a <;> cases hs
      exact .setSync v
  | loadLastSeen =>
    cases a <;> cases hs
    exact .lastSeen
  | fetchAdd lastSeen pc =>
    cases a <;> simp only [Producer.step] at hs <;> try cases hs
    obtain ⟨⟨sh₁, pc₁⟩, hw, hs⟩ := Option.bind_eq_some_iff.mp hs
    rcases cases_finish hs with ⟨ret, hpc, hs⟩ | ⟨on, hs⟩
    · dsimp only at hpc hs
      subst hpc
      cases lastSeen with
      | none =>
        cases ret with
        | value old =>
          cases hs
          exact .poll old (watchStep_ran hw hf)
        | _ => cases hs
      | some lastSeen =>
        cases ret with
        | value old =>
          simp only [afterFetchAdd] at hs
          split at hs
          · rename_i heq
            cases hs
            exact .post lastSeen old (watchStep_ran hw hf) heq
          · cases hs
            cases hf
        | _ => cases hs
    · cases hs
      exact .fetch lastSeen (watchStep_ran hw hf) on
  | asyncWait h pc =>
    cases a <;> simp only [Producer.step] at hs <;> try cases hs
    obtain ⟨⟨sh₁, pc₁⟩, hw, hs⟩ := Option.map_eq_some_iff.mp hs
    rcases cases_finish hs with ⟨ret, hpc, hs⟩ | ⟨on, hs⟩
    · dsimp only at hpc hs
      subst hpc
      cases hs
      exact .waited h (watchStep_ran hw hf)
    · cases hs
      exact .wait h (watchStep_ran hw hf) on
  | awaitHandler h =>
    cases a <;> simp only [Producer.step] at hs <;> try cases hs
    obtain ⟨result, hgiven, hs⟩ := Option.map_eq_some_iff.mp hs
    cases hs
    exact .handled h result hgiven
  | awaitLoad target =>
    cases a <;> simp only [Producer.step] at hs <;> try cases hs
    obtain ⟨rfl, rfl⟩ := Prod.ext_iff.mp (Option.some.inj hs)
    exact .load target
  | awaitNotEqual target pc =>
    cases a <;> simp only [Producer.step] at hs <;> try cases hs
    obtain ⟨⟨sh₁, pc₁⟩, hw, hs⟩ := Option.bind_eq_some_iff.mp hs
    rcases cases_finish hs with ⟨ret, hpc, hs⟩ | ⟨on, hs⟩
    · dsimp only at hpc hs
      subst hpc
      cases ret with
      | value observed =>
        obtain ⟨rfl, rfl⟩ := Prod.ext_iff.mp (Option.some.inj hs)
        rw [awaitEqual_failure] at hf
        exact .reload target observed (watchStep_ran hw hf)
      | status code =>
        cases hs
        exact .closed target code (watchStep_ran hw hf)
      | _ => cases hs
    · cases hs
      exact .await target (watchStep_ran hw hf) on
  | closing pc =>
    cases a <;> simp only [Producer.step] at hs <;> try cases hs
    obtain ⟨⟨sh₁, pc₁⟩, hw, hs⟩ := Option.map_eq_some_iff.mp hs
    rcases cases_finish hs with ⟨ret, hpc, hs⟩ | ⟨on, hs⟩
    · dsimp only at hpc hs
      subst hpc
      cases hs
      exact .hasClosed (watchStep_ran hw hf)
    · cases hs
      exact .close (watchStep_ran hw hf) on

theorem consumerStep_of_step (hs : q.step sh a = some (sh', q')) (hf : sh'.failure = none) :
    ConsumerStep sh q sh' q' := by
  cases q with
  | idle =>
    cases a with
    | asyncRead =>
      cases hs
      exact .asyncRead
    | read =>
      cases hs
      exact .read
    | closeForRead =>
      cases hs
      exact .startClose false
    | _ => cases hs
  | isClosed =>
    cases a <;> simp only [Consumer.step] at hs <;> try cases hs
    split at hs
    · cases hs
      exact .refuse
    · cases hs
      exact .accept
  | loadWrite =>
    cases a <;> cases hs
    exact .loadWrite
  | loadRead observed =>
    cases a <;> simp only [Consumer.step] at hs <;> try cases hs
    split at hs
    · cases hs
      exact .ready observed
    · cases hs
      exact .ask observed
  | asyncWait h pc =>
    cases a <;> simp only [Consumer.step] at hs <;> try cases hs
    obtain ⟨⟨sh₁, pc₁⟩, hw, hs⟩ := Option.map_eq_some_iff.mp hs
    rcases cases_finish hs with ⟨ret, hpc, hs⟩ | ⟨on, hs⟩
    · dsimp only at hpc hs
      subst hpc
      cases hs
      exact .waited h (watchStep_ran hw hf)
    · cases hs
      exact .wait h (watchStep_ran hw hf) on
  | awaitHandler h =>
    cases a <;> simp only [Consumer.step] at hs <;> try cases hs
    obtain ⟨result, hgiven, hs⟩ := Option.map_eq_some_iff.mp hs
    cases result with
    | ok v =>
      cases hs
      exact .handled h _ true hgiven
    | error code =>
      cases hs
      exact .handled h _ false hgiven
  | readLoad =>
    cases a <;> cases hs
    exact .readLoad
  | awaitNotEqual pc =>
    cases a <;> simp only [Consumer.step] at hs <;> try cases hs
    obtain ⟨⟨sh₁, pc₁⟩, hw, hs⟩ := Option.bind_eq_some_iff.mp hs
    dsimp only at hs
    split at hs
    · cases hs
      exact .awaited true (watchStep_ran hw hf)
    · cases hs
      exact .awaited false (watchStep_ran hw hf)
    · cases hs
    · rename_i _ _ hne
      cases hs
      exact .await (watchStep_ran hw hf) hne
  | deref =>
    cases a <;> simp only [Consumer.step] at hs <;> try cases hs
    cases hv : sh.value with
    | none =>
      simp only [Shared.deliver, hv] at hf
      cases hf
    | some v =>
      rw [deliver_eq hv]
      exact .deref v hv
  | holding =>
    cases a with
    | consume =>
      cases hs
      exact .consume
    | closeForRead =>
      cases hs
      exact .startClose true
    | _ => cases hs
  | activeWrite =>
    cases a <;> cases hs
    exact .activeWrite
  | activeRead writeCount =>
    cases a <;> simp only [Consumer.step] at hs <;> try cases hs
    split at hs
    · rename_i hactive
      cases hs
      exact .active writeCount hactive
    · cases hs
      cases hf
  | clearValue =>
    cases a <;> cases hs
    exact .clear
  | fetchAdd pc =>
    cases a <;> simp only [Consumer.step] at hs <;> try cases hs
    obtain ⟨⟨sh₁, pc₁⟩, hw, hs⟩ := Option.map_eq_some_iff.mp hs
    rcases cases_finish hs with ⟨ret, hpc, hs⟩ | ⟨on, hs⟩
    · dsimp only at hpc hs
      subst hpc
      cases hs
      exact .fetched (watchStep_ran hw hf)
    · cases hs
      exact .fetch (watchStep_ran hw hf) on
  | closing pc held =>
    cases a <;> simp only [Consumer.step] at hs <;> try cases hs
    obtain ⟨⟨sh₁, pc₁⟩, hw, hs⟩ := Option.map_eq_some_iff.mp hs
    rcases cases_finish hs with ⟨ret, hpc, hs⟩ | ⟨on, hs⟩
    · dsimp only at hpc hs
      subst hpc
      cases hs
      exact .hasClosed held (watchStep_ran hw hf)
    · cases hs
      exact .close held (watchStep_ran hw hf) on

theorem closer_cases {k k' : Closer} (hs : k.step sh a = some (sh', k')) (hf : sh'.failure = none) :
    (∃ c, k = .idle ∧ sh' = sh ∧ k' = .closing c (.lockObservers (.close .kClosed))) ∨
      ∃ c pc pc', k = .closing c pc ∧ Ran sh c pc sh' pc' ∧
        ((∃ ret, pc' = .finish ret) ∧ k' = .idle ∨ Goes pc' ∧ k' = .closing c pc') := by
  cases k with
  | idle =>
    cases a with
    | closeForRead =>
      cases hs
      exact .inl ⟨.read, rfl, rfl, rfl⟩
    | closeForWrite =>
      cases hs
      exact .inl ⟨.write, rfl, rfl, rfl⟩
    | _ => cases hs
  | closing c pc =>
    cases a <;> simp only [Closer.step] at hs <;> try cases hs
    obtain ⟨⟨sh₁, pc₁⟩, hw, hs⟩ := Option.map_eq_some_iff.mp hs
    rcases cases_finish hs with ⟨ret, hpc, hs⟩ | ⟨on, hs⟩
    · dsimp only at hpc hs
      subst hpc
      cases hs
      exact .inr ⟨c, pc, _, rfl, watchStep_ran hw hf, .inl ⟨⟨ret, rfl⟩, rfl⟩⟩
    · cases hs
      exact .inr ⟨c, pc, pc₁, rfl, watchStep_ran hw hf, .inr ⟨on, rfl⟩⟩

/-! ## What they do to the watches -/

section

variable {sh sh' : Shared V}

theorem moves_same {code : StatusCode} {w w' : Watch.Shared I32} (h : w' = w)
    (l : Watch.Local I32) : Moves code w l w' l := by
  rw [h]
  exact .stay l

theorem Ran.write_same {pc pc' : Watch.Pc I32} (ran : Ran sh .read pc sh' pc') :
    sh'.writeCount = sh.writeCount :=
  ran.other .write nofun

theorem Ran.read_same {pc pc' : Watch.Pc I32} (ran : Ran sh .write pc sh' pc') :
    sh'.readCount = sh.readCount :=
  ran.other .read nofun

theorem enter_call {w : Watch.Shared I32} (op : Op I32) (hop : ∀ c, op ≠ .close c) :
    Moves .kClosed w .idle (begin w op).1 (.running 0 (begin w op).2) :=
  .enter op fun c h => absurd h (hop c)

theorem again_call {w w' : Watch.Shared I32} {pc : Watch.Pc I32} {ret : Watch.Ret I32}
    (ht : Trans w 0 pc w' (.finish ret)) (op : Op I32) (hop : ∀ c, op ≠ .close c) :
    Moves .kClosed w (.running 0 pc) (begin w' op).1 (.running 0 (begin w' op).2) :=
  .again ht op fun c h => absurd h (hop c)

theorem enter_close (w : Watch.Shared I32) :
    Moves .kClosed w .idle w (.running 0 (.lockObservers (.close .kClosed))) :=
  .enter (.close .kClosed) fun c h => by cases h; rfl

theorem producer_moves_read (hs : ProducerStep sh p sh' p') :
    Moves .kClosed sh.readCount (p.call .read) sh'.readCount (p'.call .read) := by
  cases hs with
  | fetch lastSeen ran on => exact moves_same ran.read_same _
  | @post lastSeen old pc sh₁ ran check =>
    have h := enter_call (w := sh₁.readCount) (.asyncWait lastSeen) nofun
    rw [ran.read_same] at h
    have hsame := ran.read_same
    simp only [Producer.call, Shared.beginWait, Shared.watch, Shared.setWatch, hsame]
    exact h
  | poll old ran => exact moves_same ran.read_same _
  | wait h ran on | await h ran on => exact .access ran.trans
  | waited h ran | closed target code ran => exact .leave ran.trans
  | load target =>
    unfold awaitEqual
    split
    · exact .stay .idle
    · exact enter_call (.awaitNotEqual sh.readCount.value) nofun
  | reload target observed ran =>
    unfold awaitEqual
    split
    · exact .leave ran.trans
    · exact again_call ran.trans (.awaitNotEqual observed) nofun
  | close ran on => exact moves_same ran.read_same _
  | hasClosed ran => exact moves_same ran.read_same _
  | _ => exact .stay _

theorem producer_moves_write (hs : ProducerStep sh p sh' p') :
    Moves .kClosed sh.writeCount (p.call .write) sh'.writeCount (p'.call .write) := by
  cases hs with
  | startClose => exact enter_close _
  | setSync v => exact enter_call (.fetch .add 1) nofun
  | lastSeen => exact enter_call (.fetch .add 1) nofun
  | fetch lastSeen ran on | close ran on => exact .access ran.trans
  | post lastSeen old ran check | poll old ran | hasClosed ran => exact .leave ran.trans
  | wait h ran on | await h ran on | waited h ran | closed target code ran =>
    exact moves_same ran.write_same _
  | load target =>
    unfold awaitEqual
    split <;> exact .stay .idle
  | reload target observed ran =>
    unfold awaitEqual
    split <;> exact moves_same ran.write_same .idle
  | _ => exact .stay _

theorem consumer_moves_read (hs : ConsumerStep sh q sh' q') :
    Moves .kClosed sh.readCount (q.call .read) sh'.readCount (q'.call .read) := by
  cases hs with
  | startClose held =>
    cases held <;> exact enter_close _
  | wait h ran on | await ran on | waited h ran => exact moves_same ran.read_same _
  | awaited ok ran => cases ok <;> exact moves_same ran.read_same _
  | handled h result held given => cases held <;> exact .stay _
  | clear => exact enter_call (.fetch .add 1) nofun
  | fetch ran on | close held ran on => exact .access ran.trans
  | fetched ran => exact .leave ran.trans
  | hasClosed held ran => cases held <;> exact .leave ran.trans
  | _ => exact .stay _

theorem consumer_moves_write (hs : ConsumerStep sh q sh' q') :
    Moves .kClosed sh.writeCount (q.call .write) sh'.writeCount (q'.call .write) := by
  cases hs with
  | startClose held => cases held <;> exact .stay _
  | ask observed => exact enter_call (.asyncWait observed) nofun
  | readLoad => exact enter_call (.awaitNotEqual sh.readCount.value) nofun
  | wait h ran on | await ran on => exact .access ran.trans
  | waited h ran => exact .leave ran.trans
  | awaited ok ran => cases ok <;> exact .leave ran.trans
  | handled h result held given => cases held <;> exact .stay _
  | fetch ran on | close held ran on | fetched ran => exact moves_same ran.write_same _
  | hasClosed held ran => cases held <;> exact moves_same ran.write_same _
  | _ => exact .stay _

theorem closer_moves {k k' : Closer} (hs : k.step sh a = some (sh', k')) (hf : sh'.failure = none)
    (c : Count) :
    Moves .kClosed (sh.watch c) (k.call c) (sh'.watch c) (k'.call c) := by
  obtain ⟨d, rfl, rfl, rfl⟩ | ⟨d, pc, pc', rfl, ran, hk⟩ := closer_cases hs hf
  · by_cases hd : d = c
    · simp only [Closer.call, if_pos hd]
      exact enter_close _
    · simp only [Closer.call, if_neg hd]
      exact .stay _
  · by_cases hd : d = c
    · subst hd
      rcases hk with ⟨⟨ret, rfl⟩, rfl⟩ | ⟨_, rfl⟩
      · simp only [Closer.call, if_true]
        exact .leave ran.trans
      · simp only [Closer.call, if_true]
        exact .access ran.trans
    · rcases hk with ⟨⟨ret, rfl⟩, rfl⟩ | ⟨_, rfl⟩ <;>
      · simp only [Closer.call, if_neg hd]
        exact moves_same (ran.other c (Ne.symm hd)) _

end

end Batt.Channel
