/-
  A write after `close_for_read` comes to its end.

  `Producer.rank` is how much of the write is left. Every step of the producer lowers it, but for
  one at a lock that is held, and no step of another thread raises it. Where the producer cannot
  go on it waits for its handler, and the handler is in the list of a thread that is about to
  invoke it: nobody is queued on a closed watch.
-/
import Mathlib.Data.Prod.Lex
import Batt.Channel.Writing

namespace Batt.Channel

open Watch Interleave

variable {V : Type} {h : Nat}

/-! ## How far the write is -/

def toldError (sh : Shared V) (h : Nat) : Bool :=
  match sh.readCount.invoked.lookup h with
  | some (.error _) => true
  | _ => false

/-- How far a wait is. One that was told a count waits again. -/
def waitRank (sh : Shared V) : Watch.Pc I32 → Nat
  | .pushHandler _ _ _ _ => 13
  | .unlockObservers _ (.waitClosed _ _) => 6
  | .unlockObservers _ _ => 12
  | .invokeNow _ (.ok _) _ => 11
  | .awaitResult h _ => if toldError sh h then 3 else 10
  | .waitLoad _ _ _ => 9
  | .lockObservers _ => 8
  | .inLock _ _ => 7
  | .getFinalStatus _ => 5
  | .invokeNow _ (.error _) _ => 4
  | _ => 0

def addRank : Watch.Pc I32 → Nat
  | .fetch _ _ => 26
  | .notifyLoad _ _ => 25
  | .lockObservers _ => 24
  | .inLock _ _ => 23
  | .unlockObservers _ _ => 22
  | _ => 21

/-- How much of the write is left. -/
def Producer.rank (sh : Shared V) : Producer V → ℕ ×ₗ ℕ
  | .activeWrite _ _ => toLex (31, 0)
  | .activeRead _ _ _ => toLex (30, 0)
  | .isClosed _ _ => toLex (29, 0)
  | .setValue _ _ => toLex (28, 0)
  | .loadLastSeen => toLex (27, 0)
  | .fetchAdd _ pc => toLex (addRank pc, (localObservers (.running 0 pc)).length)
  | .awaitLoad _ => toLex (15, 0)
  | .asyncWait _ pc | .awaitNotEqual _ pc => toLex (waitRank sh pc, 0)
  | .awaitHandler _ => toLex (2, 0)
  | .idle | .closing _ => toLex (0, 0)

/-! ## Every step brings the end nearer -/

section Rank

variable {w r : Nat} {sh sh' : Shared V} {pc pc' : Watch.Pc I32}
variable {p p' : Producer V} {q : Consumer} {ks : List Closer}

theorem rank_lt_of_phase {a b a' b' : Nat} (h : a' < a) : toLex (a', b') < toLex (a, b) :=
  Prod.Lex.toLex_lt_toLex.mpr (.inl h)

theorem lookup_none_of_timesInvoked {w : Watch.Shared I32} (hzero : timesInvoked h w = 0) :
    w.invoked.lookup h = none := by
  cases hl : w.invoked.lookup h with
  | none => rfl
  | some result =>
    have hpos : 0 < timesInvoked h w :=
      List.count_pos_iff.mpr (List.mem_map.mpr ⟨_, mem_of_lookup hl, rfl⟩)
    omega

theorem waitRank_awaitResult (sh : Shared V) (h : Nat) (k : After I32) :
    waitRank sh (.awaitResult h k) ≤ 10 := by
  simp only [waitRank]
  split <;> omega

/-- A wait on the closed count that finds it unchanged goes on to its end. -/
theorem wait_rank {ls : List (Watch.Local I32)} {k : After I32} (s : Sound sh.readCount ls)
    (hl : .running 0 pc ∈ ls) (hclosed : isOpen sh.readCount.spinState = false)
    (ran : Ran sh .read pc sh' pc') (hst : pc.stage = .wait h k)
    (hk : k = .ret ∨ k = .awaitNotEqual)
    (hload : ∀ n l k', pc = .waitLoad n l k' → sh.readCount.value = l) (on : Goes pc') :
    waitRank sh' pc' < waitRank sh pc ∨
      (∃ site, pc = .lockObservers site ∧ pc' = .lockObservers site) ∧
        locked sh.readCount.spinState = true := by
  have hafter : ∀ n, Goes (afterWait n k) → k = .awaitNotEqual := by
    intro n hon
    rcases hk with rfl | rfl
    · exact absurd rfl (hon .unit)
    · rfl
  have howner := s.inv.owner _ hl
  have ht : Trans sh.readCount 0 pc sh'.readCount pc' := ran.trans
  generalize hw' : sh'.readCount = w' at ht
  cases ht with
  | update applied same told =>
    obtain ⟨op, hop, _⟩ := stage_of_apply applied
    rw [hop] at hst
    cases hst
  | waitChanged handler lastSeen k' changed => exact absurd (hload _ _ _ rfl) changed
  | waitSame | lockWait | waitClosed | push | unlockClosed | statusWait | unlockChanged =>
    left
    simp [waitRank]
  | lockHeld site held => exact .inr ⟨⟨site, rfl, rfl⟩, held⟩
  | reloadChanged handler lastSeen k' priorState isOpen changed =>
    have := howner.1.1.trans hclosed
    rw [isOpen] at this
    cases this
  | reloadSame handler k' priorState isOpen =>
    have := howner.1.1.trans hclosed
    rw [isOpen] at this
    cases this
  | unlockPushed desiredState handler k' =>
    cases hst
    obtain rfl := hafter _ on
    left
    exact Nat.lt_of_le_of_lt (waitRank_awaitResult sh' h .awaitNotEqual) (by simp [waitRank])
  | invokeNow handler result k' =>
    cases hst
    obtain rfl := hafter _ on
    left
    cases result with
    | ok v =>
      exact Nat.lt_of_le_of_lt (waitRank_awaitResult sh' h .awaitNotEqual) (by simp [waitRank])
    | error code =>
      have hnone : sh.readCount.invoked.lookup h = none := lookup_none_of_timesInvoked
        (not_invoked_of_invokes (c := .read) s hl (.now .awaitNotEqual))
      have htold : toldError sh' h = true := by
        unfold toldError
        rw [hw', lookup_invoke hnone]
      simp [waitRank, afterWait, htold]
  | resume handler k' result given =>
    cases hst
    rcases hk with rfl | rfl <;> exact absurd rfl (on (.ofStatusOr result))
  | _ => cases hst

/-- Before the value is consumed the read count is what the wait has seen. -/
theorem Kept.unchanged (k : Kept w r sh p q ks) (hl : .running 0 pc ∈ calls .read p q ks)
    {k' : After I32} (hst : pc.stage = .wait h k')
    (hseen : ∃ u, w = u + 1 ∧ sh.readCount.handlers[h]? = some (i32 u))
    (hlooks : waitLooks sh pc = true → r ≠ w) :
    ∀ n l k', pc = .waitLoad n l k' → sh.readCount.value = l := by
  rintro n l k'' rfl
  cases hst
  obtain ⟨u, hw, hseen⟩ := hseen
  have hpassed : sh.readCount.handlers[h]? = some l := k.read.inv.passed _ hl
  rw [hseen] at hpassed
  have hne := hlooks rfl
  have horder := k.slots.order
  rw [k.slots.readCount, ← Option.some.inj hpassed, show r = u by omega]

theorem addRank_announces {old new : I32} (ha : Announces old new pc) :
    21 ≤ addRank pc ∧ addRank pc ≤ 25 := by
  cases ha <;> simp [addRank]

/-- `notify` goes on to its end. -/
theorem announces_rank {ws ws' : Watch.Shared I32} {old new : I32} (ha : Announces old new pc)
    (ht : Trans ws 0 pc ws' pc') (on : Goes pc') :
    toLex (addRank pc', (localObservers (.running 0 pc')).length) <
        toLex (addRank pc, (localObservers (.running 0 pc)).length) ∨
      (∃ site, pc = .lockObservers site ∧ pc' = .lockObservers site) ∧
        locked ws.spinState = true := by
  cases ha with
  | load =>
    cases ht with
    | notifyFast => exact absurd rfl (on _)
    | notifySlow => exact .inl (rank_lt_of_phase (by simp [addRank]))
    | update applied same told => cases applied
  | lock =>
    cases ht with
    | lockNotify free => exact .inl (rank_lt_of_phase (by simp [addRank]))
    | lockHeld _ hheld => exact .inr ⟨⟨_, rfl, rfl⟩, hheld⟩
    | update applied same told => cases applied
  | inLock s =>
    cases ht with
    | notifyTake => exact .inl (rank_lt_of_phase (by simp [addRank]))
    | update applied same told => cases applied
  | unlock s obs =>
    cases ht with
    | unlockNotified => exact .inl (rank_lt_of_phase (by simp [addRank]))
    | update applied same told => cases applied
  | invoke obs =>
    cases ht with
    | invokeNil => exact absurd rfl (on _)
    | invokeCons h rest =>
      left
      exact Prod.Lex.toLex_lt_toLex.mpr (.inr ⟨rfl, Nat.lt_succ_self _⟩)
    | update applied same told => cases applied

theorem waitRank_of_stage (sh : Shared V) {k : After I32} (hst : pc.stage = .wait h k) :
    2 < waitRank sh pc := by
  cases pc with
  | lockObservers site | inLock site => simp [waitRank]
  | unlockObservers desiredState u => cases u <;> simp [waitRank]
  | invokeNow handler result k => cases result <;> simp [waitRank]
  | awaitResult handler k =>
    simp only [waitRank]
    split <;> omega
  | waitLoad | pushHandler | getFinalStatus => simp [waitRank]
  | _ => cases hst

/-- **Progress of a write.** A step of the producer brings the end of the write nearer, unless it
    is at a lock that is held. -/
theorem producer_progress (k : Kept w r sh p q ks)
    (hclosed : isOpen sh.readCount.spinState = false) (hlooks : p.looks sh = true → r ≠ w)
    (hs : ProducerStep sh p sh' p') (hw : p.writing = true) (hw' : p'.writing = true) :
    p'.rank sh' < p.rank sh ∨ p' = p ∧ p.spins sh = true := by
  have hproducer := k.producer
  cases hs with
  | start => cases hw
  | startClose => cases hw
  | close => cases hw
  | hasClosed => cases hw
  | refuse => cases hw'
  | handled => cases hw'
  | closed => cases hw'
  | activeWrite | inactive | accept | setAsync | setSync | lastSeen =>
    exact .inl (rank_lt_of_phase (by simp [addRank]))
  | @fetch lastSeen pc pc' _ ran on =>
    rcases hproducer with ⟨rfl, _, _⟩ | ⟨u, _, hann, _⟩
    · obtain ⟨_, rfl, _⟩ := ran_fetch ran
      exact .inl (rank_lt_of_phase (by simp [addRank]))
    · rcases announces_rank hann ran.trans on with hlt | ⟨⟨site, rfl, rfl⟩, hlocked⟩
      · exact .inl hlt
      · exact .inr ⟨rfl, hlocked⟩
  | @post lastSeen old pc sh₁ ran check =>
    rcases hproducer with ⟨rfl, _, _⟩ | ⟨u, _, hann, _⟩
    · cases (ran_fetch ran).2.1
    · refine .inl (rank_lt_of_phase ?_)
      exact Nat.lt_of_lt_of_le (by simp [Shared.beginWait, begin, waitRank])
        (addRank_announces hann).1
  | @poll old pc sh₁ ran =>
    rcases hproducer with ⟨rfl, _, _⟩ | ⟨u, _, hann, _⟩
    · cases (ran_fetch ran).2.1
    · exact .inl (rank_lt_of_phase (Nat.lt_of_lt_of_le (by decide) (addRank_announces hann).1))
  | wait h ran on =>
    obtain ⟨hparked, hst, _, _⟩ := hproducer
    have hload := k.unchanged List.mem_cons_self hst hparked.lastSeen hlooks
    rcases wait_rank k.read.toSound List.mem_cons_self hclosed ran hst (.inl rfl) hload on with
      hlt | ⟨⟨site, rfl, rfl⟩, hlocked⟩
    · exact .inl (rank_lt_of_phase hlt)
    · exact .inr ⟨rfl, hlocked⟩
  | waited h ran =>
    obtain ⟨_, hst, _, _⟩ := hproducer
    exact .inl (rank_lt_of_phase (waitRank_of_stage sh hst))
  | load target =>
    unfold awaitEqual at hw' ⊢
    split at hw'
    · cases hw'
    · rename_i hne
      rw [if_neg hne]
      exact .inl (rank_lt_of_phase (by simp [Shared.beginWait, begin, waitRank]))
  | await target ran on =>
    obtain ⟨_, h, hst, hpolling, _⟩ := hproducer
    have hload := k.unchanged List.mem_cons_self hst hpolling.lastSeen hlooks
    rcases wait_rank k.read.toSound List.mem_cons_self hclosed ran hst (.inr rfl) hload on with
      hlt | ⟨⟨site, rfl, rfl⟩, hlocked⟩
    · exact .inl (rank_lt_of_phase hlt)
    · exact .inr ⟨rfl, hlocked⟩
  | reload target observed ran =>
    obtain ⟨_, h, hst, _⟩ := hproducer
    rcases trans_wait_finish ran.trans hst with ⟨hst', _⟩ | ⟨result, rfl, given, hfin⟩
    · cases hst'
    · cases result with
      | error code => cases hfin
      | ok v =>
        have hnot : toldError sh h = false := by
          unfold toldError
          rw [show sh.readCount.invoked.lookup h = _ from given]
        unfold awaitEqual at hw' ⊢
        split at hw'
        · cases hw'
        · rename_i hne
          rw [if_neg hne]
          exact .inl (rank_lt_of_phase (by simp [Shared.beginWait, begin, waitRank, hnot]))

theorem toldError_mono (hp : sh.readCount.invoked <+: sh'.readCount.invoked)
    (ht : toldError sh h = true) : toldError sh' h = true := by
  obtain ⟨t, ht'⟩ := hp
  unfold toldError at ht ⊢
  split at ht
  · rename_i code hl
    rw [← ht', List.lookup_append, hl]
    rfl
  · cases ht

/-- What the others do does not take the write back. -/
theorem rank_mono (p : Producer V) (hp : sh.readCount.invoked <+: sh'.readCount.invoked) :
    p.rank sh' ≤ p.rank sh := by
  have hwait : ∀ pc, waitRank sh' pc ≤ waitRank sh pc := by
    intro pc
    cases pc with
    | awaitResult h k =>
      simp only [waitRank]
      by_cases ht : toldError sh h = true
      · rw [if_pos ht, if_pos (toldError_mono hp ht)]
      · rw [if_neg ht]
        split <;> omega
    | unlockObservers desiredState u => cases u <;> exact Nat.le_refl _
    | invokeNow handler result k => cases result <;> exact Nat.le_refl _
    | _ => exact Nat.le_refl _
  have hlex : ∀ pc, toLex (waitRank sh' pc, 0) ≤ toLex (waitRank sh pc, 0) := by
    intro pc
    rcases Nat.lt_or_eq_of_le (hwait pc) with hlt | heq
    · exact (rank_lt_of_phase hlt).le
    · rw [heq]
  cases p with
  | asyncWait h pc => exact hlex pc
  | awaitNotEqual target pc => exact hlex pc
  | _ => exact le_refl _

end Rank

/-! ## Nobody keeps the write waiting -/

section Waiting

variable {w r : Nat} {sh : Shared V} {c : Count} {pc : Watch.Pc I32}
variable {p : Producer V} {q : Consumer} {ks : List Closer}

/-- A call that can go on in the watch can go on in the channel. -/
theorem watchStep_isSome (sh : Shared V) (c : Count) (hne : exec true (sh.watch c) 0 pc ≠ none) :
    ∃ sh' pc', sh.watchStep c pc = some (sh', pc') ∧
      ((∃ arg, pc = .fetch .add arg ∧ pc' = pc) ∨ ∃ ws, Trans (sh.watch c) 0 pc ws pc') := by
  obtain ⟨⟨ws, pc'⟩, he⟩ := Option.ne_none_iff_exists'.mp hne
  unfold Shared.watchStep
  split
  · split
    · exact ⟨_, _, rfl, .inl ⟨_, rfl, rfl⟩⟩
    · rw [he]
      exact ⟨_, _, rfl, .inr ⟨ws, exec_trans he⟩⟩
  · rw [he]
    exact ⟨_, _, rfl, .inr ⟨ws, exec_trans he⟩⟩

theorem afterFetchAdd_isSome (sh : Shared V) (lastSeen : Option I32) (old : I32) :
    afterFetchAdd sh lastSeen (.value old) ≠ none := by
  cases lastSeen with
  | none => exact Option.some_ne_none _
  | some l =>
    simp only [afterFetchAdd]
    split <;> exact Option.some_ne_none _

theorem exec_announces {ws : Watch.Shared I32} {old new : I32} (ha : Announces old new pc) :
    exec true ws 0 pc ≠ none := by
  intro hnone
  rcases exec_eq_none hnone with ⟨ret, rfl⟩ | ⟨h, k, rfl, _⟩ <;> cases ha

theorem exec_closes {ws : Watch.Shared I32} (hc : Closes pc) : exec true ws 0 pc ≠ none := by
  intro hnone
  rcases exec_eq_none hnone with ⟨ret, rfl⟩ | ⟨h, k, rfl, _⟩ <;> cases hc

/-- A write goes on, or waits for its handler. -/
theorem producer_enabled (k : Kept w r sh p q ks) (hw : p.writing = true) :
    p.step sh .run ≠ none ∨ ∃ h, p.waitsFor = some h ∧ sh.readCount.invoked.lookup h = none ∧
      h < sh.readCount.handlers.length := by
  have hproducer := k.producer
  cases p with
  | idle => cases hw
  | closing pc => cases hw
  | activeWrite mode v => exact .inl (Option.some_ne_none _)
  | activeRead mode v writeCount =>
    left
    simp only [Producer.step]
    split <;> exact Option.some_ne_none _
  | isClosed mode v =>
    left
    simp only [Producer.step]
    split <;> exact Option.some_ne_none _
  | setValue mode v => cases mode <;> exact .inl (Option.some_ne_none _)
  | loadLastSeen => exact .inl (Option.some_ne_none _)
  | awaitLoad target => exact .inl (Option.some_ne_none _)
  | fetchAdd lastSeen pc =>
    left
    have hexec : exec true (sh.watch .write) 0 pc ≠ none := by
      rcases hproducer with ⟨rfl, _⟩ | ⟨u, _, hann, _⟩
      · exact Option.some_ne_none _
      · exact exec_announces hann
    obtain ⟨sh', pc', hstep, htrans⟩ := watchStep_isSome sh _ hexec
    simp only [Producer.step, hstep, Option.bind_some]
    cases pc' with
    | finish ret =>
      have hvalue : ∃ old, ret = .value old := by
        rcases hproducer with ⟨rfl, _⟩ | ⟨u, _, hann, _⟩
        · rcases htrans with ⟨arg, _, heq⟩ | ⟨ws, ht⟩
          · cases heq
          · cases trans_stage ht
            exact ⟨_, rfl⟩
        · rcases htrans with ⟨arg, rfl, _⟩ | ⟨ws, ht⟩
          · cases hann
          · cases (announces_trans hann ht).resolve_left (fun h => by cases h)
            exact ⟨_, rfl⟩
      obtain ⟨old, rfl⟩ := hvalue
      exact afterFetchAdd_isSome _ lastSeen old
    | _ => exact Option.some_ne_none _
  | asyncWait h pc =>
    left
    obtain ⟨_, hst, hne, _⟩ := hproducer
    have hexec : exec true (sh.watch .read) 0 pc ≠ none := by
      intro hnone
      rcases exec_eq_none hnone with ⟨ret, rfl⟩ | ⟨h', k', heq, _⟩
      · cases hst
      · exact hne h' k' heq
    obtain ⟨sh', pc', hstep, _⟩ := watchStep_isSome sh _ hexec
    simp only [Producer.step, hstep]
    exact Option.some_ne_none _
  | awaitHandler h =>
    cases hl : sh.readCount.invoked.lookup h with
    | none =>
      have hparked : Parked w sh h := hproducer
      obtain ⟨u, _, hseen⟩ := hparked.lastSeen
      exact .inr ⟨h, rfl, hl, (List.getElem?_eq_some_iff.mp hseen).1⟩
    | some result =>
      left
      simp only [Producer.step, hl]
      exact Option.some_ne_none _
  | awaitNotEqual target pc =>
    obtain ⟨_, h, hst, hpolling, _⟩ := hproducer
    by_cases hexec : exec true (sh.watch .read) 0 pc = none
    · right
      rcases exec_eq_none hexec with ⟨ret, rfl⟩ | ⟨h', k', rfl, hnone⟩
      · cases hst
      · cases hst
        obtain ⟨u, _, hseen⟩ := hpolling.lastSeen
        exact ⟨h, rfl, hnone, (List.getElem?_eq_some_iff.mp hseen).1⟩
    · left
      obtain ⟨sh', pc', hstep, htrans⟩ := watchStep_isSome sh _ hexec
      simp only [Producer.step, hstep, Option.bind_some]
      cases pc' with
      | finish ret =>
        rcases htrans with ⟨arg, rfl, _⟩ | ⟨ws, ht⟩
        · cases hst
        · rcases trans_wait_finish ht hst with ⟨hst', _⟩ | ⟨result, _, _, hfin⟩
          · cases hst'
          · cases result <;> cases hfin <;> exact Option.some_ne_none _
      | _ => exact Option.some_ne_none _

/-- A handler that has not been invoked is in the list of a thread that goes on to invoke it. -/
theorem waited_elsewhere (k : Kept w r sh p q ks) (hf : sh.failure = none)
    (hclosed : isOpen sh.readCount.spinState = false) (hwaits : p.waitsFor = some h)
    (hnone : sh.readCount.invoked.lookup h = none) (hpassed : h < sh.readCount.handlers.length) :
    ∃ (j : Nat) (l : Thread V), (threads p q ks)[j]? = some l ∧ h ∈ localObservers (l.call .read) ∧
      Closers.step .run sh l ≠ none := by
  have hsome : sh.failure.isSome = false := by
    rw [hf]
    rfl
  obtain ⟨l, hl, hheld⟩ := k.read.toSound.held_of_closed hclosed hpassed hnone
  rcases List.mem_cons.mp hl with rfl | hl
  · -- not the producer itself, which has passed it on
    cases p with
    | awaitHandler h' => exact absurd hheld (Nat.lt_irrefl 0)
    | awaitNotEqual target pc =>
      cases pc with
      | awaitResult h' k' => exact absurd hheld (Nat.lt_irrefl 0)
      | _ => cases hwaits
    | _ => cases hwaits
  rcases List.mem_cons.mp hl with rfl | hl
  · have hconsumer := k.consumer
    refine ⟨1, .party (.consumer q), rfl, ?_⟩
    cases q with
    | fetchAdd pc =>
      rcases hconsumer with ⟨rfl, _⟩ | ⟨u, _, hann⟩
      · exact absurd hheld (Nat.lt_irrefl 0)
      · refine ⟨hann.observed hheld, ?_⟩
        obtain ⟨sh', pc', hstep, _⟩ := watchStep_isSome sh .read (exec_announces hann)
        simp [Closers.step, Channel.step, Consumer.step, hsome, hstep]
    | closing pc held =>
      have hc : Closes pc := hconsumer
      refine ⟨hc.observed hheld, ?_⟩
      obtain ⟨sh', pc', hstep, _⟩ := watchStep_isSome sh .read (exec_closes hc)
      simp [Closers.step, Channel.step, Consumer.step, hsome, hstep]
    | _ => exact absurd hheld (Nat.lt_irrefl 0)
  · obtain ⟨l', hl', rfl⟩ := List.mem_map.mp hl
    obtain ⟨j, hj⟩ := List.mem_iff_getElem?.mp hl'
    refine ⟨j + 2, .closer l', by simp [threads, hj], ?_⟩
    cases l' with
    | idle => exact absurd hheld (Nat.lt_irrefl 0)
    | closing d pc =>
      have hc := k.closers _ hl' d pc rfl
      obtain ⟨sh', pc', hstep, _⟩ := watchStep_isSome sh d (exec_closes hc)
      refine ⟨?_, by simp [Closers.step, Closer.step, hsome, hstep]⟩
      by_cases hd : d = .read
      · simp only [Closer.call, if_pos hd, Thread.call] at hheld ⊢
        exact hc.observed hheld
      · simp only [Closer.call, if_neg hd] at hheld
        exact absurd hheld (Nat.lt_irrefl 0)

end Waiting

end Batt.Channel
