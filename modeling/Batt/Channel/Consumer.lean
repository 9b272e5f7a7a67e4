/-
  The consumer's steps keep the invariant.

  The mirror of the producer's: the store of `fetch_add` in `consume` is where the channel
  becomes empty, and the wait is on the write count.
-/
import Batt.Channel.Handlers

namespace Batt.Channel

open Watch

variable {V : Type}

section Consumer

variable {w r : Nat} {aw ar : Option (AddAt I32)} {ow or : Option (WaitAt I32)}
variable {strict : Bool} {sh sh' : Shared V} {p : Producer V} {q q' : Consumer} {pc : Watch.Pc I32}

/-- The consumer goes on, and nothing shared has changed. -/
theorem inv_consumer_move (rel : Rel w r aw ow ar or strict sh p q)
    (hq : ConsumerOk w r sh q' ar ow) : Inv sh p q' :=
  ⟨w, r, aw, ow, ar, or, strict, { rel with consumer := hq }⟩

/-- `write_count_.async_wait` or `await_not_equal` is called by the consumer. -/
theorem inv_consumer_beginWait (rel : Rel w r aw none ar or strict sh p q) (body : Body)
    (op : Watch.Op I32) (pc : Watch.Pc I32) (q' : Consumer)
    (hop : Watch.begin sh.writeCount op = (sh.writeCount.addHandler (i32 r), pc))
    (hq : ConsumerOk w r { sh with writeCount := sh.writeCount.addHandler (i32 r),
                                   writeBodies := sh.writeBodies ++ [body] } q' ar
      (some (.arming sh.writeCount.handlers.length (i32 r)))) :
    Inv (sh.beginWait .write op body).1 p q' ∧ (sh.beginWait .write op body).2 = pc := by
  have hbegin : sh.beginWait .write op body =
      ({ sh with writeCount := sh.writeCount.addHandler (i32 r),
                 writeBodies := sh.writeBodies ++ [body] }, pc) := by
    unfold Shared.beginWait Shared.watch
    simp only [hop]
    rfl
  rw [hbegin]
  exact ⟨⟨w, r, aw, _, ar, or, strict, { rel with
    writeBodies := by simp [rel.writeBodies, Watch.Shared.addHandler]
    writeFlight := rel.writeFlight.start (i32 r) true
    producer := rel.producer.congr rfl rfl (fun _ => rfl) rfl rfl rfl
    consumer := hq }⟩, rfl⟩

/-- A step of the consumer in `read_count_.fetch_add(1)`. -/
theorem inv_consumer_fetchAdd (rel : Rel w r aw ow ar or strict sh p (.fetchAdd pc))
    (h : Consumer.step sh .run (.fetchAdd pc) = some (sh', q')) : Inv sh' p q' := by
  obtain ⟨⟨sh₁, pc₁⟩, hstep, hnext⟩ := Option.map_eq_some_iff.mp h
  obtain ⟨rfl, x, rfl, hadds, hphase⟩ := rel.consumer
  have hne : sh.readCount.value ≠ sh.readCount.value + 1 := i32_ne_add_one _
  have hopen := rel.readFlight.isOpen
  have hbound := rel.bound
  rcases hphase with ⟨rfl, htally, rfl⟩ | ⟨hx, htally⟩
  · -- the store empties the channel
    cases hadds
    have hmax : sh.readCount.value ≠ i32Max := by
      rw [rel.readCount]
      intro heq
      have := i32_inj (b := 2 ^ 31 - 1) (by omega) (by omega) heq
      omega
    obtain ⟨c, hexec, rfl⟩ := watchStep_fetch (c := .read) hmax hstep
    rw [show sh.watch .read = sh.readCount from rfl, exec_add hne] at hexec
    cases hexec
    cases hnext
    have hadds : Adds 1 (.notifyLoad (sh.readCount.value + 1) (.value sh.readCount.value))
        (.told (sh.readCount.value + 1)) := .load _
    exact ⟨r + 1, r + 1, aw, none, some (.told (sh.readCount.value + 1)), or, strict, { rel with
      readCount := by
        show sh.readCount.value + 1 = _
        rw [rel.readCount, i32_add_one]
      order := by omega
      value := fun hfull => by omega
      readFlight := rel.readFlight.store hne fun y hy => by
        obtain ⟨l, hl, hls⟩ := (hy ▸ rel.producer).lastSeen
        obtain rfl : l = r := by omega
        rw [hls, rel.readCount]
      producer := rel.producer.drain.congr rfl rfl (fun _ => rfl) rfl rfl rfl
      consumer := ⟨rfl, _, rfl, hadds, .inr ⟨by simp, htally.congr rfl rfl⟩⟩ }⟩
  · obtain ⟨c, hexec, rfl⟩ := watchStep_exec (adds_not_fetch hadds hx) hstep
    have hself : sh.runInvoked .read sh.readCount = sh := runInvoked_self sh .read
    cases adder_cases hadds hopen hne hexec with
    | store => exact absurd rfl hx
    | same same adds =>
      rcases cases_finish hnext with ⟨ret, hret, _⟩ | ⟨_, hon⟩
      · exact absurd hret (adds_not_finish adds ret)
      · cases hon
        rw [runInvoked_same same.invoked]
        exact ⟨w, r, aw, none, some x, or, strict, { rel with
          readBodies := rel.readBodies.trans (congrArg List.length same.handlers.symm)
          readCount := same.value.trans rel.readCount
          readFlight := rel.readFlight.congr same (fun _ => id) (fun _ _ => id) rfl
          producer := rel.producer.congr rfl rfl (fun _ => rfl) same.handlers same.invoked rfl
          consumer := ⟨rfl, x, rfl, adds, .inr ⟨hx, htally.congr rfl rfl⟩⟩ }⟩
    | quick old =>
      rw [hself] at hnext
      cases hnext
      exact ⟨w, r, aw, none, none, or, strict, { rel with
        value := fun hfull _ => rel.value hfull (by simp)
        readFlight := rel.readFlight.rest rfl (fun _ => rfl) rfl
        consumer := ⟨rfl, rfl, htally⟩ }⟩
    | take adds =>
      rcases cases_finish hnext with ⟨ret, hret, _⟩ | ⟨_, hon⟩
      · exact absurd hret (adds_not_finish adds ret)
      · cases hon
        have hrun : sh.runInvoked .read { sh.readCount with observers := [] } =
            { sh with readCount := { sh.readCount with observers := [] } } :=
          runInvoked_same rfl
        rw [hrun]
        exact ⟨w, r, aw, none, some (.took sh.readCount.observers _), or, strict, { rel with
          value := fun hfull _ => rel.value hfull (by simp)
          readFlight := rel.readFlight.take
          producer := rel.producer.congr rfl rfl (fun _ => rfl) rfl rfl rfl
          consumer := ⟨rfl, _, rfl, adds, .inr ⟨by simp, htally.congr rfl rfl⟩⟩ }⟩
    | done old =>
      rw [hself] at hnext
      cases hnext
      exact ⟨w, r, aw, none, none, or, strict, { rel with
        value := fun hfull _ => rel.value hfull (by simp)
        readFlight := rel.readFlight.rest rfl (fun _ => rfl) (by simp [pending])
        consumer := ⟨rfl, rfl, htally⟩ }⟩
    | invoke n rest adds =>
      obtain ⟨rfl, hnone, rfl, hdiff, hflight⟩ := rel.readFlight.invokeTaken
      obtain ⟨value, completed, hrun, hvalue, hproducer⟩ :=
        producer_invoked rel hnone hdiff (rel.readFlight.current _ rfl)
      rcases cases_finish hnext with ⟨ret, hret, _⟩ | ⟨_, hon⟩
      · exact absurd hret (adds_not_finish adds ret)
      · cases hon
        rw [hrun]
        exact ⟨w, r, aw, none, some (.took [] _), some (.armed n), strict, { rel with
          value := fun hfull _ => (hvalue hfull).trans (rel.value hfull (by simp))
          readFlight := hflight
          producer := hproducer
          consumer := ⟨rfl, _, rfl, adds, .inr ⟨by simp, htally.congr rfl rfl⟩⟩ }⟩

/-- A step of the consumer's wait that invokes nothing and does not end it. -/
theorem rel_write_wait {x : WaitAt I32} {k : After I32} {pc₁ : Watch.Pc I32} {c : Watch.Shared I32}
    (rel : Rel w r aw (some x) ar or strict sh p q) (hstep : WaitStep k sh.writeCount pc x c pc₁)
    (hfresh : ∀ h ls s, pc = .pushHandler h ls s k → aw ≠ some (.told ls)) :
    (∃ x', x'.handler = x.handler ∧ Awaits k pc₁ x' ∧
        c.handlers = sh.writeCount.handlers ∧ c.invoked = sh.writeCount.invoked ∧
        ∀ q', ConsumerOk w r { sh with writeCount := c } q' ar (some x') →
          Rel w r aw (some x') ar or strict { sh with writeCount := c } p q') ∨
      (∃ h v, x = .direct h v ∧ c = sh.writeCount.invoke h (.ok v) ∧ pc₁ = afterWait h k) ∨
      (∃ h, x = .armed h ∧ Same sh.writeCount c ∧ pc₁ = afterWait h k) ∨
      (∃ h result, x = .armed h ∧ c = sh.writeCount ∧
        sh.writeCount.invoked.lookup h = some result ∧ pc₁ = Watch.resume k result) := by
  have hproducer : ∀ c', ProducerOk w r { sh with writeCount := c' } p aw or strict := fun c' =>
    rel.producer.congr rfl rfl (fun _ => rfl) rfl rfl rfl
  cases hstep with
  | same same waits =>
    refine .inl ⟨x, rfl, waits, same.handlers, same.invoked, fun q' hq => { rel with
      writeBodies := rel.writeBodies.trans (congrArg List.length same.handlers.symm)
      writeCount := same.value.trans rel.writeCount
      writeFlight := rel.writeFlight.congr same (fun _ => id) (fun _ _ => id) rfl
      producer := hproducer _
      consumer := hq }⟩
  | changed n ls hchanged waits =>
    refine .inl ⟨.direct n _, rfl, waits, rfl, rfl, fun q' hq => { rel with
      writeFlight := rel.writeFlight.changed hchanged
      producer := hproducer _
      consumer := hq }⟩
  | push n ls s waits =>
    refine .inl ⟨.armed n, rfl, waits, rfl, rfl, fun q' hq => { rel with
      writeFlight := rel.writeFlight.push fun _ => hfresh n ls s rfl
      producer := hproducer _
      consumer := hq }⟩
  | invoke n v => exact .inr (.inl ⟨n, v, rfl, rfl, rfl⟩)
  | leave n same => exact .inr (.inr (.inl ⟨n, rfl, same, rfl⟩))
  | resume n result given => exact .inr (.inr (.inr ⟨n, result, rfl, rfl, given, rfl⟩))

/-- The wait has been left with the handler in the list or taken. -/
theorem rel_write_leave {h : Nat} {c : Watch.Shared I32}
    (rel : Rel w r aw (some (.armed h)) ar or strict sh p q) (same : Same sh.writeCount c)
    (hq : ConsumerOk w r { sh with writeCount := c } q' ar (some (.armed h))) :
    Inv { sh with writeCount := c } p q' :=
  ⟨w, r, aw, some (.armed h), ar, or, strict, { rel with
    writeBodies := rel.writeBodies.trans (congrArg List.length same.handlers.symm)
    writeCount := same.value.trans rel.writeCount
    writeFlight := rel.writeFlight.congr same (fun _ => id) (fun _ _ => id) rfl
    producer := rel.producer.congr rfl rfl (fun _ => rfl) rfl rfl rfl
    consumer := hq }⟩

/-- A step of the consumer in `write_count_.async_wait`. -/
theorem inv_consumer_asyncWait {h : Nat} (rel : Rel w r aw ow ar or strict sh p (.asyncWait h pc))
    (hfresh : freshConsumer p .run (.asyncWait h pc) = true)
    (hs : Consumer.step sh .run (.asyncWait h pc) = some (sh', q')) : Inv sh' p q' := by
  obtain ⟨⟨sh₁, pc₁⟩, hstep, hnext⟩ := Option.map_eq_some_iff.mp hs
  obtain ⟨rfl, ⟨x, rfl, hwaits, hx⟩, hasked⟩ := rel.consumer
  obtain ⟨c, hexec, rfl⟩ := watchStep_exec (waits_not_fetch hwaits) hstep
  have hpush : ∀ n ls s, pc = .pushHandler n ls s .ret → aw ≠ some (.told ls) := by
    rintro n ls s rfl rfl
    simp [freshConsumer, rel.producer.telling] at hfresh
  rcases rel_write_wait rel (waiter_cases hwaits rel.writeFlight.isOpen hexec) hpush with
    ⟨x', hx', waits, hhandlers, hinvoked, hrel⟩ | ⟨n, v, rfl, rfl, rfl⟩ |
    ⟨n, rfl, same, rfl⟩ | ⟨n, result, rfl, rfl, _, rfl⟩
  · rcases cases_finish hnext with ⟨ret, hret, _⟩ | ⟨_, hon⟩
    · exact absurd hret (waits_not_finish waits ret)
    · cases hon
      rw [runInvoked_same hinvoked]
      exact ⟨_, _, _, _, _, _, _, hrel _ ⟨rfl, ⟨x', rfl, waits, hx'.trans hx⟩,
        hasked.congr rfl rfl hhandlers hinvoked rfl⟩⟩
  · -- the handler is invoked by the consumer itself
    obtain rfl : n = h := hx
    obtain ⟨hnone, hdiff, hflight⟩ := rel.writeFlight.invokeDirect
    obtain ⟨y, hrun, hpre, hasked'⟩ :=
      asked_invoke rel nofun hasked hnone hdiff rel.writeFlight.placed.2.1
    cases hnext
    rw [hrun]
    exact ⟨w, r, aw, _, none, or, strict, { rel with
      reads := hpre
      writeFlight := hflight
      producer := rel.producer.congr rfl rfl (fun _ => rfl) rfl rfl rfl
      consumer := ⟨rfl, rfl, hasked'⟩ }⟩
  · obtain rfl : n = h := hx
    cases hnext
    rw [runInvoked_same same.invoked]
    exact rel_write_leave rel same
      ⟨rfl, rfl, hasked.congr rfl rfl same.handlers same.invoked rfl⟩
  · obtain rfl : n = h := hx
    cases hnext
    rw [show sh.runInvoked .write sh.writeCount = sh from runInvoked_self sh .write]
    exact inv_consumer_move rel ⟨rfl, rfl, hasked⟩

/-- A step of the consumer in the `await_not_equal` of `read`. -/
theorem inv_consumer_awaitNotEqual (rel : Rel w r aw ow ar or strict sh p (.awaitNotEqual pc))
    (hfresh : freshConsumer p .run (.awaitNotEqual pc) = true)
    (hs : Consumer.step sh .run (.awaitNotEqual pc) = some (sh', q')) : Inv sh' p q' := by
  obtain ⟨⟨sh₁, pc₁⟩, hstep, hnext⟩ := Option.bind_eq_some_iff.mp hs
  obtain ⟨rfl, x, rfl, hwaits, hwatched⟩ := rel.consumer
  obtain ⟨c, hexec, rfl⟩ := watchStep_exec (waits_not_fetch hwaits) hstep
  have hpush : ∀ n ls s, pc = .pushHandler n ls s .awaitNotEqual → aw ≠ some (.told ls) := by
    rintro n ls s rfl rfl
    simp [freshConsumer, rel.producer.telling] at hfresh
  rcases rel_write_wait rel (waiter_cases hwaits rel.writeFlight.isOpen hexec) hpush with
    ⟨x', hx', waits, hhandlers, hinvoked, hrel⟩ | ⟨n, v, rfl, rfl, rfl⟩ |
    ⟨n, rfl, same, rfl⟩ | ⟨n, result, rfl, rfl, hgot, rfl⟩
  · have hon : some (sh.runInvoked .write c, Consumer.awaitNotEqual pc₁) = some (sh', q') := by
      cases pc₁ with
      | finish ret => exact absurd rfl (waits_not_finish waits ret)
      | _ => exact hnext
    cases hon
    rw [runInvoked_same hinvoked]
    refine ⟨_, _, _, _, _, _, _, hrel _ ⟨rfl, x', rfl, waits, ?_⟩⟩
    rw [hx']
    exact hwatched.congr rfl rfl hhandlers rfl
  · obtain ⟨hnone, hdiff, hflight⟩ := rel.writeFlight.invokeDirect
    cases hnext
    rw [show sh.runInvoked .write (sh.writeCount.invoke n (.ok v)) =
      { sh with writeCount := sh.writeCount.invoke n (.ok v) } from
        resume_invoke (c := .write) (.ok v) hwatched.body]
    exact ⟨w, r, aw, _, none, or, strict, { rel with
      writeFlight := hflight
      producer := rel.producer.congr rfl rfl (fun _ => rfl) rfl rfl rfl
      consumer := ⟨rfl, _, rfl, .result n, hwatched.congr rfl rfl rfl rfl⟩ }⟩
  · cases hnext
    rw [runInvoked_same same.invoked]
    exact rel_write_leave rel same
      ⟨rfl, _, rfl, .result n, hwatched.congr rfl rfl same.handlers rfl⟩
  · -- the count has moved, so the channel is full
    obtain ⟨hflight, v, rfl, hdiff, hv⟩ := rel.writeFlight.leave hgot true
    have hval : v = sh.writeCount.value := hv.resolve_left (hdiff rfl)
    obtain ⟨hfull, _⟩ := reader_full rel hwatched.lastSeen (hdiff rfl) hval
    rw [show sh.runInvoked .write sh.writeCount = sh from runInvoked_self sh .write] at hnext
    cases hnext
    exact ⟨w, r, aw, none, none, or, strict, { rel with
      writeFlight := hflight
      consumer := ⟨rfl, rfl, hwatched.tally, hfull⟩ }⟩

theorem inv_consumer_step {a : Act V} (rel : Rel w r aw ow ar or strict sh p q)
    (hfresh : freshConsumer p a q = true) (hs : Consumer.step sh a q = some (sh', q')) :
    Inv sh' p q' := by
  cases q with
  | idle =>
    cases a with
    | asyncRead | read =>
      cases hs
      exact inv_consumer_move rel rel.consumer
    | closeForRead => cases hfresh
    | _ => cases hs
  | isClosed =>
    cases a <;> try cases hs
    have hopen : ¬ sh.readCount.spinState &&& kOpen = 0 := by
      rw [and_kOpen_eq_zero, rel.readFlight.isOpen]
      simp
    simp only [Consumer.step, if_neg hopen] at hs
    cases hs
    exact inv_consumer_move rel rel.consumer
  | loadWrite =>
    obtain ⟨har, how, htally⟩ := rel.consumer
    cases a <;> cases hs
    refine inv_consumer_move rel ⟨har, how, htally, ?_⟩
    rw [rel.writeCount]
    obtain ⟨hle, hge⟩ := rel.order
    by_cases hfull : w = r + 1
    · exact .inr ⟨rfl, hfull⟩
    · exact .inl (congrArg i32 (by omega))
  | loadRead observed =>
    obtain ⟨rfl, rfl, htally, hobs⟩ := rel.consumer
    cases a <;> try cases hs
    have hbound := rel.bound
    obtain ⟨hle, hge⟩ := rel.order
    rcases hobs with rfl | ⟨rfl, hfull⟩
    · have hng : ¬ (i32 r).toInt > sh.readCount.value.toInt := by
        rw [rel.readCount]
        omega
      simp only [Consumer.step, if_neg hng] at hs
      have hstart := rel.writeFlight.start (i32 r) true
      have hinv := inv_consumer_beginWait rel (.asyncRead sh.readCount.value)
        (.asyncWait (i32 r)) (.waitLoad sh.writeCount.handlers.length (i32 r) .ret)
        (.asyncWait sh.writeCount.handlers.length
          (.waitLoad sh.writeCount.handlers.length (i32 r) .ret)) rfl
        ⟨rfl, ⟨_, rfl, .load _ _, rfl⟩, by simp [Watch.Shared.addHandler], by
          rw [rel.readCount]
          simp [← rel.writeBodies],
          fun _ => htally.congr rfl rfl, fun hn => absurd hstart.placed.2.2 hn⟩
      rw [← hinv.2] at hinv
      cases hs
      exact hinv.1
    · have hgt : (i32 w).toInt > sh.readCount.value.toInt := by
        rw [rel.readCount, i32_toInt hbound, i32_toInt (by omega)]
        omega
      simp only [Consumer.step, if_pos hgt] at hs
      cases hs
      exact inv_consumer_move rel ⟨rfl, rfl, htally, hfull⟩
  | asyncWait h pc =>
    cases a <;> try cases hs
    exact inv_consumer_asyncWait rel hfresh hs
  | awaitHandler h =>
    obtain ⟨rfl, rfl, hasked⟩ := rel.consumer
    cases a <;> try cases hs
    obtain ⟨result, hgot, hr⟩ := Option.map_eq_some_iff.mp hs
    obtain ⟨hflight, v, rfl, _⟩ := rel.writeFlight.leave hgot true
    cases hr
    have hdone := hasked.done (by simp [hgot])
    exact ⟨w, r, aw, none, none, or, strict, { rel with
      writeFlight := hflight
      consumer := ⟨rfl, rfl, hdone⟩ }⟩
  | readLoad =>
    obtain ⟨rfl, rfl, htally⟩ := rel.consumer
    cases a <;> cases hs
    have hinv := inv_consumer_beginWait rel .resume (.awaitNotEqual (i32 r))
      (.waitLoad sh.writeCount.handlers.length (i32 r) .awaitNotEqual)
      (.awaitNotEqual (.waitLoad sh.writeCount.handlers.length (i32 r) .awaitNotEqual)) rfl
      ⟨rfl, _, rfl, .load _ _, by simp [Watch.Shared.addHandler, WaitAt.handler], by
        simp [← rel.writeBodies, WaitAt.handler], htally.congr rfl rfl⟩
    rw [← hinv.2] at hinv
    rw [rel.readCount]
    exact hinv.1
  | awaitNotEqual pc =>
    cases a <;> try cases hs
    exact inv_consumer_awaitNotEqual rel hfresh hs
  | deref =>
    obtain ⟨rfl, rfl, htally, hfull⟩ := rel.consumer
    cases a <;> cases hs
    obtain ⟨x, hx, hpre⟩ := value_of_full rel (by simp) hfull htally.reads
    rw [deliver_eq hx]
    exact ⟨w, r, aw, none, none, or, strict, { rel with
      reads := hpre
      producer := rel.producer.congr rfl rfl (fun _ => rfl) rfl rfl rfl
      consumer := ⟨rfl, rfl, ⟨by simp [htally.reads], htally.consumed⟩, hfull⟩ }⟩
  | holding =>
    cases a with
    | consume =>
      cases hs
      exact inv_consumer_move rel rel.consumer
    | closeForRead => cases hfresh
    | _ => cases hs
  | activeWrite =>
    cases a <;> cases hs
    obtain ⟨har, how, htally, hfull⟩ := rel.consumer
    exact inv_consumer_move rel ⟨har, how, htally, hfull, rel.writeCount⟩
  | activeRead writeCount =>
    obtain ⟨har, how, htally, hfull, rfl⟩ := rel.consumer
    cases a <;> try cases hs
    simp only [Consumer.step, rel.readCount, hfull, i32_succ_sub_self] at hs
    cases hs
    exact inv_consumer_move rel ⟨har, how, htally, hfull⟩
  | clearValue =>
    obtain ⟨rfl, rfl, htally, hfull⟩ := rel.consumer
    cases a <;> cases hs
    have hflight : Flight sh.readCount (some .before) or strict :=
      rel.readFlight.rest rfl (fun _ => rfl) rfl
    exact ⟨w, r, aw, none, some .before, or, strict, { rel with
      value := fun _ hne => absurd rfl hne
      readFlight := hflight
      producer := rel.producer.congr rfl rfl (fun hempty => by omega) rfl rfl rfl
      consumer := ⟨rfl, _, rfl, .fetch, .inl ⟨rfl, ⟨htally.reads, by
        simp [htally.consumed]⟩, hfull⟩⟩ }⟩
  | fetchAdd pc =>
    cases a <;> try cases hs
    exact inv_consumer_fetchAdd rel hs
  | closing pc held => exact rel.consumer.elim

end Consumer

end Batt.Channel
