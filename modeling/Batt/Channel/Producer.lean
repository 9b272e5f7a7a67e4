/-
  The producer's steps keep the invariant.

  A step into a watch is followed by `adder_cases` or `waiter_cases`; the store of
  `fetch_add` is where the channel becomes full.
-/
import Batt.Channel.Handlers

namespace Batt.Channel

open Watch

variable {V : Type}

section Producer

variable {w r : Nat} {aw ar : Option (AddAt I32)} {ow or : Option (WaitAt I32)}
variable {strict : Bool} {sh sh' : Shared V} {p p' : Producer V} {q : Consumer} {pc : Watch.Pc I32}

/-- A write is called. -/
theorem inv_call (rel : Rel w r aw ow ar or strict sh .idle q) (mode : Mode) (v : V) :
    Inv { sh with written := sh.written ++ [v] } (.activeWrite mode v) q := by
  obtain ⟨haw, hor, hempty, hwritten, hcompleted⟩ := rel.producer
  refine ⟨w, r, aw, ow, ar, or, strict, { rel with
    reads := rel.reads.trans (List.prefix_append _ _)
    value := fun hfull => by omega
    producer := ⟨haw, hor, hempty, ?_, ?_, hcompleted⟩
    consumer := rel.consumer.congr rfl rfl rfl rfl rfl }⟩
  · simp [hwritten]
  · simp [← hwritten]

/-- `read_count_.async_wait` or `await_not_equal` is called by the producer. -/
theorem rel_beginWait (rel : Rel w r aw ow ar none strict sh p q) (lastSeen : I32) (body : Body)
    (strict' : Bool) (op : Watch.Op I32) (pc : Watch.Pc I32) (p' : Producer V)
    (hop : Watch.begin sh.readCount op = (sh.readCount.addHandler lastSeen, pc))
    {aw' : Option (AddAt I32)} (hwrite : Flight sh.writeCount aw' ow true)
    (hp : ProducerOk w r { sh with readCount := sh.readCount.addHandler lastSeen,
                                   readBodies := sh.readBodies ++ [body] } p' aw'
      (some (.arming sh.readCount.handlers.length lastSeen)) strict') :
    Inv (sh.beginWait .read op body).1 p' q ∧ (sh.beginWait .read op body).2 = pc := by
  have hbegin : sh.beginWait .read op body =
      ({ sh with readCount := sh.readCount.addHandler lastSeen,
                 readBodies := sh.readBodies ++ [body] }, pc) := by
    unfold Shared.beginWait Shared.watch
    simp only [hop]
    rfl
  rw [hbegin]
  refine ⟨⟨w, r, aw', ow, ar, _, strict', { rel with
    readBodies := by simp [rel.readBodies, Watch.Shared.addHandler]
    writeFlight := hwrite
    readFlight := rel.readFlight.start lastSeen strict'
    producer := hp
    consumer := rel.consumer.congr rfl rfl rfl rfl rfl }⟩, rfl⟩

theorem inv_awaitEqual (rel : Rel w r aw ow ar none strict sh p q)
    (hwrite : Flight sh.writeCount none ow true) (hcnt : Counted w sh) {observed : I32}
    (hobs : observed = i32 r ∨ ∃ l, w = l + 1 ∧ observed = i32 l)
    (h : awaitEqual sh (i32 w) observed = (sh', p')) : Inv sh' p' q := by
  have hbound := rel.bound
  obtain ⟨hle, hge⟩ := rel.order
  unfold awaitEqual at h
  split at h
  · -- the target has been reached
    rename_i heq
    cases h
    have hempty : w = r := by
      rcases hobs with hobs | ⟨l, hl, hobs⟩
      · exact i32_inj hbound (by omega) (heq.symm.trans hobs)
      · have := i32_inj hbound (by omega) (heq.symm.trans hobs)
        omega
    exact ⟨w, r, none, ow, ar, none, strict, { rel with
      writeFlight := hwrite
      producer := ⟨rfl, rfl, hempty, hcnt.written, hcnt.completed⟩
      consumer := rel.consumer.congr rfl rfl rfl rfl rfl }⟩
  · rename_i hne
    obtain ⟨l, hl, rfl⟩ : ∃ l, w = l + 1 ∧ observed = i32 l := by
      rcases hobs with hobs | hobs
      · refine ⟨r, ?_, hobs⟩
        by_contra hfull
        obtain rfl : w = r := by omega
        exact hne hobs
      · exact hobs
    have hinv := rel_beginWait rel (i32 l) .resume false (.awaitNotEqual (i32 l))
      (.waitLoad sh.readCount.handlers.length (i32 l) .awaitNotEqual)
      (.awaitNotEqual (i32 w) (.waitLoad sh.readCount.handlers.length (i32 l) .awaitNotEqual))
      rfl hwrite
      ⟨rfl, rfl, rfl, hcnt.congr rfl rfl, _, rfl, .load _ _, ⟨l, hl, by
        simp [Watch.Shared.addHandler, WaitAt.handler]⟩, by
        simp [← rel.readBodies, WaitAt.handler]⟩
    rw [← hinv.2] at hinv
    cases h
    exact hinv.1

theorem inv_afterFetchAdd (rel : Rel w r aw ow ar none strict sh p q)
    (hwrite : Flight sh.writeCount none ow true) (hcnt : Counted w sh) {lastSeen : Option I32}
    (hls : ∀ l, lastSeen = some l → ∃ m, w = m + 1 ∧ l = i32 m) {old : I32}
    (hold : old + 1 = i32 w) (h : afterFetchAdd sh lastSeen (.value old) = some (sh', p')) :
    Inv sh' p' q := by
  cases lastSeen with
  | none =>
    cases h
    exact ⟨w, r, none, ow, ar, none, strict, { rel with
      writeFlight := hwrite
      producer := ⟨rfl, rfl, hold, hcnt⟩ }⟩
  | some l =>
    obtain ⟨m, hm, rfl⟩ := hls l rfl
    have hcheck : i32 m + 1 = old + 1 := by rw [hold, i32_add_one, hm]
    simp only [afterFetchAdd, if_pos hcheck] at h
    have hstart := rel.readFlight.start (i32 m) true
    have hinv := rel_beginWait rel (i32 m) (.asyncWrite (old + 1)) true (.asyncWait (i32 m))
      (.waitLoad sh.readCount.handlers.length (i32 m) .ret)
      (.asyncWait sh.readCount.handlers.length
        (.waitLoad sh.readCount.handlers.length (i32 m) .ret)) rfl hwrite
      ⟨rfl, rfl, ⟨_, rfl, .load _ _, rfl⟩, hcnt.written,
        ⟨m, hm, by simp [Watch.Shared.addHandler]⟩, by
          rw [hold]
          simp [← rel.readBodies],
        fun _ => hcnt.completed, fun hn => absurd hstart.placed.2.2 hn⟩
    rw [← hinv.2] at hinv
    cases h
    exact hinv.1

/-- A step of the producer in `write_count_.fetch_add(1)`. -/
theorem inv_producer_fetchAdd {lastSeen : Option I32}
    (rel : Rel w r aw ow ar or strict sh (.fetchAdd lastSeen pc) q)
    (hfresh : freshProducer sh q .run (.fetchAdd lastSeen pc) = true)
    (h : Producer.step sh .run (.fetchAdd lastSeen pc) = some (sh', p')) : Inv sh' p' q := by
  obtain ⟨⟨sh₁, pc₁⟩, hstep, hnext⟩ := Option.bind_eq_some_iff.mp h
  obtain ⟨rfl, x, rfl, hadds, hphase⟩ := rel.producer
  have hne : sh.writeCount.value ≠ sh.writeCount.value + 1 := i32_ne_add_one _
  have hopen := rel.writeFlight.isOpen
  rcases hphase with ⟨rfl, ⟨v, hu, hval⟩, hls⟩ | ⟨hx, hcnt, hls⟩
  · -- the store fills the channel
    cases hadds
    have hmax : sh.writeCount.value ≠ i32Max := by simpa [freshProducer] using hfresh
    obtain ⟨c, hexec, rfl⟩ := watchStep_fetch (c := .write) hmax hstep
    rw [show sh.watch .write = sh.writeCount from rfl, exec_add hne] at hexec
    cases hexec
    cases hnext
    obtain rfl := hu.empty
    have hlt := ne_i32Max (rel.writeCount ▸ hmax) rel.bound
    have hadds : Adds 1 (.notifyLoad (sh.writeCount.value + 1) (.value sh.writeCount.value))
        (.told (sh.writeCount.value + 1)) := .load _
    exact ⟨w + 1, w, some (.told (sh.writeCount.value + 1)), ow, ar, none, strict, { rel with
      writeCount := by
        show sh.writeCount.value + 1 = _
        rw [rel.writeCount, i32_add_one]
      bound := hlt
      order := by omega
      value := fun _ _ => hval.trans hu.last.symm
      writeFlight := rel.writeFlight.store hne fun x hx => by
        rw [rel.writeCount]
        exact (hx ▸ rel.consumer).lastSeen
      producer := ⟨rfl, _, rfl, hadds, .inr ⟨by simp, ⟨hu.written, by
        have := hu.completed
        show sh.completed + 1 = w + 1
        omega⟩, fun l hl => ⟨w, rfl, hls l hl⟩⟩⟩
      consumer := rel.consumer.fill.congr rfl rfl rfl rfl rfl }⟩
  · obtain ⟨c, hexec, rfl⟩ := watchStep_exec (adds_not_fetch hadds hx) hstep
    have hself : sh.runInvoked .write sh.writeCount = sh := runInvoked_self sh .write
    have hcurrent : ∀ v, stored (some x) = some v → v = i32 w := fun v hv =>
      (rel.writeFlight.current v hv).trans rel.writeCount
    cases adder_cases hadds hopen hne hexec with
    | store => exact absurd rfl hx
    | same same adds =>
      rcases cases_finish hnext with ⟨ret, hret, _⟩ | ⟨_, hon⟩
      · exact absurd hret (adds_not_finish adds ret)
      · cases hon
        rw [runInvoked_same same.invoked]
        exact ⟨w, r, some x, ow, ar, none, strict, { rel with
          writeBodies := by simp [Shared.setWatch, same.handlers, rel.writeBodies]
          writeCount := same.value.trans rel.writeCount
          writeFlight := rel.writeFlight.congr same (fun _ => id) (fun _ _ => id) rfl
          producer := ⟨rfl, x, rfl, adds, .inr ⟨hx, hcnt.congr rfl rfl, hls⟩⟩
          consumer := rel.consumer.congr rfl rfl same.handlers same.invoked rfl }⟩
    | quick old =>
      rw [hself] at hnext
      exact inv_afterFetchAdd rel (rel.writeFlight.rest rfl (fun _ => rfl) rfl)
        hcnt hls (hcurrent _ rfl) hnext
    | take adds =>
      rcases cases_finish hnext with ⟨ret, hret, _⟩ | ⟨_, hon⟩
      · exact absurd hret (adds_not_finish adds ret)
      · cases hon
        have hrun : sh.runInvoked .write { sh.writeCount with observers := [] } =
            { sh with writeCount := { sh.writeCount with observers := [] } } :=
          runInvoked_same rfl
        rw [hrun]
        exact ⟨w, r, some (.took sh.writeCount.observers _), ow, ar, none, strict, { rel with
          writeFlight := rel.writeFlight.take
          producer := ⟨rfl, _, rfl, adds, .inr ⟨by simp, hcnt.congr rfl rfl, hls⟩⟩
          consumer := rel.consumer.congr rfl rfl rfl rfl rfl }⟩
    | done old =>
      rw [hself] at hnext
      exact inv_afterFetchAdd rel (rel.writeFlight.rest rfl (fun _ => rfl)
        (by simp [pending])) hcnt hls (hcurrent _ rfl) hnext
    | invoke n rest adds =>
      obtain ⟨rfl, hnone, rfl, hdiff, hflight⟩ := rel.writeFlight.invokeTaken
      obtain ⟨reads, hrun, hpre, hconsumer⟩ :=
        consumer_invoked rel hnone (hdiff rfl) (rel.writeFlight.current _ rfl)
      rcases cases_finish hnext with ⟨ret, hret, _⟩ | ⟨_, hon⟩
      · exact absurd hret (adds_not_finish adds ret)
      · cases hon
        rw [hrun]
        exact ⟨w, r, some (.took [] _), some (.armed n), ar, none, strict, { rel with
          reads := hpre
          writeFlight := hflight
          producer := ⟨rfl, _, rfl, adds, .inr ⟨by simp, hcnt.congr rfl rfl, hls⟩⟩
          consumer := hconsumer }⟩

/-- A step of the producer's wait that invokes nothing and does not end it. -/
theorem rel_read_wait {x : WaitAt I32} {k : After I32} {pc₁ : Watch.Pc I32} {c : Watch.Shared I32}
    (rel : Rel w r aw ow ar (some x) strict sh p q) (hstep : WaitStep k sh.readCount pc x c pc₁)
    (hfresh : ∀ h ls s, pc = .pushHandler h ls s k → strict = true → ar ≠ some (.told ls)) :
    (∃ x', x'.handler = x.handler ∧ Awaits k pc₁ x' ∧
        c.handlers = sh.readCount.handlers ∧ c.invoked = sh.readCount.invoked ∧
        ∀ p', ProducerOk w r { sh with readCount := c } p' aw (some x') strict →
          Rel w r aw ow ar (some x') strict { sh with readCount := c } p' q) ∨
      (∃ h v, x = .direct h v ∧ c = sh.readCount.invoke h (.ok v) ∧ pc₁ = afterWait h k) ∨
      (∃ h, x = .armed h ∧ Same sh.readCount c ∧ pc₁ = afterWait h k) ∨
      (∃ h result, x = .armed h ∧ c = sh.readCount ∧
        sh.readCount.invoked.lookup h = some result ∧ pc₁ = Watch.resume k result) := by
  have hconsumer : ∀ c', ConsumerOk w r { sh with readCount := c' } q ar ow := fun c' =>
    rel.consumer.congr rfl rfl rfl rfl rfl
  cases hstep with
  | same same waits =>
    refine .inl ⟨x, rfl, waits, same.handlers, same.invoked, fun p' hp => { rel with
      readBodies := rel.readBodies.trans (congrArg List.length same.handlers.symm)
      readCount := same.value.trans rel.readCount
      readFlight := rel.readFlight.congr same (fun _ => id) (fun _ _ => id) rfl
      producer := hp
      consumer := hconsumer _ }⟩
  | changed n ls hchanged waits =>
    refine .inl ⟨.direct n _, rfl, waits, rfl, rfl, fun p' hp => { rel with
      readFlight := rel.readFlight.changed hchanged
      producer := hp
      consumer := hconsumer _ }⟩
  | push n ls s waits =>
    refine .inl ⟨.armed n, rfl, waits, rfl, rfl, fun p' hp => { rel with
      readFlight := rel.readFlight.push (hfresh n ls s rfl)
      producer := hp
      consumer := hconsumer _ }⟩
  | invoke n v => exact .inr (.inl ⟨n, v, rfl, rfl, rfl⟩)
  | leave n same => exact .inr (.inr (.inl ⟨n, rfl, same, rfl⟩))
  | resume n result given => exact .inr (.inr (.inr ⟨n, result, rfl, rfl, given, rfl⟩))

/-- A step of the producer in `read_count_.async_wait`. -/
theorem inv_producer_asyncWait {h : Nat} (rel : Rel w r aw ow ar or strict sh (.asyncWait h pc) q)
    (hfresh : freshProducer sh q .run (.asyncWait h pc) = true)
    (hs : Producer.step sh .run (.asyncWait h pc) = some (sh', p')) : Inv sh' p' q := by
  obtain ⟨⟨sh₁, pc₁⟩, hstep, hnext⟩ := Option.map_eq_some_iff.mp hs
  obtain ⟨rfl, rfl, ⟨x, rfl, hwaits, hx⟩, hposted⟩ := rel.producer
  obtain ⟨c, hexec, rfl⟩ := watchStep_exec (waits_not_fetch hwaits) hstep
  have hpush : ∀ n ls s, pc = .pushHandler n ls s .ret → true = true → ar ≠ some (.told ls) := by
    rintro n ls s rfl - rfl
    simp [freshProducer, rel.consumer.telling] at hfresh
  rcases rel_read_wait rel (waiter_cases hwaits rel.readFlight.isOpen hexec) hpush with
    ⟨x', hx', waits, hhandlers, hinvoked, hrel⟩ | ⟨n, v, rfl, rfl, rfl⟩ |
    ⟨n, rfl, same, rfl⟩ | ⟨n, result, rfl, rfl, _, rfl⟩
  · rcases cases_finish hnext with ⟨ret, hret, _⟩ | ⟨_, hon⟩
    · exact absurd hret (waits_not_finish waits ret)
    · cases hon
      rw [runInvoked_same hinvoked]
      exact ⟨_, _, _, _, _, _, _, hrel _ ⟨rfl, rfl, ⟨x', rfl, waits, hx'.trans hx⟩,
        hposted.congr rfl rfl hhandlers hinvoked rfl⟩⟩
  · -- the handler is invoked by the producer itself
    obtain rfl : n = h := hx
    obtain ⟨hnone, hdiff, hflight⟩ := rel.readFlight.invokeDirect
    obtain ⟨hempty, hrun, hposted'⟩ :=
      posted_invoke rel hposted hnone hdiff rel.readFlight.placed.2.1
    cases hnext
    rw [hrun]
    exact ⟨w, r, none, ow, ar, _, true, { rel with
      value := fun hfull => by omega
      readFlight := hflight
      producer := ⟨rfl, rfl, rfl, hposted'⟩
      consumer := rel.consumer.congr rfl rfl rfl rfl rfl }⟩
  · obtain rfl : n = h := hx
    cases hnext
    rw [runInvoked_same same.invoked]
    exact ⟨w, r, none, ow, ar, _, true, { rel with
      readBodies := rel.readBodies.trans (congrArg List.length same.handlers.symm)
      readCount := same.value.trans rel.readCount
      readFlight := rel.readFlight.congr same (fun _ => id) (fun _ _ => id) rfl
      producer := ⟨rfl, rfl, rfl, hposted.congr rfl rfl same.handlers same.invoked rfl⟩
      consumer := rel.consumer.congr rfl rfl rfl rfl rfl }⟩
  · obtain rfl : n = h := hx
    cases hnext
    rw [show sh.runInvoked .read sh.readCount = sh from runInvoked_self sh .read]
    exact ⟨w, r, none, ow, ar, _, true, { rel with producer := ⟨rfl, rfl, rfl, hposted⟩ }⟩

/-- A step of the producer in the `await_not_equal` of `write`. -/
theorem inv_producer_awaitNotEqual {target : I32}
    (rel : Rel w r aw ow ar or strict sh (.awaitNotEqual target pc) q)
    (hs : Producer.step sh .run (.awaitNotEqual target pc) = some (sh', p')) : Inv sh' p' q := by
  obtain ⟨⟨sh₁, pc₁⟩, hstep, hnext⟩ := Option.bind_eq_some_iff.mp hs
  obtain ⟨rfl, rfl, rfl, hcnt, x, rfl, hwaits, hpolled⟩ := rel.producer
  obtain ⟨c, hexec, rfl⟩ := watchStep_exec (waits_not_fetch hwaits) hstep
  rcases rel_read_wait rel (waiter_cases hwaits rel.readFlight.isOpen hexec) (fun _ _ _ _ => nofun)
    with ⟨x', hx', waits, hhandlers, hinvoked, hrel⟩ | ⟨n, v, rfl, rfl, rfl⟩ |
    ⟨n, rfl, same, rfl⟩ | ⟨n, result, rfl, rfl, hgot, rfl⟩
  · rcases cases_finish hnext with ⟨ret, hret, _⟩ | ⟨_, hon⟩
    · exact absurd hret (waits_not_finish waits ret)
    · cases hon
      rw [runInvoked_same hinvoked]
      refine ⟨_, _, _, _, _, _, _, hrel _ ⟨rfl, rfl, rfl, hcnt.congr rfl rfl, x', rfl, waits, ?_⟩⟩
      rw [hx']
      exact hpolled.congr hhandlers rfl
  · obtain ⟨hnone, hdiff, hflight⟩ := rel.readFlight.invokeDirect
    cases hnext
    rw [show sh.runInvoked .read (sh.readCount.invoke n (.ok v)) =
      { sh with readCount := sh.readCount.invoke n (.ok v) } from
        resume_invoke (c := .read) (.ok v) hpolled.body]
    exact ⟨w, r, none, ow, ar, _, false, { rel with
      readFlight := hflight
      producer := ⟨rfl, rfl, rfl, hcnt.congr rfl rfl, _, rfl, .result n, hpolled.congr rfl rfl⟩
      consumer := rel.consumer.congr rfl rfl rfl rfl rfl }⟩
  · cases hnext
    rw [runInvoked_same same.invoked]
    exact ⟨w, r, none, ow, ar, _, false, { rel with
      readBodies := rel.readBodies.trans (congrArg List.length same.handlers.symm)
      readCount := same.value.trans rel.readCount
      readFlight := rel.readFlight.congr same (fun _ => id) (fun _ _ => id) rfl
      producer := ⟨rfl, rfl, rfl, hcnt.congr rfl rfl, _, rfl, .result n,
        hpolled.congr same.handlers rfl⟩
      consumer := rel.consumer.congr rfl rfl rfl rfl rfl }⟩
  · -- the task resumes with what its handler was given, and tests it
    obtain ⟨hflight, v, rfl, _, hv⟩ := rel.readFlight.leave hgot false
    rw [show sh.runInvoked .read sh.readCount = sh from runInvoked_self sh .read] at hnext
    obtain ⟨l, hl, hls⟩ := hpolled.lastSeen
    have hload : Rel w r none ow ar none false sh (.awaitLoad (i32 w)) q := { rel with
      readFlight := hflight
      producer := ⟨rfl, rfl, rfl, hcnt⟩ }
    refine inv_awaitEqual hload rel.writeFlight hcnt ?_ (Option.some.inj hnext)
    rcases hv with hv | hv
    · exact .inr ⟨l, hl, Option.some.inj (hv.symm.trans hls)⟩
    · exact .inl (hv.trans rel.readCount)

theorem inv_producer_step {a : Act V} (rel : Rel w r aw ow ar or strict sh p q)
    (hfresh : freshProducer sh q a p = true) (hs : Producer.step sh a p = some (sh', p')) :
    Inv sh' p' q := by
  cases p with
  | idle =>
    cases a with
    | asyncWrite v =>
      cases hs
      exact inv_call rel .asyncWrite v
    | write v =>
      cases hs
      exact inv_call rel .write v
    | closeForWrite => cases hfresh
    | _ => cases hs
  | activeWrite mode v =>
    cases a <;> cases hs
    exact ⟨w, r, aw, ow, ar, or, strict, { rel with
      producer := ⟨rel.producer.1, rel.producer.2.1, rel.producer.2.2, rel.writeCount⟩ }⟩
  | activeRead mode v writeCount =>
    obtain ⟨haw, hor, hu, rfl⟩ := rel.producer
    cases a <;> try cases hs
    simp only [Producer.step, rel.readCount, ← hu.empty, i32_sub_self] at hs
    cases hs
    exact ⟨w, r, aw, ow, ar, or, strict, { rel with producer := ⟨haw, hor, hu⟩ }⟩
  | isClosed mode v =>
    cases a <;> try cases hs
    have hopen : ¬ sh.writeCount.spinState &&& kOpen = 0 := by
      rw [and_kOpen_eq_zero, rel.writeFlight.isOpen]
      simp
    simp only [Producer.step, if_neg hopen] at hs
    cases hs
    exact ⟨w, r, aw, ow, ar, or, strict, { rel with producer := rel.producer }⟩
  | setValue mode v =>
    obtain ⟨rfl, rfl, hu⟩ := rel.producer
    cases a <;> try cases hs
    have hnotFull : ¬ w = r + 1 := by
      have := hu.empty
      omega
    cases mode with
    | asyncWrite =>
      cases hs
      exact ⟨w, r, none, ow, ar, none, strict, { rel with
        value := fun hfull => absurd hfull hnotFull
        producer := ⟨rfl, rfl, v, hu.congr rfl rfl, rfl⟩
        consumer := rel.consumer.congr rfl rfl rfl rfl rfl }⟩
    | write =>
      cases hs
      exact ⟨w, r, some .before, ow, ar, none, strict, { rel with
        value := fun hfull => absurd hfull hnotFull
        writeFlight := rel.writeFlight.rest rfl (fun _ => rfl) rfl
        producer := ⟨rfl, _, rfl, .fetch, .inl ⟨rfl, ⟨v, hu.congr rfl rfl, rfl⟩, nofun⟩⟩
        consumer := rel.consumer.congr rfl rfl rfl rfl rfl }⟩
  | loadLastSeen =>
    obtain ⟨rfl, rfl, v, hu, hval⟩ := rel.producer
    cases a <;> cases hs
    exact ⟨w, r, some .before, ow, ar, none, strict, { rel with
      writeFlight := rel.writeFlight.rest rfl (fun _ => rfl) rfl
      producer := ⟨rfl, _, rfl, .fetch, .inl ⟨rfl, ⟨v, hu, hval⟩, fun l hl => by
        rw [← Option.some.inj hl]
        exact rel.readCount⟩⟩ }⟩
  | fetchAdd lastSeen pc =>
    cases a <;> try cases hs
    exact inv_producer_fetchAdd rel hfresh hs
  | asyncWait h pc =>
    cases a <;> try cases hs
    exact inv_producer_asyncWait rel hfresh hs
  | awaitHandler h =>
    obtain ⟨rfl, rfl, rfl, hposted⟩ := rel.producer
    cases a <;> try cases hs
    obtain ⟨result, hgot, hr⟩ := Option.map_eq_some_iff.mp hs
    cases hr
    obtain ⟨hflight, _⟩ := rel.readFlight.leave hgot true
    have hdone := hposted.done (by rw [hgot]; exact nofun)
    exact ⟨w, r, none, ow, ar, none, true, { rel with
      readFlight := hflight
      producer := ⟨rfl, rfl, hdone.2, hposted.written, hdone.1⟩ }⟩
  | awaitLoad target =>
    obtain ⟨rfl, rfl, rfl, hcnt⟩ := rel.producer
    cases a <;> try cases hs
    exact inv_awaitEqual rel rel.writeFlight hcnt (.inl rel.readCount) (Option.some.inj hs)
  | awaitNotEqual target pc =>
    cases a <;> try cases hs
    exact inv_producer_awaitNotEqual rel hs
  | closing pc => exact rel.producer.elim

end Producer

end Batt.Channel
