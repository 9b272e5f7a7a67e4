/-
  The invariant of the counts is kept.

  One lemma for each thread: a step of the producer, of the consumer or of a thread that closes the
  channel takes `Kept` to `Kept`. Only the two stores of `fetch_add` move the counts.
-/
import Batt.Channel.Counts

namespace Batt.Channel

open Watch Interleave

variable {V : Type}

section

variable {w w' r r' : Nat} {sh sh' : Shared V} {p p' : Producer V} {q q' : Consumer}
variable {ks : List Closer}

theorem Known.mono {v : I32} (h : Known r v) (hle : r ≤ r') : Known r' v := by
  obtain ⟨n, hn, hv⟩ := h
  exact ⟨n, Nat.le_trans hn hle, hv⟩

theorem Slots.known (s : Slots w r sh p q) : Known r sh.readCount.value :=
  ⟨r, Nat.le_refl r, s.readCount⟩

/-! ## Handlers are passed -/

theorem getElem?_concat_cases {body : Body} {bodies : List Body} {b : Body} {h : Nat}
    (hb : (bodies ++ [body])[h]? = some b) :
    bodies[h]? = some b ∨ h = bodies.length ∧ b = body := by
  rcases Nat.lt_trichotomy h bodies.length with hlt | heq | hgt
  · rw [List.getElem?_append_left hlt] at hb
    exact .inl hb
  · subst heq
    rw [List.getElem?_concat_length] at hb
    exact .inr ⟨rfl, (Option.some.inj hb).symm⟩
  · rw [List.getElem?_eq_none (by simp; omega)] at hb
    cases hb

/-- The producer passes a handler to `read_count_`. -/
theorem slots_addRead {ls : List (Watch.Local I32)} (s : Slots w r sh p q)
    (hsound : Sound sh.readCount ls) (hnone : p.posted = none) (hoffers : p'.offers = false)
    (lastSeen : I32) {body : Body} (hread : ∀ observed, body ≠ .asyncRead observed)
    (hbody : ∀ target, body = .asyncWrite target →
      p'.posted = some sh.readCount.handlers.length) :
    Slots w r { sh with readCount := sh.readCount.addHandler lastSeen,
                        readBodies := sh.readBodies ++ [body] } p' q where
  writeCount := s.writeCount
  readCount := s.readCount
  order := s.order
  bound := s.bound
  readBodies := by simp [Watch.Shared.addHandler, s.readBodies]
  writeBodies := s.writeBodies
  posted := by
    intro h v target he hb
    rcases getElem?_concat_cases hb with hb | ⟨rfl, rfl⟩
    · exact s.posted h v target he hb
    · have hpassed := hsound.passed_of_invoked
        (List.count_pos_iff.mpr (List.mem_map.mpr ⟨_, he, rfl⟩))
      rw [s.readBodies] at hpassed
      exact absurd hpassed (Nat.lt_irrefl _)
  asked := s.asked
  readers := s.readers
  writers := by
    intro h observed hb
    rcases getElem?_concat_cases hb with hb | ⟨_, hb⟩
    · exact s.writers h observed hb
    · exact hread observed hb.symm
  value := by
    intro ho
    rw [hoffers] at ho
    cases ho
  producer := by
    intro h target hb hzero
    rcases getElem?_concat_cases hb with hb | ⟨rfl, hlast⟩
    · have := s.producer h target hb hzero
      rw [hnone] at this
      cases this
    · rw [s.readBodies]
      exact hbody target hlast.symm
  consumer := s.consumer

/-- The consumer passes a handler to `write_count_`. -/
theorem slots_addWrite (s : Slots w r sh p q) (hnone : q.asked = none) (hclears : q.clears = false)
    (lastSeen : I32) {body : Body} (hwrite : ∀ target, body ≠ .asyncWrite target)
    (hbody : ∀ observed, body = .asyncRead observed →
      Known r observed ∧ q'.asked = some sh.writeCount.handlers.length) :
    Slots w r { sh with writeCount := sh.writeCount.addHandler lastSeen,
                        writeBodies := sh.writeBodies ++ [body] } p q' where
  writeCount := s.writeCount
  readCount := s.readCount
  order := s.order
  bound := s.bound
  readBodies := s.readBodies
  writeBodies := by simp [Watch.Shared.addHandler, s.writeBodies]
  posted := s.posted
  asked := by
    intro h observed hb
    rcases getElem?_concat_cases hb with hb | ⟨_, hb⟩
    · exact s.asked h observed hb
    · exact (hbody observed hb.symm).1
  readers := by
    intro h target hb
    rcases getElem?_concat_cases hb with hb | ⟨_, hb⟩
    · exact s.readers h target hb
    · exact hwrite target hb.symm
  writers := s.writers
  value := by
    intro ho hv
    rcases s.value ho hv with h | h
    · exact .inl h
    · rw [hclears] at h
      cases h
  producer := s.producer
  consumer := by
    intro h observed hb hzero
    rcases getElem?_concat_cases hb with hb | ⟨rfl, hlast⟩
    · have := s.consumer h observed hb hzero
      rw [hnone] at this
      cases this
    · rw [s.writeBodies]
      exact (hbody observed hlast.symm).2

theorem Kept.ran {c : Count} {pc pc' : Watch.Pc I32} (k : Kept w r sh p q ks)
    (hl : .running 0 pc ∈ calls c p q ks) (ran : Ran sh c pc sh' pc') (hs : Steady pc) :
    Slots w r sh' p q := by
  cases c with
  | read => exact slots_ran (c := .read) k.slots k.read.toSound hl ran hs
  | write => exact slots_ran (c := .write) k.slots k.write.toSound hl ran hs

/-! ## The producer -/

theorem kept_of_producer (k : Kept w r sh p q ks) (hs : ProducerStep sh p sh' p')
    (slots : Slots w' r sh' p' q) (producer : ProducerAt w' r sh' p')
    (consumer : ConsumerAt w' r q) : Kept w' r sh' p' q ks where
  slots := slots
  read := used_moves (i := 0) k.read rfl (producer_moves_read hs) slots.known
  write := used_moves (i := 0) k.write rfl (producer_moves_write hs) trivial
  producer := producer
  consumer := consumer
  closers := k.closers

/-- The test of the loop in `await_true`. -/
theorem kept_awaitEqual {ls : List (Watch.Local I32)} (s : Slots w r sh p q)
    (hsound : Sound sh.readCount ls) (hnone : p.posted = none) {observed : I32}
    (hnear : Near w observed) :
    Slots w r (awaitEqual sh (i32 w) observed).1 (awaitEqual sh (i32 w) observed).2 q ∧
      ProducerAt w r (awaitEqual sh (i32 w) observed).1 (awaitEqual sh (i32 w) observed).2 := by
  unfold awaitEqual
  split
  · exact ⟨s.idle rfl rfl rfl rfl rfl hnone.symm rfl, trivial⟩
  · rename_i hne
    obtain ⟨u, hw, rfl⟩ := hnear.resolve_left hne
    refine ⟨slots_addRead s hsound hnone rfl (i32 u) nofun nofun, rfl, _, rfl, ⟨?_, ⟨u, hw, ?_⟩, ?_⟩, nofun⟩
    · simp [Shared.beginWait, Shared.setWatch, Shared.watch, ← s.readBodies]
    · simp [Shared.beginWait, Shared.setWatch, Shared.watch, begin, Watch.Shared.addHandler]
    · intro v hv
      have hpassed := hsound.passed_of_invoked
        (List.count_pos_iff.mpr (List.mem_map.mpr ⟨_, hv, rfl⟩))
      exact absurd hpassed (Nat.lt_irrefl _)

/-- The store of `write_count_.fetch_add(1)`. -/
theorem kept_count {lastSeen : Option I32} {pc' : Watch.Pc I32}
    (k : Kept w r sh (.fetchAdd lastSeen (.fetch .add 1)) q ks) (hempty : w = r)
    (hseen : ∀ l, lastSeen = some l → l = i32 r)
    (ran : Ran sh .write (.fetch .add 1) sh' pc') :
    Slots (w + 1) r sh' (.fetchAdd lastSeen pc') q ∧
      ProducerAt (w + 1) r sh' (.fetchAdd lastSeen pc') := by
  obtain ⟨hwatch, rfl, hvalue⟩ := ran_fetch ran
  have hmax := ran.max 1 rfl
  have hw : sh'.writeCount = sh.writeCount.update 0 (sh.writeCount.value + 1) := hwatch
  have hvw : sh.writeCount.value + 1 = i32 (w + 1) := by rw [k.slots.writeCount, i32_add_one]
  have hrb : sh'.readBodies = sh.readBodies := ran.bodies .read
  have hwb : sh'.writeBodies = sh.writeBodies := ran.bodies .write
  refine ⟨⟨⟨?_, ?_, ?_, ?_, ?_, ?_, ?_, ?_, ?_, ?_⟩, ?_, ?_, ?_⟩, ?_⟩
  · rw [hw]
    exact hvw
  · rw [ran.read_same]
    exact k.slots.readCount
  · omega
  · exact ne_i32Max (k.slots.writeCount ▸ hmax) k.slots.bound
  · rw [hrb, ran.read_same]
    exact k.slots.readBodies
  · rw [hwb, hw]
    exact k.slots.writeBodies
  · rw [hrb, ran.read_same]
    exact k.slots.posted
  · rw [hwb]
    exact k.slots.asked
  · rw [hwb]
    exact k.slots.readers
  · rw [hrb]
    exact k.slots.writers
  · intro _ hnone
    rcases k.slots.value rfl (hvalue ▸ hnone) with ⟨hcounted, _⟩ | hclears
    · cases hcounted
    · exact .inr hclears
  · rw [hrb, ran.read_same]
    exact k.slots.producer
  · rw [hwb, hw]
    exact k.slots.consumer
  · refine .inr ⟨w, rfl, ?_, ?_⟩
    · have hval : (sh.watch .write).value = i32 w := k.slots.writeCount
      rw [show (sh.watch .write).value + 1 = i32 (w + 1) from hvw, hval]
      exact .load
    · rw [hempty]
      exact hseen

theorem kept_producer (k : Kept w r sh p q ks) (hs : ProducerStep sh p sh' p') :
    ∃ w', Kept w' r sh' p' q ks := by
  have s := k.slots
  have hproducer := k.producer
  cases hs with
  | start mode v =>
    exact ⟨w, kept_of_producer k (.start mode v) (s.idle rfl rfl rfl rfl rfl rfl rfl) trivial
      k.consumer⟩
  | startClose =>
    exact ⟨w, kept_of_producer k .startClose (s.idle rfl rfl rfl rfl rfl rfl rfl)
      (.lock _) k.consumer⟩
  | activeWrite mode v =>
    exact ⟨w, kept_of_producer k (.activeWrite mode v) (s.idle rfl rfl rfl rfl rfl rfl rfl)
      s.writeCount k.consumer⟩
  | inactive mode v writeCount hn =>
    refine ⟨w, kept_of_producer k (.inactive mode v writeCount hn)
      (s.idle rfl rfl rfl rfl rfl rfl rfl) ?_ k.consumer⟩
    obtain ⟨hle, hge⟩ := s.order
    by_contra hne
    obtain rfl : w = r + 1 := by
      have : ¬ w = r := hne
      omega
    have hcount : writeCount = i32 (r + 1) := hproducer
    rw [hcount, s.readCount, i32_succ_sub_self] at hn
    exact hn (by decide)
  | refuse mode v closed =>
    exact ⟨w, kept_of_producer k (.refuse mode v closed) (s.idle rfl rfl rfl rfl rfl rfl rfl)
      trivial k.consumer⟩
  | accept mode v =>
    exact ⟨w, kept_of_producer k (.accept mode v) (s.idle rfl rfl rfl rfl rfl rfl rfl) hproducer
      k.consumer⟩
  | setAsync v =>
    exact ⟨w, kept_of_producer k (.setAsync v) (s.congr rfl rfl rfl rfl (by simp) rfl rfl)
      hproducer k.consumer⟩
  | setSync v =>
    exact ⟨w, kept_of_producer k (.setSync v) (s.congr rfl rfl rfl rfl (by simp) rfl rfl)
      (.inl ⟨rfl, hproducer, by simp⟩) k.consumer⟩
  | lastSeen =>
    refine ⟨w, kept_of_producer k .lastSeen (s.congr rfl rfl rfl rfl ?_ rfl rfl)
      (.inl ⟨rfl, hproducer, ?_⟩) k.consumer⟩
    · intro _ hnone
      rcases s.value rfl hnone with ⟨hcounted, _⟩ | hclears
      · cases hcounted
      · exact .inr hclears
    · intro l hl
      cases hl
      exact s.readCount
  | @fetch lastSeen pc pc' _ ran on =>
    rcases hproducer with ⟨rfl, hempty, hseen⟩ | ⟨u, hw, hann, hseen⟩
    · obtain ⟨slots, producer⟩ := kept_count k hempty hseen ran
      exact ⟨w + 1, kept_of_producer k (.fetch lastSeen ran on) slots producer k.consumer.fill⟩
    · have hann' := (announces_trans hann ran.trans).resolve_right (on _)
      have hs' := k.ran List.mem_cons_self ran hann.steady
      refine ⟨w, kept_of_producer k (.fetch lastSeen ran on)
        (hs'.congr rfl rfl rfl rfl ?_ rfl rfl) (.inr ⟨u, hw, hann', hseen⟩) k.consumer⟩
      intro _ hnone
      rcases hs'.value rfl hnone with ⟨_, hfull⟩ | hclears
      · refine .inl ⟨?_, hfull⟩
        cases hann' <;> rfl
      · exact .inr hclears
  | @post lastSeen old pc sh₁ ran check =>
    rcases hproducer with ⟨rfl, _, _⟩ | ⟨u, hw, hann, hseen⟩
    · cases (ran_fetch ran).2.1
    · have hs' := k.ran List.mem_cons_self ran hann.steady
      have hfinish := (announces_trans hann ran.trans).resolve_left (fun h => by cases h)
      have hold : old = i32 u := by
        cases hfinish
        rfl
      have hlast := hseen lastSeen rfl
      have hsound := k.read.toSound
      rw [← ran.read_same] at hsound
      refine ⟨w, kept_of_producer k (.post lastSeen old ran check)
        (slots_addRead hs' hsound rfl rfl lastSeen (by simp) fun _ _ => rfl) ?_ k.consumer⟩
      have hlen := hs'.readBodies
      refine ⟨⟨?_, u, hw, ?_⟩, rfl, (fun _ _ h => by cases h), (by intros; contradiction)⟩
      · rw [hold, i32_add_one, ← hw]
        simp [Shared.beginWait, Shared.setWatch, Shared.watch, ← hlen]
      · rw [hlast]
        simp [Shared.beginWait, Shared.setWatch, Shared.watch, begin, Watch.Shared.addHandler]
  | @poll old pc sh₁ ran =>
    rcases hproducer with ⟨rfl, _, _⟩ | ⟨u, hw, hann, _⟩
    · cases (ran_fetch ran).2.1
    · have hs' := k.ran List.mem_cons_self ran hann.steady
      have hfinish := (announces_trans hann ran.trans).resolve_left (fun h => by cases h)
      cases hfinish
      refine ⟨w, kept_of_producer k (.poll _ ran) (hs'.idle rfl rfl rfl rfl rfl rfl rfl) ?_
        k.consumer⟩
      rw [i32_add_one, ← hw]
      rfl
  | @wait h pc pc' _ ran on =>
    obtain ⟨hparked, hst, hne, htells⟩ := hproducer
    have hsteady : Steady pc := .inr ⟨h, .ret, hst, by simp⟩
    refine ⟨w, kept_of_producer k (.wait h ran on)
      ((k.ran List.mem_cons_self ran hsteady).idle rfl rfl rfl rfl rfl rfl rfl) ?_
      k.consumer⟩
    obtain ⟨_, hcases⟩ := trans_wait ran.trans hst (by simp)
    have hgoes : pc'.stage = .wait h .ret ∧ ∀ h' k', pc' ≠ .awaitResult h' k' := by
      rcases hcases with ⟨hst', hon⟩ | ⟨_, hfin⟩ | ⟨result, _, hfin⟩
      · exact ⟨hst', hon rfl⟩
      · exact absurd hfin (on _)
      · exact absurd hfin (on _)
    refine ⟨hparked.congr (ran.bodies .read) (ran_keeps ran hsteady .read).2, hgoes.1, hgoes.2, ?_⟩
    intro v hv
    rcases trans_wait_tells ran.trans hst hne (k.read.inv.passed _ List.mem_cons_self) hv with
      hold | ⟨hval, hdiff⟩
    · exact htells v hold
    · -- the count has left `last_seen`, and there is only one it can have come to
      obtain ⟨u, hw, hseen⟩ := hparked.lastSeen
      rw [show (sh.watch .read).value = i32 r from s.readCount] at hval
      have hr : r = w := by
        obtain ⟨hle, hge⟩ := s.order
        by_contra hne'
        obtain rfl : r = u := by omega
        exact hdiff (hval ▸ hseen)
      exact ⟨hr ▸ hval, hr⟩
  | @waited h pc ret _ ran =>
    obtain ⟨hparked, hst, _, _⟩ := hproducer
    have hsteady : Steady pc := .inr ⟨h, .ret, hst, by simp⟩
    exact ⟨w, kept_of_producer k (.waited h ran)
      ((k.ran List.mem_cons_self ran hsteady).idle rfl rfl rfl rfl rfl rfl rfl)
      (hparked.congr (ran.bodies .read) (ran_keeps ran hsteady .read).2) k.consumer⟩
  | handled h result given =>
    have hs' : Slots w r sh .idle q := by
      refine ⟨s.toCounts, (fun h => by cases h), ?_, s.consumer⟩
      intro h' target hbody hzero
      cases s.producer h' target hbody hzero
      have hpos : 0 < timesInvoked h sh.readCount :=
        List.count_pos_iff.mpr (List.mem_map.mpr ⟨_, mem_of_lookup given, rfl⟩)
      omega
    exact ⟨w, kept_of_producer k (.handled h result given) hs' trivial k.consumer⟩
  | load target =>
    obtain rfl : target = i32 w := hproducer
    obtain ⟨slots, producer⟩ := kept_awaitEqual s k.read.toSound rfl (s.readCount ▸ s.near)
    exact ⟨w, kept_of_producer k (.load _) slots producer k.consumer⟩
  | @await target pc pc' _ ran on =>
    obtain ⟨htarget, h, hst, hpolling, htells⟩ := hproducer
    have hsteady : Steady pc := .inr ⟨h, .awaitNotEqual, hst, by simp⟩
    have hruns : ¬ ∃ result, pc = .awaitResult h .awaitNotEqual ∧
        (sh.watch .read).invoked.lookup h = some result ∧ pc' = .finish (Ret.ofStatusOr result) := by
      rintro ⟨_, _, _, hfin⟩
      exact on _ hfin
    obtain ⟨hst', hne⟩ := (trans_wait_finish ran.trans hst).resolve_right hruns
    refine ⟨w, kept_of_producer k (.await target ran on)
      ((k.ran List.mem_cons_self ran hsteady).idle rfl rfl rfl rfl rfl rfl rfl)
      ⟨htarget, h, hst', hpolling.congr (ran.bodies .read) (ran_keeps ran hsteady .read).2 ?_, ?_⟩
      k.consumer⟩
    · intro v hv
      exact (ran_invoked ran hv).imp_right fun hi => htells v (hi.2.tells 0)
    · intro v hv
      rcases trans_wait_tells ran.trans hst hne (k.read.inv.passed _ List.mem_cons_self) hv with
        hold | ⟨hval, _⟩
      · exact htells v hold
      · rw [hval, show (sh.watch .read).value = i32 r from s.readCount]
        exact s.near
  | @reload target observed pc sh₁ ran =>
    obtain ⟨rfl, h, hst, hpolling, _⟩ := hproducer
    have hsteady : Steady pc := .inr ⟨h, .awaitNotEqual, hst, by simp⟩
    have hs' := k.ran List.mem_cons_self ran hsteady
    have hsound := sound_trans (i := 0) k.read.toSound rfl ran.trans
    have hnear : Near w observed := by
      rcases trans_wait_finish ran.trans hst with ⟨hst', _⟩ | ⟨result, _, hgiven, hfin⟩
      · cases hst'
      · refine hpolling.told observed (mem_of_lookup ?_)
        cases result with
        | ok v =>
          cases hfin
          exact hgiven
        | error code => cases hfin
    obtain ⟨slots, producer⟩ := kept_awaitEqual hs' hsound rfl hnear
    exact ⟨w, kept_of_producer k (.reload _ observed ran) slots producer k.consumer⟩
  | @closed target code pc _ ran =>
    obtain ⟨_, h, hst, _⟩ := hproducer
    have hsteady : Steady pc := .inr ⟨h, .awaitNotEqual, hst, by simp⟩
    exact ⟨w, kept_of_producer k (.closed target code ran)
      ((k.ran List.mem_cons_self ran hsteady).idle rfl rfl rfl rfl rfl rfl rfl) trivial
      k.consumer⟩
  | @close pc pc' _ ran on =>
    exact ⟨w, kept_of_producer k (.close ran on)
      ((k.ran List.mem_cons_self ran (Closes.steady hproducer)).idle rfl rfl rfl rfl rfl rfl
        rfl) ((closes_trans hproducer ran.trans).resolve_right (on _)) k.consumer⟩
  | @hasClosed pc ret _ ran =>
    exact ⟨w, kept_of_producer k (.hasClosed ran)
      ((k.ran List.mem_cons_self ran (Closes.steady hproducer)).idle rfl rfl rfl rfl rfl rfl
        rfl) trivial k.consumer⟩

/-! ## The consumer -/

theorem kept_of_consumer (k : Kept w r sh p q ks) (hs : ConsumerStep sh q sh' q') (hle : r ≤ r')
    (slots : Slots w r' sh' p q') (producer : ProducerAt w r' sh' p)
    (consumer : ConsumerAt w r' q') : Kept w r' sh' p q' ks where
  slots := slots
  read := used_moves (i := 1) (k.read.mono fun _ h => h.mono hle) rfl (consumer_moves_read hs)
    slots.known
  write := used_moves (i := 1) k.write rfl (consumer_moves_write hs) trivial
  producer := producer
  consumer := consumer
  closers := k.closers

/-- The consumer goes on and leaves the shared state alone. -/
theorem Slots.goes (s : Slots w r sh p q) (hclears : q.clears = false)
    (hasked : q'.asked = q.asked) : Slots w r sh p q' := by
  refine s.congr rfl rfl rfl rfl (fun ho hn => .inl ?_) rfl hasked
  refine (s.value ho hn).resolve_right fun h => ?_
  rw [hclears] at h
  cases h

/-- The next access of a call of the consumer that makes no update. -/
theorem kept_consumer_ran {c : Count} {pc pc' : Watch.Pc I32} (k : Kept w r sh p q ks)
    (hcall : q.call c = .running 0 pc) (hs : ConsumerStep sh q sh' q') (ran : Ran sh c pc sh' pc')
    (hsteady : Steady pc) (hclears : q.clears = false) (hasked : q'.asked = q.asked)
    (hq : ConsumerAt w r q') (htold : c = .read → ∀ h v, Invokes h (.ok v) pc → v = i32 r) :
    Kept w r sh' p q' ks := by
  have hl : .running 0 pc ∈ calls c p q ks :=
    List.mem_cons_of_mem _ (hcall ▸ List.mem_cons_self)
  refine kept_of_consumer k hs (Nat.le_refl r) ((k.ran hl ran hsteady).goes hclears hasked)
    (k.producer.congr (ran.bodies .read) (ran_keeps ran hsteady .read).2 ?_) hq
  intro h v hv
  refine (ran_invoked ran hv).imp_right fun hi => ?_
  rw [htold hi.1 h v hi.2]
  exact k.slots.near

/-- The store of `read_count_.fetch_add(1)`. -/
theorem kept_release {pc' : Watch.Pc I32} (k : Kept w r sh p (.fetchAdd (.fetch .add 1)) ks)
    (hfull : r < w) (ran : Ran sh .read (.fetch .add 1) sh' pc') :
    Slots w (r + 1) sh' p (.fetchAdd pc') ∧ ConsumerAt w (r + 1) (.fetchAdd pc') := by
  obtain ⟨hwatch, rfl, hvalue⟩ := ran_fetch ran
  have hr : sh'.readCount = sh.readCount.update 0 (sh.readCount.value + 1) := hwatch
  have hvr : sh.readCount.value + 1 = i32 (r + 1) := by rw [k.slots.readCount, i32_add_one]
  have hrb : sh'.readBodies = sh.readBodies := ran.bodies .read
  have hwb : sh'.writeBodies = sh.writeBodies := ran.bodies .write
  obtain ⟨hle, hge⟩ := k.slots.order
  refine ⟨⟨⟨?_, ?_, ?_, ?_, ?_, ?_, ?_, ?_, ?_, ?_⟩, ?_, ?_, ?_⟩, ?_⟩
  · rw [ran.write_same]
    exact k.slots.writeCount
  · rw [hr]
    exact hvr
  · omega
  · exact k.slots.bound
  · rw [hrb, hr]
    exact k.slots.readBodies
  · rw [hwb, ran.write_same]
    exact k.slots.writeBodies
  · rw [hrb, hr]
    exact k.slots.posted
  · intro h observed hb
    rw [hwb] at hb
    exact (k.slots.asked h observed hb).mono (Nat.le_succ r)
  · rw [hwb]
    exact k.slots.readers
  · rw [hrb]
    exact k.slots.writers
  · intro hoffers _
    refine .inl ⟨?_, by omega⟩
    by_contra hcounted
    have := k.producer.empty hoffers (by simpa using hcounted)
    omega
  · rw [hrb, hr]
    exact k.slots.producer
  · rw [hwb, ran.write_same]
    exact k.slots.consumer
  · refine .inr ⟨r, rfl, ?_⟩
    have hval : (sh.watch .read).value = i32 r := k.slots.readCount
    rw [show (sh.watch .read).value + 1 = i32 (r + 1) from hvr, hval]
    exact .load

theorem kept_consumer (k : Kept w r sh p q ks) (hs : ConsumerStep sh q sh' q') :
    ∃ r', Kept w r' sh' p q' ks := by
  have s := k.slots
  have hconsumer := k.consumer
  cases hs with
  | asyncRead =>
    exact ⟨r, kept_of_consumer k .asyncRead (Nat.le_refl r) (s.goes rfl rfl) k.producer trivial⟩
  | read =>
    exact ⟨r, kept_of_consumer k .read (Nat.le_refl r) (s.goes rfl rfl) k.producer trivial⟩
  | consume =>
    exact ⟨r, kept_of_consumer k .consume (Nat.le_refl r) (s.goes rfl rfl) k.producer trivial⟩
  | startClose held =>
    refine ⟨r, kept_of_consumer k (.startClose held) (Nat.le_refl r) (s.goes ?_ ?_) k.producer
      (.lock _)⟩
    · cases held <;> rfl
    · cases held <;> rfl
  | refuse =>
    exact ⟨r, kept_of_consumer k .refuse (Nat.le_refl r) (s.goes rfl rfl) k.producer trivial⟩
  | accept =>
    exact ⟨r, kept_of_consumer k .accept (Nat.le_refl r) (s.goes rfl rfl) k.producer trivial⟩
  | loadWrite =>
    exact ⟨r, kept_of_consumer k .loadWrite (Nat.le_refl r) (s.goes rfl rfl) k.producer trivial⟩
  | ready observed =>
    exact ⟨r, kept_of_consumer k (.ready observed) (Nat.le_refl r) (s.goes rfl rfl) k.producer
      trivial⟩
  | ask observed =>
    refine ⟨r, kept_of_consumer k (.ask observed) (Nat.le_refl r)
      (slots_addWrite s rfl rfl observed nofun ?_) (k.producer.congr rfl rfl fun _ _ => .inl) rfl⟩
    intro observed' hb
    cases hb
    exact ⟨s.known, rfl⟩
  | @wait h pc pc' _ ran on =>
    have hst : pc.stage = .wait h .ret := hconsumer
    refine ⟨r, kept_consumer_ran k rfl (.wait h ran on) ran (.inr ⟨h, .ret, hst, nofun⟩) rfl rfl ?_
      nofun⟩
    rcases (trans_wait ran.trans hst nofun).2 with ⟨hst', _⟩ | ⟨_, hfin⟩ | ⟨result, _, hfin⟩
    · exact hst'
    · exact absurd hfin (on _)
    · exact absurd hfin (on _)
  | waited h ran =>
    exact ⟨r, kept_consumer_ran k rfl (.waited h ran) ran (.inr ⟨h, .ret, hconsumer, nofun⟩) rfl
      rfl trivial nofun⟩
  | handled h result held given =>
    have hs' : Slots w r sh p (if held then .holding else .idle) := by
      refine ⟨s.toCounts, ?_, s.producer, ?_⟩
      · intro ho hn
        exact .inl ((s.value ho hn).resolve_right nofun)
      · intro h' observed hbody hzero
        cases s.consumer h' observed hbody hzero
        have hpos : 0 < timesInvoked h sh.writeCount :=
          List.count_pos_iff.mpr (List.mem_map.mpr ⟨_, mem_of_lookup given, rfl⟩)
        omega
    refine ⟨r, kept_of_consumer k (.handled h result held given) (Nat.le_refl r) hs' k.producer ?_⟩
    cases held <;> trivial
  | readLoad =>
    exact ⟨r, kept_of_consumer k .readLoad (Nat.le_refl r)
      (slots_addWrite s rfl rfl sh.readCount.value nofun nofun) (k.producer.congr rfl rfl fun _ _ => .inl)
      ⟨_, rfl⟩⟩
  | @await pc pc' _ ran on =>
    obtain ⟨h, hst⟩ := hconsumer
    refine ⟨r, kept_consumer_ran k rfl (.await ran on) ran (.inr ⟨h, .awaitNotEqual, hst, nofun⟩)
      rfl rfl ⟨h, ?_⟩ nofun⟩
    exact ((trans_wait_finish ran.trans hst).resolve_right fun ⟨_, _, _, hfin⟩ => on _ hfin).1
  | awaited ok ran =>
    obtain ⟨h, hst⟩ := hconsumer
    refine ⟨r, kept_consumer_ran k rfl (.awaited ok ran) ran
      (.inr ⟨h, .awaitNotEqual, hst, nofun⟩) rfl ?_ ?_ nofun⟩
    · cases ok <;> rfl
    · cases ok <;> trivial
  | deref v value =>
    refine ⟨r, kept_of_consumer k (.deref v value) (Nat.le_refl r)
      ((s.goes rfl rfl).congr rfl rfl rfl rfl ?_ rfl rfl) (k.producer.congr rfl rfl fun _ _ => .inl) trivial⟩
    intro _ hnone
    rw [value] at hnone
    cases hnone
  | activeWrite =>
    exact ⟨r, kept_of_consumer k .activeWrite (Nat.le_refl r) (s.goes rfl rfl) k.producer
      ⟨w, s.order.1, Nat.le_refl w, s.writeCount⟩⟩
  | active writeCount active =>
    refine ⟨r, kept_of_consumer k (.active writeCount active) (Nat.le_refl r) (s.goes rfl rfl)
      k.producer ?_⟩
    obtain ⟨n, hge, hle, rfl⟩ := hconsumer
    rw [s.readCount] at active
    refine Nat.lt_of_lt_of_le (Nat.lt_of_le_of_ne hge fun heq => ?_) hle
    rw [heq, i32_sub_self] at active
    exact absurd active (by decide)
  | clear =>
    refine ⟨r, kept_of_consumer k .clear (Nat.le_refl r)
      (s.congr rfl rfl rfl rfl (fun _ _ => .inr rfl) rfl rfl) (k.producer.congr rfl rfl fun _ _ => .inl)
      (.inl ⟨rfl, hconsumer⟩)⟩
  | @fetch pc pc' _ ran on =>
    rcases hconsumer with ⟨rfl, hfull⟩ | ⟨u, hr, hann⟩
    · obtain ⟨slots, consumer⟩ := kept_release k hfull ran
      refine ⟨r + 1, kept_of_consumer k (.fetch ran on) (Nat.le_succ r) slots ?_ consumer⟩
      have hr : sh'.readCount = _ := (ran_fetch ran).1
      refine (k.producer.drain hfull).congr (ran.bodies .read) ?_ ?_
      · rw [hr]
        rfl
      · rw [hr]
        exact fun _ _ => .inl
    · have hann' := (announces_trans hann ran.trans).resolve_right (on _)
      refine ⟨r, kept_consumer_ran k rfl (.fetch ran on) ran hann.steady ?_ rfl
        (.inr ⟨u, hr, hann'⟩) fun _ h v hi => Except.ok.inj (hann.invokes hi)⟩
      cases hann <;> rfl
  | @fetched pc ret _ ran =>
    rcases hconsumer with ⟨rfl, _⟩ | ⟨u, hr, hann⟩
    · cases (ran_fetch ran).2.1
    · refine ⟨r, kept_consumer_ran k rfl (.fetched ran) ran hann.steady ?_ rfl trivial
        fun _ h v hi => Except.ok.inj (hann.invokes hi)⟩
      cases hann <;> rfl
  | close held ran on =>
    refine ⟨r, kept_consumer_ran k rfl (.close held ran on) ran (Closes.steady hconsumer) rfl rfl
      ((closes_trans hconsumer ran.trans).resolve_right (on _)) fun _ h v hi => ?_⟩
    obtain ⟨code, hcode⟩ := Closes.invokes hconsumer hi
    cases hcode
  | hasClosed held ran =>
    refine ⟨r, kept_consumer_ran k rfl (.hasClosed held ran) ran (Closes.steady hconsumer) rfl ?_ ?_
      fun _ h v hi => ?_⟩
    · cases held <;> rfl
    · cases held <;> trivial
    · obtain ⟨code, hcode⟩ := Closes.invokes hconsumer hi
      cases hcode

/-! ## The threads that close the channel -/

theorem kept_closer {i : Nat} {a : Act V} {l l' : Closer} (k : Kept w r sh p q ks)
    (hi : ks[i]? = some l) (hs : l.step sh a = some (sh', l')) (hf : sh'.failure = none) :
    Kept w r sh' p q (ks.set i l') := by
  have hcalls : ∀ c, calls c p q (ks.set i l') = (calls c p q ks).set (i + 2) (l'.call c) := by
    intro c
    simp [calls, List.map_set]
  have hat : ∀ c, (calls c p q ks)[i + 2]? = some (l.call c) := by
    intro c
    simp [calls, hi]
  have hparts : Slots w r sh' p q ∧ ProducerAt w r sh' p ∧
      ∀ c pc, l' = .closing c pc → Closes pc := by
    obtain ⟨c, rfl, rfl, rfl⟩ | ⟨c, pc, pc', rfl, ran, hl'⟩ := closer_cases hs hf
    · refine ⟨k.slots, k.producer, ?_⟩
      intro c' pc' h
      cases h
      exact .lock _
    · have hcl := k.closers _ (List.mem_of_getElem? hi) c pc rfl
      have hl : .running 0 pc ∈ calls c p q ks := by
        have := List.mem_of_getElem? (hat c)
        rwa [Closer.call, if_pos rfl] at this
      refine ⟨k.ran hl ran hcl.steady, k.producer.congr (ran.bodies .read)
        (ran_keeps ran hcl.steady .read).2 ?_, ?_⟩
      · intro h v hv
        refine .inl ((ran_invoked ran hv).resolve_right fun hinv => ?_)
        obtain ⟨code, hcode⟩ := hcl.invokes hinv.2
        cases hcode
      · intro c' pc₁ h
        rcases hl' with ⟨_, rfl⟩ | ⟨on, rfl⟩
        · cases h
        · cases h
          exact (closes_trans hcl ran.trans).resolve_right (on _)
  obtain ⟨slots, producer, hclosing⟩ := hparts
  refine ⟨slots, ?_, ?_, producer, k.consumer, ?_⟩
  · rw [hcalls]
    exact used_moves k.read (hat .read) (closer_moves hs hf .read) slots.known
  · rw [hcalls]
    exact used_moves k.write (hat .write) (closer_moves hs hf .write) trivial
  · exact forall_set hclosing fun _ l _ hj => k.closers l (List.mem_of_getElem? hj)

end

/-! ## Configurations -/

def Thread.call (c : Count) : Thread V → Watch.Local I32
  | .party (.producer p) => p.call c
  | .party (.consumer q) => q.call c
  | .closer k => k.call c

def threads (p : Producer V) (q : Consumer) (ks : List Closer) : List (Thread V) :=
  .party (.producer p) :: .party (.consumer q) :: ks.map .closer

/-- One of the threads takes a step. -/
inductive Fires (sh : Shared V) (a : Act V) (p : Producer V) (q : Consumer) (ks : List Closer)
    (sh' : Shared V) : Nat → Producer V → Consumer → List Closer → Prop where
  | producer {p' : Producer V} (step : p.step sh a = some (sh', p')) :
      Fires sh a p q ks sh' 0 p' q ks
  | consumer {q' : Consumer} (step : q.step sh a = some (sh', q')) :
      Fires sh a p q ks sh' 1 p q' ks
  | closer {j : Nat} {l l' : Closer} (at' : ks[j]? = some l) (step : l.step sh a = some (sh', l')) :
      Fires sh a p q ks sh' (j + 2) p q (ks.set j l')

theorem fire_threads {i : Nat} {a : Act V} {c c' : Conf (Shared V) (Thread V)} {p : Producer V}
    {q : Consumer} {ks : List Closer} (hc : c.locals = threads p q ks)
    (hf : Closers.machine.fire i a c = some c') :
    c.shared.failure = none ∧ ∃ p' q' ks', c'.locals = threads p' q' ks' ∧
      Fires c.shared a p q ks c'.shared i p' q' ks' := by
  obtain ⟨l, sh', l', hl, _, hs, rfl⟩ := Machine.fire_cases hf
  rw [hc] at hl ⊢
  have hsafe : c.shared.failure = none := by
    by_contra hne
    have hsome : c.shared.failure.isSome = true := Option.isSome_iff_ne_none.mpr hne
    cases l with
    | party l => simp [Closers.machine, Closers.step, Channel.step, hsome] at hs
    | closer l => simp [Closers.machine, Closers.step, hsome] at hs
  refine ⟨hsafe, ?_⟩
  have hsome : c.shared.failure.isSome = false := by rw [hsafe]; rfl
  match i, hl with
  | 0, hl =>
    cases hl
    simp only [Closers.machine, Closers.step, Channel.step, hsome] at hs
    obtain ⟨⟨sh₁, l₁⟩, hparty, hr⟩ := Option.map_eq_some_iff.mp hs
    obtain ⟨⟨sh₂, p'⟩, hstep, hr'⟩ := Option.map_eq_some_iff.mp hparty
    cases hr'
    cases hr
    exact ⟨p', q, ks, rfl, .producer hstep⟩
  | 1, hl =>
    cases hl
    simp only [Closers.machine, Closers.step, Channel.step, hsome] at hs
    obtain ⟨⟨sh₁, l₁⟩, hparty, hr⟩ := Option.map_eq_some_iff.mp hs
    obtain ⟨⟨sh₂, q'⟩, hstep, hr'⟩ := Option.map_eq_some_iff.mp hparty
    cases hr'
    cases hr
    exact ⟨p, q', ks, rfl, .consumer hstep⟩
  | j + 2, hl =>
    have hl : (ks.map Thread.closer)[j]? = some l := hl
    rw [List.getElem?_map] at hl
    obtain ⟨k, hk, rfl⟩ := Option.map_eq_some_iff.mp hl
    simp only [Closers.machine, Closers.step, hsome] at hs
    obtain ⟨⟨sh₁, k'⟩, hstep, hr⟩ := Option.map_eq_some_iff.mp hs
    cases hr
    refine ⟨p, q, ks.set j k', ?_, .closer hk hstep⟩
    simp [threads, List.map_set]

theorem kept_fires {w r i : Nat} {a : Act V} {sh sh' : Shared V} {p p' : Producer V}
    {q q' : Consumer} {ks ks' : List Closer} (k : Kept w r sh p q ks)
    (hs : Fires sh a p q ks sh' i p' q' ks') (hf : sh'.failure = none) :
    ∃ w' r', Kept w' r' sh' p' q' ks' := by
  cases hs with
  | producer step =>
    obtain ⟨w', k'⟩ := kept_producer k (producerStep_of_step step hf)
    exact ⟨w', r, k'⟩
  | consumer step =>
    obtain ⟨r', k'⟩ := kept_consumer k (consumerStep_of_step step hf)
    exact ⟨w, r', k'⟩
  | closer hat step => exact ⟨w, r, kept_closer k hat step hf⟩

theorem kept_initial (n : Nat) :
    Kept 0 0 (Closers.initial (V := V) n).shared .idle .idle (List.replicate n .idle) := by
  have hidle : ∀ c, ∀ l ∈ calls c (.idle : Producer V) .idle (List.replicate n .idle), l = .idle := by
    intro c l hl
    simp only [calls, List.map_replicate, List.mem_cons, List.mem_replicate] at hl
    rcases hl with rfl | rfl | ⟨_, rfl⟩ <;> cases c <;> rfl
  refine ⟨⟨⟨rfl, rfl, ⟨Nat.le_refl 0, Nat.zero_le 1⟩, by decide, rfl, rfl, nofun, ?_, ?_, ?_⟩,
    nofun, ?_, ?_⟩, used_new _ ⟨0, Nat.le_refl 0, rfl⟩ (hidle .read), used_new _ trivial (hidle .write),
    trivial, trivial, ?_⟩
  · intro h observed hb
    cases hb
  · intro h target hb
    cases hb
  · intro h observed hb
    cases hb
  · intro h target hb
    cases hb
  · intro h observed hb
    cases hb
  · intro k hk c pc hc
    rw [(List.mem_replicate.mp hk).2] at hc
    cases hc

/-- The invariant holds as long as nothing has failed. -/
theorem kept_reachable {n : Nat} {c : Conf (Shared V) (Thread V)}
    (h : Closers.machine.Reachable (Closers.initial n) c) :
    ∃ p q ks, c.locals = threads p q ks ∧
      (c.shared.failure = none → ∃ w r, Kept w r c.shared p q ks) := by
  refine Closers.machine.invariant (I := fun c => ∃ p q ks, c.locals = threads p q ks ∧
    (c.shared.failure = none → ∃ w r, Kept w r c.shared p q ks)) ?_ ?_ h
  · rintro c i a c' ⟨p, q, ks, hc, hkept⟩ hf
    obtain ⟨hsafe, p', q', ks', hc', hfires⟩ := fire_threads hc hf
    obtain ⟨w, r, k⟩ := hkept hsafe
    exact ⟨p', q', ks', hc', kept_fires k hfires⟩
  · refine ⟨.idle, .idle, List.replicate n .idle, ?_, fun _ => ⟨0, 0, kept_initial n⟩⟩
    simp [Closers.initial, threads]

end Batt.Channel
