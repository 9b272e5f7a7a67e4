/-
  The counts of a channel that may be closed at any time.

  `Kept` holds in every reachable state, whatever the order of the calls. As in an open channel
  the counts are numbers with `r ≤ w ≤ r + 1`, and the last count a party read is no later than the
  count itself. What is new is that a write or a read may end while its value, or its handler, is
  still there: `Slots` says whose handler is left uninvoked, and who has cleared `value_`.
-/
import Batt.Channel.Steps

namespace Batt.Channel

open Watch Interleave

variable {V : Type} {h : Nat}

/-! ## Where the parties are -/

/-- A read count seen at some time. -/
def Known (r : Nat) (v : I32) : Prop := ∃ n, n ≤ r ∧ v = i32 n

/-- The handler the producer waits for in `async_write`. -/
def Producer.posted : Producer V → Option Nat
  | .asyncWait h _ | .awaitHandler h => some h
  | _ => none

/-- The handler the consumer waits for in `async_read`. -/
def Consumer.asked : Consumer → Option Nat
  | .asyncWait h _ | .awaitHandler h => some h
  | _ => none

/-- The producer has stored the value and has not told the consumer yet. -/
def Producer.offers : Producer V → Bool
  | .loadLastSeen | .fetchAdd _ _ => true
  | _ => false

/-- It has counted the write. -/
def Producer.counted : Producer V → Bool
  | .fetchAdd _ (.fetch _ _) => false
  | .fetchAdd _ _ => true
  | _ => false

/-- The consumer has cleared the value and has not counted the read yet. -/
def Consumer.clears : Consumer → Bool
  | .fetchAdd (.fetch _ _) => true
  | _ => false

/-- The read count while the write numbered `w` is under way. -/
def Near (w : Nat) (v : I32) : Prop := v = i32 w ∨ ∃ u, w = u + 1 ∧ v = i32 u

/-- The handler of `async_write`. -/
structure Parked (w : Nat) (sh : Shared V) (h : Nat) : Prop where
  body : sh.readBodies[h]? = some (.asyncWrite (i32 w))
  lastSeen : ∃ u, w = u + 1 ∧ sh.readCount.handlers[h]? = some (i32 u)

/-- The handler of `await_not_equal` in `write`. -/
structure Polling (w : Nat) (sh : Shared V) (h : Nat) : Prop where
  body : sh.readBodies[h]? = some .resume
  lastSeen : ∃ u, w = u + 1 ∧ sh.readCount.handlers[h]? = some (i32 u)
  told : ∀ v, (h, .ok v) ∈ sh.readCount.invoked → Near w v

def ProducerAt (w r : Nat) (sh : Shared V) : Producer V → Prop
  | .activeRead _ _ writeCount => writeCount = i32 w
  | .isClosed _ _ | .setValue _ _ | .loadLastSeen => w = r
  | .fetchAdd lastSeen pc =>
    (pc = .fetch .add 1 ∧ w = r ∧ ∀ l, lastSeen = some l → l = i32 r) ∨
      ∃ u, w = u + 1 ∧ Announces (i32 u) (i32 w) pc ∧ ∀ l, lastSeen = some l → l = i32 u
  | .asyncWait h pc =>
    Parked w sh h ∧ pc.stage = .wait h .ret ∧ (∀ h' k, pc ≠ .awaitResult h' k) ∧
      ∀ v ∈ tells (.running 0 pc), v = i32 w ∧ r = w
  | .awaitHandler h => Parked w sh h
  | .awaitLoad target => target = i32 w
  | .awaitNotEqual target pc =>
    target = i32 w ∧ ∃ h, pc.stage = .wait h .awaitNotEqual ∧ Polling w sh h ∧
      ∀ v ∈ tells (.running 0 pc), Near w v
  | .closing pc => Closes pc
  | _ => True

def ConsumerAt (w r : Nat) : Consumer → Prop
  | .asyncWait h pc => pc.stage = .wait h .ret
  | .awaitNotEqual pc => ∃ h, pc.stage = .wait h .awaitNotEqual
  | .activeRead writeCount => ∃ n, r ≤ n ∧ n ≤ w ∧ writeCount = i32 n
  | .clearValue => r < w
  | .fetchAdd pc =>
    (pc = .fetch .add 1 ∧ r < w) ∨ ∃ u, r = u + 1 ∧ Announces (i32 u) (i32 r) pc
  | .closing pc _ => Closes pc
  | _ => True

/-! ## The invariant -/

structure Counts (w r : Nat) (sh : Shared V) : Prop where
  writeCount : sh.writeCount.value = i32 w
  readCount : sh.readCount.value = i32 r
  order : r ≤ w ∧ w ≤ r + 1
  bound : w < 2 ^ 31
  readBodies : sh.readBodies.length = sh.readCount.handlers.length
  writeBodies : sh.writeBodies.length = sh.writeCount.handlers.length
  posted : ∀ h v target, (h, .ok v) ∈ sh.readCount.invoked →
    sh.readBodies[h]? = some (.asyncWrite target) → v = target
  asked : ∀ (h : Nat) observed, sh.writeBodies[h]? = some (.asyncRead observed) → Known r observed
  readers : ∀ (h : Nat) target, sh.writeBodies[h]? ≠ some (.asyncWrite target)
  writers : ∀ (h : Nat) observed, sh.readBodies[h]? ≠ some (.asyncRead observed)

structure Slots (w r : Nat) (sh : Shared V) (p : Producer V) (q : Consumer) : Prop
    extends Counts w r sh where
  value : p.offers = true → sh.value = none → (p.counted = true ∧ r = w) ∨ q.clears = true
  producer : ∀ (h : Nat) target, sh.readBodies[h]? = some (.asyncWrite target) →
    timesInvoked h sh.readCount = 0 → p.posted = some h
  consumer : ∀ (h : Nat) observed, sh.writeBodies[h]? = some (.asyncRead observed) →
    timesInvoked h sh.writeCount = 0 → q.asked = some h

def calls (c : Count) (p : Producer V) (q : Consumer) (ks : List Closer) :
    List (Watch.Local I32) :=
  p.call c :: q.call c :: ks.map (Closer.call c)

structure Kept (w r : Nat) (sh : Shared V) (p : Producer V) (q : Consumer) (ks : List Closer) :
    Prop where
  slots : Slots w r sh p q
  read : Used (Known r) .kClosed sh.readCount (calls .read p q ks)
  write : Used (fun _ => True) .kClosed sh.writeCount (calls .write p q ks)
  producer : ProducerAt w r sh p
  consumer : ConsumerAt w r q
  closers : ∀ k ∈ ks, ∀ c pc, k = .closing c pc → Closes pc

/-! ## What the parties do not look at -/

section Frame

variable {w r : Nat} {sh sh' : Shared V} {p p' : Producer V} {q q' : Consumer}

theorem Counts.congr (k : Counts w r sh) (hr : sh'.readCount = sh.readCount)
    (hw : sh'.writeCount = sh.writeCount) (hrb : sh'.readBodies = sh.readBodies)
    (hwb : sh'.writeBodies = sh.writeBodies) : Counts w r sh' where
  writeCount := hw ▸ k.writeCount
  readCount := hr ▸ k.readCount
  order := k.order
  bound := k.bound
  readBodies := by
    rw [hr, hrb]
    exact k.readBodies
  writeBodies := by
    rw [hw, hwb]
    exact k.writeBodies
  posted := by
    rw [hr, hrb]
    exact k.posted
  asked := by
    rw [hwb]
    exact k.asked
  readers := by
    rw [hwb]
    exact k.readers
  writers := by
    rw [hrb]
    exact k.writers

/-- The watches and the bodies of the handlers are the same. -/
theorem Slots.congr (s : Slots w r sh p q) (hr : sh'.readCount = sh.readCount)
    (hw : sh'.writeCount = sh.writeCount) (hrb : sh'.readBodies = sh.readBodies)
    (hwb : sh'.writeBodies = sh.writeBodies)
    (hv : p'.offers = true → sh'.value = none → (p'.counted = true ∧ r = w) ∨ q'.clears = true)
    (hp : p'.posted = p.posted) (hq : q'.asked = q.asked) : Slots w r sh' p' q' where
  toCounts := s.toCounts.congr hr hw hrb hwb
  value := hv
  producer := by
    rw [hr, hrb, hp]
    exact s.producer
  consumer := by
    rw [hw, hwb, hq]
    exact s.consumer

/-- The producer is at a point where it offers nothing. -/
theorem Slots.idle (s : Slots w r sh p q) (hr : sh'.readCount = sh.readCount)
    (hw : sh'.writeCount = sh.writeCount) (hrb : sh'.readBodies = sh.readBodies)
    (hwb : sh'.writeBodies = sh.writeBodies) (hoffers : p'.offers = false)
    (hp : p'.posted = p.posted) (hq : q'.asked = q.asked) : Slots w r sh' p' q' := by
  refine s.congr hr hw hrb hwb (fun h => ?_) hp hq
  rw [hoffers] at h
  cases h

theorem Parked.congr (k : Parked w sh h) (hrb : sh'.readBodies = sh.readBodies)
    (hh : sh'.readCount.handlers = sh.readCount.handlers) : Parked w sh' h :=
  ⟨hrb ▸ k.body, hh ▸ k.lastSeen⟩

theorem Counts.near (k : Counts w r sh) : Near w (i32 r) := by
  obtain ⟨hle, hge⟩ := k.order
  by_cases hr : r = w
  · exact .inl (hr ▸ rfl)
  · exact .inr ⟨r, by omega, rfl⟩

theorem Polling.congr (k : Polling w sh h) (hrb : sh'.readBodies = sh.readBodies)
    (hh : sh'.readCount.handlers = sh.readCount.handlers)
    (hinv : ∀ v, (h, .ok v) ∈ sh'.readCount.invoked →
      (h, .ok v) ∈ sh.readCount.invoked ∨ Near w v) : Polling w sh' h where
  body := hrb ▸ k.body
  lastSeen := hh ▸ k.lastSeen
  told := by
    intro v hv
    rcases hinv v hv with hv | hv
    · exact k.told v hv
    · exact hv

/-- The handlers of the producer are given nothing but the read count by the others. -/
theorem ProducerAt.congr (k : ProducerAt w r sh p) (hrb : sh'.readBodies = sh.readBodies)
    (hh : sh'.readCount.handlers = sh.readCount.handlers)
    (hinv : ∀ h v, (h, .ok v) ∈ sh'.readCount.invoked →
      (h, .ok v) ∈ sh.readCount.invoked ∨ Near w v) : ProducerAt w r sh' p := by
  cases p with
  | asyncWait h pc => exact ⟨k.1.congr hrb hh, k.2⟩
  | awaitHandler h => exact Parked.congr k hrb hh
  | awaitNotEqual target pc =>
    obtain ⟨ht, h, hst, hpolling, htells⟩ := k
    exact ⟨ht, h, hst, hpolling.congr hrb hh (hinv h), htells⟩
  | _ => exact k

/-- The consumer has counted a read. -/
theorem ProducerAt.drain (k : ProducerAt w r sh p) (hfull : r < w) : ProducerAt w (r + 1) sh p := by
  have hne : ¬ w = r := by omega
  cases p with
  | isClosed mode v => exact absurd k hne
  | setValue mode v => exact absurd k hne
  | loadLastSeen => exact absurd k hne
  | fetchAdd lastSeen pc =>
    rcases k with ⟨_, hempty, _⟩ | hcounted
    · exact absurd hempty hne
    · exact .inr hcounted
  | asyncWait h pc =>
    obtain ⟨hparked, hst, hon, htells⟩ := k
    exact ⟨hparked, hst, hon, fun v hv => absurd (htells v hv).2.symm hne⟩
  | _ => exact k

/-- The producer has counted a write. -/
theorem ConsumerAt.fill (k : ConsumerAt w r q) : ConsumerAt (w + 1) r q := by
  cases q with
  | activeRead writeCount =>
    obtain ⟨n, hge, hle, hn⟩ := k
    exact ⟨n, hge, Nat.le_succ_of_le hle, hn⟩
  | clearValue => exact Nat.lt_succ_of_lt k
  | fetchAdd pc =>
    rcases k with ⟨hpc, hlt⟩ | htold
    · exact .inl ⟨hpc, Nat.lt_succ_of_lt hlt⟩
    · exact .inr htold
  | _ => exact k

/-- Before a write is counted the channel is empty. -/
theorem ProducerAt.empty (k : ProducerAt w r sh p) (hoffers : p.offers = true)
    (hcounted : p.counted = false) : w = r := by
  cases p with
  | loadLastSeen => exact k
  | fetchAdd lastSeen pc =>
    rcases k with ⟨rfl, hempty, _⟩ | ⟨u, _, htold, _⟩
    · exact hempty
    · cases htold <;> cases hcounted
  | _ => cases hoffers

end Frame

/-! ## Accesses to the watches -/

section Access

variable {w r : Nat} {sh sh' : Shared V} {c : Count} {pc pc' : Watch.Pc I32}
variable {p : Producer V} {q : Consumer}

theorem ran_keeps (ran : Ran sh c pc sh' pc') (hs : Steady pc) (d : Count) :
    (sh'.watch d).value = (sh.watch d).value ∧ (sh'.watch d).handlers = (sh.watch d).handlers := by
  by_cases hd : d = c
  · subst hd
    exact trans_steady hs ran.trans
  · rw [ran.other d hd]
    exact ⟨rfl, rfl⟩

theorem ran_invoked_mono (ran : Ran sh c pc sh' pc') (d : Count) :
    (sh.watch d).invoked <+: (sh'.watch d).invoked := by
  by_cases hd : d = c
  · subst hd
    exact trans_invoked_prefix ran.trans
  · exact (ran.other d hd).symm ▸ List.prefix_refl (sh.watch d).invoked

theorem timesInvoked_of_mono {a b : Watch.Shared I32} (hp : a.invoked <+: b.invoked)
    (hb : timesInvoked h b = 0) : timesInvoked h a = 0 := by
  obtain ⟨t, ht⟩ := hp
  unfold timesInvoked at *
  rw [← ht, List.map_append, List.count_append] at hb
  omega

theorem ran_invoked (ran : Ran sh c pc sh' pc') {v : I32} (he : (h, .ok v) ∈ sh'.readCount.invoked)
    :
    (h, .ok v) ∈ sh.readCount.invoked ∨ c = .read ∧ Invokes h (.ok v) pc := by
  cases c with
  | write =>
    rw [ran.read_same] at he
    exact .inl he
  | read =>
    cases ran.fired with
    | nobody invoked value =>
      rw [show sh'.readCount.invoked = sh.readCount.invoked from invoked] at he
      exact .inl he
    | handler h' result invokes invoked value =>
      rw [show sh'.readCount.invoked = sh.readCount.invoked ++ [(h', result)] from invoked] at he
      rcases List.mem_append.mp he with he | he
      · exact .inl he
      · cases List.mem_singleton.mp he
        exact .inr ⟨rfl, invokes⟩

/-- A handler that is invoked has not been invoked before. -/
theorem not_invoked_of_invokes {ls : List (Watch.Local I32)} (s : Sound (sh.watch c) ls)
    (hl : .running 0 pc ∈ ls) {result : StatusOr I32} (hi : Invokes h result pc) :
    timesInvoked h (sh.watch c) = 0 := by
  have hheld := le_total (held h) hl
  have hpos := hi.held 0
  have hloc := s.located h
  unfold inShared passedN at hloc
  split at hloc <;> omega

/-- What an access that makes no update leaves to the parties. -/
theorem slots_ran {ls : List (Watch.Local I32)} (s : Slots w r sh p q)
    (hsound : Sound (sh.watch c) ls) (hl : .running 0 pc ∈ ls) (ran : Ran sh c pc sh' pc')
    (hs : Steady pc) : Slots w r sh' p q where
  writeCount := (ran_keeps ran hs .write).1.trans s.writeCount
  readCount := (ran_keeps ran hs .read).1.trans s.readCount
  order := s.order
  bound := s.bound
  readBodies := by
    rw [show sh'.readBodies = sh.readBodies from ran.bodies .read,
      show sh'.readCount.handlers = sh.readCount.handlers from (ran_keeps ran hs .read).2]
    exact s.readBodies
  writeBodies := by
    rw [show sh'.writeBodies = sh.writeBodies from ran.bodies .write,
      show sh'.writeCount.handlers = sh.writeCount.handlers from (ran_keeps ran hs .write).2]
    exact s.writeBodies
  posted := by
    intro h v target he hbody
    rw [show sh'.readBodies = sh.readBodies from ran.bodies .read] at hbody
    cases c with
    | write =>
      rw [ran.read_same] at he
      exact s.posted h v target he hbody
    | read =>
      cases ran.fired with
      | nobody invoked value =>
        rw [show sh'.readCount.invoked = sh.readCount.invoked from invoked] at he
        exact s.posted h v target he hbody
      | handler h' result invokes invoked value =>
        rw [show sh'.readCount.invoked = sh.readCount.invoked ++ [(h', result)] from invoked] at he
        rcases List.mem_append.mp he with he | he
        · exact s.posted h v target he hbody
        · cases List.mem_singleton.mp he
          rcases value with ⟨hnot, _⟩ | ⟨target', hbody', _, htarget⟩
          · exact absurd hbody (hnot target)
          · have heq : some (Body.asyncWrite target') = some (.asyncWrite target) :=
              hbody'.symm.trans hbody
            cases heq
            exact htarget v rfl
  asked := by
    rw [show sh'.writeBodies = sh.writeBodies from ran.bodies .write]
    exact s.asked
  readers := by
    rw [show sh'.writeBodies = sh.writeBodies from ran.bodies .write]
    exact s.readers
  writers := by
    rw [show sh'.readBodies = sh.readBodies from ran.bodies .read]
    exact s.writers
  value := by
    intro hoffers hnone
    cases ran.fired with
    | nobody invoked value => exact s.value hoffers (value ▸ hnone)
    | handler h result invokes invoked value =>
      rcases value with ⟨_, hvalue⟩ | ⟨target, hbody, _, _⟩
      · exact s.value hoffers (hvalue ▸ hnone)
      · -- the handler of `async_write` is invoked: the producer waits for it
        cases c with
        | write => exact absurd hbody (s.readers h target)
        | read =>
          have hposted := s.producer h target hbody (not_invoked_of_invokes hsound hl invokes)
          cases p with
          | loadLastSeen => cases hposted
          | fetchAdd => cases hposted
          | _ => cases hoffers
  producer := by
    intro h target hbody hzero
    rw [show sh'.readBodies = sh.readBodies from ran.bodies .read] at hbody
    exact s.producer h target hbody (timesInvoked_of_mono (ran_invoked_mono ran .read) hzero)
  consumer := by
    intro h observed hbody hzero
    rw [show sh'.writeBodies = sh.writeBodies from ran.bodies .write] at hbody
    exact s.consumer h observed hbody
      (timesInvoked_of_mono (ran_invoked_mono ran .write) hzero)

/-- The store of `fetch_add(1)`. -/
theorem ran_fetch (ran : Ran sh c (.fetch .add 1) sh' pc') :
    sh'.watch c = (sh.watch c).update 0 ((sh.watch c).value + 1) ∧
      pc' = .notifyLoad ((sh.watch c).value + 1) (.value (sh.watch c).value) ∧
      sh'.value = sh.value := by
  have hvalue : sh'.value = sh.value := by
    cases ran.fired with
    | nobody invoked value => exact value
    | handler h result invokes => cases invokes
  have ht := ran.trans
  generalize sh'.watch c = w' at ht
  cases ht with
  | @update _ newValue changed applied same told =>
    cases applied
    cases changed with
    | false => exact absurd (same rfl).symm (i32_ne_add_one _)
    | true => exact ⟨rfl, rfl, hvalue⟩

end Access

end Batt.Channel
