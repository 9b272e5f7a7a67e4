/-
  Whose turn it is.

  The counts are numbers `w` and `r` with `r ≤ w ≤ r + 1`. The channel is empty where they
  are equal and full otherwise; only the producer fills it and only the consumer empties
  it. `ProducerOk` and `ConsumerOk` say for each program point which of the two it is, what
  the party knows of the counts, and how many values have been written, read, consumed and
  completed. The handler a party has passed to the other's count is followed by the
  `Flight` of that watch.
-/
import Batt.Channel.Model
import Batt.Watch.Counter

namespace Batt.Channel

open Watch

/-! ## Counts -/

def i32 (n : Nat) : I32 := BitVec.ofNat 32 n

theorem i32_add_one (n : Nat) : i32 n + 1 = i32 (n + 1) := by
  unfold i32
  rw [BitVec.ofNat_add]
  rfl

theorem i32_inj {a b : Nat} (ha : a < 2 ^ 31) (hb : b < 2 ^ 31) (h : i32 a = i32 b) : a = b := by
  have := congrArg BitVec.toNat h
  simp only [i32, BitVec.toNat_ofNat] at this
  omega

variable {n : Nat}

theorem i32_toInt (h : n < 2 ^ 31) : (i32 n).toInt = n := by
  unfold i32
  rw [BitVec.toInt_ofNat', Int.bmod_eq_of_le] <;> omega

theorem i32_sub_self (n : Nat) : i32 n - i32 n = 0 := BitVec.sub_self _

theorem i32_succ_sub_self (n : Nat) : i32 (n + 1) - i32 n = 1 := by
  rw [← i32_add_one, BitVec.add_comm, BitVec.add_sub_cancel]

theorem i32_ne_add_one (v : I32) : v ≠ v + 1 := by
  intro h
  have hnat := congrArg BitVec.toNat h
  rw [BitVec.toNat_add] at hnat
  have hone : (1 : I32).toNat = 1 := rfl
  have := v.isLt
  omega

theorem ne_i32Max (h : i32 n ≠ i32Max) (hn : n < 2 ^ 31) : n + 1 < 2 ^ 31 := by
  by_contra hlt
  obtain rfl : n = 2 ^ 31 - 1 := by omega
  exact h rfl

/-! ## The producer -/

variable {V : Type} {p : Producer V} {strict : Bool}

/-- A write that has not been counted. -/
structure Uncounted (w r : Nat) (sh : Shared V) (v : V) : Prop where
  empty : w = r
  written : sh.written.length = w + 1
  last : sh.written[w]? = some v
  completed : sh.completed = w

/-- A write that has been counted and has not completed. -/
structure Counted (w : Nat) (sh : Shared V) : Prop where
  written : sh.written.length = w
  completed : sh.completed + 1 = w

/-- The handler of `async_write`. -/
structure Posted (w r : Nat) (sh : Shared V) (h : Nat) : Prop where
  written : sh.written.length = w
  lastSeen : ∃ l, w = l + 1 ∧ sh.readCount.handlers[h]? = some (i32 l)
  body : sh.readBodies[h]? = some (.asyncWrite (i32 w))
  waiting : sh.readCount.invoked.lookup h = none → sh.completed + 1 = w
  done : sh.readCount.invoked.lookup h ≠ none → sh.completed = w ∧ w = r

/-- The handler of `await_not_equal` in `write`. -/
structure Polled (w : Nat) (sh : Shared V) (h : Nat) : Prop where
  lastSeen : ∃ l, w = l + 1 ∧ sh.readCount.handlers[h]? = some (i32 l)
  body : sh.readBodies[h]? = some .resume

/-- Where the producer is: `a` is its `fetch_add` on the write count, `o` its wait on the
    read count, `strict` whether a stale count would be wrong there. -/
def ProducerOk (w r : Nat) (sh : Shared V) :
    Producer V → Option (AddAt I32) → Option (WaitAt I32) → Bool → Prop
  | .idle, a, o, _ =>
    a = none ∧ o = none ∧ w = r ∧ sh.written.length = w ∧ sh.completed = w
  | .activeWrite _ v, a, o, _ => a = none ∧ o = none ∧ Uncounted w r sh v
  | .activeRead _ v writeCount, a, o, _ =>
    a = none ∧ o = none ∧ Uncounted w r sh v ∧ writeCount = i32 w
  | .isClosed _ v, a, o, _ => a = none ∧ o = none ∧ Uncounted w r sh v
  | .setValue _ v, a, o, _ => a = none ∧ o = none ∧ Uncounted w r sh v
  | .loadLastSeen, a, o, _ =>
    a = none ∧ o = none ∧ ∃ v, Uncounted w r sh v ∧ sh.value = some v
  | .fetchAdd lastSeen pc, a, o, _ =>
    o = none ∧ ∃ x, a = some x ∧ Adds 1 pc x ∧
      ((x = .before ∧ (∃ v, Uncounted w r sh v ∧ sh.value = some v) ∧
          ∀ l, lastSeen = some l → l = i32 r) ∨
        (x ≠ .before ∧ Counted w sh ∧ ∀ l, lastSeen = some l → ∃ m, w = m + 1 ∧ l = i32 m))
  | .asyncWait h pc, a, o, strict =>
    a = none ∧ strict = true ∧ (∃ x, o = some x ∧ Awaits .ret pc x ∧ x.handler = h) ∧
      Posted w r sh h
  | .awaitHandler h, a, o, strict =>
    a = none ∧ strict = true ∧ o = some (.armed h) ∧ Posted w r sh h
  | .awaitLoad target, a, o, _ => a = none ∧ o = none ∧ target = i32 w ∧ Counted w sh
  | .awaitNotEqual target pc, a, o, strict =>
    a = none ∧ strict = false ∧ target = i32 w ∧ Counted w sh ∧
      ∃ x, o = some x ∧ Awaits .awaitNotEqual pc x ∧ Polled w sh x.handler
  | .closing _, _, _, _ => False

/-! ## The consumer -/

/-- The consumer has read `n` values and consumed `m`. -/
structure Tally (sh : Shared V) (n m : Nat) : Prop where
  reads : sh.reads.length = n
  consumed : sh.consumed = m

/-- The handler of `async_read`. -/
structure Asked (w r : Nat) (sh : Shared V) (h : Nat) : Prop where
  lastSeen : sh.writeCount.handlers[h]? = some (i32 r)
  body : sh.writeBodies[h]? = some (.asyncRead (i32 r))
  waiting : sh.writeCount.invoked.lookup h = none → Tally sh r r
  done : sh.writeCount.invoked.lookup h ≠ none → Tally sh (r + 1) r ∧ w = r + 1

/-- The handler of `await_not_equal` in `read`. -/
structure Watched (r : Nat) (sh : Shared V) (h : Nat) : Prop where
  lastSeen : sh.writeCount.handlers[h]? = some (i32 r)
  body : sh.writeBodies[h]? = some .resume
  tally : Tally sh r r

/-- Where the consumer is: `a` is its `fetch_add` on the read count, `o` its wait on the
    write count. -/
def ConsumerOk (w r : Nat) (sh : Shared V) :
    Consumer → Option (AddAt I32) → Option (WaitAt I32) → Prop
  | .idle, a, o => a = none ∧ o = none ∧ Tally sh r r
  | .isClosed, a, o => a = none ∧ o = none ∧ Tally sh r r
  | .loadWrite, a, o => a = none ∧ o = none ∧ Tally sh r r
  | .loadRead observed, a, o =>
    a = none ∧ o = none ∧ Tally sh r r ∧ (observed = i32 r ∨ (observed = i32 w ∧ w = r + 1))
  | .asyncWait h pc, a, o =>
    a = none ∧ (∃ x, o = some x ∧ Awaits .ret pc x ∧ x.handler = h) ∧ Asked w r sh h
  | .awaitHandler h, a, o => a = none ∧ o = some (.armed h) ∧ Asked w r sh h
  | .readLoad, a, o => a = none ∧ o = none ∧ Tally sh r r
  | .awaitNotEqual pc, a, o =>
    a = none ∧ ∃ x, o = some x ∧ Awaits .awaitNotEqual pc x ∧ Watched r sh x.handler
  | .deref, a, o => a = none ∧ o = none ∧ Tally sh r r ∧ w = r + 1
  | .holding, a, o => a = none ∧ o = none ∧ Tally sh (r + 1) r ∧ w = r + 1
  | .activeWrite, a, o => a = none ∧ o = none ∧ Tally sh (r + 1) r ∧ w = r + 1
  | .activeRead writeCount, a, o =>
    a = none ∧ o = none ∧ Tally sh (r + 1) r ∧ w = r + 1 ∧ writeCount = i32 w
  | .clearValue, a, o => a = none ∧ o = none ∧ Tally sh (r + 1) r ∧ w = r + 1
  | .fetchAdd pc, a, o =>
    o = none ∧ ∃ x, a = some x ∧ Adds 1 pc x ∧
      ((x = .before ∧ Tally sh (r + 1) (r + 1) ∧ w = r + 1) ∨ (x ≠ .before ∧ Tally sh r r))
  | .closing _ _, _, _ => False

/-! ## Both -/

structure Rel (w r : Nat) (aw : Option (AddAt I32)) (ow : Option (WaitAt I32))
    (ar : Option (AddAt I32)) (or : Option (WaitAt I32)) (strict : Bool) (sh : Shared V)
    (p : Producer V) (q : Consumer) : Prop where
  safe : sh.failure = none
  readBodies : sh.readBodies.length = sh.readCount.handlers.length
  writeBodies : sh.writeBodies.length = sh.writeCount.handlers.length
  writeCount : sh.writeCount.value = i32 w
  readCount : sh.readCount.value = i32 r
  bound : w < 2 ^ 31
  order : r ≤ w ∧ w ≤ r + 1
  reads : sh.reads <+: sh.written
  value : w = r + 1 → ar ≠ some .before → sh.value = sh.written[r]?
  writeFlight : Flight sh.writeCount aw ow true
  readFlight : Flight sh.readCount ar or strict
  producer : ProducerOk w r sh p aw or strict
  consumer : ConsumerOk w r sh q ar ow

def Inv (sh : Shared V) (p : Producer V) (q : Consumer) : Prop :=
  ∃ w r aw ow ar or strict, Rel w r aw ow ar or strict sh p q

/-! ## What a party does not look at -/

section Frame

variable {w r : Nat} {sh sh' : Shared V} {a : Option (AddAt I32)} {o : Option (WaitAt I32)}

theorem Uncounted.congr {v : V} (h : Uncounted w r sh v) (hw : sh'.written = sh.written)
    (hc : sh'.completed = sh.completed) : Uncounted w r sh' v :=
  ⟨h.empty, hw ▸ h.written, hw ▸ h.last, hc ▸ h.completed⟩

theorem Counted.congr (h : Counted w sh) (hw : sh'.written = sh.written)
    (hc : sh'.completed = sh.completed) : Counted w sh' :=
  ⟨hw ▸ h.written, hc ▸ h.completed⟩

theorem Posted.congr (h : Posted w r sh n) (hw : sh'.written = sh.written)
    (hc : sh'.completed = sh.completed)
    (hh : sh'.readCount.handlers = sh.readCount.handlers)
    (hi : sh'.readCount.invoked = sh.readCount.invoked)
    (hb : sh'.readBodies = sh.readBodies) : Posted w r sh' n := by
  refine ⟨hw ▸ h.written, hh ▸ h.lastSeen, hb ▸ h.body, ?_, ?_⟩
  · rw [hi, hc]
    exact h.waiting
  · rw [hi, hc]
    exact h.done

theorem Polled.congr (h : Polled w sh n) (hh : sh'.readCount.handlers = sh.readCount.handlers)
    (hb : sh'.readBodies = sh.readBodies) : Polled w sh' n :=
  ⟨hh ▸ h.lastSeen, hb ▸ h.body⟩

theorem Tally.congr {m : Nat} (h : Tally sh n m) (hr : sh'.reads = sh.reads)
    (hc : sh'.consumed = sh.consumed) : Tally sh' n m :=
  ⟨hr ▸ h.reads, hc ▸ h.consumed⟩

theorem Asked.congr (h : Asked w r sh n) (hr : sh'.reads = sh.reads)
    (hc : sh'.consumed = sh.consumed)
    (hh : sh'.writeCount.handlers = sh.writeCount.handlers)
    (hi : sh'.writeCount.invoked = sh.writeCount.invoked)
    (hb : sh'.writeBodies = sh.writeBodies) : Asked w r sh' n := by
  refine ⟨hh ▸ h.lastSeen, hb ▸ h.body, ?_, ?_⟩
  · rw [hi]
    exact fun hn => (h.waiting hn).congr hr hc
  · rw [hi]
    exact fun hn => ⟨(h.done hn).1.congr hr hc, (h.done hn).2⟩

theorem Watched.congr (h : Watched r sh n) (hr : sh'.reads = sh.reads)
    (hc : sh'.consumed = sh.consumed)
    (hh : sh'.writeCount.handlers = sh.writeCount.handlers)
    (hb : sh'.writeBodies = sh.writeBodies) : Watched r sh' n :=
  ⟨hh ▸ h.lastSeen, hb ▸ h.body, h.tally.congr hr hc⟩

theorem ProducerOk.congr (h : ProducerOk w r sh p a o strict) (hw : sh'.written = sh.written)
    (hc : sh'.completed = sh.completed)
    (hv : w = r → sh'.value = sh.value)
    (hh : sh'.readCount.handlers = sh.readCount.handlers)
    (hi : sh'.readCount.invoked = sh.readCount.invoked)
    (hb : sh'.readBodies = sh.readBodies) : ProducerOk w r sh' p a o strict := by
  cases p with
  | idle => exact ⟨h.1, h.2.1, h.2.2.1, hw ▸ h.2.2.2.1, hc ▸ h.2.2.2.2⟩
  | activeWrite mode v => exact ⟨h.1, h.2.1, h.2.2.congr hw hc⟩
  | activeRead mode v writeCount => exact ⟨h.1, h.2.1, h.2.2.1.congr hw hc, h.2.2.2⟩
  | isClosed mode v => exact ⟨h.1, h.2.1, h.2.2.congr hw hc⟩
  | setValue mode v => exact ⟨h.1, h.2.1, h.2.2.congr hw hc⟩
  | loadLastSeen =>
    obtain ⟨ha, ho, v, hu, hval⟩ := h
    exact ⟨ha, ho, v, hu.congr hw hc, (hv hu.empty).trans hval⟩
  | fetchAdd lastSeen pc =>
    obtain ⟨ho, x, ha, hadds, ⟨hx, ⟨v, hu, hval⟩, hl⟩ | ⟨hx, hcnt, hl⟩⟩ := h
    · exact ⟨ho, x, ha, hadds, .inl ⟨hx, ⟨v, hu.congr hw hc, (hv hu.empty).trans hval⟩, hl⟩⟩
    · exact ⟨ho, x, ha, hadds, .inr ⟨hx, hcnt.congr hw hc, hl⟩⟩
  | asyncWait n pc => exact ⟨h.1, h.2.1, h.2.2.1, h.2.2.2.congr hw hc hh hi hb⟩
  | awaitHandler n => exact ⟨h.1, h.2.1, h.2.2.1, h.2.2.2.congr hw hc hh hi hb⟩
  | awaitLoad target => exact ⟨h.1, h.2.1, h.2.2.1, h.2.2.2.congr hw hc⟩
  | awaitNotEqual target pc =>
    obtain ⟨ha, hs, ht, hcnt, x, ho, hwaits, hpolled⟩ := h
    exact ⟨ha, hs, ht, hcnt.congr hw hc, x, ho, hwaits, hpolled.congr hh hb⟩
  | closing pc => exact h

theorem ConsumerOk.congr {q : Consumer} (h : ConsumerOk w r sh q a o)
    (hr : sh'.reads = sh.reads) (hc : sh'.consumed = sh.consumed)
    (hh : sh'.writeCount.handlers = sh.writeCount.handlers)
    (hi : sh'.writeCount.invoked = sh.writeCount.invoked)
    (hb : sh'.writeBodies = sh.writeBodies) : ConsumerOk w r sh' q a o := by
  cases q with
  | idle => exact ⟨h.1, h.2.1, h.2.2.congr hr hc⟩
  | isClosed => exact ⟨h.1, h.2.1, h.2.2.congr hr hc⟩
  | loadWrite => exact ⟨h.1, h.2.1, h.2.2.congr hr hc⟩
  | loadRead observed => exact ⟨h.1, h.2.1, h.2.2.1.congr hr hc, h.2.2.2⟩
  | asyncWait n pc => exact ⟨h.1, h.2.1, h.2.2.congr hr hc hh hi hb⟩
  | awaitHandler n => exact ⟨h.1, h.2.1, h.2.2.congr hr hc hh hi hb⟩
  | readLoad => exact ⟨h.1, h.2.1, h.2.2.congr hr hc⟩
  | awaitNotEqual pc =>
    obtain ⟨ha, x, ho, hwaits, hwatched⟩ := h
    exact ⟨ha, x, ho, hwaits, hwatched.congr hr hc hh hb⟩
  | deref => exact ⟨h.1, h.2.1, h.2.2.1.congr hr hc, h.2.2.2⟩
  | holding => exact ⟨h.1, h.2.1, h.2.2.1.congr hr hc, h.2.2.2⟩
  | activeWrite => exact ⟨h.1, h.2.1, h.2.2.1.congr hr hc, h.2.2.2⟩
  | activeRead writeCount => exact ⟨h.1, h.2.1, h.2.2.1.congr hr hc, h.2.2.2⟩
  | clearValue => exact ⟨h.1, h.2.1, h.2.2.1.congr hr hc, h.2.2.2⟩
  | fetchAdd pc =>
    obtain ⟨ho, x, ha, hadds, ⟨hx, ht, hfull⟩ | ⟨hx, ht⟩⟩ := h
    · exact ⟨ho, x, ha, hadds, .inl ⟨hx, ht.congr hr hc, hfull⟩⟩
    · exact ⟨ho, x, ha, hadds, .inr ⟨hx, ht.congr hr hc⟩⟩
  | closing pc held => exact h

end Frame

/-! ## The turn passes -/

section Turn

variable {w r : Nat} {sh : Shared V} {a : Option (AddAt I32)} {o : Option (WaitAt I32)}

/-- The consumer waits for the write count to leave the read count. -/
theorem ConsumerOk.lastSeen {q : Consumer} {x : WaitAt I32}
    (h : ConsumerOk w r sh q a (some x)) :
    sh.writeCount.handlers[x.handler]? = some (i32 r) := by
  cases q with
  | asyncWait n pc =>
    obtain ⟨_, ⟨y, hy, _, rfl⟩, hasked⟩ := h
    cases hy
    exact hasked.lastSeen
  | awaitHandler n =>
    obtain ⟨_, hx, hasked⟩ := h
    cases hx
    exact hasked.lastSeen
  | awaitNotEqual pc =>
    obtain ⟨_, y, hy, _, hwatched⟩ := h
    cases hy
    exact hwatched.lastSeen
  | fetchAdd pc => exact absurd h.1 (by simp)
  | closing pc held => exact h.elim
  | _ => exact absurd h.2.1 (by simp)

/-- The producer waits for the read count to reach the write count. -/
theorem ProducerOk.lastSeen {x : WaitAt I32} (h : ProducerOk w r sh p a (some x) strict) :
    ∃ l, w = l + 1 ∧ sh.readCount.handlers[x.handler]? = some (i32 l) := by
  cases p with
  | asyncWait n pc =>
    obtain ⟨_, _, ⟨y, hy, _, rfl⟩, hposted⟩ := h
    cases hy
    exact hposted.lastSeen
  | awaitHandler n =>
    obtain ⟨_, _, hx, hposted⟩ := h
    cases hx
    exact hposted.lastSeen
  | awaitNotEqual target pc =>
    obtain ⟨_, _, _, _, y, hy, _, hpolled⟩ := h
    cases hy
    exact hpolled.lastSeen
  | fetchAdd lastSeen pc => exact absurd h.1 (by simp)
  | closing pc => exact h.elim
  | _ => exact absurd h.2.1 (by simp)

/-- Every counted write is in the list. -/
theorem ProducerOk.written (h : ProducerOk w r sh p a o strict) : w ≤ sh.written.length := by
  cases p with
  | idle =>
    obtain ⟨_, _, _, hw, _⟩ := h
    omega
  | activeWrite mode v | isClosed mode v | setValue mode v =>
    have := h.2.2.written
    omega
  | activeRead mode v writeCount =>
    have := h.2.2.1.written
    omega
  | loadLastSeen =>
    obtain ⟨_, _, v, hu, _⟩ := h
    have := hu.written
    omega
  | fetchAdd lastSeen pc =>
    obtain ⟨_, _, _, _, ⟨_, ⟨v, hu, _⟩, _⟩ | ⟨_, hcnt, _⟩⟩ := h
    · have := hu.written
      omega
    · exact Nat.le_of_eq hcnt.written.symm
  | asyncWait n pc => exact Nat.le_of_eq h.2.2.2.written.symm
  | awaitHandler n => exact Nat.le_of_eq h.2.2.2.written.symm
  | awaitLoad target => exact Nat.le_of_eq h.2.2.2.written.symm
  | awaitNotEqual target pc => exact Nat.le_of_eq h.2.2.2.1.written.symm
  | closing pc => exact h.elim

/-- The producer has filled the channel. -/
theorem ConsumerOk.fill {q : Consumer} (h : ConsumerOk r r sh q a o) :
    ConsumerOk (r + 1) r sh q a o := by
  have hne : ¬ r = r + 1 := by omega
  cases q with
  | loadRead observed =>
    obtain ⟨ha, ho, ht, hobs | ⟨_, hfull⟩⟩ := h
    · exact ⟨ha, ho, ht, .inl hobs⟩
    · exact absurd hfull hne
  | asyncWait n pc =>
    obtain ⟨ha, ho, hasked⟩ := h
    exact ⟨ha, ho, hasked.lastSeen, hasked.body, hasked.waiting,
      fun hn => absurd (hasked.done hn).2 hne⟩
  | awaitHandler n =>
    obtain ⟨ha, ho, hasked⟩ := h
    exact ⟨ha, ho, hasked.lastSeen, hasked.body, hasked.waiting,
      fun hn => absurd (hasked.done hn).2 hne⟩
  | deref | holding | activeWrite | clearValue => exact absurd h.2.2.2 hne
  | activeRead writeCount => exact absurd h.2.2.2.1 hne
  | fetchAdd pc =>
    obtain ⟨ho, x, ha, hadds, ⟨_, _, hfull⟩ | htold⟩ := h
    · exact absurd hfull hne
    · exact ⟨ho, x, ha, hadds, .inr htold⟩
  | _ => exact h

/-- The consumer has emptied it. -/
theorem ProducerOk.drain (h : ProducerOk (r + 1) r sh p a o strict) :
    ProducerOk (r + 1) (r + 1) sh p a o strict := by
  have hne : ¬ r + 1 = r := by omega
  cases p with
  | idle => exact absurd h.2.2.1 hne
  | activeWrite mode v | isClosed mode v | setValue mode v => exact absurd h.2.2.empty hne
  | activeRead mode v writeCount => exact absurd h.2.2.1.empty hne
  | loadLastSeen =>
    obtain ⟨_, _, v, hu, _⟩ := h
    exact absurd hu.empty hne
  | fetchAdd lastSeen pc =>
    obtain ⟨ho, x, ha, hadds, ⟨_, ⟨v, hu, _⟩, _⟩ | htold⟩ := h
    · exact absurd hu.empty hne
    · exact ⟨ho, x, ha, hadds, .inr htold⟩
  | asyncWait n pc =>
    obtain ⟨ha, hs, ho, hposted⟩ := h
    exact ⟨ha, hs, ho, hposted.written, hposted.lastSeen, hposted.body, hposted.waiting,
      fun hn => absurd (hposted.done hn).2 hne⟩
  | awaitHandler n =>
    obtain ⟨ha, hs, ho, hposted⟩ := h
    exact ⟨ha, hs, ho, hposted.written, hposted.lastSeen, hposted.body, hposted.waiting,
      fun hn => absurd (hposted.done hn).2 hne⟩
  | _ => exact h

end Turn

end Batt.Channel
