/-
  What a handler finds when it is invoked.

  `freshProducer` and `freshConsumer` are the condition on a step: a handler that acts on
  the count it is given is not pushed while the other party is still to tell that very
  count, the write count is not taken past the largest `i32`, and the channel is not
  closed. `write` may push at any time, since it compares what it is given with its target
  and waits again.

  Under it `async_read`'s handler finds the channel full and its value there
  (`asked_invoke`), and `async_write`'s handler is given its target (`posted_invoke`),
  whichever party invokes it.
-/
import Batt.Watch.NotEqual
import Batt.Channel.Turns

namespace Batt.Channel

open Watch

variable {V : Type} {pc : Watch.Pc I32} {v : I32} {sh : Shared V} {c : Count}

/-! ## The condition -/

/-- The count a party has stored and not yet told. -/
def telling (pc : Watch.Pc I32) : Option I32 := Watch.carries (.running 0 pc)

def Consumer.telling : Consumer → Option I32
  | .fetchAdd pc => Channel.telling pc
  | _ => none

def Producer.telling : Producer V → Option I32
  | .fetchAdd _ pc => Channel.telling pc
  | _ => none

def freshProducer (sh : Shared V) (q : Consumer) : Act V → Producer V → Bool
  | .closeForWrite, _ => false
  | _, .asyncWait _ (.pushHandler _ lastSeen _ _) => q.telling ≠ some lastSeen
  | _, .fetchAdd _ (.fetch _ _) => sh.writeCount.value ≠ i32Max
  | _, _ => true

def freshConsumer (p : Producer V) : Act V → Consumer → Bool
  | .closeForRead, _ => false
  | _, .asyncWait _ (.pushHandler _ lastSeen _ _) => p.telling ≠ some lastSeen
  | _, .awaitNotEqual (.pushHandler _ lastSeen _ _) => p.telling ≠ some lastSeen
  | _, _ => true

theorem telling_told (h : Adds 1 pc (.told v)) :
    telling pc = some v := by
  cases h <;> rfl

theorem ConsumerOk.telling {w r : Nat} {q : Consumer} {o : Option (WaitAt I32)}
    (h : ConsumerOk w r sh q (some (.told v)) o) : q.telling = some v := by
  cases q with
  | fetchAdd pc =>
    obtain ⟨_, x, hx, hadds, _⟩ := h
    cases hx
    exact telling_told hadds
  | closing pc held => exact h.elim
  | _ => exact absurd h.1 (by simp)

theorem ProducerOk.telling {w r : Nat} {p : Producer V} {strict : Bool} {o : Option (WaitAt I32)}
    (h : ProducerOk w r sh p (some (.told v)) o strict) :
    p.telling = some v := by
  cases p with
  | fetchAdd lastSeen pc =>
    obtain ⟨_, x, hx, hadds, _⟩ := h
    cases hx
    exact telling_told hadds
  | closing pc => exact h.elim
  | _ => exact absurd h.1 (by simp)

/-! ## Steps into a watch -/

/-- The bodies of the handlers invoked on the way from a watch to `w`. -/
def Shared.runInvoked (sh : Shared V) (c : Count) (w : Watch.Shared I32) : Shared V :=
  (w.invoked.drop (sh.watch c).invoked.length).foldl (Shared.runHandler c) (sh.setWatch c w)

theorem runInvoked_same {w : Watch.Shared I32} (h : w.invoked = (sh.watch c).invoked) :
    sh.runInvoked c w = sh.setWatch c w := by
  unfold Shared.runInvoked
  rw [h, List.drop_length]
  rfl

theorem runInvoked_self (sh : Shared V) (c : Count) : sh.runInvoked c (sh.watch c) = sh := by
  rw [runInvoked_same rfl]
  cases c <;> rfl

theorem runInvoked_invoke (sh : Shared V) (c : Count) (h : Nat) (result : StatusOr I32) :
    sh.runInvoked c ((sh.watch c).invoke h result) =
      (sh.setWatch c ((sh.watch c).invoke h result)).runHandler c (h, result) := by
  unfold Shared.runInvoked Watch.Shared.invoke
  rw [List.drop_left]
  rfl

theorem watchStep_exec {sh' : Shared V} {pc' : Watch.Pc I32} (hpc : ∀ arg, pc ≠ .fetch .add arg)
    (h : sh.watchStep c pc = some (sh', pc')) :
    ∃ w, exec true (sh.watch c) 0 pc = some (w, pc') ∧ sh' = sh.runInvoked c w := by
  unfold Shared.watchStep at h
  split at h
  · exact absurd rfl (hpc _)
  · obtain ⟨⟨w, pc₁⟩, he, hr⟩ := Option.map_eq_some_iff.mp h
    cases hr
    exact ⟨w, he, rfl⟩

theorem watchStep_fetch {sh' : Shared V} {pc' : Watch.Pc I32} (hne : (sh.watch c).value ≠ i32Max)
    (h : sh.watchStep c (.fetch .add 1) = some (sh', pc')) :
    ∃ w, exec true (sh.watch c) 0 (.fetch .add 1) = some (w, pc') ∧ sh' = sh.setWatch c w := by
  unfold Shared.watchStep at h
  simp only [if_neg hne] at h
  obtain ⟨⟨w, pc₁⟩, he, hr⟩ := Option.map_eq_some_iff.mp h
  cases hr
  exact ⟨w, he, rfl⟩

theorem waits_not_fetch {k : After I32} {x : WaitAt I32} (h : Awaits k pc x) :
    ∀ arg, pc ≠ .fetch .add arg := by
  intro arg
  cases h <;> exact nofun

theorem adds_not_fetch {x : AddAt I32} (h : Adds 1 pc x) (hx : x ≠ .before) :
    ∀ arg, pc ≠ .fetch .add arg := by
  intro arg
  cases h with
  | fetch => exact absurd rfl hx
  | _ => exact nofun

/-- A party's step in a watch call: the call goes on, or it has returned. -/
theorem cases_finish {β : Type} {done : Watch.Ret I32 → β} {on : Watch.Pc I32 → β} {b : β}
    (h : (match pc with | .finish ret => done ret | pc' => on pc') = b) :
    (∃ ret, pc = .finish ret ∧ done ret = b) ∨ ((∀ ret, pc ≠ .finish ret) ∧ on pc = b) := by
  cases pc with
  | finish ret => exact .inl ⟨ret, rfl, h⟩
  | _ => exact .inr ⟨nofun, h⟩

theorem adds_not_finish {x : AddAt I32} (h : Adds 1 pc x) :
    ∀ ret, pc ≠ .finish ret := by
  intro ret
  cases h <;> exact nofun

theorem waits_not_finish {k : After I32} {x : WaitAt I32} (h : Awaits k pc x) :
    ∀ ret, pc ≠ .finish ret := by
  intro ret
  cases h <;> exact nofun

/-! ## A handler is invoked -/

section Invoke

variable {w r : Nat} {aw aw' ar ar' : Option (AddAt I32)} {ow ow' or or' : Option (WaitAt I32)}
variable {strict : Bool} {sh : Shared V} {p : Producer V} {q : Consumer} {h : Nat}

/-- The handler on the write count is given a count it has not seen. -/
theorem reader_full (rel : Rel w r aw ow ar or strict sh p q)
    (hls : sh.writeCount.handlers[h]? = some (i32 r))
    (hne : sh.writeCount.handlers[h]? ≠ some v) (hv : v = sh.writeCount.value) :
    w = r + 1 ∧ v = i32 w := by
  rw [rel.writeCount] at hv
  refine ⟨?_, hv⟩
  obtain ⟨hle, hge⟩ := rel.order
  by_contra hw
  obtain rfl : w = r := by omega
  rw [hls, hv] at hne
  exact hne rfl

/-- The handler on the read count is given a count it has not seen. -/
theorem writer_empty (rel : Rel w r aw ow ar or strict sh p q) {l : Nat} (hl : w = l + 1)
    (hls : sh.readCount.handlers[h]? = some (i32 l)) (hne : sh.readCount.handlers[h]? ≠ some v)
    (hv : v = sh.readCount.value) :
    w = r ∧ v = i32 w := by
  rw [rel.readCount] at hv
  obtain ⟨hle, hge⟩ := rel.order
  have hw : w = r := by
    by_contra hw
    obtain rfl : l = r := by omega
    rw [hls, hv] at hne
    exact hne rfl
  exact ⟨hw, hw ▸ hv⟩

theorem lookup_invoke_ne {c : Watch.Shared I32} {result : StatusOr I32}
    (hnone : c.invoked.lookup h = none) : (c.invoke h result).invoked.lookup h ≠ none := by
  rw [lookup_invoke hnone]
  exact nofun

/-- Where the channel is full and nothing has been released, the value written last is
    there, and it is the next to be read. -/
theorem value_of_full (rel : Rel w r aw ow ar or strict sh p q) (har : ar ≠ some .before)
    (hfull : w = r + 1) (hreads : sh.reads.length = r) :
    ∃ x, sh.value = some x ∧ sh.reads ++ [x] <+: sh.written := by
  have hlt : r < sh.written.length := by
    have := rel.producer.written
    omega
  refine ⟨sh.written[r], ?_, ?_⟩
  · rw [rel.value hfull har, List.getElem?_eq_getElem hlt]
  · obtain ⟨rest, hrest⟩ := rel.reads
    have htake : sh.written.take r = sh.reads := by
      rw [← hreads, ← hrest, List.take_left]
    rw [List.prefix_iff_eq_take, List.length_append, hreads, List.length_singleton,
      List.take_succ_eq_append_getElem hlt, htake]

theorem deliver_eq {x : V} (h : sh.value = some x) :
    sh.deliver = { sh with reads := sh.reads ++ [x] } := by
  unfold Shared.deliver
  split
  · rename_i hnone
    rw [hnone] at h
    cases h
  · rename_i v hv
    rw [hv] at h
    cases h
    rfl

/-- `async_read`'s handler finds the value it was called for. -/
theorem asked_invoke (rel : Rel w r aw ow ar or strict sh p q) (har : ar ≠ some .before)
    (hasked : Asked w r sh h) (hnone : sh.writeCount.invoked.lookup h = none)
    (hne : sh.writeCount.handlers[h]? ≠ some v) (hv : v = sh.writeCount.value) :
    ∃ x, sh.runInvoked .write (sh.writeCount.invoke h (.ok v)) =
        { sh with writeCount := sh.writeCount.invoke h (.ok v), reads := sh.reads ++ [x] } ∧
      sh.reads ++ [x] <+: sh.written ∧
      Asked w r { sh with writeCount := sh.writeCount.invoke h (.ok v),
                          reads := sh.reads ++ [x] } h := by
  obtain ⟨hfull, hval⟩ := reader_full rel hasked.lastSeen hne hv
  have htally := hasked.waiting hnone
  have hbound := rel.bound
  obtain ⟨x, hx, hpre⟩ := value_of_full rel har hfull htally.reads
  have hgt : v.toInt > (i32 r).toInt := by
    rw [hval, i32_toInt hbound, i32_toInt (by omega)]
    omega
  refine ⟨x, ?_, hpre, hasked.lastSeen, hasked.body, ?_, ?_⟩
  · rw [show sh.writeCount = sh.watch .write from rfl, runInvoked_invoke]
    unfold Shared.runHandler
    rw [show ((sh.setWatch .write ((sh.watch .write).invoke h (.ok v))).bodies .write)[h]? =
      some (.asyncRead (i32 r)) from hasked.body]
    simp only [Shared.runBody, if_pos hgt]
    exact deliver_eq hx
  · intro hn
    exact absurd hn (lookup_invoke_ne hnone)
  · intro _
    refine ⟨⟨?_, htally.consumed⟩, hfull⟩
    simp [htally.reads]

/-- The body of a handler that resumes a task does nothing. -/
theorem resume_invoke (result : StatusOr I32) (hbody : (sh.bodies c)[h]? = some .resume) :
    sh.runInvoked c ((sh.watch c).invoke h result) =
      sh.setWatch c ((sh.watch c).invoke h result) := by
  rw [runInvoked_invoke]
  unfold Shared.runHandler
  have hbodies : (sh.setWatch c ((sh.watch c).invoke h result)).bodies c = sh.bodies c := by
    cases c <;> rfl
  rw [hbodies, hbody]
  rfl

/-- The producer invokes the consumer's handler. -/
theorem consumer_invoked (rel : Rel w r aw (some (.armed h)) ar or strict sh p q)
    (hnone : sh.writeCount.invoked.lookup h = none)
    (hne : sh.writeCount.handlers[h]? ≠ some v) (hv : v = sh.writeCount.value) :
    ∃ reads, sh.runInvoked .write (sh.writeCount.invoke h (.ok v)) =
        { sh with writeCount := sh.writeCount.invoke h (.ok v), reads := reads } ∧
      reads <+: sh.written ∧
      ConsumerOk w r { sh with writeCount := sh.writeCount.invoke h (.ok v), reads := reads } q ar
        (some (.armed h)) := by
  have hconsumer := rel.consumer
  cases q with
  | asyncWait n pc =>
    obtain ⟨har, ⟨x, hx, hwaits, rfl⟩, hasked⟩ := hconsumer
    cases hx
    obtain ⟨y, hrun, hpre, hasked'⟩ := asked_invoke rel (by simp [har]) hasked hnone hne hv
    exact ⟨_, hrun, hpre, har, ⟨_, rfl, hwaits, rfl⟩, hasked'⟩
  | awaitHandler n =>
    obtain ⟨har, hx, hasked⟩ := hconsumer
    cases hx
    obtain ⟨y, hrun, hpre, hasked'⟩ := asked_invoke rel (by simp [har]) hasked hnone hne hv
    exact ⟨_, hrun, hpre, har, rfl, hasked'⟩
  | awaitNotEqual pc =>
    obtain ⟨har, x, hx, hwaits, hwatched⟩ := hconsumer
    cases hx
    refine ⟨sh.reads, ?_, rel.reads, har, _, rfl, hwaits, hwatched.congr rfl rfl rfl rfl⟩
    exact resume_invoke (c := .write) (.ok v) hwatched.body
  | fetchAdd pc => exact absurd hconsumer.1 (by simp)
  | closing pc held => exact hconsumer.elim
  | _ => exact absurd hconsumer.2.1 (by simp)

/-- `async_write`'s handler is called with its target. -/
theorem posted_invoke (rel : Rel w r aw ow ar or strict sh p q) (hposted : Posted w r sh h)
    (hnone : sh.readCount.invoked.lookup h = none)
    (hne : sh.readCount.handlers[h]? ≠ some v) (hv : v = sh.readCount.value) :
    w = r ∧ sh.runInvoked .read (sh.readCount.invoke h (.ok v)) =
        { sh with readCount := sh.readCount.invoke h (.ok v), value := none,
                  completed := sh.completed + 1 } ∧
      Posted w r { sh with readCount := sh.readCount.invoke h (.ok v), value := none,
                           completed := sh.completed + 1 } h := by
  obtain ⟨l, hl, hls⟩ := hposted.lastSeen
  obtain ⟨hempty, hval⟩ := writer_empty rel hl hls hne hv
  have hcompleted := hposted.waiting hnone
  refine ⟨hempty, ?_, hposted.written, hposted.lastSeen, hposted.body, ?_, ?_⟩
  · rw [show sh.readCount = sh.watch .read from rfl, runInvoked_invoke]
    unfold Shared.runHandler
    rw [show ((sh.setWatch .read ((sh.watch .read).invoke h (.ok v))).bodies .read)[h]? =
      some (.asyncWrite (i32 w)) from hposted.body]
    simp only [Shared.runBody, if_pos hval.symm]
    rfl
  · intro hn
    exact absurd hn (lookup_invoke_ne hnone)
  · exact fun _ => ⟨hcompleted, hempty⟩

/-- The consumer invokes the producer's handler. -/
theorem producer_invoked (rel : Rel w r aw ow ar (some (.armed h)) strict sh p q)
    (hnone : sh.readCount.invoked.lookup h = none)
    (hne : strict = true → sh.readCount.handlers[h]? ≠ some v) (hv : v = sh.readCount.value) :
    ∃ value completed, sh.runInvoked .read (sh.readCount.invoke h (.ok v)) =
        { sh with readCount := sh.readCount.invoke h (.ok v), value := value,
                  completed := completed } ∧
      (w = r + 1 → value = sh.value) ∧
      ProducerOk w r { sh with readCount := sh.readCount.invoke h (.ok v), value := value,
                               completed := completed } p aw (some (.armed h)) strict := by
  have hproducer := rel.producer
  cases p with
  | asyncWait n pc =>
    obtain ⟨haw, rfl, ⟨x, hx, hwaits, rfl⟩, hposted⟩ := hproducer
    cases hx
    obtain ⟨hempty, hrun, hposted'⟩ := posted_invoke rel hposted hnone (hne rfl) hv
    exact ⟨_, _, hrun, fun hfull => by omega, haw, rfl, ⟨_, rfl, hwaits, rfl⟩, hposted'⟩
  | awaitHandler n =>
    obtain ⟨haw, rfl, hx, hposted⟩ := hproducer
    cases hx
    obtain ⟨hempty, hrun, hposted'⟩ := posted_invoke rel hposted hnone (hne rfl) hv
    exact ⟨_, _, hrun, fun hfull => by omega, haw, rfl, rfl, hposted'⟩
  | awaitNotEqual target pc =>
    obtain ⟨haw, hs, ht, hcnt, x, hx, hwaits, hpolled⟩ := hproducer
    cases hx
    refine ⟨sh.value, sh.completed, ?_, fun _ => rfl, haw, hs, ht, hcnt.congr rfl rfl, _, rfl,
      hwaits, hpolled.congr rfl rfl⟩
    exact resume_invoke (c := .read) (.ok v) hpolled.body
  | fetchAdd lastSeen pc => exact absurd hproducer.1 (by simp)
  | closing pc => exact hproducer.elim
  | _ => exact absurd hproducer.2.1 (by simp)

end Invoke

end Batt.Channel
