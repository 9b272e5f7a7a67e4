/-
  The write under way, and what it meets after `close_for_read`.

  `unconsumed` is the condition on a step: `is_active` is false when a write looks at it, the write
  count does not overflow, and the value is not consumed before the write has been told of the
  close. Under it no step of a write fails a check (`producer_safe`, `closer_safe`,
  `consumer_safe`), and a write that ends after the close ends with `kClosed` (`producer_closed`).
-/
import Batt.Channel.Kept

namespace Batt.Channel

open Watch Interleave

variable {V : Type}

/-! ## The write under way -/

def Producer.writing : Producer V → Bool
  | .idle | .closing _ => false
  | _ => true

def statusOf : StatusOr I32 → StatusCode
  | .ok _ => .kOk
  | .error code => code

/-- The status of the write, where its next step can be the last. -/
def Producer.result (sh : Shared V) : Producer V → Option StatusCode
  | .isClosed _ _ => some .kClosed
  | .awaitHandler h => (sh.readCount.invoked.lookup h).map statusOf
  | .awaitLoad _ => some .kOk
  | .awaitNotEqual _ (.awaitResult h _) => (sh.readCount.invoked.lookup h).map statusOf
  | _ => none

/-- The handler the write waits for. -/
def Producer.waitsFor : Producer V → Option Nat
  | .awaitHandler h => some h
  | .awaitNotEqual _ (.awaitResult h _) => some h
  | _ => none

/-- The write is at a lock that is held. -/
def Producer.spins (sh : Shared V) : Producer V → Bool
  | .fetchAdd _ (.lockObservers _) => locked sh.writeCount.spinState
  | .asyncWait _ (.lockObservers _) | .awaitNotEqual _ (.lockObservers _) =>
    locked sh.readCount.spinState
  | _ => false

def producerOf (c : Conf (Shared V) (Thread V)) : Producer V :=
  match c.locals.head? with
  | some (.party (.producer p)) => p
  | _ => .idle

def writing (c : Conf (Shared V) (Thread V)) : Bool := (producerOf c).writing

def spinning (c : Conf (Shared V) (Thread V)) : Bool := (producerOf c).spins c.shared

def result (c : Conf (Shared V) (Thread V)) : Option StatusCode := (producerOf c).result c.shared

/-! ## The condition -/

def toldOk (sh : Shared V) (h : Nat) : Bool :=
  match sh.readCount.invoked.lookup h with
  | some (.ok _) => true
  | _ => false

/-- The next access of a wait looks at the read count, or at what its handler was given. -/
def waitLooks (sh : Shared V) : Watch.Pc I32 → Bool
  | .waitLoad _ _ _ | .invokeNow _ (.ok _) _ => true
  | .awaitResult h _ => toldOk sh h
  | _ => false

/-- The step depends on whether the value has been consumed. In `fetch_add` it is the step that
    invokes the handler of an `async_read`. -/
def Producer.looks (sh : Shared V) : Producer V → Bool
  | .fetchAdd _ (.invokeAll (h :: _) _ _) =>
    match sh.writeBodies[h]? with
    | some (.asyncRead _) => true
    | _ => false
  | .awaitLoad _ => true
  | .asyncWait _ pc | .awaitNotEqual _ pc => waitLooks sh pc
  | .awaitHandler h => toldOk sh h
  | _ => false

/-- What is asked of the producer when the write begins. -/
def Producer.admitted (sh : Shared V) : Producer V → Bool
  | .activeRead _ _ writeCount => decide (¬ (writeCount - sh.readCount.value).toInt > 0)
  | .fetchAdd _ (.fetch _ _) => sh.writeCount.value ≠ i32Max
  | _ => true

/-- The calls of the reader that check what they read. -/
def Consumer.reads : Consumer → Bool
  | .asyncWait _ _ | .awaitNotEqual _ | .deref | .activeRead _ => true
  | _ => false

/-- The consumer is about to tell an `async_write` that its value has been consumed. -/
def Consumer.releases (sh : Shared V) : Consumer → Bool
  | .fetchAdd (.invokeAll (h :: _) _ _) =>
    match sh.readBodies[h]? with
    | some (.asyncWrite _) => true
    | _ => false
  | _ => false

def unconsumed (c : Conf (Shared V) (Thread V)) (i : Nat) (_ : Act V) : Bool :=
  match c.locals[i]? with
  | some (.party (.producer p)) =>
    p.admitted c.shared &&
      (!p.looks c.shared || c.shared.readCount.value ≠ c.shared.writeCount.value)
  | some (.party (.consumer q)) => !q.releases c.shared
  | _ => true

/-! ## No check fails -/

section Safe

variable {w r : Nat} {sh sh' : Shared V} {c : Count} {pc pc' : Watch.Pc I32}
variable {p p' : Producer V} {q : Consumer} {ks : List Closer}

theorem setWatch_failure (sh : Shared V) (c : Count) (w : Watch.Shared I32) :
    (sh.setWatch c w).failure = sh.failure := by
  cases c <;> rfl

/-- An access fails where the body of the handler it invokes does, or a count overflows. -/
theorem watchStep_safe (h : sh.watchStep c pc = some (sh', pc')) (hf : sh.failure = none)
    (hmax : ∀ arg, pc = .fetch .add arg → (sh.watch c).value ≠ i32Max)
    (hbody : ∀ (n : Nat) result body w, Invokes n result pc → (sh.bodies c)[n]? = some body →
      ((sh.setWatch c w).runBody body result).failure = none) : sh'.failure = none := by
  unfold Shared.watchStep at h
  split at h
  · rename_i arg
    simp only [if_neg (hmax arg rfl)] at h
    obtain ⟨⟨w, pc₁⟩, _, hr⟩ := Option.map_eq_some_iff.mp h
    cases hr
    exact (setWatch_failure sh c w).trans hf
  · obtain ⟨⟨w, pc₁⟩, he, hr⟩ := Option.map_eq_some_iff.mp h
    cases hr
    change (sh.runInvoked c w).failure = none
    rcases trans_invokes (exec_trans he) with hsame | ⟨n, result, hinvokes, rfl⟩
    · rw [runInvoked_same hsame]
      exact (setWatch_failure sh c w).trans hf
    · rw [runInvoked_invoke]
      unfold Shared.runHandler
      rw [bodies_setWatch]
      cases hb : (sh.bodies c)[n]? with
      | none => exact (setWatch_failure sh c _).trans hf
      | some body => exact hbody n result body _ hinvokes hb

theorem runBody_error (sh : Shared V) (body : Body) (code : StatusCode) :
    (sh.runBody body (.error code)).failure = sh.failure := by
  cases body <;> rfl

theorem closes_safe (hc : Closes pc) (h : sh.watchStep c pc = some (sh', pc'))
    (hf : sh.failure = none) : sh'.failure = none := by
  refine watchStep_safe h hf ?_ ?_
  · rintro arg rfl
    cases hc
  · intro n result body w hi _
    obtain ⟨code, rfl⟩ := hc.invokes hi
    rw [runBody_error, setWatch_failure]
    exact hf

/-- `notify` finds the value it has counted. -/
theorem announces_safe {lastSeen : Option I32}
    (k : Kept w r sh (.fetchAdd lastSeen pc) q ks) {u : Nat} (hann : Announces (i32 u) (i32 w) pc)
    (hlooks : Producer.looks sh (.fetchAdd lastSeen pc : Producer V) = true → r ≠ w)
    (h : sh.watchStep .write pc = some (sh', pc')) (hf : sh.failure = none) :
    sh'.failure = none := by
  have s := k.slots
  refine watchStep_safe h hf ?_ ?_
  · rintro arg rfl
    cases hann
  · intro n result body w' hi hbody
    obtain rfl := hann.invokes hi
    have hbody : sh.writeBodies[n]? = some body := hbody
    cases body with
    | resume =>
      rw [Shared.runBody, setWatch_failure]
      exact hf
    | asyncWrite target => exact absurd hbody (s.readers n target)
    | asyncRead observed =>
      have hne : r ≠ w := by
        refine hlooks ?_
        cases hi with
        | now => cases hann
        | all rest ret => simp only [Producer.looks, hbody]
      obtain ⟨m, hm, rfl⟩ := s.asked n observed hbody
      have hgt : (i32 w).toInt > (i32 m).toInt := by
        have hbound := s.bound
        have horder := s.order
        rw [i32_toInt hbound, i32_toInt (by omega)]
        omega
      -- the consumer waits for this handler, so it has not cleared the value
      have hasked := s.consumer n _ hbody
        (not_invoked_of_invokes (c := .write) k.write.toSound List.mem_cons_self hi)
      have hvalue : sh.value ≠ none := by
        intro hnone
        rcases s.value rfl hnone with ⟨_, heq⟩ | hclears
        · exact hne heq
        · cases q with
          | fetchAdd => cases hasked
          | _ => cases hclears
      obtain ⟨v, hv⟩ := Option.ne_none_iff_exists'.mp hvalue
      simp only [Shared.runBody, if_pos hgt]
      rw [deliver_eq (x := v) (by rw [value_setWatch]; exact hv)]
      exact (setWatch_failure sh .write w').trans hf

theorem producer_safe {a : Act V} (k : Kept w r sh p q ks) (hadmitted : p.admitted sh = true)
    (hlooks : p.looks sh = true → r ≠ w) (hs : p.step sh a = some (sh', p'))
    (hf : sh.failure = none) : sh'.failure = none := by
  have hproducer := k.producer
  cases p with
  | idle =>
    cases a <;> cases hs <;> exact hf
  | activeWrite mode v =>
    cases a <;> cases hs
    exact hf
  | activeRead mode v writeCount =>
    cases a <;> simp only [Producer.step] at hs <;> try cases hs
    have hn := of_decide_eq_true hadmitted
    rw [if_neg hn] at hs
    cases hs
    exact hf
  | isClosed mode v =>
    cases a <;> simp only [Producer.step] at hs <;> try cases hs
    split at hs <;> cases hs <;> exact hf
  | setValue mode v =>
    cases mode <;> cases a <;> cases hs <;> exact hf
  | loadLastSeen =>
    cases a <;> cases hs
    exact hf
  | fetchAdd lastSeen pc =>
    cases a <;> simp only [Producer.step] at hs <;> try cases hs
    obtain ⟨⟨sh₁, pc₁⟩, hw, hs⟩ := Option.bind_eq_some_iff.mp hs
    rcases hproducer with ⟨rfl, _, _⟩ | ⟨u, hu, hann, hseen⟩
    · have hsafe : sh₁.failure = none := by
        refine watchStep_safe hw hf ?_ ?_
        · exact fun _ _ => of_decide_eq_true hadmitted
        · intro n result body w' hi
          cases hi
      obtain ⟨_, rfl, _⟩ := ran_fetch (watchStep_ran hw hsafe)
      cases hs
      exact hsafe
    · have hsafe := announces_safe k hann hlooks hw hf
      rcases cases_finish hs with ⟨ret, hpc, hs⟩ | ⟨_, hs⟩
      · dsimp only at hpc hs
        have hfin := announces_trans hann (watchStep_ran hw hsafe).trans
        rw [hpc] at hfin
        cases hfin.resolve_left (fun h => by cases h)
        cases lastSeen with
        | none =>
          cases hs
          exact hsafe
        | some l =>
          obtain rfl := hseen l rfl
          simp only [afterFetchAdd, if_true] at hs
          cases hs
          rw [beginWait_failure]
          exact hsafe
      · cases hs
        exact hsafe
  | asyncWait h pc =>
    cases a <;> simp only [Producer.step] at hs <;> try cases hs
    obtain ⟨⟨sh₁, pc₁⟩, hw, hs⟩ := Option.map_eq_some_iff.mp hs
    obtain ⟨hparked, hst, _, htells⟩ := hproducer
    have hsafe : sh₁.failure = none := by
      refine watchStep_safe hw hf ?_ ?_
      · rintro arg rfl
        cases hst
      · intro n result body w' hi hbody
        cases hi with
        | all => cases hst
        | now k' =>
          cases hst
          cases hparked.body.symm.trans hbody
          cases result with
          | error code =>
            rw [runBody_error, setWatch_failure]
            exact hf
          | ok v =>
            rw [(htells v List.mem_cons_self).1, Shared.runBody, if_pos rfl]
            exact (setWatch_failure sh .read w').trans hf
    rcases cases_finish hs with ⟨ret, _, hs⟩ | ⟨_, hs⟩ <;> cases hs <;> exact hsafe
  | awaitHandler h =>
    cases a <;> simp only [Producer.step] at hs <;> try cases hs
    obtain ⟨result, _, hs⟩ := Option.map_eq_some_iff.mp hs
    cases hs
    exact hf
  | awaitLoad target =>
    cases a <;> simp only [Producer.step] at hs <;> try cases hs
    obtain ⟨rfl, rfl⟩ := Prod.ext_iff.mp (Option.some.inj hs)
    rw [awaitEqual_failure]
    exact hf
  | awaitNotEqual target pc =>
    cases a <;> simp only [Producer.step] at hs <;> try cases hs
    obtain ⟨⟨sh₁, pc₁⟩, hw, hs⟩ := Option.bind_eq_some_iff.mp hs
    obtain ⟨_, h, hst, hpolling, _⟩ := hproducer
    have hsafe : sh₁.failure = none := by
      refine watchStep_safe hw hf ?_ ?_
      · rintro arg rfl
        cases hst
      · intro n result body w' hi hbody
        cases hi with
        | all => cases hst
        | now k' =>
          cases hst
          cases hpolling.body.symm.trans hbody
          rw [Shared.runBody, setWatch_failure]
          exact hf
    rcases cases_finish hs with ⟨ret, _, hs⟩ | ⟨_, hs⟩
    · cases ret with
      | value observed =>
        obtain ⟨rfl, rfl⟩ := Prod.ext_iff.mp (Option.some.inj hs)
        rw [awaitEqual_failure]
        exact hsafe
      | status code =>
        cases hs
        exact hsafe
      | _ => cases hs
    · cases hs
      exact hsafe
  | closing pc =>
    cases a <;> simp only [Producer.step] at hs <;> try cases hs
    obtain ⟨⟨sh₁, pc₁⟩, hw, hs⟩ := Option.map_eq_some_iff.mp hs
    have hsafe := closes_safe hproducer hw hf
    rcases cases_finish hs with ⟨ret, _, hs⟩ | ⟨_, hs⟩ <;> cases hs <;> exact hsafe

theorem closer_safe {i : Nat} {a : Act V} {l l' : Closer} (k : Kept w r sh p q ks)
    (hi : ks[i]? = some l) (hs : l.step sh a = some (sh', l')) (hf : sh.failure = none) :
    sh'.failure = none := by
  cases l with
  | idle => cases a <;> cases hs <;> exact hf
  | closing c pc =>
    cases a <;> simp only [Closer.step] at hs <;> try cases hs
    obtain ⟨⟨sh₁, pc₁⟩, hw, hs⟩ := Option.map_eq_some_iff.mp hs
    have hsafe := closes_safe (k.closers _ (List.mem_of_getElem? hi) c pc rfl) hw hf
    rcases cases_finish hs with ⟨ret, _, hs⟩ | ⟨_, hs⟩ <;> cases hs <;> exact hsafe

/-- `consume` runs no body that fails, unless it tells an `async_write`. -/
theorem consumer_safe {a : Act V} {q' : Consumer} (k : Kept w r sh p q ks)
    (hreads : q.reads = false) (hreleases : q.releases sh = false)
    (hs : q.step sh a = some (sh', q')) (hf : sh.failure = none) : sh'.failure = none := by
  have hconsumer := k.consumer
  cases q with
  | idle | holding => cases a <;> cases hs <;> exact hf
  | isClosed =>
    cases a <;> simp only [Consumer.step] at hs <;> try cases hs
    split at hs <;> cases hs <;> exact hf
  | loadRead observed =>
    cases a <;> simp only [Consumer.step] at hs <;> try cases hs
    split at hs <;> cases hs <;> exact hf
  | awaitHandler h =>
    cases a <;> simp only [Consumer.step] at hs <;> try cases hs
    obtain ⟨result, _, hs⟩ := Option.map_eq_some_iff.mp hs
    cases result <;> cases hs <;> exact hf
  | loadWrite | readLoad | activeWrite | clearValue =>
    cases a <;> cases hs
    exact hf
  | fetchAdd pc =>
    cases a <;> simp only [Consumer.step] at hs <;> try cases hs
    obtain ⟨⟨sh₁, pc₁⟩, hw, hs⟩ := Option.map_eq_some_iff.mp hs
    have hsafe : sh₁.failure = none := by
      rcases hconsumer with ⟨rfl, hfull⟩ | ⟨u, _, hann⟩
      · refine watchStep_safe hw hf ?_ ?_
        · intro _ _ hmax
          have hbound := k.slots.bound
          rw [show (sh.watch .read).value = i32 r from k.slots.readCount] at hmax
          have := i32_inj (a := r) (b := 2 ^ 31 - 1) (by omega) (by omega) (hmax.trans (by decide))
          omega
        · intro n result body w' hi
          cases hi
      · refine watchStep_safe hw hf ?_ ?_
        · rintro arg rfl
          cases hann
        · intro n result body w' hi hbody
          have hbody : sh.readBodies[n]? = some body := hbody
          cases body with
          | resume =>
            rw [Shared.runBody, setWatch_failure]
            exact hf
          | asyncRead observed => exact absurd hbody (k.slots.writers n observed)
          | asyncWrite target =>
            cases hi with
            | now => cases hann
            | all rest ret =>
              simp only [Consumer.releases, hbody] at hreleases
              cases hreleases
    rcases cases_finish hs with ⟨ret, _, hs⟩ | ⟨_, hs⟩ <;> cases hs <;> exact hsafe
  | closing pc held =>
    cases a <;> simp only [Consumer.step] at hs <;> try cases hs
    obtain ⟨⟨sh₁, pc₁⟩, hw, hs⟩ := Option.map_eq_some_iff.mp hs
    have hsafe := closes_safe hconsumer hw hf
    rcases cases_finish hs with ⟨ret, _, hs⟩ | ⟨_, hs⟩ <;> cases hs <;> exact hsafe
  | _ => cases hreads

end Safe

/-! ## The status of the write -/

section Result

variable {w r : Nat} {sh sh' : Shared V} {p p' : Producer V} {q : Consumer} {ks : List Closer}

/-- Who was told the count of the write was told after the value had been consumed. -/
theorem Kept.consumed_of_told (k : Kept w r sh p q ks) {h : Nat}
    (he : (h, .ok (i32 w)) ∈ sh.readCount.invoked) : r = w := by
  obtain ⟨n, hn, hv⟩ := k.read.invoked h _ he
  have hbound := k.slots.bound
  obtain ⟨hle, _⟩ := k.slots.order
  have := i32_inj hbound (by omega) hv
  omega

theorem Kept.status (k : Kept w r sh p q ks) {h : Nat} {code : StatusCode}
    (hl : sh.readCount.invoked.lookup h = some (.error code)) : code = .kClosed :=
  k.read.status (mem_of_lookup hl)

/-- A write that ends has been told of the close. -/
theorem producer_closed (k : Kept w r sh p q ks) (hlooks : p.looks sh = true → r ≠ w)
    (hs : ProducerStep sh p sh' p') (hw : p.writing = true) (hw' : p'.writing = false) :
    p.result sh = some .kClosed := by
  have hproducer := k.producer
  cases hs with
  | refuse => rfl
  | handled h result given =>
    cases result with
    | ok v =>
      have hparked : Parked w sh h := hproducer
      have hlooked : Producer.looks sh (.awaitHandler h : Producer V) = true := by
        simp only [Producer.looks, toldOk, given]
      have he := mem_of_lookup given
      rw [k.slots.posted h v _ he hparked.body] at he
      exact absurd (k.consumed_of_told he) (hlooks hlooked)
    | error code =>
      simp only [Producer.result, given, Option.map_some, statusOf, k.status given]
  | load target =>
    obtain rfl : target = i32 w := hproducer
    unfold awaitEqual at hw'
    split at hw'
    · rename_i heq
      rw [k.slots.readCount] at heq
      have hbound := k.slots.bound
      have horder := k.slots.order
      exact absurd (i32_inj (by omega) hbound heq) (hlooks rfl)
    · cases hw'
  | reload target observed ran =>
    obtain ⟨rfl, h, hst, _⟩ := hproducer
    rcases trans_wait_finish ran.trans hst with ⟨hst', _⟩ | ⟨result, rfl, given, hfin⟩
    · cases hst'
    · cases result with
      | error code => cases hfin
      | ok v =>
        cases hfin
        unfold awaitEqual at hw'
        split at hw'
        · rename_i heq
          have hlooked : toldOk sh h = true := by
            unfold toldOk
            rw [show sh.readCount.invoked.lookup h = _ from given]
          rw [heq] at given
          exact absurd (k.consumed_of_told (mem_of_lookup given)) (hlooks hlooked)
        · cases hw'
  | closed target code ran =>
    obtain ⟨_, h, hst, _⟩ := hproducer
    rcases trans_wait_finish ran.trans hst with ⟨hst', _⟩ | ⟨result, rfl, given, hfin⟩
    · cases hst'
    · cases result with
      | ok v => cases hfin
      | error code' =>
        have given : sh.readCount.invoked.lookup h = some (.error code') := given
        simp only [Producer.result, given, Option.map_some, statusOf, k.status given]
  | startClose => cases hw
  | close => cases hw
  | hasClosed => cases hw
  | _ => cases hw'

end Result

end Batt.Channel
