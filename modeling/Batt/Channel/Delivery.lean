/-
  Delivery over the channel.

  The k-th read that completes OK returns the k-th value written, a write completes OK only
  when its value has been consumed, no `BATT_CHECK` fails and no null `value_` is
  dereferenced: in every run whose steps meet `fresh`. Without it the notification of a
  count can reach a handler that was pushed after that count had been acted on, and the
  handler takes the old count for a new one (`staleRun`).
-/
import Batt.Channel.Producer
import Batt.Channel.Consumer

namespace Batt.Channel

open Interleave Watch

variable {V : Type}

structure Delivers (sh : Shared V) : Prop where
  /-- The k-th read returned the k-th value written. -/
  reads : ∀ (k : Nat) (v : V), sh.reads[k]? = some v → sh.written[k]? = some v
  /-- A write completes OK after the reader has consumed its value. -/
  consumed : sh.completed ≤ sh.consumed
  safe : sh.failure = none

/-- The condition on a step. -/
def fresh (c : Conf (Shared V) (Local V)) (i : Nat) (a : Act V) : Bool :=
  match c.locals, i with
  | [.producer p, .consumer q], 0 => freshProducer c.shared q a p
  | [.producer p, .consumer q], 1 => freshConsumer p a q
  | _, _ => true

/-! ## The invariant over runs -/

theorem inv_new : Inv (V := V) initial.shared .idle .idle := by
  have hflight : ∀ strict, Flight newWatch none none strict := fun strict =>
    ⟨rfl, nofun, nofun, rfl⟩
  exact ⟨0, 0, none, none, none, none, true,
    { safe := rfl, readBodies := rfl, writeBodies := rfl, writeCount := rfl, readCount := rfl,
      bound := by decide, order := by decide, reads := List.prefix_refl _, value := nofun,
      writeFlight := hflight true, readFlight := hflight true,
      producer := ⟨rfl, rfl, rfl, rfl, rfl⟩, consumer := ⟨rfl, rfl, rfl, rfl⟩ }⟩

/-- Two parties, and the invariant between them. -/
def ConfInv (c : Conf (Shared V) (Local V)) : Prop :=
  ∃ p q, c.locals = [.producer p, .consumer q] ∧ Inv c.shared p q

theorem inv_fire {c c' : Conf (Shared V) (Local V)} {i : Nat} {a : Act V} (hinv : ConfInv c)
    (hfresh : fresh c i a = true) (hf : machine.fire i a c = some c') : ConfInv c' := by
  obtain ⟨p, q, hlocals, w, r, aw, ow, ar, or, strict, rel⟩ := hinv
  obtain ⟨l, sh', l', hl, _, hs, rfl⟩ := machine.fire_cases hf
  have hstep : step a c.shared l = some (sh', l') := hs
  unfold step at hstep
  rw [if_neg (by simp [rel.safe])] at hstep
  rw [hlocals] at hl ⊢
  match i with
  | 0 =>
    cases hl
    obtain ⟨⟨sh₁, p'⟩, hp, hr⟩ := Option.map_eq_some_iff.mp hstep
    cases hr
    simp only [fresh, hlocals] at hfresh
    exact ⟨p', q, rfl, inv_producer_step rel hfresh hp⟩
  | 1 =>
    cases hl
    obtain ⟨⟨sh₁, q'⟩, hq, hr⟩ := Option.map_eq_some_iff.mp hstep
    cases hr
    simp only [fresh, hlocals] at hfresh
    exact ⟨p, q', rfl, inv_consumer_step rel hfresh hq⟩
  | n + 2 => cases hl

theorem inv_reachable {c : Conf (Shared V) (Local V)}
    (hr : machine.ReachableWhere fresh initial c) : ConfInv c :=
  machine.invariant_runWhere (fun _ _ _ _ hi hp hf => inv_fire hi hp hf)
    ⟨.idle, .idle, rfl, inv_new⟩ hr

/-! ## Delivery -/

section Read

variable {w r : Nat} {sh : Shared V} {a : Option (AddAt I32)} {o : Option (WaitAt I32)}

theorem ProducerOk.completed_le {p : Producer V} {strict : Bool}
    (h : ProducerOk w r sh p a o strict) (horder : w ≤ r + 1) : sh.completed ≤ r := by
  have hposted : ∀ n, Posted w r sh n → sh.completed ≤ r := by
    intro n hn
    by_cases hlook : sh.readCount.invoked.lookup n = none
    · have := hn.waiting hlook
      omega
    · have := hn.done hlook
      omega
  cases p with
  | idle =>
    obtain ⟨_, _, _, _, _⟩ := h
    omega
  | activeWrite mode v | isClosed mode v | setValue mode v =>
    have := h.2.2.completed
    have := h.2.2.empty
    omega
  | activeRead mode v writeCount =>
    have := h.2.2.1.completed
    have := h.2.2.1.empty
    omega
  | loadLastSeen =>
    obtain ⟨_, _, v, hu, _⟩ := h
    have := hu.completed
    have := hu.empty
    omega
  | fetchAdd lastSeen pc =>
    obtain ⟨_, _, _, _, ⟨_, ⟨v, hu, _⟩, _⟩ | ⟨_, hcnt, _⟩⟩ := h
    · have := hu.completed
      have := hu.empty
      omega
    · have := hcnt.completed
      omega
  | asyncWait n pc => exact hposted n h.2.2.2
  | awaitHandler n => exact hposted n h.2.2.2
  | awaitLoad target =>
    have := h.2.2.2.completed
    omega
  | awaitNotEqual target pc =>
    have := h.2.2.2.1.completed
    omega
  | closing pc => exact h.elim

theorem ConsumerOk.le_consumed {q : Consumer} (h : ConsumerOk w r sh q a o) :
    r ≤ sh.consumed := by
  have htally : ∀ n m, Tally sh n m → r ≤ m → r ≤ sh.consumed := fun n m ht hm =>
    ht.consumed ▸ hm
  have hasked : ∀ n, Asked w r sh n → r ≤ sh.consumed := by
    intro n hn
    by_cases hlook : sh.writeCount.invoked.lookup n = none
    · exact htally _ _ (hn.waiting hlook) (Nat.le_refl _)
    · exact htally _ _ (hn.done hlook).1 (Nat.le_refl _)
  cases q with
  | idle | isClosed | loadWrite | readLoad => exact htally _ _ h.2.2 (Nat.le_refl _)
  | asyncWait n pc => exact hasked n h.2.2
  | awaitHandler n => exact hasked n h.2.2
  | awaitNotEqual pc =>
    obtain ⟨_, _, _, _, hwatched⟩ := h
    exact htally _ _ hwatched.tally (Nat.le_refl _)
  | fetchAdd pc =>
    obtain ⟨_, _, _, _, ⟨_, ht, _⟩ | ⟨_, ht⟩⟩ := h
    · exact htally _ _ ht (Nat.le_succ _)
    · exact htally _ _ ht (Nat.le_refl _)
  | closing pc held => exact h.elim
  | _ => exact htally _ _ h.2.2.1 (Nat.le_refl _)

end Read

/-- **Delivery.** In every state of every run whose steps meet `fresh`: the k-th read that
    completed OK returned the k-th value written, no write has completed OK before its
    value was consumed, and no check has failed and no null value been dereferenced. -/
theorem channel_delivers (c : Conf (Shared V) (Local V))
    (hr : machine.ReachableWhere fresh initial c) : Delivers c.shared := by
  obtain ⟨p, q, _, w, r, aw, ow, ar, or, strict, rel⟩ := inv_reachable hr
  refine ⟨?_, ?_, rel.safe⟩
  · intro k v hk
    exact getElem?_of_prefix rel.reads hk
  · exact Nat.le_trans (rel.producer.completed_le rel.order.2) rel.consumer.le_consumed

def runs (i k : Nat) : List (Nat × Act Nat) := List.replicate k (i, .run)

/-- A read that waits for a write, and the write that waits for `consume`. -/
def handoverRun : List (Nat × Act Nat) :=
  (1, Act.asyncRead) :: runs 1 8 ++ (0, Act.asyncWrite 7) :: runs 0 17 ++ runs 1 1 ++
    (1, Act.consume) :: runs 1 10 ++ runs 0 1

theorem channel_delivers_handoverRun :
    ∃ c, machine.runWhere fresh handoverRun initial = some c ∧ c.shared.reads = [7] ∧
      c.shared.completed = 1 ∧ Delivers c.shared := by
  refine ⟨_, rfl, by decide, by decide, ?_⟩
  exact channel_delivers _ ⟨handoverRun, rfl⟩

/-- The first value has been consumed, and `consume` has counted it but not yet told. The
    producer finds the count and starts the second write; the notification of the first
    then reaches the second write's handler. -/
def staleRun : List (Nat × Act Nat) :=
  (0, Act.asyncWrite 1) :: runs 0 7 ++ (1, Act.asyncRead) :: runs 1 4 ++ (1, Act.consume) ::
    runs 1 4 ++ runs 0 3 ++ (0, Act.asyncWrite 2) :: runs 0 12 ++ runs 1 5

theorem stale_count_fails_check :
    ¬ ∀ c : Conf (Shared Nat) (Local Nat), machine.Reachable initial c → Delivers c.shared := by
  intro h
  have hrun : ∃ c, machine.run staleRun initial = some c ∧ c.shared.failure = some .check :=
    ⟨_, rfl, by decide⟩
  obtain ⟨c, hc, hfail⟩ := hrun
  have := (h c ⟨staleRun, hc⟩).safe
  rw [hfail] at this
  cases this

end Batt.Channel
