/-
  No notification is lost in `await_condition`.

  A waiter goes to sleep with the timestamp it has observed, and what it has observed was the
  counter at some moment before its last evaluation of the condition started: it loaded the value,
  or a notifier told it, however late. Below 2^64 notifications the counter never comes back to
  a value, so a waiter that sleeps while its timestamp is the value has evaluated after the last
  notification. That it does not sleep otherwise is the wakeup invariant of the watch: a handler
  whose `last_seen` is no longer the value is covered by a notifier that is still under way.

  `SlotInv` is the invariant of one slot and the threads at it, and `PartyStep` says once what a
  step at a slot can do.
-/
import Batt.Runtime.Model
import Batt.Watch.Moves

namespace Batt.Runtime

open Interleave Watch

/-! ## What a step can do -/

inductive PartyStep (s : WeakNotifySlot) : Party → WeakNotifySlot → Option Party → Prop where
  | notify {pc pc' : Watch.Pc U64} {w : Watch.Shared U64} (trans : Trans s.counter 0 pc w pc') :
      PartyStep s (.notify pc) { s with counter := w } (some (.notify pc'))
  | notified {pc : Watch.Pc U64} {w : Watch.Shared U64} {ret : Watch.Ret U64}
      (trans : Trans s.counter 0 pc w (.finish ret)) :
      PartyStep s (.notify pc) { s with counter := w } none
  | getValue (evaluated : Nat) :
      PartyStep s (.await evaluated .getValue) s (some (.await evaluated (.lock s.counter.value)))
  | lock (evaluated : Nat) (ts : U64) :
      PartyStep s (.await evaluated (.lock ts)) { s with locked := true }
        (some (.await evaluated (.check ts)))
  | check (evaluated : Nat) (ts : U64) :
      PartyStep s (.await evaluated (.check ts)) s (some (.await s.notified (.checking ts)))
  | fulfilled (evaluated : Nat) (ts : U64) :
      PartyStep s (.await evaluated (.checking ts)) s (some (.await evaluated .leave))
  | unfulfilled (evaluated : Nat) (ts : U64) :
      PartyStep s (.await evaluated (.checking ts)) s (some (.await evaluated (.unlock ts)))
  | sleep (evaluated : Nat) (ts : U64) :
      PartyStep s (.await evaluated (.unlock ts)) (s.beginWait evaluated ts).1
        (s.beginWait evaluated ts).2
  | await (evaluated : Nat) (ts : U64) (handler : Nat) {pc pc' : Watch.Pc U64}
      {w : Watch.Shared U64} (trans : Trans s.counter 0 pc w pc') (on : ∀ ret, pc' ≠ .finish ret) :
      PartyStep s (.await evaluated (.awaitNotEqual ts handler pc)) { s with counter := w }
        (some (.await evaluated (.awaitNotEqual ts handler pc')))
  | awake (evaluated : Nat) (ts : U64) (handler : Nat) {pc : Watch.Pc U64} {w : Watch.Shared U64}
      {updatedTs : U64} (trans : Trans s.counter 0 pc w (.finish (.value updatedTs))) :
      PartyStep s (.await evaluated (.awaitNotEqual ts handler pc)) { s with counter := w }
        (some (.await evaluated (.lock updatedTs)))
  | closed (evaluated : Nat) (ts : U64) (handler : Nat) {pc : Watch.Pc U64} {w : Watch.Shared U64}
      {ret : Watch.Ret U64} (trans : Trans s.counter 0 pc w (.finish ret)) :
      PartyStep s (.await evaluated (.awaitNotEqual ts handler pc)) { s with counter := w } none
  | leave (evaluated : Nat) :
      PartyStep s (.await evaluated .leave) { s with locked := false } none
  | take : PartyStep s .lock { s with locked := true } (some .holding)
  | giveBack : PartyStep s .holding { s with locked := false } none

variable {pc : Watch.Pc U64}

section

variable {Objs : Type} {s s' : WeakNotifySlot} {a : Act Objs} {p : Party} {p' : Option Party}

theorem partyStep_notify (h : Party.step s a (.notify pc) = some (s', p')) :
    PartyStep s (.notify pc) s' p' := by
  cases a with
  | run =>
    obtain ⟨⟨w, pc'⟩, he, hr⟩ := Option.map_eq_some_iff.mp h
    have ht := exec_trans he
    cases pc' with
    | finish ret => cases hr; exact .notified ht
    | _ => cases hr; exact .notify ht
  | _ => cases h

theorem partyStep_awaitNotEqual {evaluated : Nat} {ts : U64} {handler : Nat}
    (h : Party.step s a (.await evaluated (.awaitNotEqual ts handler pc)) = some (s', p')) :
    PartyStep s (.await evaluated (.awaitNotEqual ts handler pc)) s' p' := by
  cases a with
  | run =>
    obtain ⟨⟨w, pc'⟩, he, hr⟩ := Option.map_eq_some_iff.mp h
    have ht := exec_trans he
    cases pc' with
    | finish ret =>
      cases ret with
      | value v => cases hr; exact .awake _ _ _ ht
      | _ => cases hr; exact .closed _ _ _ ht
    | _ => cases hr; exact .await _ _ _ ht (by intro ret; exact nofun)
  | _ => cases h

theorem partyStep_of_step (h : p.step s a = some (s', p')) : PartyStep s p s' p' := by
  cases p with
  | notify pc => exact partyStep_notify h
  | await evaluated pc =>
    cases pc with
    | awaitNotEqual ts handler pc => exact partyStep_awaitNotEqual h
    | checking ts =>
      cases a with
      | checked lastResult =>
        cases lastResult with
        | true => cases h; exact .fulfilled _ _
        | false => cases h; exact .unfulfilled _ _
      | _ => cases h
    | lock ts =>
      cases a with
      | run =>
        simp only [Party.step] at h
        split at h
        · cases h
        · cases h
          exact .lock _ _
      | _ => cases h
    | getValue =>
      cases a with
      | run => cases h; exact .getValue _
      | _ => cases h
    | check ts =>
      cases a with
      | run => cases h; exact .check _ _
      | _ => cases h
    | unlock ts =>
      cases a with
      | run => cases h; exact .sleep _ _
      | _ => cases h
    | leave =>
      cases a with
      | run => cases h; exact .leave _
      | _ => cases h
  | lock =>
    cases a with
    | run =>
      simp only [Party.step] at h
      split at h
      · cases h
      · cases h
        exact .take
    | _ => cases h
  | holding =>
    cases a with
    | unlock => cases h; exact .giveBack
    | _ => cases h

end

/-! ## The invariant of a slot -/

/-- The call into the counter a thread at the slot has under way. -/
def call : Option Party → Watch.Local U64
  | some (.notify pc) => .running 0 pc
  | some (.await _ (.awaitNotEqual _ _ pc)) => .running 0 pc
  | _ => .idle

/-- A value of the counter when at most `n` notifications had taken effect. -/
def Counted (n : Nat) (v : U64) : Prop := ∃ m ≤ n, v = BitVec.ofNat 64 m

theorem Counted.mono {n n' : Nat} {v : U64} (h : Counted n v) (hn : n ≤ n') : Counted n' v := by
  obtain ⟨m, hm, hv⟩ := h
  exact ⟨m, hm.trans hn, hv⟩

/-- What a waiter has observed it observed before its last evaluation started. -/
def WaitOk (s : WeakNotifySlot) (evaluated : Nat) : Wait → Prop
  | .lock ts | .check ts => Counted s.notified ts
  | .checking ts | .unlock ts => Counted evaluated ts ∧ evaluated ≤ s.notified
  | .awaitNotEqual ts handler pc =>
    Counted evaluated ts ∧ evaluated ≤ s.notified ∧ s.counter.handlers[handler]? = some ts ∧
      pc.stage = .wait handler .awaitNotEqual
  | .getValue | .leave => True

/-- `fetch_add(1)` is before its update or after it. -/
def NotifyOk (pc : Watch.Pc U64) : Prop := pc = .fetch .add 1 ∨ ∃ ret, pc.stage = .done ret

def PartyOk (s : WeakNotifySlot) : Option Party → Prop
  | some (.notify pc) => NotifyOk pc
  | some (.await evaluated pc) => WaitOk s evaluated pc
  | _ => True

structure SlotInv (s : WeakNotifySlot) (ps : List (Option Party)) : Prop where
  used : Used (Counted s.notified) .kClosed s.counter (ps.map call)
  value : s.counter.value = BitVec.ofNat 64 s.notified
  parties : ∀ p ∈ ps, PartyOk s p

theorem PartyOk.mono {s s' : WeakNotifySlot} {p : Option Party} (h : PartyOk s p)
    (hn : s.notified ≤ s'.notified) (hh : s.counter.handlers <+: s'.counter.handlers) :
    PartyOk s' p := by
  unfold PartyOk at *
  split
  · exact h
  · rename_i evaluated pc
    unfold WaitOk at *
    split <;> simp only at h
    · exact h.mono hn
    · exact h.mono hn
    · exact ⟨h.1, h.2.trans hn⟩
    · exact ⟨h.1, h.2.trans hn⟩
    · exact ⟨h.1, h.2.1.trans hn, getElem?_of_prefix hh h.2.2.1, h.2.2.2⟩
    · trivial
    · trivial
  · trivial

/-! ## Steps -/

section

variable {s s' : WeakNotifySlot} {ps : List (Option Party)} {i : Nat} {p p' : Option Party}

/-- A step at the slot, from what it does to the counter and to the thread that takes it. -/
theorem slotInv_move (inv : SlotInv s ps) (hi : ps[i]? = some p)
    (hmoves : Moves .kClosed s.counter (call p) s'.counter (call p'))
    (hn : s.notified ≤ s'.notified) (hh : s.counter.handlers <+: s'.counter.handlers)
    (hvalue : s'.counter.value = BitVec.ofNat 64 s'.notified) (hok : PartyOk s' p') :
    SlotInv s' (ps.set i p') where
  used := by
    rw [List.map_set]
    refine used_moves (inv.used.mono fun v hv => hv.mono hn) ?_ hmoves ⟨_, Nat.le_refl _, hvalue⟩
    rw [List.getElem?_map, hi]
    rfl
  value := hvalue
  parties := forall_set hok fun j k _ hj => (inv.parties k (List.mem_of_getElem? hj)).mono hn hh

/-- A step of a waiter that is in no call leaves the counter alone. -/
theorem slotInv_stay (inv : SlotInv s ps) (hi : ps[i]? = some p) (hidle : call p = .idle)
    (hcounter : s'.counter = s.counter) (hidle' : call p' = .idle) (hok : PartyOk s' p') :
    SlotInv s' (ps.set i p') := by
  have hnotified : s'.notified = s.notified := by rw [WeakNotifySlot.notified, hcounter]; rfl
  refine slotInv_move inv hi ?_ hnotified.ge (hcounter ▸ List.prefix_refl _) ?_ hok
  · rw [hidle, hidle', hcounter]
    exact .stay _
  · rw [hcounter, hnotified]
    exact inv.value

/-- What an access of `fetch_add(1)` does to the counter. -/
theorem notify_trans {w : Watch.Shared U64} {pc' : Watch.Pc U64} (hok : NotifyOk pc)
    (hvalue : s.counter.value = BitVec.ofNat 64 s.notified) (ht : Trans s.counter 0 pc w pc') :
    s.notified ≤ w.links.length ∧ w.value = BitVec.ofNat 64 w.links.length ∧ NotifyOk pc' := by
  rcases hok with rfl | ⟨ret, hst⟩
  · have hs := trans_stage ht
    cases ht with
    | update applied same told =>
      cases applied
      have hlen : (s.counter.update 0 (s.counter.value + 1)).links.length = s.notified + 1 := by
        simp [Shared.update, WeakNotifySlot.notified]
      refine ⟨?_, ?_, .inr ⟨_, stage_afterUpdate _ _ _⟩⟩
      · change s.notified ≤ (s.counter.update 0 (s.counter.value + 1)).links.length
        omega
      · change s.counter.value + 1 =
          BitVec.ofNat 64 (s.counter.update 0 (s.counter.value + 1)).links.length
        rw [hlen, hvalue, BitVec.ofNat_add]
        rfl
  · obtain ⟨hst', hv, hlinks⟩ := trans_done ht hst
    refine ⟨?_, ?_, .inr ⟨ret, hst'⟩⟩
    · rw [hlinks]
      exact Nat.le_refl _
    · rw [hv, hlinks]
      exact hvalue

/-- An access of `await_not_equal` leaves the count alone. -/
theorem await_trans {w : Watch.Shared U64} {pc' : Watch.Pc U64} {handler : Nat}
    (hst : pc.stage = .wait handler .awaitNotEqual)
    (hvalue : s.counter.value = BitVec.ofNat 64 s.notified) (ht : Trans s.counter 0 pc w pc') :
    s.notified ≤ w.links.length ∧ w.value = BitVec.ofNat 64 w.links.length := by
  obtain ⟨⟨hv, hlinks⟩, -⟩ := trans_wait ht hst (fun _ => nofun)
  rw [hv, hlinks]
  exact ⟨Nat.le_refl _, hvalue⟩

theorem slotInv_step {p : Party} (inv : SlotInv s ps) (hi : ps[i]? = some (some p))
    (h : PartyStep s p s' p') : SlotInv s' (ps.set i p') := by
  have hp := inv.parties _ (List.mem_of_getElem? hi)
  cases h with
  | notify trans =>
    obtain ⟨hn, hv, hok⟩ := notify_trans hp inv.value trans
    exact slotInv_move inv hi (.access trans) hn (trans_handlers trans) hv hok
  | notified trans =>
    obtain ⟨hn, hv, -⟩ := notify_trans hp inv.value trans
    exact slotInv_move inv hi (.leave trans) hn (trans_handlers trans) hv trivial
  | getValue evaluated =>
    exact slotInv_stay inv hi rfl rfl rfl ⟨_, Nat.le_refl _, inv.value⟩
  | lock evaluated ts => exact slotInv_stay inv hi rfl rfl rfl hp
  | check evaluated ts => exact slotInv_stay inv hi rfl rfl rfl ⟨hp, Nat.le_refl _⟩
  | fulfilled evaluated ts => exact slotInv_stay inv hi rfl rfl rfl trivial
  | unfulfilled evaluated ts => exact slotInv_stay inv hi rfl rfl rfl hp
  | sleep evaluated ts =>
    refine slotInv_move inv hi (.enter (.awaitNotEqual ts) nofun) (Nat.le_refl _)
      (List.prefix_append _ _) inv.value ⟨hp.1, hp.2, ?_, rfl⟩
    exact List.getElem?_concat_length
  | await evaluated ts handler trans on =>
    obtain ⟨hts, hle, hhandler, hst⟩ := hp
    obtain ⟨hn, hv⟩ := await_trans hst inv.value trans
    have hpre := trans_handlers trans
    refine slotInv_move inv hi (.access trans) hn hpre hv
      ⟨hts, hle.trans hn, getElem?_of_prefix hpre hhandler, ?_⟩
    rcases (trans_wait trans hst (fun _ => nofun)).2 with ⟨hst', _⟩ | ⟨_, hfin⟩ | ⟨_, _, hfin⟩
    · exact hst'
    · exact absurd hfin (on _)
    · exact absurd hfin (on _)
  | @awake evaluated ts handler pc w updatedTs trans =>
    obtain ⟨-, -, -, hst⟩ := hp
    obtain ⟨hn, hv⟩ := await_trans hst inv.value trans
    refine slotInv_move inv hi (.leave trans) hn (trans_handlers trans) hv ?_
    -- what the wait returns is what some notifier, or its own load, gave to its handler
    rcases trans_wait_finish trans hst with ⟨hst', _⟩ | ⟨result, _, hgiven, hfin⟩
    · cases hst'
    · have hresult : result = .ok updatedTs := by
        cases result with
        | ok v =>
          cases hfin
          rfl
        | error code => cases hfin
      have hmem := mem_of_lookup (hresult ▸ hgiven)
      exact (inv.used.invoked handler updatedTs hmem).mono hn
  | closed evaluated ts handler trans =>
    obtain ⟨hn, hv⟩ := await_trans hp.2.2.2 inv.value trans
    exact slotInv_move inv hi (.leave trans) hn (trans_handlers trans) hv trivial
  | leave evaluated => exact slotInv_stay inv hi rfl rfl rfl trivial
  | take => exact slotInv_stay inv hi rfl rfl rfl trivial
  | giveBack => exact slotInv_stay inv hi rfl rfl rfl trivial

end

/-! ## All slots -/

/-- What a thread does at slot `k`. -/
def partyAt (k : Nat) : Local → Option Party
  | .idle => none
  | .busy slot p => if slot = k then some p else none

def Inv (c : Conf Shared Local) : Prop :=
  ∀ (k : Nat) (s : WeakNotifySlot), c.shared.slots[k]? = some s →
    SlotInv s (c.locals.map (partyAt k))

theorem partyAt_at (k : Nat) (p : Option Party) : partyAt k (atSlot k p) = p := by
  cases p with
  | none => rfl
  | some p => exact if_pos rfl

theorem partyAt_at_ne {k slot : Nat} (h : slot ≠ k) (p : Option Party) :
    partyAt k (atSlot slot p) = none := by
  cases p with
  | none => rfl
  | some p => exact if_neg h

variable {c : Conf Shared Local}

/-- A call starts at a slot; the first access is still to come. -/
theorem inv_start {i slot : Nat} {p : Party} (inv : Inv c) (hi : c.locals[i]? = some .idle)
    (hok : ∀ s, PartyOk s (some p)) (hmoves : ∀ w, Moves .kClosed w .idle w (call (some p))) :
    Inv ⟨c.shared, c.locals.set i (.busy slot p)⟩ := by
  intro k s hs
  have hold := inv k s hs
  have hk : (c.locals.map (partyAt k))[i]? = some none := by
    rw [List.getElem?_map, hi]
    rfl
  simp only [List.map_set]
  by_cases hslot : slot = k
  · subst hslot
    rw [show partyAt slot (.busy slot p) = some p from if_pos rfl]
    exact slotInv_move hold hk (hmoves _) (Nat.le_refl _) (List.prefix_refl _) hold.value (hok s)
  · rw [show partyAt k (.busy slot p) = none from if_neg hslot]
    exact slotInv_stay hold hk rfl rfl rfl trivial

theorem inv_at {i slot : Nat} {p : Party} {p' : Option Party} {s s' : WeakNotifySlot} (inv : Inv c)
    (hi : c.locals[i]? = some (.busy slot p)) (hs : c.shared.slots[slot]? = some s)
    (h : PartyStep s p s' p') :
    Inv ⟨{ slots := c.shared.slots.set slot s' }, c.locals.set i (atSlot slot p')⟩ := by
  intro k t ht
  simp only [List.map_set]
  rcases set_cases ht with ⟨rfl, rfl⟩ | ⟨hne, ht⟩
  · rw [partyAt_at]
    refine slotInv_step (inv k s hs) ?_ h
    rw [List.getElem?_map, hi]
    exact congrArg some (if_pos rfl)
  · rw [partyAt_at_ne hne.symm]
    refine slotInv_stay (inv k t ht) (p := none) ?_ rfl rfl rfl trivial
    rw [List.getElem?_map, hi]
    exact congrArg some (if_neg hne.symm)

theorem inv_fire {Objs : Type} {hash : Objs → Nat} {c' : Conf Shared Local} {i : Nat} {a : Act Objs}
    (inv : Inv c) (h : (machine hash).fire i a c = some c') : Inv c' := by
  obtain ⟨l, sh', l', hi, _, hs, rfl⟩ := Machine.fire_cases h
  cases l with
  | idle =>
    cases a with
    | notify objs =>
      cases hs
      exact inv_start inv hi (fun _ => .inl rfl) fun w => .enter (fetchAdd 1) nofun
    | awaitCondition objs =>
      cases hs
      exact inv_start inv hi (fun _ => trivial) fun w => .stay _
    | lock objs =>
      cases hs
      exact inv_start inv hi (fun _ => trivial) fun w => .stay _
    | _ => cases hs
  | busy slot p =>
    have hstep : ((c.shared.slots[slot]?).bind fun s =>
        (p.step s a).map fun r => ((⟨c.shared.slots.set slot r.1⟩ : Shared), atSlot slot r.2)) =
          some (sh', l') := by
      cases a <;> exact hs
    obtain ⟨s, hslot, hstep⟩ := Option.bind_eq_some_iff.mp hstep
    obtain ⟨⟨s', p'⟩, hp, hr⟩ := Option.map_eq_some_iff.mp hstep
    cases hr
    exact inv_at inv hi hslot (partyStep_of_step hp)

theorem inv_initial (nSlots n : Nat) : Inv (initial nSlots n) := by
  intro k s hs
  obtain rfl := List.eq_of_mem_replicate (List.mem_of_getElem? hs)
  have hnone : ∀ p ∈ (initial nSlots n).locals.map (partyAt k), p = none := by
    intro p hp
    obtain ⟨l, hl, rfl⟩ := List.mem_map.mp hp
    rw [List.eq_of_mem_replicate hl]
    rfl
  refine ⟨used_new .kClosed ⟨0, Nat.le_refl _, rfl⟩ ?_, rfl, ?_⟩
  · intro l hl
    obtain ⟨p, hp, rfl⟩ := List.mem_map.mp hl
    rw [hnone p hp]
    rfl
  · intro p hp
    rw [hnone p hp]
    trivial

theorem inv_reachable {Objs : Type} {hash : Objs → Nat} {nSlots n : Nat}
    (h : (machine hash).Reachable (initial nSlots n) c) : Inv c :=
  Machine.invariant (I := Inv) (fun _ _ _ _ hc hf => inv_fire hc hf) (inv_initial nSlots n) h

/-! ## No lost notification -/

/-- A call that will take the observers has made its update. -/
theorem stage_of_willTake {call : Nat} (h : willTake (.running call pc) = true) :
    ∃ ret, pc.stage = .done ret := by
  cases pc with
  | notifyLoad newValue ret => exact ⟨ret, rfl⟩
  | lockObservers site | inLock site priorState =>
    cases site with
    | notify newValue ret => exact ⟨ret, rfl⟩
    | _ => cases h
  | _ => cases h

theorem willTake_call {s : WeakNotifySlot} {p : Option Party} (hok : PartyOk s p)
    (h : willTake (call p) = true) : ∃ pc, p = some (.notify pc) := by
  unfold call at h
  split at h
  · exact ⟨_, rfl⟩
  · obtain ⟨ret, hst⟩ := stage_of_willTake h
    cases hst.symm.trans hok.2.2.2
  · cases h

/-- **No lost notification.** Where a waiter of `await_condition` is registered in the counter of
    its slot and no `notify` of that slot is under way, as many notifications of the slot had taken
    effect when its last evaluation of the condition started as have now: the evaluation started
    after the last of them. -/
theorem evaluated_after_last_notify {Objs : Type} (hash : Objs → Nat) (nSlots n : Nat)
    (c : Conf Shared Local) (h : (machine hash).Reachable (initial nSlots n) c)
    (slot : Nat) (s : WeakNotifySlot) (hs : c.shared.slots[slot]? = some s)
    (hbound : s.notified < 2 ^ 64) (evaluated handler : Nat) (observedTs : U64)
    (pc : Watch.Pc U64)
    (hwaiter : .busy slot (.await evaluated (.awaitNotEqual observedTs handler pc)) ∈ c.locals)
    (hregistered : handler ∈ s.counter.observers)
    (hquiet : ∀ pc, .busy slot (.notify pc) ∉ c.locals) : evaluated = s.notified := by
  have inv := inv_reachable h slot s hs
  have hparty : some (Party.await evaluated (.awaitNotEqual observedTs handler pc)) ∈
      c.locals.map (partyAt slot) :=
    List.mem_map.mpr ⟨_, hwaiter, if_pos rfl⟩
  obtain ⟨⟨m, hm, hts⟩, hle, hhandler, -⟩ := inv.parties _ hparty
  have hnone : total (ind willTake) ((c.locals.map (partyAt slot)).map call) = 0 := by
    refine total_eq_zero.mpr fun l hl => ?_
    obtain ⟨p, hp, rfl⟩ := List.mem_map.mp hl
    refine ind_false (Bool.eq_false_iff.mpr fun htake => ?_)
    obtain ⟨pc, rfl⟩ := willTake_call (inv.parties p hp) htake
    obtain ⟨l, hmem, hat⟩ := List.mem_map.mp hp
    cases l with
    | idle => cases hat
    | busy slot' p =>
      simp only [partyAt] at hat
      split at hat
      · rename_i heq
        cases hat
        subst heq
        exact hquiet pc hmem
      · cases hat
  have hvalue : some observedTs = some s.counter.value := by
    rcases inv.used.inv.wake handler hregistered with hseen | hpos
    · exact hhandler.symm.trans hseen
    · omega
  have heq : BitVec.ofNat 64 m = BitVec.ofNat 64 s.notified := by
    rw [← hts, ← inv.value]
    exact Option.some.inj hvalue
  have hnat : m % 2 ^ 64 = s.notified % 2 ^ 64 := by
    rw [← BitVec.toNat_ofNat, ← BitVec.toNat_ofNat, heq]
  rw [Nat.mod_eq_of_lt hbound, Nat.mod_eq_of_lt (by omega)] at hnat
  omega

/-- A notification, and then a waiter that goes to sleep; with one slot all objects collide. -/
def sleepRun : List (Nat × Act Unit) :=
  [(0, .notify ()), (0, .run), (0, .run), (1, .awaitCondition ()), (1, .run), (1, .run), (1, .run),
    (1, .checked false), (1, .run), (1, .run), (1, .run), (1, .run), (1, .run), (1, .run)]

theorem evaluated_after_last_notify_sleepRun :
    ∃ c s pc, (machine fun _ : Unit => 0).run sleepRun (initial 1 2) = some c ∧
      c.shared.slots[0]? = some s ∧ 0 ∈ s.counter.observers ∧
      .busy 0 (.await 1 (.awaitNotEqual 1 0 pc)) ∈ c.locals ∧ 1 = s.notified := by
  refine ⟨_, _, _, rfl, rfl, List.mem_singleton.mpr rfl, List.mem_cons_of_mem _ List.mem_cons_self,
    ?_⟩
  refine evaluated_after_last_notify (fun _ : Unit => 0) 1 2 _ ⟨sleepRun, rfl⟩ 0 _ rfl ?_ 1 0 1 _
    (List.mem_cons_of_mem _ List.mem_cons_self) (List.mem_singleton.mpr rfl) ?_
  · decide
  · intro pc hmem
    rcases List.mem_cons.mp hmem with h | hmem
    · cases h
    · cases List.mem_singleton.mp hmem

end Batt.Runtime
