/-
  The accesses of a `Latch` to its `state_`, and with them all steps.

  Two accesses store: the `fetch_or` of a setter, which claims the latch if it is the first, and the
  `set_value(kReady)` of the claimant. `inv_move` and `inv_call` put the steps together, and
  `inv_reachable` says that `Inv` holds in every state of every interleaving.
-/
import Batt.Latch.Phases

namespace Batt.Latch

open Interleave

variable {T : Type}

/-! ## Accesses to `state_` -/

section

variable {sh : Shared T} {rest : List (Frame T)} {call : Nat} {site : Site T}
  {pc pc' : Watch.Pc U32} {w : Watch.Shared U32}

theorem frameOf_handler {e : Nat × StatusOr U32} {f : Frame T} (h : sh.frameOf e = some f) :
    ∃ handler, f = .handler handler e.2 := by
  unfold Shared.frameOf at h
  split at h
  · cases h
    exact ⟨_, rfl⟩
  · cases h

/-- Invoked handlers are not in `state_` and set nothing. -/
theorem filterMap_frameOf (sh : Shared T) (l : List (Nat × StatusOr U32)) :
    (l.filterMap sh.frameOf).filterMap Frame.watching = [] ∧
      total (ind setting) (l.filterMap sh.frameOf) = 0 ∧
      total (ind winning) (l.filterMap sh.frameOf) = 0 := by
  have hall : ∀ f ∈ l.filterMap sh.frameOf, ∃ handler result, f = .handler handler result := by
    intro f hf
    obtain ⟨e, _, he⟩ := List.mem_filterMap.mp hf
    obtain ⟨handler, rfl⟩ := frameOf_handler he
    exact ⟨handler, e.2, rfl⟩
  refine ⟨List.filterMap_eq_nil_iff.mpr ?_, total_eq_zero.mpr ?_, total_eq_zero.mpr ?_⟩
  all_goals
    intro f hf
    obtain ⟨handler, result, rfl⟩ := hall f hf
    rfl

/-- The frames after an access to `state_`. -/
theorem watching_access (l : List (Nat × StatusOr U32)) :
    ((l.filterMap sh.frameOf ++ [Frame.inWatch call site pc']) ++ rest).filterMap Frame.watching =
      .running call pc' :: rest.filterMap Frame.watching := by
  rw [List.filterMap_append, List.filterMap_append, (filterMap_frameOf sh l).1]
  rfl

/-- What an access of the call does to the value. -/
inductive Access (sh : Shared T) (call : Nat) :
    Site T → Watch.Pc U32 → Watch.Shared U32 → Watch.Pc U32 → Prop where
  | claim (v : StatusOr T) {pc' : Watch.Pc U32} (sets : Sets sh call v)
      (stage : pc'.stage = .done (.value sh.state.value)) :
      Access sh call (.fetchOr v) (.fetch .or kSetting)
        (sh.state.update call (sh.state.value ||| kSetting)) pc'
  | publish {v : StatusOr T} {pc' : Watch.Pc U32} (claimed : Claimed sh call v)
      (valid : sh.valid = true) (storage : sh.storage = some v)
      (stage : pc'.stage = .done (.value sh.state.value)) :
      Access sh call .setReady (.exchange kReady) (sh.state.update call kReady) pc'
  | inside {site : Site T} {pc pc' : Watch.Pc U32} {w : Watch.Shared U32}
      (value : w.value = sh.state.value) (links : w.links = sh.state.links)
      (ok : SiteOk sh call pc' site)
      (same : setting (Frame.inWatch call site pc') = setting (.inWatch call site pc) ∧
        winning (Frame.inWatch call site pc') = winning (.inWatch call site pc)) :
      Access sh call site pc w pc'

theorem access_cases (inv : Inv sh (.inWatch call site pc :: rest))
    (ht : Watch.Trans sh.state call pc w pc') : Access sh call site pc w pc' := by
  have hok : SiteOk sh call pc site := inv.frames _ List.mem_cons_self
  cases site with
  | fetchOr v =>
    obtain ⟨hsets, rfl | ⟨priorState, hstage, hne, hclaim⟩⟩ := hok
    · cases ht with
      | update applied same told =>
        cases applied
        exact .claim v hsets (Watch.stage_afterUpdate _ _ _)
    · obtain ⟨hstage', hvalue, hlinks⟩ := Watch.trans_done ht hstage
      refine .inside hvalue hlinks ⟨hsets, .inr ⟨priorState, hstage', hne, hclaim⟩⟩ ?_
      simp only [setting, winning, claims, hstage, hstage', and_self]
  | setReady =>
    obtain ⟨v, hc, ⟨rfl, hvalid, hv⟩ | ⟨priorState, hstage⟩⟩ := hok
    · cases ht with
      | update applied same told =>
        cases applied
        exact .publish hc hvalid hv (Watch.stage_afterUpdate _ _ _)
    · obtain ⟨hstage', hvalue, hlinks⟩ := Watch.trans_done ht hstage
      refine .inside hvalue hlinks ⟨v, hc, .inr ⟨priorState, hstage'⟩⟩ ?_
      simp only [setting, winning, stored, hstage, hstage', and_self]
  | awaitNotEqual =>
    rcases hok with ⟨h, hstage, hlt⟩ | ⟨v, rfl⟩
    · obtain ⟨⟨hvalue, hlinks⟩, hnext⟩ := Watch.trans_wait ht hstage (fun _ => nofun)
      refine .inside hvalue hlinks ?_ ⟨rfl, rfl⟩
      rcases hnext with ⟨hstage', _⟩ | ⟨hk, _⟩ | ⟨result, hgiven, rfl⟩
      · exact .inl ⟨h, hstage', hlt⟩
      · cases hk
      · obtain ⟨v, rfl⟩ := inv.flow.ok_of_invoked (Watch.mem_of_lookup hgiven)
        exact .inr ⟨v, rfl⟩
    · cases ht with
      | update applied same told => cases applied
  | asyncGet | rearm =>
    rcases hok with ⟨h, hstage, _⟩ | ⟨ret, rfl⟩
    · obtain ⟨⟨hvalue, hlinks⟩, hnext⟩ := Watch.trans_wait ht hstage (fun _ => nofun)
      refine .inside hvalue hlinks ?_ ⟨rfl, rfl⟩
      rcases hnext with ⟨hstage', hrunning⟩ | ⟨_, rfl⟩ | ⟨result, _, rfl⟩
      · exact .inl ⟨h, hstage', hrunning rfl⟩
      · exact .inr ⟨_, rfl⟩
      · exact .inr ⟨_, rfl⟩
    · cases ht with
      | update applied same told => cases applied

/-- Nobody closes `state_`, and nobody waits in a `modify`. -/
theorem SiteOk.plain (h : SiteOk sh call pc site) :
    (∀ code, pc ≠ .lockObservers (.close code)) ∧
      ∀ fn oldValue, pc ≠ .awaitModifyCas fn oldValue := by
  constructor
  · rintro code rfl
    cases site with
    | fetchOr v =>
      obtain ⟨_, h | ⟨_, h, _⟩⟩ := h <;> cases h
    | setReady =>
      obtain ⟨_, _, ⟨h, _⟩ | ⟨_, h⟩⟩ := h <;> cases h
    | awaitNotEqual | asyncGet | rearm =>
      obtain ⟨_, h, _⟩ | ⟨_, h⟩ := h <;> cases h
  · rintro fn oldValue rfl
    cases site with
    | fetchOr v =>
      obtain ⟨_, h | ⟨_, h, _⟩⟩ := h <;> cases h
    | setReady =>
      obtain ⟨_, _, ⟨h, _⟩ | ⟨_, h⟩⟩ := h <;> cases h
    | awaitNotEqual | asyncGet | rearm =>
      obtain ⟨_, h, _⟩ | ⟨_, h⟩ := h <;> cases h

theorem or_kSetting {v : U32} (h : v = kInitial ∨ v = kSetting ∨ v = kReady) :
    v ||| kSetting = if v = kInitial then kSetting else v := by
  rcases h with rfl | rfl | rfl <;> decide

/-- An access does not change the value from `kReady`. -/
theorem access_ready (inv : Inv sh (.inWatch call site pc :: rest))
    (ht : Watch.Trans sh.state call pc w pc') (hready : sh.state.value = kReady) :
    w.value = kReady := by
  cases access_cases inv ht with
  | claim v sets stage =>
    have hor := or_kSetting inv.value
    rw [hready] at hor
    exact congrArg (· ||| kSetting) hready |>.trans hor
  | publish claimed valid storage stage => rfl
  | inside value links ok same => rw [value, hready]

theorem flow_access (inv : Inv sh (.inWatch call site pc :: rest))
    (ht : Watch.Trans sh.state call pc w pc') :
    Watch.Settling kReady w (.running call pc' :: rest.filterMap Frame.watching) := by
  have hok : SiteOk sh call pc site := inv.frames _ List.mem_cons_self
  exact Watch.settling_trans inv.flow ht (access_ready inv ht) hok.plain.1 hok.plain.2

/-- The frame stores to `state_`. -/
theorem inv_update {f g : Frame T} {newValue : U32} (inv : Inv sh (f :: rest))
    (flow : Watch.Settling kReady (sh.state.update call newValue)
      ((g :: rest).filterMap Frame.watching))
    (value : newValue = kSetting ∨ newValue = kReady)
    (ready : sh.state.value = kReady → newValue = kReady)
    (claimed : ∃ winner v, Claimed { sh with state := sh.state.update call newValue } winner v)
    (settings : ind setting g + total (ind setting) rest = if newValue = kSetting then 1 else 0)
    (winnings : ind winning g + total (ind winning) rest + wins sh = 1)
    (published : newValue = kReady → sh.valid = true ∧ ∃ winner v,
      Claimed { sh with state := sh.state.update call newValue } winner v ∧ sh.storage = some v)
    (ok : FrameOk { sh with state := sh.state.update call newValue } g) :
    Inv { sh with state := sh.state.update call newValue } (g :: rest) := by
  have later : Later sh { sh with state := sh.state.update call newValue } :=
    ⟨List.prefix_refl _, List.prefix_append _ _, List.prefix_refl _, ready⟩
  have hne : newValue ≠ kInitial := by rcases value with rfl | rfl <;> decide
  refine ⟨flow, .inr value, ?_, fun _ => claimed, ?_, ?_, published, ?_, ?_, ?_, ?_⟩
  · exact iff_of_false hne (List.append_ne_nil_of_right_ne_nil _ (List.cons_ne_nil _ _))
  · rw [total_cons]
    exact settings
  · rw [total_cons]
    exact winnings.trans (if_neg hne).symm
  · intro x hx
    rcases List.mem_cons.mp hx with rfl | hx
    · exact ok
    · exact (inv.frames x (List.mem_cons_of_mem _ hx)).mono later fun _ => ⟨rfl, rfl⟩
  · exact fun e he => (inv.returns e he).mono later
  · intro e he
    obtain ⟨winner, hc⟩ := inv.given e he
    exact ⟨winner, later.claimed hc⟩
  · intro failure hf
    obtain ⟨hok, call', hs⟩ := inv.failure failure hf
    exact ⟨hok, call', hs.mono later.calls⟩

/-- The first `fetch_or`, or one that comes too late. -/
theorem inv_claim {v : StatusOr T}
    (inv : Inv sh (.inWatch call (.fetchOr v) (.fetch .or kSetting) :: rest))
    (flow : Watch.Settling kReady (sh.state.update call (sh.state.value ||| kSetting))
      (.running call pc' :: rest.filterMap Frame.watching))
    (sets : Sets sh call v) (stage : pc'.stage = .done (.value sh.state.value)) :
    Inv { sh with state := sh.state.update call (sh.state.value ||| kSetting) }
      (.inWatch call (.fetchOr v) pc' :: rest) := by
  have hor := or_kSetting inv.value
  have hclaims : claims pc' = decide (sh.state.value = kInitial) := by
    simp only [claims, stage]
  have hsettings : 0 + total (ind setting) rest = _ := inv.settings
  have hwinnings : 0 + total (ind winning) rest + wins sh = _ := inv.winnings
  have hlinks : (sh.state.update call (sh.state.value ||| kSetting)).links ≠ [] :=
    List.append_ne_nil_of_right_ne_nil _ (List.cons_ne_nil _ _)
  by_cases hv : sh.state.value = kInitial
  · -- the claim
    have hc : Claimed { sh with state := sh.state.update call (sh.state.value ||| kSetting) }
        call v := by
      refine ⟨?_, sets⟩
      simp only [Watch.Shared.update, inv.fresh.mp hv]
      rfl
    have hnew : sh.state.value ||| kSetting = kSetting := by rw [hor, if_pos hv]
    have hindw : ind winning (Frame.inWatch call (.fetchOr v) pc') = 1 :=
      ind_true (hclaims.trans (decide_eq_true hv))
    have hinds : ind setting (Frame.inWatch call (.fetchOr v) pc') = 1 :=
      ind_true (hclaims.trans (decide_eq_true hv))
    rw [hv] at hsettings hwinnings
    refine inv_update inv flow (.inl hnew) ?_ ⟨call, v, hc⟩ ?_ ?_ ?_ ?_
    · intro h
      rw [hv] at h
      exact absurd h (by decide)
    · rw [hinds, if_pos hnew]
      rw [if_neg (by decide)] at hsettings
      omega
    · rw [hindw]
      rw [if_pos rfl] at hwinnings
      omega
    · intro h
      rw [hnew] at h
      exact absurd h (by decide)
    · exact ⟨sets, .inr ⟨_, stage, hlinks, fun _ => hc⟩⟩
  · have hnew : sh.state.value ||| kSetting = sh.state.value := by rw [hor, if_neg hv]
    have later : Later sh { sh with state := sh.state.update call (sh.state.value ||| kSetting) } :=
      ⟨List.prefix_refl _, List.prefix_append _ _, List.prefix_refl _, hnew.trans⟩
    obtain ⟨winner, v', hc⟩ := inv.claimed fun h => hv (inv.fresh.mpr h)
    have hindw : ind winning (Frame.inWatch call (.fetchOr v) pc') = 0 :=
      ind_false (hclaims.trans (decide_eq_false hv))
    have hinds : ind setting (Frame.inWatch call (.fetchOr v) pc') = 0 :=
      ind_false (hclaims.trans (decide_eq_false hv))
    refine inv_update inv flow ?_ hnew.trans ⟨winner, v', later.claimed hc⟩ ?_ ?_ ?_ ?_
    · rw [hnew]
      exact inv.value.resolve_left hv
    · rw [hinds, hnew]
      exact hsettings
    · rw [hindw, hwinnings, if_neg hv]
    · intro h
      rw [hnew] at h
      obtain ⟨hvalid, winner, v', hc, hv'⟩ := inv.ready h
      exact ⟨hvalid, winner, v', later.claimed hc, hv'⟩
    · exact ⟨sets, .inr ⟨_, stage, hlinks, fun h => absurd h hv⟩⟩

/-- The store of `kReady`. -/
theorem inv_publish {v : StatusOr T} (inv : Inv sh (.inWatch call .setReady (.exchange kReady) :: rest))
    (flow : Watch.Settling kReady (sh.state.update call kReady)
      (.running call pc' :: rest.filterMap Frame.watching))
    (claimed : Claimed sh call v) (valid : sh.valid = true) (storage : sh.storage = some v)
    (stage : pc'.stage = .done (.value sh.state.value)) :
    Inv { sh with state := sh.state.update call kReady } (.inWatch call .setReady pc' :: rest) := by
  have hvalue := (inv.only_setting rfl).1
  have hsettings : 1 + total (ind setting) rest = _ := inv.settings
  have hwinnings : 1 + total (ind winning) rest + wins sh = _ := inv.winnings
  have later : Later sh { sh with state := sh.state.update call kReady } :=
    ⟨List.prefix_refl _, List.prefix_append _ _, List.prefix_refl _, fun _ => rfl⟩
  have hc := later.claimed claimed
  have hinds : ind setting (Frame.inWatch (T := T) call .setReady pc') = 0 :=
    ind_false (by simp only [setting, stored, stage, Bool.not_true])
  rw [hvalue] at hsettings hwinnings
  refine inv_update inv flow (.inr rfl) (fun _ => rfl) ⟨call, v, hc⟩ ?_ ?_
    (fun _ => ⟨valid, call, v, hc, storage⟩) ⟨v, hc, .inr ⟨_, stage⟩⟩
  · rw [if_pos rfl] at hsettings
    rw [hinds, if_neg (by decide)]
    omega
  · exact hwinnings

theorem inv_access (inv : Inv sh (.inWatch call site pc :: rest))
    (ht : Watch.Trans sh.state call pc w pc') :
    Inv { sh with state := w }
      ((w.invoked.drop sh.state.invoked.length).filterMap sh.frameOf ++
        [.inWatch call site pc'] ++ rest) := by
  have hflow := flow_access inv ht
  cases access_cases inv ht with
  | claim v sets stage =>
    have hinv := inv_claim inv hflow sets stage
    simpa [Watch.Shared.update] using hinv
  | publish claimed valid storage stage =>
    have hinv := inv_publish inv hflow claimed valid storage stage
    simpa [Watch.Shared.update] using hinv
  | inside value links ok same =>
    obtain ⟨_, hsettings, hwinnings⟩ :=
      filterMap_frameOf sh (w.invoked.drop sh.state.invoked.length)
    have hhandlers : sh.state.handlers <+: w.handlers :=
      Watch.StageStep.handlers_prefix (Watch.trans_stage ht)
    refine inv_change inv ?_ hhandlers value links rfl (.inr ⟨rfl, rfl⟩) ?_ ?_ ?_
      (fun e he => .inl he) (fun e he => .inl he) (fun _ h => .inl h)
    · rw [watching_access]
      exact hflow
    · rw [total_append, hsettings, total_cons, total_nil, Nat.zero_add, Nat.add_zero]
      simp only [ind, same.1]
    · rw [total_append, hwinnings, total_cons, total_nil, Nat.zero_add, Nat.add_zero]
      simp only [ind, same.2]
      rfl
    · have later : Later sh { sh with state := w } :=
        ⟨hhandlers, links ▸ List.prefix_refl _, List.prefix_refl _, value.trans⟩
      intro x hx
      rcases List.mem_append.mp hx with hx | hx
      · obtain ⟨e, he, hf⟩ := List.mem_filterMap.mp hx
        obtain ⟨handler, rfl⟩ := frameOf_handler hf
        have hmem := List.mem_of_mem_drop he
        obtain ⟨v, hv⟩ := hflow.ok_of_invoked hmem
        refine ⟨v, hv, ?_⟩
        rintro rfl
        exact hflow.invoked e.1 (hv ▸ hmem)
      · obtain rfl := List.mem_singleton.mp hx
        have hframe : FrameOk sh (.inWatch call site pc') := ok
        exact hframe.mono later fun _ => ⟨rfl, rfl⟩

end

/-! ## Every step -/

section

variable {sh sh' : Shared T} {fs rest : List (Frame T)} {f : Frame T}

/-- A frame that has loaded the value has not set anything, and is done with `state_`. -/
theorem Observes.ok (inv : Inv sh (f :: rest)) {call : Nat} {observed : U32}
    (h : Observes sh f call observed) :
    (observed = kReady → sh.state.value = kReady) ∧
      Watch.Settling kReady sh.state (rest.filterMap Frame.watching) ∧
      setting f = false ∧ winning f = false := by
  cases h with
  | load call => exact ⟨id, inv.flow, rfl, rfl⟩
  | awaited call observed =>
    refine ⟨?_, Watch.settling_return inv.flow, rfl, rfl⟩
    rintro rfl
    exact inv.flow.told _ List.mem_cons_self List.mem_cons_self

/-- One step of a thread. -/
theorem inv_move (inv : Inv sh (f :: rest)) (h : Moves sh f sh' fs) : Inv sh' (fs ++ rest) := by
  have hok := inv.frames f List.mem_cons_self
  cases h with
  | access call site access => exact inv_access inv access
  | fail fails => exact inv_fail inv fails
  | setError call notOk =>
    have hflow := Watch.settling_begin inv.flow call (.fetch .or kSetting) (by
      rintro v (h | h) <;> cases h)
    exact inv_next inv hflow rfl rfl ⟨hok, .inl rfl⟩
  | lose call v taken =>
    obtain ⟨_, hpc | ⟨_, hstage, hne, _⟩⟩ := hok
    · cases hpc
    · have hlost : claims (.finish (.value _)) = false := decide_eq_false taken
      exact inv_return inv call (Watch.settling_return inv.flow) hlost hlost.symm
        (inv.claimed hne)
  | win call v =>
    obtain ⟨_, hpc | ⟨_, hstage, _, hclaim⟩⟩ := hok
    · cases hpc
    · cases hstage
      exact inv_next inv (Watch.settling_return inv.flow) rfl rfl (hclaim rfl)
  | emplace call v storage => exact inv_emplace inv storage
  | construct call notOk => exact inv_construct inv
  | engage call => exact inv_engage inv
  | setReady call ret =>
    obtain ⟨v, hc, _⟩ := hok
    exact inv_return inv call (Watch.settling_return inv.flow) rfl rfl ⟨v, hc⟩
  | isReady call =>
    refine inv_return inv call inv.flow rfl rfl fun hready => ?_
    obtain ⟨_, winner, v, hc, _⟩ := inv.ready (of_decide_eq_true hready)
    exact ⟨winner, v, hc⟩
  | unavailable call => exact inv_return inv call inv.flow rfl rfl (.inr ⟨rfl, hok⟩)
  | pollReady call ready => exact inv_next inv inv.flow rfl rfl ready
  | awaitReady ready =>
    obtain ⟨hvalue, hflow, hset, hwin⟩ := ready.ok inv
    exact inv_next inv hflow hset.symm hwin.symm (hvalue rfl)
  | wait observes unready =>
    obtain ⟨_, hflow, hset, hwin⟩ := observes.ok inv
    refine inv_wait inv hflow hset hwin (.inr rfl) unready _ _ (.inl ⟨_, rfl, ?_⟩) ⟨rfl, rfl⟩
    simp [Shared.beginWait, Watch.begin, Watch.Shared.addHandler]
  | awaitClosed call code =>
    obtain ⟨_, h, _⟩ | ⟨_, h⟩ := hok <;> cases h
  | checkReady call ready => exact inv_next inv inv.flow rfl rfl hok
  | checkValue call => exact inv_next inv inv.flow rfl rfl hok
  | readValue call stored =>
    obtain ⟨_, winner, v, hc, hv⟩ := inv.ready hok
    rw [stored] at hv
    cases hv
    exact inv_return inv call inv.flow rfl rfl (.inl ⟨winner, hc⟩)
  | asyncGet call ret =>
    exact inv_return inv call (Watch.settling_return inv.flow) rfl rfl trivial
  | handlerError call code =>
    obtain ⟨_, h, _⟩ := hok
    cases h
  | handlerReady call =>
    obtain ⟨_, h, hvalue⟩ := hok
    cases h
    exact inv_next inv inv.flow rfl rfl (hvalue rfl)
  | rearm call unready =>
    exact inv_wait inv inv.flow rfl rfl (.inl rfl) unready _ _
      (.inl ⟨_, rfl, fun _ _ h => by cases h⟩) ⟨rfl, rfl⟩
  | handlerRead call stored =>
    obtain ⟨_, winner, v, hc, hv⟩ := inv.ready hok
    rw [stored] at hv
    cases hv
    exact inv_give inv call inv.flow rfl rfl hok ⟨winner, hc⟩
  | rearmed call ret => exact inv_pop inv (Watch.settling_return inv.flow) rfl rfl
  | user => exact inv_pop inv inv.flow rfl rfl

/-- A call on the latch. -/
theorem inv_call (inv : Inv sh fs) (op : Op T) :
    Inv (begin { sh with calls := sh.calls ++ [op] } sh.calls.length op).1
      ((begin { sh with calls := sh.calls ++ [op] } sh.calls.length op).2 ++ fs) := by
  have later : Later sh { sh with calls := sh.calls ++ [op] } :=
    ⟨List.prefix_refl _, List.prefix_refl _, List.prefix_append _ _, id⟩
  have hlast : (sh.calls ++ [op])[sh.calls.length]? = some op := by simp
  -- the call is recorded; `isReady` is a frame that does nothing yet
  have hnew : Inv { sh with calls := sh.calls ++ [op] } (.isReady sh.calls.length :: fs) := by
    refine ⟨inv.flow, inv.value, inv.fresh, ?_, ?_, ?_, ?_, ?_, ?_, ?_, ?_⟩
    · intro hne
      obtain ⟨winner, v, hc⟩ := inv.claimed hne
      exact ⟨winner, v, later.claimed hc⟩
    · exact (Nat.zero_add _).trans inv.settings
    · rw [total_cons, ind_false rfl, Nat.zero_add]
      exact inv.winnings
    · intro hready
      obtain ⟨hvalid, winner, v, hc, hv⟩ := inv.ready hready
      exact ⟨hvalid, winner, v, later.claimed hc, hv⟩
    · intro x hx
      rcases List.mem_cons.mp hx with rfl | hx
      · trivial
      · exact (inv.frames x hx).mono later fun _ => ⟨rfl, rfl⟩
    · exact fun e he => (inv.returns e he).mono later
    · intro e he
      obtain ⟨winner, hc⟩ := inv.given e he
      exact ⟨winner, later.claimed hc⟩
    · intro failure hf
      obtain ⟨hok, call, hs⟩ := inv.failure failure hf
      exact ⟨hok, call, hs.mono later.calls⟩
  have hsets : ∀ v, op.argument = some v → Sets { sh with calls := sh.calls ++ [op] }
      sh.calls.length v := by
    intro v hv
    exact Option.bind_eq_some_iff.mpr ⟨op, hlast, hv⟩
  cases op with
  | setValue v =>
    have hflow := Watch.settling_begin hnew.flow sh.calls.length (.fetch .or kSetting) (by
      rintro v (h | h) <;> cases h)
    exact inv_next hnew hflow rfl rfl ⟨hsets v rfl, .inl rfl⟩
  | setError status => exact inv_next hnew hnew.flow rfl rfl (hsets _ rfl)
  | isReady => exact hnew
  | await => exact inv_next hnew hnew.flow rfl rfl trivial
  | poll => exact inv_next hnew hnew.flow rfl rfl hlast
  | asyncGet =>
    exact inv_wait hnew hnew.flow rfl rfl (.inl rfl) (by decide) _ _
      (.inl ⟨_, rfl, fun _ _ => nofun⟩) ⟨rfl, rfl⟩

end

theorem inv_new (n : Nat) : Inv (initial (T := T) n).shared [] where
  flow := Watch.settling_new
  value := .inl rfl
  fresh := iff_of_true rfl rfl
  claimed := fun h => absurd rfl h
  settings := rfl
  winnings := rfl
  ready := by
    intro h
    have hne : kInitial ≠ kReady := by decide
    exact absurd h hne
  frames := List.forall_mem_nil _
  returns := List.forall_mem_nil _
  given := List.forall_mem_nil _
  failure := fun _ h => by cases h

/-- The invariant holds in every state of every interleaving. -/
theorem inv_reachable {n : Nat} {c : Conf (Shared T) (List (Frame T))}
    (hr : machine.Reachable (initial n) c) : Inv c.shared c.locals.flatten :=
  frames_invariant (I := Inv) Inv.perm (fun op inv => inv_call inv op) (fun inv _ h => inv_move inv h)
    (inv_new n) hr

end Batt.Latch
