/-
  The phases of a `Latch`.

  The first `fetch_or` finds `kInitial` and claims the latch for its call. From then on exactly one
  frame is on its way to store `kReady` (`setting`), or `kReady` has been stored; and exactly one
  frame will return true (`winning`), or has done so. Who has seen `kReady` finds the claimant's
  value in `value_`: `Inv` says so of every frame, of what has been returned and of what the
  handlers have been given.
-/
import Batt.Latch.Steps

namespace Batt.Latch

open Interleave

variable {T : Type} {call : Nat} {v : StatusOr T}

/-! ## Who claims the latch -/

/-- What a setter sets. -/
def Op.argument : Op T → Option (StatusOr T)
  | .setValue v => some v
  | .setError status => some (.error status)
  | _ => none

def Sets (sh : Shared T) (call : Nat) (v : StatusOr T) : Prop :=
  sh.calls[call]?.bind Op.argument = some v

/-- The first call to reach `state_` is a setter, and `v` is its argument. -/
def Claimed (sh : Shared T) (call : Nat) (v : StatusOr T) : Prop :=
  sh.state.links.head?.map Watch.Link.call = some call ∧ Sets sh call v

/-- `fetch_or` has found `kInitial`. -/
def claims (pc : Watch.Pc U32) : Bool :=
  match pc.stage with
  | .done (.value priorState) => priorState = kInitial
  | _ => false

/-- The call into `state_` has stored. -/
def stored (pc : Watch.Pc U32) : Bool :=
  match pc.stage with
  | .done _ => true
  | _ => false

/-- On the way from the claim to the store of `kReady`. -/
def setting : Frame T → Bool
  | .inWatch _ (.fetchOr _) pc => claims pc
  | .emplace _ _ | .construct _ _ | .engage _ => true
  | .inWatch _ .setReady pc => !stored pc
  | _ => false

/-- On the way from the claim to the return of true. -/
def winning : Frame T → Bool
  | .inWatch _ (.fetchOr _) pc => claims pc
  | .emplace _ _ | .construct _ _ | .engage _ | .inWatch _ .setReady _ => true
  | _ => false

def Ret.wins : Ret T → Bool
  | .set b => b
  | _ => false

def wins (sh : Shared T) : Nat := sh.returns.countP fun e => e.2.wins

/-! ## The invariant -/

/-- The call into `state_` that a frame is in. -/
def Frame.watching : Frame T → Option (Watch.Local U32)
  | .inWatch call _ pc => some (.running call pc)
  | _ => none

def SiteOk (sh : Shared T) (call : Nat) (pc : Watch.Pc U32) : Site T → Prop
  | .fetchOr v => Sets sh call v ∧ (pc = .fetch .or kSetting ∨
      ∃ priorState, pc.stage = .done (.value priorState) ∧ sh.state.links ≠ [] ∧
        (priorState = kInitial → Claimed sh call v))
  | .setReady => ∃ v, Claimed sh call v ∧
      (pc = .exchange kReady ∧ sh.valid = true ∧ sh.storage = some v ∨
        ∃ priorState, pc.stage = .done (.value priorState))
  | .awaitNotEqual =>
    (∃ h, pc.stage = .wait h .awaitNotEqual ∧ h < sh.state.handlers.length) ∨
      ∃ v, pc = .finish (.value v)
  | .asyncGet | .rearm =>
    (∃ h, pc.stage = .wait h .ret ∧ ∀ h' k, pc ≠ .awaitResult h' k) ∨ ∃ ret, pc = .finish ret

def FrameOk (sh : Shared T) : Frame T → Prop
  | .setError call status => Sets sh call (.error status)
  | .inWatch call site pc => SiteOk sh call pc site
  | .emplace call v | .construct call v => Claimed sh call v
  | .engage call => ∃ v, Claimed sh call v ∧ sh.storage = some v
  | .poll call => sh.calls[call]? = some .poll
  | .checkReady _ | .checkValue _ | .readValue _ | .handlerRead _ | .user =>
    sh.state.value = kReady
  | .handler _ result => ∃ v, result = .ok v ∧ (v = kReady → sh.state.value = kReady)
  | .isReady _ | .awaitLoad _ => True

/-- What a call may have returned. -/
def RetOk (sh : Shared T) (call : Nat) : Ret T → Prop
  | .set true => ∃ v, Claimed sh call v
  | .set false => ∃ winner v, Claimed sh winner v
  | .ready b => b = true → ∃ winner v, Claimed sh winner v
  | .result r => (∃ winner, Claimed sh winner r) ∨
      r = .error .kUnavailable ∧ sh.calls[call]? = some .poll
  | .unit => True

structure Inv (sh : Shared T) (fs : List (Frame T)) : Prop where
  flow : Watch.Settling kReady sh.state (fs.filterMap Frame.watching)
  value : sh.state.value = kInitial ∨ sh.state.value = kSetting ∨ sh.state.value = kReady
  fresh : sh.state.value = kInitial ↔ sh.state.links = []
  claimed : sh.state.links ≠ [] → ∃ call v, Claimed sh call v
  settings : total (ind setting) fs = if sh.state.value = kSetting then 1 else 0
  winnings : total (ind winning) fs + wins sh = if sh.state.value = kInitial then 0 else 1
  ready : sh.state.value = kReady →
    sh.valid = true ∧ ∃ call v, Claimed sh call v ∧ sh.storage = some v
  frames : ∀ f ∈ fs, FrameOk sh f
  returns : ∀ e ∈ sh.returns, RetOk sh e.1 e.2
  given : ∀ e ∈ sh.given, ∃ winner, Claimed sh winner e.2
  failure : ∀ f, sh.failure = some f → f = .okStatus ∧ ∃ call, Sets sh call (.error .kOk)

/-! ## Frames -/

section

variable {sh sh' : Shared T} {fs fs' rest : List (Frame T)} {f : Frame T}

theorem Inv.perm (inv : Inv sh fs) (h : fs.Perm fs') : Inv sh fs' where
  flow := inv.flow.perm (h.filterMap _)
  value := inv.value
  fresh := inv.fresh
  claimed := inv.claimed
  settings := by
    rw [← inv.settings]
    exact (h.map _).sum_nat.symm
  winnings := by
    rw [← inv.winnings]
    exact congrArg (· + wins sh) (h.map _).sum_nat.symm
  ready := inv.ready
  frames := fun f hf => inv.frames f (h.mem_iff.mpr hf)
  returns := inv.returns
  given := inv.given
  failure := inv.failure

theorem Sets.mono (h : Sets sh call v) (hc : sh.calls <+: sh'.calls) :
    Sets sh' call v := by
  obtain ⟨op, hop, hv⟩ := Option.bind_eq_some_iff.mp h
  exact Option.bind_eq_some_iff.mpr ⟨op, getElem?_of_prefix hc hop, hv⟩

theorem Claimed.mono (h : Claimed sh call v) (hl : sh.state.links <+: sh'.state.links)
    (hc : sh.calls <+: sh'.calls) :
    Claimed sh' call v := by
  obtain ⟨hhead, hsets⟩ := h
  obtain ⟨more, hmore⟩ := hl
  refine ⟨?_, hsets.mono hc⟩
  rw [← hmore, List.head?_append]
  cases hh : sh.state.links.head? with
  | none =>
    rw [hh] at hhead
    cases hhead
  | some link =>
    rw [hh] at hhead
    exact hhead

/-- How the latch changes under a frame that does not step. -/
structure Later (sh sh' : Shared T) : Prop where
  handlers : sh.state.handlers <+: sh'.state.handlers
  links : sh.state.links <+: sh'.state.links
  calls : sh.calls <+: sh'.calls
  ready : sh.state.value = kReady → sh'.state.value = kReady

theorem Later.claimed (h : Later sh sh') (hc : Claimed sh call v) :
    Claimed sh' call v :=
  hc.mono h.links h.calls

theorem Later.links_ne (h : Later sh sh') (hne : sh.state.links ≠ []) : sh'.state.links ≠ [] := by
  obtain ⟨more, hmore⟩ := h.links
  rw [← hmore]
  exact List.append_ne_nil_of_left_ne_nil hne more

theorem FrameOk.mono (h : FrameOk sh f) (hl : Later sh sh')
    (hstored : setting f = true → sh'.valid = sh.valid ∧ sh'.storage = sh.storage) :
    FrameOk sh' f := by
  cases f with
  | setError call status => exact Sets.mono h hl.calls
  | inWatch call site pc =>
    cases site with
    | fetchOr v =>
      refine ⟨Sets.mono h.1 hl.calls, h.2.imp_right ?_⟩
      rintro ⟨priorState, hstage, hne, hclaim⟩
      exact ⟨priorState, hstage, hl.links_ne hne, fun hp => hl.claimed (hclaim hp)⟩
    | setReady =>
      obtain ⟨v, hc, hpc⟩ := h
      refine ⟨v, hl.claimed hc, hpc.imp_left ?_⟩
      rintro ⟨rfl, hvalid, hv⟩
      obtain ⟨h1, h2⟩ := hstored rfl
      exact ⟨rfl, h1.trans hvalid, h2.trans hv⟩
    | awaitNotEqual =>
      refine h.imp_left ?_
      rintro ⟨handler, hstage, hlt⟩
      exact ⟨handler, hstage, Nat.lt_of_lt_of_le hlt hl.handlers.length_le⟩
    | asyncGet | rearm => exact h
  | emplace call v | construct call v => exact hl.claimed h
  | engage call =>
    obtain ⟨v, hc, hv⟩ := h
    exact ⟨v, hl.claimed hc, (hstored rfl).2.trans hv⟩
  | poll call => exact getElem?_of_prefix hl.calls h
  | checkReady call | checkValue call | readValue call | handlerRead call | user =>
    exact hl.ready h
  | handler call result =>
    obtain ⟨v, hv, hready⟩ := h
    exact ⟨v, hv, fun he => hl.ready (hready he)⟩
  | isReady call | awaitLoad call => trivial

theorem RetOk.mono {ret : Ret T} (h : RetOk sh call ret) (hl : Later sh sh') :
    RetOk sh' call ret := by
  cases ret with
  | set b =>
    cases b with
    | true =>
      obtain ⟨v, hc⟩ := h
      exact ⟨v, hl.claimed hc⟩
    | false =>
      obtain ⟨winner, v, hc⟩ := h
      exact ⟨winner, v, hl.claimed hc⟩
  | ready b =>
    intro hb
    obtain ⟨winner, v, hc⟩ := h hb
    exact ⟨winner, v, hl.claimed hc⟩
  | result r =>
    rcases h with ⟨winner, hc⟩ | ⟨hr, hpoll⟩
    · exact .inl ⟨winner, hl.claimed hc⟩
    · exact .inr ⟨hr, getElem?_of_prefix hl.calls hpoll⟩
  | unit => trivial

end

/-! ## Steps that leave the phase alone -/

section

variable {sh sh' : Shared T} {fs rest : List (Frame T)} {f : Frame T}

theorem total_append (g : Frame T → Nat) (xs ys : List (Frame T)) :
    total g (xs ++ ys) = total g xs + total g ys := by
  simp [total]

/-- While one frame is on its way to store `kReady`, it is the only one. -/
theorem Inv.only_setting (inv : Inv sh (f :: rest)) (hf : setting f = true) :
    sh.state.value = kSetting ∧ ∀ g ∈ rest, setting g = false := by
  have hs := inv.settings
  rw [total_cons, ind_true hf] at hs
  by_cases hv : sh.state.value = kSetting
  · rw [if_pos hv] at hs
    refine ⟨hv, fun g hg => ?_⟩
    have hrest : total (ind setting) rest = 0 := by omega
    simpa [ind] using total_eq_zero.mp hrest g hg
  · rw [if_neg hv] at hs
    omega

theorem inv_change (inv : Inv sh (f :: rest))
    (flow : Watch.Settling kReady sh'.state ((fs ++ rest).filterMap Frame.watching))
    (handlers : sh.state.handlers <+: sh'.state.handlers)
    (value : sh'.state.value = sh.state.value) (links : sh'.state.links = sh.state.links)
    (calls : sh'.calls = sh.calls)
    (stored : setting f = true ∨ sh'.valid = sh.valid ∧ sh'.storage = sh.storage)
    (settings : total (ind setting) fs = ind setting f)
    (winnings : total (ind winning) fs + wins sh' = ind winning f + wins sh)
    (frames : ∀ g ∈ fs, FrameOk sh' g)
    (returns : ∀ e ∈ sh'.returns, e ∈ sh.returns ∨ RetOk sh' e.1 e.2)
    (given : ∀ e ∈ sh'.given, e ∈ sh.given ∨ ∃ winner, Claimed sh' winner e.2)
    (failure : ∀ failure, sh'.failure = some failure → sh.failure = some failure ∨
      failure = .okStatus ∧ ∃ call, Sets sh' call (.error .kOk)) :
    Inv sh' (fs ++ rest) := by
  have later : Later sh sh' :=
    ⟨handlers, links ▸ List.prefix_refl _, calls ▸ List.prefix_refl _, fun h => value.trans h⟩
  refine ⟨flow, value ▸ inv.value, ?_, ?_, ?_, ?_, ?_, ?_, ?_, ?_, ?_⟩
  · rw [value, links]
    exact inv.fresh
  · rw [links]
    intro hne
    obtain ⟨call, v, hc⟩ := inv.claimed hne
    exact ⟨call, v, later.claimed hc⟩
  · rw [total_append, settings, value, ← inv.settings, total_cons]
  · have hw := inv.winnings
    rw [total_cons] at hw
    rw [total_append, value, ← hw]
    omega
  · intro hready
    rw [value] at hready
    obtain ⟨hvalid, call, v, hc, hv⟩ := inv.ready hready
    rcases stored with hset | ⟨h1, h2⟩
    · rw [(inv.only_setting hset).1] at hready
      exact absurd hready (by decide)
    · exact ⟨h1.trans hvalid, call, v, later.claimed hc, h2.trans hv⟩
  · intro g hg
    rcases List.mem_append.mp hg with hg | hg
    · exact frames g hg
    · refine (inv.frames g (List.mem_cons_of_mem _ hg)).mono later fun hset => ?_
      rcases stored with hf | hsame
      · rw [(inv.only_setting hf).2 g hg] at hset
        cases hset
      · exact hsame
  · intro e he
    rcases returns e he with he | he
    · exact (inv.returns e he).mono later
    · exact he
  · intro e he
    rcases given e he with he | he
    · obtain ⟨winner, hc⟩ := inv.given e he
      exact ⟨winner, later.claimed hc⟩
    · exact he
  · intro failure' hf
    rcases failure failure' hf with hf | hf
    · obtain ⟨hok, call, hs⟩ := inv.failure failure' hf
      exact ⟨hok, call, hs.mono later.calls⟩
    · exact hf

/-- What `inv_change` asks, for a step that does not touch `state_` and `value_`. -/
theorem inv_local (inv : Inv sh (f :: rest)) (state : sh'.state = sh.state)
    (calls : sh'.calls = sh.calls) (same : sh'.valid = sh.valid ∧ sh'.storage = sh.storage)
    (flow : Watch.Settling kReady sh.state ((fs ++ rest).filterMap Frame.watching))
    (settings : total (ind setting) fs = ind setting f)
    (winnings : total (ind winning) fs + wins sh' = ind winning f + wins sh)
    (frames : ∀ g ∈ fs, FrameOk sh' g)
    (returns : ∀ e ∈ sh'.returns, e ∈ sh.returns ∨ RetOk sh' e.1 e.2)
    (given : ∀ e ∈ sh'.given, e ∈ sh.given ∨ ∃ winner, Claimed sh' winner e.2)
    (failure : ∀ failure, sh'.failure = some failure → sh.failure = some failure ∨
      failure = .okStatus ∧ ∃ call, Sets sh' call (.error .kOk)) :
    Inv sh' (fs ++ rest) :=
  inv_change inv (state ▸ flow) (state ▸ List.prefix_refl _) (by rw [state]) (by rw [state]) calls
    (.inr same) settings winnings frames returns given failure

/-- The frame leaves another one in its place. -/
theorem inv_next {g : Frame T} (inv : Inv sh (f :: rest))
    (flow : Watch.Settling kReady sh.state ((g :: rest).filterMap Frame.watching))
    (settings : setting g = setting f) (winnings : winning g = winning f) (ok : FrameOk sh g) :
    Inv sh ([g] ++ rest) := by
  refine inv_local inv rfl rfl ⟨rfl, rfl⟩ flow ?_ ?_ ?_ (fun e he => .inl he) (fun e he => .inl he)
    (fun _ h => .inl h)
  · simp [ind, settings]
  · simp [ind, winnings]
  · intro x hx
    obtain rfl := List.mem_singleton.mp hx
    exact ok

/-- The call returns. -/
theorem inv_return (inv : Inv sh (f :: rest)) (call : Nat) {ret : Ret T}
    (flow : Watch.Settling kReady sh.state (rest.filterMap Frame.watching))
    (settings : setting f = false) (winnings : ret.wins = winning f) (ok : RetOk sh call ret) :
    Inv (sh.return call ret) ([] ++ rest) := by
  refine inv_local inv rfl rfl ⟨rfl, rfl⟩ flow ?_ ?_ (List.forall_mem_nil _) ?_
    (fun e he => .inl he) (fun _ h => .inl h)
  · rw [total_nil, ind_false settings]
  · simp only [total_nil, wins, Shared.return, List.countP_append, List.countP_singleton, winnings,
      ind]
    omega
  · intro e he
    rcases List.mem_append.mp he with he | he
    · exact .inl he
    · obtain rfl := List.mem_singleton.mp he
      exact .inr ok

/-- The handler of the user is invoked. -/
theorem inv_give (inv : Inv sh (f :: rest)) (call : Nat) {r : StatusOr T}
    (flow : Watch.Settling kReady sh.state (rest.filterMap Frame.watching))
    (settings : setting f = false) (winnings : winning f = false)
    (ready : sh.state.value = kReady) (ok : ∃ winner, Claimed sh winner r) :
    Inv (sh.give call r) ([.user] ++ rest) := by
  refine inv_local inv rfl rfl ⟨rfl, rfl⟩ flow ?_ ?_ ?_ (fun e he => .inl he) ?_
    (fun _ h => .inl h)
  · rw [ind_false settings]
    rfl
  · rw [ind_false winnings]
    rfl
  · intro x hx
    obtain rfl := List.mem_singleton.mp hx
    exact ready
  · intro e he
    rcases List.mem_append.mp he with he | he
    · exact .inl he
    · obtain rfl := List.mem_singleton.mp he
      exact .inr ok

/-- Only an OK status, where an error is asked for, fails. -/
theorem inv_fail (inv : Inv sh (f :: rest)) {failure : Failure} (h : Fails sh f failure) :
    Inv (sh.fail failure) ([f] ++ rest) := by
  have hok := inv.frames f List.mem_cons_self
  have hready : ∀ {P : Prop}, sh.state.value = kReady → sh.valid = false ∨ sh.storage = none → P := by
    intro P hvalue hnone
    obtain ⟨hvalid, _, v, _, hv⟩ := inv.ready hvalue
    rcases hnone with hnone | hnone
    · rw [hnone] at hvalid
      cases hvalid
    · rw [hnone] at hv
      cases hv
  have hfails : failure = .okStatus ∧ ∃ call, Sets sh call (.error .kOk) := by
    cases h with
    | setError call => exact ⟨rfl, call, hok⟩
    | construct call => exact ⟨rfl, call, hok.2⟩
    | checkReady call h => exact absurd hok h
    | checkValue call h => exact hready hok (.inl h)
    | readValue call h => exact hready hok (.inr h)
    | handler call h =>
      obtain ⟨v, hv, hvalue⟩ := hok
      cases hv
      exact hready (hvalue rfl) (.inl h)
    | handlerRead call h => exact hready hok (.inr h)
  refine inv_local inv rfl rfl ⟨rfl, rfl⟩ inv.flow ?_ ?_ ?_ (fun e he => .inl he)
    (fun e he => .inl he) ?_
  · simp
  · simp [wins, Shared.fail]
  · intro x hx
    obtain rfl := List.mem_singleton.mp hx
    exact hok.mono ⟨List.prefix_refl _, List.prefix_refl _, List.prefix_refl _, id⟩
      fun _ => ⟨rfl, rfl⟩
  · intro failure' hf
    cases hf
    exact .inr hfails

/-- The frame is done. -/
theorem inv_pop (inv : Inv sh (f :: rest))
    (flow : Watch.Settling kReady sh.state (rest.filterMap Frame.watching))
    (settings : setting f = false) (winnings : winning f = false) : Inv sh ([] ++ rest) := by
  refine inv_local inv rfl rfl ⟨rfl, rfl⟩ flow ?_ ?_ (List.forall_mem_nil _) (fun e he => .inl he)
    (fun e he => .inl he) (fun _ h => .inl h)
  · rw [total_nil, ind_false settings]
  · rw [total_nil, ind_false winnings]

/-- The frame passes a handler to `state_`. -/
theorem inv_wait (inv : Inv sh (f :: rest))
    (flow : Watch.Settling kReady sh.state (rest.filterMap Frame.watching))
    (settings : setting f = false) (winnings : winning f = false) {op : Watch.Op U32}
    {lastSeen : U32} (hop : op = .asyncWait lastSeen ∨ op = .awaitNotEqual lastSeen)
    (unready : lastSeen ≠ kReady) (body : Body) (call : Nat) {site : Site T}
    (ok : FrameOk (sh.beginWait op body).1 (.inWatch call site (sh.beginWait op body).2))
    (hsite : setting (.inWatch call site (sh.beginWait op body).2) = false ∧
      winning (.inWatch call site (sh.beginWait op body).2) = false) :
    Inv (sh.beginWait op body).1 ([.inWatch call site (sh.beginWait op body).2] ++ rest) := by
  have hflow := Watch.settling_begin flow call op (by
    rintro v (rfl | rfl) <;> rcases hop with hop | hop <;> cases hop <;> exact unready)
  have hsame : sh.state.handlers <+: (sh.beginWait op body).1.state.handlers ∧
      (sh.beginWait op body).1.state.value = sh.state.value ∧
      (sh.beginWait op body).1.state.links = sh.state.links := by
    rcases hop with rfl | rfl <;> exact ⟨List.prefix_append _ _, rfl, rfl⟩
  refine inv_change inv hflow hsame.1 hsame.2.1 hsame.2.2 rfl (.inr ⟨rfl, rfl⟩) ?_ ?_ ?_
    (fun e he => .inl he) (fun e he => .inl he) (fun _ h => .inl h)
  · rw [total_cons, total_nil, ind_false hsite.1, ind_false settings]
  · rw [total_cons, total_nil, ind_false hsite.2, ind_false winnings]
    rfl
  · intro x hx
    obtain rfl := List.mem_singleton.mp hx
    exact ok

/-! ## The steps of `emplace` -/

theorem inv_emplace (inv : Inv sh (.emplace call v :: rest)) (storage : Option (StatusOr T)) :
    Inv { sh with valid := false, storage := storage } ([.construct call v] ++ rest) := by
  refine inv_change inv inv.flow (List.prefix_refl _) rfl rfl rfl (.inl rfl) rfl ?_ ?_
    (fun e he => .inl he) (fun e he => .inl he) (fun _ h => .inl h)
  · rfl
  · intro x hx
    obtain rfl := List.mem_singleton.mp hx
    exact inv.frames _ List.mem_cons_self

theorem inv_construct (inv : Inv sh (.construct call v :: rest)) :
    Inv { sh with storage := some v } ([.engage call] ++ rest) := by
  refine inv_change inv inv.flow (List.prefix_refl _) rfl rfl rfl (.inl rfl) rfl ?_ ?_
    (fun e he => .inl he) (fun e he => .inl he) (fun _ h => .inl h)
  · rfl
  · intro x hx
    obtain rfl := List.mem_singleton.mp hx
    exact ⟨v, inv.frames _ List.mem_cons_self, rfl⟩

theorem inv_engage (inv : Inv sh (.engage call :: rest)) :
    Inv { sh with valid := true } ([.inWatch call .setReady (.exchange kReady)] ++ rest) := by
  have hflow := Watch.settling_begin inv.flow call (.setValue kReady) (by
    rintro v (h | h) <;> cases h)
  refine inv_change inv hflow (List.prefix_refl _) rfl rfl rfl (.inl rfl) rfl ?_ ?_
    (fun e he => .inl he) (fun e he => .inl he) (fun _ h => .inl h)
  · rfl
  · intro x hx
    obtain rfl := List.mem_singleton.mp hx
    obtain ⟨v, hc, hv⟩ := inv.frames _ List.mem_cons_self
    exact ⟨v, hc, .inl ⟨rfl, rfl, hv⟩⟩

end

end Batt.Latch
