/-
  What a handler of `async_wait(last_seen, fn)` is given.

  The two loads of `async_wait` only pass on a value other than `last_seen`. A `notify`
  passes on the value its own call stored, and between that store and the moment it takes
  `observers_` a handler that has already seen this value can come into the list: by a
  push (`staleRun` below), or because the list has not been emptied since the value was
  last stored. Then `fn` is given `last_seen`, which the comment on `await_not_equal` rules
  out.

  `unseen` is the condition on a step under which this does not happen: no push of a
  handler whose `last_seen` a notification under way carries, and no store, with a
  notification to follow, of the `last_seen` of a handler in the list. Runs all of whose
  steps meet it deliver a value other than `last_seen` (`delivered_not_equal`).
-/
import Batt.Watch.Wakeup

namespace Batt.Watch

open Interleave

variable {T : Type}

/-! ## Notifications under way -/

/-- The value of a notification that has not taken the observers yet. -/
def carries : Local T → Option T
  | .running _ (.notifyLoad newValue _) => some newValue
  | .running _ (.lockObservers (.notify newValue _)) => some newValue
  | .running _ (.inLock (.notify newValue _) _) => some newValue
  | _ => none

section

variable [DecidableEq T] [Add T] [Sub T] [OrOp T] [AndOp T]

/-- The condition on a step of a thread at `l`; a spurious failure stores nothing. -/
def unseenAt (sh : Shared T) (ls : List (Local T)) : Act T → Local T → Bool
  | .run, .running _ (.pushHandler _ lastSeen _ _) => ls.all fun l => carries l ≠ some lastSeen
  | .run, .running _ pc =>
    match pc.apply sh.value with
    | some newValue => !pc.notifies sh.value ||
        sh.observers.all fun h => sh.handlers[h]? ≠ some newValue
    | none => true
  | _, _ => true

def unseen (c : Conf (Shared T) (Local T)) (i : Nat) (a : Act T) : Bool :=
  match c.locals[i]? with
  | some l => unseenAt c.shared c.locals a l
  | none => true

end

/-! ## The invariant -/

/-- Handler `h` was passed with a `last_seen` other than `v`. -/
def Differs (sh : Shared T) (h : Nat) (v : T) : Prop :=
  ∃ lastSeen, sh.handlers[h]? = some lastSeen ∧ lastSeen ≠ v

theorem Differs.mono {sh sh' : Shared T} {h : Nat} {v : T} (hd : Differs sh h v)
    (hp : sh.handlers <+: sh'.handlers) : Differs sh' h v := by
  obtain ⟨lastSeen, hget, hne⟩ := hd
  exact ⟨lastSeen, getElem?_of_prefix hp hget, hne⟩

/-- The handlers a thread is about to invoke, with the value it is about to pass. -/
def delivers : Local T → Option (List Nat × T)
  | .running _ (.unlockObservers _ (.waitChanged handler nowSeen _)) => some ([handler], nowSeen)
  | .running _ (.unlockObservers _ (.notified obs newValue _)) => some (obs, newValue)
  | .running _ (.invokeNow handler (.ok v) _) => some ([handler], v)
  | .running _ (.invokeAll obs (.ok v) _) => some (obs, v)
  | _ => none

structure Unseen (sh : Shared T) (ls : List (Local T)) : Prop where
  known : ∀ h ∈ sh.observers, h < sh.handlers.length
  carried : ∀ l ∈ ls, ∀ v, carries l = some v → ∀ h ∈ sh.observers, Differs sh h v
  delivered : ∀ l ∈ ls, ∀ obs v, delivers l = some (obs, v) → ∀ h ∈ obs, Differs sh h v
  invoked : ∀ h v, (h, .ok v) ∈ sh.invoked → Differs sh h v

/-! ## The invariant is kept -/

section

variable {sh sh' : Shared T} {l l' : Local T} {ls : List (Local T)} {i call : Nat}

/-- A step that adds no handler to the list. -/
theorem unseen_frame (un : Unseen sh ls)
    (handlers : sh.handlers <+: sh'.handlers) (observers : ∀ h ∈ sh'.observers, h ∈ sh.observers)
    (carried : ∀ v, carries l' = some v → ∀ h ∈ sh'.observers, Differs sh' h v)
    (delivered : ∀ obs v, delivers l' = some (obs, v) → ∀ h ∈ obs, Differs sh' h v)
    (invoked : ∀ h v, (h, .ok v) ∈ sh'.invoked → (h, .ok v) ∈ sh.invoked ∨ Differs sh' h v) :
    Unseen sh' (ls.set i l') := by
  refine ⟨?_, ?_, ?_, ?_⟩
  · intro h hh
    have := un.known h (observers h hh)
    have := handlers.length_le
    omega
  · exact forall_set carried fun j k _ hj v hv h hh =>
      (un.carried k (List.mem_of_getElem? hj) v hv h (observers h hh)).mono handlers
  · exact forall_set delivered fun j k _ hj obs v hv h hh =>
      (un.delivered k (List.mem_of_getElem? hj) obs v hv h hh).mono handlers
  · intro h v hh
    rcases invoked h v hh with hold | hnew
    · exact (un.invoked h v hold).mono handlers
    · exact hnew

/-- The step hands nobody a value and owes no new notification. -/
theorem unseen_quiet (un : Unseen sh ls)
    (handlers : sh.handlers <+: sh'.handlers) (observers : ∀ h ∈ sh'.observers, h ∈ sh.observers)
    (invoked : sh'.invoked = sh.invoked) (carried : carries l' = none)
    (delivered : delivers l' = none) : Unseen sh' (ls.set i l') := by
  refine unseen_frame un handlers observers ?_ ?_ ?_
  · intro v hv
    rw [carried] at hv
    cases hv
  · intro obs v hv
    rw [delivered] at hv
    cases hv
  · intro h v hh
    exact .inl (invoked ▸ hh)

/-- The step keeps the notification it owes. -/
theorem unseen_carry (un : Unseen sh ls) (hi : ls[i]? = some l)
    (handlers : sh'.handlers = sh.handlers) (observers : sh'.observers = sh.observers)
    (invoked : sh'.invoked = sh.invoked) (carried : carries l' = carries l)
    (delivered : delivers l' = none) : Unseen sh' (ls.set i l') := by
  have hpre : sh.handlers <+: sh'.handlers := handlers ▸ List.prefix_refl _
  refine unseen_frame un hpre (fun h hh => observers ▸ hh) ?_ ?_ ?_
  · intro v hv h hh
    rw [carried] at hv
    rw [observers] at hh
    exact (un.carried l (List.mem_of_getElem? hi) v hv h hh).mono hpre
  · intro obs v hv
    rw [delivered] at hv
    cases hv
  · intro h v hh
    exact .inl (invoked ▸ hh)

/-- The step is on its way to hand a value to handlers that have not seen it. -/
theorem unseen_deliver (un : Unseen sh ls) {obs : List Nat} {v : T}
    (handlers : sh'.handlers = sh.handlers) (observers : ∀ h ∈ sh'.observers, h ∈ sh.observers)
    (invoked : sh'.invoked = sh.invoked) (carried : carries l' = none)
    (delivered : delivers l' = some (obs, v)) (hd : ∀ h ∈ obs, Differs sh h v) :
    Unseen sh' (ls.set i l') := by
  have hpre : sh.handlers <+: sh'.handlers := handlers ▸ List.prefix_refl _
  refine unseen_frame un hpre observers ?_ ?_ ?_
  · intro w hw
    rw [carried] at hw
    cases hw
  · intro obs' w hw h hh
    rw [delivered] at hw
    cases hw
    exact (hd h hh).mono hpre
  · intro h w hh
    exact .inl (invoked ▸ hh)

/-- The step hands `result` to a handler that has not seen it. -/
theorem unseen_invoke (un : Unseen sh ls) {handler : Nat} {result : StatusOr T}
    (hd : ∀ v, result = .ok v → Differs sh handler v) (carried : carries l' = none)
    (delivered : ∀ obs v, delivers l' = some (obs, v) → ∀ h ∈ obs, Differs sh h v) :
    Unseen (sh.invoke handler result) (ls.set i l') := by
  refine unseen_frame un (List.prefix_refl _) (fun h hh => hh) ?_ delivered ?_
  · intro w hw
    rw [carried] at hw
    cases hw
  · intro h v hh
    rcases List.mem_append.mp hh with hh | hh
    · exact .inl hh
    · right
      obtain ⟨rfl, rfl⟩ := Prod.mk.inj (List.mem_singleton.mp hh)
      exact hd v rfl

theorem unseen_push (inv : Inv sh ls) (un : Unseen sh ls) {handler : Nat} {lastSeen : T}
    {priorState : SpinState} {k : After T}
    (hi : ls[i]? = some (.running call (.pushHandler handler lastSeen priorState k)))
    (hfree : ∀ l ∈ ls, carries l ≠ some lastSeen) :
    Unseen { sh with observers := sh.observers ++ [handler] } (ls.set i
      (.running call (.unlockObservers (priorState ||| kWaiting) (.waitPushed handler k)))) := by
  have hpassed : sh.handlers[handler]? = some lastSeen := inv.passed _ (List.mem_of_getElem? hi)
  refine ⟨?_, ?_, ?_, un.invoked⟩
  · intro h hh
    rcases List.mem_append.mp hh with hh | hh
    · exact un.known h hh
    · obtain rfl := List.mem_singleton.mp hh
      exact (List.getElem?_eq_some_iff.mp hpassed).1
  · refine forall_set (fun _ => nofun) fun j k _ hj v hv h hh => ?_
    have hk := List.mem_of_getElem? hj
    rcases List.mem_append.mp hh with hh | hh
    · exact un.carried k hk v hv h hh
    · obtain rfl := List.mem_singleton.mp hh
      refine ⟨lastSeen, hpassed, ?_⟩
      rintro rfl
      exact hfree k hk hv
  · exact forall_set (fun _ _ => nofun) fun j k _ hj => un.delivered k (List.mem_of_getElem? hj)

end

section

variable [DecidableEq T] [Add T] [Sub T] [OrOp T] [AndOp T]
variable {sh sh' : Shared T} {l l' : Local T} {ls : List (Local T)} {i call : Nat} {pc pc' : Pc T}

omit [DecidableEq T] [Add T] [Sub T] [OrOp T] [AndOp T] in
/-- A store, with a notification to follow, of a value no handler in the list has seen. -/
theorem unseen_update (un : Unseen sh ls) {newValue : T} {changed : Bool} (ret : Ret T)
    (hnew : changed = true → ∀ h ∈ sh.observers, sh.handlers[h]? ≠ some newValue) :
    Unseen (sh.update call newValue)
      (ls.set i (.running call (afterUpdate changed newValue ret))) := by
  cases changed with
  | false => exact unseen_quiet un (List.prefix_refl _) (fun h hh => hh) rfl rfl rfl
  | true =>
    refine unseen_frame un (List.prefix_refl _) (fun h hh => hh) ?_ (fun _ _ => nofun)
      fun h v hh => .inl hh
    intro v hv h hh
    cases hv
    have hget := List.getElem?_eq_getElem (un.known h hh)
    refine ⟨_, hget, fun heq => hnew rfl h hh ?_⟩
    rw [hget, heq]

/-- What the condition says of a store. -/
theorem unseenAt_update {newValue : T} (hok : unseenAt sh ls .run (.running call pc) = true)
    (applied : pc.apply sh.value = some newValue) (told : pc.notifies sh.value = true) :
    ∀ h ∈ sh.observers, sh.handlers[h]? ≠ some newValue := by
  unfold unseenAt at hok
  split at hok
  · rename_i hpc
    cases hpc
    cases applied
  · rename_i hpc
    cases hpc
    rw [applied, told] at hok
    simpa using hok
  · rename_i hrun
    exact absurd rfl (hrun _ _ rfl)

theorem unseen_trans (inv : Inv sh ls) (un : Unseen sh ls)
    (hi : ls[i]? = some (.running call pc)) (ht : Trans sh call pc sh' pc')
    (hok : unseenAt sh ls .run (.running call pc) = true) :
    Unseen sh' (ls.set i (.running call pc')) := by
  have hmem := List.mem_of_getElem? hi
  cases ht with
  | update applied same told =>
    exact unseen_update un _ fun hc => unseenAt_update hok applied (told hc)
  | awaitModifyNone fn oldValue =>
    exact unseen_quiet un (List.prefix_append _ _) (fun h hh => hh) rfl rfl rfl
  | waitChanged handler lastSeen k changed =>
    refine unseen_deliver un rfl (fun h hh => hh) rfl rfl rfl fun h hh => ?_
    obtain rfl := List.mem_singleton.mp hh
    exact ⟨lastSeen, inv.passed _ hmem, changed.symm⟩
  | reloadChanged handler lastSeen k priorState hopen changed =>
    refine unseen_deliver un rfl (fun h hh => hh) rfl rfl rfl fun h hh => ?_
    obtain rfl := List.mem_singleton.mp hh
    exact ⟨lastSeen, inv.passed _ hmem, changed.symm⟩
  | notifySlow | lockNotify | lockHeld => exact unseen_carry un hi rfl rfl rfl rfl rfl
  | notifyTake newValue ret preLockState =>
    exact unseen_deliver un rfl nofun rfl rfl rfl (un.carried _ hmem newValue rfl)
  | closeTake code priorState =>
    exact unseen_quiet un (List.prefix_refl _) nofun rfl rfl rfl
  | push handler lastSeen priorState k =>
    refine unseen_push inv un hi fun l hl => ?_
    have := List.all_eq_true.mp hok l hl
    simpa using this
  | unlockPushed desiredState handler k =>
    cases k <;> exact unseen_quiet un (List.prefix_refl _) (fun h hh => hh) rfl rfl rfl
  | unlockChanged desiredState handler nowSeen k =>
    exact unseen_deliver un rfl (fun h hh => hh) rfl rfl rfl (un.delivered _ hmem _ _ rfl)
  | unlockNotified desiredState obs newValue ret =>
    exact unseen_deliver un rfl (fun h hh => hh) rfl rfl rfl (un.delivered _ hmem _ _ rfl)
  | invokeNow handler result k =>
    refine unseen_invoke un ?_ ?_ ?_
    · rintro v rfl
      exact un.delivered _ hmem _ _ rfl handler (List.mem_singleton.mpr rfl)
    · cases k <;> rfl
    · cases k <;> exact fun _ _ => nofun
  | invokeCons handler rest result ret =>
    refine unseen_invoke un ?_ rfl ?_
    · rintro v rfl
      exact un.delivered _ hmem _ _ rfl handler List.mem_cons_self
    · intro obs v hv h hh
      cases result with
      | ok w =>
        cases hv
        exact un.delivered _ hmem _ _ rfl h (List.mem_cons_of_mem _ hh)
      | error code => cases hv
  | resume handler k result given =>
    refine unseen_quiet un (List.prefix_refl _) (fun h hh => hh) rfl ?_ ?_ <;>
      cases k <;> cases result <;> rfl
  | _ => exact unseen_quiet un (List.prefix_refl _) (fun h hh => hh) rfl rfl rfl

/-- A spurious failure leaves the watch alone, but for a new handler of `await_modify`. -/
theorem unseen_spurious (un : Unseen sh ls) (hs : step .spurious sh l = some (sh', l')) :
    Unseen sh' (ls.set i l') := by
  unfold step at hs
  split at hs <;> try contradiction
  rename_i call pc _
  split at hs <;> try contradiction
  all_goals
    obtain ⟨⟨s, pc'⟩, he, hr⟩ := Option.map_eq_some_iff.mp hs
    cases hr
    simp only [exec, Bool.false_eq_true, false_and, if_false] at he
  · cases he
    exact unseen_quiet un (List.prefix_refl _) (fun h hh => hh) rfl rfl rfl
  · split at he <;> cases he <;>
      exact unseen_quiet un (List.prefix_refl _) (fun h hh => hh) rfl rfl rfl
  · split at he <;> cases he
    · exact unseen_quiet un (List.prefix_append _ _) (fun h hh => hh) rfl rfl rfl
    · exact unseen_quiet un (List.prefix_refl _) (fun h hh => hh) rfl rfl rfl

theorem unseen_step {a : Act T} (inv : Inv sh ls) (un : Unseen sh ls) (hi : ls[i]? = some l)
    (hok : unseenAt sh ls a l = true) (hs : step a sh l = some (sh', l')) :
    Unseen sh' (ls.set i l') := by
  by_cases hsp : a = .spurious
  · subst hsp
    exact unseen_spurious un hs
  rcases step_cases hs with ⟨op, rfl, rfl, rfl⟩ | ⟨call, ret, rfl, rfl, rfl⟩ |
    ⟨call, pc, pc', rfl, ht, rfl⟩
  · cases op with
    | asyncWait lastSeen | awaitNotEqual lastSeen =>
      exact unseen_quiet un (List.prefix_append _ _) (fun h hh => hh) rfl rfl rfl
    | _ => exact unseen_quiet un (List.prefix_refl _) (fun h hh => hh) rfl rfl rfl
  · exact unseen_quiet un (List.prefix_refl _) (fun h hh => hh) rfl rfl rfl
  · cases a with
    | call op => cases hs
    | spurious => exact absurd rfl hsp
    | run => exact unseen_trans inv un hi ht hok

theorem unseen_reachable {n : Nat} {initValue : T} {c : Conf (Shared T) (Local T)}
    (hr : machine.ReachableWhere unseen (initial n initValue) c) : Unseen c.shared c.locals := by
  have hboth : Inv c.shared c.locals ∧ Unseen c.shared c.locals := by
    refine machine.invariant_runWhere
      (I := fun c => Inv c.shared c.locals ∧ Unseen c.shared c.locals) ?_ ?_ hr
    · intro c i a c' hc hp hf
      obtain ⟨l, sh', l', hi, _, hs, rfl⟩ := machine.fire_cases hf
      unfold unseen at hp
      rw [hi] at hp
      exact ⟨inv_kind hc.1 hi (step_kind hs), unseen_step hc.1 hc.2 hi hp hs⟩
    · refine ⟨inv_initial n initValue, nofun, ?_, ?_, nofun⟩
      · intro l hl v hv
        rw [List.eq_of_mem_replicate hl] at hv
        cases hv
      · intro l hl obs v hv
        rw [List.eq_of_mem_replicate hl] at hv
        cases hv
  exact hboth.2

/-- **A handler is given a value it has not seen**, in every state of every run whose steps
    meet `unseen`. -/
theorem delivered_not_equal (n : Nat) (initValue : T) (c : Conf (Shared T) (Local T))
    (hr : machine.ReachableWhere unseen (initial n initValue) c) :
    ∀ h v, (h, .ok v) ∈ c.shared.invoked →
      ∃ lastSeen, c.shared.handlers[h]? = some lastSeen ∧ v ≠ lastSeen := by
  intro h v hh
  obtain ⟨lastSeen, hget, hne⟩ := (unseen_reachable hr).invoked h v hh
  exact ⟨lastSeen, hget, hne.symm⟩

/-- `async_wait(7)` on a watch that holds 7, then `set_value(9)`. -/
def wakeRun : List (Nat × Act (BitVec 64)) :=
  (0, Act.call (.asyncWait 7)) :: List.replicate 6 (0, Act.run) ++
    (1, Act.call (.setValue 9)) :: List.replicate 6 (1, Act.run)

theorem delivered_not_equal_wakeRun :
    ∃ c, machine.runWhere unseen wakeRun (initial 2 (7 : BitVec 64)) = some c ∧
      c.shared.invoked = [(0, .ok 9)] ∧
      ∃ lastSeen, c.shared.handlers[0]? = some lastSeen ∧ (9 : BitVec 64) ≠ lastSeen := by
  refine ⟨_, rfl, rfl, ?_⟩
  exact delivered_not_equal 2 7 _ ⟨wakeRun, rfl⟩ 0 9 (by decide)

/-- `set_value(2)` has stored and not yet notified when `async_wait(2)` comes: both its loads
    see 2, it registers, and the late `notify(2)` takes it. -/
def staleRun : List (Nat × Act (BitVec 64)) :=
  (0, Act.call (.setValue 2)) :: (0, Act.run) ::
    (1, Act.call (.asyncWait 2)) :: List.replicate 5 (1, Act.run) ++ List.replicate 5 (0, Act.run)

theorem stale_notify_delivers_last_seen :
    ∃ c, machine.run staleRun (initial 2 (1 : BitVec 64)) = some c ∧
      (0, .ok 2) ∈ c.shared.invoked ∧ c.shared.handlers[0]? = some 2 := by
  exact ⟨_, rfl, by decide, rfl⟩

end

end Batt.Watch
