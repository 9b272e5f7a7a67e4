/-
  No lost wakeup in `WatchAtomic`.

  `Inv` is the invariant of every interleaving. Its core is `wake`: a handler in
  `observers_` whose `last_seen` is no longer the value is covered by some mutator that has
  changed the value and has not yet taken the list. The fast path of `notify` gives up that
  promise only when it sees neither `kLocked` nor `kWaiting`; by `lock` and `free` there is
  then no handler in the list and no `async_wait` between its second load and its push.
-/
import Batt.Watch.Steps

namespace Batt.Watch

open Interleave

variable {T : Type} {sh sh' : Shared T} {l : Local T} {call : Nat}

/-! ## Phases of a call -/

/-- Between `lock_observers` and the store of `unlock_observers`. -/
def holds : Local T → Bool
  | .running _ (.inLock _ _) => true
  | .running _ (.pushHandler _ _ _ _) => true
  | .running _ (.unlockObservers _ _) => true
  | _ => false

/-- A mutator that has changed the value and has not yet got the lock in `notify`. -/
def beforeLock : Local T → Bool
  | .running _ (.notifyLoad _ _) => true
  | .running _ (.lockObservers (.notify _ _)) => true
  | _ => false

/-- A mutator that has changed the value and has not yet taken the observers. -/
def willTake : Local T → Bool
  | .running _ (.notifyLoad _ _) => true
  | .running _ (.lockObservers (.notify _ _)) => true
  | .running _ (.inLock (.notify _ _) _) => true
  | _ => false

/-- A mutator between its value change and the end of its `notify`. -/
def notifying : Local T → Bool
  | .running _ (.notifyLoad _ _) => true
  | .running _ (.lockObservers (.notify _ _)) => true
  | .running _ (.inLock (.notify _ _) _) => true
  | .running _ (.unlockObservers _ (.notified _ _ _)) => true
  | .running _ (.invokeAll _ (.ok _) _) => true
  | _ => false

theorem notifying_of_willTake (h : willTake l = true) : notifying l = true := by
  unfold willTake at h
  split at h <;> first | rfl | cases h

/-- The bits of the word agree with the list. -/
def Consistent (s : SpinState) (observers : List Nat) : Prop :=
  (waiting s = true ↔ observers ≠ []) ∧ (isOpen s = false → observers = [])

def SameBits (s s' : SpinState) : Prop :=
  isOpen s' = isOpen s ∧ waiting s' = waiting s ∧ atEnd s' = atEnd s ∧ beforeEnd s' = beforeEnd s

/-- What the thread that holds the lock knows. Nothing is asked of the others. -/
def OwnerOk (sh : Shared T) : Local T → Prop
  | .running _ (.inLock _ priorState) =>
    SameBits sh.spinState priorState ∧ Consistent priorState sh.observers
  | .running _ (.pushHandler _ _ priorState _) =>
    SameBits sh.spinState priorState ∧ Consistent priorState sh.observers ∧
      isOpen priorState = true
  | .running _ (.unlockObservers desiredState _) => Consistent desiredState sh.observers
  | _ => True

/-- The handler a pending `async_wait` carries was passed with the `last_seen` it compares. -/
def Passed (sh : Shared T) : Local T → Prop
  | .running _ (.waitLoad handler lastSeen _) => sh.handlers[handler]? = some lastSeen
  | .running _ (.lockObservers (.asyncWait handler lastSeen _)) =>
    sh.handlers[handler]? = some lastSeen
  | .running _ (.inLock (.asyncWait handler lastSeen _) _) =>
    sh.handlers[handler]? = some lastSeen
  | .running _ (.pushHandler handler lastSeen _ _) => sh.handlers[handler]? = some lastSeen
  | _ => True

/-- `async_wait` has seen no change twice and is about to push. -/
def Unchanged (sh : Shared T) (ls : List (Local T)) : Local T → Prop
  | .running _ (.pushHandler _ lastSeen _ _) =>
    lastSeen = sh.value ∨ 0 < total (ind beforeLock) ls
  | _ => True

structure Inv (sh : Shared T) (ls : List (Local T)) : Prop where
  lock : total (ind holds) ls = if locked sh.spinState then 1 else 0
  free : locked sh.spinState = false → Consistent sh.spinState sh.observers
  owner : ∀ l ∈ ls, OwnerOk sh l
  passed : ∀ l ∈ ls, Passed sh l
  unchanged : ∀ l ∈ ls, Unchanged sh ls l
  wake : ∀ h ∈ sh.observers, sh.handlers[h]? = some sh.value ∨ 0 < total (ind willTake) ls

/-! ## What a step can do -/

/-- The kinds of step the invariant tells apart. Everything a thread does without the lock
    and without touching the value is `quiet`. -/
inductive Kind (sh : Shared T) : Shared T → Local T → Local T → Prop where
  | quiet {sh' : Shared T} {l l' : Local T} (value : sh'.value = sh.value)
      (lock : locked sh'.spinState = locked sh.spinState)
      (bits : SameBits sh.spinState sh'.spinState) (observers : sh'.observers = sh.observers)
      (handlers : sh.handlers <+: sh'.handlers) (out : holds l = false) (out' : holds l' = false)
      (pending : beforeLock l' = beforeLock l) (passed : Passed sh l → Passed sh' l') :
      Kind sh sh' l l'
  | update {sh' : Shared T} {l l' : Local T} (spin : sh'.spinState = sh.spinState)
      (observers : sh'.observers = sh.observers) (handlers : sh'.handlers = sh.handlers)
      (out : holds l = false) (out' : holds l' = false) (idle : beforeLock l = false)
      (pending : sh'.value = sh.value ∨ beforeLock l' = true) (passed : Passed sh' l') :
      Kind sh sh' l l'
  | fastPath (call : Nat) (newValue : T) (ret : Ret T) (free : locked sh.spinState = false)
      (none : waiting sh.spinState = false) :
      Kind sh sh (.running call (.notifyLoad newValue ret)) (.running call (.finish ret))
  | acquire (call : Nat) (site : Site T) (closers : List StatusCode)
      (free : locked sh.spinState = false) :
      Kind sh { sh with spinState := sh.spinState ||| kLocked, closers := closers }
        (.running call (.lockObservers site)) (.running call (.inLock site sh.spinState))
  | leave (call handler : Nat) (lastSeen : T) (k : After T) (priorState : SpinState)
      (u : Unlocked T) :
      Kind sh sh (.running call (.inLock (.asyncWait handler lastSeen k) priorState))
        (.running call (.unlockObservers priorState u))
  | reload (call handler : Nat) (k : After T) (priorState : SpinState)
      (isOpen : isOpen priorState = true) :
      Kind sh sh (.running call (.inLock (.asyncWait handler sh.value k) priorState))
        (.running call (.pushHandler handler sh.value priorState k))
  | take (call : Nat) (site : Site T) (priorState desiredState : SpinState) (u : Unlocked T)
      (cleared : waiting desiredState = false) :
      Kind sh { sh with observers := [] } (.running call (.inLock site priorState))
        (.running call (.unlockObservers desiredState u))
  | push (call handler : Nat) (lastSeen : T) (priorState : SpinState) (k : After T) :
      Kind sh { sh with observers := sh.observers ++ [handler] }
        (.running call (.pushHandler handler lastSeen priorState k))
        (.running call (.unlockObservers (priorState ||| kWaiting) (.waitPushed handler k)))
  | unlock (call : Nat) (desiredState : SpinState) (u : Unlocked T) (l' : Local T)
      (out' : holds l' = false) (pending : beforeLock l' = false)
      (passed : ∀ s : Shared T, Passed s l') :
      Kind sh { sh with spinState := desiredState &&& ~~~kLocked }
        (.running call (.unlockObservers desiredState u)) l'

theorem SameBits.refl (s : SpinState) : SameBits s s := ⟨rfl, rfl, rfl, rfl⟩

theorem kind_begin (sh : Shared T) (op : Op T) (calls : List (Op T)) (call : Nat) :
    Kind sh { (begin sh op).1 with calls := calls } .idle (.running call (begin sh op).2) := by
  cases op <;>
    exact .quiet rfl rfl (.refl _) rfl (by simp [begin, Shared.addHandler]) rfl rfl rfl
      (by simp [begin, Passed, Shared.addHandler])

theorem afterUpdate_out (call : Nat) (changed : Bool) (v : T) (ret : Ret T) :
    holds (.running call (afterUpdate changed v ret)) = false := by
  cases changed <;> rfl

theorem kind_update (sh : Shared T) (call : Nat) (newValue : T) (changed : Bool) (ret : Ret T)
    (pc : Pc T) (out : holds (.running call pc) = false)
    (idle : beforeLock (.running call pc) = false)
    (hch : changed = false → newValue = sh.value) :
    Kind sh (sh.update call newValue) (.running call pc)
      (.running call (afterUpdate changed newValue ret)) := by
  cases changed with
  | false => exact .update rfl rfl rfl out rfl idle (.inl (hch rfl)) trivial
  | true => exact .update rfl rfl rfl out rfl idle (.inr rfl) trivial

theorem quiet_of_eq {l' : Local T} (out : holds l = false) (out' : holds l' = false)
    (pending : beforeLock l' = beforeLock l) (passed : Passed sh l → Passed sh l') :
    Kind sh sh l l' :=
  .quiet rfl rfl (.refl _) rfl (List.prefix_refl _) out out' pending passed

theorem afterWait_phases (call handler : Nat) (k : After T) :
    holds (.running call (afterWait handler k)) = false ∧
      beforeLock (.running call (afterWait handler k)) = false ∧
      ∀ s : Shared T, Passed s (.running call (afterWait handler k)) := by
  cases k <;> exact ⟨rfl, rfl, fun _ => trivial⟩

theorem resume_phases (call : Nat) (k : After T) (result : StatusOr T) :
    holds (.running call (resume k result)) = false ∧
      beforeLock (.running call (resume k result)) = false ∧
      ∀ s : Shared T, Passed s (.running call (resume k result)) := by
  cases k <;> cases result <;> exact ⟨rfl, rfl, fun _ => trivial⟩

section

variable [DecidableEq T] [Add T] [Sub T] [OrOp T] [AndOp T]

omit [DecidableEq T] in
/-- A program point that stores to the value is outside the lock and owes no notification. -/
theorem updating_phases {pc : Pc T} {v newValue : T} (call : Nat)
    (h : pc.apply v = some newValue) :
    holds (.running call pc) = false ∧ beforeLock (.running call pc) = false := by
  unfold Pc.apply at h
  split at h <;> first | exact ⟨rfl, rfl⟩ | cases h

theorem trans_kind {pc pc' : Pc T} (h : Trans sh call pc sh' pc') :
    Kind sh sh' (.running call pc) (.running call pc') := by
  cases h with
  | update applied same told =>
    obtain ⟨hout, hidle⟩ := updating_phases call applied
    exact kind_update sh call _ _ _ pc hout hidle same
  | awaitModifyNone fn oldValue =>
    exact .quiet rfl rfl (.refl _) rfl (List.prefix_append _ _) rfl rfl rfl
      (by simp [Passed, Shared.addHandler])
  | waitSame handler k => exact quiet_of_eq rfl rfl rfl id
  | notifyFast newValue ret free none => exact .fastPath call newValue ret free none
  | lockWait handler lastSeen k free => exact .acquire call _ sh.closers free
  | lockNotify newValue ret free => exact .acquire call _ sh.closers free
  | lockClose code free => exact .acquire call _ _ free
  | lockHeld site held =>
    exact .quiet rfl (by simp [held]) (by simp [SameBits]) rfl (List.prefix_refl _) rfl rfl rfl id
  | waitClosed handler lastSeen k priorState closed =>
    exact .leave call handler lastSeen k priorState _
  | reloadChanged handler lastSeen k priorState hopen changed =>
    exact .leave call handler lastSeen k priorState _
  | reloadSame handler k priorState hopen => exact .reload call handler k priorState hopen
  | notifyTake newValue ret preLockState => exact .take call _ preLockState _ _ (by simp)
  | closeTake code priorState => exact .take call _ priorState _ _ (by simp)
  | push handler lastSeen priorState k => exact .push call handler lastSeen priorState k
  | unlockPushed desiredState handler k =>
    obtain ⟨h1, h2, h3⟩ := afterWait_phases (T := T) call handler k
    exact .unlock call desiredState _ _ h1 h2 h3
  | unlockClosed desiredState | unlockChanged desiredState | unlockNotified desiredState
  | unlockClose desiredState => exact .unlock call desiredState _ _ rfl rfl fun _ => trivial
  | invokeNow handler result k =>
    obtain ⟨h1, h2, h3⟩ := afterWait_phases (T := T) call handler k
    exact .quiet rfl rfl (.refl _) rfl (List.prefix_refl _) rfl h1 h2 fun _ => h3 _
  | invokeCons handler rest result ret =>
    exact .quiet rfl rfl (.refl _) rfl (List.prefix_refl _) rfl rfl rfl fun _ => trivial
  | resume handler k result given =>
    obtain ⟨h1, h2, h3⟩ := resume_phases call k result
    exact quiet_of_eq rfl h1 h2 fun _ => h3 _
  | _ => exact quiet_of_eq rfl rfl rfl fun _ => trivial

theorem step_kind {a : Act T} {l' : Local T} (h : step a sh l = some (sh', l')) :
    Kind sh sh' l l' := by
  rcases step_cases h with ⟨op, rfl, rfl, rfl⟩ | ⟨call, ret, rfl, rfl, rfl⟩ |
    ⟨call, pc, pc', rfl, ht, rfl⟩
  · exact kind_begin sh op _ _
  · exact .quiet rfl rfl (.refl _) rfl (List.prefix_refl _) rfl rfl rfl (fun _ => trivial)
  · exact trans_kind ht

end

/-! ## The invariant is kept -/

theorem ownerOk_of_not_holds (h : holds l = false) :
    OwnerOk sh l := by
  unfold OwnerOk
  split
  case h_4 => trivial
  all_goals cases h

theorem unchanged_of_not_holds {ls : List (Local T)} (h : holds l = false) : Unchanged sh ls l := by
  unfold Unchanged
  split
  · cases h
  · trivial

theorem OwnerOk.congr (h : OwnerOk sh l) (bits : SameBits sh.spinState sh'.spinState)
    (hobs : sh'.observers = sh.observers) :
    OwnerOk sh' l := by
  unfold OwnerOk SameBits at *
  obtain ⟨b1, b2, b3, b4⟩ := bits
  rw [hobs, b1, b2, b3, b4]
  exact h

theorem Passed.mono (h : Passed sh l) (hp : sh.handlers <+: sh'.handlers) : Passed sh' l := by
  unfold Passed at *
  split <;> first | exact getElem?_of_prefix hp h | trivial

/-- A thread outside the lock is about to take the observers exactly while it is still on
    the way to the lock. -/
theorem willTake_eq_beforeLock (h : holds l = false) :
    willTake l = beforeLock l := by
  unfold willTake
  split
  case h_3 => cases h
  case h_4 h1 h2 _ =>
    unfold beforeLock
    split
    · exact absurd rfl (h1 _ _ _)
    · exact absurd rfl (h2 _ _ _)
    · rfl
  all_goals rfl

section

variable {sh sh' : Shared T} {l l' : Local T} {ls : List (Local T)} {i : Nat}

theorem holds_of_lock (inv : Inv sh ls) (h : locked sh.spinState = false) :
    ∀ l ∈ ls, holds l = false := by
  intro l hl
  have h0 : total (ind holds) ls = 0 := by
    rw [inv.lock, h]
    rfl
  have := total_eq_zero.mp h0 l hl
  simpa [ind] using this

theorem others_out (inv : Inv sh ls) (hi : ls[i]? = some l) (hl : holds l = true) :
    ∀ j k, j ≠ i → ls[j]? = some k → holds k = false := by
  intro j k hne hj
  have h1 : total (ind holds) ls ≤ 1 := by
    rw [inv.lock]
    split <;> omega
  have := others_zero h1 hi (by simp [ind, hl]) j k hne hj
  simpa [ind] using this

theorem locked_of_holds (inv : Inv sh ls) (hl : l ∈ ls) (hh : holds l = true) :
    locked sh.spinState = true := by
  by_contra hn
  have := holds_of_lock inv (by simpa using hn) l hl
  rw [hh] at this
  cases this

theorem inv_quiet (inv : Inv sh ls) (hi : ls[i]? = some l)
    (value : sh'.value = sh.value) (lock : locked sh'.spinState = locked sh.spinState)
    (bits : SameBits sh.spinState sh'.spinState) (observers : sh'.observers = sh.observers)
    (handlers : sh.handlers <+: sh'.handlers) (out : holds l = false) (out' : holds l' = false)
    (pending : beforeLock l' = beforeLock l) (passed : Passed sh l → Passed sh' l') :
    Inv sh' (ls.set i l') := by
  have hmem : l ∈ ls := List.mem_of_getElem? hi
  have hhold := total_set (ind holds) l' hi
  have hbefore := total_set (ind beforeLock) l' hi
  have htake := total_set (ind willTake) l' hi
  have hhold' : total (ind holds) (ls.set i l') = total (ind holds) ls := by
    rw [ind_false out, ind_false out'] at hhold
    exact hhold
  have hbefore' : total (ind beforeLock) (ls.set i l') = total (ind beforeLock) ls := by
    unfold ind at hbefore ⊢
    rw [pending] at hbefore
    exact Nat.add_right_cancel hbefore
  have htake' : total (ind willTake) (ls.set i l') = total (ind willTake) ls := by
    unfold ind at htake ⊢
    rw [willTake_eq_beforeLock out, willTake_eq_beforeLock out', pending] at htake
    exact Nat.add_right_cancel htake
  refine ⟨?_, ?_, ?_, ?_, ?_, ?_⟩
  · rw [hhold', lock]
    exact inv.lock
  · intro hfree
    have := inv.free (lock ▸ hfree)
    unfold Consistent at *
    rw [observers, bits.1, bits.2.1]
    exact this
  · exact forall_set (ownerOk_of_not_holds out')
      fun j k _ hj => (inv.owner k (List.mem_of_getElem? hj)).congr bits observers
  · exact forall_set (passed (inv.passed l hmem))
      fun j k _ hj => (inv.passed k (List.mem_of_getElem? hj)).mono handlers
  · refine forall_set (unchanged_of_not_holds out') fun j k _ hj => ?_
    have := inv.unchanged k (List.mem_of_getElem? hj)
    unfold Unchanged at *
    rw [value, hbefore']
    exact this
  · intro h hh
    rw [observers] at hh
    rcases inv.wake h hh with hv | hp
    · left
      rw [value]
      exact getElem?_of_prefix handlers hv
    · right
      rw [htake']
      exact hp

theorem inv_update (inv : Inv sh ls) (hi : ls[i]? = some l)
    (spin : sh'.spinState = sh.spinState) (observers : sh'.observers = sh.observers)
    (handlers : sh'.handlers = sh.handlers) (out : holds l = false) (out' : holds l' = false)
    (idle : beforeLock l = false) (pending : sh'.value = sh.value ∨ beforeLock l' = true)
    (passed : Passed sh' l') : Inv sh' (ls.set i l') := by
  have hhold := total_set (ind holds) l' hi
  have hbefore := total_set (ind beforeLock) l' hi
  have htake := total_set (ind willTake) l' hi
  simp only [ind, out, out', idle, willTake_eq_beforeLock out, willTake_eq_beforeLock out',
    Bool.false_eq_true, ↓reduceIte] at hhold hbefore htake
  have hhold' : total (ind holds) (ls.set i l') = total (ind holds) ls := by omega
  refine ⟨?_, ?_, ?_, ?_, ?_, ?_⟩
  · rw [hhold', spin]
    exact inv.lock
  · rw [spin, observers]
    exact inv.free
  · exact forall_set (ownerOk_of_not_holds out') fun j k _ hj =>
      (inv.owner k (List.mem_of_getElem? hj)).congr (spin ▸ .refl _) observers
  · exact forall_set passed fun j k _ hj =>
      (inv.passed k (List.mem_of_getElem? hj)).mono (handlers ▸ List.prefix_refl _)
  · refine forall_set (unchanged_of_not_holds out') fun j k _ hj => ?_
    have hk := inv.unchanged k (List.mem_of_getElem? hj)
    unfold Unchanged at *
    split at hk
    · rcases pending with hv | hp
      · rw [hv]
        exact hk.imp_right fun hpos => by omega
      · right
        rw [hp] at hbefore
        simp only [↓reduceIte] at hbefore
        omega
    · trivial
  · intro h hh
    rw [observers] at hh
    rcases pending with hv | hp
    · rw [hv, handlers]
      exact (inv.wake h hh).imp_right fun hpos => by omega
    · right
      rw [hp] at htake
      simp only [↓reduceIte] at htake
      omega

/-- The fast path: no lock and no waiter, so the mutator owes nothing. -/
theorem inv_fastPath {newValue : T} {ret : Ret T} (inv : Inv sh ls)
    (hi : ls[i]? = some (.running call (.notifyLoad newValue ret)))
    (free : locked sh.spinState = false) (none : waiting sh.spinState = false) :
    Inv sh (ls.set i (.running call (.finish ret))) := by
  have hobs : sh.observers = [] := by
    by_contra hne
    have := (inv.free free).1.mpr hne
    rw [none] at this
    cases this
  have hhold := total_set (ind holds) (.running call (.finish ret)) hi
  have hhold' : total (ind holds) (ls.set i (.running call (.finish ret))) =
      total (ind holds) ls := by
    simpa [ind, holds] using hhold
  refine ⟨?_, inv.free, ?_, ?_, ?_, ?_⟩
  · rw [hhold']
    exact inv.lock
  · exact forall_set trivial fun j k _ hj => inv.owner k (List.mem_of_getElem? hj)
  · exact forall_set trivial fun j k _ hj => inv.passed k (List.mem_of_getElem? hj)
  · exact forall_set trivial fun j k _ hj =>
      unchanged_of_not_holds (holds_of_lock inv free k (List.mem_of_getElem? hj))
  · intro h hh
    rw [hobs] at hh
    cases hh

theorem inv_acquire {site : Site T} {closers : List StatusCode} (inv : Inv sh ls)
    (hi : ls[i]? = some (.running call (.lockObservers site))) (free : locked sh.spinState = false)
    :
    Inv { sh with spinState := sh.spinState ||| kLocked, closers := closers }
      (ls.set i (.running call (.inLock site sh.spinState))) := by
  have hmem := List.mem_of_getElem? hi
  have hhold := total_set (ind holds) (.running call (.inLock site sh.spinState)) hi
  have htake := total_set (ind willTake) (.running call (.inLock site sh.spinState)) hi
  have h0 : total (ind holds) ls = 0 := by
    rw [inv.lock, free]
    rfl
  refine ⟨?_, ?_, ?_, ?_, ?_, ?_⟩
  · simp only [ind, holds, h0, ↓reduceIte, Bool.false_eq_true] at hhold
    simpa using hhold
  · intro hl
    simp at hl
  · exact forall_set ⟨by simp [SameBits], inv.free free⟩ fun j k _ hj =>
      ownerOk_of_not_holds (holds_of_lock inv free k (List.mem_of_getElem? hj))
  · refine forall_set ?_ fun j k _ hj => inv.passed k (List.mem_of_getElem? hj)
    have := inv.passed _ hmem
    cases site <;> exact this
  · exact forall_set trivial fun j k _ hj =>
      unchanged_of_not_holds (holds_of_lock inv free k (List.mem_of_getElem? hj))
  · intro h hh
    refine (inv.wake h hh).imp_right fun hpos => ?_
    cases site <;> simp [ind, willTake] at htake <;> omega

/-- A step of the thread that holds the lock and keeps it. -/
theorem inv_holding (inv : Inv sh ls) (hi : ls[i]? = some l) (hl : holds l = true)
    (hl' : holds l' = true) (spin : sh'.spinState = sh.spinState)
    (handlers : sh'.handlers = sh.handlers) (owner : OwnerOk sh' l') (passed : Passed sh' l')
    (unchanged : Unchanged sh' (ls.set i l') l')
    (wake : ∀ h ∈ sh'.observers,
      sh'.handlers[h]? = some sh'.value ∨ 0 < total (ind willTake) (ls.set i l')) :
    Inv sh' (ls.set i l') := by
  have hout := others_out inv hi hl
  have hlocked := locked_of_holds inv (List.mem_of_getElem? hi) hl
  have hhold := total_set (ind holds) l' hi
  simp only [ind, hl, hl', ↓reduceIte] at hhold
  refine ⟨?_, ?_, ?_, ?_, ?_, wake⟩
  · rw [spin, ← inv.lock]
    omega
  · intro hfree
    rw [spin, hlocked] at hfree
    cases hfree
  · exact forall_set owner fun j k hne hj => ownerOk_of_not_holds (hout j k hne hj)
  · exact forall_set passed fun j k _ hj =>
      (inv.passed k (List.mem_of_getElem? hj)).mono (handlers ▸ List.prefix_refl _)
  · exact forall_set unchanged fun j k hne hj => unchanged_of_not_holds (hout j k hne hj)

/-- `async_wait` pushes its handler: a change since its second load has a mutator that is
    still on the way to the lock and so will take the handler. -/
theorem inv_push {handler : Nat} {lastSeen : T} {priorState : SpinState} {k : After T}
    (inv : Inv sh ls)
    (hi : ls[i]? = some (.running call (.pushHandler handler lastSeen priorState k))) :
    Inv { sh with observers := sh.observers ++ [handler] } (ls.set i
      (.running call (.unlockObservers (priorState ||| kWaiting) (.waitPushed handler k)))) := by
  have hmem := List.mem_of_getElem? hi
  obtain ⟨hbits, hcons, hopen⟩ := inv.owner _ hmem
  have htake := total_set (ind willTake)
    (.running call (.unlockObservers (priorState ||| kWaiting) (.waitPushed handler k))) hi
  simp only [ind, willTake, Bool.false_eq_true, ↓reduceIte, Nat.add_zero] at htake
  refine inv_holding inv hi rfl rfl rfl rfl ⟨by simp, by simp [hopen]⟩ trivial trivial ?_
  intro h hh
  rw [htake]
  rcases List.mem_append.mp hh with hold | hnew
  · exact inv.wake h hold
  · obtain rfl := List.mem_singleton.mp hnew
    have hpassed : sh.handlers[h]? = some lastSeen := inv.passed _ hmem
    rcases inv.unchanged _ hmem with rfl | hpos
    · exact .inl hpassed
    · have hle : total (ind beforeLock) ls ≤ total (ind willTake) ls := by
        refine total_mono ls fun l => ?_
        unfold ind beforeLock willTake
        split <;> simp
      exact .inr (by omega)

theorem inv_unlock {desiredState : SpinState} {u : Unlocked T} (inv : Inv sh ls)
    (hi : ls[i]? = some (.running call (.unlockObservers desiredState u))) (out' : holds l' = false)
    (pending : beforeLock l' = false) (passed : ∀ s, Passed s l') :
    Inv { sh with spinState := desiredState &&& ~~~kLocked } (ls.set i l') := by
  have hmem := List.mem_of_getElem? hi
  have hout := others_out inv hi rfl
  have hlocked := locked_of_holds inv hmem rfl
  have hcons : Consistent desiredState sh.observers := inv.owner _ hmem
  have hhold := total_set (ind holds) l' hi
  have htake := total_set (ind willTake) l' hi
  have hone := inv.lock
  rw [hlocked] at hone
  rw [ind_false out', ind_true (p := holds) rfl, hone, if_pos rfl] at hhold
  rw [ind_false (p := willTake) rfl, ind_false ((willTake_eq_beforeLock out').trans pending)]
    at htake
  refine ⟨?_, ?_, ?_, ?_, ?_, ?_⟩
  · simp only [bits_unlock, Bool.false_eq_true, ↓reduceIte]
    omega
  · intro _
    simpa [Consistent] using hcons
  · exact forall_set (ownerOk_of_not_holds out')
      fun j k hne hj => ownerOk_of_not_holds (hout j k hne hj)
  · exact forall_set (passed _) fun j k _ hj => inv.passed k (List.mem_of_getElem? hj)
  · exact forall_set (unchanged_of_not_holds out')
      fun j k hne hj => unchanged_of_not_holds (hout j k hne hj)
  · intro h hh
    exact (inv.wake h hh).imp_right fun hpos => by omega

theorem inv_kind (inv : Inv sh ls) (hi : ls[i]? = some l) (hk : Kind sh sh' l l') :
    Inv sh' (ls.set i l') := by
  have hmem := List.mem_of_getElem? hi
  cases hk with
  | quiet value lock bits observers handlers out out' pending passed =>
    exact inv_quiet inv hi value lock bits observers handlers out out' pending passed
  | update spin observers handlers out out' idle pending passed =>
    exact inv_update inv hi spin observers handlers out out' idle pending passed
  | fastPath call newValue ret free none => exact inv_fastPath inv hi free none
  | acquire call site closers free => exact inv_acquire inv hi free
  | leave call handler lastSeen k priorState u =>
    obtain ⟨_, hcons⟩ := inv.owner _ hmem
    have htake := total_set (ind willTake) (.running call (.unlockObservers priorState u)) hi
    simp only [ind, willTake, Bool.false_eq_true, ↓reduceIte, Nat.add_zero] at htake
    exact inv_holding inv hi rfl rfl rfl rfl hcons trivial trivial (htake ▸ inv.wake)
  | reload call handler k priorState hopen =>
    obtain ⟨hbits, hcons⟩ := inv.owner _ hmem
    have htake := total_set (ind willTake)
      (.running call (.pushHandler handler sh.value priorState k)) hi
    simp only [ind, willTake, Bool.false_eq_true, ↓reduceIte, Nat.add_zero] at htake
    have hpassed : sh.handlers[handler]? = some sh.value := inv.passed _ hmem
    exact inv_holding inv hi rfl rfl rfl rfl ⟨hbits, hcons, hopen⟩ hpassed (.inl rfl)
      (htake ▸ inv.wake)
  | take call site priorState desiredState u cleared =>
    refine inv_holding inv hi rfl rfl rfl rfl ⟨by simp [cleared], fun _ => rfl⟩ trivial trivial ?_
    intro h hh
    cases hh
  | push call handler lastSeen priorState k => exact inv_push inv hi
  | unlock call desiredState u l' out' pending passed =>
    exact inv_unlock inv hi out' pending passed

end

theorem inv_initial (n : Nat) (initValue : T) :
    Inv (initial n initValue).shared (initial n initValue).locals := by
  have hidle : ∀ l ∈ (initial n initValue).locals, l = .idle := by
    intro l hl
    exact List.eq_of_mem_replicate hl
  refine ⟨?_, ?_, ?_, ?_, ?_, ?_⟩
  · simp [initial, total_replicate, ind, holds]
  · intro _
    simp [initial, Consistent]
  · intro l hl
    rw [hidle l hl]
    trivial
  · intro l hl
    rw [hidle l hl]
    trivial
  · intro l hl
    rw [hidle l hl]
    trivial
  · intro h hh
    cases hh

section

variable [DecidableEq T] [Add T] [Sub T] [OrOp T] [AndOp T]

/-- The invariant holds in every state of every interleaving. -/
theorem inv_reachable {n : Nat} {initValue : T} {c : Conf (Shared T) (Local T)}
    (hr : machine.Reachable (initial n initValue) c) : Inv c.shared c.locals := by
  refine machine.invariant (I := fun c => Inv c.shared c.locals) ?_ (inv_initial n initValue) hr
  intro c i a c' inv hf
  obtain ⟨l, sh', l', hi, _, hs, rfl⟩ := machine.fire_cases hf
  exact inv_kind inv hi (step_kind hs)

/-- **No lost wakeup.** For any number of threads and any interleaving of their calls:
    when nobody holds the spin lock and no mutator is between its value change and the end
    of its `notify`, every handler in `observers_` was passed with a `last_seen` equal to
    the current value, `kWaiting` is set exactly when there are observers, and a closed
    watch has none. -/
theorem no_lost_wakeup (n : Nat) (initValue : T) (c : Conf (Shared T) (Local T))
    (hr : machine.Reachable (initial n initValue) c)
    (hfree : c.shared.spinState &&& kLocked = 0)
    (hquiet : ∀ l ∈ c.locals, notifying l = false) :
    (∀ h ∈ c.shared.observers, c.shared.handlers[h]? = some c.shared.value) ∧
      (c.shared.spinState &&& kWaiting ≠ 0 ↔ c.shared.observers ≠ []) ∧
      (c.shared.spinState &&& kOpen = 0 → c.shared.observers = []) := by
  have inv := inv_reachable hr
  obtain ⟨hwait, hclosed⟩ := inv.free ((and_kLocked_eq_zero _).mp hfree)
  refine ⟨?_, ?_, ?_⟩
  · intro h hh
    rcases inv.wake h hh with hv | hpos
    · exact hv
    · obtain ⟨l, hl, hpl⟩ := exists_of_total_pos hpos
      have := hquiet l hl
      rw [notifying_of_willTake (ind_pos.mp hpl)] at this
      cases this
  · rw [← hwait, and_kWaiting]
    cases waiting c.shared.spinState <;> decide
  · intro ho
    exact hclosed ((and_kOpen_eq_zero _).mp ho)

/-- One `async_wait(7)` on a watch that holds 7. -/
def waitRun : List (Nat × Act (BitVec 64)) :=
  (0, .call (.asyncWait 7)) :: List.replicate 6 (0, .run)

theorem no_lost_wakeup_waitRun :
    ∃ c, machine.run waitRun (initial 2 (7 : BitVec 64)) = some c ∧
      c.shared.observers = [0] ∧ c.shared.handlers[0]? = some c.shared.value := by
  refine ⟨_, rfl, rfl, ?_⟩
  exact (no_lost_wakeup 2 7 _ ⟨waitRun, rfl⟩ rfl (by decide)).1 0 (by decide)

end

end Batt.Watch
