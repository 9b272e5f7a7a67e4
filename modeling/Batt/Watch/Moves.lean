/-
  What a step of a component does to one of its watches.

  A thread of the component has at most one call into the watch under way. In one step it leaves
  the watch alone, makes the next access of its call, begins one, or lets it return; a call that
  returns may be followed by the next in the same step (`Moves`).

  `Used K code` holds of a watch all of whose closes have the same `code` and whose values satisfy
  `K`: the value, what the calls under way are about to tell, and what the handlers were given.
  Once such a watch is closed nobody is queued on it, and who is told an error is told the status
  that `code` selects.
-/
import Batt.Watch.Callers

namespace Batt.Watch

open Interleave

variable {T : Type} {h call : Nat} {pc : Pc T} {l l' : Local T} {result : StatusOr T} {new old : T}
  {w' : Shared T}

/-- A watch with the calls under way on it. -/
structure Used (K : T → Prop) (code : StatusCode) (w : Shared T) (ls : List (Local T)) : Prop
    extends Sound w ls where
  value : K w.value
  told : ∀ l ∈ ls, ∀ v ∈ tells l, K v
  invoked : ∀ h v, (h, .ok v) ∈ w.invoked → K v
  codes : ∀ c ∈ w.closers, c = code
  closes : ∀ l ∈ ls, ∀ call c, l = .running call (.lockObservers (.close c)) → c = code

section

variable [DecidableEq T] [Add T] [Sub T] [OrOp T] [AndOp T]

inductive Moves (code : StatusCode) (w : Shared T) : Local T → Shared T → Local T → Prop where
  | stay (l : Local T) : Moves code w l w l
  | access {pc pc' : Pc T} {w' : Shared T} (trans : Trans w 0 pc w' pc') :
      Moves code w (.running 0 pc) w' (.running 0 pc')
  | leave {pc : Pc T} {w' : Shared T} {ret : Ret T} (trans : Trans w 0 pc w' (.finish ret)) :
      Moves code w (.running 0 pc) w' .idle
  | enter (op : Op T) (closes : ∀ c, op = .close c → c = code) :
      Moves code w .idle (begin w op).1 (.running 0 (begin w op).2)
  | again {pc : Pc T} {w' : Shared T} {ret : Ret T} (trans : Trans w 0 pc w' (.finish ret))
      (op : Op T) (closes : ∀ c, op = .close c → c = code) :
      Moves code w (.running 0 pc) (begin w' op).1 (.running 0 (begin w' op).2)

end

/-! ## What a first access leaves alone -/

theorem begin_value (w : Shared T) (op : Op T) : (begin w op).1.value = w.value := by
  cases op <;> rfl

theorem begin_invoked (w : Shared T) (op : Op T) : (begin w op).1.invoked = w.invoked := by
  cases op <;> rfl

theorem begin_closers (w : Shared T) (op : Op T) : (begin w op).1.closers = w.closers := by
  cases op <;> rfl

theorem begin_spinState (w : Shared T) (op : Op T) : (begin w op).1.spinState = w.spinState := by
  cases op <;> rfl

theorem begin_tells (w : Shared T) (op : Op T) (call : Nat) :
    tells (.running call (begin w op).2) = [] := by
  cases op <;> rfl

/-! ## Steps -/

section

variable {K K' : T → Prop} {code : StatusCode} {w w' : Shared T} {ls : List (Local T)}
variable {i call : Nat} {pc pc' : Pc T}

theorem Used.mono (u : Used K code w ls) (h : ∀ v, K v → K' v) : Used K' code w ls where
  toSound := u.toSound
  value := h _ u.value
  told := fun l hl v hv => h v (u.told l hl v hv)
  invoked := fun n v he => h v (u.invoked n v he)
  codes := u.codes
  closes := u.closes

theorem used_enter (u : Used K code w ls) (hi : ls[i]? = some .idle) (call : Nat) (op : Op T)
    (hop : ∀ c, op = .close c → c = code) :
    Used K code (begin w op).1 (ls.set i (.running call (begin w op).2)) where
  toSound := sound_begin u.toSound hi op
  value := begin_value w op ▸ u.value
  told := by
    refine forall_set ?_ fun j k _ hj => u.told k (List.mem_of_getElem? hj)
    intro v hv
    rw [begin_tells] at hv
    cases hv
  invoked := by
    rw [begin_invoked]
    exact u.invoked
  codes := by
    rw [begin_closers]
    exact u.codes
  closes := by
    refine forall_set ?_ fun j k _ hj => u.closes k (List.mem_of_getElem? hj)
    intro call' c hl
    cases op with
    | close c' =>
      cases hl
      exact hop c rfl
    | _ => cases hl

theorem used_leave {ret : Ret T} (u : Used K code w ls)
    (hi : ls[i]? = some (.running call (.finish ret))) : Used K code w (ls.set i .idle) where
  toSound := sound_return u.toSound hi
  value := u.value
  told := forall_set nofun fun _ k _ hj => u.told k (List.mem_of_getElem? hj)
  invoked := u.invoked
  codes := u.codes
  closes := forall_set nofun fun _ k _ hj => u.closes k (List.mem_of_getElem? hj)

variable [DecidableEq T] [Add T] [Sub T] [OrOp T] [AndOp T]

theorem trans_closers (ht : Trans w call pc w' pc') {c : StatusCode} (hc : c ∈ w'.closers) :
    c ∈ w.closers ∨ pc = .lockObservers (.close c) := by
  cases ht with
  | lockClose c' free =>
    rcases List.mem_append.mp hc with hc | hc
    · exact .inl hc
    · rw [List.mem_singleton.mp hc]
      exact .inr rfl
  | _ => exact .inl hc

theorem trans_lockClose (ht : Trans w call pc w' pc') {c : StatusCode}
    (hpc : pc' = .lockObservers (.close c)) : pc = .lockObservers (.close c) := by
  cases ht with
  | @update _ newValue changed applied same told => cases changed <;> cases hpc
  | unlockPushed _ _ k | invokeNow _ _ k => cases k <;> cases hpc
  | resume _ k result _ => cases k <;> cases result <;> cases hpc
  | lockHeld site held => exact hpc
  | _ => cases hpc

theorem used_trans (u : Used K code w ls) (hi : ls[i]? = some (.running call pc))
    (ht : Trans w call pc w' pc') (hK : K w'.value) :
    Used K code w' (ls.set i (.running call pc')) where
  toSound := sound_trans u.toSound hi ht
  value := hK
  told := by
    refine forall_set ?_ fun j k _ hj => u.told k (List.mem_of_getElem? hj)
    intro v hv
    rcases trans_tells ht hv with h | rfl | rfl | ⟨h, he⟩
    · exact u.told _ (List.mem_of_getElem? hi) v h
    · exact u.value
    · exact hK
    · exact u.invoked h v he
  invoked := by
    intro h v he
    rcases trans_invoked ht he with he | hv
    · exact u.invoked h v he
    · exact u.told _ (List.mem_of_getElem? hi) v hv
  codes := by
    intro c hc
    rcases trans_closers ht hc with hc | rfl
    · exact u.codes c hc
    · exact u.closes _ (List.mem_of_getElem? hi) call c rfl
  closes := by
    refine forall_set ?_ fun j k _ hj => u.closes k (List.mem_of_getElem? hj)
    intro call' c hl
    cases hl
    rw [trans_lockClose ht rfl] at hi
    exact u.closes _ (List.mem_of_getElem? hi) call c rfl

theorem used_moves (u : Used K code w ls) (hi : ls[i]? = some l) (hm : Moves code w l w' l')
    (hK : K w'.value) : Used K code w' (ls.set i l') := by
  have hlt := (List.getElem?_eq_some_iff.mp hi).1
  cases hm with
  | stay l =>
    obtain ⟨hlt, rfl⟩ := List.getElem?_eq_some_iff.mp hi
    rw [List.set_getElem_self]
    exact u
  | access trans => exact used_trans u hi trans hK
  | leave trans =>
    have h := used_leave (used_trans u hi trans hK) (List.getElem?_set_self hlt)
    rwa [List.set_set] at h
  | enter op closes => exact used_enter u hi 0 op closes
  | @again pc w₁ ret trans op closes =>
    rw [begin_value] at hK
    have h := used_leave (used_trans u hi trans hK) (List.getElem?_set_self hlt)
    rw [List.set_set] at h
    have h' := used_enter h (List.getElem?_set_self hlt) 0 op closes
    rwa [List.set_set] at h'

end

theorem used_new {K : T → Prop} {initValue : T} {ls : List (Local T)} (code : StatusCode)
    (hK : K initValue) (hls : ∀ l ∈ ls, l = .idle) :
    Used K code (initial 0 initValue).shared ls where
  toSound := by
    refine (sound_new initValue).congr (fun l hl => .inr (hls l hl)) fun f hf => ?_
    refine total_eq_zero.mpr fun l hl => ?_
    rw [hls l hl]
    exact hf
  value := hK
  told := by
    intro l hl v hv
    rw [hls l hl] at hv
    cases hv
  invoked := nofun
  codes := nofun
  closes := by
    intro l hl call c hc
    rw [hls l hl] at hc
    cases hc

/-! ## Invocations -/

/-- The program point that invokes handler `h` with `result`. -/
inductive Invokes (h : Nat) (result : StatusOr T) : Pc T → Prop where
  | now (k : After T) : Invokes h result (.invokeNow h result k)
  | all (rest : List Nat) (ret : Ret T) : Invokes h result (.invokeAll (h :: rest) result ret)

theorem Invokes.held (hi : Invokes h result pc) (call : Nat) :
    0 < held h (.running call pc) := by
  cases hi with
  | now k =>
    simp only [Watch.held, owned, ownedHandler, if_true]
    omega
  | all rest ret =>
    simp only [Watch.held, inLocal, localObservers, List.count_cons_self]
    omega

theorem Invokes.tells {v : T} (hi : Invokes h (.ok v) pc) (call : Nat) :
    v ∈ tells (.running call pc) := by
  cases hi <;> exact List.mem_cons_self

section

variable [DecidableEq T] [Add T] [Sub T] [OrOp T] [AndOp T]

/-- An access invokes one handler, or none. -/
theorem trans_invokes {w : Shared T} {pc' : Pc T} (ht : Trans w call pc w' pc') :
    w'.invoked = w.invoked ∨ ∃ h result, Invokes h result pc ∧ w' = w.invoke h result := by
  cases ht with
  | invokeNow h result k => exact .inr ⟨h, result, .now k, rfl⟩
  | invokeCons h rest result ret => exact .inr ⟨h, result, .all rest ret, rfl⟩
  | _ => exact .inl rfl

end

/-! ## Kinds of call -/

/-- A call that has changed `old` to `new` and is in its `notify`. -/
inductive Announces (old new : T) : Pc T → Prop where
  | load : Announces old new (.notifyLoad new (.value old))
  | lock : Announces old new (.lockObservers (.notify new (.value old)))
  | inLock (s : SpinState) : Announces old new (.inLock (.notify new (.value old)) s)
  | unlock (s : SpinState) (obs : List Nat) :
      Announces old new (.unlockObservers s (.notified obs new (.value old)))
  | invoke (obs : List Nat) : Announces old new (.invokeAll obs (.ok new) (.value old))

/-- A `close` under way. -/
inductive Closes : Pc T → Prop where
  | lock (code : StatusCode) : Closes (.lockObservers (.close code))
  | inLock (code : StatusCode) (s : SpinState) : Closes (.inLock (.close code) s)
  | unlock (s : SpinState) (obs : List Nat) : Closes (.unlockObservers s (.closed obs))
  | status (obs : List Nat) : Closes (.getFinalStatus (.close obs))
  | invoke (obs : List Nat) (code : StatusCode) : Closes (.invokeAll obs (.error code) .unit)

/-- A call that makes no update: its result is settled, or it waits. -/
def Steady (pc : Pc T) : Prop :=
  (∃ ret, pc.stage = .done ret) ∨ ∃ h k, pc.stage = .wait h k ∧ ∀ fn, k ≠ .awaitModify fn

theorem Announces.steady (ha : Announces old new pc) : Steady pc := by
  cases ha <;> exact .inl ⟨_, rfl⟩

theorem Closes.steady (hc : Closes pc) : Steady pc := by
  cases hc <;> exact .inl ⟨_, rfl⟩

theorem mem_localObservers (hl : ownedHandler l = none) (hh : 0 < held h l) :
    h ∈ localObservers l := by
  unfold held owned at hh
  rw [hl, if_neg nofun, Nat.zero_add] at hh
  exact List.count_pos_iff.mp hh

theorem Announces.observed (ha : Announces old new pc) (hh : 0 < held h (.running call pc)) :
    h ∈ localObservers (.running call pc) := by
  refine mem_localObservers ?_ hh
  cases ha <;> rfl

theorem Closes.observed (hc : Closes pc) (hh : 0 < held h (.running call pc)) :
    h ∈ localObservers (.running call pc) := by
  refine mem_localObservers ?_ hh
  cases hc <;> rfl

theorem Announces.invokes (ha : Announces old new pc) (hi : Invokes h result pc) :
    result = .ok new := by
  cases hi with
  | now k => cases ha
  | all rest ret =>
    cases ha
    rfl

theorem Closes.invokes (hc : Closes pc) (hi : Invokes h result pc) :
    ∃ code, result = .error code := by
  cases hi with
  | now k => cases hc
  | all rest ret =>
    cases hc with
    | invoke obs code => exact ⟨code, rfl⟩

section

variable [DecidableEq T] [Add T] [Sub T] [OrOp T] [AndOp T]
variable {w w' : Shared T} {call : Nat} {pc pc' : Pc T}

theorem closes_trans (hc : Closes pc) (ht : Trans w call pc w' pc') :
    Closes pc' ∨ pc' = .finish .unit := by
  cases hc with
  | lock code =>
    cases ht with
    | lockClose free => exact .inl (.inLock code _)
    | lockHeld held => exact .inl (.lock code)
    | update applied same told => cases applied
  | inLock code s =>
    cases ht with
    | closeTake => exact .inl (.unlock _ _)
    | update applied same told => cases applied
  | unlock s obs =>
    cases ht with
    | unlockClose => exact .inl (.status obs)
    | update applied same told => cases applied
  | status obs =>
    cases ht with
    | statusClose => exact .inl (.invoke obs _)
    | update applied same told => cases applied
  | invoke obs code =>
    cases ht with
    | invokeNil => exact .inr rfl
    | invokeCons => exact .inl (.invoke _ code)
    | update applied same told => cases applied

theorem announces_trans (ha : Announces old new pc) (ht : Trans w call pc w' pc') :
    Announces old new pc' ∨ pc' = .finish (.value old) := by
  cases ha with
  | load =>
    cases ht with
    | notifyFast free quiet => exact .inr rfl
    | notifySlow => exact .inl .lock
    | update applied same told => cases applied
  | lock =>
    cases ht with
    | lockNotify free => exact .inl (.inLock _)
    | lockHeld held => exact .inl .lock
    | update applied same told => cases applied
  | inLock s =>
    cases ht with
    | notifyTake => exact .inl (.unlock _ _)
    | update applied same told => cases applied
  | unlock s obs =>
    cases ht with
    | unlockNotified => exact .inl (.invoke obs)
    | update applied same told => cases applied
  | invoke obs =>
    cases ht with
    | invokeNil => exact .inr rfl
    | invokeCons => exact .inl (.invoke _)
    | update applied same told => cases applied

theorem trans_steady (hs : Steady pc) (ht : Trans w call pc w' pc') :
    w'.value = w.value ∧ w'.handlers = w.handlers := by
  have hst := trans_stage ht
  rcases hs with ⟨ret, hret⟩ | ⟨h, k, hwait, hk⟩
  · rw [hret] at hst
    generalize pc'.stage = st at hst
    cases hst with
    | stutter st value links handlers => exact ⟨value, handlers⟩
  · rw [hwait] at hst
    generalize pc'.stage = st at hst
    cases hst with
    | stutter st value links handlers => exact ⟨value, handlers⟩
    | waited h k ret value links handlers reader => exact ⟨value, handlers⟩
    | retry fn h => exact absurd rfl (hk fn)
    | closed fn h code => exact absurd rfl (hk fn)

theorem trans_handlers (ht : Trans w call pc w' pc') : w.handlers <+: w'.handlers :=
  StageStep.handlers_prefix (trans_stage ht)

/-- `await_not_equal` returns what its handler was given. -/
theorem trans_wait_finish (ht : Trans w call pc w' pc') (hst : pc.stage = .wait h .awaitNotEqual) :
    pc'.stage = .wait h .awaitNotEqual ∧ (∀ h' k', pc ≠ .awaitResult h' k') ∨
      ∃ result, pc = .awaitResult h .awaitNotEqual ∧ w.invoked.lookup h = some result ∧
        pc' = .finish (.ofStatusOr result) := by
  cases ht with
  | update applied same told =>
    obtain ⟨op, hop, _⟩ := stage_of_apply applied
    rw [hop] at hst
    cases hst
  | unlockPushed desiredState handler k | invokeNow handler result k =>
    cases hst
    exact .inl ⟨rfl, fun _ _ => nofun⟩
  | resume handler k result given =>
    cases hst
    exact .inr ⟨result, rfl, given, rfl⟩
  | waitChanged | waitSame | lockWait | waitClosed | reloadChanged | reloadSame | push
  | unlockClosed | unlockChanged | statusWait => exact .inl ⟨hst, fun _ _ => nofun⟩
  | lockHeld site held => exact .inl ⟨hst, fun _ _ => nofun⟩
  | _ => cases hst

/-- A wait tells nothing but a change it has seen, until its handler has been invoked. -/
theorem trans_wait_tells (ht : Trans w call pc w' pc') {k : After T} (hst : pc.stage = .wait h k)
    (hne : ∀ h k, pc ≠ .awaitResult h k) (hpassed : Passed w (.running call pc)) {v : T}
    (hv : v ∈ tells (.running call pc')) :
    v ∈ tells (.running call pc) ∨ v = w.value ∧ w.handlers[h]? ≠ some v := by
  cases ht with
  | update applied same told =>
    obtain ⟨op, hop, _⟩ := stage_of_apply applied
    rw [hop] at hst
    cases hst
  | waitChanged handler lastSeen k changed =>
    cases hst
    rw [List.mem_singleton.mp hv]
    refine .inr ⟨rfl, fun hseen => changed ?_⟩
    rw [show w.handlers[h]? = some lastSeen from hpassed] at hseen
    exact (Option.some.inj hseen).symm
  | reloadChanged handler lastSeen k priorState isOpen changed =>
    cases hst
    rw [List.mem_singleton.mp hv]
    refine .inr ⟨rfl, fun hseen => changed ?_⟩
    rw [show w.handlers[h]? = some lastSeen from hpassed] at hseen
    exact (Option.some.inj hseen).symm
  | unlockPushed desiredState handler k | invokeNow handler result k =>
    rw [tells_afterWait] at hv
    cases hv
  | resume handler k result given => exact absurd rfl (hne handler k)
  | unlockChanged => exact .inl hv
  | lockHeld site held => exact .inl hv
  | notifyFast | notifySlow | lockNotify | notifyTake | unlockNotified | invokeNil | invokeCons
  | loadValue | modifyIfNone | loadClosed => cases hst
  | _ => cases hv

end

/-! ## A closed watch -/

section

variable {w : Shared T} {ls : List (Local T)}

/-- Who holds the lock of a closed watch found it closed, or is closing it. -/
theorem Sound.holder_closed (s : Sound w ls) (hclosed : isOpen w.spinState = false) (hl : l ∈ ls)
    (hh : holds l = true) : w.observers = [] := by
  have howner := s.inv.owner l hl
  have hholder := s.final.holder l hl
  unfold holds at hh
  split at hh
  · exact howner.2.2 (howner.1.1.trans hclosed)
  · have := howner.1.1.trans hclosed
    rw [howner.2.2] at this
    cases this
  · rename_i call desiredState u
    refine howner.2 ?_
    cases u with
    | closed obs =>
      obtain ⟨code, _, hbits⟩ := hholder
      exact hbits.1
    | _ => exact hholder.1.trans hclosed
  · cases hh

/-- Nobody is queued on a closed watch. -/
theorem Sound.observers_closed (s : Sound w ls) (hclosed : isOpen w.spinState = false) :
    w.observers = [] := by
  cases hlock : locked w.spinState with
  | false => exact (s.inv.free hlock).2 hclosed
  | true =>
    have hpos : 0 < total (ind holds) ls := by
      rw [s.inv.lock, hlock]
      exact Nat.one_pos
    obtain ⟨l, hl, hh⟩ := exists_of_total_pos hpos
    exact s.holder_closed hclosed hl (ind_pos.mp hh)

/-- A handler that is neither invoked nor queued is with one of the calls under way. -/
theorem Sound.held_of_closed (s : Sound w ls) (hclosed : isOpen w.spinState = false)
    (hpassed : h < w.handlers.length) (hnone : w.invoked.lookup h = none) :
    ∃ l ∈ ls, 0 < held h l := by
  have hzero : timesInvoked h w = 0 := by
    by_contra hne
    obtain ⟨result, hr⟩ := lookup_of_timesInvoked (Nat.pos_of_ne_zero hne)
    rw [hnone] at hr
    cases hr
  have hloc := s.located h
  rw [inShared, s.observers_closed hclosed, hzero, passedN, if_pos hpassed, List.count_nil] at hloc
  exact exists_of_total_pos (by omega)

section

variable [DecidableEq T] [Add T] [Sub T] [OrOp T] [AndOp T]

theorem moves_invoked {code : StatusCode} (hm : Moves code w l w' l') :
    w.invoked <+: w'.invoked := by
  cases hm with
  | stay => exact List.prefix_refl _
  | access trans | leave trans => exact trans_invoked_prefix trans
  | enter op => exact (begin_invoked w op).symm ▸ List.prefix_refl w.invoked
  | again trans op =>
    rw [begin_invoked]
    exact trans_invoked_prefix trans

/-- Closing is for good. -/
theorem Sound.trans_closed {pc' : Pc T} (s : Sound w ls) (hl : .running call pc ∈ ls)
    (ht : Trans w call pc w' pc') (hclosed : isOpen w.spinState = false) :
    isOpen w'.spinState = false := by
  have hholder := s.final.holder _ hl
  cases ht with
  | lockWait | lockNotify | lockClose | lockHeld =>
    rw [(bits_lock _).2.1]
    exact hclosed
  | unlockClose desiredState obs =>
    obtain ⟨code, _, hbits⟩ := hholder
    rw [(bits_unlock _).2.1]
    exact hbits.1
  | unlockClosed | unlockPushed | unlockChanged | unlockNotified =>
    rw [(bits_unlock _).2.1]
    exact hholder.1.trans hclosed
  | _ => exact hclosed

theorem Sound.moves_closed {code : StatusCode} (s : Sound w ls) (hl : l ∈ ls)
    (hm : Moves code w l w' l') (hclosed : isOpen w.spinState = false) :
    isOpen w'.spinState = false := by
  cases hm with
  | stay => exact hclosed
  | access trans | leave trans => exact s.trans_closed hl trans hclosed
  | enter op =>
    rw [begin_spinState]
    exact hclosed
  | again trans op =>
    rw [begin_spinState]
    exact s.trans_closed hl trans hclosed

end

theorem Used.status {K : T → Prop} {code status : StatusCode} (u : Used K code w ls)
    (he : (h, .error status) ∈ w.invoked) : status = selectedStatus code := by
  obtain ⟨c, hhead, hs⟩ := u.final.invoked _ he status rfl
  rw [hs, u.codes c (List.mem_of_mem_head? hhead)]

end

end Batt.Watch
