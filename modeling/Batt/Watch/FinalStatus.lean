/-
  The status a closed `WatchAtomic` reports.

  `closers` lists the codes of the `close` calls in the order in which they took the lock.
  `Final` says that the two closed bits of the word are those of the first of them once it
  has unlocked, and that every status a thread is about to hand to a handler, or has handed
  to one, is the one the first close selected. It needs the lock invariant `Inv`: the word
  stored by `unlock_observers` is computed from a snapshot, and it is current only because
  the thread that stores it has held the lock since it took the snapshot.
-/
import Batt.Watch.Wakeup

namespace Batt.Watch

open Interleave

variable {T : Type} {code : StatusCode}

/-- The final status a code passed to `close` selects. -/
def selectedStatus : StatusCode → StatusCode
  | .kEndOfStream => .kEndOfStream
  | .kClosedBeforeEndOfStream => .kClosedBeforeEndOfStream
  | _ => .kClosed

/-- The closed bits of `s` are those of `code`. -/
def BitsOf (code : StatusCode) (s : SpinState) : Prop :=
  isOpen s = false ∧ atEnd s = decide (code = .kEndOfStream) ∧
    beforeEnd s = decide (code = .kClosedBeforeEndOfStream)

theorem finalStatus_of_bits {s : SpinState} (h : BitsOf code s) :
    finalStatus s = selectedStatus code := by
  obtain ⟨_, h1, h2⟩ := h
  rw [finalStatus_eq, h1, h2]
  cases code <;> rfl

/-- `status` is the one selected by the first close. -/
def Selected (sh : Shared T) (status : StatusCode) : Prop :=
  ∃ code, sh.closers.head? = some code ∧ status = selectedStatus code

/-- A `close` that holds the lock. -/
def closing : Local T → Bool
  | .running _ (.inLock (.close _) _) => true
  | .running _ (.unlockObservers _ (.closed _)) => true
  | _ => false

/-- What the lock holder is about to store keeps the status bits, or is the first close's. -/
def HolderOk (sh : Shared T) : Local T → Prop
  | .running _ (.inLock (.close code) priorState) =>
    isOpen priorState = true → sh.closers = [code]
  | .running _ (.unlockObservers desiredState (.closed _)) =>
    ∃ code, sh.closers.head? = some code ∧ BitsOf code desiredState
  | .running _ (.unlockObservers desiredState _) =>
    isOpen desiredState = isOpen sh.spinState ∧ atEnd desiredState = atEnd sh.spinState ∧
      beforeEnd desiredState = beforeEnd sh.spinState
  | _ => True

/-- A thread that asks for the final status does so on a closed watch, and a status on its
    way to a handler is the selected one. -/
def Told (sh : Shared T) : Local T → Prop
  | .running _ (.unlockObservers _ (.waitClosed _ _)) => isOpen sh.spinState = false
  | .running _ (.getFinalStatus _) => isOpen sh.spinState = false
  | .running _ (.invokeNow _ (.error status) _) => Selected sh status
  | .running _ (.invokeAll _ (.error status) _) => Selected sh status
  | _ => True

structure Final (sh : Shared T) (ls : List (Local T)) : Prop where
  opened : isOpen sh.spinState = true → atEnd sh.spinState = false ∧
    beforeEnd sh.spinState = false ∧ (sh.closers = [] ∨ 0 < total (ind closing) ls)
  closed : isOpen sh.spinState = false →
    ∃ code, sh.closers.head? = some code ∧ BitsOf code sh.spinState
  holder : ∀ l ∈ ls, HolderOk sh l
  told : ∀ l ∈ ls, Told sh l
  invoked : ∀ e ∈ sh.invoked, ∀ status, e.2 = .error status → Selected sh status

/-! ## Frames -/

section

variable {sh sh' : Shared T} {l l' : Local T} {ls : List (Local T)} {i : Nat}

theorem holderOk_of_not_holds (h : holds l = false) : HolderOk sh l := by
  unfold HolderOk
  split
  case h_4 => trivial
  all_goals cases h

theorem holds_of_closing (h : closing l = true) : holds l = true := by
  unfold closing at h
  split at h <;> first | rfl | cases h

theorem closing_of_not_holds (h : holds l = false) : closing l = false := by
  by_contra hc
  have := holds_of_closing (by simpa using hc)
  rw [h] at this
  cases this

theorem Selected.mono {status : StatusCode} (h : Selected sh status)
    (hc : sh.closers <+: sh'.closers) : Selected sh' status := by
  obtain ⟨code, hhead, hs⟩ := h
  obtain ⟨t, ht⟩ := hc
  refine ⟨code, ?_, hs⟩
  rw [← ht, List.head?_append, hhead]
  rfl

/-- Closing is for good, so what a thread was told stays right. -/
theorem Told.mono (h : Told sh l) (hc : sh.closers <+: sh'.closers)
    (ho : isOpen sh.spinState = false → isOpen sh'.spinState = false) : Told sh' l := by
  unfold Told at *
  split at h
  · exact ho h
  · exact ho h
  · exact h.mono hc
  · exact h.mono hc
  · trivial

/-- A step that leaves the status bits and the list of closes alone. -/
theorem final_frame (fin : Final sh ls) (hi : ls[i]? = some l)
    (bits : isOpen sh'.spinState = isOpen sh.spinState ∧ atEnd sh'.spinState = atEnd sh.spinState ∧
      beforeEnd sh'.spinState = beforeEnd sh.spinState)
    (closers : sh'.closers = sh.closers) (same : closing l' = closing l)
    (holder : HolderOk sh' l') (told : Told sh' l')
    (invoked : ∀ e ∈ sh'.invoked, e ∈ sh.invoked ∨ ∀ status, e.2 = .error status →
      Selected sh' status) :
    Final sh' (ls.set i l') := by
  obtain ⟨b1, b2, b3⟩ := bits
  have hpre : sh.closers <+: sh'.closers := closers ▸ List.prefix_refl _
  have hclosing : total (ind closing) (ls.set i l') = total (ind closing) ls := by
    have := total_set (ind closing) l' hi
    unfold ind at this ⊢
    rw [same] at this
    exact Nat.add_right_cancel this
  refine ⟨?_, ?_, ?_, ?_, ?_⟩
  · rw [b1, b2, b3, closers, hclosing]
    exact fin.opened
  · unfold BitsOf
    rw [b1, b2, b3, closers]
    exact fin.closed
  · refine forall_set holder fun j k _ hj => ?_
    have hk := fin.holder k (List.mem_of_getElem? hj)
    unfold HolderOk at *
    rw [b1, b2, b3, closers]
    exact hk
  · exact forall_set told fun j k _ hj =>
      (fin.told k (List.mem_of_getElem? hj)).mono hpre fun h => b1.trans h
  · intro e he status hs
    rcases invoked e he with hold | hnew
    · exact (fin.invoked e hold status hs).mono hpre
    · exact hnew status hs

/-- `close` takes the lock: it is recorded, and on an open watch it is the first. -/
theorem final_lockClose {call : Nat} (inv : Inv sh ls) (fin : Final sh ls)
    (hi : ls[i]? = some (.running call (.lockObservers (.close code))))
    (free : locked sh.spinState = false) :
    Final { sh with spinState := sh.spinState ||| kLocked, closers := sh.closers ++ [code] }
      (ls.set i (.running call (.inLock (.close code) sh.spinState))) := by
  have hpre : sh.closers <+: sh.closers ++ [code] := List.prefix_append _ _
  have hout := holds_of_lock inv free
  have hnone : total (ind closing) ls = 0 := total_eq_zero.mpr fun k hk =>
    ind_false (closing_of_not_holds (hout k hk))
  have hcount := total_set (ind closing) (.running call (.inLock (.close code) sh.spinState)) hi
  have hpos : 0 < total (ind closing)
      (ls.set i (.running call (.inLock (.close code) sh.spinState))) := by
    have h1 : ind closing (.running call (.inLock (.close code) sh.spinState) : Local T) = 1 := rfl
    have h0 : ind closing (.running call (.lockObservers (.close code)) : Local T) = 0 := rfl
    omega
  have hfirst : isOpen sh.spinState = true → sh.closers = [] := by
    intro ho
    rcases (fin.opened ho).2.2 with h | h
    · exact h
    · omega
  refine ⟨?_, ?_, ?_, ?_, ?_⟩
  · intro ho
    simp only [bits_lock] at ho ⊢
    obtain ⟨h1, h2, _⟩ := fin.opened ho
    exact ⟨h1, h2, .inr hpos⟩
  · intro ho
    simp only [bits_lock] at ho
    obtain ⟨c, hc, hb⟩ := fin.closed ho
    refine ⟨c, ?_, ?_⟩
    · simp [List.head?_append, hc]
    · simpa [BitsOf] using hb
  · refine forall_set ?_ fun j k _ hj =>
      holderOk_of_not_holds (hout k (List.mem_of_getElem? hj))
    intro ho
    simp [hfirst ho]
  · exact forall_set trivial fun j k _ hj =>
      (fin.told k (List.mem_of_getElem? hj)).mono hpre (by simp)
  · intro e he status hs
    exact (fin.invoked e he status hs).mono hpre

/-- `close` unlocks: from here on the watch is closed with the first close's bits. -/
theorem final_unlockClose {call : Nat} {desiredState : SpinState} {obs : List Nat}
    (inv : Inv sh ls) (fin : Final sh ls)
    (hi : ls[i]? = some (.running call (.unlockObservers desiredState (.closed obs)))) :
    Final { sh with spinState := desiredState &&& ~~~kLocked }
      (ls.set i (.running call (.getFinalStatus (.close obs)))) := by
  obtain ⟨code, hhead, hbits⟩ := fin.holder _ (List.mem_of_getElem? hi)
  have hout := others_out inv hi rfl
  refine ⟨?_, ?_, ?_, ?_, ?_⟩
  · intro ho
    simp [hbits.1] at ho
  · intro _
    exact ⟨code, hhead, by simpa [BitsOf] using hbits⟩
  · exact forall_set trivial fun j k hne hj => holderOk_of_not_holds (hout j k hne hj)
  · refine forall_set (by simpa [Told] using hbits.1) fun j k _ hj =>
      (fin.told k (List.mem_of_getElem? hj)).mono (List.prefix_refl _) fun _ => ?_
    simpa using hbits.1
  · exact fin.invoked

/-- The word `close` computes under the lock has the first close's bits. -/
theorem bitsOf_closedState {call : Nat} {priorState : SpinState} (inv : Inv sh ls)
    (fin : Final sh ls) (hmem : .running call (.inLock (.close code) priorState) ∈ ls) :
    ∃ first, sh.closers.head? = some first ∧ BitsOf first (closedState code priorState) := by
  obtain ⟨⟨b1, _, b3, b4⟩, _⟩ := inv.owner _ hmem
  have hcode : isOpen priorState = true → sh.closers = [code] := fin.holder _ hmem
  cases ho : isOpen priorState with
  | true =>
    obtain ⟨h1, h2, _⟩ := fin.opened (b1 ▸ ho)
    refine ⟨code, by rw [hcode ho]; rfl, ?_⟩
    simp [BitsOf, ho, b3, b4, h1, h2]
  | false =>
    obtain ⟨first, hhead, _, h1, h2⟩ := fin.closed (b1 ▸ ho)
    refine ⟨first, hhead, ?_⟩
    simp [BitsOf, ho, b3, b4, h1, h2]

theorem selected_finalStatus (fin : Final sh ls) (h : isOpen sh.spinState = false) :
    Selected sh (finalStatus sh.spinState) := by
  obtain ⟨code, hhead, hbits⟩ := fin.closed h
  exact ⟨code, hhead, finalStatus_of_bits hbits⟩

theorem told_afterWait (call handler : Nat) (k : After T) :
    Told sh (.running call (afterWait handler k)) := by
  cases k <;> trivial

theorem told_resume (call : Nat) (k : After T) (result : StatusOr T) :
    Told sh (.running call (resume k result)) := by
  cases k <;> cases result <;> trivial

theorem told_afterUpdate (call : Nat) (changed : Bool) (v : T) (ret : Ret T) :
    Told sh (.running call (afterUpdate changed v ret)) := by
  cases changed <;> trivial

end

/-! ## The invariant is kept -/

section

variable [DecidableEq T] [Add T] [Sub T] [OrOp T] [AndOp T]
variable {sh sh' : Shared T} {ls : List (Local T)} {i call : Nat} {pc pc' : Pc T}

theorem final_trans (inv : Inv sh ls) (fin : Final sh ls)
    (hi : ls[i]? = some (.running call pc)) (ht : Trans sh call pc sh' pc') :
    Final sh' (ls.set i (.running call pc')) := by
  have hmem := List.mem_of_getElem? hi
  have hold : ∀ e ∈ sh.invoked, e ∈ sh.invoked ∨ ∀ status, e.2 = .error status →
      Selected sh status := fun e he => .inl he
  cases ht with
  | update applied same told =>
    have hout := (updating_phases call applied).1
    have hout' := afterUpdate_out (T := T) call
    exact final_frame fin hi ⟨rfl, rfl, rfl⟩ rfl
      (by rw [closing_of_not_holds hout, closing_of_not_holds (hout' _ _ _)])
      (holderOk_of_not_holds (hout' _ _ _)) (told_afterUpdate _ _ _ _) hold
  | lockWait | lockNotify | lockHeld =>
    exact final_frame fin hi (by simp) rfl rfl trivial trivial hold
  | lockClose code free => exact final_lockClose inv fin hi free
  | waitClosed handler lastSeen k priorState closed =>
    obtain ⟨⟨b1, _, b3, b4⟩, _⟩ := inv.owner _ hmem
    exact final_frame fin hi ⟨rfl, rfl, rfl⟩ rfl rfl ⟨b1, b3, b4⟩ (b1.symm.trans closed) hold
  | reloadChanged handler lastSeen k priorState hopen changed =>
    obtain ⟨⟨b1, _, b3, b4⟩, _⟩ := inv.owner _ hmem
    exact final_frame fin hi ⟨rfl, rfl, rfl⟩ rfl rfl ⟨b1, b3, b4⟩ trivial hold
  | notifyTake newValue ret preLockState =>
    obtain ⟨⟨b1, _, b3, b4⟩, _⟩ := inv.owner _ hmem
    exact final_frame fin hi ⟨rfl, rfl, rfl⟩ rfl rfl (by simp [HolderOk, b1, b3, b4]) trivial hold
  | closeTake code priorState =>
    have hbits := bitsOf_closedState inv fin hmem
    exact final_frame fin hi ⟨rfl, rfl, rfl⟩ rfl rfl hbits trivial hold
  | push handler lastSeen priorState k =>
    obtain ⟨⟨b1, _, b3, b4⟩, _⟩ := inv.owner _ hmem
    exact final_frame fin hi ⟨rfl, rfl, rfl⟩ rfl rfl (by simp [HolderOk, b1, b3, b4]) trivial hold
  | unlockClosed desiredState handler k =>
    obtain ⟨b1, b2, b3⟩ := fin.holder _ hmem
    have hclosed := fin.told _ hmem
    refine final_frame fin hi (by simp [b1, b2, b3]) rfl rfl trivial ?_ hold
    simpa [Told, b1] using hclosed
  | unlockPushed desiredState handler k =>
    obtain ⟨b1, b2, b3⟩ := fin.holder _ hmem
    have hout := (afterWait_phases (T := T) call handler k).1
    exact final_frame fin hi (by simp [b1, b2, b3]) rfl (closing_of_not_holds hout)
      (holderOk_of_not_holds hout) (told_afterWait _ _ _) hold
  | unlockChanged desiredState handler nowSeen k =>
    obtain ⟨b1, b2, b3⟩ := fin.holder _ hmem
    exact final_frame fin hi (by simp [b1, b2, b3]) rfl rfl trivial trivial hold
  | unlockNotified desiredState obs newValue ret =>
    obtain ⟨b1, b2, b3⟩ := fin.holder _ hmem
    exact final_frame fin hi (by simp [b1, b2, b3]) rfl rfl trivial trivial hold
  | unlockClose desiredState obs => exact final_unlockClose inv fin hi
  | statusWait handler k =>
    exact final_frame fin hi ⟨rfl, rfl, rfl⟩ rfl rfl trivial
      (selected_finalStatus fin (fin.told _ hmem)) hold
  | statusClose obs =>
    exact final_frame fin hi ⟨rfl, rfl, rfl⟩ rfl rfl trivial
      (selected_finalStatus fin (fin.told _ hmem)) hold
  | invokeNow handler result k =>
    have hout := (afterWait_phases (T := T) call handler k).1
    have htold := fin.told _ hmem
    refine final_frame fin hi ⟨rfl, rfl, rfl⟩ rfl (closing_of_not_holds hout)
      (holderOk_of_not_holds hout) (told_afterWait _ _ _) fun e he => ?_
    rcases List.mem_append.mp he with he | he
    · exact .inl he
    · right
      obtain rfl := List.mem_singleton.mp he
      rintro status rfl
      exact htold
  | invokeCons handler rest result ret =>
    have htold := fin.told _ hmem
    refine final_frame fin hi ⟨rfl, rfl, rfl⟩ rfl rfl trivial ?_ fun e he => ?_
    · cases result with
      | ok v => trivial
      | error status => exact htold
    · rcases List.mem_append.mp he with he | he
      · exact .inl he
      · right
        obtain rfl := List.mem_singleton.mp he
        rintro status rfl
        exact htold
  | resume handler k result given =>
    have hout := (resume_phases (T := T) call k result).1
    exact final_frame fin hi ⟨rfl, rfl, rfl⟩ rfl (closing_of_not_holds hout)
      (holderOk_of_not_holds hout) (told_resume _ _ _) hold
  | _ => exact final_frame fin hi ⟨rfl, rfl, rfl⟩ rfl rfl trivial trivial hold

theorem final_step {a : Act T} {l l' : Local T} (inv : Inv sh ls) (fin : Final sh ls)
    (hi : ls[i]? = some l) (hs : step a sh l = some (sh', l')) : Final sh' (ls.set i l') := by
  rcases step_cases hs with ⟨op, rfl, rfl, rfl⟩ | ⟨call, ret, rfl, rfl, rfl⟩ |
    ⟨call, pc, pc', rfl, ht, rfl⟩
  · cases op <;>
      exact final_frame fin hi ⟨rfl, rfl, rfl⟩ rfl rfl trivial trivial fun e he => .inl he
  · exact final_frame fin hi ⟨rfl, rfl, rfl⟩ rfl rfl trivial trivial fun e he => .inl he
  · exact final_trans inv fin hi ht

theorem final_reachable {n : Nat} {initValue : T} {c : Conf (Shared T) (Local T)}
    (hr : machine.Reachable (initial n initValue) c) : Final c.shared c.locals := by
  have hboth : Inv c.shared c.locals ∧ Final c.shared c.locals := by
    refine machine.invariant
      (I := fun c => Inv c.shared c.locals ∧ Final c.shared c.locals) ?_ ?_ hr
    · intro c i a c' hc hf
      obtain ⟨l, sh', l', hi, _, hs, rfl⟩ := machine.fire_cases hf
      exact ⟨inv_kind hc.1 hi (step_kind hs), final_step hc.1 hc.2 hi hs⟩
    · refine ⟨inv_initial n initValue, ?_, ?_, ?_, ?_, ?_⟩
      · intro _
        simp [initial]
      · intro ho
        simp [initial] at ho
      · intro l hl
        rw [List.eq_of_mem_replicate hl]
        trivial
      · intro l hl
        rw [List.eq_of_mem_replicate hl]
        trivial
      · intro e he
        cases he
  exact hboth.2

end

end Batt.Watch
