/-
  A `WatchAtomic` inside another component.

  The component has calls into the watch under way, at places of its own. What holds of the watch
  in every interleaving of its own machine holds there too: `Sound` puts together the lock
  invariant, the status chosen by the first `close` and the places of the handlers, for any list
  of calls under way. It is kept when a call makes its next access, begins, or has returned, and
  the order of the list and the callers that are idle do not matter.

  `Settling` is for a watch that nobody closes and that nobody waits on with `last_seen` equal to
  `last`. When it has this value for good and every call under way is a wait, all handlers have
  been invoked.
-/
import Batt.Watch.Delivery
import Batt.Watch.Linearize

namespace Batt.Watch

open Interleave

variable {T : Type} {ls ls' : List (Local T)} {w : Shared T} {h : Nat}

structure Sound (w : Shared T) (ls : List (Local T)) : Prop where
  inv : Inv w ls
  final : Final w ls
  located : ∀ h, total (held h) ls + inShared h w = passedN h w

/-! ## The list of calls under way -/

theorem Inv.congr (inv : Inv w ls) (hmem : ∀ l ∈ ls', l ∈ ls ∨ l = .idle)
    (htotal : ∀ f : Local T → Nat, f .idle = 0 → total f ls' = total f ls) : Inv w ls' := by
  refine ⟨?_, inv.free, ?_, ?_, ?_, ?_⟩
  · rw [htotal _ rfl]
    exact inv.lock
  · intro l hl
    rcases hmem l hl with h | rfl
    · exact inv.owner l h
    · trivial
  · intro l hl
    rcases hmem l hl with h | rfl
    · exact inv.passed l h
    · trivial
  · intro l hl
    rcases hmem l hl with h | rfl
    · have hun := inv.unchanged l h
      unfold Unchanged at *
      split
      · exact hun.imp_right fun hpos => by rwa [htotal _ rfl]
      · trivial
    · trivial
  · rw [htotal _ rfl]
    exact inv.wake

theorem Final.congr (fin : Final w ls) (hmem : ∀ l ∈ ls', l ∈ ls ∨ l = .idle)
    (htotal : ∀ f : Local T → Nat, f .idle = 0 → total f ls' = total f ls) : Final w ls' := by
  refine ⟨?_, fin.closed, ?_, ?_, fin.invoked⟩
  · rw [htotal _ rfl]
    exact fin.opened
  · intro l hl
    rcases hmem l hl with h | rfl
    · exact fin.holder l h
    · trivial
  · intro l hl
    rcases hmem l hl with h | rfl
    · exact fin.told l h
    · trivial

/-- Only the calls under way matter, not their order. -/
theorem Sound.congr (s : Sound w ls) (hmem : ∀ l ∈ ls', l ∈ ls ∨ l = .idle)
    (htotal : ∀ f : Local T → Nat, f .idle = 0 → total f ls' = total f ls) : Sound w ls' := by
  refine ⟨s.inv.congr hmem htotal, s.final.congr hmem htotal, ?_⟩
  intro h
  rw [htotal _ rfl]
  exact s.located h

theorem total_perm {f : Local T → Nat} (h : ls.Perm ls') :
    total f ls' = total f ls :=
  (h.map f).sum_nat.symm

theorem Sound.perm (s : Sound w ls) (h : ls.Perm ls') :
    Sound w ls' :=
  s.congr (fun _ hl => .inl (h.mem_iff.mpr hl)) fun _ _ => total_perm h

theorem Sound.idle_cons (s : Sound w ls) :
    Sound w (.idle :: ls) := by
  refine s.congr (fun l hl => (List.mem_cons.mp hl).symm) fun f hf => ?_
  rw [total_cons, hf, Nat.zero_add]

theorem Sound.of_idle_cons (s : Sound w (.idle :: ls)) :
    Sound w ls := by
  refine s.congr (fun l hl => .inl (List.mem_cons_of_mem _ hl)) fun f hf => ?_
  rw [total_cons, hf, Nat.zero_add]

/-! ## What a caller does -/

section

variable {w w' : Shared T} {ls : List (Local T)} {i call : Nat} {pc pc' : Pc T}

theorem sound_located (s : Sound w ls) {l l' : Local T} (hi : ls[i]? = some l) (h : Nat)
    (hstep : held h l' + inShared h w' + passedN h w = held h l + inShared h w + passedN h w') :
    total (held h) (ls.set i l') + inShared h w' = passedN h w' := by
  have hset := total_set (held h) l' hi
  have hloc := s.located h
  omega

/-- The first access of a call. -/
theorem sound_begin (s : Sound w ls) (hi : ls[i]? = some .idle) (op : Op T) :
    Sound (begin w op).1 (ls.set i (.running call (begin w op).2)) := by
  refine ⟨inv_kind s.inv hi ?_, ?_, fun h => sound_located s hi h ?_⟩
  · have hk := kind_begin w op (begin w op).1.calls call
    exact hk
  · cases op <;>
      exact final_frame s.final hi ⟨rfl, rfl, rfl⟩ rfl rfl trivial trivial fun e he => .inl he
  · cases op with
    | asyncWait lastSeen | awaitNotEqual lastSeen =>
      have hn := passedN_addHandler h w lastSeen
      simp only [begin, held, owned, inLocal, ownedHandler, localObservers, inShared, timesInvoked,
        Shared.addHandler, Option.some.injEq, List.count_nil, reduceCtorEq, if_false] at hn ⊢
      omega
    | _ => rfl

/-- A call that has finished returns. -/
theorem sound_return {ret : Ret T} (s : Sound w ls)
    (hi : ls[i]? = some (.running call (.finish ret))) : Sound w (ls.set i .idle) := by
  refine ⟨inv_kind s.inv hi (quiet_of_eq rfl rfl rfl fun _ => trivial), ?_, ?_⟩
  · exact final_frame s.final hi ⟨rfl, rfl, rfl⟩ rfl rfl trivial trivial fun e he => .inl he
  · exact fun h => sound_located s hi h rfl

section

variable [DecidableEq T] [Add T] [Sub T] [OrOp T] [AndOp T]

/-- The next access of a call. -/
theorem sound_trans (s : Sound w ls) (hi : ls[i]? = some (.running call pc))
    (ht : Trans w call pc w' pc') : Sound w' (ls.set i (.running call pc')) where
  inv := inv_kind s.inv hi (trans_kind ht)
  final := final_trans s.inv s.final hi ht
  located := fun h => sound_located s hi h (trans_located h ht)

end

theorem sound_new (initValue : T) : Sound (initial 0 initValue).shared [] where
  inv := inv_initial 0 initValue
  final := by
    refine ⟨?_, ?_, List.forall_mem_nil _, List.forall_mem_nil _, List.forall_mem_nil _⟩
    · intro _
      simp [initial]
    · intro ho
      simp [initial] at ho
  located := by simp [initial, inShared, timesInvoked, passedN]

end

/-! ## The handlers -/

theorem Sound.timesInvoked_le (s : Sound w ls) (h : Nat) :
    timesInvoked h w ≤ 1 := by
  have hloc := s.located h
  unfold inShared passedN at hloc
  split at hloc <;> omega

theorem Sound.passed_of_invoked (s : Sound w ls) (hpos : 0 < timesInvoked h w) :
    h < w.handlers.length := by
  have hloc := s.located h
  unfold inShared passedN at hloc
  by_contra hge
  rw [if_neg hge] at hloc
  omega

theorem lookup_of_timesInvoked (hpos : 0 < timesInvoked h w) :
    ∃ result, w.invoked.lookup h = some result := by
  have hmem := List.count_pos_iff.mp hpos
  obtain ⟨⟨h', result⟩, he, rfl⟩ := List.mem_map.mp hmem
  exact Option.isSome_iff_exists.mp (List.lookup_isSome_iff.mpr ⟨(h', result), he, beq_self_eq_true h'⟩)

theorem mem_of_lookup {result : StatusOr T} (hl : w.invoked.lookup h = some result) :
    (h, result) ∈ w.invoked := by
  obtain ⟨pre, post, heq, _⟩ := List.lookup_eq_some_iff.mp hl
  rw [heq]
  exact List.mem_append_right _ List.mem_cons_self

/-! ## Values that are told -/

def Ret.values : Ret T → List T
  | .value v => [v]
  | _ => []

/-- The values a call has read or stored and is about to tell, or to return. -/
def tells : Local T → List T
  | .running _ (.notifyLoad newValue ret) | .running _ (.lockObservers (.notify newValue ret))
  | .running _ (.inLock (.notify newValue ret) _)
  | .running _ (.unlockObservers _ (.notified _ newValue ret))
  | .running _ (.invokeAll _ (.ok newValue) ret) => newValue :: ret.values
  | .running _ (.unlockObservers _ (.waitChanged _ nowSeen _)) => [nowSeen]
  | .running _ (.invokeNow _ (.ok v) _) => [v]
  | .running _ (.invokeAll _ (.error _) ret) => ret.values
  | .running _ (.finish ret) => ret.values
  | _ => []

section

variable [DecidableEq T] [Add T] [Sub T] [OrOp T] [AndOp T]
variable {w w' : Shared T} {call : Nat} {pc pc' : Pc T}

omit [DecidableEq T] [Add T] [Sub T] [OrOp T] [AndOp T] in
theorem tells_afterWait (call handler : Nat) (k : After T) :
    tells (.running call (afterWait handler k)) = [] := by
  cases k <;> rfl

/-- What a call tells it knew before, or it is the value, or a handler was given it. -/
theorem trans_tells (ht : Trans w call pc w' pc') {v : T} (hv : v ∈ tells (.running call pc')) :
    v ∈ tells (.running call pc) ∨ v = w.value ∨ v = w'.value ∨ ∃ h, (h, .ok v) ∈ w.invoked := by
  cases ht with
  | @update _ newValue changed applied same told =>
    have hcases : v = newValue ∨ v = w.value := by
      cases changed with
      | true => simpa [afterUpdate, tells, Ret.values] using hv
      | false => exact .inr (List.mem_singleton.mp hv)
    rcases hcases with rfl | rfl
    · exact .inr (.inr (.inl rfl))
    · exact .inr (.inl rfl)
  | waitChanged handler lastSeen k changed =>
    exact .inr (.inl (List.mem_singleton.mp hv))
  | reloadChanged handler lastSeen k priorState isOpen changed =>
    exact .inr (.inl (List.mem_singleton.mp hv))
  | unlockPushed desiredState handler k | invokeNow handler result k =>
    rw [tells_afterWait] at hv
    cases hv
  | notifyFast newValue ret free none => exact .inl (List.mem_cons_of_mem _ hv)
  | invokeNil result ret =>
    cases result with
    | ok newValue => exact .inl (List.mem_cons_of_mem _ hv)
    | error code => exact .inl hv
  | invokeCons handler rest result ret =>
    cases result <;> exact .inl hv
  | resume handler k result given =>
    have hresult : result = .ok v := by
      cases k <;> cases result <;>
        simp [resume, Ret.ofStatusOr, tells, Ret.values] at hv ⊢ <;> exact hv.symm
    exact .inr (.inr (.inr ⟨handler, mem_of_lookup (hresult ▸ given)⟩))
  | loadValue => exact .inr (.inl (List.mem_singleton.mp hv))
  | notifySlow | lockNotify | notifyTake | unlockChanged | unlockNotified => exact .inl hv
  | lockHeld site held => exact .inl hv
  | _ => cases hv

theorem trans_invoked_prefix (ht : Trans w call pc w' pc') : w.invoked <+: w'.invoked := by
  cases ht with
  | invokeNow | invokeCons => exact List.prefix_append _ _
  | _ => exact List.prefix_refl _

/-- A handler is invoked with what the call tells. -/
theorem trans_invoked (ht : Trans w call pc w' pc') {v : T} (he : (h, .ok v) ∈ w'.invoked) :
    (h, .ok v) ∈ w.invoked ∨ v ∈ tells (.running call pc) := by
  cases ht with
  | invokeNow handler result k | invokeCons handler rest result ret =>
    rcases List.mem_append.mp he with he | he
    · exact .inl he
    · cases List.mem_singleton.mp he
      exact .inr List.mem_cons_self
  | _ => exact .inl he

end

/-! ## Stages of a call under way -/

section

variable [DecidableEq T] [Add T] [Sub T] [OrOp T] [AndOp T]
variable {w w' : Shared T} {call : Nat} {pc pc' : Pc T}

/-- A call can go on, unless it has finished or waits for its handler. -/
theorem exec_eq_none (h : exec true w call pc = none) :
    (∃ ret, pc = .finish ret) ∨ ∃ h k, pc = .awaitResult h k ∧ w.invoked.lookup h = none := by
  cases pc with
  | finish ret => exact .inl ⟨ret, rfl⟩
  | awaitResult handler k => exact .inr ⟨handler, k, rfl, Option.map_eq_none_iff.mp h⟩
  | modifyCas | waitLoad | notifyLoad | lockObservers =>
    simp only [exec] at h
    split at h <;> cases h
  | modifyIfCas fn oldValue changed | awaitModifyCas fn oldValue =>
    simp only [exec] at h
    split at h
    · cases h
    · split at h <;> cases h
  | inLock site priorState =>
    cases site with
    | asyncWait handler lastSeen k =>
      simp only [exec] at h
      split at h
      · cases h
      · split at h <;> cases h
    | notify | close => cases h
  | getFinalStatus k => cases k <;> cases h
  | invokeAll localObservers result ret => cases localObservers <;> cases h
  | _ => cases h

/-- A call that has made its update has its result. -/
theorem trans_done (ht : Trans w call pc w' pc') {ret : Ret T} (h : pc.stage = .done ret) :
    pc'.stage = .done ret ∧ w'.value = w.value ∧ w'.links = w.links := by
  have hs := trans_stage ht
  rw [h] at hs
  generalize pc'.stage = st at hs
  cases hs with
  | stutter st value links handlers => exact ⟨rfl, value, links⟩

/-- A wait goes on, or `async_wait` has returned, or the handler was given what the call
    returns. -/
theorem trans_wait (ht : Trans w call pc w' pc') {k : After T} (hst : pc.stage = .wait h k)
    (hk : ∀ fn, k ≠ .awaitModify fn) :
    (w'.value = w.value ∧ w'.links = w.links) ∧
      (pc'.stage = .wait h k ∧ (k = .ret → ∀ h' k', pc' ≠ .awaitResult h' k') ∨
        (k = .ret ∧ pc' = .finish .unit) ∨
        ∃ result, w.invoked.lookup h = some result ∧ pc' = .finish (.ofStatusOr result)) := by
  have hafter : (afterWait h k).stage = .wait h k ∧ (k = .ret → ∀ h' k', afterWait h k ≠
      .awaitResult h' k') ∨ (k = .ret ∧ afterWait h k = .finish .unit) := by
    cases k with
    | ret => exact .inr ⟨rfl, rfl⟩
    | awaitNotEqual | awaitModify fn => exact .inl ⟨rfl, nofun⟩
  cases ht with
  | update applied same told =>
    obtain ⟨op, hop, _⟩ := stage_of_apply applied
    rw [hop] at hst
    cases hst
  | unlockPushed desiredState handler k' | invokeNow handler result k' =>
    cases hst
    exact ⟨⟨rfl, rfl⟩, hafter.imp_right .inl⟩
  | resume handler k' result given =>
    cases hst
    refine ⟨⟨rfl, rfl⟩, .inr (.inr ⟨result, given, ?_⟩)⟩
    cases k with
    | awaitModify fn => exact absurd rfl (hk fn)
    | _ => rfl
  | waitChanged | waitSame | lockWait | waitClosed | reloadChanged | reloadSame | push
  | unlockClosed | unlockChanged | statusWait =>
    exact ⟨⟨rfl, rfl⟩, .inl ⟨hst, fun _ _ _ => nofun⟩⟩
  | lockHeld site held => exact ⟨⟨rfl, rfl⟩, .inl ⟨hst, fun _ _ _ => nofun⟩⟩
  | _ => cases hst

end

/-! ## A watch that settles -/

/-- Nobody closes the watch or waits for a change from `last`, and who tells `last` tells the
    value. -/
structure Settling (last : T) (w : Shared T) (ls : List (Local T)) : Prop extends Sound w ls where
  unclosed : w.closers = []
  waits : ∀ lastSeen ∈ w.handlers, lastSeen ≠ last
  told : ∀ l ∈ ls, last ∈ tells l → w.value = last
  invoked : ∀ h, (h, .ok last) ∈ w.invoked → w.value = last

section

variable {last : T} {w w' : Shared T} {ls : List (Local T)} {i call : Nat} {pc pc' : Pc T}

theorem Settling.perm (s : Settling last w ls) (h : ls.Perm ls') :
    Settling last w ls' where
  toSound := s.toSound.perm h
  unclosed := s.unclosed
  waits := s.waits
  told := fun l hl => s.told l (h.mem_iff.mpr hl)
  invoked := s.invoked

theorem settling_new {initValue : T} : Settling last (initial 0 initValue).shared [] where
  toSound := sound_new initValue
  unclosed := rfl
  waits := List.forall_mem_nil _
  told := List.forall_mem_nil _
  invoked := fun _ h => absurd h List.not_mem_nil

/-- A call begins; it waits, or leaves the watch as it is. -/
theorem settling_begin (s : Settling last w ls) (call : Nat) (op : Op T)
    (hwaits : ∀ lastSeen, op = .asyncWait lastSeen ∨ op = .awaitNotEqual lastSeen →
      lastSeen ≠ last) :
    Settling last (begin w op).1 (.running call (begin w op).2 :: ls) where
  toSound := sound_begin s.idle_cons (i := 0) rfl op
  unclosed := by cases op <;> exact s.unclosed
  waits := by
    cases op with
    | asyncWait lastSeen =>
      intro v hv
      rcases List.mem_append.mp hv with hv | hv
      · exact s.waits v hv
      · rw [List.mem_singleton.mp hv]
        exact hwaits lastSeen (.inl rfl)
    | awaitNotEqual lastSeen =>
      intro v hv
      rcases List.mem_append.mp hv with hv | hv
      · exact s.waits v hv
      · rw [List.mem_singleton.mp hv]
        exact hwaits lastSeen (.inr rfl)
    | _ => exact s.waits
  told := by
    intro l hl ht
    have hvalue : (begin w op).1.value = w.value := by cases op <;> rfl
    rw [hvalue]
    rcases List.mem_cons.mp hl with rfl | hl
    · cases op <;> cases ht
    · exact s.told l hl ht
  invoked := by cases op <;> exact s.invoked

theorem settling_return {ret : Ret T} (s : Settling last w (.running call (.finish ret) :: ls)) :
    Settling last w ls where
  toSound := Sound.of_idle_cons (sound_return s.toSound (i := 0) rfl)
  unclosed := s.unclosed
  waits := s.waits
  told := fun l hl => s.told l (List.mem_cons_of_mem _ hl)
  invoked := s.invoked

section

variable [DecidableEq T] [Add T] [Sub T] [OrOp T] [AndOp T]

/-- A call that is no `close` and does not wait for a change from `last` makes its next access,
    which does not change the value from `last`. -/
theorem settling_trans (s : Settling last w (.running call pc :: ls))
    (ht : Trans w call pc w' pc') (hlast : w.value = last → w'.value = last)
    (hclose : ∀ code, pc ≠ .lockObservers (.close code))
    (hmodify : ∀ fn oldValue, pc ≠ .awaitModifyCas fn oldValue) :
    Settling last w' (.running call pc' :: ls) where
  toSound := sound_trans s.toSound (i := 0) rfl ht
  unclosed := by
    cases ht with
    | lockClose code free => exact absurd rfl (hclose code)
    | _ => exact s.unclosed
  waits := by
    cases ht with
    | awaitModifyNone fn oldValue => exact absurd rfl (hmodify fn oldValue)
    | _ => exact s.waits
  told := by
    intro l hl hv
    rcases List.mem_cons.mp hl with rfl | hl
    · rcases trans_tells ht hv with h | h | h | ⟨h, he⟩
      · exact hlast (s.told _ List.mem_cons_self h)
      · exact hlast h.symm
      · exact h.symm
      · exact hlast (s.invoked h he)
    · exact hlast (s.told l (List.mem_cons_of_mem _ hl) hv)
  invoked := by
    intro h he
    rcases trans_invoked ht he with he | he
    · exact hlast (s.invoked h he)
    · exact hlast (s.told _ List.mem_cons_self he)

end

/-- Nobody is told an error. -/
theorem Settling.ok_of_invoked (s : Settling last w ls) {result : StatusOr T}
    (he : (h, result) ∈ w.invoked) : ∃ v, result = .ok v := by
  cases result with
  | ok v => exact ⟨v, rfl⟩
  | error code =>
    obtain ⟨_, hhead, _⟩ := s.final.invoked _ he code rfl
    rw [s.unclosed] at hhead
    cases hhead

/-- **Delivery of the last value**: when the watch has it, and every call under way waits for its
    handler, each handler that was passed has been invoked. -/
theorem Settling.delivered (s : Settling last w ls) (hvalue : w.value = last)
    (hwaiting : ∀ l ∈ ls, ∃ call h k, l = .running call (.awaitResult h k))
    (hpassed : h < w.handlers.length) : timesInvoked h w = 1 := by
  have hzero : ∀ f : Local T → Nat, (∀ call h k, f (.running call (.awaitResult h k)) = 0) →
      total f ls = 0 := by
    intro f hf
    refine total_eq_zero.mpr fun l hl => ?_
    obtain ⟨call, h, k, rfl⟩ := hwaiting l hl
    exact hf call h k
  have hnone : h ∉ w.observers := by
    intro hmem
    rcases s.inv.wake h hmem with hseen | hpos
    · exact s.waits _ (List.mem_of_getElem? hseen) hvalue
    · rw [hzero _ fun _ _ _ => rfl] at hpos
      exact Nat.lt_irrefl 0 hpos
  have hloc := s.located h
  rw [hzero _ fun _ _ _ => rfl, inShared, List.count_eq_zero.mpr hnone, passedN,
    if_pos hpassed] at hloc
  omega

end

end Batt.Watch
