/-
  The calls on a `Latch` and the handlers passed to it, counted.

  A call is under way in one frame until it returns (`calls`). A handler passed to `async_get` goes
  to `state_` as the body of one of its handlers; when that one is invoked there is a frame for it,
  which gives the value to the user's handler, or passes it to `state_` again. So what was passed
  for it, less what was invoked for it, counts it once until it is given a value (`handlers`).
-/
import Mathlib.Data.List.Induction
import Batt.Latch.Claims

namespace Batt.Latch

open Interleave

variable {T : Type}

/-! ## What is counted -/

/-- The call that a frame will return from. -/
def Frame.call : Frame T → Option Nat
  | .setError call _ | .emplace call _ | .construct call _ | .engage call | .isReady call
  | .poll call | .awaitLoad call | .checkReady call | .checkValue call | .readValue call =>
    some call
  | .inWatch _ .rearm _ => none
  | .inWatch call _ _ => some call
  | .handler _ _ | .handlerRead _ | .user => none

/-- The handler of `async_get` whose turn it is. -/
def Frame.handling : Frame T → Option Nat
  | .handler call _ | .handlerRead call => some call
  | _ => none

/-- Whether a frame belongs to a setter. -/
def Frame.sets : Frame T → Bool
  | .setError _ _ | .inWatch _ (.fetchOr _) _ | .emplace _ _ | .construct _ _ | .engage _
  | .inWatch _ .setReady _ => true
  | _ => false

def Ret.sets : Ret T → Bool
  | .set _ => true
  | _ => false

def runs (n : Nat) (f : Frame T) : Nat := if f.call = some n then 1 else 0

def handles (n : Nat) (f : Frame T) : Nat := if f.handling = some n then 1 else 0

def timesReturned (sh : Shared T) (n : Nat) : Nat := (sh.returns.map Prod.fst).count n

def timesGiven (sh : Shared T) (n : Nat) : Nat := (sh.given.map Prod.fst).count n

def Op.asks : Op T → Nat
  | .asyncGet => 1
  | _ => 0

/-- One if the call is an `async_get`. -/
def asked (sh : Shared T) (n : Nat) : Nat := (sh.calls[n]?.map Op.asks).getD 0

/-- How often `state_` has invoked a handler for the `async_get` call. -/
def invokedFor (sh : Shared T) (n : Nat) : Nat :=
  sh.state.invoked.countP fun e => sh.bodies[e.1]? = some (.asyncGet n)

/-- Whether the call is a setter. -/
def isSetter (sh : Shared T) (n : Nat) : Bool := (sh.calls[n]?.bind Op.argument).isSome

structure Tally (sh : Shared T) (fs : List (Frame T)) : Prop where
  bodies : sh.bodies.length = sh.state.handlers.length
  calls : ∀ n, total (runs n) fs + timesReturned sh n = if n < sh.calls.length then 1 else 0
  handlers : ∀ n, sh.bodies.count (.asyncGet n) + total (handles n) fs + timesGiven sh n =
    asked sh n + invokedFor sh n
  serves : ∀ f ∈ fs, ∀ n, f.call = some n → isSetter sh n = f.sets
  answers : ∀ e ∈ sh.returns, isSetter sh e.1 = e.2.sets

/-! ## Steps -/

section

variable {sh sh' : Shared T} {f : Frame T} {fs rest : List (Frame T)}

theorem Tally.perm {fs' : List (Frame T)} (t : Tally sh fs) (h : fs.Perm fs') : Tally sh fs' where
  bodies := t.bodies
  calls := fun n => by
    rw [← t.calls n]
    exact congrArg (· + timesReturned sh n) (h.map _).sum_nat.symm
  handlers := fun n => by
    rw [← t.handlers n]
    exact congrArg (sh.bodies.count (.asyncGet n) + · + timesGiven sh n) (h.map _).sum_nat.symm
  serves := fun f hf => t.serves f (h.mem_iff.mpr hf)
  answers := t.answers

theorem timesReturned_return (call : Nat) (ret : Ret T) (n : Nat) :
    timesReturned (sh.return call ret) n = timesReturned sh n + if call = n then 1 else 0 := by
  simp [timesReturned, Shared.return, List.count_append, List.count_singleton]

theorem timesGiven_give (call : Nat) (r : StatusOr T) (n : Nat) :
    timesGiven (sh.give call r) n = timesGiven sh n + if call = n then 1 else 0 := by
  simp [timesGiven, Shared.give, List.count_append, List.count_singleton]

/-- The frames of invoked handlers: one for each invocation of a body of `async_get`. -/
theorem total_frameOf (l : List (Nat × StatusOr U32)) (n : Nat) :
    total (runs n) (l.filterMap sh.frameOf) = 0 ∧
      total (handles n) (l.filterMap sh.frameOf) =
        l.countP fun e => sh.bodies[e.1]? = some (.asyncGet n) := by
  induction l with
  | nil => exact ⟨rfl, rfl⟩
  | cons e l ih =>
    rw [List.filterMap_cons, List.countP_cons]
    unfold Shared.frameOf at *
    split
    · rename_i hnone
      split at hnone
      · cases hnone
      · rename_i hbody
        refine ⟨ih.1, ?_⟩
        rw [ih.2, if_neg (by simpa using hbody n), Nat.add_zero]
    · rename_i frame hsome
      split at hsome
      · rename_i handler hbody
        cases hsome
        rw [total_cons, total_cons, ih.1, ih.2, hbody]
        refine ⟨rfl, ?_⟩
        simp only [handles, Frame.handling, Option.some.injEq, Body.asyncGet.injEq, decide_eq_true_eq]
        omega
      · cases hsome

/-- A step leaves a call under way, or it returns. -/
theorem moves_runs (h : Moves sh f sh' fs) (n : Nat) :
    total (runs n) fs + timesReturned sh' n = runs n f + timesReturned sh n := by
  cases h with
  | access call site access =>
    rw [total_append, (total_frameOf _ n).1, total_cons, total_nil]
    cases site <;> simp [runs, Frame.call, timesReturned]
  | awaitReady ready => rcases ready.frame with rfl | rfl <;> simp [runs, Frame.call]
  | wait observes unready =>
    rcases observes.frame with rfl | rfl <;>
      simp [runs, Frame.call, timesReturned, Shared.beginWait]
  | lose | setReady | isReady | unavailable | awaitClosed | readValue | asyncGet =>
    rw [timesReturned_return]
    simp [runs, Frame.call, Nat.add_comm]
  | _ => simp [runs, Frame.call, timesReturned, Shared.fail, Shared.give, Shared.beginWait]

/-- A handler that has been invoked has a body. -/
theorem invokedFor_append (inv : Inv sh fs) (t : Tally sh fs) (body : Body)
    {w : Watch.Shared U32} (hw : w.invoked = sh.state.invoked) (n : Nat) :
    invokedFor { sh with state := w, bodies := sh.bodies ++ [body] } n = invokedFor sh n := by
  unfold invokedFor
  dsimp only
  rw [hw]
  refine List.countP_congr fun e he => ?_
  have hpos : 0 < Watch.timesInvoked e.1 sh.state :=
    List.count_pos_iff.mpr (List.mem_map_of_mem he)
  have hlt : e.1 < sh.bodies.length := by
    rw [t.bodies]
    exact inv.flow.passed_of_invoked hpos
  rw [List.getElem?_append_left hlt]

/-- A step moves a handler of `async_get` from `state_` to a frame, back, or to the user. -/
theorem moves_handles (inv : Inv sh (f :: rest)) (t : Tally sh (f :: rest))
    (h : Moves sh f sh' fs) (n : Nat) :
    sh'.bodies.count (.asyncGet n) + total (handles n) fs + timesGiven sh' n + invokedFor sh n =
      sh.bodies.count (.asyncGet n) + handles n f + timesGiven sh n + invokedFor sh' n := by
  cases h with
  | @access call site pc pc' w access =>
    obtain ⟨more, hmore⟩ := Watch.trans_invoked_prefix access
    have hdrop : w.invoked.drop sh.state.invoked.length = more := by rw [← hmore]; simp
    have hfor : invokedFor { sh with state := w } n =
        invokedFor sh n + more.countP fun e => sh.bodies[e.1]? = some (.asyncGet n) := by
      simp only [invokedFor, ← hmore, List.countP_append]
    rw [hdrop, total_append, (total_frameOf more n).2, hfor, total_cons, total_nil]
    simp only [handles, Frame.handling, timesGiven, reduceCtorEq, if_false]
    omega
  | awaitReady ready => rcases ready.frame with rfl | rfl <;> simp [handles, Frame.handling]
  | @wait _ call observed observes unready =>
    have hfor := invokedFor_append inv t .resume (w := (sh.state.addHandler observed)) rfl n
    simp only [Shared.beginWait, Watch.begin] at hfor ⊢
    rw [hfor]
    rcases observes.frame with rfl | rfl <;>
      simp [handles, Frame.handling, timesGiven, List.count_append]
  | @rearm call observed unready =>
    have hfor := invokedFor_append inv t (.asyncGet call) (w := (sh.state.addHandler observed)) rfl n
    simp only [Shared.beginWait, Watch.begin] at hfor ⊢
    rw [hfor]
    simp only [handles, Frame.handling, timesGiven, List.count_append, List.count_singleton,
      total_cons, total_nil, Option.some.injEq, beq_iff_eq, Body.asyncGet.injEq, reduceCtorEq,
      if_false]
    omega
  | handlerError | handlerRead =>
    have hfor : ∀ call r, invokedFor (sh.give call r) n = invokedFor sh n := fun _ _ => rfl
    rw [timesGiven_give, hfor]
    simp only [handles, Frame.handling, Shared.give, total_cons, total_nil, Option.some.injEq,
      reduceCtorEq, if_false]
    omega
  | _ => rfl

/-- The frames that a step leaves belong to the call that took it. -/
theorem moves_serves (h : Moves sh f sh' fs) {g : Frame T} (hg : g ∈ fs) {n : Nat}
    (hn : g.call = some n) : f.call = some n ∧ g.sets = f.sets := by
  have hsingle : ∀ {x : Frame T}, g ∈ [x] → (x.call = some n → f.call = some n) →
      x.sets = f.sets → f.call = some n ∧ g.sets = f.sets := by
    intro x hx hcall hsets
    obtain rfl := List.mem_singleton.mp hx
    exact ⟨hcall hn, hsets⟩
  cases h with
  | access call site access =>
    rcases List.mem_append.mp hg with hg | hg
    · obtain ⟨e, _, he⟩ := List.mem_filterMap.mp hg
      obtain ⟨handler, rfl⟩ := frameOf_handler he
      cases hn
    · cases site <;> exact hsingle hg id rfl
  | awaitReady ready =>
    rcases ready.frame with rfl | rfl <;> exact hsingle hg id rfl
  | wait observes unready =>
    rcases observes.frame with rfl | rfl <;> exact hsingle hg id rfl
  | lose | setReady | isReady | unavailable | awaitClosed | readValue | asyncGet | rearmed
  | user => cases hg
  | handlerError | handlerRead | rearm | handlerReady =>
    obtain rfl := List.mem_singleton.mp hg
    cases hn
  | _ => exact hsingle hg id rfl

/-- What a step returns is what its call returns. -/
theorem moves_answers (h : Moves sh f sh' fs) {e : Nat × Ret T} (he : e ∈ sh'.returns) :
    e ∈ sh.returns ∨ f.call = some e.1 ∧ e.2.sets = f.sets := by
  cases h with
  | lose | setReady | isReady | unavailable | awaitClosed | readValue | asyncGet =>
    rcases List.mem_append.mp he with he | he
    · exact .inl he
    · obtain rfl := List.mem_singleton.mp he
      exact .inr ⟨rfl, rfl⟩
  | _ => exact .inl he

theorem moves_calls (h : Moves sh f sh' fs) : sh'.calls = sh.calls := by
  cases h <;> rfl

theorem moves_bodies (inv : Inv sh (f :: rest)) (t : Tally sh (f :: rest))
    (h : Moves sh f sh' fs) : sh'.bodies.length = sh'.state.handlers.length := by
  cases h with
  | @access call site pc pc' w access =>
    have hok : SiteOk sh call pc site := inv.frames _ List.mem_cons_self
    have hhandlers : w.handlers = sh.state.handlers := by
      cases access with
      | awaitModifyNone fn oldValue => exact absurd rfl (hok.plain.2 fn oldValue)
      | _ => rfl
    rw [hhandlers]
    exact t.bodies
  | wait | rearm =>
    simp only [Shared.beginWait, Watch.begin, Watch.Shared.addHandler, List.length_append, t.bodies]
    rfl
  | _ => exact t.bodies

theorem tally_move (inv : Inv sh (f :: rest)) (t : Tally sh (f :: rest))
    (h : Moves sh f sh' fs) : Tally sh' (fs ++ rest) := by
  have hcalls := moves_calls h
  have hsetter : isSetter sh' = isSetter sh := by
    unfold isSetter
    rw [hcalls]
  refine ⟨moves_bodies inv t h, ?_, ?_, ?_, ?_⟩
  · intro n
    have hruns := moves_runs h n
    have hn := t.calls n
    rw [total_cons] at hn
    rw [total_append, hcalls, ← hn]
    omega
  · intro n
    have hhandles := moves_handles inv t h n
    have hn := t.handlers n
    have hasked : asked sh' n = asked sh n := by
      unfold asked
      rw [hcalls]
    rw [total_cons] at hn
    rw [total_append, hasked]
    omega
  · intro g hg n hn
    rw [hsetter]
    rcases List.mem_append.mp hg with hg | hg
    · obtain ⟨hf, hsets⟩ := moves_serves h hg hn
      rw [hsets]
      exact t.serves f List.mem_cons_self n hf
    · exact t.serves g (List.mem_cons_of_mem _ hg) n hn
  · intro e he
    rw [hsetter]
    rcases moves_answers h he with he | ⟨hf, hsets⟩
    · exact t.answers e he
    · rw [hsets]
      exact t.serves f List.mem_cons_self e.1 hf

/-! ## Calls -/

theorem Tally.call_lt (t : Tally sh fs) {n : Nat} (h : 0 < total (runs n) fs + timesReturned sh n) :
    n < sh.calls.length := by
  rw [t.calls n] at h
  split at h
  · assumption
  · exact absurd h (Nat.lt_irrefl 0)

theorem isSetter_concat (op : Op T) {n : Nat} (hn : n < sh.calls.length) :
    isSetter { sh with calls := sh.calls ++ [op] } n = isSetter sh n := by
  unfold isSetter
  rw [List.getElem?_append_left hn]

theorem asked_le_one (n : Nat) : asked sh n ≤ 1 := by
  unfold asked
  cases sh.calls[n]? with
  | none => exact Nat.zero_le 1
  | some op => cases op <;> simp [Op.asks]

theorem asked_concat (sh : Shared T) (op : Op T) (n : Nat) :
    asked { sh with calls := sh.calls ++ [op] } n =
      asked sh n + if sh.calls.length = n then op.asks else 0 := by
  unfold asked
  rcases Nat.lt_trichotomy n sh.calls.length with hn | rfl | hn
  · rw [List.getElem?_append_left hn, if_neg (Nat.ne_of_gt hn), Nat.add_zero]
  · rw [List.getElem?_concat_length, List.getElem?_eq_none (Nat.le_refl _), if_pos rfl]
    exact (Nat.zero_add _).symm
  · rw [List.getElem?_eq_none (by rw [List.length_append]; exact hn),
      List.getElem?_eq_none (Nat.le_of_lt hn), if_neg (Nat.ne_of_lt hn), Nat.add_zero]

/-- A new call, whose frame is `f`. -/
theorem tally_push (t : Tally sh fs) (op : Op T) {bodies : List Body}
    {w : Watch.Shared U32} (hcall : f.call = some sh.calls.length)
    (hsets : f.sets = op.argument.isSome) (hhandling : f.handling = none)
    (hbodies : bodies.length = w.handlers.length)
    (hcount : ∀ n, bodies.count (.asyncGet n) +
        invokedFor sh n = sh.bodies.count (.asyncGet n) +
          invokedFor { sh with state := w, bodies := bodies } n +
          if sh.calls.length = n then op.asks else 0) :
    Tally { sh with state := w, bodies := bodies, calls := sh.calls ++ [op] } ([f] ++ fs) := by
  refine ⟨hbodies, ?_, ?_, ?_, ?_⟩
  · intro n
    have hn := t.calls n
    have hruns : runs n f = if sh.calls.length = n then 1 else 0 := by
      simp only [runs, hcall, Option.some.injEq]
    have hret : timesReturned { sh with state := w, bodies := bodies, calls := sh.calls ++ [op] } n =
        timesReturned sh n := rfl
    rw [total_append, total_cons, total_nil, hruns, hret, List.length_append, List.length_singleton]
    split at hn <;> split <;> split <;> omega
  · intro n
    have hn := t.handlers n
    have hc := hcount n
    have hasked := asked_concat sh op n
    have hhandles : handles n f = 0 := by simp [handles, hhandling]
    change bodies.count (.asyncGet n) + total (handles n) ([f] ++ fs) + timesGiven sh n =
      asked { sh with calls := sh.calls ++ [op] } n +
        invokedFor { sh with state := w, bodies := bodies } n
    rw [hasked, total_append, total_cons, total_nil, hhandles]
    omega
  · intro g hg n hn
    rcases List.mem_append.mp hg with hg | hg
    · obtain rfl := List.mem_singleton.mp hg
      rw [hcall] at hn
      cases hn
      rw [hsets]
      simp [isSetter]
    · have hrun : runs n g = 1 := if_pos hn
      have hle := le_total (runs n) hg
      have hlt := t.call_lt (n := n) (by omega)
      exact (isSetter_concat op hlt).trans (t.serves g hg n hn)
  · intro e he
    have hpos : 0 < timesReturned sh e.1 := List.count_pos_iff.mpr (List.mem_map_of_mem he)
    exact (isSetter_concat op (t.call_lt (by omega))).trans (t.answers e he)

theorem tally_call (inv : Inv sh fs) (t : Tally sh fs) (op : Op T) :
    Tally (begin { sh with calls := sh.calls ++ [op] } sh.calls.length op).1
      ((begin { sh with calls := sh.calls ++ [op] } sh.calls.length op).2 ++ fs) := by
  cases op with
  | asyncGet =>
    refine tally_push t .asyncGet rfl rfl rfl ?_ fun n => ?_
    · simp [Watch.Shared.addHandler, t.bodies]
    · have hfor := invokedFor_append inv t (.asyncGet sh.calls.length)
        (w := sh.state.addHandler kInitial) rfl n
      rw [hfor, List.count_append, List.count_singleton]
      simp only [beq_iff_eq, Body.asyncGet.injEq, Op.asks]
      omega
  | _ => exact tally_push t _ rfl rfl rfl t.bodies fun n => by simp [Op.asks]

end

theorem tally_new (n : Nat) : Tally (initial (T := T) n).shared [] where
  bodies := rfl
  calls := fun _ => rfl
  handlers := fun _ => rfl
  serves := List.forall_mem_nil _
  answers := List.forall_mem_nil _

theorem tally_reachable {n : Nat} {c : Conf (Shared T) (List (Frame T))}
    (hr : machine.Reachable (initial n) c) : Tally c.shared c.locals.flatten := by
  have hboth := frames_invariant (I := fun sh fs => Inv sh fs ∧ Tally sh fs)
    (fun h hp => ⟨h.1.perm hp, h.2.perm hp⟩)
    (fun op h => ⟨inv_call h.1 op, tally_call h.1 h.2 op⟩)
    (fun h _ hm => ⟨inv_move h.1 hm, tally_move h.1 h.2 hm⟩) ⟨inv_new n, tally_new n⟩ hr
  exact hboth.2

/-! ## Handlers of `state_` and their bodies -/

theorem count_eq_countP_range (bodies : List Body) (body : Body) :
    bodies.count body = (List.range bodies.length).countP fun h => bodies[h]? = some body := by
  induction bodies using List.reverseRecOn with
  | nil => rfl
  | append_singleton bodies last ih =>
    have hsame : (List.range bodies.length).countP (fun h => (bodies ++ [last])[h]? = some body) =
        (List.range bodies.length).countP fun h => bodies[h]? = some body := by
      refine List.countP_congr fun h hh => ?_
      rw [List.getElem?_append_left (List.mem_range.mp hh)]
    rw [List.count_append, ih, List.length_append, List.length_singleton, List.range_succ,
      List.countP_append, hsame, List.countP_singleton, List.count_singleton,
      List.getElem?_concat_length]
    simp

section

variable {sh : Shared T} {fs : List (Frame T)}

theorem invokedFor_eq_countP (n : Nat) :
    invokedFor sh n = (sh.state.invoked.map Prod.fst).countP
      fun h => sh.bodies[h]? = some (.asyncGet n) := by
  rw [List.countP_map]
  rfl

/-- Each handler of `state_` is invoked at most once. -/
theorem invoked_subperm (inv : Inv sh fs) (t : Tally sh fs) :
    (sh.state.invoked.map Prod.fst).Subperm (List.range sh.bodies.length) := by
  refine List.subperm_of_subset ?_ fun h hh => ?_
  · exact List.nodup_iff_count.mpr inv.flow.timesInvoked_le
  · rw [List.mem_range, t.bodies]
    exact inv.flow.passed_of_invoked (List.count_pos_iff.mpr hh)

/-- A handler of `async_get` is invoked at most once. -/
theorem timesGiven_le (inv : Inv sh fs) (t : Tally sh fs) (n : Nat) :
    timesGiven sh n ≤ asked sh n := by
  have hle : invokedFor sh n ≤ sh.bodies.count (.asyncGet n) := by
    rw [invokedFor_eq_countP, count_eq_countP_range]
    exact (invoked_subperm inv t).countP_le _
  have hn := t.handlers n
  omega

/-- Where all handlers of `state_` have been invoked, so have those of `async_get`. -/
theorem timesGiven_eq (inv : Inv sh fs) (t : Tally sh fs) (hidle : fs = [])
    (hall : ∀ h < sh.state.handlers.length, Watch.timesInvoked h sh.state = 1) (n : Nat) :
    timesGiven sh n = asked sh n := by
  have hperm : (sh.state.invoked.map Prod.fst).Perm (List.range sh.bodies.length) := by
    refine (invoked_subperm inv t).perm_of_length_le ?_
    refine (List.subperm_of_subset List.nodup_range fun h hh => ?_).length_le
    rw [List.mem_range, t.bodies] at hh
    refine List.count_pos_iff.mp ?_
    rw [show (sh.state.invoked.map Prod.fst).count h = 1 from hall h hh]
    exact Nat.one_pos
  have heq : invokedFor sh n = sh.bodies.count (.asyncGet n) := by
    rw [invokedFor_eq_countP, count_eq_countP_range]
    exact hperm.countP_eq _
  have hn := t.handlers n
  rw [hidle, total_nil] at hn
  omega

end

end Batt.Latch
