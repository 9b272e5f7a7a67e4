/-
  Equality of `RadixQueue`s (`operator==`, `Hash`) as a congruence.

  `call` is an operation with the check that it fails. All that it reads are the segments in use:
  `callLive` is the same operation on their list, and `live_call` says that the ring computes it
  wherever its window lies and whatever the slots outside hold. Two queues are equal when these
  lists are (`equal_iff`), so they have one hash, and what is done to both keeps them equal
  (`equal_congruence`). A queue that was reached by calls has no segment with radix zero, so no
  call divides by one.
-/
import Batt.RadixQueue.Fifo

namespace Batt.RadixQueue

open CellRing

variable {K : Nat} {l : List Segment} {radix : Nat}

/-! ## Equality and hash -/

/-- The `i`-th segment from the front, as the loops of `operator==` and `Hash` find it. -/
def nth (q : RadixQueue K) (i : Nat) : Segment := q.segment ((q.frontIndex + i) % K)

/-- `operator==`. -/
def equal (q r : RadixQueue K) : Bool :=
  if q.queueSize ≠ r.queueSize then false
  else (List.range q.queueSize).all fun i =>
    !((q.nth i).radix != (r.nth i).radix || (q.nth i).value != (r.nth i).value)

/-- `Hash`, over any `boost::hash_combine`. -/
def hash (hashCombine : UInt64 → Nat → UInt64) (q : RadixQueue K) : UInt64 :=
  (List.range q.queueSize).foldl
    (fun seed i => hashCombine (hashCombine seed (q.nth i).radix) (q.nth i).value)
    (UInt64.ofNat q.queueSize)

/-! ## Calls and the checks they fail -/

inductive Fault where
  /-- "value must not exceed the supplied radix" -/
  | radixOfValue
  /-- "push failed; the RadixQueue is full" -/
  | full
  /-- "the supplied radix is too large" -/
  | radixOfSegment
  /-- `BATT_CHECK_LT(s.value, s.radix)` -/
  | valueOfSegment
  /-- "pull failed; the RadixQueue is empty" -/
  | empty
  /-- A division by zero. -/
  | division
  deriving DecidableEq, Repr

def check (b : Bool) (fault : Fault) : Except Fault Unit := if b then .ok () else .error fault

def orFault (fault : Fault) {α : Type} : Option α → Except Fault α
  | some a => .ok a
  | none => .error fault

/-- What `push` makes of the back segment. -/
def pushInto (s : Segment) (radix value : Nat) : Segment where
  radix := s.radix * radix % 2 ^ 64
  value := (s.value + value * s.radix) % 2 ^ 64

/-- What `pop` makes of the front segment. -/
def popFrom (s : Segment) (radix : Nat) : Segment where
  radix := s.radix / radix
  value := s.value / radix

/-- `push`, with the check that it fails. -/
def callPush (q : RadixQueue K) (radix value : Nat) : Except Fault (RadixQueue K) := do
  check (radix > value) .radixOfValue
  check (q.back.radix ≠ 0) .division
  orFault .full (q.push radix value)

/-- `pop`, with the check that it fails. -/
def callPop (q : RadixQueue K) (radix : Nat) : Except Fault (Nat × RadixQueue K) := do
  check (radix ≤ q.front.radix) .radixOfSegment
  check (radix ≠ 0) .division
  check ((popFrom q.front radix).value < (popFrom q.front radix).radix) .valueOfSegment
  orFault .empty (q.pop radix)

/-- One call: what it returns, and the queue after it. -/
def call [NeZero K] (q : RadixQueue K) : Op → Except Fault (Option Nat × RadixQueue K)
  | .push radix value => (q.callPush radix value).map fun q' => (none, q')
  | .pop radix => (q.callPop radix).map fun r => (some r.1, r.2)
  | .clear => .ok (none, q.clear)

/-- The arguments are words, and what is popped has a radix. -/
def Op.Fits : Op → Prop
  | .push radix value => radix ≤ maxU64 ∧ value ≤ maxU64
  | .pop radix => 1 ≤ radix ∧ radix ≤ maxU64
  | .clear => True

/-- The queues that calls lead to, at any positions of the ring. -/
inductive Reached [NeZero K] : RadixQueue K → Prop where
  | new : Reached .new
  | call {q q' : RadixQueue K} {op : Op} {answer : Option Nat} (hq : Reached q) (hop : op.Fits)
      (h : q.call op = .ok (answer, q')) : Reached q'

section Checks

variable {α : Type} {b : Bool} {fault : Fault} {f : Unit → Except Fault α}

theorem check_bind (h : b = true) : (check b fault >>= f) = f () := by
  rw [check, if_pos h]
  rfl

theorem check_fails (h : b = false) : (check b fault >>= f) = .error fault := by
  rw [check, if_neg (by simp [h])]
  rfl

end Checks

/-! ## The segments in use -/

/-- `push` on the list of the segments in use. -/
def pushLive (K : Nat) (l : List Segment) (radix value : Nat) :
    Except Fault (List Segment) := do
  check (radix > value) .radixOfValue
  let back := l.getLast?.getD {}
  check (back.radix ≠ 0) .division
  if maxU64 / back.radix < radix then
    if l.length = K then .error .full else return l ++ [pushInto ⟨1, 0⟩ radix value]
  else return l.dropLast ++ [pushInto back radix value]

/-- `pop` on the list of the segments in use. -/
def popLive (l : List Segment) (radix : Nat) : Except Fault (Nat × List Segment) := do
  let front := l.head?.getD {}
  check (radix ≤ front.radix) .radixOfSegment
  check (radix ≠ 0) .division
  let s := popFrom front radix
  check (s.value < s.radix) .valueOfSegment
  return (front.value % radix, if s.radix = 1 ∧ l.length > 1 then l.tail else s :: l.tail)

def callLive (K : Nat) (l : List Segment) : Op → Except Fault (Option Nat × List Segment)
  | .push radix value => (pushLive K l radix value).map fun l' => (none, l')
  | .pop radix => (popLive l radix).map fun r => (some r.1, r.2)
  | .clear => .ok (none, [⟨1, 0⟩])

theorem getLast_live (q : RadixQueue K) : q.live.getLast?.getD {} = q.back := by
  rw [live_eq_concat, List.getLast?_concat, Option.getD_some]

theorem head_live (q : RadixQueue K) : q.live.head?.getD {} = q.front := by
  rw [live_eq_cons, List.head?_cons, Option.getD_some]

theorem pushBack_none_iff (q : RadixQueue K) : q.pushBack = none ↔ q.queueSize = K := by
  rw [← full_iff]
  unfold pushBack
  split <;> simp_all

theorem live_push (q : RadixQueue K) {value : Nat} (hlt : radix > value) :
    (orFault .full (q.push radix value)).map live =
      if maxU64 / q.back.radix < radix then
        if q.queueSize = K then .error .full else .ok (q.live ++ [pushInto ⟨1, 0⟩ radix value])
      else .ok (q.live.dropLast ++ [pushInto q.back radix value]) := by
  rw [push, if_pos hlt]
  dsimp only
  split
  · cases hpush : q.pushBack with
    | none =>
      rw [if_pos (q.pushBack_none_iff.mp hpush)]
      rfl
    | some q' =>
      have hroom : q.queueSize ≠ K := fun hsize => by
        rw [q.pushBack_none_iff.mpr hsize] at hpush
        cases hpush
      have hlive := live_pushBack hpush
      have hlast : q'.back = ⟨1, 0⟩ := by
        rw [← getLast_live, hlive, List.getLast?_concat]
        rfl
      rw [if_neg hroom]
      change Except.ok (q'.setBack (pushInto q'.back radix value)).live = _
      rw [live_setBack, hlast, hlive, List.dropLast_concat]
  · change Except.ok (q.setBack (pushInto q.back radix value)).live = _
    rw [live_setBack]

theorem live_callPush (q : RadixQueue K) (radix value : Nat) :
    (q.callPush radix value).map live = pushLive K q.live radix value := by
  unfold callPush pushLive
  rw [getLast_live, length_live]
  by_cases hlt : radix > value
  · rw [check_bind (decide_eq_true hlt), check_bind (decide_eq_true hlt)]
    dsimp only
    by_cases hback : q.back.radix ≠ 0
    · rw [check_bind (decide_eq_true hback), check_bind (decide_eq_true hback), live_push q hlt]
      rfl
    · rw [check_fails (decide_eq_false hback), check_fails (decide_eq_false hback)]
      rfl
  · rw [check_fails (decide_eq_false hlt), check_fails (decide_eq_false hlt)]
    rfl

theorem live_pop (q : RadixQueue K) (hle : radix ≤ q.front.radix) (hradix : radix ≠ 0)
    (hvalue : (popFrom q.front radix).value < (popFrom q.front radix).radix) :
    (orFault .empty (q.pop radix)).map (fun r => (r.1, r.2.live)) =
      .ok (q.front.value % radix,
        if (popFrom q.front radix).radix = 1 ∧ q.queueSize > 1 then q.live.tail
        else popFrom q.front radix :: q.live.tail) := by
  have hpop : q.pop radix =
      (if (popFrom q.front radix).radix = 1 ∧ q.queueSize > 1 then
        (q.setFront (popFrom q.front radix)).popFront
      else some (q.setFront (popFrom q.front radix))).map fun q' =>
        (q.front.value % radix, q') := by
    rw [pop, if_neg hradix, if_pos hle]
    exact if_pos hvalue
  rw [hpop]
  split
  · rename_i hlast
    obtain ⟨q', hq'⟩ := popFront_isSome (q := q.setFront (popFrom q.front radix)) hlast.2
    have hlive := live_popFront hq'
    rw [live_setFront, List.tail_cons] at hlive
    rw [hq', ← hlive]
    rfl
  · rw [← live_setFront]
    rfl

theorem live_callPop (q : RadixQueue K) (radix : Nat) :
    (q.callPop radix).map (fun r => (r.1, r.2.live)) = popLive q.live radix := by
  unfold callPop popLive
  rw [head_live, length_live]
  dsimp only
  by_cases hle : radix ≤ q.front.radix
  · rw [check_bind (decide_eq_true hle), check_bind (decide_eq_true hle)]
    by_cases hradix : radix ≠ 0
    · rw [check_bind (decide_eq_true hradix), check_bind (decide_eq_true hradix)]
      by_cases hvalue : (popFrom q.front radix).value < (popFrom q.front radix).radix
      · rw [check_bind (decide_eq_true hvalue), check_bind (decide_eq_true hvalue),
          live_pop q hle hradix hvalue]
        rfl
      · rw [check_fails (decide_eq_false hvalue), check_fails (decide_eq_false hvalue)]
        rfl
    · rw [check_fails (decide_eq_false hradix), check_fails (decide_eq_false hradix)]
      rfl
  · rw [check_fails (decide_eq_false hle), check_fails (decide_eq_false hle)]
    rfl

/-- **The ring computes on the segments in use.** -/
theorem live_call [NeZero K] (q : RadixQueue K) (op : Op) :
    (q.call op).map (fun r => (r.1, r.2.live)) = callLive K q.live op := by
  cases op with
  | push radix value =>
    show Except.map _ (Except.map _ (q.callPush radix value)) = Except.map _ (pushLive K _ _ _)
    rw [← live_callPush]
    cases q.callPush radix value <;> rfl
  | pop radix =>
    show Except.map _ (Except.map _ (q.callPop radix)) = Except.map _ (popLive _ _)
    rw [← live_callPop]
    cases q.callPop radix <;> rfl
  | clear =>
    show Except.ok (none, q.clear.live) = _
    rw [live_clear]
    rfl

/-! ## Equality -/

theorem live_eq_nth (q : RadixQueue K) : q.live = (List.range q.queueSize).map q.nth := by
  unfold live slots
  rw [List.map_map]
  rfl

theorem equal_iff (q r : RadixQueue K) : q.equal r = true ↔ q.live = r.live := by
  unfold equal
  split
  · rename_i hsize
    refine iff_of_false Bool.false_ne_true fun h => hsize ?_
    rw [← length_live, h, length_live]
  · rename_i hsize
    rw [live_eq_nth, live_eq_nth, ← Decidable.not_not.mp hsize, List.map_inj_left,
      List.all_eq_true]
    refine forall₂_congr fun i _ => ?_
    rw [Bool.not_eq_true', Bool.or_eq_false_iff, bne_eq_false_iff_eq, bne_eq_false_iff_eq]
    constructor
    · rintro ⟨hradix, hvalue⟩
      calc q.nth i = ⟨(q.nth i).radix, (q.nth i).value⟩ := rfl
        _ = r.nth i := by rw [hradix, hvalue]
    · intro h
      rw [h]
      exact ⟨rfl, rfl⟩

theorem hash_eq (hashCombine : UInt64 → Nat → UInt64) (q : RadixQueue K) :
    q.hash hashCombine =
      q.live.foldl (fun seed s => hashCombine (hashCombine seed s.radix) s.value)
        (UInt64.ofNat q.live.length) := by
  rw [length_live, live_eq_nth, List.foldl_map]
  rfl

theorem hash_congr (hashCombine : UInt64 → Nat → UInt64) {q r : RadixQueue K}
    (h : q.live = r.live) : q.hash hashCombine = r.hash hashCombine := by
  rw [hash_eq, hash_eq, h]

/-! ## No division by zero -/

def NoZero (l : List Segment) : Prop := ∀ s ∈ l, 0 < s.radix

theorem NoZero.getLast (h : NoZero l) : 0 < (l.getLast?.getD {}).radix := by
  cases hl : l.getLast? with
  | none => exact Nat.one_pos
  | some s => exact h s (List.mem_of_getLast? hl)

/-- A call that divides by nothing leaves such a list, or fails a check. -/
def Sane {α : Type} (next : α → List Segment) : Except Fault α → Prop
  | .ok a => NoZero (next a)
  | .error fault => fault ≠ .division

theorem sane_pushLive (h : NoZero l) (hradix : radix ≤ maxU64) (value : Nat) :
    Sane id (pushLive K l radix value) := by
  unfold pushLive
  by_cases hlt : radix > value
  · have hback := h.getLast
    have hback' : (l.getLast?.getD {}).radix ≠ 0 := by omega
    rw [check_bind (decide_eq_true hlt)]
    dsimp only
    rw [check_bind (decide_eq_true hback')]
    split
    · split
      · exact fun e => Fault.noConfusion e
      · intro s hs
        rcases List.mem_append.mp hs with hs | hs
        · exact h s hs
        · rw [List.mem_singleton.mp hs]
          show 0 < 1 * radix % 2 ^ 64
          unfold maxU64 at hradix
          rw [Nat.one_mul, Nat.mod_eq_of_lt (by omega)]
          omega
    · rename_i hover
      -- the product fits, since the quotient of the largest word is not below the radix
      have hfit : radix * (l.getLast?.getD {}).radix ≤ maxU64 :=
        (Nat.le_div_iff_mul_le hback).mp (by omega)
      intro s hs
      rcases List.mem_append.mp hs with hs | hs
      · exact h s (List.mem_of_mem_dropLast hs)
      · rw [List.mem_singleton.mp hs]
        show 0 < (l.getLast?.getD {}).radix * radix % 2 ^ 64
        unfold maxU64 at hfit
        rw [Nat.mul_comm, Nat.mod_eq_of_lt (by omega)]
        exact Nat.mul_pos (by omega) hback
  · rw [check_fails (decide_eq_false hlt)]
    exact fun e => Fault.noConfusion e

theorem sane_popLive (h : NoZero l) (hradix : 1 ≤ radix) :
    Sane Prod.snd (popLive l radix) := by
  unfold popLive
  dsimp only
  by_cases hle : radix ≤ (l.head?.getD {}).radix
  · have hradix' : radix ≠ 0 := by omega
    rw [check_bind (decide_eq_true hle), check_bind (decide_eq_true hradix')]
    by_cases hvalue : (popFrom (l.head?.getD {}) radix).value <
        (popFrom (l.head?.getD {}) radix).radix
    · rw [check_bind (decide_eq_true hvalue)]
      have htail : ∀ s ∈ l.tail, 0 < s.radix := fun s hs => h s (List.mem_of_mem_tail hs)
      show NoZero (if _ then _ else _)
      split
      · exact htail
      · intro s hs
        rcases List.mem_cons.mp hs with rfl | hs
        · exact Nat.div_pos hle hradix
        · exact htail s hs
    · rw [check_fails (decide_eq_false hvalue)]
      exact fun e => Fault.noConfusion e
  · rw [check_fails (decide_eq_false hle)]
    exact fun e => Fault.noConfusion e

theorem sane_callLive (h : NoZero l) {op : Op} (hop : op.Fits) :
    Sane Prod.snd (callLive K l op) := by
  cases op with
  | push radix value =>
    have hpush := sane_pushLive (K := K) h hop.1 value
    show Sane _ (Except.map _ (pushLive K l radix value))
    cases hl : pushLive K l radix value <;> rw [hl] at hpush <;> exact hpush
  | pop radix =>
    have hpop := sane_popLive h hop.1
    show Sane _ (Except.map _ (popLive l radix))
    cases hl : popLive l radix <;> rw [hl] at hpop <;> exact hpop
  | clear =>
    intro s hs
    rw [List.mem_singleton.mp hs]
    exact Nat.one_pos

theorem Reached.noZero [NeZero K] {q : RadixQueue K} (h : Reached q) : NoZero q.live := by
  induction h with
  | new =>
    rw [live_new]
    exact fun s hs => by rw [List.mem_singleton.mp hs]; exact Nat.one_pos
  | @call q q' op answer _ hop hcall ih =>
    have hsane := sane_callLive (K := K) ih hop
    rw [← live_call, hcall] at hsane
    exact hsane

/-! ## The congruence -/

/-- Two calls fail the same check, or give the same answer and equal queues. -/
def Agree (x y : Except Fault (Option Nat × RadixQueue K)) : Prop :=
  (∃ fault, fault ≠ .division ∧ x = .error fault ∧ y = .error fault) ∨
    ∃ answer q r, x = .ok (answer, q) ∧ y = .ok (answer, r) ∧ q.equal r = true

theorem agree_call [NeZero K] {q r : RadixQueue K} (hq : Reached q) (h : q.live = r.live)
    {op : Op} (hop : op.Fits) : Agree (q.call op) (r.call op) := by
  have hboth : (q.call op).map (fun r => (r.1, r.2.live)) =
      (r.call op).map fun r => (r.1, r.2.live) := by
    rw [live_call, live_call, h]
  have hsane := sane_callLive (K := K) hq.noZero hop
  rw [← live_call] at hsane
  cases hcq : q.call op with
  | error fault =>
    rw [hcq] at hboth hsane
    cases hcr : r.call op with
    | error fault' =>
      rw [hcr] at hboth
      cases hboth
      exact .inl ⟨fault, hsane, rfl, rfl⟩
    | ok _ =>
      rw [hcr] at hboth
      cases hboth
  | ok p =>
    rw [hcq] at hboth
    cases hcr : r.call op with
    | error _ =>
      rw [hcr] at hboth
      cases hboth
    | ok p' =>
      rw [hcr] at hboth
      obtain ⟨hanswer, hlive⟩ := Prod.mk.inj (Except.ok.inj hboth)
      refine .inr ⟨p.1, p.2, p'.2, rfl, ?_, (equal_iff _ _).mpr hlive⟩
      rw [hanswer]

/-- **Equal queues have one hash and stay equal under the same calls.** Equality and the hash
    read nothing but the segments in use. -/
theorem equal_congruence [NeZero K] (hashCombine : UInt64 → Nat → UInt64) :
    (∀ q r : RadixQueue K, (q.equal r = true ↔ q.live = r.live) ∧
      (q.live = r.live → q.hash hashCombine = r.hash hashCombine)) ∧
    ∀ q r : RadixQueue K, Reached q → Reached r → q.equal r = true →
      q.hash hashCombine = r.hash hashCombine ∧
        ∀ op : Op, op.Fits → Agree (q.call op) (r.call op) := by
  refine ⟨fun q r => ⟨equal_iff q r, hash_congr hashCombine⟩, fun q r hq _ h => ?_⟩
  have hlive := (equal_iff q r).mp h
  exact ⟨hash_congr hashCombine hlive, fun op hop => agree_call hq hlive hop⟩

/-- The window of one queue has moved on, the other has an old segment behind its window. -/
theorem equal_congruence_windows :
    ∃ q r : RadixQueue 2, q.frontIndex = 1 ∧ r.frontIndex = 0 ∧ r.segment 1 = ⟨4, 3⟩ ∧
      q.hash (fun seed n => seed + UInt64.ofNat n) =
        r.hash (fun seed n => seed + UInt64.ofNat n) ∧
      Agree (q.call (.pop 4)) (r.call (.pop 4)) := by
  have hfits : (Op.push (2 ^ 63) 1).Fits := ⟨by decide, by decide⟩
  have hfits' : (Op.push 4 3).Fits := ⟨by decide, by decide⟩
  have hfits'' : (Op.pop (2 ^ 63)).Fits := ⟨by decide, by decide⟩
  have h₁ : Reached (⟨0, 0, #v[⟨2 ^ 63, 1⟩, ⟨1, 0⟩]⟩ : RadixQueue 2) := .call .new hfits rfl
  have h₂ : Reached (⟨0, 1, #v[⟨2 ^ 63, 1⟩, ⟨4, 3⟩]⟩ : RadixQueue 2) := .call h₁ hfits' rfl
  have hq : Reached (⟨1, 1, #v[⟨1, 0⟩, ⟨4, 3⟩]⟩ : RadixQueue 2) := .call h₂ hfits'' rfl
  have h₃ : Reached (⟨0, 0, #v[⟨1, 0⟩, ⟨4, 3⟩]⟩ : RadixQueue 2) :=
    .call h₂ (show Op.clear.Fits from trivial) rfl
  have hr : Reached (⟨0, 0, #v[⟨4, 3⟩, ⟨4, 3⟩]⟩ : RadixQueue 2) := .call h₃ hfits' rfl
  obtain ⟨hhash, hcalls⟩ := (equal_congruence _).2 _ _ hq hr (by decide)
  exact ⟨_, _, rfl, rfl, rfl, hhash, hcalls (.pop 4) ⟨by decide, by decide⟩⟩

end Batt.RadixQueue
