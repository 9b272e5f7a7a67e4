/-
  Transducers that read their input symbol by symbol and may halt in the middle of it.

  A step `f : σ → ι → Move σ ο ε` reads one symbol: it goes on and emits some output, stops
  (the symbol is the last it reads) or fails (the symbol is not read). `Scan.feed` reads a
  whole input; a scan that has halted ignores what follows, so reading an input in pieces is
  reading it at once (`feed_append`), and a piece read from the start of a fresh scan is
  appended to what came before it (`feed_eq_andThen`).
-/
import Mathlib.Data.List.Basic

namespace Transducer

variable {σ ι ο ε : Type}

inductive Move (σ ο ε : Type) where
  | next (s : σ) (out : List ο)
  | stop (s : σ)
  | fail (e : ε)
deriving Repr, DecidableEq

inductive Mode (ε : Type) where
  | running
  | stopped
  | failed (e : ε)
deriving Repr, DecidableEq

/-- How far a scan has come: the state it is in, what it has emitted and how many symbols
    it has read. -/
structure Scan (σ ο ε : Type) where
  state : σ
  emitted : List ο
  consumed : Nat
  mode : Mode ε
deriving Repr, DecidableEq

def start (s : σ) : Scan σ ο ε := ⟨s, [], 0, .running⟩

def Scan.push (f : σ → ι → Move σ ο ε) (c : Scan σ ο ε) (i : ι) : Scan σ ο ε :=
  match c.mode with
  | .running =>
    match f c.state i with
    | .next s out => ⟨s, c.emitted ++ out, c.consumed + 1, .running⟩
    | .stop s => ⟨s, c.emitted, c.consumed + 1, .stopped⟩
    | .fail e => { c with mode := .failed e }
  | _ => c

def Scan.feed (f : σ → ι → Move σ ο ε) (c : Scan σ ο ε) (is : List ι) : Scan σ ο ε :=
  is.foldl (Scan.push f) c

/-- The scan `d`, begun in the state that `c` has reached, seen from where `c` began. -/
def Scan.andThen (c d : Scan σ ο ε) : Scan σ ο ε :=
  ⟨d.state, c.emitted ++ d.emitted, c.consumed + d.consumed, d.mode⟩

variable {f : σ → ι → Move σ ο ε} {c : Scan σ ο ε}

@[simp] theorem start_state (s : σ) : (start s : Scan σ ο ε).state = s := rfl
@[simp] theorem start_emitted (s : σ) : (start s : Scan σ ο ε).emitted = [] := rfl
@[simp] theorem start_consumed (s : σ) : (start s : Scan σ ο ε).consumed = 0 := rfl
@[simp] theorem start_mode (s : σ) : (start s : Scan σ ο ε).mode = .running := rfl

@[simp] theorem feed_nil : c.feed f [] = c := rfl

theorem feed_cons (i : ι) (is : List ι) : c.feed f (i :: is) = (c.push f i).feed f is := rfl

theorem feed_append (is js : List ι) : c.feed f (is ++ js) = (c.feed f is).feed f js :=
  List.foldl_append

/-! ## One symbol -/

/-- What a running scan does with one symbol. -/
theorem push_next {i : ι} {s : σ} {out : List ο} (hc : c.mode = .running)
    (h : f c.state i = .next s out) :
    c.push f i = ⟨s, c.emitted ++ out, c.consumed + 1, .running⟩ := by
  simp only [Scan.push, hc, h]

theorem push_stop {i : ι} {s : σ} (hc : c.mode = .running) (h : f c.state i = .stop s) :
    c.push f i = ⟨s, c.emitted, c.consumed + 1, .stopped⟩ := by
  simp only [Scan.push, hc, h]

theorem push_fail {i : ι} {e : ε} (hc : c.mode = .running) (h : f c.state i = .fail e) :
    c.push f i = { c with mode := .failed e } := by
  simp only [Scan.push, hc, h]

theorem push_of_halted (hc : c.mode ≠ .running) (i : ι) : c.push f i = c := by
  unfold Scan.push
  split
  · contradiction
  · rfl

theorem feed_of_halted (hc : c.mode ≠ .running) (is : List ι) : c.feed f is = c := by
  induction is with
  | nil => rfl
  | cons i is ih => rw [feed_cons, push_of_halted hc, ih]

/-! ## Pieces -/

theorem andThen_start (hc : c.mode = .running) : c.andThen (start c.state) = c := by
  unfold Scan.andThen start
  rw [← hc, List.append_nil, Nat.add_zero]

theorem andThen_push (d : Scan σ ο ε) (i : ι) :
    c.andThen (d.push f i) = (c.andThen d).push f i := by
  by_cases hd : d.mode = .running
  · have hm : (c.andThen d).mode = .running := hd
    cases h : f d.state i with
    | next s out =>
      rw [push_next hd h, push_next hm h]
      simp only [Scan.andThen, List.append_assoc, Nat.add_assoc]
    | stop s =>
      rw [push_stop hd h, push_stop hm h]
      simp only [Scan.andThen, Nat.add_assoc]
    | fail e =>
      rw [push_fail hd h, push_fail hm h]
      rfl
  · have hm : (c.andThen d).mode ≠ .running := hd
    rw [push_of_halted hd, push_of_halted hm]

theorem andThen_feed (d : Scan σ ο ε) (is : List ι) :
    c.andThen (d.feed f is) = (c.andThen d).feed f is := by
  induction is generalizing d with
  | nil => rfl
  | cons i is ih => rw [feed_cons, feed_cons, ih, andThen_push]

/-- A running scan goes on as a fresh one from its state would. -/
theorem feed_eq_andThen (hc : c.mode = .running) (is : List ι) :
    c.feed f is = c.andThen ((start c.state).feed f is) := by
  rw [andThen_feed, andThen_start hc]

/-! ## What is read and what is emitted -/

theorem emitted_prefix_feed (is : List ι) : c.emitted <+: (c.feed f is).emitted := by
  by_cases hc : c.mode = .running
  · rw [feed_eq_andThen hc]
    exact List.prefix_append _ _
  · exact ⟨[], by rw [feed_of_halted hc, List.append_nil]⟩

/-- While the scan has not failed it stands right behind the symbols it has read. -/
theorem feed_take_consumed (hc : c.mode = .running) (is : List ι)
    (h : ∀ e, (c.feed f is).mode ≠ .failed e) :
    ∃ n, n ≤ is.length ∧ (c.feed f is).consumed = c.consumed + n ∧
      c.feed f (is.take n) = c.feed f is ∧
      ((c.feed f is).mode = .running → n = is.length) := by
  induction is generalizing c with
  | nil => exact ⟨0, Nat.le_refl 0, rfl, rfl, fun _ => rfl⟩
  | cons i is ih =>
    cases hm : f c.state i with
    | next s out =>
      have hrun : (c.push f i).mode = .running := by rw [push_next hc hm]
      have hcons : (c.push f i).consumed = c.consumed + 1 := by rw [push_next hc hm]
      obtain ⟨n, hn, hread, htake, hall⟩ := ih hrun h
      refine ⟨n + 1, Nat.succ_le_succ hn, ?_, htake, fun hr => ?_⟩
      · rw [feed_cons, hread, hcons]
        omega
      · rw [List.length_cons, hall hr]
    | stop s =>
      have hstop : (c.push f i).mode ≠ .running := by rw [push_stop hc hm]; nofun
      refine ⟨1, by simp, ?_, ?_, ?_⟩
      · rw [feed_cons, feed_of_halted hstop, push_stop hc hm]
      · rw [List.take_succ_cons, feed_cons, feed_cons, feed_of_halted hstop,
          feed_of_halted hstop]
      · rw [feed_cons, feed_of_halted hstop]
        exact fun hr => absurd hr hstop
    | fail e =>
      have hfail : (c.push f i).mode ≠ .running := by rw [push_fail hc hm]; nofun
      refine absurd ?_ (h e)
      rw [feed_cons, feed_of_halted hfail, push_fail hc hm]

theorem consumed_of_running (hc : c.mode = .running) {is : List ι}
    (h : (c.feed f is).mode = .running) :
    (c.feed f is).consumed = c.consumed + is.length := by
  obtain ⟨n, _, hread, _, hall⟩ := feed_take_consumed hc is fun e he => by rw [h] at he; cases he
  rw [hread, hall h]

/-- A step that emits at most a symbol for the one it reads, and none when it stops: as many
    symbols as were emitted have been read, and one more at the end. -/
theorem emitted_add_le (hf : ∀ {s s' : σ} {i : ι} {out : List ο}, f s i = .next s' out →
    out.length ≤ 1) (hc : c.mode = .running) (is : List ι) :
    (c.feed f is).emitted.length + c.consumed ≤ c.emitted.length + (c.feed f is).consumed ∧
      ((c.feed f is).mode = .stopped →
        (c.feed f is).emitted.length + c.consumed <
          c.emitted.length + (c.feed f is).consumed) := by
  induction is generalizing c with
  | nil =>
    refine ⟨Nat.le_refl _, fun hstop => ?_⟩
    rw [feed_nil, hc] at hstop
    cases hstop
  | cons i is ih =>
    rw [feed_cons]
    cases hm : f c.state i with
    | next s out =>
      have hrun : (c.push f i).mode = .running := by rw [push_next hc hm]
      have hread : (c.push f i).consumed = c.consumed + 1 := by rw [push_next hc hm]
      have hout : (c.push f i).emitted.length = c.emitted.length + out.length := by
        rw [push_next hc hm, List.length_append]
      have hone := hf hm
      obtain ⟨hle, hlt⟩ := ih hrun
      exact ⟨by omega, fun hstop => by have := hlt hstop; omega⟩
    | stop s =>
      have hstop : (c.push f i).mode ≠ .running := by rw [push_stop hc hm]; nofun
      rw [feed_of_halted hstop, push_stop hc hm]
      exact ⟨Nat.le_succ _, fun _ => Nat.lt_succ_self _⟩
    | fail e =>
      have hfail : (c.push f i).mode ≠ .running := by rw [push_fail hc hm]; nofun
      rw [feed_of_halted hfail, push_fail hc hm]
      exact ⟨Nat.le_refl _, nofun⟩

end Transducer
