/-
  Parsers of input that is still coming in.

  A parser sees the input that has arrived, from its position on. It reads a value and leaves the
  rest, it fails, or it cannot say yet; `overrun` is a read behind the end of what has arrived.

  `Stable` is what makes such a parser usable: what it says of some input it says of every longer
  one. `Within` adds a triple on lengths: where `need` more are there, the parser reads nothing
  behind them, and leaves `left`. Both are closed under sequence and loops, so a proof follows the
  text of a parser.
-/
import Mathlib.Data.List.Infix

namespace Incremental

variable {σ α β : Type}

inductive Outcome (σ α : Type) where
  | done (value : α) (rest : List σ)
  | incomplete
  | failed
  | overrun
deriving Repr, DecidableEq

def Parser (σ α : Type) := List σ → Outcome σ α

/-! ## Sequence -/

def Parser.bind (p : Parser σ α) (f : α → Parser σ β) : Parser σ β := fun s =>
  match p s with
  | .done a r => f a r
  | .incomplete => .incomplete
  | .failed => .failed
  | .overrun => .overrun

instance : Monad (Parser σ) where
  pure a := fun s => .done a s
  bind := Parser.bind

section

variable {p : Parser σ α} {f : α → Parser σ β} {s r : List σ} {a : α} {b : β}

theorem bind_apply : (p >>= f) s = p.bind f s := rfl

theorem bind_of_done (h : p s = .done a r) : (p >>= f) s = f a r := by
  rw [bind_apply, Parser.bind, h]

theorem bind_congr (h : p s = p r) : (p >>= f) s = (p >>= f) r := by
  rw [bind_apply, bind_apply, Parser.bind, Parser.bind, h]

theorem bind_eq_done :
    (p >>= f) s = .done b r ↔ ∃ a m, p s = .done a m ∧ f a m = .done b r := by
  rw [bind_apply, Parser.bind]
  cases p s <;> simp

theorem bind_eq_failed :
    (p >>= f) s = .failed ↔ p s = .failed ∨ ∃ a m, p s = .done a m ∧ f a m = .failed := by
  rw [bind_apply, Parser.bind]
  cases p s <;> simp

theorem bind_eq_overrun :
    (p >>= f) s = .overrun ↔ p s = .overrun ∨ ∃ a m, p s = .done a m ∧ f a m = .overrun := by
  rw [bind_apply, Parser.bind]
  cases p s <;> simp

end

/-! ## What a parser is written with -/

def fail : Parser σ α := fun _ => .failed

/-- Fails unless the condition holds. -/
def ensure (c : Bool) : Parser σ Unit := if c then pure () else fail

def atLeast (n : Nat) : Parser σ Unit := fun s => if s.length < n then .incomplete else .done () s

/-- There is more to read. -/
def checkEof : Parser σ Unit := atLeast 1

/-- What is at the position. -/
def deref : Parser σ σ
  | [] => .overrun
  | c :: s => .done c (c :: s)

def advance : Parser σ Unit
  | [] => .overrun
  | _ :: s => .done () s

/-- Goes on to the first that does not meet the condition. -/
def skipWhile (cond : σ → Bool) : Parser σ Unit := fun s =>
  match s.dropWhile cond with
  | [] => .incomplete
  | r => .done () r

/-- The value read, with what was read for it. -/
def consumed (p : Parser σ α) : Parser σ (List σ × α) := fun s =>
  match p s with
  | .done a r => .done (s.take (s.length - r.length), a) r
  | .incomplete => .incomplete
  | .failed => .failed
  | .overrun => .overrun

/-- So many turns of a loop whose body goes on with a state or returns a value. -/
def turns (body : α → Parser σ (α ⊕ β)) : Nat → α → Parser σ β
  | 0, _ => fun _ => .incomplete
  | n + 1, a => body a >>= fun
    | .inl a' => turns body n a'
    | .inr b => pure b

/-- The loop. A body that goes on has read something, so there are no more turns than input. -/
def loop (body : α → Parser σ (α ⊕ β)) (a : α) : Parser σ β := fun s =>
  turns body (s.length + 1) a s

theorem skipWhile_cases (cond : σ → Bool) (s : List σ) :
    (s.dropWhile cond = [] ∧ skipWhile cond s = .incomplete) ∨
      (s.dropWhile cond ≠ [] ∧ skipWhile cond s = .done () (s.dropWhile cond)) := by
  unfold skipWhile
  cases s.dropWhile cond with
  | nil => exact .inl ⟨rfl, rfl⟩
  | cons c r => exact .inr ⟨List.cons_ne_nil c r, rfl⟩

theorem skipWhile_append {cond : σ → Bool} {x : List σ} (hx : ∀ c ∈ x, cond c = true)
    (s : List σ) : skipWhile cond (x ++ s) = skipWhile cond s := by
  unfold skipWhile
  rw [List.dropWhile_append_of_pos hx]

variable {p : Parser σ α}

theorem consumed_eq_done {s r x : List σ} {a : α} : consumed p s = .done (x, a) r ↔
    p s = .done a r ∧ x = s.take (s.length - r.length) := by
  rw [consumed]
  cases p s <;> simp
  constructor
  · rintro ⟨⟨rfl, rfl⟩, rfl⟩
    exact ⟨⟨rfl, rfl⟩, rfl⟩
  · rintro ⟨⟨rfl, rfl⟩, rfl⟩
    exact ⟨⟨rfl, rfl⟩, rfl⟩

theorem consumed_eq_failed {s : List σ} :
    consumed p s = .failed ↔ p s = .failed := by
  rw [consumed]
  cases p s <;> simp

theorem consumed_eq_overrun {s : List σ} :
    consumed p s = .overrun ↔ p s = .overrun := by
  rw [consumed]
  cases p s <;> simp

/-! ## What is said holds of every longer input -/

structure Stable (p : Parser σ α) : Prop where
  rest : ∀ {s a r}, p s = .done a r → r <:+ s
  done : ∀ {s a r} (t), p s = .done a r → p (s ++ t) = .done a (r ++ t)
  failed : ∀ {s} (t), p s = .failed → p (s ++ t) = .failed

namespace Stable

variable {p : Parser σ α}

theorem pure (a : α) : Stable (pure a : Parser σ α) where
  rest h := by cases h; exact List.suffix_rfl
  done t h := by cases h; rfl
  failed t h := by cases h

theorem bind {f : α → Parser σ β} (hp : Stable p) (hf : ∀ a, Stable (f a)) :
    Stable (p >>= f) where
  rest h := by
    obtain ⟨a, m, hm, hr⟩ := bind_eq_done.mp h
    exact ((hf a).rest hr).trans (hp.rest hm)
  done t h := by
    obtain ⟨a, m, hm, hr⟩ := bind_eq_done.mp h
    exact (bind_of_done (hp.done t hm)).trans ((hf a).done t hr)
  failed t h := by
    rcases bind_eq_failed.mp h with h | ⟨a, m, hm, hr⟩
    · exact bind_eq_failed.mpr (.inl (hp.failed t h))
    · exact (bind_of_done (hp.done t hm)).trans ((hf a).failed t hr)

theorem fail : Stable (fail : Parser σ α) where
  rest h := by cases h
  done t h := by cases h
  failed t _ := rfl

theorem atLeast (n : Nat) : Stable (atLeast n : Parser σ Unit) where
  rest h := by
    unfold Incremental.atLeast at h
    split at h <;> cases h
    exact List.suffix_rfl
  done t h := by
    unfold Incremental.atLeast at h ⊢
    split at h <;> cases h
    rw [if_neg (by rw [List.length_append]; omega)]
  failed t h := by
    unfold Incremental.atLeast at h
    split at h <;> cases h

theorem deref : Stable (deref : Parser σ σ) where
  rest {s _ _} h := by cases s <;> cases h; exact List.suffix_rfl
  done {s _ _} t h := by cases s <;> cases h; rfl
  failed {s} t h := by cases s <;> cases h

theorem advance : Stable (advance : Parser σ Unit) where
  rest {s _ _} h := by cases s <;> cases h; exact List.suffix_cons _ _
  done {s _ _} t h := by cases s <;> cases h; rfl
  failed {s} t h := by cases s <;> cases h

theorem skipWhile (cond : σ → Bool) : Stable (skipWhile cond) where
  rest {s _ _} h := by
    rcases skipWhile_cases cond s with ⟨_, heq⟩ | ⟨_, heq⟩ <;> rw [heq] at h <;> cases h
    exact List.dropWhile_suffix cond
  done {s _ _} t h := by
    rcases skipWhile_cases cond s with ⟨_, heq⟩ | ⟨hne, heq⟩ <;> rw [heq] at h <;> cases h
    have hmore : (s ++ t).dropWhile cond = s.dropWhile cond ++ t := by
      rw [List.dropWhile_append, if_neg (by rwa [List.isEmpty_iff])]
    rcases skipWhile_cases cond (s ++ t) with ⟨hnil, _⟩ | ⟨_, heq'⟩
    · exact absurd (List.append_eq_nil_iff.mp (hmore ▸ hnil)).1 hne
    · rw [heq', hmore]
  failed {s} t h := by
    rcases skipWhile_cases cond s with ⟨_, heq⟩ | ⟨_, heq⟩ <;> rw [heq] at h <;> cases h

theorem consumed (hp : Stable p) : Stable (consumed p) where
  rest h := hp.rest (consumed_eq_done.mp h).1
  done {_ x r} t h := by
    obtain ⟨hdone, hx⟩ := consumed_eq_done.mp h
    obtain ⟨y, rfl⟩ := hp.rest hdone
    refine consumed_eq_done.mpr ⟨hp.done t hdone, ?_⟩
    rw [hx]
    simp [List.append_assoc]
  failed t h := consumed_eq_failed.mpr (hp.failed t (consumed_eq_failed.mp h))

variable {body : α → Parser σ (α ⊕ β)}

theorem turns (hbody : ∀ a, Stable (body a)) (n : Nat) (a : α) : Stable (turns body n a) := by
  induction n generalizing a with
  | zero => exact ⟨fun h => (by cases h), fun _ h => (by cases h), fun _ h => (by cases h)⟩
  | succ n ih =>
    refine (hbody a).bind fun v => ?_
    cases v with
    | inl a' => exact ih a'
    | inr b => exact Stable.pure b

/-- An answer does not change with the turns that are left. -/
theorem turns_more {n m : Nat} (hle : n ≤ m) {s : List σ} {a : α}
    (h : Incremental.turns body n a s ≠ .incomplete) :
    Incremental.turns body m a s = Incremental.turns body n a s := by
  induction n generalizing m s a with
  | zero => exact absurd rfl h
  | succ n ih =>
    cases m with
    | zero => omega
    | succ m =>
      unfold Incremental.turns at h ⊢
      rw [bind_apply, Parser.bind] at h ⊢
      rw [bind_apply, Parser.bind]
      cases hbody : body a s with
      | done v r =>
        cases v with
        | inl a' =>
          rw [hbody] at h
          exact ih (by omega) h
        | inr b => rfl
      | incomplete | failed | overrun => rfl

theorem loop (hbody : ∀ a, Stable (body a)) (a : α) : Stable (loop body a) where
  rest h := (turns hbody _ a).rest h
  done t h := by
    have hmore := (turns hbody _ a).done t h
    rw [← hmore]
    exact turns_more (by rw [List.length_append]; omega) (by rw [hmore]; exact fun h => by cases h)
  failed t h := by
    have hmore := (turns hbody _ a).failed t h
    rw [← hmore]
    exact turns_more (by rw [List.length_append]; omega) (by rw [hmore]; exact fun h => by cases h)

end Stable

/-! ## No read behind the end -/

/-- On at least `need` and at most `size`. -/
structure Within (size need : Nat) (p : Parser σ α) (left : Nat) : Prop extends Stable p where
  safe : ∀ {s}, need ≤ s.length → s.length ≤ size → p s ≠ .overrun
  leaves : ∀ {s a r}, need ≤ s.length → s.length ≤ size → p s = .done a r → left ≤ r.length

namespace Within

variable {size k l m : Nat} {p : Parser σ α}

theorem weaken (h : Within size k p l) {k' l' : Nat} (hk : k ≤ k') (hl : l' ≤ l) :
    Within size k' p l' where
  toStable := h.toStable
  safe hs hsize := h.safe (by omega) hsize
  leaves hs hsize hdone := hl.trans (h.leaves (by omega) hsize hdone)

theorem pure (a : α) : Within size k (pure a : Parser σ α) k where
  toStable := .pure a
  safe _ _ h := by cases h
  leaves hs _ h := by cases h; exact hs

theorem bind {f : α → Parser σ β} (hp : Within size k p l) (hf : ∀ a, Within size l (f a) m) :
    Within size k (p >>= f) m where
  toStable := hp.toStable.bind fun a => (hf a).toStable
  safe hs hsize h := by
    rcases bind_eq_overrun.mp h with h | ⟨a, r, hdone, h⟩
    · exact hp.safe hs hsize h
    · have hless := (hp.rest hdone).length_le
      exact (hf a).safe (hp.leaves hs hsize hdone) (by omega) h
  leaves hs hsize h := by
    obtain ⟨a, r, hdone, h⟩ := bind_eq_done.mp h
    have hless := (hp.rest hdone).length_le
    exact (hf a).leaves (hp.leaves hs hsize hdone) (by omega) h

theorem ite {c : Prop} [Decidable c] {q : Parser σ α} (hp : Within size k p l)
    (hq : Within size k q l) : Within size k (if c then p else q) l := by
  split
  · exact hp
  · exact hq

theorem fail : Within size k (fail : Parser σ α) l where
  toStable := .fail
  safe _ _ h := by cases h
  leaves _ _ h := by cases h

theorem ensure (c : Bool) : Within size k (ensure c : Parser σ Unit) k := ite (pure ()) fail

theorem atLeast (n : Nat) : Within size k (atLeast n : Parser σ Unit) n where
  toStable := .atLeast n
  safe _ _ h := by
    unfold Incremental.atLeast at h
    split at h <;> cases h
  leaves _ _ h := by
    unfold Incremental.atLeast at h
    split at h <;> cases h
    omega

theorem checkEof : Within size k (checkEof : Parser σ Unit) 1 := atLeast 1

theorem deref : Within size (k + 1) (deref : Parser σ σ) (k + 1) where
  toStable := .deref
  safe {s} hs _ h := by
    cases s with
    | nil => exact absurd hs (by simp)
    | cons c s => cases h
  leaves {s _ _} hs _ h := by
    cases s <;> cases h
    exact hs

theorem advance : Within size (k + 1) (advance : Parser σ Unit) k where
  toStable := .advance
  safe {s} hs _ h := by
    cases s with
    | nil => exact absurd hs (by simp)
    | cons c s => cases h
  leaves {s _ _} hs _ h := by
    cases s <;> cases h
    exact Nat.le_of_succ_le_succ hs

theorem skipWhile (cond : σ → Bool) : Within size k (skipWhile cond) 1 where
  toStable := .skipWhile cond
  safe {s} _ _ h := by
    rcases skipWhile_cases cond s with ⟨_, heq⟩ | ⟨_, heq⟩ <;> rw [heq] at h <;> cases h
  leaves {s _ _} _ _ h := by
    rcases skipWhile_cases cond s with ⟨_, heq⟩ | ⟨hne, heq⟩ <;> rw [heq] at h <;> cases h
    exact List.length_pos_iff.mpr hne

theorem consumed (hp : Within size k p l) : Within size k (consumed p) l where
  toStable := hp.toStable.consumed
  safe hs hsize h := hp.safe hs hsize (consumed_eq_overrun.mp h)
  leaves hs hsize h := hp.leaves hs hsize (consumed_eq_done.mp h).1

theorem loop {body : α → Parser σ (α ⊕ β)} (hbody : ∀ a, Within size 0 (body a) 0) (a : α) :
    Within size 0 (loop body a) 0 where
  toStable := .loop (fun a => (hbody a).toStable) a
  safe {s} := by
    suffices hturns : ∀ n a, Within size 0 (turns body n a) 0 from (hturns (s.length + 1) a).safe
    intro n
    induction n with
    | zero =>
      exact fun a => ⟨.turns (fun a => (hbody a).toStable) 0 a, fun _ _ h => (by cases h),
        fun _ _ h => (by cases h)⟩
    | succ n ih =>
      refine fun a => (hbody a).bind fun v => ?_
      cases v with
      | inl a' => exact ih a'
      | inr b => exact pure b
  leaves _ _ _ := Nat.zero_le _

end Within

end Incremental
