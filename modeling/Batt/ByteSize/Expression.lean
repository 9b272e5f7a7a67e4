/-
  Additive expressions, and what `parse_byte_size` evaluates.

  An `Expression` is a term and the terms that are added and subtracted behind it. Its text is
  always taken. A '-' is handled by a recursive call on everything behind it, so that a term behind
  an odd number of earlier '-' counts with the other sign. Main result (`evaluates_iff`): where all
  partial results fit, the expression is evaluated from left to right if and only if the terms
  behind an odd number of '-' add up to a multiple of 2^63, as they do where there are none.
-/
import Mathlib.Data.Int.ModEq
import Mathlib.Tactic.Linarith
import Batt.ByteSize.Model

namespace Batt.ByteSize

/-! ## Expressions -/

/-- The letters of the units, each 1024 times the one before it. -/
def unitLetters : List Char := "bkmgtpe".toList

structure Term where
  digits : View
  unit : View
  digits_ne : digits ≠ []
  isDigit : ∀ c ∈ digits, c.isDigit = true
  isAlpha : ∀ c ∈ unit, c.isAlpha = true
  known : ∀ c ∈ unit.head?, c.toLower ∈ unitLetters

/-- The conditions of a term, as one check. -/
def isTerm (digits unit : View) : Bool :=
  !digits.isEmpty && digits.all Char.isDigit && unit.all Char.isAlpha &&
    unit.head?.all fun c => unitLetters.contains c.toLower

def Term.ofParts (digits unit : View) (h : isTerm digits unit = true) : Term where
  digits := digits
  unit := unit
  digits_ne := by
    simp only [isTerm, Bool.and_eq_true, Bool.not_eq_true', List.isEmpty_eq_false_iff] at h
    exact h.1.1.1
  isDigit := by
    simp only [isTerm, Bool.and_eq_true, List.all_eq_true] at h
    exact h.1.1.2
  isAlpha := by
    simp only [isTerm, Bool.and_eq_true, List.all_eq_true] at h
    exact h.1.2
  known := by
    simp only [isTerm, Bool.and_eq_true, Option.all_eq_true, List.contains_iff_mem] at h
    exact h.2

inductive Sign where
  | plus
  | minus
deriving DecidableEq, Repr

structure Expression where
  first : Term
  rest : List (Sign × Term)

def Term.text (t : Term) : View := t.digits ++ t.unit

def unitOf (unit : View) : Nat :=
  unit.head?.elim 1 fun c => 1024 ^ unitLetters.idxOf c.toLower

def Term.value (t : Term) : Nat := Nat.ofDigitChars 10 t.digits 0 * unitOf t.unit

def Sign.char : Sign → Char
  | .plus => '+'
  | .minus => '-'

def Sign.apply : Sign → Int → Int
  | .plus, v => v
  | .minus, v => -v

def restText (rest : List (Sign × Term)) : View := rest.flatMap fun x => x.1.char :: x.2.text

def Expression.text (e : Expression) : View := e.first.text ++ restText e.rest

/-- The value so far, after each of the operators. -/
def Expression.partials (e : Expression) : List Int :=
  e.rest.scanl (fun v x => v + x.1.apply x.2.value) e.first.value

def restValue (rest : List (Sign × Term)) : Int := (rest.map fun x => x.1.apply x.2.value).sum

/-- The value, evaluated from left to right. -/
def Expression.value (e : Expression) : Int := e.first.value + restValue e.rest

/-- Every partial result is a `usize`. -/
def Expression.Fits (e : Expression) : Prop := ∀ v ∈ e.partials, 0 ≤ v ∧ v < 2 ^ 64

instance (e : Expression) : Decidable e.Fits :=
  inferInstanceAs (Decidable (∀ v ∈ e.partials, 0 ≤ v ∧ v < 2 ^ 64))

/-- The terms behind an odd number of earlier '-', with their own signs. -/
def misread (odd : Bool) : List (Sign × Term) → Int
  | [] => 0
  | (sign, t) :: rest =>
    (if odd then sign.apply t.value else 0) + misread (odd ^^ (sign = .minus)) rest

variable {t : Term} {rest : List (Sign × Term)} {u v : UInt64} {x y : Int}

/-! ## A term is a part -/

theorem unitOf_pos (unit : View) : 0 < unitOf unit := by
  cases unit with
  | nil => exact Nat.one_pos
  | cons c unit => exact Nat.pow_pos (by decide)

theorem unitValue_eq {unit : View} (h : ∀ c ∈ unit.head?, c.toLower ∈ unitLetters) :
    unitValue unit = unitOf unit := by
  cases unit with
  | nil => rfl
  | cons c unit =>
    have hc : c.toLower ∈ ['b', 'k', 'm', 'g', 't', 'p', 'e'] := h c rfl
    simp only [List.mem_cons, List.not_mem_nil, or_false] at hc
    rcases hc with hc | hc | hc | hc | hc | hc | hc <;>
      simp only [unitValue, unitOf, List.head?_cons, Option.elim_some, hc] <;> rfl

theorem Term.bare (t : Term) : Bare t.text := bare_term t.isDigit t.isAlpha

theorem Term.text_ne (t : Term) : t.text ≠ [] := fun h =>
  t.digits_ne (List.append_eq_nil_iff.mp h).1

theorem Term.number_le (t : Term) : Nat.ofDigitChars 10 t.digits 0 ≤ t.value :=
  Nat.le_mul_of_pos_right _ (unitOf_pos t.unit)

theorem Term.partValue_text (h : t.value < 2 ^ 64) :
    partValue t.text = some (UInt64.ofNat t.value) := by
  rw [text, partValue_term t.digits_ne t.isDigit t.isAlpha (Nat.lt_of_le_of_lt t.number_le h),
    unitValue_eq t.known, ← UInt64.ofNat_mul]
  rfl

/-! ## Numbers that are kept modulo 2^64 -/

def Wraps (u : UInt64) (x : Int) : Prop := (u.toNat : Int) ≡ x [ZMOD 2 ^ 64]

theorem wraps_self (u : UInt64) : Wraps u u.toNat := Int.ModEq.refl _

theorem wraps_ofNat (n : Nat) : Wraps (UInt64.ofNat n) n := by
  unfold Wraps Int.ModEq
  rw [UInt64.toNat_ofNat']
  omega

theorem Wraps.add (hu : Wraps u x) (hv : Wraps v y) : Wraps (u + v) (x + y) := by
  unfold Wraps Int.ModEq at *
  rw [UInt64.toNat_add]
  omega

theorem Wraps.sub (hu : Wraps u x) (hv : Wraps v y) : Wraps (u - v) (x - y) := by
  have hlt := v.toNat_lt
  unfold Wraps Int.ModEq at *
  rw [UInt64.toNat_sub]
  omega

/-- A number that fits is meant exactly when nothing but a multiple of 2^64 is lost. -/
theorem Wraps.eq_iff (h : Wraps u x) (hy : 0 ≤ y ∧ y < 2 ^ 64) :
    u = UInt64.ofNat y.toNat ↔ 2 ^ 64 ∣ y - x := by
  have hlt := u.toNat_lt
  unfold Wraps Int.ModEq at h
  rw [← UInt64.toNat_inj, UInt64.toNat_ofNat']
  omega

/-! ## What the code reads -/

/-- Behind a '-' everything is subtracted. -/
def readRest : List (Sign × Term) → Int
  | [] => 0
  | (sign, t) :: rest => sign.apply (t.value + readRest rest)

theorem stops_restText (rest : List (Sign × Term)) : Stops (restText rest) := by
  cases rest with
  | nil => exact stops_nil
  | cons x rest =>
    obtain ⟨sign, t⟩ := x
    cases sign with
    | plus => exact stops_plus _
    | minus => exact stops_minus _

theorem parseLoop_text {hasResult : Bool} (ht : t.value < 2 ^ 64) (v : UInt64) :
    parseLoop (t.text ++ restText rest) v hasResult =
      parseLoop (restText rest) (v + UInt64.ofNat t.value) true := by
  rw [parseLoop_part t.text_ne t.bare (stops_restText rest), t.partValue_text ht, Option.bind_some]

theorem parseByteSize_cons (ht : t.value < 2 ^ 64) :
    parseByteSize (t.text ++ restText rest) =
      parseLoop (restText rest) (0 + UInt64.ofNat t.value) true := by
  rw [parseByteSize, if_neg, parseLoop_text ht]
  simp [t.text_ne]

theorem parseLoop_restText (hfit : ∀ x ∈ rest, x.2.value < 2 ^ 64) (hv : Wraps v x) :
    ∃ u, parseLoop (restText rest) v true = some u ∧ Wraps u (x + readRest rest) := by
  induction rest generalizing v x with
  | nil =>
    refine ⟨v, parseLoop_nil, ?_⟩
    rwa [readRest, add_zero]
  | cons a rest ih =>
    obtain ⟨sign, t⟩ := a
    have ht : t.value < 2 ^ 64 := hfit (sign, t) List.mem_cons_self
    have hrest : ∀ x ∈ rest, x.2.value < 2 ^ 64 := fun x hx => hfit x (List.mem_cons_of_mem _ hx)
    cases sign with
    | plus =>
      obtain ⟨u, hu, hwraps⟩ := ih hrest (hv.add (wraps_ofNat t.value))
      refine ⟨u, ?_, ?_⟩
      · show parseLoop ('+' :: (t.text ++ restText rest)) v true = some u
        rw [parseLoop_plus, parseLoop_text ht, hu]
      · rwa [readRest, Sign.apply, ← add_assoc]
    | minus =>
      -- the recursive call starts from nothing, and has the whole of the rest
      obtain ⟨u, hu, hwraps⟩ := ih hrest ((wraps_self 0).add (wraps_ofNat t.value))
      refine ⟨v - u, ?_, ?_⟩
      · show parseLoop ('-' :: (t.text ++ restText rest)) v true = some (v - u)
        rw [parseLoop_minus, if_pos rfl, parseByteSize_cons ht, hu, Option.map_some]
      · have hdelta : Wraps u (t.value + readRest rest) := by simpa using hwraps
        exact hv.sub hdelta

theorem parseByteSize_text {e : Expression} (hfirst : e.first.value < 2 ^ 64)
    (hfit : ∀ x ∈ e.rest, x.2.value < 2 ^ 64) :
    ∃ u, parseByteSize e.text = some u ∧ Wraps u (e.first.value + readRest e.rest) := by
  have hstart : Wraps (0 + UInt64.ofNat e.first.value) e.first.value := by
    simpa using (wraps_self 0).add (wraps_ofNat e.first.value)
  obtain ⟨u, hu, hwraps⟩ := parseLoop_restText hfit hstart
  exact ⟨u, (parseByteSize_cons hfirst).trans hu, hwraps⟩

/-! ## The value -/

theorem misread_eq (rest : List (Sign × Term)) (odd : Bool) :
    restValue rest - (if odd then -readRest rest else readRest rest) = 2 * misread odd rest := by
  induction rest generalizing odd with
  | nil => cases odd <;> rfl
  | cons a rest ih =>
    obtain ⟨sign, t⟩ := a
    have hvalue : restValue ((sign, t) :: rest) = sign.apply t.value + restValue rest :=
      List.sum_cons
    rw [hvalue, readRest, misread]
    cases sign <;> cases odd
    · have h : restValue rest - readRest rest = 2 * misread false rest := ih false
      show t.value + restValue rest - (t.value + readRest rest) = 2 * (0 + misread false rest)
      linarith
    · have h : restValue rest - -readRest rest = 2 * misread true rest := ih true
      show t.value + restValue rest - -(t.value + readRest rest) = 2 * (t.value + misread true rest)
      linarith
    · have h : restValue rest - -readRest rest = 2 * misread true rest := ih true
      show -t.value + restValue rest - -(t.value + readRest rest) = 2 * (0 + misread true rest)
      linarith
    · have h : restValue rest - readRest rest = 2 * misread false rest := ih false
      show -t.value + restValue rest - - -(t.value + readRest rest) =
        2 * (-t.value + misread false rest)
      linarith

theorem mem_scanl {f : Int → Sign × Term → Int} (rest : List (Sign × Term)) (v : Int) :
    v ∈ rest.scanl f v := by
  cases rest <;> simp [List.scanl_cons]

theorem fits_of_scanl {v : Int}
    (h : ∀ a ∈ rest.scanl (fun v x => v + x.1.apply x.2.value) v, 0 ≤ a ∧ a < 2 ^ 64) :
    (0 ≤ v + restValue rest ∧ v + restValue rest < 2 ^ 64) ∧ ∀ x ∈ rest, x.2.value < 2 ^ 64 := by
  induction rest generalizing v with
  | nil =>
    refine ⟨?_, fun x hx => by cases hx⟩
    simpa [restValue] using h v (by simp)
  | cons a rest ih =>
    rw [List.scanl_cons] at h
    have hv := h v (by simp)
    have hnext := h (v + a.1.apply a.2.value) (List.mem_cons_of_mem _ (mem_scanl _ _))
    obtain ⟨hsum, hrest⟩ := ih fun b hb => h b (List.mem_cons_of_mem _ hb)
    refine ⟨?_, ?_⟩
    · have hvalue : restValue (a :: rest) = a.1.apply a.2.value + restValue rest := List.sum_cons
      rwa [hvalue, ← add_assoc]
    · intro x hx
      rcases List.mem_cons.mp hx with rfl | hx
      · obtain ⟨sign, t⟩ := x
        show t.value < 2 ^ 64
        cases sign with
        | plus =>
          have hplus : v + (t.value : Int) < 2 ^ 64 := hnext.2
          omega
        | minus =>
          have hminus : 0 ≤ v + -(t.value : Int) := hnext.1
          omega
      · exact hrest x hx

/-- **An expression whose partial results fit is evaluated from left to right exactly when the terms
    behind an odd number of '-' add up to a multiple of 2^63.** -/
theorem evaluates_iff {e : Expression} (h : e.Fits) :
    parseByteSize e.text = some (UInt64.ofNat e.value.toNat) ↔ 2 ^ 63 ∣ misread false e.rest := by
  obtain ⟨hvalue, hfit⟩ := fits_of_scanl h
  have hfirst : (e.first.value : Int) < 2 ^ 64 := (h e.first.value (mem_scanl _ _)).2
  obtain ⟨u, hu, hwraps⟩ := parseByteSize_text (e := e) (by exact_mod_cast hfirst) hfit
  have hmisread := misread_eq e.rest false
  rw [hu, Option.some.injEq, hwraps.eq_iff (y := e.value) hvalue, Expression.value]
  simp only [Bool.false_eq_true, if_false] at hmisread
  omega

/-- "2kb-1". -/
theorem evaluates_one_minus : ∃ e : Expression, e.text = "2kb-1".toList ∧ e.value = 2047 ∧
    parseByteSize e.text = some (UInt64.ofNat e.value.toNat) := by
  let e : Expression :=
    ⟨.ofParts "2".toList "kb".toList (by decide), [(.minus, .ofParts "1".toList [] (by decide))]⟩
  have h : e.Fits := by decide
  exact ⟨e, rfl, by decide, (evaluates_iff h).mpr (by decide)⟩

/-- "10-3-2" is 5, and read as 10-(3-2). -/
theorem subtracts_from_the_right : ∃ e : Expression, e.Fits ∧ e.text = "10-3-2".toList ∧
    e.value = 5 ∧ parseByteSize e.text = some 9 := by
  let e : Expression := ⟨.ofParts "10".toList [] (by decide),
    [(.minus, .ofParts "3".toList [] (by decide)), (.minus, .ofParts "2".toList [] (by decide))]⟩
  -- what is read is 10-(3-2)
  obtain ⟨u, hu, hwraps⟩ := parseByteSize_text (e := e) (by decide) (by decide)
  have hnine : u = 9 := (hwraps.eq_iff (y := 9) (by decide)).mpr (by decide)
  exact ⟨e, by decide, rfl, rfl, by rw [hu, hnine]⟩

end Batt.ByteSize
