/-
  `from_string` of an integer type (batteries/stream_util.hpp), in the classic locale.

  The extraction is that of the C++ standard: blanks are skipped, a sign and the digits behind it
  are taken, and the conversion of `strtoll` or `strtoull` is made of these. A number that is out of
  range is replaced by the nearest limit and one that is missing by zero, and both set the failbit;
  where there is nothing but blanks the variable, which has no initial value, is left alone. The
  eofbit is set where the extraction comes to the end of the text.

  The text is the list of its characters. Types of eight bits are not among these: `operator>>`
  reads a character into them.
-/
import Mathlib.Data.List.TakeWhile
import Mathlib.Algebra.Ring.Int.Defs
import Mathlib.Algebra.GroupWithZero.Nat
import Batt.Lib.CString
import Batt.Lib.Delim

namespace Batt.FromString

open Delim

/-! ## The extraction -/

/-- The characters that an extraction skips, in the classic locale. -/
def isSpace (c : Char) : Bool :=
  c = ' ' || c = '\t' || c = '\n' || c = '\x0b' || c = '\x0c' || c = '\r'

/-- What an extraction leaves: the value, whether it failed and whether it came to the end. -/
structure Extraction where
  val : Int
  fail : Bool
  eof : Bool
deriving DecidableEq, Repr

structure IntType where
  bits : Nat
  signed : Bool
  /-- An unsigned field with a minus is negated modulo `2 ^ negateBits`: with the width of the type,
      as libraries do it, or with that of the conversion by `strtoull`. -/
  negateBits : Nat
  bits_mem : bits ∈ [16, 32, 64]
  negateBits_mem : negateBits ∈ [bits, 64]

def i64 : IntType := ⟨64, true, 64, by decide, by decide⟩

def usize : IntType := ⟨64, false, 64, by decide, by decide⟩

variable (T : IntType)

def IntType.max : Int := if T.signed then 2 ^ (T.bits - 1) - 1 else 2 ^ T.bits - 1

def IntType.min : Int := if T.signed then - 2 ^ (T.bits - 1) else 0

/-- The number of a field with these digits. -/
def IntType.convert (negative : Bool) (digits : List Char) : Int :=
  let n := Nat.ofDigitChars 10 digits 0
  if T.signed then if negative then -(n : Int) else n
  else if negative && n < 2 ^ T.negateBits then ((2 ^ T.negateBits - n) % 2 ^ T.negateBits : Nat)
  else n

/-- The field behind its sign. -/
def extractNumber (negative : Bool) (text : List Char) : Extraction :=
  let digits := text.takeWhile Char.isDigit
  let eof := (text.dropWhile Char.isDigit).isEmpty
  if digits.isEmpty then { val := 0, fail := true, eof := eof }
  else if T.max < T.convert negative digits then { val := T.max, fail := true, eof := eof }
  else if T.convert negative digits < T.min then { val := T.min, fail := true, eof := eof }
  else { val := T.convert negative digits, fail := false, eof := eof }

/-- `operator>>`. -/
def extract (uninit : Int) (text : List Char) : Extraction :=
  match text.dropWhile isSpace with
  | [] => { val := uninit, fail := true, eof := true }
  | '-' :: rest => extractNumber T true rest
  | '+' :: rest => extractNumber T false rest
  | c :: rest => extractNumber T false (c :: rest)

/-- `from_string<T>`: the value is returned where the stream is good or at its end. -/
def fromString (uninit : Int) (str : List Char) : Option Int :=
  let e := extract T uninit str
  if (!e.fail && !e.eof) || e.eof then some e.val else none

/-- Bytes as characters. -/
def chars (str : List UInt8) : List Char := str.map fun b => Char.ofNat b.toNat

/-! ## What an extraction is for -/

/-- What does not begin with a digit. -/
def EndsNumber (behind : List Char) : Prop := ∀ c ∈ behind.head?, c.isDigit = false

/-- A text that begins with blanks, a sign and these digits. -/
structure Field where
  blanks : List Char
  sign : Option Bool
  digits : List Char
  behind : List Char
  isSpace : ∀ c ∈ blanks, isSpace c = true
  isDigit : ∀ c ∈ digits, c.isDigit = true
  ends : EndsNumber behind

def signText : Option Bool → List Char
  | none => []
  | some true => ['-']
  | some false => ['+']

def Field.text (f : Field) : List Char := f.blanks ++ (signText f.sign ++ (f.digits ++ f.behind))

def Field.value (f : Field) : Int := T.convert (f.sign = some true) f.digits

def Field.InRange (f : Field) : Prop := T.min ≤ f.value T ∧ f.value T ≤ T.max

/-- The text begins with a number that fits. -/
def Denotes (s : List Char) (v : Int) : Prop :=
  ∃ f : Field, f.text = s ∧ f.digits ≠ [] ∧ f.InRange T ∧ f.value T = v

/-- The text ends where no number has come, or one that does not fit. -/
def Exhausted (s : List Char) : Prop :=
  ∃ f : Field, f.text = s ∧ f.behind = [] ∧ (f.digits = [] ∨ ¬f.InRange T)

variable {T} {v : Int} {s : List Char} {f : Field}

/-! ## The extraction of a field -/

theorem takeWhile_field (f : Field) : (f.digits ++ f.behind).takeWhile Char.isDigit = f.digits := by
  rw [takeWhile_append_of_head f.ends]
  exact List.takeWhile_eq_self_iff.mpr f.isDigit

theorem dropWhile_field (f : Field) : (f.digits ++ f.behind).dropWhile Char.isDigit = f.behind := by
  rw [dropWhile_append_of_head f.ends, List.dropWhile_eq_nil_iff.mpr f.isDigit, List.nil_append]

/-- The field is converted where there are digits and the number fits. -/
structure Converts (T : IntType) (f : Field) (e : Extraction) : Prop where
  fail : e.fail = false ↔ f.digits ≠ [] ∧ f.InRange T
  val : e.fail = false → e.val = f.value T
  eof : e.eof = true ↔ f.behind = []

theorem converts_field (f : Field) :
    Converts T f (extractNumber T (f.sign = some true) (f.digits ++ f.behind)) := by
  unfold extractNumber
  rw [takeWhile_field, dropWhile_field]
  dsimp only
  have hvalue : T.convert (f.sign = some true) f.digits = f.value T := rfl
  rw [hvalue]
  split
  · rename_i hnone
    have hdigits : f.digits = [] := List.isEmpty_iff.mp hnone
    exact ⟨by simp [hdigits], (fun h => by cases h), List.isEmpty_iff⟩
  · rename_i hsome
    have hdigits : f.digits ≠ [] := fun hnone => hsome (List.isEmpty_iff.mpr hnone)
    split
    · rename_i hmax
      refine ⟨iff_of_false (by simp) fun h => ?_, (fun h => by cases h), List.isEmpty_iff⟩
      exact absurd h.2.2 (Int.not_le.mpr hmax)
    · split
      · rename_i hmin
        refine ⟨iff_of_false (by simp) fun h => ?_, (fun h => by cases h), List.isEmpty_iff⟩
        exact absurd h.2.1 (Int.not_le.mpr hmin)
      · rename_i hmax hmin
        exact ⟨iff_of_true rfl ⟨hdigits, Int.not_lt.mp hmin, Int.not_lt.mp hmax⟩, fun _ => rfl,
          List.isEmpty_iff⟩

theorem extractNumber_mem (negative : Bool) (text : List Char) :
    T.min ≤ (extractNumber T negative text).val ∧ (extractNumber T negative text).val ≤ T.max := by
  have hpos : (0 : Int) < 2 ^ (T.bits - 1) ∧ (0 : Int) < 2 ^ T.bits :=
    ⟨Int.pow_pos (by decide), Int.pow_pos (by decide)⟩
  have hzero : T.min ≤ 0 ∧ 0 ≤ T.max := by
    unfold IntType.min IntType.max
    split <;> omega
  unfold extractNumber
  dsimp only
  split_ifs with hnone hmax hmin
  · exact hzero
  · exact ⟨Int.le_trans hzero.1 hzero.2, Int.le_refl _⟩
  · exact ⟨Int.le_refl _, Int.le_trans hzero.1 hzero.2⟩
  · exact ⟨Int.not_lt.mp hmin, Int.not_lt.mp hmax⟩

theorem not_isSpace {c : Char} (h : c.isDigit = true) : isSpace c = false ∧ c ≠ '-' ∧ c ≠ '+' := by
  refine ⟨Bool.eq_false_iff.mpr fun hspace => ?_, ?_, ?_⟩
  · simp only [isSpace, Bool.or_eq_true, decide_eq_true_eq] at hspace
    rcases hspace with ((((rfl | rfl) | rfl) | rfl) | rfl) | rfl <;> exact absurd h (by decide)
  · rintro rfl
    exact absurd h (by decide)
  · rintro rfl
    exact absurd h (by decide)

/-- A field with a sign or a digit in it. -/
theorem extract_field (uninit : Int) (h : f.sign ≠ none ∨ f.digits ≠ []) :
    extract T uninit f.text = extractNumber T (f.sign = some true) (f.digits ++ f.behind) := by
  have hskip : f.text.dropWhile isSpace =
      (signText f.sign ++ (f.digits ++ f.behind)).dropWhile isSpace := by
    rw [Field.text, List.dropWhile_append_of_pos f.isSpace]
  unfold extract
  rw [hskip]
  match hsign : f.sign with
  | some true => rfl
  | some false => rfl
  | none =>
    obtain ⟨d, digits, hdigits⟩ := List.exists_cons_of_ne_nil (h.resolve_left fun h => h hsign)
    obtain ⟨hspace, hminus, hplus⟩ := not_isSpace (f.isDigit d (by rw [hdigits]; exact .head _))
    rw [hdigits]
    simp [signText, hspace]

theorem extract_blank (uninit : Int) (h : ∀ c ∈ s, isSpace c = true) :
    extract T uninit s = { val := uninit, fail := true, eof := true } := by
  unfold extract
  rw [List.dropWhile_eq_nil_iff.mpr h]

/-- Every text is blank, or has its field. -/
theorem exists_field (T : IntType) (uninit : Int) (s : List Char) :
    (∀ c ∈ s, isSpace c = true) ∨
      ∃ f : Field, f.text = s ∧
        extract T uninit s = extractNumber T (f.sign = some true) (f.digits ++ f.behind) := by
  have hblanks : ∀ c ∈ s.takeWhile isSpace, isSpace c = true :=
    fun c hc => List.mem_takeWhile_imp hc
  -- the field whose sign and rest are these
  have hmake : ∀ sign rest, s.dropWhile isSpace = signText sign ++ rest →
      extract T uninit s = extractNumber T (sign = some true) rest →
      ∃ f : Field, f.text = s ∧
        extract T uninit s = extractNumber T (f.sign = some true) (f.digits ++ f.behind) := by
    intro sign rest hrest hextract
    refine ⟨⟨s.takeWhile isSpace, sign, rest.takeWhile Char.isDigit, rest.dropWhile Char.isDigit,
      hblanks, fun c hc => List.mem_takeWhile_imp hc, head_dropWhile _ _⟩, ?_, ?_⟩
    · rw [Field.text, List.takeWhile_append_dropWhile, ← hrest, List.takeWhile_append_dropWhile]
    · rw [hextract, List.takeWhile_append_dropWhile]
  cases hdrop : s.dropWhile isSpace with
  | nil => exact .inl (List.dropWhile_eq_nil_iff.mp hdrop)
  | cons c rest =>
    refine .inr ?_
    by_cases hminus : c = '-'
    · subst hminus
      refine hmake (some true) rest hdrop ?_
      rw [extract, hdrop]
      rfl
    · by_cases hplus : c = '+'
      · subst hplus
        refine hmake (some false) rest hdrop ?_
        rw [extract, hdrop]
        rfl
      · refine hmake none (c :: rest) hdrop ?_
        rw [extract, hdrop]
        simp

/-! ## Success and failure -/

theorem succeeds_iff (uninit : Int) :
    ((extract T uninit s).fail = false ∧ (extract T uninit s).val = v) ↔ Denotes T s v := by
  constructor
  · rintro ⟨hok, hval⟩
    rcases exists_field T uninit s with hblank | ⟨f, hf, hextract⟩
    · rw [extract_blank uninit hblank] at hok
      cases hok
    · have hconverts := converts_field (T := T) f
      rw [← hextract] at hconverts
      obtain ⟨hdigits, hrange⟩ := hconverts.fail.mp hok
      exact ⟨f, hf, hdigits, hrange, (hconverts.val hok).symm.trans hval⟩
  · rintro ⟨f, rfl, hdigits, hrange, rfl⟩
    have hconverts := converts_field (T := T) f
    rw [← extract_field uninit (.inr hdigits)] at hconverts
    have hok := hconverts.fail.mpr ⟨hdigits, hrange⟩
    exact ⟨hok, hconverts.val hok⟩

theorem exhausted_iff (uninit : Int) :
    ((extract T uninit s).fail = true ∧ (extract T uninit s).eof = true) ↔ Exhausted T s := by
  constructor
  · rintro ⟨hfail, heof⟩
    rcases exists_field T uninit s with hblank | ⟨f, hf, hextract⟩
    · refine ⟨⟨s, none, [], [], hblank, fun c hc => (by cases hc), fun c hc => (by cases hc)⟩, ?_,
        rfl, .inl rfl⟩
      simp [Field.text, signText]
    · have hconverts := converts_field (T := T) f
      rw [← hextract] at hconverts
      refine ⟨f, hf, hconverts.eof.mp heof, or_iff_not_imp_left.mpr fun hdigits hrange => ?_⟩
      have hok := hconverts.fail.mpr ⟨hdigits, hrange⟩
      rw [hfail] at hok
      cases hok
  · rintro ⟨f, rfl, hbehind, hfailed⟩
    by_cases hsome : f.sign ≠ none ∨ f.digits ≠ []
    · have hconverts := converts_field (T := T) f
      rw [← extract_field uninit hsome] at hconverts
      refine ⟨?_, hconverts.eof.mpr hbehind⟩
      rw [← Bool.not_eq_false, hconverts.fail]
      exact fun h => hfailed.elim h.1 fun hrange => hrange h.2
    · obtain ⟨hsign, hdigits⟩ := not_or.mp hsome
      have hblank : ∀ c ∈ f.text, isSpace c = true := by
        simpa [Field.text, signText, not_not.mp hsign, not_not.mp hdigits, hbehind] using f.isSpace
      rw [extract_blank uninit hblank]
      exact ⟨rfl, rfl⟩

theorem fromString_eq_some {uninit : Int} :
    fromString T uninit s = some v ↔
      (((extract T uninit s).fail = false ∧ (extract T uninit s).eof = false) ∨
        (extract T uninit s).eof = true) ∧ (extract T uninit s).val = v := by
  unfold fromString
  dsimp only
  rw [Option.ite_none_right_eq_some, Option.some.injEq]
  simp

/-- A number that fits is read back, and one that does not is not. -/
theorem fromString_field (uninit : Int) (h : f.digits ≠ []) :
    fromString T uninit f.text = some (f.value T) ↔ f.InRange T := by
  have hconverts := converts_field (T := T) f
  have hmem := extractNumber_mem (T := T) (decide (f.sign = some true)) (f.digits ++ f.behind)
  rw [← extract_field uninit (.inr h)] at hconverts hmem
  rw [fromString_eq_some]
  constructor
  · rintro ⟨_, hval⟩
    rwa [hval] at hmem
  · intro hrange
    have hok := hconverts.fail.mpr ⟨h, hrange⟩
    refine ⟨?_, hconverts.val hok⟩
    cases heof : (extract T uninit f.text).eof with
    | true => exact .inr rfl
    | false => exact .inl ⟨hok, rfl⟩

/-- A failure is reported where it does not come to the end of the text. -/
theorem fromString_iff (T : IntType) (uninit : Int) (s : List Char) :
    (∀ v, fromString T uninit s = some v ↔ Denotes T s v) ↔ ¬Exhausted T s := by
  rw [← exhausted_iff uninit]
  simp only [fromString_eq_some, ← succeeds_iff uninit]
  constructor
  · rintro h ⟨hfail, heof⟩
    have hok := ((h (extract T uninit s).val).mp ⟨.inr heof, rfl⟩).1
    rw [hfail] at hok
    cases hok
  · intro h v
    have hcases : (extract T uninit s).fail = false ∨
        ((extract T uninit s).fail = true ∧ (extract T uninit s).eof = false) := by
      cases hfail : (extract T uninit s).fail
      · exact .inl rfl
      · exact .inr ⟨rfl, Bool.eq_false_iff.mpr fun heof => h ⟨hfail, heof⟩⟩
    rcases hcases with hok | ⟨hfail, heof⟩
    · simp [hok]
    · simp [hfail, heof]

theorem accepts_iff (T : IntType) (uninit : Int) (s : List Char) :
    (∀ v, fromString T uninit s = some v → Denotes T s v) ↔ ¬Exhausted T s := by
  constructor
  · intro h hexhausted
    obtain ⟨hfail, heof⟩ := (exhausted_iff uninit).mpr hexhausted
    have hdenotes := h _ (fromString_eq_some.mpr ⟨.inr heof, rfl⟩)
    have hok := ((succeeds_iff uninit).mpr hdenotes).1
    rw [hfail] at hok
    cases hok
  · intro h v hv
    exact ((fromString_iff T uninit s).mpr h v).mp hv

end Batt.FromString
