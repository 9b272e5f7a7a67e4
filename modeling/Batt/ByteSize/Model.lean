/-
  Sizes in bytes as text (batteries/stream_util.hpp, batteries/constants.hpp).

  A `usize` is a `UInt64` where the code computes with it unchecked, which is in the parser; the
  printer only divides, so that its numbers are `Nat`s below the value it prints. Characters are
  read and printed as in the classic locale.

  A part of a text is what is between two operators. It has a value where it is a number that fits,
  with letters behind it (`partValue`); the loop of `parse_byte_size` adds that value, and gives up
  where there is none (`parseLoop_part`).
-/
import Mathlib.Data.List.Basic
import Mathlib.Algebra.GroupWithZero.Nat
import Mathlib.Data.List.TakeWhile
import Batt.Lib.Delim

namespace Batt.ByteSize

open Delim

abbrev View := List Char

/-! ## Units -/

def kKB : Nat := 1000
def kMB : Nat := 1000 * kKB
def kGB : Nat := 1000 * kMB
def kTB : Nat := 1000 * kGB
def kPB : Nat := 1000 * kTB
def kEB : Nat := 1000 * kPB

def kKiB : Nat := 1024
def kMiB : Nat := 1024 * kKiB
def kGiB : Nat := 1024 * kMiB
def kTiB : Nat := 1024 * kGiB
def kPiB : Nat := 1024 * kTiB
def kEiB : Nat := 1024 * kPiB

/-! ## parse_byte_size -/

/-- `std::from_chars` of a text that has digits only: it fails where there are none, and where the
    number does not fit. -/
def fromChars (numChars : View) : Option UInt64 :=
  if numChars.isEmpty then none
  else
    let n := Nat.ofDigitChars 10 numChars 0
    if n < 2 ^ 64 then some (UInt64.ofNat n) else none

/-- `unit_value`, of the text behind the digits. -/
def unitValue : View → Nat
  | [] => 1
  | c :: _ =>
    match c.toLower with
    | 'b' => 1
    | 'k' => kKiB
    | 'm' => kMiB
    | 'g' => kGiB
    | 't' => kTiB
    | 'p' => kPiB
    | 'e' => kEiB
    | _ => 1

theorem fromChars_nil : fromChars [] = none := rfl

theorem length_afterTerm {s : View} {n : UInt64}
    (h : fromChars (s.takeWhile Char.isDigit) = some n) :
    ((s.dropWhile Char.isDigit).dropWhile Char.isAlpha).length < s.length := by
  have hunit := (List.dropWhile_suffix (l := s.dropWhile Char.isDigit) Char.isAlpha).length_le
  have hsplit := congrArg List.length (List.takeWhile_append_dropWhile (p := Char.isDigit) (l := s))
  rw [List.length_append] at hsplit
  have hdigits : 0 < (s.takeWhile Char.isDigit).length := by
    refine List.length_pos_iff.mpr fun hnone => ?_
    rw [hnone, fromChars_nil] at h
    cases h
  omega

mutual

def parseByteSize (s : View) : Option UInt64 :=
  if s.isEmpty then none else parseLoop s 0 false
termination_by 2 * s.length + 1

/-- The loop of `parse_byte_size`. -/
def parseLoop (s : View) (resultValue : UInt64) (haveResult : Bool) : Option UInt64 :=
  match s with
  | [] => some resultValue
  | '+' :: s => parseLoop s resultValue haveResult
  | '-' :: s =>
    if !haveResult then none
    else
      match parseByteSize s with
      | none => none
      | some delta => some (resultValue - delta)
  | c :: cs =>
    match _h : fromChars ((c :: cs).takeWhile Char.isDigit) with
    | none => none
    | some numValue =>
      let rest := (c :: cs).dropWhile Char.isDigit
      let unit := UInt64.ofNat (unitValue rest)
      let s := rest.dropWhile Char.isAlpha
      if s.isEmpty || s.head? = some '+' || s.head? = some '-' then
        parseLoop s (resultValue + numValue * unit) true
      else none
termination_by 2 * s.length
decreasing_by
  · simp only [List.length_cons]
    omega
  · simp only [List.length_cons]
    omega
  · have := length_afterTerm _h
    omega

end

theorem parseLoop_nil {v : UInt64} {hasResult : Bool} : parseLoop [] v hasResult = some v := by
  rw [parseLoop]

/-! ## SizeDumper -/

inductive UnitBase where
  | kLog2
  | kLog10
deriving DecidableEq, Repr

def UnitBase.units : UnitBase → List (Nat × View)
  | .kLog2 => [(kEiB, "EiB".toList), (kPiB, "PiB".toList), (kTiB, "TiB".toList),
      (kGiB, "GiB".toList), (kMiB, "MiB".toList), (kKiB, "KiB".toList), (1, "B".toList)]
  | .kLog10 => [(kEB, "EB".toList), (kPB, "PB".toList), (kTB, "TB".toList), (kGB, "GB".toList),
      (kMB, "MB".toList), (kKB, "KB".toList), (1, "B".toList)]

/-- What `format` returns and hands out. -/
structure Formatted where
  text : View := []
  parts : Nat := 0
  ord : Nat := 0
  error : Nat := 0
deriving DecidableEq, Repr

/-- `format_impl`, from the unit it has come to. -/
def formatImpl (exact : Bool) (n unitOrd : Nat) (firstPart : Bool) (out : Formatted) :
    List (Nat × View) → Formatted
  | [] => out
  | (div, unitStr) :: units =>
    let q := n / div
    let r := n % div
    if q ≠ 0 ∨ (div = 1 ∧ firstPart) then
      let out :=
        { out with
          text := out.text ++ (if firstPart then [] else ['+']) ++ Nat.toDigits 10 q ++ unitStr
          parts := out.parts + 1
          ord := if firstPart then unitOrd else out.ord }
      if !exact then { out with error := r }
      else formatImpl exact r (unitOrd - 1) false out units
    else formatImpl exact r (unitOrd - 1) firstPart out units

structure SizeDumper where
  value : UInt64
  exact : Bool

def SizeDumper.format (t : SizeDumper) (base : UnitBase) : Formatted :=
  formatImpl t.exact t.value.toNat 7 true {} base.units

/-- `base10` is printed, not `base2`. -/
def prefersBase10 (base2 base10 : Formatted) : Bool :=
  base10.parts < base2.parts ||
    (base10.parts = base2.parts &&
      (base2.ord < base10.ord ||
        (base2.ord = base10.ord && (base2.error ≠ 0 && base10.error = 0))))

/-- `operator<<(std::ostream&, SizeDumper)`. -/
def SizeDumper.print (t : SizeDumper) : View :=
  let base2 := t.format .kLog2
  let base10 := t.format .kLog10
  if prefersBase10 base2 base10 then (if base10.error = 0 then [] else ['~']) ++ base10.text
  else (if base2.error = 0 then [] else ['~']) ++ base2.text

def dumpSize (n : UInt64) : SizeDumper := { value := n, exact := false }

def dumpSizeExact (n : UInt64) : SizeDumper := { value := n, exact := true }

example : (dumpSizeExact 1234).print = "1KiB+210B".toList := by decide

example : (dumpSize 1001).print = "~1KB".toList := by decide

/-! ## The parts of a text -/

variable {s part rest : View} {p : Char → Bool} {v : UInt64} {hasResult : Bool}

/-- Nothing, or an operator. -/
def Stops (rest : View) : Prop := ∀ c ∈ rest.head?, c = '+' ∨ c = '-'

/-- No operators. -/
def Bare (part : View) : Prop := ∀ c ∈ part, c ≠ '+' ∧ c ≠ '-'

def partValue (part : View) : Option UInt64 :=
  let rest := part.dropWhile Char.isDigit
  if rest.dropWhile Char.isAlpha = [] then
    (fromChars (part.takeWhile Char.isDigit)).map (· * UInt64.ofNat (unitValue rest))
  else none

theorem stops_nil : Stops [] := fun _ h => by cases h

theorem stops_plus (s : View) : Stops ('+' :: s) := fun _ h => .inl (Option.some.inj h).symm

theorem stops_minus (s : View) : Stops ('-' :: s) := fun _ h => .inr (Option.some.inj h).symm

/-! ## Digits and letters come to their end at an operator -/

theorem head_false (hplus : p '+' = false) (hminus : p '-' = false) (h : Stops rest) :
    ∀ c ∈ rest.head?, p c = false := by
  intro c hc
  rcases h c hc with rfl | rfl
  · exact hplus
  · exact hminus

theorem unitValue_append_stops (h : Stops rest) : unitValue (part ++ rest) = unitValue part := by
  cases part with
  | cons c part => rfl
  | nil =>
    cases rest with
    | nil => rfl
    | cons c rest =>
      rcases h c rfl with rfl | rfl
      · rfl
      · rfl

/-! ## Terms -/

theorem not_isDigit_of_isAlpha {c : Char} (h : c.isAlpha = true) : c.isDigit = false := by
  have halpha : c.isAlpha = (decide (c.val ≥ 'A'.val ∧ c.val ≤ 'Z'.val) ||
      decide (c.val ≥ 'a'.val) && decide (c.val ≤ 'z'.val)) := rfl
  rw [halpha] at h
  simp only [Char.isDigit, Bool.or_eq_true, Bool.and_eq_true, decide_eq_true_eq,
    Bool.and_eq_false_iff, decide_eq_false_iff_not, ge_iff_le, UInt32.le_iff_toNat_le] at h ⊢
  have hnine : '9'.val.toNat = 57 := rfl
  have hA : 'A'.val.toNat = 65 := rfl
  have ha : 'a'.val.toNat = 97 := rfl
  omega

section Term

variable {digits unit : View}

theorem unit_head (hunit : ∀ c ∈ unit, c.isAlpha = true) : ∀ c ∈ unit.head?, c.isDigit = false :=
  fun c hc => not_isDigit_of_isAlpha (hunit c (List.mem_of_mem_head? hc))

theorem takeWhile_term (hdigits : ∀ c ∈ digits, c.isDigit = true)
    (hunit : ∀ c ∈ unit, c.isAlpha = true) :
    (digits ++ unit).takeWhile Char.isDigit = digits := by
  rw [takeWhile_append_of_head (unit_head hunit)]
  exact List.takeWhile_eq_self_iff.mpr hdigits

theorem dropWhile_term (hdigits : ∀ c ∈ digits, c.isDigit = true)
    (hunit : ∀ c ∈ unit, c.isAlpha = true) :
    (digits ++ unit).dropWhile Char.isDigit = unit := by
  rw [dropWhile_append_of_head (unit_head hunit), List.dropWhile_eq_nil_iff.mpr hdigits,
    List.nil_append]

theorem partValue_term (hne : digits ≠ []) (hdigits : ∀ c ∈ digits, c.isDigit = true)
    (hunit : ∀ c ∈ unit, c.isAlpha = true) (hfit : Nat.ofDigitChars 10 digits 0 < 2 ^ 64) :
    partValue (digits ++ unit) =
      some (UInt64.ofNat (Nat.ofDigitChars 10 digits 0) * UInt64.ofNat (unitValue unit)) := by
  have hletters : unit.dropWhile Char.isAlpha = [] := List.dropWhile_eq_nil_iff.mpr hunit
  have hnumber : fromChars digits = some (UInt64.ofNat (Nat.ofDigitChars 10 digits 0)) := by
    rw [fromChars, if_neg (by simpa using hne)]
    exact if_pos hfit
  simp only [partValue, takeWhile_term hdigits hunit, dropWhile_term hdigits hunit, hletters,
    hnumber, if_true, Option.map_some]

theorem bare_term (hdigits : ∀ c ∈ digits, c.isDigit = true)
    (hunit : ∀ c ∈ unit, c.isAlpha = true) : Bare (digits ++ unit) := by
  intro c hc
  rcases List.mem_append.mp hc with hdigit | halpha
  · have h := hdigits c hdigit
    constructor <;> rintro rfl <;> cases h
  · have h := hunit c halpha
    constructor <;> rintro rfl <;> cases h

end Term

/-! ## The loop -/

theorem parseLoop_plus : parseLoop ('+' :: s) v hasResult = parseLoop s v hasResult := by
  rw [parseLoop]

theorem parseLoop_minus :
    parseLoop ('-' :: s) v hasResult =
      if hasResult then (parseByteSize s).map (v - ·) else none := by
  rw [parseLoop]
  cases hasResult with
  | false => rfl
  | true => cases parseByteSize s <;> rfl

/-- Behind a term there has to be an operator, or nothing. -/
theorem parseLoop_term {c : Char} {cs : View} (hplus : c ≠ '+') (hminus : c ≠ '-') :
    parseLoop (c :: cs) v hasResult =
      (fromChars ((c :: cs).takeWhile Char.isDigit)).bind fun n =>
        let rest := (c :: cs).dropWhile Char.isDigit
        let s := rest.dropWhile Char.isAlpha
        if s.isEmpty || s.head? = some '+' || s.head? = some '-' then
          parseLoop s (v + n * UInt64.ofNat (unitValue rest)) true
        else none := by
  rw [parseLoop.eq_4 _ _ _ _ hplus hminus]
  split <;> rename_i hnum <;> rw [hnum] <;> rfl

/-- **The loop adds the value of a part, and gives up where it has none.** -/
theorem parseLoop_part (hne : part ≠ []) (hbare : Bare part) (hrest : Stops rest) :
    parseLoop (part ++ rest) v hasResult =
      (partValue part).bind fun n => parseLoop rest (v + n) true := by
  have htake := takeWhile_append_of_head (s := part) (head_false (p := Char.isDigit) rfl rfl hrest)
  have hdrop := dropWhile_append_of_head (s := part) (head_false (p := Char.isDigit) rfl rfl hrest)
  have hunit := dropWhile_append_of_head (s := part.dropWhile Char.isDigit)
    (head_false (p := Char.isAlpha) rfl rfl hrest)
  have hvalue : unitValue (part.dropWhile Char.isDigit ++ rest) = _ := unitValue_append_stops hrest
  obtain ⟨c, cs, rfl⟩ := List.exists_cons_of_ne_nil hne
  obtain ⟨hplus, hminus⟩ := hbare c List.mem_cons_self
  rw [List.cons_append, parseLoop_term hplus hminus, ← List.cons_append]
  simp only [htake, hdrop, hunit, hvalue]
  have hinside : ∀ c' ∈ ((c :: cs).dropWhile Char.isDigit).dropWhile Char.isAlpha, c' ∈ c :: cs :=
    fun c' hc' => (List.dropWhile_subset _) ((List.dropWhile_subset _) hc')
  unfold partValue
  dsimp only
  generalize fromChars ((c :: cs).takeWhile Char.isDigit) = number
  generalize UInt64.ofNat (unitValue ((c :: cs).dropWhile Char.isDigit)) = unit
  generalize ((c :: cs).dropWhile Char.isDigit).dropWhile Char.isAlpha = tail at hinside ⊢
  cases number with
  | none => simp
  | some n =>
    cases tail with
    | nil =>
      -- the part is a term, and an operator or nothing is behind it
      have hstop : (rest.isEmpty || decide (rest.head? = some '+') ||
          decide (rest.head? = some '-')) = true := by
        cases rest with
        | nil => rfl
        | cons d rest =>
          rcases hrest d rfl with rfl | rfl <;> simp
      simp [hstop]
    | cons d tail =>
      obtain ⟨hd, hd'⟩ := hbare d (hinside d List.mem_cons_self)
      simp [hd, hd']

end Batt.ByteSize
