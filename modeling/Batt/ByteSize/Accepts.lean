/-
  Which texts `parse_byte_size` takes.

  The text is cut at each '-' and the pieces are cut at each '+'. The code takes it exactly where
  every part is empty or a number below 2^64 with letters behind it, where each piece in front of
  a '-' has a term, and where the last piece is not empty (`isSome_iff`). So it takes texts that are
  no expressions, with a '+' too many or a unit that nobody knows, and it takes expressions whose
  value does not fit; a text that it should not take is rejected exactly where it is none of these
  (`rejects_iff`).
-/
import Batt.ByteSize.Expression

namespace Batt.ByteSize

open Delim

/-- A number that fits, with letters behind it. -/
def LooseTerm (part : View) : Prop :=
  ∃ digits unit, part = digits ++ unit ∧ digits ≠ [] ∧ (∀ c ∈ digits, c.isDigit = true) ∧
    (∀ c ∈ unit, c.isAlpha = true) ∧ Nat.ofDigitChars 10 digits 0 < 2 ^ 64

/-- The pieces of a text that the code takes. -/
structure AcceptedPieces (pieces : List View) : Prop where
  loose : ∀ piece ∈ pieces, ∀ part ∈ piece.splitOn '+', part = [] ∨ LooseTerm part
  terms : ∀ piece ∈ pieces.dropLast, ∃ part ∈ piece.splitOn '+', part ≠ []
  last : pieces.getLast? ≠ some []

def Accepted (s : View) : Prop := AcceptedPieces (s.splitOn '-')

/-- A text that should be rejected: it is no expression, or one with a result that does not fit. -/
def Improper (s : View) : Prop :=
  (∀ e : Expression, e.text ≠ s) ∨ ∃ e : Expression, e.text = s ∧ ¬e.Fits

variable {s part piece rest : View} {parts pieces : List View} {v : UInt64} {hasResult : Bool}

/-! ## Parts -/

theorem isSome_partValue (part : View) : (partValue part).isSome = true ↔ LooseTerm part := by
  constructor
  · intro h
    unfold partValue at h
    dsimp only at h
    split at h
    · rename_i hletters
      have hdigits : ∀ c ∈ part.takeWhile Char.isDigit, c.isDigit = true :=
        fun c hc => List.mem_takeWhile_imp hc
      have hunit := List.dropWhile_eq_nil_iff.mp hletters
      refine ⟨_, _, List.takeWhile_append_dropWhile.symm, ?_, hdigits, hunit, ?_⟩
      · intro hnone
        rw [hnone] at h
        cases h
      · unfold fromChars at h
        dsimp only at h
        split at h
        · cases h
        · split at h
          · assumption
          · cases h
    · cases h
  · rintro ⟨digits, unit, rfl, hne, hdigits, hunit, hfit⟩
    rw [partValue_term hne hdigits hunit hfit]
    rfl

/-- The values of the parts that are not empty. -/
def partsValue : List View → Option UInt64
  | [] => some 0
  | part :: parts =>
    if part = [] then partsValue parts
    else (partValue part).bind fun n => (partsValue parts).map (n + ·)

theorem isSome_partsValue (parts : List View) :
    (partsValue parts).isSome = true ↔ ∀ part ∈ parts, part = [] ∨ LooseTerm part := by
  induction parts with
  | nil => simp [partsValue]
  | cons part parts ih =>
    rw [List.forall_mem_cons, ← ih, partsValue]
    by_cases hempty : part = []
    · simp [hempty]
    · rw [if_neg hempty, ← isSome_partValue]
      cases hvalue : partValue part with
      | none => simp [hempty]
      | some n => simp

/-- Whether one of the parts is a term. -/
def anyTerm (parts : List View) : Bool := parts.any (· ≠ [])

theorem parseLoop_parts (hbare : ∀ part ∈ parts, Bare part) (hrest : Stops rest) :
    parseLoop (['+'].intercalate parts ++ rest) v hasResult =
      (partsValue parts).bind fun n => parseLoop rest (v + n) (hasResult || anyTerm parts) := by
  induction parts generalizing v hasResult with
  | nil => simp [partsValue, anyTerm]
  | cons part parts ih =>
    have hpart := hbare part List.mem_cons_self
    have hmore : ∀ part ∈ parts, Bare part := fun p hp => hbare p (List.mem_cons_of_mem _ hp)
    cases parts with
    | nil =>
      by_cases hempty : part = []
      · simp [partsValue, anyTerm, hempty]
      · rw [List.intercalate_singleton, parseLoop_part hempty hpart hrest]
        simp [partsValue, anyTerm, hempty]
    | cons next parts =>
      rw [List.intercalate_cons_cons, List.append_assoc, List.append_assoc]
      by_cases hempty : part = []
      · subst hempty
        rw [List.nil_append, List.singleton_append, parseLoop_plus, ih hmore]
        simp [partsValue, anyTerm]
      · rw [List.singleton_append, parseLoop_part hempty hpart (stops_plus _), partsValue,
          if_neg hempty]
        cases partValue part with
        | none => rfl
        | some n =>
          rw [Option.bind_some, Option.bind_some, parseLoop_plus, ih hmore, Option.bind_map]
          simp [anyTerm, hempty, UInt64.add_assoc]

/-! ## Pieces -/

theorem bare_of_mem {piece part : View} (hfree : '-' ∉ piece) (h : part ∈ piece.splitOn '+') :
    Bare part := by
  intro c hc
  constructor
  · rintro rfl
    exact not_mem_of_mem_splitOn h hc
  · rintro rfl
    exact hfree (subset_of_mem_splitOn h hc)

theorem parseLoop_piece (hfree : '-' ∉ piece) (hrest : Stops rest) :
    parseLoop (piece ++ rest) v hasResult =
      (partsValue (piece.splitOn '+')).bind fun n =>
        parseLoop rest (v + n) (hasResult || anyTerm (piece.splitOn '+')) := by
  have h : parseLoop (['+'].intercalate (piece.splitOn '+') ++ rest) v hasResult = _ :=
    parseLoop_parts (fun part hpart => bare_of_mem hfree hpart) hrest
  rwa [List.intercalate_splitOn] at h

theorem acceptedPieces_singleton :
    AcceptedPieces [piece] ↔
      piece ≠ [] ∧ ∀ part ∈ piece.splitOn '+', part = [] ∨ LooseTerm part := by
  constructor
  · intro h
    exact ⟨fun hempty => h.last (congrArg some hempty), h.loose piece List.mem_cons_self⟩
  · rintro ⟨hne, hloose⟩
    refine ⟨fun p hp => ?_, fun p hp => (by cases hp), fun hlast => hne (Option.some.inj hlast)⟩
    rw [List.mem_singleton.mp hp]
    exact hloose

theorem acceptedPieces_cons {next : View} :
    AcceptedPieces (piece :: next :: pieces) ↔
      (∀ part ∈ piece.splitOn '+', part = [] ∨ LooseTerm part) ∧
        anyTerm (piece.splitOn '+') = true ∧ AcceptedPieces (next :: pieces) := by
  have hany : anyTerm (piece.splitOn '+') = true ↔ ∃ part ∈ piece.splitOn '+', part ≠ [] := by
    simp [anyTerm]
  rw [hany]
  constructor
  · intro h
    refine ⟨h.loose piece List.mem_cons_self, h.terms piece List.mem_cons_self, ?_, ?_, ?_⟩
    · exact fun p hp => h.loose p (List.mem_cons_of_mem _ hp)
    · exact fun p hp => h.terms p (List.mem_cons_of_mem _ hp)
    · exact h.last
  · rintro ⟨hloose, hterm, h⟩
    refine ⟨?_, ?_, h.last⟩
    · exact List.forall_mem_cons.mpr ⟨hloose, h.loose⟩
    · exact List.forall_mem_cons.mpr ⟨hterm, h.terms⟩

theorem isSome_pieces (hne : pieces ≠ []) (hfree : ∀ piece ∈ pieces, '-' ∉ piece) :
    (parseByteSize (['-'].intercalate pieces)).isSome = true ↔ AcceptedPieces pieces := by
  induction pieces with
  | nil => exact absurd rfl hne
  | cons piece pieces ih =>
    have hpiece := hfree piece List.mem_cons_self
    cases pieces with
    | nil =>
      rw [List.intercalate_singleton, acceptedPieces_singleton, parseByteSize, ← isSome_partsValue]
      have hloop : parseLoop (piece ++ []) 0 false = _ := parseLoop_piece hpiece stops_nil
      rw [List.append_nil] at hloop
      rw [hloop]
      by_cases hempty : piece = []
      · simp [hempty]
      · cases partsValue (piece.splitOn '+') <;> simp [hempty, parseLoop_nil]
    | cons next pieces =>
      have hih := ih (by simp) fun p hp => hfree p (List.mem_cons_of_mem _ hp)
      rw [acceptedPieces_cons, ← hih, ← isSome_partsValue, List.intercalate_cons_cons,
        List.append_assoc, List.singleton_append, parseByteSize, if_neg (by simp),
        parseLoop_piece hpiece (stops_minus _)]
      cases partsValue (piece.splitOn '+') with
      | none => simp
      | some n =>
        rw [Option.bind_some, parseLoop_minus, Bool.false_or]
        cases anyTerm (piece.splitOn '+') <;> simp

theorem isSome_iff (s : View) : (parseByteSize s).isSome = true ↔ Accepted s := by
  have h := isSome_pieces (List.splitOn_ne_nil '-' s) fun piece hpiece =>
    not_mem_of_mem_splitOn hpiece
  rwa [List.intercalate_splitOn] at h

/-- **A text that should be rejected is rejected exactly where the code does not take it as a
    sequence of numbers, letters and signs.** -/
theorem rejects_iff (s : View) :
    (Improper s → parseByteSize s = none) ↔ (Improper s → ¬Accepted s) := by
  rw [← isSome_iff, Option.not_isSome_iff_eq_none]

/-! ## Texts that should not be taken -/

theorem Expression.first_digits (e : Expression) :
    e.text.takeWhile Char.isDigit = e.first.digits := by
  rw [text, Term.text, takeWhile_append_of_head (head_false rfl rfl (stops_restText e.rest))]
  exact takeWhile_term e.first.isDigit e.first.isAlpha

theorem Expression.first_unit (e : Expression) :
    (e.text.dropWhile Char.isDigit).takeWhile Char.isAlpha = e.first.unit := by
  have hstops := stops_restText e.rest
  rw [text, Term.text, dropWhile_append_of_head (head_false rfl rfl hstops),
    dropWhile_term e.first.isDigit e.first.isAlpha,
    takeWhile_append_of_head (head_false rfl rfl hstops)]
  exact List.takeWhile_eq_self_iff.mpr e.first.isAlpha

theorem parseByteSize_part {part : View} (hne : part ≠ []) (hbare : Bare part) :
    parseByteSize part = (partValue part).map (0 + ·) := by
  have hloop : parseLoop (part ++ []) 0 false = _ := parseLoop_part hne hbare stops_nil
  rw [List.append_nil] at hloop
  rw [parseByteSize, if_neg (by simpa using hne), hloop]
  cases partValue part with
  | none => rfl
  | some n => exact parseLoop_nil

/-- No term, a unit that is not known, and a product that does not fit. -/
theorem takes_improper :
    (Improper "+".toList ∧ parseByteSize "+".toList = some 0) ∧
      (Improper "2x".toList ∧ parseByteSize "2x".toList = some 2) ∧
        (Improper "16eb".toList ∧ parseByteSize "16eb".toList = some 0) := by
  have hplus : parseByteSize "+".toList = some 0 := by
    show parseByteSize ['+'] = some 0
    rw [parseByteSize, if_neg (by decide), parseLoop_plus, parseLoop_nil]
  have hunknown : parseByteSize "2x".toList = some 2 := by
    rw [parseByteSize_part (by decide) (by simp [Bare])]
    decide
  have hlarge : parseByteSize "16eb".toList = some 0 := by
    rw [parseByteSize_part (by decide) (by simp [Bare])]
    decide
  refine ⟨⟨.inl fun e he => ?_, hplus⟩, ⟨.inl fun e he => ?_, hunknown⟩,
    ⟨.inr ⟨⟨.ofParts "16".toList "eb".toList (by decide), []⟩, rfl, ?_⟩, hlarge⟩⟩
  · have hdigits := e.first_digits
    rw [he] at hdigits
    exact e.first.digits_ne hdigits.symm
  · have hunit := e.first_unit
    rw [he] at hunit
    have hknown := e.first.known 'x' (by rw [← hunit]; rfl)
    exact absurd hknown (by decide)
  · decide

end Batt.ByteSize
