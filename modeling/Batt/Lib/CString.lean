/-
  How C reads a string literal.

  An item of a literal is a character or an escape sequence, and `item` takes one from the front of
  a text: an octal escape has up to three digits, a hexadecimal one has all that follow. The escape
  \e is the control character, as compilers have it. A number that is no byte is an error.
-/
import Mathlib.Data.List.TakeWhile

namespace CString

/-- What holds of the numbers below 256 holds of the bytes. -/
theorem forall_byte {P : UInt8 → Prop} (h : ∀ n < 256, P (UInt8.ofNat n)) (a : UInt8) : P a := by
  have ha := h a.toNat a.toNat_lt
  rwa [UInt8.ofNat_toNat] at ha

/-- A byte as a character is the character of its number. -/
theorem toNat_char (b : UInt8) : (Char.ofNat b.toNat).toNat = b.toNat := by
  have hlt := b.toNat_lt
  have hvalid : b.toNat.isValidChar := .inl (by omega)
  rw [Char.ofNat, dif_pos hvalid]
  rfl

variable {c : Char} {b : UInt8}

theorem char_eq_iff : Char.ofNat b.toNat = c ↔ b.toNat = c.toNat := by
  rw [← Char.toNat_inj, toNat_char]

def isHexDigit (c : Char) : Bool :=
  c.isDigit || ('a' ≤ c && c ≤ 'f') || ('A' ≤ c && c ≤ 'F')

def isOctalDigit (c : Char) : Bool := '0' ≤ c && c ≤ '7'

theorem toNat_of_isHexDigit (h : isHexDigit c = true) :
    (48 ≤ c.toNat ∧ c.toNat ≤ 57) ∨ (97 ≤ c.toNat ∧ c.toNat ≤ 102) ∨
      (65 ≤ c.toNat ∧ c.toNat ≤ 70) := by
  simp only [isHexDigit, Char.isDigit, Bool.or_eq_true, Bool.and_eq_true, decide_eq_true_eq,
    Char.le_def, ge_iff_le, UInt32.le_iff_toNat_le] at h
  exact or_assoc.mp h

theorem toNat_of_isOctalDigit (h : isOctalDigit c = true) :
    48 ≤ c.toNat ∧ c.toNat ≤ 55 := by
  simp only [isOctalDigit, Bool.and_eq_true, decide_eq_true_eq, Char.le_def,
    UInt32.le_iff_toNat_le] at h
  exact h

def digitValue (c : Char) : Nat :=
  if c.isDigit then c.toNat - '0'.toNat
  else if 'a' ≤ c then c.toNat - 'a'.toNat + 10
  else c.toNat - 'A'.toNat + 10

def number (base : Nat) (digits : List Char) : Nat :=
  digits.foldl (fun n c => base * n + digitValue c) 0

def byte (n : Nat) : Option UInt8 := if n < 256 then some (UInt8.ofNat n) else none

def simpleEscape : Char → Option UInt8
  | 'a' => some 7
  | 'b' => some 8
  | 't' => some 9
  | 'n' => some 10
  | 'v' => some 11
  | 'f' => some 12
  | 'r' => some 13
  | 'e' => some 27
  | '"' => some 34
  | '\'' => some 39
  | '?' => some 63
  | '\\' => some 92
  | _ => none

/-- What is behind a backslash. -/
def escapeSequence : List Char → Option (UInt8 × List Char)
  | [] => none
  | c :: text =>
    if c = 'x' then
      let digits := text.takeWhile isHexDigit
      if digits = [] then none
      else (byte (number 16 digits)).map (·, text.dropWhile isHexDigit)
    else if isOctalDigit c then
      let more := (text.takeWhile isOctalDigit).take 2
      (byte (number 8 (c :: more))).map (·, text.drop more.length)
    else (simpleEscape c).map (·, text)

def item : List Char → Option (UInt8 × List Char)
  | [] => none
  | c :: text =>
    if c = '"' then none
    else if c = '\\' then escapeSequence text
    else (byte c.toNat).map (·, text)

variable {rest text : List Char}

theorem length_escapeSequence (h : escapeSequence text = some (b, rest)) :
    rest.length ≤ text.length := by
  cases text with
  | nil => cases h
  | cons c text =>
    unfold escapeSequence at h
    dsimp only at h
    split at h
    · split at h
      · cases h
      · obtain ⟨_, _, heq⟩ := Option.map_eq_some_iff.mp h
        cases heq
        have hsuffix := (List.dropWhile_suffix (l := text) isHexDigit).length_le
        rw [List.length_cons]
        omega
    · split at h
      · obtain ⟨_, _, heq⟩ := Option.map_eq_some_iff.mp h
        cases heq
        rw [List.length_drop, List.length_cons]
        omega
      · obtain ⟨_, _, heq⟩ := Option.map_eq_some_iff.mp h
        cases heq
        exact Nat.le_succ _

theorem length_item (h : item text = some (b, rest)) :
    rest.length < text.length := by
  cases text with
  | nil => cases h
  | cons c text =>
    unfold item at h
    dsimp only at h
    rw [List.length_cons]
    split at h
    · cases h
    · split at h
      · exact Nat.lt_succ_of_le (length_escapeSequence h)
      · obtain ⟨_, _, heq⟩ := Option.map_eq_some_iff.mp h
        cases heq
        exact Nat.lt_succ_self _

/-- The items up to a quote that ends the text. -/
def contents (text : List Char) : Option (List UInt8) :=
  if text = ['"'] then some []
  else
    match _h : item text with
    | none => none
    | some (b, rest) => (contents rest).map (b :: ·)
termination_by text.length
decreasing_by exact length_item _h

def readLiteral : List Char → Option (List UInt8)
  | '"' :: text => contents text
  | _ => none

theorem contents_close : contents ['"'] = some [] := by
  rw [contents, if_pos rfl]

theorem contents_item (h : item text = some (b, rest)) :
    contents text = (contents rest).map (b :: ·) := by
  have hne : text ≠ ['"'] := by
    rintro rfl
    cases h
  rw [contents, if_neg hne]
  split
  · rename_i hnone
    rw [h] at hnone
    cases hnone
  · rename_i hsome
    rw [h] at hsome
    cases hsome
    rfl

theorem contents_none (hne : text ≠ ['"']) (h : item text = none) :
    contents text = none := by
  rw [contents, if_neg hne]
  split
  · rfl
  · rename_i hsome
    rw [h] at hsome
    cases hsome

/-! ## Escapes with a number -/

theorem item_hex (hc : isHexDigit c = true) :
    item ('\\' :: 'x' :: c :: text) =
      (byte (number 16 (c :: text.takeWhile isHexDigit))).map (·, text.dropWhile isHexDigit) := by
  simp [item, escapeSequence, hc]

theorem item_octal (hc : isOctalDigit c = true) :
    item ('\\' :: c :: text) =
      (byte (number 8 (c :: (text.takeWhile isOctalDigit).take 2))).map
        (·, text.drop ((text.takeWhile isOctalDigit).take 2).length) := by
  have hx : c ≠ 'x' := by
    rintro rfl
    cases hc
  simp [item, escapeSequence, hc, hx]

theorem item_simple (hx : c ≠ 'x') (hoctal : isOctalDigit c = false) (hc : simpleEscape c = some b)
    :
    item ('\\' :: c :: text) = some (b, text) := by
  simp [item, escapeSequence, hx, hoctal, hc]

theorem item_plain (hquote : c ≠ '"') (hslash : c ≠ '\\') (hc : byte c.toNat = some b) :
    item (c :: text) = some (b, text) := by
  simp [item, hquote, hslash, hc]

end CString
