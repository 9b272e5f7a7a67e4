/-
  `c_str_literal` (batteries/stream_util.hpp): a string printed as an escaped literal, and what
  the literal denotes when it is read by the rules of C.

  Strings are bytes and what is printed is characters. The loop counts the bytes it has printed and
  stops at `max_show_length`, whose initial value is the largest `usize`. `StringUpperBound` is told
  from other strings by the address of its data, which is `isUpperBound` here.

  A byte is escaped without a look at the one behind it, but an escape with a number takes the
  digits behind it too: two bytes merge where the first is printed as a hexadecimal escape and the
  second as a hexadecimal digit, or the first is zero and the second an octal digit. Main result
  (`denotes_iff`): the literal denotes its bytes if and only if no two neighbours merge. Different
  strings are printed differently in any case.
-/
import Mathlib.Data.List.Basic
import Mathlib.Data.List.Chain
import Mathlib.Algebra.GroupWithZero.Nat
import Batt.Lib.CString

namespace Batt.Literal

structure EscapedStringLiteral where
  str : List UInt8
  isUpperBound : Bool := false

/-- The initial value of `max_show_length`. -/
def unlimited : UInt64 := UInt64.ofNat (2 ^ 64 - 1)

def xdigit (n : UInt8) : Char := Nat.digitChar n.toNat

def emitHexAscii (ch : UInt8) : List Char :=
  ['\\', 'x', xdigit ((ch >>> 4) &&& 0xf), xdigit (ch &&& 0xf)]

/-- The character of a byte below 128. -/
def charOf (ch : UInt8) : Char := Char.ofNat ch.toNat

/-- One turn of the loop. -/
def emit (ch : UInt8) : List Char :=
  if ch &&& 0b10000000 ≠ 0 then emitHexAscii ch
  else
    match ch &&& 0b1110000 with
    | 0b0000000 =>
      match ch &&& 0b1111 with
      | 0b0000 => ['\\', '0']
      | 0b0111 => ['\\', 'a']
      | 0b1000 => ['\\', 'b']
      | 0b1001 => ['\\', 't']
      | 0b1010 => ['\\', 'n']
      | 0b1011 => ['\\', 'v']
      | 0b1100 => ['\\', 'f']
      | 0b1101 => ['\\', 'r']
      | _ => emitHexAscii ch
    | 0b0010000 =>
      match ch &&& 0b1111 with
      | 0b1011 => ['\\', 'e']
      | _ => emitHexAscii ch
    | 0b0100000 =>
      match ch &&& 0b1111 with
      | 0b0010 => ['\\', '"']
      | _ => [charOf ch]
    | 0b1010000 =>
      match ch &&& 0b1111 with
      | 0b1100 => ['\\', '\\']
      | _ => [charOf ch]
    | 0b1110000 =>
      match ch &&& 0b1111 with
      | 0b1111 => "\\x7f".toList
      | _ => [charOf ch]
    | _ => [charOf ch]

/-- The loop, with the number of bytes that it has come past. -/
def printFrom (maxShowLength : UInt64) (length : Nat) (i : UInt64) : List UInt8 → List Char
  | [] => ['"']
  | ch :: str =>
    if maxShowLength < i then
      "\"...(".toList ++ Nat.toDigits 10 (length - i.toNat) ++ " skipped chars)".toList
    else emit ch ++ printFrom maxShowLength length (i + 1) str

/-- `operator<<(std::ostream&, const EscapedStringLiteral&)`. -/
def EscapedStringLiteral.print (maxShowLength : UInt64) (t : EscapedStringLiteral) : List Char :=
  if t.isUpperBound then "\"\\xff\"...".toList
  else '"' :: printFrom maxShowLength t.str.length 0 t.str

def cStrLiteral (str : List UInt8) : EscapedStringLiteral := { str := str }

/-! ## Without a limit -/

/-- What is printed behind the quote. -/
def text (str : List UInt8) : List Char := str.flatMap emit ++ ['"']

theorem printFrom_unlimited (length : Nat) (i : UInt64) (str : List UInt8) :
    printFrom unlimited length i str = text str := by
  induction str generalizing i with
  | nil => rfl
  | cons ch str ih =>
    have hlimit : ¬unlimited < i := by
      have hlt := i.toNat_lt
      rw [UInt64.lt_iff_toNat_lt, show unlimited.toNat = 2 ^ 64 - 1 from rfl]
      omega
    rw [printFrom, if_neg hlimit, ih]
    simp [text]

theorem print_unlimited (str : List UInt8) : (cStrLiteral str).print unlimited = '"' :: text str :=
  congrArg _ (printFrom_unlimited _ _ str)

/-! ## Reading a literal -/

open CString

/-- The bytes that are printed as `\x` with two digits. -/
def HexEscaped (a : UInt8) : Prop :=
  128 ≤ a ∨ a = 127 ∨ (a < 32 ∧ a ≠ 0 ∧ ¬(7 ≤ a ∧ a ≤ 13) ∧ a ≠ 27)

instance : DecidablePred HexEscaped := fun a =>
  inferInstanceAs (Decidable (128 ≤ a ∨ a = 127 ∨ (a < 32 ∧ a ≠ 0 ∧ ¬(7 ≤ a ∧ a ≤ 13) ∧ a ≠ 27)))

/-- The bytes that are printed as a backslash with a letter or a sign. -/
def SimplyEscaped (a : UInt8) : Prop := (7 ≤ a ∧ a ≤ 13) ∨ a = 27 ∨ a = 34 ∨ a = 92

instance : DecidablePred SimplyEscaped := fun a =>
  inferInstanceAs (Decidable ((7 ≤ a ∧ a ≤ 13) ∨ a = 27 ∨ a = 34 ∨ a = 92))

/-- The escape of `a` takes the byte behind it for one of its digits. -/
def Merges (a b : UInt8) : Prop :=
  (HexEscaped a ∧ isHexDigit (charOf b) = true) ∨ (a = 0 ∧ isOctalDigit (charOf b) = true)

variable {a b : UInt8} {s r : List UInt8} {rest : List Char} {p : Char → Bool}

/-! ## One byte -/

/-- The letter or the sign behind the backslash. -/
def escapeLetter : UInt8 → Char
  | 7 => 'a'
  | 8 => 'b'
  | 9 => 't'
  | 10 => 'n'
  | 11 => 'v'
  | 12 => 'f'
  | 13 => 'r'
  | 27 => 'e'
  | 34 => '"'
  | _ => '\\'

/-- All of `emit`, and what its escapes are read as. -/
theorem emit_cases : ∀ a,
    (emit a = if HexEscaped a then emitHexAscii a
      else if a = 0 then ['\\', '0']
      else if SimplyEscaped a then ['\\', escapeLetter a]
      else [charOf a]) ∧
    (isHexDigit (xdigit ((a >>> 4) &&& 0xf)) = true ∧ isHexDigit (xdigit (a &&& 0xf)) = true ∧
      byte (number 16 [xdigit ((a >>> 4) &&& 0xf), xdigit (a &&& 0xf)]) = some a) ∧
    (SimplyEscaped a → escapeLetter a ≠ 'x' ∧ isOctalDigit (escapeLetter a) = false ∧
      simpleEscape (escapeLetter a) = some a ∧ ¬HexEscaped a ∧ a ≠ 0) :=
  forall_byte (by decide +kernel)

theorem emit_hex (h : HexEscaped a) : emit a = emitHexAscii a := by
  rw [(emit_cases a).1, if_pos h]

theorem emit_simple (h : SimplyEscaped a) : emit a = ['\\', escapeLetter a] := by
  obtain ⟨hemit, -, hletter⟩ := emit_cases a
  obtain ⟨-, -, -, hhex, hzero⟩ := hletter h
  rw [hemit, if_neg hhex, if_neg hzero, if_pos h]

theorem emit_plain (h : ¬HexEscaped a) (hzero : a ≠ 0) (hsimple : ¬SimplyEscaped a) :
    emit a = [charOf a] := by
  rw [(emit_cases a).1, if_neg h, if_neg hzero, if_neg hsimple]

theorem emit_slash (h : HexEscaped a ∨ a = 0 ∨ SimplyEscaped a) : (emit a).head? = some '\\' := by
  rcases h with h | rfl | h
  · rw [emit_hex h]
    rfl
  · rfl
  · rw [emit_simple h]
    rfl

theorem emit_ne (a : UInt8) : emit a ≠ [] := by
  by_cases h : HexEscaped a ∨ a = 0 ∨ SimplyEscaped a
  · have hslash := emit_slash h
    intro hnil
    rw [hnil] at hslash
    cases hslash
  · obtain ⟨hhex, hzero, hsimple⟩ := not_or.mp h |>.imp id not_or.mp
    rw [emit_plain hhex hzero hsimple]
    exact List.cons_ne_nil _ _

theorem charOf_plain (h : ¬SimplyEscaped a) : charOf a ≠ '"' ∧ charOf a ≠ '\\' := by
  constructor <;> intro heq
  · exact h (.inr (.inr (.inl (UInt8.toNat_inj.mp (char_eq_iff.mp heq)))))
  · exact h (.inr (.inr (.inr (UInt8.toNat_inj.mp (char_eq_iff.mp heq)))))

theorem byte_charOf (a : UInt8) : byte (charOf a).toNat = some a := by
  rw [charOf, toNat_char, byte, if_pos a.toNat_lt, UInt8.ofNat_toNat]

/-- Where the character of a byte is a digit it is printed as it is, and elsewhere what is printed
    does not begin with a digit. -/
def PrintsDigits (p : Char → Bool) : Prop :=
  p '"' = false ∧
    ∀ b, if p (charOf b) then emit b = [charOf b] else ∀ c ∈ (emit b).head?, p c = false

theorem printsDigits_of_plain (hquote : p '"' = false) (hslash : p '\\' = false)
    (hdigit : ∀ b, p (charOf b) = true → 48 ≤ b.toNat ∧ b.toNat ≤ 102) : PrintsDigits p := by
  refine ⟨hquote, fun b => ?_⟩
  split
  · rename_i hp
    obtain ⟨hge, hle⟩ := hdigit b hp
    have hne : b.toNat ≠ 92 := fun heq => by
      rw [charOf, char_eq_iff.mpr (show b.toNat = '\\'.toNat from heq), hslash] at hp
      cases hp
    refine emit_plain ?_ ?_ ?_
    all_goals
      simp only [HexEscaped, SimplyEscaped, UInt8.le_iff_toNat_le, UInt8.lt_iff_toNat_lt, ne_eq,
        ← UInt8.toNat_inj, UInt8.reduceToNat]
      omega
  · rename_i hp
    intro c hc
    by_cases h : HexEscaped b ∨ b = 0 ∨ SimplyEscaped b
    · rw [emit_slash h] at hc
      cases hc
      exact hslash
    · obtain ⟨hhex, hzero, hsimple⟩ := not_or.mp h |>.imp id not_or.mp
      rw [emit_plain hhex hzero hsimple] at hc
      cases hc
      exact Bool.eq_false_iff.mpr hp

theorem printsDigits_hex : PrintsDigits isHexDigit :=
  printsDigits_of_plain rfl rfl fun b hb => by
    have hrange := toNat_of_isHexDigit hb
    rw [charOf, toNat_char] at hrange
    omega

theorem printsDigits_octal : PrintsDigits isOctalDigit :=
  printsDigits_of_plain rfl rfl fun b hb => by
    have hrange := toNat_of_isOctalDigit hb
    rw [charOf, toNat_char] at hrange
    omega

/-! ## The digits behind an escape -/

@[simp] theorem text_nil : text [] = ['"'] := rfl

@[simp] theorem text_cons : text (a :: s) = emit a ++ text s := by
  simp [text]

theorem takeWhile_text (hp : PrintsDigits p) (s : List UInt8) :
    (text s).takeWhile p = (s.takeWhile fun b => p (charOf b)).map charOf := by
  induction s with
  | nil => simp [hp.1]
  | cons b s ih =>
    have hb := hp.2 b
    rw [text_cons, List.takeWhile_cons]
    split at hb
    · rename_i hdigit
      simp [hb, hdigit, ih]
    · rename_i hdigit
      obtain ⟨c, more, hemit⟩ := List.exists_cons_of_ne_nil (emit_ne b)
      rw [hemit] at hb ⊢
      simp [hdigit, hb c rfl]

theorem dropWhile_text (hp : PrintsDigits p) (s : List UInt8) :
    (text s).dropWhile p = text (s.dropWhile fun b => p (charOf b)) := by
  induction s with
  | nil => simp [hp.1]
  | cons b s ih =>
    have hb := hp.2 b
    rw [text_cons, List.dropWhile_cons]
    split at hb
    · rename_i hdigit
      simp [hb, hdigit, ih]
    · rename_i hdigit
      obtain ⟨c, more, hemit⟩ := List.exists_cons_of_ne_nil (emit_ne b)
      rw [hemit] at hb
      simp [hdigit, hemit, hb c rfl]

/-- As many bytes as characters are passed over, where they are digits. -/
theorem drop_text (hp : PrintsDigits p) {k : Nat}
    (hk : k ≤ (s.takeWhile fun b => p (charOf b)).length) : (text s).drop k = text (s.drop k) := by
  induction k generalizing s with
  | zero => rfl
  | succ k ih =>
    cases s with
    | nil => cases hk
    | cons b s =>
      have hb := hp.2 b
      rw [List.takeWhile_cons] at hk
      split at hk
      · rename_i hdigit
        rw [if_pos hdigit] at hb
        rw [text_cons, hb]
        exact ih (Nat.le_of_succ_le_succ hk)
      · cases hk

/-- The number of bytes at the front whose characters are digits. -/
def digitsAhead (p : Char → Bool) (s : List UInt8) : Nat :=
  (s.takeWhile fun b => p (charOf b)).length

theorem digitsAhead_eq_zero : digitsAhead p s = 0 ↔ ∀ b ∈ s.head?, p (charOf b) = false := by
  cases s with
  | nil => simp [digitsAhead]
  | cons b s =>
    rw [digitsAhead, List.takeWhile_cons]
    cases hdigit : p (charOf b) <;> simp [hdigit]

theorem drop_digitsAhead (p : Char → Bool) (s : List UInt8) :
    s.drop (digitsAhead p s) = s.dropWhile fun b => p (charOf b) := by
  induction s with
  | nil => rfl
  | cons b s ih =>
    rw [digitsAhead, List.takeWhile_cons, List.dropWhile_cons]
    split
    · exact ih
    · rfl

/-! ## One item -/

theorem item_text_plain (h : ¬HexEscaped a) (hzero : a ≠ 0) (rest : List Char) :
    item (emit a ++ rest) = some (a, rest) := by
  by_cases hsimple : SimplyEscaped a
  · obtain ⟨hx, hoctal, hletter, -⟩ := (emit_cases a).2.2 hsimple
    rw [emit_simple hsimple]
    exact item_simple hx hoctal hletter
  · obtain ⟨hquote, hslash⟩ := charOf_plain hsimple
    rw [emit_plain h hzero hsimple]
    exact item_plain hquote hslash (byte_charOf a)

/-- A hexadecimal escape takes all digits behind it. -/
theorem item_text_hex (h : HexEscaped a) (s : List UInt8) :
    ∃ b, item (emit a ++ text s) = b.map (·, text (s.drop (digitsAhead isHexDigit s))) ∧
      (digitsAhead isHexDigit s = 0 → b = some a) := by
  obtain ⟨hhigh, hlow, hbyte⟩ := (emit_cases a).2.1
  refine ⟨byte (number 16 (xdigit ((a >>> 4) &&& 0xf) :: xdigit (a &&& 0xf) ::
    (text s).takeWhile isHexDigit)), ?_, fun hnone => ?_⟩
  · rw [emit_hex h, emitHexAscii, drop_digitsAhead, ← dropWhile_text printsDigits_hex]
    simp only [List.cons_append, List.nil_append, item_hex hhigh, List.takeWhile_cons, hlow,
      List.dropWhile_cons, if_true]
  · rwa [takeWhile_text printsDigits_hex, List.length_eq_zero_iff.mp hnone, List.map_nil]

/-- An octal escape takes up to two digits behind it. -/
theorem item_text_zero (s : List UInt8) :
    ∃ b, item (emit 0 ++ text s) = b.map (·, text (s.drop (min 2 (digitsAhead isOctalDigit s)))) ∧
      (digitsAhead isOctalDigit s = 0 → b = some 0) := by
  have hlen : (((text s).takeWhile isOctalDigit).take 2).length =
      min 2 (digitsAhead isOctalDigit s) := by
    rw [takeWhile_text printsDigits_octal, List.length_take, List.length_map, digitsAhead]
  refine ⟨byte (number 8 ('0' :: ((text s).takeWhile isOctalDigit).take 2)), ?_, fun hnone => ?_⟩
  · have hdrop := drop_text printsDigits_octal (s := s) (Nat.min_le_right 2 _)
    rw [← digitsAhead] at hdrop
    rw [← hdrop, ← hlen]
    exact item_octal rfl
  · rw [hnone] at hlen
    rw [List.length_eq_zero_iff.mp hlen]
    rfl

/-- **The item of a byte is the byte alone where it does not merge with the next one.** -/
theorem item_text (a : UInt8) (s : List UInt8) :
    ∃ b k, item (emit a ++ text s) = b.map (·, text (s.drop k)) ∧ (k = 0 → b = some a) ∧
      (k = 0 ↔ ∀ c ∈ s.head?, ¬Merges a c) := by
  by_cases hhex : HexEscaped a
  · obtain ⟨b, hitem, hb⟩ := item_text_hex hhex s
    have hzero : a ≠ 0 := by
      rintro rfl
      exact absurd hhex (by decide)
    refine ⟨b, _, hitem, hb, ?_⟩
    rw [digitsAhead_eq_zero]
    simp [Merges, hhex, hzero]
  · by_cases hzero : a = 0
    · subst hzero
      obtain ⟨b, hitem, hb⟩ := item_text_zero s
      have hmin : min 2 (digitsAhead isOctalDigit s) = 0 ↔ digitsAhead isOctalDigit s = 0 := by
        omega
      refine ⟨b, _, hitem, fun hk => hb (hmin.mp hk), ?_⟩
      rw [hmin, digitsAhead_eq_zero]
      simp [Merges, hhex]
    · refine ⟨some a, 0, item_text_plain hhex hzero _, fun _ => rfl, ?_⟩
      simp [Merges, hhex, hzero]

/-! ## All items -/

/-- Where two bytes merge, less is read than was printed. -/
theorem length_contents (s : List UInt8) : ∀ r, contents (text s) = some r →
    r.length ≤ s.length ∧ (r.length = s.length → s.IsChain fun a b => ¬Merges a b) := by
  -- by induction on the number of bytes: an escape may take several of them
  induction hlen : s.length using Nat.strong_induction_on generalizing s with
  | _ len ih =>
    intro r hr
    cases s with
    | nil =>
      rw [text_nil, contents_close] at hr
      cases hr
      exact ⟨Nat.zero_le _, fun _ => List.IsChain.nil⟩
    | cons a s =>
      obtain ⟨b, k, hitem, -, hmerges⟩ := item_text a s
      rw [List.length_cons] at hlen
      rw [text_cons] at hr
      cases b with
      | none =>
        have hne : emit a ++ text s ≠ ['"'] := by
          intro hquote
          have hlength := congrArg List.length hquote
          have hpos := List.length_pos_iff.mpr (emit_ne a)
          simp only [text, List.length_append, List.length_singleton] at hlength
          omega
        rw [contents_none hne hitem] at hr
        cases hr
      | some b =>
        rw [contents_item hitem] at hr
        obtain ⟨r', hr', rfl⟩ := Option.map_eq_some_iff.mp hr
        obtain ⟨hle, hchain⟩ := ih (s.drop k).length (by rw [List.length_drop]; omega) _ rfl r' hr'
        rw [List.length_drop] at hle hchain
        rw [List.length_cons]
        refine ⟨by omega, fun heq => ?_⟩
        have hk : k = 0 := by
          by_contra hk
          have hsome : s ≠ [] := by
            rintro rfl
            exact hk (hmerges.mpr fun c hc => by cases hc)
          have hpos := List.length_pos_iff.mpr hsome
          omega
        have hrest := hchain (by omega)
        rw [hk, List.drop_zero] at hrest
        exact List.isChain_cons.mpr ⟨hmerges.mp hk, hrest⟩

theorem contents_text (h : s.IsChain fun a b => ¬Merges a b) : contents (text s) = some s := by
  induction s with
  | nil => exact contents_close
  | cons a s ih =>
    obtain ⟨hhead, hrest⟩ := List.isChain_cons.mp h
    obtain ⟨b, k, hitem, hb, hmerges⟩ := item_text a s
    have hk := hmerges.mpr hhead
    rw [hb hk, hk, List.drop_zero] at hitem
    rw [text_cons, contents_item hitem, ih hrest]
    rfl

/-! ## Printing is injective -/

/-- The byte in front, where escapes are as long as they are printed. -/
def firstByte : List Char → Option (UInt8 × List Char)
  | [] => none
  | c :: rest =>
    if c ≠ '\\' then (byte c.toNat).map (·, rest)
    else
      match rest with
      | [] => none
      | d :: rest =>
        if d = 'x' then (byte (number 16 (rest.take 2))).map (·, rest.drop 2)
        else if d = '0' then some (0, rest)
        else (simpleEscape d).map (·, rest)

theorem firstByte_emit (a : UInt8) (rest : List Char) :
    firstByte (emit a ++ rest) = some (a, rest) := by
  by_cases hhex : HexEscaped a
  · obtain ⟨-, -, hbyte⟩ := (emit_cases a).2.1
    rw [emit_hex hhex]
    simp [firstByte, emitHexAscii, hbyte]
  · by_cases hzero : a = 0
    · subst hzero
      rfl
    · by_cases hsimple : SimplyEscaped a
      · obtain ⟨hx, hoctal, hletter, -⟩ := (emit_cases a).2.2 hsimple
        have hnil : escapeLetter a ≠ '0' := by
          intro heq
          rw [heq] at hoctal
          cases hoctal
        simp [firstByte, emit_simple hsimple, hx, hnil, hletter]
      · obtain ⟨-, hslash⟩ := charOf_plain hsimple
        simp [firstByte, emit_plain hhex hzero hsimple, hslash, byte_charOf]

theorem text_ne (s : List UInt8) : text s ≠ [] := by
  simp [text]

theorem text_injective : ∀ {s t : List UInt8}, text s = text t → s = t
  | [], [], _ => rfl
  | [], b :: t, h => by
    have hfirst := congrArg firstByte h
    rw [text_cons, firstByte_emit] at hfirst
    cases text_ne t (congrArg Prod.snd (Option.some.inj hfirst)).symm
  | a :: s, [], h => by
    have hfirst := congrArg firstByte h
    rw [text_cons, firstByte_emit] at hfirst
    cases text_ne s (congrArg Prod.snd (Option.some.inj hfirst))
  | a :: s, b :: t, h => by
    have hfirst := congrArg firstByte h
    rw [text_cons, text_cons, firstByte_emit, firstByte_emit] at hfirst
    obtain ⟨rfl, hrest⟩ := Prod.mk.inj (Option.some.inj hfirst)
    rw [text_injective hrest]

/-- **A literal denotes the bytes it was printed for, and no other string is printed like it,
    exactly when no byte merges with the next one.** -/
theorem denotes_iff (s : List UInt8) :
    (readLiteral ((cStrLiteral s).print unlimited) = some s ∧
        ∀ t, (cStrLiteral t).print unlimited = (cStrLiteral s).print unlimited → t = s) ↔
      s.IsChain fun a b => ¬Merges a b := by
  rw [print_unlimited]
  constructor
  · rintro ⟨hread, -⟩
    exact (length_contents s s hread).2 rfl
  · intro hchain
    refine ⟨contents_text hchain, fun t ht => ?_⟩
    rw [print_unlimited] at ht
    exact text_injective (List.cons.inj ht).2

/-- The two bytes 1 and '2' are printed as "\x012", which is one byte. -/
theorem digits_merge :
    (cStrLiteral [1, 50]).print unlimited = "\"\\x012\"".toList ∧
      readLiteral ((cStrLiteral [1, 50]).print unlimited) = some [18] := by
  have hitem : item (text [1, 50]) = some (18, ['"']) := by decide
  refine ⟨by decide, ?_⟩
  rw [print_unlimited, readLiteral, contents_item hitem, contents_close]
  rfl

end Batt.Literal
