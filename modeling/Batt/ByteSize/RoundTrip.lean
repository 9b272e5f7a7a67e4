/-
  What printed sizes denote, and where they are parsed back.

  `readSize` reads a text with the conventional meaning of the units, 1024 for KiB and 1000 for KB,
  and adds the terms. An exact size is read as the size it was printed for, and an inexact one is a
  single term, the size rounded down to its unit, with a '~' exactly where something was rounded
  off (`prints_value`).

  The printer takes units of 1000 where that makes the text shorter, and the parser reads every
  unit as a power of 1024. A size comes back exactly when units of 1024 were printed, which is when
  it has fewer nonzero digits in base 1024 than in base 1000, or as many and as many digits in all
  (`round_trip_iff`).
-/
import Batt.ByteSize.Model
import Batt.ByteSize.Parts
import Batt.ByteSize.Accepts

variable {base : UnitBase}

namespace Batt.ByteSize

/-! ## The meaning of the text -/

def conventionalUnits : List (View × Nat) :=
  [("B".toList, 1),
    ("KB".toList, 1000), ("MB".toList, 1000 ^ 2), ("GB".toList, 1000 ^ 3), ("TB".toList, 1000 ^ 4),
    ("PB".toList, 1000 ^ 5), ("EB".toList, 1000 ^ 6),
    ("KiB".toList, 1024), ("MiB".toList, 1024 ^ 2), ("GiB".toList, 1024 ^ 3),
    ("TiB".toList, 1024 ^ 4), ("PiB".toList, 1024 ^ 5), ("EiB".toList, 1024 ^ 6)]

def readTerm (part : View) : Option Nat :=
  let digits := part.takeWhile Char.isDigit
  if digits = [] then none
  else
    (conventionalUnits.lookup (part.dropWhile Char.isDigit)).map (Nat.ofDigitChars 10 digits 0 * ·)

def readTerms : List View → Option Nat
  | [] => some 0
  | part :: parts => (readTerm part).bind fun n => (readTerms parts).map (n + ·)

def readSize (text : View) : Option Nat := readTerms (text.splitOn '+')

/-! ## Parts as text -/

theorem isDigit_count (p : Part) : ∀ c ∈ Nat.toDigits 10 p.count, c.isDigit = true :=
  fun _ hc => Nat.isDigit_of_mem_toDigits (by decide) (by decide) hc

theorem isAlpha_unit (base : UnitBase) :
    ∀ unit ∈ base.units, ∀ c ∈ unit.2, c.isAlpha = true := by
  have hall : ∀ unit ∈ base.units, unit.2.all Char.isAlpha = true := by
    cases base <;> decide
  exact fun unit hunit => List.all_eq_true.mp (hall unit hunit)

theorem lookup_unit (base : UnitBase) :
    ∀ unit ∈ base.units, conventionalUnits.lookup unit.2 = some unit.1 := by
  cases base <;> decide

theorem mem_conventional (base : UnitBase) :
    ∀ unit ∈ base.units, (unit.2, unit.1) ∈ conventionalUnits := by
  cases base <;> decide

theorem unit_pos (base : UnitBase) : ∀ unit ∈ base.units, 0 < unit.1 := by
  cases base <;> decide

variable {units : List (Nat × View)} {n : Nat}

theorem unit_of_mem {firstPart : Bool} {p : Part} (h : p ∈ sizeParts n firstPart units) :
    p.unit ∈ units := by
  induction units generalizing n firstPart with
  | nil => cases h
  | cons unit units ih =>
    rw [sizeParts] at h
    split at h
    · rcases List.mem_cons.mp h with rfl | h
      · exact List.mem_cons_self
      · exact List.mem_cons_of_mem _ (ih h)
    · exact List.mem_cons_of_mem _ (ih h)

theorem bare_text {p : Part} (h : p.unit ∈ base.units) : Bare p.text :=
  bare_term (isDigit_count p) (isAlpha_unit base p.unit h)

theorem readTerm_text {p : Part} (h : p.unit ∈ base.units) :
    readTerm p.text = some (p.count * p.unit.1) := by
  have hunit := isAlpha_unit base p.unit h
  unfold readTerm Part.text
  simp only [takeWhile_term (isDigit_count p) hunit, dropWhile_term (isDigit_count p) hunit,
    Nat.toDigits_ne_nil, if_false, lookup_unit base p.unit h, Nat.ofDigitChars_ten_toDigits,
    Option.map_some]

theorem partsText_eq (parts : List Part) :
    partsText true parts = ['+'].intercalate (parts.map Part.text) := by
  induction parts with
  | nil => rfl
  | cons p parts ih =>
    cases parts with
    | nil => simp [partsText]
    | cons next parts =>
      rw [List.map_cons, List.map_cons, List.intercalate_cons_cons, ← List.map_cons, ← ih]
      simp [partsText]

theorem readTerms_parts {parts : List Part} (h : ∀ p ∈ parts, p.unit ∈ base.units) :
    readTerms (parts.map Part.text) = some (parts.map fun p => p.count * p.unit.1).sum := by
  induction parts with
  | nil => rfl
  | cons p parts ih =>
    rw [List.map_cons, readTerms, readTerm_text (h p List.mem_cons_self),
      ih fun p hp => h p (List.mem_cons_of_mem _ hp)]
    rfl

theorem getLast_units (base : UnitBase) : ∃ name, base.units.getLast? = some (1, name) := by
  cases base <;> exact ⟨_, rfl⟩

/-- There is always a part. -/
theorem parts_ne (hlast : ∃ name, units.getLast? = some (1, name)) :
    sizeParts n true units ≠ [] := by
  intro hnone
  by_cases hn : n = 0
  · have hlen := length_sizeParts_zero hlast
    rw [← hn, hnone] at hlen
    cases hlen
  · have hsum := weigh_div (n := n) hlast
    rw [← sum_parts _ n true units, hnone] at hsum
    exact hn hsum.symm

/-! ## Exact sizes -/

def exactParts (n : UInt64) (base : UnitBase) : List Part := sizeParts n.toNat true base.units

theorem format_exact (n : UInt64) (base : UnitBase) :
    (dumpSizeExact n).format base =
      { text := ['+'].intercalate ((exactParts n base).map Part.text)
        parts := (exactParts n base).length
        ord := leading n.toNat 7 base.units
        error := 0 } := by
  rw [← partsText_eq]
  exact formatImpl_exact base.units

/-- The base of the units that are printed. -/
def chosen (n : UInt64) : UnitBase :=
  if prefersBase10 ((dumpSizeExact n).format .kLog2) ((dumpSizeExact n).format .kLog10) then .kLog10
  else .kLog2

theorem print_exact (n : UInt64) :
    (dumpSizeExact n).print = ['+'].intercalate ((exactParts n (chosen n)).map Part.text) := by
  unfold SizeDumper.print chosen
  dsimp only
  split <;> simp [format_exact]

theorem readSize_exact (n : UInt64) : readSize (dumpSizeExact n).print = some n.toNat := by
  have hmem : ∀ p ∈ exactParts n (chosen n), p.unit ∈ (chosen n).units := fun p hp => unit_of_mem hp
  have hlast := getLast_units (chosen n)
  rw [print_exact, readSize, List.splitOn_intercalate, readTerms_parts hmem, exactParts, sum_parts,
    weigh_div hlast]
  · intro part hpart
    obtain ⟨p, hp, rfl⟩ := List.mem_map.mp hpart
    intro hplus
    exact (bare_text (hmem p hp) '+' hplus).1 rfl
  · intro hnone
    exact parts_ne hlast (List.map_eq_nil_iff.mp hnone)

/-! ## Inexact sizes -/

theorem print_inexact (n : UInt64) :
    ∃ base : UnitBase, ∃ unit ∈ base.units,
      (dumpSize n).print =
        (if n.toNat % unit.1 = 0 then [] else ['~']) ++ Nat.toDigits 10 (n.toNat / unit.1) ++
          unit.2 := by
  have hformat : ∀ base : UnitBase, ∃ unit ∈ base.units, ∃ ord, (dumpSize n).format base = _ :=
    fun base => formatImpl_inexact (getLast_units base)
  unfold SizeDumper.print
  dsimp only
  split
  · obtain ⟨unit, hunit, ord, h⟩ := hformat .kLog10
    refine ⟨.kLog10, unit, hunit, ?_⟩
    rw [h, List.append_assoc]
    rfl
  · obtain ⟨unit, hunit, ord, h⟩ := hformat .kLog2
    refine ⟨.kLog2, unit, hunit, ?_⟩
    rw [h, List.append_assoc]
    rfl

/-- **Printed sizes denote the value.** -/
theorem prints_value (n : UInt64) :
    readSize (dumpSizeExact n).print = some n.toNat ∧
      ∃ q name u, (name, u) ∈ conventionalUnits ∧ q * u ≤ n.toNat ∧ n.toNat < (q + 1) * u ∧
        (dumpSize n).print =
          (if q * u = n.toNat then [] else ['~']) ++ Nat.toDigits 10 q ++ name := by
  refine ⟨readSize_exact n, ?_⟩
  obtain ⟨base, ⟨u, name⟩, hunit, hprint⟩ := print_inexact n
  have hpos : 0 < u := unit_pos base _ hunit
  have hsplit := Nat.div_add_mod n.toNat u
  have hrest := Nat.mod_lt n.toNat hpos
  rw [Nat.mul_comm] at hsplit
  refine ⟨n.toNat / u, name, u, mem_conventional base _ hunit, by omega, ?_, ?_⟩
  · rw [Nat.add_mul, Nat.one_mul]
    omega
  · rw [hprint]
    have hiff : n.toNat % u = 0 ↔ n.toNat / u * u = n.toNat := by omega
    simp only [hiff]

def nonzeroDigits (base n : Nat) : Nat := (Nat.digits base n).countP (· ≠ 0)

/-- The text with units of 1000 is not shorter, and does not start with a larger unit. -/
def PrintsBinary (n : Nat) : Prop :=
  nonzeroDigits 1024 n < nonzeroDigits 1000 n ∨
    nonzeroDigits 1024 n = nonzeroDigits 1000 n ∧ Nat.log 1024 n = Nat.log 1000 n

/-! ## What the parser reads -/

/-- The weight that the parser gives to a unit. -/
def readUnit (unit : Nat × View) : Nat := unitValue unit.2

theorem count_le {firstPart : Bool} {p : Part} (h : p ∈ sizeParts n firstPart units) :
    p.count ≤ n := by
  induction units generalizing n firstPart with
  | nil => cases h
  | cons unit units ih =>
    rw [sizeParts] at h
    split at h
    · rcases List.mem_cons.mp h with rfl | h
      · exact Nat.div_le_self n unit.1
      · exact Nat.le_trans (ih h) (Nat.mod_le n unit.1)
    · exact Nat.le_trans (ih h) (Nat.mod_le n unit.1)

theorem partsValue_text {parts : List Part} (hunit : ∀ p ∈ parts, p.unit ∈ base.units)
    (hcount : ∀ p ∈ parts, p.count < 2 ^ 64) :
    partsValue (parts.map Part.text) =
      some (UInt64.ofNat (parts.map fun p => p.count * readUnit p.unit).sum) := by
  induction parts with
  | nil => rfl
  | cons p parts ih =>
    have hp : p.unit ∈ base.units := hunit p List.mem_cons_self
    have hne : p.text ≠ [] := by simp [Part.text, Nat.toDigits_ne_nil]
    have hvalue : partValue p.text = some (UInt64.ofNat (p.count * readUnit p.unit)) := by
      rw [Part.text, partValue_term Nat.toDigits_ne_nil (isDigit_count p)
        (isAlpha_unit base p.unit hp) (by
          rw [Nat.ofDigitChars_ten_toDigits]
          exact hcount p List.mem_cons_self),
        Nat.ofDigitChars_ten_toDigits, ← UInt64.ofNat_mul]
      rfl
    rw [List.map_cons, partsValue, if_neg hne, hvalue,
      ih (fun p hp => hunit p (List.mem_cons_of_mem _ hp))
        fun p hp => hcount p (List.mem_cons_of_mem _ hp),
      List.map_cons, List.sum_cons, UInt64.ofNat_add]
    rfl

theorem parse_print (n : UInt64) :
    parseByteSize (dumpSizeExact n).print =
      some (UInt64.ofNat (weigh readUnit n.toNat (chosen n).units)) := by
  have hmem : ∀ p ∈ exactParts n (chosen n), p.unit ∈ (chosen n).units := fun p hp => unit_of_mem hp
  have hcount : ∀ p ∈ exactParts n (chosen n), p.count < 2 ^ 64 := fun p hp =>
    Nat.lt_of_le_of_lt (count_le hp) n.toNat_lt
  have hbare : ∀ part ∈ (exactParts n (chosen n)).map Part.text, Bare part := by
    intro part hpart
    obtain ⟨p, hp, rfl⟩ := List.mem_map.mp hpart
    exact bare_text (hmem p hp)
  have hloop : parseLoop (_ ++ []) 0 false = _ := parseLoop_parts hbare stops_nil
  rw [List.append_nil, partsValue_text hmem hcount, exactParts, sum_parts] at hloop
  have hne : (dumpSizeExact n).print ≠ [] := by
    intro hnone
    have hread := readSize_exact n
    rw [hnone] at hread
    cases hread
  rw [parseByteSize, if_neg (by simpa using hne), print_exact, exactParts, hloop, Option.bind_some,
    parseLoop_nil, UInt64.zero_add]

/-! ## The choice of the printer -/

theorem units_log2 : UnitBase.kLog2.units = tower 1024 ["EiB".toList, "PiB".toList, "TiB".toList,
    "GiB".toList, "MiB".toList, "KiB".toList, "B".toList] := by decide

theorem units_log10 : UnitBase.kLog10.units = tower 1000 ["EB".toList, "PB".toList, "TB".toList,
    "GB".toList, "MB".toList, "KB".toList, "B".toList] := by decide

theorem format_tower {n : UInt64} {b : Nat} {names : List View} (hb : 1 < b)
    (hunits : base.units = tower b names) (hlen : names.length = 7) (hn : n.toNat < b ^ 7) :
    ((dumpSizeExact n).format base).parts = (if n.toNat = 0 then 1 else nonzeroDigits b n.toNat) ∧
      ((dumpSizeExact n).format base).ord = Nat.log b n.toNat + 1 ∧
      ((dumpSizeExact n).format base).error = 0 := by
  have hne : names ≠ [] := by
    rintro rfl
    cases hlen
  rw [← hlen] at hn
  rw [format_exact, exactParts, hunits]
  refine ⟨length_parts hb hne hn, ?_, rfl⟩
  rw [← hlen]
  exact leading_tower hb hne hn

theorem prefersBase10_iff (n : UInt64) :
    prefersBase10 ((dumpSizeExact n).format .kLog2) ((dumpSizeExact n).format .kLog10) = true ↔
      ¬PrintsBinary n.toNat := by
  have hlt := n.toNat_lt
  obtain ⟨hparts2, hord2, herror2⟩ := format_tower (n := n) (by decide) units_log2 rfl (by omega)
  obtain ⟨hparts10, hord10, herror10⟩ :=
    format_tower (n := n) (by decide) units_log10 rfl (by omega)
  have hlog : Nat.log 1024 n.toNat ≤ Nat.log 1000 n.toNat :=
    Nat.log_anti_left (by decide) (by decide)
  unfold prefersBase10 PrintsBinary
  rw [hparts2, hparts10, hord2, hord10, herror2, herror10]
  by_cases hzero : n.toNat = 0
  · simp [hzero, nonzeroDigits]
  · simp only [if_neg hzero, Bool.or_eq_true, Bool.and_eq_true, decide_eq_true_eq]
    omega

theorem printsBinary_of_lt (hn : n < 1000) : PrintsBinary n := by
  have hdigits : Nat.digits 1024 n = Nat.digits 1000 n := by
    by_cases hzero : n = 0
    · rw [hzero, Nat.digits_zero, Nat.digits_zero]
    · rw [Nat.digits_of_lt 1024 n hzero (by omega), Nat.digits_of_lt 1000 n hzero hn]
  refine .inr ⟨?_, ?_⟩
  · rw [nonzeroDigits, nonzeroDigits, hdigits]
  · rw [Nat.log_of_lt (b := 1024) (by omega), Nat.log_of_lt hn]

/-! ## The round trip -/

theorem readUnit_log2 : ∀ unit ∈ UnitBase.kLog2.units, readUnit unit = unit.1 := by decide

theorem readUnit_log10 : ∀ unit ∈ UnitBase.kLog10.units,
    unit.1 ≤ readUnit unit ∧ readUnit unit ≤ 2 * unit.1 := by decide

theorem weigh_log2 (n : Nat) : weigh readUnit n UnitBase.kLog2.units = n := by
  rw [weigh_congr readUnit_log2, weigh_div (getLast_units .kLog2)]

/-- Decimal units are read as larger ones, but not twice as large. -/
theorem weigh_log10_le (n : Nat) :
    n ≤ weigh readUnit n UnitBase.kLog10.units ∧
      weigh readUnit n UnitBase.kLog10.units ≤ 2 * n := by
  have hdiv := weigh_div (n := n) (getLast_units .kLog10)
  have hlow : weigh (·.1) n UnitBase.kLog10.units ≤ weigh readUnit n UnitBase.kLog10.units :=
    weigh_le fun unit hunit => (readUnit_log10 unit hunit).1
  have hhigh : weigh readUnit n UnitBase.kLog10.units ≤
      weigh (fun unit => 2 * unit.1) n UnitBase.kLog10.units :=
    weigh_le fun unit hunit => (readUnit_log10 unit hunit).2
  rw [weigh_mul, hdiv] at hhigh
  rw [hdiv] at hlow
  exact ⟨hlow, hhigh⟩

theorem lt_of_weigh_log10 (h : weigh readUnit n UnitBase.kLog10.units = n) :
    n < 1000 := by
  have hsplit : UnitBase.kLog10.units = UnitBase.kLog10.units.dropLast ++ [(1, "B".toList)] := rfl
  have hdiv := weigh_div (n := n) (getLast_units .kLog10)
  have heq := h.trans hdiv.symm
  rw [hsplit] at heq
  exact lt_of_weigh_eq (by decide) (by decide) (by decide) heq (kKB, "KB".toList) (by decide)

theorem chosen_eq (n : UInt64) : (PrintsBinary n.toNat → chosen n = .kLog2) ∧
    (¬PrintsBinary n.toNat → chosen n = .kLog10) := by
  rw [chosen]
  constructor
  · exact fun hbinary => if_neg fun hbase => (prefersBase10_iff n).mp hbase hbinary
  · exact fun hdecimal => if_pos ((prefersBase10_iff n).mpr hdecimal)

/-- **An exact size comes back exactly when it is printed in units of 1024**, which is when its
    digits say so; otherwise it is printed in units of 1000. -/
theorem round_trip_iff (n : UInt64) :
    (parseByteSize (dumpSizeExact n).print = some n ↔ PrintsBinary n.toNat) ∧
      (PrintsBinary n.toNat →
        (dumpSizeExact n).print = ((dumpSizeExact n).format .kLog2).text) ∧
      (¬PrintsBinary n.toNat →
        (dumpSizeExact n).print = ((dumpSizeExact n).format .kLog10).text) := by
  have hlt := n.toNat_lt
  obtain ⟨hlog2, hlog10⟩ := chosen_eq n
  refine ⟨?_, fun h => ?_, fun h => ?_⟩
  · rw [parse_print, Option.some.injEq]
    by_cases hbinary : PrintsBinary n.toNat
    · rw [hlog2 hbinary, weigh_log2]
      exact iff_of_true UInt64.ofNat_toNat hbinary
    · rw [hlog10 hbinary]
      refine iff_of_false (fun hback => hbinary (printsBinary_of_lt (lt_of_weigh_log10 ?_))) hbinary
      -- what is read is below twice the size, so that it cannot wrap around to the size
      have hwrap := congrArg UInt64.toNat hback
      rw [UInt64.toNat_ofNat'] at hwrap
      have hbounds := weigh_log10_le n.toNat
      omega
  · rw [print_exact, hlog2 h, format_exact]
  · rw [print_exact, hlog10 h, format_exact]

/-- 1000 is printed as "1KB", which is read as 1024. -/
theorem no_round_trip : parseByteSize (dumpSizeExact 1000).print = some 1024 := by
  rw [parse_print]
  decide

end Batt.ByteSize
