/-
  The parts that `SizeDumper` breaks a size into.

  For each unit from the largest down, the number of times it goes into what is left is a part,
  unless it is zero; zero bytes are a part where there is no other. An exact size is printed as all
  of its parts (`formatImpl_exact`), an inexact one as the first (`formatImpl_inexact`). The weights
  of the parts add up to the size (`weigh_div`), and there are as many of them as the size has
  digits that are not zero in the base of the units (`length_parts`).
-/
import Mathlib.Data.Nat.Digits.Lemmas
import Mathlib.Data.Nat.Log
import Batt.ByteSize.Model

namespace Batt.ByteSize

structure Part where
  count : Nat
  unit : Nat × View
deriving DecidableEq, Repr

def Part.text (p : Part) : View := Nat.toDigits 10 p.count ++ p.unit.2

def sizeParts (n : Nat) (firstPart : Bool) : List (Nat × View) → List Part
  | [] => []
  | unit :: units =>
    if n / unit.1 ≠ 0 ∨ (unit.1 = 1 ∧ firstPart) then
      ⟨n / unit.1, unit⟩ :: sizeParts (n % unit.1) false units
    else sizeParts (n % unit.1) firstPart units

def partsText (firstPart : Bool) : List Part → View
  | [] => []
  | p :: parts => (if firstPart then [] else ['+']) ++ p.text ++ partsText false parts

/-- The place of the unit of the first part, counted from the end. -/
def leading (n unitOrd : Nat) : List (Nat × View) → Nat
  | [] => 0
  | unit :: units =>
    if n / unit.1 ≠ 0 ∨ unit.1 = 1 then unitOrd else leading (n % unit.1) (unitOrd - 1) units

variable {n unitOrd : Nat} {firstPart : Bool} {out : Formatted} {units : List (Nat × View)}

/-! ## What is printed -/

theorem formatImpl_rest (units : List (Nat × View)) :
    formatImpl true n unitOrd false out units =
      { out with
        text := out.text ++ partsText false (sizeParts n false units)
        parts := out.parts + (sizeParts n false units).length } := by
  induction units generalizing n unitOrd out with
  | nil => simp [formatImpl, sizeParts, partsText]
  | cons unit units ih =>
    obtain ⟨div, unitStr⟩ := unit
    rw [formatImpl, sizeParts]
    simp only [Bool.false_eq_true, and_false, or_false, if_false, Bool.not_true]
    split
    · rw [ih]
      simp [partsText, Part.text, Nat.add_assoc, Nat.add_comm 1]
    · exact ih

theorem formatImpl_exact (units : List (Nat × View)) :
    formatImpl true n unitOrd true {} units =
      { text := partsText true (sizeParts n true units)
        parts := (sizeParts n true units).length
        ord := leading n unitOrd units
        error := 0 } := by
  induction units generalizing n unitOrd with
  | nil => rfl
  | cons unit units ih =>
    obtain ⟨div, unitStr⟩ := unit
    rw [formatImpl, sizeParts, leading]
    simp only [and_true, if_true, Bool.not_true, Bool.false_eq_true, if_false]
    split
    · rw [formatImpl_rest]
      simp [partsText, Part.text, Nat.add_comm 1]
    · exact ih

theorem mod_of_div_zero {n div : Nat} (h : n / div = 0) : n % div = n := by
  rcases Nat.div_eq_zero_iff.mp h with rfl | hlt
  · exact Nat.mod_zero n
  · exact Nat.mod_eq_of_lt hlt

theorem getLast_of_ne_one {unit : Nat × View} (hne : unit.1 ≠ 1)
    (h : ∃ name, (unit :: units).getLast? = some (1, name)) :
    ∃ name, units.getLast? = some (1, name) := by
  obtain ⟨name, h⟩ := h
  cases units with
  | nil =>
    cases h
    exact absurd rfl hne
  | cons next units => exact ⟨name, h⟩

/-- The first part alone, and what is left behind it. -/
theorem formatImpl_inexact (hlast : ∃ name, units.getLast? = some (1, name)) :
    ∃ unit ∈ units, ∃ ord, formatImpl false n unitOrd true {} units =
      { text := (Part.mk (n / unit.1) unit).text
        parts := 1
        ord := ord
        error := n % unit.1 } := by
  induction units generalizing n unitOrd with
  | nil =>
    obtain ⟨name, h⟩ := hlast
    cases h
  | cons unit units ih =>
    obtain ⟨div, unitStr⟩ := unit
    rw [formatImpl]
    simp only [and_true, Bool.not_false, if_true]
    split
    · exact ⟨_, List.mem_cons_self, unitOrd, by simp [Part.text]⟩
    · rename_i hskip
      obtain ⟨hzero, hdiv⟩ := not_or.mp hskip
      obtain ⟨unit, hunit, ord, h⟩ := @ih (n % div) (unitOrd - 1) (getLast_of_ne_one hdiv hlast)
      rw [mod_of_div_zero (not_not.mp hzero)] at h ⊢
      exact ⟨unit, List.mem_cons_of_mem _ hunit, ord, h⟩

/-! ## What the parts weigh -/

/-- The sum over all units, with a weight for each. -/
def weigh (f : Nat × View → Nat) (n : Nat) : List (Nat × View) → Nat
  | [] => 0
  | unit :: units => n / unit.1 * f unit + weigh f (n % unit.1) units

theorem sum_parts (f : Nat × View → Nat) (n : Nat) (firstPart : Bool) (units : List (Nat × View)) :
    ((sizeParts n firstPart units).map fun p => p.count * f p.unit).sum = weigh f n units := by
  induction units generalizing n firstPart with
  | nil => rfl
  | cons unit units ih =>
    rw [sizeParts, weigh]
    split
    · rw [List.map_cons, List.sum_cons, ih]
    · rename_i hskip
      have hzero : n / unit.1 = 0 := not_not.mp (not_or.mp hskip).1
      rw [ih, hzero, Nat.zero_mul, Nat.zero_add]

theorem weigh_div (hlast : ∃ name, units.getLast? = some (1, name)) : weigh (·.1) n units = n := by
  induction units generalizing n with
  | nil =>
    obtain ⟨name, h⟩ := hlast
    cases h
  | cons unit units ih =>
    cases units with
    | nil =>
      obtain ⟨name, h⟩ := hlast
      cases h
      simp [weigh]
    | cons next units =>
      rw [weigh, ih hlast, Nat.mul_comm]
      exact Nat.div_add_mod n unit.1

theorem weigh_congr {f g : Nat × View → Nat} (h : ∀ unit ∈ units, f unit = g unit) :
    weigh f n units = weigh g n units := by
  induction units generalizing n with
  | nil => rfl
  | cons unit units ih =>
    rw [weigh, weigh, h unit List.mem_cons_self, ih fun u hu => h u (List.mem_cons_of_mem _ hu)]

theorem weigh_le {f g : Nat × View → Nat} (h : ∀ unit ∈ units, f unit ≤ g unit) :
    weigh f n units ≤ weigh g n units := by
  induction units generalizing n with
  | nil => exact Nat.le_refl 0
  | cons unit units ih =>
    exact Nat.add_le_add (Nat.mul_le_mul_left _ (h unit List.mem_cons_self))
      (ih fun u hu => h u (List.mem_cons_of_mem _ hu))

theorem weigh_mul (f : Nat × View → Nat) (k n : Nat) (units : List (Nat × View)) :
    weigh (fun unit => k * f unit) n units = k * weigh f n units := by
  induction units generalizing n with
  | nil => rfl
  | cons unit units ih =>
    rw [weigh, weigh, ih, Nat.mul_add, Nat.mul_left_comm]

/-- With larger weights the sum is larger, unless there is nothing of these units. -/
theorem lt_of_weigh_eq {f : Nat × View → Nat} {last : List (Nat × View)}
    (hpos : ∀ unit ∈ units, 0 < unit.1) (hlt : ∀ unit ∈ units, unit.1 < f unit)
    (hle : ∀ unit ∈ last, unit.1 ≤ f unit)
    (h : weigh f n (units ++ last) = weigh (·.1) n (units ++ last)) :
    ∀ unit ∈ units, n < unit.1 := by
  induction units generalizing n with
  | nil => exact fun unit hunit => by cases hunit
  | cons unit units ih =>
    rw [List.forall_mem_cons] at hpos hlt
    rw [List.cons_append, weigh, weigh] at h
    have hrest :
        weigh (·.1) (n % unit.1) (units ++ last) ≤ weigh f (n % unit.1) (units ++ last) := by
      refine weigh_le fun u hu => ?_
      rcases List.mem_append.mp hu with hu | hu
      · exact Nat.le_of_lt (hlt.2 u hu)
      · exact hle u hu
    have hhere : n / unit.1 * unit.1 ≤ n / unit.1 * f unit :=
      Nat.mul_le_mul_left _ (Nat.le_of_lt hlt.1)
    have hzero : n / unit.1 = 0 := by
      by_contra hne
      have := Nat.mul_lt_mul_of_pos_left hlt.1 (Nat.pos_of_ne_zero hne)
      omega
    have hsmall : n < unit.1 := (Nat.div_eq_zero_iff.mp hzero).resolve_left (by omega)
    refine List.forall_mem_cons.mpr ⟨hsmall, ih hpos.2 hlt.2 ?_⟩
    rw [Nat.mod_eq_of_lt hsmall] at h hrest
    omega

/-! ## How many parts there are -/

/-- Units that are the powers of a base. -/
def tower (base : Nat) : List View → List (Nat × View)
  | [] => []
  | name :: names => (base ^ names.length, name) :: tower base names

variable {base : Nat} {names : List View}

theorem leading_tower (hbase : 1 < base) (hne : names ≠ []) (hn : n < base ^ names.length) :
    leading n names.length (tower base names) = Nat.log base n + 1 := by
  induction names with
  | nil => exact absurd rfl hne
  | cons name names ih =>
    rw [tower, leading, List.length_cons]
    cases names with
    | nil =>
      have hlog : Nat.log base n = 0 := Nat.log_of_lt (by simpa using hn)
      simp [hlog]
    | cons next names =>
      have hone : base ^ (next :: names).length ≠ 1 := by
        simp [Nat.ne_of_gt hbase]
      simp only [hone, or_false, Nat.add_sub_cancel]
      split
      · rename_i hge
        have hle : base ^ (next :: names).length ≤ n := by
          by_contra hlt
          exact hge (Nat.div_eq_of_lt (Nat.lt_of_not_le hlt))
        rw [Nat.log_eq_of_pow_le_of_lt_pow hle hn]
      · rename_i hzero
        have hzero := not_not.mp hzero
        have hlt : n < base ^ (next :: names).length :=
          (Nat.div_eq_zero_iff.mp hzero).resolve_left (Nat.ne_of_gt (Nat.pow_pos (by omega)))
        rw [mod_of_div_zero hzero]
        exact ih (by simp) hlt

theorem length_sizeParts (hbase : 1 < base) (hn : n < base ^ names.length) :
    (sizeParts n false (tower base names)).length = (Nat.digits base n).countP (· ≠ 0) := by
  induction names generalizing n with
  | nil =>
    obtain rfl : n = 0 := by simpa using hn
    simp [tower, sizeParts]
  | cons name names ih =>
    rw [tower, sizeParts]
    simp only [Bool.false_eq_true, and_false, or_false]
    have hpow : 0 < base ^ names.length := Nat.pow_pos (by omega)
    split
    · rename_i hq
      -- the digit in front, zeros, and the digits of what is left
      have hmod : n % base ^ names.length < base ^ names.length := Nat.mod_lt n hpow
      have hdigit : n / base ^ names.length < base := by
        refine (Nat.div_lt_iff_lt_mul hpow).mpr ?_
        rwa [List.length_cons, Nat.pow_succ, Nat.mul_comm] at hn
      have hlen := (Nat.digits_length_le_iff hbase _).mpr hmod
      have hcut := Nat.digits_append_zeroes_append_digits
        (k := names.length - (Nat.digits base (n % base ^ names.length)).length)
        (n := n % base ^ names.length) hbase (Nat.pos_of_ne_zero hq)
      rw [Nat.add_sub_cancel' hlen, Nat.mod_add_div, Nat.digits_of_lt base _ hq hdigit] at hcut
      rw [List.length_cons, ih hmod, ← hcut]
      simp [hq]
    · rename_i hq
      have hzero := not_not.mp hq
      have hlt := (Nat.div_eq_zero_iff.mp hzero).resolve_left (Nat.ne_of_gt hpow)
      rw [mod_of_div_zero hzero]
      exact ih hlt

/-- Zero bytes are a part only where there is nothing else. -/
theorem sizeParts_pos (hn : n ≠ 0) (units : List (Nat × View)) :
    sizeParts n true units = sizeParts n false units := by
  induction units with
  | nil => rfl
  | cons unit units ih =>
    rw [sizeParts, sizeParts]
    by_cases hq : n / unit.1 = 0
    · have hone : unit.1 ≠ 1 := by
        intro hone
        rw [hone, Nat.div_one] at hq
        exact hn hq
      simp only [hq, hone, mod_of_div_zero hq, ih, ne_eq, not_true_eq_false, false_and, or_false]
    · simp [hq]

theorem sizeParts_zero (units : List (Nat × View)) : sizeParts 0 false units = [] := by
  induction units with
  | nil => rfl
  | cons unit units ih => simpa [sizeParts] using ih

theorem length_sizeParts_zero (hlast : ∃ name, units.getLast? = some (1, name)) :
    (sizeParts 0 true units).length = 1 := by
  induction units with
  | nil =>
    obtain ⟨name, h⟩ := hlast
    cases h
  | cons unit units ih =>
    by_cases hone : unit.1 = 1
    · simp [sizeParts, hone, sizeParts_zero]
    · simpa [sizeParts, hone] using ih (getLast_of_ne_one hone hlast)

theorem getLast_tower (hne : names ≠ []) :
    ∃ name, (tower base names).getLast? = some (1, name) := by
  induction names with
  | nil => exact absurd rfl hne
  | cons name names ih =>
    cases names with
    | nil => exact ⟨name, by simp [tower]⟩
    | cons next names => exact ih (by simp)

/-- There is always a part. -/
theorem length_parts (hbase : 1 < base) (hne : names ≠ []) (hn : n < base ^ names.length) :
    (sizeParts n true (tower base names)).length =
      if n = 0 then 1 else (Nat.digits base n).countP (· ≠ 0) := by
  split
  · rename_i hzero
    rw [hzero]
    exact length_sizeParts_zero (getLast_tower hne)
  · rename_i hpos
    rw [sizeParts_pos hpos, length_sizeParts hbase hn]

end Batt.ByteSize
