/-
  What the parser makes of a token and of the rest of a line.

  The fast search and the loop of eight turns skip only bytes that the loop behind them would skip
  one by one, so how far they have come makes no difference (`scanToken_eq`, `toCtl_eq`).
-/
import Batt.PicoHttp.Model

namespace Batt.PicoHttp

open Incremental

/-! ## The fast search -/

/-- From `buf` on, `fast` has come past none of the bytes `ends`, and to one where it says so. -/
def Skips (ends : UInt8 → Bool) (buf : Bytes) (fast : Bytes × Bool) : Prop :=
  ∃ x, buf = x ++ fast.1 ∧ (∀ c ∈ x, ends c = false) ∧
    (fast.2 = true → ∃ c ∈ fast.1.head?, ends c = true)

section

variable {ends : UInt8 → Bool} {buf : Bytes} {fast : Bytes × Bool}

theorem skips_self : Skips ends buf (buf, false) := ⟨[], rfl, by simp, by simp⟩

theorem Skips.append {x : Bytes} (hx : ∀ c ∈ x, ends c = false) (h : Skips ends buf fast) :
    Skips ends (x ++ buf) fast := by
  obtain ⟨y, rfl, hy, hfound⟩ := h
  refine ⟨x ++ y, (List.append_assoc _ _ _).symm, fun c hc => ?_, hfound⟩
  exact (List.mem_append.mp hc).elim (hx c) (hy c)

theorem findcharBlocks_skips (ranges : List UInt8) (n : Nat) (buf : Bytes)
    (hn : 16 * n ≤ buf.length) :
    Skips (inRanges ranges) buf (findcharBlocks ranges n buf) := by
  induction n generalizing buf with
  | zero => exact skips_self
  | succ n ih =>
    have hblock : (buf.take 16).length = 16 := by rw [List.length_take]; omega
    have hbefore : ∀ c ∈ (buf.take 16).take ((buf.take 16).findIdx (inRanges ranges)),
        inRanges ranges c = false := by
      intro c hc
      obtain ⟨i, hi, rfl⟩ := List.mem_take_iff_getElem.mp hc
      exact List.not_of_lt_findIdx (Nat.lt_of_lt_of_le hi (Nat.min_le_left _ _))
    rw [findcharBlocks]
    by_cases hr : (buf.take 16).findIdx (inRanges ranges) = 16
    · rw [hr, List.take_of_length_le hblock.le] at hbefore
      have hnext := Skips.append hbefore (ih (buf.drop 16) (by rw [List.length_drop]; omega))
      rw [List.take_append_drop] at hnext
      simpa only [hr, ne_eq, not_true_eq_false, if_false] using hnext
    · have hlt : (buf.take 16).findIdx (inRanges ranges) < (buf.take 16).length :=
        Nat.lt_of_le_of_ne List.findIdx_le_length (by rw [hblock]; exact hr)
      have hat := List.findIdx_getElem (w := hlt)
      simp only [hr, ne_eq, not_false_eq_true, if_true]
      generalize (buf.take 16).findIdx (inRanges ranges) = r at *
      refine ⟨buf.take r, (List.take_append_drop r buf).symm, ?_, fun _ => ⟨buf[r], ?_, ?_⟩⟩
      · rwa [List.take_take, Nat.min_eq_left (by omega)] at hbefore
      · rw [List.head?_drop, List.getElem?_eq_getElem (by omega)]
        rfl
      · rwa [List.getElem_take] at hat

theorem findcharFast_skips (sse : Bool) (ranges : List UInt8) (buf : Bytes) :
    Skips (inRanges ranges) buf (findcharFast sse ranges buf) := by
  cases sse with
  | false => exact skips_self
  | true => exact findcharBlocks_skips ranges _ buf (by omega)

end

/-! ## The bytes that the search comes past -/

section

variable {c : UInt8}

theorem isTokenChar_of_not_inRanges (hc : inRanges tokenRanges c = false) :
    isTokenChar c = true := by
  have htable : ∀ p ∈ tokenCharMap.zipIdx,
      inRanges tokenRanges (UInt8.ofNat p.2) = true ∨ (p.1 != 0) = true := by decide +kernel
  have hlength : tokenCharMap.length = 256 := by decide +kernel
  have hlt : c.toNat < tokenCharMap.length := by
    rw [hlength]
    exact c.toNat_lt
  have hat := htable (tokenCharMap[c.toNat], c.toNat)
    (List.mk_mem_zipIdx_iff_getElem?.mpr (List.getElem?_eq_getElem hlt))
  rw [UInt8.ofNat_toNat, hc] at hat
  rw [isTokenChar, List.getD_eq_getElem?_getD, List.getElem?_eq_getElem hlt]
  exact hat.resolve_left Bool.false_ne_true

theorem not_space_of_not_inRanges (hc : inRanges ranges2 c = false) :
    c ≠ 32 ∧ (!isPrintableAscii c && (c.toNat < 32 || c = 127)) = false := by
  simp [inRanges, ranges2, isPrintableAscii, UInt8.le_iff_toNat_le, ← UInt8.toNat_inj] at hc ⊢
  omega

theorem inRanges_ranges1 : inRanges ranges1 c = isCtl c := by
  rw [Bool.eq_iff_iff]
  simp [inRanges, ranges1, isCtl, UInt8.le_iff_toNat_le, ← UInt8.toNat_inj]
  omega

theorem isCtl_of_isPrintableAscii (hc : isPrintableAscii c = true) : isCtl c = false := by
  simp [isPrintableAscii, isCtl, ← UInt8.toNat_inj] at hc ⊢
  omega

end

/-! ## Tokens -/

section

variable {sse : Bool} {ranges : List UInt8} {stop bad : UInt8 → Bool}

/-- The loop without the search in front of it. -/
def scan (stop bad : UInt8 → Bool) : Parser UInt8 Unit := do
  skipWhile fun c => !stop c && !bad c
  let c ← deref
  ensure (stop c)

theorem scanLoop_eq (buf : Bytes) :
    (if buf = [] then .incomplete else scanLoop stop bad buf) = scan stop bad buf := by
  induction buf with
  | nil => rfl
  | cons c buf ih =>
    rw [if_neg (List.cons_ne_nil c buf), scanLoop]
    have hhere : (!stop c && !bad c) = false →
        scan stop bad (c :: buf) = ensure (stop c) (c :: buf) := by
      intro hc
      refine (bind_of_done (a := ()) (r := c :: buf) ?_).trans rfl
      rw [skipWhile, List.dropWhile_cons_of_neg (by simp [hc])]
    cases hstop : stop c with
    | true => rw [hhere (by simp [hstop]), hstop]; rfl
    | false =>
      cases hbad : bad c with
      | true => rw [hhere (by simp [hbad]), hstop]; rfl
      | false =>
        have hskip : scan stop bad (c :: buf) = scan stop bad buf :=
          bind_congr (skipWhile_append (x := [c]) (by simp [hstop, hbad]) buf)
        rw [hskip, ← ih]
        rfl

/-- The fast search makes no difference. -/
theorem scanToken_eq (hranges : ∀ c, inRanges ranges c = false → stop c = false ∧ bad c = false) :
    scanToken sse ranges stop bad = (do
      let token ← consumed (scan stop bad)
      pure token.1) := by
  have hscan : (fun buf =>
      let fast := findcharFast sse ranges buf
      if fast.2 = false ∧ fast.1 = [] then .incomplete else scanLoop stop bad fast.1) =
      scan stop bad := by
    funext buf
    obtain ⟨x, hx, hskip, hfound⟩ := findcharFast_skips sse ranges buf
    have hsame : scan stop bad buf = scan stop bad (findcharFast sse ranges buf).1 := by
      conv_lhs => rw [hx]
      refine bind_congr (skipWhile_append (fun c hc => ?_) _)
      obtain ⟨hstop, hbad⟩ := hranges c (hskip c hc)
      rw [hstop, hbad]
      rfl
    rw [hsame, ← scanLoop_eq]
    by_cases hempty : (findcharFast sse ranges buf).1 = []
    · cases hfast : (findcharFast sse ranges buf).2 with
      | false => simp [hempty, hfast]
      | true =>
        obtain ⟨c, hc, _⟩ := hfound hfast
        rw [hempty] at hc
        cases hc
    · simp [hempty]
  rw [scanToken, hscan]

end

section

variable {sse : Bool} {nextChar : UInt8}

theorem parseToken_eq (hnext : inRanges tokenRanges nextChar = true) :
    parseToken sse nextChar = (do
      let token ← consumed (scan (fun c => c = nextChar) fun c => !isTokenChar c)
      pure token.1) := by
  refine scanToken_eq fun c hc => ⟨?_, ?_⟩
  · rw [decide_eq_false_iff_not]
    rintro rfl
    rw [hnext] at hc
    cases hc
  · rw [isTokenChar_of_not_inRanges hc, Bool.not_true]

theorem advanceToken_eq : advanceToken sse = (do
    let token ← consumed (scan (fun c => c = 32)
      fun c => !isPrintableAscii c && (c.toNat < 32 || c = 127))
    pure token.1) := by
  refine scanToken_eq fun c hc => ?_
  obtain ⟨hspace, hctl⟩ := not_space_of_not_inRanges hc
  exact ⟨decide_eq_false hspace, hctl⟩

/-! ## To the end of the line -/

theorem unrolled_skips (k : Nat) (buf : Bytes) : Skips isCtl buf (unrolled k buf) := by
  induction buf generalizing k with
  | nil => exact skips_self
  | cons c buf ih =>
    have hskip : ∀ k', isCtl c = false → Skips isCtl (c :: buf) (unrolled k' buf) :=
      fun k' hc => Skips.append (x := [c]) (by simpa using hc) (ih k')
    rw [unrolled]
    split
    · exact skips_self
    · split
      · exact hskip _ (isCtl_of_isPrintableAscii ‹_›)
      · split
        · rename_i hctl
          exact ⟨[], rfl, by simp, fun _ => ⟨c, rfl, hctl⟩⟩
        · rename_i hctl
          exact hskip _ (by simpa using hctl)

/-- Nor do the turns of eight bytes. -/
theorem toCtl_eq : toCtl sse = skipWhile fun c => !isCtl c := by
  have hslow : (fun c => isPrintableAscii c || !isCtl c) = fun c => !isCtl c := by
    funext c
    cases hc : isPrintableAscii c with
    | false => rfl
    | true => rw [isCtl_of_isPrintableAscii hc, Bool.true_or, Bool.not_false]
  have hranges : inRanges ranges1 = isCtl := funext fun _ => inRanges_ranges1
  funext buf
  have hfast : ∀ fast : Bytes × Bool, Skips isCtl buf fast →
      (if fast.2 then .done () fast.1 else skipWhile (fun c => !isCtl c) fast.1) =
        skipWhile (fun c => !isCtl c) buf := by
    rintro ⟨rest, found⟩ ⟨x, rfl, hx, hfound⟩
    rw [skipWhile_append (fun c hc => by rw [hx c hc]; rfl)]
    cases found with
    | false => rfl
    | true =>
      obtain ⟨c, hc, hctl⟩ := hfound rfl
      cases rest with
      | nil => cases hc
      | cons d rest =>
        cases hc
        rw [skipWhile, List.dropWhile_cons_of_neg (by simp [hctl])]
        rfl
  unfold toCtl
  rw [hslow]
  refine hfast _ ?_
  cases sse with
  | false => exact unrolled_skips 0 buf
  | true =>
    rw [← hranges]
    exact findcharFast_skips true ranges1 buf

end

end Batt.PicoHttp
