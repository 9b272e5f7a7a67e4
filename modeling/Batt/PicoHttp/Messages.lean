/-
  What `parse` says of a buffer.

  It never reads behind the end of a buffer that an `int` can measure, an answer other than
  kParseIncomplete stands whatever comes in (`parse_in_bounds_and_stands`), and the answers are the
  same with SSE4.2 and without (`same_with_sse`). On longer buffers the length of a token that is
  kept in an `int` may be negative.
-/
import Mathlib.Algebra.GroupWithZero.Nat
import Batt.PicoHttp.Tokens

namespace Batt.PicoHttp

open Incremental

section

variable {sse : Bool} {size k : Nat}

/-! ## The parsers, one by one -/

theorem within_expectCharNoCheck (ch : UInt8) : Within size (k + 1) (expectCharNoCheck ch) k :=
  Within.deref.bind fun _ => Within.advance.bind fun _ => Within.ensure _

theorem within_expectChar (ch : UInt8) : Within size k (expectChar ch) 0 :=
  Within.checkEof.bind fun _ => within_expectCharNoCheck ch

theorem within_crlf : Within size 1 (do advance; expectChar 10) 0 :=
  Within.advance.bind fun _ => within_expectChar 10

theorem within_parseInt (mul : Int) : Within size (k + 1) (parseInt mul) k :=
  Within.deref.bind fun _ => (Within.ensure _).bind fun _ => Within.advance.bind fun _ =>
    Within.pure _

theorem within_token (stop bad : UInt8 → Bool) : Within size k (do
    let token ← consumed (scan stop bad)
    pure token.1) 1 :=
  (((Within.skipWhile _).bind fun _ => Within.deref.bind fun _ => Within.ensure _).consumed).bind
    fun _ => Within.pure _

theorem within_parseToken {nextChar : UInt8} (hnext : inRanges tokenRanges nextChar = true) :
    Within size k (parseToken sse nextChar) 1 := by
  rw [parseToken_eq hnext]
  exact within_token _ _

theorem within_advanceToken : Within size k (advanceToken sse) 1 := by
  rw [advanceToken_eq]
  exact within_token _ _

theorem toInt_of_lt {n : Nat} (h : n < 2 ^ 31) : toInt n = n := by
  have hto : (BitVec.ofNat 32 n).toNat = n := by
    rw [BitVec.toNat_ofNat]
    omega
  rw [toInt, BitVec.toInt_eq_toNat_of_lt (by omega), hto]

theorem view_eq {start buf : Bytes} {n : Nat} (hn : n ≤ start.length) (hint : n < 2 ^ 31) :
    view start n buf = .done (start.take n) buf := by
  have hsize : (BitVec.ofInt 64 (toInt n)).toNat = n := by
    rw [toInt_of_lt hint, BitVec.ofInt_natCast, BitVec.toNat_ofNat]
    omega
  simp only [view, hsize, if_pos hn]

theorem stable_view (start : Bytes) (n : Nat) : Stable (view start n) where
  rest h := by
    simp only [view] at h
    split at h <;> cases h
    exact List.suffix_rfl
  done t h := by
    simp only [view] at h ⊢
    split at h <;> cases h
    rw [if_pos ‹_›]
  failed t h := by
    simp only [view] at h
    split at h <;> cases h

/-- The length of a token is that of its view where an `int` can hold it. -/
theorem within_getTokenToEol (hsize : size < 2 ^ 31) : Within size k (getTokenToEol sse) 0 := by
  have hline : Within size k (do skipWhile fun c => !isCtl c; foundCtl) 0 :=
    (Within.skipWhile _).bind fun _ => Within.deref.bind fun _ =>
      .ite (Within.advance.bind fun _ => (within_expectChar 10).bind fun _ => .pure 2)
        (.ite (Within.advance.bind fun _ => .pure 1) .fail)
  unfold getTokenToEol
  rw [toCtl_eq]
  refine ⟨hline.toStable.consumed.bind fun _ => stable_view _ _, fun hneed hle h => ?_,
    fun _ _ _ => Nat.zero_le _⟩
  rcases bind_eq_overrun.mp h with h | ⟨line, r, hread, h⟩
  · exact hline.consumed.safe hneed hle h
  · obtain ⟨_, hread⟩ := consumed_eq_done.mp hread
    rw [view_eq (Nat.sub_le _ _) (by rw [hread, List.length_take]; omega)] at h
    cases h

theorem within_parseHttpVersion : Within size k parseHttpVersion 1 :=
  (Within.atLeast 9).bind fun _ => (within_expectCharNoCheck 72).bind fun _ =>
    (within_expectCharNoCheck 84).bind fun _ => (within_expectCharNoCheck 84).bind fun _ =>
      (within_expectCharNoCheck 80).bind fun _ => (within_expectCharNoCheck 47).bind fun _ =>
        (within_expectCharNoCheck 49).bind fun _ => (within_expectCharNoCheck 46).bind fun _ =>
          within_parseInt 1

theorem within_skipSpaces : Within size (k + 1) skipSpaces 1 :=
  Within.advance.bind fun _ => Within.skipWhile _

/-- The fast search stops at a colon and at a space. -/
theorem colon_stops : inRanges tokenRanges 58 = true := by decide

theorem space_stops : inRanges tokenRanges 32 = true := by decide

theorem within_headerName (n : Nat) : Within size 1 (headerName sse n) 1 :=
  Within.deref.bind fun _ => .ite
    ((within_parseToken colon_stops).bind fun _ => (Within.ensure _).bind fun _ =>
      Within.advance.bind fun _ => (Within.skipWhile _).bind fun _ => Within.pure _)
    (Within.pure _)

theorem within_parseHeadersImpl (hsize : size < 2 ^ 31) :
    Within size 0 (parseHeadersImpl sse) 0 :=
  .loop (fun _ => Within.checkEof.bind fun _ => Within.deref.bind fun _ =>
    .ite (Within.advance.bind fun _ => (within_expectChar 10).bind fun _ => .pure _)
      (.ite (Within.advance.bind fun _ => .pure _)
        ((within_headerName _).bind fun _ =>
          (within_getTokenToEol hsize).bind fun _ => .pure _))) _

theorem within_parseRequestImpl (hsize : size < 2 ^ 31) :
    Within size 0 (parseRequestImpl sse) 0 :=
  (Within.checkEof.bind fun _ => Within.deref.bind fun _ =>
      .ite within_crlf (.ite .advance ((Within.pure ()).weaken le_rfl (Nat.zero_le _)))).bind
    fun _ => (within_parseToken space_stops).bind fun _ => within_skipSpaces.bind fun _ =>
      within_advanceToken.bind fun _ => within_skipSpaces.bind fun _ =>
        (Within.ensure _).bind fun _ => within_parseHttpVersion.bind fun _ =>
          (Within.deref.bind fun _ => .ite within_crlf (.ite .advance .fail)).bind fun _ =>
            (within_parseHeadersImpl hsize).bind fun _ => Within.pure _

theorem within_parseResponseImpl (hsize : size < 2 ^ 31) :
    Within size 0 (parseResponseImpl sse) 0 :=
  within_parseHttpVersion.bind fun _ => Within.deref.bind fun _ => (Within.ensure _).bind fun _ =>
    within_skipSpaces.bind fun _ => (Within.atLeast 4).bind fun _ =>
      ((within_parseInt _).bind fun _ => (within_parseInt _).bind fun _ =>
          (within_parseInt _).bind fun _ => Within.pure _).bind fun _ =>
        (within_getTokenToEol hsize).bind fun _ =>
          (Within.ite (.pure _) (.ite (.pure _) .fail)).bind fun _ =>
            (within_parseHeadersImpl hsize).bind fun _ => Within.pure _

/-! ## SSE4.2 -/

theorem parseHeadersImpl_sse : parseHeadersImpl sse = parseHeadersImpl false := by
  have hline : headerLine sse = headerLine false := by
    funext headers
    unfold headerLine headerName getTokenToEol
    rw [parseToken_eq colon_stops, parseToken_eq colon_stops, toCtl_eq, toCtl_eq]
  rw [parseHeadersImpl, parseHeadersImpl, hline]

/-- **The fast path is the plain one**: built with SSE4.2 or without, the parser gives the same
    answer on every input. -/
theorem same_with_sse (buf : Bytes) (lastLen : Nat) :
    Request.parse true buf lastLen = Request.parse false buf lastLen ∧
      Response.parse true buf lastLen = Response.parse false buf lastLen ∧
      parseHeaders true buf lastLen = parseHeaders false buf lastLen := by
  have hrequest : parseRequestImpl true = parseRequestImpl false := by
    unfold parseRequestImpl
    rw [parseToken_eq space_stops, parseToken_eq space_stops, advanceToken_eq, advanceToken_eq,
      parseHeadersImpl_sse]
  have hresponse : parseResponseImpl true = parseResponseImpl false := by
    unfold parseResponseImpl getTokenToEol
    rw [toCtl_eq, toCtl_eq, parseHeadersImpl_sse]
  refine ⟨?_, ?_, ?_⟩
  · rw [Request.parse, hrequest, Request.parse]
  · rw [Response.parse, hresponse, Response.parse]
  · rw [parseHeaders, parseHeadersImpl_sse, parseHeaders]

end

/-! ## What `parse` returns -/

section

variable {T : Type} {p : Parser UInt8 T} {buf : Bytes} {n : Int} {m : Option T}

theorem isComplete_zero (p : Parser UInt8 T) (buf : Bytes) :
    (isComplete 0 >>= fun _ => p) buf = p buf := rfl

theorem completeLoop_ne_overrun (retCnt : Nat) (buf : Bytes) :
    completeLoop retCnt buf ≠ .overrun := by
  fun_induction completeLoop retCnt buf with
  | case1 | case2 | case3 | case4 | case6 => exact fun h => by cases h
  | case5 _ _ _ _ _ ih | case7 _ _ _ _ ih | case8 _ _ _ _ _ ih => exact ih

/-- `is_complete` only says whether to go on. -/
theorem isComplete_cases {lastLen : Nat} (hlast : lastLen ≤ buf.length) :
    isComplete lastLen buf = .done () buf ∨ isComplete lastLen buf = .incomplete ∨
      isComplete lastLen buf = .failed := by
  rw [isComplete]
  split
  · exact .inl rfl
  · rw [if_neg (by omega)]
    split
    · exact .inl rfl
    · exact .inr (.inl rfl)
    · exact .inr (.inr rfl)
    · exact absurd ‹_› (completeLoop_ne_overrun _ _)

theorem answer_isSome {lastLen : Nat} (hp : Within buf.length 0 p 0)
    (hlast : lastLen ≤ buf.length) :
    (answer buf ((do isComplete lastLen; p : Parser UInt8 T) buf)).isSome = true := by
  rw [bind_apply, Parser.bind]
  rcases isComplete_cases hlast with h | h | h <;> rw [h]
  · show (answer buf (p buf)).isSome = true
    cases hout : p buf with
    | overrun => exact absurd hout (hp.safe (Nat.zero_le _) le_rfl)
    | done | incomplete | failed => rfl
  · rfl
  · rfl

/-- An answer other than kParseIncomplete stands, whatever comes in. -/
theorem answer_stands (hp : Stable p) (more : Bytes)
    (h : answer buf ((do isComplete 0; p : Parser UInt8 T) buf) = some (n, m))
    (hn : n ≠ kParseIncomplete) :
    answer (buf ++ more) ((do isComplete 0; p : Parser UInt8 T) (buf ++ more)) = some (n, m) := by
  rw [isComplete_zero] at h ⊢
  cases hout : p buf with
  | done t rest =>
    rw [hout] at h
    rw [hp.done more hout, ← h]
    simp only [answer, List.length_append, Nat.add_sub_add_right]
  | incomplete =>
    rw [hout] at h
    cases h
    exact absurd rfl hn
  | failed =>
    rw [hout] at h
    rw [hp.failed more hout, ← h]
    rfl
  | overrun =>
    rw [hout] at h
    cases h

end

/-- **The parser stays within a buffer that an `int` can measure**, and an answer other than
    kParseIncomplete stands whatever comes in. -/
theorem parse_in_bounds_and_stands (sse : Bool) (buf : Bytes) :
    (buf.length < 2 ^ 31 → ∀ lastLen ≤ buf.length,
      (Request.parse sse buf lastLen).isSome = true ∧
      (Response.parse sse buf lastLen).isSome = true ∧
      (parseHeaders sse buf lastLen).isSome = true) ∧
    ∀ (more : Bytes) (n : Int), n ≠ kParseIncomplete →
      (∀ m, Request.parse sse buf 0 = some (n, m) →
        Request.parse sse (buf ++ more) 0 = some (n, m)) ∧
      (∀ m, Response.parse sse buf 0 = some (n, m) →
        Response.parse sse (buf ++ more) 0 = some (n, m)) ∧
      ∀ m, parseHeaders sse buf 0 = some (n, m) →
        parseHeaders sse (buf ++ more) 0 = some (n, m) := by
  have hzero : 0 < 2 ^ 31 := by decide
  refine ⟨fun hint lastLen hlast => ⟨?_, ?_, ?_⟩, fun more n hn => ⟨?_, ?_, ?_⟩⟩
  · exact answer_isSome (within_parseRequestImpl hint) hlast
  · exact answer_isSome (within_parseResponseImpl hint) hlast
  · exact answer_isSome (within_parseHeadersImpl hint) hlast
  · exact fun m h => answer_stands (within_parseRequestImpl hzero).toStable more h hn
  · exact fun m h => answer_stands (within_parseResponseImpl hzero).toStable more h hn
  · exact fun m h => answer_stands (within_parseHeadersImpl hzero).toStable more h hn

/-- The head of a response without a body. -/
def noContent : Bytes := "HTTP/1.0 204\r\n\r\n".toList.map fun c => UInt8.ofNat c.toNat

theorem parse_in_bounds_and_stands_noContent :
    (∀ lastLen ≤ 16, (Response.parse true noContent lastLen).isSome = true) ∧
      ∀ more, Response.parse true (noContent ++ more) 0 = some (16, some ⟨1, 0, 204, [], []⟩) :=
  ⟨fun lastLen hlast =>
      ((parse_in_bounds_and_stands true noContent).1 (by decide) lastLen hlast).2.1,
    fun more => ((parse_in_bounds_and_stands true noContent).2 more 16 (by decide)).2.1 _
      (by decide +kernel)⟩

end Batt.PicoHttp
