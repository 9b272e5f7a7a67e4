/-
  Which failures `from_string` reports.

  It takes an extraction for a success where the stream is at its end, which is also where many
  failures leave it: the text is blank, or ends with a sign, or ends with a number that does not
  fit.
-/
import Batt.FromString.Model
import Batt.Http.Connection
import Batt.Url.Pieces

namespace Batt.FromString

open Delim

/-! ## The port of a URL -/

/-- The text of a port, up to the path. -/
def portText (url : List Char) : List Char := url.takeWhile (· ≠ '/')

theorem parseUrlPort_eq (uninit : Int) (url : List Char) (parse : Url.UrlParse) :
    ∃ tail : Url.Tail, Url.parseUrlPort uninit url parse =
      .ok (match fromString i64 uninit (portText url) with
        | none => .error .kInvalidArgument
        | some v => .ok (tail.onto { parse with port := some v })) := by
  have hcut : ∃ portStr more, url = portStr ++ more ∧ Free ['/'] portStr ∧
      (more = [] ∨ ∃ r, more = '/' :: r) := by
    rcases free_or_cut ['/'] url with hfree | ⟨portStr, c, r, rfl, hfree, hc⟩
    · exact ⟨url, [], (List.append_nil url).symm, hfree, .inl rfl⟩
    · obtain rfl : c = '/' := List.mem_singleton.mp hc
      exact ⟨portStr, _, rfl, hfree, .inr ⟨r, rfl⟩⟩
  obtain ⟨portStr, more, rfl, hfree, hmore⟩ := hcut
  obtain ⟨tail, htail, hrooted, rfl⟩ := Url.exists_rooted hmore
  have hport : portText (portStr ++ tail.text) = portStr := by
    have hhead : ∀ c ∈ tail.text.head?, decide (c ≠ '/') = false := by
      rcases hmore with h | ⟨r, h⟩
      · rw [h]
        exact fun c hc => by cases hc
      · rw [h]
        intro c hc
        cases hc
        rfl
    rw [portText, takeWhile_append_of_head hhead, List.takeWhile_eq_self_iff]
    exact fun c hc => decide_eq_true fun heq => hfree c hc (List.mem_singleton.mpr heq)
  refine ⟨tail, ?_⟩
  have htext : Url.parseUrlPort uninit (portStr ++ tail.text) parse =
      .ok (Url.finish uninit (some portStr) tail parse) :=
    Url.parseUrlPort_text hfree htail hrooted
  rw [Url.finish] at htext
  rw [hport]
  exact htext

theorem port_accepted_iff (uninit : Int) (url : List Char) (parse : Url.UrlParse) :
    (∀ parsed, Url.parseUrlPort uninit url parse = .ok (.ok parsed) →
        ∃ v, parsed.port = some v ∧ Denotes i64 (portText url) v) ↔
      ¬Exhausted i64 (portText url) := by
  obtain ⟨tail, heq⟩ := parseUrlPort_eq uninit url parse
  rw [← accepts_iff i64 uninit, heq]
  constructor
  · intro h v hv
    obtain ⟨v', hport, hdenotes⟩ := h (tail.onto { parse with port := some v }) (by rw [hv])
    obtain rfl : v = v' := Option.some.inj hport
    exact hdenotes
  · intro h parsed hparsed
    cases hv : fromString i64 uninit (portText url) with
    | none =>
      rw [hv] at hparsed
      cases hparsed
    | some v =>
      rw [hv] at hparsed
      cases hparsed
      exact ⟨v, rfl, h v hv⟩

/-! ## The length of a body -/

theorem fromString_nonneg {str : List Char} {v : Int} (h : fromString usize 0 str = some v) :
    0 ≤ v := by
  obtain ⟨_, rfl⟩ := fromString_eq_some.mp h
  have hnumber := fun negative text => (extractNumber_mem (T := usize) negative text).1
  unfold extract
  split
  · exact Int.le_refl _
  · exact hnumber _ _
  · exact hnumber _ _
  · exact hnumber _ _

theorem contentLength_accepted_iff (response : Http.Message) :
    (∀ str n, Http.findHeader response.headers (Http.ascii "Content-Length") = some str →
        (Http.ResponseInfo.new response).contentLength = some n → Denotes usize (chars str) n) ↔
      ∀ str, Http.findHeader response.headers (Http.ascii "Content-Length") = some str →
        ¬Exhausted usize (chars str) := by
  refine forall_congr' fun str => ?_
  rw [← accepts_iff usize 0, Http.ResponseInfo.new]
  constructor
  · intro h hfind v hv
    have hn := h v.toNat hfind (by rw [hfind, Option.bind_some, hv, Option.map_some])
    rwa [Int.toNat_of_nonneg (fromString_nonneg hv)] at hn
  · intro h n hfind hn
    rw [hfind, Option.bind_some] at hn
    obtain ⟨v, hv, rfl⟩ := Option.map_eq_some_iff.mp hn
    rw [Int.toNat_of_nonneg (fromString_nonneg hv)]
    exact h hfind v hv

/-- **`from_string` returns the value of exactly the texts that begin with a number that fits, a
    port is accepted only then and a Content-Length is accepted only then, exactly where the
    extraction does not come to the end of the text without such a number.** -/
theorem reports_iff (T : IntType) (uninit : Int) (s url : List Char) (parse : Url.UrlParse)
    (response : Http.Message) :
    ((∀ v, fromString T uninit s = some v ↔ Denotes T s v) ↔ ¬Exhausted T s) ∧
    ((∀ parsed, Url.parseUrlPort uninit url parse = .ok (.ok parsed) →
        ∃ v, parsed.port = some v ∧ Denotes i64 (portText url) v) ↔
      ¬Exhausted i64 (portText url)) ∧
    ((∀ str n, Http.findHeader response.headers (Http.ascii "Content-Length") = some str →
        (Http.ResponseInfo.new response).contentLength = some n → Denotes usize (chars str) n) ↔
      ∀ str, Http.findHeader response.headers (Http.ascii "Content-Length") = some str →
        ¬Exhausted usize (chars str)) :=
  ⟨fromString_iff T uninit s, port_accepted_iff uninit url parse,
    contentLength_accepted_iff response⟩

/-- A lone sign is returned as 0, as the port of a URL too, and a number that does not fit as the
    largest value. -/
theorem failures_accepted :
    fromString i64 7 "-".toList = some 0 ∧ ¬(∃ v, Denotes i64 "-".toList v) ∧
      Url.parseUrl 7 "http://h:-".toList =
        .ok (.ok { scheme := "http".toList, host := "h".toList, port := some 0 }) ∧
      fromString usize 7 "99999999999999999999".toList = some (2 ^ 64 - 1) ∧
      ¬∃ v, Denotes usize "99999999999999999999".toList v := by
  have hfailed : ∀ {T : IntType} {s : List Char}, (extract T 7 s).fail = true →
      ¬∃ v, Denotes T s v := by
    rintro T s hfail ⟨v, hv⟩
    have hok := ((succeeds_iff 7).mpr hv).1
    rw [hfail] at hok
    cases hok
  exact ⟨by decide, hfailed (by decide), rfl, by decide, hfailed (by decide)⟩

end Batt.FromString
