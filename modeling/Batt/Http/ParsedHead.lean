/-
  `read_next_response` with the parser it calls, `pico_http::Response::parse`.

  An answer of the parser on some of the bytes is its answer on all that follow
  (`picoParse_append`). So what the reader returns does not depend on how the bytes arrive: it is
  what the parser says of the whole stream, and an error means that no head can come any more that
  has room in the buffer (`read_next_response_reads_heads`).
-/
import Batt.Http.NextResponse
import Batt.PicoHttp.Messages

namespace Batt.Http

open Incremental

/-! ## The parser -/

/-- The response that the parser makes, with the headers as pairs. -/
def Message.of (response : PicoHttp.Response) : Message where
  majorVersion := response.majorVersion
  minorVersion := response.minorVersion
  status := response.status
  message := response.message
  headers := response.headers.map fun hdr => (hdr.name, hdr.value)

/-- `response.parse(buffers.front())`. Where the parser reads behind the end of the buffer there is
    no answer; that does not happen with a buffer that an `int` can measure. -/
def picoParse (sse : Bool) (buf : Bytes) : ParseResult :=
  match PicoHttp.Response.parse sse buf 0 with
  | some (n, some response) =>
    if n = PicoHttp.kParseIncomplete then .incomplete
    else if n = PicoHttp.kParseFailed then .failed
    else .ok n.toNat (Message.of response)
  | some (n, none) => if n = PicoHttp.kParseIncomplete then .incomplete else .failed
  | none => .failed

section

variable {sse : Bool} {buf : Bytes}

theorem picoParse_nil : picoParse sse [] = .incomplete := rfl

/-- **An answer is the answer on all that follows.** -/
theorem picoParse_append (hint : buf.length < 2 ^ 31) (h : picoParse sse buf ≠ .incomplete)
    (more : Bytes) : picoParse sse (buf ++ more) = picoParse sse buf := by
  have hsome : (PicoHttp.Response.parse sse buf 0).isSome = true :=
    PicoHttp.answer_isSome (PicoHttp.within_parseResponseImpl hint) (Nat.zero_le _)
  obtain ⟨⟨n, response⟩, hparse⟩ := Option.isSome_iff_exists.mp hsome
  by_cases hn : n = PicoHttp.kParseIncomplete
  · refine absurd ?_ h
    rw [picoParse, hparse]
    cases response with
    | some response => exact if_pos hn
    | none => exact if_pos hn
  · have hmore : PicoHttp.Response.parse sse (buf ++ more) 0 = some (n, response) :=
      PicoHttp.answer_stands (PicoHttp.within_parseResponseImpl hint).toStable more hparse hn
    rw [picoParse, picoParse, hparse, hmore]

theorem picoParse_take {k : Nat} {out : ParseResult} (h : picoParse sse (buf.take k) = out)
    (hout : out ≠ .incomplete) (hk : k < 2 ^ 31) : picoParse sse buf = out := by
  have hall := picoParse_append (by rw [List.length_take]; omega) (h.symm ▸ hout) (buf.drop k)
  rwa [List.take_append_drop, h] at hall

/-- A head is among the bytes it was read of, and an `int` has its length. -/
theorem le_of_picoParse {n : Nat} {m : Message} (h : picoParse sse buf = .ok n m) :
    n ≤ buf.length ∧ n < 2 ^ 31 := by
  have hint : ∀ k : Nat, PicoHttp.toInt k ≤ k ∧ PicoHttp.toInt k < 2 ^ 31 := fun k => by
    rw [PicoHttp.toInt, BitVec.toInt_eq_toNat_cond, BitVec.toNat_ofNat]
    split <;> omega
  unfold picoParse PicoHttp.Response.parse at h
  cases hout : (do PicoHttp.isComplete 0; PicoHttp.parseResponseImpl sse : Parser _ _) buf with
  | done response rest =>
    obtain ⟨hle, hlt⟩ := hint (buf.length - rest.length)
    rw [hout] at h
    simp only [PicoHttp.answer] at h
    split_ifs at h
    cases h
    omega
  | incomplete | failed | overrun =>
    rw [hout] at h
    cases h

/-- **A head that is read alone is read whatever is behind it, and its beginnings are
    incomplete.** -/
theorem prefixMonotone_picoParse (sse : Bool) : NextResponse.PrefixMonotone (picoParse sse) := by
  rintro r ⟨_, hhead⟩
  obtain ⟨_, hint⟩ := le_of_picoParse hhead
  refine ⟨?_, fun more => ?_⟩
  · rintro p ⟨more, hmore⟩ hne
    by_contra hnot
    have hlen := congrArg List.length hmore
    rw [List.length_append] at hlen
    have hall := picoParse_append (by omega) hnot more
    rw [hmore, hhead] at hall
    obtain ⟨hle, _⟩ := le_of_picoParse hall.symm
    exact hne (List.IsPrefix.eq_of_length ⟨more, hmore⟩ (by omega))
  · rw [picoParse_append hint (by rw [hhead]; exact fun h => by cases h), hhead]

end

theorem prefixMonotone_picoParse_noContent :
    (∀ p, p <+: PicoHttp.noContent → p ≠ PicoHttp.noContent → picoParse true p = .incomplete) ∧
      ∀ more, picoParse true (PicoHttp.noContent ++ more) =
        .ok 16 (Message.of ⟨1, 0, 204, [], []⟩) := by
  have hparses := prefixMonotone_picoParse true
    { head := PicoHttp.noContent, message := Message.of ⟨1, 0, 204, [], []⟩, body := [] }
    ⟨by decide, by decide +kernel⟩
  exact ⟨hparses.partly, hparses.whole⟩

namespace NextResponse

open Interleave StreamBuffer

/-! ## What the reader returns -/

/-- What the reader has returned, against what the parser says of the stream. -/
structure ReadsHeads (sse : Bool) (capacity : Nat) (c : Conf Shared Party) : Prop where
  /-- A head that has room in the buffer is returned as soon as it is there. -/
  complete : ∀ k ≤ capacity, ∀ n m, 0 < n → picoParse sse ((stream c.shared).take k) = .ok n m →
    (result c = none ∨ result c = some (.ok (n, m))) ∧ (result c = none → GoesOn (picoParse sse) c)
  /-- What is returned is what the parser says of the whole stream. -/
  sound : ∀ n m, result c = some (.ok (n, m)) → n ≤ (stream c.shared).length ∧
    ∀ more, picoParse sse (stream c.shared ++ more) = .ok n m
  /-- It gives up only where no head can come that has room in the buffer. -/
  gaveUp : ∀ code, result c = some (.error code) →
    ∀ more, (c.shared.commitPos.closed = true → more = []) →
      ∀ k ≤ capacity, ∀ n m, picoParse sse ((stream c.shared ++ more).take k) ≠ .ok n m

section

variable {sse : Bool} {c₀ sh : Shared} {f l : Local} {r : Reader} {n k : Nat} {m : Message}

theorem length_stream_le (h : Reading (picoParse sse) c₀ sh f l r) :
    (stream sh).length ≤ c₀.capacity := by
  have hlen := length_stream h.inv.stream
  have hlap := h.inv.stream.lap
  have hcap := h.inv.fixed
  omega

/-- Where it asks for a byte that is not there, all there is is incomplete. -/
theorem Asks.incomplete {bytes : Bytes} (h : Asks (picoParse sse) bytes n)
    (hlt : bytes.length < n) : picoParse sse bytes = .incomplete := by
  have hmost := h.most
  rcases h.waits with h1 | h1 | h1
  · rw [List.eq_nil_of_length_eq_zero (show bytes.length = 0 by omega)]
    exact picoParse_nil
  · omega
  · rwa [List.take_of_length_le (by omega)] at h1

/-- **A return with an error.** -/
theorem gaveUp_of_error (h : Reading (picoParse sse) c₀ sh f l r) (hint : c₀.capacity < 2 ^ 31)
    {code : StatusCode} (hret : r.returned = some (.error code)) {more : Bytes}
    (hmore : sh.commitPos.closed = true → more = []) (hk : k ≤ c₀.capacity) :
    picoParse sse ((stream sh ++ more).take k) ≠ .ok n m := by
  intro hok
  have hle := length_stream_le h
  have hcap := h.inv.fixed
  have hmost := h.asks.most
  have hreturns := h.returns
  rw [hret] at hreturns
  have hwhole := picoParse_take hok (fun h => by cases h) (by omega)
  -- an error that is not the parser's is returned where all there is is incomplete
  have hall : (stream sh).length < r.minToFetch → (stream sh ++ more).take k =
      (stream sh).take k → False := by
    intro hlt htake
    rw [htake] at hok
    have hstream := picoParse_take hok (fun h => by cases h) (by omega)
    rw [h.asks.incomplete hlt] at hstream
    cases hstream
  rcases hreturns with hlarge | ⟨hclosed, hshort⟩ | ⟨j, hj, hfailed⟩
  · exact hall (by omega) (List.take_append_of_le_length (by omega))
  · exact hall hshort (by rw [hmore hclosed, List.append_nil])
  · have htake : (stream sh ++ more).take j = (stream sh).take j :=
      List.take_append_of_le_length hj
    rw [← htake] at hfailed
    rw [picoParse_take hfailed (fun h => by cases h) (by omega)] at hwhole
    cases hwhole

end

/-- **What the reader returns is what the parser says of the stream**, whatever way its bytes
    arrive. -/
theorem read_next_response_reads_heads (sse : Bool) {capacity : Nat} (hint : capacity < 2 ^ 31)
    {c₀ c : Conf Shared Party} (h₀ : Start capacity c₀) {sched : List (Nat × Act)}
    (hr : (machine (picoParse sse)).runWhere commitsThenCloses sched c₀ = some c) :
    ReadsHeads sse capacity c := by
  have hroom := h₀.room
  obtain ⟨rfl, hstart⟩ := invariant_start (picoParse sse) h₀
  obtain ⟨f, l, r, hlocals, hreading, _⟩ : Invariant (picoParse sse) c₀.shared
      ([] ++ (machine (picoParse sse)).log advances sched c₀) c :=
    (machine (picoParse sse)).logged_runWhere
      (fun _ _ _ _ _ hinv hp hf => invariant_step hroom hinv hp hf) hstart hr
  have hresult : result c = r.returned := by
    rw [result, hlocals]
    rfl
  have hle := length_stream_le hreading
  have hwhole : ∀ {k n m}, k ≤ c₀.shared.capacity →
      picoParse sse ((stream c.shared).take k) = .ok n m →
      picoParse sse (stream c.shared) = .ok n m :=
    fun hk hok => picoParse_take hok (fun h => by cases h) (by omega)
  have hreturned : ∀ {n m}, r.returned = some (.ok (n, m)) →
      picoParse sse (stream c.shared) = .ok n m := by
    intro n m hret
    have hreturns := hreading.returns
    rw [hret] at hreturns
    obtain ⟨k, hk, hok⟩ := hreturns
    exact hwhole (by omega) hok
  refine ⟨fun k hk n m hpos hok => ?_, fun n m hret => ?_, fun code hret more hmore k hk n m => ?_⟩
  · have hstream := hwhole hk hok
    rw [hresult]
    refine ⟨?_, fun hnone => goesOn_of_ready hlocals hreading hroom hnone (fun j n' m' hj => ?_)
      (.inr ⟨fun hnil => ?_, by rw [hstream]; exact fun h => by cases h⟩)⟩
    · cases hret : r.returned with
      | none => exact .inl rfl
      | some ret =>
        cases ret with
        | ok out =>
          obtain ⟨n', m'⟩ := out
          have hsame := hreturned hret
          rw [hstream] at hsame
          cases hsame
          exact .inr rfl
        | error code =>
          rw [← List.append_nil (stream c.shared)] at hok
          exact absurd hok (gaveUp_of_error hreading hint hret (fun _ => rfl) hk)
    · have hj' : picoParse sse ((stream c.shared).take (min j (stream c.shared).length)) =
          .ok n' m' := by
        rwa [← List.take_eq_take_min]
      have hsame := hwhole (by omega) hj'
      rw [hstream] at hsame
      cases hsame
      exact hpos
    · rw [hnil, picoParse_nil] at hstream
      cases hstream
  · have hstream := hreturned (hresult ▸ hret)
    refine ⟨(le_of_picoParse hstream).1, fun more => ?_⟩
    rw [picoParse_append (by omega) (by rw [hstream]; exact fun h => by cases h), hstream]
  · exact gaveUp_of_error hreading hint (hresult ▸ hret) hmore hk

/-- `HTTP/1.0 204` in pieces of ten bytes and of six, across the end of a ring of sixteen. -/
theorem read_next_response_reads_heads_pieceRun :
    ∃ c₀ c, Start 16 c₀ ∧
      (machine (picoParse true)).runWhere commitsThenCloses pieceRun c₀ = some c ∧
      result c = some (.ok (16, Message.of ⟨1, 0, 204, [], []⟩)) ∧ ReadsHeads true 16 c := by
  obtain ⟨c₀, c, hstart, _, hpiece, hresult⟩ :=
    @run_of_session (picoParse true) (some (.ok (16, Message.of ⟨1, 0, 204, [], []⟩)))
      (by decide +kernel)
  exact ⟨c₀, c, hstart, hpiece, hresult,
    read_next_response_reads_heads true (by decide) hstart hpiece⟩

end NextResponse

end Batt.Http
