/-
  What `http_encode_chunked` writes, read through `HttpChunkDecoder`.

  Encoder and decoder fit together when there is a byte to send and the source hands out no
  empty buffer: then every fetch returns the bytes that come next, and the end of the stream
  when there are none left, with the source of the decoder right behind the body. An empty
  stream is written as a last chunk with the line end of a chunk before it that was never
  written, and the decoder refuses it. At an empty buffer the encoder writes a last chunk and
  panics.
-/
import Batt.Http.Encoder
import Batt.Http.Payload

namespace Batt.Http

open Transducer

/-! ## Reading back -/

/-- What a fetch of a byte shows when `taken` bytes of `stream` have been consumed. -/
inductive NextRead {R : Type} (rest : R → Bytes) (stream tail : Bytes) (taken : Nat)
    (st' : HttpChunkDecoder R) : FetchResult → Prop where
  | bytes {buffers : List Bytes} (hne : buffers.flatten ≠ [])
      (hfirst : buffers.flatten <+: stream.drop taken) :
      NextRead rest stream tail taken st' (.ok buffers)
  | endOfStream (hall : taken = stream.length) (hrest : rest st'.src = tail) :
      NextRead rest stream tail taken st' (.error .kEndOfStream)

/-- After every run of `fetch_at_least(1)` and `consume` calls, another fetch returns, with the
    bytes of `stream` that come next or its end; and what was fetched can be consumed. -/
def ReadsBack {R : Type} [BufferSource R] (rest : R → Bytes) (stream tail : Bytes)
    (trailer : Bool) (src : R) : Prop :=
  ∀ (events : List Event) (st : HttpChunkDecoder R), Run (.new src trailer) events st →
    (∀ n result, .fetch n result ∈ events → n = 1) →
    (∃ fuel result st', st.fetchAtLeast fuel 1 = some (result, st') ∧
      NextRead rest stream tail (takenBy events) st' result) ∧
    ∀ count ≤ fetchedLeft events, (st.consume count).isSome

section Decode

variable {R : Type} [BufferSource R] {rest : R → Bytes} {held : R → Nat} {trailer : Bool}

/-! ## Streams with a byte -/

section Nonempty

variable {chunks : List Bytes} {tail before ahead : Bytes} {taken : Nat}
  {st : HttpChunkDecoder R} {d : ChunkedDecoder}

omit [BufferSource R] in
/-- Before the end of the body there is a byte that was not decoded. -/
theorem ahead_lt_rest {body payload : Bytes} (hends : Ends (atChunk trailer) body payload d)
    (h : CursorsAt rest held (atChunk trailer) (body ++ tail) st before ahead taken)
    (hdone : st.done = false) : ahead.length < (rest st.src).length := by
  have hrun := h.running hdone
  have hstop : (scanFrom (atChunk trailer) (body ++ tail)).mode ≠ .running := by
    rw [hends.scan_full]
    nofun
  have hlt := length_lt_of_stopped hrun hstop h.ahead_full (List.prefix_refl _)
  rw [h.source, List.length_append, List.length_append] at hlt
  omega

omit [BufferSource R] in
/-- A decoder without output has not decoded more than a header from its checkpoint on. -/
theorem ahead_le_header (hchunks : ∀ c ∈ chunks, c ≠ [] ∧ c.length < 2 ^ 64)
    (hne : chunks ≠ [])
    (h : CursorsAt rest held (atChunk trailer)
      (encoded true chunks ++ lastChunk trailer ++ tail) st before ahead taken)
    (hdone : st.done = false) (hsize : st.size = 0) : ahead.length ≤ 21 := by
  obtain ⟨d, hends⟩ := @ends_body trailer chunks hchunks hne
  have hstop : (scanFrom (atChunk trailer) (encoded true chunks ++ lastChunk trailer)).mode ≠
      .running := by
    rw [hends]
    nofun
  have hbody := List.prefix_append (encoded true chunks ++ lastChunk trailer) tail
  have hbefore : before <+: encoded true chunks ++ lastChunk trailer ++ tail :=
    (List.prefix_append before ahead).trans h.ahead_full
  have hlt := length_lt_of_stopped (h.before_running hdone) hstop hbefore hbody
  obtain ⟨z, hz, hpre, hnext⟩ := near_body hchunks hne
    (List.prefix_of_prefix_length_le hbefore hbody (Nat.le_of_lt hlt))
  by_contra hfar
  have hahead : before ++ z <+: before ++ ahead :=
    List.prefix_of_prefix_length_le (hpre.trans hbody) h.ahead_full
      (by rw [List.length_append, List.length_append]; omega)
  -- so `ahead` reaches the next output, but it has none
  have hsilent : (scanFrom (atChunk trailer) (before ++ ahead)).emitted.length =
      (scanFrom (atChunk trailer) before).emitted.length := by
    have havail := h.available
    have hcons := h.consumed
    rw [h.size_eq] at hsize
    rw [h.output, List.length_append]
    omega
  rcases hnext with hout | hend
  · have hle := (@emitted_mono (atChunk trailer) _ _ hahead).length_le
    rw [hsilent] at hle
    exact Nat.not_lt.mpr hle hout
  · have hsame := scanFrom_of_halted hahead (by rw [hend]; nofun)
    have hrun := h.running hdone
    rw [hsame, hend] at hrun
    cases hrun

/-- Another fetch of a byte, after any run. -/
theorem fetch_next (hsrc : Delivers R rest held) (hsteady : Steady R rest)
    (hchunks : ∀ c ∈ chunks, c ≠ [] ∧ c.length < 2 ^ 64) (hne : chunks ≠ []) {src : R}
    (hstream : rest src = encoded true chunks ++ lastChunk trailer ++ tail)
    {events : List Event} (hrun : Run (.new src trailer) events st) :
    ∃ fuel result st', st.fetchAtLeast fuel 1 = some (result, st') ∧
      NextRead rest chunks.flatten tail (takenBy events) st' result := by
  obtain ⟨d, hends⟩ := @ends_body trailer chunks hchunks hne
  have hemitted : (scanFrom (atChunk trailer)
      (encoded true chunks ++ lastChunk trailer ++ tail)).emitted = chunks.flatten := by
    rw [hends.scan_full]
  obtain ⟨⟨before, ahead, h⟩, hset, _⟩ := hrun.cursors hsrc hends hstream
  obtain ⟨result, st', heq, hdone⟩ := @fetchAtLeast_cursors R _ rest held _ _ _ _ _ _ _ hsrc
    (atChunk_ready trailer) hends.complete hemitted 1
    ((encoded true chunks ++ lastChunk trailer ++ tail).length + 1) h (.inl hset) (by omega)
  refine ⟨_, result, st', heq, ?_⟩
  obtain ⟨before', ahead', h'⟩ := hdone.cursors
  cases hdone.fetched with
  | ok hfirst hn _ =>
    exact .bytes (fun hnil => by rw [hnil] at hn; exact absurd hn (by decide)) hfirst
  | endOfStream hdone' hshort =>
    have htotal := h'.payload_eq hemitted hdone'
    exact .endOfStream (by omega) (h'.at_end hends hdone.settled hdone' (by omega))
  | failed hcursors hmore hsize hfail =>
    -- the source has the byte that is asked for
    obtain ⟨_, hshort⟩ := hsteady.failed hfail
    have hlt := ahead_lt_rest hends hcursors hmore
    rw [HttpChunkDecoder.srcMinCount, hcursors.size] at hshort
    omega
  | overflow hcursors hmore hsize hcount =>
    have hle := ahead_le_header hchunks hne hcursors hmore (by omega)
    rw [HttpChunkDecoder.srcMinCount, hcursors.size] at hcount
    omega

end Nonempty

/-! ## The empty stream -/

omit [BufferSource R] in
/-- A body that begins with a line end is refused at its first byte, in whatever buffer it is. -/
theorem decodeBuffers_cr {buffers : List Bytes} {more : Bytes} (hcr : buffers.flatten = cr :: more)
    {st : HttpChunkDecoder R} (hlatest : st.decoderLatest = atChunk trailer)
    (hconsumed : st.outputConsumed = 0) (n : Nat) :
    ∃ st' n', HttpChunkDecoder.decodeBuffers buffers st n =
      some (some .kInvalidArgument, st', n') := by
  induction buffers generalizing st n with
  | nil => cases hcr
  | cons b buffers ih =>
    unfold HttpChunkDecoder.decodeBuffers
    rw [hlatest]
    cases b with
    | nil =>
      have hdec : decodeChunked (atChunk trailer) [] st.decodedChunks =
          some ⟨.ok ⟨false, 0⟩, atChunk trailer, st.decodedChunks⟩ := rfl
      have hkeep : ¬ (st.outputConsumed ≠ 0 ∧ st.outputConsumed ≥ bufferSize st.decodedChunks) :=
        fun hskip => hskip.1 hconsumed
      simp only [hdec, HttpChunkDecoder.skipConsumed, if_neg hkeep]
      refine ih hcr ?_ ?_ n
      · rfl
      · exact hconsumed
    | cons c b =>
      obtain rfl : c = cr := (List.cons.inj hcr).1
      have hdec : decodeChunked (atChunk trailer) (cr :: b) st.decodedChunks =
          some ⟨.error .kInvalidArgument, atChunk trailer, st.decodedChunks⟩ := rfl
      rw [hdec]
      exact ⟨_, _, rfl⟩

theorem fetch_cr (hsrc : Delivers R rest held) (hsteady : Steady R rest) {src : R} {more : Bytes}
    (hcr : rest src = cr :: more) {fuel : Nat} {result : FetchResult} {st' : HttpChunkDecoder R}
    (h : (HttpChunkDecoder.new src trailer).fetchAtLeast fuel 1 = some (result, st')) :
    result = .error .kInvalidArgument := by
  cases fuel with
  | zero => cases h
  | succ fuel =>
    cases hfetch : BufferSource.fetchAtLeast src 1 with
    | mk answer src₁ =>
      cases answer with
      | error status =>
        obtain ⟨_, hshort⟩ := hsteady.failed hfetch
        rw [hcr, List.length_cons] at hshort
        omega
      | ok fetched =>
        have hpos := hsrc.fetched_enough hfetch
        have hpre := hsrc.fetched_first hfetch
        rw [hcr] at hpre
        obtain ⟨more', hfirst⟩ : ∃ more', fetched.flatten = cr :: more' := by
          cases hflat : fetched.flatten with
          | nil =>
            rw [hflat] at hpos
            exact absurd hpos (by decide)
          | cons b more' =>
            rw [hflat] at hpre
            exact ⟨more', by rw [(List.cons_prefix_cons.mp hpre).1]⟩
        obtain ⟨st₁, n, hdec⟩ := @decodeBuffers_cr R trailer fetched more' hfirst
          (HttpChunkDecoder.new src₁ trailer) rfl rfl 0
        have hturn : HttpChunkDecoder.decodeFetched
            { HttpChunkDecoder.new src trailer with src := src₁ } fetched =
              some (some .kInvalidArgument, st₁.onLoopExit n) := by
          unfold HttpChunkDecoder.decodeFetched
          erw [hdec]
        have hnone : ¬ 1 ≤ (HttpChunkDecoder.new src trailer).size := Nat.not_succ_le_zero 0
        have hgoes : ¬ (HttpChunkDecoder.new src trailer).done = true := Bool.false_ne_true
        have hfits : ¬ 2 ^ 63 ≤ (HttpChunkDecoder.new src trailer).srcMinCount 1 :=
          show ¬ 2 ^ 63 ≤ 1 by decide
        have hanswer : BufferSource.fetchAtLeast (HttpChunkDecoder.new src trailer).src
            ((HttpChunkDecoder.new src trailer).srcMinCount 1) = (.ok fetched, src₁) := hfetch
        rw [HttpChunkDecoder.fetchAtLeast, if_neg hnone, if_neg hgoes, if_neg hfits, hanswer] at h
        simp only [hturn] at h
        cases h
        rfl

end Decode

/-! ## The round trip -/

/-- The encoder writes a body for `src`; made available with anything behind it, it is read back
    as the bytes of `src`, and then their end. -/
def RoundTrip {S D R : Type} [BufferSource S] [AsyncWriteStream D] [BufferSource R]
    (rest : S → Bytes) (written : D → Bytes) (decRest : R → Bytes) (deliver : Bytes → R)
    (trailer : Bool) (src : S) (dst : D) (tail : Bytes) : Prop :=
  ∃ fuel src' dst' body, httpEncodeChunked fuel src dst trailer true = some (.ok, src', dst') ∧
    written dst' = written dst ++ body ∧
    ReadsBack decRest (rest src) tail trailer (deliver (body ++ tail))

/-- Nothing but the last chunk is written for a stream without bytes. -/
theorem body_of_empty {S D : Type} [BufferSource S] [AsyncWriteStream D] {rest : S → Bytes}
    {held : S → Nat} {written : D → Bytes} (hsrc : Delivers S rest held) (hsteady : Steady S rest)
    (hdst : Accepts D written) {trailer : Bool} {fuel : Nat} {src src' : S} {dst dst' : D}
    {body : Bytes} (hempty : rest src = [])
    (heq : httpEncodeChunked fuel src dst trailer true = some (.ok, src', dst'))
    (hout : written dst' = written dst ++ body) : body = lastChunk trailer := by
  cases hfetch : BufferSource.fetchAtLeast src 1 with
  | mk answer src₁ =>
    cases answer with
    | ok buffers =>
      have hpos := hsrc.fetched_enough hfetch
      have hpre := hsrc.fetched_first hfetch
      rw [hempty, List.prefix_nil] at hpre
      rw [hpre] at hpos
      exact absurd hpos (by decide)
    | error status =>
      cases fuel with
      | zero => cases heq
      | succ fuel =>
        obtain ⟨_, dst₁, hend, hwritten⟩ :=
          httpEncodeChunked_atEnd hsteady hdst hfetch fuel dst trailer true
        rw [hend] at heq
        cases heq
        exact List.append_cancel_left (hout.symm.trans hwritten)

/-- **What is encoded is read back exactly when there is a byte and no buffer is empty.** For
    every source of the encoder, every destination that takes its writes and every way of
    delivering what was written to the decoder: the encoder writes a body, and the decoder reads
    from it the bytes that were encoded and then the end of the stream, if and only if there is
    at least one byte and the encoder is handed no empty buffer. -/
theorem reads_back_iff {S D R : Type} [BufferSource S] [AsyncWriteStream D] [BufferSource R]
    {rest : S → Bytes} {held : S → Nat} {written : D → Bytes} {decRest : R → Bytes}
    {decHeld : R → Nat} {deliver : Bytes → R} (hsrc : Delivers S rest held)
    (hsteady : Steady S rest) (hsized : Sized S) (hdst : Accepts D written)
    (hdec : Delivers R decRest decHeld) (hdecSteady : Steady R decRest)
    (hdeliver : ∀ bytes, decRest (deliver bytes) = bytes) (trailer : Bool) (src : S) (dst : D)
    (tail : Bytes) :
    RoundTrip rest written decRest deliver trailer src dst tail ↔
      rest src ≠ [] ∧ ¬ FindsEmpty src := by
  constructor
  · rintro ⟨fuel, src', dst', body, heq, hout, hreads⟩
    refine ⟨fun hempty => ?_, not_findsEmpty_of_encoded heq⟩
    have hlast := body_of_empty hsrc hsteady hdst hempty heq hout
    obtain ⟨⟨fuel', result, st', hfetch, hnext⟩, _⟩ := hreads [] _ .start nofun
    have hcr : decRest (deliver (body ++ tail)) =
        cr :: ((lf :: [48] ++ crlf ++ if trailer then crlf else []) ++ tail) := by
      rw [hdeliver, hlast]
      rfl
    have hinvalid := fetch_cr hdec hdecSteady hcr hfetch
    rw [hinvalid] at hnext
    cases hnext
  · rintro ⟨hbyte, hne⟩
    obtain ⟨fuel, chunks, src', dst', heq, hflat, hall, hout⟩ :=
      httpEncodeChunked_writes hsrc hsteady hsized hdst hne dst trailer true
    refine ⟨fuel, src', dst', _, heq, hout, fun events st hrun _ => ?_⟩
    have hsome : chunks ≠ [] := by
      rintro rfl
      exact hbyte hflat.symm
    have hstream := hdeliver (encoded true chunks ++ lastChunk trailer ++ tail)
    obtain ⟨d, hends⟩ := @ends_body trailer chunks hall hsome
    obtain ⟨⟨before, ahead, h⟩, _, hleft⟩ := hrun.cursors hdec hends hstream
    refine ⟨?_, fun count hcount => ?_⟩
    · rw [← hflat]
      exact fetch_next hdec hdecSteady hall hsome hstream hrun
    · obtain ⟨st', _, _, hconsume, _⟩ := h.consume hdec (Nat.le_trans hcount hleft)
      rw [hconsume]
      rfl

/-! ## A stream in buffers of one byte -/

structure ByteSource where
  bytes : Bytes
deriving Repr, DecidableEq

instance : BufferSource ByteSource where
  fetchAtLeast s n :=
    if n ≤ s.bytes.length then (.ok ((s.bytes.take n).map ([·])), s)
    else (.error .kEndOfStream, s)
  consume s n := ⟨s.bytes.drop n⟩

structure ByteSink where
  bytes : Bytes
deriving Repr, DecidableEq

instance : AsyncWriteStream ByteSink where
  awaitWrite dst buffers := (.ok (), ⟨dst.bytes ++ buffers.flatten⟩)

theorem byteSink_accepts : Accepts ByteSink ByteSink.bytes where
  write_ok _ _ := ⟨_, rfl, rfl⟩

theorem flatten_map_singleton (bytes : Bytes) : (bytes.map ([·])).flatten = bytes := by
  induction bytes with
  | nil => rfl
  | cons b bytes ih => rw [List.map_cons, List.flatten_cons, ih, List.singleton_append]

theorem byteSource_ok {s s' : ByteSource} {n : Nat} {buffers : List Bytes}
    (h : BufferSource.fetchAtLeast s n = (.ok buffers, s')) :
    s' = s ∧ n ≤ s.bytes.length ∧ buffers = (s.bytes.take n).map ([·]) := by
  simp only [BufferSource.fetchAtLeast] at h
  split at h
  · next hle =>
    cases h
    exact ⟨rfl, hle, rfl⟩
  · cases h

theorem byteSource_error {s s' : ByteSource} {n : Nat} {status : StatusCode}
    (h : BufferSource.fetchAtLeast s n = (.error status, s')) :
    s' = s ∧ status = .kEndOfStream ∧ s.bytes.length < n := by
  simp only [BufferSource.fetchAtLeast] at h
  split at h
  · cases h
  · next hle =>
    cases h
    exact ⟨rfl, rfl, Nat.lt_of_not_le hle⟩

theorem byteSource_delivers :
    Delivers ByteSource ByteSource.bytes fun s => s.bytes.length where
  fetched_first h := by
    obtain ⟨_, _, rfl⟩ := byteSource_ok h
    rw [flatten_map_singleton]
    exact List.take_prefix _ _
  fetched_enough h := by
    obtain ⟨_, hle, rfl⟩ := byteSource_ok h
    rw [flatten_map_singleton, List.length_take, Nat.min_eq_left hle]
  fetched_held h := by
    obtain ⟨rfl, _, rfl⟩ := byteSource_ok h
    rw [flatten_map_singleton]
    exact List.length_take_le' _ _
  failed_held h := by
    obtain ⟨rfl, _⟩ := byteSource_error h
    exact Nat.le_refl _
  fetch_rest s n := by
    simp only [BufferSource.fetchAtLeast]
    split <;> rfl
  consume_rest _ := rfl
  consume_held _ := Nat.le_of_eq List.length_drop.symm

theorem byteSource_steady : Steady ByteSource ByteSource.bytes where
  failed h := (byteSource_error h).2

theorem byteSource_sized : Sized ByteSource where
  size_lt h b hb := by
    obtain ⟨_, _, rfl⟩ := byteSource_ok h
    obtain ⟨c, _, rfl⟩ := List.mem_map.mp hb
    exact Nat.one_lt_two_pow (by decide)

theorem reads_back_iff_twoBytes :
    RoundTrip ByteSource.bytes ByteSink.bytes ByteSource.bytes ByteSource.mk true
        (ByteSource.mk [65, 66]) (ByteSink.mk []) [67] ↔
      [65, 66] ≠ ([] : Bytes) ∧ ¬ FindsEmpty (ByteSource.mk [65, 66]) :=
  reads_back_iff byteSource_delivers byteSource_steady byteSource_sized byteSink_accepts
    byteSource_delivers byteSource_steady (fun _ => rfl) true (ByteSource.mk [65, 66])
    (ByteSink.mk []) [67]

/-- **An empty stream is not read back.** The encoder writes CRLF "0" CRLF for it, and the first
    fetch of the decoder fails with `kInvalidArgument` where the end of the stream is due. -/
theorem empty_stream_refused :
    httpEncodeChunked 1 (ByteSource.mk []) (ByteSink.mk []) false true =
        some (.ok, ByteSource.mk [], ByteSink.mk [13, 10, 48, 13, 10]) ∧
      ((HttpChunkDecoder.new (ByteSource.mk [13, 10, 48, 13, 10]) false).fetchAtLeast 2 1).map
        Prod.fst = some (.error .kInvalidArgument) ∧
      ¬ ReadsBack ByteSource.bytes [] [] false (ByteSource.mk [13, 10, 48, 13, 10]) := by
  refine ⟨by decide, by decide, fun hreads => ?_⟩
  obtain ⟨⟨fuel, result, st', hfetch, hnext⟩, _⟩ := hreads [] _ .start nofun
  have hinvalid := fetch_cr byteSource_delivers byteSource_steady rfl hfetch
  rw [hinvalid] at hnext
  cases hnext

end Batt.Http
