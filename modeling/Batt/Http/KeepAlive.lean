/-
  Where the input buffer stands when `process_responses` goes on to the next response.

  What is left of a body is drained from the same source the application has read from. A body that
  is as long as its Content-Length is taken from the input buffer itself, and `take_n` counts down
  to its end: the drain stops right behind it, whatever was read before and however the bytes came
  in. Behind the head of a response that has a Content-Length but no body, such as one to HEAD, it
  takes as much of the next response. A chunked body goes through `HttpChunkDecoder`, which is told
  not to consume the trailer: it is done behind the line of the last chunk, and the trailer with its
  empty line is left in front of the next response.

  `Kept` is the rule for both: a property of a source that a fetch and the consumption of fetched
  bytes keep holds after the application has read and at the end of the drain.
-/
import Batt.Http.Connection
import Batt.Http.Payload
import Mathlib.Data.List.TakeWhile

namespace Batt.Http

open FromString (Field chars extract_field extractNumber fromString signText usize)

/-! ## The input buffer keeps its promise -/

variable {n fuel width : Nat} {reads : List (Nat × Nat)} {b b' : InputBuffer} {script : Script}
  {result : FetchResult}

namespace InputBuffer

/-- What can be consumed. -/
def held (b : InputBuffer) : Nat := min b.arrived (min b.rest.length b.capacity)

theorem getBuffers_flatten (b : InputBuffer) (n : Nat) (committed : Bytes) :
    (b.getBuffers n committed).flatten = committed := by
  unfold getBuffers
  simp only
  split <;> simp

theorem filled_le (b : InputBuffer) (n : Nat) : b.filled n ≤ min b.rest.length b.capacity :=
  Nat.min_le_left _ _

/-- A fetch gives all that has come in, or it is too much for the buffer or the stream. -/
theorem fetch_cases (b : InputBuffer) (n : Nat) :
    (∃ buffers b', BufferSource.fetchAtLeast b n = (.ok buffers, b') ∧ n ≤ b.filled n ∧
        buffers.flatten = b.rest.take (b.filled n) ∧
        b' = { b with arrived := b.filled n, plan := b.plan.tail }) ∨
      (b.capacity < n ∧ BufferSource.fetchAtLeast b n = (.error .kInvalidArgument, b)) ∨
      (b.filled n < n ∧ n ≤ b.capacity ∧ BufferSource.fetchAtLeast b n =
        (.error .kEndOfStream, { b with arrived := b.filled n, plan := b.plan.tail })) := by
  simp only [BufferSource.fetchAtLeast]
  by_cases hcap : b.capacity < n
  · rw [if_pos hcap]
    exact .inr (.inl ⟨hcap, rfl⟩)
  · rw [if_neg hcap]
    by_cases hshort : b.filled n < n
    · rw [if_pos hshort]
      exact .inr (.inr ⟨hshort, Nat.le_of_not_lt hcap, rfl⟩)
    · rw [if_neg hshort]
      exact .inl ⟨_, _, rfl, Nat.le_of_not_lt hshort, getBuffers_flatten b n _, rfl⟩

theorem consume_rest (b : InputBuffer) (n : Nat) :
    (BufferSource.consume b n).rest = b.rest.drop n := rfl

theorem delivers : Delivers InputBuffer InputBuffer.rest InputBuffer.held where
  fetched_first {b b' n buffers} h := by
    rcases b.fetch_cases n with ⟨_, _, heq, _, hflat, _⟩ | ⟨_, heq⟩ | ⟨_, _, heq⟩ <;>
      rw [heq] at h <;> cases h
    rw [hflat]
    exact List.take_prefix _ _
  fetched_enough {b b' n buffers} h := by
    have hle := b.filled_le n
    rcases b.fetch_cases n with ⟨_, _, heq, hn, hflat, _⟩ | ⟨_, heq⟩ | ⟨_, _, heq⟩ <;>
      rw [heq] at h <;> cases h
    rw [hflat, List.length_take]
    omega
  fetched_held {b b' n buffers} h := by
    have hle := b.filled_le n
    rcases b.fetch_cases n with ⟨_, _, heq, _, hflat, rfl⟩ | ⟨_, heq⟩ | ⟨_, _, heq⟩ <;>
      rw [heq] at h <;> cases h
    rw [hflat, List.length_take, held]
    simp only
    omega
  failed_held {b b' n status} h := by
    have hle := b.filled_le n
    rcases b.fetch_cases n with ⟨_, _, heq, _⟩ | ⟨_, heq⟩ | ⟨_, _, heq⟩ <;>
      rw [heq] at h <;> cases h
    · exact Nat.le_refl _
    · unfold held filled at *
      simp only
      omega
  fetch_rest b n := by
    rcases b.fetch_cases n with ⟨_, _, heq, _, _, rfl⟩ | ⟨_, heq⟩ | ⟨_, _, heq⟩ <;> rw [heq]
  consume_rest _ := rfl
  consume_held {b n} h := by
    unfold held at *
    simp only [BufferSource.consume, List.length_drop]
    omega

/-- The stream has ended where a fetch says so. -/
theorem rest_short (h : BufferSource.fetchAtLeast b n = (.error .kEndOfStream, b')) :
    b.rest.length < n := by
  rcases b.fetch_cases n with ⟨_, _, heq, _⟩ | ⟨_, heq⟩ | ⟨hshort, hcap, heq⟩ <;>
    rw [heq] at h <;> cases h
  unfold filled at hshort
  omega

end InputBuffer

/-! ## Reading and draining -/

section

variable {Src : Type} [DataSource Src] {P : Src → Prop} {src src' : Src}

/-- What a fetch and the consumption of fetched bytes keep. -/
structure Kept (P : Src → Prop) : Prop where
  fetch : ∀ {fuel n : Nat} {src src' : Src} {result : FetchResult}, P src →
    DataSource.fetchAtLeast fuel n src = some (result, src') → P src'
  consume : ∀ {fuel n count : Nat} {src src' src'' : Src} {buffers : List Bytes}, P src →
    DataSource.fetchAtLeast fuel n src = some (.ok buffers, src') → count ≤ bufferSize buffers →
    DataSource.consume count src' = some src'' → P src''

theorem Kept.readBy (hk : Kept P) (hP : P src) (h : readBy fuel reads src = some src') :
    P src' := by
  induction reads generalizing src with
  | nil =>
    cases h
    exact hP
  | cons call more ih =>
    obtain ⟨minCount, count⟩ := call
    unfold Http.readBy at h
    split at h
    · rename_i buffers src₁ hfetch
      obtain ⟨src₂, hconsume, hrest⟩ := Option.bind_eq_some_iff.mp h
      exact ih (hk.consume hP hfetch (Nat.min_le_right _ _) hconsume) hrest
    · rename_i status src₁ hfetch
      exact ih (hk.fetch hP hfetch) h
    · cases h

/-- A drain that succeeds has come to the end of the source, or the source has given nothing. -/
theorem Kept.consumeAll (hk : Kept P) {turns : Nat} (hP : P src)
    (h : consumeAll fuel turns src = some (.ok (), src')) :
    ∃ s, P s ∧ (DataSource.fetchAtLeast fuel 1 s = some (.error .kEndOfStream, src') ∨
      ∃ buffers, DataSource.fetchAtLeast fuel 1 s = some (.ok buffers, src') ∧
        bufferSize buffers = 0) := by
  induction turns generalizing src with
  | zero => cases h
  | succ turns ih =>
    unfold Http.consumeAll at h
    split at h
    · rename_i buffers src₁ hfetch
      split at h
      · rename_i hzero
        cases h
        exact ⟨src, hP, .inr ⟨buffers, hfetch, hzero⟩⟩
      · obtain ⟨src₂, hconsume, hrest⟩ := Option.bind_eq_some_iff.mp h
        exact ih (hk.consume hP hfetch (Nat.le_refl _) hconsume) hrest
    · rename_i status src₁ hfetch
      by_cases heos : status = .kEndOfStream
      · rw [if_pos heos] at h
        cases h
        rw [heos] at hfetch
        exact ⟨src, hP, .inl hfetch⟩
      · rw [if_neg heos] at h
        cases h
    · cases h

theorem Kept.serve (hk : Kept P) (hP : P src) (h : serve fuel reads src = some (.ok (), src')) :
    ∃ s, P s ∧ (DataSource.fetchAtLeast fuel 1 s = some (.error .kEndOfStream, src') ∨
      ∃ buffers, DataSource.fetchAtLeast fuel 1 s = some (.ok buffers, src') ∧
        bufferSize buffers = 0) := by
  obtain ⟨src₁, hread, hdrain⟩ := Option.bind_eq_some_iff.mp h
  exact hk.consumeAll (hk.readBy hP hread) hdrain

end

/-! ## `take_n` -/

theorem bufferSize_trimTo (limit : Nat) (buffers : List Bytes) :
    bufferSize (trimTo limit buffers) = min limit (bufferSize buffers) := by
  rw [trimTo, bufferSize_eq, bufferSize_eq, flatten_trimBack, List.length_take]

section

variable {Src : Type} [DataSource Src] {fuel n : Nat} {t t' : TakeNSource Src}

theorem takeN_fetch (h : DataSource.fetchAtLeast fuel n t = some (result, t')) :
    ∃ inner, DataSource.fetchAtLeast fuel n t.src = some (inner, t'.src) ∧ t'.limit = t.limit ∧
      ((∃ buffers, inner = .ok buffers ∧ result = .ok (trimTo t.limit buffers)) ∨
        (result = inner ∧ ∀ buffers, inner ≠ .ok buffers)) := by
  obtain ⟨⟨inner, src⟩, hinner, hr⟩ := Option.map_eq_some_iff.mp h
  cases inner with
  | ok buffers =>
    cases hr
    exact ⟨_, hinner, rfl, .inl ⟨buffers, rfl, rfl⟩⟩
  | error status =>
    cases hr
    exact ⟨_, hinner, rfl, .inr ⟨rfl, nofun⟩⟩
  | abort =>
    cases hr
    exact ⟨_, hinner, rfl, .inr ⟨rfl, nofun⟩⟩

theorem takeN_consume {count : Nat} (h : DataSource.consume count t = some t') :
    DataSource.consume (min count t.limit) t.src = some t'.src ∧
      t'.limit = t.limit - min count t.limit := by
  obtain ⟨src, hsrc, hr⟩ := Option.map_eq_some_iff.mp h
  cases hr
  exact ⟨hsrc, rfl⟩

end

/-! ## A body of a given length -/

theorem input_fetch (h : DataSource.fetchAtLeast fuel n b = some (result, b')) :
    b'.rest = b.rest ∧ (∀ buffers, result = .ok buffers → n ≤ bufferSize buffers) ∧
      (result = .error .kEndOfStream → b.rest.length < n) := by
  have hrest := InputBuffer.delivers.fetch_rest b n
  simp only [DataSource.fetchAtLeast] at h
  split at h
  · rename_i buffers b₁ hfetch
    cases h
    rw [hfetch] at hrest
    refine ⟨hrest, fun bs hbs => ?_, nofun⟩
    cases hbs
    rw [bufferSize_eq]
    exact InputBuffer.delivers.fetched_enough hfetch
  · rename_i status b₁ hfetch
    cases h
    rw [hfetch] at hrest
    refine ⟨hrest, nofun, fun heos => ?_⟩
    cases heos
    exact InputBuffer.rest_short hfetch

/-- `take_n` on the input buffer: of the `total` bytes it may give, the first have been consumed. -/
def TakenOf (full : Bytes) (total : Nat) (t : TakeNSource InputBuffer) : Prop :=
  t.limit ≤ total ∧ t.src.rest = full.drop (total - t.limit)

theorem kept_takenOf (full : Bytes) (total : Nat) : Kept (TakenOf full total) where
  fetch {fuel n t t' result} hP h := by
    obtain ⟨inner, hinner, hlimit, _⟩ := takeN_fetch h
    unfold TakenOf
    rw [hlimit, (input_fetch hinner).1]
    exact hP
  consume {fuel n count t t' t'' buffers} hP h hcount hconsume := by
    obtain ⟨inner, hinner, hlimit, hresult⟩ := takeN_fetch h
    obtain ⟨hsrc, hlimit'⟩ := takeN_consume hconsume
    have hle : count ≤ t.limit := by
      rcases hresult with ⟨bs, _, hbuffers⟩ | ⟨hbuffers, hno⟩
      · cases hbuffers
        rw [bufferSize_trimTo] at hcount
        omega
      · exact absurd hbuffers.symm (hno buffers)
    rw [hlimit, Nat.min_eq_left hle] at hsrc hlimit'
    obtain ⟨hP₁, hP₂⟩ := hP
    have hrest : t''.src.rest = t'.src.rest.drop count := by
      rw [← Option.some.inj hsrc]
      rfl
    refine ⟨by omega, ?_⟩
    rw [hrest, (input_fetch hinner).1, hP₂, List.drop_drop, hlimit']
    congr 1
    omega

/-- **`total` bytes are drained**, or all there are, whatever the application has read of them. -/
theorem serve_takeN {full : Bytes} {total : Nat} {t : TakeNSource InputBuffer} (hb : b.rest = full)
    (h : serve fuel reads (TakeNSource.mk total b) = some (.ok (), t)) :
    t.src.rest = full.drop total := by
  have hstart : TakenOf full total (TakeNSource.mk total b) := by
    refine ⟨Nat.le_refl _, ?_⟩
    rw [Nat.sub_self]
    exact hb
  obtain ⟨s, ⟨hle, hrest⟩, hend⟩ := (kept_takenOf full total).serve hstart h
  have hsame : t.src.rest = s.src.rest ∧ (s.limit = 0 ∨ s.src.rest = []) := by
    rcases hend with hfetch | ⟨buffers, hfetch, hzero⟩
    · obtain ⟨inner, hinner, _, hresult⟩ := takeN_fetch hfetch
      obtain ⟨hrest', _, hshort⟩ := input_fetch hinner
      rcases hresult with ⟨bs, _, hbuffers⟩ | ⟨hbuffers, _⟩
      · cases hbuffers
      · exact ⟨hrest', .inr (List.length_eq_zero_iff.mp (Nat.lt_one_iff.mp (hshort hbuffers.symm)))⟩
    · obtain ⟨inner, hinner, _, hresult⟩ := takeN_fetch hfetch
      obtain ⟨hrest', henough, _⟩ := input_fetch hinner
      rcases hresult with ⟨bs, hinner', hbuffers⟩ | ⟨hbuffers, hno⟩
      · cases hbuffers
        have := henough bs hinner'
        rw [bufferSize_trimTo] at hzero
        exact ⟨hrest', .inl (by omega)⟩
      · exact absurd hbuffers.symm (hno buffers)
  rw [hsame.1]
  rcases hsame.2 with hlimit | hnone
  · rw [hrest, hlimit, Nat.sub_zero]
  · have hall := List.drop_eq_nil_iff.mp (hrest.symm.trans hnone)
    rw [hnone, List.drop_eq_nil_of_le (by omega)]

/-! ## A chunked body -/

section

variable {body payload tail : Bytes} {d : ChunkedDecoder} {st st' : HttpChunkDecoder InputBuffer}

/-- The decoder is somewhere in the body, and the application has consumed `taken` bytes. -/
def Decoding (body tail : Bytes) (taken : Nat) (d : HttpChunkDecoder InputBuffer) : Prop :=
  ∃ before ahead, CursorsAt InputBuffer.rest InputBuffer.held (atChunk false) (body ++ tail) d before
    ahead taken ∧ d.Settled

theorem decoding_new (hb : b.rest = body ++ tail) :
    Decoding body tail 0 (HttpChunkDecoder.new b false) := by
  refine ⟨[], [], ?_, nofun⟩
  rw [← hb]
  exact .start b false

theorem decoding_fetch (hends : Ends (atChunk false) body payload d) {taken : Nat}
    (hP : Decoding body tail taken st)
    (h : st.fetchAtLeast fuel n = some (result, st')) :
    Decoding body tail taken st' ∧ Fetched InputBuffer.rest InputBuffer.held (atChunk false)
      (body ++ tail) payload taken n st' result := by
  obtain ⟨before, ahead, hcursors, hset⟩ := hP
  have hdone := hcursors.fetchDone InputBuffer.delivers (atChunk_ready false) hends.complete
    (congrArg _ (hends.scan_full tail)) hset h
  obtain ⟨before', ahead', hcursors'⟩ := hdone.cursors
  exact ⟨⟨before', ahead', hcursors', hdone.settled⟩, hdone.fetched⟩

theorem decoding_consume {taken count : Nat} (hP : Decoding body tail taken st)
    (h : st.consume count = some st') :
    Decoding body tail (taken + count) st' := by
  obtain ⟨before, ahead, hcursors, hset⟩ := hP
  obtain ⟨st'', before', ahead', heq, hcursors', hset', _⟩ :=
    hcursors.consume InputBuffer.delivers (hcursors.le_size_of_consume h)
  rw [h] at heq
  cases heq
  exact ⟨before', ahead', hcursors', hset'⟩

/-- The decoder reports the end of the stream where the source stands behind the body. -/
theorem decoding_end (hends : Ends (atChunk false) body payload d) {taken : Nat}
    (hP : Decoding body tail taken st)
    (h : st.fetchAtLeast fuel 1 = some (.error .kEndOfStream, st')) : st'.src.rest = tail := by
  obtain ⟨⟨before, ahead, hcursors, hset⟩, hfetched⟩ := decoding_fetch hends hP h
  generalize hresult : FetchResult.error .kEndOfStream = result at hfetched
  cases hfetched with
  | ok => cases hresult
  | endOfStream hdone hshort =>
    have hpayload := hcursors.payload_eq (congrArg _ (hends.scan_full tail)) hdone
    exact hcursors.at_end hends hset hdone (by simp only at hpayload; omega)
  | @failed _ _ _ status _ _ _ _ _ =>
    by_cases heos : status = .kEndOfStream
    · rw [if_pos heos] at hresult
      cases hresult
    · rw [if_neg heos] at hresult
      exact absurd (FetchResult.error.inj hresult).symm heos
  | overflow => cases hresult

theorem serve_chunks (hends : Ends (atChunk false) body payload d) (hb : b.rest = body ++ tail)
    (h : serve fuel reads (HttpChunkDecoder.new b false) = some (.ok (), st)) :
    st.src.rest = tail := by
  have hkept : Kept fun st : HttpChunkDecoder InputBuffer => ∃ taken, Decoding body tail taken st := by
    refine ⟨fun hP hfetch => ?_, fun hP hfetch _ hconsume => ?_⟩
    · obtain ⟨taken, hP⟩ := hP
      exact ⟨taken, (decoding_fetch hends hP hfetch).1⟩
    · obtain ⟨taken, hP⟩ := hP
      exact ⟨_, decoding_consume (decoding_fetch hends hP hfetch).1 hconsume⟩
  obtain ⟨s, ⟨taken, hP⟩, hend⟩ := hkept.serve ⟨0, decoding_new hb⟩ h
  rcases hend with hfetch | ⟨buffers, hfetch, hzero⟩
  · exact decoding_end hends hP hfetch
  · cases (decoding_fetch hends hP hfetch).2 with
    | ok _ hn _ =>
      rw [bufferSize_eq] at hzero
      omega

/-- The same under `take_n`, when it allows for the whole payload. -/
theorem serve_takeChunks (hends : Ends (atChunk false) body payload d)
    {t : TakeNSource (HttpChunkDecoder InputBuffer)} (hb : b.rest = body ++ tail)
    (h : serve fuel reads (TakeNSource.mk payload.length (HttpChunkDecoder.new b false)) =
      some (.ok (), t)) : t.src.src.rest = tail := by
  have hkept : Kept fun t : TakeNSource (HttpChunkDecoder InputBuffer) =>
      ∃ taken, Decoding body tail taken t.src ∧ t.limit + taken = payload.length := by
    refine ⟨fun hP hfetch => ?_, fun hP hfetch _ hconsume => ?_⟩
    · obtain ⟨taken, hP, htaken⟩ := hP
      obtain ⟨inner, hinner, hlimit, _⟩ := takeN_fetch hfetch
      exact ⟨taken, (decoding_fetch hends hP hinner).1, by omega⟩
    · obtain ⟨taken, hP, htaken⟩ := hP
      obtain ⟨inner, hinner, hlimit, _⟩ := takeN_fetch hfetch
      obtain ⟨hsrc, hlimit'⟩ := takeN_consume hconsume
      exact ⟨_, decoding_consume (decoding_fetch hends hP hinner).1 hsrc, by omega⟩
  obtain ⟨s, ⟨taken, hP, htaken⟩, hend⟩ := hkept.serve ⟨0, decoding_new hb, rfl⟩ h
  rcases hend with hfetch | ⟨buffers, hfetch, hzero⟩
  · obtain ⟨inner, hinner, _, hresult⟩ := takeN_fetch hfetch
    rcases hresult with ⟨bs, _, hbuffers⟩ | ⟨hbuffers, _⟩
    · cases hbuffers
    · rw [← hbuffers] at hinner
      exact decoding_end hends hP hinner
  · obtain ⟨inner, hinner, _, hresult⟩ := takeN_fetch hfetch
    rcases hresult with ⟨bs, rfl, hbuffers⟩ | ⟨hbuffers, hno⟩
    · cases hbuffers
      -- nothing is left of the limit, so nothing is left of the payload
      cases (decoding_fetch hends hP hinner).2 with
      | ok hfirst hn _ =>
        rw [bufferSize_trimTo, bufferSize_eq] at hzero
        have hle := hfirst.length_le
        rw [List.length_drop] at hle
        omega
    · exact absurd hbuffers.symm (hno buffers)

end

/-! ## Responses -/

/-- A response as the peer sends it. -/
structure Response where
  head : Bytes
  message : Message
  body : Bytes
deriving Repr, DecidableEq

def Response.wire (r : Response) : Bytes := r.head ++ r.body

/-- What the parser does with the head: there is more to come until it is there, and what is behind
    it does not matter. -/
structure Parses (parse : Bytes → ParseResult) (r : Response) : Prop where
  partly : ∀ p, p <+: r.head → p ≠ r.head → parse p = .incomplete
  whole : ∀ more, parse (r.head ++ more) = .ok r.head.length r.message

def toLower (b : UInt8) : UInt8 := if 65 ≤ b.toNat ∧ b.toNat ≤ 90 then b + 32 else b

/-- The values of the headers of a name, which may be written in capitals or not. -/
def valuesOf (m : Message) (name : Bytes) : List Bytes :=
  (m.headers.filter fun hdr => hdr.1.map toLower = name.map toLower).map Prod.snd

def Response.lengths (r : Response) : List Bytes := valuesOf r.message (ascii "Content-Length")

def Response.codings (r : Response) : List Bytes := valuesOf r.message (ascii "Transfer-Encoding")

structure Denotes (n : Nat) (value : Bytes) : Prop where
  nonempty : value ≠ []
  digits : ∀ c ∈ chars value, c.isDigit = true
  value : Nat.ofDigitChars 10 (chars value) 0 = n

def isChunked (coding : Bytes) : Prop := coding.map toLower = ascii "chunked"

/-- A response with no body (one to HEAD, say, has the headers of the body it does without), with a
    body of the length that it states, with a chunked body, or with a chunked body whose payload has
    the length that it states. -/
inductive Response.WellFormed (r : Response) : Prop where
  | noBody (n : Nat) (lengths : ∀ v ∈ r.lengths, Denotes n v)
      (codings : ∀ c ∈ r.codings, isChunked c) (body : r.body = [])
  | contentLength (stated : r.lengths ≠ []) (lengths : ∀ v ∈ r.lengths, Denotes r.body.length v)
      (codings : r.codings = [])
  | chunked (width : Nat) (payload : Bytes) (lengths : r.lengths = []) (coded : r.codings ≠ [])
      (codings : ∀ c ∈ r.codings, isChunked c) (body : ChunkedBody true width r.body payload)
  | both (width : Nat) (payload : Bytes) (stated : r.lengths ≠ [])
      (lengths : ∀ v ∈ r.lengths, Denotes payload.length v) (coded : r.codings ≠ [])
      (codings : ∀ c ∈ r.codings, isChunked c) (body : ChunkedBody true width r.body payload)

/-- The body is not sent in chunks, its length is a `usize`, and the length that is stated is that
    of the body; or there is no body, and nothing behind it. -/
def Response.FramedByLength (r : Response) (next : Bytes) : Prop :=
  r.codings = [] ∧ r.body.length < 2 ^ 64 ∧
    ((∀ v ∈ r.lengths, Denotes r.body.length v) ∨ r.body ++ next = [])

/-! ## What the code makes of the headers -/

theorem mem_valuesOf {m : Message} {name v : Bytes} (h : findHeader m.headers name = some v) :
    v ∈ valuesOf m name := by
  obtain ⟨hdr, hfind, rfl⟩ := Option.map_eq_some_iff.mp h
  have hname : hdr.1 = name := by simpa using List.find?_some hfind
  refine List.mem_map_of_mem (List.mem_filter.mpr ⟨List.mem_of_find?_eq_some hfind, ?_⟩)
  rw [hname]
  exact decide_eq_true rfl

theorem fromString_digits {v : Bytes} (h : Denotes n v) :
    (fromString usize 0 (chars v)).map Int.toNat = some (min n (2 ^ 64 - 1)) := by
  obtain ⟨hne, hdigits, rfl⟩ := h
  have hne : chars v ≠ [] := fun hnil => hne (List.map_eq_nil_iff.mp hnil)
  have hfield := extract_field (T := usize) (f := ⟨[], none, chars v, [],
    fun c hc => absurd hc List.not_mem_nil, hdigits, fun c hc => by cases hc⟩) 0 (.inr hne)
  simp only [Field.text, signText, List.nil_append, List.append_nil] at hfield
  have hmax : usize.max = 2 ^ 64 - 1 := rfl
  have hmin : usize.min = 0 := rfl
  have hconvert : usize.convert false (chars v) = Nat.ofDigitChars 10 (chars v) 0 := rfl
  rw [fromString, hfield]
  unfold extractNumber
  rw [List.takeWhile_eq_self_iff.mpr hdigits, List.dropWhile_eq_nil_iff.mpr hdigits]
  simp only [List.isEmpty_iff, hne, if_false, reduceCtorEq, decide_false, hconvert, hmax, hmin]
  generalize Nat.ofDigitChars 10 (chars v) 0 = n
  by_cases hlarge : (2 ^ 64 - 1 : Int) < n
  · rw [if_pos hlarge]
    exact congrArg some (show Int.toNat (2 ^ 64 - 1) = _ by omega)
  · rw [if_neg hlarge, if_neg (by omega : ¬(n : Int) < 0)]
    exact congrArg some (show Int.toNat n = _ by omega)

theorem contentLength_new {r : Response} {total : Nat} (h : ∀ v ∈ r.lengths, Denotes n v)
    (hinfo : (ResponseInfo.new r.message).contentLength = some total) :
    total = min n (2 ^ 64 - 1) := by
  obtain ⟨v, hfind, hv⟩ := Option.bind_eq_some_iff.mp hinfo
  rw [fromString_digits (h v (mem_valuesOf hfind))] at hv
  exact (Option.some.inj hv).symm

theorem codings_of_chunked {r : Response}
    (hinfo : (ResponseInfo.new r.message).chunkedEncoding = true) : r.codings ≠ [] := by
  simp only [ResponseInfo.new] at hinfo
  split at hinfo
  · rename_i v hfind
    exact List.ne_nil_of_mem (mem_valuesOf hfind)
  · cases hinfo

/-! ## A turn of the loop -/

section

variable {parse : Bytes → ParseResult} {r : Response} {next : Bytes} {input input' : InputBuffer}
  {fuel : Nat}

theorem readNextResponse_parses (hparse : Parses parse r) (hrest : input.rest = r.head ++ next)
    {length : Nat} {message : Message}
    (h : readNextResponse parse fuel n input = some (length, message, input')) :
    length = r.head.length ∧ message = r.message ∧ input'.rest = r.head ++ next := by
  induction fuel generalizing n input with
  | zero => cases h
  | succ fuel ih =>
    unfold readNextResponse at h
    split at h
    · rename_i first more input₁ hfetch
      have hrest₁ : input₁.rest = r.head ++ next := by
        have hsame := InputBuffer.delivers.fetch_rest input n
        rw [hfetch] at hsame
        exact hsame.trans hrest
      have hfirst : first <+: r.head ++ next := by
        have hall := InputBuffer.delivers.fetched_first hfetch
        rw [hrest, List.flatten_cons] at hall
        exact (List.prefix_append first _).trans hall
      rcases List.prefix_or_prefix_of_prefix hfirst (List.prefix_append r.head next) with
        hshort | ⟨behind, hwhole⟩
      · by_cases heq : first = r.head
        · have hparsed := hparse.whole []
          rw [List.append_nil] at hparsed
          rw [heq, hparsed] at h
          simp only at h
          split at h
          · cases h
            exact ⟨rfl, rfl, hrest₁⟩
          · cases h
        · rw [hparse.partly first hshort heq] at h
          exact ih hrest₁ h
      · rw [← hwhole, hparse.whole behind] at h
        simp only at h
        split at h
        · cases h
          exact ⟨rfl, rfl, hrest₁⟩
        · cases h
    · cases h

/-- The loop goes on only after a valid response that keeps the connection alive, with its body
    served from right behind the head. -/
theorem nextResponse_serves (hparse : Parses parse r) (hrest : input.rest = r.head ++ next)
    (h : nextResponse parse fuel script input = some input') :
    (ResponseInfo.new r.message).isValid = true ∧ (ResponseInfo.new r.message).keepAlive = true ∧
      ∃ b : InputBuffer, b.rest = next ∧
        (ResponseInfo.new r.message).serveData fuel script.reads b = some (.ok (), input') := by
  unfold nextResponse at h
  split at h
  · cases h
  · rename_i length message input₁ hread
    obtain ⟨rfl, rfl, hrest₁⟩ := readNextResponse_parses hparse hrest hread
    simp only at h
    split at h
    · rename_i hinfo
      simp only [Bool.and_eq_true] at hinfo
      refine ⟨hinfo.1.1, hinfo.2, BufferSource.consume input₁ r.head.length, ?_, ?_⟩
      · rw [InputBuffer.consume_rest, hrest₁, List.drop_left]
      · split at h
        · rename_i input₂ hserve
          cases h
          exact hserve
        · cases h
    · cases h

/-- After a response that is not sent in chunks as many bytes are gone as it states. -/
theorem nextResponse_length (hparse : Parses parse r) (hcodings : r.codings = [])
    (hrest : input.rest = r.wire ++ next) (h : nextResponse parse fuel script input = some input') :
    ∃ total, (ResponseInfo.new r.message).contentLength = some total ∧
      input'.rest = (r.body ++ next).drop total := by
  rw [Response.wire, List.append_assoc] at hrest
  obtain ⟨hvalid, halive, b, hb, hserve⟩ := nextResponse_serves hparse hrest h
  have hchunked : (ResponseInfo.new r.message).chunkedEncoding = false := by
    by_contra hne
    exact codings_of_chunked (by simpa using hne) hcodings
  simp only [ResponseInfo.isValid, hchunked, halive, Bool.not_true, Bool.or_false,
    Option.isSome_iff_exists] at hvalid
  obtain ⟨total, htotal⟩ := hvalid
  simp only [ResponseInfo.serveData, htotal, hchunked] at hserve
  obtain ⟨⟨status, t⟩, hserved, heq⟩ := Option.map_eq_some_iff.mp hserve
  cases heq
  exact ⟨total, htotal, serve_takeN hb hserved⟩

/-- **After a body of a stated length the next response is in front.** -/
theorem nextResponse_framed (hparse : Parses parse r) (hlength : r.FramedByLength next)
    (hrest : input.rest = r.wire ++ next) (h : nextResponse parse fuel script input = some input') :
    input'.rest = next := by
  obtain ⟨hcodings, hlt, hstated⟩ := hlength
  obtain ⟨total, htotal, hdrop⟩ := nextResponse_length hparse hcodings hrest h
  rcases hstated with hlengths | hnone
  · have hlen := contentLength_new hlengths htotal
    have htotal' : total = r.body.length := by omega
    rw [hdrop, htotal', List.drop_left]
  · rw [hdrop, hnone, (List.append_eq_nil_iff.mp hnone).2, List.drop_nil]

/-- **Without a body there are bytes missing of the next response**, as many as are stated. -/
theorem nextResponse_noBody (hparse : Parses parse r) (hcodings : r.codings = [])
    (hbody : r.body = []) (hlengths : ∀ v ∈ r.lengths, Denotes n v)
    (hrest : input.rest = r.wire ++ next) (h : nextResponse parse fuel script input = some input')
    (hframed : input'.rest = next) :
    r.FramedByLength next := by
  obtain ⟨total, htotal, hdrop⟩ := nextResponse_length hparse hcodings hrest h
  have hlen := contentLength_new hlengths htotal
  refine ⟨hcodings, by rw [hbody]; exact Nat.two_pow_pos 64, ?_⟩
  rw [hframed, hbody, List.nil_append] at hdrop
  by_cases hnext : next = []
  · exact .inr (by rw [hbody, hnext, List.nil_append])
  · have hsame := congrArg List.length hdrop
    have hpos := List.length_pos_iff.mpr hnext
    rw [List.length_drop] at hsame
    have hzero : n = 0 := by omega
    rw [hzero] at hlengths
    exact .inl (by rw [hbody]; exact hlengths)

end

/-! ## After a chunked response -/

theorem TrailerPart.length_pos {bytes : Bytes} (h : TrailerPart bytes) : 0 < bytes.length := by
  cases h <;> simp [crlf]

/-- A chunked body with its trailer is one without, and the trailer behind it. -/
theorem ChunkedBody.split {body payload : Bytes} (h : ChunkedBody true width body payload) :
    ∃ front trailer, body = front ++ trailer ∧ ChunkedBody false width front payload ∧
      TrailerPart trailer := by
  induction h with
  | @last digits ext bytes hsize hext htrailer =>
    refine ⟨digits ++ (ext ++ crlf), bytes, rfl, ?_, htrailer⟩
    have hlast := @ChunkedBody.last false digits ext [] hsize hext rfl
    rwa [List.append_nil] at hlast
  | @chunk width digits ext data body payload hsize hext hdata hbody ih =>
    obtain ⟨front, trailer, rfl, hfront, htrailer⟩ := ih
    refine ⟨digits ++ (ext ++ crlf) ++ data ++ crlf ++ front, trailer, ?_,
      .chunk hsize hext hdata hfront, htrailer⟩
    rw [List.append_assoc _ front trailer]

theorem ChunkedBody.payload_lt {trailer : Bool} {body payload : Bytes}
    (h : ChunkedBody trailer width body payload) : payload.length < body.length := by
  induction h with
  | last hsize hext htrailer =>
    simp only [crlf, List.length_append, List.length_cons, List.length_nil]
    omega
  | chunk hsize hext hdata hbody ih =>
    simp only [List.length_append]
    omega

section

variable {parse : Bytes → ParseResult} {r : Response} {next : Bytes} {input input' : InputBuffer}
  {fuel : Nat}

/-- **After a chunked body there are bytes of it in front of the next response**: the trailer, or
    more where the name of its header is not written as the code expects. -/
theorem nextResponse_chunked {payload : Bytes} (hparse : Parses parse r)
    (hlengths : ∀ v ∈ r.lengths, Denotes payload.length v)
    (hbody : ChunkedBody true width r.body payload) (hwidth : width ≤ 16)
    (hlt : payload.length < 2 ^ 64) (hrest : input.rest = r.wire ++ next)
    (h : nextResponse parse fuel script input = some input') :
    next.length < input'.rest.length := by
  rw [Response.wire, List.append_assoc] at hrest
  obtain ⟨hvalid, halive, b, hb, hserve⟩ := nextResponse_serves hparse hrest h
  obtain ⟨front, trailer, hsplit, hfront, htrailer⟩ := hbody.split
  obtain ⟨d, hends⟩ := hfront.ends hwidth
  have hpos := htrailer.length_pos
  have hb' : b.rest = front ++ (trailer ++ next) := by rw [hb, hsplit, List.append_assoc]
  have hleft : ∀ {x : Bytes}, x = trailer ++ next → next.length < x.length := by
    rintro x rfl
    rw [List.length_append]
    omega
  cases hchunked : (ResponseInfo.new r.message).chunkedEncoding with
  | true =>
    cases htotal : (ResponseInfo.new r.message).contentLength with
    | none =>
      simp only [ResponseInfo.serveData, htotal, hchunked] at hserve
      obtain ⟨⟨status, st⟩, hserved, heq⟩ := Option.map_eq_some_iff.mp hserve
      cases heq
      exact hleft (serve_chunks hends hb' hserved)
    | some total =>
      simp only [ResponseInfo.serveData, htotal, hchunked] at hserve
      obtain ⟨⟨status, t⟩, hserved, heq⟩ := Option.map_eq_some_iff.mp hserve
      cases heq
      have hlen := contentLength_new hlengths htotal
      have htotal' : total = payload.length := by omega
      subst htotal'
      exact hleft (serve_takeChunks hends hb' hserved)
  | false =>
    simp only [ResponseInfo.isValid, hchunked, halive, Bool.not_true, Bool.or_false,
      Option.isSome_iff_exists] at hvalid
    obtain ⟨total, htotal⟩ := hvalid
    simp only [ResponseInfo.serveData, htotal, hchunked] at hserve
    obtain ⟨⟨status, t⟩, hserved, heq⟩ := Option.map_eq_some_iff.mp hserve
    cases heq
    have hlen := contentLength_new hlengths htotal
    have hshort := hbody.payload_lt
    have hend := serve_takeN hb hserved
    simp only
    rw [hend, List.length_drop, List.length_append]
    omega

end

/-! ## The connection -/

/-- The start of response `k` and all that is behind it. -/
def fromResponse (rs : List Response) (tail : Bytes) (k : Nat) : Bytes :=
  ((rs.drop k).map Response.wire).flatten ++ tail

section

variable {parse : Bytes → ParseResult} {fuel : Nat} {tail : Bytes} {scripts : List Script}
  {input : InputBuffer} {rs : List Response}

theorem fromResponse_succ {k : Nat} {r : Response} (h : rs[k]? = some r) :
    fromResponse rs tail k = r.wire ++ fromResponse rs tail (k + 1) := by
  obtain ⟨hlt, rfl⟩ := List.getElem?_eq_some_iff.mp h
  rw [fromResponse, List.drop_eq_getElem_cons hlt, List.map_cons, List.flatten_cons,
    List.append_assoc, fromResponse]

/-- Between two calls of `read_next_response` is a turn of the loop. -/
theorem processResponses_next {k : Nat}
    (hb : (processResponses parse fuel scripts input)[k]? = some b)
    (hb' : (processResponses parse fuel scripts input)[k + 1]? = some b') :
    ∃ script, nextResponse parse fuel script b = some b' := by
  induction scripts generalizing input k with
  | nil => cases hb
  | cons script scripts ih =>
    unfold processResponses at hb hb'
    rw [List.getElem?_cons_succ] at hb'
    cases hnext : nextResponse parse fuel script input with
    | none =>
      rw [hnext] at hb'
      cases hb'
    | some input' =>
      simp only [hnext] at hb hb'
      cases k with
      | zero =>
        cases hb
        cases scripts with
        | nil => cases hb'
        | cons more scripts =>
          cases hb'
          exact ⟨script, hnext⟩
      | succ k =>
        rw [List.getElem?_cons_succ] at hb
        exact ih hb hb'

/-- The buffer is at the first byte of each response that is begun. -/
def Framed (rs : List Response) (tail : Bytes) (starts : List InputBuffer) : Prop :=
  ∀ k b, k ≤ rs.length → starts[k]? = some b → b.rest = fromResponse rs tail k

/-- Every response after which another was begun is framed by its length. -/
def LengthsOnly (rs : List Response) (tail : Bytes) (starts : List InputBuffer) : Prop :=
  ∀ k r, rs[k]? = some r → k + 1 < starts.length →
    r.FramedByLength (fromResponse rs tail (k + 1))

theorem framed_of_lengthsOnly (hparse : ∀ r ∈ rs, Parses parse r)
    (hstream : input.rest = fromResponse rs tail 0)
    (hlength : LengthsOnly rs tail (processResponses parse fuel scripts input)) :
    Framed rs tail (processResponses parse fuel scripts input) := by
  intro k
  induction k with
  | zero =>
    intro b _ hb
    cases scripts with
    | nil => cases hb
    | cons script scripts =>
      cases hb
      exact hstream
  | succ k ih =>
    intro b hk hb
    have hlt := (List.getElem?_eq_some_iff.mp hb).1
    have hr := List.getElem?_eq_getElem hk
    have hmem := List.mem_of_getElem? hr
    have hbefore := List.getElem?_eq_getElem (Nat.lt_of_succ_lt hlt)
    obtain ⟨script, hnext⟩ := processResponses_next hbefore hb
    have hrest := ih _ (Nat.le_of_lt hk) hbefore
    rw [fromResponse_succ hr] at hrest
    exact nextResponse_framed (hparse _ hmem) (hlength k _ hr hlt) hrest hnext

/-- The length of the body is a `usize`; what is said to be sent in chunks has a body, and the chunk
    sizes of it have at most 16 digits. -/
def Response.Decodable (r : Response) : Prop :=
  r.body.length < 2 ^ 64 ∧ (r.codings ≠ [] → r.body ≠ []) ∧
    ∀ width payload, ChunkedBody true width r.body payload → width ≤ 16

theorem lengthsOnly_of_framed (hwf : ∀ r ∈ rs, r.WellFormed) (hparse : ∀ r ∈ rs, Parses parse r)
    (hdecodable : ∀ r ∈ rs, r.Decodable)
    (hframed : Framed rs tail (processResponses parse fuel scripts input)) :
    LengthsOnly rs tail (processResponses parse fuel scripts input) := by
  intro k r hr hlt
  have hmem := List.mem_of_getElem? hr
  have hk := (List.getElem?_eq_some_iff.mp hr).1
  have hb := List.getElem?_eq_getElem (Nat.lt_of_succ_lt hlt)
  have hb' := List.getElem?_eq_getElem hlt
  obtain ⟨script, hnext⟩ := processResponses_next hb hb'
  have hrest := hframed k _ (Nat.le_of_lt hk) hb
  rw [fromResponse_succ hr] at hrest
  have hafter := hframed (k + 1) _ hk hb'
  obtain ⟨hsize, hcoded, hwidth⟩ := hdecodable r hmem
  have hno : ∀ {width : Nat} {payload : Bytes}, (∀ v ∈ r.lengths, Denotes payload.length v) →
      ¬ ChunkedBody true width r.body payload := by
    intro width payload hlengths hbody
    have hlt := hbody.payload_lt
    have hleft := nextResponse_chunked (hparse r hmem) hlengths hbody (hwidth _ _ hbody) (by omega)
      hrest hnext
    rw [hafter] at hleft
    exact Nat.lt_irrefl _ hleft
  cases hwf r hmem with
  | noBody n lengths codings body =>
    have hnone : r.codings = [] := by_contra fun hsome => hcoded hsome body
    exact nextResponse_noBody (hparse r hmem) hnone body lengths hrest hnext hafter
  | contentLength stated lengths codings => exact ⟨codings, hsize, .inl lengths⟩
  | chunked width payload lengths coded codings body =>
    exact absurd body (hno fun v hv => absurd hv (by rw [lengths]; exact List.not_mem_nil))
  | both width payload stated lengths coded codings body => exact absurd body (hno lengths)

end

/-- **Keep-alive framing.** For every sequence of well-formed responses on a connection, every
    arrival of their bytes and everything the application reads of the bodies: where each of the
    responses after which `process_responses` has gone on is not sent in chunks and states the
    length of its body, the input buffer is at the first byte of a response whenever it begins to
    read it; and, for bodies the decoder accepts, only there. -/
theorem keep_alive_framing (parse : Bytes → ParseResult) (rs : List Response) (tail : Bytes)
    (hwf : ∀ r ∈ rs, r.WellFormed) (hparse : ∀ r ∈ rs, Parses parse r) (fuel : Nat)
    (scripts : List Script) (input : InputBuffer) (hstream : input.rest = fromResponse rs tail 0) :
    (LengthsOnly rs tail (processResponses parse fuel scripts input) →
      Framed rs tail (processResponses parse fuel scripts input)) ∧
    ((∀ r ∈ rs, r.Decodable) → Framed rs tail (processResponses parse fuel scripts input) →
      LengthsOnly rs tail (processResponses parse fuel scripts input)) :=
  ⟨framed_of_lengthsOnly hparse hstream,
    fun hdecodable => lengthsOnly_of_framed hwf hparse hdecodable⟩

/-! ## Two responses -/

/-- The parser on a stream of responses with the same head. -/
def parseAs (r : Response) (buf : Bytes) : ParseResult :=
  if r.head.isPrefixOf buf then .ok r.head.length r.message
  else if buf.isPrefixOf r.head then .incomplete
  else .failed

theorem parses_parseAs (r : Response) : Parses (parseAs r) r where
  partly p hp hne := by
    have hlong : r.head.isPrefixOf p = false := by
      rw [← Bool.not_eq_true, List.isPrefixOf_iff_prefix]
      intro hhead
      exact hne (hp.eq_of_length (Nat.le_antisymm hp.length_le hhead.length_le))
    rw [parseAs, hlong, List.isPrefixOf_iff_prefix.mpr hp]
    rfl
  whole more := by
    rw [parseAs, List.isPrefixOf_iff_prefix.mpr (List.prefix_append _ _)]
    rfl

def lengthResponse : Response where
  head := ascii "HTTP/1.1 200 OK\r\nContent-Length: 5\r\n\r\n"
  message := ⟨1, 1, 200, ascii "OK", [(ascii "Content-Length", ascii "5")]⟩
  body := ascii "hello"

def chunkedResponse : Response where
  head := ascii "HTTP/1.1 200 OK\r\nTransfer-Encoding: chunked\r\n\r\n"
  message := ⟨1, 1, 200, ascii "OK", [(ascii "Transfer-Encoding", ascii "chunked")]⟩
  body := ascii "5\r\nhello\r\n0\r\n\r\n"

/-- An input buffer that has received nothing yet of two responses; 30 bytes come in by the time
    of each fetch. -/
def twice (r : Response) : InputBuffer where
  capacity := 16 * 1024
  consumed := 0
  rest := fromResponse [r, r] [] 0
  arrived := 0
  plan := [30, 30, 30, 30, 30, 30]

theorem lengthResponse_lengths :
    ∀ v ∈ lengthResponse.lengths, Denotes lengthResponse.body.length v := by
  intro v hv
  have hvalues : lengthResponse.lengths = [ascii "5"] := by decide
  rw [hvalues] at hv
  rw [List.mem_singleton.mp hv]
  have hdigits : (chars (ascii "5")).all Char.isDigit = true := by decide
  exact ⟨by decide, List.all_eq_true.mp hdigits, by decide⟩

theorem lengthResponse_wellFormed : lengthResponse.WellFormed :=
  .contentLength (by decide) lengthResponse_lengths (by decide)

theorem keep_alive_framing_lengthResponse :
    ∃ b₀ b₁ b₂, processResponses (parseAs lengthResponse) 20 [⟨true, [(1, 2)]⟩, ⟨true, []⟩, ⟨true, []⟩]
        (twice lengthResponse) = [b₀, b₁, b₂] ∧
      b₁.rest = lengthResponse.wire ∧ b₂.rest = [] := by
  have hboth : ∀ {P : Response → Prop}, P lengthResponse → ∀ r ∈ [lengthResponse, lengthResponse], P r := by
    intro P hP r hr
    rw [List.eq_of_mem_replicate (show r ∈ List.replicate 2 lengthResponse from hr)]
    exact hP
  have hframed := (keep_alive_framing (parseAs lengthResponse) [lengthResponse, lengthResponse] []
    (hboth lengthResponse_wellFormed) (hboth (parses_parseAs _)) 20
    [⟨true, [(1, 2)]⟩, ⟨true, []⟩, ⟨true, []⟩] (twice lengthResponse) rfl).1 fun k r hr _ =>
      hboth (P := fun r => r.FramedByLength _) ⟨by decide, by decide, .inl lengthResponse_lengths⟩ r
        (List.mem_of_getElem? hr)
  obtain ⟨b₀, b₁, b₂, heq⟩ : ∃ b₀ b₁ b₂, processResponses (parseAs lengthResponse) 20
      [⟨true, [(1, 2)]⟩, ⟨true, []⟩, ⟨true, []⟩] (twice lengthResponse) = [b₀, b₁, b₂] :=
    ⟨_, _, _, rfl⟩
  rw [heq] at hframed
  refine ⟨b₀, b₁, b₂, heq, ?_, ?_⟩
  · have hone := hframed 1 b₁ (by decide) rfl
    simpa [fromResponse] using hone
  · have htwo := hframed 2 b₂ (by decide) rfl
    simpa [fromResponse] using htwo

theorem chunkedResponse_wellFormed : chunkedResponse.WellFormed := by
  refine .chunked 1 (ascii "hello") (by decide) (by decide) ?_ ?_
  · intro c hc
    have hvalues : chunkedResponse.codings = [ascii "chunked"] := by decide
    rw [hvalues] at hc
    rw [List.mem_singleton.mp hc]
    unfold isChunked
    decide
  · have hlast := @ChunkedBody.last true [48] [] crlf (by decide) (by decide) TrailerPart.empty
    exact @ChunkedBody.chunk true 1 [53] [] (ascii "hello") _ []
      (by decide) (by decide) (by decide) hlast

set_option maxRecDepth 2000 in
/-- **A chunked response leaves its last CRLF behind**: the connection goes on to read the next
    response with these two bytes in front of it. -/
theorem chunked_response_misplaces_next :
    chunkedResponse.WellFormed ∧ Parses (parseAs chunkedResponse) chunkedResponse ∧
      ∃ b₀ b₁, processResponses (parseAs chunkedResponse) 20 [⟨true, []⟩, ⟨true, []⟩]
          (twice chunkedResponse) = [b₀, b₁] ∧
        b₀.rest = fromResponse [chunkedResponse, chunkedResponse] [] 0 ∧
        b₁.rest = crlf ++ fromResponse [chunkedResponse, chunkedResponse] [] 1 ∧
        b₁.rest ≠ fromResponse [chunkedResponse, chunkedResponse] [] 1 := by
  refine ⟨chunkedResponse_wellFormed, parses_parseAs _, _, _, rfl, rfl, rfl, fun heq => ?_⟩
  exact absurd (congrArg List.length heq) (by decide)

end Batt.Http
