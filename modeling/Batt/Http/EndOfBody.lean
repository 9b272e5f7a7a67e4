/-
  How `HttpChunkDecoder::fetch_at_least` reports the end of a body.

  A request is answered rightly when it returns payload enough, or `kEndOfStream` where less
  is left (`Answers`). The decoder asks its source for as many bytes as it has decoded and the
  payload that is missing. Where the payload is left, the source has that much. Behind the end
  of the payload the source may have fewer, and then the decoder returns
  `kClosedBeforeEndOfStream` although the body is complete.

  `answered_iff` says that this is the only way to go wrong: a request is answered rightly if and
  only if in none of its turns the decoder asks the source for more than it has (`AsksPastEnd`).
  It never does once it is done, nor where the request passes the end of the payload by at most
  one byte and the bytes behind the body. Further on it depends on how the source cuts its
  bytes: `answered_over_iff` says when no source whatsoever makes it go wrong.
-/
import Batt.Http.Encoder
import Batt.Http.Payload

namespace Batt.Http

open Transducer

/-! ## What is behind the payload -/

theorem length_out_le {d d' : ChunkedDecoder} {b : UInt8} {out : Bytes}
    (h : stepByte d b = .next d' out) : out.length ≤ 1 := by
  cases hd : d.state with
  | chunkSize | chunkExt =>
    simp only [stepByte, hd] at h
    grind [extByte]
  | chunkData | chunkCrlf | trailersLineHead | trailersLineMiddle =>
    simp only [stepByte, hd] at h
    grind

variable {buffers : List Bytes} {n : Nat}

section Cursors

variable {S : Type} [BufferSource S] {rest : S → Bytes} {held : S → Nat} {trailer : Bool}
  {body payload tail before ahead : Bytes} {d : ChunkedDecoder} {taken n : Nat}
  {st : HttpChunkDecoder S}

omit [BufferSource S] in
/-- Before the end of the body the source has what is left of the payload, a byte that is none
    of it, and the bytes behind the body. -/
theorem CursorsAt.behind (h : CursorsAt rest held (atChunk trailer) (body ++ tail) st before ahead
    taken) (hends : Ends (atChunk trailer) body payload d) (hdone : st.done = false) :
    payload.length + tail.length + 1 + ahead.length ≤
      taken + st.size + (rest st.src).length := by
  have hrun := h.running hdone
  have hstop : (scanFrom (atChunk trailer) body).mode ≠ .running := by
    rw [hends]
    nofun
  have hlt := length_lt_of_stopped hrun hstop h.ahead_full (List.prefix_append body tail)
  obtain ⟨z, hz⟩ := List.prefix_of_prefix_length_le h.ahead_full (List.prefix_append body tail)
    (Nat.le_of_lt hlt)
  have hscan := scanFrom_append hrun z
  rw [hz, hends] at hscan
  have hmode := congrArg Scan.mode hscan
  have hemitted := congrArg (fun c => c.emitted.length) hscan
  have hconsumed := congrArg Scan.consumed hscan
  simp only [Scan.andThen, List.length_append, h.read] at hmode hemitted hconsumed
  have hless := (emitted_add_le length_out_le
    (start_mode (scanFrom (atChunk trailer) (before ++ ahead)).state) z).2 hmode.symm
  rw [start_emitted, start_consumed, Nat.add_zero, List.length_nil, Nat.zero_add] at hless
  change (scanFrom _ z).emitted.length < (scanFrom _ z).consumed at hless
  have hout := congrArg List.length h.output
  have hsource := congrArg List.length h.source
  rw [List.length_append] at hout
  rw [List.length_append, List.length_append] at hsource
  have hle := h.consumed_le
  rw [h.size_eq, h.taken_eq, h.available]
  rw [h.available] at hle
  omega

/-! ## A request -/

/-- The right answer to a request of `n` bytes when `taken` bytes of the payload are consumed. -/
inductive Answers (payload : Bytes) (taken n : Nat) : FetchResult → Prop where
  | ok {buffers : List Bytes} (henough : taken + n ≤ payload.length)
      (hfirst : buffers.flatten <+: payload.drop taken) (hn : n ≤ buffers.flatten.length) :
      Answers payload taken n (.ok buffers)
  | endOfStream (hshort : payload.length < taken + n) :
      Answers payload taken n (.error .kEndOfStream)

theorem Fetched.answers_ok {d₀ : ChunkedDecoder} {full : Bytes} {st' : HttpChunkDecoder S}
    (h : Fetched rest held d₀ full payload taken n st' (.ok buffers))
    (htaken : taken ≤ payload.length) : Answers payload taken n (.ok buffers) := by
  cases h with
  | ok hfirst hn _ =>
    have hle := hfirst.length_le
    rw [List.length_drop] at hle
    exact .ok (by omega) hfirst hn

omit [BufferSource S] in
theorem CursorsAt.taken_le_payload
    (h : CursorsAt rest held (atChunk trailer) (body ++ tail) st before ahead taken)
    (hends : Ends (atChunk trailer) body payload d) : taken + st.size ≤ payload.length := by
  have hemitted : (scanFrom (atChunk trailer) (body ++ tail)).emitted = payload := by
    rw [hends.scan_full]
  have hmono := (@emitted_mono (atChunk trailer) _ _ h.ahead_full).length_le
  have hle := h.consumed_le
  rw [hemitted, h.output, List.length_append] at hmono
  rw [h.size_eq, h.taken_eq, h.available]
  rw [h.available] at hle
  omega

/-- There is enough to return, or there will be no more. -/
theorem CursorsAt.answered_at_once
    (h : CursorsAt rest held (atChunk trailer) (body ++ tail) st before ahead taken)
    (hends : Ends (atChunk trailer) body payload d) (hend : n ≤ st.size ∨ st.done = true)
    (fuel : Nat) : ∃ result st', st.fetchAtLeast (fuel + 1) n = some (result, st') ∧
      Answers payload taken n result := by
  have hemitted : (scanFrom (atChunk trailer) (body ++ tail)).emitted = payload := by
    rw [hends.scan_full]
  by_cases henough : n ≤ st.size
  · have hfetched := h.fetchedChunks hemitted henough
    have htaken := h.taken_le_payload hends
    refine ⟨st.fetchedChunks, st, by rw [HttpChunkDecoder.fetchAtLeast, if_pos henough], ?_⟩
    have hle := h.consumed_le
    rw [h.available] at hle
    obtain ⟨buffers, heq, -⟩ := consumeBuffers_eq hle
    have hresult : st.fetchedChunks = .ok buffers := by
      rw [HttpChunkDecoder.fetchedChunks, heq]
    rw [hresult] at hfetched ⊢
    exact hfetched.answers_ok (by omega)
  · have hdone := hend.resolve_left henough
    have htotal := h.payload_eq hemitted hdone
    refine ⟨_, _, by rw [HttpChunkDecoder.fetchAtLeast, if_neg henough, if_pos hdone], ?_⟩
    exact .endOfStream (by omega)

/-- A source that ends before the decoder does. -/
theorem not_answers_of_short (hdone : st.done = false) (hsize : st.size < n) {src : S}
    (hfetch : BufferSource.fetchAtLeast st.src (st.srcMinCount n) = (.error .kEndOfStream, src))
    {fuel : Nat} {result : FetchResult} {st' : HttpChunkDecoder S}
    (hrun : st.fetchAtLeast fuel n = some (result, st')) : ¬ Answers payload taken n result := by
  have hmore : ¬ st.done = true := by rw [hdone]; exact Bool.false_ne_true
  cases fuel with
  | zero => cases hrun
  | succ fuel =>
    rw [HttpChunkDecoder.fetchAtLeast, if_neg (Nat.not_le.mpr hsize), if_neg hmore] at hrun
    split at hrun
    · cases hrun
      intro hanswers
      cases hanswers
    · rw [hfetch] at hrun
      cases hrun
      intro hanswers
      cases hanswers

/-- A turn of the loop when the source has what it is asked for. -/
theorem CursorsAt.turn (hsrc : Delivers S rest held)
    (h : CursorsAt rest held (atChunk trailer) (body ++ tail) st before ahead taken)
    (hends : Ends (atChunk trailer) body payload d) (hdone : st.done = false) (hsize : st.size < n)
    (hfits : st.srcMinCount n < 2 ^ 63) {fetched : List Bytes} {src : S}
    (hfetch : BufferSource.fetchAtLeast st.src (st.srcMinCount n) = (.ok fetched, src)) :
    ∃ st' before' ahead', HttpChunkDecoder.decodeFetched { st with src := src } fetched =
        some (none, st') ∧ (∀ fuel, st.fetchAtLeast (fuel + 1) n = st'.fetchAtLeast fuel n) ∧
      CursorsAt rest held (atChunk trailer) (body ++ tail) st' before' ahead' taken ∧
      before.length + ahead.length < before'.length + ahead'.length ∧
      before'.length + ahead'.length ≤ before.length + fetched.flatten.length ∧
      (st'.done = false →
        before'.length + ahead'.length = before.length + fetched.flatten.length) := by
  have hrest : rest src = rest st.src := by
    have heq := hsrc.fetch_rest st.src (st.srcMinCount n)
    rwa [hfetch] at heq
  have hcount := hsrc.fetched_enough hfetch
  have hlong : ahead.length < fetched.flatten.length := by
    unfold HttpChunkDecoder.srcMinCount at hcount
    rw [h.size] at hcount
    omega
  have hheld := hsrc.fetched_held hfetch
  obtain ⟨st', before', ahead', heq, hcursors, hfar, hmost, hall⟩ :=
    decodeFetched_cursors hsrc (atChunk_ready trailer) hends.complete
      (h.setSrc hrest (by omega)) hdone (by rw [hrest]; exact hsrc.fetched_first hfetch) hlong hheld
  refine ⟨st', before', ahead', heq, fun fuel => ?_, hcursors, hfar, hmost, hall⟩
  have hmore : ¬ st.done = true := by rw [hdone]; exact Bool.false_ne_true
  rw [HttpChunkDecoder.fetchAtLeast, if_neg (Nat.not_le.mpr hsize), if_neg hmore,
    if_neg (Nat.not_le.mpr hfits), hfetch]
  simp only [heq]

/-! ## Asking for more than there is -/

/-- In some turn of the loop the source is asked for more than it has: for the bytes that have
    been decoded but not consumed, and as many as are missing of the payload. -/
inductive AsksPastEnd (rest : S → Bytes) (n : Nat) : HttpChunkDecoder S → Prop where
  | now {st : HttpChunkDecoder S} (hdone : st.done = false) (hsize : st.size < n)
      (hpast : (rest st.src).length < st.decodedSrcSize + (n - st.size)) : AsksPastEnd rest n st
  | later {st st' : HttpChunkDecoder S} {fetched : List Bytes} {src : S} (hdone : st.done = false)
      (hsize : st.size < n)
      (hfetch : BufferSource.fetchAtLeast st.src (st.decodedSrcSize + (n - st.size)) =
        (.ok fetched, src))
      (hturn : HttpChunkDecoder.decodeFetched { st with src := src } fetched = some (none, st'))
      (hmore : AsksPastEnd rest n st') : AsksPastEnd rest n st

/-- A request of `n` bytes returns with the right answer. -/
def Answered (payload : Bytes) (taken n : Nat) (st : HttpChunkDecoder S) : Prop :=
  ∃ fuel result st', st.fetchAtLeast fuel n = some (result, st') ∧ Answers payload taken n result

theorem AsksPastEnd.not_done (hasks : AsksPastEnd rest n st) : st.done = false := by
  cases hasks <;> assumption

theorem not_asksPastEnd_of_done (hdone : st.done = true) : ¬ AsksPastEnd rest n st := by
  intro hasks
  rw [hasks.not_done] at hdone
  cases hdone

/-- A source that is asked for more than it has is at its end. -/
theorem fetch_past_end (hsrc : Delivers S rest held) (hsteady : Steady S rest) {src : S}
    {count : Nat} (hpast : (rest src).length < count) :
    ∃ src', BufferSource.fetchAtLeast src count = (.error .kEndOfStream, src') := by
  cases hfetch : BufferSource.fetchAtLeast src count with
  | mk answer src' =>
    cases answer with
    | error status =>
      obtain ⟨rfl, -⟩ := hsteady.failed hfetch
      exact ⟨src', rfl⟩
    | ok fetched =>
      have hcount := hsrc.fetched_enough hfetch
      have hle := (hsrc.fetched_first hfetch).length_le
      omega

theorem AsksPastEnd.not_answered (hsrc : Delivers S rest held) (hsteady : Steady S rest)
    (hasks : AsksPastEnd rest n st) : ¬ Answered payload taken n st := by
  rintro ⟨fuel, result, st', hrun, hanswers⟩
  induction hasks generalizing fuel with
  | now hdone hsize hpast =>
    obtain ⟨src', hfetch⟩ := fetch_past_end hsrc hsteady hpast
    exact not_answers_of_short hdone hsize hfetch hrun hanswers
  | later hdone hsize hfetch hturn _ ih =>
    have hmore : ¬ _ = true := Bool.eq_false_iff.mp hdone
    cases fuel with
    | zero => cases hrun
    | succ fuel =>
      rw [HttpChunkDecoder.fetchAtLeast, if_neg (Nat.not_le.mpr hsize), if_neg hmore] at hrun
      split at hrun
      · cases hrun
        cases hanswers
      · rw [HttpChunkDecoder.srcMinCount, hfetch] at hrun
        simp only [hturn] at hrun
        exact ih fuel hrun

/-- **Nothing else goes wrong.** Every turn decodes a byte more than the one before, until there
    is enough to return or the body is at its end. -/
theorem CursorsAt.answered (hsrc : Delivers S rest held) (hsteady : Steady S rest)
    (h : CursorsAt rest held (atChunk trailer) (body ++ tail) st before ahead taken)
    (hends : Ends (atChunk trailer) body payload d) (hlen : (body ++ tail).length < 2 ^ 63)
    (hnot : ¬ AsksPastEnd rest n st) : Answered payload taken n st := by
  induction hleft : (body ++ tail).length - (before.length + ahead.length)
    using Nat.strong_induction_on generalizing st before ahead with
  | _ left ih =>
    by_cases hend : n ≤ st.size ∨ st.done = true
    · exact ⟨1, h.answered_at_once hends hend 0⟩
    have hsize : st.size < n := Nat.not_le.mp fun hle => hend (.inl hle)
    have hdone : st.done = false := Bool.eq_false_iff.mpr fun hd => hend (.inr hd)
    have hthere : st.srcMinCount n ≤ (rest st.src).length :=
      Nat.not_lt.mp fun hpast => hnot (.now hdone hsize hpast)
    have hsource := congrArg List.length h.source
    rw [@List.length_append _ before] at hsource
    cases hfetch : BufferSource.fetchAtLeast st.src (st.srcMinCount n) with
    | mk answer src =>
      cases answer with
      | error status =>
        obtain ⟨-, hshort⟩ := hsteady.failed hfetch
        omega
      | ok fetched =>
        obtain ⟨st', before', ahead', hdecode, hturn, h', hfar, -⟩ :=
          h.turn hsrc hends hdone hsize (by omega) hfetch
        have hle := h'.ahead_full.length_le
        rw [List.length_append] at hle
        obtain ⟨fuel, result, st'', hrun, hanswers⟩ :=
          ih _ (by omega) h' (fun hmore => hnot (.later hdone hsize hfetch hdecode hmore)) rfl
        exact ⟨fuel + 1, result, st'', by rw [hturn, hrun], hanswers⟩

omit [BufferSource S] in
/-- Behind the last byte of the body the decoder is done. -/
theorem CursorsAt.done_of_le
    (h : CursorsAt rest held (atChunk trailer) (body ++ tail) st before ahead taken)
    (hends : Ends (atChunk trailer) body payload d)
    (hreach : body.length ≤ before.length + ahead.length) : st.done = true := by
  by_contra hd
  have hstop : (scanFrom (atChunk trailer) body).mode ≠ .running := by
    rw [hends]
    nofun
  have hlt := length_lt_of_stopped (h.running (Bool.eq_false_iff.mpr hd)) hstop h.ahead_full
    (List.prefix_append body tail)
  rw [List.length_append] at hlt
  omega

/-- A request that passes the payload by no more than what is behind it never asks for more than
    there is. -/
theorem CursorsAt.not_asksPastEnd_within (hsrc : Delivers S rest held)
    (h : CursorsAt rest held (atChunk trailer) (body ++ tail) st before ahead taken)
    (hends : Ends (atChunk trailer) body payload d) (hlen : (body ++ tail).length < 2 ^ 63)
    (hwithin : taken + n ≤ payload.length + tail.length + 1) : ¬ AsksPastEnd rest n st := by
  have hthere : ∀ {st : HttpChunkDecoder S} {before ahead : Bytes},
      CursorsAt rest held (atChunk trailer) (body ++ tail) st before ahead taken →
      st.done = false → st.size < n → st.srcMinCount n ≤ (rest st.src).length ∧
        (rest st.src).length ≤ (body ++ tail).length := by
    intro st before ahead h hdone hsize
    have hbehind := h.behind hends hdone
    have hsource : (body ++ tail).length = before.length + (rest st.src).length := by
      rw [h.source, List.length_append]
    rw [HttpChunkDecoder.srcMinCount, h.size]
    omega
  intro hasks
  induction hasks generalizing before ahead with
  | now hdone hsize hpast => exact Nat.not_le.mpr hpast (hthere h hdone hsize).1
  | later hdone hsize hfetch hturn _ ih =>
    have hfits := hthere h hdone hsize
    obtain ⟨_, _, _, hdecode, -, h', -⟩ := h.turn hsrc hends hdone hsize (by omega) hfetch
    rw [hturn] at hdecode
    cases hdecode
    exact ih h'

/-- Neither does one that reaches the end of the body at once, when all it asks for is there. -/
theorem CursorsAt.not_asksPastEnd_to_end (hsrc : Delivers S rest held)
    (h : CursorsAt rest held (atChunk trailer) (body ++ tail) st before ahead taken)
    (hends : Ends (atChunk trailer) body payload d) (hlen : (body ++ tail).length < 2 ^ 63)
    (hreach : (rest st.src).length ≤ st.srcMinCount n + tail.length)
    (hthere : st.srcMinCount n ≤ (rest st.src).length) : ¬ AsksPastEnd rest n st := by
  intro hasks
  have hsource := congrArg List.length h.source
  rw [List.length_append, List.length_append] at hsource
  rw [List.length_append] at hlen
  cases hasks with
  | now _ _ hpast => exact Nat.not_le.mpr hpast hthere
  | later hdone hsize hfetch hturn hmore =>
    have hcount := hsrc.fetched_enough hfetch
    change st.srcMinCount n ≤ _ at hcount
    obtain ⟨st', before', ahead', hdecode, -, h', -, -, hall⟩ :=
      h.turn hsrc hends hdone hsize (by omega) hfetch
    rw [hturn] at hdecode
    cases hdecode
    have hfar := hall hmore.not_done
    exact not_asksPastEnd_of_done (h'.done_of_le hends (by omega)) hmore

end Cursors

/-! ## Sources that keep bytes back -/

/-- A source that does not hand out its last `kept` bytes before it has to. -/
structure Reluctant where
  bytes : Bytes
  kept : Nat
deriving Repr, DecidableEq

instance : BufferSource Reluctant where
  fetchAtLeast s n :=
    (if n ≤ s.bytes.length then .ok [s.bytes.take (max n (s.bytes.length - s.kept))]
      else .error .kEndOfStream, s)
  consume s n := { s with bytes := s.bytes.drop n }

namespace Reluctant

def held (s : Reluctant) : Nat := s.bytes.length

theorem fetch_ok {s s' : Reluctant} (h : BufferSource.fetchAtLeast s n = (.ok buffers, s')) :
    n ≤ s.bytes.length ∧ buffers = [s.bytes.take (max n (s.bytes.length - s.kept))] ∧ s' = s := by
  simp only [BufferSource.fetchAtLeast] at h
  split at h
  · rename_i hle
    cases h
    exact ⟨hle, rfl, rfl⟩
  · cases h

theorem fetch_error {s s' : Reluctant} {status : StatusCode}
    (h : BufferSource.fetchAtLeast s n = (.error status, s')) :
    s.bytes.length < n ∧ status = .kEndOfStream ∧ s' = s := by
  simp only [BufferSource.fetchAtLeast] at h
  split at h
  · cases h
  · rename_i hlt
    cases h
    exact ⟨Nat.not_le.mp hlt, rfl, rfl⟩

theorem fetch_of_le {s : Reluctant} (h : n ≤ s.bytes.length) :
    BufferSource.fetchAtLeast s n =
      (.ok [s.bytes.take (max n (s.bytes.length - s.kept))], s) := by
  simp only [BufferSource.fetchAtLeast, if_pos h]

theorem delivers : Delivers Reluctant bytes held where
  fetched_first {s s' n buffers} h := by
    obtain ⟨-, rfl, -⟩ := fetch_ok h
    rw [List.flatten_singleton]
    exact List.take_prefix _ _
  fetched_enough {s s' n buffers} h := by
    obtain ⟨hle, rfl, -⟩ := fetch_ok h
    rw [List.flatten_singleton, List.length_take]
    omega
  fetched_held {s s' n buffers} h := by
    obtain ⟨-, rfl, rfl⟩ := fetch_ok h
    rw [List.flatten_singleton]
    exact (List.take_prefix _ _).length_le
  failed_held {s s' n status} h := by
    obtain ⟨-, -, rfl⟩ := fetch_error h
    exact Nat.le_refl _
  fetch_rest _ _ := rfl
  consume_rest _ := rfl
  consume_held {s n} _ := by
    show s.bytes.length - n ≤ (s.bytes.drop n).length
    rw [List.length_drop]

theorem steady : Steady Reluctant bytes where
  failed {s s' n status} h := by
    obtain ⟨hlt, heq, -⟩ := fetch_error h
    exact ⟨heq, hlt⟩

end Reluctant

/-! ## When a request is answered rightly -/

/-- The decoder in the same state over another source. -/
def HttpChunkDecoder.over {S R : Type} (st : HttpChunkDecoder S) (src : R) :
    HttpChunkDecoder R where
  src := src
  decoderCheckpoint := st.decoderCheckpoint
  decoderLatest := st.decoderLatest
  done := st.done
  decodedSrcSize := st.decodedSrcSize
  outputAvailable := st.outputAvailable
  outputConsumed := st.outputConsumed
  decodedChunks := st.decodedChunks

/-- A request of `n` bytes in this state returns with the right answer, whatever source delivers
    the bytes to come and however it cuts them. -/
def AnsweredOver {S : Type} (rest : S → Bytes) (payload : Bytes) (taken n : Nat)
    (st : HttpChunkDecoder S) : Prop :=
  ∀ (R : Type) [BufferSource R] (restR : R → Bytes) (heldR : R → Nat), Delivers R restR heldR →
    Steady R restR → ∀ src : R, restR src = rest st.src → st.decodedSrcSize ≤ heldR src →
      Answered payload taken n (st.over src)

section Answered

variable {S : Type} {rest : S → Bytes} {held : S → Nat} {trailer : Bool}
  {body payload tail before ahead : Bytes} {d : ChunkedDecoder} {taken n : Nat}
  {st : HttpChunkDecoder S}

theorem CursorsAt.over {R : Type} {restR : R → Bytes} {heldR : R → Nat} {d₀ : ChunkedDecoder}
    {full : Bytes} (h : CursorsAt rest held d₀ full st before ahead taken) {src : R}
    (hrest : restR src = rest st.src) (hheld : st.decodedSrcSize ≤ heldR src) :
    CursorsAt restR heldR d₀ full (st.over src) before ahead taken where
  source := by
    rw [show (st.over src).src = src from rfl, hrest]
    exact h.source
  ahead_first := by
    rw [show (st.over src).src = src from rfl, hrest]
    exact h.ahead_first
  ahead_held := by
    rw [← h.size]
    exact hheld
  size := h.size
  checkpoint := h.checkpoint
  latest := h.latest
  read := h.read
  mode := h.mode
  output := h.output
  available := h.available
  consumed := h.consumed
  taken_eq := h.taken_eq

/-- Where the request passes all that is behind the payload, a source that keeps back the last
    byte of the body is asked for more than it has, unless the request takes that byte now. -/
theorem asksPastEnd_of_reluctant {st : HttpChunkDecoder Reluctant}
    (h : CursorsAt Reluctant.bytes Reluctant.held (atChunk trailer) (body ++ tail) st before ahead
      taken) (hkept : st.src.kept = tail.length + 1)
    (hends : Ends (atChunk trailer) body payload d) (hdone : st.done = false)
    (hpast : payload.length + tail.length + 1 < taken + n)
    (hmiss : st.src.bytes.length ≤ st.srcMinCount n + tail.length →
      st.src.bytes.length < st.srcMinCount n) (hlen : (body ++ tail).length < 2 ^ 63) :
    AsksPastEnd Reluctant.bytes n st := by
  have hsize : st.size < n := by
    have := h.taken_le_payload hends
    omega
  by_cases hshort : st.src.bytes.length < st.srcMinCount n
  · exact .now hdone hsize hshort
  have hfar : st.srcMinCount n + tail.length < st.src.bytes.length :=
    Nat.not_le.mp fun hle => hshort (hmiss hle)
  have hsource : (body ++ tail).length = before.length + st.src.bytes.length := by
    rw [h.source, List.length_append]
  have hfetch := Reluctant.fetch_of_le (Nat.not_lt.mp hshort)
  obtain ⟨st₁, before₁, ahead₁, hdecode, -, h₁, -, hmost, hall⟩ := h.turn Reluctant.delivers hends
    hdone hsize (by omega) hfetch
  rw [List.flatten_singleton, List.length_take, hkept] at hmost hall
  have hsource₁ : (body ++ tail).length = before₁.length + st₁.src.bytes.length := by
    rw [h₁.source, List.length_append]
  rw [List.length_append] at hsource hsource₁
  -- the last byte of the body has not been decoded
  have hdone₁ : st₁.done = false := by
    rw [Bool.eq_false_iff]
    intro hd
    have hmode := h₁.mode
    rw [if_pos hd] at hmode
    have hscan := scanFrom_of_halted h₁.ahead_full (by rw [hmode]; nofun)
    rw [hends.scan_full] at hscan
    have hread : body.length = before₁.length + ahead₁.length :=
      (congrArg Scan.consumed hscan).trans h₁.read
    omega
  have hlast := hall hdone₁
  have hsize₁ := h₁.taken_le_payload hends
  refine .later hdone hsize hfetch hdecode (.now hdone₁ (by omega) ?_)
  show st₁.src.bytes.length < _
  rw [h₁.size]
  omega

end Answered

section Requests

variable {S : Type} [BufferSource S] {rest : S → Bytes} {held : S → Nat}
  (hsrc : Delivers S rest held) {trailer : Bool} {width : Nat} {body payload tail : Bytes}
  (hbody : ChunkedBody trailer width body payload) (hwidth : width ≤ 16)
  (hlen : (body ++ tail).length < 2 ^ 63) {src : S} (hstream : rest src = body ++ tail)
  {events : List Event} {st : HttpChunkDecoder S} (hrun : Run (.new src trailer) events st)
include hsrc hbody hwidth hlen hstream hrun

/-- **When no source makes a request go wrong.** For every source that delivers a body with chunk
    sizes of at most 16 digits and then the bytes behind it, after every run of calls, and for
    every number of bytes: the request is answered rightly, whatever the source does from now on,
    if and only if the decoder is done, or the request passes the payload by at most one byte and
    those behind the body, or what it asks the source for now reaches the end of the body and is
    there. -/
theorem answered_over_iff (n : Nat) :
    AnsweredOver rest payload (takenBy events) n st ↔
      st.done = true ∨ takenBy events + n ≤ payload.length + tail.length + 1 ∨
        ((rest st.src).length ≤ st.srcMinCount n + tail.length ∧
          st.srcMinCount n ≤ (rest st.src).length) := by
  obtain ⟨d, hends⟩ := hbody.ends hwidth
  obtain ⟨⟨before, ahead, h⟩, -, -⟩ := hrun.cursors hsrc hends hstream
  constructor
  · intro hall
    by_contra hnot
    rw [not_or, not_or, not_and, Nat.not_le, Nat.not_le] at hnot
    obtain ⟨hdone, hpast, hmiss⟩ := hnot
    have hheld : st.decodedSrcSize ≤ (rest st.src).length := by
      rw [h.size]
      exact h.ahead_first.length_le
    have hover : CursorsAt Reluctant.bytes Reluctant.held (atChunk trailer) (body ++ tail)
        (st.over (Reluctant.mk (rest st.src) (tail.length + 1))) before ahead (takenBy events) :=
      h.over rfl hheld
    have hasks := asksPastEnd_of_reluctant hover rfl hends (Bool.eq_false_iff.mpr hdone) hpast
      hmiss hlen
    exact hasks.not_answered Reluctant.delivers Reluctant.steady (hall Reluctant Reluctant.bytes
      Reluctant.held Reluctant.delivers Reluctant.steady _ rfl hheld)
  · intro hcases R _ restR heldR hdelivers hsteady src' hrest hheld
    have hover := h.over hrest hheld
    refine hover.answered hdelivers hsteady hends hlen ?_
    rcases hcases with hdone | hwithin | ⟨hreach, hthere⟩
    · exact not_asksPastEnd_of_done hdone
    · exact hover.not_asksPastEnd_within hdelivers hends hlen hwithin
    · refine hover.not_asksPastEnd_to_end hdelivers hends hlen ?_ ?_
      · rw [show (st.over src').src = src' from rfl, hrest]
        exact hreach
      · rw [show (st.over src').src = src' from rfl, hrest]
        exact hthere

/-- **When the end of a body is reported as such.** For every source that delivers a body with
    chunk sizes of at most 16 digits and the bytes behind it and then is at its end, after every
    run of calls, and for every number of bytes: the request is answered rightly if and only if
    in no turn of its loop the source is asked for more than it has. It is not where the decoder
    is done, and where the request passes the payload by at most one byte and those behind the
    body. -/
theorem answered_iff (hsteady : Steady S rest) (n : Nat) :
    (Answered payload (takenBy events) n st ↔ ¬ AsksPastEnd rest n st) ∧
      (st.done = true ∨ takenBy events + n ≤ payload.length + tail.length + 1 →
        ¬ AsksPastEnd rest n st) := by
  obtain ⟨d, hends⟩ := hbody.ends hwidth
  obtain ⟨⟨before, ahead, h⟩, -, -⟩ := hrun.cursors hsrc hends hstream
  refine ⟨⟨fun hanswered hasks => hasks.not_answered hsrc hsteady hanswered,
    h.answered hsrc hsteady hends hlen⟩, ?_⟩
  rintro (hdone | hwithin)
  · exact not_asksPastEnd_of_done hdone
  · exact h.not_asksPastEnd_within hsrc hends hlen hwithin

end Requests

/-- "1" CRLF "a" CRLF "0" CRLF CRLF -/
def oneByteBody : Bytes := [49] ++ ([] ++ crlf) ++ [97] ++ crlf ++ ([48] ++ ([] ++ crlf) ++ crlf)

theorem oneByteBody_wellFormed : ChunkedBody true 1 oneByteBody [97] := by
  have hlast := @ChunkedBody.last true [48] [] _ (by decide) (by decide) TrailerPart.empty
  exact @ChunkedBody.chunk true 1 [49] [] [97] _ []
    (by decide) (by decide) (by decide) hlast

theorem front_none (h : front n buffers = none) :
    buffers.flatten.length < n := by
  induction buffers generalizing n with
  | nil =>
    cases n with
    | zero => cases h
    | succ n => exact Nat.succ_pos n
  | cons b buffers ih =>
    cases n with
    | zero => cases h
    | succ n =>
      have hless := ih (Option.map_eq_none_iff.mp h)
      rw [List.flatten_cons, List.length_append]
      omega

theorem Segments.steady : Steady Segments Segments.rest where
  failed {s s' n status} h := by
    simp only [BufferSource.fetchAtLeast] at h
    split at h
    · cases h
    · rename_i hnone
      cases h
      exact ⟨rfl, front_none hnone⟩

/-- In one buffer, before anything has been fetched: the requests of up to the 11 bytes of the
    body. -/
theorem answered_iff_oneByteBody :
    ChunkedBody true 1 oneByteBody [97] ∧
      ∀ n, Answered [97] 0 n (.new (Segments.mk [oneByteBody]) true) ↔ n ≤ 11 := by
  refine ⟨oneByteBody_wellFormed, fun n => ?_⟩
  have hiff := (@answered_iff Segments _ _ _ Segments.delivers true 1 oneByteBody [97] []
    oneByteBody_wellFormed (by decide) (by decide) ⟨[oneByteBody]⟩ rfl [] _ .start
    Segments.steady n).1
  rw [show takenBy [] = 0 from rfl] at hiff
  rw [hiff]
  constructor
  · intro hnot
    by_contra hpast
    refine hnot (.now rfl (Nat.lt_of_lt_of_le (Nat.zero_lt_succ 11) (Nat.not_le.mp hpast)) ?_)
    exact (Nat.zero_add n).symm ▸ Nat.not_le.mp hpast
  · intro hle hasks
    cases hasks with
    | now _ _ hpast =>
      have hlt : 11 < 0 + n := hpast
      omega
    | later _ hsize hfetch hturn hmore =>
      have hpos : 0 < n := hsize
      obtain ⟨buffers, hok, hpre, hcount⟩ | herror :=
        Segments.fetch_cases ⟨[oneByteBody]⟩ (0 + (n - 0))
      · have hall : buffers = [oneByteBody] := by
          rcases List.prefix_cons_iff.mp hpre with rfl | ⟨more, rfl, hmore⟩
          · exact absurd hcount (by rw [List.flatten_nil, List.length_nil]; omega)
          · rw [List.prefix_nil.mp hmore]
        rw [hall] at hok
        cases hok.symm.trans hfetch
        cases hturn
        exact not_asksPastEnd_of_done rfl hmore
      · cases herror.symm.trans hfetch

/-- All of the body is there, and a request of 12 bytes is answered with
    `kClosedBeforeEndOfStream`. -/
theorem oneByteBody_closed_before_end :
    ChunkedBody true 1 oneByteBody [97] ∧
      Segments.rest (Segments.mk [oneByteBody]) = oneByteBody ∧
      ∃ st', HttpChunkDecoder.fetchAtLeast 1 12 (.new (Segments.mk [oneByteBody]) true) =
          some (.error .kClosedBeforeEndOfStream, st') ∧
        ¬ Answers [97] 0 12 (.error .kClosedBeforeEndOfStream) :=
  ⟨oneByteBody_wellFormed, by decide, _, rfl, nofun⟩

end Batt.Http
