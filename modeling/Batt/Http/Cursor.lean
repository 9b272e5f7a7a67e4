/-
  The three cursors of `HttpChunkDecoder`: how far the source has been consumed, how far it
  has been decoded, and how much of the output has been consumed.

  `full` is what the source has to deliver, `Complete d₀ full` says that the decoder comes to
  the end of a body in it. `CursorsAt` ties the fields of the decoder to `full`: `before` has been
  consumed from the source, `ahead` is decoded behind it, and the client has consumed `taken`
  bytes of the output. Every call keeps it (`decodeFetched_cursors`, `consume_cursors`); a call
  decodes `before` no more and `ahead` once again, from the checkpoint.
-/
import Mathlib.Data.List.Infix
import Batt.Http.Automaton

namespace Batt.Http

open Transducer

/-! ## Sources -/

/-- What a source promises: `rest s` is what is still to come, of which it holds `held s` bytes
    ready. A fetch returns a first part of it, cut into buffers in any way, or fails; only
    bytes that it holds can be consumed. -/
structure Delivers (S : Type) [BufferSource S] (rest : S → Bytes) (held : S → Nat) : Prop where
  fetched_first : ∀ {s s' : S} {n : Nat} {buffers : List Bytes},
    BufferSource.fetchAtLeast s n = (.ok buffers, s') → buffers.flatten <+: rest s
  fetched_enough : ∀ {s s' : S} {n : Nat} {buffers : List Bytes},
    BufferSource.fetchAtLeast s n = (.ok buffers, s') → n ≤ buffers.flatten.length
  fetched_held : ∀ {s s' : S} {n : Nat} {buffers : List Bytes},
    BufferSource.fetchAtLeast s n = (.ok buffers, s') → buffers.flatten.length ≤ held s'
  failed_held : ∀ {s s' : S} {n : Nat} {status : StatusCode},
    BufferSource.fetchAtLeast s n = (.error status, s') → held s ≤ held s'
  fetch_rest : ∀ (s : S) (n : Nat), rest (BufferSource.fetchAtLeast s n).2 = rest s
  consume_rest : ∀ {s : S} {n : Nat}, n ≤ held s →
    rest (BufferSource.consume s n) = (rest s).drop n
  consume_held : ∀ {s : S} {n : Nat}, n ≤ held s →
    held s - n ≤ held (BufferSource.consume s n)

/-! ## Prefixes of a stream -/

/-- The decoder reads a body from the start of `full`. -/
def Complete (d₀ : ChunkedDecoder) (full : Bytes) : Prop :=
  (scanFrom d₀ full).mode = .stopped

variable {d₀ : ChunkedDecoder} {full x y : Bytes} {n count : Nat}

theorem emitted_mono (h : x <+: y) : (scanFrom d₀ x).emitted <+: (scanFrom d₀ y).emitted := by
  obtain ⟨z, rfl⟩ := h
  unfold scanFrom
  rw [feed_append]
  exact emitted_prefix_feed z

/-- A scan that has halted on a prefix has halted. -/
theorem scanFrom_of_halted (h : x <+: y) (hx : (scanFrom d₀ x).mode ≠ .running) :
    scanFrom d₀ y = scanFrom d₀ x := by
  obtain ⟨z, rfl⟩ := h
  unfold scanFrom at *
  rw [feed_append, feed_of_halted hx]

theorem Complete.not_failed (hfull : Complete d₀ full) (h : x <+: full) (e : StatusCode) :
    (scanFrom d₀ x).mode ≠ .failed e := by
  intro hx
  have heq := scanFrom_of_halted h (by rw [hx]; nofun)
  unfold Complete at hfull
  rw [heq, hx] at hfull
  cases hfull

/-- A scan that is still running has not come as far as one that has stopped. -/
theorem length_lt_of_stopped (hx : (scanFrom d₀ x).mode = .running)
    (hy : (scanFrom d₀ y).mode ≠ .running) (h₁ : x <+: full) (h₂ : y <+: full) :
    x.length < y.length := by
  by_contra hlt
  have hyx := List.prefix_of_prefix_length_le h₂ h₁ (Nat.le_of_not_lt hlt)
  rw [scanFrom_of_halted hyx hy] at hx
  exact hy hx

theorem bufferSize_eq (buffers : List Bytes) : bufferSize buffers = buffers.flatten.length := by
  rw [bufferSize, List.length_flatten]

/-- `consume_buffers_copy` drops bytes from the front. -/
theorem consumeBuffers_eq {buffers : List Bytes} (h : count ≤ buffers.flatten.length) :
    ∃ buffers', consumeBuffers buffers count = some buffers' ∧
      buffers'.flatten = buffers.flatten.drop count := by
  induction buffers generalizing count with
  | nil =>
    obtain rfl : count = 0 := Nat.le_zero.mp h
    exact ⟨[], rfl, rfl⟩
  | cons b buffers ih =>
    cases count with
    | zero => exact ⟨b :: buffers, rfl, rfl⟩
    | succ count =>
      rw [List.flatten_cons, List.length_append] at h
      unfold consumeBuffers
      by_cases hlt : b.length > count + 1
      · rw [if_pos hlt]
        refine ⟨_, rfl, ?_⟩
        rw [List.flatten_cons, List.flatten_cons, List.drop_append_of_le_length (by omega)]
      · rw [if_neg hlt]
        obtain ⟨buffers', heq, hflat⟩ := @ih (count + 1 - b.length) (by omega)
        refine ⟨buffers', heq, ?_⟩
        rw [hflat, List.flatten_cons, List.drop_append,
          List.drop_eq_nil_of_le (Nat.le_of_not_lt hlt), List.nil_append]

/-! ## A source of given buffers -/

/-- A source that hands out as few of its buffers as are asked for. -/
structure Segments where
  buffers : List Bytes
deriving Repr, DecidableEq

/-- The first buffers with at least `n` bytes. -/
def front : Nat → List Bytes → Option (List Bytes)
  | 0, _ => some []
  | _ + 1, [] => none
  | n + 1, b :: buffers => (front (n + 1 - b.length) buffers).map (b :: ·)

instance : BufferSource Segments where
  fetchAtLeast s n :=
    match front n s.buffers with
    | some buffers => (.ok buffers, s)
    | none => (.error .kEndOfStream, s)
  consume s n := ⟨(consumeBuffers s.buffers n).getD []⟩

def Segments.rest (s : Segments) : Bytes := s.buffers.flatten

def Segments.held (s : Segments) : Nat := s.buffers.flatten.length

theorem front_spec {buffers taken : List Bytes} (h : front n buffers = some taken) :
    taken <+: buffers ∧ n ≤ taken.flatten.length := by
  induction buffers generalizing n taken with
  | nil =>
    cases n with
    | zero =>
      cases h
      exact ⟨List.prefix_refl _, Nat.le_refl 0⟩
    | succ n => cases h
  | cons b buffers ih =>
    cases n with
    | zero =>
      cases h
      exact ⟨List.nil_prefix, Nat.le_refl 0⟩
    | succ n =>
      obtain ⟨taken', htaken, rfl⟩ := Option.map_eq_some_iff.mp h
      obtain ⟨hpre, hlen⟩ := ih htaken
      refine ⟨(List.prefix_cons_inj b).mpr hpre, ?_⟩
      rw [List.flatten_cons, List.length_append]
      omega

theorem Segments.fetch_cases (s : Segments) (n : Nat) :
    (∃ buffers, BufferSource.fetchAtLeast s n = (.ok buffers, s) ∧ buffers <+: s.buffers ∧
        n ≤ buffers.flatten.length) ∨
      BufferSource.fetchAtLeast s n = (.error .kEndOfStream, s) := by
  simp only [BufferSource.fetchAtLeast]
  cases hf : front n s.buffers with
  | some buffers => exact .inl ⟨buffers, rfl, front_spec hf⟩
  | none => exact .inr rfl

theorem Segments.delivers : Delivers Segments Segments.rest Segments.held where
  fetched_first {s s' n buffers} h := by
    rcases s.fetch_cases n with ⟨buffers', heq, ⟨more, hmore⟩, _⟩ | heq
    · rw [heq] at h
      cases h
      refine ⟨more.flatten, ?_⟩
      rw [← List.flatten_append, hmore]
      rfl
    · rw [heq] at h
      cases h
  fetched_enough {s s' n buffers} h := by
    rcases s.fetch_cases n with ⟨buffers', heq, _, hn⟩ | heq
    · rw [heq] at h
      cases h
      exact hn
    · rw [heq] at h
      cases h
  fetched_held {s s' n buffers} h := by
    rcases s.fetch_cases n with ⟨buffers', heq, ⟨more, hmore⟩, _⟩ | heq
    · rw [heq] at h
      cases h
      rw [Segments.held, ← hmore, List.flatten_append, List.length_append]
      exact Nat.le_add_right _ _
    · rw [heq] at h
      cases h
  failed_held {s s' n status} h := by
    rcases s.fetch_cases n with ⟨buffers', heq, _⟩ | heq
    · rw [heq] at h
      cases h
    · rw [heq] at h
      cases h
      exact Nat.le_refl _
  fetch_rest s n := by
    rcases s.fetch_cases n with ⟨buffers', heq, _⟩ | heq <;> rw [heq]
  consume_rest {s n} h := by
    obtain ⟨buffers', heq, hflat⟩ := consumeBuffers_eq h
    simp only [BufferSource.consume, Segments.rest, heq, Option.getD_some, hflat]
  consume_held {s n} h := by
    obtain ⟨buffers', heq, hflat⟩ := consumeBuffers_eq h
    simp only [BufferSource.consume, Segments.held, heq, Option.getD_some, hflat,
      List.length_drop, Nat.le_refl]

/-! ## The cursors between two calls -/

variable {S : Type} [BufferSource S]

structure CursorsAt (rest : S → Bytes) (held : S → Nat) (d₀ : ChunkedDecoder) (full : Bytes)
    (st : HttpChunkDecoder S) (before ahead : Bytes) (taken : Nat) : Prop where
  source : full = before ++ rest st.src
  ahead_first : ahead <+: rest st.src
  ahead_held : ahead.length ≤ held st.src
  size : st.decodedSrcSize = ahead.length
  checkpoint : (scanFrom d₀ before).state = st.decoderCheckpoint
  latest : (scanFrom d₀ (before ++ ahead)).state = st.decoderLatest
  read : (scanFrom d₀ (before ++ ahead)).consumed = before.length + ahead.length
  mode : (scanFrom d₀ (before ++ ahead)).mode = if st.done then .stopped else .running
  output : (scanFrom d₀ (before ++ ahead)).emitted =
    (scanFrom d₀ before).emitted ++ st.decodedChunks.flatten
  available : st.outputAvailable = st.decodedChunks.flatten.length
  consumed : st.outputConsumed < st.outputAvailable ∨ st.outputConsumed = 0
  taken_eq : taken = (scanFrom d₀ before).emitted.length + st.outputConsumed

variable {rest : S → Bytes} {held : S → Nat} {st : HttpChunkDecoder S} {before ahead : Bytes}
  {taken : Nat}

namespace CursorsAt

omit [BufferSource S]

theorem start (src : S) (trailer : Bool) :
    CursorsAt rest held { consumeTrailer := trailer } (rest src) (.new src trailer) [] [] 0 where
  source := rfl
  ahead_first := List.nil_prefix
  ahead_held := Nat.zero_le _
  size := rfl
  checkpoint := rfl
  latest := rfl
  read := rfl
  mode := rfl
  output := rfl
  available := rfl
  consumed := .inr rfl
  taken_eq := rfl

variable (h : CursorsAt rest held d₀ full st before ahead taken)
include h

theorem consumed_le : st.outputConsumed ≤ st.outputAvailable := by
  rcases h.consumed with hlt | hzero <;> omega

theorem size_eq : st.size = st.outputAvailable - st.outputConsumed := by
  unfold HttpChunkDecoder.size
  rw [if_pos h.consumed_le]

theorem ahead_full : before ++ ahead <+: full := by
  rw [h.source]
  exact (List.prefix_append_right_inj before).mpr h.ahead_first

theorem taken_le : taken ≤ (scanFrom d₀ (before ++ ahead)).emitted.length := by
  have hle := h.consumed_le
  rw [h.available] at hle
  rw [h.output, h.taken_eq, List.length_append]
  omega

/-- What the decoder holds ready is the output right behind what was taken. -/
theorem ready_eq : (scanFrom d₀ (before ++ ahead)).emitted.drop taken =
    st.decodedChunks.flatten.drop st.outputConsumed := by
  rw [h.output, h.taken_eq, List.drop_append, List.drop_eq_nil_of_le (Nat.le_add_right _ _),
    List.nil_append, Nat.add_sub_cancel_left]

theorem running (hdone : st.done = false) :
    (scanFrom d₀ (before ++ ahead)).mode = .running := by
  rw [h.mode, hdone]
  rfl

theorem before_running (hdone : st.done = false) : (scanFrom d₀ before).mode = .running := by
  by_contra hne
  have heq := scanFrom_of_halted (List.prefix_append before ahead) hne
  have hrun := h.running hdone
  rw [heq] at hrun
  exact hne hrun

/-- Once the decoder is done all the payload has been decoded. -/
theorem payload_eq {payload : Bytes} (hpayload : (scanFrom d₀ full).emitted = payload)
    (hdone : st.done = true) : payload.length = taken + st.size := by
  have hstop : (scanFrom d₀ (before ++ ahead)).mode ≠ .running := by
    rw [h.mode, hdone]
    nofun
  have heq := scanFrom_of_halted h.ahead_full hstop
  have hle := h.consumed_le
  rw [← hpayload, heq, h.output, List.length_append, h.size_eq, h.taken_eq, ← h.available]
  omega

/-- The further the decoder has come, the more there is to consume. -/
theorem size_le {st' : HttpChunkDecoder S} {before' ahead' : Bytes}
    (h' : CursorsAt rest held d₀ full st' before' ahead' taken)
    (hfar : before.length + ahead.length ≤ before'.length + ahead'.length) :
    st.size ≤ st'.size := by
  have hpre : before ++ ahead <+: before' ++ ahead' :=
    List.prefix_of_prefix_length_le h.ahead_full h'.ahead_full
      (by rw [List.length_append, List.length_append]; exact hfar)
  have hlen := (@emitted_mono d₀ _ _ hpre).length_le
  have hle := h.consumed_le
  rw [h.output, h'.output, List.length_append, List.length_append, ← h.available,
    ← h'.available] at hlen
  have htaken := h.taken_eq
  have htaken' := h'.taken_eq
  rw [h.size_eq, h'.size_eq]
  omega

theorem setSrc {src : S} (hrest : rest src = rest st.src) (hheld : ahead.length ≤ held src) :
    CursorsAt rest held d₀ full { st with src := src } before ahead taken :=
  { h with
    source := by
      simp only [hrest]
      exact h.source
    ahead_first := by
      simp only [hrest]
      exact h.ahead_first
    ahead_held := hheld }

end CursorsAt

/-! ## A turn of the loop over the fetched buffers -/

section Pass

omit [BufferSource S]

/-- The cursors in the middle of a turn: `ahead` is what the turn has decoded, and `gone`, of
    `nToConsume` bytes, the part of it that will be consumed from the source. It is a
    first part: once a buffer is kept, so are those behind it. -/
structure Pass (d₀ : ChunkedDecoder) (st : HttpChunkDecoder S) (nToConsume : Nat)
    (before gone ahead : Bytes) (taken : Nat) : Prop where
  gone_first : gone <+: ahead
  count : nToConsume = gone.length
  size : st.decodedSrcSize = ahead.length
  checkpoint : (scanFrom d₀ (before ++ gone)).state = st.decoderCheckpoint
  latest : (scanFrom d₀ (before ++ ahead)).state = st.decoderLatest
  read : (scanFrom d₀ (before ++ ahead)).consumed = before.length + ahead.length
  output : (scanFrom d₀ (before ++ ahead)).emitted =
    (scanFrom d₀ (before ++ gone)).emitted ++ st.decodedChunks.flatten
  taken_eq : taken = (scanFrom d₀ (before ++ gone)).emitted.length + st.outputConsumed
  phase : (gone = ahead ∧ st.decodedChunks = []) ∨ st.outputConsumed = 0 ∨
    st.outputConsumed < st.decodedChunks.flatten.length

variable {nToConsume : Nat} {gone : Bytes}

theorem skipConsumed_src (n m : Nat) : (st.skipConsumed n m).1.src = st.src := by
  unfold HttpChunkDecoder.skipConsumed
  split <;> rfl

theorem skipConsumed_done (n m : Nat) : (st.skipConsumed n m).1.done = st.done := by
  unfold HttpChunkDecoder.skipConsumed
  split <;> rfl

/-- After `more` has been decoded, what the client has consumed is skipped. -/
theorem Pass.skipConsumed (h : Pass d₀ st nToConsume before gone ahead taken) {more : Bytes}
    {chunks : List Bytes} {latest : ChunkedDecoder}
    (hlatest : (scanFrom d₀ (before ++ (ahead ++ more))).state = latest)
    (hread : (scanFrom d₀ (before ++ (ahead ++ more))).consumed =
      before.length + (ahead ++ more).length)
    (hchunks : st.decodedChunks.flatten <+: chunks.flatten)
    (hout : (scanFrom d₀ (before ++ (ahead ++ more))).emitted =
      (scanFrom d₀ (before ++ gone)).emitted ++ chunks.flatten) :
    ∃ st' n' gone', HttpChunkDecoder.skipConsumed
        { st with
          decoderLatest := latest
          decodedChunks := chunks
          decodedSrcSize := st.decodedSrcSize + more.length } nToConsume more.length = (st', n') ∧
      Pass d₀ st' n' before gone' (ahead ++ more) taken := by
  have hsize : st.decodedSrcSize + more.length = (ahead ++ more).length := by
    rw [h.size, List.length_append]
  have hgone : gone <+: ahead ++ more := h.gone_first.trans (List.prefix_append ahead more)
  unfold HttpChunkDecoder.skipConsumed
  rw [bufferSize_eq]
  by_cases hskip : st.outputConsumed ≠ 0 ∧ st.outputConsumed ≥ chunks.flatten.length
  · -- then nothing had been kept: the output kept before is not longer than what is there now
    obtain ⟨rfl, hnil⟩ : gone = ahead ∧ st.decodedChunks = [] := by
      have hle := hchunks.length_le
      rcases h.phase with hall | hzero | hlt
      · exact hall
      · exact absurd hzero hskip.1
      · omega
    rw [if_pos hskip]
    refine ⟨_, _, gone ++ more, rfl, ?_⟩
    exact {
      gone_first := List.prefix_refl _
      count := by rw [h.count, List.length_append]
      size := hsize
      checkpoint := hlatest
      latest := hlatest
      read := hread
      output := by rw [List.flatten_nil, List.append_nil]
      taken_eq := by
        simp only
        rw [h.taken_eq, hout, List.length_append]
        omega
      phase := .inl ⟨rfl, rfl⟩ }
  · rw [if_neg hskip]
    refine ⟨_, _, gone, rfl, ?_⟩
    exact {
      gone_first := hgone
      count := h.count
      size := hsize
      checkpoint := h.checkpoint
      latest := hlatest
      read := hread
      output := hout
      taken_eq := h.taken_eq
      phase := by
        by_cases hzero : st.outputConsumed = 0
        · exact .inr (.inl hzero)
        · exact .inr (.inr (Nat.lt_of_not_le fun hge => hskip ⟨hzero, hge⟩)) }

/-- `decode_chunked` on the buffer behind `x`: it reads `more` of it, all of it unless the
    body ends there. -/
theorem decodeChunked_at (hready : d₀.Ready) (hfull : Complete d₀ full)
    (hrun : (scanFrom d₀ x).mode = .running) {b : Bytes} (hb : x ++ b <+: full)
    (output : List Bytes) :
    ∃ more output' done, more <+: b ∧
      decodeChunked (scanFrom d₀ x).state b output =
        some ⟨.ok ⟨done, more.length⟩, (scanFrom d₀ (x ++ more)).state, output'⟩ ∧
      (scanFrom d₀ (x ++ more)).consumed = (scanFrom d₀ x).consumed + more.length ∧
      (∃ e, (scanFrom d₀ (x ++ more)).emitted = (scanFrom d₀ x).emitted ++ e ∧
        output'.flatten = output.flatten ++ e) ∧
      (scanFrom d₀ (x ++ more)).mode = (if done then .stopped else .running) ∧
      (done = false → more = b) := by
  obtain ⟨output', hdec, hout⟩ :=
    decodeChunked_eq (@scanFrom_ready d₀ x hready) b output
  have hfail : ∀ e, (scanFrom (scanFrom d₀ x).state b).mode ≠ .failed e := by
    have hnot := hfull.not_failed hb
    rwa [scanFrom_append hrun] at hnot
  obtain ⟨n, hn, hread, htake, hall⟩ :=
    feed_take_consumed (start_mode (scanFrom d₀ x).state) b hfail
  have hlen : (b.take n).length = n := by rw [List.length_take]; omega
  have htaken : scanFrom (scanFrom d₀ x).state (b.take n) = scanFrom (scanFrom d₀ x).state b :=
    htake
  have happ := scanFrom_append hrun (b.take n)
  rw [htaken] at happ
  have hconsumed : (scanFrom (scanFrom d₀ x).state b).consumed = n := by
    rw [start_consumed, Nat.zero_add] at hread
    exact hread
  refine ⟨b.take n, output', (scanFrom (scanFrom d₀ x).state b).mode = .stopped,
    List.take_prefix n b, ?_, ?_, ⟨_, ?_, hout⟩, ?_, ?_⟩
  · rw [hdec, happ, hlen]
    cases hmode : (scanFrom (scanFrom d₀ x).state b).mode with
    | running => simp only [resultOf, hmode, hconsumed, Nat.zero_add]; rfl
    | stopped => simp only [resultOf, hmode, hconsumed, Nat.zero_add]; rfl
    | failed e => exact absurd hmode (hfail e)
  · rw [happ, hlen, Scan.andThen, hconsumed]
  · rw [happ]
    rfl
  · rw [happ]
    cases hmode : (scanFrom (scanFrom d₀ x).state b).mode with
    | running => simpa [Scan.andThen] using hmode
    | stopped => simpa [Scan.andThen] using hmode
    | failed e => exact absurd hmode (hfail e)
  · intro hdone
    have hnot : (scanFrom (scanFrom d₀ x).state b).mode ≠ .stopped := of_decide_eq_false hdone
    cases hmode : (scanFrom (scanFrom d₀ x).state b).mode with
    | running => rw [hall hmode, List.take_length]
    | stopped => exact absurd hmode hnot
    | failed e => exact absurd hmode (hfail e)

/-- The loop over the buffers decodes all of them, up to the end of the body. -/
theorem Pass.decodeBuffers (h : Pass d₀ st nToConsume before gone ahead taken)
    (hready : d₀.Ready) (hfull : Complete d₀ full) {buffers : List Bytes}
    (hbuffers : before ++ ahead ++ buffers.flatten <+: full)
    (hrun : (scanFrom d₀ (before ++ ahead)).mode = .running) (hdone : st.done = false) :
    ∃ st' n' gone' more,
      HttpChunkDecoder.decodeBuffers buffers st nToConsume = some (none, st', n') ∧
      Pass d₀ st' n' before gone' (ahead ++ more) taken ∧ more <+: buffers.flatten ∧
      (scanFrom d₀ (before ++ (ahead ++ more))).mode =
        (if st'.done then .stopped else .running) ∧
      (st'.done = false → more = buffers.flatten) ∧ st'.src = st.src := by
  induction buffers generalizing st nToConsume gone ahead with
  | nil =>
    refine ⟨st, nToConsume, gone, [], rfl, ?_, List.prefix_refl _, ?_, fun _ => rfl, rfl⟩
    · rw [List.append_nil]
      exact h
    · rw [List.append_nil, hrun, hdone]
      rfl
  | cons b buffers ih =>
    rw [List.flatten_cons, ← List.append_assoc] at hbuffers
    have hb : before ++ ahead ++ b <+: full :=
      (List.prefix_append _ buffers.flatten).trans hbuffers
    obtain ⟨more, chunks, done, hmore, hdec, hread, ⟨e, hemit, hchunks⟩, hmode, hall⟩ :=
      decodeChunked_at hready hfull hrun hb st.decodedChunks
    rw [h.latest] at hdec
    rw [List.append_assoc] at hdec hread hemit hmode
    obtain ⟨st₁, n₁, gone₁, hskip, hpass⟩ := h.skipConsumed
      (rfl : (scanFrom d₀ (before ++ (ahead ++ more))).state = _) (by rw [hread, h.read, List.length_append, Nat.add_assoc])
      ⟨e, hchunks.symm⟩ (by rw [hemit, h.output, hchunks, List.append_assoc])
    have hsrc : st₁.src = st.src := by
      have := congrArg (fun r => r.1.src) hskip
      rw [skipConsumed_src] at this
      exact this.symm
    have hdone₁ : st₁.done = false := by
      have := congrArg (fun r => r.1.done) hskip
      rw [skipConsumed_done] at this
      exact this.symm.trans hdone
    unfold HttpChunkDecoder.decodeBuffers
    simp only [hdec, hskip]
    cases done with
    | true =>
      exact ⟨_, n₁, gone₁, more, rfl, { hpass with },
        hmore.trans (List.prefix_append b _), hmode, nofun, hsrc⟩
    | false =>
      obtain rfl : more = b := hall rfl
      obtain ⟨st', n', gone', more', heq, hpass', hmore', hmode', hall', hsrc'⟩ :=
        ih hpass (by rw [← List.append_assoc]; exact hbuffers) hmode hdone₁
      refine ⟨st', n', gone', more ++ more', heq, ?_, ?_, ?_, ?_, hsrc'.trans hsrc⟩
      · rw [← List.append_assoc]
        exact hpass'
      · exact (List.prefix_append_right_inj more).mpr hmore'
      · rw [← hmode', ← List.append_assoc ahead]
      · intro hd
        rw [List.flatten_cons, hall' hd]

end Pass

/-! ## Turns of the while loop -/

theorem onLoopExit_src (hsrc : Delivers S rest held) (hn : n ≤ held st.src) :
    rest (st.onLoopExit n).src = (rest st.src).drop n ∧
      held st.src - n ≤ held (st.onLoopExit n).src := by
  unfold HttpChunkDecoder.onLoopExit
  by_cases hpos : n > 0
  · simp only [if_pos hpos, HttpChunkDecoder.consumeFromSrc]
    exact ⟨hsrc.consume_rest hn, hsrc.consume_held hn⟩
  · obtain rfl : n = 0 := by omega
    exact ⟨rfl, Nat.le_refl _⟩

theorem onLoopExit_eq (n : Nat) : st.onLoopExit n =
    { st with
      src := (st.onLoopExit n).src
      decodedSrcSize := st.decodedSrcSize - n
      outputAvailable := st.decodedChunks.flatten.length } := by
  rw [← bufferSize_eq]
  unfold HttpChunkDecoder.onLoopExit
  by_cases hpos : n > 0
  · simp only [if_pos hpos, HttpChunkDecoder.consumeFromSrc]
  · obtain rfl : n = 0 := by omega
    rfl

/-- The end of a turn gives the cursors their new place. -/
theorem Pass.cursors (hsrc : Delivers S rest held) {gone : Bytes}
    (h : Pass d₀ st n before gone ahead taken) (hfull : full = before ++ rest st.src)
    (hahead : ahead <+: rest st.src) (hheld : ahead.length ≤ held st.src)
    (hmode : (scanFrom d₀ (before ++ ahead)).mode = (if st.done then .stopped else .running))
    (htaken : taken ≤ (scanFrom d₀ (before ++ ahead)).emitted.length) :
    ∃ kept, ahead = gone ++ kept ∧
      CursorsAt rest held d₀ full (st.onLoopExit n) (before ++ gone) kept taken := by
  obtain ⟨kept, rfl⟩ := h.gone_first
  obtain ⟨after, hrest⟩ := hahead
  rw [List.length_append] at hheld
  have hn : n ≤ held st.src := by
    rw [h.count]
    omega
  obtain ⟨hdrop, hleft⟩ := onLoopExit_src hsrc hn
  have hsplit : (rest st.src).drop n = kept ++ after := by
    rw [← hrest, h.count, List.append_assoc, List.drop_left]
  have hassoc : before ++ gone ++ kept = before ++ (gone ++ kept) := List.append_assoc _ _ _
  refine ⟨kept, rfl, ?_⟩
  rw [onLoopExit_eq]
  exact {
    source := by rw [hdrop, hsplit, hfull, ← hrest]; simp only [List.append_assoc]
    ahead_first := by
      rw [hdrop, hsplit]
      exact List.prefix_append kept after
    ahead_held := by
      refine Nat.le_trans ?_ hleft
      rw [h.count]
      omega
    size := by
      simp only
      rw [h.size, h.count, List.length_append]
      omega
    checkpoint := h.checkpoint
    latest := by rw [hassoc]; exact h.latest
    read := by
      rw [hassoc, h.read, List.length_append, List.length_append, Nat.add_assoc]
    mode := by rw [hassoc]; exact hmode
    output := by rw [hassoc]; exact h.output
    available := rfl
    consumed := by
      rcases h.phase with ⟨hgone, _⟩ | hzero | hlt
      · -- everything is skipped: the client has consumed no more than was decoded before
        rw [← hgone] at htaken
        have := h.taken_eq
        right
        simp only
        omega
      · exact .inr hzero
      · exact .inl hlt
    taken_eq := h.taken_eq }

/-- A turn decodes what was fetched, all of it as long as the body has not come to its end. -/
theorem decodeFetched_cursors (hsrc : Delivers S rest held) (hready : d₀.Ready)
    (hfull : Complete d₀ full) (h : CursorsAt rest held d₀ full st before ahead taken)
    (hdone : st.done = false) {fetched : List Bytes} (hpre : fetched.flatten <+: rest st.src)
    (hlong : ahead.length < fetched.flatten.length)
    (hheld : fetched.flatten.length ≤ held st.src) :
    ∃ st' before' ahead', st.decodeFetched fetched = some (none, st') ∧
      CursorsAt rest held d₀ full st' before' ahead' taken ∧
      before.length + ahead.length < before'.length + ahead'.length ∧
      before'.length + ahead'.length ≤ before.length + fetched.flatten.length ∧
      (st'.done = false →
        before'.length + ahead'.length = before.length + fetched.flatten.length) := by
  have hbefore : before ++ fetched.flatten <+: full := by
    rw [h.source]
    exact (List.prefix_append_right_inj before).mpr hpre
  have hrun := h.before_running hdone
  have hstart : Pass d₀
      { st with decodedSrcSize := 0, decodedChunks := [], decoderLatest := st.decoderCheckpoint }
      0 before [] [] taken := by
    have hnil : before ++ [] = before := List.append_nil before
    exact {
      gone_first := List.prefix_refl _
      count := rfl
      size := rfl
      checkpoint := by rw [hnil]; exact h.checkpoint
      latest := by rw [hnil]; exact h.checkpoint
      read := by
        rw [hnil]
        have hc := consumed_of_running (start_mode d₀) hrun
        rwa [start_consumed, Nat.zero_add] at hc
      output := (List.append_nil _).symm
      taken_eq := by rw [hnil]; exact h.taken_eq
      phase := .inl ⟨rfl, rfl⟩ }
  obtain ⟨st', n', gone, more, heq, hpass, hmore, hmode, hall, hsame⟩ :=
    @Pass.decodeBuffers d₀ full S _ before [] taken 0 [] hstart hready hfull fetched
      (by rw [List.append_nil]; exact hbefore) (by rw [List.append_nil]; exact hrun) hdone
  rw [List.nil_append] at hpass hmode
  have hmoreFull : before ++ more <+: full :=
    ((List.prefix_append_right_inj before).mpr hmore).trans hbefore
  -- the turn decodes `ahead` again and at least one byte behind it
  have hlonger : ahead.length < more.length := by
    cases hd : st'.done with
    | false =>
      rw [hall hd]
      exact hlong
    | true =>
      rw [hd] at hmode
      have hlt := length_lt_of_stopped (h.running hdone) (by rw [hmode]; nofun) h.ahead_full
        hmoreFull
      rw [List.length_append, List.length_append] at hlt
      omega
  have haheadMore : before ++ ahead <+: before ++ more :=
    List.prefix_of_prefix_length_le h.ahead_full hmoreFull
      (by rw [List.length_append, List.length_append]; omega)
  have hsource : full = before ++ rest st'.src := by
    rw [hsame]
    exact h.source
  obtain ⟨kept, rfl, hcursors⟩ := hpass.cursors hsrc hsource (by rw [hsame]; exact hmore.trans hpre)
    (by rw [hsame]; exact Nat.le_trans hmore.length_le hheld) hmode
    (Nat.le_trans h.taken_le (emitted_mono haheadMore).length_le)
  have hle := hmore.length_le
  rw [List.length_append] at hlonger hle
  refine ⟨_, _, kept, ?_, hcursors, ?_, ?_, ?_⟩
  · unfold HttpChunkDecoder.decodeFetched
    rw [heq]
  · rw [List.length_append]
    omega
  · rw [List.length_append]
    omega
  · intro hd
    rw [onLoopExit_eq] at hd
    rw [List.length_append, ← hall hd, List.length_append]
    omega

/-! ## Letting go -/

/-- At the end of the body, with its output consumed, nothing is left to let go. -/
def HttpChunkDecoder.Settled (st : HttpChunkDecoder S) : Prop :=
  st.done = true → st.size = 0 → st.decodedSrcSize = 0

/-- `release_decoded_chunks` moves the first cursor up to the second: all the output is taken. -/
theorem CursorsAt.release (hsrc : Delivers S rest held)
    (h : CursorsAt rest held d₀ full st before ahead taken) {taken' : Nat}
    (htaken : taken' = (scanFrom d₀ (before ++ ahead)).emitted.length) (consumed : Nat) :
    CursorsAt rest held d₀ full
      { st with outputConsumed := consumed }.releaseDecodedChunks (before ++ ahead) [] taken' := by
  have hrest := hsrc.consume_rest h.ahead_held
  obtain ⟨after, hafter⟩ := h.ahead_first
  have hnil : before ++ ahead ++ [] = before ++ ahead := List.append_nil _
  unfold HttpChunkDecoder.releaseDecodedChunks HttpChunkDecoder.consumeFromSrc
  exact {
    source := by
      simp only [h.size]
      rw [hrest, h.source, ← hafter, List.drop_left, List.append_assoc]
    ahead_first := List.nil_prefix
    ahead_held := Nat.zero_le _
    size := by
      simp only [Nat.sub_self]
      rfl
    checkpoint := h.latest
    latest := by
      rw [hnil]
      exact h.latest
    read := by
      rw [hnil, h.read, List.length_append]
      rfl
    mode := by
      rw [hnil]
      exact h.mode
    output := by rw [hnil, List.flatten_nil, List.append_nil]
    available := rfl
    consumed := .inr rfl
    taken_eq := htaken }

theorem settled_release : st.releaseDecodedChunks.Settled := by
  intro _ _
  simp only [HttpChunkDecoder.releaseDecodedChunks, HttpChunkDecoder.consumeFromSrc, Nat.sub_self]

theorem CursorsAt.releaseIfEmpty (hsrc : Delivers S rest held)
    (h : CursorsAt rest held d₀ full st before ahead taken) :
    ∃ before' ahead', CursorsAt rest held d₀ full st.releaseIfEmpty before' ahead' taken ∧
      st.releaseIfEmpty.Settled ∧ st.releaseIfEmpty.done = st.done ∧
      st.size ≤ st.releaseIfEmpty.size := by
  unfold HttpChunkDecoder.releaseIfEmpty
  by_cases hzero : st.size = 0
  · have htaken : taken = (scanFrom d₀ (before ++ ahead)).emitted.length := by
      have hsize := h.size_eq
      have hcons := h.consumed
      rw [h.output, h.taken_eq, List.length_append, ← h.available]
      omega
    rw [if_pos hzero]
    exact ⟨_, _, h.release hsrc htaken st.outputConsumed, settled_release, rfl,
      hzero ▸ Nat.zero_le _⟩
  · rw [if_neg hzero]
    exact ⟨_, _, h, fun _ hs => absurd hs hzero, rfl, Nat.le_refl _⟩

/-- `consume` succeeds for what is there, and moves the third cursor. -/
theorem CursorsAt.consume (hsrc : Delivers S rest held)
    (h : CursorsAt rest held d₀ full st before ahead taken) (hcount : count ≤ st.size) :
    ∃ st' before' ahead', st.consume count = some st' ∧
      CursorsAt rest held d₀ full st' before' ahead' (taken + count) ∧ st'.Settled ∧
      st'.size = st.size - count := by
  have hsize := h.size_eq
  have hle := h.consumed_le
  have hfits : st.outputConsumed + count ≤ st.outputAvailable := by omega
  unfold HttpChunkDecoder.consume
  simp only [if_pos hfits]
  by_cases hall : st.outputConsumed + count = st.outputAvailable
  · rw [if_pos hall]
    have htaken : taken + count = (scanFrom d₀ (before ++ ahead)).emitted.length := by
      rw [h.output, h.taken_eq, List.length_append, ← h.available]
      omega
    refine ⟨_, _, _, rfl, h.release hsrc htaken _, settled_release, ?_⟩
    have hempty : st.size - count = 0 := by omega
    rw [hempty]
    rfl
  · rw [if_neg hall]
    have hlt : st.outputConsumed + count < st.outputAvailable := by omega
    have hleft : HttpChunkDecoder.size
        { st with outputConsumed := st.outputConsumed + count } = st.size - count := by
      rw [hsize, Nat.sub_sub]
      exact if_pos hfits
    refine ⟨_, before, ahead, rfl, ?_, ?_, hleft⟩
    · exact { h with
        consumed := .inl hlt
        taken_eq := by
          simp only
          rw [h.taken_eq, Nat.add_assoc] }
    · intro _ hs
      rw [hleft] at hs
      omega

theorem CursorsAt.le_size_of_consume (h : CursorsAt rest held d₀ full st before ahead taken)
    {st' : HttpChunkDecoder S} (hc : st.consume count = some st') : count ≤ st.size := by
  have hsize := h.size_eq
  unfold HttpChunkDecoder.consume at hc
  simp only at hc
  by_cases hfits : st.outputConsumed + count ≤ st.outputAvailable
  · omega
  · rw [if_neg hfits] at hc
    cases hc

end Batt.Http
