/-
  `HttpChunkDecoder` hands out the payload of a body, byte for byte.

  A run is a sequence of calls of `fetch_at_least` and `consume` with what they returned.
  `fetchAtLeast_cursors` says what a fetch does to the cursors, for every source that keeps
  its promise, and `run_cursors` that they are in place after every run.
-/
import Batt.Http.Cursor
import Batt.Http.Grammar

namespace Batt.Http

open Transducer

variable {S : Type} [BufferSource S] {rest : S → Bytes} {held : S → Nat} {d₀ : ChunkedDecoder}
  {full before ahead payload : Bytes} {taken : Nat} {st : HttpChunkDecoder S}
  {post events : List Event} {st' st₀ : HttpChunkDecoder S} {result : FetchResult}

/-! ## A fetch -/

/-- The ways in which a fetch of `n` bytes ends, when the client has consumed `taken` bytes
    of `payload`. Where the source has failed, or the count to ask it for does not fit, the
    cursors of that moment say with what it was asked. -/
inductive Fetched (rest : S → Bytes) (held : S → Nat) (d₀ : ChunkedDecoder)
    (full payload : Bytes) (taken n : Nat) (st' : HttpChunkDecoder S) : FetchResult → Prop where
  | ok {buffers : List Bytes} (hfirst : buffers.flatten <+: payload.drop taken)
      (hn : n ≤ buffers.flatten.length) (hsize : buffers.flatten.length = st'.size) :
      Fetched rest held d₀ full payload taken n st' (.ok buffers)
  | endOfStream (hdone : st'.done = true) (hshort : payload.length < taken + n) :
      Fetched rest held d₀ full payload taken n st' (.error .kEndOfStream)
  | failed {st : HttpChunkDecoder S} {before ahead : Bytes} {status : StatusCode} {src : S}
      (hcursors : CursorsAt rest held d₀ full st before ahead taken) (hdone : st.done = false)
      (hsize : st.size < n)
      (hsrc : BufferSource.fetchAtLeast st.src (st.srcMinCount n) = (.error status, src)) :
      Fetched rest held d₀ full payload taken n st'
        (.error (if status = .kEndOfStream then .kClosedBeforeEndOfStream else status))
  | overflow {st : HttpChunkDecoder S} {before ahead : Bytes}
      (hcursors : CursorsAt rest held d₀ full st before ahead taken) (hdone : st.done = false)
      (hsize : st.size < n) (hcount : 2 ^ 63 ≤ st.srcMinCount n) :
      Fetched rest held d₀ full payload taken n st' .abort

theorem Fetched.end_reached {n : Nat}
    (h : Fetched rest held d₀ full payload taken n st' (.error .kEndOfStream)) :
    payload.length < taken + n := by
  generalize hresult : FetchResult.error .kEndOfStream = result at h
  cases h with
  | ok _ _ _ => cases hresult
  | endOfStream _ hshort => exact hshort
  | @failed _ _ _ status _ _ _ _ _ =>
    -- the end of the source is reported under another name
    by_cases heos : status = .kEndOfStream
    · rw [if_pos heos] at hresult
      cases hresult
    · rw [if_neg heos] at hresult
      exact absurd (FetchResult.error.inj hresult).symm heos
  | overflow _ _ _ _ => cases hresult

theorem CursorsAt.fetchedChunks (h : CursorsAt rest held d₀ full st before ahead taken)
    (hpayload : (scanFrom d₀ full).emitted = payload) {n : Nat} (hn : n ≤ st.size) :
    Fetched rest held d₀ full payload taken n st st.fetchedChunks := by
  have hle := h.consumed_le
  rw [h.available] at hle
  obtain ⟨buffers, heq, hflat⟩ := consumeBuffers_eq hle
  have hlen : buffers.flatten.length = st.size := by
    rw [hflat, List.length_drop, h.size_eq, h.available]
  unfold HttpChunkDecoder.fetchedChunks
  rw [heq]
  refine .ok ?_ (by omega) hlen
  rw [hflat, ← h.ready_eq, ← hpayload]
  exact (emitted_mono h.ahead_full).drop taken

/-- Where a fetch from `st` leaves off. -/
structure FetchDone (rest : S → Bytes) (held : S → Nat) (d₀ : ChunkedDecoder)
    (full payload : Bytes) (taken n : Nat) (st : HttpChunkDecoder S) (result : FetchResult)
    (st' : HttpChunkDecoder S) : Prop where
  cursors : ∃ before ahead, CursorsAt rest held d₀ full st' before ahead taken
  settled : st'.Settled
  grown : st.size ≤ st'.size
  fetched : Fetched rest held d₀ full payload taken n st' result

theorem CursorsAt.sourceFailed (hsrc : Delivers S rest held)
    (h : CursorsAt rest held d₀ full st before ahead taken) (hdone : st.done = false) {n : Nat}
    (hsize : st.size < n) {status : StatusCode} {src : S}
    (hfetch : BufferSource.fetchAtLeast st.src (st.srcMinCount n) = (.error status, src)) :
    ∃ result st', HttpChunkDecoder.sourceFailed { st with src := src } status = (result, st') ∧
      FetchDone rest held d₀ full payload taken n st result st' := by
  have hrest : rest src = rest st.src := by
    have heq := hsrc.fetch_rest st.src (st.srcMinCount n)
    rwa [hfetch] at heq
  have hmoved := h.setSrc hrest (Nat.le_trans h.ahead_held (hsrc.failed_held hfetch))
  have hfailed : ∀ st', Fetched rest held d₀ full payload taken n st'
      (.error (if status = .kEndOfStream then .kClosedBeforeEndOfStream else status)) :=
    fun _ => .failed h hdone hsize hfetch
  unfold HttpChunkDecoder.sourceFailed
  by_cases heos : status = .kEndOfStream
  · simp only [if_pos heos] at hfailed ⊢
    obtain ⟨before', ahead', hcursors, hsettled, _, hgrown⟩ := hmoved.releaseIfEmpty hsrc
    exact ⟨_, _, rfl, ⟨before', ahead', hcursors⟩, hsettled, hgrown, hfailed _⟩
  · simp only [if_neg heos] at hfailed ⊢
    refine ⟨_, _, rfl, ⟨before, ahead, hmoved⟩, ?_, Nat.le_refl _, hfailed _⟩
    intro hd
    rw [hdone] at hd
    cases hd

/-- **A fetch returns, and keeps the cursors.** Each turn of its loop decodes a byte more than
    the one before, so as many turns as the stream has bytes are enough. -/
theorem fetchAtLeast_cursors (hsrc : Delivers S rest held) (hready : d₀.Ready)
    (hfull : Complete d₀ full) (hpayload : (scanFrom d₀ full).emitted = payload) {n fuel : Nat}
    (h : CursorsAt rest held d₀ full st before ahead taken) (hset : st.Settled ∨ 0 < n)
    (hfuel : full.length < fuel + (before.length + ahead.length)) :
    ∃ result st', HttpChunkDecoder.fetchAtLeast fuel n st = some (result, st') ∧
      FetchDone rest held d₀ full payload taken n st result st' := by
  induction fuel generalizing st before ahead with
  | zero =>
    have hle := h.ahead_full.length_le
    rw [List.length_append] at hle
    omega
  | succ fuel ih =>
    unfold HttpChunkDecoder.fetchAtLeast
    by_cases henough : n ≤ st.size
    · rw [if_pos henough]
      refine ⟨_, _, rfl, ⟨before, ahead, h⟩, ?_, Nat.le_refl _,
        h.fetchedChunks hpayload henough⟩
      rcases hset with hset | hpos
      · exact hset
      · intro _ hzero
        omega
    rw [if_neg henough]
    have hlt : st.size < n := Nat.lt_of_not_le henough
    by_cases hdone : st.done = true
    · rw [if_pos hdone]
      obtain ⟨before', ahead', hcursors, hsettled, hsame, hgrown⟩ := h.releaseIfEmpty hsrc
      have hshort := h.payload_eq hpayload hdone
      exact ⟨_, _, rfl, ⟨before', ahead', hcursors⟩, hsettled, hgrown,
        .endOfStream (hsame.trans hdone) (by omega)⟩
    rw [if_neg hdone]
    have hmore : st.done = false := Bool.eq_false_iff.mpr hdone
    by_cases hover : 2 ^ 63 ≤ st.srcMinCount n
    · rw [if_pos hover]
      exact ⟨_, _, rfl, ⟨before, ahead, h⟩, fun hd => absurd hd hdone, Nat.le_refl _,
        .overflow h hmore hlt hover⟩
    rw [if_neg hover]
    cases hfetch : BufferSource.fetchAtLeast st.src (st.srcMinCount n) with
    | mk answer src =>
      have hrest : rest src = rest st.src := by
        have heq := hsrc.fetch_rest st.src (st.srcMinCount n)
        rwa [hfetch] at heq
      cases answer with
      | error status =>
        obtain ⟨result, st', heq, hdone'⟩ := h.sourceFailed hsrc hmore hlt hfetch
        exact ⟨result, st', by simp only [heq], hdone'⟩
      | ok fetched =>
        have hcount := hsrc.fetched_enough hfetch
        have hlong : ahead.length < fetched.flatten.length := by
          unfold HttpChunkDecoder.srcMinCount at hcount
          rw [h.size] at hcount
          omega
        have hpre : fetched.flatten <+: rest src := by
          rw [hrest]
          exact hsrc.fetched_first hfetch
        have hheld := hsrc.fetched_held hfetch
        have hmoved := h.setSrc hrest (by omega)
        obtain ⟨st', before', ahead', heq, hcursors, hfar, -, -⟩ :=
          decodeFetched_cursors hsrc hready hfull hmoved hmore hpre hlong hheld
        simp only [heq]
        obtain ⟨result, st'', heq', hfetched⟩ := ih hcursors (.inr (by omega)) (by omega)
        exact ⟨result, st'', heq',
          { hfetched with
            grown := Nat.le_trans (h.size_le hcursors (Nat.le_of_lt hfar)) hfetched.grown }⟩

/-- A turn of the loop returns, or leads to the next one. -/
theorem fetchAtLeast_turn (n : Nat) (st : HttpChunkDecoder S) :
    (∃ r, ∀ fuel, HttpChunkDecoder.fetchAtLeast (fuel + 1) n st = r) ∨
      ∃ st', ∀ fuel, HttpChunkDecoder.fetchAtLeast (fuel + 1) n st =
        HttpChunkDecoder.fetchAtLeast fuel n st' := by
  by_cases henough : n ≤ st.size
  · exact .inl ⟨_, fun fuel => by rw [HttpChunkDecoder.fetchAtLeast, if_pos henough]⟩
  by_cases hdone : st.done = true
  · exact .inl ⟨_, fun fuel => by
      rw [HttpChunkDecoder.fetchAtLeast, if_neg henough, if_pos hdone]⟩
  by_cases hover : 2 ^ 63 ≤ st.srcMinCount n
  · exact .inl ⟨_, fun fuel => by
      rw [HttpChunkDecoder.fetchAtLeast, if_neg henough, if_neg hdone, if_pos hover]⟩
  cases hfetch : BufferSource.fetchAtLeast st.src (st.srcMinCount n) with
  | mk answer src =>
    cases answer with
    | error status =>
      exact .inl ⟨_, fun fuel => by
        rw [HttpChunkDecoder.fetchAtLeast, if_neg henough, if_neg hdone, if_neg hover, hfetch]⟩
    | ok fetched =>
      match hdec : HttpChunkDecoder.decodeFetched { st with src := src } fetched with
      | none =>
        exact .inl ⟨none, fun fuel => by
          rw [HttpChunkDecoder.fetchAtLeast, if_neg henough, if_neg hdone, if_neg hover, hfetch]
          simp only [hdec]⟩
      | some (some status, st') =>
        exact .inl ⟨some (.error status, st'), fun fuel => by
          rw [HttpChunkDecoder.fetchAtLeast, if_neg henough, if_neg hdone, if_neg hover, hfetch]
          simp only [hdec]⟩
      | some (none, st') =>
        exact .inr ⟨st', fun fuel => by
          rw [HttpChunkDecoder.fetchAtLeast, if_neg henough, if_neg hdone, if_neg hover, hfetch]
          simp only [hdec]⟩

/-- More turns than a fetch needs change nothing. -/
theorem fetchAtLeast_mono {n fuel fuel' : Nat} {r : FetchResult × HttpChunkDecoder S}
    (h : HttpChunkDecoder.fetchAtLeast fuel n st = some r) (hle : fuel ≤ fuel') :
    HttpChunkDecoder.fetchAtLeast fuel' n st = some r := by
  induction fuel generalizing st fuel' with
  | zero => cases h
  | succ fuel ih =>
    obtain ⟨k, rfl⟩ := Nat.exists_eq_add_of_le hle
    rw [Nat.add_right_comm]
    rcases fetchAtLeast_turn n st with ⟨r', hr⟩ | ⟨st', hst⟩
    · rw [hr] at h ⊢
      exact h
    · rw [hst] at h ⊢
      exact ih h (Nat.le_add_right fuel k)

/-! ## Runs -/

/-- A call, with what it returned. -/
inductive Event where
  | fetch (minCount : Nat) (result : FetchResult)
  | consume (count : Nat)
deriving Repr, DecidableEq

inductive Run (st₀ : HttpChunkDecoder S) : List Event → HttpChunkDecoder S → Prop where
  | start : Run st₀ [] st₀
  | fetch {events : List Event} {st st' : HttpChunkDecoder S} {n : Nat} {result : FetchResult}
      (hrun : Run st₀ events st) (fuel : Nat)
      (hfetch : st.fetchAtLeast fuel n = some (result, st')) :
      Run st₀ (events ++ [.fetch n result]) st'
  | consume {events : List Event} {st st' : HttpChunkDecoder S} {count : Nat}
      (hrun : Run st₀ events st) (hconsume : st.consume count = some st') :
      Run st₀ (events ++ [.consume count]) st'

/-- How much of the output a run has consumed. -/
def takenBy (events : List Event) : Nat :=
  (events.map fun | .consume count => count | .fetch _ _ => 0).sum

/-- What is left of the bytes last fetched. -/
def fetchedLeft (events : List Event) : Nat :=
  events.foldl (fun left event =>
    match event with
    | .fetch _ (.ok buffers) => bufferSize buffers
    | .fetch _ _ => left
    | .consume count => left - count) 0

theorem takenBy_fetch (events : List Event) (n : Nat) (result : FetchResult) :
    takenBy (events ++ [.fetch n result]) = takenBy events := by
  simp [takenBy]

theorem takenBy_consume (events : List Event) (count : Nat) :
    takenBy (events ++ [.consume count]) = takenBy events + count := by
  simp [takenBy]

/-- A run up to one of its fetches is a run. -/
theorem Run.upto {n : Nat} (h : Run st₀ (events ++ .fetch n result :: post) st) :
    ∃ st₁ st₂ fuel, Run st₀ events st₁ ∧ st₁.fetchAtLeast fuel n = some (result, st₂) := by
  generalize heq : events ++ .fetch n result :: post = all at h
  induction h generalizing post with
  | start => simp at heq
  | @fetch events' st₁ st₂ n' result' hrun fuel hfetch ih =>
    rcases List.eq_nil_or_concat post with rfl | ⟨post', last, rfl⟩
    · obtain ⟨rfl, hlast⟩ := List.append_inj' heq rfl
      cases hlast
      exact ⟨st₁, st₂, fuel, hrun, hfetch⟩
    · rw [List.concat_eq_append, ← List.cons_append, ← List.append_assoc] at heq
      exact ih (List.append_inj' heq rfl).1
  | @consume events' st₁ st₂ count hrun hconsume ih =>
    rcases List.eq_nil_or_concat post with rfl | ⟨post', last, rfl⟩
    · cases (List.append_inj' heq rfl).2
    · rw [List.concat_eq_append, ← List.cons_append, ← List.append_assoc] at heq
      exact ih (List.append_inj' heq rfl).1

section Runs

variable (hsrc : Delivers S rest held) (hready : d₀.Ready) (hfull : Complete d₀ full)
  (hpayload : (scanFrom d₀ full).emitted = payload)
include hsrc hready hfull hpayload

/-- A fetch that has returned, with any number of turns, did what `FetchDone` says. -/
theorem CursorsAt.fetchDone (h : CursorsAt rest held d₀ full st before ahead taken)
    (hset : st.Settled) {n fuel : Nat} (hfetch : st.fetchAtLeast fuel n = some (result, st')) :
    FetchDone rest held d₀ full payload taken n st result st' := by
  obtain ⟨result', st'', heq, hdone⟩ := @fetchAtLeast_cursors S _ rest held d₀ full before
    ahead payload taken st hsrc hready hfull hpayload n (full.length + 1) h (.inl hset) (by omega)
  have h₁ := fetchAtLeast_mono hfetch (Nat.le_max_left fuel (full.length + 1))
  have h₂ := fetchAtLeast_mono heq (Nat.le_max_right fuel (full.length + 1))
  rw [h₁] at h₂
  cases h₂
  exact hdone

/-- **The cursors are in place after every run**, and what was last fetched can be consumed. -/
theorem run_cursors (hstart : CursorsAt rest held d₀ full st₀ [] [] 0) (hset : st₀.Settled)
    (hrun : Run st₀ events st) :
    (∃ before ahead, CursorsAt rest held d₀ full st before ahead (takenBy events)) ∧
      st.Settled ∧ fetchedLeft events ≤ st.size := by
  induction hrun with
  | start => exact ⟨⟨[], [], hstart⟩, hset, Nat.zero_le _⟩
  | @fetch events st st' n result hrun fuel hfetch ih =>
    obtain ⟨⟨before, ahead, h⟩, hset, hleft⟩ := ih
    have hdone := h.fetchDone hsrc hready hfull hpayload hset hfetch
    refine ⟨?_, hdone.settled, ?_⟩
    · rw [takenBy_fetch]
      exact hdone.cursors
    · unfold fetchedLeft at *
      rw [List.foldl_append]
      have hgrown := hdone.grown
      cases hdone.fetched with
      | ok hfirst hn hsize =>
        simp only [List.foldl_cons, List.foldl_nil, bufferSize_eq]
        exact Nat.le_of_eq hsize
      | endOfStream _ _ => exact Nat.le_trans hleft hgrown
      | failed _ _ _ _ => exact Nat.le_trans hleft hgrown
      | overflow _ _ _ _ => exact Nat.le_trans hleft hgrown
  | @consume events st st' count hrun hconsume ih =>
    obtain ⟨⟨before, ahead, h⟩, hset, hleft⟩ := ih
    have hle := h.le_size_of_consume hconsume
    obtain ⟨st'', before', ahead', heq, hcursors, hsettled, hsize⟩ := h.consume hsrc hle
    rw [hconsume] at heq
    cases heq
    refine ⟨⟨before', ahead', ?_⟩, hsettled, ?_⟩
    · rw [takenBy_consume]
      exact hcursors
    · unfold fetchedLeft at *
      rw [List.foldl_append, hsize]
      simp only [List.foldl_cons, List.foldl_nil]
      omega

end Runs

/-! ## The payload is neither lost nor duplicated -/

/-- What a run of calls on a body with this payload, and with `tail` behind it, shows. -/
structure PayloadKept (rest : S → Bytes) (payload tail : Bytes) (events : List Event)
    (st : HttpChunkDecoder S) : Prop where
  fetch_first : ∀ {pre post : List Event} {n : Nat} {buffers : List Bytes},
    events = pre ++ .fetch n (.ok buffers) :: post →
      buffers.flatten <+: payload.drop (takenBy pre) ∧ n ≤ buffers.flatten.length
  refetch_compatible : ∀ {pre between post : List Event} {n n' : Nat} {bs bs' : List Bytes},
    events = pre ++ .fetch n (.ok bs) :: between ++ .fetch n' (.ok bs') :: post →
      (∀ count, .consume count ∉ between) →
      bs.flatten <+: bs'.flatten ∨ bs'.flatten <+: bs.flatten
  end_of_stream : ∀ {pre post : List Event} {n : Nat},
    events = pre ++ .fetch n (.error .kEndOfStream) :: post → payload.length < takenBy pre + n
  can_consume : ∀ count ≤ fetchedLeft events, (st.consume count).isSome
  at_end : st.done = true → st.size = 0 → rest st.src = tail ∧ takenBy events = payload.length

theorem takenBy_append (xs ys : List Event) : takenBy (xs ++ ys) = takenBy xs + takenBy ys := by
  simp [takenBy]

theorem takenBy_of_no_consume (h : ∀ count, .consume count ∉ events) :
    takenBy events = 0 := by
  induction events with
  | nil => rfl
  | cons e events ih =>
    have hrest := ih fun count hc => h count (List.mem_cons_of_mem e hc)
    cases e with
    | fetch n result =>
      unfold takenBy at *
      rw [List.map_cons, List.sum_cons, hrest]
    | consume count => exact absurd List.mem_cons_self (h count)

section Body

variable {body tail : Bytes} {d : ChunkedDecoder}

theorem Ends.scan_full (h : Ends d₀ body payload d) (tail : Bytes) :
    scanFrom d₀ (body ++ tail) = ⟨d, payload, body.length, .stopped⟩ := by
  rw [scanFrom_of_halted (List.prefix_append body tail) (by rw [h]; nofun), h]

theorem atChunk_ready (trailer : Bool) : (atChunk trailer).Ready := nofun

theorem Ends.complete (h : Ends d₀ body payload d) : Complete d₀ (body ++ tail) := by
  unfold Complete
  rw [h.scan_full]

omit [BufferSource S] in
/-- At the end of the body the source stands right behind it. -/
theorem CursorsAt.at_end (h : CursorsAt rest held d₀ (body ++ tail) st before ahead taken)
    (hends : Ends d₀ body payload d) (hset : st.Settled) (hdone : st.done = true)
    (hsize : st.size = 0) : rest st.src = tail := by
  obtain rfl : ahead = [] := by
    rw [← List.length_eq_zero_iff, ← h.size]
    exact hset hdone hsize
  have hread := h.read
  have hmode := h.mode
  have hfull := h.ahead_full
  rw [List.append_nil] at hread hmode hfull
  have hscan := scanFrom_of_halted hfull (by rw [hmode, hdone]; nofun)
  rw [hends.scan_full tail] at hscan
  have hlen : before.length = body.length := by
    rw [← hscan] at hread
    exact hread.symm
  exact (List.append_inj_right h.source hlen.symm).symm

variable {trailer : Bool} {src : S} (hsrc : Delivers S rest held)
  (hends : Ends (atChunk trailer) body payload d) (hstream : rest src = body ++ tail)
include hsrc hends hstream

theorem Run.cursors (hrun : Run (.new src trailer) events st) :
    (∃ before ahead,
        CursorsAt rest held (atChunk trailer) (body ++ tail) st before ahead (takenBy events)) ∧
      st.Settled ∧ fetchedLeft events ≤ st.size := by
  have hstart : CursorsAt rest held (atChunk trailer) (body ++ tail) (.new src trailer) [] [] 0 := by
    rw [← hstream]
    exact .start src trailer
  exact run_cursors hsrc (atChunk_ready trailer) hends.complete rfl hstart nofun hrun

/-- A fetch on a body, after any run. -/
theorem Run.fetchDone (hrun : Run (.new src trailer) events st) {n fuel : Nat}
    (hfetch : st.fetchAtLeast fuel n = some (result, st')) :
    FetchDone rest held (atChunk trailer) (body ++ tail) payload (takenBy events) n st result
      st' := by
  obtain ⟨⟨before, ahead, h⟩, hset, _⟩ := hrun.cursors hsrc hends hstream
  exact h.fetchDone hsrc (atChunk_ready trailer) hends.complete (by rw [hends.scan_full]) hset
    hfetch

/-- A run shows what its fetches returned. -/
theorem Run.fetched (hrun : Run (.new src trailer) events st) {pre : List Event} {n : Nat}
    (heq : events = pre ++ .fetch n result :: post) :
    ∃ st', Fetched rest held (atChunk trailer) (body ++ tail) payload (takenBy pre) n st'
      result := by
  rw [heq] at hrun
  obtain ⟨st₁, st₂, fuel, hrun₁, hfetch⟩ := hrun.upto
  exact ⟨st₂, (hrun₁.fetchDone hsrc hends hstream hfetch).fetched⟩

theorem Run.fetch_first (hrun : Run (.new src trailer) events st) {pre : List Event} {n : Nat}
    {buffers : List Bytes} (heq : events = pre ++ .fetch n (.ok buffers) :: post) :
    buffers.flatten <+: payload.drop (takenBy pre) ∧ n ≤ buffers.flatten.length := by
  obtain ⟨st', hfetched⟩ := hrun.fetched hsrc hends hstream heq
  cases hfetched with
  | ok hpre hn _ => exact ⟨hpre, hn⟩

end Body

/-- **No payload is lost or duplicated.** For every source that delivers a body with chunk
    sizes of at most 16 digits and anything behind it, and after every run of calls: what a
    fetch returned is a first part of the payload not consumed by then and has the length asked
    for; two fetches with no `consume` between them agree; what was fetched can be consumed; and
    when the decoder has come to the end of the body the source stands right behind it. -/
theorem payload_kept (hsrc : Delivers S rest held) {trailer : Bool} {width : Nat}
    {body payload tail : Bytes} (hbody : ChunkedBody trailer width body payload)
    (hwidth : width ≤ 16) {src : S} (hstream : rest src = body ++ tail) {events : List Event}
    (hrun : Run (.new src trailer) events st) : PayloadKept rest payload tail events st := by
  obtain ⟨d, hends⟩ := hbody.ends hwidth
  obtain ⟨⟨before, ahead, h⟩, hset, hleft⟩ := hrun.cursors hsrc hends hstream
  exact {
    fetch_first := fun heq => hrun.fetch_first hsrc hends hstream heq
    refetch_compatible := by
      intro pre between post n n' bs bs' heq hno
      have hsplit : events = pre ++ .fetch n (.ok bs) :: (between ++ .fetch n' (.ok bs') :: post) := by
        rw [heq, List.append_assoc, List.cons_append]
      have hone := (hrun.fetch_first hsrc hends hstream hsplit).1
      have htwo := (hrun.fetch_first hsrc hends hstream heq).1
      have hnone : ∀ count, .consume count ∉ Event.fetch n (.ok bs) :: between := by
        intro count hmem
        rcases List.mem_cons.mp hmem with hhead | htail
        · cases hhead
        · exact hno count htail
      rw [takenBy_append, takenBy_of_no_consume hnone, Nat.add_zero] at htwo
      exact List.prefix_or_prefix_of_prefix hone htwo
    end_of_stream := by
      intro pre post n heq
      obtain ⟨st', hfetched⟩ := hrun.fetched hsrc hends hstream heq
      exact hfetched.end_reached
    can_consume := by
      intro count hcount
      obtain ⟨st', _, _, heq, _⟩ := h.consume hsrc (Nat.le_trans hcount hleft)
      rw [heq]
      rfl
    at_end := by
      intro hdone hsize
      have hemitted : (scanFrom (atChunk trailer) (body ++ tail)).emitted = payload := by
        rw [hends.scan_full]
      have htotal := h.payload_eq hemitted hdone
      exact ⟨h.at_end hends hset hdone hsize, by omega⟩ }

/-! ## Runs of given calls -/

/-- Makes calls one after the other: `some n` fetches `n` bytes, `none` consumes what is left
    of the last fetch. -/
def play (fuel : Nat) : List (Option Nat) → List Event → HttpChunkDecoder S →
    Option (List Event × HttpChunkDecoder S)
  | [], events, st => some (events, st)
  | some n :: calls, events, st =>
    match st.fetchAtLeast fuel n with
    | some (result, st') => play fuel calls (events ++ [.fetch n result]) st'
    | none => none
  | none :: calls, events, st =>
    match st.consume (fetchedLeft events) with
    | some st' => play fuel calls (events ++ [.consume (fetchedLeft events)]) st'
    | none => none

theorem Run.play {fuel : Nat} {calls : List (Option Nat)} {events' : List Event}
    (hrun : Run st₀ events st) (h : play fuel calls events st = some (events', st')) :
    Run st₀ events' st' := by
  induction calls generalizing events st with
  | nil =>
    cases h
    exact hrun
  | cons call calls ih =>
    cases call with
    | some n =>
      cases hf : st.fetchAtLeast fuel n with
      | none => simp only [Http.play, hf, reduceCtorEq] at h
      | some r =>
        simp only [Http.play, hf] at h
        exact ih (.fetch hrun fuel hf) h
    | none =>
      cases hc : st.consume (fetchedLeft events) with
      | none => simp only [Http.play, hc, reduceCtorEq] at h
      | some st₁ =>
        simp only [Http.play, hc] at h
        exact ih (.consume hrun hc) h

/-- "3;x" CRLF "abc" CRLF "0" CRLF "y" CRLF CRLF, with a byte behind it. -/
def extendedBody : Bytes :=
  [51] ++ ([59, 120] ++ crlf) ++ [97, 98, 99] ++ crlf ++
    ([48] ++ ([] ++ crlf) ++ ([121] ++ crlf ++ crlf))

theorem extendedBody_wellFormed : ChunkedBody true 1 extendedBody [97, 98, 99] := by
  have htrailer : Trailer true ([121] ++ crlf ++ crlf) :=
    TrailerPart.line (by decide) (by decide) .empty
  have hlast := @ChunkedBody.last true [48] [] _ (by decide) (by decide) htrailer
  exact @ChunkedBody.chunk true 1 [51] [59, 120] [97, 98, 99] _ []
    (by decide) (by decide) (by decide) hlast

theorem payload_kept_extendedBody :
    ∃ events st, Run (.new (Segments.mk [extendedBody.take 7, extendedBody.drop 7, [1]]) true)
        events st ∧ st.done = true ∧ st.size = 0 ∧
      PayloadKept Segments.rest [97, 98, 99] [1] events st := by
  have hplay : ∃ events st, play 40 [some 1, none, some 1, none, some 1] []
      (.new (Segments.mk [extendedBody.take 7, extendedBody.drop 7, [1]]) true) =
        some (events, st) ∧ st.done = true ∧ st.size = 0 := ⟨_, _, rfl, by decide, by decide⟩
  obtain ⟨events, st, heq, hdone, hsize⟩ := hplay
  have hrun := Run.start.play heq
  exact ⟨events, st, hrun, hdone, hsize,
    payload_kept Segments.delivers extendedBody_wellFormed (by decide) (by decide) hrun⟩

/-- "3" CRLF "a" LF "b" CRLF, then a last chunk whose size is written with 17 zeros. -/
def wideBody : Bytes :=
  [51] ++ ([] ++ crlf) ++ [97, 10, 98] ++ crlf ++ (List.replicate 17 48 ++ ([] ++ crlf) ++ [])

/-- **A chunk size of 17 digits is refused**, though the grammar allows it. A client that goes on
    after the error is told that the body has ended while the source still holds most of it. -/
theorem wide_size_ends_early :
    ChunkedBody false 17 wideBody [97, 10, 98] ∧
      ∃ events st, Run (.new (Segments.mk [wideBody.take 4, wideBody.drop 4]) false) events st ∧
        ¬ PayloadKept Segments.rest [97, 10, 98] [] events st := by
  have hlast := @ChunkedBody.last false (List.replicate 17 48) [] []
    (by decide) (by decide) rfl
  have hbody : ChunkedBody false 17 wideBody [97, 10, 98] :=
    @ChunkedBody.chunk false 17 [51] [] [97, 10, 98] _ []
      (by decide) (by decide) (by decide) hlast
  have hplay : ∃ events st, play 40 [some 1, none, some 1, some 1, none, some 1] []
      (.new (Segments.mk [wideBody.take 4, wideBody.drop 4]) false) = some (events, st) ∧
        st.done = true ∧ st.size = 0 ∧ Segments.rest st.src ≠ [] :=
    ⟨_, _, rfl, by decide, by decide, by decide⟩
  obtain ⟨events, st, heq, hdone, hsize, hleft⟩ := hplay
  exact ⟨hbody, events, st, Run.start.play heq, fun hkept => hleft (hkept.at_end hdone hsize).1⟩

end Batt.Http
