/-
  Draining a source: `write_to` and `http_encode_chunked`.

  Both loops ask for one byte at a time and end at `kEndOfStream` alone. `due` is what a source
  has still to deliver, `left` how many bytes these are by its counters; they agree as long as
  every position in front is right (`Positioned`).

  A `take_n` that cuts has nothing to return at its limit as long as the source behind has more,
  and returns just that, an OK result without bytes: no fetch ever fails, and neither loop ends
  (`Cut.fetch_isOk`). Where nothing is cut a fetch returns the next bytes (`fetch_spec`), and
  the position stays right if what is consumed is `Aligned`. `http_encode_chunked` consumes all
  it has fetched, which always is; it panics over an empty buffer, such as a source in front of
  a stream returns as long as nothing has arrived. `write_to` consumes what the destination
  takes: a write that stops twice within one buffer in front is not aligned.
-/
import Batt.BufferSource.Sources
import Batt.Http.Encoder

namespace Batt
open PrependBufferSource
open Http (Bytes FindsEmpty httpEncodeChunked httpEncodeChunked_turn encoded lastChunk
  encodeChunks_writes encodeLast_writes encoded_append not_findsEmpty_of_encoded)

variable {buffers : List Bytes}

namespace Source

/-! ## What is left -/

/-- The bytes still to be delivered, from the positions on. -/
def due : Source → Bytes
  | .stream s => s.bytes
  | .takeN limit src => src.due.take limit
  | .prepend front rest => (toPrepend front rest).unread ++ rest.due

/-- Their number, by the counters. -/
def left : Source → Nat
  | .stream s => s.bytes.length
  | .takeN limit src => min limit src.left
  | .prepend front rest => front.remaining + rest.left

/-- A `take_n` has more behind it than its limit. -/
def Cut : Source → Prop
  | .stream _ => False
  | .takeN limit src => limit < src.left ∨ src.Cut
  | .prepend _ rest => rest.Cut

/-- Every position in front is that of the bytes that remain. -/
def Positioned : Source → Prop
  | .stream _ => True
  | .takeN _ src => src.Positioned
  | .prepend front rest => (toPrepend front rest).Positioned ∧ rest.Positioned

/-- A consume of `count` bytes moves every position right. -/
def Aligned : Source → Nat → Prop
  | .stream _, _ => True
  | .takeN limit src, count => src.Aligned (min count limit)
  | .prepend front rest, count => (toPrepend front rest).Aligned count ∧
    (0 < count - min front.remaining count → rest.Aligned (count - min front.remaining count))

variable {s : Source} {count minCount : Nat}

theorem left_eq (hs : s.Positioned) : s.left = s.due.length := by
  induction s with
  | stream s => rfl
  | takeN limit src ih => rw [left, due, List.length_take, ih hs]
  | prepend front rest ih =>
    have hremaining : front.remaining = _ := hs.1.remaining
    rw [left, due, List.length_append, ih hs.2, hremaining]

/-- A fetch consumes nothing. -/
theorem left_fetch (s : Source) (minCount : Nat) : (s.fetchAtLeast minCount).2.left = s.left := by
  induction s generalizing minCount with
  | stream s =>
    show (s.fetchAtLeast minCount).2.bytes.length = _
    rw [Stream.fetchAtLeast]
    split <;> rfl
  | takeN limit src ih => exact congrArg (min limit) (ih minCount)
  | prepend front rest ih => exact congrArg (front.remaining + ·) (ih _)

theorem due_fetch (s : Source) (minCount : Nat) : (s.fetchAtLeast minCount).2.due = s.due := by
  induction s generalizing minCount with
  | stream s =>
    show (s.fetchAtLeast minCount).2.bytes = _
    rw [Stream.fetchAtLeast]
    split <;> rfl
  | takeN limit src ih => exact congrArg (List.take limit) (ih minCount)
  | prepend front rest ih => exact congrArg ((toPrepend front rest).unread ++ ·) (ih _)

theorem cut_fetch (s : Source) (minCount : Nat) : (s.fetchAtLeast minCount).2.Cut ↔ s.Cut := by
  induction s generalizing minCount with
  | stream s => exact Iff.rfl
  | takeN limit src ih =>
    show limit < (src.fetchAtLeast minCount).2.left ∨ _ ↔ _
    rw [left_fetch, ih]
    exact Iff.rfl
  | prepend front rest ih => exact ih _

theorem positioned_fetch (hs : s.Positioned) (minCount : Nat) :
    (s.fetchAtLeast minCount).2.Positioned := by
  induction s generalizing minCount with
  | stream s => trivial
  | takeN limit src ih => exact ih hs minCount
  | prepend front rest ih => exact ⟨⟨hs.1.offset_in, hs.1.remaining⟩, ih hs.2 _⟩

theorem left_consume (h : count ≤ s.left) :
    (s.consume count).left = s.left - count := by
  induction s generalizing count with
  | stream s => exact List.length_drop
  | takeN limit src ih =>
    rw [left] at h
    show min (limit - min count limit) (src.consume (min count limit)).left = _
    rw [ih (by omega), left]
    omega
  | prepend front rest ih =>
    rw [left] at h
    show front.remaining - min front.remaining count + (if _ then _ else _ : Source).left = _
    rw [left]
    split
    · rw [ih (by omega)]
      omega
    · omega

/-! ## A source that is cut -/

theorem takeN_fetch_ok {limit : Nat} {src : Source}
    (h : (src.fetchAtLeast minCount).1 = .ok buffers) :
    ((Source.takeN limit src).fetchAtLeast minCount).1 =
      .ok (trimBack limit buffers.flatten.length buffers.reverse).reverse := by
  simp only [fetchAtLeast, h]

theorem prepend_fetch_ok {front : Front} {rest : Source} {fetched : List Bytes}
    (h : (rest.fetchAtLeast (minCount - min front.remaining minCount)).1 = .ok fetched) :
    ((Source.prepend front rest).fetchAtLeast minCount).1 = .ok (front.buffers ++ fetched) := by
  simp only [fetchAtLeast, h]

/-- As long as there are bytes enough, a fetch is no error. -/
theorem fetch_isOk (h : minCount ≤ s.left) :
    ∃ buffers, (s.fetchAtLeast minCount).1 = .ok buffers := by
  induction s generalizing minCount with
  | stream s =>
    have hnot : ¬ s.bytes.length < minCount := Nat.not_lt.mpr h
    exact ⟨_, by rw [fetchAtLeast, Stream.fetchAtLeast, if_neg hnot]⟩
  | takeN limit src ih =>
    obtain ⟨buffers, hfetch⟩ := ih (Nat.le_trans h (Nat.min_le_right _ _))
    exact ⟨_, takeN_fetch_ok hfetch⟩
  | prepend front rest ih =>
    rw [left] at h
    have hle : minCount - min front.remaining minCount ≤ rest.left := by omega
    obtain ⟨buffers, hfetch⟩ := ih hle
    exact ⟨_, prepend_fetch_ok hfetch⟩

/-- A source that is cut never comes to its end. -/
theorem Cut.fetch_isOk (hcut : s.Cut) (h : minCount ≤ 1) :
    ∃ buffers, (s.fetchAtLeast minCount).1 = .ok buffers := by
  induction s generalizing minCount with
  | stream s => exact hcut.elim
  | takeN limit src ih =>
    have hinner : ∃ buffers, (src.fetchAtLeast minCount).1 = .ok buffers := by
      rcases hcut with hmore | hcut
      · exact Source.fetch_isOk (by omega)
      · exact ih hcut h
    obtain ⟨buffers, hfetch⟩ := hinner
    exact ⟨_, takeN_fetch_ok hfetch⟩
  | prepend front rest ih =>
    have hle : minCount - min front.remaining minCount ≤ 1 := by omega
    obtain ⟨buffers, hfetch⟩ := ih hcut hle
    exact ⟨_, prepend_fetch_ok hfetch⟩

theorem Cut.consume (hcut : s.Cut) (count : Nat) : (s.consume count).Cut := by
  induction s generalizing count with
  | stream s => exact hcut.elim
  | takeN limit src ih =>
    rcases hcut with hmore | hcut
    · refine .inl ?_
      rw [left_consume (by omega)]
      omega
    · exact .inr (ih hcut _)
  | prepend front rest ih =>
    show (if _ then _ else _ : Source).Cut
    split
    · exact ih hcut _
    · exact hcut

theorem not_cut_consume (hcut : ¬ s.Cut) (h : count ≤ s.left) :
    ¬ (s.consume count).Cut := by
  induction s generalizing count with
  | stream s => exact hcut
  | takeN limit src ih =>
    obtain ⟨hmore, hcut⟩ := not_or.mp hcut
    rw [left] at h
    have hle : min count limit ≤ src.left := by omega
    rintro (hless | hcut')
    · rw [left_consume hle] at hless
      omega
    · exact ih hcut hle hcut'
  | prepend front rest ih =>
    rw [left] at h
    show ¬ (if _ then _ else _ : Source).Cut
    split
    · exact ih hcut (by omega)
    · exact hcut

/-! ## A source that is not cut -/

theorem flatten_pieces (data : Bytes) (wrap minCount : Nat) :
    (pieces data wrap minCount).flatten = data := by
  unfold pieces
  split
  · rw [List.flatten_cons, List.flatten_singleton, List.take_append_drop]
  · exact List.flatten_singleton

/-- What is below its limit `take_n` leaves as it is. -/
theorem trimBack_of_le {limit : Nat} (h : buffers.flatten.length ≤ limit) :
    (trimBack limit buffers.flatten.length buffers.reverse).reverse = buffers := by
  cases hback : buffers.reverse with
  | nil =>
    rw [List.reverse_eq_nil_iff.mp hback]
    rfl
  | cons last back =>
    rw [trimBack, if_neg (Nat.not_lt.mpr h), ← hback, List.reverse_reverse]

/-- What takes all the bytes in front moves the position right. -/
theorem aligned_of_remaining_le {front : Front} {rest : Source}
    (hs : (toPrepend front rest).Positioned) (h : front.remaining ≤ count) :
    (toPrepend front rest).Aligned count := by
  have hin := hs.offset_in
  have hremaining := hs.remaining
  unfold PrependBufferSource.Aligned
  rw [show min (toPrepend front rest).firstBytesRemaining count = front.remaining from
    Nat.min_eq_left h]
  unfold unread at hremaining
  cases hdrop : (toPrepend front rest).first.drop (toPrepend front rest).firstBufferIndex with
  | nil => trivial
  | cons buffer buffers =>
    rw [hdrop] at hin hremaining
    rw [unreadFrom, List.length_append, List.length_drop] at hremaining
    have hcount : front.remaining = _ := hremaining
    rw [hcount]
    rcases hin with hzero | hlt
    · exact .inl hzero
    · exact .inr (by omega)

/-- The buffers in front have the bytes from the position on. -/
theorem flatten_buffers {front : Front} {rest : Source}
    (hs : (toPrepend front rest).Positioned) :
    front.buffers.flatten = (toPrepend front rest).unread := by
  obtain ⟨buffer, hbuffer, hflatten, -⟩ := firstBuffers_some hs
  rw [firstBuffers_toPrepend] at hbuffer
  cases hbuffer
  exact hflatten

/-- **A fetch from a source that is not cut** returns some next bytes, at least as many as asked
    for if there are so many, and they can be consumed together. -/
theorem fetch_spec (hs : s.Positioned) (hcut : ¬ s.Cut)
    (hok : (s.fetchAtLeast minCount).1 = .ok buffers) :
    buffers.flatten <+: s.due ∧ (minCount ≤ s.left → minCount ≤ buffers.flatten.length) ∧
      (s.fetchAtLeast minCount).2.Aligned buffers.flatten.length := by
  induction s generalizing minCount buffers with
  | stream s =>
    have hfetch : (s.fetchAtLeast minCount).1 = .ok buffers := hok
    rw [Stream.fetchAtLeast] at hfetch
    split at hfetch
    · cases hfetch
    · cases hfetch
      rw [flatten_pieces]
      refine ⟨List.take_prefix _ _, fun hle => ?_, trivial⟩
      rw [List.length_take]
      rw [left] at hle
      omega
  | takeN limit src ih =>
    obtain ⟨hmore, hcut⟩ := not_or.mp hcut
    cases hfetch : (src.fetchAtLeast minCount).1 with
    | error code =>
      simp only [fetchAtLeast, hfetch] at hok
      cases hok
    | ok fetched =>
      obtain ⟨hfirst, henough, haligned⟩ := ih hs hcut hfetch
      have hle := hfirst.length_le
      rw [← @left_eq src hs] at hle
      have hlimit : fetched.flatten.length ≤ limit := by omega
      rw [takeN_fetch_ok hfetch, trimBack_of_le hlimit] at hok
      cases hok
      refine ⟨?_, fun h => henough (Nat.le_trans h (Nat.min_le_right _ _)), ?_⟩
      · rw [due, List.take_of_length_le (by rw [← @left_eq src hs]; omega)]
        exact hfirst
      · show (src.fetchAtLeast minCount).2.Aligned (min _ limit)
        rw [Nat.min_eq_left hlimit]
        exact haligned
  | prepend front rest ih =>
    have hfront := flatten_buffers hs.1
    have hremaining : front.remaining = _ := hs.1.remaining
    rw [← hfront] at hremaining
    rw [due, ← hfront, left]
    cases hfetch : (rest.fetchAtLeast (minCount - min front.remaining minCount)).1 with
    | ok fetched =>
      obtain ⟨hfirst, henough, haligned⟩ := ih hs.2 hcut hfetch
      rw [prepend_fetch_ok hfetch] at hok
      cases hok
      rw [List.flatten_append, List.length_append]
      refine ⟨(List.prefix_append_right_inj _).mpr hfirst, fun h => ?_,
        aligned_of_remaining_le ⟨hs.1.offset_in, hs.1.remaining⟩ (by omega), fun _ => ?_⟩
      · have := henough (by omega)
        omega
      · rw [show front.buffers.flatten.length + fetched.flatten.length -
          min front.remaining (front.buffers.flatten.length + fetched.flatten.length) =
            fetched.flatten.length by omega]
        exact haligned
    | error code =>
      have hshort : ¬ minCount - min front.remaining minCount ≤ rest.left := fun hle => by
        obtain ⟨buffers, hfetch'⟩ := fetch_isOk hle
        rw [hfetch] at hfetch'
        cases hfetch'
      simp only [fetchAtLeast, hfetch] at hok
      split at hok
      · cases hok
      · cases hok
        exact ⟨List.prefix_append _ _, fun h => absurd h (by omega),
          aligned_of_remaining_le ⟨hs.1.offset_in, hs.1.remaining⟩ (by omega),
          fun h => absurd h (by omega)⟩

theorem fetch_end (hcut : ¬ s.Cut) (h : s.left = 0) :
    (s.fetchAtLeast 1).1 = .error .kEndOfStream := by
  induction s with
  | stream s =>
    have hnone : s.bytes.length < 1 := by
      rw [show s.bytes.length = 0 from h]
      exact Nat.zero_lt_one
    rw [fetchAtLeast, Stream.fetchAtLeast, if_pos hnone]
  | takeN limit src ih =>
    obtain ⟨hmore, hcut⟩ := not_or.mp hcut
    rw [left] at h
    simp only [fetchAtLeast, ih hcut (by omega)]
  | prepend front rest ih =>
    rw [left] at h
    have hzero : front.remaining = 0 := by omega
    have hnone : front.buffers = [] := if_pos hzero
    simp only [fetchAtLeast, hzero, Nat.zero_min, Nat.sub_zero, ih hcut (by omega), hnone,
      List.isEmpty_nil, true_or, if_true]

/-- **An aligned consume** takes the first bytes away, and leaves the positions right. -/
theorem consume_spec (hs : s.Positioned) (h : count ≤ s.left) (haligned : s.Aligned count) :
    (s.consume count).due = s.due.drop count ∧ (s.consume count).Positioned := by
  induction s generalizing count with
  | stream s => exact ⟨rfl, trivial⟩
  | takeN limit src ih =>
    rw [left] at h
    rw [Aligned, Nat.min_eq_left (by omega)] at haligned
    obtain ⟨hdue, hpos⟩ := ih hs (by omega) haligned
    rw [consume, Nat.min_eq_left (by omega)]
    exact ⟨by rw [due, due, hdue, List.drop_take], hpos⟩
  | prepend front rest ih =>
    obtain ⟨hfront, hrest⟩ := haligned
    obtain ⟨hpos, hunread⟩ := consume_front hs.1 hfront
    rw [drop_front hs.1] at hunread
    have hremaining : front.remaining = _ := hs.1.remaining
    rw [left] at h
    have hbehind : (if 0 < count - min front.remaining count then
        rest.consume (count - min front.remaining count) else rest : Source).due =
          rest.due.drop (count - (toPrepend front rest).unread.length) ∧
        (if 0 < count - min front.remaining count then
          rest.consume (count - min front.remaining count) else rest : Source).Positioned := by
      rw [← hremaining, show count - min front.remaining count = count - front.remaining by omega]
      split
      · next hmore =>
        rw [show count - min front.remaining count = count - front.remaining by omega] at hrest
        exact ih hs.2 (by omega) (hrest hmore)
      · next hnone =>
        rw [Nat.eq_zero_of_not_pos hnone, List.drop_zero]
        exact ⟨rfl, hs.2⟩
    refine ⟨?_, ⟨hpos.offset_in, hpos.remaining⟩, hbehind.2⟩
    rw [consume, due, due, List.drop_append, ← hunread, hbehind.1]
    rfl

end Source

/-! ## The start -/

namespace SourceExpr

theorem positioned_start (arrivals : List Arrival) (e : SourceExpr) :
    (e.start arrivals).Positioned := by
  induction e with
  | stream bytes => trivial
  | takeN src n ih => exact ih
  | prepend src buffers ih =>
    have hstart := PrependBufferSource.positioned_start buffers (src.start arrivals)
    exact ⟨⟨hstart.offset_in, hstart.remaining⟩, ih⟩

theorem due_start (arrivals : List Arrival) (e : SourceExpr) :
    (e.start arrivals).due = e.payload := by
  induction e with
  | stream bytes => rfl
  | takeN src n ih => rw [start, Source.due, ih, payload]
  | prepend src buffers ih =>
    rw [start, Source.due, ih, payload, ← PrependBufferSource.unreadFrom_zero]
    rfl

theorem left_start (arrivals : List Arrival) (e : SourceExpr) :
    (e.start arrivals).left = e.payload.length := by
  rw [Source.left_eq (positioned_start arrivals e), due_start]

theorem cut_start (arrivals : List Arrival) (e : SourceExpr) :
    (e.start arrivals).Cut ↔ ¬ e.Uncut := by
  induction e with
  | stream bytes => exact ⟨False.elim, fun h => h trivial⟩
  | takeN src n ih =>
    rw [start, Source.Cut, ih, left_start, Uncut, Decidable.not_and_iff_not_or_not, Nat.not_le]
  | prepend src buffers ih => exact ih

end SourceExpr

/-! ## The destination -/

namespace Sink

theorem accepts_all : Http.Accepts Sink written where
  write_ok := fun dst buffers => ⟨{ dst with written := dst.written ++ buffers.flatten }, rfl, rfl⟩

/-- At least one byte of what is offered, and only bytes from its front. -/
theorem writeSome_takes (dst : Sink) (h : buffers.flatten ≠ []) :
    0 < (dst.writeSome buffers).1 ∧ (dst.writeSome buffers).1 ≤ buffers.flatten.length ∧
      (dst.writeSome buffers).2.written =
        dst.written ++ buffers.flatten.take (dst.writeSome buffers).1 := by
  have hpos := List.length_pos_iff.mpr h
  rw [writeSome, if_neg h]
  exact ⟨Nat.lt_min.mpr ⟨hpos, Nat.lt_of_lt_of_le Nat.zero_lt_one (Nat.le_max_left _ _)⟩,
    Nat.min_le_left _ _, rfl⟩

end Sink

/-! ## Draining -/

/-- Some write of `write_to` stops within a buffer in front of which a part was consumed before. -/
inductive StopsTwice : Source → Sink → Prop where
  | now {src src' : Source} {dst : Sink} {fetched : List Bytes}
      (hfetch : src.fetchAtLeast 1 = (.ok fetched, src'))
      (hstops : ¬ src'.Aligned (dst.writeSome fetched).1) : StopsTwice src dst
  | later {src src' : Source} {dst : Sink} {fetched : List Bytes}
      (hfetch : src.fetchAtLeast 1 = (.ok fetched, src'))
      (hmore : StopsTwice (src'.consume (dst.writeSome fetched).1) (dst.writeSome fetched).2) :
      StopsTwice src dst

namespace Source

variable {s : Source}

/-- A fetch that returns buffers, with what they are and what it leaves behind. -/
theorem fetched_spec (hs : s.Positioned) (hcut : ¬ s.Cut) (hleft : s.left ≠ 0) :
    ∃ buffers s', s.fetchAtLeast 1 = (.ok buffers, s') ∧ s'.Positioned ∧ ¬ s'.Cut ∧
      s'.left = s.left ∧ s'.due = s.due ∧ s'.Aligned buffers.flatten.length ∧
      0 < buffers.flatten.length ∧ buffers.flatten <+: s.due := by
  have hone := Nat.one_le_iff_ne_zero.mpr hleft
  obtain ⟨buffers, hok⟩ := fetch_isOk hone
  obtain ⟨hfirst, henough, haligned⟩ := fetch_spec hs hcut hok
  exact ⟨buffers, _, Prod.ext hok rfl, positioned_fetch hs 1, fun h => hcut ((cut_fetch s 1).mp h),
    left_fetch s 1, due_fetch s 1, haligned, henough hone, hfirst⟩

/-- Behind its last byte a source that is not cut is at its end. -/
theorem fetched_end (hs : s.Positioned) (hcut : ¬ s.Cut) (hleft : s.left = 0) :
    s.due = [] ∧ ∃ s', s.fetchAtLeast 1 = (.error .kEndOfStream, s') := by
  refine ⟨?_, _, Prod.ext (fetch_end hcut hleft) rfl⟩
  rwa [left_eq hs, List.length_eq_zero_iff] at hleft

theorem writeTo_drains (hs : s.Positioned) (hcut : ¬ s.Cut) {dst : Sink}
    (hstops : ¬ StopsTwice s dst) (transferred : Nat) :
    ∃ fuel src' dst', writeTo fuel s dst transferred =
        some (.ok (transferred + s.left), src', dst') ∧ dst'.written = dst.written ++ s.due := by
  induction hlen : s.left using Nat.strong_induction_on generalizing s dst transferred with
  | _ len ih =>
    by_cases hleft : s.left = 0
    · obtain ⟨hnone, s', hfetch⟩ := fetched_end hs hcut hleft
      refine ⟨1, s', dst, ?_, by rw [hnone, List.append_nil]⟩
      simp only [writeTo, hfetch, if_true, ← hlen, hleft, Nat.add_zero]
    · obtain ⟨buffers, s₁, hfetch, hs₁, hcut₁, hleft₁, hdue₁, -, hpos, hfirst⟩ :=
        fetched_spec hs hcut hleft
      obtain ⟨hsome, hmost, hwritten⟩ := dst.writeSome_takes (List.length_pos_iff.mp hpos)
      have hle := hfirst.length_le
      rw [← left_eq hs] at hle
      have hcount : (dst.writeSome buffers).1 ≤ s₁.left := by omega
      obtain ⟨hdue, hs₂⟩ :=
        consume_spec hs₁ hcount (by_contra fun hnot => hstops (.now hfetch hnot))
      obtain ⟨fuel, src', dst', hrun, hout⟩ := ih (s₁.left - (dst.writeSome buffers).1) (by omega)
        hs₂ (not_cut_consume hcut₁ hcount) (fun hmore => hstops (.later hfetch hmore))
        (transferred + (dst.writeSome buffers).1) (left_consume hcount)
      refine ⟨fuel + 1, src', dst', ?_, ?_⟩
      · rw [show transferred + len = transferred + (dst.writeSome buffers).1 +
            (s₁.left - (dst.writeSome buffers).1) by omega, ← hrun]
        simp only [writeTo, hfetch]
      · have htake : buffers.flatten.take (dst.writeSome buffers).1 =
            s.due.take (dst.writeSome buffers).1 := by
          rw [List.prefix_iff_eq_take.mp hfirst, List.take_take, Nat.min_eq_left hmost]
        rw [hout, hwritten, htake, hdue, hdue₁, List.append_assoc, List.take_append_drop]

theorem httpEncodeChunked_drains (hs : s.Positioned) (hcut : ¬ s.Cut) (hne : ¬ FindsEmpty s)
    (dst : Sink) (trailer first : Bool) :
    ∃ fuel chunks src' dst',
      httpEncodeChunked fuel s dst trailer first = some (.ok, src', dst') ∧
      chunks.flatten = s.due ∧ (∀ c ∈ chunks, c ≠ []) ∧
      dst'.written = dst.written ++ (encoded first chunks ++ lastChunk trailer) := by
  induction hlen : s.left using Nat.strong_induction_on generalizing s dst first with
  | _ len ih =>
    by_cases hleft : s.left = 0
    · obtain ⟨hnone, s', hfetch⟩ := fetched_end hs hcut hleft
      obtain ⟨dst', hlast, hout⟩ := encodeLast_writes Sink.accepts_all dst trailer
      refine ⟨1, [], s', dst', ?_, hnone.symm, List.forall_mem_nil _, hout⟩
      simp only [httpEncodeChunked, Http.BufferSource.fetchAtLeast, hfetch, if_true, hlast]
    · obtain ⟨buffers, s₁, hfetch, hs₁, hcut₁, hleft₁, hdue₁, haligned, hpos, hfirst⟩ :=
        fetched_spec hs hcut hleft
      have hchunk : ∀ b ∈ buffers, b ≠ [] := fun b hb hnil => hne (.now hfetch (hnil ▸ hb))
      obtain ⟨dst₁, hwrite, hout⟩ := encodeChunks_writes Sink.accepts_all hchunk dst first 0
      rw [Nat.zero_add] at hwrite
      have hle := hfirst.length_le
      rw [← left_eq hs, ← hleft₁] at hle
      obtain ⟨hdue, hs₂⟩ := consume_spec hs₁ hle haligned
      obtain ⟨fuel, chunks, src', dst', hrun, hflat, hall, hout'⟩ :=
        ih (s₁.left - buffers.flatten.length) (by omega) hs₂ (not_cut_consume hcut₁ hle)
          (fun hmore => hne (.later hfetch hmore)) dst₁ (first && buffers.isEmpty)
          (left_consume hle)
      refine ⟨fuel + 1, buffers ++ chunks, src', dst', ?_, ?_, ?_, ?_⟩
      · rw [← hrun]
        simp only [httpEncodeChunked, Http.BufferSource.fetchAtLeast, Http.BufferSource.consume,
          hfetch, hwrite]
      · obtain ⟨more, hmore⟩ := hfirst
        rw [List.flatten_append, hflat, hdue, hdue₁, ← hmore, List.drop_left]
      · intro c hc
        exact (List.mem_append.mp hc).elim (hchunk c) (hall c)
      · rw [hout', hout, encoded_append]
        simp only [List.append_assoc]

/-! ## Where neither loop ends -/

/-- A turn over a source that is cut fetches, and leaves a source that is cut. -/
theorem Cut.turn (hcut : s.Cut) :
    ∃ buffers s', s.fetchAtLeast 1 = (.ok buffers, s') ∧ ∀ count, (s'.consume count).Cut := by
  obtain ⟨buffers, hok⟩ := hcut.fetch_isOk (Nat.le_refl 1)
  exact ⟨buffers, _, Prod.ext hok rfl, ((cut_fetch s 1).mpr hcut).consume⟩

theorem Cut.writeTo (hcut : s.Cut) (fuel : Nat) (dst : Sink) (transferred : Nat) :
    writeTo fuel s dst transferred = none := by
  induction fuel generalizing s dst transferred with
  | zero => rfl
  | succ fuel ih =>
    obtain ⟨buffers, s', hfetch, hmore⟩ := hcut.turn
    simp only [Batt.writeTo, hfetch]
    exact ih (hmore _) _ _

theorem Cut.httpEncodeChunked (hcut : s.Cut) (fuel : Nat) (dst : Sink) (trailer first : Bool)
    (src' : Source) (dst' : Sink) :
    httpEncodeChunked fuel s dst trailer first ≠ some (.ok, src', dst') := by
  induction fuel generalizing s dst first with
  | zero =>
    intro hrun
    cases hrun
  | succ fuel ih =>
    intro hrun
    obtain ⟨buffers, s', hfetch, hmore⟩ := hcut.turn
    obtain ⟨-, _, dst₁, first', heq, hrun⟩ := httpEncodeChunked_turn hfetch hrun
    obtain rfl := Nat.succ.inj heq
    exact ih (hmore _) dst₁ first' hrun

end Source

namespace SourceExpr

/-- `write_to` ends, returns the length of the stream, and has written just the stream. -/
def WritesTo (e : SourceExpr) (arrivals : List Arrival) (dst : Sink) : Prop :=
  ∃ fuel src' dst',
    writeTo fuel (e.start arrivals) dst 0 = some (.ok e.payload.length, src', dst') ∧
      dst'.written = dst.written ++ e.payload

/-- `http_encode_chunked` ends, and has written the stream, cut into chunks. -/
def EncodesChunked (e : SourceExpr) (arrivals : List Arrival) (dst : Sink) (trailer : Bool) :
    Prop :=
  ∃ fuel chunks src' dst',
    httpEncodeChunked fuel (e.start arrivals) dst trailer true = some (.ok, src', dst') ∧
      chunks.flatten = e.payload ∧ (∀ c ∈ chunks, c ≠ []) ∧
      dst'.written = dst.written ++ (encoded true chunks ++ lastChunk trailer)

/-- **When the loops drain a source**, for every source, arrivals and destination.
    `http_encode_chunked` ends with exactly the stream if and only if no `take_n` cuts and it
    comes to no empty buffer. `write_to` never ends if a `take_n` cuts; otherwise it ends with
    exactly the stream, if no write stops for a second time within one buffer in front. -/
theorem drains_iff (e : SourceExpr) (arrivals : List Arrival) (dst : Sink) :
    (∀ trailer, e.EncodesChunked arrivals dst trailer ↔
        e.Uncut ∧ ¬ FindsEmpty (e.start arrivals)) ∧
      (¬ StopsTwice (e.start arrivals) dst → (e.WritesTo arrivals dst ↔ e.Uncut)) ∧
      (e.WritesTo arrivals dst → e.Uncut) := by
  have hs := positioned_start arrivals e
  have hwrites : e.WritesTo arrivals dst → e.Uncut := by
    rintro ⟨fuel, src', dst', hrun, -⟩
    by_contra hcut
    rw [((cut_start arrivals e).mpr hcut).writeTo] at hrun
    cases hrun
  refine ⟨fun trailer => ⟨?_, ?_⟩, fun hstops => ⟨hwrites, fun huncut => ?_⟩, hwrites⟩
  · rintro ⟨fuel, chunks, src', dst', hrun, -⟩
    refine ⟨by_contra fun hcut => ?_, not_findsEmpty_of_encoded hrun⟩
    exact ((cut_start arrivals e).mpr hcut).httpEncodeChunked _ _ _ _ _ _ hrun
  · rintro ⟨huncut, hne⟩
    have hcut : ¬ (e.start arrivals).Cut := fun h => (cut_start arrivals e).mp h huncut
    obtain ⟨fuel, chunks, src', dst', hrun, hflat, hrest⟩ :=
      Source.httpEncodeChunked_drains hs hcut hne dst trailer true
    exact ⟨fuel, chunks, src', dst', hrun, by rw [hflat, due_start], hrest⟩
  · have hcut : ¬ (e.start arrivals).Cut := fun h => (cut_start arrivals e).mp h huncut
    obtain ⟨fuel, src', dst', hrun, hout⟩ := Source.writeTo_drains hs hcut hstops 0
    rw [Nat.zero_add, left_start] at hrun
    exact ⟨fuel, src', dst', hrun, by rw [hout, due_start]⟩

/-- Two bytes in front of a third, into a destination that takes all it is offered. -/
theorem drains_iff_prepended :
    (prepend (stream [67]) [[65, 66]]).WritesTo [] ⟨[], []⟩ := by
  refine ((drains_iff (prepend (stream [67]) [[65, 66]]) [] ⟨[], []⟩).2.1 ?_).mpr trivial
  rintro (⟨⟨⟩, hstops⟩ | ⟨⟨⟩, hmore⟩)
  · exact hstops ⟨.inl rfl, fun _ => trivial⟩
  · cases hmore with
    | now hfetch _ => cases hfetch
    | later hfetch _ => cases hfetch

/-- `seq::take_n(1)` of a stream of two bytes: neither loop ends. -/
theorem take_one_of_two_not_drained :
    ¬ (takeN (stream [65, 66]) 1).WritesTo [] ⟨[], []⟩ ∧
      ¬ (takeN (stream [65, 66]) 1).EncodesChunked [] ⟨[], []⟩ false := by
  have hcut : ((takeN (stream [65, 66]) 1).start []).Cut := .inl (by decide)
  refine ⟨?_, ?_⟩
  · rintro ⟨fuel, src', dst', hrun, -⟩
    rw [hcut.writeTo] at hrun
    cases hrun
  · rintro ⟨fuel, chunks, src', dst', hrun, -⟩
    exact hcut.httpEncodeChunked _ _ _ _ _ _ hrun

end SourceExpr

end Batt
