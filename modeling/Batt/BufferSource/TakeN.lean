/-
  `take_n` on a source of bytes (batteries/async/buffer_source.hpp), and the loop that drains one.

  `TakeNSource` asks the source behind it for data first, and then cuts what comes to its limit from
  the back. Before the limit this is the prefix it is to be (`collects_prefix`). At the limit it asks
  once more and throws away what comes, so that the source behind still decides how the loop ends:
  with data or at its end the loop stops, any other error is returned in the place of the bytes that
  have been collected (`independent_iff`).

  The loop asks for one byte at a time, and ends on an error of the source or when it gets nothing;
  `fuel` bounds the rounds.
-/
import Batt.BufferSource.Prepend
import Batt.Seq.Model
import Mathlib.Data.List.Infix

namespace Batt

open BufferSource

variable {R R₁ R₂ σ : Type} {chunks : List (List UInt8)}

/-! ## take_n -/

structure TakeNSource (R : Type) where
  limit : Nat
  src : R
deriving DecidableEq, Repr

/-- The loop that trims the fetched range; the buffers are in reverse. -/
def trimBack (limit : Nat) : Nat → List (List UInt8) → List (List UInt8)
  | _, [] => []
  | nFetched, last :: buffers =>
    if nFetched > limit then
      let extraBytes := nFetched - limit
      if last.length ≤ extraBytes then trimBack limit (nFetched - last.length) buffers
      else last.take (last.length - extraBytes) :: buffers
    else last :: buffers

namespace TakeNSource

variable [BufferSource R]

def fetchAtLeast (s : TakeNSource R) (minCount : Nat) :
    StatusOr (List (List UInt8)) × TakeNSource R :=
  (match (BufferSource.fetchAtLeast s.src minCount).1 with
    | .error code => .error code
    | .ok buffers => .ok (trimBack s.limit buffers.flatten.length buffers.reverse).reverse,
    { s with src := (BufferSource.fetchAtLeast s.src minCount).2 })

def consume (s : TakeNSource R) (count : Nat) : TakeNSource R :=
  let nToConsume := min count s.limit
  { limit := s.limit - nToConsume, src := BufferSource.consume s.src nToConsume }

instance : BufferSource (TakeNSource R) where
  size s := min s.limit (size s.src)
  fetchAtLeast := fetchAtLeast
  consume := consume

end TakeNSource

/-! ## for_each, collect_vec -/

/-- The function on the buffers of one fetch. -/
def eachBuffer (fn : σ → List UInt8 → LoopControl × σ) : List (List UInt8) → σ → LoopControl × σ
  | [], state => (.kContinue, state)
  | buffer :: buffers, state =>
    match fn state buffer with
    | (.kBreak, state) => (.kBreak, state)
    | (.kContinue, state) => eachBuffer fn buffers state

def forEach [BufferSource R] (fn : σ → List UInt8 → LoopControl × σ) :
    Nat → σ → R → Option (StatusOr LoopControl × σ × R)
  | 0, _, _ => none
  | fuel + 1, state, src =>
    match fetchAtLeast src 1 with
    | (.error code, src) =>
      some (if code = .kEndOfStream then .ok .kContinue else .error code, state, src)
    | (.ok fetched, src) =>
      match eachBuffer fn fetched state with
      | (.kBreak, state) => some (.ok .kBreak, state, src)
      | (.kContinue, state) =>
        if fetched.flatten.length = 0 then some (.ok .kContinue, state, src)
        else forEach fn fuel state (consume src fetched.flatten.length)

/-- What `collect_vec` does with a buffer. -/
def appendBytes (bytes buffer : List UInt8) : LoopControl × List UInt8 := (.kContinue, bytes ++ buffer)

def collectVec [BufferSource R] (fuel : Nat) (src : R) : Option (StatusOr (List UInt8) × R) :=
  (forEach appendBytes fuel [] src).map fun r =>
    (match r.1 with
      | .error code => .error code
      | .ok _ => .ok r.2.1, r.2.2)

/-! ## One fetch -/

theorem flatten_trimBack_reverse (limit : Nat) (back : List (List UInt8)) :
    (trimBack limit back.reverse.flatten.length back).reverse.flatten =
      back.reverse.flatten.take limit := by
  induction back with
  | nil => exact List.take_nil.symm
  | cons last back ih =>
    have hflat : (last :: back).reverse.flatten = back.reverse.flatten ++ last := by simp
    have hlen : (last :: back).reverse.flatten.length =
        back.reverse.flatten.length + last.length := by
      rw [hflat, List.length_append]
    rw [trimBack, hlen]
    dsimp only
    split
    · split
      · -- the last buffer goes as a whole
        rename_i hover hwhole
        rw [Nat.add_sub_cancel, ih, hflat, List.take_append_of_le_length (by omega)]
      · rename_i hover hpart
        have hcut : last.length - (back.reverse.flatten.length + last.length - limit) =
            limit - back.reverse.flatten.length := by omega
        have hall : back.reverse.flatten.take limit = back.reverse.flatten :=
          List.take_of_length_le (by omega)
        rw [hcut, hflat, List.take_append, hall, List.reverse_cons, List.flatten_append,
          List.flatten_singleton]
    · rw [List.take_of_length_le (by omega)]

/-- What `take_n` passes on of a fetch is its first `limit` bytes. -/
theorem flatten_trimBack (limit : Nat) (buffers : List (List UInt8)) :
    (trimBack limit buffers.flatten.length buffers.reverse).reverse.flatten =
      buffers.flatten.take limit := by
  have h := flatten_trimBack_reverse limit buffers.reverse
  rwa [List.reverse_reverse] at h

theorem eachBuffer_append (buffers : List (List UInt8)) (bytes : List UInt8) :
    eachBuffer appendBytes buffers bytes = (.kContinue, bytes ++ buffers.flatten) := by
  induction buffers generalizing bytes with
  | nil => rw [eachBuffer, List.flatten_nil, List.append_nil]
  | cons buffer buffers ih =>
    rw [List.flatten_cons, ← List.append_assoc]
    exact ih (bytes ++ buffer)

section

variable [BufferSource R]

/-- One round of `take_n(limit) | collect_vec()`: what it has collected, and where it goes on. -/
theorem forEach_ok {limit fuel : Nat} {src : R} {bytes : List UInt8} {buffers : List (List UInt8)}
    (hfetch : (fetchAtLeast src 1).1 = .ok buffers) :
    forEach appendBytes (fuel + 1) bytes (TakeNSource.mk limit src) =
      if (buffers.flatten.take limit).length = 0 then
        some (.ok .kContinue, bytes, ⟨limit, (fetchAtLeast src 1).2⟩)
      else
        forEach appendBytes fuel (bytes ++ buffers.flatten.take limit)
          (TakeNSource.mk (limit - (buffers.flatten.take limit).length)
            (consume (fetchAtLeast src 1).2 (buffers.flatten.take limit).length)) := by
  have hle : (buffers.flatten.take limit).length ≤ limit := List.length_take_le ..
  simp only [forEach, fetchAtLeast, TakeNSource.fetchAtLeast, hfetch, eachBuffer_append,
    flatten_trimBack]
  split
  · rename_i hzero
    rw [List.eq_nil_of_length_eq_zero hzero, List.append_nil]
  · simp only [consume, TakeNSource.consume, Nat.min_eq_left hle]

theorem forEach_error {limit fuel : Nat} {src : R} {bytes : List UInt8} {code : StatusCode}
    (hfetch : (fetchAtLeast src 1).1 = .error code) :
    forEach appendBytes (fuel + 1) bytes (TakeNSource.mk limit src) =
      some (if code = .kEndOfStream then .ok .kContinue else .error code, bytes,
        ⟨limit, (fetchAtLeast src 1).2⟩) := by
  simp only [forEach, fetchAtLeast, TakeNSource.fetchAtLeast, hfetch]

end

/-! ## The prefix -/

/-- A source that has the bytes `bytes` to deliver and then ends: a fetch returns some of the next
    bytes, in any number of buffers, and what has been fetched can be consumed. -/
structure ByteStream (R : Type) [BufferSource R] where
  bytes : R → List UInt8
  fetch_ok : ∀ r, bytes r ≠ [] → ∃ buffers, (fetchAtLeast r 1).1 = .ok buffers ∧
    buffers.flatten ≠ [] ∧ buffers.flatten <+: bytes r
  fetch_end : ∀ r, bytes r = [] → (fetchAtLeast r 1).1 = .error .kEndOfStream
  bytes_fetch : ∀ r, bytes (fetchAtLeast r 1).2 = bytes r
  bytes_consume : ∀ r buffers n, (fetchAtLeast r 1).1 = .ok buffers →
    n ≤ buffers.flatten.length → bytes (consume (fetchAtLeast r 1).2 n) = (bytes r).drop n

theorem take_of_prefix {l l' : List UInt8} (h : l <+: l') (n : Nat) :
    l'.take (l.take n).length = l.take n := by
  have hpre : l.take n <+: l' := (List.take_prefix n l).trans h
  exact (List.prefix_iff_eq_take.mp hpre).symm

theorem forEach_prefix [BufferSource R] (stream : ByteStream R) (fuel limit : Nat) (src : R)
    (bytes : List UInt8) (hfuel : min limit (stream.bytes src).length < fuel) :
    ∃ src', forEach appendBytes fuel bytes (TakeNSource.mk limit src) =
      some (.ok .kContinue, bytes ++ (stream.bytes src).take limit, src') ∧
      stream.bytes src'.src = (stream.bytes src).drop limit := by
  induction fuel generalizing limit src bytes with
  | zero => exact absurd hfuel (Nat.not_lt_zero _)
  | succ fuel ih =>
    by_cases hend : stream.bytes src = []
    · refine ⟨⟨limit, (fetchAtLeast src 1).2⟩, ?_, ?_⟩
      · rw [forEach_error (stream.fetch_end src hend), hend, List.take_nil, List.append_nil]
        rfl
      · rw [stream.bytes_fetch, hend, List.drop_nil]
    · obtain ⟨buffers, hfetch, hsome, hfirst⟩ := stream.fetch_ok src hend
      rw [forEach_ok hfetch]
      by_cases hlimit : limit = 0
      · -- at the limit what has been fetched is thrown away
        subst hlimit
        refine ⟨⟨0, (fetchAtLeast src 1).2⟩, ?_, ?_⟩
        · simp
        · rw [stream.bytes_fetch, List.drop_zero]
      · have hpos : (buffers.flatten.take limit).length ≠ 0 := by
          have := List.length_pos_iff.mpr hsome
          rw [List.length_take]
          omega
        rw [if_neg hpos]
        have hlen : (buffers.flatten.take limit).length ≤ limit := List.length_take_le ..
        have hle : (buffers.flatten.take limit).length ≤ buffers.flatten.length := by
          rw [List.length_take]
          omega
        have hrest := stream.bytes_consume src buffers _ hfetch hle
        have hcut := take_of_prefix hfirst limit
        have hbytes := hfirst.length_le
        obtain ⟨src', hsrc', hdrop⟩ := ih (limit - (buffers.flatten.take limit).length)
          (consume (fetchAtLeast src 1).2 (buffers.flatten.take limit).length)
          (bytes ++ buffers.flatten.take limit) (by rw [hrest, List.length_drop]; omega)
        refine ⟨src', ?_, ?_⟩
        · rw [hsrc', hrest, List.append_assoc]
          congr 4
          nth_rewrite 1 [← hcut]
          rw [← List.take_add, Nat.add_sub_cancel' hlen]
        · rw [hdrop, hrest, List.drop_drop, Nat.add_sub_cancel' hlen]

/-- **`take_n` is a prefix.** Whatever the chunks, `take_n(n) | collect_vec()` ends, returns the
    first `n` bytes (or all, if there are fewer) and leaves the source behind them. -/
theorem collects_prefix [BufferSource R] (stream : ByteStream R) (n : Nat) (src : R) (fuel : Nat)
    (hfuel : min n (stream.bytes src).length < fuel) :
    ∃ src', collectVec fuel (TakeNSource.mk n src) =
        some (.ok ((stream.bytes src).take n), src') ∧
      stream.bytes src'.src = (stream.bytes src).drop n := by
  obtain ⟨src', hsrc', hdrop⟩ := forEach_prefix stream fuel n src [] hfuel
  refine ⟨src', ?_, hdrop⟩
  rw [collectVec, hsrc']
  rfl

/-! ## Beyond the limit -/

/-- The source delivers `n` bytes, cut at `n`, in these chunks, and is then at `r'`. -/
inductive Delivers [BufferSource R] : Nat → R → List (List UInt8) → R → Prop where
  | done (r : R) : Delivers 0 r [] r
  | chunk {n : Nat} {r r' : R} {buffers : List (List UInt8)} {chunk : List UInt8}
      {chunks : List (List UInt8)} (hfetch : (fetchAtLeast r 1).1 = .ok buffers)
      (hchunk : buffers.flatten.take n = chunk) (hsome : chunk ≠ [])
      (hrest : Delivers (n - chunk.length) (consume (fetchAtLeast r 1).2 chunk.length) chunks r') :
      Delivers n r (chunk :: chunks) r'

/-- The next fetch ends with an error other than the end of the stream. -/
def FetchFails [BufferSource R] (r : R) : Prop :=
  ∃ code, (fetchAtLeast r 1).1 = .error code ∧ code ≠ .kEndOfStream

theorem length_of_delivers [BufferSource R] {n : Nat} {r r' : R} (h : Delivers n r chunks r') :
    chunks.flatten.length = n := by
  induction h with
  | done r => rfl
  | @chunk n _ _ _ chunk _ _ hchunk _ _ ih =>
    have hle : chunk.length ≤ n := by
      rw [← hchunk]
      exact List.length_take_le ..
    rw [List.flatten_cons, List.length_append, ih]
    omega

/-- How the loop ends at the limit: it goes by one more fetch of the source. -/
def ending [BufferSource R] (r : R) : StatusOr LoopControl :=
  match (fetchAtLeast r 1).1 with
  | .error code => if code = .kEndOfStream then .ok .kContinue else .error code
  | .ok _ => .ok .kContinue

theorem ending_cases [BufferSource R] (r : R) :
    (¬ FetchFails r ∧ ending r = .ok .kContinue) ∨
      (FetchFails r ∧ ∃ code, ending r = .error code) := by
  unfold FetchFails ending
  cases hfetch : (fetchAtLeast r 1).1 with
  | ok buffers =>
    refine .inl ⟨?_, rfl⟩
    rintro ⟨_, h, _⟩
    cases h
  | error code =>
    by_cases hcode : code = .kEndOfStream
    · refine .inl ⟨?_, if_pos hcode⟩
      rintro ⟨_, ⟨⟩, hne⟩
      exact hne hcode
    · exact .inr ⟨⟨code, rfl, hcode⟩, code, if_neg hcode⟩

/-- After `n` bytes nothing but the ending is left. -/
theorem forEach_delivers [BufferSource R] {n : Nat} {r r' : R} (h : Delivers n r chunks r')
    (fuel : Nat) (bytes : List UInt8) :
    (forEach appendBytes fuel bytes (TakeNSource.mk n r)).map (fun q => (q.1, q.2.1)) =
      if fuel ≤ chunks.length then none
      else some (ending r', bytes ++ chunks.flatten) := by
  induction h generalizing fuel bytes with
  | done r =>
    cases fuel with
    | zero => rfl
    | succ fuel =>
      rw [if_neg (by simp), List.flatten_nil, List.append_nil]
      unfold ending
      cases hfetch : (fetchAtLeast r 1).1 with
      | error code =>
        rw [forEach_error hfetch]
        rfl
      | ok buffers =>
        rw [forEach_ok hfetch]
        simp
  | chunk hfetch hchunk hsome _ ih =>
    cases fuel with
    | zero => rfl
    | succ fuel =>
      have hpos := (List.length_pos_iff.mpr hsome).ne'
      rw [forEach_ok hfetch, hchunk, if_neg hpos, ih]
      simp only [List.length_cons, Nat.add_le_add_iff_right, List.flatten_cons, List.append_assoc]

/-- `take_n(n) | collect_vec()` ends, with this result. -/
def Collects [BufferSource R] (n : Nat) (r : R) (result : StatusOr (List UInt8)) : Prop :=
  ∃ fuel src, collectVec fuel (TakeNSource.mk n r) = some (result, src)

theorem collects_iff [BufferSource R] {n : Nat} {r r' : R} (h : Delivers n r chunks r') :
    Collects n r (.ok chunks.flatten) ↔ ¬ FetchFails r' := by
  have hloop := fun fuel => forEach_delivers h fuel []
  unfold Collects collectVec
  obtain ⟨hfine, hending⟩ | ⟨hfails, code, hending⟩ := ending_cases r'
  · refine iff_of_true ?_ hfine
    have hloop := hloop (chunks.length + 1)
    rw [if_neg (by omega), List.nil_append, hending] at hloop
    obtain ⟨q, hq, hresult⟩ := Option.map_eq_some_iff.mp hloop
    obtain ⟨hq1, hq2⟩ := Prod.mk.inj hresult
    refine ⟨chunks.length + 1, q.2.2, ?_⟩
    rw [hq, Option.map_some, hq1, hq2]
  · refine iff_of_false ?_ (not_not_intro hfails)
    rintro ⟨fuel, src, hcollect⟩
    obtain ⟨q, hq, hresult⟩ := Option.map_eq_some_iff.mp hcollect
    have hloop := hloop fuel
    rw [hq, hending, Option.map_some] at hloop
    split at hloop
    · cases hloop
    · obtain ⟨hq1, -⟩ := Prod.mk.inj (Option.some.inj hloop)
      rw [hq1] at hresult
      cases hresult

/-- **What lies beyond the limit.** Two sources that deliver the same first `n` bytes in the same
    chunks give these bytes, both of them, exactly if neither fails at the next fetch. -/
theorem independent_iff [BufferSource R₁] [BufferSource R₂] (n : Nat) (r₁ r₁' : R₁) (r₂ r₂' : R₂)
    (chunks : List (List UInt8)) (h₁ : Delivers n r₁ chunks r₁') (h₂ : Delivers n r₂ chunks r₂') :
    (chunks.flatten.length = n ∧ Collects n r₁ (.ok chunks.flatten) ∧
      Collects n r₂ (.ok chunks.flatten)) ↔ ¬ FetchFails r₁' ∧ ¬ FetchFails r₂' := by
  rw [collects_iff h₁, collects_iff h₂]
  exact and_iff_right (length_of_delivers h₁)

/-! ## Sources -/

/-- A source that returns its chunks one by one, each split into buffers, and then `last`. -/
structure ChunkSource where
  chunks : List (List (List UInt8))
  last : StatusCode
deriving DecidableEq, Repr

/-- Drops the first `n` bytes of a chunk. -/
def dropBytes : Nat → List (List UInt8) → List (List UInt8)
  | _, [] => []
  | n, buffer :: buffers =>
    if n < buffer.length then buffer.drop n :: buffers else dropBytes (n - buffer.length) buffers

instance : BufferSource ChunkSource where
  size r := r.chunks.flatten.flatten.length
  fetchAtLeast r _ :=
    match r.chunks with
    | [] => (.error r.last, r)
    | chunk :: _ => (.ok chunk, r)
  consume r n :=
    match r.chunks with
    | [] => r
    | chunk :: chunks =>
      { r with chunks := if (dropBytes n chunk).isEmpty then chunks else dropBytes n chunk :: chunks }

/-- A closed stream delivers its bytes and then ends. -/
def ClosedStream.byteStream : ByteStream ClosedStream where
  bytes r := r.bytes
  fetch_ok r hne := by
    have hpos := List.length_pos_iff.mpr hne
    refine ⟨[r.bytes], if_pos hpos, ?_, ?_⟩
    · simpa using hne
    · simp
  fetch_end r hnil := by
    refine if_neg ?_
    simp [hnil]
  bytes_fetch _ := rfl
  bytes_consume _ _ _ _ _ := rfl

/-- `take_n(2)` of a stream of three bytes. -/
theorem collects_prefix_closedStream :
    ∃ src', collectVec 3 (TakeNSource.mk 2 (ClosedStream.mk [7, 8, 9])) = some (.ok [7, 8], src') ∧
      src'.src.bytes = [9] :=
  collects_prefix ClosedStream.byteStream 2 ⟨[7, 8, 9]⟩ 3 (by decide)

/-- Two sources with the chunk `7 8`, one at its end and one with more. -/
theorem independent_of_more :
    Collects 2 (ChunkSource.mk [[[7], [8]]] .kEndOfStream) (.ok [7, 8]) ∧
      Collects 2 (ChunkSource.mk [[[7], [8]], [[9]]] .kInternal) (.ok [7, 8]) := by
  have h₁ : Delivers 2 (ChunkSource.mk [[[7], [8]]] .kEndOfStream) [[7, 8]] ⟨[], .kEndOfStream⟩ :=
    .chunk rfl rfl (by decide) (.done _)
  have h₂ : Delivers 2 (ChunkSource.mk [[[7], [8]], [[9]]] .kInternal) [[7, 8]]
      ⟨[[[9]]], .kInternal⟩ :=
    .chunk rfl rfl (by decide) (.done _)
  refine ((independent_iff 2 _ _ _ _ _ h₁ h₂).mpr ⟨?_, ?_⟩).2
  · rintro ⟨code, ⟨⟩, hne⟩
    exact hne rfl
  · rintro ⟨code, hfetch, -⟩
    cases hfetch

/-- Both deliver the two bytes that are asked for; the second is then reset, and `collect_vec`
    returns the error. -/
theorem take_n_reports_later_error :
    Delivers 2 (ChunkSource.mk [[[7], [8]]] .kEndOfStream) [[7, 8]] ⟨[], .kEndOfStream⟩ ∧
      Delivers 2 (ChunkSource.mk [[[7], [8]]] .kUnavailable) [[7, 8]] ⟨[], .kUnavailable⟩ ∧
      Collects 2 (ChunkSource.mk [[[7], [8]]] .kEndOfStream) (.ok [7, 8]) ∧
      Collects 2 (ChunkSource.mk [[[7], [8]]] .kUnavailable) (.error .kUnavailable) :=
  ⟨.chunk rfl rfl (by decide) (.done _), .chunk rfl rfl (by decide) (.done _),
    ⟨2, _, rfl⟩, ⟨2, _, rfl⟩⟩

end Batt
