/-
  `transfer_chunked_data` (batteries/async/fetch.hpp).

  `From` hands out chunks of its stream as the script `answers` says, and then `eof`, which as a
  `Status` is `kEndOfStream`; `To` answers each write with an error or with how many bytes it
  takes. At the end of a turn the chunk goes out of scope and is consumed as far as it was not
  backed up.

  The turns that take a byte keep the two sides in step, and so does `eof` (`transferred_ok`). A
  write that fails, or takes nothing, leaves the loop before `back_up`: the whole chunk is
  consumed.
-/
import Batt.Fetch.Chunk

namespace Batt.Fetch

/-- What a call of `fetch_chunk` returns: a chunk of at most `size` bytes, gathered or not. -/
inductive FetchAnswer where
  | chunk (size : Nat) (gathered : Bool)
  | error (status : StatusCode)
deriving DecidableEq, Repr

structure From where
  stream : Bytes
  consumed : Nat
  answers : List FetchAnswer
deriving DecidableEq, Repr

namespace From

def rest (src : From) : Bytes := src.stream.drop src.consumed

def fetchChunk (src : From) : StatusOr (BasicScopedChunk Unit) × From :=
  match src.answers with
  | [] => (.error .kEndOfStream, src)
  | .error status :: answers => (.error status, { src with answers := answers })
  | .chunk size gathered :: answers =>
    (.ok (if gathered then .ofStorage ⟨(), 0⟩ (src.rest.take size)
        else .ofBuffer ⟨(), 0⟩ (src.rest.take size)),
      { src with answers := answers })

/-- The destructor of the chunk. -/
def leave (src : From) (chunk : BasicScopedChunk Unit) : From :=
  { src with consumed := src.consumed + (chunk.consume.2.map (·.count)).sum }

end From

structure To where
  written : Bytes
  answers : List (StatusOr Nat)
deriving DecidableEq, Repr

/-- Behind its script a destination takes all it is given. -/
def To.write (dst : To) (buffer : Bytes) : StatusOr Nat × To :=
  match dst.answers with
  | [] => (.ok buffer.length, { dst with written := dst.written ++ buffer })
  | .error code :: answers => (.error code, { dst with answers := answers })
  | .ok n :: answers =>
    (.ok (min n buffer.length), ⟨dst.written ++ buffer.take (min n buffer.length), answers⟩)

inductive TransferStep where
  | kNone
  | kFetch
  | kWrite
deriving DecidableEq, Repr

structure Transferred where
  result : StatusOr Nat
  src : From
  dst : To
  step : TransferStep

def transferChunkedData : Nat → From → To → Nat → Option Transferred
  | 0, _, _, _ => none
  | fuel + 1, src, dst, bytesTransferred =>
    match src.fetchChunk with
    | (.error status, src) =>
      some ⟨if status ≠ .kEndOfStream then .error status else .ok bytesTransferred, src, dst,
        .kFetch⟩
    | (.ok chunk, src) =>
      match dst.write chunk.buffer with
      | (.error code, dst) => some ⟨.error code, src.leave chunk, dst, .kWrite⟩
      | (.ok nWritten, dst) =>
        if nWritten = 0 then
          some ⟨.error .kClosedBeforeEndOfStream, src.leave chunk, dst, .kWrite⟩
        else
          transferChunkedData fuel (src.leave (chunk.backUp (chunk.size - nWritten))) dst
            (bytesTransferred + nWritten)

/-! ## One turn -/

variable {src : From} {dst : To} {fuel bytes : Nat} {t : Transferred} {buffer : Bytes}

/-- How many bytes of a buffer the next write takes, if it does not fail. -/
def accepts (answers : List (StatusOr Nat)) (buffer : Bytes) : Option Nat :=
  match answers with
  | [] => some buffer.length
  | .error _ :: _ => none
  | .ok n :: _ => some (min n buffer.length)

theorem accepts_le {answers : List (StatusOr Nat)} {n : Nat} (h : accepts answers buffer = some n) :
    n ≤ buffer.length := by
  match answers, h with
  | [], h =>
    cases h
    exact Nat.le_refl _
  | .ok m :: _, h =>
    cases h
    exact Nat.min_le_right _ _

theorem write_of_accepts {n : Nat} (h : accepts dst.answers buffer = some n) :
    dst.write buffer = (.ok n, ⟨dst.written ++ buffer.take n, dst.answers.tail⟩) := by
  obtain ⟨written, answers⟩ := dst
  match answers, h with
  | [], h =>
    cases h
    rw [List.take_length]
    rfl
  | .ok m :: _, h =>
    cases h
    rfl

theorem write_of_refused (h : accepts dst.answers buffer = none) :
    ∃ code dst', dst.write buffer = (.error code, dst') ∧ dst'.written = dst.written := by
  obtain ⟨written, answers⟩ := dst
  match answers, h with
  | .error code :: answers, _ => exact ⟨code, ⟨written, answers⟩, rfl, rfl⟩

theorem fetchChunk_of_chunk {size : Nat} {gathered : Bool} {answers : List FetchAnswer}
    (h : src.answers = .chunk size gathered :: answers) :
    ∃ chunk, src.fetchChunk = (.ok chunk, { src with answers := answers }) ∧
      chunk.source = some ⟨(), 0⟩ ∧ chunk.buffer = src.rest.take size := by
  unfold From.fetchChunk
  rw [h]
  cases gathered with
  | true => exact ⟨.ofStorage ⟨(), 0⟩ (src.rest.take size), rfl, rfl, rfl⟩
  | false => exact ⟨.ofBuffer ⟨(), 0⟩ (src.rest.take size), rfl, rfl, rfl⟩

theorem leave_eq {chunk : BasicScopedChunk Unit} (h : chunk.source = some ⟨(), 0⟩) :
    src.leave chunk = { src with consumed := src.consumed + chunk.size } := by
  simp only [From.leave, BasicScopedChunk.consume, h, List.map_cons, List.map_nil, List.sum_cons,
    List.sum_nil, Nat.add_zero]

/-- The source behind a turn in which `n` bytes were accepted. -/
def From.after (src : From) (n : Nat) : From :=
  { src with consumed := src.consumed + n, answers := src.answers.tail }

def To.after (dst : To) (buffer : Bytes) : To :=
  { dst with written := dst.written ++ buffer, answers := dst.answers.tail }

theorem rest_after (src : From) (n : Nat) : (src.after n).rest = src.rest.drop n :=
  List.drop_drop.symm

/-- What a turn does: it ends the loop with nothing moved, it loses the chunk it has fetched, or it
    moves `n` bytes and the loop goes on. -/
inductive Turn (src : From) (dst : To) : Prop where
  | ended (status : StatusCode) (src' : From) (hsrc : src'.consumed = src.consumed)
      (hturn : ∀ fuel bytes, transferChunkedData (fuel + 1) src dst bytes =
        some ⟨if status ≠ .kEndOfStream then .error status else .ok bytes, src', dst, .kFetch⟩)
      (hanswers : ∀ size gathered, src.answers.head? ≠ some (.chunk size gathered))
  | refused {size : Nat} {gathered : Bool} (hchunk : src.answers.head? = some (.chunk size gathered))
      (status : StatusCode) (src' : From) (dst' : To)
      (hsrc : src'.consumed = src.consumed + (src.rest.take size).length)
      (hdst : dst'.written = dst.written)
      (htakes : ∀ n, accepts dst.answers (src.rest.take size) = some n → n = 0)
      (hturn : ∀ fuel bytes, transferChunkedData (fuel + 1) src dst bytes =
        some ⟨.error status, src', dst', .kWrite⟩)
  | moved {size : Nat} {gathered : Bool} {n : Nat}
      (hchunk : src.answers.head? = some (.chunk size gathered))
      (htakes : accepts dst.answers (src.rest.take size) = some n) (hpos : 0 < n)
      (hturn : ∀ fuel bytes, transferChunkedData (fuel + 1) src dst bytes =
        transferChunkedData fuel (src.after n) (dst.after ((src.rest.take size).take n)) (bytes + n))

theorem turn (src : From) (dst : To) : Turn src dst := by
  cases hanswers : src.answers with
  | nil =>
    refine .ended .kEndOfStream src rfl (fun fuel bytes => ?_) (by rw [hanswers]; exact nofun)
    simp only [transferChunkedData, From.fetchChunk, hanswers]
  | cons answer answers =>
    cases answer with
    | error status =>
      refine .ended status { src with answers := answers } rfl (fun fuel bytes => ?_)
        (by rw [hanswers]; exact nofun)
      simp only [transferChunkedData, From.fetchChunk, hanswers]
    | chunk size gathered =>
      obtain ⟨chunk, hfetch, hsource, hbuffer⟩ := fetchChunk_of_chunk hanswers
      have hsize : chunk.size = (src.rest.take size).length := congrArg List.length hbuffer
      have hhead : src.answers.head? = some (.chunk size gathered) := by rw [hanswers]; rfl
      cases htakes : accepts dst.answers (src.rest.take size) with
      | none =>
        obtain ⟨code, dst', hwrite, hwritten⟩ := write_of_refused htakes
        refine .refused hhead code ⟨src.stream, src.consumed + chunk.size, answers⟩ dst'
          (congrArg _ hsize) hwritten (fun n hn => absurd (htakes.symm.trans hn) nofun)
          (fun fuel bytes => ?_)
        simp only [transferChunkedData, hfetch, hbuffer, hwrite, leave_eq hsource]
      | some n =>
        have hwrite := write_of_accepts htakes
        by_cases hzero : n = 0
        · subst hzero
          refine .refused hhead .kClosedBeforeEndOfStream
            ⟨src.stream, src.consumed + chunk.size, answers⟩ (dst.after []) (congrArg _ hsize)
            (List.append_nil _) (fun m hm => (Option.some.inj (htakes.symm.trans hm)).symm)
            (fun fuel bytes => ?_)
          simp only [transferChunkedData, hfetch, hbuffer, hwrite, leave_eq hsource, if_true]
          rfl
        · refine .moved hhead htakes (Nat.pos_of_ne_zero hzero) fun fuel bytes => ?_
          have hbacked : (chunk.backUp (chunk.size - n)).size = n := by
            have := accepts_le htakes
            rw [BasicScopedChunk.size_backUp, hsize]
            omega
          simp only [transferChunkedData, hfetch, hbuffer, hwrite, if_neg hzero,
            leave_eq (show (chunk.backUp (chunk.size - n)).source = some ⟨(), 0⟩ from hsource),
            hbacked, From.after, To.after, hanswers, List.tail_cons]

/-! ## The whole transfer -/

/-- Every chunk with bytes that is fetched meets a write that takes at least one of them. -/
def Takes : List FetchAnswer → Bytes → List (StatusOr Nat) → Prop
  | .chunk size _ :: answers, rest, writes =>
    rest.take size = [] ∨
      ∃ n, accepts writes (rest.take size) = some n ∧ 0 < n ∧ Takes answers (rest.drop n) writes.tail
  | _, _, _ => True

/-- As many bytes have been consumed as were accepted, and a count that is returned is that
    number: the destination has got just the next bytes of the source. -/
structure NothingLost (src : From) (dst : To) (t : Transferred) : Prop where
  consumed_eq : t.src.consumed + dst.written.length = src.consumed + t.dst.written.length
  returned : ∀ n, t.result = .ok n → t.src.consumed = src.consumed + n ∧
    t.dst.written = dst.written ++ src.rest.take n ∧ n ≤ src.rest.length

theorem takes_of_ended (h : ∀ size gathered, src.answers.head? ≠ some (.chunk size gathered))
    (rest : Bytes) (writes : List (StatusOr Nat)) : Takes src.answers rest writes := by
  cases ha : src.answers with
  | nil => trivial
  | cons answer answers =>
    rw [ha] at h
    cases answer with
    | error status => trivial
    | chunk size gathered => exact absurd rfl (h size gathered)

theorem takes_cons {size : Nat} {gathered : Bool}
    (h : src.answers.head? = some (.chunk size gathered)) (rest : Bytes)
    (writes : List (StatusOr Nat)) :
    Takes src.answers rest writes ↔ rest.take size = [] ∨
      ∃ n, accepts writes (rest.take size) = some n ∧ 0 < n ∧
        Takes src.answers.tail (rest.drop n) writes.tail := by
  obtain ⟨answers, ha⟩ := List.head?_eq_some_iff.mp h
  rw [ha]
  rfl

/-- The transfer returns: each turn takes an answer of the source. -/
theorem transfer_returns (src : From) (dst : To) (bytes : Nat) :
    ∃ t, transferChunkedData (src.answers.length + 1) src dst bytes = some t := by
  induction hlen : src.answers.length generalizing src dst bytes with
  | zero =>
    cases turn src dst with
    | ended status src' _ hturn _ => exact ⟨_, hturn 0 bytes⟩
    | refused hchunk _ _ _ _ _ _ _ | moved hchunk _ _ _ =>
      rw [List.length_eq_zero_iff.mp hlen] at hchunk
      cases hchunk
  | succ m ih =>
    cases turn src dst with
    | ended status src' _ hturn _ => exact ⟨_, hturn _ bytes⟩
    | refused _ status src' dst' _ _ _ hturn => exact ⟨_, hturn _ bytes⟩
    | moved hchunk htakes _ hturn =>
      rw [hturn]
      refine ih _ _ _ ?_
      show src.answers.tail.length = m
      rw [List.length_tail, hlen, Nat.add_sub_cancel]

/-- A count is returned for the bytes that were moved, and for no others. -/
theorem transferred_ok {n : Nat} (h : transferChunkedData fuel src dst bytes = some t)
    (hok : t.result = .ok n) :
    ∃ k, n = bytes + k ∧ t.src.consumed = src.consumed + k ∧
      t.dst.written = dst.written ++ src.rest.take k ∧ k ≤ src.rest.length := by
  induction fuel generalizing src dst bytes with
  | zero => cases h
  | succ fuel ih =>
    cases turn src dst with
    | ended status src' hsrc hturn _ =>
      rw [hturn] at h
      cases h
      refine ⟨0, ?_, hsrc, by rw [List.take_zero, List.append_nil], Nat.zero_le _⟩
      by_cases heof : status ≠ .kEndOfStream
      · rw [if_pos heof] at hok
        cases hok
      · rw [if_neg heof] at hok
        cases hok
        rfl
    | refused _ status src' dst' _ _ _ hturn =>
      rw [hturn] at h
      cases h
      cases hok
    | @moved size gathered m hchunk htakes hpos hturn =>
      rw [hturn] at h
      obtain ⟨k, rfl, hconsumed, hwritten, hk⟩ := ih h
      have hm := accepts_le htakes
      rw [List.length_take] at hm
      rw [rest_after, List.length_drop] at hk
      refine ⟨m + k, Nat.add_assoc _ _ _, ?_, ?_, by omega⟩
      · rw [hconsumed, ← Nat.add_assoc]
        rfl
      · rw [hwritten, rest_after, List.take_add, ← List.append_assoc]
        show dst.written ++ (src.rest.take size).take m ++ _ = _
        rw [List.take_take, Nat.min_eq_left (by omega)]

/-- The counts agree in the end if and only if no turn loses a chunk. -/
theorem consumed_eq_iff (h : transferChunkedData fuel src dst bytes = some t) :
    t.src.consumed + dst.written.length = src.consumed + t.dst.written.length ↔
      Takes src.answers src.rest dst.answers := by
  induction fuel generalizing src dst bytes with
  | zero => cases h
  | succ fuel ih =>
    cases turn src dst with
    | ended status src' hsrc hturn hanswers =>
      rw [hturn] at h
      cases h
      exact iff_of_true (by rw [hsrc]) (takes_of_ended hanswers _ _)
    | @refused size gathered hchunk status src' dst' hsrc hdst htakes hturn =>
      rw [hturn] at h
      cases h
      rw [takes_cons hchunk, hsrc, hdst, ← List.length_eq_zero_iff]
      constructor
      · exact fun heq => .inl (by omega)
      · rintro (hempty | ⟨n, hn, hpos, -⟩)
        · omega
        · exact absurd (htakes n hn) (Nat.ne_of_gt hpos)
    | @moved size gathered m hchunk htakes hpos hturn =>
      rw [hturn] at h
      have hm := accepts_le htakes
      have hiff := ih h
      have hlength : (dst.after ((src.rest.take size).take m)).written.length =
          dst.written.length + m := by
        show (dst.written ++ (src.rest.take size).take m).length = _
        rw [List.length_append, List.length_take, Nat.min_eq_left hm]
      rw [hlength, rest_after] at hiff
      have hnext : Takes src.answers src.rest dst.answers ↔
          Takes src.answers.tail (src.rest.drop m) dst.answers.tail := by
        rw [takes_cons hchunk]
        constructor
        · rintro (hempty | ⟨n, hn, -, hnext⟩)
          · rw [hempty] at hm
            exact absurd hpos (Nat.not_lt.mpr hm)
          · obtain rfl : n = m := Option.some.inj (hn.symm.trans htakes)
            exact hnext
        · exact fun hnext => .inr ⟨m, htakes, hpos, hnext⟩
      rw [hnext]
      refine Iff.trans ?_ hiff
      show _ ↔ t.src.consumed + (dst.written.length + m) = src.consumed + m + t.dst.written.length
      omega

/-- **When a transfer loses nothing.** For every source and destination the transfer returns,
    with as many bytes consumed as were accepted, on success as many as it returns and the first
    of the source in order, if and only if the destination takes at least a byte of every chunk
    with bytes that it is given. -/
theorem nothing_lost_iff (src : From) (dst : To) :
    (∃ fuel t, transferChunkedData fuel src dst 0 = some t ∧ NothingLost src dst t) ↔
      Takes src.answers src.rest dst.answers := by
  constructor
  · rintro ⟨fuel, t, hrun, hlost⟩
    exact (consumed_eq_iff hrun).mp hlost.consumed_eq
  · intro htakes
    obtain ⟨t, hrun⟩ := transfer_returns src dst 0
    refine ⟨_, t, hrun, (consumed_eq_iff hrun).mpr htakes, fun n hok => ?_⟩
    obtain ⟨k, hn, hconsumed, hwritten, hk⟩ := transferred_ok hrun hok
    rw [Nat.zero_add] at hn
    subst hn
    exact ⟨hconsumed, hwritten, hk⟩

/-- The destination fails at the first write: three bytes are consumed that it has not got. -/
theorem failed_write_loses_chunk :
    ∃ t, transferChunkedData 1 ⟨[1, 2, 3], 0, [.chunk 3 false]⟩ ⟨[], [.error .kUnavailable]⟩ 0 =
        some t ∧ t.src.consumed = 3 ∧ t.dst.written = [] ∧
      ¬ NothingLost ⟨[1, 2, 3], 0, [.chunk 3 false]⟩ ⟨[], [.error .kUnavailable]⟩ t :=
  ⟨_, rfl, rfl, rfl, fun h => absurd h.consumed_eq (by decide)⟩

end Batt.Fetch
