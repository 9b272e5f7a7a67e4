/-
  What `http_encode_chunked` writes, and what the decoder makes of it.

  `encoded first chunks` is what the encoder writes for a sequence of chunks: each header is
  written behind the line end of the chunk before it, and the last chunk brings the line end
  of the last data. `httpEncodeChunked_writes` says that the output is `encoded` of the chunks
  into which the source cut its bytes, whatever the cuts; `ends_encoded` that the decoder reads
  it to its end, if there was a chunk at all.
-/
import Batt.Http.Cursor
import Batt.Http.Grammar

namespace Batt.Http

open Transducer

/-! ## Hex digits -/

theorem decodeHex_hexDigits : ∀ v < 16, decodeHex (hexDigits.getD v 0) = some v := by decide

theorem nibble_lt (n k : Nat) : nibble n k < 16 := Nat.mod_lt _ (by decide)

theorem length_digitsFrom (n k : Nat) : (digitsFrom n k).length = k + 1 := by
  induction k with
  | zero => rfl
  | succ k ih => rw [digitsFrom, List.length_cons, ih]

theorem digitsFrom_hex (n k : Nat) : ∀ b ∈ digitsFrom n k, (decodeHex b).isSome := by
  have hdigit : ∀ k, (decodeHex (hexDigits.getD (nibble n k) 0)).isSome := fun k => by
    rw [decodeHex_hexDigits _ (nibble_lt n k)]
    rfl
  induction k with
  | zero =>
    intro b hb
    rw [List.mem_singleton.mp hb]
    exact hdigit 0
  | succ k ih =>
    intro b hb
    rcases List.mem_cons.mp hb with rfl | hb
    · exact hdigit (k + 1)
    · exact ih b hb

/-- The digits from digit `k` down are those of the number below `16 ^ (k + 1)`. -/
theorem foldl_digitsFrom (n k acc : Nat) :
    (digitsFrom n k).foldl (fun n b => n * 16 + (decodeHex b).getD 0) acc =
      acc * 16 ^ (k + 1) + n % 16 ^ (k + 1) := by
  induction k generalizing acc with
  | zero =>
    simp only [digitsFrom, List.foldl_cons, List.foldl_nil,
      decodeHex_hexDigits _ (nibble_lt n 0), Option.getD_some]
    simp only [nibble, Nat.pow_zero, Nat.div_one, Nat.zero_add, Nat.pow_one]
  | succ k ih =>
    rw [digitsFrom, List.foldl_cons, ih, decodeHex_hexDigits _ (nibble_lt n (k + 1)),
      Option.getD_some, @Nat.mod_pow_succ n 16 (k + 1), nibble, Nat.pow_succ 16 (k + 1)]
    rw [Nat.add_mul, Nat.mul_assoc, Nat.mul_comm 16, Nat.mul_comm (n / 16 ^ (k + 1) % 16)]
    omega

theorem firstDigit_le (n k : Nat) : firstDigit n k ≤ k := by
  induction k with
  | zero => exact Nat.le_refl 0
  | succ k ih =>
    unfold firstDigit
    split
    · exact Nat.le_succ_of_le ih
    · exact Nat.le_refl _

/-- The digits in front of the first one that is not zero say nothing. -/
theorem lt_pow_firstDigit {n k : Nat} (h : n < 16 ^ (k + 1)) : n < 16 ^ (firstDigit n k + 1) := by
  induction k with
  | zero => exact h
  | succ k ih =>
    unfold firstDigit
    split
    · next hzero =>
      apply ih
      have hlt : n / 16 ^ (k + 1) < 16 := by
        rw [Nat.div_lt_iff_lt_mul (Nat.pow_pos (by decide)), Nat.mul_comm, ← Nat.pow_succ]
        exact h
      rw [nibble, Nat.mod_eq_of_lt hlt] at hzero
      exact (Nat.div_eq_zero_iff_lt (Nat.pow_pos (by decide))).mp hzero
    · exact h

theorem length_encodeHex (n : Nat) : (encodeHex n).length ≤ 16 := by
  unfold encodeHex
  split
  · decide
  · have := firstDigit_le n 15
    rw [length_digitsFrom]
    omega

/-- `encode_hex` writes a size field of at most 16 digits. -/
theorem sizeField_encodeHex {n : Nat} (h : n < 2 ^ 64) : SizeField (encodeHex n) n := by
  by_cases hzero : n = 0
  · subst hzero
    decide
  · have hsmall := @lt_pow_firstDigit n 15 h
    rw [encodeHex, if_neg hzero]
    refine ⟨?_, digitsFrom_hex n _, ?_⟩
    · rw [← List.length_pos_iff, length_digitsFrom]
      exact Nat.succ_pos _
    · rw [hexValue, foldl_digitsFrom, Nat.mod_eq_of_lt hsmall, Nat.zero_mul, Nat.zero_add]

/-! ## The output of the encoder -/

def encoded : Bool → List Bytes → Bytes
  | _, [] => []
  | first, chunk :: chunks => chunkHeader first chunk.length ++ chunk ++ encoded false chunks

theorem encoded_append (first : Bool) (xs ys : List Bytes) :
    encoded first (xs ++ ys) = encoded first xs ++ encoded (first && xs.isEmpty) ys := by
  induction xs generalizing first with
  | nil => simp [encoded]
  | cons x xs ih =>
    simp only [List.cons_append, encoded, ih, List.append_assoc, List.isEmpty_cons, Bool.and_false,
      Bool.false_and]

/-- A destination that takes every write. -/
structure Accepts (D : Type) [AsyncWriteStream D] (written : D → Bytes) : Prop where
  write_ok : ∀ (dst : D) (buffers : List Bytes), ∃ dst',
    AsyncWriteStream.awaitWrite dst buffers = (.ok (), dst') ∧
      written dst' = written dst ++ buffers.flatten

/-- A source that fails only for want of bytes. -/
structure Steady (S : Type) [BufferSource S] (rest : S → Bytes) : Prop where
  failed : ∀ {s s' : S} {n : Nat} {status : StatusCode},
    BufferSource.fetchAtLeast s n = (.error status, s') →
      status = .kEndOfStream ∧ (rest s).length < n

/-- The size of a buffer is a `usize`. -/
structure Sized (S : Type) [BufferSource S] : Prop where
  size_lt : ∀ {s s' : S} {n : Nat} {buffers : List Bytes},
    BufferSource.fetchAtLeast s n = (.ok buffers, s') → ∀ b ∈ buffers, b.length < 2 ^ 64

/-- Fetching a byte and consuming all that came, over and over, an empty buffer comes up. -/
inductive FindsEmpty {S : Type} [BufferSource S] : S → Prop where
  | now {src src' : S} {buffers : List Bytes}
      (hfetch : BufferSource.fetchAtLeast src 1 = (.ok buffers, src')) (hempty : [] ∈ buffers) :
      FindsEmpty src
  | later {src src' : S} {buffers : List Bytes}
      (hfetch : BufferSource.fetchAtLeast src 1 = (.ok buffers, src'))
      (hmore : FindsEmpty (BufferSource.consume src' buffers.flatten.length)) : FindsEmpty src

section Encode

variable {S D : Type} [BufferSource S] [AsyncWriteStream D] {rest : S → Bytes} {held : S → Nat}
  {written : D → Bytes} {dst dst' : D}

omit [BufferSource S] in
theorem encodeChunks_writes (hdst : Accepts D written) {chunks : List Bytes}
    (hne : ∀ c ∈ chunks, c ≠ []) (dst : D) (first : Bool) (n : Nat) :
    ∃ dst', encodeChunks chunks dst first n =
        (none, dst', first && chunks.isEmpty, n + chunks.flatten.length) ∧
      written dst' = written dst ++ encoded first chunks := by
  induction chunks generalizing dst first n with
  | nil => exact ⟨dst, by simp [encodeChunks], by simp [encoded]⟩
  | cons c chunks ih =>
    have hpos := List.length_pos_iff.mpr (hne c List.mem_cons_self)
    obtain ⟨dst₁, hwrite, hout⟩ := hdst.write_ok dst [chunkHeader first c.length, c]
    obtain ⟨dst', heq, hrest⟩ :=
      ih (fun d hd => hne d (List.mem_cons_of_mem c hd)) dst₁ false (n + c.length)
    refine ⟨dst', ?_, ?_⟩
    · unfold encodeChunks
      rw [if_pos hpos, hwrite]
      simp only [if_neg (Nat.ne_of_gt hpos), heq, Bool.false_and, List.isEmpty_cons, Bool.and_false,
        List.flatten_cons, List.length_append, Nat.add_assoc]
    · rw [hrest, hout, encoded]
      simp only [List.flatten_cons, List.flatten_nil, List.append_nil, List.append_assoc]

omit [BufferSource S] in
theorem encodeLast_writes (hdst : Accepts D written) (dst : D) (trailer : Bool) :
    ∃ dst', encodeLast dst trailer = (.ok, dst') ∧
      written dst' = written dst ++ lastChunk trailer := by
  obtain ⟨dst', hwrite, hout⟩ := hdst.write_ok dst [lastChunk trailer]
  refine ⟨dst', ?_, ?_⟩
  · unfold encodeLast
    rw [hwrite]
  · rw [hout, List.flatten_singleton]

/-- At the end of its source the encoder writes the last chunk. -/
theorem httpEncodeChunked_atEnd (hsteady : Steady S rest) (hdst : Accepts D written) {src src₁ : S}
    {status : StatusCode} (hfetch : BufferSource.fetchAtLeast src 1 = (.error status, src₁))
    (fuel : Nat) (dst : D) (trailer first : Bool) :
    rest src = [] ∧ ∃ dst', httpEncodeChunked (fuel + 1) src dst trailer first =
        some (.ok, src₁, dst') ∧ written dst' = written dst ++ lastChunk trailer := by
  obtain ⟨rfl, hshort⟩ := hsteady.failed hfetch
  obtain ⟨dst', hlast, hout⟩ := encodeLast_writes hdst dst trailer
  refine ⟨List.length_eq_zero_iff.mp (by omega), dst', ?_, hout⟩
  simp only [httpEncodeChunked, hfetch, if_pos, hlast]

/-- **The encoder writes all the bytes of its source**, as the chunks it found there. -/
theorem httpEncodeChunked_writes (hsrc : Delivers S rest held) (hsteady : Steady S rest)
    (hsized : Sized S) (hdst : Accepts D written) {src : S} (hne : ¬ FindsEmpty src) (dst : D)
    (trailer first : Bool) :
    ∃ fuel chunks src' dst',
      httpEncodeChunked fuel src dst trailer first = some (.ok, src', dst') ∧
      chunks.flatten = rest src ∧ (∀ c ∈ chunks, c ≠ [] ∧ c.length < 2 ^ 64) ∧
      written dst' = written dst ++ (encoded first chunks ++ lastChunk trailer) := by
  induction hlen : (rest src).length using Nat.strong_induction_on generalizing src dst first with
  | _ len ih =>
    cases hfetch : BufferSource.fetchAtLeast src 1 with
    | mk answer src₁ =>
      have hrest : rest src₁ = rest src := by
        have heq := hsrc.fetch_rest src 1
        rwa [hfetch] at heq
      cases answer with
      | error status =>
        obtain ⟨hempty, dst', heq, hout⟩ :=
          httpEncodeChunked_atEnd hsteady hdst hfetch 0 dst trailer first
        exact ⟨1, [], src₁, dst', heq, hempty.symm, nofun, hout⟩
      | ok fetched =>
        have hchunk : ∀ b ∈ fetched, b ≠ [] := fun b hb hnil => hne (.now hfetch (hnil ▸ hb))
        obtain ⟨more, hmore⟩ := hsrc.fetched_first hfetch
        have hpos := hsrc.fetched_enough hfetch
        obtain ⟨dst₁, hwrite, hout⟩ := encodeChunks_writes hdst hchunk dst first 0
        rw [Nat.zero_add] at hwrite
        have hleft : rest (BufferSource.consume src₁ fetched.flatten.length) = more := by
          rw [hsrc.consume_rest (hsrc.fetched_held hfetch), hrest, ← hmore, List.drop_left]
        have hshorter : more.length < len := by
          rw [← hlen, ← hmore, List.length_append]
          omega
        obtain ⟨fuel, chunks, src', dst', heq, hflat, hall, hout'⟩ :=
          ih more.length hshorter (fun hlater => hne (.later hfetch hlater)) dst₁
            (first && fetched.isEmpty) (by rw [hleft])
        refine ⟨fuel + 1, fetched ++ chunks, src', dst', ?_, ?_, ?_, ?_⟩
        · simp only [httpEncodeChunked, hfetch, hwrite]
          exact heq
        · rw [List.flatten_append, hflat, hleft, hmore]
        · intro c hc
          exact (List.mem_append.mp hc).elim
            (fun hc => ⟨hchunk c hc, hsized.size_lt hfetch c hc⟩) (hall c)
        · rw [hout', hout, encoded_append]
          simp only [List.append_assoc]

omit [BufferSource S] in
/-- The loop over the chunks comes to its end only when none of them is empty. -/
theorem encodeChunks_done {chunks : List Bytes} {first first' : Bool} {n n' : Nat}
    (h : encodeChunks chunks dst first n = (none, dst', first', n')) :
    [] ∉ chunks ∧ n' = n + chunks.flatten.length := by
  induction chunks generalizing dst first n with
  | nil =>
    cases h
    exact ⟨List.not_mem_nil, rfl⟩
  | cons c chunks ih =>
    unfold encodeChunks at h
    split at h
    · cases h
    · split at h
      · cases h
      · next hpos =>
        obtain ⟨hne, rfl⟩ := ih h
        refine ⟨List.not_mem_cons_of_ne_of_not_mem (fun hnil => hpos (by rw [← hnil]; rfl)) hne, ?_⟩
        rw [List.flatten_cons, List.length_append, Nat.add_assoc]

omit [BufferSource S] in
/-- The loop over the chunks is left for a failed write or for an empty chunk, never with OK. -/
theorem encodeChunks_left {chunks : List Bytes} {first first' : Bool} {n n' : Nat}
    {result : EncodeResult}
    (h : encodeChunks chunks dst first n = (some result, dst', first', n')) : result ≠ .ok := by
  induction chunks generalizing dst first n with
  | nil => cases h
  | cons c chunks ih =>
    unfold encodeChunks at h
    split at h
    · cases h
      exact EncodeResult.noConfusion
    · split at h
      · cases h
        exact EncodeResult.noConfusion
      · exact ih h

/-- A turn behind which the encoder returns OK found no empty buffer and consumed what it found. -/
theorem httpEncodeChunked_turn {src src₁ src' : S} {buffers : List Bytes}
    (hfetch : BufferSource.fetchAtLeast src 1 = (.ok buffers, src₁)) {fuel : Nat}
    {trailer first : Bool}
    (h : httpEncodeChunked fuel src dst trailer first = some (.ok, src', dst')) :
    [] ∉ buffers ∧ ∃ fuel' dst₁ first', fuel = fuel' + 1 ∧
      httpEncodeChunked fuel' (BufferSource.consume src₁ buffers.flatten.length) dst₁ trailer
        first' = some (.ok, src', dst') := by
  cases fuel with
  | zero => cases h
  | succ fuel =>
    simp only [httpEncodeChunked, hfetch] at h
    split at h
    · next hleft =>
      cases h
      exact absurd rfl (encodeChunks_left hleft)
    · next hdone =>
      obtain ⟨hne, hcount⟩ := encodeChunks_done hdone
      rw [hcount, Nat.zero_add] at h
      exact ⟨hne, fuel, _, _, rfl, h⟩

/-- An encoder that returned OK came to no empty buffer: there it panics. -/
theorem not_findsEmpty_of_encoded {fuel : Nat} {src src' : S} {trailer first : Bool}
    (h : httpEncodeChunked fuel src dst trailer first = some (.ok, src', dst')) :
    ¬ FindsEmpty src := by
  intro hfinds
  induction hfinds generalizing fuel dst first with
  | now hfetch hempty => exact (httpEncodeChunked_turn hfetch h).1 hempty
  | later hfetch _ ih =>
    obtain ⟨-, fuel', dst₁, first', -, hmore⟩ := httpEncodeChunked_turn hfetch h
    exact ih hmore

end Encode

/-! ## The decoder on the output -/

/-- The decoder where a chunk header of the encoder begins. -/
def atHeader (trailer first : Bool) : ChunkedDecoder :=
  if first then atChunk trailer else { atChunk trailer with state := .chunkCrlf }

def atData (trailer : Bool) (n : Nat) : ChunkedDecoder :=
  { atChunk trailer with bytesLeftInChunk := n, state := .chunkData }

section Decode

variable {trailer : Bool}

theorem reads_header (first : Bool) {n : Nat} (hpos : 0 < n) (hn : n < 2 ^ 64) :
    Reads (atHeader trailer first) (chunkHeader first n) [] (atData trailer n) := by
  have hline : Reads (atChunk trailer) (encodeHex n ++ ([] ++ crlf)) [] (atData trailer n) :=
    .line (sizeField_encodeHex hn) (length_encodeHex n) ⟨nofun, nofun⟩
      (by simp only [stepByte, extByte, if_pos, if_neg (Nat.ne_of_gt hpos), atData])
  rw [List.nil_append] at hline
  unfold chunkHeader
  rw [Nat.mod_eq_of_lt hn]
  cases first with
  | true => exact hline
  | false =>
    have hcrlf : Reads (atHeader trailer false) crlf [] (atChunk trailer) := .cons rfl (.one rfl)
    have hall := hcrlf.append hline
    rw [← List.append_assoc] at hall
    exact hall

theorem reads_chunk {c : Bytes} (hne : c ≠ []) :
    Reads (atData trailer c.length) c c (atHeader trailer false) := by
  have hscan := scanFrom_data (d := atData trailer c.length) rfl (Nat.le_refl _) hne
  have hall : (atData trailer c.length).bytesLeftInChunk ≤ c.length := Nat.le_refl _
  have hafter : (atData trailer c.length).afterData c.length = atHeader trailer false := by
    rw [ChunkedDecoder.afterData, if_pos hall, Nat.sub_eq_zero_of_le hall]
    rfl
  rw [hafter] at hscan
  exact hscan

theorem ends_lastChunk (trailer : Bool) :
    ∃ d, Ends (atHeader trailer false) (lastChunk trailer) [] d := by
  cases trailer with
  | true => exact ⟨_, rfl⟩
  | false => exact ⟨_, rfl⟩

/-- **The decoder reads the output of the encoder to its end**, when there is a chunk in it or in
    front of it. -/
theorem ends_encoded {first : Bool} {chunks : List Bytes}
    (hchunks : ∀ c ∈ chunks, c ≠ [] ∧ c.length < 2 ^ 64) (hone : first = false ∨ chunks ≠ []) :
    ∃ d, Ends (atHeader trailer first) (encoded first chunks ++ lastChunk trailer)
      chunks.flatten d := by
  induction chunks generalizing first with
  | nil =>
    obtain rfl : first = false := hone.resolve_right (fun h => h rfl)
    exact ends_lastChunk trailer
  | cons c chunks ih =>
    obtain ⟨hne, hsize⟩ := hchunks c List.mem_cons_self
    obtain ⟨d, hd⟩ := ih (fun c' hc' => hchunks c' (List.mem_cons_of_mem c hc')) (.inl rfl)
    have hheader := @reads_header trailer first _ (List.length_pos_iff.mpr hne) hsize
    have hall := (hheader.append (reads_chunk hne)).ends hd
    rw [List.nil_append] at hall
    refine ⟨d, ?_⟩
    rw [encoded, List.append_assoc]
    exact hall

theorem ends_body {chunks : List Bytes} (hchunks : ∀ c ∈ chunks, c ≠ [] ∧ c.length < 2 ^ 64)
    (hne : chunks ≠ []) :
    ∃ d, Ends (atChunk trailer) (encoded true chunks ++ lastChunk trailer) chunks.flatten d :=
  @ends_encoded trailer true chunks hchunks (.inr hne)

/-! ## Stretches without output -/

/-- From `x` on the next output, or the end of `full`, is no more than `k` bytes away. -/
def Near (d : ChunkedDecoder) (full x : Bytes) (k : Nat) : Prop :=
  ∃ z, z.length ≤ k ∧ x ++ z <+: full ∧
    ((scanFrom d x).emitted.length < (scanFrom d (x ++ z)).emitted.length ∨
      (scanFrom d (x ++ z)).mode = .stopped)

theorem Near.behind {d d₁ : ChunkedDecoder} {xs out full x : Bytes} {k : Nat}
    (hreads : Reads d xs out d₁) (h : Near d₁ full x k) : Near d (xs ++ full) (xs ++ x) k := by
  have hscan : ∀ ys, scanFrom d (xs ++ ys) =
      Scan.andThen ⟨d₁, out, xs.length, .running⟩ (scanFrom d₁ ys) := fun ys => by
    rw [scanFrom_append (by rw [hreads]), hreads]
  obtain ⟨z, hz, hpre, hnext⟩ := h
  refine ⟨z, hz, ?_, ?_⟩
  · rw [List.append_assoc]
    exact (List.prefix_append_right_inj xs).mpr hpre
  · rw [List.append_assoc, hscan, hscan]
    refine hnext.imp (fun hlt => ?_) id
    simp only [Scan.andThen, List.length_append]
    omega

theorem emitted_data {n : Nat} {xs : Bytes} (hle : xs.length ≤ n) :
    (scanFrom (atData trailer n) xs).emitted = xs := by
  by_cases hnil : xs = []
  · subst hnil
    rfl
  · rw [scanFrom_data (d := atData trailer n) rfl hle hnil]

theorem length_chunkHeader (first : Bool) (n : Nat) : (chunkHeader first n).length ≤ 20 := by
  have hhex := length_encodeHex (n % 2 ^ 64)
  unfold chunkHeader
  cases first <;>
    simp only [List.length_append, crlf, List.length_cons, List.length_nil, if_true, if_false,
      Bool.false_eq_true] <;> omega

/-- Inside the data of a chunk the next byte is output. -/
theorem near_data {c rest x : Bytes} (hx : x <+: c ++ rest) (hlt : x.length < c.length) :
    Near (atData trailer c.length) (c ++ rest) x 1 := by
  obtain ⟨more, rfl⟩ : x <+: c :=
    List.prefix_of_prefix_length_le hx (List.prefix_append c rest) (Nat.le_of_lt hlt)
  cases more with
  | nil =>
    rw [List.append_nil] at hlt
    exact absurd hlt (Nat.lt_irrefl _)
  | cons b more =>
    have hlen : (x ++ [b]).length ≤ (x ++ b :: more).length := by
      simp only [List.length_append, List.length_cons, List.length_nil]
      omega
    refine ⟨[b], Nat.le_refl 1, ?_, .inl ?_⟩
    · exact ⟨more ++ rest, by simp only [List.append_assoc, List.cons_append, List.nil_append]⟩
    · rw [emitted_data (Nat.le_of_lt hlt), emitted_data hlen, List.length_append]
      exact Nat.lt_succ_self _

theorem Near.mono {d : ChunkedDecoder} {full x : Bytes} {k m : Nat} (h : Near d full x k)
    (hle : k ≤ m) : Near d full x m := by
  obtain ⟨z, hz, hnext⟩ := h
  exact ⟨z, Nat.le_trans hz hle, hnext⟩

/-- Inside a header the first byte of the data is the next output. -/
theorem near_header {first : Bool} {c rest x : Bytes} (hne : c ≠ []) (hsize : c.length < 2 ^ 64)
    (hx : x <+: chunkHeader first c.length) :
    Near (atHeader trailer first) (chunkHeader first c.length ++ (c ++ rest)) x 21 := by
  have hheader := @reads_header trailer first _ (List.length_pos_iff.mpr hne) hsize
  have hsilent : (scanFrom (atHeader trailer first) x).emitted = [] := by
    have hpre := @emitted_mono (atHeader trailer first) _ _ hx
    rw [hheader] at hpre
    exact List.prefix_nil.mp hpre
  obtain ⟨z, hz, hpre, hnext⟩ :=
    Near.behind hheader (@near_data trailer c rest [] List.nil_prefix (List.length_pos_iff.mpr hne))
  have hlen := length_chunkHeader first c.length
  obtain ⟨h, hh⟩ := hx
  rw [← hh, List.length_append] at hlen
  rw [List.append_nil, ← hh, List.append_assoc] at hnext hpre
  refine ⟨h ++ z, by rw [List.length_append]; omega, ?_, ?_⟩
  · rw [← hh]
    exact hpre
  · rw [hsilent]
    refine hnext.imp (fun hlt => ?_) id
    exact Nat.lt_of_le_of_lt (Nat.zero_le _) hlt

/-- **No stretch of the output without data is longer than a header.** -/
theorem near_encoded {first : Bool} {chunks : List Bytes}
    (hchunks : ∀ c ∈ chunks, c ≠ [] ∧ c.length < 2 ^ 64) (hone : first = false ∨ chunks ≠ [])
    {x : Bytes} (hx : x <+: encoded first chunks ++ lastChunk trailer) :
    Near (atHeader trailer first) (encoded first chunks ++ lastChunk trailer) x 21 := by
  induction chunks generalizing first x with
  | nil =>
    obtain rfl : first = false := hone.resolve_right (fun h => h rfl)
    obtain ⟨d, hd⟩ := ends_lastChunk trailer
    obtain ⟨z, hz⟩ := hx
    have hlen : z.length ≤ (lastChunk trailer).length := by
      have heq := congrArg List.length hz
      rw [List.length_append] at heq
      simp only [encoded, List.nil_append] at heq
      omega
    refine ⟨z, Nat.le_trans hlen (by cases trailer <;> decide), ?_, .inr ?_⟩
    · rw [hz]
    · rw [hz, encoded, List.nil_append, hd]
  | cons c chunks ih =>
    obtain ⟨hne, hsize⟩ := hchunks c List.mem_cons_self
    have hheader := @reads_header trailer first _ (List.length_pos_iff.mpr hne) hsize
    rw [encoded, List.append_assoc, List.append_assoc] at hx ⊢
    rcases Nat.le_total x.length (chunkHeader first c.length).length with hle | hle
    · exact near_header hne hsize
        (List.prefix_of_prefix_length_le hx (List.prefix_append _ _) hle)
    obtain ⟨x₁, rfl⟩ := List.prefix_of_prefix_length_le (List.prefix_append _ _) hx hle
    have hx₁ := (List.prefix_append_right_inj _).mp hx
    refine Near.behind hheader ?_
    rcases Nat.lt_or_ge x₁.length c.length with hlt | hge
    · exact (near_data hx₁ hlt).mono (by decide)
    obtain ⟨x₂, rfl⟩ := List.prefix_of_prefix_length_le (List.prefix_append _ _) hx₁ hge
    refine Near.behind (reads_chunk hne) ?_
    exact ih (fun c' hc' => hchunks c' (List.mem_cons_of_mem c hc')) (.inl rfl)
      ((List.prefix_append_right_inj c).mp hx₁)

theorem near_body {chunks : List Bytes} (hchunks : ∀ c ∈ chunks, c ≠ [] ∧ c.length < 2 ^ 64)
    (hne : chunks ≠ []) {x : Bytes} (hx : x <+: encoded true chunks ++ lastChunk trailer) :
    Near (atChunk trailer) (encoded true chunks ++ lastChunk trailer) x 21 :=
  @near_encoded trailer true chunks hchunks (.inr hne) x hx

end Decode

end Batt.Http
