/-
  `decode_chunked` reads a buffer as a transducer does. `stepByte` is what the decoder makes of
  one byte; `decodeChunked_eq` says that a call on a buffer is `stepByte` fed with its bytes,
  so how a stream is cut into buffers has no influence on what is decoded from it.
-/
import Batt.Lib.Transducer
import Batt.Http.Model

namespace Batt.Http

open Transducer

abbrev DecoderMove := Move ChunkedDecoder UInt8 StatusCode
abbrev DecoderScan := Scan ChunkedDecoder UInt8 StatusCode

def extByte (d : ChunkedDecoder) (b : UInt8) : DecoderMove :=
  if b = lf then
    if d.bytesLeftInChunk = 0 then
      if d.consumeTrailer then .next { d with state := .trailersLineHead } [] else .stop d
    else .next { d with state := .chunkData } []
  else .next d []

/-- The decoder after `n` bytes of chunk data. -/
def ChunkedDecoder.afterData (d : ChunkedDecoder) (n : Nat) : ChunkedDecoder :=
  { d with
    bytesLeftInChunk := d.bytesLeftInChunk - n
    state := if d.bytesLeftInChunk ≤ n then .chunkCrlf else .chunkData }

def stepByte (d : ChunkedDecoder) (b : UInt8) : DecoderMove :=
  match d.state with
  | .chunkSize =>
    match decodeHex b with
    | none =>
      if d.hexCount = 0 then .fail .kInvalidArgument
      else extByte { d with hexCount := 0, state := .chunkExt } b
    | some v =>
      if d.hexCount = maxHexCount then .fail .kInvalidArgument
      else
        .next { d with
          bytesLeftInChunk := (d.bytesLeftInChunk * 16 + v) % 2 ^ 64
          hexCount := d.hexCount + 1 } []
  | .chunkExt => extByte d b
  | .chunkData => .next (d.afterData 1) [b]
  | .chunkCrlf =>
    if b = cr then .next d []
    else if b ≠ lf then .fail .kInvalidArgument
    else .next { d with state := .chunkSize } []
  | .trailersLineHead =>
    if b = cr then .next d []
    else if b = lf then .stop d
    else .next { d with state := .trailersLineMiddle } []
  | .trailersLineMiddle =>
    if b = lf then .next { d with state := .trailersLineHead } [] else .next d []

/-- There is a byte to come when the decoder waits for chunk data. -/
def ChunkedDecoder.Ready (d : ChunkedDecoder) : Prop :=
  d.state = .chunkData → 0 < d.bytesLeftInChunk

def scanFrom (d : ChunkedDecoder) (bytes : Bytes) : DecoderScan :=
  (start d).feed stepByte bytes

@[simp] theorem scanFrom_nil (d : ChunkedDecoder) : scanFrom d [] = start d := rfl

variable {d d₁ : ChunkedDecoder} {b : UInt8} {rest : Bytes}

/-! ## A byte at a time -/

theorem scanFrom_cons_next {out : Bytes} (h : stepByte d b = .next d₁ out) (rest : Bytes) :
    scanFrom d (b :: rest) =
      Scan.andThen ⟨d₁, out, 1, .running⟩ (scanFrom d₁ rest) := by
  unfold scanFrom
  rw [feed_cons, push_next rfl h, feed_eq_andThen rfl]
  rfl

theorem scanFrom_cons_stop (h : stepByte d b = .stop d₁) (rest : Bytes) :
    scanFrom d (b :: rest) = ⟨d₁, [], 1, .stopped⟩ := by
  unfold scanFrom
  rw [feed_cons, push_stop rfl h]
  exact feed_of_halted (by nofun) rest

theorem scanFrom_cons_fail {e : StatusCode} (h : stepByte d b = .fail e) (rest : Bytes) :
    scanFrom d (b :: rest) = ⟨d, [], 0, .failed e⟩ := by
  unfold scanFrom
  rw [feed_cons, push_fail rfl h]
  exact feed_of_halted (by nofun) rest

theorem scanFrom_append {read : Bytes} (h : (scanFrom d read).mode = .running) (rest : Bytes) :
    scanFrom d (read ++ rest) =
      (scanFrom d read).andThen (scanFrom (scanFrom d read).state rest) := by
  unfold scanFrom at *
  rw [feed_append, feed_eq_andThen h]

/-- The end of a chunk size is read again as a byte of the extension. -/
theorem stepByte_end_of_size (hd : d.state = .chunkSize) (hb : decodeHex b = none)
    (hc : d.hexCount ≠ 0) :
    stepByte d b = stepByte { d with hexCount := 0, state := .chunkExt } b := by
  unfold stepByte
  simp only [hd, hb]
  rw [if_neg hc]

theorem extByte_ne_fail (e : StatusCode) : extByte d b ≠ .fail e := by
  unfold extByte
  split
  · split
    · split <;> nofun
    · nofun
  · nofun

theorem scanFrom_congr (h : stepByte d b = stepByte d₁ b) (hf : ∀ e, stepByte d₁ b ≠ .fail e)
    (rest : Bytes) : scanFrom d (b :: rest) = scanFrom d₁ (b :: rest) := by
  cases hs : stepByte d₁ b with
  | next d₂ out => rw [scanFrom_cons_next (h.trans hs), scanFrom_cons_next hs]
  | stop d₂ => rw [scanFrom_cons_stop (h.trans hs), scanFrom_cons_stop hs]
  | fail e => exact absurd hs (hf e)

theorem afterData_afterData (m n : Nat) :
    (d.afterData m).afterData n = d.afterData (m + n) := by
  unfold ChunkedDecoder.afterData
  have hle : (d.bytesLeftInChunk - m ≤ n) = (d.bytesLeftInChunk ≤ m + n) := by
    rw [Nat.sub_le_iff_le_add']
  simp only [hle, Nat.sub_sub]

/-- Chunk data goes to the output as it is. -/
theorem scanFrom_data (hd : d.state = .chunkData) (hle : rest.length ≤ d.bytesLeftInChunk)
    (hne : rest ≠ []) :
    scanFrom d rest = ⟨d.afterData rest.length, rest, rest.length, .running⟩ := by
  induction rest generalizing d with
  | nil => exact absurd rfl hne
  | cons b rest ih =>
    have hstep : stepByte d b = .next (d.afterData 1) [b] := by simp only [stepByte, hd]
    rw [scanFrom_cons_next hstep]
    rw [List.length_cons] at hle
    cases rest with
    | nil => rfl
    | cons b' rest =>
      rw [List.length_cons] at hle
      have hleft : ¬ d.bytesLeftInChunk ≤ 1 := by omega
      have hd₁ : (d.afterData 1).state = .chunkData := by
        simp only [ChunkedDecoder.afterData, if_neg hleft]
      have hle₁ : (b' :: rest).length ≤ (d.afterData 1).bytesLeftInChunk := by
        simp only [ChunkedDecoder.afterData, List.length_cons]
        omega
      rw [ih hd₁ hle₁ (List.cons_ne_nil b' rest), Scan.andThen, afterData_afterData]
      simp only [List.length_cons, List.singleton_append, Nat.add_comm 1]

/-! ## The cases of the switch -/

/-- What `decode_chunked` returns when a scan of `src` and more bytes ends as `s`. -/
def resultOf (src : Nat) (s : DecoderScan) : StatusOr DecodeResult :=
  match s.mode with
  | .running => .ok ⟨false, src + s.consumed⟩
  | .stopped => .ok ⟨true, src + s.consumed⟩
  | .failed e => .error e

theorem resultOf_append {src : Nat} {read : Bytes} (hrun : (scanFrom d read).mode = .running)
    (more : Bytes) :
    resultOf src (scanFrom d (read ++ more)) =
      resultOf (src + read.length) (scanFrom (scanFrom d read).state more) := by
  have hconsumed : (scanFrom d read).consumed = read.length := by
    have hc := consumed_of_running (start_mode d) hrun
    rwa [start_consumed, Nat.zero_add] at hc
  rw [scanFrom_append hrun]
  simp only [resultOf, Scan.andThen, hconsumed, Nat.add_assoc]

/-- A `case` of the switch reads `rest` as the transducer does: to its end when it returns,
    else some bytes of it. -/
inductive Flows (d : ChunkedDecoder) (src : Nat) (output : List Bytes) (rest : Bytes) :
    Flow → Prop where
  | ret (output' : List Bytes)
      (hout : output'.flatten = output.flatten ++ (scanFrom d rest).emitted) :
      Flows d src output rest
        (.ret (resultOf src (scanFrom d rest)) (scanFrom d rest).state output')
  | brk (read more : Bytes) (output' : List Bytes) (hrest : rest = read ++ more)
      (hne : read ≠ []) (hrun : (scanFrom d read).mode = .running)
      (hout : output'.flatten = output.flatten ++ (scanFrom d read).emitted) :
      Flows d src output rest
        (.brk (scanFrom d read).state (src + read.length) output' more)

namespace Flows

variable {src : Nat} {output output₁ : List Bytes} {flow : Flow}

theorem nil : Flows d src output [] (.ret (.ok ⟨false, src⟩) d output) := by
  exact @Flows.ret d src output [] output (by simp)

theorem stop (h : stepByte d b = .stop d₁) :
    Flows d src output (b :: rest) (.ret (.ok ⟨true, src + 1⟩) d₁ output) := by
  have hscan := scanFrom_cons_stop h rest
  have hret := @Flows.ret d src output (b :: rest) output (by rw [hscan, List.append_nil])
  rw [hscan] at hret
  exact hret

theorem fail {e : StatusCode} (h : stepByte d b = .fail e) :
    Flows d src output (b :: rest) (.ret (.error e) d output) := by
  have hscan := scanFrom_cons_fail h rest
  have hret := @Flows.ret d src output (b :: rest) output (by rw [hscan, List.append_nil])
  rw [hscan] at hret
  exact hret

/-- What is read before a `case` falls through to the next is read by both. -/
theorem prepend {read more : Bytes} (hrun : (scanFrom d read).mode = .running)
    (hd : (scanFrom d read).state = d₁)
    (hout : output₁.flatten = output.flatten ++ (scanFrom d read).emitted)
    (h : Flows d₁ (src + read.length) output₁ more flow) :
    Flows d src output (read ++ more) flow := by
  subst hd
  cases h with
  | ret output' hout' =>
    have happ := scanFrom_append hrun more
    have hret := @Flows.ret d src output (read ++ more) output'
      (by rw [hout', hout, happ, List.append_assoc]; rfl)
    rw [resultOf_append hrun, happ] at hret
    exact hret
  | brk read' more' output' hrest hne hrun' hout' =>
    have happ := scanFrom_append hrun read'
    have hbrk := @Flows.brk d src output (read ++ more) (read ++ read') more' output'
      (by rw [hrest, List.append_assoc]) (by simp [hne])
      (by rw [happ]; exact hrun') (by rw [hout', hout, happ, List.append_assoc]; rfl)
    rw [happ, List.length_append, ← Nat.add_assoc] at hbrk
    exact hbrk

theorem next (h : stepByte d b = .next d₁ [])
    (hf : Flows d₁ (src + 1) output rest flow) : Flows d src output (b :: rest) flow := by
  have hscan := scanFrom_cons_next h []
  refine prepend (?_ : (scanFrom d [b]).mode = .running) ?_ ?_ hf
  · rw [hscan]
    rfl
  · rw [hscan]
    rfl
  · rw [hscan]
    simp [Scan.andThen]

/-- The first byte may be read from another state that makes the same of it. -/
theorem congr (h : stepByte d b = stepByte d₁ b) (hf : ∀ e, stepByte d₁ b ≠ .fail e)
    (hflow : Flows d₁ src output (b :: rest) flow) : Flows d src output (b :: rest) flow := by
  cases hflow with
  | ret output' hout =>
    rw [← scanFrom_congr h hf] at hout ⊢
    exact .ret output' hout
  | brk read more output' hrest hne hrun hout =>
    cases read with
    | nil => exact absurd rfl hne
    | cons b' read =>
      obtain rfl : b = b' := (List.cons.inj hrest).1
      rw [← scanFrom_congr h hf] at hrun hout ⊢
      exact .brk (b :: read) more output' hrest hne hrun hout

theorem leave (h : stepByte d b = .next d₁ []) :
    Flows d src output (b :: rest) (.brk d₁ (src + 1) output rest) := by
  have hscan := scanFrom_cons_next h []
  have hbrk := @Flows.brk d src output (b :: rest) [b] rest output rfl (List.cons_ne_nil b [])
    (by rw [hscan]; rfl) (by rw [hscan]; simp [Scan.andThen])
  rw [hscan] at hbrk
  exact hbrk

end Flows

section Cases

variable {src : Nat} {output : List Bytes}

theorem inTrailersLineMiddle_flows (hd : d.state = .trailersLineMiddle) :
    Flows d src output rest (inTrailersLineMiddle d src output rest) := by
  induction rest generalizing src with
  | nil => exact .nil
  | cons b rest ih =>
    unfold inTrailersLineMiddle
    by_cases hb : b = lf
    · rw [if_pos hb]
      exact .leave (by simp only [stepByte, hd, if_pos hb])
    · rw [if_neg hb]
      exact .next (by simp only [stepByte, hd, if_neg hb]) ih

theorem inTrailersLineHead_flows (hd : d.state = .trailersLineHead) :
    Flows d src output rest (inTrailersLineHead d src output rest) := by
  induction rest generalizing src with
  | nil => exact .nil
  | cons b rest ih =>
    unfold inTrailersLineHead
    by_cases hcr : b = cr
    · rw [if_pos hcr]
      exact .next (by simp only [stepByte, hd, if_pos hcr]) ih
    rw [if_neg hcr]
    by_cases hlf : b = lf
    · rw [if_pos hlf]
      exact .stop (by simp only [stepByte, hd, if_neg hcr, if_pos hlf])
    · rw [if_neg hlf]
      exact .next (by simp only [stepByte, hd, if_neg hcr, if_neg hlf])
        (inTrailersLineMiddle_flows rfl)

theorem inChunkCrlf_flows (hd : d.state = .chunkCrlf) :
    Flows d src output rest (inChunkCrlf d src output rest) := by
  induction rest generalizing src with
  | nil => exact .nil
  | cons b rest ih =>
    unfold inChunkCrlf
    by_cases hcr : b = cr
    · rw [if_pos hcr]
      exact .next (by simp only [stepByte, hd, if_pos hcr]) ih
    rw [if_neg hcr]
    by_cases hlf : b ≠ lf
    · rw [if_pos hlf]
      exact .fail (by simp only [stepByte, hd, if_neg hcr, if_pos hlf])
    · rw [if_neg hlf]
      exact .leave (by simp only [stepByte, hd, if_neg hcr, if_neg hlf])

/-- All of the buffer is chunk data, or the data ends in it. -/
theorem inChunkData_flows (hd : d.state = .chunkData) (hready : 0 < d.bytesLeftInChunk) :
    Flows d src output rest (inChunkData d src output rest) := by
  unfold inChunkData
  by_cases hlt : rest.length < d.bytesLeftInChunk
  · simp only [if_pos hlt]
    by_cases hnil : rest = []
    · subst hnil
      exact .nil
    · have hpos : rest.length > 0 := List.length_pos_iff.mpr hnil
      have hscan := scanFrom_data hd (Nat.le_of_lt hlt) hnil
      have hafter : d.afterData rest.length =
          { d with bytesLeftInChunk := d.bytesLeftInChunk - rest.length } := by
        simp only [ChunkedDecoder.afterData, if_neg (Nat.not_le.mpr hlt), hd]
      have hret := @Flows.ret d src output rest (output ++ [rest]) (by rw [hscan]; simp)
      rw [hscan, hafter] at hret
      rw [if_pos hpos]
      exact hret
  · simp only [if_neg hlt]
    have hlen : (rest.take d.bytesLeftInChunk).length = d.bytesLeftInChunk := by
      rw [List.length_take]
      omega
    have hne : rest.take d.bytesLeftInChunk ≠ [] := by
      rw [← List.length_pos_iff]
      omega
    have hscan := scanFrom_data hd (Nat.le_of_eq hlen) hne
    have hafter : d.afterData d.bytesLeftInChunk =
        { d with bytesLeftInChunk := 0, state := .chunkCrlf } := by
      simp only [ChunkedDecoder.afterData, if_pos (Nat.le_refl _), Nat.sub_self]
    have hcrlf := @inChunkCrlf_flows { d with bytesLeftInChunk := 0, state := .chunkCrlf }
      (rest.drop d.bytesLeftInChunk) (src + (rest.take d.bytesLeftInChunk).length)
      (output ++ [rest.take d.bytesLeftInChunk]) rfl
    have happ := @Flows.prepend d _ src output _ _ (rest.take d.bytesLeftInChunk) _
      (by rw [hscan]) (by rw [hscan, hlen, hafter]) (by rw [hscan]; simp) hcrlf
    rw [List.take_append_drop, hlen] at happ
    exact happ

theorem inChunkExt_flows (hd : d.state = .chunkExt) :
    Flows d src output rest (inChunkExt d src output rest) := by
  induction rest generalizing src with
  | nil => exact .nil
  | cons b rest ih =>
    unfold inChunkExt
    by_cases hlf : b = lf
    · rw [if_pos hlf]
      by_cases hzero : d.bytesLeftInChunk = 0
      · rw [if_pos hzero]
        by_cases htrailer : d.consumeTrailer = true
        · rw [if_pos htrailer]
          exact .leave (by simp only [stepByte, hd, extByte, if_pos hlf, if_pos hzero,
            if_pos htrailer])
        · rw [if_neg htrailer]
          exact .stop (by simp only [stepByte, hd, extByte, if_pos hlf, if_pos hzero,
            if_neg htrailer])
      · rw [if_neg hzero]
        exact .next (by simp only [stepByte, hd, extByte, if_pos hlf, if_neg hzero])
          (inChunkData_flows rfl (Nat.pos_of_ne_zero hzero))
    · rw [if_neg hlf]
      exact .next (by simp only [stepByte, hd, extByte, if_neg hlf]) ih

theorem inChunkSize_flows (hd : d.state = .chunkSize) :
    Flows d src output rest (inChunkSize d src output rest) := by
  induction rest generalizing d src with
  | nil => exact .nil
  | cons b rest ih =>
    unfold inChunkSize
    cases hhex : decodeHex b with
    | none =>
      by_cases hcount : d.hexCount = 0
      · simp only [if_pos hcount]
        exact .fail (by simp only [stepByte, hd, hhex, if_pos hcount])
      · simp only [if_neg hcount]
        -- the byte is not consumed here: the extension reads it as if it had begun with it
        refine (inChunkExt_flows rfl).congr (stepByte_end_of_size hd hhex hcount) ?_
        exact fun e => extByte_ne_fail e
    | some v =>
      by_cases hcount : d.hexCount = maxHexCount
      · simp only [if_pos hcount]
        exact .fail (by simp only [stepByte, hd, hhex, if_pos hcount])
      · simp only [if_neg hcount]
        exact .next (by simp only [stepByte, hd, hhex, if_neg hcount]) (ih hd)

theorem decodeSwitch_flows (hready : d.Ready) :
    Flows d src output rest (decodeSwitch d src output rest) := by
  unfold decodeSwitch
  cases hd : d.state with
  | chunkSize => exact inChunkSize_flows hd
  | chunkExt => exact inChunkExt_flows hd
  | chunkData => exact inChunkData_flows hd (hready hd)
  | chunkCrlf => exact inChunkCrlf_flows hd
  | trailersLineHead => exact inTrailersLineHead_flows hd
  | trailersLineMiddle => exact inTrailersLineMiddle_flows hd

end Cases

/-! ## The whole call -/

theorem extByte_ready (hd : d.state = .chunkExt) {out : Bytes}
    (h : extByte d b = .next d₁ out ∨ extByte d b = .stop d₁) : d₁.Ready := by
  unfold extByte at h
  intro hs
  grind

theorem stepByte_ready {out : Bytes}
    (h : stepByte d b = .next d₁ out ∨ stepByte d b = .stop d₁) : d₁.Ready := by
  cases hd : d.state with
  | chunkExt =>
    simp only [stepByte, hd] at h
    exact extByte_ready hd h
  | chunkSize =>
    simp only [stepByte, hd] at h
    intro hs
    grind [extByte]
  | chunkData | chunkCrlf | trailersLineHead | trailersLineMiddle =>
    simp only [stepByte, hd] at h
    intro hs
    grind [ChunkedDecoder.afterData]

theorem scanFrom_ready (hready : d.Ready) : (scanFrom d rest).state.Ready := by
  induction rest generalizing d with
  | nil => exact hready
  | cons b rest ih =>
    cases hs : stepByte d b with
    | next d₁ out =>
      rw [scanFrom_cons_next hs]
      exact ih (stepByte_ready (.inl hs))
    | stop d₁ =>
      rw [scanFrom_cons_stop hs]
      exact @stepByte_ready d d₁ b [] (.inr hs)
    | fail e =>
      rw [scanFrom_cons_fail hs]
      exact hready

theorem decodeLoop_eq {fuel src : Nat} {output : List Bytes} (hready : d.Ready)
    (hfuel : rest.length < fuel) :
    ∃ output', decodeLoop fuel d src output rest =
        some ⟨resultOf src (scanFrom d rest), (scanFrom d rest).state, output'⟩ ∧
      output'.flatten = output.flatten ++ (scanFrom d rest).emitted := by
  induction fuel generalizing d src output rest with
  | zero => exact absurd hfuel (Nat.not_lt_zero _)
  | succ fuel ih =>
    have hflow := @decodeSwitch_flows d rest src output hready
    unfold decodeLoop
    cases hf : decodeSwitch d src output rest with
    | ret result d' output' =>
      rw [hf] at hflow
      cases hflow with
      | ret _ hout => exact ⟨output', rfl, hout⟩
    | brk d' src' output' more =>
      rw [hf] at hflow
      cases hflow with
      | brk read _ _ hrest hne hrun hout =>
        subst hrest
        have hshort : more.length < fuel := by
          have := List.length_pos_iff.mpr hne
          rw [List.length_append] at hfuel
          omega
        obtain ⟨output'', heq, hout''⟩ :=
          @ih (scanFrom d read).state more (src + read.length) output' (scanFrom_ready hready)
            hshort
        refine ⟨output'', ?_, ?_⟩
        · rw [resultOf_append hrun, scanFrom_append hrun]
          exact heq
        · rw [hout'', hout, scanFrom_append hrun, List.append_assoc]
          rfl

/-- **A call of `decode_chunked` feeds the decoder with the bytes of the buffer.** What it
    adds to the output is what the transducer emits. -/
theorem decodeChunked_eq (hready : d.Ready) (input : Bytes) (output : List Bytes) :
    ∃ output', decodeChunked d input output =
        some ⟨resultOf 0 (scanFrom d input), (scanFrom d input).state, output'⟩ ∧
      output'.flatten = output.flatten ++ (scanFrom d input).emitted :=
  decodeLoop_eq hready (Nat.lt_succ_self _)

end Batt.Http
