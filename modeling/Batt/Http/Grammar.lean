/-
  The chunked bodies of RFC 7230, 4.1, and what the decoder makes of them.

  `ChunkedBody trailer width body payload` says that `body` is a sequence of chunks with the
  data `payload`, closed by a last chunk of size zero and, when `trailer` is set, by the trailer
  part and its empty line; `width` is the number of digits of the longest chunk size in it.
  A body with sizes of at most 16 digits takes the decoder from its initial state to the end
  of the body and no further, with the payload emitted (`ChunkedBody.ends`).
-/
import Batt.Http.Automaton

namespace Batt.Http

open Transducer

/-! ## Bodies -/

def hexValue (digits : Bytes) : Nat :=
  digits.foldl (fun n b => n * 16 + (decodeHex b).getD 0) 0

/-- A chunk-size field: one digit or more. -/
structure SizeField (digits : Bytes) (size : Nat) : Prop where
  nonempty : digits ≠ []
  hex : ∀ b ∈ digits, (decodeHex b).isSome
  value : hexValue digits = size

instance (digits : Bytes) (size : Nat) : Decidable (SizeField digits size) :=
  decidable_of_iff
    (digits ≠ [] ∧ digits.all (fun b => (decodeHex b).isSome) = true ∧ hexValue digits = size)
    ⟨fun ⟨hne, hhex, hvalue⟩ => ⟨hne, List.all_eq_true.mp hhex, hvalue⟩,
      fun h => ⟨h.nonempty, List.all_eq_true.mpr h.hex, h.value⟩⟩

/-- A chunk extension is on the line of the size and does not continue it. -/
structure Extension (ext : Bytes) : Prop where
  oneLine : lf ∉ ext
  noDigit : ∀ b ∈ ext.head?, decodeHex b = none

instance (ext : Bytes) : Decidable (Extension ext) :=
  decidable_of_iff (lf ∉ ext ∧ ext.head?.all (fun b => (decodeHex b).isNone) = true)
    ⟨fun ⟨hline, hdigit⟩ => ⟨hline, fun b hb =>
        Option.isNone_iff_eq_none.mp ((Option.all_eq_true _ _).mp hdigit b hb)⟩,
      fun h => ⟨h.oneLine, (Option.all_eq_true _ _).mpr fun b hb =>
        Option.isNone_iff_eq_none.mpr (h.noDigit b hb)⟩⟩

/-- The trailer part with the empty line behind it. -/
inductive TrailerPart : Bytes → Prop where
  | empty : TrailerPart crlf
  | line {b : UInt8} {line more : Bytes} (hcr : b ≠ cr) (hlf : lf ∉ b :: line)
      (hmore : TrailerPart more) : TrailerPart (b :: line ++ crlf ++ more)

/-- What follows the line of the last chunk. -/
def Trailer : Bool → Bytes → Prop
  | true, bytes => TrailerPart bytes
  | false, bytes => bytes = []

inductive ChunkedBody (trailer : Bool) : Nat → Bytes → Bytes → Prop where
  | last {digits ext bytes : Bytes} (hsize : SizeField digits 0) (hext : Extension ext)
      (htrailer : Trailer trailer bytes) :
      ChunkedBody trailer digits.length (digits ++ (ext ++ crlf) ++ bytes) []
  | chunk {width : Nat} {digits ext data body payload : Bytes}
      (hsize : SizeField digits data.length) (hext : Extension ext) (hdata : data ≠ [])
      (hbody : ChunkedBody trailer width body payload) :
      ChunkedBody trailer (max digits.length width)
        (digits ++ (ext ++ crlf) ++ data ++ crlf ++ body) (data ++ payload)

/-! ## Stretches of a body -/

/-- The decoder goes from `d` to `d'` over `bytes` and emits `out`. -/
def Reads (d : ChunkedDecoder) (bytes out : Bytes) (d' : ChunkedDecoder) : Prop :=
  scanFrom d bytes = ⟨d', out, bytes.length, .running⟩

/-- The decoder is done right behind `bytes`. -/
def Ends (d : ChunkedDecoder) (bytes out : Bytes) (d' : ChunkedDecoder) : Prop :=
  scanFrom d bytes = ⟨d', out, bytes.length, .stopped⟩

variable {d d₁ d₂ : ChunkedDecoder} {b : UInt8} {xs ys out out₁ : Bytes}

theorem Reads.append (h : Reads d xs out d₁) (h₁ : Reads d₁ ys out₁ d₂) :
    Reads d (xs ++ ys) (out ++ out₁) d₂ := by
  unfold Reads at *
  rw [scanFrom_append (by rw [h]), h, h₁, Scan.andThen, List.length_append]

theorem Reads.ends (h : Reads d xs out d₁) (h₁ : Ends d₁ ys out₁ d₂) :
    Ends d (xs ++ ys) (out ++ out₁) d₂ := by
  unfold Reads Ends at *
  rw [scanFrom_append (by rw [h]), h, h₁, Scan.andThen, List.length_append]

theorem Reads.nil : Reads d [] [] d := rfl

theorem Reads.one (h : stepByte d b = .next d₁ []) : Reads d [b] [] d₁ :=
  scanFrom_cons_next h []

theorem Ends.one (h : stepByte d b = .stop d₁) : Ends d [b] [] d₁ :=
  scanFrom_cons_stop h []

theorem Reads.cons (h : stepByte d b = .next d₁ []) (h₁ : Reads d₁ xs [] d₂) :
    Reads d (b :: xs) [] d₂ :=
  (Reads.one h).append h₁

/-- A run of bytes that the decoder skips. -/
theorem Reads.skip (h : ∀ b ∈ xs, stepByte d b = .next d []) : Reads d xs [] d := by
  induction xs with
  | nil => exact .nil
  | cons b xs ih =>
    exact .cons (h b List.mem_cons_self) (ih fun c hc => h c (List.mem_cons_of_mem b hc))

/-! ## Chunk sizes -/

theorem decodeHex_lt {v : Nat} (h : decodeHex b = some v) : v < 16 := by
  unfold decodeHex at h
  grind

/-- Digits enter the number of bytes left while it cannot overflow. -/
theorem Reads.digits {digits : Bytes} (hd : d.state = .chunkSize)
    (hhex : ∀ b ∈ digits, (decodeHex b).isSome)
    (hcount : d.hexCount + digits.length ≤ maxHexCount)
    (hleft : d.bytesLeftInChunk < 16 ^ d.hexCount) :
    Reads d digits []
      { d with
        bytesLeftInChunk :=
          digits.foldl (fun n b => n * 16 + (decodeHex b).getD 0) d.bytesLeftInChunk
        hexCount := d.hexCount + digits.length } := by
  induction digits generalizing d with
  | nil => exact .nil
  | cons b digits ih =>
    obtain ⟨v, hv⟩ := Option.isSome_iff_exists.mp (hhex b List.mem_cons_self)
    rw [List.length_cons] at hcount
    have hv16 := decodeHex_lt hv
    have hlt : d.bytesLeftInChunk * 16 + v < 16 ^ (d.hexCount + 1) := by
      rw [Nat.pow_succ]
      omega
    have hsmall : d.bytesLeftInChunk * 16 + v < 2 ^ 64 := by
      have h16 : (16 : Nat) ^ (d.hexCount + 1) ≤ 16 ^ maxHexCount :=
        Nat.pow_le_pow_right (by decide) (by omega)
      exact Nat.lt_of_lt_of_le hlt h16
    have hstep : stepByte d b = .next
        { d with
          bytesLeftInChunk := d.bytesLeftInChunk * 16 + v
          hexCount := d.hexCount + 1 } [] := by
      simp only [stepByte, hd, hv]
      rw [if_neg (by omega), Nat.mod_eq_of_lt hsmall]
    have hrest := @ih { d with
      bytesLeftInChunk := d.bytesLeftInChunk * 16 + v
      hexCount := d.hexCount + 1 } hd (fun c hc => hhex c (List.mem_cons_of_mem b hc))
      (by simp only; omega) hlt
    have hall := Reads.cons hstep hrest
    simp only [List.foldl_cons, List.length_cons, hv, Option.getD_some,
      Nat.add_assoc, Nat.add_comm 1] at hall ⊢
    exact hall

/-- Up to the end of the line the decoder skips the extension, whether the size has just
    ended or not. -/
theorem reads_extension (hd : d.state = .chunkExt) (hxs : lf ∉ xs) : Reads d xs [] d := by
  refine .skip fun b hb => ?_
  have hne : b ≠ lf := fun h => hxs (h ▸ hb)
  simp only [stepByte, hd, extByte, if_neg hne]

theorem decodeHex_cr : decodeHex cr = none := by decide

theorem scanFrom_sizeLine {ext : Bytes} (hd : d.state = .chunkSize) (hcount : d.hexCount ≠ 0)
    (hext : Extension ext) :
    scanFrom d (ext ++ crlf) =
      scanFrom { d with hexCount := 0, state := .chunkExt } (ext ++ crlf) := by
  have hfirst : ∃ b xs, ext ++ crlf = b :: xs ∧ decodeHex b = none := by
    cases ext with
    | nil => exact ⟨cr, [lf], rfl, decodeHex_cr⟩
    | cons b xs => exact ⟨b, xs ++ crlf, rfl, hext.noDigit b rfl⟩
  obtain ⟨b, xs, heq, hhex⟩ := hfirst
  rw [heq]
  exact scanFrom_congr (stepByte_end_of_size hd hhex hcount) (fun e => extByte_ne_fail e) xs

theorem not_mem_lf_cr {ext : Bytes} (hext : Extension ext) : lf ∉ ext ++ [cr] := by
  rw [List.mem_append, List.mem_singleton]
  exact not_or.mpr ⟨hext.oneLine, by decide⟩

theorem append_crlf (ext : Bytes) : ext ++ crlf = ext ++ [cr] ++ [lf] := by
  rw [List.append_assoc]
  rfl

/-- A decoder at the start of a chunk. -/
def atChunk (trailer : Bool) : ChunkedDecoder := { consumeTrailer := trailer }

/-- A size field and the extension behind it, up to the end of their line. -/
theorem scanFrom_digits {trailer : Bool} {digits ext : Bytes} {size : Nat}
    (hsize : SizeField digits size) (hwidth : digits.length ≤ 16) (hext : Extension ext) :
    scanFrom (atChunk trailer) (digits ++ (ext ++ crlf)) =
      Scan.andThen
        ⟨{ atChunk trailer with bytesLeftInChunk := size, state := .chunkExt }, [],
          digits.length + (ext ++ [cr]).length, .running⟩
        (scanFrom { atChunk trailer with bytesLeftInChunk := size, state := .chunkExt } [lf]) := by
  have hdigits := @Reads.digits (atChunk trailer) digits rfl hsize.hex (by simpa [atChunk])
    Nat.zero_lt_one
  have hpos : (atChunk trailer).hexCount + digits.length ≠ 0 := by
    have := List.length_pos_iff.mpr hsize.nonempty
    omega
  have hline := scanFrom_sizeLine (d := { atChunk trailer with
    bytesLeftInChunk := size, hexCount := (atChunk trailer).hexCount + digits.length }) rfl hpos hext
  have hvalue : digits.foldl (fun n b => n * 16 + (decodeHex b).getD 0)
      (atChunk trailer).bytesLeftInChunk = size := hsize.value
  rw [hvalue] at hdigits
  rw [scanFrom_append (by rw [hdigits]), hdigits, hline, append_crlf]
  have hskip := @reads_extension { atChunk trailer with
    bytesLeftInChunk := size, hexCount := 0, state := .chunkExt } _ rfl (not_mem_lf_cr hext)
  rw [scanFrom_append (by rw [hskip]), hskip]
  simp only [Scan.andThen, List.nil_append, Nat.add_assoc]
  rfl

section Line

variable {trailer : Bool} {digits ext data : Bytes} {size : Nat}

theorem Reads.line (hsize : SizeField digits size) (hwidth : digits.length ≤ 16)
    (hext : Extension ext)
    (hlf : stepByte { atChunk trailer with bytesLeftInChunk := size, state := .chunkExt } lf =
      .next d []) :
    Reads (atChunk trailer) (digits ++ (ext ++ crlf)) [] d := by
  unfold Reads
  rw [scanFrom_digits hsize hwidth hext, Reads.one hlf, append_crlf]
  simp only [Scan.andThen, List.append_nil, List.length_append, Nat.add_assoc]

theorem Ends.line (hsize : SizeField digits size) (hwidth : digits.length ≤ 16)
    (hext : Extension ext)
    (hlf : stepByte { atChunk trailer with bytesLeftInChunk := size, state := .chunkExt } lf =
      .stop d) :
    Ends (atChunk trailer) (digits ++ (ext ++ crlf)) [] d := by
  unfold Ends
  rw [scanFrom_digits hsize hwidth hext, Ends.one hlf, append_crlf]
  simp only [Scan.andThen, List.append_nil, List.length_append, Nat.add_assoc]

/-- A chunk takes the decoder back to where it began. -/
theorem Reads.chunk (hsize : SizeField digits data.length) (hwidth : digits.length ≤ 16)
    (hext : Extension ext) (hdata : data ≠ []) :
    Reads (atChunk trailer) (digits ++ (ext ++ crlf) ++ data ++ crlf) data (atChunk trailer) := by
  have hpos := List.length_pos_iff.mpr hdata
  have hline : Reads (atChunk trailer) (digits ++ (ext ++ crlf)) []
      { atChunk trailer with bytesLeftInChunk := data.length, state := .chunkData } :=
    .line hsize hwidth hext
      (by simp only [stepByte, extByte, if_pos, if_neg (Nat.ne_of_gt hpos)])
  have hbytes : Reads { atChunk trailer with
      bytesLeftInChunk := data.length, state := .chunkData } data data
      { atChunk trailer with state := .chunkCrlf } := by
    have hscan := scanFrom_data (d := { atChunk trailer with
      bytesLeftInChunk := data.length, state := .chunkData }) rfl (Nat.le_refl _) hdata
    simp only [ChunkedDecoder.afterData, Nat.sub_self, if_pos (Nat.le_refl _)] at hscan
    exact hscan
  have hcrlf : Reads { atChunk trailer with state := .chunkCrlf } crlf [] (atChunk trailer) :=
    .cons rfl (.one rfl)
  have hall := (hline.append hbytes).append hcrlf
  rwa [List.nil_append, List.append_nil] at hall

end Line

/-! ## Trailers -/

theorem Ends.trailerPart {bytes : Bytes} (h : TrailerPart bytes) :
    Ends { atChunk true with state := .trailersLineHead } bytes []
      { atChunk true with state := .trailersLineHead } := by
  induction h with
  | empty => exact (Reads.one rfl).ends (Ends.one rfl)
  | @line b line more hcr hlf hmore ih =>
    have hb : b ≠ lf := fun h => hlf (h ▸ List.mem_cons_self)
    have hfirst : stepByte { atChunk true with state := .trailersLineHead } b =
        .next { atChunk true with state := .trailersLineMiddle } [] := by
      simp only [stepByte, if_neg hcr, if_neg hb]
    have hmiddle : ∀ c ∈ line ++ [cr],
        stepByte { atChunk true with state := .trailersLineMiddle } c =
          .next { atChunk true with state := .trailersLineMiddle } [] := by
      intro c hc
      have hne : c ≠ lf := by
        rintro rfl
        rcases List.mem_append.mp hc with hline | hlast
        · exact hlf (List.mem_cons_of_mem b hline)
        · exact absurd (List.mem_singleton.mp hlast) (by decide)
      simp only [stepByte, if_neg hne]
    have hline := (Reads.cons hfirst (.skip hmiddle)).append (Reads.one (b := lf) rfl)
    have hall := hline.ends ih
    rwa [List.append_nil, List.append_nil, ← List.cons_append, ← append_crlf] at hall

/-! ## Whole bodies -/

/-- **The decoder reads a body to its end**, emits the payload and stops. -/
theorem ChunkedBody.ends {trailer : Bool} {width : Nat} {body payload : Bytes}
    (h : ChunkedBody trailer width body payload) (hwidth : width ≤ 16) :
    ∃ d, Ends (atChunk trailer) body payload d := by
  induction h with
  | @last digits ext bytes hsize hext htrailer =>
    cases trailer with
    | false =>
      obtain rfl : bytes = [] := htrailer
      rw [List.append_nil]
      exact ⟨_, Ends.line hsize hwidth hext rfl⟩
    | true => exact ⟨_, (Reads.line hsize hwidth hext rfl).ends (Ends.trailerPart htrailer)⟩
  | chunk hsize hext hdata hbody ih =>
    obtain ⟨d, hd⟩ := ih (by omega)
    exact ⟨d, (Reads.chunk hsize (by omega) hext hdata).ends hd⟩

end Batt.Http
