/-
  `HttpClientConnection::read_next_response` (`http/http_client_connection_impl.hpp`) on the input
  buffer itself.

  The task that fills the buffer is the producer of a `StreamBuffer` and the reader its consumer: it
  fetches, parses the first of the buffers it is given, and asks for more where the parser calls the
  head incomplete. Every access to the buffer is a step, so a run is an arrival of the bytes in
  pieces of any size, at any time, with the head anywhere in the ring.

  What is asked for never exceeds what is there by more than one byte, and where it does, the parser
  has seen everything there is (`waits`). So the reader waits for no byte behind the head, and goes
  round at most once for each byte of the buffer.

  The parser (`pico_http::Response::parse`) is a parameter. A failed BATT_CHECK ends the program.
-/
import Batt.Http.KeepAlive
import Batt.StreamBuffer.Fetch

namespace Batt.Http.NextResponse

open Interleave StreamBuffer

/-! ## The reader -/

structure Reader where
  minToFetch : Nat
  returned : Option (StatusOr (Nat × Message))

/-- The loop of `read_next_response` from where `fetch_at_least` has returned. -/
def Reader.fetched (parse : Bytes → ParseResult) (mem : Nat → UInt8) (r : Reader) :
    Ret → Option Reader
  | .status code => some { r with returned := some (.error code) }
  | .buffers _ (front :: more) =>
    match parse (front.cells.map (Cell.read mem)) with
    | .incomplete =>
      some { r with minToFetch := max (r.minToFetch + 1) (cells (front :: more)).length }
    | .failed => some { r with returned := some (.error .kInternal) }
    | .ok length message =>
      if 0 < length then some { r with returned := some (.ok (length, message)) } else none
  | _ => none

/-- `fill_input_buffer`, with what it calls on the buffer, and `read_next_response`. -/
inductive Party where
  | filler (l : Local)
  | reader (r : Reader) (l : Local)

def Party.local : Party → Local
  | .filler l => l
  | .reader _ l => l

/-- What `read_next_response` has returned. -/
def Party.returned : Party → Option (StatusOr (Nat × Message))
  | .filler _ => none
  | .reader r _ => r.returned

section

variable (parse : Bytes → ParseResult)

def readerStep (a : Act) (sh : Shared) (r : Reader) (l : Local) : Option (Shared × Reader × Local) :=
  match a, l.pc with
  | .run, .idle =>
    (StreamBuffer.step (.call (.transfer (.fetchAtLeast r.minToFetch))) sh l).map fun s =>
      (s.1, r, s.2)
  | .run, .finish ret =>
    (r.fetched parse sh.mem ret).bind fun r' =>
      (StreamBuffer.step .run sh l).map fun s => (s.1, r', s.2)
  | .call _, _ => none
  | a, _ => (StreamBuffer.step a sh l).map fun s => (s.1, r, s.2)

def step (a : Act) (sh : Shared) : Party → Option (Shared × Party)
  | .filler l => (StreamBuffer.step a sh l).map fun s => (s.1, .filler s.2)
  | .reader r l =>
    if r.returned.isSome then none
    else (readerStep parse a sh r l).map fun s => (s.1, .reader s.2.1 s.2.2)

def machine : Machine Shared Party Act where
  step := step parse
  admits := fun a sh parties party =>
    match party with
    | .filler l => StreamBuffer.admits a sh (parties.map Party.local) l
    | .reader _ _ => true

end

/-- What the buffer sees of it. -/
def buffer (c : Conf Shared Party) : Conf Shared Local := ⟨c.shared, c.locals.map Party.local⟩

/-- The committed bytes that are not consumed. -/
def stream (sh : Shared) : Bytes := sh.committed.drop sh.consumePos.value.toNat

def result (c : Conf Shared Party) : Option (StatusOr (Nat × Message)) :=
  (c.locals[1]?).bind Party.returned

/-- The buffer is closed for write behind the last commit. -/
def commitsThenCloses (c : Conf Shared Party) (i : Nat) (a : Act) : Bool :=
  StreamBuffer.commitsThenCloses (buffer c) i a

/-- The reader is called on a buffer that has been in use, and the positions it can name are `i64`
    numbers. -/
structure Start (capacity : Nat) (c : Conf Shared Party) : Prop where
  used : ∃ mem b, construct capacity mem = some b ∧ StreamBuffer.machine.Reachable b (buffer c)
  called : ∃ f l, c.locals = [.filler f, .reader ⟨1, none⟩ l] ∧ l.pc = .idle
  room : c.shared.consumePos.value + capacity + 1 < 2 ^ 63

/-! ## The parser -/

/-- What the parser calls the complete head of a response. -/
def IsHeader (parse : Bytes → ParseResult) (r : Response) : Prop :=
  r.head ≠ [] ∧ parse r.head = .ok r.head.length r.message

def PrefixMonotone (parse : Bytes → ParseResult) : Prop :=
  ∀ r, IsHeader parse r → Parses parse r

/-! ## The bytes that are there -/

section

variable {sh sh' : Shared} {region : List Cell}

theorem length_stream (st : StreamBuffer.Stream sh) :
    ((stream sh).length : Int) = sh.commitPos.value - sh.consumePos.value := by
  have hcon := st.consume
  have hord := st.order
  have hlen := st.length
  rw [stream, List.length_drop]
  omega

/-- What the filler does to the reader's bytes. -/
structure Grows (sh sh' : Shared) : Prop where
  consume : sh'.consumePos.value = sh.consumePos.value
  consumed : sh'.consumed = sh.consumed
  capacity : sh'.capacity = sh.capacity
  stream : stream sh <+: stream sh'
  closed : sh.commitPos.closed = true →
    sh'.commitPos.closed = true ∧ NextResponse.stream sh' = NextResponse.stream sh

theorem grows_of_frame (st : StreamBuffer.Stream sh) (st' : StreamBuffer.Stream sh')
    (hf : Frame .producer sh sh') (hs : Stays sh sh') : Grows sh sh' := by
  obtain ⟨hcap, hcon, hcommit, more, hmore⟩ := hf
  have hlen := st.length
  have hord := st.order
  have hstream : stream sh <+: stream sh' := by
    refine ⟨more, ?_⟩
    rw [stream, stream, hcon, ← hmore, List.drop_append_of_le_length (by omega)]
  refine ⟨hcon, ?_, hcap, hstream, ?_⟩
  · rw [st'.out, st.out, hcon, ← hmore, List.take_append_of_le_length (by omega)]
  · intro hclosed
    obtain ⟨hclosed', hvalue⟩ := hs.closed hclosed
    refine ⟨hclosed', (hstream.eq_of_length ?_).symm⟩
    have h1 := length_stream st
    have h2 := length_stream st'
    omega

/-- The reader reads its bytes in the buffers it was given. -/
theorem read_front (st : StreamBuffer.Stream sh) (hreg : StreamBuffer.Fetched sh region)
    {front : Buffer} {more : List Buffer} (hcells : region = cells (front :: more)) :
    front.cells.length ≤ region.length ∧ region.length ≤ (stream sh).length ∧
      front.cells.map (Cell.read sh.mem) = (stream sh).take front.cells.length := by
  have hread := fetched_read st hreg
  have hlen := congrArg List.length hread
  have hsplit : region = front.cells ++ cells more := hcells.trans (cells_cons front more)
  have hle : front.cells.length ≤ region.length := by
    rw [hsplit, List.length_append]
    omega
  have hfront : front.cells = region.take front.cells.length := by
    rw [hsplit, List.take_left]
  rw [List.length_map, List.length_take] at hlen
  refine ⟨hle, by rw [stream]; omega, ?_⟩
  calc front.cells.map (Cell.read sh.mem)
      = (region.take front.cells.length).map (Cell.read sh.mem) := congrArg _ hfront
    _ = (region.map (Cell.read sh.mem)).take front.cells.length := List.map_take
    _ = ((stream sh).take region.length).take front.cells.length := by rw [hread, stream]
    _ = (stream sh).take front.cells.length := by rw [List.take_take, Nat.min_eq_left hle]

end

/-! ## The loop -/

/-- What the reader knows of the bytes when it asks for `n` of them. -/
structure Asks (parse : Bytes → ParseResult) (bytes : Bytes) (n : Nat) : Prop where
  least : 1 ≤ n
  most : n ≤ bytes.length + 1
  /-- Where one byte is missing, the others are known to be incomplete. -/
  waits : n = 1 ∨ n ≤ bytes.length ∨ parse (bytes.take (n - 1)) = .incomplete

/-- What it has returned with, and why. -/
def Returns (parse : Bytes → ParseResult) (sh : Shared) (n : Nat) :
    Option (StatusOr (Nat × Message)) → Prop
  | none => True
  | some (.ok (length, message)) =>
    ∃ k ≤ (stream sh).length, parse ((stream sh).take k) = .ok length message
  | some (.error _) =>
    sh.capacity < n ∨ (sh.commitPos.closed = true ∧ (stream sh).length < n) ∨
      ∃ k ≤ (stream sh).length, parse ((stream sh).take k) = .failed

structure Reading (parse : Bytes → ParseResult) (c₀ : Shared) (sh : Shared) (f l : Local)
    (r : Reader) : Prop where
  inv : Inv c₀.capacity sh [f, l]
  fetches : Fetches sh.capacity r.minToFetch l.pc
  ended : EndOk sh (some (r.minToFetch : Int)) l.pc
  consume : sh.consumePos.value = c₀.consumePos.value
  consumed : sh.consumed = c₀.consumed
  asks : Asks parse (stream sh) r.minToFetch
  returns : Returns parse sh r.minToFetch r.returned

section

variable {parse : Bytes → ParseResult} {c₀ sh sh' : Shared} {f f' l l' : Local} {r r' : Reader}
  {n : Nat} {bytes bytes' : Bytes} {a : Act}

theorem take_of_grows (h : bytes <+: bytes') {k : Nat} (hk : k ≤ bytes.length) :
    bytes'.take k = bytes.take k := by
  obtain ⟨more, rfl⟩ := h
  exact List.take_append_of_le_length hk

theorem Asks.grows (h : Asks parse bytes n) (hg : bytes <+: bytes') : Asks parse bytes' n := by
  have hle := hg.length_le
  refine ⟨h.least, h.most.trans (Nat.succ_le_succ hle), ?_⟩
  rcases h.waits with h1 | h1 | h1
  · exact .inl h1
  · exact .inr (.inl (h1.trans hle))
  · have hmost := h.most
    exact .inr (.inr (by rw [take_of_grows hg (by omega)]; exact h1))

theorem Returns.grows {returned : Option (StatusOr (Nat × Message))}
    (h : Returns parse sh n returned) (hg : Grows sh sh') : Returns parse sh' n returned := by
  have hmore : ∀ {out : ParseResult}, (∃ k ≤ (stream sh).length, parse ((stream sh).take k) = out) →
      ∃ k ≤ (stream sh').length, parse ((stream sh').take k) = out := by
    rintro out ⟨k, hk, hparse⟩
    exact ⟨k, hk.trans hg.stream.length_le, by rw [take_of_grows hg.stream hk]; exact hparse⟩
  unfold Returns at *
  split at h
  · trivial
  · exact hmore h
  · rcases h with h | ⟨hclosed, hlt⟩ | h
    · exact .inl (hg.capacity ▸ h)
    · obtain ⟨hclosed', heq⟩ := hg.closed hclosed
      exact .inr (.inl ⟨hclosed', heq ▸ hlt⟩)
    · exact .inr (.inr (hmore h))

/-- After an incomplete parse of the first buffer. -/
theorem Asks.next (h : Asks parse bytes n) {front total : Nat} (hn : n ≤ front)
    (hfront : front ≤ total) (htotal : total ≤ bytes.length)
    (hparse : parse (bytes.take front) = .incomplete) : Asks parse bytes (max (n + 1) total) := by
  have hleast := h.least
  by_cases hmore : n + 1 ≤ total
  · rw [Nat.max_eq_right hmore]
    exact ⟨by omega, by omega, .inr (.inl htotal)⟩
  · -- the first buffer was all there was
    obtain rfl : front = n := by omega
    rw [Nat.max_eq_left (by omega)]
    exact ⟨by omega, by omega, .inr (.inr hparse)⟩

/-- The reader is woken by a position that is not enough. -/
def vain (a : Act) (l : Local) : Bool :=
  match a, l.pc with
  | .woken v, .awaitNotEqual _ target => v < target
  | _, _ => false

/-- What the reader has still to do. -/
def rank (capacity : Nat) (r : Reader) (l : Local) : Nat :=
  if r.returned.isSome then 0 else 10 * (capacity + 2 - r.minToFetch) + l.pc.steps

theorem buffer_filler (hadm : StreamBuffer.admits a sh [f, l] f = true)
    (h : StreamBuffer.step a sh f = some (sh', f')) :
    StreamBuffer.machine.fire 0 a ⟨sh, [f, l]⟩ = some ⟨sh', [f', l]⟩ := by
  simp [Machine.fire, StreamBuffer.machine, hadm, h]

theorem buffer_reader (hadm : StreamBuffer.admits a sh [f, l] l = true)
    (h : StreamBuffer.step a sh l = some (sh', l')) :
    StreamBuffer.machine.fire 1 a ⟨sh, [f, l]⟩ = some ⟨sh', [f, l']⟩ := by
  simp [Machine.fire, StreamBuffer.machine, hadm, h]

theorem Reading.sides (h : Reading parse c₀ sh f l r) : f.side = .producer ∧ l.side = .consumer := by
  have hsides := h.inv.sides
  simp only [List.map_cons, List.map_nil, List.cons.injEq, and_true] at hsides
  exact hsides

/-- A step of the task that fills the buffer. -/
theorem reading_filler (h : Reading parse c₀ sh f l r)
    (hadm : StreamBuffer.admits a sh [f, l] f = true)
    (hcommit : ∀ count buffer, f.pc = .commitAdd count buffer → sh.commitPos.closed = false)
    (hs : StreamBuffer.step a sh f = some (sh', f')) : Reading parse c₀ sh' f' l r := by
  have hinv := inv_fire h.inv (buffer_filler hadm hs)
  have hok := h.inv.ok f List.mem_cons_self
  have hstays := step_stays h.sides.1 hok hadm hs hcommit
  have hstep := (step_ok h.inv.stream (h.inv.region f List.mem_cons_self) hok hadm hs).2
  have hframe := hstep.frame
  rw [h.sides.1] at hframe
  have hg := grows_of_frame h.inv.stream hstep.stream hframe hstays
  exact ⟨hinv, hg.capacity ▸ h.fetches, endOk_stays hstays h.ended, hg.consume.trans h.consume,
    hg.consumed.trans h.consumed, h.asks.grows hg.stream, h.returns.grows hg⟩

/-- An access of the call of `fetch_at_least`. -/
theorem reading_access (h : Reading parse c₀ sh f l r) (hact : ∀ op, a ≠ .call op)
    (hbusy : ∀ ret, l.pc ≠ .finish ret) (hs : StreamBuffer.step a sh l = some (sh', l')) :
    Reading parse c₀ sh' f l' r ∧ l'.pc.steps ≤ l.pc.steps ∧
      (vain a l = false → l'.pc.steps < l.pc.steps) := by
  have hadm : StreamBuffer.admits a sh [f, l] l = true := by
    cases a with
    | call op => exact absurd rfl (hact op)
    | run | woken v => rfl
  have hinv := inv_fire h.inv (buffer_reader hadm hs)
  have hok := h.inv.ok l (List.mem_cons_of_mem _ List.mem_cons_self)
  rw [h.sides.2] at hok
  have hend : EndOk sh' (some (r.minToFetch : Int)) l'.pc := by
    have hmove : EndOk sh' (lastFetch ([(1, .call (.transfer (.fetchAtLeast r.minToFetch)))] ++
        [(1, a)])) l'.pc := endOk_step h.sides.2 hok h.ended hadm hs
    rw [lastFetch_concat] at hmove
    cases a with
    | call op => exact absurd rfl (hact op)
    | run | woken v => exact hmove
  have hmoves : sh' = sh ∧ Fetches sh.capacity r.minToFetch l'.pc ∧ l'.pc.steps ≤ l.pc.steps ∧
      (vain a l = false → l'.pc.steps < l.pc.steps) := by
    cases a with
    | call op => exact absurd rfl (hact op)
    | run =>
      simp only [StreamBuffer.step] at hs
      obtain ⟨⟨s, pc', region'⟩, he, hr⟩ := Option.map_eq_some_iff.mp hs
      cases hr
      obtain ⟨hsame, hfetches, hlt⟩ := fetches_exec h.fetches he
      exact ⟨hsame, hfetches, hlt.le, fun _ => hlt⟩
    | woken v =>
      simp only [StreamBuffer.step] at hs
      split at hs
      · rename_i t target hpc
        obtain ⟨_, hs⟩ := Option.ite_none_right_eq_some.mp hs
        cases hs
        have hf := h.fetches
        rw [hpc] at hf
        unfold vain
        rw [hpc]
        dsimp only
        split
        · exact ⟨rfl, hf, by simp [Pc.steps], fun _ => by simp [Pc.steps]⟩
        · rename_i hlow
          refine ⟨rfl, hf, Nat.le_refl _, fun hnot => ?_⟩
          exact absurd (not_lt.mp (of_decide_eq_false hnot)) hlow
      · rename_i t hpc
        have hf := h.fetches
        rw [hpc] at hf
        exact hf.elim
      · cases hs
  obtain ⟨rfl, hfetches, hle, hlt⟩ := hmoves
  exact ⟨⟨hinv, hfetches, hend, h.consume, h.consumed, h.asks, h.returns⟩, hle, hlt⟩

theorem step_call (hidle : l.pc = .idle) (n : Nat) :
    StreamBuffer.step (.call (.transfer (.fetchAtLeast n))) sh l =
      some (sh, { l with pc := .minTarget (.fetchAtLeast n) }) := by
  simp [StreamBuffer.step, StreamBuffer.begin, access, hidle]

theorem step_finish {ret : Ret} (hpc : l.pc = .finish ret) :
    StreamBuffer.step .run sh l = some (sh, { l with pc := .idle }) := by
  simp [StreamBuffer.step, hpc]

theorem Reading.most (h : Reading parse c₀ sh f l r) : r.minToFetch ≤ c₀.capacity + 1 := by
  have hmost := h.asks.most
  have hlen := length_stream h.inv.stream
  have hlap := h.inv.stream.lap
  have hcap := h.inv.fixed
  omega

/-- The reader calls `fetch_at_least`. -/
theorem reading_call (h : Reading parse c₀ sh f l r)
    (hroom : c₀.consumePos.value + c₀.capacity + 1 < 2 ^ 63) (hidle : l.pc = .idle) :
    Reading parse c₀ sh f { l with pc := .minTarget (.fetchAtLeast r.minToFetch) } r := by
  have hmost := h.most
  have hpos := h.inv.stream.consume
  have hadm : StreamBuffer.admits (.call (.transfer (.fetchAtLeast r.minToFetch))) sh [f, l] l =
      true := by
    have hconsume := h.consume
    have hfits : inI64 (r.minToFetch : Int) = true := by
      simp only [inI64, Bool.and_eq_true, decide_eq_true_eq]
      omega
    simp [StreamBuffer.admits, h.sides.2, Transfer.side, Transfer.minCount, hfits]
  exact ⟨inv_fire h.inv (buffer_reader hadm (step_call hidle _)), rfl, rfl, h.consume, h.consumed,
    h.asks, h.returns⟩

/-- It has been given bytes, or an error. -/
theorem reading_fetched (h : Reading parse c₀ sh f l r) (hgoing : r.returned = none) {ret : Ret}
    (hpc : l.pc = .finish ret) (hret : r.fetched parse sh.mem ret = some r') :
    Reading parse c₀ sh f { l with pc := .idle } r' ∧
      rank c₀.capacity r' { l with pc := .idle } < rank c₀.capacity r l := by
  have hinv := inv_fire h.inv (buffer_reader (a := .run) rfl (step_finish hpc))
  have hok := h.inv.ok l (List.mem_cons_of_mem _ List.mem_cons_self)
  have hreg := h.inv.region l (List.mem_cons_of_mem _ List.mem_cons_self)
  have hfetches := h.fetches
  have hended := h.ended
  rw [h.sides.2, hpc] at hok
  rw [h.sides.2] at hreg
  rw [hpc] at hfetches hended
  have hrank : rank c₀.capacity r l = 10 * (c₀.capacity + 2 - r.minToFetch) + 2 := by
    rw [rank, hgoing, hpc]
    rfl
  have hends : ∀ returned : StatusOr (Nat × Message),
      Returns parse sh r.minToFetch (some returned) → r' = { r with returned := some returned } →
      Reading parse c₀ sh f { l with pc := .idle } r' ∧
        rank c₀.capacity r' { l with pc := .idle } < rank c₀.capacity r l := by
    rintro returned hreturns rfl
    refine ⟨⟨hinv, trivial, trivial, h.consume, h.consumed, h.asks, hreturns⟩, ?_⟩
    rw [hrank]
    exact Nat.succ_pos _
  cases ret with
  | status code =>
    cases hret
    refine hends _ ?_ rfl
    rcases hfetches with rfl | ⟨_, hlarge⟩
    · obtain ⟨m, hm, hclosed, _, _, hlt⟩ := hended
      cases hm
      have hlen := length_stream h.inv.stream
      exact .inr (.inl ⟨hclosed, by omega⟩)
    · exact .inl (by omega)
  | buffers t bs =>
    obtain rfl : t = .fetchAtLeast r.minToFetch := hfetches
    obtain ⟨hregion, front, more, rfl, hsize⟩ := hok
    obtain ⟨hfront, hle, hread⟩ := read_front h.inv.stream hreg hregion
    have hlength : front.size = front.cells.length := by
      cases front <;> simp [Buffer.size]
    rw [Reader.fetched, hread] at hret
    split at hret
    · rename_i hparse
      cases hret
      have hn : r.minToFetch ≤ front.cells.length := by
        rw [← hlength]
        exact Int.ofNat_le.mp hsize
      rw [← hregion]
      have hasks := h.asks.next hn hfront hle hparse
      refine ⟨⟨hinv, trivial, trivial, h.consume, h.consumed, hasks, ?_⟩, ?_⟩
      · rw [hgoing]
        trivial
      · have hmost := h.most
        have hmore := Nat.le_max_left (r.minToFetch + 1) l.region.length
        rw [hrank, rank, hgoing]
        show 10 * (c₀.capacity + 2 - max (r.minToFetch + 1) l.region.length) + 10 < _
        omega
    · rename_i hparse
      cases hret
      exact hends (.error .kInternal) (.inr (.inr ⟨_, hfront.trans hle, hparse⟩)) rfl
    · rename_i length message hparse
      obtain ⟨_, hret⟩ := Option.ite_none_right_eq_some.mp hret
      cases hret
      exact hends (.ok (length, message)) ⟨_, hfront.trans hle, hparse⟩ rfl
  | unit | brokenPipe | invalidArgument => cases hret

/-- A step of the reader. -/
theorem reading_reader (h : Reading parse c₀ sh f l r) (hgoing : r.returned = none)
    (hroom : c₀.consumePos.value + c₀.capacity + 1 < 2 ^ 63)
    (hs : readerStep parse a sh r l = some (sh', r', l')) :
    Reading parse c₀ sh' f l' r' ∧ rank c₀.capacity r' l' ≤ rank c₀.capacity r l ∧
      (vain a l = false → rank c₀.capacity r' l' < rank c₀.capacity r l) := by
  have haccess : ∀ {s₁ l₁}, StreamBuffer.step a sh l = some (s₁, l₁) → (∀ op, a ≠ .call op) →
      (∀ ret, l.pc ≠ .finish ret) → Reading parse c₀ s₁ f l₁ r ∧
        rank c₀.capacity r l₁ ≤ rank c₀.capacity r l ∧
        (vain a l = false → rank c₀.capacity r l₁ < rank c₀.capacity r l) := by
    intro s₁ l₁ hstep hact hbusy
    obtain ⟨hreading, hle, hlt⟩ := reading_access h hact hbusy hstep
    unfold rank
    rw [hgoing]
    exact ⟨hreading, Nat.add_le_add_left hle _, fun hnot => Nat.add_lt_add_left (hlt hnot) _⟩
  unfold readerStep at hs
  split at hs
  · rename_i hidle
    rw [step_call hidle] at hs
    cases hs
    have hlt : rank c₀.capacity r { l with pc := .minTarget (.fetchAtLeast r.minToFetch) } <
        rank c₀.capacity r l := by
      unfold rank
      rw [hgoing, hidle]
      exact Nat.lt_succ_self _
    exact ⟨reading_call h hroom hidle, hlt.le, fun _ => hlt⟩
  · rename_i ret hpc
    obtain ⟨r₁, hret, hs⟩ := Option.bind_eq_some_iff.mp hs
    rw [step_finish hpc] at hs
    cases hs
    obtain ⟨hreading, hlt⟩ := reading_fetched h hgoing hpc hret
    exact ⟨hreading, hlt.le, fun _ => hlt⟩
  · cases hs
  · rename_i a _ _ hcall _ hfinish
    obtain ⟨⟨s₁, l₁⟩, hstep, hs⟩ := Option.map_eq_some_iff.mp hs
    cases hs
    refine haccess hstep hcall fun ret hpc => ?_
    cases a with
    | run => exact hfinish ret rfl hpc
    | call op => exact hcall op rfl
    | woken v => simp [StreamBuffer.step, hpc] at hstep

/-- A reader that has not returned goes on, unless it waits for bytes of a stream that is open. -/
theorem exists_readerStep (h : Reading parse c₀ sh f l r)
    (hroom : c₀.consumePos.value + c₀.capacity + 1 < 2 ^ 63)
    (hpositive : ∀ k length message, parse ((stream sh).take k) = .ok length message → 0 < length)
    (hready : sh.commitPos.closed = true ∨ r.minToFetch ≤ (stream sh).length) :
    ∃ a s, vain a l = false ∧ readerStep parse a sh r l = some s := by
  have hok := h.inv.ok l (List.mem_cons_of_mem _ List.mem_cons_self)
  have hreg := h.inv.region l (List.mem_cons_of_mem _ List.mem_cons_self)
  rw [h.sides.2] at hok hreg
  have hcap := h.inv.fixed
  have hconsume := h.consume
  have hleast := h.asks.least
  have hexec : l.pc ≠ .idle → (∀ ret, l.pc ≠ .finish ret) →
      (∀ t target, l.pc = .awaitNotEqual t target → sh.commitPos.closed = true) →
      ∃ a s, vain a l = false ∧ readerStep parse a sh r l = some s := by
    intro hidle hbusy hwait
    obtain ⟨s, hs⟩ := exists_exec h.inv.stream (n := r.minToFetch) (by omega) (by omega) hok
      h.fetches hidle hbusy hwait
    refine ⟨.run, (s.1, r, { l with pc := s.2.1, region := s.2.2 }), rfl, ?_⟩
    unfold readerStep
    split
    · rename_i hpc
      exact absurd hpc hidle
    · rename_i ret _ hpc
      exact absurd hpc (hbusy ret)
    · rename_i hcall
      cases hcall
    · simp only [StreamBuffer.step]
      rw [hs]
      rfl
  cases hpc : l.pc with
  | idle =>
    refine ⟨.run, (sh, r, { l with pc := .minTarget (.fetchAtLeast r.minToFetch) }), rfl, ?_⟩
    unfold readerStep
    rw [hpc, step_call hpc]
    rfl
  | finish ret =>
    have hfetches := h.fetches
    rw [hpc] at hok hfetches
    have hret : ∃ r', r.fetched parse sh.mem ret = some r' := by
      cases ret with
      | status code => exact ⟨_, rfl⟩
      | buffers t bs =>
        obtain rfl : t = .fetchAtLeast r.minToFetch := hfetches
        obtain ⟨hregion, front, more, rfl, _⟩ := hok
        obtain ⟨_, _, hread⟩ := read_front h.inv.stream hreg hregion
        rw [Reader.fetched, hread]
        split
        · exact ⟨_, rfl⟩
        · exact ⟨_, rfl⟩
        · rename_i length message hparse
          exact ⟨_, if_pos (hpositive _ _ _ hparse)⟩
      | unit | brokenPipe | invalidArgument => exact hfetches.elim
    obtain ⟨r', hret⟩ := hret
    refine ⟨.run, (sh, r', { l with pc := .idle }), rfl, ?_⟩
    unfold readerStep
    rw [hpc]
    dsimp only
    rw [hret, Option.bind_some, step_finish hpc]
    rfl
  | awaitNotEqual t target =>
    have hfetches := h.fetches
    rw [hpc] at hok hfetches
    obtain rfl : t = .fetchAtLeast r.minToFetch := hfetches
    rcases hready with hclosed | henough
    · exact hexec (by simp [hpc]) (by simp [hpc]) fun _ _ _ => hclosed
    · -- the bytes are there, and the mutator that has brought them wakes the reader
      have htarget : target ≤ sh.commitPos.value := by
        obtain ⟨_, _, rfl⟩ := hok
        have hlen := length_stream h.inv.stream
        show sh.consumePos.value + (r.minToFetch : Int) ≤ _
        omega
      refine ⟨.woken sh.commitPos.value,
        (sh, r, { l with pc := .offset (.fetchAtLeast r.minToFetch) }), ?_, ?_⟩
      · unfold vain
        rw [hpc]
        exact decide_eq_false (not_lt.mpr htarget)
      · have hheld : sh.commitPos.value ∈ sh.commitPos.held := List.mem_cons_self
        simp [readerStep, StreamBuffer.step, hpc, Shared.movingPos, Transfer.side, hheld, htarget]
  | minTarget | awaitTrue | recheck | observe | asyncWait | offset | sizeCommit | sizeConsume
  | bufferCopy | commitAdd | consumeAdd =>
    exact hexec (by simp [hpc]) (by simp [hpc]) (by simp [hpc])

end

/-! ## Every run -/

/-- What a step does for the reader: nothing, where it is woken in vain. -/
def Party.advances (a : Act) : Party → List Unit
  | .filler _ => []
  | .reader _ l => if vain a l then [] else [()]

def advances (c : Conf Shared Party) (i : Nat) (a : Act) : List Unit :=
  ((c.locals[i]?).map (Party.advances a)).getD []

/-- The reader can take a step that is not in vain. -/
def GoesOn (parse : Bytes → ParseResult) (c : Conf Shared Party) : Prop :=
  ∃ a c', advances c 1 a = [()] ∧ (machine parse).fire 1 a c = some c'

/-- The bytes that have come in so far are all there is, or are malformed. -/
def EndsOrFails (parse : Bytes → ParseResult) (sh : Shared) : Prop :=
  sh.commitPos.closed = true ∨ (stream sh ≠ [] ∧ parse (stream sh) = .failed)

/-- What holds where a run of the reader, called in `c₀`, has led to. -/
structure ReadsHeader (parse : Bytes → ParseResult) (capacity : Nat) (sched : List (Nat × Act))
    (c₀ c : Conf Shared Party) : Prop where
  consume : c.shared.consumePos.value = c₀.shared.consumePos.value ∧
    c.shared.consumed = c₀.shared.consumed
  header : ∀ r, IsHeader parse r → r.head.length ≤ capacity → r.head <+: stream c.shared →
    (result c = none ∨ result c = some (.ok (r.head.length, r.message))) ∧
      (result c = none → GoesOn parse c)
  error : (∀ k length message, parse ((stream c.shared).take k) ≠ .ok length message) →
    (result c = none ∨ ∃ code, result c = some (.error code)) ∧
      (EndsOrFails parse c.shared → result c = none → GoesOn parse c)
  /-- So it returns, however many bytes come in at a time. -/
  bounded : ((machine parse).log advances sched c₀).length ≤ 10 * (capacity + 2)

section

variable {parse : Bytes → ParseResult} {capacity : Nat} {c₀ c c' : Conf Shared Party} {i : Nat}
  {a : Act}

/-- The invariant of the runs, with the number of steps that the reader has taken. -/
def Invariant (parse : Bytes → ParseResult) (c₀ : Shared) (past : List Unit)
    (c : Conf Shared Party) : Prop :=
  ∃ f l r, c.locals = [.filler f, .reader r l] ∧ Reading parse c₀ c.shared f l r ∧
    past.length + rank c₀.capacity r l ≤ 10 * (c₀.capacity + 2)

theorem invariant_start (parse : Bytes → ParseResult) (h : Start capacity c₀) :
    capacity = c₀.shared.capacity ∧ Invariant parse c₀.shared [] c₀ := by
  obtain ⟨mem, b, hb, hused⟩ := h.used
  obtain ⟨f, l, hlocals, hidle⟩ := h.called
  have hinv := inv_reachable hb hused
  have hcap : c₀.shared.capacity = capacity := hinv.fixed
  rw [buffer, hlocals] at hinv
  refine ⟨hcap.symm, f, l, _, hlocals, ?_, ?_⟩
  · refine ⟨hcap ▸ hinv, ?_, ?_, rfl, rfl, ⟨Nat.le_refl _, Nat.le_add_left _ _, .inl rfl⟩, trivial⟩
    · rw [hidle]; trivial
    · rw [hidle]; trivial
  · rw [rank, hidle]
    show 0 + (10 * (c₀.shared.capacity + 2 - 1) + 10) ≤ _
    omega

theorem invariant_step {past : List Unit} (hroom : c₀.shared.consumePos.value +
      c₀.shared.capacity + 1 < 2 ^ 63) (h : Invariant parse c₀.shared past c)
    (hp : commitsThenCloses c i a = true) (hf : (machine parse).fire i a c = some c') :
    Invariant parse c₀.shared (past ++ advances c i a) c' := by
  obtain ⟨f, l, r, hlocals, hreading, hrank⟩ := h
  obtain ⟨party, sh', party', hi, hadm, hs, rfl⟩ := (machine parse).fire_cases hf
  rw [hlocals] at hi
  match i with
  | 0 =>
    cases hi
    obtain ⟨⟨s₁, f'⟩, hstep, hs⟩ := Option.map_eq_some_iff.mp hs
    cases hs
    have hcommit : ∀ count buf, f.pc = .commitAdd count buf →
        c.shared.commitPos.closed = false := by
      intro count buf hpc
      have hlocal : ((buffer c).locals[0]?).map Local.pc = some f.pc := by
        rw [buffer, hlocals]
        rfl
      unfold commitsThenCloses StreamBuffer.commitsThenCloses at hp
      rw [Bool.and_eq_true, hlocal, hpc] at hp
      simpa [buffer] using hp.2
    refine ⟨f', l, r, by rw [hlocals]; rfl, ?_, ?_⟩
    · refine reading_filler hreading ?_ hcommit hstep
      have hadmits : StreamBuffer.admits a c.shared (c.locals.map Party.local) f = true := hadm
      rwa [hlocals] at hadmits
    · have hadvances : advances c 0 a = [] := by
        rw [advances, hlocals]
        rfl
      rw [hadvances, List.append_nil]
      exact hrank
  | 1 =>
    cases hi
    obtain ⟨hgoing, hs⟩ := Option.ite_none_left_eq_some.mp hs
    obtain ⟨⟨s₁, r', l'⟩, hstep, hs⟩ := Option.map_eq_some_iff.mp hs
    cases hs
    have hnone : r.returned = none := by simpa using hgoing
    obtain ⟨hnext, hle, hlt⟩ := reading_reader hreading hnone hroom hstep
    refine ⟨f, l', r', by rw [hlocals]; rfl, hnext, ?_⟩
    have hadvances : advances c 1 a = if vain a l then [] else [()] := by
      rw [advances, hlocals]
      rfl
    rw [hadvances, List.length_append]
    cases hvain : vain a l with
    | true =>
      rw [if_pos rfl, List.length_nil]
      omega
    | false =>
      have hlow := hlt hvain
      rw [if_neg Bool.false_ne_true, List.length_singleton]
      omega
  | i + 2 => cases hi

/-- What the parser says of the beginnings of a stream with a complete head. -/
theorem parse_take {response : Response} {bytes : Bytes} (h : Parses parse response)
    (hhead : response.head <+: bytes) (k : Nat) : parse (bytes.take k) =
      if k < response.head.length then .incomplete
      else .ok response.head.length response.message := by
  obtain ⟨more, rfl⟩ := hhead
  split
  · rename_i hlt
    rw [List.take_append_of_le_length hlt.le]
    refine h.partly _ (List.take_prefix _ _) fun heq => ?_
    have hlen := congrArg List.length heq
    rw [List.length_take] at hlen
    omega
  · rename_i hle
    rw [List.take_append, List.take_of_length_le (Nat.not_lt.mp hle)]
    exact h.whole _

/-- The reader of a stream with a complete head returns it. -/
theorem returns_header {sh : Shared} {f l : Local} {r : Reader} {response : Response}
    (h : Reading parse c₀.shared sh f l r) (hne : response.head ≠ [])
    (hfits : response.head.length ≤ c₀.shared.capacity) (hhead : response.head <+: stream sh)
    (htake : ∀ k, parse ((stream sh).take k) = if k < response.head.length then .incomplete
      else .ok response.head.length response.message) :
    r.returned = none ∨ r.returned = some (.ok (response.head.length, response.message)) := by
  have hreturns := h.returns
  have hpos := List.length_pos_iff.mpr hne
  have hlong := hhead.length_le
  have hasked : r.minToFetch ≤ response.head.length ∨ r.minToFetch ≤ (stream sh).length := by
    rcases h.asks.waits with h1 | h1 | h1
    · omega
    · exact .inr h1
    · rw [htake] at h1
      split at h1
      · omega
      · cases h1
  cases hret : r.returned with
  | none => exact .inl rfl
  | some ret =>
    rw [hret] at hreturns
    right
    cases ret with
    | ok out =>
      obtain ⟨length, message⟩ := out
      obtain ⟨k, _, hk⟩ := hreturns
      rw [htake] at hk
      split at hk <;> cases hk
      rfl
    | error code =>
      have hlen := length_stream h.inv.stream
      have hlap := h.inv.stream.lap
      have hcap := h.inv.fixed
      rcases hreturns with hlarge | ⟨_, hlt⟩ | ⟨k, _, hk⟩
      · omega
      · omega
      · rw [htake] at hk
        split at hk <;> cases hk

/-- The reader goes on where it is ready. -/
theorem goesOn_of_ready {f l : Local} {r : Reader} (hlocals : c.locals = [.filler f, .reader r l])
    (h : Reading parse c₀.shared c.shared f l r) (hroom : c₀.shared.consumePos.value +
      c₀.shared.capacity + 1 < 2 ^ 63) (hnone : r.returned = none)
    (hpositive : ∀ k length message,
      parse ((stream c.shared).take k) = .ok length message → 0 < length)
    (hready : c.shared.commitPos.closed = true ∨
      (stream c.shared ≠ [] ∧ parse (stream c.shared) ≠ .incomplete)) : GoesOn parse c := by
  have henough : c.shared.commitPos.closed = true ∨ r.minToFetch ≤ (stream c.shared).length := by
    refine hready.imp_right fun ⟨hne, hparse⟩ => ?_
    have hpos := List.length_pos_iff.mpr hne
    rcases h.asks.waits with h1 | h1 | h1
    · omega
    · exact h1
    · -- it would have parsed all there is
      have hmost := h.asks.most
      by_contra hlt
      rw [List.take_of_length_le (by omega)] at h1
      exact hparse h1
  obtain ⟨a, s, hvain, hs⟩ := exists_readerStep h hroom hpositive henough
  refine ⟨a, ⟨s.1, c.locals.set 1 (.reader s.2.1 s.2.2)⟩, ?_, ?_⟩
  · rw [advances, hlocals]
    exact if_neg (Bool.eq_false_iff.mp hvain)
  · have hstep : step parse a c.shared (.reader r l) = some (s.1, .reader s.2.1 s.2.2) := by
      rw [step, hnone, hs]
      rfl
    unfold Machine.fire
    rw [hlocals]
    show Option.map _ (step parse a c.shared (.reader r l)) = _
    rw [hstep]
    rfl

end

/-- **A response header is read whatever way its bytes arrive**: in every run of the reader, called
    on a buffer at any position, beside the task that fills the buffer. -/
theorem read_next_response_any_arrival {parse : Bytes → ParseResult} (hparse : PrefixMonotone parse)
    {capacity : Nat} {c₀ c : Conf Shared Party} (h₀ : Start capacity c₀)
    {sched : List (Nat × Act)}
    (hr : (machine parse).runWhere commitsThenCloses sched c₀ = some c) :
    ReadsHeader parse capacity sched c₀ c := by
  have hroom := h₀.room
  obtain ⟨rfl, hstart⟩ := invariant_start parse h₀
  obtain ⟨f, l, r, hlocals, hreading, hrank⟩ : Invariant parse c₀.shared
      ([] ++ (machine parse).log advances sched c₀) c :=
    (machine parse).logged_runWhere
      (fun _ _ _ _ _ hinv hp hf => invariant_step hroom hinv hp hf) hstart hr
  have hresult : result c = r.returned := by
    rw [result, hlocals]
    rfl
  have hreturns := hreading.returns
  refine ⟨⟨hreading.consume, hreading.consumed⟩, ?_, ?_, ?_⟩
  · intro response hheader hfits hhead
    have htake := parse_take (hparse response hheader) hhead
    rw [hresult]
    refine ⟨returns_header hreading hheader.1 hfits hhead htake, fun hnone => ?_⟩
    refine goesOn_of_ready hlocals hreading hroom hnone (fun k length message hk => ?_)
      (.inr ⟨?_, ?_⟩)
    · rw [htake] at hk
      split at hk <;> cases hk
      exact List.length_pos_iff.mpr hheader.1
    · exact fun hempty => hheader.1 (List.prefix_nil.mp (hempty ▸ hhead))
    · have hall := htake (stream c.shared).length
      rw [List.take_length, if_neg (Nat.not_lt.mpr hhead.length_le)] at hall
      rw [hall]
      nofun
  · intro hnever
    rw [hresult]
    refine ⟨?_, ?_⟩
    · cases hret : r.returned with
      | none => exact .inl rfl
      | some ret =>
        cases ret with
        | error code => exact .inr ⟨code, rfl⟩
        | ok out =>
          rw [hret] at hreturns
          obtain ⟨k, _, hk⟩ := hreturns
          exact absurd hk (hnever k _ _)
    · intro hends hnone
      refine goesOn_of_ready hlocals hreading hroom hnone
        (fun k length message hk => absurd hk (hnever k _ _)) (hends.imp_right ?_)
      rintro ⟨hne, hfails⟩
      exact ⟨hne, by rw [hfails]; nofun⟩
  · rw [List.nil_append] at hrank
    omega

/-! ## A head across the end of the ring -/

def emptyResponse : Response where
  head := ascii "HTTP/1.0 204\r\n\r\n"
  message := ⟨1, 0, 204, [], []⟩
  body := []

theorem prefixMonotone_parseAs (r : Response) : PrefixMonotone (parseAs r) := by
  rintro r' ⟨_, hhead⟩
  -- the parser knows one head only
  unfold parseAs at hhead
  split at hhead
  · rename_i hprefix
    obtain ⟨hlength, hmessage⟩ := ParseResult.ok.inj hhead
    have heq := (List.isPrefixOf_iff_prefix.mp hprefix).eq_of_length hlength
    have hparses := parses_parseAs r
    exact ⟨heq ▸ hparses.partly, fun more => by rw [← heq, ← hmessage]; exact hparses.whole more⟩
  · split at hhead <;> cases hhead

/-- Five bytes have gone through a buffer of sixteen. -/
def usedRun : List (Nat × Act) :=
  (0, Act.call (.transfer (.writeAll [0, 0, 0, 0, 0]))) :: List.replicate 8 (0, Act.run) ++
    (1, Act.call (.consume 5)) :: List.replicate 2 (1, Act.run)

/-- The head comes in pieces of ten bytes and of six. -/
def pieceRun : List (Nat × Act) :=
  (0, Act.call (.transfer (.writeAll (emptyResponse.head.take 10)))) ::
    List.replicate 8 (0, Act.run) ++
    List.replicate 17 (1, Act.run) ++
    (0, Act.call (.transfer (.writeAll (emptyResponse.head.drop 10)))) ::
    List.replicate 8 (0, Act.run) ++
    (1, Act.woken 21) :: List.replicate 11 (1, Act.run)

def reader (c : Conf Shared Local) : Option (Conf Shared Party) :=
  match c.locals with
  | [f, l] => some ⟨c.shared, [.filler f, .reader ⟨1, none⟩ l]⟩
  | _ => none

def session (parse : Bytes → ParseResult) : Option (Conf Shared Party × Conf Shared Party) :=
  (construct 16 fun _ => 0).bind fun b =>
    (StreamBuffer.machine.run usedRun b).bind fun c₁ =>
      (reader c₁).bind fun c₀ =>
        ((machine parse).runWhere commitsThenCloses pieceRun c₀).map fun c => (c₀, c)

theorem start_of_reader {capacity : Nat} {mem : Nat → UInt8} {b c₁ : Conf Shared Local}
    {c₀ : Conf Shared Party} (hb : construct capacity mem = some b)
    (hused : StreamBuffer.machine.Reachable b c₁) (hc : reader c₁ = some c₀)
    (hidle : ∀ pc ∈ (buffer c₀).locals.map Local.pc, pc = .idle)
    (hroom : c₀.shared.consumePos.value + capacity + 1 < 2 ^ 63) : Start capacity c₀ := by
  unfold reader at hc
  split at hc
  · rename_i f l hlocals
    cases hc
    refine ⟨⟨mem, b, hb, ?_⟩, ⟨f, l, rfl, hidle _ (List.mem_cons_of_mem _ List.mem_cons_self)⟩, hroom⟩
    have hsame : buffer ⟨c₁.shared, [.filler f, .reader ⟨1, none⟩ l]⟩ = c₁ := by
      show (⟨c₁.shared, [f, l]⟩ : Conf Shared Local) = c₁
      rw [← hlocals]
    rw [hsame]
    exact hused
  · cases hc

theorem run_of_session {parse : Bytes → ParseResult} {answer : Option (StatusOr (Nat × Message))}
    (hrun : ((session parse).map fun p => (p.1.shared.consumePos.value,
      (buffer p.1).locals.map Local.pc, result p.2)) = some (5, [.idle, .idle], answer)) :
    ∃ c₀ c, Start 16 c₀ ∧ c₀.shared.consumePos.value = 5 ∧
      (machine parse).runWhere commitsThenCloses pieceRun c₀ = some c ∧ result c = answer := by
  obtain ⟨⟨c₀, c⟩, hsession, hview⟩ := Option.map_eq_some_iff.mp hrun
  simp only [Prod.mk.injEq] at hview
  obtain ⟨hconsume, hpcs, hresult⟩ := hview
  obtain ⟨b, hb, hsession⟩ := Option.bind_eq_some_iff.mp hsession
  obtain ⟨c₁, hused, hsession⟩ := Option.bind_eq_some_iff.mp hsession
  obtain ⟨c₀', hreader, hsession⟩ := Option.bind_eq_some_iff.mp hsession
  obtain ⟨c', hpiece, hsession⟩ := Option.map_eq_some_iff.mp hsession
  obtain ⟨rfl, rfl⟩ := Prod.mk.inj hsession
  have hstart : Start 16 c₀' := by
    refine start_of_reader hb ⟨usedRun, hused⟩ hreader ?_ (by rw [hconsume]; decide)
    rw [hpcs]
    simp
  exact ⟨c₀', c', hstart, hconsume, hpiece, hresult⟩

theorem read_next_response_any_arrival_pieceRun :
    ∃ c₀ c, Start 16 c₀ ∧ c₀.shared.consumePos.value = 5 ∧
      (machine (parseAs emptyResponse)).runWhere commitsThenCloses pieceRun c₀ = some c ∧
      result c = some (.ok (16, emptyResponse.message)) ∧
      ReadsHeader (parseAs emptyResponse) 16 pieceRun c₀ c := by
  obtain ⟨c₀, c, hstart, hconsume, hpiece, hresult⟩ :=
    @run_of_session (parseAs emptyResponse) (some (.ok (16, emptyResponse.message)))
      (by decide +kernel)
  exact ⟨c₀, c, hstart, hconsume, hpiece, hresult,
    read_next_response_any_arrival (prefixMonotone_parseAs _) hstart hpiece⟩

end Batt.Http.NextResponse
