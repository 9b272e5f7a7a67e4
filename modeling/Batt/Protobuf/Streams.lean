/-
  The zero-copy streams are exact.

  `StreamOk` is what holds of a stream object and the side of the `StreamBuffer` it is on: its
  position is that of the bytes it has passed on (`done`), the buffer it has handed out still holds
  `page`, and both together are what `ByteCount()` counts. The position lags behind `done` only
  while a `consume` or `commit` is under way (`pending`). `Stage` says where in the `StreamBuffer`
  the thread can be at each point of a call.
-/
import Batt.StreamBuffer.EndOfStream
import Batt.Protobuf.Model

namespace Batt.Protobuf

open Interleave CellRing StreamBuffer

/-! ## What holds of a stream object -/

/-- The bytes that a `consume` or `commit` under way has still to pass. -/
def pending : StreamBuffer.Pc → Int
  | .commitAdd count none => count
  | .consumeAdd count => count
  | _ => 0

/-- Where the thread can be in a `fetch_at_least` or `prepare_at_least`. -/
def Transfers (t : Transfer) : StreamBuffer.Pc → Prop
  | .minTarget t' | .awaitTrue t' _ | .awaitNotEqual t' _ | .recheck t' _ | .offset t'
  | .sizeCommit t' _ | .sizeConsume t' _ _ | .finish (.buffers t' _) => t' = t
  | .finish (.status _) => True
  | _ => False

/-- A call that is under way gets a `Skip` to its goal. -/
def Toward (z : ZeroCopy) : Purpose → Prop
  | .skip count => 0 < count ∧ z.byteCount + count = z.goal
  | _ => True

def Stage (io : Local) (z : ZeroCopy) : Prop :=
  match z.pc with
  | .returned ret => io.pc = .idle ∧
    match ret with
    | .next (some next) => z.page.length = next.size ∧ next.cells = io.region.take next.size
    | .skipped true => z.byteCount = z.goal
    | _ => True
  | .release purpose => io.pc = .idle ∧ Toward z purpose
  | .releasing purpose =>
    (pending io.pc ≠ 0 ∨ io.pc = .finish .unit) ∧ z.n = 0 ∧ Toward z purpose
  | .pull purpose => io.pc = .idle ∧ z.n = 0 ∧ Toward z purpose
  | .pulling purpose => Transfers (atLeastOne io.side) io.pc ∧ z.n = 0 ∧ Toward z purpose
  | .destroyed => io.pc = .idle ∧ z.n = 0

/-- The bytes passed on are those of the stream of the buffer from `start` on. -/
def Passed (sh : Shared) (io : Local) (z : ZeroCopy) : Prop :=
  match io.side with
  | .consumer => z.done <+: sh.committed.drop z.start.toNat
  | .producer => sh.committed.drop z.start.toNat ++
      (slots sh.capacity sh.commitPos.value.toNat (pending io.pc).toNat).map sh.mem = z.done

structure StreamOk (sh : Shared) (io : Local) (z : ZeroCopy) : Prop where
  start : 0 ≤ z.start
  reached : z.start ≤ (sh.fixedPos io.side).value
  pos : (sh.fixedPos io.side).value + pending io.pc = z.start + z.done.length
  size : z.n = z.page.length
  count : z.byteCount = z.done.length + z.page.length
  view : z.page = (io.region.take z.page.length).map (Cell.read sh.mem)
  passed : Passed sh io z
  stage : Stage io z

variable {sh sh' : Shared} {io io' : Local} {z z' : ZeroCopy} {purpose : Purpose} {side : Side}

theorem StreamOk.length_page (h : StreamOk sh io z) :
    z.page.length ≤ io.region.length := by
  have hlen := congrArg List.length h.view
  rw [List.length_map, List.length_take] at hlen
  omega

/-- A step of `l`, as far as its own thread goes. -/
structure Advance (sh sh' : Shared) (io : Local) (l' : Thread) : Prop where
  side : l'.io.side = io.side
  step : StepOk io.side sh sh' l'.io.pc l'.io.region
  committed : io.side = .consumer → sh'.committed = sh.committed
  ok : ∀ z, l'.stream = some z → StreamOk sh' l'.io z

/-! ## The other side's steps -/

/-- What a consumer does leaves the committed bytes alone. -/
theorem committed_step {a : StreamBuffer.Act} (hok : PcOk sh io.side io.region io.pc)
    (hside : io.side = .consumer) (h : StreamBuffer.step a sh io = some (sh', io')) :
    sh'.committed = sh.committed := by
  cases a with
  | call op =>
    simp only [StreamBuffer.step] at h
    split at h
    · obtain ⟨pc, _, hr⟩ := Option.map_eq_some_iff.mp h
      cases hr
      cases op with
      | write index byte =>
        simp only [access]
        split <;> rfl
      | _ => rfl
    · cases h
  | run =>
    simp only [StreamBuffer.step] at h
    split at h
    · cases h
      rfl
    · obtain ⟨⟨s, pc, region⟩, he, hr⟩ := Option.map_eq_some_iff.mp h
      cases hr
      rw [hside] at hok
      cases hpc : io.pc with
      | commitAdd count buffer =>
        rw [hpc] at hok
        cases hok.1
      | bufferCopy prepared buffer =>
        rw [hpc] at hok
        cases hok.1
      | consumeAdd count =>
        rw [hpc] at he
        simp only [StreamBuffer.exec] at he
        split at he <;> cases he
        rfl
      | _ =>
        rw [hpc] at he
        rw [exec_same he (by simp) (by simp) (by simp)]
  | woken v =>
    simp only [StreamBuffer.step] at h
    split at h
    · split at h <;> cases h
      rfl
    · split at h <;> cases h
      rfl
    · cases h

/-- The stream object of the other side is untouched. -/
theorem streamOk_frame (hf : Frame side sh sh')
    (hc : side = .consumer → sh'.committed = sh.committed) (hne : io.side ≠ side)
    (st : StreamBuffer.Stream sh) (st' : StreamBuffer.Stream sh')
    (hreg : RegionOk sh io.side io.region) (h : StreamOk sh io z) : StreamOk sh' io z := by
  have hreg' := region_frame hf hne st hreg
  have hlen := h.length_page
  have hpos := h.pos
  have hreached := h.reached
  have hfix : (sh'.fixedPos io.side).value = (sh.fixedPos io.side).value := by
    cases side <;> cases hs : io.side <;> first | exact absurd hs hne | exact hf.2.1
  refine ⟨h.start, by rw [hfix]; exact hreached, by rw [hfix]; exact hpos, h.size, h.count, ?_, ?_,
    h.stage⟩
  · -- a consumer's buffer reads as the committed bytes, before and after
    refine h.view.trans ?_
    cases side with
    | consumer => rw [hf.2.2.2]
    | producer =>
      have hs : io.side = .consumer := by
        cases hs : io.side with
        | producer => exact absurd hs hne
        | consumer => rfl
      rw [hs] at hreg hreg'
      obtain ⟨_, hconsume, hcommit, hpre⟩ := hf
      obtain ⟨t, ht⟩ := hpre
      have hfit := hreg.1
      have hclen := st.length
      have hcon := st.consume
      rw [List.map_take, List.map_take, fetched_read st hreg, fetched_read st' hreg', hconsume, ← ht,
        List.drop_append_of_le_length (by omega), List.take_append_of_le_length]
      rw [List.length_drop]
      omega
  · have hpassed := h.passed
    unfold Passed at hpassed ⊢
    cases side with
    | consumer =>
      have hs : io.side = .producer := by
        cases hs : io.side with
        | consumer => exact absurd hs hne
        | producer => rfl
      rw [hs] at hpassed ⊢
      simp only at hpassed ⊢
      rw [hc rfl, hf.1, hf.2.1, hf.2.2.2]
      exact hpassed
    | producer =>
      have hs : io.side = .consumer := by
        cases hs : io.side with
        | producer => exact absurd hs hne
        | consumer => rfl
      rw [hs] at hpassed ⊢
      obtain ⟨t, ht⟩ := hf.2.2.2
      refine hpassed.trans ?_
      rw [← ht, List.drop_append]
      exact List.prefix_append _ _

/-! ## Steps of the buffer -/

theorem pending_of_transfers {t : Transfer} {pc : StreamBuffer.Pc} (h : Transfers t pc) :
    pending pc = 0 := by
  unfold Transfers at h
  split at h <;> first | rfl | exact h.elim

/-- The calls that get a buffer change nothing until they return. -/
theorem transfers_exec {region region' : List Cell} {pc pc' : StreamBuffer.Pc}
    (h : Transfers (atLeastOne side) pc)
    (he : StreamBuffer.exec sh region pc = some (sh', pc', region')) :
    sh' = sh ∧ Transfers (atLeastOne side) pc' := by
  have hsame : sh' = sh := by
    refine exec_same he ?_ ?_ ?_ <;> rintro _ <;> intros <;> rintro rfl <;> exact h
  refine ⟨hsame, ?_⟩
  cases pc with
  | minTarget t =>
    obtain rfl : t = atLeastOne side := h
    simp only [StreamBuffer.exec] at he
    split at he
    · cases he
      cases side <;> trivial
    · split at he
      · cases side <;> cases he <;> rfl
      · cases he
  | offset t =>
    obtain rfl : t = atLeastOne side := h
    cases side <;> cases he <;> rfl
  | awaitTrue t target | sizeCommit t offset =>
    simp only [StreamBuffer.exec] at he
    repeat' split at he
    all_goals cases he; exact h
  | awaitNotEqual t target | recheck t target =>
    simp only [StreamBuffer.exec] at he
    repeat' split at he
    all_goals cases he <;> first | exact h | trivial
  | sizeConsume t offset commitPos =>
    obtain rfl : t = atLeastOne side := h
    simp only [StreamBuffer.exec] at he
    rw [ite_eq_iff] at he
    rcases he with ⟨_, he⟩ | ⟨_, he⟩
    · obtain ⟨bs, _, hbs⟩ := Option.bind_eq_some_iff.mp he
      obtain ⟨r, hd, hr⟩ := Option.map_eq_some_iff.mp hbs
      cases hr
      cases side with
      | producer =>
        cases hd
        rfl
      | consumer =>
        obtain ⟨bs', _, hr⟩ := Option.map_eq_some_iff.mp hd
        cases hr
        rfl
    · cases he
  | idle | finish ret => cases he
  | _ => exact h.elim

/-- A step in such a call: it returns, or goes on. -/
theorem transfers_run (h : Transfers (atLeastOne side) io.pc)
    (hs : StreamBuffer.step .run sh io = some (sh', io')) :
    sh' = sh ∧ io'.side = io.side ∧
      ((∃ ret, io.pc = .finish ret ∧ io' = { io with pc := .idle }) ∨
        (∀ ret, io.pc ≠ .finish ret) ∧ Transfers (atLeastOne side) io'.pc) := by
  simp only [StreamBuffer.step] at hs
  split at hs
  · rename_i ret hpc
    cases hs
    exact ⟨rfl, rfl, .inl ⟨ret, hpc, rfl⟩⟩
  · rename_i hpc
    obtain ⟨⟨s, pc, region⟩, he, hr⟩ := Option.map_eq_some_iff.mp hs
    cases hr
    obtain ⟨rfl, htr⟩ := transfers_exec h he
    exact ⟨rfl, rfl, .inr ⟨hpc, htr⟩⟩

/-- The first of the buffers returned is the beginning of what the side may touch. -/
theorem returned_front {t : Transfer} {next : Buffer} {rest : List Buffer} {region : List Cell}
    (h : Returned side t (next :: rest) region) :
    next.cells = region.take next.size := by
  have hpre : next.cells <+: region := by
    cases side with
    | producer => exact (List.prefix_append _ _).trans (cells_cons next rest ▸ h.2)
    | consumer =>
      obtain ⟨rfl, _⟩ := h
      exact cells_cons next rest ▸ List.prefix_append _ _
  have hlen : next.cells.length = next.size := by
    cases next <;> simp [Buffer.size]
  rw [← hlen]
  exact List.prefix_iff_eq_take.mp hpre

/-! ## Steps of a stream object -/

/-- The point of the program moves on. -/
theorem StreamOk.move (h : StreamOk sh io z) (pc : Pc) (goal : Int) (hside : io'.side = io.side)
    (hpend : pending io'.pc = pending io.pc) (hregion : io'.region = io.region ∨ z.page = [])
    (hstage : Stage io' { z with pc := pc, goal := goal }) :
    StreamOk sh io' { z with pc := pc, goal := goal } := by
  refine ⟨h.start, ?_, ?_, h.size, h.count, ?_, ?_, hstage⟩
  · rw [hside]
    exact h.reached
  · rw [hside, hpend]
    exact h.pos
  · rcases hregion with hregion | hpage
    · rw [hregion]
      exact h.view
    · simp only [hpage, List.length_nil, List.take_zero, List.map_nil]
  · have hpassed := h.passed
    unfold Passed at hpassed ⊢
    rw [hside, hpend]
    exact hpassed

/-- When `consume` or `commit` has returned, the call goes on. -/
theorem StreamOk.released (h : StreamOk sh io z) (hpend : pending io.pc = 0)
    (hside : io'.side = io.side) (hregion : io'.region = io.region) (hidle : io'.pc = .idle)
    (hn : z.n = 0) (htoward : Toward z purpose) : StreamOk sh io' (z.released purpose) := by
  have hpend' : pending io'.pc = pending io.pc := by
    rw [hidle, hpend]
    rfl
  cases purpose with
  | destroy => exact h.move _ z.goal hside hpend' (.inl hregion) ⟨hidle, hn⟩
  | next => exact h.move _ z.goal hside hpend' (.inl hregion) ⟨hidle, hn, trivial⟩
  | skip count => exact h.move _ z.goal hside hpend' (.inl hregion) ⟨hidle, hn, htoward⟩

/-- The bytes of a consumer's buffer go on where those passed on end. -/
theorem done_page (st : StreamBuffer.Stream sh) (hreg : Fetched sh io.region)
    (hside : io.side = .consumer) (hidle : pending io.pc = 0) (h : StreamOk sh io z) :
    z.done ++ z.page = (sh.committed.drop z.start.toNat).take (z.done.length + z.page.length) := by
  have hlen := h.length_page
  have hfit := hreg.1
  have hpos := h.pos
  have hstart := h.start
  have hpassed := h.passed
  rw [hidle, hside] at hpos
  simp only [Shared.fixedPos] at hpos
  unfold Passed at hpassed
  rw [hside] at hpassed
  have hpage : z.page = (sh.committed.drop sh.consumePos.value.toNat).take z.page.length := by
    have hview := h.view
    rw [List.map_take, fetched_read st hreg, List.take_take, Nat.min_eq_left hlen] at hview
    exact hview
  have hat : sh.consumePos.value.toNat = z.start.toNat + z.done.length := by omega
  rw [hat, ← List.drop_drop] at hpage
  rw [List.take_add, ← hpage, ← List.prefix_iff_eq_take.mp hpassed]

/-- The bytes of a producer's buffer are in the cells that a commit passes. -/
theorem page_slots (hreg : Prepared sh io.region) (h : StreamOk sh io z) :
    z.page = (slots sh.capacity sh.commitPos.value.toNat z.page.length).map sh.mem := by
  have hview := h.view
  rw [hreg.1, ← List.map_take, slots_take h.length_page, List.map_map] at hview
  exact hview

/-- The access that a `consume` or `commit` makes. -/
def adding : Side → Int → StreamBuffer.Pc
  | .consumer, n => .consumeAdd n
  | .producer, n => .commitAdd n none

@[simp] theorem pending_adding (side : Side) (n : Int) : pending (adding side n) = n := by
  cases side <;> rfl

theorem step_hand (hidle : io.pc = .idle) (side : Side) (n : Int) :
    StreamBuffer.step (.call (hand side n)) sh io = some (sh, { io with pc := adding side n }) := by
  cases side <;> exact if_pos hidle

/-- A buffer holds bytes that may be passed on. -/
theorem adding_ok (hreg : RegionOk sh io.side io.region) (h : StreamOk sh io z) :
    PcOk sh io.side io.region (adding io.side z.n) := by
  have hlen := h.length_page
  have hsize := h.size
  cases hside : io.side with
  | consumer =>
    rw [hside] at hreg
    have hfit := hreg.1
    exact ⟨rfl, by omega, by omega⟩
  | producer =>
    rw [hside] at hreg
    have hfit := hreg.2
    exact ⟨rfl, by omega, by omega, nofun⟩

/-- `consume_data()` and `commit_data()` pass on what the buffer holds. -/
theorem release_ok (st : StreamBuffer.Stream sh) (hreg : RegionOk sh io.side io.region)
    (h : StreamOk sh io z) (hpc : z.pc = .release purpose) (hn : z.n > 0) :
    Advance sh sh io ⟨{ io with pc := adding io.side z.n },
      some { z with pc := .releasing purpose, n := 0, done := z.done ++ z.page, page := [] }⟩ := by
  have hstage := h.stage
  simp only [Stage, hpc] at hstage
  obtain ⟨hidle, htoward⟩ := hstage
  refine ⟨rfl, stepOk_same st hreg (adding_ok hreg h), fun _ => rfl, ?_⟩
  intro _ hz
  cases hz
  refine ⟨h.start, h.reached, ?_, rfl, ?_, rfl, ?_, .inl ?_, rfl, htoward⟩
  · have hpos := h.pos
    have hsize := h.size
    rw [hidle] at hpos
    simp only [pending] at hpos
    simp only [pending_adding, List.length_append]
    omega
  · have hcount := h.count
    simp only [List.length_append, List.length_nil] at hcount ⊢
    omega
  · have hpassed := h.passed
    unfold Passed at hpassed ⊢
    simp only [pending_adding]
    cases hside : io.side with
    | consumer =>
      rw [hside] at hreg
      have hdone := done_page st hreg hside (by rw [hidle]; rfl) h
      simp only [hdone]
      exact List.take_prefix _ _
    | producer =>
      rw [hside] at hreg hpassed
      simp only [hidle, pending, Int.toNat_zero, slots_zero, List.map_nil,
        List.append_nil] at hpassed
      rw [hpassed, h.size, Int.toNat_natCast, ← page_slots hreg h]
  · rw [pending_adding]
    omega

/-- The access itself. -/
theorem adding_step {n : Int} (hpc : io.pc = adding io.side n) (h0 : 0 ≤ n) (hpage : z.page = [])
    (h : StreamOk sh io z) (st : StreamBuffer.Stream sh)
    (hstage : ∀ io', io'.pc = .finish .unit → Stage io' z)
    (hs : StreamBuffer.step .run sh io = some (sh', io')) :
    io'.pc = .finish .unit ∧ (io.side = .consumer → sh'.committed = sh.committed) ∧
      StreamOk sh' io' z := by
  have hpos := h.pos
  have hreached := h.reached
  have hstart := h.start
  have hpassed := h.passed
  rw [hpc, pending_adding] at hpos
  have hview : ∀ (sh : Shared) (io : Local),
      z.page = (io.region.take z.page.length).map (Cell.read sh.mem) := by
    intro sh io
    rw [hpage]
    rfl
  unfold Passed at hpassed
  cases hside : io.side with
  | consumer =>
    rw [hside] at hpc hpassed hpos hreached
    simp only [StreamBuffer.step, hpc, adding, StreamBuffer.exec] at hs
    split at hs <;> cases hs
    refine ⟨rfl, fun _ => rfl, h.start, ?_, ?_, h.size, h.count, hview _ _, ?_, hstage _ rfl⟩
    · simp only [hside, Shared.fixedPos, Watch.add] at hreached ⊢
      omega
    · simp only [hside, Shared.fixedPos, Watch.add, pending] at hpos ⊢
      omega
    · simp only [Passed, hside]
      exact hpassed
  | producer =>
    rw [hside] at hpc hpassed hpos hreached
    have hlen := st.length
    simp only [StreamBuffer.step, hpc, adding, StreamBuffer.exec] at hs
    split at hs <;> cases hs
    refine ⟨rfl, by simp, h.start, ?_, ?_, h.size, h.count, hview _ _, ?_, hstage _ rfl⟩
    · simp only [hside, Shared.fixedPos, Watch.add] at hreached ⊢
      omega
    · simp only [hside, Shared.fixedPos, Watch.add, pending] at hpos ⊢
      omega
    · simp only [hpc, adding, pending, Shared.fixedPos] at hpassed hreached
      simp only [Passed, hside, pending, Int.toNat_zero, slots_zero, List.map_nil, List.append_nil]
      rw [List.drop_append_of_le_length (by omega)]
      exact hpassed

/-- `BackUp` gives the end of a buffer back. -/
theorem backUp_ok {count : Int} (h : StreamOk sh io z) (hidle : io.pc = .idle) (h0 : 0 ≤ count)
    (hz : z.backUp count = some z') :
    StreamOk sh io { z' with pc := .returned .backedUp } := by
  have hsize := h.size
  have hcount := h.count
  unfold ZeroCopy.backUp at hz
  split at hz <;> cases hz
  rename_i hle
  have hlen : (z.page.take (z.n - count).toNat).length = (z.n - count).toNat := by
    rw [List.length_take]
    omega
  refine ⟨h.start, h.reached, h.pos, ?_, ?_, ?_, h.passed, hidle, trivial⟩
  · simp only [hlen]
    omega
  · simp only [hlen]
    omega
  · rw [hlen, h.view, ← List.map_take, List.take_take, Nat.min_eq_left]
    omega

/-- The loop of `Skip` goes on, or has come to its goal. -/
theorem skipLoop_ok {pc : Pc} {count : Int} (h : StreamOk sh io { z with pc := pc })
    (hidle : io.pc = .idle) (h0 : 0 ≤ count)
    (hgoal : z.byteCount + count = z.goal) : StreamOk sh io (z.skipLoop count) := by
  refine h.move _ z.goal rfl rfl (.inl rfl) ?_
  split
  · rename_i hpos
    exact ⟨hidle, hpos, hgoal⟩
  · exact ⟨hidle, by simp only; omega⟩

/-- A buffer has come: it is the page. -/
theorem handed_ok {next : Buffer} (h : StreamOk sh io z) (hpage : z.page = [])
    (hpend : pending io.pc = 0) (hfront : next.cells = io.region.take next.size) :
    StreamOk sh { io with pc := .idle } { z with
      n := next.size, byteCount := z.byteCount + next.size,
      page := next.cells.map (Cell.read sh.mem), pc := .returned (.next (some next)) } := by
  have hlen : (next.cells.map (Cell.read sh.mem)).length = next.size := by
    cases next <;> simp [Buffer.size]
  have hcount := h.count
  have hpos := h.pos
  have hpassed := h.passed
  rw [hpend] at hpos
  refine ⟨h.start, h.reached, hpos, ?_, ?_, ?_, ?_, rfl, hlen, hfront⟩
  · exact congrArg Nat.cast hlen.symm
  · rw [hpage, List.length_nil] at hcount
    simp only [hlen]
    omega
  · rw [hlen, hfront]
  · unfold Passed at hpassed ⊢
    rw [hpend] at hpassed
    exact hpassed

/-- What becomes of the buffer. -/
theorem take_ok {next : Buffer} (hidle : io.pc = .idle)
    (h : StreamOk sh io { z with pc := .returned (.next (some next)) })
    (hn : z.n = next.size)
    (hgoal : ∀ count, purpose = .skip count → 0 < count ∧ z.byteCount - next.size + count = z.goal)
    (hz : z.take next purpose = some z') : StreamOk sh io z' := by
  cases purpose with
  | next =>
    cases hz
    exact h
  | skip count =>
    obtain ⟨hpos, hgoal⟩ := hgoal count rfl
    simp only [ZeroCopy.take] at hz
    split at hz
    · cases hz
      exact h.move _ z.goal rfl rfl (.inl rfl) ⟨hidle, trivial⟩
    · split at hz
      · -- the buffer has more than `Skip` wants
        obtain ⟨z₁, hback, hr⟩ := Option.map_eq_some_iff.mp hz
        cases hr
        have h0 : 0 ≤ (next.size : Int) - count := by omega
        have hle : (next.size : Int) - count ≤ z.n := by omega
        have hback₁ := backUp_ok h hidle h0 (if_pos hle)
        cases (if_pos hle).symm.trans hback
        exact skipLoop_ok hback₁ hidle (Int.le_refl 0) (by simp only; omega)
      · cases hz
        exact skipLoop_ok h hidle (by omega) (by omega)
  | destroy => cases hz

/-- `fetch_next()` and `prepare_next()` return, and so does `Next`, or the loop of `Skip` goes on. -/
theorem pulled_ok {ret : StreamBuffer.Ret} (h : StreamOk sh io z) (hpc : z.pc = .pulling purpose)
    (hio : io.pc = .finish ret) (hok : PcOk sh io.side io.region io.pc)
    (hz : z.pulled sh.mem purpose ret = some z') :
    StreamOk sh { io with pc := .idle } z' := by
  have hstage := h.stage
  simp only [Stage, hpc] at hstage
  obtain ⟨_, hn, htoward⟩ := hstage
  have hsize := h.size
  have hpage : z.page = [] := List.eq_nil_of_length_eq_zero (by omega)
  have hpend : pending (StreamBuffer.Pc.idle) = pending io.pc := by
    rw [hio]
    rfl
  unfold ZeroCopy.pulled at hz
  split at hz
  · rename_i t next rest
    split at hz
    · -- a buffer: it becomes the page, all of it or as much as `Skip` needs
      rw [hio] at hok
      refine take_ok rfl (handed_ok h hpage (by rw [hio]; rfl) (returned_front hok)) rfl ?_ hz
      rintro count rfl
      exact ⟨htoward.1, by simp only [← htoward.2]; omega⟩
    · cases hz
  · cases hz
  · cases purpose with
    | next =>
      cases hz
      exact h.move _ _ rfl hpend (.inr hpage) ⟨rfl, trivial⟩
    | skip count =>
      cases hz
      exact h.move _ _ rfl hpend (.inr hpage) ⟨rfl, trivial⟩
    | destroy => cases hz

/-- A byte put into one cell of a stretch of at most a lap. -/
theorem map_update_slots {cap p n index : Nat} (mem : Nat → UInt8) (byte : UInt8) (hn : n ≤ cap)
    (hindex : index < n) :
    (slots cap p n).map (Function.update mem ((p + index) % cap) byte) =
      ((slots cap p n).map mem).set index byte := by
  refine List.ext_getElem? fun j => ?_
  by_cases hj : j < n
  · rw [List.getElem?_map, getElem?_slots hj, Option.map_some, List.getElem?_set, List.length_map,
      length_slots, List.getElem?_map, getElem?_slots hj, Option.map_some]
    by_cases hij : index = j
    · rw [if_pos hij, if_pos hindex, hij, Function.update_self]
    · have hne : (p + j) % cap ≠ (p + index) % cap := by
        rcases Nat.lt_or_gt_of_ne hij with hlt | hlt
        · exact (slot_ne (by omega) (by omega)).symm
        · exact slot_ne (by omega) (by omega)
      rw [if_neg hij, Function.update_of_ne hne]
  · rw [List.getElem?_eq_none (by simp; omega), List.getElem?_eq_none (by simp; omega)]

/-- The user of an output stream puts a byte into the buffer. -/
theorem put_ok {index : Nat} {byte : UInt8} {ret : Ret} (st : StreamBuffer.Stream sh)
    (hside : io.side = .producer) (hreg : Prepared sh io.region) (hidle : io.pc = .idle)
    (h : StreamOk sh io z) (hpc : z.pc = .returned ret) (hindex : (index : Int) < z.n) :
    StreamOk (access sh io.region (.write index byte)) io
      { z with page := z.page.set index byte } := by
  have hlen := h.length_page
  have hsize := h.size
  have hlap := st.lap
  have hord := st.order
  have hfit := hreg.2
  have hcell : io.region[index]? =
      some (.ring ((sh.commitPos.value.toNat + index) % sh.capacity)) := by
    rw [hreg.1, List.getElem?_map, getElem?_slots (by omega)]
    rfl
  simp only [access, hcell, Option.bind_some, Cell.address?]
  refine ⟨h.start, ?_, ?_, ?_, ?_, ?_, ?_, ?_⟩
  · exact hside ▸ h.reached
  · exact hside ▸ h.pos
  · simp only [List.length_set]
    exact h.size
  · simp only [List.length_set]
    exact h.count
  · rw [List.length_set, hreg.1, ← List.map_take, slots_take hlen, List.map_map]
    rw [page_slots hreg h, List.length_map, length_slots]
    exact (map_update_slots sh.mem byte (by omega) (by omega)).symm
  · have hpassed := h.passed
    unfold Passed at hpassed ⊢
    rw [hside, hidle] at hpassed ⊢
    simpa only [pending, Int.toNat_zero, slots_zero, List.map_nil] using hpassed
  · have hstage := h.stage
    simp only [Stage, hpc, List.length_set] at hstage ⊢
    exact hstage

end Batt.Protobuf
