/-
  `StreamBuffer` is a byte FIFO.

  `Stream` is what holds of the buffer itself: the positions are at most a lap apart, the ring
  holds the committed bytes that are not consumed, and what was consumed is a beginning of what
  was committed. `RegionOk` says which positions of the stream the bytes handed out to a side
  are: from the commit position on for the producer, from the consume position on for the
  consumer. A step of one side moves only its own position and only forward (`Frame`), so what
  the other side has been handed out or has seen of the positions stays good.
-/
import Batt.StreamBuffer.Buffers

namespace Batt.StreamBuffer

open Interleave CellRing

/-! ## What the buffer holds -/

structure Stream (sh : Shared) : Prop where
  capacity : sh.capacity < 2 ^ 63
  consume : 0 ≤ sh.consumePos.value
  order : sh.consumePos.value ≤ sh.commitPos.value
  lap : sh.commitPos.value ≤ sh.consumePos.value + sh.capacity
  consumePast : ∀ v ∈ sh.consumePos.past, v ≤ sh.consumePos.value
  commitPast : ∀ v ∈ sh.commitPos.past, v ≤ sh.commitPos.value
  length : sh.committed.length = sh.commitPos.value.toNat
  out : sh.consumed = sh.committed.take sh.consumePos.value.toNat
  holds : Holds sh.mem sh.capacity sh.committed sh.consumePos.value.toNat sh.commitPos.value.toNat

/-- The producer's cells are those of the next positions, and they are free. -/
def Prepared (sh : Shared) (region : List Cell) : Prop :=
  region = (slots sh.capacity sh.commitPos.value.toNat region.length).map .ring ∧
    sh.commitPos.value + region.length ≤ sh.consumePos.value + sh.capacity

/-- The consumer's cells are those of the next positions to consume, or copies of them. -/
def Fetched (sh : Shared) (region : List Cell) : Prop :=
  sh.consumePos.value + region.length ≤ sh.commitPos.value ∧
    ∀ (j : Nat) (c : Cell), region[j]? = some c →
      c = .ring ((sh.consumePos.value.toNat + j) % sh.capacity) ∨
        ∃ b, c = .tmp b ∧ sh.committed[sh.consumePos.value.toNat + j]? = some b

def RegionOk (sh : Shared) (side : Side) (region : List Cell) : Prop :=
  match side with
  | .producer => Prepared sh region
  | .consumer => Fetched sh region

variable {sh sh' : Shared} {region region' : List Cell} {i k capacity : Nat} {pc pc' : Pc}
  {t : Transfer} {ls : List Local} {side : Side} {count : Int} {mem : Nat → UInt8}

theorem prepared_drop (h : Prepared sh region) (hpos : 0 ≤ sh.commitPos.value)
    (hcap : sh'.capacity = sh.capacity) (hcommit : sh'.commitPos.value = sh.commitPos.value + k)
    (hconsume : sh.consumePos.value ≤ sh'.consumePos.value)
    (hk : sh.commitPos.value + k ≤ sh.consumePos.value + sh.capacity) :
    Prepared sh' (region.drop k) := by
  obtain ⟨heq, hfit⟩ := h
  have hlen : (region.drop k).length = region.length - k := List.length_drop
  refine ⟨?_, ?_⟩
  · rw [hlen, hcap, hcommit]
    have htoNat : (sh.commitPos.value + k).toNat = sh.commitPos.value.toNat + k := by omega
    rw [htoNat, ← slots_drop, List.map_drop, ← heq]
  · rw [hlen, hcap, hcommit]
    omega

theorem fetched_drop (h : Fetched sh region) (hpos : 0 ≤ sh.consumePos.value)
    (hcap : sh'.capacity = sh.capacity) (hconsume : sh'.consumePos.value = sh.consumePos.value + k)
    (hcommit : sh.commitPos.value ≤ sh'.commitPos.value)
    (hcommitted : sh.committed <+: sh'.committed)
    (hk : sh.consumePos.value + k ≤ sh.commitPos.value) : Fetched sh' (region.drop k) := by
  obtain ⟨hfit, hcells⟩ := h
  have hlen : (region.drop k).length = region.length - k := List.length_drop
  have htoNat : ∀ j, sh'.consumePos.value.toNat + j = sh.consumePos.value.toNat + (k + j) := by
    intro j
    omega
  refine ⟨by omega, ?_⟩
  intro j c hc
  rw [List.getElem?_drop] at hc
  rw [htoNat, hcap]
  rcases hcells (k + j) c hc with hring | ⟨b, hb, hget⟩
  · exact .inl hring
  · exact .inr ⟨b, hb, getElem?_of_prefix hcommitted hget⟩

/-- The consumer reads the committed bytes, wherever its buffers are. -/
theorem fetched_read (st : Stream sh) (h : Fetched sh region) :
    region.map (Cell.read sh.mem) =
      (sh.committed.drop sh.consumePos.value.toNat).take region.length := by
  obtain ⟨hfit, hcells⟩ := h
  have hpos := st.consume
  refine List.ext_getElem? fun j => ?_
  by_cases hj : j < region.length
  · obtain ⟨c, hc⟩ : ∃ c, region[j]? = some c := ⟨_, List.getElem?_eq_getElem hj⟩
    rw [List.getElem?_map, hc, List.getElem?_take_of_lt hj, List.getElem?_drop]
    rcases hcells j c hc with rfl | ⟨b, rfl, hget⟩
    · rw [st.holds _ (by omega) (by omega)]
      rfl
    · rw [hget]
      rfl
  · rw [List.getElem?_eq_none (by simpa using hj), List.getElem?_eq_none]
    rw [List.length_take]
    omega

/-- What `consume` passes over are the next committed bytes. -/
theorem passed_eq (st : Stream sh) (h : Fetched sh region)
    (hk : sh.consumePos.value + k ≤ sh.commitPos.value) :
    passed sh region k = (sh.committed.drop sh.consumePos.value.toNat).take k := by
  have hpos := st.consume
  obtain ⟨hfit, _⟩ := id h
  have hread := fetched_read st h
  have hrest : (slots sh.capacity (sh.consumePos.value.toNat + region.length)
      (k - region.length)).map sh.mem =
      (sh.committed.drop (sh.consumePos.value.toNat + region.length)).take (k - region.length) :=
    st.holds.read (by omega) (by omega)
  unfold passed
  rw [hread, hrest, ← List.drop_drop, ← List.take_add, List.take_take]
  congr 1
  omega

/-! ## What a step of one side leaves to the other -/

/-- What a step of `side` does to the positions. -/
def Frame (side : Side) (sh sh' : Shared) : Prop :=
  sh'.capacity = sh.capacity ∧
    match side with
    | .producer => sh'.consumePos.value = sh.consumePos.value ∧
        sh.commitPos.value ≤ sh'.commitPos.value ∧ sh.committed <+: sh'.committed
    | .consumer => sh'.commitPos.value = sh.commitPos.value ∧
        sh.consumePos.value ≤ sh'.consumePos.value ∧ sh'.mem = sh.mem

theorem Frame.refl (side : Side) (sh : Shared) : Frame side sh sh := by
  cases side
  · exact ⟨rfl, rfl, Int.le_refl _, List.prefix_refl _⟩
  · exact ⟨rfl, rfl, Int.le_refl _, rfl⟩

def TransferOk (side : Side) (t : Transfer) : Prop :=
  t.side = side ∧ inI64 t.minCount = true ∧ (side = .consumer → 0 ≤ t.minCount)

/-- The wait of `pre_transfer` is over. -/
def Enough (sh : Shared) (t : Transfer) : Prop :=
  t.minCount ≤ sh.capacity ∧
    (sh.fixedPos t.side).value + t.minDelta sh.capacity ≤ (sh.movingPos t.side).value

/-- What a side returns from `pre_transfer` with. -/
def Returned (side : Side) (t : Transfer) (bs : List Buffer) (region : List Cell) : Prop :=
  match side with
  | .producer => t.minCount ≤ (cells bs).length ∧ cells bs <+: region
  | .consumer => region = cells bs ∧ ∃ front rest, bs = front :: rest ∧ t.minCount ≤ front.size

def PcOk (sh : Shared) (side : Side) (region : List Cell) : Pc → Prop
  | .minTarget t | .asyncWait t => TransferOk side t
  | .awaitTrue t target | .awaitNotEqual t target | .recheck t target | .observe t target =>
    TransferOk side t ∧ t.minCount ≤ sh.capacity ∧
      target = (sh.fixedPos side).value + t.minDelta sh.capacity
  | .offset t => TransferOk side t ∧ Enough sh t
  | .sizeCommit t offset => TransferOk side t ∧ Enough sh t ∧ offset = (sh.fixedPos side).value
  | .sizeConsume t offset commitPos =>
    TransferOk side t ∧ Enough sh t ∧ offset = (sh.fixedPos side).value ∧
      commitPos ≤ sh.commitPos.value ∧
      (match side with
        | .producer => commitPos = sh.commitPos.value
        | .consumer => sh.consumePos.value + t.minCount ≤ commitPos)
  | .bufferCopy prepared _ => side = .producer ∧ Prepared sh (cells prepared)
  | .commitAdd count buffer => side = .producer ∧ 0 ≤ count ∧
      sh.commitPos.value + count ≤ sh.consumePos.value + sh.capacity ∧
      ∀ bytes, buffer = some bytes → bytes.take count.toNat =
        (slots sh.capacity sh.commitPos.value.toNat count.toNat).map sh.mem
  | .consumeAdd count =>
    side = .consumer ∧ 0 ≤ count ∧ sh.consumePos.value + count ≤ sh.commitPos.value
  | .finish (.buffers t bs) => Returned side t bs region
  | .idle | .finish _ => True

/-- The other side's region is untouched. -/
theorem region_frame {other : Side} (hf : Frame side sh sh') (hne : other ≠ side) (st : Stream sh)
    (h : RegionOk sh other region) : RegionOk sh' other region := by
  have hcon := st.consume
  have hord := st.order
  have hlap := st.lap
  obtain ⟨hcap, hf⟩ := hf
  cases side with
  | producer =>
    cases other with
    | producer => exact absurd rfl hne
    | consumer =>
      obtain ⟨h1, h2, h3⟩ := hf
      exact fetched_drop (k := 0) h hcon hcap (by omega) h2 h3 (by omega)
  | consumer =>
    cases other with
    | consumer => exact absurd rfl hne
    | producer =>
      obtain ⟨h1, h2, _⟩ := hf
      exact prepared_drop (k := 0) h (by omega) hcap (by omega) h2 (by omega)

/-- What the other side knows stays right: its own position has not moved, and the one it
    looks at only forward. -/
theorem pcOk_frame {other : Side} (hf : Frame side sh sh') (hne : other ≠ side) (st : Stream sh)
    (h : PcOk sh other region pc) : PcOk sh' other region pc := by
  have hfix : (sh'.fixedPos other).value = (sh.fixedPos other).value := by
    cases side <;> cases other <;> first | exact absurd rfl hne | exact hf.2.1
  have hmov : (sh.movingPos other).value ≤ (sh'.movingPos other).value := by
    cases side <;> cases other <;> first | exact absurd rfl hne | exact hf.2.2.1
  have hcap := hf.1
  have henough : ∀ t : Transfer, t.side = other → Enough sh t → Enough sh' t := by
    rintro t rfl ⟨hc, he⟩
    refine ⟨hcap ▸ hc, ?_⟩
    rw [hfix, hcap]
    omega
  unfold PcOk at *
  split at h
  · exact h
  · exact h
  · rw [hfix, hcap]; exact h
  · rw [hfix, hcap]; exact h
  · rw [hfix, hcap]; exact h
  · rw [hfix, hcap]; exact h
  · exact ⟨h.1, henough _ h.1.1 h.2⟩
  · rw [hfix]
    exact ⟨h.1, henough _ h.1.1 h.2.1, h.2.2⟩
  · rw [hfix]
    obtain ⟨h1, h2, h3, h4, h5⟩ := h
    refine ⟨h1, henough _ h1.1 h2, h3, ?_, ?_⟩
    · cases other with
      | producer =>
        have : sh'.commitPos.value = sh.commitPos.value := hfix
        omega
      | consumer =>
        have : sh.commitPos.value ≤ sh'.commitPos.value := hmov
        omega
    · cases other with
      | producer =>
        have : sh'.commitPos.value = sh.commitPos.value := hfix
        exact h5.trans this.symm
      | consumer =>
        have : sh'.consumePos.value = sh.consumePos.value := hfix
        rw [this]
        exact h5
  · obtain ⟨rfl, hp⟩ := h
    exact ⟨rfl, region_frame hf hne st hp⟩
  · obtain ⟨rfl, h0, hfit, hb⟩ := h
    cases side with
    | producer => exact absurd rfl hne
    | consumer =>
      obtain ⟨_, h1, h2, h3⟩ := hf
      refine ⟨rfl, h0, by omega, ?_⟩
      rw [hcap, h1, h3]
      exact hb
  · obtain ⟨rfl, h0, hfit⟩ := h
    cases side with
    | consumer => exact absurd rfl hne
    | producer =>
      obtain ⟨_, h1, h2, _⟩ := hf
      exact ⟨rfl, h0, by omega⟩
  · exact h
  · trivial
  · trivial

/-! ## What a step does -/

/-- The result of a step of `side`, as far as the invariant goes. -/
structure StepOk (side : Side) (sh sh' : Shared) (pc : Pc) (region : List Cell) : Prop where
  stream : Stream sh'
  handed : RegionOk sh' side region
  ok : PcOk sh' side region pc
  frame : Frame side sh sh'

/-- Nothing but the point of the program changes. -/
theorem stepOk_same (st : Stream sh) (hreg : RegionOk sh side region) (hok : PcOk sh side region pc)
    :
    StepOk side sh sh pc region :=
  ⟨st, hreg, hok, .refl side sh⟩

/-- Where `min_count` is a size that fits, `min_delta` is the difference it stands for. -/
theorem minDelta_producer (hside : t.side = .producer) (hcap : capacity < 2 ^ 63)
    (h0 : 0 ≤ t.minCount) (hle : t.minCount ≤ capacity) :
    t.minDelta capacity = t.minCount - capacity := by
  unfold Transfer.minDelta
  rw [hside]
  exact Int.bmod_eq_of_le_mul_two (by omega) (by omega)

theorem minDelta_consumer (hside : t.side = .consumer) :
    t.minDelta capacity = t.minCount := by
  unfold Transfer.minDelta
  rw [hside]

/-- When the producer's wait is over there is space for `min_count` bytes. -/
theorem space_of_enough (st : Stream sh) (hside : t.side = .producer) (he : Enough sh t) :
    t.minCount ≤ sh.capacity - (sh.commitPos.value - sh.consumePos.value) := by
  obtain ⟨hle, hdelta⟩ := he
  have hlap := st.lap
  by_cases h0 : 0 ≤ t.minCount
  · rw [minDelta_producer hside st.capacity h0 hle, hside] at hdelta
    simp only [Shared.fixedPos, Shared.movingPos] at hdelta
    omega
  · omega

theorem size_of_enough (hside : t.side = .consumer) (he : Enough sh t) :
    sh.consumePos.value + t.minCount ≤ sh.commitPos.value := by
  obtain ⟨_, hdelta⟩ := he
  rw [minDelta_consumer hside, hside] at hdelta
  exact hdelta

/-- The longer of two regions that start at the same byte has both as beginnings. -/
theorem prepared_longer {xs ys : List Cell} (hx : Prepared sh xs) (hy : Prepared sh ys) :
    Prepared sh (longer xs ys) ∧ ys <+: longer xs ys := by
  unfold longer
  by_cases hlen : xs.length ≤ ys.length
  · rw [if_pos hlen]
    exact ⟨hy, List.prefix_refl _⟩
  · rw [if_neg hlen]
    refine ⟨hx, ?_⟩
    rw [hx.1, hy.1, ← slots_take (Nat.le_of_lt (Nat.not_le.mp hlen)), List.map_take]
    exact List.take_prefix _ _

/-- The producer is handed `count` free bytes. -/
theorem deliver_producer {bs : List Buffer} (st : Stream sh) (hside : t.side = .producer)
    (hreg : Prepared sh region)
    (hfit : count ≤ sh.capacity - (sh.commitPos.value - sh.consumePos.value))
    (hmin : t.minCount ≤ count)
    (hbs : getBuffers sh.capacity sh.commitPos.value count = some bs)
    (hd : deliver sh region bs t = some (pc', region')) : StepOk .producer sh sh pc' region' := by
  have hord := st.order
  have hcells := getBuffers_cells hbs (by omega)
  obtain ⟨_, _, hpos, _⟩ := getBuffers_cases hbs
  have hlen : (cells bs).length = count.toNat := by
    rw [hcells, List.length_map, length_slots]
  have hprep : Prepared sh (cells bs) := by
    refine ⟨?_, by omega⟩
    rw [hlen]
    exact hcells
  cases t with
  | fetchAtLeast n => cases hside
  | writeAll buffer =>
    cases hd
    exact stepOk_same st hreg ⟨rfl, hprep⟩
  | prepareExactly n | prepareAtLeast n | asyncPrepareAtLeast n =>
    cases hd
    obtain ⟨hlong, hpre⟩ := prepared_longer hreg hprep
    refine stepOk_same st hlong ⟨?_, hpre⟩
    simp only [Transfer.minCount] at hmin ⊢
    omega

/-- The consumer is handed `count` committed bytes, at least `min_count` in the first buffer. -/
theorem deliver_consumer {n : Int} {bs : List Buffer} (st : Stream sh) (hn : 0 ≤ n)
    (hfit : sh.consumePos.value + count ≤ sh.commitPos.value) (hmin : n ≤ count)
    (hbs : getBuffers sh.capacity sh.consumePos.value count = some bs)
    (hd : deliver sh region bs (.fetchAtLeast n) = some (pc', region')) :
    StepOk .consumer sh sh pc' region' := by
  have hlap := st.lap
  have hpos := st.consume
  have hcells := getBuffers_cells hbs (by omega)
  obtain ⟨bs', hg, hr⟩ := Option.map_eq_some_iff.mp hd
  cases hr
  obtain ⟨⟨front, rest, hfront, hsize⟩, hsame⟩ := gather_spec hbs (by omega) hg
  refine stepOk_same st ?_ ⟨rfl, front, rest, hfront, ?_⟩
  · have hlen : (cells bs').length = count.toNat := by
      rw [← hsame.length_eq, hcells, List.length_map, length_slots]
    refine ⟨by omega, ?_⟩
    intro j c hc
    have hj : j < count.toNat := by
      rw [← hlen]
      exact (List.getElem?_eq_some_iff.mp hc).1
    have hold : (cells bs)[j]? = some (.ring ((sh.consumePos.value.toNat + j) % sh.capacity)) := by
      rw [hcells, List.getElem?_map, getElem?_slots hj]
      rfl
    obtain ⟨hj1, he1⟩ := List.getElem?_eq_some_iff.mp hold
    obtain ⟨hj2, he2⟩ := List.getElem?_eq_some_iff.mp hc
    have hrel := hsame.get hj1 hj2
    simp only [List.get_eq_getElem] at hrel
    rw [he1, he2] at hrel
    rcases hrel with hrel | hrel
    · exact .inl hrel
    · refine .inr ⟨_, hrel, ?_⟩
      rw [st.holds _ (by omega) (by omega)]
      rfl
  · simp only [Transfer.minCount]
    omega

/-- Copying into prepared cells leaves the held bytes alone and puts the copied ones in. -/
theorem writeCells_spec {lo hi q n : Nat} {s : List UInt8} (bytes : List UInt8)
    (h : Holds mem capacity s lo hi) (hlo : lo ≤ q) (hq : hi ≤ q) (hn : q + n ≤ lo + capacity) :
    Holds (writeCells mem ((slots capacity q n).map .ring) bytes) capacity s lo hi ∧
      (slots capacity q (min n bytes.length)).map
        (writeCells mem ((slots capacity q n).map .ring) bytes) = bytes.take (min n bytes.length) ∧
      ∀ a, a ∉ slots capacity q n →
        writeCells mem ((slots capacity q n).map .ring) bytes a = mem a := by
  induction n generalizing q mem bytes with
  | zero =>
    refine ⟨h, ?_, fun _ _ => rfl⟩
    rw [Nat.zero_min]
    rfl
  | succ n ih =>
    cases bytes with
    | nil =>
      rw [slots_succ]
      exact ⟨h, rfl, fun _ _ => rfl⟩
    | cons b bs =>
      have hwrite := h.write hq (by omega) b
      obtain ⟨ih1, ih2, ih3⟩ := ih bs hwrite (q := q + 1) (by omega) (by omega) (by omega)
      have hself : q % capacity ∉ slots capacity (q + 1) n := by
        intro hmem
        obtain ⟨j, hj, he⟩ := mem_slots.mp hmem
        exact slot_ne (show q < q + 1 + j by omega) (by omega) he.symm
      rw [slots_succ, List.map_cons]
      refine ⟨ih1, ?_, ?_⟩
      · rw [List.length_cons, Nat.add_min_add_right, slots_succ, List.map_cons,
          List.take_succ_cons]
        refine congrArg₂ _ ?_ ih2
        exact (ih3 _ hself).trans (Function.update_self _ _ _)
      · intro a ha
        rw [List.mem_cons, not_or] at ha
        exact (ih3 a ha.2).trans (Function.update_of_ne ha.1 _ _)

theorem writeAllLoop_ok (sh : Shared) (region : List Cell) (bytes : List UInt8) :
    PcOk sh .producer region (writeAllLoop bytes) := by
  unfold writeAllLoop
  split
  · trivial
  · exact ⟨rfl, rfl, nofun⟩

theorem add_past {w : Watch} (h : ∀ v ∈ w.past, v ≤ w.value) (h0 : 0 ≤ count) :
    ∀ v ∈ (w.add count).past, v ≤ (w.add count).value := by
  intro v hv
  simp only [Watch.add, List.mem_cons] at hv ⊢
  rcases hv with rfl | hv
  · omega
  · have := h v hv
    omega

/-- `commit` moves the boundary over bytes the ring holds. -/
theorem commit_ok {buffer : Option (List UInt8)} (st : Stream sh) (hreg : Prepared sh region)
    (hok : PcOk sh .producer region (.commitAdd count buffer))
    (hpc : ∀ sh' r, PcOk sh' .producer r pc') :
    StepOk .producer sh
      { sh with
        commitPos := sh.commitPos.add count,
        committed := sh.committed ++
          (slots sh.capacity sh.commitPos.value.toNat count.toNat).map sh.mem }
      pc' (region.drop count.toNat) := by
  obtain ⟨_, h0, hfit, _⟩ := hok
  have hcon := st.consume
  have hord := st.order
  have hnat : (sh.commitPos.value + count).toNat = sh.commitPos.value.toNat + count.toNat := by omega
  refine ⟨⟨st.capacity, hcon, ?_, ?_, st.consumePast, add_past st.commitPast h0, ?_, ?_, ?_⟩, ?_,
    hpc _ _, ⟨rfl, rfl, ?_, List.prefix_append _ _⟩⟩
  · simp only [Watch.add]
    omega
  · simp only [Watch.add]
    omega
  · simp only [Watch.add, List.length_append, List.length_map, length_slots, st.length, hnat]
  · have hlen := st.length
    simp only
    rw [List.take_append_of_le_length (by omega)]
    exact st.out
  · simp only [Watch.add, hnat]
    exact st.holds.extend st.length count.toNat
  · exact prepared_drop hreg (by omega) rfl (by simp only [Watch.add]; omega) (Int.le_refl _)
      (by omega)
  · simp only [Watch.add]
    omega

/-- `consume` hands the bytes it passes over to the consumer's record. -/
theorem consume_ok (st : Stream sh) (hreg : Fetched sh region)
    (hok : PcOk sh .consumer region (.consumeAdd count)) :
    StepOk .consumer sh
      { sh with
        consumePos := sh.consumePos.add count,
        consumed := sh.consumed ++ passed sh region count.toNat }
      (.finish .unit) (region.drop count.toNat) := by
  obtain ⟨_, h0, hfit⟩ := hok
  have hcon := st.consume
  have hord := st.order
  have hlap := st.lap
  have hnat : (sh.consumePos.value + count).toNat = sh.consumePos.value.toNat + count.toNat := by
    omega
  refine ⟨⟨st.capacity, ?_, ?_, ?_, add_past st.consumePast h0, st.commitPast, st.length, ?_, ?_⟩,
    ?_, trivial, ⟨rfl, rfl, ?_, rfl⟩⟩
  · simp only [Watch.add]
    omega
  · simp only [Watch.add]
    omega
  · simp only [Watch.add]
    omega
  · simp only [Watch.add, hnat]
    rw [passed_eq st hreg (by omega), st.out, List.take_add]
  · simp only [Watch.add, hnat]
    exact st.holds.mono (by omega) (Nat.le_refl _)
  · exact fetched_drop hreg hcon rfl (by simp only [Watch.add]; omega) (Int.le_refl _)
      (List.prefix_refl _) (by omega)
  · simp only [Watch.add]
    omega

/-- `buffer_copy` in `write_all`. -/
theorem bufferCopy_ok {prepared : List Buffer} {buffer : List UInt8} (st : Stream sh)
    (hreg : Prepared sh region) (hprep : Prepared sh (cells prepared)) :
    StepOk .producer sh { sh with mem := writeCells sh.mem (cells prepared) buffer }
      (.commitAdd (min (cells prepared).length buffer.length : Nat) (some buffer)) region := by
  obtain ⟨heq, hfit⟩ := hprep
  have hcon := st.consume
  have hord := st.order
  obtain ⟨h1, h2, _⟩ := writeCells_spec (n := (cells prepared).length) buffer st.holds
    (q := sh.commitPos.value.toNat) (by omega) (Nat.le_refl _) (by omega)
  rw [← heq] at h1 h2
  refine ⟨⟨st.capacity, hcon, hord, st.lap, st.consumePast, st.commitPast, st.length, st.out, h1⟩,
    hreg, ⟨rfl, by omega, ?_, ?_⟩, ⟨rfl, rfl, Int.le_refl _, List.prefix_refl _⟩⟩
  · simp only
    omega
  · rintro bytes hb
    cases hb
    rw [Int.toNat_natCast]
    exact h2.symm

/-- One access of a call keeps everything. -/
theorem exec_ok (st : Stream sh) (hreg : RegionOk sh side region) (hok : PcOk sh side region pc)
    (h : exec sh region pc = some (sh', pc', region')) :
    StepOk side sh sh' pc' region' := by
  cases pc with
  | idle => cases h
  | finish ret => cases h
  | minTarget t =>
    simp only [exec] at h
    split at h
    · cases h
      cases t <;> exact stepOk_same st hreg trivial
    · rename_i hle
      split at h
      · have hok' := hok
        obtain ⟨rfl, _⟩ := hok'
        cases t <;> cases h <;> exact stepOk_same st hreg ⟨hok, by omega, rfl⟩
      · cases h
  | awaitTrue t target =>
    obtain ⟨ht, hle, rfl⟩ := hok
    obtain ⟨rfl, _⟩ := id ht
    simp only [exec] at h
    split at h <;> cases h
    · rename_i hge
      exact stepOk_same st hreg ⟨ht, hle, hge⟩
    · exact stepOk_same st hreg ⟨ht, hle, rfl⟩
  | awaitNotEqual t target =>
    simp only [exec] at h
    split at h
    · split at h <;> cases h
      · exact stepOk_same st hreg trivial
      · exact stepOk_same st hreg hok
    · cases h
  | recheck t target =>
    obtain ⟨ht, hle, rfl⟩ := hok
    obtain ⟨rfl, _⟩ := id ht
    simp only [exec] at h
    split at h <;> cases h
    · exact stepOk_same st hreg trivial
    · rename_i hge
      exact stepOk_same st hreg ⟨ht, hle, by omega⟩
  | observe t target =>
    obtain ⟨ht, hle, rfl⟩ := hok
    obtain ⟨rfl, _⟩ := id ht
    simp only [exec] at h
    split at h <;> cases h
    · exact stepOk_same st hreg ht
    · rename_i hge
      exact stepOk_same st hreg ⟨ht, hle, by omega⟩
  | asyncWait t =>
    simp only [exec] at h
    split at h <;> cases h
    exact stepOk_same st hreg trivial
  | offset t =>
    obtain ⟨ht, he⟩ := hok
    obtain ⟨rfl, _⟩ := id ht
    cases t with
    | prepareExactly n =>
      obtain ⟨bs, hbs, hd⟩ := Option.bind_eq_some_iff.mp h
      obtain ⟨⟨pc'', region''⟩, hd', hr⟩ := Option.map_eq_some_iff.mp hd
      cases hr
      exact deliver_producer st rfl hreg (space_of_enough st rfl he) (Int.le_refl _) hbs hd'
    | _ =>
      cases h
      exact stepOk_same st hreg ⟨ht, he, rfl⟩
  | sizeCommit t offset =>
    obtain ⟨ht, he, rfl⟩ := hok
    cases h
    refine stepOk_same st hreg ⟨ht, he, rfl, Int.le_refl _, ?_⟩
    cases side with
    | producer => rfl
    | consumer => exact size_of_enough ht.1 he
  | sizeConsume t offset commitPos =>
    obtain ⟨ht, he, rfl, hle, hcp⟩ := hok
    simp only [exec, ht.1] at h
    cases side with
    | producer =>
      obtain rfl : commitPos = sh.commitPos.value := hcp
      simp only at h
      split at h
      · obtain ⟨bs, hbs, hd⟩ := Option.bind_eq_some_iff.mp h
        obtain ⟨⟨pc'', region''⟩, hd', hr⟩ := Option.map_eq_some_iff.mp hd
        cases hr
        exact deliver_producer st ht.1 hreg (Int.le_refl _) (space_of_enough st ht.1 he) hbs hd'
      · cases h
    | consumer =>
      have hmin : sh.consumePos.value + t.minCount ≤ commitPos := hcp
      have hn := ht.2.2 rfl
      simp only at h
      split at h
      · obtain ⟨bs, hbs, hd⟩ := Option.bind_eq_some_iff.mp h
        obtain ⟨⟨pc'', region''⟩, hd', hr⟩ := Option.map_eq_some_iff.mp hd
        cases hr
        cases t with
        | fetchAtLeast n =>
          simp only [Transfer.minCount] at hmin hn
          exact deliver_consumer st hn (by omega) (by omega) hbs hd'
        | _ => cases ht.1
      · cases h
  | bufferCopy prepared buffer =>
    obtain ⟨rfl, hprep⟩ := hok
    cases h
    exact bufferCopy_ok st hreg hprep
  | commitAdd count buffer =>
    have hside := hok.1
    subst hside
    simp only [exec] at h
    split at h <;> cases h
    refine commit_ok st hreg hok fun sh' r => ?_
    cases buffer with
    | none => trivial
    | some bytes => exact writeAllLoop_ok sh' r _
  | consumeAdd count =>
    have hside := hok.1
    subst hside
    simp only [exec] at h
    split at h <;> cases h
    exact consume_ok st hreg hok

/-! ## Calls and wake-ups -/

/-- A write into the producer's region does not touch what the consumer can read. -/
theorem write_ok {index : Nat} {byte : UInt8} (st : Stream sh) (hreg : Prepared sh region)
    (hindex : index < region.length) :
    StepOk .producer sh (access sh region (.write index byte)) (.finish .unit) region := by
  obtain ⟨heq, hfit⟩ := id hreg
  have hcon := st.consume
  have hord := st.order
  have hcell : region[index]? =
      some (.ring ((sh.commitPos.value.toNat + index) % sh.capacity)) := by
    rw [heq, List.getElem?_map, getElem?_slots hindex]
    rfl
  have hholds := st.holds.write (q := sh.commitPos.value.toNat + index) (by omega) (by omega) byte
  simp only [access, hcell, Option.bind_some, Cell.address?]
  exact ⟨⟨st.capacity, hcon, hord, st.lap, st.consumePast, st.commitPast, st.length, st.out, hholds⟩,
    hreg, trivial, ⟨rfl, rfl, Int.le_refl _, List.prefix_refl _⟩⟩

theorem close_ok {op : Op} (st : Stream sh) (hreg : RegionOk sh side region)
    (hop : op = .closeForWrite ∨ op = .closeForRead) :
    StepOk side sh (access sh region op) (.finish .unit) region := by
  have hst : Stream (access sh region op) := by
    rcases hop with rfl | rfl <;>
      exact ⟨st.capacity, st.consume, st.order, st.lap, st.consumePast, st.commitPast, st.length,
        st.out, st.holds⟩
  have hframe : Frame side sh (access sh region op) := by
    rcases hop with rfl | rfl <;> cases side <;>
      first
      | exact ⟨rfl, rfl, Int.le_refl _, List.prefix_refl _⟩
      | exact ⟨rfl, rfl, Int.le_refl _, rfl⟩
  have hhanded : RegionOk (access sh region op) side region := by
    rcases hop with rfl | rfl <;> cases side <;> exact hreg
  exact ⟨hst, hhanded, trivial, hframe⟩

/-- Starting a call that the callers' promise admits. -/
theorem call_ok {l : Local} {op : Op} (st : Stream sh) (hreg : RegionOk sh l.side l.region)
    (hadm : admits (.call op) sh ls l = true) (hb : begin op = some pc) :
    StepOk l.side sh (access sh l.region op) pc l.region := by
  cases op with
  | transfer t =>
    have hside : l.side = t.side ∧ inI64 t.minCount = true := by
      simpa [admits] using hadm
    have hacc : access sh l.region (.transfer t) = sh := rfl
    rw [hacc]
    refine stepOk_same st hreg ?_
    rw [hside.1]
    cases t with
    | writeAll bytes =>
      cases hb
      exact writeAllLoop_ok sh l.region bytes
    | fetchAtLeast n =>
      simp only [begin] at hb
      split at hb <;> cases hb
      exact ⟨rfl, hside.2, fun _ => by simp only [Transfer.minCount]; omega⟩
    | prepareExactly n | prepareAtLeast n | asyncPrepareAtLeast n =>
      cases hb
      exact ⟨rfl, hside.2, nofun⟩
  | commit count =>
    cases hb
    have hc : (l.side = .producer ∧ 0 ≤ count) ∧
        sh.commitPos.value + count ≤ sh.consumePos.value + sh.capacity := by
      simpa [admits] using hadm
    exact stepOk_same st hreg ⟨hc.1.1, hc.1.2, hc.2, nofun⟩
  | consume count =>
    cases hb
    have hc : (l.side = .consumer ∧ 0 ≤ count) ∧
        sh.consumePos.value + count ≤ sh.commitPos.value := by
      simpa [admits] using hadm
    exact stepOk_same st hreg ⟨hc.1.1, hc.1.2, hc.2⟩
  | write index byte =>
    cases hb
    have hc : l.side = .producer ∧ index < l.region.length := by
      simpa [admits] using hadm
    rw [hc.1] at hreg ⊢
    exact write_ok st hreg hc.2
  | closeForWrite =>
    cases hb
    exact close_ok st hreg (.inl rfl)
  | closeForRead =>
    cases hb
    exact close_ok st hreg (.inr rfl)

/-- A value the watch has held is at most its current one: the positions only grow. -/
theorem held_le (st : Stream sh) (side : Side) {v : Int} (hv : v ∈ (sh.movingPos side).held) :
    v ≤ (sh.movingPos side).value := by
  have hpast : ∀ v ∈ (sh.movingPos side).past, v ≤ (sh.movingPos side).value := by
    cases side with
    | producer => exact st.consumePast
    | consumer => exact st.commitPast
  rcases List.mem_cons.mp hv with rfl | hv
  · exact Int.le_refl _
  · exact hpast v hv

theorem step_ok {a : Act} {l l' : Local} (st : Stream sh) (hreg : RegionOk sh l.side l.region)
    (hok : PcOk sh l.side l.region l.pc) (hadm : admits a sh ls l = true)
    (h : step a sh l = some (sh', l')) :
    l'.side = l.side ∧ StepOk l.side sh sh' l'.pc l'.region := by
  cases a with
  | call op =>
    simp only [step] at h
    split at h
    · obtain ⟨pc, hb, hr⟩ := Option.map_eq_some_iff.mp h
      cases hr
      exact ⟨rfl, call_ok st hreg hadm hb⟩
    · cases h
  | run =>
    simp only [step] at h
    split at h
    · cases h
      exact ⟨rfl, stepOk_same st hreg trivial⟩
    · obtain ⟨⟨s, pc', region'⟩, he, hr⟩ := Option.map_eq_some_iff.mp h
      cases hr
      exact ⟨rfl, exec_ok st hreg hok he⟩
  | woken v =>
    simp only [step] at h
    split at h
    · rename_i t target hpc
      rw [hpc] at hok
      obtain ⟨ht, hle, rfl⟩ := hok
      split at h <;> cases h
      rename_i hv
      have hvle := held_le st _ hv
      refine ⟨rfl, stepOk_same st hreg ?_⟩
      split
      · rename_i hge
        refine ⟨ht, hle, ?_⟩
        rw [ht.1] at hvle ⊢
        omega
      · exact ⟨ht, hle, rfl⟩
    · rename_i t hpc
      rw [hpc] at hok
      split at h <;> cases h
      exact ⟨rfl, stepOk_same st hreg hok⟩
    · cases h

/-! ## The invariant of every run -/

structure Inv (capacity : Nat) (sh : Shared) (ls : List Local) : Prop where
  stream : Stream sh
  fixed : sh.capacity = capacity
  sides : ls.map Local.side = [.producer, .consumer]
  region : ∀ l ∈ ls, RegionOk sh l.side l.region
  ok : ∀ l ∈ ls, PcOk sh l.side l.region l.pc

/-- There is one thread of each side. -/
theorem other_side (h : ls.map Local.side = [.producer, .consumer]) {j : Nat} {l k : Local}
    (hij : j ≠ i) (hi : ls[i]? = some l) (hj : ls[j]? = some k) :
    k.side ≠ l.side := by
  have hside : ∀ (n : Nat) (m : Local), ls[n]? = some m →
      ([.producer, .consumer] : List Side)[n]? = some m.side := by
    intro n m hm
    rw [← h, List.getElem?_map, hm]
    rfl
  have h1 := hside i l hi
  have h2 := hside j k hj
  intro he
  rw [he, ← h1] at h2
  exact hij ((List.getElem?_inj (List.getElem?_eq_some_iff.mp (h2.trans h1)).1 (by decide)).mp h2)

/-- One thread has taken a step. -/
theorem inv_set {l l' : Local} (inv : Inv capacity sh ls) (hi : ls[i]? = some l)
    (hside : l'.side = l.side) (hstep : StepOk l.side sh sh' l'.pc l'.region) :
    Inv capacity sh' (ls.set i l') := by
  refine ⟨hstep.stream, hstep.frame.1.trans inv.fixed, ?_, ?_, ?_⟩
  · obtain ⟨hlt, rfl⟩ := List.getElem?_eq_some_iff.mp hi
    have hmap : i < (ls.map Local.side).length := by simpa using hlt
    have hself := List.set_getElem_self hmap
    rw [List.getElem_map] at hself
    rw [List.map_set, hside, hself]
    exact inv.sides
  · refine forall_set (hside ▸ hstep.handed) fun j k hne hj => ?_
    exact region_frame hstep.frame (other_side inv.sides hne hi hj) inv.stream
      (inv.region k (List.mem_of_getElem? hj))
  · refine forall_set (hside ▸ hstep.ok) fun j k hne hj => ?_
    exact pcOk_frame hstep.frame (other_side inv.sides hne hi hj) inv.stream
      (inv.ok k (List.mem_of_getElem? hj))

theorem inv_fire {a : Act} {c c' : Conf Shared Local} (inv : Inv capacity c.shared c.locals)
    (hf : machine.fire i a c = some c') :
    Inv capacity c'.shared c'.locals := by
  obtain ⟨l, sh', l', hi, hadm, hs, rfl⟩ := machine.fire_cases hf
  have hmem := List.mem_of_getElem? hi
  obtain ⟨hside, hstep⟩ := step_ok inv.stream (inv.region l hmem) (inv.ok l hmem) hadm hs
  exact inv_set inv hi hside hstep

theorem inv_construct {c₀ : Conf Shared Local} (h₀ : construct capacity mem = some c₀) :
    Inv capacity c₀.shared c₀.locals := by
  unfold construct at h₀
  split at h₀ <;> cases h₀
  rename_i hcap
  refine ⟨⟨hcap, Int.le_refl _, Int.le_refl _, ?_, nofun, nofun, rfl, rfl, ?_⟩, rfl, rfl, ?_, ?_⟩
  · simp only
    omega
  · intro p _ hp
    simp only [Int.toNat_zero] at hp
    omega
  · intro l hl
    simp only [List.mem_cons, List.not_mem_nil, or_false] at hl
    rcases hl with rfl | rfl
    · exact ⟨rfl, by simp⟩
    · exact ⟨by simp, nofun⟩
  · intro l hl
    simp only [List.mem_cons, List.not_mem_nil, or_false] at hl
    rcases hl with rfl | rfl <;> trivial

theorem inv_reachable {c₀ c : Conf Shared Local} (h₀ : construct capacity mem = some c₀)
    (hr : machine.Reachable c₀ c) :
    Inv capacity c.shared c.locals := by
  refine machine.invariant (I := fun c => Inv capacity c.shared c.locals) ?_ (inv_construct h₀) hr
  intro c i a c' inv hf
  exact inv_fire inv hf

/-- The bytes a side may touch at the moment: those handed out to it, and in `write_all` those
    it is about to copy into. -/
def touches (l : Local) : List Nat :=
  (l.region ++ match l.pc with
    | .bufferCopy prepared _ => cells prepared
    | _ => []).filterMap Cell.address?

theorem mem_address {cs : List Cell} {cap q a n : Nat} (h : cs = (slots cap q n).map .ring)
    (ha : a ∈ cs.filterMap Cell.address?) : ∃ j, j < n ∧ a = (q + j) % cap := by
  rw [h, List.filterMap_map] at ha
  obtain ⟨b, hb, hab⟩ := List.mem_filterMap.mp ha
  cases hab
  obtain ⟨j, hj, rfl⟩ := mem_slots.mp hb
  exact ⟨j, hj, rfl⟩

/-- Whatever the producer touches is the cell of a free position. -/
theorem touches_slots {l : Local} {a : Nat} (hreg : Prepared sh l.region)
    (hok : PcOk sh side l.region l.pc) (ha : a ∈ touches l) :
    ∃ j : Nat, sh.commitPos.value + j < sh.consumePos.value + sh.capacity ∧
      a = (sh.commitPos.value.toNat + j) % sh.capacity := by
  unfold touches at ha
  rw [List.filterMap_append] at ha
  rcases List.mem_append.mp ha with ha | ha
  · obtain ⟨j, hj, he⟩ := mem_address hreg.1 ha
    exact ⟨j, by have := hreg.2; omega, he⟩
  · split at ha
    · rename_i prepared buffer hpc
      rw [hpc] at hok
      obtain ⟨_, hprep⟩ := hok
      obtain ⟨j, hj, he⟩ := mem_address hprep.1 ha
      exact ⟨j, by have := hprep.2; omega, he⟩
    · cases ha

/-- **A faithful byte FIFO.** For every capacity and every interleaving of one producer and one
    consumer: the positions are at most `capacity` apart; the cells handed out to the producer
    are those of the positions after the committed ones, and none of them is a cell the
    consumer can read; what was consumed is a beginning of what was committed, what the
    consumer reads in its buffers is what comes next, `write_all` commits the bytes it was
    given, and a successful fetch has `min_count` bytes in its first buffer. -/
theorem byte_fifo (capacity : Nat) (mem : Nat → UInt8) (c₀ c : Conf Shared Local)
    (h₀ : construct capacity mem = some c₀) (hr : machine.Reachable c₀ c) :
    (0 ≤ c.shared.commitPos.value - c.shared.consumePos.value ∧
        c.shared.commitPos.value - c.shared.consumePos.value ≤ capacity) ∧
      (∀ l ∈ c.locals, l.side = .producer →
        l.region = (slots capacity c.shared.commitPos.value.toNat l.region.length).map .ring ∧
        ∀ a ∈ touches l, ∀ p : Nat, c.shared.consumePos.value ≤ p → p < c.shared.commitPos.value →
          a ≠ p % capacity) ∧
      (c.shared.committed.length = c.shared.commitPos.value ∧
        c.shared.consumed = c.shared.committed.take c.shared.consumePos.value.toNat) ∧
      (∀ l ∈ c.locals, l.side = .consumer → l.region.map (Cell.read c.shared.mem) =
        (c.shared.committed.drop c.shared.consumePos.value.toNat).take l.region.length) ∧
      (∀ l ∈ c.locals, ∀ count buffer, l.pc = .commitAdd count (some buffer) →
        (slots capacity c.shared.commitPos.value.toNat count.toNat).map c.shared.mem =
          buffer.take count.toNat) ∧
      (∀ l ∈ c.locals, ∀ minCount bs, l.pc = .finish (.buffers (.fetchAtLeast minCount) bs) →
        l.side = .consumer → l.region = cells bs ∧
          ∃ front rest, bs = front :: rest ∧ minCount ≤ front.size) := by
  obtain ⟨st, hcap, _, hregion, hok⟩ := inv_reachable h₀ hr
  have hcon := st.consume
  have hord := st.order
  have hlap := st.lap
  have hlen := st.length
  subst hcap
  refine ⟨⟨by omega, by omega⟩, ?_, ⟨by omega, st.out⟩, ?_, ?_, ?_⟩
  · intro l hl hside
    have hreg := hregion l hl
    rw [hside] at hreg
    refine ⟨hreg.1, ?_⟩
    intro a ha p hp1 hp2
    obtain ⟨j, hj, rfl⟩ := touches_slots hreg (hok l hl) ha
    exact (slot_ne (by omega) (by omega)).symm
  · intro l hl hside
    have hreg := hregion l hl
    rw [hside] at hreg
    exact fetched_read st hreg
  · intro l hl count buffer hpc
    have hk := hok l hl
    rw [hpc] at hk
    exact (hk.2.2.2 buffer rfl).symm
  · intro l hl minCount bs hpc hside
    have hk := hok l hl
    rw [hpc, hside] at hk
    exact hk

/-- Six bytes through a ring of four. The second fetch asks for two bytes where one is left
    before the end of the ring. -/
def wrapRun : List (Nat × Act) :=
  (0, Act.call (.transfer (.writeAll [1, 2, 3]))) :: List.replicate 8 (0, Act.run) ++
    (1, Act.call (.transfer (.fetchAtLeast 3))) :: List.replicate 6 (1, Act.run) ++
    (1, Act.call (.consume 3)) :: List.replicate 2 (1, Act.run) ++
    (0, Act.call (.transfer (.writeAll [4, 5, 6]))) :: List.replicate 8 (0, Act.run) ++
    (1, Act.call (.transfer (.fetchAtLeast 2))) :: List.replicate 5 (1, Act.run)

theorem byte_fifo_wrapRun :
    ∃ c₀ c, construct 4 (fun _ => 0) = some c₀ ∧ machine.run wrapRun c₀ = some c ∧
      c.shared.consumePos.value = 3 ∧ c.shared.committed = [1, 2, 3, 4, 5, 6] ∧
      c.shared.consumed = [1, 2, 3] ∧
      ∃ l ∈ c.locals, l.pc = .finish (.buffers (.fetchAtLeast 2) [.tmp [4, 5], .ring 1 1]) ∧
        l.region.map (Cell.read c.shared.mem) = [4, 5, 6] := by
  obtain ⟨c₀, h₀⟩ : ∃ c₀, construct 4 (fun _ => 0) = some c₀ := ⟨_, rfl⟩
  have hrun : ((construct 4 (fun _ => 0)).bind (machine.run wrapRun)).map
      (fun c => (c.locals.map fun l => (l.side, l.pc), c.shared.consumePos.value,
        c.shared.committed)) =
      some ([(.producer, .idle),
          (.consumer, .finish (.buffers (.fetchAtLeast 2) [.tmp [4, 5], .ring 1 1]))],
        3, [1, 2, 3, 4, 5, 6]) := by
    decide +kernel
  rw [h₀, Option.bind_some] at hrun
  obtain ⟨c, hc, hview⟩ := Option.map_eq_some_iff.mp hrun
  simp only [Prod.mk.injEq] at hview
  obtain ⟨hlocals, hconsume, hcommitted⟩ := hview
  obtain ⟨_, _, ⟨_, hout⟩, hread, _, hfirst⟩ :=
    byte_fifo 4 (fun _ => 0) c₀ c h₀ ⟨wrapRun, hc⟩
  obtain ⟨l, hl, hview⟩ := List.mem_map.mp (hlocals ▸ List.mem_cons_of_mem _ List.mem_cons_self)
  simp only [Prod.mk.injEq] at hview
  have hregion := (hfirst l hl 2 _ hview.2 hview.1).1
  refine ⟨c₀, c, h₀, hc, hconsume, hcommitted, ?_, l, hl, hview.2, ?_⟩
  · rw [hout, hconsume, hcommitted]
    rfl
  · rw [hread l hl hview.1, hconsume, hcommitted, hregion]
    rfl

end Batt.StreamBuffer
