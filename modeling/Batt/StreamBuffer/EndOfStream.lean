/-
  `fetch_at_least` and the end of the stream.

  The producer commits, and closes for write when it is done (`commitsThenCloses`). The
  consumer's wait may end because the commit position was closed although data was committed
  in between; `pre_transfer` then reads the position once more. `EndOk` is what the consumer
  knows at each point: after the wait has ended that way the position is closed, so it does
  not move any more, and what the second read sees stays true until the call returns.

  `lastFetch` is the argument of the consumer's last `fetch_at_least`, read off the schedule.
-/
import Batt.StreamBuffer.Fifo

namespace Batt.StreamBuffer

open Interleave

/-! ## The producer's side of it -/

/-- Thread 0, the producer, is the one that closes for write, and nothing is committed after
    that. -/
def commitsThenCloses (c : Conf Shared Local) (i : Nat) (a : Act) : Bool :=
  (match a with
    | .call .closeForWrite => i = 0
    | _ => true) &&
  (match (c.locals[i]?).map Local.pc with
    | some (.commitAdd _ _) => !c.shared.commitPos.closed
    | _ => true)

def fetchCall : Nat × Act → Option Int
  | (1, .call (.transfer (.fetchAtLeast minCount))) => some minCount
  | _ => none

def lastFetch (sched : List (Nat × Act)) : Option Int := sched.reverse.findSome? fetchCall

theorem lastFetch_concat (sched : List (Nat × Act)) (e : Nat × Act) :
    lastFetch (sched ++ [e]) = (fetchCall e).or (lastFetch sched) := by
  unfold lastFetch
  rw [List.reverse_concat, List.findSome?_cons]
  cases fetchCall e <;> rfl

/-! ## What the consumer knows -/

/-- The commit position is closed and less than `n` bytes ahead. -/
def AtEnd (sh : Shared) (n : Int) : Prop :=
  sh.commitPos.closed = true ∧ 0 ≤ n ∧ n ≤ sh.capacity ∧
    sh.commitPos.value < sh.consumePos.value + n

/-- `n` is the argument of the last `fetch_at_least`. -/
def EndOk (sh : Shared) (n : Option Int) : Pc → Prop
  | .minTarget t | .awaitTrue t _ | .awaitNotEqual t _ | .observe t _ | .asyncWait t =>
    n = some t.minCount
  | .recheck t _ => n = some t.minCount ∧ sh.commitPos.closed = true
  | .finish (.status .kEndOfStream) => ∃ m, n = some m ∧ AtEnd sh m
  | _ => True

/-- The commit position can only be closed, and where it is closed it does not move. -/
structure Stays (sh sh' : Shared) : Prop where
  capacity : sh'.capacity = sh.capacity
  consume : sh'.consumePos.value = sh.consumePos.value
  closed : sh.commitPos.closed = true →
    sh'.commitPos.closed = true ∧ sh'.commitPos.value = sh.commitPos.value

theorem Stays.refl (sh : Shared) : Stays sh sh := ⟨rfl, rfl, fun h => ⟨h, rfl⟩⟩

variable {sh sh' : Shared} {region region' : List Cell} {pc pc' : Pc} {ls : List Local}

theorem endOk_stays {n : Option Int} (hs : Stays sh sh') (h : EndOk sh n pc) :
    EndOk sh' n pc := by
  unfold EndOk at *
  split at h
  · exact h
  · exact h
  · exact h
  · exact h
  · exact h
  · exact ⟨h.1, (hs.closed h.2).1⟩
  · obtain ⟨m, hn, hclosed, h0, hcap, hlt⟩ := h
    obtain ⟨hclosed', hvalue⟩ := hs.closed hclosed
    exact ⟨m, hn, hclosed', h0, hs.capacity ▸ hcap, by rw [hvalue, hs.consume]; exact hlt⟩
  · trivial

/-! ## Steps -/

/-- Three accesses change the buffer or a position. -/
theorem exec_same (h : exec sh region pc = some (sh', pc', region'))
    (hcommit : ∀ count buffer, pc ≠ .commitAdd count buffer)
    (hconsume : ∀ count, pc ≠ .consumeAdd count)
    (hcopy : ∀ prepared buffer, pc ≠ .bufferCopy prepared buffer) : sh' = sh := by
  cases pc with
  | commitAdd count buffer => exact absurd rfl (hcommit count buffer)
  | consumeAdd count => exact absurd rfl (hconsume count)
  | bufferCopy prepared buffer => exact absurd rfl (hcopy prepared buffer)
  | _ =>
    simp only [exec] at h
    repeat' split at h
    all_goals first
      | (cases h; done)
      | (cases h; rfl)
      | (obtain ⟨bs, _, hbs⟩ := Option.bind_eq_some_iff.mp h
         obtain ⟨r, _, hr⟩ := Option.map_eq_some_iff.mp hbs
         cases hr
         rfl)

/-- Only `commit` and `consume` move a position. -/
theorem exec_stays (h : exec sh region pc = some (sh', pc', region'))
    (hcommit : ∀ count buffer, pc = .commitAdd count buffer → sh.commitPos.closed = false)
    (hconsume : ∀ count, pc ≠ .consumeAdd count) : Stays sh sh' := by
  cases pc with
  | commitAdd count buffer =>
    simp only [exec] at h
    split at h <;> cases h
    refine ⟨rfl, rfl, fun hc => ?_⟩
    rw [hcommit count buffer rfl] at hc
    cases hc
  | consumeAdd count => exact absurd rfl (hconsume count)
  | bufferCopy prepared buffer =>
    cases h
    exact ⟨rfl, rfl, fun hc => ⟨hc, rfl⟩⟩
  | _ =>
    rw [exec_same h (by simp) (by simp) (by simp)]
    exact .refl sh

/-- Only `close_for_write` closes the commit position. -/
theorem exec_closed (h : exec sh region pc = some (sh', pc', region')) :
    sh'.commitPos.closed = sh.commitPos.closed := by
  cases pc with
  | commitAdd count buffer | consumeAdd count =>
    simp only [exec] at h
    split at h <;> cases h
    rfl
  | bufferCopy prepared buffer =>
    cases h
    rfl
  | _ => rw [exec_same h (by simp) (by simp) (by simp)]

/-- Where the consumer's next access takes it. -/
theorem endOk_exec {n : Option Int} (hok : PcOk sh .consumer region pc) (hend : EndOk sh n pc)
    (h : exec sh region pc = some (sh', pc', region')) :
    EndOk sh' n pc' := by
  cases pc with
  | minTarget t =>
    have hn : n = some t.minCount := hend
    simp only [exec] at h
    split at h
    · cases h
      cases t <;> trivial
    · split at h
      · split at h <;> cases h <;> exact hn
      · cases h
  | awaitTrue t target =>
    have hn : n = some t.minCount := hend
    simp only [exec] at h
    split at h <;> cases h
    · trivial
    · exact hn
  | awaitNotEqual t target =>
    obtain ⟨⟨hside, _, _⟩, _, _⟩ := hok
    have hn : n = some t.minCount := hend
    simp only [exec, hside, closeStatus, ne_eq, not_true_eq_false, if_false] at h
    split at h <;> cases h
    rename_i hclosed
    exact ⟨hn, hclosed⟩
  | recheck t target =>
    obtain ⟨⟨hside, _, h0⟩, hcap, rfl⟩ := hok
    obtain ⟨hn, hclosed⟩ := hend
    simp only [exec, hside, closeStatus] at h
    split at h <;> cases h
    · rename_i hlt
      rw [minDelta_consumer hside] at hlt
      exact ⟨t.minCount, hn, hclosed, h0 rfl, hcap, hlt⟩
    · trivial
  | offset t =>
    simp only [exec] at h
    split at h
    · obtain ⟨bs, _, hbs⟩ := Option.bind_eq_some_iff.mp h
      cases hbs
      trivial
    · cases h
      trivial
  | sizeConsume t offset commitPos =>
    obtain ⟨⟨hside, _, _⟩, _⟩ := hok
    cases t with
    | fetchAtLeast minCount =>
      simp only [exec, deliver, Option.map_map] at h
      rw [ite_eq_iff] at h
      rcases h with ⟨_, h⟩ | ⟨_, h⟩
      · obtain ⟨bs, _, hbs⟩ := Option.bind_eq_some_iff.mp h
        obtain ⟨r, _, hr⟩ := Option.map_eq_some_iff.mp hbs
        cases hr
        trivial
      · cases h
    | prepareExactly k | prepareAtLeast k | asyncPrepareAtLeast k | writeAll k => cases hside
  | commitAdd count buffer =>
    obtain ⟨hside, _⟩ := hok
    cases hside
  | observe t target =>
    have hn : n = some t.minCount := hend
    simp only [exec] at h
    split at h <;> cases h
    · exact hn
    · trivial
  | asyncWait t =>
    simp only [exec] at h
    split at h <;> cases h
    trivial
  | sizeCommit t offset | bufferCopy prepared buffer =>
    cases h
    trivial
  | consumeAdd count =>
    simp only [exec] at h
    split at h <;> cases h
    trivial
  | idle | finish ret => cases h

/-- A step of either side, as the consumer at `pc` sees it. -/
theorem step_stays {a : Act} {l l' : Local} (hside : l.side = .producer)
    (hok : PcOk sh l.side l.region l.pc) (hadm : admits a sh ls l = true)
    (h : step a sh l = some (sh', l'))
    (hcommit : ∀ count buffer, l.pc = .commitAdd count buffer → sh.commitPos.closed = false) :
    Stays sh sh' := by
  cases a with
  | call op =>
    simp only [step] at h
    split at h
    · obtain ⟨pc, _, hr⟩ := Option.map_eq_some_iff.mp h
      cases hr
      cases op with
      | write index byte =>
        simp only [access]
        split
        · exact ⟨rfl, rfl, fun hc => ⟨hc, rfl⟩⟩
        · exact .refl sh
      | closeForWrite => exact ⟨rfl, rfl, fun _ => ⟨rfl, rfl⟩⟩
      | closeForRead => exact ⟨rfl, rfl, fun hc => ⟨hc, rfl⟩⟩
      | transfer t | commit count | consume count => exact .refl sh
    · cases h
  | run =>
    simp only [step] at h
    split at h
    · cases h
      exact .refl sh
    · obtain ⟨⟨s, pc', region'⟩, he, hr⟩ := Option.map_eq_some_iff.mp h
      cases hr
      refine exec_stays he hcommit fun count hpc => ?_
      rw [hpc, hside] at hok
      exact absurd hok.1 (by decide)
  | woken v =>
    simp only [step] at h
    split at h
    · split at h <;> cases h
      exact .refl sh
    · split at h <;> cases h
      exact .refl sh
    · cases h

/-- A step of the consumer. -/
theorem endOk_step {a : Act} {l l' : Local} {past : List (Nat × Act)} (hside : l.side = .consumer)
    (hok : PcOk sh .consumer l.region l.pc) (hend : EndOk sh (lastFetch past) l.pc)
    (hadm : admits a sh ls l = true) (h : step a sh l = some (sh', l')) :
    EndOk sh' (lastFetch (past ++ [(1, a)])) l'.pc := by
  rw [lastFetch_concat]
  cases a with
  | call op =>
    simp only [step] at h
    split at h
    · obtain ⟨pc, hb, hr⟩ := Option.map_eq_some_iff.mp h
      cases hr
      cases op with
      | transfer t =>
        have ht : l.side = t.side ∧ inI64 t.minCount = true := by
          simpa [admits] using hadm
        rw [hside] at ht
        cases t with
        | fetchAtLeast minCount =>
          simp only [begin] at hb
          split at hb <;> cases hb
          rfl
        | prepareExactly k | prepareAtLeast k | asyncPrepareAtLeast k | writeAll k =>
          exact absurd ht.1 (by simp [Transfer.side])
      | commit count | consume count | write index byte | closeForWrite | closeForRead =>
        cases hb
        trivial
    · cases h
  | run =>
    simp only [step] at h
    split at h
    · cases h
      trivial
    · obtain ⟨⟨s, pc', region'⟩, he, hr⟩ := Option.map_eq_some_iff.mp h
      cases hr
      exact endOk_exec hok hend he
  | woken v =>
    simp only [step] at h
    split at h
    · rename_i t target hpc
      rw [hpc] at hend
      split at h <;> cases h
      show EndOk sh (lastFetch past) (if v ≥ target then .offset t else .awaitNotEqual t target)
      split
      · trivial
      · exact hend
    · rename_i t hpc
      rw [hpc] at hend
      split at h <;> cases h
      exact hend
    · cases h

/-! ## Every run -/

theorem closed_fire {i : Nat} {a : Act} {c c' : Conf Shared Local}
    (hf : machine.fire i a c = some c') (hc : c'.shared.commitPos.closed = true) :
    c.shared.commitPos.closed = true ∨ a = .call .closeForWrite := by
  obtain ⟨l, sh', l', _, _, hs, rfl⟩ := machine.fire_cases hf
  have hs : step a c.shared l = some (sh', l') := hs
  have hc : sh'.commitPos.closed = true := hc
  cases a with
  | call op =>
    simp only [step] at hs
    split at hs
    · obtain ⟨pc, _, hr⟩ := Option.map_eq_some_iff.mp hs
      cases hr
      cases op with
      | closeForWrite => exact .inr rfl
      | write index byte =>
        simp only [access] at hc
        split at hc <;> exact .inl hc
      | transfer t | commit count | consume count | closeForRead => exact .inl hc
    · cases hs
  | run =>
    left
    simp only [step] at hs
    split at hs
    · cases hs
      exact hc
    · obtain ⟨⟨s, pc', region'⟩, he, hr⟩ := Option.map_eq_some_iff.mp hs
      cases hr
      rwa [exec_closed he] at hc
  | woken v =>
    left
    simp only [step] at hs
    repeat' split at hs
    all_goals first
      | (cases hs; done)
      | (cases hs; exact hc)

structure EndInv (capacity : Nat) (past : List (Nat × Act)) (c : Conf Shared Local) : Prop where
  inv : Inv capacity c.shared c.locals
  closer : c.shared.commitPos.closed = true → (0, .call .closeForWrite) ∈ past
  consumer : ∀ l, c.locals[1]? = some l → EndOk c.shared (lastFetch past) l.pc

theorem side_of_index (h : ls.map Local.side = [.producer, .consumer]) {i : Nat} {l : Local}
    (hi : ls[i]? = some l) :
    (i = 0 ∧ l.side = .producer) ∨ (i = 1 ∧ l.side = .consumer) := by
  have hside : ([.producer, .consumer] : List Side)[i]? = some l.side := by
    rw [← h, List.getElem?_map, hi]
    rfl
  match i, hside with
  | 0, hside => exact .inl ⟨rfl, (Option.some.inj hside).symm⟩
  | 1, hside => exact .inr ⟨rfl, (Option.some.inj hside).symm⟩

theorem endInv_fire {capacity i : Nat} {a : Act} {past : List (Nat × Act)}
    {c c' : Conf Shared Local} (inv : EndInv capacity past c)
    (hp : commitsThenCloses c i a = true) (hf : machine.fire i a c = some c') :
    EndInv capacity (past ++ [(i, a)]) c' := by
  have hinv := inv_fire inv.inv hf
  have hcloser : c'.shared.commitPos.closed = true →
      (0, .call .closeForWrite) ∈ past ++ [(i, a)] := by
    intro hc
    rcases closed_fire hf hc with hc | rfl
    · exact List.mem_append_left _ (inv.closer hc)
    · have hi : i = 0 := by
        unfold commitsThenCloses at hp
        rw [Bool.and_eq_true] at hp
        simpa using hp.1
      simp [hi]
  obtain ⟨l, sh', l', hi, hadm, hs, rfl⟩ := machine.fire_cases hf
  have hok := inv.inv.ok l (List.mem_of_getElem? hi)
  refine ⟨hinv, hcloser, ?_⟩
  intro k hk
  rcases side_of_index inv.inv.sides hi with ⟨rfl, hside⟩ | ⟨rfl, hside⟩
  · -- the producer moved
    rw [List.getElem?_set_ne (by decide)] at hk
    have hcommit : ∀ count buffer, l.pc = .commitAdd count buffer →
        c.shared.commitPos.closed = false := by
      intro count buffer hpc
      unfold commitsThenCloses at hp
      rw [Bool.and_eq_true, hi, Option.map_some, hpc] at hp
      simpa using hp.2
    rw [lastFetch_concat]
    exact endOk_stays (step_stays hside hok hadm hs hcommit) (inv.consumer k hk)
  · rcases set_cases hk with ⟨_, rfl⟩ | ⟨hne, _⟩
    · rw [hside] at hok
      exact endOk_step hside hok (inv.consumer l hi) hadm hs
    · exact absurd rfl hne

/-- **End of stream means no more data.** In every run in which the producer closes for write
    after its last commit: where `fetch_at_least(n)` has come back with `kEndOfStream`, the
    producer has closed for write and fewer than `n` committed bytes are not consumed yet. -/
theorem end_of_stream_only_at_end (capacity : Nat) (mem : Nat → UInt8) (c₀ c : Conf Shared Local)
    (sched : List (Nat × Act)) (l : Local) (h₀ : construct capacity mem = some c₀)
    (hr : machine.runWhere commitsThenCloses sched c₀ = some c) (hl : c.locals[1]? = some l)
    (hend : l.pc = .finish (.status .kEndOfStream)) :
    ∃ n, lastFetch sched = some n ∧ 0 ≤ n ∧ n ≤ capacity ∧
      (0, .call .closeForWrite) ∈ sched ∧ c.shared.commitPos.closed = true ∧
      (c.shared.committed.length : Int) - c.shared.consumed.length < n := by
  have hstart : EndInv capacity [] c₀ := by
    refine ⟨inv_reachable h₀ ⟨[], rfl⟩, ?_, ?_⟩
    · unfold construct at h₀
      split at h₀ <;> cases h₀
      nofun
    · unfold construct at h₀
      split at h₀ <;> cases h₀
      intro k hk
      cases hk
      trivial
  have hinv : EndInv capacity ([] ++ sched) c :=
    machine.history_runWhere (fun past c i a c' => endInv_fire) hstart hr
  rw [List.nil_append] at hinv
  have hok := hinv.consumer l hl
  rw [hend] at hok
  obtain ⟨n, hn, hclosed, h0, hcap, hlt⟩ := hok
  have st := hinv.inv.stream
  have hcon := st.consume
  have hord := st.order
  have hlen := st.length
  have hout := congrArg List.length st.out
  rw [List.length_take] at hout
  refine ⟨n, hn, h0, hinv.inv.fixed ▸ hcap, hinv.closer hclosed, hclosed, ?_⟩
  omega

/-- The tail is committed and the stream closed between the consumer's two reads of the commit
    position: the fetch for two bytes gets them, and the next one the end of the stream. -/
def lateCommit : List (Nat × Act) :=
  [(1, Act.call (.transfer (.fetchAtLeast 2))), (1, Act.run), (1, Act.run),
    (0, Act.call (.commit 2)), (0, Act.run), (0, Act.run), (0, Act.call .closeForWrite),
    (0, Act.run)] ++ List.replicate 6 (1, Act.run) ++
    [(1, Act.call (.consume 2)), (1, Act.run), (1, Act.run),
      (1, Act.call (.transfer (.fetchAtLeast 1)))] ++
    List.replicate 4 (1, Act.run)

theorem end_of_stream_only_at_end_lateCommit :
    ∃ c₀ c, construct 4 (fun _ => 0) = some c₀ ∧
      machine.runWhere commitsThenCloses lateCommit c₀ = some c ∧
      (∃ l, c.locals[1]? = some l ∧ l.pc = .finish (.status .kEndOfStream)) ∧
      c.shared.committed.length = 2 ∧ c.shared.consumed.length = 2 := by
  obtain ⟨c₀, h₀⟩ : ∃ c₀, construct 4 (fun _ => 0) = some c₀ := ⟨_, rfl⟩
  have hrun : ((construct 4 (fun _ => 0)).bind
      (machine.runWhere commitsThenCloses lateCommit)).map
      (fun c => (c.locals[1]?.map Local.pc, c.shared.committed.length)) =
      some (some (.finish (.status .kEndOfStream)), 2) := by
    decide
  rw [h₀, Option.bind_some] at hrun
  obtain ⟨c, hc, hview⟩ := Option.map_eq_some_iff.mp hrun
  rw [Prod.mk.injEq] at hview
  obtain ⟨l, hl, hpc⟩ := Option.map_eq_some_iff.mp hview.1
  obtain ⟨n, hn, _, _, _, _, hlt⟩ :=
    end_of_stream_only_at_end 4 (fun _ => 0) c₀ c lateCommit l h₀ hc hl hpc
  have hn1 : n = 1 := by
    have hlast : lastFetch lateCommit = some 1 := by decide
    rw [hlast] at hn
    exact (Option.some.inj hn).symm
  have hreach : machine.ReachableWhere commitsThenCloses c₀ c := ⟨_, hc⟩
  have hle := congrArg List.length (inv_reachable h₀ hreach.reachable).stream.out
  rw [List.length_take] at hle
  exact ⟨c₀, c, h₀, hc, ⟨l, hl, hpc⟩, hview.2, by omega⟩

end Batt.StreamBuffer
