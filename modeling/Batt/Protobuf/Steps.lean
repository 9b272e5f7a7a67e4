/-
  A zero-copy stream stays exact.

  Every step of a thread is an `Advance`: the `StreamBuffer` keeps its invariant, and so does the
  stream object of the thread. The other side's is left alone by `streamOk_frame`.
-/
import Batt.Protobuf.Streams

namespace Batt.Protobuf

open Interleave CellRing StreamBuffer

/-! ## Steps of a thread -/

variable {sh sh' : Shared} {z z' : ZeroCopy} {io io' : Local}

/-- Calls of the object that begin, or end at once. -/
theorem begin_ok {ls : List Thread} {l : Thread} {op : Call} {ret : Ret}
    (st : StreamBuffer.Stream sh) (hreg : RegionOk sh l.io.side l.io.region)
    (hl : l.stream = some z) (h : StreamOk sh l.io z) (hpc : z.pc = .returned ret)
    (hadm : admits (.call op) sh ls l = true) (hb : begin sh l.io z op = some (sh', z')) :
    Advance sh sh' l.io ⟨l.io, some z'⟩ := by
  have hstage := h.stage
  simp only [Stage, hpc] at hstage
  have hidle := hstage.1
  have hok : PcOk sh l.io.side l.io.region l.io.pc := by
    rw [hidle]
    trivial
  cases op with
  | next =>
    cases hb
    refine ⟨rfl, stepOk_same st hreg hok, fun _ => rfl, ?_⟩
    intro _ hz
    cases hz
    exact h.move _ z.goal rfl rfl (.inl rfl) ⟨hidle, trivial⟩
  | destroy =>
    cases hb
    refine ⟨rfl, stepOk_same st hreg hok, fun _ => rfl, ?_⟩
    intro _ hz
    cases hz
    exact h.move _ z.goal rfl rfl (.inl rfl) ⟨hidle, trivial⟩
  | skip count =>
    cases hb
    refine ⟨rfl, stepOk_same st hreg hok, fun _ => rfl, ?_⟩
    intro _ hz
    cases hz
    refine h.move _ _ rfl rfl (.inl rfl) ?_
    split
    · exact ⟨hidle, by assumption, by simp only; omega⟩
    · exact ⟨hidle, by simp only; omega⟩
  | backUp count =>
    obtain ⟨z₁, hz₁, hr⟩ := Option.map_eq_some_iff.mp hb
    cases hr
    have h0 : 0 ≤ count := by
      simp only [admits, hl] at hadm
      split at hadm
      · simp only [Bool.and_eq_true, decide_eq_true_eq] at hadm
        exact hadm.1
      · cases hadm
    refine ⟨rfl, stepOk_same st hreg hok, fun _ => rfl, ?_⟩
    intro _ hz
    cases hz
    exact backUp_ok h hidle h0 hz₁
  | write index byte =>
    cases hb
    have hc : l.io.side = .producer ∧ (index : Int) < z.n := by
      simpa [admits, hl] using hadm
    have hlen := h.length_page
    have hsize := h.size
    rw [hc.1] at hreg
    have hwrite : StepOk .producer sh (access sh l.io.region (.write index byte)) (.finish .unit)
        l.io.region := write_ok st hreg (by omega)
    refine ⟨rfl, ?_, ?_, ?_⟩
    · rw [hc.1, hidle]
      exact ⟨hwrite.stream, hwrite.handed, trivial, hwrite.frame⟩
    · rw [hc.1]
      intro hside
      cases hside
    · intro _ hz
      cases hz
      exact put_ok st hc.1 hreg hidle h hpc hc.2

theorem adding_of_pending {side : Side} {region : List Cell} {pc : StreamBuffer.Pc}
    (hok : PcOk sh side region pc) (h : pending pc ≠ 0) :
    pc = adding side (pending pc) ∧ 0 ≤ pending pc := by
  unfold pending at h
  split at h
  · obtain ⟨rfl, h0, _⟩ := hok
    exact ⟨rfl, h0⟩
  · obtain ⟨rfl, h0, _⟩ := hok
    exact ⟨rfl, h0⟩
  · exact absurd rfl h

/-- A step inside `consume` or `commit`. -/
theorem releasing_ok {purpose : Purpose} (st : StreamBuffer.Stream sh)
    (hreg : RegionOk sh io.side io.region) (hok : PcOk sh io.side io.region io.pc)
    (h : StreamOk sh io z) (hpc : z.pc = .releasing purpose)
    (hs : StreamBuffer.step .run sh io = some (sh', io')) :
    Advance sh sh' io ⟨io', some (if io'.pc = .idle then z.released purpose else z)⟩ := by
  have hstage := h.stage
  simp only [Stage, hpc] at hstage
  obtain ⟨hpend, hn, htoward⟩ := hstage
  have hsize := h.size
  have hpage : z.page = [] := List.eq_nil_of_length_eq_zero (by omega)
  have hadm : StreamBuffer.admits .run sh [] io = true := rfl
  obtain ⟨hside, hstep⟩ := step_ok st hreg hok hadm hs
  rcases hpend with hpend | hpend
  · obtain ⟨hadding, h0⟩ := adding_of_pending hok hpend
    obtain ⟨hunit, hcommitted, hz⟩ := adding_step hadding h0 hpage h st
      (fun io' hio' => by simp only [Stage, hpc]; exact ⟨.inr hio', hn, htoward⟩) hs
    refine ⟨hside, hstep, hcommitted, ?_⟩
    rw [if_neg (by simp [hunit])]
    rintro _ ⟨⟩
    exact hz
  · simp only [StreamBuffer.step, hpend] at hs
    cases hs
    refine ⟨hside, hstep, fun _ => rfl, ?_⟩
    rw [if_pos rfl]
    rintro _ ⟨⟩
    exact h.released (by rw [hpend]; rfl) rfl rfl rfl hn htoward

/-- A step inside `fetch_at_least` or `prepare_at_least`. -/
theorem pulling_ok {purpose : Purpose} (st : StreamBuffer.Stream sh)
    (hreg : RegionOk sh io.side io.region) (hok : PcOk sh io.side io.region io.pc)
    (h : StreamOk sh io z) (hpc : z.pc = .pulling purpose)
    (hs : StreamBuffer.step .run sh io = some (sh', io'))
    (hz : match io.pc with
      | .finish ret => z.pulled sh.mem purpose ret = some z'
      | _ => z' = z) :
    Advance sh sh' io ⟨io', some z'⟩ := by
  have hstage := h.stage
  simp only [Stage, hpc] at hstage
  obtain ⟨htr, hn, htoward⟩ := hstage
  have hsize := h.size
  have hpage : z.page = [] := List.eq_nil_of_length_eq_zero (by omega)
  have hadm : StreamBuffer.admits .run sh [] io = true := rfl
  obtain ⟨hside, hstep⟩ := step_ok st hreg hok hadm hs
  obtain ⟨rfl, _, ⟨ret, hret, rfl⟩ | ⟨hnot, htr'⟩⟩ := transfers_run htr hs
  · rw [hret] at hz
    refine ⟨hside, hstep, fun _ => rfl, ?_⟩
    rintro _ ⟨⟩
    exact pulled_ok h hpc hret hok hz
  · have hsame : z' = z := by
      split at hz
      · rename_i ret hret
        exact absurd hret (hnot ret)
      · exact hz
    refine ⟨hside, hstep, fun _ => rfl, ?_⟩
    rintro _ ⟨⟩
    subst hsame
    have hpend : pending io'.pc = pending io.pc := by
      rw [pending_of_transfers htr', pending_of_transfers htr]
    refine h.move z'.pc z'.goal hside hpend (.inr hpage) ?_
    simp only [Stage, hpc, hside]
    exact ⟨htr', hn, htoward⟩

theorem exec_ok (st : StreamBuffer.Stream sh) (hreg : RegionOk sh io.side io.region)
    (hok : PcOk sh io.side io.region io.pc) (h : StreamOk sh io z)
    (he : exec sh io z = some (sh', io', z')) :
    Advance sh sh' io ⟨io', some z'⟩ := by
  have hstage := h.stage
  unfold exec at he
  split at he
  · rename_i purpose hpc
    simp only [Stage, hpc] at hstage
    obtain ⟨hidle, htoward⟩ := hstage
    split at he
    · rename_i hn
      rw [step_hand hidle] at he
      cases he
      exact release_ok st hreg h hpc hn
    · cases he
      have hsize := h.size
      have hn : z.n = 0 := by omega
      refine ⟨rfl, stepOk_same st hreg hok, fun _ => rfl, ?_⟩
      rintro _ ⟨⟩
      exact h.released (by rw [hidle]; rfl) rfl rfl hidle hn htoward
  · rename_i purpose hpc
    obtain ⟨r, hs, hr⟩ := Option.map_eq_some_iff.mp he
    cases hr
    exact releasing_ok st hreg hok h hpc hs
  · rename_i purpose hpc
    simp only [Stage, hpc] at hstage
    obtain ⟨hidle, hn, htoward⟩ := hstage
    obtain ⟨r, hs, hr⟩ := Option.map_eq_some_iff.mp he
    cases hr
    have hstart : r = (sh, { io with pc := .minTarget (atLeastOne io.side) }) := by
      simp only [StreamBuffer.step, if_pos hidle] at hs
      cases hside : io.side <;> rw [hside] at hs <;> exact (Option.some.inj hs).symm
    have hadm : StreamBuffer.admits (.call (.transfer (atLeastOne io.side))) sh [] io = true := by
      cases hside : io.side <;> simp [StreamBuffer.admits, atLeastOne, hside, Transfer.side] <;> decide
    obtain ⟨hside, hstep⟩ := step_ok st hreg hok hadm hs
    cases hstart
    refine ⟨hside, hstep, fun _ => rfl, ?_⟩
    rintro _ ⟨⟩
    exact h.move _ z.goal rfl (by rw [hidle]; rfl) (.inl rfl) ⟨rfl, hn, htoward⟩
  · rename_i purpose hpc
    obtain ⟨r, hs, hr⟩ := Option.bind_eq_some_iff.mp he
    split at hr
    · rename_i ret hret
      obtain ⟨z₁, hz, hr⟩ := Option.map_eq_some_iff.mp hr
      cases hr
      exact pulling_ok st hreg hok h hpc hs (by rw [hret]; exact hz)
    · rename_i hnot
      cases hr
      refine pulling_ok st hreg hok h hpc hs ?_
      split
      · rename_i ret hret
        exact absurd hret (hnot ret)
      · rfl
  · cases he
  · cases he

/-- While a stream object waits for nothing, its thread is not woken. -/
theorem woken_ok {v : Int} (st : StreamBuffer.Stream sh) (hreg : RegionOk sh io.side io.region)
    (hok : PcOk sh io.side io.region io.pc) (h : StreamOk sh io z)
    (hs : StreamBuffer.step (.woken v) sh io = some (sh', io')) :
    Advance sh sh' io ⟨io', some z⟩ := by
  have hadm : StreamBuffer.admits (.woken v) sh [] io = true := rfl
  obtain ⟨hside, hstep⟩ := step_ok st hreg hok hadm hs
  have hstage := h.stage
  have hpulling : ∃ purpose, z.pc = .pulling purpose := by
    unfold Stage at hstage
    split at hstage
    case h_5 => exact ⟨_, by assumption⟩
    case h_3 =>
      rcases hstage.1 with hpend | hunit
      · obtain ⟨hadding, _⟩ := adding_of_pending hok hpend
        generalize pending io.pc = n at hadding
        cases hio : io.side <;> rw [hio] at hadding <;>
          simp only [StreamBuffer.step, hadding, adding] at hs <;> cases hs
      · simp only [StreamBuffer.step, hunit] at hs
        cases hs
    all_goals
      simp only [StreamBuffer.step, hstage.1] at hs
      cases hs
  obtain ⟨purpose, hpc⟩ := hpulling
  simp only [Stage, hpc] at hstage
  obtain ⟨htr, hn, htoward⟩ := hstage
  have hwoken : sh' = sh ∧ io'.region = io.region ∧ Transfers (atLeastOne io.side) io'.pc := by
    simp only [StreamBuffer.step] at hs
    split at hs
    · rename_i t target hio
      rw [hio] at htr
      split at hs <;> cases hs
      refine ⟨rfl, rfl, ?_⟩
      simp only
      split <;> exact htr
    · rename_i t hio
      rw [hio] at htr
      exact htr.elim
    · cases hs
  obtain ⟨rfl, hregion, htr'⟩ := hwoken
  refine ⟨hside, hstep, fun _ => rfl, ?_⟩
  rintro _ ⟨⟩
  refine h.move z.pc z.goal hside ?_ (.inl hregion) ?_
  · rw [pending_of_transfers htr', pending_of_transfers htr]
  · simp only [Stage, hpc, hside]
    exact ⟨htr', hn, htoward⟩

/-- The constructor. -/
theorem construct_ok (st : StreamBuffer.Stream sh) (hidle : io.pc = .idle) :
    StreamOk sh io (.construct (sh.fixedPos io.side).value) := by
  have hcon := st.consume
  have hord := st.order
  have hlen := st.length
  refine ⟨?_, Int.le_refl _, ?_, rfl, rfl, rfl, ?_, hidle, trivial⟩
  · cases hside : io.side <;> simp only [ZeroCopy.construct, Shared.fixedPos] <;> omega
  · simp [ZeroCopy.construct, hidle, pending]
  · unfold Passed
    cases hside : io.side with
    | consumer => exact List.nil_prefix
    | producer =>
      simp only [ZeroCopy.construct, Shared.fixedPos, hidle, pending, Int.toNat_zero, slots_zero,
        List.map_nil, List.append_nil]
      rw [List.drop_eq_nil_iff]
      omega

theorem step_advance {a : Act} {ls : List Thread} {l l' : Thread} (st : StreamBuffer.Stream sh)
    (hreg : RegionOk sh l.io.side l.io.region) (hok : PcOk sh l.io.side l.io.region l.io.pc)
    (h : ∀ z, l.stream = some z → StreamOk sh l.io z) (hadm : admits a sh ls l = true)
    (hs : step a sh l = some (sh', l')) : Advance sh sh' l.io l' := by
  cases a with
  | raw a =>
    simp only [step] at hs
    split at hs
    · rename_i hnone
      obtain ⟨r, hstep, hr⟩ := Option.map_eq_some_iff.mp hs
      cases hr
      obtain ⟨hside, hstepOk⟩ := step_ok st hreg hok hadm hstep
      refine ⟨hside, hstepOk, fun hc => committed_step hok hc hstep, ?_⟩
      intro z hz
      rw [hnone] at hz
      cases hz
    · cases hs
  | construct =>
    simp only [step] at hs
    split at hs
    · split at hs <;> cases hs
      refine ⟨rfl, stepOk_same st hreg hok, fun _ => rfl, ?_⟩
      rintro _ ⟨⟩
      exact construct_ok st (by assumption)
    · cases hs
  | call op =>
    simp only [step] at hs
    split at hs
    · rename_i z hz
      split at hs
      · rename_i ret hpc
        obtain ⟨r, hb, hr⟩ := Option.map_eq_some_iff.mp hs
        cases hr
        exact begin_ok st hreg hz (h z hz) hpc hadm hb
      · cases hs
    · cases hs
  | run =>
    simp only [step] at hs
    split at hs
    · rename_i z hz
      obtain ⟨r, he, hr⟩ := Option.map_eq_some_iff.mp hs
      cases hr
      exact exec_ok st hreg hok (h z hz) he
    · cases hs
  | woken v =>
    simp only [step] at hs
    split at hs
    · rename_i z hz
      obtain ⟨r, hstep, hr⟩ := Option.map_eq_some_iff.mp hs
      cases hr
      exact woken_ok st hreg hok (h z hz) hstep
    · cases hs
  | leave =>
    simp only [step] at hs
    split at hs
    · split at hs <;> cases hs
      refine ⟨rfl, stepOk_same st hreg hok, fun _ => rfl, ?_⟩
      rintro _ ⟨⟩
    · cases hs

/-! ## The invariant of every run -/

structure Inv (capacity : Nat) (sh : Shared) (ls : List Thread) : Prop where
  io : StreamBuffer.Inv capacity sh (ls.map Thread.io)
  stream : ∀ l ∈ ls, ∀ z, l.stream = some z → StreamOk sh l.io z

theorem inv_fire {capacity i : Nat} {a : Act} {c c' : Conf Shared Thread}
    (inv : Inv capacity c.shared c.locals) (hf : machine.fire i a c = some c') :
    Inv capacity c'.shared c'.locals := by
  obtain ⟨l, sh', l', hi, hadm, hs, rfl⟩ := machine.fire_cases hf
  have hmem := List.mem_of_getElem? hi
  have hio := List.mem_map_of_mem (f := Thread.io) hmem
  have hadv := step_advance inv.io.stream (inv.io.region _ hio) (inv.io.ok _ hio) (inv.stream l hmem)
    hadm hs
  have hget : (c.locals.map Thread.io)[i]? = some l.io := by
    rw [List.getElem?_map, hi]
    rfl
  have hinv := inv_set inv.io hget hadv.side hadv.step
  rw [← List.map_set] at hinv
  refine ⟨hinv, forall_set hadv.ok ?_⟩
  intro j k hne hj z hz
  have hgetk : (c.locals.map Thread.io)[j]? = some k.io := by
    rw [List.getElem?_map, hj]
    rfl
  have hkmem := List.mem_of_getElem? hj
  exact streamOk_frame hadv.step.frame hadv.committed (other_side inv.io.sides hne hget hgetk)
    inv.io.stream hadv.step.stream (inv.io.region _ (List.mem_map_of_mem hkmem))
    (inv.stream k hkmem z hz)

theorem inv_reachable {capacity : Nat} {mem : Nat → UInt8} {c₀ c : Conf Shared Thread}
    (h₀ : construct capacity mem = some c₀) (hr : machine.Reachable c₀ c) :
    Inv capacity c.shared c.locals := by
  refine machine.invariant (I := fun c => Inv capacity c.shared c.locals) ?_ ?_ hr
  · intro c i a c' inv hf
    exact inv_fire inv hf
  · obtain ⟨c₁, h₁, rfl⟩ := Option.map_eq_some_iff.mp h₀
    refine ⟨?_, ?_⟩
    · rw [List.map_map]
      exact (List.map_id c₁.locals).symm ▸ inv_construct h₁
    · intro l hl z hz
      obtain ⟨io, _, rfl⟩ := List.mem_map.mp hl
      cases hz

end Batt.Protobuf
