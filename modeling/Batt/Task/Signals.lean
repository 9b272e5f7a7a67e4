/-
  kNeedSignal and kHaveSignal.

  All awaits of a task share the one pair of bits, and an activation clears both. `Signal` is what a
  step does to them, to the calls of `await_impl` and to the threads that invoke a continuation.

  As long as no await begins inside the function of another one whose signal is still to come
  (`awaitsSettled`), the bits speak of the innermost await: kNeedSignal alone while its continuation
  has not signalled, both or none afterwards (`Inner`). Every other await has its result already.
-/
import Batt.Task.Base

namespace Batt.Task

open Interleave

/-! ## What a step does to the signals -/

def Pc.emplaces : Pc → Bool
  | .emplace _ => true
  | _ => false

def Pc.signals : Pc → Bool
  | .haveSignal => true
  | _ => false

section

variable (sh : Shared)

inductive Signal : Pc → Shared → Pc → Prop where
  | quiet {pc pc' : Pc} {sh' : Shared} (frames : sh'.frames = sh.frames)
      (needs : sh'.state.needSignal = sh.state.needSignal)
      (haves : sh'.state.haveSignal = sh.state.haveSignal)
      (same : pc' = pc ∨ pc'.emplaces = false ∧ pc'.signals = false ∧ pc.emplaces = false ∧
        pc.signals = false) : Signal pc sh' pc'
  | register (tracing : Bool) (id : Nat) (held : sh.hasContinuation id .held = true) :
      Signal (.inside tracing) (sh.setContinuation id .registered) (.inside tracing)
  | need (tracing sleeping : Bool) {sh' : Shared} (context : sh.context = .need sleeping)
      (after : sh'.context = .user) (quiet : sh.state.haveSignal = false)
      (frames : sh'.frames = ⟨sh.awaits, sleeping, .held⟩ :: sh.frames)
      (needs : sh'.state.needSignal = true)
      (haves : sh'.state.haveSignal = sh.state.haveSignal) :
      Signal (.inside tracing) sh' (.inside tracing)
  | result (tracing : Bool) (f : Frame) {sh' : Shared} (context : sh.context = .result)
      (frames : sh.frames = f :: sh'.frames) (invoked : f.continuation = .invoked)
      (state : sh'.state = sh.state) : Signal (.inside tracing) sh' (.inside tracing)
  | invoke (id : Nat) (registered : sh.hasContinuation id .registered = true) :
      Signal .idle (sh.setContinuation id .taken) (.emplace id)
  | emplace (id : Nat) : Signal (.emplace id) (sh.setContinuation id .invoked) .haveSignal
  | signal {pc' : Pc} {sh' : Shared} (frames : sh'.frames = sh.frames)
      (needs : sh'.state.needSignal = sh.state.needSignal)
      (haves : sh'.state.haveSignal = true)
      (leaves : pc'.emplaces = false ∧ pc'.signals = false) : Signal .haveSignal sh' pc'
  | ctor {pc' : Pc} {sh' : Shared} (frames : sh'.frames = sh.frames)
      (context : sh'.context = sh.context)
      (leaves : pc'.emplaces = false ∧ pc'.signals = false) : Signal .ctor sh' pc'
  | activate (forcePost : Bool) {sh' : Shared} (ready : isReadyState sh.state = true)
      (frames : sh'.frames = sh.frames) (needs : sh'.state.needSignal = false)
      (haves : sh'.state.haveSignal = false) : Signal (.schedule sh.state forcePost) sh' .pending

end

section

variable {sh sh' : Shared} {pc pc' : Pc} {a : Act}

theorem signal_task {tracing : Bool} (h : TaskStep sh a sh') :
    Signal sh (.inside tracing) sh' (.inside tracing) := by
  cases h with
  | register id context held => exact .register tracing id held
  | need sleeping context quiet => exact .need tracing sleeping context rfl quiet rfl rfl rfl
  | result f rest context frames invoked => exact .result tracing f context frames invoked rfl
  | _ => exact .quiet rfl rfl rfl (.inl rfl)

theorem signal_trans (h : Trans sh a pc sh' pc') : Signal sh pc sh' pc' := by
  cases h with
  | reload loop observed isLoop =>
    cases isLoop <;> exact .quiet rfl rfl rfl (.inr ⟨rfl, rfl, rfl, rfl⟩)
  | task tracing step => exact signal_task step
  | out step | traced step =>
    obtain ⟨_, _, hneed, hhave⟩ := outStep_keeps step
    refine .quiet ?_ hneed hhave (.inr ⟨rfl, rfl, rfl, rfl⟩)
    cases step <;> rfl
  | invoke id registered => exact .invoke id registered
  | emplace id => exact .emplace id
  | ready event | done event | rests event =>
    cases event with
    | ctor => exact .ctor rfl rfl ⟨rfl, rfl⟩
    | haveSignal => exact .signal rfl rfl rfl ⟨rfl, rfl⟩
    | suspended => exact .quiet rfl rfl rfl (.inr ⟨rfl, rfl, rfl, rfl⟩)
  | activate forcePost ready => exact .activate forcePost ready rfl rfl rfl
  | panic | wait => exact .quiet rfl rfl rfl (.inl rfl)
  | _ => exact .quiet rfl rfl rfl (.inr ⟨rfl, rfl, rfl, rfl⟩)

end

/-! ## The invariant -/

/-- The bits against the continuation of the innermost await: `e` threads are about to store its
    result, `g` threads are about to signal that it is there. -/
def Waiting (needs haves : Bool) (e g : Nat) : Continuation → Prop
  | .held | .registered => needs = true ∧ haves = false ∧ e = 0 ∧ g = 0
  | .taken => needs = true ∧ haves = false ∧ e = 1 ∧ g = 0
  | .invoked => e = 0 ∧ (g = 1 ∧ needs = true ∧ haves = false ∨ g = 0 ∧ needs = haves)

def Inner (context : Context) (needs haves : Bool) (e g : Nat) : List Frame → Prop
  | [] => e = 0 ∧ g = 0 ∧ (context ≠ .start → needs = false ∧ haves = false)
  | f :: _ => Waiting needs haves e g f.continuation

structure SignalInv (c : Conf Shared Pc) : Prop where
  inner : Inner c.shared.context c.shared.state.needSignal c.shared.state.haveSignal
    (total (ind Pc.emplaces) c.locals) (total (ind Pc.signals) c.locals) c.shared.frames
  outer : ∀ f ∈ c.shared.frames.tail, f.continuation = .invoked
  ids : ∀ id, .emplace id ∈ c.locals → ∃ f rest, c.shared.frames = f :: rest ∧ f.id = id
  settled : c.shared.context = .sleepLock ∨ (∃ sleeping, c.shared.context = .need sleeping) →
    (∀ f ∈ c.shared.frames, f.continuation = .invoked) ∧
      c.shared.state.needSignal = c.shared.state.haveSignal
  enters : ∀ pc ∈ c.locals, pc.enters = true →
    c.shared.state.needSignal = false ∧ c.shared.state.haveSignal = false
  resumed : .inside false ∈ c.locals →
    (∃ k, c.shared.context = .resumed k) ∨ c.shared.context = .result →
    c.shared.state.needSignal = false ∧ c.shared.state.haveSignal = false

/-- An await or a sleep begins outside of all awaits, or where each await around it has been
    invoked and the task has no signal to wait for or to take in. -/
def awaitsSettled (c : Conf Shared Pc) (_ : Nat) (a : Act) : Bool :=
  !(a = .await || a = .sleep) || c.shared.frames.isEmpty ||
    (c.shared.state.needSignal == c.shared.state.haveSignal &&
      c.shared.frames.all fun f => f.continuation = .invoked)

section

variable {ctx ctx' : Context} {frames : List Frame} {f : Frame} {rest : List Frame}
  {needs haves : Bool} {e g : Nat} {k : Continuation}

/-- While a thread is about to signal, the task waits for it. -/
theorem Waiting.waits (h : Waiting needs haves e g k) (hpos : 0 < e + g) :
    needs = true ∧ haves = false ∧ e + g = 1 := by
  cases k with
  | held | registered =>
    obtain ⟨_, _, rfl, rfl⟩ := h
    cases hpos
  | taken =>
    obtain ⟨hn, hh, rfl, rfl⟩ := h
    exact ⟨hn, hh, rfl⟩
  | invoked =>
    obtain ⟨rfl, ⟨rfl, hn, hh⟩ | ⟨rfl, _⟩⟩ := h
    · exact ⟨hn, hh, rfl⟩
    · cases hpos

/-- When the bits are equal, the innermost await has its signal. -/
theorem Waiting.equal (h : Waiting needs haves e g k) (heq : needs = haves) :
    k = .invoked ∧ e = 0 ∧ g = 0 := by
  subst heq
  cases k with
  | held | registered | taken =>
    obtain ⟨hn, hh, _⟩ := h
    rw [hn] at hh
    cases hh
  | invoked =>
    obtain ⟨rfl, ⟨_, hn, hh⟩ | ⟨rfl, _⟩⟩ := h
    · rw [hn] at hh
      cases hh
    · exact ⟨rfl, rfl, rfl⟩

theorem Waiting.emplaced (h : Waiting needs haves e g k) (hpos : 0 < e) :
    Waiting needs haves 0 1 .invoked ∧ e = 1 ∧ g = 0 := by
  obtain ⟨hn, hh, hone⟩ := h.waits (by omega)
  exact ⟨⟨rfl, .inl ⟨rfl, hn, hh⟩⟩, by omega, by omega⟩

theorem Waiting.signalled (h : Waiting needs haves e g k) (hpos : 0 < g) :
    Waiting needs true 0 0 k ∧ e = 0 ∧ g = 1 := by
  obtain ⟨hn, _, hone⟩ := h.waits (by omega)
  cases k with
  | held | registered | taken =>
    obtain ⟨_, _, _, rfl⟩ := h
    cases hpos
  | invoked => exact ⟨⟨rfl, .inr ⟨rfl, hn⟩⟩, by omega, by omega⟩

theorem Inner.waits (h : Inner ctx needs haves e g frames) (hpos : 0 < e + g) :
    ∃ f rest, frames = f :: rest ∧ needs = true ∧ haves = false ∧ e + g = 1 := by
  cases frames with
  | nil =>
    obtain ⟨rfl, rfl, _⟩ := h
    cases hpos
  | cons f rest => exact ⟨f, rest, rfl, Waiting.waits h hpos⟩

theorem Inner.equal (h : Inner ctx needs haves e g frames) (heq : needs = haves) :
    e = 0 ∧ g = 0 ∧ ∀ f rest, frames = f :: rest → f.continuation = .invoked := by
  cases frames with
  | nil => exact ⟨h.1, h.2.1, nofun⟩
  | cons f rest =>
    obtain ⟨hk, he, hg⟩ := Waiting.equal h heq
    refine ⟨he, hg, ?_⟩
    rintro _ _ ⟨rfl, rfl⟩
    exact hk

/-- The place of the task matters to the bits before its first activation only. -/
theorem Inner.moves (h : Inner ctx needs haves e g frames)
    (hstart : ctx' ≠ .start → ctx = .start → needs = false ∧ haves = false) :
    Inner ctx' needs haves e g frames := by
  cases frames with
  | nil =>
    obtain ⟨he, hg, hbits⟩ := h
    refine ⟨he, hg, fun hc' => ?_⟩
    by_cases hc : ctx = .start
    · exact hstart hc' hc
    · exact hbits hc
  | cons f rest => exact h

/-- With both bits clear all awaits have their results. -/
theorem Inner.of_clear (hf : ∀ f rest, frames = f :: rest → f.continuation = .invoked) :
    Inner ctx false false 0 0 frames := by
  cases frames with
  | nil => exact ⟨rfl, rfl, fun _ => ⟨rfl, rfl⟩⟩
  | cons f rest =>
    show Waiting false false 0 0 f.continuation
    rw [hf f rest rfl]
    exact ⟨rfl, .inr ⟨rfl, rfl⟩⟩

end

/-- While a thread is in a continuation after the result was stored, the task waits for it. -/
theorem SignalInv.signalling {c : Conf Shared Pc} (hinv : SignalInv c)
    (hpc : .haveSignal ∈ c.locals) : ∃ f rest, c.shared.frames = f :: rest ∧
      c.shared.state.needSignal = true ∧ c.shared.state.haveSignal = false := by
  have hpos := le_total (ind Pc.signals) hpc
  rw [ind_true rfl] at hpos
  obtain ⟨f, rest, hframes, hn, hh, _⟩ := hinv.inner.waits (by omega)
  exact ⟨f, rest, hframes, hn, hh⟩

/-! ## The continuation of the innermost await -/

section

variable {sh : Shared} {id : Nat} {k : Continuation} {f : Frame} {rest : List Frame}

theorem setContinuation_head (hok : FramesOk sh) (hframes : sh.frames = f :: rest) (hid : f.id = id)
    (k' : Continuation) :
    (sh.setContinuation id k').frames = { f with continuation := k' } :: rest := by
  have hdistinct := hok.distinct
  rw [hframes, List.map_cons, List.nodup_cons] at hdistinct
  show sh.frames.map _ = _
  rw [hframes, List.map_cons, if_pos hid]
  have hrest : ∀ g ∈ rest, (if g.id = id then { g with continuation := k' } else g) = g := by
    intro g hg
    refine if_neg fun hgid => hdistinct.1 ?_
    rw [hid, ← hgid]
    exact List.mem_map_of_mem hg
  rw [List.map_congr_left hrest, List.map_id']

/-- A continuation that was not invoked is that of the innermost await. -/
theorem head_of_hasContinuation (houter : ∀ f ∈ sh.frames.tail, f.continuation = .invoked)
    (h : sh.hasContinuation id k = true) (hk : k ≠ .invoked) :
    ∃ f rest, sh.frames = f :: rest ∧ f.id = id ∧ f.continuation = k := by
  obtain ⟨f, hf, heq⟩ := List.any_eq_true.mp h
  simp only [Bool.and_eq_true, decide_eq_true_eq] at heq
  cases hframes : sh.frames with
  | nil =>
    rw [hframes] at hf
    cases hf
  | cons f₀ rest =>
    rw [hframes] at hf houter
    rcases List.mem_cons.mp hf with rfl | hf
    · exact ⟨f, rest, rfl, heq⟩
    · exact absurd (heq.2.symm.trans (houter f hf)) hk

end

/-! ## Steps -/

section

variable {c : Conf Shared Pc} {i : Nat} {pc pc' : Pc} {sh' : Shared} {a : Act}

/-- The task leaves its start by its first activation. -/
theorem trans_leaves_start (hb : Base c) (hpc : pc ∈ c.locals) (h : Trans c.shared a pc sh' pc')
    (hc : c.shared.context = .start) (hc' : sh'.context ≠ .start) : pc = .runResume := by
  cases h with
  | task tracing step =>
    exact absurd hc (Context.ne_of_isIn (taskStep_isIn step).1).1
  | out step | traced step =>
    exact absurd hc (Context.ne_of_isIn (outStep_isIn step).1).1
  | resume => rfl
  | traceResume => exact absurd hc (hb.traced (hb.stackTrace hpc rfl)).2.1
  | _ => exact absurd hc hc'

theorem inner_trans (hb : Base c) (hok : FramesOk c.shared) (hinv : SignalInv c)
    (hi : c.locals[i]? = some pc) (h : Trans c.shared a pc sh' pc') :
    Inner sh'.context sh'.state.needSignal sh'.state.haveSignal
      (total (ind Pc.emplaces) (c.locals.set i pc')) (total (ind Pc.signals) (c.locals.set i pc'))
      sh'.frames ∧ ∀ f ∈ sh'.frames.tail, f.continuation = .invoked := by
  have hpc := List.mem_of_getElem? hi
  have hinner := hinv.inner
  have houter := hinv.outer
  have heset := total_set (ind Pc.emplaces) pc' hi
  have hgset := total_set (ind Pc.signals) pc' hi
  have hele := le_total (ind Pc.emplaces) hpc
  have hgle := le_total (ind Pc.signals) hpc
  have hstart : sh'.context ≠ .start → c.shared.context = .start →
      c.shared.state.needSignal = false ∧ c.shared.state.haveSignal = false := by
    intro hc' hc
    obtain rfl := trans_leaves_start hb hpc h hc hc'
    exact hinv.enters _ hpc rfl
  cases signal_trans h with
  | quiet frames needs haves same =>
    have htotals : total (ind Pc.emplaces) (c.locals.set i pc') = total (ind Pc.emplaces) c.locals ∧
        total (ind Pc.signals) (c.locals.set i pc') = total (ind Pc.signals) c.locals := by
      rcases same with rfl | ⟨h₁, h₂, h₃, h₄⟩
      · omega
      · rw [ind_false h₁, ind_false h₃] at heset
        rw [ind_false h₂, ind_false h₄] at hgset
        omega
    rw [htotals.1, htotals.2, frames, needs, haves]
    exact ⟨hinner.moves hstart, houter⟩
  | register tracing id held =>
    obtain ⟨f, rest, hframes, hid, hheld⟩ := head_of_hasContinuation houter held nofun
    rw [Nat.add_right_cancel heset, Nat.add_right_cancel hgset, setContinuation_head hok hframes hid]
    rw [hframes] at hinner houter
    refine ⟨?_, houter⟩
    have hwaiting : Waiting _ _ _ _ f.continuation := hinner
    rw [hheld] at hwaiting
    exact hwaiting
  | need tracing sleeping context after quiet frames needs haves =>
    obtain ⟨hall, heq⟩ := hinv.settled (.inr ⟨sleeping, context⟩)
    obtain ⟨he, hg, _⟩ := hinner.equal heq
    rw [Nat.add_right_cancel heset, Nat.add_right_cancel hgset, frames, needs, haves, quiet, he, hg]
    exact ⟨⟨rfl, rfl, rfl, rfl⟩, hall⟩
  | result tracing f context frames invoked state =>
    obtain rfl := hb.activation hpc (by rw [context]; nofun)
    obtain ⟨hn, hh⟩ := hinv.resumed hpc (.inr context)
    obtain ⟨he, hg, _⟩ := hinner.equal (hn.trans hh.symm)
    rw [frames] at houter
    rw [Nat.add_right_cancel heset, Nat.add_right_cancel hgset, state, hn, hh, he, hg]
    refine ⟨Inner.of_clear fun f' rest hrest => houter f' ?_, fun f' hf' => houter f' ?_⟩
    · rw [List.tail_cons, hrest]
      exact List.mem_cons_self
    · exact List.mem_of_mem_tail hf'
  | invoke id registered =>
    obtain ⟨f, rest, hframes, hid, hreg⟩ := head_of_hasContinuation houter registered nofun
    rw [setContinuation_head hok hframes hid]
    rw [hframes] at hinner houter
    refine ⟨?_, houter⟩
    have hwaiting : Waiting _ _ _ _ f.continuation := hinner
    rw [hreg] at hwaiting
    obtain ⟨hn, hh, he, hg⟩ := hwaiting
    change _ + 0 = _ + 1 at heset
    rw [he] at heset
    rw [ind_false rfl, ind_false rfl, hg] at hgset
    exact ⟨hn, hh, heset, hgset⟩
  | emplace id =>
    obtain ⟨f, rest, hframes, hid⟩ := hinv.ids id hpc
    rw [setContinuation_head hok hframes hid]
    rw [hframes] at hinner houter
    rw [ind_true rfl] at hele
    obtain ⟨hwaiting, he, hg⟩ := Waiting.emplaced hinner hele
    rw [ind_true rfl, ind_false rfl, he] at heset
    rw [ind_false rfl, ind_true rfl, hg] at hgset
    refine ⟨?_, houter⟩
    rw [Nat.add_right_cancel heset, show total _ _ = 1 from hgset]
    exact hwaiting
  | signal frames needs haves leaves =>
    rw [ind_true rfl] at hgle
    obtain ⟨f, rest, hframes, _⟩ := hinner.waits (by omega)
    rw [frames, needs, haves]
    rw [hframes] at hinner houter ⊢
    obtain ⟨hwaiting, he, hg⟩ := Waiting.signalled hinner hgle
    rw [ind_false leaves.1, ind_false rfl, he] at heset
    rw [ind_false leaves.2, ind_true rfl, hg] at hgset
    refine ⟨?_, houter⟩
    rw [show total _ _ = 0 from heset, show total _ _ = 0 by omega]
    exact hwaiting
  | ctor frames context leaves =>
    have hc := hb.ctor hpc
    rw [hok.none (.inl hc)] at hinner houter frames
    rw [ind_false leaves.1, ind_false rfl] at heset
    rw [ind_false leaves.2, ind_false rfl] at hgset
    rw [frames]
    exact ⟨⟨heset.trans hinner.1, hgset.trans hinner.2.1, fun hne => absurd (context.trans hc) hne⟩,
      houter⟩
  | activate forcePost ready frames needs haves =>
    obtain ⟨he, hg, hinvoked⟩ := hinner.equal (ready_iff.mp ready).2.2.1
    rw [ind_false rfl, ind_false rfl, he] at heset
    rw [ind_false rfl, ind_false rfl, hg] at hgset
    rw [frames, needs, haves, show total _ _ = 0 from heset, show total _ _ = 0 from hgset]
    exact ⟨Inner.of_clear hinvoked, houter⟩

theorem ids_trans (hinv : SignalInv c) (hi : c.locals[i]? = some pc)
    (h : Trans c.shared a pc sh' pc') :
    ∀ id, .emplace id ∈ c.locals.set i pc' → ∃ f rest, sh'.frames = f :: rest ∧ f.id = id := by
  have hpc := List.mem_of_getElem? hi
  have hset : ∀ id' k', (∃ f rest, c.shared.frames = f :: rest ∧ f.id = id') → ∀ id,
      ∃ f rest, (c.shared.setContinuation id k').frames = f :: rest ∧ f.id = id' := by
    rintro id' k' ⟨f, rest, hframes, rfl⟩ id
    obtain ⟨g, hg, hkeeps⟩ := setContinuation_frames c.shared id k'
    exact ⟨g f, rest.map g, by rw [hg, hframes]; rfl, (hkeeps f).1⟩
  intro id hmem
  obtain ⟨j, hj⟩ := List.mem_iff_getElem?.mp hmem
  rcases set_cases hj with ⟨_, hk⟩ | ⟨hne, hj⟩
  · cases signal_trans h with
    | quiet frames needs haves same =>
      rcases same with rfl | ⟨hemplaces, _⟩
      · rw [frames]
        exact hinv.ids id (hk ▸ hpc)
      · rw [← hk] at hemplaces
        cases hemplaces
    | invoke id' registered =>
      cases hk
      obtain ⟨f, rest, hframes, hid, _⟩ := head_of_hasContinuation hinv.outer registered nofun
      exact hset id .taken ⟨f, rest, hframes, hid⟩ id
    | signal frames needs haves leaves | ctor frames context leaves =>
      rw [← hk] at leaves
      cases leaves.1
    | _ => cases hk
  · have hold := hinv.ids id (List.mem_of_getElem? hj)
    have hpos := le_total (ind Pc.emplaces) (List.mem_of_getElem? hj)
    rw [ind_true rfl] at hpos
    have hinner := hinv.inner
    cases signal_trans h with
    | need tracing sleeping context =>
      obtain ⟨he, _⟩ := hinner.equal (hinv.settled (.inr ⟨sleeping, context⟩)).2
      omega
    | result tracing f context frames invoked =>
      rw [frames] at hinner
      have hwaiting : Waiting _ _ _ _ f.continuation := hinner
      rw [invoked] at hwaiting
      have := hwaiting.1
      omega
    | register tracing id' => exact hset id .registered hold id'
    | invoke id' => exact hset id .taken hold id'
    | emplace id' => exact hset id .invoked hold id'
    | quiet frames | signal frames | ctor frames | activate forcePost ready frames =>
      rw [frames]
      exact hold

/-- While another thread has the run of the task and the bits are clear, they stay so. -/
theorem clear_trans (hb : Base c) (hinv : SignalInv c) (hi : c.locals[i]? = some pc)
    (h : Trans c.shared a pc sh' pc') {j : Nat} {k : Pc} (hne : j ≠ i) (hj : c.locals[j]? = some k)
    (hk : k.holds = true)
    (hclear : c.shared.state.needSignal = false ∧ c.shared.state.haveSignal = false) :
    sh'.state.needSignal = false ∧ sh'.state.haveSignal = false := by
  have hpc := List.mem_of_getElem? hi
  have hone := hb.one
  have htwo := add_le_total (ind Pc.holds) hne.symm hi hj
  rw [ind_true hk] at htwo
  cases signal_trans h with
  | quiet frames needs haves same =>
    rw [needs, haves]
    exact hclear
  | need tracing sleeping context =>
    obtain rfl := hb.activation hpc (by rw [context]; nofun)
    rw [ind_true rfl] at htwo
    omega
  | result tracing f context frames invoked state =>
    rw [state]
    exact hclear
  | signal =>
    obtain ⟨_, _, _, hn, _⟩ := hinv.signalling hpc
    rw [hclear.1] at hn
    cases hn
  | ctor =>
    rw [ind_true rfl] at htwo
    omega
  | activate forcePost ready frames needs haves => exact ⟨needs, haves⟩
  | register | invoke | emplace => exact hclear

theorem Pc.holds_of_enters (h : pc.enters = true) : pc.holds = true := by
  cases pc with
  | pending | runSpin | runResume => rfl
  | _ => cases h

theorem enters_trans (hb : Base c) (hinv : SignalInv c) (hi : c.locals[i]? = some pc)
    (h : Trans c.shared a pc sh' pc') : ∀ k ∈ c.locals.set i pc', k.enters = true →
      sh'.state.needSignal = false ∧ sh'.state.haveSignal = false := by
  have hpc := List.mem_of_getElem? hi
  refine forall_set ?_ fun j k hne hj hk => ?_
  · intro hk
    cases h with
    | panic | wait => exact hinv.enters _ hpc hk
    | reload loop observed isLoop =>
      cases isLoop with
      | runSpin => exact hinv.enters _ hpc rfl
      | _ => cases hk
    | activate => exact ⟨rfl, rfl⟩
    | spins | runs | relocks => exact hinv.enters _ hpc rfl
    | _ => cases hk
  · exact clear_trans hb hinv hi h hne hj (Pc.holds_of_enters hk)
      (hinv.enters k (List.mem_of_getElem? hj) hk)

theorem resumed_trans (hb : Base c) (hinv : SignalInv c) (hi : c.locals[i]? = some pc)
    (h : Trans c.shared a pc sh' pc') (hmem : .inside false ∈ c.locals.set i pc')
    (hc : (∃ k, sh'.context = .resumed k) ∨ sh'.context = .result) :
    sh'.state.needSignal = false ∧ sh'.state.haveSignal = false := by
  have hpc := List.mem_of_getElem? hi
  obtain ⟨j, hj⟩ := List.mem_iff_getElem?.mp hmem
  rcases set_cases hj with ⟨_, hk⟩ | ⟨hne, hj⟩
  · cases h with
    | panic | wait => exact hinv.resumed (hk ▸ hpc) hc
    | reload loop observed isLoop => cases isLoop <;> cases hk
    | task tracing step =>
      cases hk
      cases step with
      | resumes k context free => exact hinv.resumed hpc (.inl ⟨k, context⟩)
      | register id context held =>
        refine hinv.resumed hpc hc
      | result f rest context frames invoked => exact hinv.resumed hpc (.inr context)
      | _ => rcases hc with ⟨k, hc⟩ | hc <;> cases hc
    | resume self => exact hinv.enters _ hpc rfl
    | _ => cases hk
  · rw [context_of_inside hb hi h hne hj rfl] at hc
    exact clear_trans hb hinv hi h hne hj rfl (hinv.resumed (List.mem_of_getElem? hj) hc)

/-- Where the code of the task stands is changed by that code, and by a resume. -/
theorem trans_context {sh : Shared} (h : Trans sh a pc sh' pc') :
    sh'.context = sh.context ∨ TaskStep sh a sh' ∨ OutStep sh sh' ∨
      sh.self = true ∧ sh' = sh.switchIn := by
  cases h with
  | task tracing step => exact .inr (.inl step)
  | out step | traced step => exact .inr (.inr (.inl step))
  | resume self | traceResume self => exact .inr (.inr (.inr ⟨self, rfl⟩))
  | _ => exact .inl rfl

theorem settled_of_cond (hinv : SignalInv c) (hcond : awaitsSettled c i a = true)
    (hact : a = .await ∨ a = .sleep) (hc : c.shared.context = .user) :
    (∀ f ∈ c.shared.frames, f.continuation = .invoked) ∧
      c.shared.state.needSignal = c.shared.state.haveSignal := by
  have hawaits : (a = .await || a = .sleep : Bool) = true := by
    rcases hact with rfl | rfl <;> rfl
  rw [awaitsSettled, hawaits, Bool.not_true, Bool.false_or, Bool.or_eq_true, Bool.and_eq_true]
    at hcond
  rcases hcond with hempty | ⟨heq, hall⟩
  · have hinner := hinv.inner
    rw [List.isEmpty_iff.mp hempty] at hinner ⊢
    obtain ⟨hn, hh⟩ := hinner.2.2 (by rw [hc]; nofun)
    exact ⟨nofun, hn.trans hh.symm⟩
  · exact ⟨fun f hf => of_decide_eq_true (List.all_eq_true.mp hall f hf), eq_of_beq heq⟩

theorem settled_task (hinv : SignalInv c) (step : TaskStep c.shared a sh')
    (hcond : awaitsSettled c i a = true)
    (hc : sh'.context = .sleepLock ∨ ∃ sleeping, sh'.context = .need sleeping) :
    (∀ f ∈ sh'.frames, f.continuation = .invoked) ∧
      sh'.state.needSignal = sh'.state.haveSignal := by
  obtain ⟨hasks, hframes, hneed, hhave⟩ := step.asks hc
  rw [hframes, hneed, hhave]
  rcases hasks with ⟨act, context⟩ | context
  · exact settled_of_cond hinv hcond act context
  · exact hinv.settled (.inl context)

theorem settled_trans (hb : Base c) (hinv : SignalInv c)
    (hi : c.locals[i]? = some pc) (h : Trans c.shared a pc sh' pc')
    (hcond : awaitsSettled c i a = true)
    (hc : sh'.context = .sleepLock ∨ ∃ sleeping, sh'.context = .need sleeping) :
    (∀ f ∈ sh'.frames, f.continuation = .invoked) ∧
      sh'.state.needSignal = sh'.state.haveSignal := by
  have hpc := List.mem_of_getElem? hi
  have hin : sh'.context.isIn = true ∧ ∀ k, sh'.context ≠ .resumed k := by
    rcases hc with hc | ⟨s, hc⟩ <;> rw [hc] <;> exact ⟨rfl, nofun⟩
  rcases trans_context h with hsame | step | step | ⟨self, hsh'⟩
  · rw [hsame] at hc
    obtain ⟨hall, heq⟩ := hinv.settled hc
    obtain ⟨he, hg, _⟩ := hinv.inner.equal heq
    cases signal_trans h with
    | quiet frames needs haves same =>
      rw [frames, needs, haves]
      exact ⟨hall, heq⟩
    | register tracing id held =>
      obtain ⟨f, rest, hframes, _, hheld⟩ := head_of_hasContinuation hinv.outer held nofun
      rw [hall f (hframes ▸ List.mem_cons_self)] at hheld
      cases hheld
    | need tracing sleeping context after =>
      rw [context, after] at hsame
      cases hsame
    | result tracing f context =>
      rw [context] at hc
      rcases hc with hc | ⟨_, hc⟩ <;> cases hc
    | invoke id registered =>
      obtain ⟨f, rest, hframes, _, hreg⟩ := head_of_hasContinuation hinv.outer registered nofun
      rw [hall f (hframes ▸ List.mem_cons_self)] at hreg
      cases hreg
    | emplace id =>
      have hpos := le_total (ind Pc.emplaces) hpc
      rw [ind_true rfl, he] at hpos
      cases hpos
    | signal =>
      have hpos := le_total (ind Pc.signals) hpc
      rw [ind_true rfl, hg] at hpos
      cases hpos
    | ctor =>
      rw [hb.ctor hpc] at hc
      rcases hc with hc | ⟨_, hc⟩ <;> cases hc
    | activate forcePost ready frames needs haves =>
      rw [frames, needs, haves]
      exact ⟨hall, rfl⟩
  · exact settled_task hinv step hcond hc
  · have hout := (outStep_isIn step).2.1
    rw [hin.1] at hout
    cases hout
  · subst hsh'
    rw [hb.contexts.1] at self
    unfold Shared.switchIn at hc
    cases hctx : c.shared.context with
    | start | suspended =>
      rw [hctx] at hc
      rcases hc with hc | ⟨_, hc⟩ <;> cases hc
    | _ => rw [hctx] at self; cases self

theorem signalInv_trans (hb : Base c) (hok : FramesOk c.shared) (hinv : SignalInv c)
    (hi : c.locals[i]? = some pc) (h : Trans c.shared a pc sh' pc')
    (hcond : awaitsSettled c i a = true) : SignalInv ⟨sh', c.locals.set i pc'⟩ := by
  obtain ⟨hinner, houter⟩ := inner_trans hb hok hinv hi h
  exact ⟨hinner, houter, ids_trans hinv hi h, settled_trans hb hinv hi h hcond,
    enters_trans hb hinv hi h, resumed_trans hb hinv hi h⟩

end

theorem signalInv_initial (n : Nat) : SignalInv (initial n) := by
  refine ⟨?_, nofun, ?_, nofun, ?_, ?_⟩
  · refine ⟨?_, ?_, fun h => absurd rfl h⟩
    · rw [total_initial _ _ rfl]; rfl
    · rw [total_initial _ _ rfl]; rfl
  · intro id hmem
    rcases mem_initial hmem with h | h <;> cases h
  · intro pc hpc hk
    rcases mem_initial hpc with rfl | rfl <;> cases hk
  · intro hmem
    rcases mem_initial hmem with h | h <;> cases h

/-- All there is to say of a task whose awaits are settled. -/
structure Settled (c : Conf Shared Pc) : Prop where
  base : Base c
  framesOk : FramesOk c.shared
  signals : SignalInv c

theorem settled_step {c c' : Conf Shared Pc} {i : Nat} {a : Act} (hc : Settled c)
    (hp : awaitsSettled c i a = true) (hf : machine.fire i a c = some c') : Settled c' := by
  obtain ⟨pc, sh', pc', hi, _, ht, _, rfl⟩ := fire_trans hf
  exact ⟨base_trans hc.base hi ht, framesOk_trans hc.framesOk ht,
    signalInv_trans hc.base hc.framesOk hc.signals hi ht hp⟩

theorem settled_initial (n : Nat) : Settled (initial n) :=
  ⟨base_initial n, framesOk_initial n, signalInv_initial n⟩

theorem settled_reachable {n : Nat} {c : Conf Shared Pc}
    (h : machine.ReachableWhere awaitsSettled (initial n) c) : Settled c :=
  machine.invariant_runWhere (fun _ _ _ _ hc hp hf => settled_step hc hp hf) (settled_initial n) h

/-! ## The results of awaits -/

/-- The result that `await_impl` reads next was stored by the continuation it has created. -/
def ReadsOwnResult (c : Conf Shared Pc) : Prop :=
  c.shared.context = .result → ∃ f rest, c.shared.frames = f :: rest ∧ f.continuation = .invoked

/-- **`await` returns only with its own result**, in every run in which each await begins outside of
    all others, or inside of awaits that have been signalled, with the signal taken in. -/
theorem await_returns_own_result {n : Nat} {c : Conf Shared Pc}
    (h : machine.ReachableWhere awaitsSettled (initial n) c) : ReadsOwnResult c := by
  obtain ⟨hb, hok, hinv⟩ := settled_reachable h
  intro hc
  -- the thread that is inside was activated, and its activation has cleared both bits
  have hinside : .inside false ∈ c.locals := by
    have hpos : 0 < total (ind Pc.isInside) c.locals := by
      rw [hb.inside, hc]
      exact Nat.one_pos
    obtain ⟨pc, hpc, hin⟩ := exists_of_total_pos hpos
    cases pc with
    | inside tracing =>
      obtain rfl := hb.activation hpc (by rw [hc]; nofun)
      exact hpc
    | _ => cases hin
  obtain ⟨hn, hh⟩ := hinv.resumed hinside (.inr hc)
  have hsome := hok.some (by rw [hc]; rfl)
  obtain ⟨f, rest, hframes⟩ := List.exists_cons_of_ne_nil hsome
  exact ⟨f, rest, hframes, (hinv.inner.equal (hn.trans hh.symm)).2.2 f rest hframes⟩

/-- The function of an await yields, is signalled, and awaits again before it returns. -/
def awaitRun : List (Nat × Act) :=
  List.replicate 4 (0, Act.run) ++
    [(0, Act.await), (0, Act.run), (0, Act.register 0), (0, Act.yield)] ++
    List.replicate 3 (0, Act.run) ++ (1, Act.invoke 0) :: List.replicate 6 (1, Act.run) ++
    [(1, Act.await), (1, Act.run), (1, Act.register 1), (1, Act.returns)] ++
    List.replicate 3 (1, Act.run) ++
    (0, Act.invoke 1) :: List.replicate 6 (0, Act.run)

theorem await_returns_own_result_awaitRun :
    ∃ c, machine.runWhere awaitsSettled awaitRun (initial 1) = some c ∧
      c.shared.context = .result ∧ c.shared.frames.length = 2 ∧ ReadsOwnResult c := by
  refine ⟨_, rfl, rfl, rfl, ?_⟩
  exact await_returns_own_result (n := 1) ⟨awaitRun, rfl⟩

/-- The function of await 0 registers its continuation and awaits again; the outer continuation is
    invoked, and the inner await is resumed. -/
def nestedRun : List (Nat × Act) :=
  List.replicate 4 (0, Act.run) ++
    [(0, Act.await), (0, Act.run), (0, Act.register 0), (0, Act.await), (0, Act.run),
      (0, Act.register 1), (0, Act.returns)] ++
    List.replicate 3 (0, Act.run) ++ (1, Act.invoke 0) :: List.replicate 6 (1, Act.run)

/-- The function of await 0 awaits first and registers its continuation afterwards; nothing keeps
    the outer await from going on. -/
def lateRun : List (Nat × Act) :=
  List.replicate 4 (0, Act.run) ++
    [(0, Act.await), (0, Act.run), (0, Act.await), (0, Act.run), (0, Act.register 1),
      (0, Act.returns)] ++
    List.replicate 3 (0, Act.run) ++ (1, Act.invoke 1) :: List.replicate 7 (1, Act.run) ++
    [(1, Act.register 0), (1, Act.returns)] ++ List.replicate 7 (1, Act.run)

theorem await_reads_unset_result :
    (∃ c, machine.run nestedRun (initial 1) = some c ∧ c.shared.panicked = false ∧
      c.shared.frames = [⟨1, false, .registered⟩, ⟨0, false, .invoked⟩] ∧ ¬ ReadsOwnResult c) ∧
    ∃ c, machine.run lateRun (initial 1) = some c ∧ c.shared.panicked = false ∧
      c.shared.frames = [⟨0, false, .registered⟩] ∧ ¬ ReadsOwnResult c := by
  constructor
  all_goals
    refine ⟨_, rfl, rfl, rfl, fun h => ?_⟩
    obtain ⟨f, rest, hframes, hinvoked⟩ := h rfl
    cases hframes
    cases hinvoked

end Batt.Task
