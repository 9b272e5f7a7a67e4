/-
  Where the branches are.

  `View` is what a shard holds of the exploration: its queue, the states it has visited, the
  branches it has taken up, what its calls of `step()` returned, and, while a call is running,
  where it will end and which branches it has still to queue. `flight` adds up a weight over the
  branches outside the local queues: in the send buffers, in a batch being pushed, in the
  receive queues, and lost.

  `Flow` is what a step does to these. The point of a call of `step()` and the branch it
  replays agree with the `RadixQueue`s (`Data`), so the choices that the source decodes are
  those of the exploration by replay in `Choice`.
-/
import Batt.Checker.Shape

namespace Batt.Checker

open Interleave Choice RadixQueue

variable {St : Type} {K : Nat} {l l' : Local St K} {caller : ExploreCaller St K}
  {sh sh' : Shared St K} {mesh : Mesh St} {b : Branch St K}

/-! ## The view of a shard -/

/-- A branch is a state and the choices to repeat. -/
def Branch.key (b : Branch St K) : St × List Digit := (b.snapshot, b.path)

/-- The branch whose rerun a call of `step()` was. -/
def Execution.key (e : Execution St) : St × List Digit := (e.snapshot, stem e.choices)

/-- The state in which `step()` was called, and what the call will return. -/
def ExploreCaller.running (chosen : List Digit) :
    ExploreCaller St K → Option (St × Option (List Digit × St))
  | .pickInt current minValue radix _ k =>
    some (current.snapshot, finish (k minValue) [] (chosen ++ [⟨radix, 0⟩]))
  | _ => none

/-- The branches that the call has still to queue. -/
def ExploreCaller.future (chosen : List Digit) : ExploreCaller St K → List (St × List Digit)
  | .pickInt current minValue radix value k =>
    ((List.range' value (radix - value)).map (fun v => chosen ++ [Digit.mk radix v]) ++
      pending (k minValue) [] (chosen ++ [Digit.mk radix 0])).map (Prod.mk current.snapshot)
  | _ => []

def PushCaller.running (chosen : List Digit) :
    PushCaller St K → Option (St × Option (List Digit × St))
  | .send caller => caller.running chosen
  | .flushAll _ _ => none

def PushCaller.future (chosen : List Digit) : PushCaller St K → List (St × List Digit)
  | .send caller => caller.future chosen
  | .flushAll _ _ => []

def Pc.running (chosen : List Digit) : Pc St K → Option (St × Option (List Digit × St))
  | .step current p => some (current.snapshot, finish p current.path chosen)
  | .pickLoop current minValue radix value k =>
    (ExploreCaller.pickInt current minValue radix value k).running chosen
  | .sendStalled _ caller => caller.running chosen
  | .pushAdd _ _ caller | .pushOpen _ _ caller | .pushEmplace _ _ caller
  | .pushNotify _ caller => caller.running chosen
  | _ => none

def Pc.future (chosen : List Digit) : Pc St K → List (St × List Digit)
  | .step current p => (pending p current.path chosen).map (Prod.mk current.snapshot)
  | .pickLoop current minValue radix value k =>
    (ExploreCaller.pickInt current minValue radix value k).future chosen
  | .sendStalled _ caller => caller.future chosen
  | .pushAdd _ _ caller | .pushOpen _ _ caller | .pushEmplace _ _ caller
  | .pushNotify _ caller => caller.future chosen
  | _ => []

structure View (St : Type) (K : Nat) where
  queue : List (Branch St K)
  visited : List St
  entered : List (St × List Digit)
  rejected : List (St × List Digit)
  executed : List (Execution St)
  running : Option (St × Option (List Digit × St))
  future : List (St × List Digit)

def Local.view (l : Local St K) : View St K where
  queue := l.queue
  visited := l.visited
  entered := l.entered
  rejected := l.rejected
  executed := l.executed
  running := l.pc.running l.chosen
  future := l.pc.future l.chosen

/-! ## Branches between the shards -/

def sent (w : Branch St K → Nat) (l : Local St K) : Nat :=
  total (total w) l.sendQueues + total w l.pc.batch

def afloat (w : Branch St K → Nat) (sh : Shared St K) : Nat :=
  total (fun q => total (total w) q.items) sh.recvQueues + total (total w) sh.dropped

def flight (w : Branch St K → Nat) (sh : Shared St K) (l : Local St K) : Nat :=
  sent w l + afloat w sh

/-- The swap in `queue_push` loses no branch. -/
theorem sent_beginPush (w : Branch St K → Nat) (dst : Nat) (caller : PushCaller St K)
    (hbatch : l.pc.batch = []) :
    sent w (beginPush l dst caller) = sent w l := by
  unfold sent
  rw [hbatch, total_nil, Nat.add_zero]
  show total (total w) (l.sendQueues.set dst []) + total w (l.sendQueues[dst]?.getD []) = _
  cases hs : l.sendQueues[dst]? with
  | none =>
    rw [List.set_eq_of_length_le (List.getElem?_eq_none_iff.mp hs)]
    rfl
  | some s =>
    have := total_set (total w) [] hs
    rw [total_nil] at this
    exact this

theorem afloat_modify (w : Branch St K → Nat) {i : Nat} {q : RecvQueue St K}
    (hq : sh.recvQueues[i]? = some q) (f : RecvQueue St K → RecvQueue St K) :
    afloat w (sh.modifyQueue i f) + total (total w) q.items =
      afloat w sh + total (total w) (f q).items := by
  have := total_modify (fun q : RecvQueue St K => total (total w) q.items) f hq
  unfold afloat Shared.modifyQueue
  simp only
  omega

theorem afloat_modify_same (w : Branch St K → Nat) (sh : Shared St K) (i : Nat)
    (f : RecvQueue St K → RecvQueue St K) (hf : ∀ q, (f q).items = q.items) :
    afloat w (sh.modifyQueue i f) = afloat w sh := by
  by_cases hlt : i < sh.recvQueues.length
  · have := afloat_modify w (List.getElem?_eq_getElem hlt) f
    rw [hf] at this
    omega
  · unfold Shared.modifyQueue
    rw [List.modify_eq_self (by omega)]

/-! ## Replay and the queues of digits -/

def ExploreCaller.Data (l : Local St K) : ExploreCaller St K → Prop
  | .pickInt current _ radix value _ => current.path = [] ∧ Encodes current.delta current.path ∧
      2 ≤ radix ∧ radix ≤ maxU64 ∧ 1 ≤ value ∧ Encodes l.history l.chosen
  | _ => True

def PushCaller.Data (l : Local St K) : PushCaller St K → Prop
  | .send caller => caller.Data l
  | .flushAll _ _ => True

/-- The `RadixQueue`s of a call of `step()` hold the choices to repeat and those made. -/
def Pc.Data (l : Local St K) : Pc St K → Prop
  | .step current p => Follows p current.path ∧ Encodes current.delta current.path ∧
      Encodes l.history l.chosen
  | .pickLoop current minValue radix value k =>
    (ExploreCaller.pickInt current minValue radix value k).Data l
  | .sendStalled _ caller => caller.Data l
  | .pushAdd _ _ caller | .pushOpen _ _ caller | .pushEmplace _ _ caller
  | .pushNotify _ caller => caller.Data l
  | _ => True

/-- `delta.empty()` says that nothing is left to repeat. -/
theorem delta_empty_iff {p : Prog St} {ds : List Digit} {q : RadixQueue K} (hf : Follows p ds)
    (he : Encodes q ds) : q.empty = true ↔ ds = [] := by
  rw [he.empty_iff]
  constructor
  · intro h
    match ds with
    | [] => rfl
    | d :: ds =>
      have h1 := h d (by simp)
      have h2 := hf.two_le_radix d (by simp)
      omega
  · rintro rfl
    simp

theorem radix_eq {minValue maxValue : Nat} (hlt : minValue < maxValue) (hmax : maxValue ≤ maxU64)
    (hfit : (maxValue - minValue + 1) % 2 ^ 64 ≠ 0) :
    (maxValue - minValue + 1) % 2 ^ 64 = maxValue - minValue + 1 := by
  unfold maxU64 at hmax
  by_cases h : maxValue - minValue + 1 = 2 ^ 64
  · rw [h] at hfit
    exact absurd rfl hfit
  · exact Nat.mod_eq_of_lt (by omega)

/-- Replaying a choice takes the first of those to repeat. -/
theorem replay_digit {minValue maxValue value : Nat} {k : Nat → Prog St} {path : List Digit}
    {queue delta : RadixQueue K} (hf : Follows (.pick minValue maxValue k) path)
    (he : Encodes queue path) (hlt : minValue < maxValue) (hmax : maxValue ≤ maxU64)
    (hradix : (maxValue - minValue + 1) % 2 ^ 64 ≠ 0) (hne : queue.empty = false)
    (hpop : queue.pop ((maxValue - minValue + 1) % 2 ^ 64) = some (value, delta)) :
    ∃ ds, path = ⟨(maxValue - minValue + 1) % 2 ^ 64, value⟩ :: ds ∧
      Follows (k (minValue + value)) ds ∧ Encodes delta ds := by
  match path with
  | [] =>
    rw [(delta_empty_iff hf he).mpr rfl] at hne
    cases hne
  | d :: ds =>
    unfold Follows at hf
    rw [if_neg (by omega)] at hf
    obtain ⟨_, hr, _, hf⟩ := hf
    obtain ⟨q', hq', hds⟩ := encodes_pop he
    rw [radix_eq hlt hmax hradix, ← hr, hq'] at hpop
    simp only [Option.some.injEq, Prod.mk.injEq] at hpop
    obtain ⟨rfl, rfl⟩ := hpop
    refine ⟨ds, ?_, hf, hds⟩
    rw [radix_eq hlt hmax hradix, ← hr]

theorem data_congr {pc : Pc St K} (hh : l'.history = l.history) (hc : l'.chosen = l.chosen)
    (h : pc.Data l) : pc.Data l' := by
  have hcaller : ∀ caller : ExploreCaller St K, caller.Data l → caller.Data l' := by
    intro caller hcaller
    cases caller with
    | pickInt =>
      obtain ⟨h1, h2, h3, h4, h5, h6⟩ := hcaller
      exact ⟨h1, h2, h3, h4, h5, by rw [hh, hc]; exact h6⟩
    | initial | discovered => trivial
  have hpush : ∀ caller : PushCaller St K, caller.Data l → caller.Data l' := by
    intro caller hpush
    cases caller with
    | send caller => exact hcaller caller hpush
    | flushAll => trivial
  cases pc with
  | step =>
    obtain ⟨h1, h2, h3⟩ := h
    exact ⟨h1, h2, by rw [hh, hc]; exact h3⟩
  | pickLoop current minValue radix value k =>
    exact hcaller (.pickInt current minValue radix value k) h
  | sendStalled _ caller => exact hcaller caller h
  | pushAdd _ _ caller | pushOpen _ _ caller | pushEmplace _ _ caller | pushNotify _ caller =>
    exact hpush caller h
  | _ => trivial

theorem explore_resume_data (h : caller.Data l) :
    caller.resume.Data l := by
  cases caller with
  | pickInt => exact h
  | initial | discovered => trivial

theorem push_resume_data {caller : PushCaller St K} (h : caller.Data l) :
    caller.resume.Data l := by
  cases caller with
  | send caller => exact explore_resume_data h
  | flushAll => trivial

theorem jump_data {pc pc' : Pc St K} (hj : Jump sh l pc pc') (h : pc.Data l) : pc'.Data l := by
  cases hj with
  | notStalled => exact explore_resume_data h
  | flushDone _ caller => cases caller <;> trivial
  | pushOpen => exact h
  | onlyValue current value k =>
    obtain ⟨hf, he, hh⟩ := h
    unfold Follows at hf
    rw [if_pos rfl] at hf
    exact ⟨hf, he, hh⟩
  | pickFresh current minValue maxValue k hlt hmax hradix hempty =>
    obtain ⟨hf, he, hh⟩ := h
    refine ⟨(delta_empty_iff hf he).mp hempty, he, ?_, ?_, Nat.le_refl 1, hh⟩
    · rw [radix_eq hlt hmax hradix]
      omega
    · have := Nat.mod_lt (maxValue - minValue + 1) (Nat.two_pow_pos 64)
      unfold maxU64
      omega
  | _ => trivial

theorem Queued.data (h : Queued mesh l b caller l') (hd : caller.Data l) :
    l'.pc.Data l' := by
  obtain ⟨_, _, _, rfl⟩ := h
  have hresume := explore_resume_data hd
  exact data_congr rfl rfl hresume

theorem Buffered.data {force : Bool} (h : Buffered mesh force l b caller l') (hd : caller.Data l) :
    l'.pc.Data l' := by
  obtain ⟨_, _, _, rfl⟩ := h
  have hsend : Pc.Data l (.sendStalled (mesh.findShard b) caller) := hd
  exact data_congr rfl rfl hsend

section

variable [NeZero K] [DecidableEq St]

theorem data_trans {m : StateMachineModel St}
    (hqueue : ∀ b ∈ l.queue, Follows (m.step b.snapshot) b.path ∧
      Encodes b.delta b.path) (h : l.pc.Data l) (ht : Trans mesh m sh l sh' l') :
    l'.pc.Data l' := by
  cases ht with
  | jump pc' _ _ hj =>
    have hjump := jump_data hj h
    exact data_congr rfl rfl hjump
  | seed _ _ send => exact send.data trivial
  | swap dst _ at_ =>
    rcases at_ with ⟨k, hpc, rfl⟩ | ⟨k, _, _, hpc, rfl, _⟩
    · rw [hpc] at h
      have hsend : Pc.Data l (beginPush l dst (.send k)).pc := h
      exact data_congr (l := l) rfl rfl hsend
    · trivial
  | pushAdd dst batch caller at_ =>
    rw [at_] at h
    have hpush : Pc.Data l (.pushOpen dst batch caller) := h
    exact data_congr rfl rfl hpush
  | pushEmplace dst batch caller at_ =>
    rw [at_] at h
    have hpush : Pc.Data l (.pushNotify dst caller) := h
    exact data_congr rfl rfl hpush
  | pushLost dst batch caller at_ | pushNotify dst caller at_ =>
    rw [at_] at h
    have hresume := push_resume_data h
    exact data_congr rfl rfl hresume
  | enter b rest _ hb =>
    obtain ⟨hf, he⟩ := hqueue b (by rw [hb]; simp)
    exact ⟨hf, he, encodes_clear _⟩
  | replay current minValue maxValue value k delta history at_ hlt hmax hradix hne hpop hpush =>
    rw [at_] at h
    obtain ⟨hf, he, hh⟩ := h
    obtain ⟨ds, hpath, hf', hds⟩ := replay_digit hf he hlt hmax hradix hne hpop
    refine ⟨?_, ?_, ?_⟩
    · rw [hpath]
      exact hf'
    · rw [hpath]
      exact hds
    · refine encodes_push (d := ⟨_, _⟩) hh ?_ hpush
      have := Nat.mod_lt (maxValue - minValue + 1) (Nat.two_pow_pos 64)
      simp only [maxU64]
      omega
  | sibling current minValue radix value k delta _ at_ _ _ send =>
    rw [at_] at h
    obtain ⟨h1, h2, h3, h4, h5, h6⟩ := h
    have hcaller : ExploreCaller.Data l (.pickInt current minValue radix (value + 1) k) :=
      ⟨h1, h2, h3, h4, by omega, h6⟩
    rcases send with hq | hb
    · exact hq.data hcaller
    · exact hb.data hcaller
  | lowest current minValue radix value k history at_ _ hpush =>
    rw [at_] at h
    obtain ⟨h1, h2, h3, h4, h5, h6⟩ := h
    refine ⟨?_, h2, encodes_push (d := ⟨_, _⟩) h6 h4 hpush⟩
    rw [h1]
    exact follows_nil _
  | discover _ _ l₁ _ _ _ _ _ send =>
    rcases send with hq | hb
    · exact hq.data trivial
    · exact hb.data trivial
  | receive stalled => cases stalled <;> trivial
  | ack _ pc' hpc =>
    subst hpc
    show Pc.Data _ (if _ then _ else _)
    split <;> trivial
  | _ => trivial

end

/-! ## What a step does to the branches -/

inductive Flow [NeZero K] [DecidableEq St] (mesh : Mesh St) (m : StateMachineModel St)
    (sh : Shared St K) (l : Local St K) (sh' : Shared St K) (l' : Local St K) : Prop where
  /-- No branch appears or goes, and none comes into or out of the local queue. -/
  | idle (view : l'.view = l.view) (stay : ∀ w, flight w sh' l' = flight w sh l)
  | seed (at_ : l.pc = .init) (view : l'.view = l.view)
      (add : ∀ w, flight w sh' l' = flight w sh l + w (.root (m.normalize m.initialState)))
  | enter (b : Branch St K) (rest : List (Branch St K)) (hqueue : l.view.queue = b :: rest)
      (hrun : l.view.running = none) (hfuture : l.view.future = [])
      (h : m.checkInvariants b.snapshot = true)
      (view : l'.view = { l.view with
        queue := rest
        entered := l.view.entered ++ [b.key]
        running := some (b.snapshot, finish (m.step b.snapshot) b.path [])
        future := (pending (m.step b.snapshot) b.path []).map (Prod.mk b.snapshot) })
      (stay : ∀ w, flight w sh' l' = flight w sh l)
  | reject (b : Branch St K) (rest : List (Branch St K)) (hqueue : l.view.queue = b :: rest)
      (hrun : l.view.running = none) (hfuture : l.view.future = [])
      (h : m.checkInvariants b.snapshot = false)
      (view : l'.view = { l.view with queue := rest, rejected := l.view.rejected ++ [b.key] })
      (stay : ∀ w, flight w sh' l' = flight w sh l)
  | keep (b : Branch St K) (rest : List (St × List Digit)) (hfuture : l.view.future = b.key :: rest)
      (hencodes : Encodes b.delta b.path) (owner : mesh.findShard b = l.shardI)
      (view : l'.view = { l.view with queue := l.view.queue ++ [b], future := rest })
      (stay : ∀ w, flight w sh' l' = flight w sh l)
  | send (b : Branch St K) (rest : List (St × List Digit)) (hfuture : l.view.future = b.key :: rest)
      (hencodes : Encodes b.delta b.path) (remote : mesh.findShard b ≠ l.shardI)
      (inRange : mesh.findShard b < mesh.shardCount)
      (view : l'.view = { l.view with future := rest })
      (add : ∀ w, flight w sh' l' = flight w sh l + w b)
  | leave (e : Execution St)
      (hrun : l.view.running = some (e.snapshot, some (e.choices, e.raw)))
      (hfuture : l.view.future = [])
      (hseen : m.checkInvariants e.raw = true →
        m.normalize e.raw = e.snapshot ∨ m.normalize e.raw ∈ l.view.visited)
      (view : l'.view = { l.view with executed := l.view.executed ++ [e], running := none })
      (stay : ∀ w, flight w sh' l' = flight w sh l)
  | discoverKeep (e : Execution St)
      (hrun : l.view.running = some (e.snapshot, some (e.choices, e.raw)))
      (hfuture : l.view.future = []) (h : m.checkInvariants e.raw = true)
      (hnew : m.normalize e.raw ∉ l.view.visited)
      (owner : mesh.findShard (.root (m.normalize e.raw) : Branch St K) = l.shardI)
      (view : l'.view = { l.view with
        queue := l.view.queue ++ [.root (m.normalize e.raw)]
        visited := l.view.visited ++ [m.normalize e.raw]
        executed := l.view.executed ++ [e]
        running := none })
      (stay : ∀ w, flight w sh' l' = flight w sh l)
  | discoverSend (e : Execution St)
      (hrun : l.view.running = some (e.snapshot, some (e.choices, e.raw)))
      (hfuture : l.view.future = []) (h : m.checkInvariants e.raw = true)
      (hnew : m.normalize e.raw ∉ l.view.visited)
      (remote : mesh.findShard (.root (m.normalize e.raw) : Branch St K) ≠ l.shardI)
      (inRange : mesh.findShard (.root (m.normalize e.raw) : Branch St K) < mesh.shardCount)
      (view : l'.view = { l.view with
        visited := l.view.visited ++ [m.normalize e.raw]
        executed := l.view.executed ++ [e]
        running := none })
      (add : ∀ w, flight w sh' l' = flight w sh l + w (.root (m.normalize e.raw)))
  | receive (q : RecvQueue St K) (batch : List (Branch St K)) (items : List (List (Branch St K)))
      (hq : sh.recvQueues[l.shardI]? = some q) (hitems : q.items = batch :: items)
      (hempty : l.view.queue = []) (hrun : l.view.running = none)
      (view : l'.view = { l.view with
        visited := (dedup l.view.visited batch).1
        queue := (dedup l.view.visited batch).2 })
      (take : ∀ w, flight w sh' l' + total w batch = flight w sh l)

theorem explore_resume_running (caller : ExploreCaller St K) (chosen : List Digit) :
    caller.resume.running chosen = caller.running chosen ∧
      caller.resume.future chosen = caller.future chosen ∧ caller.resume.batch = [] := by
  cases caller <;> exact ⟨rfl, rfl, rfl⟩

theorem push_resume_running (caller : PushCaller St K) (chosen : List Digit) :
    caller.resume.running chosen = caller.running chosen ∧
      caller.resume.future chosen = caller.future chosen ∧ caller.resume.batch = [] := by
  cases caller with
  | send caller => exact explore_resume_running caller chosen
  | flushAll => exact ⟨rfl, rfl, rfl⟩

theorem flush_resume_running (caller : FlushCaller) (chosen : List Digit) :
    (caller.resume : Pc St K).running chosen = none ∧
      (caller.resume : Pc St K).future chosen = [] ∧ (caller.resume : Pc St K).batch = [] := by
  cases caller <;> exact ⟨rfl, rfl, rfl⟩

/-- A step that only moves on leaves the call of `step()` where it is. -/
theorem jump_running {pc pc' : Pc St K} (hj : Jump sh l pc pc') (hd : pc.Data l)
    (chosen : List Digit) :
    pc'.running chosen = pc.running chosen ∧ pc'.future chosen = pc.future chosen ∧
      pc'.batch = pc.batch := by
  cases hj with
  | notStalled _ caller => exact explore_resume_running caller chosen
  | flushDone _ caller => exact flush_resume_running caller chosen
  | onlyValue current value k =>
    refine ⟨?_, ?_, rfl⟩
    · rw [Pc.running, Pc.running, finish_only]
    · rw [Pc.future, Pc.future, pending_only]
  | pickFresh current minValue maxValue k hlt hmax hradix hempty =>
    obtain ⟨hf, he, _⟩ := hd
    have hpath := (delta_empty_iff hf he).mp hempty
    refine ⟨?_, ?_, rfl⟩
    · rw [Pc.running, Pc.running, ExploreCaller.running, hpath, finish_lowest hlt,
        radix_eq hlt hmax hradix]
    · rw [Pc.future, Pc.future, ExploreCaller.future, hpath, pending_lowest hlt,
        radix_eq hlt hmax hradix, Nat.add_sub_cancel]
  | _ => exact ⟨rfl, rfl, rfl⟩

theorem flight_congr (w : Branch St K → Nat) (hsend : l'.sendQueues = l.sendQueues)
    (hbatch : l'.pc.batch = l.pc.batch) (hqueues : sh'.recvQueues = sh.recvQueues)
    (hdropped : sh'.dropped = sh.dropped) :
    flight w sh' l' = flight w sh l := by
  unfold flight sent afloat
  rw [hsend, hbatch, hqueues, hdropped]

theorem Queued.view (h : Queued mesh l b caller l') :
    l'.view = { l.view with
      queue := l.queue ++ [b]
      running := caller.running l.chosen
      future := caller.future l.chosen } ∧
    (l.pc.batch = [] → ∀ sh w, flight w sh l' = flight w sh l) := by
  obtain ⟨_, _, _, rfl⟩ := h
  obtain ⟨hrun, hfuture, hbatch⟩ := explore_resume_running caller l.chosen
  refine ⟨?_, fun hl sh w => flight_congr w rfl (hbatch.trans hl.symm) rfl rfl⟩
  simp only [Local.view, hrun, hfuture]

theorem Buffered.view {force : Bool} (h : Buffered mesh force l b caller l')
    (hsends : l.sendQueues.length = mesh.shardCount) :
    l'.view = { l.view with
      running := caller.running l.chosen
      future := caller.future l.chosen } ∧
    (l.pc.batch = [] → ∀ sh w, flight w sh l' = flight w sh l + w b) := by
  obtain ⟨hlt, _, _, rfl⟩ := h
  refine ⟨rfl, fun hl sh w => ?_⟩
  have hget := List.getElem?_eq_getElem (hsends ▸ hlt)
  have hmod := total_modify (total w) (· ++ [b]) hget
  rw [total_concat] at hmod
  unfold flight sent
  rw [hl]
  simp only [Pc.batch, total_nil]
  omega

section

variable [NeZero K] [DecidableEq St]

/-- **What a step does to the branches.** -/
theorem trans_flow {m : StateMachineModel St} (hd : l.pc.Data l) (hshape : Shape l l.pc)
    (hsends : l.sendQueues.length = mesh.shardCount)
    (htarget : ∀ d, l.pc.target = some d → d < sh.recvQueues.length)
    (ht : Trans mesh m sh l sh' l') : Flow mesh m sh l sh' l' := by
  cases ht with
  | jump pc' _ same hj =>
    obtain ⟨_, rfl⟩ := same
    obtain ⟨hrun, hfuture, hbatch⟩ := jump_running hj hd l.chosen
    refine .idle ?_ fun w => flight_congr w rfl hbatch rfl rfl
    simp only [Local.view, hrun, hfuture]
  | seed _ at_ send =>
    obtain ⟨hview, hadd⟩ := send.view hsends
    refine .seed at_ ?_ (hadd (by rw [at_]; rfl) sh)
    rw [hview]
    simp only [Local.view, at_, ExploreCaller.running, ExploreCaller.future, Pc.running, Pc.future]
  | swap dst caller at_ =>
    rcases at_ with ⟨k, hpc, rfl⟩ | ⟨k, _, _, hpc, rfl, _⟩
    · refine .idle ?_ fun w => ?_
      · simp only [Local.view, beginPush, hpc, Pc.running, PushCaller.running, Pc.future,
          PushCaller.future]
      · unfold flight
        rw [sent_beginPush w dst _ (by rw [hpc]; rfl)]
    · refine .idle ?_ fun w => ?_
      · simp only [Local.view, beginPush, hpc, Pc.running, PushCaller.running, Pc.future,
          PushCaller.future]
      · unfold flight
        rw [sent_beginPush w dst _ (by rw [hpc]; rfl)]
  | pushAdd dst batch caller at_ =>
    refine .idle ?_ fun w => flight_congr w rfl (by rw [at_]; rfl) rfl rfl
    simp only [Local.view, at_, Pc.running, Pc.future]
  | pushLost dst batch caller at_ =>
    obtain ⟨hrun, hfuture, hbatch⟩ := push_resume_running caller l.chosen
    refine .idle ?_ fun w => ?_
    · simp only [Local.view, hrun, hfuture]
      simp only [at_, Pc.running, Pc.future]
    · unfold flight sent afloat
      simp only [hbatch]
      simp only [at_, Pc.batch, total_concat, total_nil]
      omega
  | pushEmplace dst batch caller at_ =>
    have hlt : dst < sh.recvQueues.length := htarget dst (by rw [at_]; rfl)
    refine .idle ?_ fun w => ?_
    · simp only [Local.view, at_, Pc.running, Pc.future]
    · have hmod := afloat_modify w (List.getElem?_eq_getElem hlt)
        fun q : RecvQueue St K => { q with items := q.items ++ [batch] }
      simp only [total_concat] at hmod
      unfold flight sent
      simp only [at_, Pc.batch, total_nil]
      omega
  | pushNotify dst caller at_ =>
    obtain ⟨hrun, hfuture, hbatch⟩ := push_resume_running caller l.chosen
    refine .idle ?_ fun w => ?_
    · simp only [Local.view, hrun, hfuture]
      simp only [at_, Pc.running, Pc.future]
    · have hsame := afloat_modify_same w sh dst
        (fun q => { q with pendingCount := q.pendingCount + 1 }) fun _ => rfl
      unfold flight sent
      rw [hsame]
      simp only [hbatch]
      simp only [at_, Pc.batch]
  | enter b rest at_ hqueue owner h =>
    refine .enter b rest hqueue (by rw [Local.view, at_]; rfl) (by rw [Local.view, at_]; rfl) h rfl
      fun w => flight_congr w rfl (by rw [at_]; rfl) rfl rfl
  | reject b rest at_ hqueue owner h =>
    refine .reject b rest hqueue (by rw [Local.view, at_]; rfl) (by rw [Local.view, at_]; rfl) h ?_
      fun w => flight_congr w rfl (by rw [at_]; rfl) rfl rfl
    simp only [Local.view, at_, Pc.running, Pc.future]
    rfl
  | replay current minValue maxValue value k delta history at_ hlt hmax hradix hne hpop _ =>
    rw [at_] at hd
    obtain ⟨hf, he, _⟩ := hd
    obtain ⟨ds, hpath, _, _⟩ := replay_digit hf he hlt hmax hradix hne hpop
    refine .idle ?_ fun w => flight_congr w rfl (by rw [at_]; rfl) rfl rfl
    simp only [Local.view, at_, Pc.running, Pc.future, hpath, List.tail_cons, finish_replay hlt,
      pending_replay hlt]
  | sibling current minValue radix value k delta _ at_ hlt hpush send =>
    rw [at_] at hd
    obtain ⟨_, _, _, hmax, _, hh⟩ := hd
    have hencodes := encodes_push (d := ⟨radix, value⟩) hh hmax hpush
    have hbatch : l.pc.batch = [] := by rw [at_]; rfl
    have hcons : l.view.future = (current.snapshot, l.chosen ++ [Digit.mk radix value]) ::
        (ExploreCaller.pickInt current minValue radix (value + 1) k).future l.chosen := by
      have hrange : radix - value = radix - (value + 1) + 1 := by omega
      simp only [Local.view, at_, Pc.future, ExploreCaller.future]
      rw [hrange, List.range'_succ, List.map_cons, List.cons_append, List.map_cons]
    have hrun : (ExploreCaller.pickInt current minValue radix (value + 1) k).running l.chosen =
        l.view.running := by
      simp only [Local.view, at_, Pc.running, ExploreCaller.running]
    rcases send with hq | hb
    · obtain ⟨hview, hstay⟩ := hq.view
      refine .keep ⟨current.snapshot, delta, l.chosen ++ [Digit.mk radix value]⟩ _ hcons hencodes
        hq.owner ?_ (hstay hbatch sh)
      rw [hview, hrun]
      rfl
    · obtain ⟨hview, hadd⟩ := hb.view hsends
      refine .send ⟨current.snapshot, delta, l.chosen ++ [Digit.mk radix value]⟩ _ hcons hencodes
        (hb.remote rfl) hb.inRange ?_ (hadd hbatch sh)
      rw [hview, hrun]
  | lowest current minValue radix value k history at_ hle _ =>
    rw [at_] at hd
    obtain ⟨hpath, _⟩ := hd
    refine .idle ?_ fun w => flight_congr w rfl (by rw [at_]; rfl) rfl rfl
    have hrange : radix - value = 0 := by omega
    simp only [Local.view, at_, Pc.running, Pc.future, ExploreCaller.running,
      ExploreCaller.future, hpath, hrange, List.range'_zero, List.map_nil, List.nil_append]
  | violated current raw at_ h =>
    refine .leave ⟨current.snapshot, l.chosen, raw⟩ (by rw [Local.view, at_]; rfl)
      (by rw [Local.view, at_]; rfl) ?_ ?_ fun w => flight_congr w rfl (by rw [at_]; rfl) rfl rfl
    · intro hok
      rw [h] at hok
      cases hok
    · simp only [Local.view, at_, Pc.running, Pc.future, pending, List.map_nil]
  | known current raw _ at_ _ hseen =>
    refine .leave ⟨current.snapshot, l.chosen, raw⟩ (by rw [Local.view, at_]; rfl)
      (by rw [Local.view, at_]; rfl) (fun _ => hseen) ?_
      fun w => flight_congr w rfl (by rw [at_]; rfl) rfl rfl
    simp only [Local.view, at_, Pc.running, Pc.future, pending, List.map_nil]
  | discover current raw l₁ _ at_ h hnew hl₁ send =>
    have hrun : l.view.running = some (current.snapshot, some (l.chosen, raw)) := by
      rw [Local.view, at_]
      rfl
    have hfuture : l.view.future = [] := by
      rw [Local.view, at_]
      rfl
    have hflight : ∀ w, flight w sh l₁ = flight w sh l := fun w => by
      subst hl₁
      exact flight_congr w rfl (by rw [at_]; rfl) rfl rfl
    have hbatch : l₁.pc.batch = [] := by rw [hl₁]; rfl
    rcases send with hq | hb
    · obtain ⟨hview, hstay⟩ := hq.view
      refine .discoverKeep ⟨current.snapshot, l.chosen, raw⟩ hrun hfuture h hnew ?_ ?_
        fun w => (hstay hbatch sh w).trans (hflight w)
      · rw [hq.owner, hl₁]
      · rw [hview, hl₁]
        simp only [Local.view, at_, Pc.future, pending, List.map_nil, ExploreCaller.running,
          ExploreCaller.future]
    · obtain ⟨hview, hadd⟩ := hb.view (by rw [hl₁]; exact hsends)
      refine .discoverSend ⟨current.snapshot, l.chosen, raw⟩ hrun hfuture h hnew ?_ hb.inRange ?_
        fun w => (hadd hbatch sh w).trans (by rw [hflight w])
      · have := hb.remote rfl
        rwa [hl₁] at this
      · rw [hview, hl₁]
        simp only [Local.view, at_, Pc.future, pending, List.map_nil, ExploreCaller.running,
          ExploreCaller.future]
  | acquire stalled q at_ hq hpos =>
    have hpc : l.pc.running l.chosen = none ∧ l.pc.future l.chosen = [] ∧ l.pc.batch = [] := by
      rw [at_]
      cases stalled <;> exact ⟨rfl, rfl, rfl⟩
    refine .idle ?_ fun w => ?_
    · simp only [Local.view, hpc.1, hpc.2.1]
      rfl
    · have hsame := afloat_modify_same w sh l.shardI
        (fun q => { q with pendingCount := q.pendingCount - 1 }) fun _ => rfl
      unfold flight sent
      rw [hsame, hpc.2.2]
      rfl
  | receive stalled q batch items at_ hq hitems hne =>
    rw [at_] at hshape
    have hempty : l.queue = [] := by
      cases stalled
      · exact hshape.1
      · exact hshape.1.1
    refine .receive q batch items hq hitems hempty (by rw [Local.view, at_]; rfl) ?_ fun w => ?_
    · simp only [Local.view, receive, at_, hempty, List.nil_append, Pc.running, Pc.future]
      cases stalled <;> rfl
    · have hmod := afloat_modify w hq fun q : RecvQueue St K => { q with items := items }
      have hbatch : (receive l batch (if stalled then .resetStalled 0 false else .popNext)).pc.batch
          = [] := by cases stalled <;> rfl
      simp only [hitems, total_cons] at hmod
      unfold flight sent
      rw [hbatch, at_]
      simp only [receive, Pc.batch, total_nil]
      omega
  | ack at_ pc' hpc =>
    have hnone : pc'.running l.chosen = none ∧ pc'.future l.chosen = [] ∧ pc'.batch = [] := by
      subst hpc
      split <;> exact ⟨rfl, rfl, rfl⟩
    refine .idle ?_ fun w => flight_congr w rfl (by rw [at_]; exact hnone.2.2) rfl rfl
    simp only [Local.view, hnone.1, hnone.2.1]
    rw [at_]
    rfl
  | close dst at_ =>
    refine .idle (by simp only [Local.view, at_, Pc.running, Pc.future]) fun w => ?_
    have hsame := afloat_modify_same w sh dst (fun q => { q with closed := true }) fun _ => rfl
    unfold flight sent
    rw [hsame, at_]
    rfl
  | finishedClose at_ =>
    refine .idle (by simp only [Local.view, at_, Pc.running, Pc.future]) fun w => ?_
    have hsame := afloat_modify_same w sh l.shardI (fun q => { q with closed := true }) fun _ => rfl
    unfold flight sent
    rw [hsame, at_]
    rfl
  | drainAcquire q at_ hq hpos =>
    refine .idle (by simp only [Local.view, at_, Pc.running, Pc.future]) fun w => ?_
    have hsame := afloat_modify_same w sh l.shardI
      (fun q => { q with pendingCount := q.pendingCount - 1 }) fun _ => rfl
    unfold flight sent
    rw [hsame, at_]
    rfl
  | drainPop q batch items at_ hq hitems =>
    refine .idle (by simp only [Local.view, at_, Pc.running, Pc.future]) fun w => ?_
    have hmod := afloat_modify w hq fun q : RecvQueue St K => { q with items := items }
    simp only [hitems, total_cons] at hmod
    unfold flight sent
    rw [at_]
    unfold afloat at hmod ⊢
    simp only [Pc.batch, total_concat, Shared.modifyQueue] at hmod ⊢
    omega
  | barrierSub at_ | begin at_ =>
    refine .idle (by simp only [Local.view, at_, Pc.running, Pc.future]) fun w =>
      flight_congr w rfl (by rw [at_]; rfl) rfl rfl

end

end Batt.Checker
