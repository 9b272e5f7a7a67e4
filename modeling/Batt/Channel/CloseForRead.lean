/-
  Writes after `close_for_read`.

  A write that is under way when the channel is closed for read, or begins later, ends with
  `kClosed` and waits for nobody, in every run in which each step meets `unconsumed`.

  A write that has ended so leaves `write_count_` ahead of `read_count_`, and `is_active` stays true
  until the value is consumed: the write that follows fails its first check
  (`write_after_close_fails`).
-/
import Batt.Channel.Progress

namespace Batt.Channel

open Watch Interleave

variable {V : Type}

/-! ## One step -/

section Step

variable {w r : Nat} {c c' : Conf (Shared V) (Thread V)} {i : Nat} {a : Act V}
variable {p : Producer V} {q : Consumer} {ks : List Closer}

theorem producerOf_threads (hc : c.locals = threads p q ks) : producerOf c = p := by
  unfold producerOf
  rw [hc]
  rfl

/-- What the condition asks of the producer. -/
theorem unconsumed_producer (hc : c.locals = threads p q ks) (k : Kept w r c.shared p q ks)
    (hp : unconsumed c 0 a = true) :
    p.admitted c.shared = true ∧ (p.looks c.shared = true → r ≠ w) := by
  unfold unconsumed at hp
  rw [hc] at hp
  obtain ⟨hadmitted, hlooks⟩ := Bool.and_eq_true_iff.mp hp
  refine ⟨hadmitted, fun hl hr => ?_⟩
  rw [hl, k.slots.readCount, k.slots.writeCount, hr] at hlooks
  simp at hlooks

theorem unconsumed_consumer (hc : c.locals = threads p q ks) (hp : unconsumed c 1 a = true) :
    q.releases c.shared = false := by
  unfold unconsumed at hp
  rw [hc] at hp
  simpa [threads] using hp

/-- A step fails only in a check of the reader. -/
theorem step_safe (hc : c.locals = threads p q ks) (k : Kept w r c.shared p q ks)
    (hp : unconsumed c i a = true) (hf : Closers.machine.fire i a c = some c') :
    c'.shared.failure = none ∨ i = 1 ∧ q.reads = true := by
  obtain ⟨hsafe, p', q', ks', hc', hfires⟩ := fire_threads hc hf
  cases hfires with
  | producer step =>
    obtain ⟨hadmitted, hlooks⟩ := unconsumed_producer hc k hp
    exact .inl (producer_safe k hadmitted hlooks step hsafe)
  | consumer step =>
    cases hreads : q.reads with
    | true => exact .inr ⟨rfl, rfl⟩
    | false => exact .inl (consumer_safe k hreads (unconsumed_consumer hc hp) step hsafe)
  | closer hat step => exact .inl (closer_safe k hat step hsafe)

/-- The read count stays closed. -/
theorem step_closed (hc : c.locals = threads p q ks) (k : Kept w r c.shared p q ks)
    (hclosed : isOpen c.shared.readCount.spinState = false)
    (hf : Closers.machine.fire i a c = some c') (hsafe : c'.shared.failure = none) :
    isOpen c'.shared.readCount.spinState = false := by
  obtain ⟨_, p', q', ks', hc', hfires⟩ := fire_threads hc hf
  cases hfires with
  | producer step =>
    exact k.read.toSound.moves_closed List.mem_cons_self
      (producer_moves_read (producerStep_of_step step hsafe)) hclosed
  | consumer step =>
    exact k.read.toSound.moves_closed (List.mem_cons_of_mem _ List.mem_cons_self)
      (consumer_moves_read (consumerStep_of_step step hsafe)) hclosed
  | closer hat step =>
    refine k.read.toSound.moves_closed ?_ (closer_moves step hsafe .read) hclosed
    exact List.mem_cons_of_mem _ (List.mem_cons_of_mem _
      (List.mem_map.mpr ⟨_, List.mem_of_getElem? hat, rfl⟩))

/-- Only the producer moves the write on. -/
theorem step_producer (hc : c.locals = threads p q ks)
    (hf : Closers.machine.fire i a c = some c') :
    (i = 0 ∧ (c'.shared.failure = none →
        ProducerStep c.shared p c'.shared (producerOf c'))) ∨
      (i ≠ 0 ∧ producerOf c' = p ∧ (c'.shared.failure = none →
        c.shared.readCount.invoked <+: c'.shared.readCount.invoked)) := by
  obtain ⟨_, p', q', ks', hc', hfires⟩ := fire_threads hc hf
  rw [producerOf_threads hc']
  cases hfires with
  | producer step => exact .inl ⟨rfl, producerStep_of_step step⟩
  | consumer step =>
    exact .inr ⟨nofun, rfl, fun hsafe =>
      moves_invoked (consumer_moves_read (consumerStep_of_step step hsafe))⟩
  | closer hat step =>
    exact .inr ⟨nofun, rfl, fun hsafe => moves_invoked (closer_moves step hsafe .read)⟩

end Step

/-! ## Runs -/

section Run

variable {n : Nat} {c₀ c c' : Conf (Shared V) (Thread V)}

/-- What is known after the close. -/
theorem after_close (h₀ : Closers.machine.Reachable (Closers.initial n) c₀)
    (hclosed : c₀.shared.readCount.spinState &&& kOpen = 0)
    (hrun : Closers.machine.ReachableWhere unconsumed c₀ c) (hsafe : c.shared.failure = none) :
    ∃ w r p q ks, c.locals = threads p q ks ∧ Kept w r c.shared p q ks ∧
      isOpen c.shared.readCount.spinState = false := by
  have hinv : Closers.machine.Reachable (Closers.initial n) c ∧
      (c.shared.failure = none → isOpen c.shared.readCount.spinState = false) := by
    refine Closers.machine.invariant_runWhere (I := fun c =>
      Closers.machine.Reachable (Closers.initial n) c ∧
        (c.shared.failure = none → isOpen c.shared.readCount.spinState = false)) ?_
      ⟨h₀, fun _ => (and_kOpen_eq_zero _).mp hclosed⟩ hrun
    rintro c i a c' ⟨hr, hc⟩ _ hf
    refine ⟨hr.step hf, fun hsafe' => ?_⟩
    obtain ⟨p, q, ks, hthreads, hkept⟩ := kept_reachable hr
    obtain ⟨hsafe, _⟩ := fire_threads hthreads hf
    obtain ⟨w, r, k⟩ := hkept hsafe
    exact step_closed hthreads k (hc hsafe) hf hsafe'
  obtain ⟨p, q, ks, hthreads, hkept⟩ := kept_reachable hinv.1
  obtain ⟨w, r, k⟩ := hkept hsafe
  exact ⟨w, r, p, q, ks, hthreads, k, hinv.2 hsafe⟩

/-- A step lowers what is left of the write, if it is one of the producer's that does not spin. -/
theorem rank_step (h₀ : Closers.machine.Reachable (Closers.initial n) c₀)
    (hclosed : c₀.shared.readCount.spinState &&& kOpen = 0)
    (hrun : Closers.machine.ReachableWhere unconsumed c₀ c) {i : Nat} {a : Act V}
    (hp : unconsumed c i a = true) (hf : Closers.machine.fire i a c = some c')
    (hsafe' : c'.shared.failure = none) (hw : writing c = true) (hw' : writing c' = true) :
    (producerOf c').rank c'.shared ≤ (producerOf c).rank c.shared ∧
      (i = 0 ∧ spinning c = false →
        (producerOf c').rank c'.shared < (producerOf c).rank c.shared) := by
  have hsafe : c.shared.failure = none := by
    obtain ⟨p, q, ks, hthreads, _⟩ := kept_reachable (h₀.trans hrun.reachable)
    exact (fire_threads hthreads hf).1
  obtain ⟨w, r, p, q, ks, hc, k, hshut⟩ := after_close h₀ hclosed hrun hsafe
  unfold writing spinning at *
  rw [producerOf_threads hc] at *
  rcases step_producer hc hf with ⟨rfl, hstep⟩ | ⟨hne, heq, hmono⟩
  · have hs := hstep hsafe'
    obtain ⟨_, hlooks⟩ := unconsumed_producer hc k hp
    have hle : (producerOf c').rank c'.shared < p.rank c.shared ∨
        producerOf c' = p ∧ p.spins c.shared = true :=
      producer_progress k hshut hlooks hs hw hw'
    rcases hle with hlt | ⟨heq, hspins⟩
    · exact ⟨hlt.le, fun _ => hlt⟩
    · rw [heq]
      refine ⟨rank_mono p (moves_invoked (producer_moves_read hs)), ?_⟩
      rintro ⟨_, hnot⟩
      rw [hspins] at hnot
      cases hnot
  · rw [heq]
    exact ⟨rank_mono p (hmono hsafe'), fun h => absurd h.1 hne⟩

/-- **After `close_for_read` every write ends with `kClosed`.** In every run in which each step
    meets `unconsumed`, from any reachable state in which the channel is closed for read: no step of
    a write fails, a write that ends does so with `kClosed`, a write that cannot go on waits for a
    handler that another thread is about to invoke, and a write whose producer goes on again and
    again, other than at a lock that is held, comes to its end. -/
theorem close_for_read_ends_writes (n : Nat) (c₀ c : Conf (Shared V) (Thread V))
    (h₀ : Closers.machine.Reachable (Closers.initial n) c₀)
    (hclosed : c₀.shared.readCount.spinState &&& kOpen = 0)
    (hrun : Closers.machine.ReachableWhere unconsumed c₀ c) (hsafe : c.shared.failure = none) :
    (∀ i a c', unconsumed c i a = true → Closers.machine.fire i a c = some c' →
      (c'.shared.failure = none ∨ i = 1 ∧ ∃ q, c.locals[1]? = some (.party (.consumer q)) ∧
        q.reads = true) ∧
      (writing c = true → writing c' = false → result c = some .kClosed)) ∧
    (writing c = true → Closers.machine.fire 0 .run c ≠ none ∨
      ∃ (h j : Nat) (l : Thread V), (producerOf c).waitsFor = some h ∧ c.locals[j]? = some l ∧
        h ∈ localObservers (l.call .read) ∧ Closers.machine.fire j .run c ≠ none) ∧
    (∀ σ sched, σ 0 = c → Closers.machine.Endless unconsumed σ sched →
      (∀ n, ∃ k, n ≤ k ∧ (sched k).1 = 0 ∧ spinning (σ k) = false) →
      ∃ n, writing (σ n) = false) := by
  obtain ⟨w, r, p, q, ks, hc, k, hshut⟩ := after_close h₀ hclosed hrun hsafe
  have hproducer := producerOf_threads hc
  refine ⟨?_, ?_, ?_⟩
  · intro i a c' hp hf
    have hstep := step_safe hc k hp hf
    refine ⟨?_, ?_⟩
    · refine hstep.imp_right fun ⟨hi, hreads⟩ => ⟨hi, q, ?_, hreads⟩
      rw [hc]
      rfl
    · intro hw hw'
      unfold writing result at *
      rw [hproducer] at hw ⊢
      rcases step_producer hc hf with ⟨rfl, hs⟩ | ⟨_, heq, _⟩
      · have hsafe' := hstep.resolve_right fun h => Nat.zero_ne_one h.1
        obtain ⟨_, hlooks⟩ := unconsumed_producer hc k hp
        exact producer_closed k hlooks (hs hsafe') hw hw'
      · rw [heq, hw] at hw'
        cases hw'
  · intro hw
    unfold writing at hw
    rw [hproducer] at hw ⊢
    have hfire : ∀ (j : Nat) (l : Thread V), c.locals[j]? = some l →
        Closers.step .run c.shared l ≠ none → Closers.machine.fire j .run c ≠ none := by
      intro j l hl hne
      simpa [Machine.fire, hl, Closers.machine] using hne
    rcases producer_enabled k hw with hs | ⟨h, hwaits, hnone, hpassed⟩
    · refine .inl (hfire 0 (.party (.producer p)) (by rw [hc]; rfl) ?_)
      simpa [Closers.step, Channel.step, hsafe] using hs
    · obtain ⟨j, l, hl, hmem, hs⟩ := waited_elsewhere k hsafe hshut hwaits hnone hpassed
      rw [← hc] at hl
      exact .inr ⟨h, j, l, hwaits, hl, hmem, hfire j l hl hs⟩
  · intro σ sched hσ hendless hoften
    -- a configuration that goes on has not failed
    have hgoes : ∀ n, (σ n).shared.failure = none := by
      intro n
      have hreach := hendless.reachable n
      rw [hσ] at hreach
      obtain ⟨p, q, ks, hthreads, _⟩ := kept_reachable (h₀.trans (hrun.trans hreach).reachable)
      exact (fire_threads hthreads (hendless.fires n)).1
    obtain ⟨n, hn⟩ := hendless.ends (fun c => writing c = true ∧ c.shared.failure = none)
      (fun c i _ => i = 0 ∧ spinning c = false) (fun c => (producerOf c).rank c.shared)
      (by
        rintro c₁ i a c₂ hreach hp hf ⟨hw, _⟩ ⟨hw', hsafe'⟩
        rw [hσ] at hreach
        exact rank_step h₀ hclosed (hrun.trans hreach) hp hf hsafe' hw hw')
      hoften
    refine ⟨n, ?_⟩
    by_contra hw
    exact hn ⟨by simpa using hw, hgoes n⟩

end Run

/-! ## The write after the next -/

/-- The consumer closes the channel for read. -/
def closeRun : List (Nat × Act Nat) := (1, .closeForRead) :: List.replicate 5 (1, .run)

/-- A write that is about to return. -/
def refusedRun : List (Nat × Act Nat) := (0, .write 7) :: List.replicate 13 (0, .run)

theorem close_for_read_ends_writes_refusedRun :
    ∃ c₀ c c' : Conf (Shared Nat) (Thread Nat),
      Closers.machine.run closeRun (Closers.initial 0) = some c₀ ∧
      Closers.machine.runWhere unconsumed refusedRun c₀ = some c ∧
      Closers.machine.fire 0 .run c = some c' ∧ writing c = true ∧ writing c' = false ∧
      result c = some .kClosed := by
  refine ⟨_, _, _, rfl, rfl, rfl, rfl, rfl, ?_⟩
  have hends := close_for_read_ends_writes 0 _ _ ⟨closeRun, rfl⟩ rfl ⟨refusedRun, rfl⟩ rfl
  exact (hends.1 0 .run _ rfl rfl).2 rfl rfl

/-- The write is told that the channel is closed, and `is_active` stays true: the next write fails
    its check. -/
theorem write_after_close_fails :
    ∃ c₀ c₁ c c' : Conf (Shared Nat) (Thread Nat),
      Closers.machine.run closeRun (Closers.initial 0) = some c₀ ∧
      c₀.shared.readCount.spinState &&& kOpen = 0 ∧
      Closers.machine.run refusedRun c₀ = some c₁ ∧ result c₁ = some .kClosed ∧
      Closers.machine.run [(0, .run), (0, .write 8), (0, .run)] c₁ = some c ∧
      c.shared.failure = none ∧ writing c = true ∧
      Closers.machine.fire 0 .run c = some c' ∧ c'.shared.failure = some .check :=
  ⟨_, _, _, _, rfl, rfl, rfl, rfl, rfl, rfl, rfl, rfl, rfl⟩

end Batt.Channel
