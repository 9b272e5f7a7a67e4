/-
  Interleaving of threads over a shared store.

  A `Machine` gives the atomic step of one thread: from the shared store and the
  thread's local state to both after the step, or `none` where the thread is blocked.
  The action argument resolves what the step leaves open (which call an idle thread
  makes, whether a weak compare-exchange fails). `admits` is what the environment
  promises before a step, over the local states of all threads.

  A configuration is a store and one local state for each thread, so every statement
  about `Conf` is about any number of threads. `runWhere P` executes a schedule whose
  every step meets `P`; `run` is the unrestricted case. `invariant_runWhere` is the
  rule every safety proof goes through.

  `total f` sums a measure over the threads. Mutual exclusion is `total holds ≤ 1`,
  "some thread is in phase p" is `0 < total p`, and conservation laws are sums; all of
  them move by `total_set` when one thread steps.
-/
import Mathlib.Data.List.Basic
import Mathlib.Algebra.BigOperators.Group.List.Basic
import Mathlib.Order.Monotone.Basic
import Mathlib.Order.RelClasses
import Mathlib.Algebra.GroupWithZero.Nat

namespace Interleave

structure Machine (Sh Loc Act : Type) where
  step : Act → Sh → Loc → Option (Sh × Loc)
  admits : Act → Sh → List Loc → Loc → Bool := fun _ _ _ _ => true

structure Conf (Sh Loc : Type) where
  shared : Sh
  locals : List Loc

variable {Sh Loc Act : Type} {m : Machine Sh Loc Act} {P : Conf Sh Loc → Nat → Act → Bool}
  {c c' c₀ : Conf Sh Loc} {ls : List Loc} {i j k : Nat} {l : Loc} {α β : Type}
  {σ : Nat → Conf Sh Loc} {a : Act} {sched : List (Nat × Act)} {f : Loc → Nat} {p : Loc → Bool}
  {I : Conf Sh Loc → Prop}

/-! ## Running a schedule -/

/-- Thread `i` takes the step chosen by `a`. -/
def Machine.fire (m : Machine Sh Loc Act) (i : Nat) (a : Act) (c : Conf Sh Loc) :
    Option (Conf Sh Loc) :=
  match c.locals[i]? with
  | none => none
  | some l =>
    if m.admits a c.shared c.locals l then
      (m.step a c.shared l).map fun r => ⟨r.1, c.locals.set i r.2⟩
    else none

/-- Runs a schedule in which every step meets `P` in the configuration before it. -/
def Machine.runWhere (m : Machine Sh Loc Act) (P : Conf Sh Loc → Nat → Act → Bool) :
    List (Nat × Act) → Conf Sh Loc → Option (Conf Sh Loc)
  | [], c => some c
  | (i, a) :: rest, c => if P c i a then (m.fire i a c).bind (m.runWhere P rest) else none

def Machine.run (m : Machine Sh Loc Act) (sched : List (Nat × Act)) (c : Conf Sh Loc) :
    Option (Conf Sh Loc) :=
  m.runWhere (fun _ _ _ => true) sched c

def Machine.ReachableWhere (m : Machine Sh Loc Act) (P : Conf Sh Loc → Nat → Act → Bool)
    (c₀ c : Conf Sh Loc) : Prop :=
  ∃ sched, m.runWhere P sched c₀ = some c

def Machine.Reachable (m : Machine Sh Loc Act) (c₀ c : Conf Sh Loc) : Prop :=
  ∃ sched, m.run sched c₀ = some c

/-- What one step does: thread `i` is at `l`, the environment admits the step, and the
    store and that one local state change. -/
theorem Machine.fire_cases (h : m.fire i a c = some c') :
    ∃ l sh' l', c.locals[i]? = some l ∧ m.admits a c.shared c.locals l = true ∧
      m.step a c.shared l = some (sh', l') ∧ c' = ⟨sh', c.locals.set i l'⟩ := by
  unfold Machine.fire at h
  split at h
  · cases h
  · rename_i l hl
    split at h
    · rename_i hadm
      obtain ⟨⟨sh', l'⟩, hs, hc⟩ := Option.map_eq_some_iff.mp h
      exact ⟨l, sh', l', hl, hadm, hs, hc.symm⟩
    · cases h

/-- The invariant rule for restricted runs. -/
theorem Machine.invariant_runWhere
    (hstep : ∀ c i a c', I c → P c i a = true → m.fire i a c = some c' → I c')
    (h₀ : I c₀) (h : m.ReachableWhere P c₀ c) : I c := by
  obtain ⟨sched, hr⟩ := h
  induction sched generalizing c₀ with
  | nil => cases hr; exact h₀
  | cons e rest ih =>
    obtain ⟨i, a⟩ := e
    unfold Machine.runWhere at hr
    split at hr
    · rename_i hp
      obtain ⟨c₁, hf, hr'⟩ := Option.bind_eq_some_iff.mp hr
      exact ih (hstep c₀ i a c₁ h₀ hp hf) hr'
    · cases hr

/-- The invariant rule for all runs. -/
theorem Machine.invariant (hstep : ∀ c i a c', I c → m.fire i a c = some c' → I c') (h₀ : I c₀)
    (h : m.Reachable c₀ c) : I c :=
  m.invariant_runWhere (fun c i a c' hi _ hf => hstep c i a c' hi hf) h₀ h

/-- The invariant rule for what also depends on the steps taken so far. -/
theorem Machine.history_runWhere {I : List (Nat × Act) → Conf Sh Loc → Prop}
    (hstep : ∀ past c i a c', I past c → P c i a = true → m.fire i a c = some c' →
      I (past ++ [(i, a)]) c') {past : List (Nat × Act)} (h₀ : I past c₀)
    (h : m.runWhere P sched c₀ = some c) : I (past ++ sched) c := by
  induction sched generalizing past c₀ with
  | nil =>
    cases h
    rw [List.append_nil]
    exact h₀
  | cons e rest ih =>
    obtain ⟨i, a⟩ := e
    unfold Machine.runWhere at h
    split at h
    · rename_i hp
      obtain ⟨c₁, hf, hr⟩ := Option.bind_eq_some_iff.mp h
      have hrest := ih (hstep past c₀ i a c₁ h₀ hp hf) hr
      rwa [List.append_assoc] at hrest
    · cases h

/-- What the steps of a run emit, in the order of the run. -/
def Machine.log {β : Type} (m : Machine Sh Loc Act) (emits : Conf Sh Loc → Nat → Act → List β) :
    List (Nat × Act) → Conf Sh Loc → List β
  | [], _ => []
  | (i, a) :: rest, c =>
    match m.fire i a c with
    | none => []
    | some c' => emits c i a ++ m.log emits rest c'

theorem Machine.log_cons (emits : Conf Sh Loc → Nat → Act → List β) (rest : List (Nat × Act))
    (hf : m.fire i a c = some c') :
    m.log emits ((i, a) :: rest) c = emits c i a ++ m.log emits rest c' := by
  rw [Machine.log, hf]

/-- The invariant rule for what also depends on what the steps so far have emitted. -/
theorem Machine.logged_runWhere {emits : Conf Sh Loc → Nat → Act → List β}
    {I : List β → Conf Sh Loc → Prop}
    (hstep : ∀ past c i a c', I past c → P c i a = true → m.fire i a c = some c' →
      I (past ++ emits c i a) c') {past : List β} (h₀ : I past c₀)
    (h : m.runWhere P sched c₀ = some c) : I (past ++ m.log emits sched c₀) c := by
  induction sched generalizing past c₀ with
  | nil =>
    cases h
    rw [Machine.log, List.append_nil]
    exact h₀
  | cons e rest ih =>
    obtain ⟨i, a⟩ := e
    unfold Machine.runWhere at h
    split at h
    · rename_i hp
      obtain ⟨c₁, hf, hr⟩ := Option.bind_eq_some_iff.mp h
      have hrest := ih (hstep past c₀ i a c₁ h₀ hp hf) hr
      rwa [List.append_assoc, ← Machine.log_cons emits rest hf] at hrest
    · cases h

/-- A restricted run is a run. -/
theorem Machine.run_of_runWhere (hr : m.runWhere P sched c₀ = some c) :
    m.run sched c₀ = some c := by
  induction sched generalizing c₀ with
  | nil => exact hr
  | cons e rest ih =>
    obtain ⟨i, a⟩ := e
    unfold Machine.runWhere at hr
    split at hr
    · obtain ⟨c₁, hf, hr'⟩ := Option.bind_eq_some_iff.mp hr
      unfold Machine.run Machine.runWhere
      rw [if_pos rfl, hf]
      exact ih hr'
    · cases hr

theorem Machine.ReachableWhere.reachable (h : m.ReachableWhere P c₀ c) :
    m.Reachable c₀ c := by
  obtain ⟨sched, hr⟩ := h
  exact ⟨sched, m.run_of_runWhere hr⟩

theorem Machine.run_cons (m : Machine Sh Loc Act) (i : Nat) (a : Act) (rest : List (Nat × Act))
    (c : Conf Sh Loc) : m.run ((i, a) :: rest) c = (m.fire i a c).bind (m.run rest) := by
  rw [Machine.run, Machine.runWhere, if_pos rfl]
  rfl

theorem Machine.runWhere_append (m : Machine Sh Loc Act) (P : Conf Sh Loc → Nat → Act → Bool)
    (s t : List (Nat × Act)) (c : Conf Sh Loc) :
    m.runWhere P (s ++ t) c = (m.runWhere P s c).bind (m.runWhere P t) := by
  induction s generalizing c with
  | nil => rfl
  | cons e s ih =>
    obtain ⟨i, a⟩ := e
    rw [List.cons_append, Machine.runWhere, Machine.runWhere]
    split
    · rw [Option.bind_assoc]
      exact congrArg _ (funext ih)
    · rfl

theorem Machine.run_append (m : Machine Sh Loc Act) (s t : List (Nat × Act)) (c : Conf Sh Loc) :
    m.run (s ++ t) c = (m.run s c).bind (m.run t) :=
  m.runWhere_append _ s t c

theorem Machine.log_append (emits : Conf Sh Loc → Nat → Act → List β) {s : List (Nat × Act)}
    (t : List (Nat × Act)) (h : m.run s c = some c') :
    m.log emits (s ++ t) c = m.log emits s c ++ m.log emits t c' := by
  induction s generalizing c with
  | nil =>
    cases h
    rfl
  | cons e s ih =>
    obtain ⟨i, a⟩ := e
    rw [Machine.run_cons] at h
    obtain ⟨c₁, hf, h⟩ := Option.bind_eq_some_iff.mp h
    rw [List.cons_append, Machine.log_cons emits _ hf, Machine.log_cons emits _ hf, ih h,
      List.append_assoc]

theorem Machine.ReachableWhere.trans {c₁ c₂ : Conf Sh Loc} (h₁ : m.ReachableWhere P c₀ c₁)
    (h₂ : m.ReachableWhere P c₁ c₂) : m.ReachableWhere P c₀ c₂ := by
  obtain ⟨s, hs⟩ := h₁
  obtain ⟨t, ht⟩ := h₂
  refine ⟨s ++ t, ?_⟩
  rw [Machine.runWhere_append, hs, Option.bind_some, ht]

theorem Machine.Reachable.trans {c₁ c₂ : Conf Sh Loc} (h₁ : m.Reachable c₀ c₁)
    (h₂ : m.Reachable c₁ c₂) : m.Reachable c₀ c₂ :=
  Machine.ReachableWhere.trans h₁ h₂

theorem Machine.Reachable.step (h : m.Reachable c₀ c) (hf : m.fire i a c = some c') :
    m.Reachable c₀ c' := by
  obtain ⟨sched, hr⟩ := h
  refine ⟨sched ++ [(i, a)], ?_⟩
  rw [Machine.run_append, hr, Option.bind_some, Machine.run_cons, hf]
  rfl

/-- The invariant rule, where a step may use what is known of reachable configurations. -/
theorem Machine.invariant_reachable
    (hstep : ∀ c i a c', m.Reachable c₀ c → I c → m.fire i a c = some c' → I c')
    (h₀ : I c₀) (h : m.Reachable c₀ c) : I c := by
  have hboth : m.Reachable c₀ c ∧ I c := by
    refine m.invariant (I := fun c => m.Reachable c₀ c ∧ I c) ?_ ⟨⟨[], rfl⟩, h₀⟩ h
    intro c i a c' hc hf
    exact ⟨hc.1.step hf, hstep c i a c' hc.1 hc.2 hf⟩
  exact hboth.2

/-- Where restricted runs reach only good configurations and only the steps of restricted runs do,
    a run is restricted if and only if all configurations on its way are good. -/
theorem Machine.good_iff_runWhere {Good : Conf Sh Loc → Prop}
    (hgood : ∀ c, m.ReachableWhere P c₀ c → Good c)
    (honly : ∀ c i a c', m.ReachableWhere P c₀ c → m.fire i a c = some c' → Good c' →
      P c i a = true) (hr : m.run sched c₀ = some c) :
    (∀ s t c₁, sched = s ++ t → m.run s c₀ = some c₁ → Good c₁) ↔
      m.runWhere P sched c₀ = some c := by
  constructor
  · intro hall
    -- by induction on what is left of the run, after a part that is restricted
    have hrest : ∀ (t s : List (Nat × Act)) (c₁ : Conf Sh Loc), sched = s ++ t →
        m.runWhere P s c₀ = some c₁ → m.run t c₁ = some c → m.runWhere P t c₁ = some c := by
      intro t
      induction t with
      | nil => exact fun _ _ _ _ h => h
      | cons e t ih =>
        intro s c₁ hsched hs ht
        obtain ⟨i, a⟩ := e
        rw [Machine.run_cons] at ht
        obtain ⟨c₂, hf, ht⟩ := Option.bind_eq_some_iff.mp ht
        have hsched : sched = (s ++ [(i, a)]) ++ t := by rw [hsched, List.append_cons]
        have hrun : m.run (s ++ [(i, a)]) c₀ = some c₂ := by
          rw [Machine.run_append, m.run_of_runWhere hs, Option.bind_some, Machine.run_cons, hf]
          rfl
        have hp := honly c₁ i a c₂ ⟨s, hs⟩ hf (hall _ _ _ hsched hrun)
        have hs' : m.runWhere P (s ++ [(i, a)]) c₀ = some c₂ := by
          rw [Machine.runWhere_append, hs, Option.bind_some, Machine.runWhere, if_pos hp, hf]
          rfl
        rw [Machine.runWhere, if_pos hp, hf, Option.bind_some]
        exact ih _ c₂ hsched hs' ht
    exact hrest sched [] c₀ rfl rfl hr
  · rintro hwhere s t c₁ rfl hs
    rw [Machine.runWhere_append] at hwhere
    obtain ⟨c₂, hs', _⟩ := Option.bind_eq_some_iff.mp hwhere
    rw [m.run_of_runWhere hs'] at hs
    cases hs
    exact hgood _ ⟨s, hs'⟩

/-! ## Runs without end -/

/-- A run without end in which every step meets `P`. -/
structure Machine.Endless (m : Machine Sh Loc Act) (P : Conf Sh Loc → Nat → Act → Bool)
    (σ : Nat → Conf Sh Loc) (sched : Nat → Nat × Act) : Prop where
  meets : ∀ n, P (σ n) (sched n).1 (sched n).2 = true
  fires : ∀ n, m.fire (sched n).1 (sched n).2 (σ n) = some (σ (n + 1))

/-- Its first `n` steps. -/
theorem Machine.Endless.run {sched : Nat → Nat × Act} (h : m.Endless P σ sched) (n : Nat) :
    m.runWhere P ((List.range n).map sched) (σ 0) = some (σ n) := by
  induction n with
  | zero => rfl
  | succ n ih =>
    rw [List.range_succ, List.map_append, Machine.runWhere_append, ih, Option.bind_some,
      List.map_singleton, Machine.runWhere, if_pos (h.meets n), h.fires n]
    rfl

theorem Machine.Endless.reachable {sched : Nat → Nat × Act} (h : m.Endless P σ sched) (n : Nat) :
    m.ReachableWhere P (σ 0) (σ n) :=
  ⟨_, h.run n⟩

/-- The rule for what ends: a measure that no step raises while it goes on, and that the steps that
    come again and again lower. -/
theorem Machine.Endless.ends {sched : Nat → Nat × Act} [Preorder α] [WellFoundedLT α]
    (h : m.Endless P σ sched) (goesOn : Conf Sh Loc → Prop)
    (lowers : Conf Sh Loc → Nat → Act → Prop) (rank : Conf Sh Loc → α)
    (hstep : ∀ c i a c', m.ReachableWhere P (σ 0) c → P c i a = true → m.fire i a c = some c' →
      goesOn c → goesOn c' → rank c' ≤ rank c ∧ (lowers c i a → rank c' < rank c))
    (hoften : ∀ n, ∃ k, n ≤ k ∧ lowers (σ k) (sched k).1 (sched k).2) : ∃ n, ¬ goesOn (σ n) := by
  by_contra hall
  have hon : ∀ n, goesOn (σ n) := fun n => not_not.mp fun h => hall ⟨n, h⟩
  have hrank := fun n => hstep _ _ _ _ (h.reachable n) (h.meets n) (h.fires n) (hon n) (hon (n + 1))
  have hanti : Antitone fun n => rank (σ n) := antitone_nat_of_succ_le fun n => (hrank n).1
  -- by induction on the measure no configuration has one
  have hnone : ∀ a : α, ∀ n, rank (σ n) ≠ a := by
    intro a
    induction a using WellFoundedLT.induction with
    | ind a ih =>
      rintro n rfl
      obtain ⟨k, hk, hlow⟩ := hoften n
      exact ih _ (lt_of_lt_of_le ((hrank k).2 hlow) (hanti hk)) (k + 1) rfl
  exact hnone _ 0 rfl

/-- A thread that stays busy takes a step sooner or later. -/
def Fair (busy : Loc → Bool) (σ : Nat → Conf Sh Loc) (sched : Nat → Nat × Act) : Prop :=
  ∀ i k, (∀ n, k ≤ n → ∃ l, (σ n).locals[i]? = some l ∧ busy l = true) →
    ∃ n, k ≤ n ∧ (sched n).1 = i

/-- The rule for what ends when the schedule is fair: while it goes on there is a busy thread that
    helps, and it helps until a step lowers the measure, as its own step does. -/
theorem Machine.Endless.ends_of_fair {sched : Nat → Nat × Act} [Preorder α] [WellFoundedLT α]
    {busy : Loc → Bool} (h : m.Endless P σ sched) (hfair : Fair busy σ sched)
    (goesOn : Conf Sh Loc → Prop) (helps : Conf Sh Loc → Nat → Prop) (rank : Conf Sh Loc → α)
    (hstep : ∀ c i a c', m.ReachableWhere P (σ 0) c → P c i a = true → m.fire i a c = some c' →
      rank c' < rank c ∨ rank c' ≤ rank c ∧ ¬ helps c i ∧ ∀ j, helps c j → helps c' j)
    (hhelps : ∀ c, m.ReachableWhere P (σ 0) c → goesOn c → ∃ i, helps c i)
    (hbusy : ∀ c i, helps c i → ∃ l, c.locals[i]? = some l ∧ busy l = true) :
    ∃ n, ¬ goesOn (σ n) := by
  by_contra hall
  have hon : ∀ n, goesOn (σ n) := fun n => not_not.mp fun h => hall ⟨n, h⟩
  have hsteps := fun n => hstep _ _ _ _ (h.reachable n) (h.meets n) (h.fires n)
  have hoften : ∀ k, ∃ n, k ≤ n ∧
      ∃ c', m.fire (sched n).1 (sched n).2 (σ n) = some c' ∧ rank c' < rank (σ n) := by
    intro k
    by_contra hnone
    have hnot : ∀ n, k ≤ n → ¬ rank (σ (n + 1)) < rank (σ n) :=
      fun n hn hlow => hnone ⟨n, hn, _, h.fires n, hlow⟩
    obtain ⟨i, hi⟩ := hhelps _ (h.reachable k) (hon k)
    have hstays : ∀ n, k ≤ n → helps (σ n) i := by
      intro n hn
      induction n, hn using Nat.le_induction with
      | base => exact hi
      | succ n hn ih => exact ((hsteps n).resolve_left (hnot n hn)).2.2 i ih
    obtain ⟨n, hn, rfl⟩ := hfair i k fun n hn => hbusy _ _ (hstays n hn)
    exact ((hsteps n).resolve_left (hnot n hn)).2.1 (hstays n hn)
  obtain ⟨n, hn⟩ := h.ends goesOn (fun c i a => ∃ c', m.fire i a c = some c' ∧ rank c' < rank c)
    rank (by
      intro c i a c' hc hp hf _ _
      refine ⟨(hstep c i a c' hc hp hf).elim le_of_lt fun h => h.1, ?_⟩
      rintro ⟨c₁, hf₁, hlow⟩
      rw [hf] at hf₁
      cases hf₁
      exact hlow) hoften
  exact hn (hon n)

/-! ## One thread alone -/

/-- A thread takes `k` steps, each chosen by `a`. -/
def Machine.alone (m : Machine Sh Loc Act) (a : Act) : Nat → Sh × Loc → Option (Sh × Loc)
  | 0, s => some s
  | k + 1, s => (m.step a s.1 s.2).bind (m.alone a k)

theorem Machine.alone_add (m : Machine Sh Loc Act) (a : Act) (j k : Nat) (s : Sh × Loc) :
    m.alone a (j + k) s = (m.alone a j s).bind (m.alone a k) := by
  induction j generalizing s with
  | zero =>
    rw [Nat.zero_add]
    rfl
  | succ j ih =>
    rw [Nat.succ_add, Machine.alone, Machine.alone, Option.bind_assoc]
    exact congrArg _ (funext ih)

theorem Machine.alone_succ {s s' : Sh × Loc} (h : m.step a s.1 s.2 = some s') (k : Nat) :
    m.alone a (k + 1) s = m.alone a k s' := by
  rw [Machine.alone, h, Option.bind_some]

theorem Machine.alone_trans {s s' : Sh × Loc} {r : Option (Sh × Loc)} (h : m.alone a j s = some s')
    (h' : m.alone a k s' = r) :
    m.alone a (j + k) s = r := by
  rw [Machine.alone_add, h, Option.bind_some, h']

/-- The threads named take the numbers of steps named, one after the other. -/
def Machine.bursts (m : Machine Sh Loc Act) (a : Act) :
    List (Nat × Nat) → Conf Sh Loc → Option (Conf Sh Loc)
  | [], c => some c
  | (i, k) :: rest, c =>
    (c.locals[i]?).bind fun l =>
      (m.alone a k (c.shared, l)).bind fun s => m.bursts a rest ⟨s.1, c.locals.set i s.2⟩

theorem Machine.bursts_append (m : Machine Sh Loc Act) (a : Act) (bs bs' : List (Nat × Nat))
    (c : Conf Sh Loc) : m.bursts a (bs ++ bs') c = (m.bursts a bs c).bind (m.bursts a bs') := by
  induction bs generalizing c with
  | nil => rfl
  | cons b bs ih =>
    simp only [List.cons_append, Machine.bursts, ih, Option.bind_assoc]

/-- Threads take their turns in order, each of `k` steps alone. `P` is what holds of the shared
    store when a turn begins, `Q` of a thread before its turn and `R` behind it. -/
theorem Machine.bursts_turns {P : Nat → Sh → Prop} {Q R : Nat → Loc → Prop}
    (hturn : ∀ i sh l, P i sh → Q i l →
      ∃ sh' l', m.alone a k (sh, l) = some (sh', l') ∧ P (i + 1) sh' ∧ R i l')
    {first n : Nat} (hshared : P first c.shared)
    (hlocals : ∀ i, first ≤ i → i < first + n → ∃ l, c.locals[i]? = some l ∧ Q i l) :
    ∃ c', m.bursts a ((List.range' first n).map (·, k)) c = some c' ∧ P (first + n) c'.shared ∧
      (∀ i, first ≤ i → i < first + n → ∃ l, c'.locals[i]? = some l ∧ R i l) ∧
      ∀ i, i < first ∨ first + n ≤ i → c'.locals[i]? = c.locals[i]? := by
  induction n generalizing first c with
  | zero => exact ⟨c, rfl, hshared, fun i hi hlt => by omega, fun _ _ => rfl⟩
  | succ n ih =>
    obtain ⟨l, hl, hQ⟩ := hlocals first (Nat.le_refl first) (by omega)
    obtain ⟨sh', l', halone, hP, hR⟩ := hturn first c.shared l hshared hQ
    have hlt := (List.getElem?_eq_some_iff.mp hl).1
    have hother : ∀ i, i ≠ first → (c.locals.set first l')[i]? = c.locals[i]? := fun i hi => by
      rw [List.getElem?_set_ne (Ne.symm hi)]
    have hwaiting : ∀ i, first + 1 ≤ i → i < first + 1 + n →
        ∃ l, (c.locals.set first l')[i]? = some l ∧ Q i l := by
      intro i hi hlt
      rw [hother i (by omega)]
      exact hlocals i (by omega) (by omega)
    obtain ⟨c', hbursts, hP', hdone, hrest⟩ := ih
      (c := ⟨sh', c.locals.set first l'⟩) hP hwaiting
    refine ⟨c', ?_, by rwa [show first + (n + 1) = first + 1 + n by omega], fun i hi hlt' => ?_,
      fun i hi => ?_⟩
    · rw [List.range'_succ, List.map_cons, Machine.bursts, hl, Option.bind_some, halone,
        Option.bind_some]
      exact hbursts
    · rcases Nat.eq_or_lt_of_le hi with rfl | hi
      · exact ⟨l', by rw [hrest first (by omega), List.getElem?_set_self hlt], hR⟩
      · exact hdone i hi (by omega)
    · rw [hrest i (by omega), hother i (by omega)]

/-- Where the environment promises nothing, a thread alone makes a run. -/
theorem Machine.run_alone (hadm : ∀ a sh ls l, m.admits a sh ls l = true) {s : Sh × Loc}
    (hl : c.locals[i]? = some l) (h : m.alone a k (c.shared, l) = some s) :
    m.run (List.replicate k (i, a)) c = some ⟨s.1, c.locals.set i s.2⟩ := by
  have hlt := (List.getElem?_eq_some_iff.mp hl).1
  induction k generalizing c l with
  | zero =>
    cases h
    rw [List.getElem?_eq_some_iff] at hl
    obtain ⟨_, rfl⟩ := hl
    rw [List.set_getElem_self]
    rfl
  | succ k ih =>
    obtain ⟨s₁, hs₁, hrest⟩ := Option.bind_eq_some_iff.mp h
    have hfire : m.fire i a c = some ⟨s₁.1, c.locals.set i s₁.2⟩ := by
      unfold Machine.fire
      rw [hl]
      simp only [hadm, if_true, hs₁, Option.map_some]
    have hnext := ih (c := ⟨s₁.1, c.locals.set i s₁.2⟩) (l := s₁.2)
      (List.getElem?_set_self hlt) hrest (by rw [List.length_set]; exact hlt)
    rw [List.set_set] at hnext
    rw [List.replicate_succ, Machine.run_cons, hfire, Option.bind_some]
    exact hnext

theorem Machine.run_bursts (hadm : ∀ a sh ls l, m.admits a sh ls l = true) {bs : List (Nat × Nat)}
    (h : m.bursts a bs c = some c') :
    m.run (bs.flatMap fun b => List.replicate b.2 (b.1, a)) c = some c' := by
  induction bs generalizing c with
  | nil => exact h
  | cons b bs ih =>
    obtain ⟨i, k⟩ := b
    obtain ⟨l, hl, h⟩ := Option.bind_eq_some_iff.mp h
    obtain ⟨s, hs, h⟩ := Option.bind_eq_some_iff.mp h
    rw [List.flatMap_cons, Machine.run_append, Machine.run_alone hadm hl hs, Option.bind_some]
    exact ih h

/-! ## Measures summed over the threads -/

def total (f : Loc → Nat) (ls : List Loc) : Nat := (ls.map f).sum

/-- The indicator of a phase, as a measure. -/
def ind (p : Loc → Bool) (l : Loc) : Nat := if p l then 1 else 0

theorem ind_true (h : p l = true) : ind p l = 1 := if_pos h

theorem ind_false (h : p l = false) : ind p l = 0 := by
  simp [ind, h]

theorem ind_pos : 0 < ind p l ↔ p l = true := by
  cases h : p l <;> simp [ind, h]

@[simp] theorem total_nil (f : Loc → Nat) : total f [] = 0 := rfl

@[simp] theorem total_cons (f : Loc → Nat) (l : Loc) (ls : List Loc) :
    total f (l :: ls) = f l + total f ls := by
  simp [total]

theorem total_replicate (f : Loc → Nat) (n : Nat) (l : Loc) :
    total f (List.replicate n l) = n * f l := by
  simp [total]

/-- When thread `i` moves from `l` to `l'`, the sum moves by the difference. -/
theorem total_set (f : Loc → Nat) (l' : Loc) (h : ls[i]? = some l) :
    total f (ls.set i l') + f l = total f ls + f l' := by
  induction ls generalizing i with
  | nil => simp at h
  | cons x xs ih =>
    cases i with
    | zero =>
      simp only [List.getElem?_cons_zero, Option.some.injEq] at h
      subst h
      simp only [List.set_cons_zero, total_cons]
      omega
    | succ i =>
      have := ih (by simpa using h)
      simp only [List.set_cons_succ, total_cons]
      omega

/-- `total_set`, where the entry is updated in place. -/
theorem total_modify (f : Loc → Nat) (u : Loc → Loc) (h : ls[i]? = some l) :
    total f (ls.modify i u) + f l = total f ls + f (u l) := by
  have hset : ls.modify i u = ls.set i (u l) := by
    rw [List.modify_eq_set_getElem?, h]
    rfl
  rw [hset]
  exact total_set f (u l) h

theorem total_concat (f : Loc → Nat) (ls : List Loc) (l : Loc) :
    total f (ls ++ [l]) = total f ls + f l := by
  simp [total]

theorem le_total (f : Loc → Nat) (h : l ∈ ls) : f l ≤ total f ls := by
  induction ls with
  | nil => cases h
  | cons x xs ih =>
    rw [total_cons]
    rcases List.mem_cons.mp h with rfl | h
    · omega
    · have := ih h
      omega

theorem total_eq_zero :
    total f ls = 0 ↔ ∀ l ∈ ls, f l = 0 := by
  induction ls with
  | nil => simp
  | cons x xs ih => simp [ih]

/-- A flag that counts the threads in a phase is set where one of them is. -/
theorem true_of_total {b : Bool} (h : total (ind p) ls = b.toNat) (hl : l ∈ ls) (hp : p l = true) :
    b = true := by
  have hle := le_total (ind p) hl
  rw [ind_true hp, h] at hle
  cases b with
  | true => rfl
  | false => cases hle

theorem exists_of_total_pos (h : 0 < total f ls) :
    ∃ l ∈ ls, 0 < f l := by
  by_contra hn
  have : total f ls = 0 := total_eq_zero.mpr fun l hl => by
    by_contra h0
    exact hn ⟨l, hl, Nat.pos_of_ne_zero h0⟩
  omega

theorem total_add (f g : Loc → Nat) (ls : List Loc) :
    total (fun l => f l + g l) ls = total f ls + total g ls := by
  induction ls with
  | nil => rfl
  | cons x xs ih =>
    simp only [total_cons, ih]
    omega

theorem total_mono_of_mem {g : Loc → Nat} (h : ∀ l ∈ ls, f l ≤ g l) :
    total f ls ≤ total g ls := by
  induction ls with
  | nil => exact Nat.le_refl _
  | cons x xs ih =>
    have hx := h x List.mem_cons_self
    have hxs := ih fun l hl => h l (List.mem_cons_of_mem x hl)
    rw [total_cons, total_cons]
    omega

theorem total_mono {g : Loc → Nat} (ls : List Loc) (h : ∀ l, f l ≤ g l) :
    total f ls ≤ total g ls :=
  total_mono_of_mem fun l _ => h l

/-- Two different threads both count in the sum. -/
theorem add_le_total (f : Loc → Nat) {k : Loc} (hij : i ≠ j) (hi : ls[i]? = some l)
    (hj : ls[j]? = some k) : f l + f k ≤ total f ls := by
  induction ls generalizing i j with
  | nil => simp at hi
  | cons x xs ih =>
    cases i with
    | zero =>
      cases j with
      | zero => exact absurd rfl hij
      | succ j =>
        simp only [List.getElem?_cons_zero, Option.some.injEq] at hi
        have hk := le_total f (List.mem_of_getElem? (by simpa using hj : xs[j]? = some k))
        rw [total_cons, hi]
        omega
    | succ i =>
      cases j with
      | zero =>
        simp only [List.getElem?_cons_zero, Option.some.injEq] at hj
        have hl := le_total f (List.mem_of_getElem? (by simpa using hi : xs[i]? = some l))
        rw [total_cons, hj]
        omega
      | succ j =>
        have := ih (fun e => hij (congrArg _ e)) (by simpa using hi) (by simpa using hj)
        rw [total_cons]
        omega

/-- Where no other thread counts, the sum is what thread `i` counts. -/
theorem total_eq_single (hi : ls[i]? = some l) (h : ∀ j k, j ≠ i → ls[j]? = some k → f k = 0) :
    total f ls = f l := by
  induction ls generalizing i with
  | nil => simp at hi
  | cons x xs ih =>
    cases i with
    | zero =>
      simp only [List.getElem?_cons_zero, Option.some.injEq] at hi
      have hrest : total f xs = 0 := total_eq_zero.mpr fun k hk => by
        obtain ⟨j, hj⟩ := List.mem_iff_getElem?.mp hk
        exact h (j + 1) k (by omega) (by simpa using hj)
      rw [total_cons, hrest, hi, Nat.add_zero]
    | succ i =>
      have hrest := ih (by simpa using hi) fun j k hne hj =>
        h (j + 1) k (by omega) (by simpa using hj)
      rw [total_cons, h 0 x (by omega) rfl, hrest, Nat.zero_add]

/-! ## Tables that only grow -/

/-- An entry of a table stays when the table grows at its end. -/
theorem getElem?_of_prefix {xs ys : List α} {n : Nat} {v : α} (h : xs <+: ys)
    (hn : xs[n]? = some v) :
    ys[n]? = some v := by
  obtain ⟨t, rfl⟩ := h
  rw [List.getElem?_append_left (List.getElem?_eq_some_iff.mp hn).1]
  exact hn

/-! ## One entry put in the place of another -/

theorem perm_set {xs : List α} {a : α} (h : xs[i]? = some a) :
    ∃ others, xs.Perm (a :: others) ∧ ∀ b, (xs.set i b).Perm (b :: others) := by
  obtain ⟨hlt, rfl⟩ := List.getElem?_eq_some_iff.mp h
  refine ⟨xs.take i ++ xs.drop (i + 1), ?_, fun b => ?_⟩
  · have hsplit : xs = xs.take i ++ xs[i] :: xs.drop (i + 1) := by
      rw [List.getElem_cons_drop, List.take_append_drop]
    nth_rewrite 1 [hsplit]
    exact List.perm_middle
  · rw [List.set_eq_take_append_cons_drop, if_pos hlt]
    exact List.perm_middle

/-- What all entries hold, with entry `i`'s part apart: the rest stays when `i` changes. -/
theorem flatMap_set (f : α → List β) {xs : List α} {a : α} (h : xs[i]? = some a) :
    ∃ rest, (xs.flatMap f).Perm (f a ++ rest) ∧
      ∀ b, ((xs.set i b).flatMap f).Perm (f b ++ rest) := by
  obtain ⟨others, hbefore, hafter⟩ := perm_set h
  exact ⟨others.flatMap f, hbefore.flatMap_right f, fun b => (hafter b).flatMap_right f⟩

/-- What all stacks hold, with thread `i`'s stack apart: the rest stays when `i` moves. -/
theorem flatten_set {ls : List (List α)} {l : List α} (h : ls[i]? = some l) :
    ∃ rest, ls.flatten.Perm (l ++ rest) ∧ ∀ l', (ls.set i l').flatten.Perm (l' ++ rest) := by
  simpa only [List.flatMap_id, id_eq] using flatMap_set id h

/-! ## One thread against the others -/

/-- After thread `i` moved to `l'`, a thread of the new configuration is thread `i` at
    `l'`, or another one where it was. -/
theorem set_cases {l' k : Loc} (h : (ls.set i l')[j]? = some k) :
    (j = i ∧ k = l') ∨ (j ≠ i ∧ ls[j]? = some k) := by
  by_cases hij : i = j
  · subst hij
    left
    rw [List.getElem?_set_self'] at h
    obtain ⟨_, _, hk⟩ := Option.map_eq_some_iff.mp h
    exact ⟨rfl, hk.symm⟩
  · right
    rw [List.getElem?_set_ne hij] at h
    exact ⟨Ne.symm hij, h⟩

/-- A per-thread predicate survives a step of thread `i` when the new local state has it
    and no other thread loses it. -/
theorem forall_set {l' : Loc} {P : Loc → Prop} (hl' : P l')
    (hrest : ∀ j k, j ≠ i → ls[j]? = some k → P k) : ∀ k ∈ ls.set i l', P k := by
  intro k hk
  obtain ⟨j, hj⟩ := List.mem_iff_getElem?.mp hk
  rcases set_cases hj with ⟨_, rfl⟩ | ⟨hne, hj'⟩
  · exact hl'
  · exact hrest j k hne hj'

/-- If at most one thread counts and thread `i` does, no other thread does. -/
theorem others_zero (h1 : total f ls ≤ 1) (hi : ls[i]? = some l) (hl : 0 < f l) :
    ∀ j k, j ≠ i → ls[j]? = some k → f k = 0 := by
  intro j k hne hj
  have := add_le_total f hne.symm hi hj
  omega

end Interleave
