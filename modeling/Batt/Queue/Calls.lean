/-
  Sequences of calls on a queue, one after the other by one task.

  `pending_count_` and the deque are updated one after the other; `gap` is how far the counter and
  what the call has still to do are ahead of the deque. An access keeps the gap (`gap_exec`), and it
  is zero when a call begins and when it returns. `pop_next_or_panic` is public, and does not count
  its item down: as a call of its own it begins, and ends, with a gap of one, and the next pop that
  goes by the counter finds the deque empty.

  A deque holds at most PTRDIFF_MAX items: an insertion beyond that throws, and the call does not
  return. Nobody wakes a task that waits for an item: it goes on when the queue is closed.
-/
import Batt.Queue.Model

namespace Batt.Queue

variable {T : Type} {sh sh' : Shared T} {pc pc' : Pc T} {weak : Bool} {ret : Ret T} {items : List T}

/-! ## Calls -/

inductive Call (T : Type) where
  | op (o : Op T)
  | popNextOrPanic
  deriving DecidableEq, Repr

def Call.begin : Call T → Pc T
  | .op o => Queue.begin o
  | .popNextOrPanic => .lockPop .tryPopNext

/-- PTRDIFF_MAX -/
def maxSize : Nat := 2 ^ 63 - 1

/-- The accesses from `pc` on, until the call returns. -/
inductive Returns : Shared T → Pc T → Shared T → Ret T → Prop where
  | finish (sh : Shared T) (ret : Ret T) : Returns sh (.finish ret) sh ret
  | step {sh sh' sh'' : Shared T} {pc pc' : Pc T} {weak : Bool} {ret : Ret T}
      (hexec : exec weak sh pc = some (sh', pc')) (hsize : sh'.items.length ≤ maxSize)
      (hrest : Returns sh' pc' sh'' ret) : Returns sh pc sh'' ret

/-- `BATT_CHECK(!locked->empty())` can fail. -/
inductive Panics : Shared T → Pc T → Prop where
  | front {sh : Shared T} (k : Caller) (hempty : sh.items = []) : Panics sh (.front k)
  | step {sh sh' : Shared T} {pc pc' : Pc T} {weak : Bool}
      (hexec : exec weak sh pc = some (sh', pc')) (hsize : sh'.items.length ≤ maxSize)
      (hrest : Panics sh' pc') : Panics sh pc

/-- The calls return one after the other, and leave these states. -/
inductive CallRun : Shared T → List (Call T) → List (Shared T) → Prop where
  | nil (sh : Shared T) : CallRun sh [] []
  | cons {sh sh' : Shared T} {c : Call T} {cs : List (Call T)} {shs : List (Shared T)}
      {ret : Ret T} (hcall : Returns sh c.begin sh' ret) (hrest : CallRun sh' cs shs) :
      CallRun sh (c :: cs) (sh' :: shs)

def emptyQueue : Shared T := (initial 0).shared

/-! ## The counter and the deque -/

/-- What a call has added to the deque and not to the counter, or taken from the counter and not
    from the deque. -/
def owed : Pc T → Int
  | .insert done _ => done.length
  | .notify batch => batch.length
  | .lockPop _ | .front _ | .popFront _ _ => 1
  | _ => 0

def gap (sh : Shared T) (pc : Pc T) : Int := sh.pendingCount + owed pc - sh.items.length

/-- The call has the lock. -/
def holdsLock : Pc T → Bool
  | .insert _ _ | .front _ | .popFront _ _ | .unlockPop _ _ => true
  | _ => false

structure Running (sh : Shared T) (pc : Pc T) : Prop where
  lock : sh.locked = holdsLock pc
  counter : 0 ≤ sh.pendingCount
  popping : ∀ k v, pc = .popFront k v → sh.items.head? = some v

/-- Between two calls. -/
structure Coherent (sh : Shared T) : Prop where
  unlocked : sh.locked = false
  count : sh.pendingCount = sh.items.length
  size : sh.items.length ≤ maxSize

theorem addI64_eq {n count : Int} (hlo : 0 ≤ n + count) (hhi : n + count < 2 ^ 63) :
    addI64 n count = n + count := by
  unfold addI64
  exact Int.bmod_eq_of_le (by omega) (by omega)

theorem decrementIfPositive_some {n m : Int} (h : decrementIfPositive n = some m) :
    0 < n ∧ m = n - 1 := by
  unfold decrementIfPositive at h
  split at h
  · cases h
    exact ⟨‹_›, rfl⟩
  · cases h

theorem running_of_pop {sh : Shared T} {pc : Pc T} (hlock : sh.locked = holdsLock pc)
    (hcounter : 0 ≤ sh.pendingCount) (hpc : ∀ k v, pc ≠ .popFront k v) : Running sh pc :=
  ⟨hlock, hcounter, fun k v h => absurd h (hpc k v)⟩

/-- What a pop that goes by the counter does when it has read `old`. -/
theorem gap_reserve {old new : Int} {k : Caller} (hrun : Running sh pc) (howed : owed pc = 0)
    (hlock : holdsLock pc = false) (hnew : decrementIfPositive old = some new)
    (hcas : sh.pendingCount = old) :
    gap (sh.setPending new) (.lockPop k) = gap sh pc ∧
      Running (sh.setPending new) (.lockPop k) := by
  obtain ⟨hpos, rfl⟩ := decrementIfPositive_some hnew
  refine ⟨?_, running_of_pop (hrun.lock.trans hlock) (by simp only [Shared.setPending]; omega) nofun⟩
  unfold gap
  rw [howed]
  simp only [owed, Shared.setPending]
  omega

/-- **An access keeps the gap**, as long as the counter does not overflow. -/
theorem gap_exec (hrun : Running sh pc) (hfits : ∀ batch, pc = .notify batch → gap sh pc = 0)
    (hsize : sh.items.length ≤ maxSize) (h : exec weak sh pc = some (sh', pc')) :
    gap sh' pc' = gap sh pc ∧ Running sh' pc' := by
  have hlock := hrun.lock
  have hcounter := hrun.counter
  cases pc with
  | isOpen batch =>
    cases h
    split <;> exact ⟨rfl, running_of_pop hlock hcounter nofun⟩
  | lockPush batch =>
    simp only [exec] at h
    split at h <;> cases h
    exact ⟨rfl, running_of_pop rfl hcounter nofun⟩
  | insert done rest =>
    cases rest with
    | nil =>
      cases h
      exact ⟨rfl, running_of_pop rfl hcounter nofun⟩
    | cons x rest =>
      cases h
      refine ⟨?_, running_of_pop hlock hcounter nofun⟩
      simp only [gap, owed, List.length_append, List.length_singleton]
      omega
  | notify batch =>
    cases h
    have hgap := hfits batch rfl
    simp only [gap, owed] at hgap
    have hadd : addI64 sh.pendingCount batch.length = sh.pendingCount + batch.length :=
      addI64_eq (by omega) (by unfold maxSize at hsize; omega)
    simp only [gap, owed, Shared.setPending, hadd]
    refine ⟨by omega, running_of_pop hlock ?_ nofun⟩
    simp only
    omega
  | awaitModifyLoad | modifyIfLoad k =>
    cases h
    exact ⟨rfl, running_of_pop hlock hcounter nofun⟩
  | awaitModifyCas old =>
    simp only [exec] at h
    split at h
    · cases h
      exact ⟨rfl, running_of_pop hlock hcounter nofun⟩
    · rename_i new hnew
      split at h <;> cases h
      · rename_i hcas
        exact gap_reserve hrun rfl rfl hnew hcas.2
      · exact ⟨rfl, running_of_pop hlock hcounter nofun⟩
  | awaitNotEqual old =>
    simp only [exec] at h
    split at h <;> cases h
    exact ⟨rfl, running_of_pop hlock hcounter nofun⟩
  | modifyIfCas k old =>
    simp only [exec] at h
    split at h
    · cases h
      cases k <;> exact ⟨rfl, running_of_pop hlock hcounter nofun⟩
    · rename_i new hnew
      split at h <;> cases h
      · rename_i hcas
        exact gap_reserve hrun rfl rfl hnew hcas.2
      · exact ⟨rfl, running_of_pop hlock hcounter nofun⟩
  | lockPop k =>
    simp only [exec] at h
    split at h <;> cases h
    exact ⟨rfl, running_of_pop rfl hcounter nofun⟩
  | front k =>
    simp only [exec] at h
    split at h <;> cases h
    rename_i v rest hitems
    refine ⟨rfl, hlock, hcounter, ?_⟩
    rintro _ _ ⟨⟩
    rw [hitems]
    rfl
  | popFront k v =>
    cases h
    obtain ⟨rest, hitems⟩ := List.head?_eq_some_iff.mp (hrun.popping k v rfl)
    refine ⟨?_, running_of_pop hlock hcounter nofun⟩
    simp only [gap, owed, hitems, List.tail_cons, List.length_cons]
    omega
  | unlockPop k v =>
    cases h
    cases k <;> exact ⟨rfl, running_of_pop rfl hcounter nofun⟩
  | closePending =>
    cases h
    exact ⟨rfl, running_of_pop hlock hcounter nofun⟩
  | finish ret => cases h

/-- A call that begins with no gap returns with none. -/
theorem Returns.coherent (h : Returns sh pc sh' ret) (hrun : Running sh pc) (hgap : gap sh pc = 0)
    (hsize : sh.items.length ≤ maxSize) : Coherent sh' := by
  induction h with
  | finish sh ret =>
    simp only [gap, owed] at hgap
    exact ⟨hrun.lock, by omega, hsize⟩
  | step hexec hsize' _ ih =>
    obtain ⟨hgap', hrun'⟩ := gap_exec hrun (fun _ _ => hgap) hsize hexec
    exact ih hrun' (hgap'.trans hgap) hsize'

theorem Coherent.gap_eq (hc : Coherent sh) (howed : owed pc = 0) : gap sh pc = 0 := by
  unfold gap
  rw [howed, hc.count]
  omega

theorem Coherent.running (hc : Coherent sh) (hlock : holdsLock pc = false)
    (hpc : ∀ k v, pc ≠ .popFront k v) : Running sh pc :=
  running_of_pop (hc.unlocked.trans hlock.symm) (by rw [hc.count]; exact Int.natCast_nonneg _) hpc

theorem Coherent.begin_running (hc : Coherent sh) (o : Op T) :
    Running sh (begin o) ∧ gap sh (begin o) = 0 := by
  cases o <;> exact ⟨hc.running rfl nofun, hc.gap_eq rfl⟩

theorem Coherent.call (hc : Coherent sh) {o : Op T} (h : Returns sh (begin o) sh' ret) :
    Coherent sh' :=
  h.coherent (hc.begin_running o).1 (hc.begin_running o).2 hc.size

/-! ## pop_next_or_panic as a call -/

theorem returns_lockPop {k : Caller} (h : Returns sh (.lockPop k) sh' ret) (hk : k = .tryPopNext) :
    sh'.pendingCount = sh.pendingCount ∧ sh'.items.length + 1 = sh.items.length := by
  subst hk
  cases h with
  | step hexec _ hrest =>
    simp only [exec] at hexec
    split at hexec <;> cases hexec
    cases hrest with
    | step hexec hfits hrest =>
      simp only [exec] at hexec
      split at hexec <;> cases hexec
      rename_i v rest hitems
      cases hrest with
      | step hexec _ hrest =>
        cases hexec
        cases hrest with
        | step hexec _ hrest =>
          cases hexec
          cases hrest with
          | finish =>
            simp [hitems]
          | step hexec _ _ => cases hexec

/-! ## The pops that go by the counter -/

def popResult (empty : Ret T) (items : List T) : Ret T :=
  match items with
  | [] => empty
  | v :: _ => .item v

/-- Where a pop of one item is: it has not touched the deque, which held `items`, or it has taken
    the oldest of them. `empty` is what it returns if there is none. -/
def PopAt (empty : Ret T) (items : List T) (sh : Shared T) : Pc T → Prop
  | .awaitModifyLoad => sh.items = items ∧ empty = .status .kClosed
  | .awaitModifyCas old => sh.items = items ∧ empty = .status .kClosed ∧ old = sh.pendingCount
  | .awaitNotEqual _ => items = [] ∧ empty = .status .kClosed
  | .modifyIfLoad k => sh.items = items ∧ empty = .none ∧ k = .tryPopNext
  | .modifyIfCas k old =>
    sh.items = items ∧ empty = .none ∧ k = .tryPopNext ∧ old = sh.pendingCount
  | .lockPop k | .front k => sh.items = items ∧ (k = .awaitNext ∨ k = .tryPopNext)
  | .popFront k v | .unlockPop k v =>
    items.head? = some v ∧ (k = .awaitNext ∨ k = .tryPopNext)
  | .finish ret => ret = popResult empty items
  | _ => False

theorem items_eq_nil_of_gap (hitems : sh.items = items) (howed : owed pc = 0) (hgap : gap sh pc = 0)
    (hnone : decrementIfPositive sh.pendingCount = none) : items = [] := by
  unfold gap at hgap
  unfold decrementIfPositive at hnone
  split at hnone
  · cases hnone
  · rw [howed, hitems] at hgap
    exact List.eq_nil_of_length_eq_zero (by omega)

theorem popAt_exec {empty : Ret T} (hpop : PopAt empty items sh pc) (hgap : gap sh pc = 0)
    (h : exec weak sh pc = some (sh', pc')) : PopAt empty items sh' pc' := by
  cases pc with
  | awaitModifyLoad =>
    cases h
    exact ⟨hpop.1, hpop.2, rfl⟩
  | awaitModifyCas old =>
    obtain ⟨hitems, hempty, rfl⟩ := hpop
    simp only [exec] at h
    split at h
    · cases h
      exact ⟨items_eq_nil_of_gap hitems rfl hgap ‹_›, hempty⟩
    · split at h <;> cases h
      · exact ⟨hitems, .inl rfl⟩
      · exact ⟨hitems, hempty, rfl⟩
  | awaitNotEqual old =>
    obtain ⟨rfl, rfl⟩ := hpop
    simp only [exec] at h
    split at h <;> cases h
    rfl
  | modifyIfLoad k =>
    cases h
    exact ⟨hpop.1, hpop.2.1, hpop.2.2, rfl⟩
  | modifyIfCas k old =>
    obtain ⟨hitems, rfl, rfl, rfl⟩ := hpop
    simp only [exec] at h
    split at h
    · cases h
      obtain rfl := items_eq_nil_of_gap hitems rfl hgap ‹_›
      rfl
    · split at h <;> cases h
      · exact ⟨hitems, .inr rfl⟩
      · exact ⟨hitems, rfl, rfl, rfl⟩
  | lockPop k =>
    simp only [exec] at h
    split at h <;> cases h
    exact hpop
  | front k =>
    simp only [exec] at h
    split at h <;> cases h
    rename_i v rest hitems
    rw [← hpop.1, hitems]
    exact ⟨rfl, hpop.2⟩
  | popFront k v =>
    cases h
    exact hpop
  | unlockPop k v =>
    cases h
    obtain ⟨rest, rfl⟩ := List.head?_eq_some_iff.mp hpop.1
    obtain rfl | rfl := hpop.2 <;> rfl
  | isOpen _ | lockPush _ | insert _ _ | notify _ | closePending => cases hpop
  | finish ret => cases h

/-- A pop returns the oldest item, if there is one. -/
theorem Returns.popResult {empty : Ret T} (h : Returns sh pc sh' ret)
    (hpop : PopAt empty items sh pc) (hrun : Running sh pc) (hgap : gap sh pc = 0)
    (hsize : sh.items.length ≤ maxSize) : ret = popResult empty items := by
  induction h with
  | finish sh ret => exact hpop
  | step hexec hsize' _ ih =>
    obtain ⟨hgap', hrun'⟩ := gap_exec hrun (fun _ _ => hgap) hsize hexec
    exact ih (popAt_exec hpop hgap hexec) hrun' (hgap'.trans hgap) hsize'

/-- And the check in it holds. -/
theorem Panics.absurd (h : Panics sh pc) (hrun : Running sh pc) (hgap : gap sh pc = 0)
    (hsize : sh.items.length ≤ maxSize) : False := by
  induction h with
  | front k hempty =>
    have hcounter := hrun.counter
    simp only [gap, owed, hempty, List.length_nil] at hgap
    omega
  | step hexec hsize' _ ih =>
    obtain ⟨hgap', hrun'⟩ := gap_exec hrun (fun _ _ => hgap) hsize hexec
    exact ih hrun' (hgap'.trans hgap) hsize'

theorem returns_pop {k : Caller} {v : T} {rest : List T} (hunlocked : sh.locked = false)
    (hitems : sh.items = v :: rest) (hsize : sh.items.length ≤ maxSize)
    (hk : k = .awaitNext ∨ k = .tryPopNext) : ∃ sh', Returns sh (.lockPop k) sh' (.item v) := by
  have hrest : rest.length ≤ maxSize := by
    rw [hitems, List.length_cons] at hsize
    omega
  have hlock : exec true sh (.lockPop k) = some ({ sh with locked := true }, .front k) := by
    simp [exec, hunlocked]
  have hfront : exec true { sh with locked := true } (.front k) =
      some ({ sh with locked := true }, .popFront k v) := by
    simp [exec, hitems]
  have hpopped : exec true { sh with locked := true } (.popFront k v) =
      some ({ sh with locked := true, items := rest, popped := sh.popped ++ [v] },
        .unlockPop k v) := by
    simp [exec, hitems]
  have hunlock : exec true { sh with locked := true, items := rest, popped := sh.popped ++ [v] }
      (.unlockPop k v) =
      some ({ sh with locked := false, items := rest, popped := sh.popped ++ [v] },
        .finish (.item v)) := by
    obtain rfl | rfl := hk <;> rfl
  exact ⟨_, .step hlock hsize (.step hfront hsize (.step hpopped hrest (.step hunlock hrest
    (.finish _ _))))⟩

theorem Coherent.tryPopNext_returns (hc : Coherent sh) :
    ∃ sh', Returns sh (begin .tryPopNext) sh' (popResult .none sh.items) := by
  have hload : exec true sh (begin .tryPopNext) =
      some (sh, .modifyIfCas .tryPopNext sh.pendingCount) := rfl
  cases hitems : sh.items with
  | nil =>
    have hcas : exec true sh (.modifyIfCas .tryPopNext sh.pendingCount) =
        some (sh, .finish .none) := by
      simp [exec, hc.count, hitems, decrementIfPositive, afterEmpty]
    exact ⟨sh, .step hload hc.size (.step hcas hc.size (.finish _ _))⟩
  | cons v rest =>
    have hcas : exec true sh (.modifyIfCas .tryPopNext sh.pendingCount) =
        some (sh.setPending (sh.pendingCount - 1), .lockPop .tryPopNext) := by
      have hpos : 0 < sh.pendingCount := by
        rw [hc.count, hitems, List.length_cons]
        omega
      simp [exec, decrementIfPositive, hpos]
    obtain ⟨sh', hpop⟩ : ∃ sh', Returns (sh.setPending (sh.pendingCount - 1))
        (.lockPop .tryPopNext) sh' (.item v) := returns_pop hc.unlocked hitems hc.size (.inr rfl)
    exact ⟨sh', .step hload hc.size (.step hcas hc.size hpop)⟩

theorem Coherent.awaitNext_returns (hc : Coherent sh) (hready : sh.items ≠ [] ∨ sh.closed = true) :
    ∃ sh', Returns sh (begin .awaitNext) sh' (popResult (.status .kClosed) sh.items) := by
  have hload : exec true sh (begin .awaitNext) =
      some (sh, .awaitModifyCas sh.pendingCount) := rfl
  cases hitems : sh.items with
  | nil =>
    have hclosed : sh.closed = true := hready.resolve_left (fun h => h hitems)
    have hcas : exec true sh (.awaitModifyCas sh.pendingCount) =
        some (sh, .awaitNotEqual sh.pendingCount) := by
      simp [exec, hc.count, hitems, decrementIfPositive]
    have hwait : exec true sh (.awaitNotEqual sh.pendingCount) =
        some (sh, .finish (.status .kClosed)) := by
      simp [exec, hclosed]
    exact ⟨sh, .step hload hc.size (.step hcas hc.size (.step hwait hc.size (.finish _ _)))⟩
  | cons v rest =>
    have hcas : exec true sh (.awaitModifyCas sh.pendingCount) =
        some (sh.setPending (sh.pendingCount - 1), .lockPop .awaitNext) := by
      have hpos : 0 < sh.pendingCount := by
        rw [hc.count, hitems, List.length_cons]
        omega
      simp [exec, decrementIfPositive, hpos]
    obtain ⟨sh', hpop⟩ : ∃ sh', Returns (sh.setPending (sh.pendingCount - 1))
        (.lockPop .awaitNext) sh' (.item v) := returns_pop hc.unlocked hitems hc.size (.inl rfl)
    exact ⟨sh', .step hload hc.size (.step hcas hc.size hpop)⟩

/-! ## Sequences of calls -/

/-- What `try_pop_next` and `await_next` are to do: no check fails, and they return the oldest item
    if there is one, else None, or the error when the queue is closed. -/
structure PopsRight (sh : Shared T) : Prop where
  tryPopNext_check : ¬ Panics sh (begin .tryPopNext)
  tryPopNext_returns : ∃ sh' ret, Returns sh (begin .tryPopNext) sh' ret
  tryPopNext_result : ∀ sh' ret, Returns sh (begin .tryPopNext) sh' ret →
    ret = popResult .none sh.items
  awaitNext_check : ¬ Panics sh (begin .awaitNext)
  awaitNext_returns : sh.items ≠ [] ∨ sh.closed = true →
    ∃ sh' ret, Returns sh (begin .awaitNext) sh' ret
  awaitNext_result : ∀ sh' ret, Returns sh (begin .awaitNext) sh' ret →
    ret = popResult (.status .kClosed) sh.items

theorem Coherent.popsRight (hc : Coherent sh) : PopsRight sh where
  tryPopNext_check h := h.absurd (hc.begin_running _).1 (hc.begin_running _).2 hc.size
  tryPopNext_returns := by
    obtain ⟨sh', h⟩ := hc.tryPopNext_returns
    exact ⟨sh', _, h⟩
  tryPopNext_result _ _ h :=
    h.popResult ⟨rfl, rfl, rfl⟩ (hc.begin_running _).1 (hc.begin_running _).2 hc.size
  awaitNext_check h := h.absurd (hc.begin_running _).1 (hc.begin_running _).2 hc.size
  awaitNext_returns hready := by
    obtain ⟨sh', h⟩ := hc.awaitNext_returns hready
    exact ⟨sh', _, h⟩
  awaitNext_result _ _ h :=
    h.popResult ⟨rfl, rfl⟩ (hc.begin_running _).1 (hc.begin_running _).2 hc.size

theorem coherent_emptyQueue : Coherent (emptyQueue : Shared T) := ⟨rfl, rfl, Nat.zero_le _⟩

/-- Every state of a run without `pop_next_or_panic` is coherent. -/
theorem CallRun.coherent {calls : List (Call T)} {shs : List (Shared T)} (h : CallRun sh calls shs)
    (hc : Coherent sh) (hcalls : Call.popNextOrPanic ∉ calls) : ∀ sh' ∈ shs, Coherent sh' := by
  induction h with
  | nil sh => nofun
  | @cons sh sh' c cs shs ret hcall _ ih =>
    obtain ⟨hne, hrest⟩ := List.ne_and_not_mem_of_not_mem_cons hcalls
    have hc' : Coherent sh' := by
      cases c with
      | op o => exact hc.call hcall
      | popNextOrPanic => exact absurd rfl hne
    exact List.forall_mem_cons.mpr ⟨hc', ih hc' hrest⟩

/-- After the first `pop_next_or_panic` of a run the counter is one too high. -/
theorem CallRun.gap {calls : List (Call T)} {shs : List (Shared T)} (h : CallRun sh calls shs)
    (hc : Coherent sh) (hcalls : Call.popNextOrPanic ∈ calls) :
    ∃ sh' ∈ shs, sh'.pendingCount = sh'.items.length + 1 := by
  induction h with
  | nil sh => cases hcalls
  | @cons sh sh' c cs shs ret hcall _ ih =>
    cases c with
    | popNextOrPanic =>
      obtain ⟨hpending, hitems⟩ := returns_lockPop hcall rfl
      refine ⟨sh', List.mem_cons_self, ?_⟩
      rw [hpending, hc.count]
      omega
    | op o =>
      have hrest : Call.popNextOrPanic ∈ cs := by simpa using hcalls
      obtain ⟨sh'', hmem, hgap⟩ := ih (hc.call hcall) hrest
      exact ⟨sh'', List.mem_cons_of_mem _ hmem, hgap⟩

/-- **The counter is the number of items after every call, and the pops are right, exactly if
    `pop_next_or_panic` is not among the calls.** -/
theorem size_eq_items_iff (calls : List (Call T)) (shs : List (Shared T))
    (h : CallRun emptyQueue calls shs) :
    (∀ sh ∈ shs, sh.pendingCount = sh.items.length ∧ PopsRight sh) ↔
      Call.popNextOrPanic ∉ calls := by
  constructor
  · intro hall hmem
    obtain ⟨sh, hsh, hgap⟩ := h.gap coherent_emptyQueue hmem
    have hcount := (hall sh hsh).1
    omega
  · intro hcalls sh hsh
    have hc := h.coherent coherent_emptyQueue hcalls sh hsh
    exact ⟨hc.count, hc.popsRight⟩

/-- Runs a call alone. -/
def runCall : Nat → Shared T → Pc T → Option (Shared T × Ret T)
  | _, sh, .finish ret => some (sh, ret)
  | 0, _, _ => none
  | fuel + 1, sh, pc =>
    match exec true sh pc with
    | some (sh', pc') => if sh'.items.length ≤ maxSize then runCall fuel sh' pc' else none
    | none => none

theorem returns_of_runCall (fuel : Nat) (h : runCall fuel sh pc = some (sh', ret)) :
    Returns sh pc sh' ret := by
  induction fuel generalizing sh pc with
  | zero =>
    cases pc <;> cases h
    exact .finish _ _
  | succ fuel ih =>
    unfold runCall at h
    split at h
    · cases h
      exact .finish _ _
    · cases ‹_ + 1 = 0›
    · cases ‹_ + 1 = _ + 1›
      split at h
      · split at h
        · exact .step ‹_› ‹_› (ih h)
        · cases h
      · cases h

theorem size_eq_items_push_pop :
    ∃ shs, CallRun (emptyQueue : Shared Nat) [.op (.pushAll [7, 8]), .op .tryPopNext] shs ∧
      ∀ sh ∈ shs, sh.pendingCount = sh.items.length ∧ PopsRight sh := by
  have hpush : Returns (emptyQueue : Shared Nat) (Call.op (.pushAll [7, 8])).begin _ _ :=
    returns_of_runCall 7 rfl
  have hrun := CallRun.cons hpush (.cons (c := .op .tryPopNext) (returns_of_runCall 7 rfl)
    (.nil _))
  exact ⟨_, hrun, (size_eq_items_iff _ _ hrun).mpr (by decide)⟩

/-- One item is pushed and popped by `pop_next_or_panic`: the queue is empty, its size is 1, and
    `try_pop_next` fails its check. -/
theorem pop_next_or_panic_leaves_count :
    ∃ sh₁ sh₂, CallRun (emptyQueue : Shared Nat) [.op (.push 7), .popNextOrPanic] [sh₁, sh₂] ∧
      sh₂.items = [] ∧ sh₂.pendingCount = 1 ∧ Panics sh₂ (begin .tryPopNext) := by
  have hpush : Returns (emptyQueue : Shared Nat) (Call.op (.push 7)).begin _ _ :=
    returns_of_runCall 7 rfl
  refine ⟨_, _, .cons hpush (.cons (c := .popNextOrPanic) (returns_of_runCall 7 rfl)
    (.nil _)), rfl, rfl, ?_⟩
  -- the counter says that there is an item: it is reserved, and then looked for
  exact @Panics.step _ _ _ _ _ true rfl (by decide) (@Panics.step _ _ _ _ _ true rfl (by decide)
    (@Panics.step _ _ _ _ _ true rfl (by decide) (.front _ rfl)))

end Batt.Queue
