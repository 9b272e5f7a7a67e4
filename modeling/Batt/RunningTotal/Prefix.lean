/-
  `parallel_running_total` is the prefix sum.

  Once all parts are filled, the summary is made of their last words, one part in each turn
  (`updateSummary_eq`). An index before the last part boundary is read from its part and the
  summary before it; the index on that boundary is read from the summary's last word and its
  first, which comes right behind the parts and is zero (`get_eq`).
-/
import Mathlib.Data.UInt
import Batt.Lib.Folding
import Batt.RunningTotal.Parts

namespace Batt.RunningTotals
open Interleave SliceWork Folding

/-! ## The summary -/

section

variable {t : RunningTotal} {k s : Nat} {values : List UInt64} {tot : Nat → UInt64}

/-- The sum of the first `j` part totals. -/
def summaryAt (tot : Nat → UInt64) (j : Nat) : UInt64 := sum64 ((List.range j).map tot)

theorem summaryAt_succ (tot : Nat → UInt64) (j : Nat) :
    summaryAt tot (j + 1) = summaryAt tot j + tot j := by
  rw [summaryAt, List.range_succ, List.map_append, sum64_append]
  exact congrArg _ (sum64_singleton _)

/-- By induction on the parts left: `r` words of the summary are written. -/
theorem summaryLoop_eq (hl : Layout t k s) {d r : Nat} (hd : r + d = k)
    (hlen : values.length = (s + 1) * k + k + 1)
    (htot : ∀ i, i < k → values[i * (s + 1) + s]? = some (tot i)) :
    ∃ values', RunningTotal.summaryLoop (s + 1) (s + (s + 1) * k) d values (s + (s + 1) * r)
        ((s + 1) * k + 1 + r) (summaryAt tot r) = some (values', (s + 1) * k + 1 + k) ∧
      (∀ p : Nat, p ≤ (s + 1) * k + r → values'[p]? = values[p]?) ∧
      ∀ j, r ≤ j → j < k → values'[(s + 1) * k + 1 + j]? = some (summaryAt tot (j + 1)) := by
  induction d generalizing r values with
  | zero =>
    obtain rfl : r = k := hd
    refine ⟨values, ?_, fun _ _ => rfl, fun j h1 h2 => absurd h2 (not_lt.mpr h1)⟩
    unfold RunningTotal.summaryLoop
    rw [if_pos rfl]
  | succ d ih =>
    have hr : r < k := by omega
    have hne : s + (s + 1) * r ≠ s + (s + 1) * k := by
      intro heq
      exact absurd (Nat.eq_of_mul_eq_mul_left (Nat.succ_pos s) (Nat.add_left_cancel heq)) hr.ne
    have hread : values[s + (s + 1) * r]? = some (tot r) := by
      rw [Nat.add_comm, Nat.mul_comm]
      exact htot r hr
    have hstore : store values ((s + 1) * k + 1 + r) (summaryAt tot r + tot r) =
        some (values.set ((s + 1) * k + 1 + r) (summaryAt tot (r + 1))) := by
      rw [store, if_pos (by omega), summaryAt_succ]
    have hparts : ∀ i, i < k →
        (values.set ((s + 1) * k + 1 + r) (summaryAt tot (r + 1)))[i * (s + 1) + s]? =
          some (tot i) := by
      intro i hi
      have hcell := hl.cell_lt hi le_rfl
      rw [List.getElem?_set_ne (by omega)]
      exact htot i hi
    have hlen' : (values.set ((s + 1) * k + 1 + r) (summaryAt tot (r + 1))).length =
        (s + 1) * k + k + 1 := by rw [List.length_set, hlen]
    have hleft : r + 1 + d = k := by omega
    obtain ⟨values', hloop, hkeep, hnew⟩ := ih hleft hlen' hparts
    refine ⟨values', ?_, ?_, ?_⟩
    · have hnext : s + (s + 1) * r + (s + 1) = s + (s + 1) * (r + 1) := by ring
      unfold RunningTotal.summaryLoop
      rw [if_neg hne]
      simp only
      rw [hread, Option.bind_some, hstore, Option.bind_some, hnext, ← summaryAt_succ]
      exact hloop
    · intro p hp
      rw [hkeep p (by omega), List.getElem?_set_ne (by omega)]
    · intro j hj hjk
      rcases Nat.lt_or_eq_of_le hj with hlt | rfl
      · exact hnew j hlt hjk
      · rw [hkeep _ (by omega)]
        exact List.getElem?_set_self (by omega)

/-- A total whose parts and summary are filled; `xs i` are the items of part `i`. -/
structure Complete (t : RunningTotal) (k s : Nat) (xs : Nat → List UInt64) : Prop where
  layout : Layout t k s
  parts : ∀ i, i < k → FilledTo s i (xs i) t.values s
  summary : ∀ j, j ≤ k →
    t.values[(s + 1) * k + j]? = some (summaryAt (fun i => prefixSum (xs i) s) j)

theorem updateSummary_eq {xs : Nat → List UInt64} (hl : Layout t k s)
    (hlen : t.values.length = (s + 1) * k + k + 1) (hzero : t.values[(s + 1) * k]? = some 0)
    (hparts : ∀ i, i < k → FilledTo s i (xs i) t.values s) :
    ∃ values, t.updateSummary = some { t with values := values } ∧
      Complete { t with values := values } k s xs := by
  have htot : ∀ i, i < k → t.values[i * (s + 1) + s]? = some (prefixSum (xs i) s) :=
    fun i hi => hparts i hi s le_rfl
  obtain ⟨values, hloop, hkeep, hnew⟩ := summaryLoop_eq hl (Nat.zero_add k) hlen htot
  simp only [Nat.mul_zero, Nat.add_zero] at hloop
  refine ⟨values, ?_, ⟨⟨hl.partsCount, hl.partSize, hl.parts, hl.size, hl.fits⟩, ?_, ?_⟩⟩
  · rw [RunningTotal.updateSummary, hl.summaryOffset, if_pos hzero, hl.partSegmentSize,
      hl.partSize, hl.partsCount]
    simp only
    rw [show (0 : UInt64) = summaryAt (fun i => prefixSum (xs i) s) 0 from rfl, hloop,
      Option.bind_some, hl.rawSize, if_pos (by omega)]
  · intro i hi e he
    have hcell := hl.cell_lt hi he
    show values[i * (s + 1) + e]? = _
    rw [hkeep _ (by omega)]
    exact hparts i hi e he
  · intro j hj
    cases j with
    | zero =>
      show values[(s + 1) * k + 0]? = _
      rw [hkeep _ le_rfl]
      exact hzero
    | succ j =>
      show values[(s + 1) * k + (j + 1)]? = _
      rw [← hnew j (Nat.zero_le j) hj, Nat.add_assoc, Nat.add_comm 1 j]

end

/-! ## Reading -/

theorem prefixSum_add (xs : List UInt64) (a o : Nat) :
    prefixSum xs (a + o) = prefixSum xs a + prefixSum (xs.drop a) o := by
  rw [prefixSum, List.take_add, sum64_append]
  rfl

/-- What reads of a total of `xs` have to give. -/
structure IsPrefixSum (t : RunningTotal) (xs : List UInt64) : Prop where
  size : t.size.toNat = xs.length + 1
  /-- `operator[]`. -/
  get : ∀ i, i ≤ xs.length → t.get (.ofNat i) = some (prefixSum xs i)
  /-- From `begin()` to `end()`. -/
  stop : t.stop = .ofNat (xs.length + 1)
  all : t.readFrom RunningTotal.begin (xs.length + 1) =
    some ((List.range (xs.length + 1)).map (prefixSum xs))
  /-- `slice(b, e)`: its end is the position `e`, and the loop over it. -/
  slice : ∀ b e, b ≤ e → e ≤ xs.length + 1 →
    t.slice (.ofNat b) (.ofNat e) = some (.ofNat b, .ofNat e) ∧
      t.readFrom (.ofNat b) (e - b) = some ((List.range' b (e - b)).map (prefixSum xs))

section

variable {t : RunningTotal} {xs : List UInt64}

theorem toUInt64_ofNat (i : Nat) : (Int64.ofNat i).toUInt64 = UInt64.ofNat i := by
  rw [← UInt64.toInt64_ofNat']
  rfl

theorem readFrom_eq (hsize : t.size.toNat = xs.length + 1) (hlen : xs.length + 1 < 2 ^ 63)
    (hget : ∀ i, i ≤ xs.length → t.get (.ofNat i) = some (prefixSum xs i)) {n p : Nat}
    (h : p + n ≤ xs.length + 1) :
    t.readFrom (.ofNat p) n = some ((List.range' p n).map (prefixSum xs)) := by
  induction n generalizing p with
  | zero => rfl
  | succ n ih =>
    have hlt : (Int64.ofNat p).toUInt64 < t.size := by
      rw [UInt64.lt_iff_toNat_lt, toUInt64_ofNat, hsize,
        UInt64.toNat_ofNat_of_lt' (by show p < 2 ^ 64; omega)]
      omega
    have hnext : Int64.ofNat p + 1 = Int64.ofNat (p + 1) := (Int64.ofNat_add p 1).symm
    rw [RunningTotal.readFrom, hget p (by omega), Option.bind_some, RunningTotal.increment,
      if_pos hlt, Option.bind_some, hnext, ih (by omega), Option.map_some, List.range'_succ,
      List.map_cons]

theorem advance_eq (hsize : t.size.toNat = xs.length + 1) (hlen : xs.length + 2 < 2 ^ 63) {p : Nat}
    (hp : p ≤ xs.length + 1) :
    t.advance RunningTotal.begin (UInt64.ofNat p).toInt64 = some (.ofNat p) := by
  have hpos : RunningTotal.begin + (UInt64.ofNat p).toInt64 = Int64.ofNat p := by
    rw [UInt64.toInt64_ofNat']
    exact Int64.zero_add _
  have hstop : (t.size + 1).toInt64 = Int64.ofNat (xs.length + 2) := by
    have hnat : t.size + 1 = UInt64.ofNat (xs.length + 2) := by
      rw [← UInt64.ofNat_toNat (x := t.size), hsize]
      exact (UInt64.ofNat_add _ 1).symm
    rw [hnat, UInt64.toInt64_ofNat']
  have hge : 0 ≤ Int64.ofNat p := by
    rw [Int64.le_iff_toInt_le, Int64.toInt_ofNat_of_lt (by omega), Int64.toInt_zero]
    exact Int.natCast_nonneg p
  have hlt : Int64.ofNat p < Int64.ofNat (xs.length + 2) := by
    rw [Int64.lt_iff_toInt_lt, Int64.toInt_ofNat_of_lt (by omega), Int64.toInt_ofNat_of_lt hlen]
    exact_mod_cast Nat.lt_succ_of_le hp
  rw [RunningTotal.advance, hpos, hstop, if_pos ⟨hge, hlt⟩]

/-- The iterators and the slices follow from `operator[]`. -/
theorem isPrefixSum_of_get (hsize : t.size.toNat = xs.length + 1) (hlen : xs.length + 2 < 2 ^ 63)
    (hget : ∀ i, i ≤ xs.length → t.get (.ofNat i) = some (prefixSum xs i)) : IsPrefixSum t xs := by
  refine ⟨hsize, hget, ?_, ?_, ?_⟩
  · rw [RunningTotal.stop, ← UInt64.ofNat_toNat (x := t.size), hsize, UInt64.toInt64_ofNat']
  · rw [List.range_eq_range']
    exact readFrom_eq hsize (by omega) hget (p := 0) (by omega)
  · intro b e hbe he
    refine ⟨?_, readFrom_eq hsize (by omega) hget (by omega)⟩
    have hle : UInt64.ofNat b ≤ UInt64.ofNat e := by
      rw [UInt64.le_iff_toNat_le, UInt64.toNat_ofNat_of_lt' (by show b < 2 ^ 64; omega),
        UInt64.toNat_ofNat_of_lt' (by show e < 2 ^ 64; omega)]
      exact hbe
    rw [RunningTotal.slice, if_pos hle, advance_eq hsize hlen (hbe.trans he), Option.bind_some,
      advance_eq hsize hlen he, Option.map_some]

/-- The total of no input. -/
theorem default_isPrefixSum : IsPrefixSum .default [] := by
  refine isPrefixSum_of_get rfl (by decide) ?_
  intro i hi
  rw [Nat.le_zero.mp hi]
  rfl

variable {k s : Nat}

/-- The summary before a part is the prefix sum up to the part. -/
theorem summaryAt_eq (xs : List UInt64) (s j : Nat) :
    summaryAt (fun i => prefixSum ((xs.drop (i * s)).take s) s) j = prefixSum xs (j * s) := by
  induction j with
  | zero => rw [Nat.zero_mul]; rfl
  | succ j ih =>
    rw [summaryAt_succ, ih, Nat.succ_mul, prefixSum_add]
    congr 1
    rw [prefixSum, List.take_take, Nat.min_self]
    rfl

theorem get_eq (h : Complete t k s fun i => (xs.drop (i * s)).take s)
    (hsize : t.size.toNat = xs.length + 1) (hcover : xs.length ≤ k * s) {i : Nat}
    (hi : i ≤ xs.length) : t.get (.ofNat i) = some (prefixSum xs i) := by
  have hl := h.layout
  have hwords := hl.words
  have hks : k * s ≤ (s + 1) * k := by
    rw [Nat.mul_comm]
    exact Nat.mul_le_mul_right k (Nat.le_succ s)
  have hi64 : (UInt64.ofNat i).toNat = i :=
    UInt64.toNat_ofNat_of_lt' (by show i < 2 ^ 64; omega)
  have hlt : UInt64.ofNat i < t.size := by
    rw [UInt64.lt_iff_toNat_lt, hi64, hsize]
    omega
  have hpart : (UInt64.ofNat i / t.partSize).toNat = i / s := by
    rw [UInt64.toNat_div, hi64, hl.partSize]
  have hoffset : (UInt64.ofNat i % t.partSize).toNat = i % s := by
    rw [UInt64.toNat_mod, hi64, hl.partSize]
  have hmod : i % s < s := Nat.mod_lt i hl.size
  have hle : i / s ≤ k := by
    refine Nat.div_le_of_le_mul ?_
    rw [Nat.mul_comm]
    exact hi.trans hcover
  have hsummary : t.rawAt t.summaryOffset t.summarySize (UInt64.ofNat i / t.partSize) =
      some (prefixSum xs (i / s * s)) := by
    rw [RunningTotal.rawAt, if_pos ?_, hl.summaryOffset, hpart, h.summary _ hle, summaryAt_eq]
    rw [UInt64.lt_iff_toNat_lt, hpart, hl.summarySize]
    omega
  have hbase := hl.partSegmentOffset (i := UInt64.ofNat i / t.partSize) (by omega)
  rw [hpart] at hbase
  have hinside : t.partSegmentOffset (UInt64.ofNat i / t.partSize) < t.rawSize := by
    have := hl.mul_le hle
    rw [UInt64.lt_iff_toNat_lt, hbase, hl.rawSize]
    omega
  have hword : t.rawAt (t.partSegmentOffset (UInt64.ofNat i / t.partSize)) t.partSegmentSize
      (UInt64.ofNat i % t.partSize) = some (prefixSum (xs.drop (i / s * s)) (i % s)) := by
    rw [RunningTotal.rawAt, if_pos ?_, hbase, hoffset]
    · rcases Nat.lt_or_eq_of_le hle with hpartLt | hlast
      · rw [h.parts _ hpartLt _ hmod.le, prefixSum, List.take_take, Nat.min_eq_left hmod.le]
        rfl
      · -- the index behind the last part: its "part" begins with the summary's zero
        have hdiv := Nat.div_add_mod i s
        rw [hlast, Nat.mul_comm s k] at hdiv
        have hzero : i % s = 0 := by omega
        have hfirst := h.summary 0 (Nat.zero_le k)
        rw [hlast, hzero, Nat.mul_comm k (s + 1)]
        exact hfirst
    · rw [UInt64.lt_iff_toNat_lt, hoffset, hl.partSegmentSize]
      omega
  rw [RunningTotal.get, toUInt64_ofNat, if_pos hlt]
  simp only
  rw [hsummary, Option.bind_some, if_pos hinside, hword, Option.map_some, ← prefixSum_add,
    Nat.mul_comm, Nat.div_add_mod]

end

/-! ## The run -/

section

variable {α : Type} {fn : α → UInt64} {xs : List UInt64} {k s : Nat}

/-- The call is to return the prefix sums of `xs`. -/
def Inv (fn : α → UInt64) (k s : Nat) (xs : List UInt64) : State α → Prop
  | .running t work => Layout t k s ∧ t.size.toNat = xs.length + 1 ∧ xs.length ≤ k * s ∧
      Working fn k s (fun i => (xs.drop (i * s)).take s) work
  | .returned t => IsPrefixSum t xs

def State.rank (s : Nat) : State α → Nat
  | .running _ work => total (Task.weight s) work.locals + 1
  | .returned _ => 0

/-- Who can step: the caller, or a task that has not finished. -/
def State.Ready (i : Nat) : State α → Prop
  | .running _ work => work.locals.all Task.isFinished = true ∨
      ∃ task, work.locals[i]? = some task ∧ task ≠ .finished
  | .returned _ => False

/-- Who can step does: no check fails, and the result to come stays. -/
theorem ready_step {st : State α} {i : Nat} (hinv : Inv fn k s xs st) (hready : st.Ready i) :
    ∃ st', step fn i st = some st' ∧ Inv fn k s xs st' ∧ st'.rank s < st.rank s := by
  cases st with
  | returned t => exact absurd hready id
  | running t work =>
    obtain ⟨hl, hsize, hcover, hwork⟩ := hinv
    by_cases hall : work.locals.all Task.isFinished = true
    · obtain ⟨values, hupdate, hcomplete⟩ := updateSummary_eq (t := { t with values := work.shared })
        ⟨hl.partsCount, hl.partSize, hl.parts, hl.size, hl.fits⟩ hwork.length hwork.summary
        fun i hi => hwork.filled hall hi
      have hlen : xs.length + 2 < 2 ^ 63 := by
        have := hl.fits
        have : k * (s + 2) = k * s + 2 * k := by ring
        omega
      refine ⟨.returned { t with values := values }, ?_, ?_, Nat.succ_pos _⟩
      · rw [step, if_pos hall, hupdate, Option.map_some]
      · exact isPrefixSum_of_get hsize hlen fun i hi => get_eq hcomplete hsize hcover hi
    · rcases hready with hfin | ⟨task, hi, hne⟩
      · exact absurd hfin hall
      · obtain ⟨work', hfire, hwork', hweight⟩ := hwork.fire hl hi hne
        refine ⟨.running t work', ?_, ⟨hl, hsize, hcover, hwork'⟩, ?_⟩
        · rw [step, if_neg hall, hfire, Option.map_some]
        · simp only [State.rank]
          omega

/-- Only who can step does. -/
theorem ready_of_step {st st' : State α} {i : Nat} (h : step fn i st = some st') : st.Ready i := by
  cases st with
  | returned t => cases h
  | running t work =>
    rw [step] at h
    split at h
    · rename_i hall
      exact .inl hall
    · obtain ⟨work', hf, -⟩ := Option.map_eq_some_iff.mp h
      obtain ⟨task, values', task', hi, -, hs, -⟩ := Machine.fire_cases hf
      exact .inr ⟨task, hi, by rintro rfl; cases hs⟩

theorem run_inv {sched : List Nat} {st st' : State α} (hinv : Inv fn k s xs st)
    (hr : run fn sched st = some st') :
    Inv fn k s xs st' ∧ sched.length + st'.rank s ≤ st.rank s := by
  induction sched generalizing st with
  | nil =>
    cases hr
    exact ⟨hinv, by simp⟩
  | cons i sched ih =>
    obtain ⟨st₁, hs, hr⟩ := Option.bind_eq_some_iff.mp hr
    obtain ⟨st₂, hs₂, hinv₂, hrank⟩ := ready_step hinv (ready_of_step hs)
    rw [hs] at hs₂
    cases hs₂
    obtain ⟨hinv', hrank'⟩ := ih hinv₂ hr
    rw [List.length_cons]
    exact ⟨hinv', by omega⟩

theorem exists_ready {st : State α} (h : ∀ t, st ≠ .returned t) : ∃ i, st.Ready i := by
  cases st with
  | running t work =>
    by_cases hall : work.locals.all Task.isFinished = true
    · exact ⟨0, .inl hall⟩
    · rw [List.all_eq_true] at hall
      push Not at hall
      obtain ⟨task, hmem, hfin⟩ := hall
      obtain ⟨i, hi⟩ := List.mem_iff_getElem?.mp hmem
      exact ⟨i, .inr ⟨task, hi, by rintro rfl; exact hfin rfl⟩⟩
  | returned t => exact absurd rfl (h t)

end

/-! ## Main result -/

section

variable {α : Type}

/-- In every order of the tasks the call ends with the prefix sums of `xs`. -/
structure Sums (fn : α → UInt64) (s₀ : State α) (xs : List UInt64) : Prop where
  ends : ∃ bound, ∀ sched st, run fn sched s₀ = some st → sched.length ≤ bound
  /-- No check fails, and no access leaves the buffer. -/
  steps : ∀ sched st i, run fn sched s₀ = some st → st.Ready i → ∃ st', step fn i st = some st'
  goesOn : ∀ sched st, run fn sched s₀ = some st → (∀ t, st ≠ .returned t) → ∃ i, st.Ready i
  result : ∀ sched t, run fn sched s₀ = some (.returned t) → IsPrefixSum t xs

theorem sums_of_inv {fn : α → UInt64} {s₀ : State α} {xs : List UInt64} {k s : Nat}
    (h : Inv fn k s xs s₀) : Sums fn s₀ xs where
  ends := ⟨s₀.rank s, fun _ _ hr => Nat.le_of_add_right_le (run_inv h hr).2⟩
  steps := by
    intro sched st i hr hready
    obtain ⟨st', hs, -⟩ := ready_step (run_inv h hr).1 hready
    exact ⟨st', hs⟩
  goesOn := fun _ _ _ hne => exists_ready hne
  result := fun _ _ hr => (run_inv h hr).1

/-- The call gets to its tasks, and these to the prefix sums. -/
def Computes (garbage : Nat → UInt64) (fn : α → UInt64) (params : WorkSliceParams)
    (items : List α) : Prop :=
  ∃ s₀, parallelRunningTotal garbage params items = some s₀ ∧ Sums fn s₀ (items.map fn)

/-- The words of the buffer of a plan. -/
def bufferWords (params : WorkSliceParams) (n : Nat) : Nat :=
  n ⌈/⌉ targetSize params n * (targetSize params n + 2) + 1

variable {garbage : Nat → UInt64} {fn : α → UInt64} {params : WorkSliceParams} {items : List α}

/-- The start: the parts' leading zeros are there and no task has run. -/
theorem start_inv {plan : WorkSlicePlan}
    (hplan : WorkSlicePlan.new params (.ofNat items.length) = some plan)
    (hfor : plan.IsFor params items.length) (hlen : items.length < 2 ^ 63) (hne : items ≠ [])
    (hfit : bufferWords params items.length * 8 < 2 ^ 63) :
    ∃ s₀, parallelRunningTotal garbage params items = some s₀ ∧
      Inv fn plan.nTasks.toNat plan.taskSize.toNat (items.map fn) s₀ := by
  have hpos : 0 < items.length := List.length_pos_iff.mpr hne
  have hcover := hfor.le_nTasks_mul
  have hparts : 0 < plan.nTasks.toNat := by
    by_contra hzero
    rw [Nat.eq_zero_of_not_pos hzero, Nat.zero_mul] at hcover
    omega
  have hinput : plan.inputSize ≠ 0 := by
    intro hzero
    have := hfor.inputSize
    rw [hzero, UInt64.toNat_zero] at this
    omega
  have hwords : (plan.nTasks.toNat * (plan.taskSize.toNat + 2) + 1) * 8 < 2 ^ 63 := by
    rw [hfor.nTasks, hfor.taskSize]
    exact hfit
  have hl : ∀ values size, Layout ⟨values, plan.nTasks, plan.taskSize, size⟩ plan.nTasks.toNat
      plan.taskSize.toNat :=
    fun _ _ => ⟨rfl, rfl, hparts, pos_iff_toNat_pos.mp hfor.pos, hwords⟩
  obtain ⟨values, hreset, hzeroed⟩ := reset_eq garbage (hl [] 1)
  have hcells : plan.nTasks.toNat * plan.taskSize.toNat + 1 < 2 ^ 60 := by
    rw [Nat.mul_add] at hwords
    omega
  have hinputNext : (plan.inputSize + 1).toNat = items.length + 1 := by
    rw [UInt64.toNat_add, hfor.inputSize, UInt64.toNat_one]
    omega
  have hsize : plan.inputSize + 1 ≤ plan.nTasks * plan.taskSize + 1 := by
    rw [UInt64.le_iff_toNat_le, hinputNext, UInt64.toNat_add, UInt64.toNat_mul, UInt64.toNat_one]
    omega
  have htasks : ((List.range plan.nTasks.toNat).map (taskAt plan)).mapM (workFn items) =
      some ((List.range plan.nTasks.toNat).map fun i => .pending (.ofNat i) (chunk plan items i)) := by
    refine mapM_eq_some fun i hi => ?_
    rw [List.mem_range] at hi
    rw [workFn, rangeAt_taskAt hfor hlen hi]
    rfl
  refine ⟨.running ⟨values, plan.nTasks, plan.taskSize, plan.inputSize + 1⟩ ⟨values,
    (List.range plan.nTasks.toNat).map fun i => .pending (.ofNat i) (chunk plan items i)⟩, ?_,
    hl _ _, ?_, by rw [List.length_map]; exact hcover, ⟨?_, hzeroed.length, hzeroed.summary, ?_⟩⟩
  · rw [parallelRunningTotal, hplan, Option.bind_some, if_neg hinput, hreset, Option.bind_some,
      RunningTotal.setSize, if_pos hsize, Option.bind_some, sliceWork_eq hfor, Option.bind_some,
      htasks, Option.map_some]
  · rw [List.length_map]
    exact hinputNext
  · rw [List.length_map, List.length_range]
  · intro i hi
    have hbegin := hfor.offset_lt hi
    refine ⟨.pending (.ofNat i) (chunk plan items i), ?_, ?_, ?_, ?_, ?_, hzeroed.parts i hi⟩
    · rw [List.getElem?_map, List.getElem?_range hi, Option.map_some]
    · exact UInt64.toNat_ofNat_of_lt' (by show i < 2 ^ 64; have := hfor.nTasks_le; omega)
    · rw [chunk, List.map_take, List.map_drop]
    · exact List.length_take_le _ _
    · -- all parts but the last are full: the next one begins inside the input
      intro hnext
      have hend := hfor.offset_lt hnext
      rw [Nat.succ_mul] at hend
      rw [List.length_take, List.length_drop, List.length_map]
      omega

/-- A buffer that cannot be had: `new` throws, or the size wraps and the zeros are set outside
    the buffer. -/
theorem reset_eq_none {count size : UInt64} {n : Nat} (hn : n < 2 ^ 63) (hcount : 0 < count.toNat)
    (hlast : (count.toNat - 1) * size.toNat < n)
    (hbig : 2 ^ 63 ≤ (count.toNat * (size.toNat + 2) + 1) * 8) :
    RunningTotal.reset garbage count size = none := by
  have hcountLt := count.toNat_lt
  have hsizeLt := size.toNat_lt
  by_cases hpos : 0 < size
  swap
  · exact if_neg hpos
  have hsizePos := pos_iff_toNat_pos.mp hpos
  rw [RunningTotal.reset, if_pos hpos]
  have hsegment : (RunningTotal.partSegmentSize ⟨[], count, size, 1⟩).toNat =
      (size.toNat + 1) % 2 ^ 64 := by
    rw [RunningTotal.partSegmentSize, UInt64.toNat_add, UInt64.toNat_one]
  by_cases hsmall : (size.toNat + 1) * count.toNat < 2 ^ 64
  · -- the summary begins where it should, and no array reaches so far
    have hsegmentLt : size.toNat + 1 < 2 ^ 64 :=
      lt_of_le_of_lt (Nat.le_mul_of_pos_right _ hcount) hsmall
    have hoffset : (RunningTotal.summaryOffset ⟨[], count, size, 1⟩).toNat =
        (size.toNat + 1) * count.toNat := by
      rw [RunningTotal.summaryOffset, UInt64.toNat_mul, hsegment, Nat.mod_eq_of_lt hsegmentLt,
        Nat.mod_eq_of_lt hsmall]
    have hwords : count.toNat * (size.toNat + 2) + 1 =
        (size.toNat + 1) * count.toNat + (count.toNat + 1) := by ring
    have hraw : (RunningTotal.rawSize ⟨[], count, size, 1⟩).toNat =
        ((size.toNat + 1) * count.toNat + (count.toNat + 1)) % 2 ^ 64 := by
      rw [RunningTotal.rawSize, UInt64.toNat_add, hoffset, RunningTotal.summarySize,
        UInt64.toNat_add, UInt64.toNat_one]
      exact Nat.add_mod_mod _ _ _
    rw [hwords] at hbig
    unfold newArray
    split
    · rename_i hnew
      have hout : ¬ (RunningTotal.summaryOffset ⟨[], count, size, 1⟩).toNat <
          ((List.range (RunningTotal.rawSize ⟨[], count, size, 1⟩).toNat).map garbage).length := by
        rw [List.length_map, List.length_range, hoffset, hraw]
        rw [hraw] at hnew
        omega
      have hfront : storeFront ((List.range (RunningTotal.rawSize ⟨[], count, size, 1⟩).toNat).map
          garbage) (RunningTotal.summaryOffset ⟨[], count, size, 1⟩)
          (RunningTotal.summarySize ⟨[], count, size, 1⟩) 0 = none := by
        unfold storeFront
        split
        · exact if_neg hout
        · rfl
      rw [Option.bind_some, hfront, Option.bind_none]
    · rw [Option.bind_none]
  · -- the only part has the largest size, and its segment none
    have hone : count.toNat = 1 := by
      by_contra hne
      obtain ⟨c, hc⟩ := Nat.exists_eq_add_of_le (show 2 ≤ count.toNat by omega)
      rw [hc, show 2 + c - 1 = c + 1 by omega] at hlast
      have hle : c + 1 + size.toNat - 1 ≤ (c + 1) * size.toNat :=
        Nat.add_sub_one_le_mul (Nat.succ_ne_zero c) (Nat.pos_iff_ne_zero.mp hsizePos)
      have hsplit : (size.toNat + 1) * (2 + c) = (c + 1) * size.toNat + size.toNat + (2 + c) := by
        ring
      rw [hc, hsplit] at hsmall
      omega
    have hzero : RunningTotal.partSegmentSize ⟨[], count, size, 1⟩ = 0 := by
      rw [← UInt64.toNat_inj, hsegment, UInt64.toNat_zero]
      rw [hone] at hsmall
      omega
    have hloop : ∀ values, (List.range count.toNat).foldlM (fun values i =>
        storeFront values (RunningTotal.partSegmentOffset ⟨[], count, size, 1⟩ (.ofNat i))
          (RunningTotal.partSegmentSize ⟨[], count, size, 1⟩) 0) values = none := by
      intro values
      rw [hone, List.range_one, List.foldlM_cons, hzero, storeFront, if_neg (by decide)]
      rfl
    simp only [hloop, Option.map_none, Option.bind_fun_none]

/-- **Parallel running totals.** For every input, every function of its items, all positive task
    sizes and task counts for which the plan's arithmetic does not wrap, and whatever the buffer
    held: the call returns the prefix sums in every order of its tasks, with no check failing,
    exactly when there is no input or the buffer is one that `new` can give. -/
theorem parallel_running_total_iff (hmin : 0 < params.minTaskSize) (hmax : 0 < params.maxTasks)
    (hlen : items.length < 2 ^ 63)
    (hwrap : items.length + targetSize params items.length ≤ 2 ^ 64) :
    Computes garbage fn params items ↔
      items = [] ∨ bufferWords params items.length * 8 < 2 ^ 63 := by
  have hn : (UInt64.ofNat items.length).toNat = items.length :=
    UInt64.toNat_ofNat_of_lt' (by show items.length < 2 ^ 64; omega)
  rw [← hn] at hwrap hlen
  obtain ⟨plan, hplan, hfor⟩ := new_eq_some hmin hmax hlen hwrap
  rw [hn] at hfor hlen
  have hinput : plan.inputSize = 0 ↔ items = [] := by
    rw [← UInt64.toNat_inj, hfor.inputSize, UInt64.toNat_zero, List.length_eq_zero_iff]
  by_cases hne : items = []
  · refine iff_of_true ⟨.returned .default, ?_, ?_⟩ (.inl hne)
    · rw [parallelRunningTotal, hplan, Option.bind_some, if_pos (hinput.mpr hne)]
    · rw [hne]
      exact sums_of_inv (k := 0) (s := 0) (show Inv fn 0 0 [] (.returned .default) from
        default_isPrefixSum)
  · rw [or_iff_right hne]
    constructor
    · rintro ⟨s₀, hstart, -⟩
      by_contra hbig
      have hparts : 0 < plan.nTasks.toNat := by
        by_contra hzero
        have := hfor.le_nTasks_mul
        rw [Nat.eq_zero_of_not_pos hzero, Nat.zero_mul] at this
        exact hne (List.length_eq_zero_iff.mp (Nat.le_zero.mp this))
      have hwords : 2 ^ 63 ≤ (plan.nTasks.toNat * (plan.taskSize.toNat + 2) + 1) * 8 := by
        rw [hfor.nTasks, hfor.taskSize]
        exact not_lt.mp hbig
      have hnone : RunningTotal.reset garbage plan.nTasks plan.taskSize = none :=
        reset_eq_none hlen hparts (hfor.offset_lt (by omega)) hwords
      rw [parallelRunningTotal, hplan, Option.bind_some, if_neg (mt hinput.mp hne), hnone,
        Option.bind_none] at hstart
      cases hstart
    · intro hfit
      obtain ⟨s₀, hstart, hinv⟩ := @start_inv _ garbage fn _ _ _ hplan hfor hlen hne hfit
      exact ⟨s₀, hstart, sums_of_inv hinv⟩

theorem parallel_running_total_iff_two_parts :
    Computes (fun _ => 7) UInt64.ofNat ⟨3, 2⟩ [2, 1, 3, 1, 1] :=
  (@parallel_running_total_iff _ (fun _ => 7) UInt64.ofNat ⟨3, 2⟩ [2, 1, 3, 1, 1] (by decide)
    (by decide) (by decide) (by decide)).mpr (.inr (by decide))

set_option maxRecDepth 3000 in
/-- One item that is never to be split: its part would be longer than any array. -/
theorem never_split_has_no_buffer : ¬ Computes (fun _ => 0) id ⟨2 ^ 61, 1⟩ [5] := by
  rintro ⟨s₀, hstart, -⟩
  have hnone : parallelRunningTotal (fun _ => 0) ⟨2 ^ 61, 1⟩ [(5 : UInt64)] = none := by
    decide
  rw [hnone] at hstart
  cases hstart

end

end Batt.RunningTotals
