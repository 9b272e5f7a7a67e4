/-
  The parts of a running total.

  With `k` parts of `s` items the buffer is `k` segments of `s + 1` words and the `k + 1`
  words of the summary (`Layout`: nothing in the code's arithmetic wraps when the buffer
  can be had). Task `i` owns the segment of part `i`: it has filled its first words with
  the prefix sums of its items and will fill the rest (`Task.Ok`), and no other task and
  not the summary's first word is touched by it (`Working`).
-/
import Mathlib.Tactic.Ring
import Batt.SliceWork.Plan
import Batt.RunningTotal.Model

namespace Batt.RunningTotals
open Interleave SliceWork

/-! ## Sums modulo 2^64 -/

def sum64 (xs : List UInt64) : UInt64 := .ofNat (xs.map (·.toNat)).sum

/-- The sum of the first `i`. -/
def prefixSum (xs : List UInt64) (i : Nat) : UInt64 := sum64 (xs.take i)

theorem sum64_append (xs ys : List UInt64) : sum64 (xs ++ ys) = sum64 xs + sum64 ys := by
  rw [sum64, List.map_append, List.sum_append, UInt64.ofNat_add]
  rfl

theorem sum64_singleton (x : UInt64) : sum64 [x] = x := by
  simp [sum64]

variable {d i : Nat}

theorem prefixSum_succ {xs rest : List UInt64} {x : UInt64} (h : xs.drop d = x :: rest) :
    prefixSum xs (d + 1) = prefixSum xs d + x := by
  have hget : xs[d]? = some x := by
    rw [← List.head?_drop, h]
    rfl
  rw [prefixSum, List.take_add_one, hget, sum64_append]
  exact congrArg _ (sum64_singleton x)

/-- Behind the end the sum stays. -/
theorem prefixSum_of_drop_nil {xs : List UInt64} {e : Nat} (h : xs.drop d = []) (hde : d ≤ e) :
    prefixSum xs e = prefixSum xs d := by
  have hlen := List.drop_eq_nil_iff.mp h
  rw [prefixSum, prefixSum, List.take_of_length_le hlen, List.take_of_length_le (hlen.trans hde)]

/-! ## The layout -/

/-- A total of `k` parts of `s` items, whose buffer can be had. -/
structure Layout (t : RunningTotal) (k s : Nat) : Prop where
  partsCount : t.partsCount.toNat = k
  partSize : t.partSize.toNat = s
  parts : 0 < k
  size : 0 < s
  fits : (k * (s + 2) + 1) * 8 < 2 ^ 63

namespace Layout

variable {t : RunningTotal} {k s : Nat}

theorem words (h : Layout t k s) : (s + 1) * k + k + 1 < 2 ^ 60 := by
  have hsplit : (s + 1) * k + k + 1 = k * (s + 2) + 1 := by ring
  have := h.fits
  omega

theorem segment_lt (h : Layout t k s) : s + 1 < 2 ^ 60 := by
  have := h.words
  have := Nat.le_mul_of_pos_right (s + 1) h.parts
  omega

theorem partSegmentSize (h : Layout t k s) : t.partSegmentSize.toNat = s + 1 := by
  have := h.segment_lt
  rw [RunningTotal.partSegmentSize, UInt64.toNat_add, h.partSize, UInt64.toNat_one]
  omega

theorem summaryOffset (h : Layout t k s) : t.summaryOffset.toNat = (s + 1) * k := by
  have := h.words
  rw [RunningTotal.summaryOffset, UInt64.toNat_mul, h.partSegmentSize, h.partsCount]
  omega

theorem summarySize (h : Layout t k s) : t.summarySize.toNat = k + 1 := by
  have := h.words
  rw [RunningTotal.summarySize, UInt64.toNat_add, h.partsCount, UInt64.toNat_one]
  omega

theorem rawSize (h : Layout t k s) : t.rawSize.toNat = (s + 1) * k + k + 1 := by
  have := h.words
  rw [RunningTotal.rawSize, UInt64.toNat_add, h.summaryOffset, h.summarySize]
  omega

theorem mul_le (_ : Layout t k s) (hi : i ≤ k) : i * (s + 1) ≤ (s + 1) * k := by
  rw [Nat.mul_comm]
  exact Nat.mul_le_mul_left _ hi

theorem partSegmentOffset (h : Layout t k s) {i : UInt64} (hi : i.toNat ≤ k) :
    (t.partSegmentOffset i).toNat = i.toNat * (s + 1) := by
  have := h.words
  have := h.mul_le hi
  rw [RunningTotal.partSegmentOffset, UInt64.toNat_mul, h.partSegmentSize]
  omega

/-- The words of a part come before the summary. -/
theorem cell_lt (_ : Layout t k s) (hi : i < k) (hd : d ≤ s) :
    i * (s + 1) + d < (s + 1) * k := by
  have hnext : (i + 1) * (s + 1) ≤ k * (s + 1) := Nat.mul_le_mul_right _ hi
  rw [Nat.succ_mul] at hnext
  rw [Nat.mul_comm (s + 1) k]
  omega

end Layout

/-- Words of different parts are different words. -/
theorem cell_inj {s j e : Nat} (hd : d ≤ s) (he : e ≤ s) (h : i * (s + 1) + d = j * (s + 1) + e) :
    i = j := by
  have hpart : ∀ {q r : Nat}, r ≤ s → (q * (s + 1) + r) / (s + 1) = q := by
    intro q r hr
    rw [Nat.mul_comm, Nat.mul_add_div (Nat.succ_pos s), Nat.div_eq_of_lt (Nat.lt_succ_of_le hr),
      Nat.add_zero]
  have hi := hpart (q := i) hd
  rw [h, hpart he] at hi
  exact hi.symm

/-! ## Setting up -/

/-- A list of positions is set to zero. -/
theorem foldlM_zeros (offset : Nat → Nat) (store0 : List UInt64 → Nat → Option (List UInt64))
    (indices : List Nat) (values : List UInt64)
    (hstore : ∀ i ∈ indices, ∀ vs : List UInt64, vs.length = values.length →
      store0 vs i = some (vs.set (offset i) 0)) (hlt : ∀ i ∈ indices, offset i < values.length) :
    ∃ values', indices.foldlM store0 values = some values' ∧ values'.length = values.length ∧
      (∀ p : Nat, values[p]? = some 0 → values'[p]? = some 0) ∧
      ∀ i ∈ indices, values'[offset i]? = some 0 := by
  induction indices generalizing values with
  | nil => exact ⟨values, rfl, rfl, fun _ h => h, nofun⟩
  | cons i indices ih =>
    have hi := hstore i List.mem_cons_self values rfl
    have hlti := hlt i List.mem_cons_self
    obtain ⟨values', hfold, hlen, hzero, hcells⟩ := ih (values.set (offset i) 0)
      (fun j hj vs hvs => hstore j (List.mem_cons_of_mem i hj) vs (by rw [hvs, List.length_set]))
      (fun j hj => by rw [List.length_set]; exact hlt j (List.mem_cons_of_mem i hj))
    have hkeep : ∀ p : Nat, values[p]? = some 0 → (values.set (offset i) 0)[p]? = some 0 := by
      intro p hp
      by_cases heq : offset i = p
      · subst heq
        exact List.getElem?_set_self hlti
      · rw [List.getElem?_set_ne heq, hp]
    refine ⟨values', ?_, by rw [hlen, List.length_set], fun p hp => hzero p (hkeep p hp), ?_⟩
    · rw [List.foldlM_cons, hi]
      exact hfold
    · intro j hj
      rcases List.mem_cons.mp hj with rfl | hj
      · exact hzero _ (List.getElem?_set_self hlti)
      · exact hcells j hj

/-- A buffer with the leading zeros of its parts and of its summary. -/
structure Zeroed (k s : Nat) (values : List UInt64) : Prop where
  length : values.length = (s + 1) * k + k + 1
  summary : values[(s + 1) * k]? = some 0
  parts : ∀ i, i < k → values[i * (s + 1)]? = some 0

theorem reset_eq {count size : UInt64} {k s : Nat} (garbage : Nat → UInt64)
    (h : Layout ⟨[], count, size, 1⟩ k s) :
    ∃ values, RunningTotal.reset garbage count size =
      some ⟨values, count, size, count * size + 1⟩ ∧ Zeroed k s values := by
  have hwords := h.words
  have hraw := h.rawSize
  have hsize : 0 < size := by
    rw [pos_iff_toNat_pos]
    exact h.partSize ▸ h.size
  have hnew : newArray garbage (RunningTotal.rawSize ⟨[], count, size, 1⟩) =
      some ((List.range ((s + 1) * k + k + 1)).map garbage) := by
    rw [newArray, hraw, if_pos (by omega)]
  have hfront : storeFront ((List.range ((s + 1) * k + k + 1)).map garbage)
      (RunningTotal.summaryOffset ⟨[], count, size, 1⟩)
      (RunningTotal.summarySize ⟨[], count, size, 1⟩) 0 =
      some (((List.range ((s + 1) * k + k + 1)).map garbage).set ((s + 1) * k) 0) := by
    have hpos : 0 < RunningTotal.summarySize ⟨[], count, size, 1⟩ := by
      rw [pos_iff_toNat_pos, h.summarySize]
      omega
    have hlt : (s + 1) * k < ((List.range ((s + 1) * k + k + 1)).map garbage).length := by
      rw [List.length_map, List.length_range]
      omega
    rw [storeFront, if_pos hpos, store, h.summaryOffset, if_pos hlt]
  obtain ⟨values, hfold, hlen, hzero, hcells⟩ := foldlM_zeros (fun i => i * (s + 1))
    (fun values i => storeFront values
      (RunningTotal.partSegmentOffset ⟨[], count, size, 1⟩ (.ofNat i))
      (RunningTotal.partSegmentSize ⟨[], count, size, 1⟩) 0)
    (List.range count.toNat)
    (((List.range ((s + 1) * k + k + 1)).map garbage).set ((s + 1) * k) 0)
    (by
      intro i hi vs hvs
      rw [List.mem_range, show count.toNat = k from h.partsCount] at hi
      rw [List.length_set, List.length_map, List.length_range] at hvs
      have hi64 : (UInt64.ofNat i).toNat = i := UInt64.toNat_ofNat_of_lt' (by
        have := Nat.le_mul_of_pos_left k (Nat.succ_pos s)
        show i < 2 ^ 64
        omega)
      have hpos : 0 < RunningTotal.partSegmentSize ⟨[], count, size, 1⟩ := by
        rw [pos_iff_toNat_pos, h.partSegmentSize]
        omega
      have hcell := h.mul_le hi.le
      have hoff := h.partSegmentOffset (i := .ofNat i) (by rw [hi64]; exact hi.le)
      rw [hi64] at hoff
      rw [storeFront, if_pos hpos, store, hoff, if_pos (by omega)])
    (by
      intro i hi
      rw [List.mem_range, show count.toNat = k from h.partsCount] at hi
      have hcell := h.mul_le hi.le
      rw [List.length_set, List.length_map, List.length_range]
      omega)
  rw [List.length_set, List.length_map, List.length_range] at hlen
  refine ⟨values, ?_, hlen, ?_, ?_⟩
  · rw [RunningTotal.reset, if_pos hsize, hnew, Option.bind_some, hfront, Option.bind_some, hfold,
      Option.map_some]
  · refine hzero _ (List.getElem?_set_self ?_)
    rw [List.length_map, List.length_range]
    omega
  · intro i hi
    exact hcells i (List.mem_range.mpr (by rw [show count.toNat = k from h.partsCount]; exact hi))

/-! ## The tasks -/

section

variable {α : Type} {fn : α → UInt64} {t : RunningTotal} {k s i j : Nat}
  {values values' : List UInt64} {xs : List UInt64} {task task' : Task α}

/-- The words of part `i` up to the `d`-th hold the prefix sums of `xs`. -/
def FilledTo (s i : Nat) (xs values : List UInt64) (d : Nat) : Prop :=
  ∀ e, e ≤ d → values[i * (s + 1) + e]? = some (prefixSum xs e)

/-- Task `i` has filled its part so far, or all of it; `xs` are its mapped items. -/
def Task.Ok (fn : α → UInt64) (k s i : Nat) (xs values : List UInt64) : Task α → Prop
  | .pending taskIndex items => taskIndex.toNat = i ∧ items.map fn = xs ∧ xs.length ≤ s ∧
      (i + 1 < k → xs.length = s) ∧ values[i * (s + 1)]? = some 0
  | .adding dst stop partTotal items => ∃ d, dst = i * (s + 1) + d + 1 ∧
      stop = i * (s + 1) + (s + 1) ∧ partTotal = prefixSum xs d ∧ items.map fn = xs.drop d ∧
      xs.length ≤ s ∧ d ≤ s ∧ FilledTo s i xs values d
  | .filling dst stop partTotal => ∃ d, dst = i * (s + 1) + d + 1 ∧
      stop = i * (s + 1) + (s + 1) ∧ partTotal = prefixSum xs d ∧ xs.drop d = [] ∧ d ≤ s ∧
      FilledTo s i xs values d
  | .finished => FilledTo s i xs values s

/-- The steps a task has left. -/
def Task.weight (s : Nat) : Task α → Nat
  | .pending _ items => items.length + s + 4
  | .adding _ _ _ items => items.length + s + 3
  | .filling dst stop _ => stop - dst + 2
  | .finished => 0

/-- A step of a task writes at most one word, of its own part and not its first. -/
def WritesIn (s i : Nat) (values values' : List UInt64) : Prop :=
  values' = values ∨ ∃ d v, d < s ∧ values' = values.set (i * (s + 1) + d + 1) v

theorem WritesIn.getElem? (h : WritesIn s i values values') {p : Nat}
    (hp : ∀ d, d < s → p ≠ i * (s + 1) + d + 1) : values'[p]? = values[p]? := by
  rcases h with rfl | ⟨d, v, hd, rfl⟩
  · rfl
  · exact List.getElem?_set_ne (hp d hd).symm

theorem WritesIn.length (h : WritesIn s i values values') : values'.length = values.length := by
  rcases h with rfl | ⟨d, v, _, rfl⟩
  · rfl
  · exact List.length_set

/-- A step of another task. -/
theorem Task.Ok.other (h : task.Ok fn k s j xs values) (hne : i ≠ j)
    (hw : WritesIn s i values values') : task.Ok fn k s j xs values' := by
  have hkeep : ∀ e, e ≤ s → values'[j * (s + 1) + e]? = values[j * (s + 1) + e]? := by
    intro e he
    refine hw.getElem? fun d hd heq => hne ?_
    exact (cell_inj he (Nat.succ_le_of_lt hd) (by omega)).symm
  have hfilled : ∀ {d}, d ≤ s → FilledTo s j xs values d → FilledTo s j xs values' d := by
    intro d hd hf e he
    rw [hkeep e (he.trans hd)]
    exact hf e he
  cases task with
  | pending taskIndex items =>
    obtain ⟨hidx, hmap, hlen, hfull, hzero⟩ := h
    exact ⟨hidx, hmap, hlen, hfull, (hkeep 0 (Nat.zero_le s)).trans hzero⟩
  | adding dst stop partTotal items =>
    obtain ⟨d, hdst, hstop, htotal, hitems, hlen, hd, hf⟩ := h
    exact ⟨d, hdst, hstop, htotal, hitems, hlen, hd, hfilled hd hf⟩
  | filling dst stop partTotal =>
    obtain ⟨d, hdst, hstop, htotal, hnil, hd, hf⟩ := h
    exact ⟨d, hdst, hstop, htotal, hnil, hd, hfilled hd hf⟩
  | finished => exact hfilled le_rfl h

/-- One more word of the part is filled. -/
theorem FilledTo.succ {v : UInt64} (h : FilledTo s i xs values d)
    (hlt : i * (s + 1) + d + 1 < values.length) (hv : v = prefixSum xs (d + 1)) :
    FilledTo s i xs (values.set (i * (s + 1) + d + 1) v) (d + 1) := by
  intro e he
  rcases Nat.lt_or_eq_of_le he with hlow | rfl
  · rw [List.getElem?_set_ne (by omega)]
    exact h e (Nat.le_of_lt_succ hlow)
  · rw [← Nat.add_assoc, List.getElem?_set_self hlt, hv]

theorem step_pending (hl : Layout t k s) (hi : i < k) {taskIndex : UInt64} {items : List α}
    (h : Task.Ok fn k s i xs values (.pending taskIndex items)) :
    Task.step fn t values (.pending taskIndex items) =
      some (values, .adding (i * (s + 1) + 1) (i * (s + 1) + (s + 1)) 0 items) := by
  obtain ⟨hidx, hmap, hlen, hfull, hzero⟩ := h
  have hoff := hl.partSegmentOffset (i := taskIndex) (by omega)
  have hsegment := hl.segment_lt
  have hitems : items.length = xs.length := by rw [← hmap, List.length_map]
  have hk : k < 2 ^ 60 := by
    have := hl.words
    omega
  have hcheck : ¬ (taskIndex + 1 < t.partsCount ∧
      t.partSegmentSize ≠ .ofNat items.length + 1) := by
    rintro ⟨hlt, hsize⟩
    have hnext : (taskIndex + 1).toNat = i + 1 := by
      rw [UInt64.toNat_add, hidx, UInt64.toNat_one]
      omega
    rw [UInt64.lt_iff_toNat_lt, hnext, hl.partsCount] at hlt
    refine hsize (UInt64.toNat_inj.mp ?_)
    rw [hl.partSegmentSize, hitems, hfull hlt, UInt64.toNat_add, UInt64.toNat_one,
      UInt64.toNat_ofNat_of_lt' (by show s < 2 ^ 64; omega)]
    omega
  rw [Task.step, if_neg hcheck, hoff, hidx, if_pos hzero, hl.partSegmentSize]

/-- An unfinished task has a step, which keeps what the task owes. -/
theorem step_ok (hl : Layout t k s) (hi : i < k) (hlen : values.length = (s + 1) * k + k + 1)
    (h : task.Ok fn k s i xs values) (hne : task ≠ .finished) :
    ∃ values' task', task.step fn t values = some (values', task') ∧
      task'.Ok fn k s i xs values' ∧ task'.weight s < task.weight s ∧
      WritesIn s i values values' := by
  have hstore : ∀ {d : Nat} (v : UInt64), d < s → store values (i * (s + 1) + d + 1) v =
      some (values.set (i * (s + 1) + d + 1) v) ∧ i * (s + 1) + d + 1 < values.length := by
    intro d v hd
    have hcell := hl.cell_lt hi (Nat.succ_le_of_lt hd)
    have hlt : i * (s + 1) + d + 1 < values.length := by omega
    exact ⟨if_pos hlt, hlt⟩
  cases task with
  | pending taskIndex items =>
    have hstep := step_pending hl hi h
    obtain ⟨-, hmap, hxs, -, hzero⟩ := h
    have hfirst : FilledTo s i xs values 0 := by
      intro e he
      rw [Nat.le_zero.mp he]
      exact hzero
    exact ⟨values, _, hstep, ⟨0, rfl, rfl, rfl, hmap, hxs, Nat.zero_le s, hfirst⟩,
      by simp [Task.weight], .inl rfl⟩
  | adding dst stop partTotal items =>
    obtain ⟨d, rfl, rfl, rfl, hitems, hxs, hd, hf⟩ := h
    cases items with
    | nil =>
      exact ⟨values, _, rfl, ⟨d, rfl, rfl, rfl, hitems.symm, hd, hf⟩,
        by simp only [Task.weight]; omega, .inl rfl⟩
    | cons item items =>
      have hdrop : xs.drop d = fn item :: items.map fn := hitems.symm
      have hlt : d < s := by
        have := congrArg List.length hdrop
        rw [List.length_drop, List.length_cons] at this
        omega
      obtain ⟨hst, hcell⟩ := hstore (prefixSum xs d + fn item) hlt
      have hsum := (prefixSum_succ hdrop).symm
      have hrest : items.map fn = xs.drop (d + 1) := by
        rw [← List.drop_drop, hdrop]
        rfl
      refine ⟨values.set (i * (s + 1) + d + 1) (prefixSum xs d + fn item),
        .adding (i * (s + 1) + (d + 1) + 1) (i * (s + 1) + (s + 1)) (prefixSum xs d + fn item) items,
        ?_, ⟨d + 1, rfl, rfl, hsum, hrest, hxs, hlt, hf.succ hcell hsum⟩, ?_, .inr ⟨d, _, hlt, rfl⟩⟩
      · rw [Task.step, hst]
        rfl
      · simp [Task.weight]
  | filling dst stop partTotal =>
    obtain ⟨d, rfl, rfl, rfl, hnil, hd, hf⟩ := h
    rcases Nat.lt_or_eq_of_le hd with hlt | rfl
    · have hsum := (prefixSum_of_drop_nil hnil (Nat.le_succ d)).symm
      obtain ⟨hst, hcell⟩ := hstore (prefixSum xs d) hlt
      have hrest : xs.drop (d + 1) = [] := by
        rw [← List.drop_drop, hnil]
        rfl
      refine ⟨values.set (i * (s + 1) + d + 1) (prefixSum xs d),
        .filling (i * (s + 1) + (d + 1) + 1) (i * (s + 1) + (s + 1)) (prefixSum xs d),
        ?_, ⟨d + 1, rfl, rfl, hsum, hrest, hlt, hf.succ hcell hsum⟩, ?_, .inr ⟨d, _, hlt, rfl⟩⟩
      · rw [Task.step, if_neg (by omega), hst]
        rfl
      · simp only [Task.weight]
        omega
    · refine ⟨values, .finished, ?_, hf, by simp [Task.weight], .inl rfl⟩
      rw [Task.step, if_pos (by omega)]
  | finished => exact absurd rfl hne

end

/-! ## The pool -/

/-- All parts on their way; `xs i` are the mapped items of part `i`. -/
structure Working {α : Type} (fn : α → UInt64) (k s : Nat) (xs : Nat → List UInt64)
    (work : Conf (List UInt64) (Task α)) : Prop where
  count : work.locals.length = k
  length : work.shared.length = (s + 1) * k + k + 1
  summary : work.shared[(s + 1) * k]? = some 0
  ok : ∀ i, i < k → ∃ task, work.locals[i]? = some task ∧ task.Ok fn k s i (xs i) work.shared

section

variable {α : Type} {fn : α → UInt64} {t : RunningTotal} {k s i : Nat} {xs : Nat → List UInt64}
  {work work' : Conf (List UInt64) (Task α)} {task : Task α}

theorem Working.task_ok (h : Working fn k s xs work) (hi : work.locals[i]? = some task) :
    i < k ∧ task.Ok fn k s i (xs i) work.shared := by
  have hlt := (List.getElem?_eq_some_iff.mp hi).1
  rw [h.count] at hlt
  obtain ⟨task', hi', hok⟩ := h.ok i hlt
  rw [hi] at hi'
  cases hi'
  exact ⟨hlt, hok⟩

/-- An unfinished task steps, and the pool is on its way as before. -/
theorem Working.fire (hl : Layout t k s) (h : Working fn k s xs work)
    (hi : work.locals[i]? = some task) (hne : task ≠ .finished) :
    ∃ work', (machine fn t).fire i () work = some work' ∧ Working fn k s xs work' ∧
      total (Task.weight s) work'.locals < total (Task.weight s) work.locals := by
  obtain ⟨hik, hok⟩ := h.task_ok hi
  obtain ⟨values', task', hstep, hok', hweight, hw⟩ := step_ok hl hik h.length hok hne
  have hfire : (machine fn t).fire i () work = some ⟨values', work.locals.set i task'⟩ := by
    have hs : (machine fn t).step () work.shared task = some (values', task') := hstep
    rw [Machine.fire, hi]
    simp only [hs, Option.map_some]
    rfl
  refine ⟨_, hfire, ⟨by rw [List.length_set]; exact h.count, by rw [hw.length]; exact h.length,
    ?_, ?_⟩, ?_⟩
  · show values'[(s + 1) * k]? = some 0
    rw [hw.getElem? ?_, h.summary]
    intro d hd
    have hcell := hl.cell_lt hik (Nat.succ_le_of_lt hd)
    omega
  · intro j hj
    by_cases hij : i = j
    · subst hij
      exact ⟨task', List.getElem?_set_self (List.getElem?_eq_some_iff.mp hi).1, hok'⟩
    · obtain ⟨other, hget, hother⟩ := h.ok j hj
      exact ⟨other, by rw [List.getElem?_set_ne hij]; exact hget, hother.other hij hw⟩
  · have hset := total_set (Task.weight s) task' hi
    show total (Task.weight s) (work.locals.set i task') < _
    omega

/-- When all tasks have finished, all parts are filled. -/
theorem Working.filled (h : Working fn k s xs work)
    (hall : work.locals.all Task.isFinished = true) (hi : i < k) :
    FilledTo s i (xs i) work.shared s := by
  obtain ⟨task, hget, hok⟩ := h.ok i hi
  have hfin := List.all_eq_true.mp hall task (List.mem_of_getElem? hget)
  cases task with
  | finished => exact hok
  | pending _ _ => cases hfin
  | adding _ _ _ _ => cases hfin
  | filling _ _ _ => cases hfin

end

end Batt.RunningTotals
