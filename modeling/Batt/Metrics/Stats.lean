/-
  `batt::StatsMetric<T>` and the parts of `CountMetric<T>` it uses (`metrics/metric_collectors.hpp`),
  and what a `StatsMetric` has come to in every interleaving of any number of `update` calls.

  `T` is an integer type, its width and whether it is signed. A value of `T` is an integer within
  its limits, and what does not fit is taken modulo `2 ^ bits`: by `fetch_add` of a `std::atomic`,
  and where a sample of another type is converted. An access to an atomic is one step. `run true`
  lets a weak compare-exchange fail for no reason.

  A call owes its one to the count and its sample to the total until it has added them
  (`Counted`), and its sample to the maximum and to the minimum until it has left the loop of the
  clamp (`Extreme`). The loop is left only where the sample is no longer beyond what is stored.
-/
import Batt.Lib.Interleave
import Mathlib.Order.Basic
import Mathlib.Order.Bounds.Basic
import Mathlib.Algebra.BigOperators.Group.List.Basic
import Mathlib.Algebra.Ring.Int.Defs

namespace Batt.Metrics.Stats

open Interleave

structure IntegerType where
  bits : Nat
  signed : Bool
  bits_pos : 0 < bits

/-! ## Values -/

section

variable (T : IntegerType)

/-- `std::numeric_limits<T>::min()`. -/
def IntegerType.min : Int := if T.signed then -2 ^ (T.bits - 1) else 0

/-- `std::numeric_limits<T>::max()`. -/
def IntegerType.max : Int := if T.signed then 2 ^ (T.bits - 1) - 1 else 2 ^ T.bits - 1

abbrev IntegerType.Value := {x : Int // T.min ≤ x ∧ x ≤ T.max}

theorem IntegerType.max_eq : T.max = T.min + (2 ^ T.bits - 1) := by
  have hpow : (2 : Int) ^ T.bits = 2 ^ (T.bits - 1) * 2 := by
    rw [← pow_succ, Nat.sub_add_cancel T.bits_pos]
  unfold IntegerType.max IntegerType.min
  split <;> omega

theorem IntegerType.modulus_pos : (0 : Int) < 2 ^ T.bits := Int.pow_pos (by decide)

/-- The value of `T` that is `x` modulo `2 ^ bits`. -/
def IntegerType.wrap (x : Int) : T.Value :=
  ⟨T.min + (x - T.min) % 2 ^ T.bits, by
    have hpos := T.modulus_pos
    have hnonneg := Int.emod_nonneg (x - T.min) hpos.ne'
    have hlt := Int.emod_lt_of_pos (x - T.min) hpos
    rw [T.max_eq]
    omega⟩

theorem IntegerType.wrap_coe (x : T.Value) : T.wrap x = x := by
  obtain ⟨x, hmin, hmax⟩ := x
  rw [T.max_eq] at hmax
  have hmod : (x - T.min) % 2 ^ T.bits = x - T.min := Int.emod_eq_of_lt (by omega) (by omega)
  apply Subtype.ext
  simp only [wrap, hmod]
  omega

theorem IntegerType.wrap_eq_wrap_iff {x y : Int} :
    T.wrap x = T.wrap y ↔ x % 2 ^ T.bits = y % 2 ^ T.bits := by
  rw [Subtype.ext_iff]
  simp only [wrap, Int.add_right_inj]
  exact Int.emod_sub_cancel_right T.min

theorem IntegerType.wrap_add {x y : Int} (h : T.wrap x = T.wrap y) (z : Int) :
    T.wrap (x + z) = T.wrap (y + z) := by
  rw [wrap_eq_wrap_iff] at h ⊢
  rw [Int.add_emod, h, ← Int.add_emod]

theorem IntegerType.wrap_wrap_add (x y : Int) : T.wrap (T.wrap x + y) = T.wrap (x + y) :=
  T.wrap_add (T.wrap_coe _) y

end

/-! ## The metric -/

variable {T : IntegerType}

structure StatsMetric (T : IntegerType) where
  count : T.Value
  total : T.Value
  max : T.Value
  min : T.Value
deriving DecidableEq

/-- The default constructor. -/
def StatsMetric.empty : StatsMetric T :=
  { count := T.wrap 0, total := T.wrap 0, max := T.wrap T.min, min := T.wrap T.max }

/-- The constructor from an initial value. -/
def StatsMetric.ofValue (init : T.Value) : StatsMetric T :=
  { count := T.wrap 1, total := init, max := init, min := init }

/-- `fetch_add`. -/
def fetchAdd (value : T.Value) (delta : Int) : T.Value := T.wrap (value + T.wrap delta)

/-- `compare_exchange_weak(expected, desired)`: the new value and, where it fails, what it leaves in
    `expected`. -/
def compareExchangeWeak (spurious : Bool) (value expected desired : T.Value) :
    T.Value × Option T.Value :=
  if spurious = false ∧ value = expected then (desired, none) else (value, some value)

/-! ## Threads -/

/-- Where a call of `update` is: before one of its accesses. In the loop of a clamp its condition
    holds of what has been observed. -/
inductive Pc (T : IntegerType) where
  | idle
  | countAdd (sample : Int)
  | totalAdd (sample : Int)
  /-- `clamp_min` of `max_`. -/
  | maxLoad (sample : Int)
  | maxExchange (sample : Int) (observed : T.Value) (h : observed.val < T.wrap sample)
  /-- `clamp_max` of `min_`. -/
  | minLoad (sample : Int)
  | minExchange (sample : Int) (observed : T.Value) (h : T.wrap sample < observed.val)
deriving DecidableEq

inductive Act where
  | update (sample : Int)
  | run (spurious : Bool)
deriving DecidableEq

/-- The loop of `clamp_min`, with what it has observed. -/
def clampMin (sample : Int) (observed : T.Value) : Pc T :=
  if h : observed.val < T.wrap sample then .maxExchange sample observed h else .minLoad sample

/-- The loop of `clamp_max`, with what it has observed. -/
def clampMax (sample : Int) (observed : T.Value) : Pc T :=
  if h : T.wrap sample < observed.val then .minExchange sample observed h else .idle

def exec (spurious : Bool) (m : StatsMetric T) : Pc T → Option (StatsMetric T × Pc T)
  | .idle => none
  | .countAdd sample => some ({ m with count := fetchAdd m.count 1 }, .totalAdd sample)
  | .totalAdd sample => some ({ m with total := fetchAdd m.total sample }, .maxLoad sample)
  | .maxLoad sample => some (m, clampMin sample m.max)
  | .maxExchange sample observed _ =>
    let r := compareExchangeWeak spurious m.max observed (T.wrap sample)
    some ({ m with max := r.1 }, r.2.elim (.minLoad sample) (clampMin sample))
  | .minLoad sample => some (m, clampMax sample m.min)
  | .minExchange sample observed _ =>
    let r := compareExchangeWeak spurious m.min observed (T.wrap sample)
    some ({ m with min := r.1 }, r.2.elim .idle (clampMax sample))

def step : Act → StatsMetric T → Pc T → Option (StatsMetric T × Pc T)
  | .update sample, m, .idle => some (m, .countAdd sample)
  | .update _, _, _ => none
  | .run spurious, m, pc => exec spurious m pc

def machine (T : IntegerType) : Machine (StatsMetric T) (Pc T) Act where
  step := step

/-- `n` threads, none of which is in a call. -/
def start (init : StatsMetric T) (n : Nat) : Conf (StatsMetric T) (Pc T) :=
  { shared := init, locals := List.replicate n .idle }

/-- The samples of the calls in a schedule. -/
def samples (sched : List (Nat × Act)) : List Int :=
  sched.filterMap fun e =>
    match e.2 with
    | .update sample => some sample
    | .run _ => none

variable {c c' : Conf (StatsMetric T) (Pc T)} {ls : List (Pc T)}

/-! ## Sums that are still owed -/

/-- The value and what the threads still owe it make `sum`. -/
def Counted (owed : Pc T → Int) (sum : Int) (ls : List (Pc T)) (v : T.Value) : Prop :=
  T.wrap (v + (ls.map owed).sum) = T.wrap sum

theorem Counted.set {owed : Pc T → Int} {sum d : Int} {i : Nat} {l l' : Pc T} {v v' : T.Value}
    (h : Counted owed sum ls v) (hi : ls[i]? = some l)
    (hstep : T.wrap (v' + owed l') = T.wrap (v + owed l + d)) :
    Counted owed (sum + d) (ls.set i l') v' := by
  obtain ⟨others, hbefore, hafter⟩ := perm_set hi
  have hls : (ls.map owed).sum = owed l + (others.map owed).sum := (hbefore.map owed).sum_eq
  have hset : ((ls.set i l').map owed).sum = owed l' + (others.map owed).sum :=
    ((hafter l').map owed).sum_eq
  unfold Counted at h ⊢
  calc T.wrap (v' + ((ls.set i l').map owed).sum)
      = T.wrap (v' + owed l' + (others.map owed).sum) := by rw [hset, add_assoc]
    _ = T.wrap (v + owed l + d + (others.map owed).sum) := T.wrap_add hstep _
    _ = T.wrap (v + (ls.map owed).sum + d) := by
      rw [hls]
      congr 1
      omega
    _ = T.wrap (sum + d) := T.wrap_add h d

/-! ## Extremes that are still owed -/

/-- `v` is one of the values given and the initial one, and none of these is beyond it but what is
    still owed. -/
structure Extreme {α : Type} (le : α → α → Prop) (init : α) (given owed : List α) (v : α) :
    Prop where
  attained : v = init ∨ v ∈ given
  initial : le init v
  covered : ∀ x ∈ given, le x v ∨ x ∈ owed
  owed_given : ∀ x ∈ owed, x ∈ given

/-- What a step of a thread does to an extreme: it goes on to a value that the thread owes, and the
    thread owes no less than what is still beyond that. -/
structure Advances {α : Type} (le : α → α → Prop) (owed owed' : List α) (v v' : α) : Prop where
  onward : le v v'
  from_owed : v' = v ∨ v' ∈ owed
  keeps : ∀ x ∈ owed', x ∈ owed
  done : ∀ x ∈ owed, le x v' ∨ x ∈ owed'

theorem advances_same {α : Type} {le : α → α → Prop} [Std.Refl le] (owed : List α) (v : α) :
    Advances le owed owed v v :=
  ⟨Std.Refl.refl v, .inl rfl, fun _ hx => hx, fun _ hx => .inr hx⟩

section

variable {α Loc : Type} {le : α → α → Prop} {init v v' : α} {given : List α} {owed : Loc → List α}
  {ls : List Loc} {i : Nat} {l l' : Loc}

theorem Extreme.set [IsTrans α le] (h : Extreme le init given (ls.flatMap owed) v)
    (hi : ls[i]? = some l) (hstep : Advances le (owed l) (owed l') v v') :
    Extreme le init given ((ls.set i l').flatMap owed) v' := by
  obtain ⟨rest, hbefore, hafter⟩ := flatMap_set owed hi
  have hmem : ∀ x, x ∈ owed l ∨ x ∈ rest → x ∈ ls.flatMap owed := fun x hx =>
    hbefore.mem_iff.mpr (List.mem_append.mpr hx)
  have hmem' : ∀ x, x ∈ owed l' ∨ x ∈ rest → x ∈ (ls.set i l').flatMap owed := fun x hx =>
    (hafter l').mem_iff.mpr (List.mem_append.mpr hx)
  refine ⟨?_, Trans.trans h.initial hstep.onward, ?_, ?_⟩
  · rcases hstep.from_owed with rfl | howed
    · exact h.attained
    · exact .inr (h.owed_given v' (hmem v' (.inl howed)))
  · intro x hx
    rcases h.covered x hx with hle | howed
    · exact .inl (Trans.trans hle hstep.onward)
    · rcases List.mem_append.mp (hbefore.mem_iff.mp howed) with howed | hrest
      · exact (hstep.done x howed).imp_right fun hx => hmem' x (.inl hx)
      · exact .inr (hmem' x (.inr hrest))
  · intro x hx
    rcases List.mem_append.mp ((hafter l').mem_iff.mp hx) with hx | hx
    · exact h.owed_given x (hmem x (.inl (hstep.keeps x hx)))
    · exact h.owed_given x (hmem x (.inr hx))

/-- A thread that owed nothing gives a value. -/
theorem Extreme.give {x : α} (h : Extreme le init given (ls.flatMap owed) v) (hi : ls[i]? = some l)
    (hl : owed l = []) (hl' : owed l' = [x]) :
    Extreme le init (given ++ [x]) ((ls.set i l').flatMap owed) v := by
  obtain ⟨rest, hbefore, hafter⟩ := flatMap_set owed hi
  have hafter' := hafter l'
  rw [hl] at hbefore
  rw [hl'] at hafter'
  refine ⟨h.attained.imp_right (List.mem_append_left _), h.initial, ?_, ?_⟩
  · intro y hy
    rcases List.mem_append.mp hy with hy | hy
    · refine (h.covered y hy).imp_right fun howed => ?_
      exact hafter'.mem_iff.mpr (List.mem_append_right _ (hbefore.mem_iff.mp howed))
    · exact .inr (hafter'.mem_iff.mpr (List.mem_append_left _ hy))
  · intro y hy
    rcases List.mem_append.mp (hafter'.mem_iff.mp hy) with hy | hy
    · exact List.mem_append_right _ hy
    · exact List.mem_append_left _ (h.owed_given y (hbefore.mem_iff.mpr hy))

end

/-! ## One step -/

/-- What a call still has to add to the count. -/
def owedCount : Pc T → Int
  | .countAdd _ => 1
  | _ => 0

def owedTotal : Pc T → Int
  | .countAdd sample | .totalAdd sample => sample
  | _ => 0

/-- The sample of a call that has not left the loop of `clamp_min`. -/
def owedMax : Pc T → List T.Value
  | .countAdd sample | .totalAdd sample | .maxLoad sample | .maxExchange sample _ _ =>
    [T.wrap sample]
  | _ => []

/-- The sample of a call that has not left the loop of `clamp_max`. -/
def owedMin : Pc T → List T.Value
  | .countAdd sample | .totalAdd sample | .maxLoad sample | .maxExchange sample _ _
  | .minLoad sample | .minExchange sample _ _ => [T.wrap sample]
  | .idle => []

/-- What one access of an `update` does. -/
structure Access (m m' : StatsMetric T) (l l' : Pc T) : Prop where
  count : T.wrap (m'.count + owedCount l') = T.wrap (m.count + owedCount l)
  total : T.wrap (m'.total + owedTotal l') = T.wrap (m.total + owedTotal l)
  max : Advances (· ≤ ·) (owedMax l) (owedMax l') m.max m'.max
  min : Advances (· ≥ ·) (owedMin l) (owedMin l') m.min m'.min

theorem wrap_fetchAdd (v : T.Value) (delta : Int) : T.wrap (fetchAdd v delta) = T.wrap (v + delta) := by
  unfold fetchAdd
  rw [T.wrap_coe, add_comm, T.wrap_wrap_add, add_comm]

theorem owed_clampMin (sample : Int) (observed : T.Value) :
    owedCount (clampMin sample observed) = 0 ∧ owedTotal (clampMin sample observed) = 0 ∧
      owedMin (clampMin sample observed) = [T.wrap sample] := by
  unfold clampMin
  split <;> exact ⟨rfl, rfl, rfl⟩

theorem owed_clampMax (sample : Int) (observed : T.Value) :
    owedCount (clampMax sample observed) = 0 ∧ owedTotal (clampMax sample observed) = 0 ∧
      owedMax (clampMax sample observed) = [] := by
  unfold clampMax
  split <;> exact ⟨rfl, rfl, rfl⟩

/-- `clamp_min` observes what is stored: it is done if its bound is not above that. -/
theorem advances_clampMin (sample : Int) (v : T.Value) :
    Advances (· ≤ ·) [T.wrap sample] (owedMax (clampMin sample v)) v v := by
  unfold clampMin
  split
  · exact advances_same _ v
  · rename_i hle
    refine ⟨le_refl v, .inl rfl, nofun, fun x hx => .inl ?_⟩
    obtain rfl := List.mem_singleton.mp hx
    exact not_lt.mp hle

theorem advances_clampMax (sample : Int) (v : T.Value) :
    Advances (· ≥ ·) [T.wrap sample] (owedMin (clampMax sample v)) v v := by
  unfold clampMax
  split
  · exact advances_same _ v
  · rename_i hle
    refine ⟨le_refl v, .inl rfl, nofun, fun x hx => .inl ?_⟩
    obtain rfl := List.mem_singleton.mp hx
    exact not_lt.mp hle

/-- An exchange that takes the place of a value that is not beyond the new one. -/
theorem advances_exchange {le : T.Value → T.Value → Prop} [Std.Refl le] {v desired : T.Value}
    (h : le v desired) : Advances le [desired] [] v desired := by
  refine ⟨h, .inr (List.mem_singleton_self _), nofun, fun x hx => .inl ?_⟩
  obtain rfl := List.mem_singleton.mp hx
  exact Std.Refl.refl x

theorem exec_access {spurious : Bool} {m m' : StatsMetric T} {l l' : Pc T}
    (h : exec spurious m l = some (m', l')) : Access m m' l l' := by
  cases l with
  | idle => cases h
  | countAdd sample =>
    cases h
    refine ⟨?_, rfl, advances_same _ _, advances_same _ _⟩
    exact (congrArg T.wrap (add_zero _)).trans (wrap_fetchAdd _ _)
  | totalAdd sample =>
    cases h
    refine ⟨rfl, ?_, advances_same _ _, advances_same _ _⟩
    exact (congrArg T.wrap (add_zero _)).trans (wrap_fetchAdd _ _)
  | maxLoad sample =>
    cases h
    obtain ⟨hcount, htotal, hmin⟩ := owed_clampMin sample m.max
    refine ⟨by rw [hcount]; rfl, by rw [htotal]; rfl, advances_clampMin sample m.max, ?_⟩
    rw [hmin]
    exact advances_same _ _
  | maxExchange sample observed hlt =>
    simp only [exec, compareExchangeWeak] at h
    split at h <;> cases h
    · rename_i heq
      exact ⟨rfl, rfl, advances_exchange (heq.2 ▸ hlt.le), advances_same _ _⟩
    · -- the value observed is the one stored
      obtain ⟨hcount, htotal, hmin⟩ := owed_clampMin sample m.max
      refine ⟨by rw [Option.elim, hcount]; rfl, by rw [Option.elim, htotal]; rfl,
        advances_clampMin sample m.max, ?_⟩
      rw [Option.elim, hmin]
      exact advances_same _ _
  | minLoad sample =>
    cases h
    obtain ⟨hcount, htotal, hmax⟩ := owed_clampMax sample m.min
    refine ⟨by rw [hcount]; rfl, by rw [htotal]; rfl, ?_, advances_clampMax sample m.min⟩
    rw [hmax]
    exact advances_same _ _
  | minExchange sample observed hlt =>
    simp only [exec, compareExchangeWeak] at h
    split at h <;> cases h
    · rename_i heq
      exact ⟨rfl, rfl, advances_same _ _, advances_exchange (heq.2 ▸ hlt.le)⟩
    · obtain ⟨hcount, htotal, hmax⟩ := owed_clampMax sample m.min
      refine ⟨by rw [Option.elim, hcount]; rfl, by rw [Option.elim, htotal]; rfl, ?_,
        advances_clampMax sample m.min⟩
      rw [Option.elim, hmax]
      exact advances_same _ _

/-! ## Runs -/

structure Inv (init : StatsMetric T) (past : List (Nat × Act))
    (c : Conf (StatsMetric T) (Pc T)) : Prop where
  count : Counted owedCount (init.count + (samples past).length) c.locals c.shared.count
  total : Counted owedTotal (init.total + (samples past).sum) c.locals c.shared.total
  max : Extreme (· ≤ ·) init.max ((samples past).map T.wrap) (c.locals.flatMap owedMax) c.shared.max
  min : Extreme (· ≥ ·) init.min ((samples past).map T.wrap) (c.locals.flatMap owedMin) c.shared.min

theorem samples_update (past : List (Nat × Act)) (i : Nat) (sample : Int) :
    samples (past ++ [(i, .update sample)]) = samples past ++ [sample] :=
  List.filterMap_append

theorem samples_run (past : List (Nat × Act)) (i : Nat) (spurious : Bool) :
    samples (past ++ [(i, .run spurious)]) = samples past :=
  List.filterMap_append.trans (List.append_nil _)

theorem inv_start (init : StatsMetric T) (n : Nat) : Inv init [] (start init n) := by
  have howed : ∀ owed : Pc T → List T.Value, owed .idle = [] →
      (List.replicate n (.idle : Pc T)).flatMap owed = [] := by
    intro owed h
    rw [List.flatMap_replicate, h, List.flatten_replicate_nil]
  have hsum : ∀ owed : Pc T → Int, owed .idle = 0 →
      ((List.replicate n (.idle : Pc T)).map owed).sum = 0 := by
    intro owed h
    rw [List.map_replicate, h]
    exact List.sum_eq_zero fun x hx => List.eq_of_mem_replicate hx
  refine ⟨?_, ?_, ⟨.inl rfl, le_refl _, nofun, ?_⟩, ⟨.inl rfl, le_refl _, nofun, ?_⟩⟩
  · unfold Counted
    rw [start, hsum owedCount rfl]
    rfl
  · unfold Counted
    rw [start, hsum owedTotal rfl]
    rfl
  · rw [start, howed owedMax rfl]
    nofun
  · rw [start, howed owedMin rfl]
    nofun

theorem inv_fire {init : StatsMetric T} {past : List (Nat × Act)} {i : Nat} {a : Act}
    (inv : Inv init past c) (h : (machine T).fire i a c = some c') :
    Inv init (past ++ [(i, a)]) c' := by
  obtain ⟨l, m', l', hi, _, hs, rfl⟩ := Machine.fire_cases h
  cases a with
  | update sample =>
    cases l <;> cases hs
    have hcount : Counted owedCount _ (c.locals.set i (.countAdd sample)) c.shared.count :=
      inv.count.set (d := 1) hi (congrArg (fun x => T.wrap (x + 1)) (add_zero _).symm)
    have htotal : Counted owedTotal _ (c.locals.set i (.countAdd sample)) c.shared.total :=
      inv.total.set (d := sample) hi (congrArg (fun x => T.wrap (x + sample)) (add_zero _).symm)
    refine ⟨?_, ?_, ?_, ?_⟩
    · rw [samples_update, List.length_append, List.length_singleton, Int.natCast_add, ← add_assoc]
      exact hcount
    · rw [samples_update, List.sum_append, List.sum_singleton, ← add_assoc]
      exact htotal
    · rw [samples_update, List.map_append]
      exact inv.max.give hi rfl rfl
    · rw [samples_update, List.map_append]
      exact inv.min.give hi rfl rfl
  | run spurious =>
    have hacc := exec_access hs
    have hcount := inv.count.set (d := 0) hi (by rw [hacc.count, add_zero])
    have htotal := inv.total.set (d := 0) hi (by rw [hacc.total, add_zero])
    rw [add_zero] at hcount htotal
    rw [← samples_run past i spurious] at hcount htotal
    refine ⟨hcount, htotal, ?_, ?_⟩
    · rw [samples_run]
      exact inv.max.set hi hacc.max
    · rw [samples_run]
      exact inv.min.set hi hacc.min

theorem inv_run {init : StatsMetric T} {n : Nat} {sched : List (Nat × Act)}
    (h : (machine T).run sched (start init n) = some c) :
    Inv init sched c :=
  Machine.history_runWhere (I := Inv init) (fun _ _ _ _ _ inv _ hf => inv_fire inv hf)
    (inv_start init n) h

/-- The maximum only goes up and the minimum only down. -/
theorem extremes_fire {i : Nat} {a : Act} (h : (machine T).fire i a c = some c') :
    c.shared.max ≤ c'.shared.max ∧ c'.shared.min ≤ c.shared.min := by
  obtain ⟨l, m', l', _, _, hs, rfl⟩ := Machine.fire_cases h
  cases a with
  | update sample =>
    cases l <;> cases hs
    exact ⟨le_refl _, le_refl _⟩
  | run spurious =>
    have hacc := exec_access hs
    exact ⟨hacc.max.onward, hacc.min.onward⟩

theorem extremes_run {sched : List (Nat × Act)} (h : (machine T).run sched c = some c') :
    c.shared.max ≤ c'.shared.max ∧ c'.shared.min ≤ c.shared.min := by
  refine (machine T).invariant
    (I := fun c' => c.shared.max ≤ c'.shared.max ∧ c'.shared.min ≤ c.shared.min) ?_
    ⟨le_refl _, le_refl _⟩ ⟨sched, h⟩
  intro c₁ i a c₂ hle hf
  have hstep := extremes_fire hf
  exact ⟨hle.1.trans hstep.1, hstep.2.trans hle.2⟩

theorem Counted.settled {owed : Pc T → Int} {sum : Int} {v : T.Value} (h : Counted owed sum ls v)
    (hidle : ∀ l ∈ ls, l = .idle) (howed : owed .idle = 0) :
    v = T.wrap sum := by
  have hzero : (ls.map owed).sum = 0 := by
    refine List.sum_eq_zero fun x hx => ?_
    obtain ⟨l, hl, rfl⟩ := List.mem_map.mp hx
    rw [hidle l hl, howed]
  unfold Counted at h
  rwa [hzero, add_zero, T.wrap_coe] at h

theorem Extreme.settled {α : Type} {le : α → α → Prop} {init v : α} {given : List α}
    {owed : Pc T → List α} (h : Extreme le init given (ls.flatMap owed) v)
    (hidle : ∀ l ∈ ls, l = .idle) (howed : owed .idle = []) :
    v ∈ init :: given ∧ ∀ x ∈ init :: given, le x v := by
  refine ⟨List.mem_cons.mpr h.attained, fun x hx => ?_⟩
  rcases List.mem_cons.mp hx with rfl | hx
  · exact h.initial
  · refine (h.covered x hx).resolve_right fun hx => ?_
    obtain ⟨l, hl, hx⟩ := List.mem_flatMap.mp hx
    rw [hidle l hl, howed] at hx
    cases hx

/-- **A `StatsMetric` aggregates.** Any number of threads call `update`, in any interleaving of
    their accesses, from any state of the metric. In no part of the run does the maximum go down or
    the minimum go up. Once no call is under way the count is one more for each sample and the total
    more by the sum of the samples, both modulo `2 ^ bits`, and the maximum and the minimum are the
    greatest and the least of their initial value and the samples. -/
theorem stats_aggregate (init : StatsMetric T) (n : Nat) (sched : List (Nat × Act))
    (c : Conf (StatsMetric T) (Pc T)) (h : (machine T).run sched (start init n) = some c) :
    (∀ s t c₁, sched = s ++ t → (machine T).run s (start init n) = some c₁ →
        c₁.shared.max ≤ c.shared.max ∧ c.shared.min ≤ c₁.shared.min) ∧
      ((∀ l ∈ c.locals, l = .idle) →
        c.shared.count = T.wrap (init.count + (samples sched).length) ∧
        c.shared.total = T.wrap (init.total + (samples sched).sum) ∧
        IsGreatest {x | x ∈ init.max :: (samples sched).map T.wrap} c.shared.max ∧
        IsLeast {x | x ∈ init.min :: (samples sched).map T.wrap} c.shared.min) := by
  constructor
  · rintro s t c₁ rfl hs
    rw [Machine.run_append, hs, Option.bind_some] at h
    exact extremes_run h
  · intro hidle
    have inv := inv_run h
    exact ⟨inv.count.settled hidle rfl, inv.total.settled hidle rfl,
      inv.max.settled hidle rfl, inv.min.settled hidle rfl⟩

def u8 : IntegerType := { bits := 8, signed := false, bits_pos := by decide }

/-- Two calls at once. The exchange of the first fails for no reason and is tried again, and then
    that of the second fails, for there is a new maximum. -/
def racingRun : List (Nat × Act) :=
  [(0, .update 5), (1, .update 9), (0, .run false), (1, .run false), (0, .run false),
    (1, .run false), (0, .run false), (1, .run false), (0, .run true), (0, .run false),
    (1, .run false), (0, .run false), (1, .run false), (0, .run false), (1, .run false)]

theorem stats_aggregate_racingRun :
    ∃ c, (machine u8).run racingRun (start .empty 2) = some c ∧
      c.shared = ⟨u8.wrap 2, u8.wrap 14, u8.wrap 9, u8.wrap 5⟩ ∧
      IsGreatest {x | x ∈ StatsMetric.empty.max :: [u8.wrap 5, u8.wrap 9]} c.shared.max := by
  have h : (machine u8).run racingRun (start .empty 2) =
      some ⟨⟨u8.wrap 2, u8.wrap 14, u8.wrap 9, u8.wrap 5⟩, [.idle, .idle]⟩ := rfl
  refine ⟨_, h, rfl, ?_⟩
  have hidle : ∀ l ∈ [Pc.idle, Pc.idle], l = (Pc.idle : Pc u8) := by
    intro l hl
    simpa using hl
  exact ((stats_aggregate .empty 2 racingRun _ h).2 hidle).2.2.1

/-- A count of 255 in eight bits: one sample more makes it zero. -/
theorem count_wraps :
    ¬∀ (T : IntegerType) (init : StatsMetric T) (n : Nat) (sched : List (Nat × Act))
      (c : Conf (StatsMetric T) (Pc T)), (machine T).run sched (start init n) = some c →
      (∀ l ∈ c.locals, l = .idle) →
      (c.shared.count : Int) = init.count + (samples sched).length := by
  intro h
  have hrun : (machine u8).run
      [(0, .update 3), (0, .run false), (0, .run false), (0, .run false), (0, .run false),
        (0, .run false), (0, .run false)]
      (start { StatsMetric.empty with count := u8.wrap 255 } 1) =
      some ⟨⟨u8.wrap 0, u8.wrap 3, u8.wrap 3, u8.wrap 3⟩, [.idle]⟩ := rfl
  have hcount := h u8 _ 1 _ _ hrun (fun _ hl => List.mem_singleton.mp hl)
  exact absurd hcount (by decide)

end Batt.Metrics.Stats
