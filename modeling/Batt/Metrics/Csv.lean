/-
  `batt::MetricCsvFormatter` (`metrics/metric_csv_formatter_impl.hpp`) on a `MetricRegistry`, and its
  rows against its header.

  `V` is the type of the values, `double` in the source; `Shown` is what is printed for one, with
  `setprecision(10)`, and what a reader takes that for. `columns` says for which exporter each column
  of the last header was made. No step of the formatter reads it; where several exporters have one
  name, `initialize` does not tell their columns apart, and any of them may be taken for any.

  A write through an index past the end of `values_` has no defined effect. Here it is dropped; the
  indices written are part of the row, so that a row can be asked whether there was one.

  `index_of_` goes by name and is never cleared. So a metric may write to a column that the last
  header does not have, or has for another metric, and of several metrics of one name all write to
  the column of one. A name is printed as it is, a comma in it like one between two columns.
  `State.settled` rules all of this out, and then every row agrees with the header.
-/
import Mathlib.Logic.Function.Basic
import Mathlib.Algebra.GroupWithZero.Nat
import Batt.Metrics.Registry

namespace Batt.Metrics

variable {V : Type}

/-! ## The formatter -/

structure MetricCsvFormatter (V : Type) where
  id : Nat
  indexOf : String → Option Nat
  values : List V

/-- `values_.resize(n)`. -/
def resize [Zero V] (values : List V) (n : Nat) : List V :=
  values.take n ++ List.replicate (n - values.length) 0

namespace MetricCsvFormatter

/-- `this->index_of_[all_names[i]] = i`, for all `i`. -/
def setIndices (indexOf : String → Option Nat) : List String → Nat → (String → Option Nat)
  | [], _ => indexOf
  | name :: names, i => setIndices (Function.update indexOf name (some i)) names (i + 1)

/-- The header, without the columns of the formatter itself. -/
def allNames (names : List String) : List String := names.insertionSort (· ≤ ·)

/-- `initialize`, with the names that `read_all` shows. -/
def initializeSchema [Zero V] (csv : MetricCsvFormatter V) (names : List String) :
    MetricCsvFormatter V :=
  { id := 0
    indexOf := setIndices csv.indexOf (allNames names) 0
    values := resize csv.values (allNames names).length }

/-- What `format_values` does with one metric that `read_all` shows. -/
def put (indexOf : String → Option Nat) (values : List V) (metric : String × V) : List V :=
  match indexOf metric.1 with
  | none => values
  | some i => values.set i metric.2

def formatValues (csv : MetricCsvFormatter V) (metrics : List (String × V)) :
    MetricCsvFormatter V :=
  { csv with id := csv.id + 1, values := metrics.foldl (put csv.indexOf) csv.values }

end MetricCsvFormatter

/-! ## Lines of text -/

/-- What stands in one column, and takes no other. -/
def Plain (text : List Char) : Prop := ',' ∉ text ∧ '\n' ∉ text

instance (text : List Char) : Decidable (Plain text) := inferInstanceAs (Decidable (_ ∧ _))

/-- What `dst << std::setprecision(10) << v` prints, and the number it is. -/
class Shown (V : Type) where
  text : V → List Char
  read : List Char → V
  plain : ∀ v, Plain (text v)

instance : Shown Nat where
  text := Nat.toDigits 10
  read digits := Nat.ofDigitChars 10 digits 0
  plain n := by
    have hdigit : ∀ c ∈ Nat.toDigits 10 n, c.isDigit = true := fun _ =>
      Nat.isDigit_of_mem_toDigits (by decide) (by decide)
    exact ⟨fun h => absurd (hdigit _ h) (by decide), fun h => absurd (hdigit _ h) (by decide)⟩

/-- The time of a row, and its date. -/
structure Stamp where
  timeUsec : List Char
  dateTime : List Char
  plain : Plain timeUsec ∧ Plain dateTime

/-- `dst << first`, then `dst << "," << field` for the others, then `dst << "\n"`. -/
def line (first : List Char) (others : List (List Char)) : List Char :=
  first ++ (others.map (',' :: ·)).flatten ++ ['\n']

def headerLine (names : List String) : List Char :=
  line "id".toList (["time_usec".toList, "date_time".toList] ++ names.map String.toList)

def rowLine [Shown V] (id : Nat) (stamp : Stamp) (values : List V) : List Char :=
  line (Nat.toDigits 10 id) ([stamp.timeUsec, stamp.dateTime] ++ values.map Shown.text)

/-- The columns of a line of text, without the three of the formatter itself. -/
def valueColumns (text : List Char) : List (List Char) :=
  ((text.takeWhile (· ≠ '\n')).splitOn ',').drop 3

/-! ## Runs -/

/-- A row, with the indices written for it, the header above it, and the value that the metric of
    each column has when the row is printed, if it is registered then. -/
structure Row (V : Type) where
  values : List V
  text : List Char
  written : List Nat
  header : List Char
  current : List (Option V)

structure State (V : Type) where
  registry : MetricRegistry
  value : Nat × Nat → V
  csv : MetricCsvFormatter V
  columns : List MetricExporter

def State.initial [Zero V] : State V :=
  { registry := .empty, value := fun _ => 0, csv := ⟨0, fun _ => none, []⟩, columns := [] }

/-- The metric that an exporter reads is registered, under whatever name. -/
def State.Holds (s : State V) (k : MetricExporter) : Prop :=
  k.reads ∈ s.registry.metrics.map MetricExporter.reads

instance (s : State V) (k : MetricExporter) : Decidable (s.Holds k) :=
  inferInstanceAs (Decidable (_ ∈ _))

inductive Event (V : Type) where
  | add (kind : MetricKind) (name : String) (obj : Nat) (labels : List MetricLabel)
  | remove (obj : Nat)
  /-- A metric changes. -/
  | update (obj part : Nat) (value : V)
  | initializeSchema (columns : List MetricExporter)
  /-- With the order in which `read_all` visits the metrics. -/
  | formatValues (order : List MetricExporter) (stamp : Stamp)

def State.row [Shown V] (s : State V) (order : List MetricExporter) (stamp : Stamp) : Row V :=
  let csv := s.csv.formatValues (order.map fun m => (m.name, s.value m.reads))
  { values := csv.values
    text := rowLine csv.id stamp csv.values
    written := order.filterMap fun m => s.csv.indexOf m.name
    header := headerLine (s.columns.map MetricExporter.name)
    current := s.columns.map fun k => if s.Holds k then some (s.value k.reads) else none }

variable (σ : SortBy MetricLabel.key)

/-- The rows that a step prints, and the state after it. -/
def step [Zero V] [Shown V] (s : State V) : Event V → Option (List (Row V) × State V)
  | .add kind name obj labels => some ([], { s with registry := s.registry.add σ kind name obj labels })
  | .remove obj => some ([], { s with registry := s.registry.remove obj })
  | .update obj part value =>
    some ([], { s with value := Function.update s.value (obj, part) value })
  | .initializeSchema columns =>
    let names := s.registry.metrics.map MetricExporter.name
    if columns.isPerm s.registry.metrics ∧
        columns.map MetricExporter.name = MetricCsvFormatter.allNames names then
      some ([], { s with csv := s.csv.initializeSchema names, columns := columns })
    else none
  | .formatValues order stamp =>
    if order.isPerm s.registry.metrics then
      some ([s.row order stamp], { s with
        csv := s.csv.formatValues (order.map fun m => (m.name, s.value m.reads)) })
    else none

/-- The rows of a run whose every step meets `P`. -/
def runWhere [Zero V] [Shown V] (P : State V → Event V → Bool) :
    List (Event V) → State V → Option (List (Row V) × State V)
  | [], s => some ([], s)
  | e :: es, s =>
    if P s e then
      (step σ s e).bind fun r => (runWhere P es r.2).map fun t => (r.1 ++ t.1, t.2)
    else none

def run [Zero V] [Shown V] : List (Event V) → State V → Option (List (Row V) × State V) :=
  runWhere σ fun _ _ => true

/-! ## What a row is to show -/

/-- Every index written is in `values_`; the row has as many columns of values as the header; and
    where the metric of a column is registered, what the column shows is its current value. -/
def Row.Agrees [Shown V] (row : Row V) : Prop :=
  (∀ i ∈ row.written, i < row.values.length) ∧
    (valueColumns row.text).length = (valueColumns row.header).length ∧
    ∀ (i : Nat) (v : V), row.current[i]? = some (some v) →
      (valueColumns row.text)[i]?.map Shown.read = some v

/-- A metric registered finds no column past the last header and none of another metric registered,
    and one that has a column finds that; the names of the columns are plain, and ten digits say
    what the values of their metrics are. -/
structure State.Settled [Shown V] (s : State V) : Prop where
  finds : ∀ m ∈ s.registry.metrics, ∀ i ∈ s.csv.indexOf m.name,
    ∃ k ∈ s.columns[i]?, s.Holds k → k.reads = m.reads
  found : ∀ p ∈ s.columns.zipIdx, s.Holds p.1 →
    ∃ m ∈ s.registry.metrics, m.reads = p.1.reads ∧ s.csv.indexOf m.name = some p.2
  names : ∀ k ∈ s.columns, Plain k.name.toList
  digits : ∀ k ∈ s.columns, s.Holds k → Shown.read (Shown.text (s.value k.reads)) = s.value k.reads

instance [Shown V] [DecidableEq V] (s : State V) : Decidable s.Settled :=
  decidable_of_iff (_ ∧ _ ∧ _ ∧ _)
    ⟨fun h => ⟨h.1, h.2.1, h.2.2.1, h.2.2.2⟩, fun h => ⟨h.finds, h.found, h.names, h.digits⟩⟩

def State.settled [Shown V] [DecidableEq V] (s : State V) : Event V → Bool
  | .formatValues _ _ => decide s.Settled
  | _ => true

/-! ## The columns of a line -/

theorem splitOn_line {first : List Char} {others : List (List Char)}
    (h : ∀ field ∈ first :: others, ',' ∉ field) :
    (first ++ (others.map (',' :: ·)).flatten).splitOn ',' = first :: others := by
  induction others generalizing first with
  | nil =>
    rw [List.map_nil, List.flatten_nil, List.append_nil]
    exact List.splitOn_eq_singleton (h first List.mem_cons_self)
  | cons field others ih =>
    rw [List.map_cons, List.flatten_cons, List.cons_append,
      List.splitOn_append_cons_self_of_not_mem (h first List.mem_cons_self),
      ih fun f hf => h f (List.mem_cons_of_mem _ hf)]

theorem valueColumns_line {first : List Char} {others : List (List Char)}
    (h : ∀ field ∈ first :: others, Plain field) :
    valueColumns (line first others) = others.drop 2 := by
  have hnone : ∀ c ∈ first ++ (others.map (',' :: ·)).flatten, decide (c ≠ '\n') = true := by
    intro c hc
    rw [decide_eq_true_eq]
    rintro rfl
    rcases List.mem_append.mp hc with hc | hc
    · exact (h first List.mem_cons_self).2 hc
    · obtain ⟨field, hfield, hc⟩ := List.mem_flatten.mp hc
      obtain ⟨f, hf, rfl⟩ := List.mem_map.mp hfield
      rcases List.mem_cons.mp hc with heq | hc
      · exact absurd heq (by decide)
      · exact (h f (List.mem_cons_of_mem _ hf)).2 hc
  rw [valueColumns, line, List.takeWhile_append_of_pos hnone,
    List.takeWhile_cons_of_neg (by decide), List.append_nil, splitOn_line fun field hfield => (h field hfield).1, List.drop_succ_cons]

theorem valueColumns_headerLine {names : List String} (h : ∀ name ∈ names, Plain name.toList) :
    valueColumns (headerLine names) = names.map String.toList := by
  refine valueColumns_line fun field hfield => ?_
  rcases List.mem_cons.mp hfield with rfl | hfield
  · decide
  rcases List.mem_append.mp hfield with hfield | hfield
  · rcases List.mem_pair.mp hfield with rfl | rfl <;> decide
  · obtain ⟨name, hname, rfl⟩ := List.mem_map.mp hfield
    exact h name hname

theorem valueColumns_rowLine [Shown V] (id : Nat) (stamp : Stamp) (values : List V) :
    valueColumns (rowLine id stamp values) = values.map Shown.text := by
  refine valueColumns_line fun field hfield => ?_
  rcases List.mem_cons.mp hfield with rfl | hfield
  · exact Shown.plain id
  rcases List.mem_append.mp hfield with hfield | hfield
  · rcases List.mem_pair.mp hfield with rfl | rfl
    · exact stamp.plain.1
    · exact stamp.plain.2
  · obtain ⟨v, -, rfl⟩ := List.mem_map.mp hfield
    exact Shown.plain v

/-! ## Writing the values -/

section

open MetricCsvFormatter

variable {indexOf : String → Option Nat} {values : List V}

theorem length_put (values : List V) (p : String × V) :
    (put indexOf values p).length = values.length := by
  unfold put
  split
  · rfl
  · exact List.length_set

theorem length_foldl_put (metrics : List (String × V)) (values : List V) :
    (metrics.foldl (put indexOf) values).length = values.length := by
  induction metrics generalizing values with
  | nil => rfl
  | cons p metrics ih => rw [List.foldl_cons, ih, length_put]

theorem getElem?_put_ne {p : String × V} {i : Nat} (h : indexOf p.1 ≠ some i) :
    (put indexOf values p)[i]? = values[i]? := by
  unfold put
  split
  · rfl
  · rename_i j hj
    exact List.getElem?_set_ne fun hji => h (hj.trans (congrArg some hji))

theorem getElem?_foldl_put_ne {metrics : List (String × V)} {i : Nat}
    (h : ∀ p ∈ metrics, indexOf p.1 ≠ some i) :
    (metrics.foldl (put indexOf) values)[i]? = values[i]? := by
  induction metrics generalizing values with
  | nil => rfl
  | cons p metrics ih =>
    rw [List.foldl_cons, ih fun q hq => h q (List.mem_cons_of_mem _ hq),
      getElem?_put_ne (h p List.mem_cons_self)]

/-- A value that is written, and no other, is there in the end. -/
theorem getElem?_foldl_put {metrics : List (String × V)} {i : Nat} {v : V} (hi : i < values.length)
    (hall : ∀ p ∈ metrics, indexOf p.1 = some i → p.2 = v)
    (hsome : ∃ p ∈ metrics, indexOf p.1 = some i) :
    (metrics.foldl (put indexOf) values)[i]? = some v := by
  induction metrics generalizing values with
  | nil =>
    obtain ⟨p, hp, _⟩ := hsome
    cases hp
  | cons p metrics ih =>
    rw [List.foldl_cons]
    by_cases hlater : ∃ q ∈ metrics, indexOf q.1 = some i
    · exact ih ((length_put values p).symm ▸ hi) (fun q hq => hall q (List.mem_cons_of_mem _ hq)) hlater
    · have hp : indexOf p.1 = some i := by
        obtain ⟨q, hq, hqi⟩ := hsome
        rcases List.mem_cons.mp hq with rfl | hq
        · exact hqi
        · exact absurd ⟨q, hq, hqi⟩ hlater
      rw [getElem?_foldl_put_ne fun q hq hqi => hlater ⟨q, hq, hqi⟩, put, hp,
        ← hall p List.mem_cons_self hp]
      exact List.getElem?_set_self hi

end

/-! ## Steps and runs -/

/-- `values_` has an entry for every column of the last header. -/
def State.Sized (s : State V) : Prop := s.csv.values.length = s.columns.length

theorem length_resize [Zero V] (values : List V) (n : Nat) : (resize values n).length = n := by
  unfold resize
  rw [List.length_append, List.length_take, List.length_replicate]
  omega

variable (σ : SortBy MetricLabel.key) [Shown V] {s s' : State V} {rows : List (Row V)}

theorem sized_step [Zero V] {e : Event V} (h : step σ s e = some (rows, s')) (hs : s.Sized) :
    s'.Sized := by
  cases e with
  | add | remove | update =>
    cases h
    exact hs
  | initializeSchema columns =>
    simp only [step] at h
    split at h <;> cases h
    rename_i hok
    have hlen := congrArg List.length hok.2
    rw [List.length_map] at hlen
    exact (length_resize _ _).trans hlen.symm
  | formatValues order stamp =>
    simp only [step] at h
    split at h <;> cases h
    exact (length_foldl_put _ _).trans hs

omit σ in
/-- A row printed in a settled state agrees with the header. -/
theorem agrees_row {order : List MetricExporter} (stamp : Stamp)
    (hperm : order.Perm s.registry.metrics) (hs : s.Sized) (hset : s.Settled) :
    (s.row order stamp).Agrees := by
  have hlen : (s.row order stamp).values.length = s.columns.length :=
    (length_foldl_put _ _).trans hs
  have htext : valueColumns (s.row order stamp).text = (s.row order stamp).values.map Shown.text :=
    valueColumns_rowLine _ _ _
  have hheader : valueColumns (s.row order stamp).header =
      (s.columns.map MetricExporter.name).map String.toList := by
    refine valueColumns_headerLine fun name hname => ?_
    obtain ⟨k, hk, rfl⟩ := List.mem_map.mp hname
    exact hset.names k hk
  refine ⟨?_, ?_, ?_⟩
  · intro i hi
    obtain ⟨m, hm, hmi⟩ := List.mem_filterMap.mp hi
    obtain ⟨k, hk, _⟩ := hset.finds m (hperm.mem_iff.mp hm) i hmi
    rw [hlen]
    exact (List.getElem?_eq_some_iff.mp hk).1
  · rw [htext, hheader, List.length_map, List.length_map, List.length_map, hlen]
  · intro i v hv
    -- the metric of column `i` is registered, and nothing but it writes there
    simp only [State.row, List.getElem?_map, Option.map_eq_some_iff] at hv
    obtain ⟨k, hk, hkv⟩ := hv
    split at hkv <;> cases hkv
    rename_i hreg
    obtain ⟨m, hm, -, hmi⟩ := hset.found (k, i) (List.mem_zipIdx_iff_getElem?.mpr hk) hreg
    have hvalue : (s.row order stamp).values[i]? = some (s.value k.reads) := by
      refine getElem?_foldl_put ?_ ?_ ?_
      · rw [hs]
        exact (List.getElem?_eq_some_iff.mp hk).1
      · intro p hp hpi
        obtain ⟨m', hm', rfl⟩ := List.mem_map.mp hp
        obtain ⟨k', hk', howner⟩ := hset.finds m' (hperm.mem_iff.mp hm') i hpi
        obtain rfl : k' = k := Option.some.inj (hk'.symm.trans hk)
        rw [howner hreg]
      · exact ⟨_, List.mem_map_of_mem (hperm.mem_iff.mpr hm), hmi⟩
    rw [htext, List.getElem?_map, hvalue, Option.map_some, Option.map_some,
      hset.digits k (List.mem_of_getElem? hk) hreg]

theorem agrees_step [Zero V] [DecidableEq V] {e : Event V} (h : step σ s e = some (rows, s'))
    (hs : s.Sized) (hset : s.settled e = true) :
    ∀ row ∈ rows, row.Agrees := by
  cases e with
  | formatValues order stamp =>
    simp only [step] at h
    split at h <;> cases h
    rename_i hperm
    intro row hrow
    obtain rfl := List.mem_singleton.mp hrow
    exact agrees_row stamp (List.isPerm_iff.mp hperm) hs (of_decide_eq_true hset)
  | initializeSchema columns =>
    simp only [step] at h
    split at h <;> cases h
    nofun
  | add | remove | update =>
    cases h
    nofun

theorem agrees_runWhere [Zero V] [DecidableEq V] {es : List (Event V)}
    (h : runWhere σ State.settled es s = some (rows, s')) (hs : s.Sized) :
    ∀ row ∈ rows, row.Agrees := by
  induction es generalizing s rows with
  | nil =>
    cases h
    nofun
  | cons e es ih =>
    rw [runWhere] at h
    split at h
    · rename_i hset
      obtain ⟨⟨first, s₁⟩, hstep, hr⟩ := Option.bind_eq_some_iff.mp h
      obtain ⟨⟨later, s₂⟩, hrest, hr⟩ := Option.map_eq_some_iff.mp hr
      cases hr
      intro row hrow
      rcases List.mem_append.mp hrow with hrow | hrow
      · exact agrees_step σ hstep hs hset row hrow
      · exact ih hrest (sized_step σ hstep hs) row hrow
    · cases h

/-- **CSV rows agree with the header.** In every run of registrations, removals, changes of the
    metrics, calls of `initialize` and calls of `format_values`, if at every `format_values` each
    registered metric whose name is in `index_of_` finds there a column of the last header, and no
    other registered metric's, each that has a column finds its own, the names in the header have no
    comma and ten digits say the values, then every row printed has its indices in `values_`, as
    many columns as the header, and in the column of a registered metric the current value of that
    one. -/
theorem csv_rows_agree [Zero V] [DecidableEq V] (es : List (Event V)) (rows : List (Row V))
    (s : State V) (h : runWhere σ State.settled es .initial = some (rows, s)) :
    ∀ row ∈ rows, row.Agrees :=
  agrees_runWhere σ h rfl

def noTime : Stamp := ⟨[], [], by decide⟩

/-- A metric is removed and the header printed again, without it and with another one; then the same
    metric comes back. -/
def resetRun : List (Event Nat) :=
  let a : MetricExporter := ⟨10, 0, "a", []⟩
  let b : MetricExporter := ⟨11, 0, "b_gauge", []⟩
  let c : MetricExporter := ⟨12, 0, "c_queue_depth", []⟩
  [.add .countMetric "a" 10 [], .add .gaugeMetric "b" 11 [], .initializeSchema [a, b],
    .update 10 0 7, .update 11 0 8, .formatValues [b, a] noTime, .remove 11,
    .add .queueBase "c" 12 [], .update 12 0 9, .initializeSchema [a, c], .remove 10,
    .add .countMetric "a" 10 [], .formatValues [a, c] noTime]

theorem csv_rows_agree_resetRun :
    ∃ rows s, runWhere .insertion State.settled resetRun .initial = some (rows, s) ∧
      rows.map Row.values = [[7, 8], [7, 9]] ∧ ∀ row ∈ rows, row.Agrees := by
  have hvalues : (runWhere .insertion State.settled resetRun .initial).map
      (fun r => r.1.map Row.values) = some [[7, 8], [7, 9]] := by
    decide +kernel
  obtain ⟨⟨rows, s⟩, h, hrows⟩ := Option.map_eq_some_iff.mp hvalues
  exact ⟨rows, s, h, hrows, csv_rows_agree .insertion resetRun rows s h⟩

/-- Two counters of one name, with different labels. -/
def sameNameRun : List (Event Nat) :=
  let a : MetricExporter := ⟨10, 0, "a", [⟨"host", "x"⟩]⟩
  let b : MetricExporter := ⟨11, 0, "a", [⟨"host", "y"⟩]⟩
  [.add .countMetric "a" 10 [⟨"host", "x"⟩], .add .countMetric "a" 11 [⟨"host", "y"⟩],
    .initializeSchema [a, b], .update 10 0 5, .update 11 0 7, .formatValues [a, b] noTime]

/-- The header has one column less than the one before, and then the metric comes back whose column
    was the last. -/
def staleRun : List (Event Nat) :=
  let a : MetricExporter := ⟨10, 0, "a", []⟩
  let b : MetricExporter := ⟨11, 0, "b", []⟩
  [.add .countMetric "a" 10 [], .add .countMetric "b" 11 [], .initializeSchema [a, b], .remove 11,
    .initializeSchema [a], .add .countMetric "b" 11 [], .formatValues [a, b] noTime]

/-- The first run prints an old value for the first of the counters, in the column of either; the
    second writes past the end of `values_`. -/
theorem rows_disagree :
    (∃ rows s, run .insertion sameNameRun .initial = some (rows, s) ∧
        rows.map (fun row => valueColumns row.text) = [[['0'], ['7']]] ∧
        ¬∀ row ∈ rows, row.Agrees) ∧
      ∃ rows s, run .insertion staleRun .initial = some (rows, s) ∧
        rows.map Row.written = [[0, 1]] ∧ ¬∀ row ∈ rows, row.Agrees := by
  have hsame : (run .insertion sameNameRun .initial).map (fun r => r.1.map fun row =>
      (valueColumns row.text, row.current)) = some [([['0'], ['7']], [some 5, some 7])] := by
    decide +kernel
  have hstale : (run .insertion staleRun .initial).map (fun r => r.1.map fun row =>
      (row.values, row.written)) = some [([0], [0, 1])] := by
    decide +kernel
  obtain ⟨⟨rows, s⟩, h, hrows⟩ := Option.map_eq_some_iff.mp hsame
  obtain ⟨⟨rows', s'⟩, h', hrows'⟩ := Option.map_eq_some_iff.mp hstale
  refine ⟨⟨rows, s, h, ?_, fun hall => ?_⟩, rows', s', h', ?_, fun hall => ?_⟩
  · simpa using congrArg (List.map Prod.fst) hrows
  · obtain ⟨row, hrow, hview⟩ := List.mem_map.mp (hrows ▸ List.mem_singleton_self _)
    obtain ⟨hcolumns, hcurrent⟩ := Prod.mk.inj hview
    have hagrees := (hall row hrow).2.2 0 5 (by rw [hcurrent]; rfl)
    rw [hcolumns] at hagrees
    exact absurd hagrees (by decide)
  · simpa using congrArg (List.map Prod.snd) hrows'
  · obtain ⟨row, hrow, hview⟩ := List.mem_map.mp (hrows' ▸ List.mem_singleton_self _)
    obtain ⟨hvalues, hwritten⟩ := Prod.mk.inj hview
    have hagrees := (hall row hrow).1 1 (by rw [hwritten]; decide)
    rw [hvalues] at hagrees
    exact absurd hagrees (by decide)

end Batt.Metrics
