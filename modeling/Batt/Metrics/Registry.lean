/-
  `batt::MetricRegistry` (`metrics/metric_registry.hpp`, `metric_registry_impl.hpp`): the
  exporters of the metrics, by the address of the object they read.

  `add` is overloaded for eight kinds of metric. Each overload hands one exporter or several to
  `add_exporter`, in a fixed order and under the name given with a suffix of its own, and all of
  them get the same rvalue reference to the labels. A label set that has been moved from is empty,
  as the standard says of `std::vector`; so `normalizeLabels` and what calls it return what is left
  of the labels along with their result.

  `std::sort` may order labels of one key either way. It is a parameter here, any function that
  sorts (`SortBy`). An exporter reads one of the values of the object it was made for; which one is
  its `part`. The multimap is a list; `read_all` may visit it in any order.

  The first `add_exporter` takes the labels and leaves an empty set for the others
  (`labels_addExporters`), so these carry what was given only where nothing was.
-/
import Mathlib.Data.List.Destutter
import Mathlib.Data.List.Sort
import Mathlib.Data.String.Basic

namespace Batt.Metrics

/-! ## Labels -/

/-- A function that sorts by a key, in whatever order it puts elements of one key. -/
structure SortBy {α : Type} (key : α → String) where
  sort : List α → List α
  perm : ∀ l, (sort l).Perm l
  sorted : ∀ l, (sort l).Pairwise fun a b => key a ≤ key b

structure MetricLabel where
  key : String
  value : String
deriving DecidableEq, Repr

/-- The sort of the labels that leaves those of one key in the order they have. -/
def SortBy.insertion : SortBy MetricLabel.key where
  sort l := l.insertionSort fun a b => a.key ≤ b.key
  perm l := l.perm_insertionSort _
  sorted l := by
    have : Std.Total fun a b : MetricLabel => a.key ≤ b.key := ⟨fun a b => le_total a.key b.key⟩
    have : IsTrans MetricLabel fun a b => a.key ≤ b.key := ⟨fun _ _ _ => le_trans⟩
    exact List.pairwise_insertionSort _ l

variable (σ : SortBy MetricLabel.key)

/-- `normalize_labels`, and what is left of its argument. -/
def normalizeLabels (labels : List MetricLabel) : List MetricLabel × List MetricLabel :=
  ((σ.sort labels).destutter fun left right => left.key ≠ right.key, [])

/-! ## The registry -/

structure MetricExporter where
  obj : Nat
  part : Nat
  name : String
  labels : List MetricLabel
deriving DecidableEq, Repr

/-- What `get_value` reads. -/
def MetricExporter.reads (m : MetricExporter) : Nat × Nat := (m.obj, m.part)

/-- `set_labels`. -/
def MetricExporter.setLabels (exporter : MetricExporter) (labels : List MetricLabel) :
    MetricExporter × List MetricLabel :=
  ({ exporter with labels := (normalizeLabels σ labels).1 }, (normalizeLabels σ labels).2)

structure MetricRegistry where
  metrics : List MetricExporter
deriving DecidableEq, Repr

def MetricRegistry.empty : MetricRegistry := { metrics := [] }

/-- `add_exporter`, with the exporter of `obj` that its caller makes for it. -/
def MetricRegistry.addExporter (r : MetricRegistry) (obj part : Nat) (name : String)
    (labels : List MetricLabel) : MetricRegistry × List MetricLabel :=
  let set := MetricExporter.setLabels σ
    { obj := obj, part := part, name := name, labels := [] } labels
  ({ metrics := r.metrics ++ [set.1] }, set.2)

/-- The calls of `add_exporter` that one `add` makes. -/
def MetricRegistry.addExporters (r : MetricRegistry) (obj part : Nat) (name : String) :
    List String → List MetricLabel → MetricRegistry
  | [], _ => r
  | suffix :: suffixes, labels =>
    (r.addExporter σ obj part (name ++ suffix) labels).1.addExporters obj (part + 1) name suffixes
      (r.addExporter σ obj part (name ++ suffix) labels).2

/-- What `add` is overloaded for. -/
inductive MetricKind where
  | countMetric
  | latencyMetric
  | gaugeMetric
  | statsMetric
  | watch
  | queueBase
  | derivedMetric
  | variable
deriving DecidableEq, Repr

/-- The names of the exporters of a metric, behind its own. -/
def MetricKind.suffixes : MetricKind → List String
  | .countMetric => [""]
  | .latencyMetric => ["_total_usec", "_count"]
  | .gaugeMetric => ["_gauge"]
  | .statsMetric => ["_count", "_total", "_max", "_min"]
  | .watch => [""]
  | .queueBase => ["_queue_depth"]
  | .derivedMetric => [""]
  | .variable => [""]

def MetricRegistry.add (r : MetricRegistry) (kind : MetricKind) (name : String) (obj : Nat)
    (labels : List MetricLabel) : MetricRegistry :=
  r.addExporters σ obj 0 name kind.suffixes labels

def MetricRegistry.remove (r : MetricRegistry) (obj : Nat) : MetricRegistry :=
  { r with metrics := r.metrics.filter fun m => m.obj ≠ obj }

/-! ## normalize_labels -/

/-- In sorted labels whose neighbours differ in key there is one entry for a key. -/
theorem pairwise_lt_of_isChain_ne {l : List MetricLabel}
    (hsorted : l.Pairwise fun a b => a.key ≤ b.key) (hchain : l.IsChain fun a b => a.key ≠ b.key) :
    l.Pairwise fun a b => a.key < b.key := by
  induction l with
  | nil => exact .nil
  | cons a l ih =>
    obtain ⟨hle, hrest⟩ := List.pairwise_cons.mp hsorted
    have hlt := ih hrest hchain.tail
    refine List.pairwise_cons.mpr ⟨fun b hb => ?_, hlt⟩
    cases l with
    | nil => cases hb
    | cons c l =>
      have hac : a.key < c.key :=
        lt_of_le_of_ne (hle c List.mem_cons_self) (List.isChain_cons_cons.mp hchain).1
      rcases List.mem_cons.mp hb with rfl | hb
      · exact hac
      · exact lt_trans hac ((List.pairwise_cons.mp hlt).1 b hb)

/-- `std::unique` keeps an entry for every key. -/
theorem exists_key_destutter (a b : MetricLabel) (l : List MetricLabel) (hb : b ∈ a :: l) :
    ∃ c ∈ l.destutter' (fun left right => left.key ≠ right.key) a, c.key = b.key := by
  induction l generalizing a b with
  | nil =>
    obtain rfl := List.mem_singleton.mp hb
    exact ⟨b, List.mem_destutter' _ _ _, rfl⟩
  | cons d l ih =>
    rw [List.destutter'_cons]
    split
    · rcases List.mem_cons.mp hb with rfl | hb
      · exact ⟨b, List.mem_cons_self, rfl⟩
      · obtain ⟨c, hc, hkey⟩ := ih d b hb
        exact ⟨c, List.mem_cons_of_mem _ hc, hkey⟩
    · rename_i hsame
      rcases List.mem_cons.mp hb with rfl | hb
      · exact ih b b List.mem_cons_self
      · rcases List.mem_cons.mp hb with rfl | hb
        · obtain ⟨c, hc, hkey⟩ := ih a a List.mem_cons_self
          exact ⟨c, hc, hkey.trans (not_not.mp hsame)⟩
        · exact ih a b (List.mem_cons_of_mem _ hb)

/-- The normal form: some of the labels given, sorted by key, with one entry for each key. -/
theorem normalizeLabels_spec (labels : List MetricLabel) :
    (normalizeLabels σ labels).1.Pairwise (fun a b => a.key < b.key) ∧
      (normalizeLabels σ labels).1 ⊆ labels ∧
      ∀ b ∈ labels, ∃ c ∈ (normalizeLabels σ labels).1, c.key = b.key := by
  have hsub := List.destutter_sublist (fun left right : MetricLabel => left.key ≠ right.key)
    (σ.sort labels)
  refine ⟨?_, ?_, ?_⟩
  · exact pairwise_lt_of_isChain_ne ((σ.sorted labels).sublist hsub) (List.isChain_destutter _ _)
  · exact fun c hc => (σ.perm labels).mem_iff.mp (hsub.subset hc)
  · intro b hb
    have hb := (σ.perm labels).mem_iff.mpr hb
    unfold normalizeLabels
    cases hs : σ.sort labels with
    | nil =>
      rw [hs] at hb
      cases hb
    | cons a l => exact exists_key_destutter a b l (hs ▸ hb)

theorem normalizeLabels_nil : (normalizeLabels σ []).1 = [] :=
  List.subset_nil.mp (normalizeLabels_spec σ []).2.1

theorem normalizeLabels_eq_nil {labels : List MetricLabel} (h : (normalizeLabels σ labels).1 = []) :
    labels = [] := by
  refine List.eq_nil_iff_forall_not_mem.mpr fun b hb => ?_
  obtain ⟨c, hc, _⟩ := (normalizeLabels_spec σ labels).2.2 b hb
  rw [h] at hc
  cases hc

/-! ## The exporters of a metric -/

/-- The exporters that an `add` makes: those behind the ones there were. -/
def MetricRegistry.added (r r' : MetricRegistry) : List MetricExporter :=
  r'.metrics.drop r.metrics.length

/-- The first exporter takes the labels, and the others carry none. -/
theorem labels_addExporters (r : MetricRegistry) (obj part : Nat) (name : String)
    (suffixes : List String) (labels : List MetricLabel) :
    ∃ made, (r.addExporters σ obj part name suffixes labels).metrics = r.metrics ++ made ∧
      made.map MetricExporter.name = suffixes.map (name ++ ·) ∧
      made.map MetricExporter.labels =
        (suffixes.head?.map fun _ => (normalizeLabels σ labels).1).toList ++
          suffixes.tail.map fun _ => [] := by
  induction suffixes generalizing r part labels with
  | nil => exact ⟨[], by simp [MetricRegistry.addExporters], rfl, rfl⟩
  | cons suffix suffixes ih =>
    obtain ⟨made, hmetrics, hnames, hlabels⟩ :=
      ih (r.addExporter σ obj part (name ++ suffix) labels).1 (part + 1) []
    refine ⟨⟨obj, part, name ++ suffix, (normalizeLabels σ labels).1⟩ :: made, ?_, ?_, ?_⟩
    · rw [MetricRegistry.addExporters]
      simpa [MetricRegistry.addExporter, MetricExporter.setLabels, normalizeLabels] using hmetrics
    · rw [List.map_cons, hnames, List.map_cons]
    · rw [List.map_cons, hlabels, normalizeLabels_nil]
      cases suffixes <;> rfl

theorem added_add (r : MetricRegistry) (kind : MetricKind) (name : String) (obj : Nat)
    (labels : List MetricLabel) :
    (r.added (r.add σ kind name obj labels)).map MetricExporter.name =
        kind.suffixes.map (name ++ ·) ∧
      (r.added (r.add σ kind name obj labels)).map MetricExporter.labels =
        (normalizeLabels σ labels).1 :: kind.suffixes.tail.map fun _ => [] := by
  obtain ⟨made, hmetrics, hnames, hlabels⟩ :=
    labels_addExporters σ r obj 0 name kind.suffixes labels
  have hadded : r.added (r.add σ kind name obj labels) = made := by
    rw [MetricRegistry.added, MetricRegistry.add, hmetrics, List.drop_left]
  rw [hadded]
  exact ⟨hnames, by cases kind <;> exact hlabels⟩

/-- The labels of a metric with several exporters are on all of them only if there are none. -/
theorem forall_added_labels_iff (r : MetricRegistry) {kind : MetricKind} (name : String) (obj : Nat)
    (labels : List MetricLabel) (hkind : kind.suffixes.tail ≠ []) :
    (∀ m ∈ r.added (r.add σ kind name obj labels), m.labels = (normalizeLabels σ labels).1) ↔
      labels = [] := by
  obtain ⟨_, hlabels⟩ := added_add σ r kind name obj labels
  constructor
  · intro hall
    have hall' : ∀ ls ∈ (r.added (r.add σ kind name obj labels)).map MetricExporter.labels,
        ls = (normalizeLabels σ labels).1 := by
      intro ls hls
      obtain ⟨m, hm, rfl⟩ := List.mem_map.mp hls
      exact hall m hm
    rw [hlabels] at hall'
    obtain ⟨suffix, hsuffix⟩ := List.exists_mem_of_ne_nil _ hkind
    exact normalizeLabels_eq_nil σ
      (hall' [] (List.mem_cons_of_mem _ (List.mem_map.mpr ⟨suffix, hsuffix, rfl⟩))).symm
  · rintro rfl m hm
    have hmem := List.mem_map_of_mem (f := MetricExporter.labels) hm
    rw [hlabels, normalizeLabels_nil] at hmem
    rw [normalizeLabels_nil]
    rcases List.mem_cons.mp hmem with h | h
    · exact h
    · obtain ⟨_, _, h⟩ := List.mem_map.mp h
      exact h.symm

/-- **The labels of a compound metric.** All the exporters that `add` makes for a `LatencyMetric`
    carry the normal form of the labels it was given if and only if that was the empty set, and so
    do those it makes for a `StatsMetric`. -/
theorem compound_labels_iff (r : MetricRegistry) (name : String) (obj : Nat)
    (labels : List MetricLabel) :
    ((∀ m ∈ r.added (r.add σ .latencyMetric name obj labels),
        m.labels = (normalizeLabels σ labels).1) ↔ labels = []) ∧
      ((∀ m ∈ r.added (r.add σ .statsMetric name obj labels),
        m.labels = (normalizeLabels σ labels).1) ↔ labels = []) :=
  ⟨forall_added_labels_iff σ r name obj labels nofun, forall_added_labels_iff σ r name obj labels nofun⟩

/-- A latency of one label: the exporter of the count has none. -/
theorem second_exporter_loses_labels :
    ¬∀ (σ : SortBy MetricLabel.key) (r : MetricRegistry) (name : String) (obj : Nat)
      (labels : List MetricLabel),
      (∀ m ∈ r.added (r.add σ .latencyMetric name obj labels),
        m.labels = (normalizeLabels σ labels).1) ∧
      ∀ m ∈ r.added (r.add σ .statsMetric name obj labels),
        m.labels = (normalizeLabels σ labels).1 := by
  intro h
  have hlabels := (h .insertion .empty "rpc" 0 [⟨"host", "a"⟩]).1
    ⟨0, 1, "rpc" ++ "_count", []⟩ (by decide)
  exact absurd hlabels (by decide)

end Batt.Metrics
