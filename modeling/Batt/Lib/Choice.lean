/-
  Programs that make choices, and their exploration by replay.

  A `Prog` picks numbers from ranges and returns a value. `Outcome p ds a` says that `p` can
  return `a` by making the recorded choices `ds`; a pick from a range of one value is not
  recorded.

  An explorer that can only rerun `p` from its start replays a recorded beginning `todo` and
  takes the lowest value of every range from there on. Each range it meets after the replay
  leaves the other values as branches to run later: `pending`. `finish` is where the rerun
  ends. The branches form a tree under `parent`, the branch with its last choice and the
  lowest choices before it removed: a branch is among the `pending` of its parent, once, and
  of no other branch (`count_pending`), and every outcome is where exactly one branch ends
  (`finish_stem`).
-/
import Mathlib.Data.List.DropRight
import Mathlib.Data.List.Nodup
import Mathlib.Data.Set.Finite.Lattice

namespace Choice

/-- A recorded choice: the value taken, counted from the lowest, out of `radix` values. -/
structure Digit where
  radix : Nat
  value : Nat
  deriving DecidableEq, Repr

inductive Prog (α : Type) where
  | ret (a : α)
  | pick (lo hi : Nat) (next : Nat → Prog α)

variable {α : Type} {p : Prog α}

inductive Outcome : Prog α → List Digit → α → Prop where
  | ret (a : α) : Outcome (.ret a) [] a
  | only {lo : Nat} {next : Nat → Prog α} {ds : List Digit} {a : α}
      (h : Outcome (next lo) ds a) : Outcome (.pick lo lo next) ds a
  | pick {lo hi v : Nat} {next : Nat → Prog α} {ds : List Digit} {a : α} (hlt : lo < hi)
      (hv : v < hi - lo + 1) (h : Outcome (next (lo + v)) ds a) :
      Outcome (.pick lo hi next) (⟨hi - lo + 1, v⟩ :: ds) a

/-- The choices `ds` are a beginning of a run of the program. -/
def Follows : Prog α → List Digit → Prop
  | .ret _, ds => ds = []
  | .pick lo hi next, ds =>
    if lo = hi then Follows (next lo) ds
    else match ds with
      | [] => True
      | d :: ds => lo < hi ∧ d.radix = hi - lo + 1 ∧ d.value < d.radix ∧
          Follows (next (lo + d.value)) ds

/-- The branches that a rerun leaves for later: it has made the choices `done`, has still to
    repeat `todo`, and takes the lowest values after that. -/
def pending : Prog α → List Digit → List Digit → List (List Digit)
  | .ret _, _, _ => []
  | .pick lo hi next, todo, done =>
    if lo = hi then pending (next lo) todo done
    else if hi < lo then []
    else match todo with
      | d :: todo => pending (next (lo + d.value)) todo (done ++ [d])
      | [] => (List.range' 1 (hi - lo)).map (fun v => done ++ [⟨hi - lo + 1, v⟩]) ++
          pending (next lo) [] (done ++ [⟨hi - lo + 1, 0⟩])

/-- All choices of the rerun, and what it returns. -/
def finish : Prog α → List Digit → List Digit → Option (List Digit × α)
  | .ret a, _, done => some (done, a)
  | .pick lo hi next, todo, done =>
    if lo = hi then finish (next lo) todo done
    else if hi < lo then none
    else match todo with
      | d :: todo => finish (next (lo + d.value)) todo (done ++ [d])
      | [] => finish (next lo) [] (done ++ [⟨hi - lo + 1, 0⟩])

/-- The branch that ends with the choices `ds`: what is left without the lowest choices at
    the end. -/
def stem (ds : List Digit) : List Digit := ds.rdropWhile (·.value == 0)

def parent (ds : List Digit) : List Digit := stem ds.dropLast

/-- The lowest choices, which a rerun makes after its replay. -/
def Lowest (zs : List Digit) : Prop := ∀ z ∈ zs, z.value = 0

/-- A branch of `p`: choices that can be replayed, the last of them not the lowest. -/
def IsBranch (p : Prog α) (ds : List Digit) : Prop := Follows p ds ∧ stem ds = ds

/-! ## Reruns, one pick at a time -/

section

variable {lo hi : Nat} {next : Nat → Prog α} {todo done : List Digit} {d : Digit}

theorem follows_pick (ds : List Digit) : Follows (.pick lo hi next) ds =
    if lo = hi then Follows (next lo) ds
    else match ds with
      | [] => True
      | d :: ds => lo < hi ∧ d.radix = hi - lo + 1 ∧ d.value < d.radix ∧
          Follows (next (lo + d.value)) ds := by
  rw [Follows.eq_def]

theorem pending_pick : pending (.pick lo hi next) todo done =
    if lo = hi then pending (next lo) todo done
    else if hi < lo then []
    else match todo with
      | d :: todo => pending (next (lo + d.value)) todo (done ++ [d])
      | [] => (List.range' 1 (hi - lo)).map (fun v => done ++ [⟨hi - lo + 1, v⟩]) ++
          pending (next lo) [] (done ++ [⟨hi - lo + 1, 0⟩]) := by
  rw [pending.eq_def]

theorem finish_pick : finish (.pick lo hi next) todo done =
    if lo = hi then finish (next lo) todo done
    else if hi < lo then none
    else match todo with
      | d :: todo => finish (next (lo + d.value)) todo (done ++ [d])
      | [] => finish (next lo) [] (done ++ [⟨hi - lo + 1, 0⟩]) := by
  rw [finish.eq_def]

theorem finish_only : finish (.pick lo lo next) todo done = finish (next lo) todo done :=
  finish_pick.trans (if_pos rfl)

theorem pending_only : pending (.pick lo lo next) todo done = pending (next lo) todo done :=
  pending_pick.trans (if_pos rfl)

theorem finish_replay (hlt : lo < hi) : finish (.pick lo hi next) (d :: todo) done =
    finish (next (lo + d.value)) todo (done ++ [d]) := by
  rw [finish_pick, if_neg (Nat.ne_of_lt hlt), if_neg (Nat.lt_asymm hlt)]

theorem pending_replay (hlt : lo < hi) : pending (.pick lo hi next) (d :: todo) done =
    pending (next (lo + d.value)) todo (done ++ [d]) := by
  rw [pending_pick, if_neg (Nat.ne_of_lt hlt), if_neg (Nat.lt_asymm hlt)]

theorem finish_lowest (hlt : lo < hi) : finish (.pick lo hi next) [] done =
    finish (next lo) [] (done ++ [⟨hi - lo + 1, 0⟩]) := by
  rw [finish_pick, if_neg (Nat.ne_of_lt hlt), if_neg (Nat.lt_asymm hlt)]

theorem pending_lowest (hlt : lo < hi) : pending (.pick lo hi next) [] done =
    (List.range' 1 (hi - lo)).map (fun v => done ++ [⟨hi - lo + 1, v⟩]) ++
      pending (next lo) [] (done ++ [⟨hi - lo + 1, 0⟩]) := by
  rw [pending_pick, if_neg (Nat.ne_of_lt hlt), if_neg (Nat.lt_asymm hlt)]

end

/-! ## Stems -/

theorem stem_append_lowest {zs : List Digit} (hz : Lowest zs) (ds : List Digit) :
    stem (ds ++ zs) = stem ds := by
  induction zs using List.reverseRecOn with
  | nil => rw [List.append_nil]
  | append_singleton zs z ih =>
    have hz0 : z.value = 0 := hz z (by simp)
    have hzs : Lowest zs := fun y hy => hz y (by simp [hy])
    unfold stem at ih ⊢
    rw [← List.append_assoc, List.rdropWhile_concat_pos _ _ _ (by simp [hz0])]
    exact ih hzs

theorem stem_concat {d : Digit} (hd : d.value ≠ 0) (ds : List Digit) :
    stem (ds ++ [d]) = ds ++ [d] := by
  unfold stem
  exact List.rdropWhile_concat_neg _ _ _ (by simp [hd])

@[simp] theorem stem_nil : stem [] = [] := rfl

@[simp] theorem stem_stem (ds : List Digit) : stem (stem ds) = stem ds :=
  List.rdropWhile_idempotent _ _

/-- A sequence is its stem and lowest choices after it. -/
theorem exists_lowest (ds : List Digit) : ∃ zs, Lowest zs ∧ ds = stem ds ++ zs := by
  induction ds using List.reverseRecOn with
  | nil => exact ⟨[], by simp [Lowest], rfl⟩
  | append_singleton ds d ih =>
    by_cases hd : d.value = 0
    · obtain ⟨zs, hz, heq⟩ := ih
      have hlow : Lowest [d] := by simpa [Lowest] using hd
      refine ⟨zs ++ [d], ?_, ?_⟩
      · intro z hmem
        rcases List.mem_append.mp hmem with h | h
        · exact hz z h
        · exact hlow z h
      · rw [stem_append_lowest hlow, ← List.append_assoc, ← heq]
    · exact ⟨[], by simp [Lowest], by rw [stem_concat hd, List.append_nil]⟩

/-- A branch that is not the root ends in a choice that is not the lowest. -/
theorem eq_concat_of_stem {ds : List Digit} (hstem : stem ds = ds) (hne : ds ≠ []) :
    ∃ zs d, Lowest zs ∧ d.value ≠ 0 ∧ ds = parent ds ++ zs ++ [d] := by
  obtain ⟨zs, hz, heq⟩ := exists_lowest ds.dropLast
  have hlast : (ds.getLast hne).value ≠ 0 := by
    have := List.rdropWhile_eq_self_iff.mp hstem hne
    simpa using this
  refine ⟨zs, ds.getLast hne, hz, hlast, ?_⟩
  unfold parent
  rw [← heq, List.dropLast_append_getLast hne]

/-! ## The branches of a rerun -/

theorem parent_concat {zs : List Digit} (hz : Lowest zs) (ds : List Digit) (d : Digit) :
    parent (ds ++ zs ++ [d]) = stem ds := by
  unfold parent
  rw [List.dropLast_concat, stem_append_lowest hz]

theorem length_parent_lt {ds : List Digit} (hne : ds ≠ []) : (parent ds).length < ds.length := by
  have hstem := (List.rdropWhile_prefix (·.value == 0) ds.dropLast).length_le
  have hpos := List.length_pos_of_ne_nil hne
  rw [List.length_dropLast] at hstem
  unfold parent stem
  omega

/-- A branch left for later has the choices made, those to repeat, lowest ones, and one that
    is not the lowest. -/
theorem shape_of_mem_pending {todo done ds : List Digit} (h : ds ∈ pending p todo done) :
    ∃ zs d, Lowest zs ∧ d.value ≠ 0 ∧ ds = done ++ todo ++ zs ++ [d] := by
  induction p generalizing todo done with
  | ret a => simp [pending] at h
  | pick lo hi next ih =>
    rw [pending_pick] at h
    split at h
    · exact ih lo h
    · split at h
      · cases h
      · cases todo with
        | cons d todo =>
          obtain ⟨zs, e, hz, he, heq⟩ := ih _ h
          exact ⟨zs, e, hz, he, by simpa using heq⟩
        | nil =>
          rcases List.mem_append.mp h with h | h
          · obtain ⟨v, hv, rfl⟩ := List.mem_map.mp h
            have hv := List.mem_range'_1.mp hv
            exact ⟨[], ⟨hi - lo + 1, v⟩, by simp [Lowest], by simp; omega, by simp⟩
          · obtain ⟨zs, e, hz, he, heq⟩ := ih _ h
            refine ⟨⟨hi - lo + 1, 0⟩ :: zs, e, ?_, he, by simpa using heq⟩
            intro z hmem
            rcases List.mem_cons.mp hmem with rfl | hmem
            · rfl
            · exact hz z hmem

theorem follows_nil (p : Prog α) : Follows p [] := by
  induction p with
  | ret a => rfl
  | pick lo hi next ih =>
    rw [follows_pick]
    split
    · exact ih lo
    · trivial

theorem follows_of_mem_pending {todo done ds : List Digit} (hf : Follows p todo)
    (h : ds ∈ pending p todo done) :
    ∃ es, ds = done ++ es ∧ Follows p es := by
  induction p generalizing todo done with
  | ret a => simp [pending] at h
  | pick lo hi next ih =>
    rw [pending_pick] at h
    simp only [follows_pick] at hf ⊢
    by_cases heq : lo = hi
    · rw [if_pos heq] at h hf
      simp only [if_pos heq]
      exact ih lo hf h
    · rw [if_neg heq] at h hf
      simp only [if_neg heq]
      split at h
      · cases h
      · rename_i hle
        have hlt : lo < hi := by omega
        cases todo with
        | cons d todo =>
          obtain ⟨_, hr, hv, hf⟩ := hf
          obtain ⟨es, rfl, hes⟩ := ih _ hf h
          exact ⟨d :: es, by simp, hlt, hr, hv, hes⟩
        | nil =>
          rcases List.mem_append.mp h with h | h
          · obtain ⟨v, hv, rfl⟩ := List.mem_map.mp h
            have hv := List.mem_range'_1.mp hv
            refine ⟨[⟨hi - lo + 1, v⟩], rfl, hlt, rfl, by simp only; omega, ?_⟩
            exact follows_nil _
          · obtain ⟨es, rfl, hes⟩ := ih _ (follows_nil _) h
            exact ⟨⟨hi - lo + 1, 0⟩ :: es, by simp, hlt, rfl, by simp, by simpa using hes⟩

theorem nodup_pending (p : Prog α) (todo done : List Digit) : (pending p todo done).Nodup := by
  induction p generalizing todo done with
  | ret a => exact List.nodup_nil
  | pick lo hi next ih =>
    rw [pending_pick]
    split
    · exact ih lo todo done
    · split
      · exact List.nodup_nil
      · cases todo with
        | cons d todo => exact ih _ _ _
        | nil =>
          refine List.nodup_append'.mpr ⟨?_, ih _ _ _, ?_⟩
          · refine List.Nodup.map ?_ List.nodup_range'
            intro v w hvw
            simpa using hvw
          · -- a branch of the second kind has at least two more choices than `done`
            intro ds hl hr
            obtain ⟨v, _, rfl⟩ := List.mem_map.mp hl
            obtain ⟨zs, e, _, _, heq⟩ := shape_of_mem_pending hr
            simp at heq

/-- Every branch below `todo` is left for later by its rerun. -/
theorem mem_pending {todo zs : List Digit} {d : Digit} (hz : Lowest zs) (hd : d.value ≠ 0)
    (hf : Follows p (todo ++ zs ++ [d])) (done : List Digit) :
    done ++ todo ++ zs ++ [d] ∈ pending p todo done := by
  induction p generalizing todo done zs with
  | ret a => simp [Follows] at hf
  | pick lo hi next ih =>
    rw [follows_pick] at hf
    rw [pending_pick]
    by_cases heq : lo = hi
    · rw [if_pos heq] at hf ⊢
      exact ih lo hz hf done
    · rw [if_neg heq] at hf ⊢
      cases todo with
      | cons c todo =>
        obtain ⟨hlt, _, _, hf⟩ := hf
        rw [if_neg (by omega)]
        have := ih _ hz hf (done ++ [c])
        simpa using this
      | nil =>
        cases zs with
        | nil =>
          obtain ⟨hlt, hr, hv, _⟩ := hf
          rw [if_neg (by omega)]
          refine List.mem_append_left _ (List.mem_map.mpr ⟨d.value, ?_, ?_⟩)
          · rw [List.mem_range'_1]
            omega
          · simp [← hr]
        | cons z zs =>
          obtain ⟨hlt, hr, _, hf⟩ := hf
          rw [if_neg (by omega)]
          have hz0 : z.value = 0 := hz z (by simp)
          have hzs : Lowest zs := fun y hy => hz y (by simp [hy])
          have hzeq : z = ⟨hi - lo + 1, 0⟩ := by
            cases z
            simp_all
          rw [hz0] at hf
          have := @ih _ [] zs hzs hf (done ++ [z])
          refine List.mem_append_right _ ?_
          rw [← hzeq]
          simpa using this

/-- The branches left by the rerun of a branch are its children. -/
theorem mem_pending_iff {es : List Digit} (hes : IsBranch p es) {ds : List Digit} :
    ds ∈ pending p es [] ↔ IsBranch p ds ∧ ds ≠ [] ∧ parent ds = es := by
  obtain ⟨hfes, hses⟩ := hes
  constructor
  · intro hmem
    obtain ⟨zs, d, hz, hd, heq⟩ := shape_of_mem_pending hmem
    obtain ⟨fs, hfs, hf⟩ := follows_of_mem_pending hfes hmem
    rw [List.nil_append] at heq hfs
    subst hfs
    subst heq
    refine ⟨⟨hf, stem_concat hd _⟩, by simp, ?_⟩
    rw [parent_concat hz, hses]
  · rintro ⟨⟨hf, hs⟩, hne, hp⟩
    obtain ⟨zs, d, hz, hd, heq⟩ := eq_concat_of_stem hs hne
    rw [hp] at heq
    rw [heq] at hf ⊢
    have := mem_pending hz hd hf []
    rwa [List.nil_append] at this

/-- A branch is left for later by its parent, once, and by no other branch. -/
theorem count_pending {es : List Digit} (hes : IsBranch p es) (ds : List Digit) :
    (pending p es []).count ds =
      if ds ∈ pending p (parent ds) [] ∧ parent ds = es then 1 else 0 := by
  split
  · rename_i h
    obtain ⟨hmem, rfl⟩ := h
    exact List.count_eq_one_of_mem (nodup_pending _ _ _) hmem
  · rename_i h
    refine List.count_eq_zero_of_not_mem fun hmem => h ?_
    obtain ⟨_, _, hp⟩ := (mem_pending_iff hes).mp hmem
    rw [hp]
    exact ⟨hmem, rfl⟩

/-! ## Where a rerun ends -/

theorem follows_append {ds es : List Digit} (h : Follows p (ds ++ es)) :
    Follows p ds := by
  induction p generalizing ds with
  | ret a =>
    unfold Follows at h ⊢
    exact (List.append_eq_nil_iff.mp h).1
  | pick lo hi next ih =>
    rw [follows_pick] at h ⊢
    split
    · rename_i heq
      rw [if_pos heq] at h
      exact ih lo h
    · rename_i heq
      rw [if_neg heq] at h
      cases ds with
      | nil => trivial
      | cons d ds =>
        obtain ⟨hlt, hr, hv, hf⟩ := h
        exact ⟨hlt, hr, hv, ih _ hf⟩

/-- A recorded choice is one of at least two values. -/
theorem Follows.two_le_radix {ds : List Digit} (h : Follows p ds) :
    ∀ d ∈ ds, 2 ≤ d.radix := by
  induction p generalizing ds with
  | ret a =>
    intro d hd
    rw [show ds = [] from h] at hd
    cases hd
  | pick lo hi next ih =>
    rw [follows_pick] at h
    split at h
    · exact ih lo h
    · cases ds with
      | nil => simp
      | cons e ds =>
        obtain ⟨hlt, hr, _, hf⟩ := h
        intro d hd
        rcases List.mem_cons.mp hd with rfl | hd
        · omega
        · exact ih _ hf d hd

/-- A program that picks from finite ranges has finitely many choice sequences. -/
theorem finite_follows (p : Prog α) : {ds | Follows p ds}.Finite := by
  induction p with
  | ret a => exact Set.finite_singleton []
  | pick lo hi next ih =>
    by_cases heq : lo = hi
    · refine (ih lo).subset fun ds hds => ?_
      unfold Follows at hds
      simpa only [Set.mem_ofPred_eq, if_pos heq] using hds
    · have hall : (⋃ v ∈ Finset.range (hi - lo + 1), (List.cons (Digit.mk (hi - lo + 1) v)) ''
          {ds | Follows (next (lo + v)) ds}).Finite :=
        Set.Finite.biUnion (Finset.finite_toSet _) fun v _ => (ih (lo + v)).image _
      refine (hall.insert []).subset fun ds hds => ?_
      unfold Follows at hds
      simp only [Set.mem_ofPred_eq, if_neg heq] at hds
      cases ds with
      | nil => exact Set.mem_insert _ _
      | cons d ds =>
        obtain ⟨_, hr, hv, hf⟩ := hds
        refine Set.mem_insert_of_mem _ (Set.mem_biUnion (x := d.value) ?_ ⟨ds, hf, ?_⟩)
        · simpa [← hr] using hv
        · rw [← hr]

theorem isBranch_nil (p : Prog α) : IsBranch p [] := ⟨follows_nil p, rfl⟩

theorem isBranch_parent {ds : List Digit} (h : IsBranch p ds) (hne : ds ≠ []) :
    IsBranch p (parent ds) := by
  obtain ⟨zs, d, _, _, heq⟩ := eq_concat_of_stem h.2 hne
  have hf := h.1
  rw [heq, List.append_assoc] at hf
  exact ⟨follows_append hf, stem_stem _⟩

theorem Outcome.follows {ds : List Digit} {a : α} (h : Outcome p ds a) :
    Follows p ds := by
  induction h with
  | ret a => rfl
  | only h ih =>
    unfold Follows
    rw [if_pos rfl]
    exact ih
  | pick hlt hv h ih =>
    unfold Follows
    rw [if_neg (by omega)]
    exact ⟨hlt, rfl, hv, ih⟩

/-- A rerun ends in an outcome, by the choices it was given and lowest ones. -/
theorem outcome_of_finish {todo done cs : List Digit} {a : α} (hf : Follows p todo)
    (h : finish p todo done = some (cs, a)) :
    ∃ zs, Lowest zs ∧ cs = done ++ todo ++ zs ∧ Outcome p (todo ++ zs) a := by
  induction p generalizing todo done with
  | ret b =>
    unfold Follows at hf
    unfold finish at h
    cases h
    subst hf
    exact ⟨[], by simp [Lowest], by simp, .ret _⟩
  | pick lo hi next ih =>
    unfold Follows at hf
    unfold finish at h
    by_cases heq : lo = hi
    · rw [if_pos heq] at h hf
      subst heq
      obtain ⟨zs, hz, hcs, ho⟩ := ih lo hf h
      exact ⟨zs, hz, hcs, .only ho⟩
    · rw [if_neg heq] at h hf
      split at h
      · cases h
      · rename_i hle
        cases todo with
        | cons d todo =>
          obtain ⟨hlt, hr, hv, hf⟩ := hf
          obtain ⟨zs, hz, hcs, ho⟩ := ih _ hf h
          refine ⟨zs, hz, by simpa using hcs, ?_⟩
          have hd : d = ⟨hi - lo + 1, d.value⟩ := by
            cases d
            simp_all
          rw [hd, List.cons_append]
          exact .pick hlt (by omega) ho
        | nil =>
          obtain ⟨zs, hz, hcs, ho⟩ := ih _ (follows_nil _) h
          refine ⟨⟨hi - lo + 1, 0⟩ :: zs, ?_, by simpa using hcs, ?_⟩
          · intro z hmem
            rcases List.mem_cons.mp hmem with rfl | hmem
            · rfl
            · exact hz z hmem
          · exact .pick (by omega) (by omega) (by simpa using ho)

theorem finish_of_outcome {ds : List Digit} {a : α} (h : Outcome p ds a) {todo zs : List Digit}
    (hz : Lowest zs) (heq : ds = todo ++ zs) (done : List Digit) :
    finish p todo done = some (done ++ ds, a) := by
  induction h generalizing todo zs done with
  | ret a => simp [finish]
  | only h ih =>
    unfold finish
    rw [if_pos rfl]
    exact ih hz heq done
  | @pick lo hi v next ds a hlt hv h ih =>
    unfold finish
    rw [if_neg (by omega), if_neg (by omega)]
    cases todo with
    | cons d todo =>
      obtain ⟨rfl, rfl⟩ := List.cons.inj heq
      have := ih hz rfl (done ++ [⟨hi - lo + 1, v⟩])
      simpa using this
    | nil =>
      rw [List.nil_append] at heq
      subst heq
      have hv0 : v = 0 := hz ⟨hi - lo + 1, v⟩ (by simp)
      subst hv0
      have hzs : Lowest ds := fun y hy => hz y (by simp [hy])
      have := @ih [] ds hzs rfl (done ++ [⟨hi - lo + 1, 0⟩])
      simpa using this

/-- A rerun makes the lowest choices at the end of its replay on its own. -/
theorem finish_append_lowest {ds zs done : List Digit} (hf : Follows p (ds ++ zs))
    (hz : Lowest zs) :
    finish p (ds ++ zs) done = finish p ds done := by
  induction p generalizing ds zs done with
  | ret a => rfl
  | pick lo hi next ih =>
    rw [follows_pick] at hf
    by_cases heq : lo = hi
    · subst heq
      rw [if_pos rfl] at hf
      rw [finish_only, finish_only]
      exact ih lo hf hz
    · rw [if_neg heq] at hf
      cases ds with
      | cons d ds =>
        obtain ⟨hlt, _, _, hf⟩ := hf
        rw [List.cons_append, finish_replay hlt, finish_replay hlt]
        exact ih _ hf hz
      | nil =>
        cases zs with
        | nil => rfl
        | cons z zs =>
          obtain ⟨hlt, hr, _, hf⟩ := hf
          have hz0 : z.value = 0 := hz z (by simp)
          have hzeq : z = ⟨hi - lo + 1, 0⟩ := by
            cases z
            simp_all
          rw [List.nil_append, finish_replay hlt, finish_lowest hlt, hzeq]
          rw [hz0] at hf
          exact @ih _ [] zs _ hf fun y hy => hz y (by simp [hy])

/-- Every outcome is where the rerun of its stem ends. -/
theorem finish_stem {ds : List Digit} {a : α} (h : Outcome p ds a) :
    IsBranch p (stem ds) ∧ finish p (stem ds) [] = some (ds, a) := by
  obtain ⟨zs, hz, heq⟩ := exists_lowest ds
  refine ⟨⟨?_, stem_stem ds⟩, ?_⟩
  · have hf := h.follows
    rw [heq] at hf
    exact follows_append hf
  · simpa using finish_of_outcome h hz heq []

end Choice
