/-
  Error codes of registered categories as statuses.

  `status_from_error_category` looks for the code in the map of the calling thread, fills it from
  the global map under a mutex, and then calls itself while it still holds the mutex. The second
  call finds the code or locks the mutex again. Along every run the map of a thread is a part of the
  global one and a category keeps the map of its registration (`CachesOk`), so that the outcome is
  decided by whether the code was registered. A category that was registered with an enumeration of
  another one is in no map, and all of its codes are unknown (`answers_iff`).
-/
import Batt.StatusRegistry.Groups

namespace Batt.StatusRegistry

variable {T C Thread : Type} {code : Int} {category : Category C} {m : CategoryMap}
  {codes : List Int} {type : EnumType T} {r : Registry T}

/-- The map that a registration of a category makes. -/
def IsMapOf (r : Registry T) (type : EnumType T) (codes : List Int) (m : CategoryMap) : Prop :=
  (codes.mapM fun code => (forceLookup r type code).map fun status => (code, status)) = some m

theorem isMapOf_cons {c : Int} :
    IsMapOf r type (c :: codes) m ↔
      ∃ status rest, forceLookup r type c = some status ∧ IsMapOf r type codes rest ∧
        m = (c, status) :: rest := by
  simp only [IsMapOf, List.mapM_cons, Option.bind_eq_bind, Option.bind_eq_some_iff,
    Option.map_eq_some_iff, Option.pure_def, Option.some.injEq]
  constructor
  · rintro ⟨-, ⟨status, hstatus, rfl⟩, rest, hrest, rfl⟩
    exact ⟨status, rest, hstatus, hrest, rfl⟩
  · rintro ⟨status, rest, hstatus, hrest, rfl⟩
    exact ⟨_, ⟨status, hstatus, rfl⟩, rest, hrest, rfl⟩

theorem exists_isMapOf (h : ∀ code ∈ codes, ∃ status, forceLookup r type code = some status) :
    ∃ m, IsMapOf r type codes m := by
  induction codes with
  | nil => exact ⟨[], rfl⟩
  | cons c codes ih =>
    obtain ⟨status, hstatus⟩ := h c List.mem_cons_self
    obtain ⟨rest, hrest⟩ := ih fun code hcode => h code (List.mem_cons_of_mem _ hcode)
    exact ⟨_, isMapOf_cons.mpr ⟨status, rest, hstatus, hrest, rfl⟩⟩

theorem IsMapOf.exists_status (h : IsMapOf r type codes m) (hcode : code ∈ codes) :
    ∃ status, forceLookup r type code = some status := by
  induction codes generalizing m with
  | nil => cases hcode
  | cons c codes ih =>
    obtain ⟨status, rest, hstatus, hrest, -⟩ := isMapOf_cons.mp h
    rcases List.mem_cons.mp hcode with rfl | hcode
    · exact ⟨status, hstatus⟩
    · exact ih hrest hcode

theorem IsMapOf.lookup (h : IsMapOf r type codes m) :
    m.lookup code = if code ∈ codes then forceLookup r type code else none := by
  induction codes generalizing m with
  | nil =>
    obtain rfl : m = [] := by simpa [IsMapOf] using h.symm
    simp
  | cons c codes ih =>
    obtain ⟨status, rest, hstatus, hrest, rfl⟩ := isMapOf_cons.mp h
    by_cases hc : code = c
    · simp [hc, hstatus]
    · have hbeq : (code == c) = false := by simpa using hc
      simp [List.lookup_cons, hbeq, ih hrest, hc]

/-- The map of a category stays the one of its registration when groups stay. -/
theorem IsMapOf.mono {r' : Registry T} (h : IsMapOf r type codes m)
    (hgroups : ∀ t group, r.groups t = some group → r'.groups t = some group) :
    IsMapOf r' type codes m := by
  have hlookup : ∀ code status, forceLookup r type code = some status →
      forceLookup r' type code = some status := by
    intro code status hs
    cases hg : r.groups type with
    | none => simp [forceLookup, hg] at hs
    | some group => simpa [forceLookup, hg, hgroups type group hg] using hs
  induction codes generalizing m with
  | nil => exact h
  | cons c codes ih =>
    obtain ⟨status, rest, hstatus, hrest, rfl⟩ := isMapOf_cons.mp h
    exact isMapOf_cons.mpr ⟨status, rest, hlookup c status hstatus, ih hrest, rfl⟩

/-! ## The outcome of a conversion -/

variable [DecidableEq C] {globalCache threadCache : CategoryCache C}

/-- The map of a thread has nothing that is not in the global one. -/
def PartOf (threadCache globalCache : CategoryCache C) : Prop :=
  ∀ category m, threadCache category = some m → globalCache category = some m

theorem emplace_self {cache : CategoryCache C} (h : ∀ m', cache category = some m' → m' = m) :
    emplace cache category m category = some m := by
  cases hc : cache category with
  | none => simp [emplace, hc]
  | some m' => simp [emplace, hc, h m' hc]

theorem PartOf.emplace (h : PartOf threadCache globalCache) (hm : globalCache category = some m) :
    PartOf (emplace threadCache category m) globalCache := by
  intro category' m' hm'
  rw [StatusRegistry.emplace] at hm'
  split_ifs at hm' with hs
  · exact h category' m' hm'
  · by_cases hc : category' = category
    · subst hc
      rw [Function.update_self] at hm'
      exact hm.trans hm'
    · rw [Function.update_of_ne hc] at hm'
      exact h category' m' hm'

/-- With the mutex in hand, a conversion finds the code in the map of its thread or locks again. -/
theorem statusFromErrorCategory_held (globalCache threadCache : CategoryCache C) :
    statusFromErrorCategory globalCache true threadCache category code =
      (match (threadCache category).bind (List.lookup code) with
        | some status => .returned status
        | none => .relock, threadCache) := by
  rw [statusFromErrorCategory]
  cases (threadCache category).bind (List.lookup code) <;> rfl

/-- A registered category: its map decides the outcome, whatever the thread has cached. -/
theorem statusFromErrorCategory_registered (hpart : PartOf threadCache globalCache)
    (hm : globalCache category = some m) :
    (statusFromErrorCategory globalCache false threadCache category code).1 =
      match m.lookup code with
      | some status => .returned status
      | none => .relock := by
  have hself : ∀ m', threadCache category = some m' → m' = m := by
    intro m' hm'
    exact Option.some.inj ((hpart category m' hm').symm.trans hm)
  rw [statusFromErrorCategory]
  cases hfind : (threadCache category).bind (List.lookup code) with
  | some status =>
    obtain ⟨m', hm', hstatus⟩ := Option.bind_eq_some_iff.mp hfind
    rw [hself m' hm'] at hstatus
    simp [hstatus]
  | none => simp [hm, statusFromErrorCategory_held, emplace_self hself]

/-- A category that nobody registered is unknown. -/
theorem statusFromErrorCategory_unregistered (hpart : PartOf threadCache globalCache)
    (hnone : globalCache category = none) :
    statusFromErrorCategory globalCache false threadCache category code =
      (.returned kUnknown, threadCache) := by
  have hthread : threadCache category = none := by
    cases h : threadCache category with
    | none => rfl
    | some m => rw [hpart category m h] at hnone; cases hnone
  rw [statusFromErrorCategory]
  simp [hthread, hnone]

theorem PartOf.convert (hpart : PartOf threadCache globalCache) :
    PartOf (statusFromErrorCategory globalCache false threadCache category code).2 globalCache := by
  rw [statusFromErrorCategory]
  cases (threadCache category).bind (List.lookup code) with
  | some status => exact hpart
  | none =>
    cases hm : globalCache category with
    | none => simpa [hm] using hpart
    | some m => simpa [hm, statusFromErrorCategory_held] using hpart.emplace hm

/-! ## Along a run -/

variable [DecidableEq T] [DecidableEq Thread] {x : Externals C}

/-- A category has the map of its registration, and the threads have parts of the global map. -/
structure CachesOk (events : List (Event T C Thread)) (s : State T C Thread) : Prop where
  global : ∀ category m, s.globalCache category = some m →
    ∃ type codes, Event.registerErrorCategory type category codes ∈ events ∧
      IsMapOf s.registry type codes m
  thread : ∀ thread, PartOf (s.threadCache thread) s.globalCache

theorem PartOf.emplace_global (h : PartOf threadCache globalCache) :
    PartOf threadCache (StatusRegistry.emplace globalCache category m) := by
  intro category' m' hm'
  have hglobal := h category' m' hm'
  rw [StatusRegistry.emplace]
  split_ifs with hs
  · exact hglobal
  · have hne : category' ≠ category := by
      rintro rfl
      simp [hglobal] at hs
    rwa [Function.update_of_ne hne]

theorem CachesOk.step {events : List (Event T C Thread)} {s s' : State T C Thread}
    {e : Event T C Thread} (h : CachesOk events s) (hrep : Represents s.registry (codesOf x events))
    (hs : step x s e = some s') : CachesOk (events ++ [e]) s' := by
  have hkeep : ∀ r', (∀ t group, s.registry.groups t = some group → r'.groups t = some group) →
      ∀ category m, s.globalCache category = some m →
      ∃ type codes, Event.registerErrorCategory type category codes ∈ events ++ [e] ∧
        IsMapOf r' type codes m := by
    intro r' hgroups category m hm
    obtain ⟨type, codes, hmem, hmap⟩ := h.global category m hm
    exact ⟨type, codes, List.mem_append_left _ hmem, hmap.mono hgroups⟩
  rcases step_cases hs with ⟨type, codes, r, rfl, hr, rfl⟩ |
    ⟨type, category, codes, rfl, ⟨-, rfl⟩ | ⟨-, r, m, hr, hm, rfl⟩⟩ |
    ⟨thread, category, code, status, cache, rfl, hcache, rfl⟩
  · exact ⟨hkeep r (groups_of_registerCodes hrep hr), h.thread⟩
  · exact ⟨hkeep _ (fun _ _ hg => hg), h.thread⟩
  · refine ⟨?_, fun thread => (h.thread thread).emplace_global⟩
    intro category' m' hm'
    simp only [emplace] at hm'
    split_ifs at hm' with hsome
    · exact hkeep r (groups_of_registerCodes hrep hr) category' m' hm'
    · by_cases hc : category' = category
      · -- the category that is registered now
        subst hc
        rw [Function.update_self] at hm'
        obtain rfl := Option.some.inj hm'
        exact ⟨type, codes, by simp, hm⟩
      · rw [Function.update_of_ne hc] at hm'
        exact hkeep r (groups_of_registerCodes hrep hr) category' m' hm'
  · refine ⟨hkeep _ (fun _ _ hg => hg), ?_⟩
    intro thread'
    by_cases ht : thread' = thread
    · subst ht
      have hpart : PartOf (statusFromErrorCategory s.globalCache false (s.threadCache thread')
          category code).2 s.globalCache := (h.thread thread').convert
      rw [hcache] at hpart
      simpa using hpart
    · simpa [ht] using h.thread thread'

theorem cachesOk_of_run {events : List (Event T C Thread)} {s : State T C Thread}
    (h : run x events = some s) : CachesOk events s := by
  refine run_induct (P := fun events s => CachesOk events s) ?_ ?_ h
  · intro s hs
    obtain ⟨r, -, rfl⟩ := Option.map_eq_some_iff.mp hs
    exact ⟨by simp, by simp [PartOf]⟩
  · intro events s e s' hrun hok hs
    exact hok.step (represents_of_run hrun).1 hs

/-! ## Which codes are answered -/

/-- What a conversion is to return of a category that was registered with these codes: the status of
    a code that was registered, and `kUnknown` for others. -/
def due (s : State T C Thread) (type : EnumType T) (codes : List Int) (code : Int) : Option Nat :=
  if code ∈ codes then forceLookup s.registry type code else forceLookup s.registry .statusCode 2

def Answers (s : State T C Thread) (thread : Thread) (category : Category C) (type : EnumType T)
    (codes : List Int) (code : Int) : Prop :=
  ∃ status cache, statusFromErrorCategory s.globalCache false (s.threadCache thread) category code =
      (.returned status, cache) ∧ some status = due s type codes code

/-- **In every state a run of calls can reach, on every thread, for each registration of a category:
if the category is not in the global map, the codes that are to be unknown are answered rightly, and
if it is, the codes of the registration that put it there, where they have the same status.** -/
theorem answers_iff {events : List (Event T C Thread)} {s : State T C Thread}
    (h : run x events = some s) (type : EnumType T) (codes : List Int) :
    (s.globalCache category = none → ∀ thread code,
      Answers s thread category type codes code ↔ due s type codes code = some kUnknown) ∧
    ∀ m, s.globalCache category = some m →
      ∃ type' codes', Event.registerErrorCategory type' category codes' ∈ events ∧
        ∀ thread code, Answers s thread category type codes code ↔
          code ∈ codes' ∧ due s type codes code = forceLookup s.registry type' code := by
  have hcaches := cachesOk_of_run h
  constructor
  · intro hnone thread code
    have houtcome : statusFromErrorCategory s.globalCache false (s.threadCache thread) category
        code = (.returned kUnknown, s.threadCache thread) :=
      statusFromErrorCategory_unregistered (hcaches.thread thread) hnone
    constructor
    · rintro ⟨status, cache, hreturn, hdue⟩
      rw [houtcome] at hreturn
      cases hreturn
      exact hdue.symm
    · exact fun hdue => ⟨kUnknown, _, houtcome, hdue.symm⟩
  · intro m hm
    obtain ⟨type', codes', hmem, hmap⟩ := hcaches.global category m hm
    refine ⟨type', codes', hmem, fun thread code => ?_⟩
    have houtcome : (statusFromErrorCategory s.globalCache false (s.threadCache thread) category
        code).1 = _ := statusFromErrorCategory_registered (hcaches.thread thread) hm
    rw [hmap.lookup] at houtcome
    constructor
    · rintro ⟨status, cache, hreturn, hdue⟩
      rw [hreturn] at houtcome
      by_cases hcode : code ∈ codes'
      · obtain ⟨status', hstatus⟩ := hmap.exists_status hcode
        rw [if_pos hcode, hstatus] at houtcome
        cases houtcome
        exact ⟨hcode, hdue.symm.trans hstatus.symm⟩
      · rw [if_neg hcode] at houtcome
        cases houtcome
    · rintro ⟨hcode, hdue⟩
      obtain ⟨status, hstatus⟩ := hmap.exists_status hcode
      rw [if_pos hcode, hstatus] at houtcome
      exact ⟨status, _, Prod.ext houtcome rfl, (hdue.trans hstatus).symm⟩

/-- One registration of a category with codes in the allowed range is accepted. -/
theorem exists_run_registerErrorCategory (x : Externals C) (t : T) (category : Category C)
    {a b : Int} (hne : codes ≠ []) (hcodes : ∀ c ∈ codes, a ≤ c ∧ c ≤ b) (ha : a ≤ 2 ^ 31 - 1)
    (hb : - 2 ^ 31 ≤ b) (hab : b - a ≤ kMaxCodeNumericRange) :
    ∃ (s : State T C Thread) (m : CategoryMap),
      run x [.registerErrorCategory (.other t) category codes] = some s ∧
        s.globalCache category = some m := by
  obtain ⟨r, hr, hindex, honce, -, -, hgroups⟩ := exists_base (T := T) x
  have hbase : registerBase x r = some r := registerBase_again (by simp [honce]) (by simp [honce])
  have hne' : (codes.map fun code => (code, x.message category code)) ≠ [] := by simpa using hne
  have hcodes' : ∀ c ∈ codes.map fun code => (code, x.message category code), a ≤ c.1 ∧ c.1 ≤ b := by
    simpa using hcodes
  obtain ⟨r', hr', -, -, hgroups'⟩ := exists_registered (by simp [honce]) (hgroups t)
    (by rw [hindex]; decide) hne' hcodes' ha hb hab
  obtain ⟨m, hm⟩ : ∃ m, IsMapOf r' (.other t) codes m := by
    refine exists_isMapOf ?_
    intro code hcode
    have hgroup : r'.groups (.other t) =
        some (makeGroup r.nextIndex (codes.map fun code => (code, x.message category code))) := by
      rw [hgroups', Function.update_self]
    exact ⟨_, forceLookup_makeGroup hgroup (inRange_of_mem (by simpa using hcode))⟩
  simp only [IsMapOf] at hm
  simp only [run, start, hr, Option.map_some, Option.bind_some, List.foldlM_cons, step,
    registerErrorCategory, registerCodes, hbase, hr', hm]
  exact ⟨_, m, rfl, by simp [emplace]⟩

theorem answers_iff_two_codes :
    ∃ (s : State Unit Unit Unit) (m : CategoryMap),
      run silent [.registerErrorCategory (.other ()) (.other ()) [0, 1]] = some s ∧
      s.globalCache (.other ()) = some m ∧
      ∃ type codes, Event.registerErrorCategory type (.other ()) codes ∈
          ([.registerErrorCategory (.other ()) (.other ()) [0, 1]] : List (Event Unit Unit Unit)) ∧
        ∀ thread code, Answers s thread (.other ()) (.other ()) [0, 1] code ↔
          code ∈ codes ∧ due s (.other ()) [0, 1] code = forceLookup s.registry type code := by
  have hcodes : ∀ c ∈ [(0 : Int), 1], 0 ≤ c ∧ c ≤ 1 := by decide
  obtain ⟨s, m, hs, hm⟩ : ∃ (s : State Unit Unit Unit) (m : CategoryMap),
      run silent [.registerErrorCategory (.other ()) (.other ()) [0, 1]] = some s ∧
        s.globalCache (.other ()) = some m :=
    exists_run_registerErrorCategory silent () _ (by decide) hcodes (by decide) (by decide)
      (by decide)
  exact ⟨s, m, hs, hm, (answers_iff hs (.other ()) [0, 1]).2 m hm⟩

/-- A code that was not registered takes the conversion to the mutex it holds. -/
theorem unregistered_code_locks_again :
    ∃ (s : State Unit Unit Unit) (m : CategoryMap),
      run silent [.registerErrorCategory (.other ()) (.other ()) [0, 1]] = some s ∧
      s.globalCache (.other ()) = some m ∧
      (statusFromErrorCategory s.globalCache false (s.threadCache ()) (.other ()) 5).1 = .relock ∧
      ¬ ∀ type codes code, Event.registerErrorCategory type (.other ()) codes ∈
          ([.registerErrorCategory (.other ()) (.other ()) [0, 1]] : List (Event Unit Unit Unit)) →
        Answers s () (.other ()) type codes code := by
  have hcodes : ∀ c ∈ [(0 : Int), 1], 0 ≤ c ∧ c ≤ 1 := by decide
  obtain ⟨s, m, hs, hm⟩ : ∃ (s : State Unit Unit Unit) (m : CategoryMap),
      run silent [.registerErrorCategory (.other ()) (.other ()) [0, 1]] = some s ∧
        s.globalCache (.other ()) = some m :=
    exists_run_registerErrorCategory silent () _ (by decide) hcodes (by decide) (by decide)
      (by decide)
  obtain ⟨type, codes, hmem, hmap⟩ := (cachesOk_of_run hs).global _ m hm
  obtain ⟨rfl, rfl⟩ : type = .other () ∧ codes = [0, 1] := by simpa using hmem
  have hrelock : (statusFromErrorCategory s.globalCache false (s.threadCache ()) (.other ()) 5).1 =
      .relock := by
    rw [statusFromErrorCategory_registered ((cachesOk_of_run hs).thread ()) hm, hmap.lookup]
    simp
  refine ⟨s, m, hs, hm, hrelock, ?_⟩
  intro h
  obtain ⟨status, cache, hreturn, -⟩ := h (.other ()) [0, 1] 5 (by simp)
  rw [hreturn] at hrelock
  cases hrelock

end Batt.StatusRegistry
