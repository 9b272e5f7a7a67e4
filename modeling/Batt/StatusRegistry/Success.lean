/-
  Which statuses are OK.

  `Status::ok` looks at the place of a code in its group, and the place is the one in the list the
  codes were registered with: the first code of a list is its success, whatever its value. An error
  code in turn is a success when its value is zero. `ok_by_place` says what follows of the two: the
  statuses of an enumeration are OK by their place, and an error code becomes an OK status exactly
  for the value zero as long as the list of its category has no other value in the first place.
-/
import Batt.StatusRegistry.Categories

namespace Batt.StatusRegistry

variable {T C Thread : Type} {x : Externals C} {codes : Codes} {v : Int}

theorem isOk_iff (index p : Nat) : isOk (index * kGroupSize + p) ↔ kGroupSize ∣ p := by
  rw [isOk, decide_eq_true_eq, getIndexWithinGroup, Nat.add_comm, Nat.add_mul_mod_self_right,
    Nat.dvd_iff_mod_eq_zero]

/-! ## First places -/

theorem place_head {c : Int × String} {rest : Codes} (h : c.1 ∉ rest.map Prod.fst) :
    place (c :: rest) c.1 = 0 := by
  simp [place, lastPlace, lastPlace_eq_none.mpr h]

/-- In a list of different values that fits into a group, with the entry for others, the first value
and no other has the first place. -/
theorem dvd_place_iff_head (hnodup : (codes.map Prod.fst).Nodup) (hlen : codes.length < kGroupSize)
    (hne : codes ≠ []) : kGroupSize ∣ place codes v ↔ (codes.map Prod.fst).head? = some v := by
  obtain ⟨c, rest, rfl⟩ := List.exists_cons_of_ne_nil hne
  have hfirst : place (c :: rest) c.1 = 0 := by
    rw [List.map_cons, List.nodup_cons] at hnodup
    exact place_head hnodup.1
  have hhead : ((c :: rest).map Prod.fst).head? = some v ↔ c.1 = v := by simp
  rw [hhead]
  constructor
  · intro hdvd
    have hmem : v ∈ (c :: rest).map Prod.fst := by
      by_contra hv
      rw [place_of_not_mem hv] at hdvd
      have hzero := Nat.eq_zero_of_dvd_of_lt hdvd hlen
      cases hzero
    have hzero := Nat.eq_zero_of_dvd_of_lt hdvd (lt_trans (place_lt hmem) hlen)
    exact place_inj (by simp) hmem (hfirst.trans hzero.symm)
  · rintro rfl
    rw [hfirst]
    exact Nat.dvd_zero _

/-- No value but zero has the first place of a group. -/
def NoErrorFirst (codes : Codes) : Prop :=
  ∀ v, InRange codes v → kGroupSize ∣ place codes v → v = 0

/-- The place of a value that has a status, in the list of its type. -/
theorem Represents.forceLookup_cases {r : Registry T} {reg : EnumType T → Option Codes}
    (hrep : Represents r reg) {type : EnumType T} {code : Nat} (h : forceLookup r type v = some code) :
    ∃ index codes, reg type = some codes ∧ codes ≠ [] ∧ InRange codes v ∧
      code = index * kGroupSize + place codes v := by
  cases hgroup : r.groups type with
  | none => simp [forceLookup, hgroup] at h
  | some group =>
    obtain ⟨index, codes, hreg, rfl, -, -⟩ := hrep.group_cases hgroup
    have hv := inRange_of_forceLookup hgroup h
    rw [forceLookup_makeGroup hgroup hv] at h
    refine ⟨index, codes, hreg, ?_, hv, (Option.some.inj h).symm⟩
    rintro rfl
    simp [hrep.none_of type (.inr hreg)] at hgroup

/-! ## The statuses of StatusBase -/

theorem place_errnoCodes (hv : 0 ≤ v ∧ v < (kGroupSize : Int)) :
    (place (errnoCodes x) v : Int) = v := by
  obtain ⟨p, hp, hlt⟩ := exists_lastPlace (mem_errnoCodes.mpr hv)
  have hlt' : p < kGroupSize := by simpa [errnoCodes] using hlt
  have hget := getElem?_of_lastPlace hp
  rw [errnoCodes, List.getElem?_map, List.getElem?_range hlt'] at hget
  have hpv : (p : Int) = v := by simpa using hget
  rw [place, hp]
  exact hpv

/-- The statuses that `to_status` names are those of the groups of `StatusBase`. -/
theorem named_statuses [DecidableEq T] [DecidableEq C] [DecidableEq Thread]
    {events : List (Event T C Thread)} {s : State T C Thread} (h : run x events = some s) :
    forceLookup s.registry .statusCode 0 = some kOk ∧
      forceLookup s.registry .statusCode 2 = some kUnknown ∧
      forceLookup s.registry .statusCode 5 = some kNotFound ∧
      forceLookup s.registry .statusCode 103 = some kEndOfStream ∧
      ∀ n : Nat, n < kGroupSize → forceLookup s.registry .errnoValue n = some (statusFromErrno n) := by
  obtain ⟨hstatus, herrno⟩ := base_of_run h
  refine ⟨forceLookup_makeGroup hstatus (inRange_of_mem (by decide)),
    forceLookup_makeGroup hstatus (inRange_of_mem (by decide)),
    forceLookup_makeGroup hstatus (inRange_of_mem (by decide)),
    forceLookup_makeGroup hstatus (inRange_of_mem (by decide)), ?_⟩
  intro n hn
  have hbounds : 0 ≤ (n : Int) ∧ (n : Int) < kGroupSize := by omega
  have hplace : (place (errnoCodes x) n : Int) = n := place_errnoCodes hbounds
  rw [forceLookup_makeGroup herrno (inRange_of_mem (mem_errnoCodes.mpr hbounds)), Nat.one_mul,
    statusFromErrno, Int.ofNat_inj.mp hplace]

theorem knownStatus_not_ok {ec : ErrorCode C} {status : Nat} (h : knownStatus ec = some status) :
    ¬ isOk status := by
  obtain ⟨category, value⟩ := ec
  cases category with
  | misc =>
    simp only [knownStatus] at h
    split_ifs at h
    · exact Option.some.inj h ▸ (by decide)
    · exact Option.some.inj h ▸ (by decide)
  | system =>
    obtain ⟨errno, herrno, rfl⟩ := Option.map_eq_some_iff.mp h
    have hall : ∀ p ∈ systemErrors, ¬ isOk (statusFromErrno p.2) := by decide
    obtain ⟨l₁, l₂, hsplit, -⟩ := List.lookup_eq_some_iff.mp herrno
    exact hall (value, errno) (by rw [hsplit]; simp)
  | other c => cases h

/-! ## Statuses and success -/

variable [DecidableEq T] [DecidableEq C] [DecidableEq Thread]
variable {events : List (Event T C Thread)} {s : State T C Thread}

/-- An error code becomes an OK status. -/
def BecomesOk (s : State T C Thread) (thread : Thread) (ec : ErrorCode C) : Prop :=
  ∃ status cache, toStatus s.globalCache (s.threadCache thread) ec = (.returned status, cache) ∧
    isOk status

/-- What a conversion returns for an error is a status of the list of its category, or is not OK. -/
theorem value_eq_zero_of_becomesOk (h : run x events = some s) {thread : Thread} {ec : ErrorCode C}
    (hfirst : ∀ type codes listed, Event.registerErrorCategory type ec.category codes ∈ events →
      codesOf x events type = some listed → NoErrorFirst listed)
    (hok : BecomesOk s thread ec) : ec.value = 0 := by
  obtain ⟨status, cache, hstatus, hok⟩ := hok
  have hcaches := cachesOk_of_run h
  by_contra hvalue
  rw [toStatus, if_neg hvalue] at hstatus
  cases hknown : knownStatus ec with
  | some status' =>
    rw [hknown] at hstatus
    obtain ⟨rfl, -⟩ : status' = status ∧ _ := by simpa using hstatus
    exact knownStatus_not_ok hknown hok
  | none =>
    rw [hknown] at hstatus
    replace hstatus : statusFromErrorCategory s.globalCache false (s.threadCache thread)
      ec.category ec.value = (.returned status, cache) := hstatus
    have hpart := hcaches.thread thread
    cases hm : s.globalCache ec.category with
    | none =>
      rw [statusFromErrorCategory_unregistered hpart hm] at hstatus
      obtain ⟨rfl, -⟩ : kUnknown = status ∧ _ := by simpa using hstatus
      revert hok
      decide
    | some m =>
      have houtcome : (statusFromErrorCategory s.globalCache false (s.threadCache thread)
          ec.category ec.value).1 = _ := statusFromErrorCategory_registered hpart hm
      obtain ⟨type, codes, hmem, hmap⟩ := hcaches.global _ m hm
      rw [hstatus, hmap.lookup] at houtcome
      split_ifs at houtcome with hcode
      · obtain ⟨status', hstatus'⟩ := hmap.exists_status hcode
        rw [hstatus'] at houtcome
        obtain rfl : status = status' := by simpa using houtcome
        obtain ⟨index, listed, hlisted, -, hrange, rfl⟩ :=
          (represents_of_run h).1.forceLookup_cases hstatus'
        exact hvalue (hfirst type codes listed hmem hlisted ec.value hrange ((isOk_iff _ _).mp hok))

/-- **In every state a run of calls can reach, a status of an enumeration is OK exactly when its value
has the first place of a group in the list of its type (when it is the first of the list, for a list
of different values that fits into a group), and an error code becomes an OK status exactly for the
value zero when the list of its category has no other value in the first place.** -/
theorem ok_by_place (h : run x events = some s) :
    (∀ type value code, forceLookup s.registry type value = some code →
      ∃ codes, codesOf x events type = some codes ∧ (isOk code ↔ kGroupSize ∣ place codes value) ∧
        ((codes.map Prod.fst).Nodup → codes.length < kGroupSize →
          (isOk code ↔ (codes.map Prod.fst).head? = some value))) ∧
    ∀ thread ec, (∀ type codes listed,
        Event.registerErrorCategory type ec.category codes ∈ events →
        codesOf x events type = some listed → NoErrorFirst listed) →
      (BecomesOk s thread ec ↔ ec.value = 0) := by
  constructor
  · intro type value code hcode
    obtain ⟨index, codes, hcodes, hne, -, rfl⟩ := (represents_of_run h).1.forceLookup_cases hcode
    refine ⟨codes, hcodes, isOk_iff _ _, ?_⟩
    intro hnodup hlen
    rw [isOk_iff, dvd_place_iff_head hnodup hlen hne]
  · intro thread ec hfirst
    refine ⟨value_eq_zero_of_becomesOk h hfirst, ?_⟩
    intro hvalue
    exact ⟨kOk, s.threadCache thread, by rw [toStatus, if_pos hvalue], by decide⟩

/-- The codes of HTTP as the tests of `Status` register them, with success in the first place. -/
def httpCodes : Codes :=
  [(200, "HTTP Ok"), (100, "HTTP Continue"), (300, "HTTP Redirect"), (400, "HTTP Client Error"),
    (500, "HTTP Server Error")]

theorem exists_run_httpCodes :
    ∃ s : State Unit Unit Unit, run silent [.registerCodes (.other ()) httpCodes] = some s := by
  have hcodes : ∀ c ∈ httpCodes, 100 ≤ c.1 ∧ c.1 ≤ 500 := by decide
  exact exists_run_registerCodes silent () (by decide) hcodes (by decide) (by decide) (by decide)

theorem named_statuses_http : ∃ s : State Unit Unit Unit,
    run silent [.registerCodes (.other ()) httpCodes] = some s ∧
      forceLookup s.registry .statusCode 103 = some kEndOfStream := by
  obtain ⟨s, hs⟩ := exists_run_httpCodes
  obtain ⟨_, _, _, hend, _⟩ := named_statuses hs
  exact ⟨s, hs, hend⟩

theorem ok_by_place_http :
    (∃ s : State Unit Unit Unit, run silent [.registerCodes (.other ()) httpCodes] = some s ∧
      ∀ type value code, forceLookup s.registry type value = some code →
        ∃ codes, codesOf silent ([.registerCodes (.other ()) httpCodes] : List (Event Unit Unit Unit))
            type = some codes ∧ (isOk code ↔ kGroupSize ∣ place codes value) ∧
          ((codes.map Prod.fst).Nodup → codes.length < kGroupSize →
            (isOk code ↔ (codes.map Prod.fst).head? = some value))) ∧
    ∃ s : State Unit Unit Unit,
      run silent [.registerErrorCategory (.other ()) (.other ()) [0, 1]] = some s ∧
        ∀ thread value, BecomesOk s thread ⟨.other (), value⟩ ↔ value = 0 := by
  constructor
  · obtain ⟨s, hs⟩ := exists_run_httpCodes
    exact ⟨s, hs, (ok_by_place hs).1⟩
  · have hcodes : ∀ c ∈ [(0 : Int), 1], 0 ≤ c ∧ c ≤ 1 := by decide
    obtain ⟨s, m, hs, -⟩ : ∃ (s : State Unit Unit Unit) (m : CategoryMap),
        run silent [.registerErrorCategory (.other ()) (.other ()) [0, 1]] = some s ∧
          s.globalCache (.other ()) = some m :=
      exists_run_registerErrorCategory silent () (.other ()) (by decide) hcodes (by decide)
        (by decide) (by decide)
    refine ⟨s, hs, fun thread value => (ok_by_place hs).2 thread ⟨.other (), value⟩ ?_⟩
    intro type codes listed hmem hlisted v _ hdvd
    obtain ⟨rfl, rfl⟩ : type = .other () ∧ codes = [0, 1] := by simpa using hmem
    obtain rfl : [((0 : Int), _), (1, _)] = listed := Option.some.inj hlisted
    have hhead := (dvd_place_iff_head (by decide) (by decide) (by decide)).mp hdvd
    exact (Option.some.inj hhead).symm

/-- The success of HTTP has the value 200 and is OK. -/
theorem http_ok_is_not_zero :
    ¬ ∀ (events : List (Event Unit Unit Unit)) (s : State Unit Unit Unit), run silent events = some s →
      (∀ type value code, forceLookup s.registry type value = some code → (isOk code ↔ value = 0)) ∧
        ∀ thread ec, BecomesOk s thread ec ↔ ec.value = 0 := by
  intro h
  obtain ⟨s, hs⟩ := exists_run_httpCodes
  obtain ⟨index, hgroup, -, -⟩ :=
    (represents_of_run hs).1.some_of (.other ()) httpCodes rfl (by decide)
  have hplace : place httpCodes 200 = 0 := by decide
  have hcode : forceLookup s.registry (.other ()) 200 = some (index * kGroupSize + 0) := by
    rw [forceLookup_makeGroup hgroup (inRange_of_mem (by decide)), hplace]
  have hok : isOk (index * kGroupSize + 0) := (isOk_iff index 0).mpr (Nat.dvd_zero _)
  exact absurd (((h _ s hs).1 _ _ _ hcode).mp hok) (by decide)

end Batt.StatusRegistry
