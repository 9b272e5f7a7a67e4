/-
  Whether the codes of statuses are unique and lead back to their entries.

  A group has room for `kGroupSize` codes, and one of them may be needed for the values that are not
  registered. `register_codes` checks the numeric range of the values but not how many there are: a
  group with more codes than places, or one that is full and has gaps, gives out codes of the group
  behind it (`uniqueAndInvertible_iff`). The group of `errno` is full and has no gap.
-/
import Batt.StatusRegistry.Groups

namespace Batt.StatusRegistry

variable {T C Thread : Type} {x : Externals C} {r : Registry T} {t : EnumType T} {codes : Codes}
variable {index : Nat} {v : Int} {reg : EnumType T → Option Codes}

/-- A list of codes that has room in a group, with the code of the values in its gaps. -/
def Fits (codes : Codes) : Prop :=
  codes.length < kGroupSize ∨
    codes.length = kGroupSize ∧ ∀ v, InRange codes v → v ∈ codes.map Prod.fst

/-- A value of a type that has been registered, by the entries of its group but the last. -/
def Registered (r : Registry T) (t : EnumType T) (v : Int) : Prop :=
  ∃ group, r.groups t = some group ∧ ∃ e ∈ group.entries.dropLast, e.enumValue = v

/-- The reference is to the entry of a value in the group of its type: one that was registered for
it, or else the last one of the group. -/
def EntryRef.IsFor (ref : EntryRef T) (r : Registry T) (t : EnumType T) (v : Int) : Prop :=
  ref.type = t ∧ ∃ group, r.groups t = some group ∧ group.entries[ref.place]? = some ref.entry ∧
    (Registered r t v → ref.entry.enumValue = v ∧ ref.place + 1 < group.entries.length) ∧
    (¬ Registered r t v → ref.place + 1 = group.entries.length)

structure UniqueAndInvertible (r : Registry T) : Prop where
  unique : ∀ t₁ v₁ t₂ v₂ code, Registered r t₁ v₁ → Registered r t₂ v₂ →
    forceLookup r t₁ v₁ = some code → forceLookup r t₂ v₂ = some code → t₁ = t₂ ∧ v₁ = v₂
  invertible : ∀ t v group, r.groups t = some group → group.minEnumValue ≤ v →
    v < group.minEnumValue + group.enumValueToCode.length →
    ∃ code ref, forceLookup r t v = some code ∧ getEntryFromCode r code = some ref ∧ ref.IsFor r t v

/-! ## Codes and their groups -/

theorem dropLast_entries (index : Nat) (codes : Codes) :
    (makeGroup index codes).entries.dropLast = makeEntries (index * kGroupSize) codes := by
  simp [makeGroup]

theorem registered_iff (h : r.groups t = some (makeGroup index codes)) :
    Registered r t v ↔ v ∈ codes.map Prod.fst := by
  simp only [Registered, h, Option.some.injEq, exists_eq_left', dropLast_entries]
  constructor
  · rintro ⟨e, he, rfl⟩
    obtain ⟨p, hp⟩ := List.mem_iff_getElem?.mp he
    rw [getElem?_makeEntries, Option.map_eq_some_iff] at hp
    obtain ⟨c, hc, rfl⟩ := hp
    exact List.mem_map.mpr ⟨c, List.mem_of_getElem? hc, rfl⟩
  · intro hv
    obtain ⟨c, hc, rfl⟩ := List.mem_map.mp hv
    obtain ⟨p, hp⟩ := List.mem_iff_getElem?.mp hc
    refine ⟨⟨index * kGroupSize + p, c.1, c.2⟩, List.mem_iff_getElem?.mpr ⟨p, ?_⟩, rfl⟩
    rw [getElem?_makeEntries, hp]
    rfl

/-- The place of a value is inside of its group when its list fits. -/
theorem Fits.place_lt (h : Fits codes) (hv : InRange codes v) : place codes v < kGroupSize := by
  by_cases hmem : v ∈ codes.map Prod.fst
  · have hlt := StatusRegistry.place_lt hmem
    rcases h with h | ⟨h, -⟩ <;> omega
  · rw [place_of_not_mem hmem]
    rcases h with h | ⟨-, h⟩
    · exact h
    · exact absurd (h v hv) hmem

/-- A code whose place is inside of its group leads to its entry. -/
theorem getEntryFromCode_of_place (hrep : Represents r reg)
    (hgroup : r.groups t = some (makeGroup index codes)) (hindex : index < r.nextIndex)
    (hall : r.allGroups index = some t) (hplace : place codes v < kGroupSize) :
    ∃ ref, getEntryFromCode r (index * kGroupSize + place codes v) = some ref ∧ ref.IsFor r t v := by
  have hpos : 0 < kGroupSize := by decide
  have hdiv : getIndexOfGroup (index * kGroupSize + place codes v) = index := by
    rw [getIndexOfGroup, Nat.add_comm, Nat.add_mul_div_right _ _ hpos, Nat.div_eq_of_lt hplace,
      Nat.zero_add]
  have hmod : getIndexWithinGroup (index * kGroupSize + place codes v) = place codes v := by
    rw [getIndexWithinGroup, Nat.add_comm, Nat.add_mul_mod_self_right, Nat.mod_eq_of_lt hplace]
  have hcount : ¬ kMaxGroupCount ≤ index := by
    have hbound := hrep.bound
    omega
  have hlen : (makeEntries (index * kGroupSize) codes).length = codes.length :=
    length_makeEntries _ _
  by_cases hmem : v ∈ codes.map Prod.fst
  · obtain ⟨p, hp, hlt⟩ := exists_lastPlace hmem
    have hpp : place codes v = p := by simp [place, hp]
    obtain ⟨c, hc, hcv⟩ := Option.map_eq_some_iff.mp (getElem?_of_lastPlace hp)
    have hentry : (makeGroup index codes).entries[place codes v]? =
        some ⟨index * kGroupSize + p, c.1, c.2⟩ := by
      rw [makeGroup, hpp, List.getElem?_append_left (by omega), getElem?_makeEntries, hc]
      rfl
    refine ⟨⟨t, place codes v, _⟩, ?_, rfl, _, hgroup, hentry, ?_, ?_⟩
    · simp [getEntryFromCode, hdiv, hmod, hcount, hall, hgroup, hentry]
    · intro _
      refine ⟨hcv, ?_⟩
      simp only [makeGroup, List.length_append, List.length_singleton]
      omega
    · intro hnot
      exact absurd ((registered_iff hgroup).mpr hmem) hnot
  · have hlast : place codes v = codes.length := place_of_not_mem hmem
    have hentry : (makeGroup index codes).entries[place codes v]? =
        some ⟨index * kGroupSize + codes.length, maxEnumValue codes + 1, unknownEnumValueMessage⟩ := by
      rw [makeGroup, hlast, List.getElem?_append_right (by omega), hlen]
      simp
    refine ⟨⟨t, place codes v, _⟩, ?_, rfl, _, hgroup, hentry, ?_, ?_⟩
    · simp [getEntryFromCode, hdiv, hmod, hcount, hall, hgroup, hentry]
    · intro hreg
      exact absurd ((registered_iff hgroup).mp hreg) hmem
    · intro _
      simp only [makeGroup, List.length_append, List.length_singleton]
      omega

theorem allGroups_of_getEntryFromCode {code : Nat} {ref : EntryRef T}
    (h : getEntryFromCode r code = some ref) :
    r.allGroups (getIndexOfGroup code) = some ref.type := by
  unfold getEntryFromCode at h
  split_ifs at h
  split at h
  · cases h
  · split at h
    · cases h
    · split at h
      · cases h
      · obtain rfl := Option.some.inj h
        assumption

/-- A code that leads to an entry of its own group has its place inside of the group. -/
theorem place_lt_of_getEntryFromCode (hrep : Represents r reg)
    (hgroup : r.groups t = some (makeGroup index codes)) {ref : EntryRef T}
    (href : getEntryFromCode r (index * kGroupSize + place codes v) = some ref)
    (htype : ref.type = t) : place codes v < kGroupSize := by
  have hpos : 0 < kGroupSize := by decide
  by_contra hge
  -- the code is a number of a later group, and no later group is the one of this type
  have hdiv : index < getIndexOfGroup (index * kGroupSize + place codes v) := by
    rw [getIndexOfGroup, Nat.add_comm, Nat.add_mul_div_right _ _ hpos]
    have hone : 0 < place codes v / kGroupSize := Nat.div_pos (by omega) hpos
    omega
  have hall := allGroups_of_getEntryFromCode href
  rw [htype] at hall
  obtain ⟨codes', hgroup'⟩ := hrep.inverse _ _ hall
  rw [hgroup] at hgroup'
  have hindex := congrArg CodeGroup.index (Option.some.inj hgroup')
  simp only [makeGroup] at hindex
  omega

/-! ## The lists for which codes are unique and lead back -/

theorem fits_of_invertible (hrep : Represents r reg) (h : UniqueAndInvertible r)
    (hreg : reg t = some codes) : Fits codes := by
  by_cases hnil : codes = []
  · subst hnil
    exact .inl (by decide)
  · obtain ⟨index, hgroup, -, -⟩ := hrep.some_of t codes hreg hnil
    have hplace : ∀ v, InRange codes v → place codes v < kGroupSize := by
      intro v hv
      have hsize : v < (makeGroup index codes).minEnumValue +
          (makeGroup index codes).enumValueToCode.length := by
        rw [length_table]
        have hmin := hv.1
        have hmax := hv.2
        simp only [makeGroup]
        omega
      obtain ⟨code, ref, hcode, href, htype, -⟩ := h.invertible t v _ hgroup hv.1 hsize
      rw [forceLookup_makeGroup hgroup hv] at hcode
      obtain rfl := Option.some.inj hcode
      exact place_lt_of_getEntryFromCode hrep hgroup href htype
    -- the last code of the list and a value in a gap have the last places
    obtain ⟨front, last, rfl⟩ : ∃ front last, codes = front ++ [last] :=
      ⟨codes.dropLast, codes.getLast hnil, (List.dropLast_append_getLast hnil).symm⟩
    have hlast := hplace last.1 (inRange_of_mem (by simp))
    rw [place_last] at hlast
    have hlen : (front ++ [last]).length = front.length + 1 := by simp
    by_cases hfull : (front ++ [last]).length < kGroupSize
    · exact .inl hfull
    · refine .inr ⟨by omega, ?_⟩
      intro v hv
      by_contra hgap
      have hlt := hplace v hv
      rw [place_of_not_mem hgap] at hlt
      exact hfull hlt

theorem uniqueAndInvertible_of_fits (hrep : Represents r reg)
    (h : ∀ t codes, reg t = some codes → Fits codes) : UniqueAndInvertible r := by
  constructor
  · intro t₁ v₁ t₂ v₂ code hreg₁ hreg₂ hcode₁ hcode₂
    obtain ⟨group₁, hgroup₁, -⟩ := id hreg₁
    obtain ⟨group₂, hgroup₂, -⟩ := id hreg₂
    obtain ⟨index₁, codes₁, hc₁, rfl, -, hall₁⟩ := hrep.group_cases hgroup₁
    obtain ⟨index₂, codes₂, hc₂, rfl, -, hall₂⟩ := hrep.group_cases hgroup₂
    have hmem₁ := (registered_iff hgroup₁).mp hreg₁
    have hmem₂ := (registered_iff hgroup₂).mp hreg₂
    have hlt₁ := (h t₁ codes₁ hc₁).place_lt (inRange_of_mem hmem₁)
    have hlt₂ := (h t₂ codes₂ hc₂).place_lt (inRange_of_mem hmem₂)
    rw [forceLookup_makeGroup hgroup₁ (inRange_of_mem hmem₁)] at hcode₁
    rw [forceLookup_makeGroup hgroup₂ (inRange_of_mem hmem₂), ← hcode₁] at hcode₂
    -- the code has its group and its place as quotient and remainder
    have heq := Option.some.inj hcode₂
    have hindex : index₁ = index₂ := by
      unfold kGroupSize at *
      omega
    have hplace : place codes₁ v₁ = place codes₂ v₂ := by
      unfold kGroupSize at *
      omega
    subst hindex
    obtain rfl : t₁ = t₂ := Option.some.inj (hall₁.symm.trans hall₂)
    obtain rfl : codes₁ = codes₂ := Option.some.inj (hc₁.symm.trans hc₂)
    exact ⟨rfl, place_inj hmem₁ hmem₂ hplace⟩
  · intro t v group hgroup hmin hmax
    obtain ⟨index, codes, hc, rfl, hindex, hall⟩ := hrep.group_cases hgroup
    have hv : InRange codes v := by
      rw [length_table] at hmax
      simp only [makeGroup] at hmin hmax
      exact ⟨hmin, by omega⟩
    obtain ⟨ref, href, hfor⟩ :=
      getEntryFromCode_of_place hrep hgroup hindex hall ((h t codes hc).place_lt hv)
    exact ⟨_, ref, forceLookup_makeGroup hgroup hv, href, hfor⟩

theorem fits_statusCodes : Fits statusCodes :=
  .inl (by decide)

theorem fits_errnoCodes (x : Externals C) : Fits (errnoCodes x) :=
  .inr ⟨by simp [errnoCodes], fun _ hv => mem_errnoCodes.mpr (inRange_errnoCodes hv)⟩

variable [DecidableEq T] [DecidableEq C] [DecidableEq Thread]

/-- **After every sequence of registrations that passes the checks, codes are unique and lead back to
their entries exactly when every list that was registered fits into its group.** -/
theorem uniqueAndInvertible_iff {events : List (Event T C Thread)} {s : State T C Thread}
    (h : run x events = some s) :
    UniqueAndInvertible s.registry ↔
      ∀ (t : T) codes, codesOf x events (.other t) = some codes → Fits codes := by
  have hrep := (represents_of_run h).1
  constructor
  · intro hu t codes hcodes
    exact fits_of_invertible hrep hu hcodes
  · intro hfits
    refine uniqueAndInvertible_of_fits hrep ?_
    intro t codes hcodes
    cases t with
    | statusCode => exact Option.some.inj hcodes ▸ fits_statusCodes
    | errnoValue => exact Option.some.inj hcodes ▸ fits_errnoCodes x
    | other t => exact hfits t codes hcodes

theorem uniqueAndInvertible_iff_two_codes :
    ∃ s : State Unit Unit Unit, run silent [.registerCodes (.other ()) [(0, "ok"), (7, "bad")]] = some s ∧
      (UniqueAndInvertible s.registry ↔ ∀ (t : Unit) codes,
        codesOf silent ([.registerCodes (.other ()) [(0, "ok"), (7, "bad")]] : List (Event Unit Unit Unit))
          (.other t) = some codes → Fits codes) := by
  have hcodes : ∀ c ∈ [((0 : Int), "ok"), (7, "bad")], 0 ≤ c.1 ∧ c.1 ≤ 7 := by decide
  obtain ⟨s, hs⟩ : ∃ s : State Unit Unit Unit,
      run silent [.registerCodes (.other ()) [(0, "ok"), (7, "bad")]] = some s :=
    exists_run_registerCodes silent () (by decide) hcodes (by decide) (by decide) (by decide)
  exact ⟨s, hs, uniqueAndInvertible_iff hs⟩

/-- A list of one code more than a group has room for. -/
def tooMany : Codes :=
  (List.range (kGroupSize + 1)).map fun (n : Nat) => ((n : Int), "")

theorem too_many_codes_accepted :
    ¬ ∀ (events : List (Event Unit Unit Unit)) (s : State Unit Unit Unit),
      run silent events = some s → UniqueAndInvertible s.registry := by
  intro h
  have hcodes : ∀ c ∈ tooMany, 0 ≤ c.1 ∧ c.1 ≤ (kGroupSize : Int) := by
    intro c hc
    obtain ⟨n, hn, rfl⟩ := List.mem_map.mp hc
    have hlt := List.mem_range.mp hn
    constructor <;> simp only <;> omega
  have hlen : tooMany.length = kGroupSize + 1 := by simp [tooMany]
  have hne : tooMany ≠ [] := by
    intro hnil
    rw [hnil] at hlen
    cases hlen
  obtain ⟨s, hs⟩ : ∃ s : State Unit Unit Unit,
      run silent [.registerCodes (.other ()) tooMany] = some s :=
    exists_run_registerCodes silent () hne hcodes (by decide) (by decide) (by decide)
  have hfits : Fits tooMany :=
    fits_of_invertible (represents_of_run hs).1 (h _ s hs) (t := .other ()) rfl
  rcases hfits with hlt | ⟨heq, -⟩ <;> omega

end Batt.StatusRegistry
