/-
  What the registry of status codes holds.

  `place codes v` is where a value is in the list of its codes: at its last place, or behind the end
  when it is not in the list. The code of a value is the first code of its group plus this place
  (`forceLookup_makeGroup`). `Represents r reg` says that the registry holds a group for each list of
  codes that has been registered; the first list of a type is the one that counts
  (`represents_of_run`).
-/
import Batt.StatusRegistry.Model
import Mathlib.Algebra.Order.Ring.Int
import Mathlib.Data.List.Induction

namespace Batt.StatusRegistry

variable {T C Thread : Type} {codes : Codes} {r r' : Registry T} {a b v : Int} {type : EnumType T}

/-! ## Places -/

def lastPlace : Codes → Int → Option Nat
  | [], _ => none
  | c :: codes, v =>
    match lastPlace codes v with
    | some p => some (p + 1)
    | none => if c.1 = v then some 0 else none

theorem lastPlace_nil (v : Int) : lastPlace [] v = none := rfl

theorem lastPlace_cons (c : Int × String) (codes : Codes) (v : Int) :
    lastPlace (c :: codes) v =
      match lastPlace codes v with
      | some p => some (p + 1)
      | none => if c.1 = v then some 0 else none := rfl

def place (codes : Codes) (v : Int) : Nat :=
  (lastPlace codes v).getD codes.length

/-- A value has the place of one of its codes. -/
theorem getElem?_of_lastPlace {p : Nat} (h : lastPlace codes v = some p) :
    (codes[p]?).map Prod.fst = some v := by
  induction codes generalizing p with
  | nil => simp [lastPlace_nil] at h
  | cons c codes ih =>
    cases hp : lastPlace codes v with
    | some q =>
      obtain rfl : q + 1 = p := by simpa [lastPlace_cons, hp] using h
      simpa using ih hp
    | none =>
      by_cases hc : c.1 = v
      · obtain rfl : 0 = p := by simpa [lastPlace_cons, hp, hc] using h
        simpa using hc
      · simp [lastPlace_cons, hp, hc] at h

theorem lastPlace_eq_none :
    lastPlace codes v = none ↔ v ∉ codes.map Prod.fst := by
  induction codes with
  | nil => simp [lastPlace_nil]
  | cons c codes ih =>
    cases hp : lastPlace codes v with
    | some q =>
      have hmem : v ∈ codes.map Prod.fst := by
        by_contra hv
        rw [ih.mpr hv] at hp
        cases hp
      simp only [lastPlace_cons, hp, List.map_cons, List.mem_cons]
      simp [hmem]
    | none =>
      have hmem := ih.mp hp
      by_cases hc : c.1 = v
      · simp [lastPlace_cons, hp, hc]
      · simp only [lastPlace_cons, hp, if_neg hc, List.map_cons, List.mem_cons, true_iff, not_or]
        exact ⟨fun h => hc h.symm, hmem⟩

theorem exists_lastPlace (h : v ∈ codes.map Prod.fst) :
    ∃ p, lastPlace codes v = some p ∧ p < codes.length := by
  cases hp : lastPlace codes v with
  | none => exact absurd h (lastPlace_eq_none.mp hp)
  | some p =>
    refine ⟨p, rfl, ?_⟩
    have hget := getElem?_of_lastPlace hp
    by_contra hlt
    rw [List.getElem?_eq_none (by omega)] at hget
    cases hget

theorem place_lt (h : v ∈ codes.map Prod.fst) :
    place codes v < codes.length := by
  obtain ⟨p, hp, hlt⟩ := exists_lastPlace h
  simpa [place, hp] using hlt

theorem place_of_not_mem (h : v ∉ codes.map Prod.fst) :
    place codes v = codes.length := by
  rw [place, lastPlace_eq_none.mpr h]
  rfl

theorem place_inj {w : Int} (hv : v ∈ codes.map Prod.fst) (hw : w ∈ codes.map Prod.fst)
    (h : place codes v = place codes w) : v = w := by
  obtain ⟨p, hp, -⟩ := exists_lastPlace hv
  obtain ⟨q, hq, -⟩ := exists_lastPlace hw
  obtain rfl : p = q := by simpa [place, hp, hq] using h
  have hget := getElem?_of_lastPlace hp
  rw [getElem?_of_lastPlace hq] at hget
  exact (Option.some.inj hget).symm

/-- The last code of a list has the last place. -/
theorem place_last {c : Int × String} :
    place (codes ++ [c]) c.1 = codes.length := by
  have h : lastPlace (codes ++ [c]) c.1 = some codes.length := by
    induction codes with
    | nil => simp [lastPlace_cons, lastPlace_nil]
    | cons a codes ih => simp [lastPlace_cons, ih]
  simp [place, h]

/-! ## The group of a list of codes -/

theorem foldl_min_le (codes : Codes) (a : Int) :
    codes.foldl (fun least c => min least c.1) a ≤ a ∧
      ∀ c ∈ codes, codes.foldl (fun least c => min least c.1) a ≤ c.1 := by
  induction codes generalizing a with
  | nil => simp
  | cons c codes ih =>
    obtain ⟨hstart, hmem⟩ := ih (min a c.1)
    refine ⟨le_trans hstart (min_le_left _ _), ?_⟩
    intro b hb
    rcases List.mem_cons.mp hb with rfl | hb
    · exact le_trans hstart (min_le_right _ _)
    · exact hmem b hb

theorem le_foldl_max (codes : Codes) (a : Int) :
    a ≤ codes.foldl (fun greatest c => max greatest c.1) a ∧
      ∀ c ∈ codes, c.1 ≤ codes.foldl (fun greatest c => max greatest c.1) a := by
  induction codes generalizing a with
  | nil => simp
  | cons c codes ih =>
    obtain ⟨hstart, hmem⟩ := ih (max a c.1)
    refine ⟨le_trans (le_max_left _ _) hstart, ?_⟩
    intro b hb
    rcases List.mem_cons.mp hb with rfl | hb
    · exact le_trans (le_max_right _ _) hstart
    · exact hmem b hb

/-- Bounds of the values of a list are bounds of its numeric range. -/
theorem range_bounds (h : ∀ c ∈ codes, a ≤ c.1 ∧ c.1 ≤ b) (ha : a ≤ 2 ^ 31 - 1) (hb : - 2 ^ 31 ≤ b)
    :
    a ≤ minEnumValue codes ∧ maxEnumValue codes ≤ b := by
  unfold minEnumValue maxEnumValue
  generalize (2 ^ 31 - 1 : Int) = i at *
  generalize (- 2 ^ 31 : Int) = j at *
  induction codes generalizing i j with
  | nil => exact ⟨ha, hb⟩
  | cons c codes ih =>
    have hc := h c List.mem_cons_self
    exact ih (fun c hc => h c (List.mem_cons_of_mem _ hc)) _ (le_min ha hc.1) _ (max_le hb hc.2)

/-- A value lies in the numeric range of a list of codes. -/
def InRange (codes : Codes) (v : Int) : Prop :=
  minEnumValue codes ≤ v ∧ v ≤ maxEnumValue codes

theorem inRange_of_mem (h : v ∈ codes.map Prod.fst) : InRange codes v := by
  obtain ⟨c, hc, rfl⟩ := List.mem_map.mp h
  exact ⟨(foldl_min_le codes _).2 c hc, (le_foldl_max codes _).2 c hc⟩

theorem makeEntries_cons (base : Nat) (c : Int × String) (codes : Codes) :
    makeEntries base (c :: codes) = ⟨base, c.1, c.2⟩ :: makeEntries (base + 1) codes := rfl

theorem length_makeEntries (base : Nat) (codes : Codes) :
    (makeEntries base codes).length = codes.length := by
  induction codes generalizing base with
  | nil => rfl
  | cons c codes ih => simp [makeEntries_cons, ih]

theorem getElem?_makeEntries (base p : Nat) (codes : Codes) :
    (makeEntries base codes)[p]? = (codes[p]?).map fun c => ⟨base + p, c.1, c.2⟩ := by
  induction codes generalizing base p with
  | nil => rfl
  | cons c codes ih =>
    cases p with
    | zero => simp [makeEntries_cons]
    | succ p =>
      simp only [makeEntries_cons, List.getElem?_cons_succ, ih]
      congr 2
      funext c
      rw [Nat.add_right_comm, Nat.add_assoc]

/-- The table after the entries are written: the last entry of a value stays. -/
theorem getElem?_table {least : Int} (hv : least ≤ v) (codes : Codes)
    (hleast : ∀ c ∈ codes, least ≤ c.1) (base : Nat) (table : List Nat)
    (hsize : (v - least).toNat < table.length) :
    ((makeEntries base codes).foldl (fun table e => table.set (e.enumValue - least).toNat e.code)
      table)[(v - least).toNat]? =
      match lastPlace codes v with
      | some p => some (base + p)
      | none => table[(v - least).toNat]? := by
  induction codes generalizing base table with
  | nil => rfl
  | cons c codes ih =>
    have hc : least ≤ c.1 := hleast c List.mem_cons_self
    have hrest : ∀ c ∈ codes, least ≤ c.1 := fun c hc => hleast c (List.mem_cons_of_mem _ hc)
    rw [makeEntries_cons, List.foldl_cons, ih hrest (base + 1) _ (by simpa using hsize),
      lastPlace_cons]
    cases lastPlace codes v with
    | some p =>
      simp only [Option.some.injEq]
      omega
    | none =>
      by_cases hcv : c.1 = v
      · simp [hcv, hsize]
      · have hne : (c.1 - least).toNat ≠ (v - least).toNat := by omega
        simp [hcv, hne]

theorem forceLookup_makeGroup {index : Nat} (h : r.groups type = some (makeGroup index codes))
    (hv : InRange codes v) :
    forceLookup r type v = some (index * kGroupSize + place codes v) := by
  have hsize : (v - minEnumValue codes).toNat <
      (List.replicate (maxEnumValue codes - minEnumValue codes + 1).toNat
        (index * kGroupSize + codes.length)).length := by
    rw [List.length_replicate]
    have hmin := hv.1
    have hmax := hv.2
    omega
  have htable := getElem?_table hv.1 codes (fun c hc => (foldl_min_le codes _).2 c hc)
    (index * kGroupSize) _ hsize
  simp only [forceLookup, h, makeGroup, makeTable, if_neg (not_lt.mpr hv.1), htable]
  cases hp : lastPlace codes v with
  | some p => simp [place, hp]
  | none =>
    rw [List.length_replicate] at hsize
    simp [place, hp, hsize]

theorem length_table (index : Nat) (codes : Codes) :
    (makeGroup index codes).enumValueToCode.length =
      (maxEnumValue codes - minEnumValue codes + 1).toNat := by
  have hlen : ∀ (entries : List CodeEntry) (table : List Nat),
      (entries.foldl (fun table e => table.set (e.enumValue - minEnumValue codes).toNat e.code)
        table).length = table.length := by
    intro entries
    induction entries with
    | nil => simp
    | cons e entries ih => intro table; simp [ih]
  simp [makeGroup, makeTable, hlen]

/-- A value that has a status lies in the numeric range of its group. -/
theorem inRange_of_forceLookup {index code : Nat} (h : r.groups type = some (makeGroup index codes))
    (hv : forceLookup r type v = some code) : InRange codes v := by
  by_cases hmin : v < minEnumValue codes
  · simp [forceLookup, h, makeGroup, hmin] at hv
  · have hget : (makeGroup index codes).enumValueToCode[(v - minEnumValue codes).toNat]? =
        some code := by
      simpa [forceLookup, h, makeGroup, hmin] using hv
    have hlt := (List.getElem?_eq_some_iff.mp hget).1
    rw [length_table] at hlt
    exact ⟨not_lt.mp hmin, by omega⟩

/-! ## The registry and the lists that have been registered -/

structure Represents (r : Registry T) (reg : EnumType T → Option Codes) : Prop where
  once : ∀ t, t ∈ r.exactlyOnce ↔ (reg t).isSome
  none_of : ∀ t, reg t = none ∨ reg t = some [] → r.groups t = none
  some_of : ∀ t codes, reg t = some codes → codes ≠ [] →
    ∃ index, r.groups t = some (makeGroup index codes) ∧ index < r.nextIndex ∧
      r.allGroups index = some t
  inverse : ∀ index t, r.allGroups index = some t → ∃ codes, r.groups t = some (makeGroup index codes)
  bound : r.nextIndex ≤ kMaxGroupCount

/-- A group of the registry is the one of a list that has been registered. -/
theorem Represents.group_cases {reg : EnumType T → Option Codes} (h : Represents r reg)
    {t : EnumType T} {group : CodeGroup} (hgroup : r.groups t = some group) :
    ∃ index codes, reg t = some codes ∧ group = makeGroup index codes ∧ index < r.nextIndex ∧
      r.allGroups index = some t := by
  cases hreg : reg t with
  | none => simp [h.none_of t (.inl hreg)] at hgroup
  | some codes =>
    by_cases hnil : codes = []
    · simp [h.none_of t (.inr (hnil ▸ hreg))] at hgroup
    · obtain ⟨index, hgroup', hlt, hall⟩ := h.some_of t codes hreg hnil
      rw [hgroup'] at hgroup
      exact ⟨index, codes, rfl, (Option.some.inj hgroup).symm, hlt, hall⟩

theorem represents_empty : Represents (Registry.empty : Registry T) (fun _ => none) := by
  refine ⟨by simp [Registry.empty], fun _ _ => rfl, by simp, by simp [Registry.empty], ?_⟩
  simp [Registry.empty]

variable [DecidableEq T]

/-- The first list of a type is the one that counts. -/
def register (reg : EnumType T → Option Codes) (type : EnumType T) (codes : Codes) :
    EnumType T → Option Codes :=
  if (reg type).isSome then reg else Function.update reg type (some codes)

/-- What a registration that is accepted does. -/
theorem registerCodesInternal_cases (h : registerCodesInternal type codes r = some r') :
    type ∈ r.exactlyOnce ∧ r' = r ∨
      type ∉ r.exactlyOnce ∧ r.nextIndex < kMaxGroupCount ∧
        (codes = [] ∧ r' = { r with
            nextIndex := r.nextIndex + 1, exactlyOnce := type :: r.exactlyOnce } ∨
          codes ≠ [] ∧ r.groups type = none ∧ r' =
            { nextIndex := r.nextIndex + 1
              exactlyOnce := type :: r.exactlyOnce
              groups := Function.update r.groups type (some (makeGroup r.nextIndex codes))
              allGroups := Function.update r.allGroups r.nextIndex (some type) }) := by
  unfold registerCodesInternal at h
  split_ifs at h with honce hcount hmax hnil hrange hgroup
  · exact .inl ⟨honce, (Option.some.inj h).symm⟩
  · exact .inr ⟨honce, not_le.mp hcount, .inl ⟨hnil, (Option.some.inj h).symm⟩⟩
  · exact .inr ⟨honce, not_le.mp hcount, .inr ⟨hnil, by simpa using hgroup,
      (Option.some.inj h).symm⟩⟩

/-- A group that is registered stays. -/
theorem groups_of_registerCodesInternal {t : EnumType T} {group : CodeGroup}
    (h : registerCodesInternal type codes r = some r') (ht : r.groups t = some group) :
    r'.groups t = some group := by
  rcases registerCodesInternal_cases h with
    ⟨-, rfl⟩ | ⟨-, -, ⟨-, rfl⟩ | ⟨-, hnone, rfl⟩⟩
  · exact ht
  · exact ht
  · have hne : t ≠ type := by
      rintro rfl
      rw [hnone] at ht
      cases ht
    simpa [hne] using ht

theorem Represents.register {reg : EnumType T → Option Codes} (h : Represents r reg)
    (hr : registerCodesInternal type codes r = some r') :
    Represents r' (register reg type codes) := by
  rcases registerCodesInternal_cases hr with ⟨honce, rfl⟩ | ⟨honce, hcount, hnew⟩
  · rwa [StatusRegistry.register, if_pos ((h.once type).mp honce)]
  · have hnone : reg type = none := by simpa using fun hs => honce ((h.once type).mpr hs)
    rw [StatusRegistry.register, if_neg (by simp [hnone])]
    have hgroup : r.groups type = none := h.none_of type (.inl hnone)
    rcases hnew with ⟨rfl, rfl⟩ | ⟨hne, -, rfl⟩
    · -- without codes only an index is taken
      refine ⟨?_, ?_, ?_, h.inverse, hcount⟩
      · intro t
        by_cases ht : t = type
        · simp [ht]
        · simpa [ht] using h.once t
      · intro t hreg
        by_cases ht : t = type
        · rw [ht]
          exact hgroup
        · exact h.none_of t (by simpa [ht] using hreg)
      · intro t codes hreg hcodes
        by_cases ht : t = type
        · subst ht
          simp only [Function.update_self, Option.some.injEq] at hreg
          exact absurd hreg.symm hcodes
        · obtain ⟨index, hg, hlt, hall⟩ := h.some_of t codes (by simpa [ht] using hreg) hcodes
          exact ⟨index, hg, by simp only; omega, hall⟩
    · refine ⟨?_, ?_, ?_, ?_, hcount⟩
      · intro t
        by_cases ht : t = type
        · simp [ht]
        · simpa [ht] using h.once t
      · intro t hreg
        by_cases ht : t = type
        · subst ht
          simp only [Function.update_self, Option.some.injEq, reduceCtorEq, false_or] at hreg
          exact absurd hreg hne
        · simpa [ht] using h.none_of t (by simpa [ht] using hreg)
      · intro t codes' hreg hcodes
        by_cases ht : t = type
        · subst ht
          obtain rfl : codes = codes' := by simpa using hreg
          exact ⟨r.nextIndex, by simp, Nat.lt_succ_self _, by simp⟩
        · obtain ⟨index, hg, hlt, hall⟩ := h.some_of t codes' (by simpa [ht] using hreg) hcodes
          exact ⟨index, by simpa [ht] using hg, Nat.lt_succ_of_lt hlt,
            by simpa [Nat.ne_of_lt hlt] using hall⟩
      · intro index t hall
        by_cases hi : index = r.nextIndex
        · subst hi
          obtain rfl : type = t := by simpa using hall
          exact ⟨codes, by simp⟩
        · obtain ⟨codes', hg⟩ := h.inverse index t (by simpa [hi] using hall)
          have ht : t ≠ type := by
            rintro rfl
            rw [hgroup] at hg
            cases hg
          exact ⟨codes', by simpa [ht] using hg⟩

/-! ## Registrations that are accepted -/

variable {x : Externals C} {events : List (Event T C Thread)}

/-- The codes of `errno` are the numbers below the size of a group. -/
theorem mem_errnoCodes :
    v ∈ (errnoCodes x).map Prod.fst ↔ 0 ≤ v ∧ v < (kGroupSize : Int) := by
  simp only [errnoCodes, List.map_map, List.mem_map, List.mem_range, Function.comp_apply]
  constructor
  · rintro ⟨n, hn, rfl⟩
    omega
  · rintro ⟨hmin, hmax⟩
    exact ⟨v.toNat, by omega, by omega⟩

theorem inRange_errnoCodes (h : InRange (errnoCodes x) v) :
    0 ≤ v ∧ v < (kGroupSize : Int) := by
  have hbounds : ∀ c ∈ errnoCodes x, 0 ≤ c.1 ∧ c.1 ≤ (kGroupSize : Int) - 1 := by
    intro c hc
    have hmem := mem_errnoCodes.mp (List.mem_map.mpr ⟨c, hc, rfl⟩)
    omega
  obtain ⟨hmin, hmax⟩ := range_bounds hbounds (by decide) (by decide)
  have hv := h
  simp only [InRange] at hv
  omega

theorem exists_registered (honce : type ∉ r.exactlyOnce) (hgroup : r.groups type = none)
    (hindex : r.nextIndex < kMaxGroupCount) (hne : codes ≠ [])
    (hcodes : ∀ c ∈ codes, a ≤ c.1 ∧ c.1 ≤ b) (ha : a ≤ 2 ^ 31 - 1) (hb : - 2 ^ 31 ≤ b)
    (hab : b - a ≤ kMaxCodeNumericRange) :
    ∃ r', registerCodesInternal type codes r = some r' ∧ r'.nextIndex = r.nextIndex + 1 ∧
      r'.exactlyOnce = type :: r.exactlyOnce ∧
      r'.groups = Function.update r.groups type (some (makeGroup r.nextIndex codes)) := by
  obtain ⟨hmin, hmax⟩ := range_bounds hcodes ha hb
  have hmaxGroups : ¬ kMaxGroups ≤ r.nextIndex := by
    have hlt : kMaxGroupCount < kMaxGroups := by decide
    omega
  rw [registerCodesInternal, if_neg honce, if_neg (not_le.mpr hindex), if_neg hmaxGroups]
  simp only [if_neg hne, hgroup]
  rw [if_neg (by omega)]
  exact ⟨_, by simp; rfl, rfl, rfl, rfl⟩

/-- `StatusBase` registers its two groups. -/
theorem exists_base (x : Externals C) :
    ∃ r : Registry T, registerBase x Registry.empty = some r ∧ r.nextIndex = 2 ∧
      r.exactlyOnce = [.errnoValue, .statusCode] ∧
      r.groups .statusCode = some (makeGroup 0 statusCodes) ∧
      r.groups .errnoValue = some (makeGroup 1 (errnoCodes x)) ∧ ∀ t, r.groups (.other t) = none := by
  have hstatus : ∀ c ∈ statusCodes, 0 ≤ c.1 ∧ c.1 ≤ 105 := by decide
  have herrno : ∀ c ∈ errnoCodes x, 0 ≤ c.1 ∧ c.1 ≤ (kGroupSize : Int) - 1 := by
    intro c hc
    have hmem := mem_errnoCodes.mp (List.mem_map.mpr ⟨c, hc, rfl⟩)
    omega
  have hnil : errnoCodes x ≠ [] := by
    intro h
    have hmem : (0 : Int) ∈ (errnoCodes x).map Prod.fst := mem_errnoCodes.mpr (by decide)
    rw [h] at hmem
    cases hmem
  obtain ⟨r₁, hr₁, hindex₁, honce₁, hgroups₁⟩ := exists_registered (r := (Registry.empty : Registry T))
    (List.not_mem_nil) rfl (Nat.zero_lt_succ 255) (by decide) hstatus (by decide) (by decide)
    (by decide)
  have hindex : r₁.nextIndex = 1 := hindex₁
  have honce : r₁.exactlyOnce = [.statusCode] := honce₁
  have hmem : .errnoValue ∉ r₁.exactlyOnce := by simp [honce]
  obtain ⟨r₂, hr₂, hindex₂, honce₂, hgroups₂⟩ := exists_registered hmem (by rw [hgroups₁]; rfl)
    (by rw [hindex]; decide) hnil herrno (by decide) (by decide) (by decide)
  refine ⟨r₂, Option.bind_eq_some_iff.mpr ⟨r₁, hr₁, hr₂⟩, by omega, by rw [honce₂, honce], ?_⟩
  rw [hgroups₂, hgroups₁, hindex]
  exact ⟨rfl, rfl, fun _ => rfl⟩

/-! ## Along a run -/

/-- The type and the list that a call registers. -/
def Event.registers (x : Externals C) : Event T C Thread → Option (EnumType T × Codes)
  | .registerCodes type codes => some (type, codes)
  | .registerErrorCategory type category codes =>
    some (type, codes.map fun code => (code, x.message category code))
  | .convert _ _ _ => none

/-- The codes of a type after some calls: those of `StatusBase`, or of the first call for it. -/
def codesOf (x : Externals C) (events : List (Event T C Thread)) : EnumType T → Option Codes
  | .statusCode => some statusCodes
  | .errnoValue => some (errnoCodes x)
  | .other t => events.findSome? fun e =>
    match e.registers x with
    | some (type, codes) => if type = .other t then some codes else none
    | none => none

theorem codesOf_append (events : List (Event T C Thread)) (e : Event T C Thread) :
    codesOf x (events ++ [e]) =
      match e.registers x with
      | some (type, codes) => register (codesOf x events) type codes
      | none => codesOf x events := by
  funext t
  cases he : e.registers x with
  | none => cases t <;> simp [codesOf, he, List.findSome?_append]
  | some tc =>
    obtain ⟨type, codes⟩ := tc
    cases hs : codesOf x events type with
    | some codes' =>
      simp only [register, hs, Option.isSome_some, if_true]
      cases t with
      | statusCode => rfl
      | errnoValue => rfl
      | other u =>
        by_cases ht : type = .other u
        · subst ht
          rw [codesOf] at hs
          rw [codesOf, List.findSome?_append, hs, codesOf, hs]
          rfl
        · simp [codesOf, he, ht, List.findSome?_append]
    | none =>
      obtain ⟨u, rfl⟩ : ∃ u, type = .other u := by
        cases type with
        | statusCode => cases hs
        | errnoValue => cases hs
        | other u => exact ⟨u, rfl⟩
      simp only [register, hs, Option.isSome_none, Bool.false_eq_true, if_false]
      by_cases ht : t = .other u
      · subst ht
        rw [codesOf] at hs
        rw [codesOf, List.findSome?_append, hs, Function.update_self]
        simp [he]
      · rw [Function.update_of_ne ht]
        cases t with
        | statusCode => rfl
        | errnoValue => rfl
        | other w =>
          have hw : u ≠ w := fun h => ht (by rw [h])
          simp [codesOf, he, hw, List.findSome?_append]

/-- `StatusBase` does nothing when it has been constructed. -/
theorem registerBase_again (hstatus : .statusCode ∈ r.exactlyOnce)
    (herrno : .errnoValue ∈ r.exactlyOnce) : registerBase x r = some r := by
  simp [registerBase, registerCodesInternal, hstatus, herrno]

theorem Represents.registerCodes (h : Represents r (codesOf x events))
    (hr : registerCodes x type codes r = some r') :
    Represents r' (StatusRegistry.register (codesOf x events) type codes) ∧
      registerCodesInternal type codes r = some r' := by
  have hbase : registerBase x r = some r :=
    registerBase_again ((h.once _).mpr rfl) ((h.once _).mpr rfl)
  rw [StatusRegistry.registerCodes, hbase] at hr
  exact ⟨h.register hr, hr⟩

theorem groups_of_registerCodes (hrep : Represents r (codesOf x events))
    (h : registerCodes x type codes r = some r') (t : EnumType T) (group : CodeGroup)
    (ht : r.groups t = some group) : r'.groups t = some group :=
  groups_of_registerCodesInternal (hrep.registerCodes h).2 ht

variable [DecidableEq C] [DecidableEq Thread] {s : State T C Thread}

/-- What holds at the start and is kept by every call that returns holds after every run. -/
theorem run_induct {P : List (Event T C Thread) → State T C Thread → Prop}
    (hstart : ∀ s, start x = some s → P [] s)
    (hstep : ∀ events s e s', run x events = some s → P events s → step x s e = some s' →
      P (events ++ [e]) s') (h : run x events = some s) :
    P events s := by
  induction events using List.reverseRecOn generalizing s with
  | nil =>
    obtain ⟨s₀, hs₀, hrun⟩ := Option.bind_eq_some_iff.mp h
    obtain rfl : s₀ = s := by simpa using hrun
    exact hstart s₀ hs₀
  | append_singleton events e ih =>
    obtain ⟨s₀, hs₀, hrun⟩ := Option.bind_eq_some_iff.mp h
    rw [List.foldlM_append] at hrun
    obtain ⟨s₁, hs₁, hlast⟩ := Option.bind_eq_some_iff.mp hrun
    have hstep' : step x s₁ e = some s := by simpa using hlast
    have hrun₁ : run x events = some s₁ := Option.bind_eq_some_iff.mpr ⟨s₀, hs₀, hs₁⟩
    exact hstep events s₁ e s hrun₁ (ih hrun₁) hstep'

/-- What a call that returns does. -/
theorem step_cases {s' : State T C Thread} {e : Event T C Thread} (h : step x s e = some s') :
    (∃ type codes r, e = .registerCodes type codes ∧ registerCodes x type codes s.registry = some r ∧
      s' = { s with registry := r }) ∨
    (∃ type category codes, e = .registerErrorCategory type category codes ∧
      (type ∈ s.categoryTypes ∧ s' = s ∨
        type ∉ s.categoryTypes ∧ ∃ r m,
          registerCodes x type (codes.map fun code => (code, x.message category code)) s.registry =
            some r ∧
          (codes.mapM fun code => (forceLookup r type code).map fun status => (code, status)) =
            some m ∧
          s' = { s with
            registry := r, categoryTypes := type :: s.categoryTypes
            globalCache := emplace s.globalCache category m })) ∨
    ∃ thread category code status cache, e = .convert thread category code ∧
      statusFromErrorCategory s.globalCache false (s.threadCache thread) category code =
        (.returned status, cache) ∧
      s' = { s with threadCache := Function.update s.threadCache thread cache } := by
  cases e with
  | registerCodes type codes =>
    obtain ⟨r, hr, rfl⟩ := Option.map_eq_some_iff.mp h
    exact .inl ⟨type, codes, r, rfl, hr, rfl⟩
  | registerErrorCategory type category codes =>
    refine .inr (.inl ⟨type, category, codes, rfl, ?_⟩)
    rw [step, registerErrorCategory] at h
    split_ifs at h with htype
    · exact .inl ⟨htype, (Option.some.inj h).symm⟩
    · obtain ⟨r, hr, hmap⟩ := Option.bind_eq_some_iff.mp h
      obtain ⟨m, hm, rfl⟩ := Option.map_eq_some_iff.mp hmap
      exact .inr ⟨htype, r, m, hr, hm, rfl⟩
  | convert thread category code =>
    refine .inr (.inr ⟨thread, category, code, ?_⟩)
    rw [step] at h
    split at h
    · cases h
    · rename_i status cache hlookup
      exact ⟨status, cache, rfl, hlookup, (Option.some.inj h).symm⟩

/-- **The registry holds the groups of the lists that have been registered.** -/
theorem represents_of_run (h : run x events = some s) :
    Represents s.registry (codesOf x events) ∧
      ∀ t ∈ s.categoryTypes, (codesOf x events t).isSome := by
  refine run_induct (P := fun events s => Represents s.registry (codesOf x events) ∧
    ∀ t ∈ s.categoryTypes, (codesOf x events t).isSome) ?_ ?_ h
  · intro s hs
    obtain ⟨r, hr, rfl⟩ := Option.map_eq_some_iff.mp hs
    obtain ⟨r₁, hr₁, hr₂⟩ := Option.bind_eq_some_iff.mp hr
    have hreg : StatusRegistry.register (StatusRegistry.register (fun _ => none) .statusCode
        statusCodes) .errnoValue (errnoCodes x) = codesOf x ([] : List (Event T C Thread)) := by
      funext t
      cases t <;> simp [StatusRegistry.register, codesOf]
    exact ⟨hreg ▸ (represents_empty.register hr₁).register hr₂, by simp⟩
  · rintro events s e s' - ⟨hrep, htypes⟩ hs
    have hgrow : ∀ t type codes, (codesOf x events t).isSome →
        (register (codesOf x events) type codes t).isSome := by
      intro t type codes ht
      rw [register]
      split_ifs with hs
      · exact ht
      · by_cases htt : t = type <;> simp [htt, ht]
    have hself : ∀ type codes, (register (codesOf x events) type codes type).isSome := by
      intro type codes
      rw [register]
      split_ifs with hs
      · exact hs
      · simp
    rw [codesOf_append]
    rcases step_cases hs with ⟨type, codes, r, rfl, hr, rfl⟩ |
      ⟨type, category, codes, rfl, ⟨htype, rfl⟩ | ⟨-, r, m, hr, -, rfl⟩⟩ |
      ⟨thread, category, code, status, cache, rfl, -, rfl⟩
    · exact ⟨(hrep.registerCodes hr).1, fun t ht => hgrow t _ _ (htypes t ht)⟩
    · simp only [Event.registers, register, if_pos (htypes type htype)]
      exact ⟨hrep, htypes⟩
    · refine ⟨(hrep.registerCodes hr).1, ?_⟩
      intro t ht
      rcases List.mem_cons.mp ht with rfl | ht
      · exact hself _ _
      · exact hgrow t _ _ (htypes t ht)
    · exact ⟨hrep, htypes⟩

/-- The groups of `StatusBase` are the first two, in every state that a run can reach. -/
theorem base_of_run (h : run x events = some s) :
    s.registry.groups .statusCode = some (makeGroup 0 statusCodes) ∧
      s.registry.groups .errnoValue = some (makeGroup 1 (errnoCodes x)) := by
  refine run_induct (P := fun _ s => s.registry.groups .statusCode = some (makeGroup 0 statusCodes) ∧
    s.registry.groups .errnoValue = some (makeGroup 1 (errnoCodes x))) ?_ ?_ h
  · intro s hs
    obtain ⟨r, hr, rfl⟩ := Option.map_eq_some_iff.mp hs
    obtain ⟨r', hr', -, -, hstatus, herrno, -⟩ := exists_base (T := T) x
    obtain rfl := Option.some.inj (hr.symm.trans hr')
    exact ⟨hstatus, herrno⟩
  · rintro events s e s' hrun ⟨hstatus, herrno⟩ hs
    have hrep := (represents_of_run hrun).1
    rcases step_cases hs with ⟨type, codes, r, rfl, hr, rfl⟩ |
      ⟨type, category, codes, rfl, ⟨-, rfl⟩ | ⟨-, r, m, hr, -, rfl⟩⟩ |
      ⟨thread, category, code, status, cache, rfl, -, rfl⟩
    · exact ⟨groups_of_registerCodes hrep hr _ _ hstatus, groups_of_registerCodes hrep hr _ _ herrno⟩
    · exact ⟨hstatus, herrno⟩
    · exact ⟨groups_of_registerCodes hrep hr _ _ hstatus, groups_of_registerCodes hrep hr _ _ herrno⟩
    · exact ⟨hstatus, herrno⟩

/-- One registration of a list in the allowed range is accepted. -/
theorem exists_run_registerCodes (x : Externals C) (t : T) (hne : codes ≠ [])
    (hcodes : ∀ c ∈ codes, a ≤ c.1 ∧ c.1 ≤ b) (ha : a ≤ 2 ^ 31 - 1) (hb : - 2 ^ 31 ≤ b)
    (hab : b - a ≤ kMaxCodeNumericRange) :
    ∃ s : State T C Thread, run x [.registerCodes (.other t) codes] = some s := by
  obtain ⟨r, hr, hindex, honce, -, -, hgroups⟩ := exists_base (T := T) x
  obtain ⟨r', hr', -⟩ := exists_registered (by simp [honce]) (hgroups t) (by rw [hindex]; decide) hne
    hcodes ha hb hab
  have hbase : registerBase x r = some r := registerBase_again (by simp [honce]) (by simp [honce])
  simp only [run, start, hr, Option.map_some, Option.bind_some, List.foldlM_cons, step, registerCodes,
    hbase, hr']
  exact ⟨_, rfl⟩

/-- An environment without messages. -/
def silent : Externals Unit :=
  { strerror := fun _ => none, message := fun _ _ => "" }

end Batt.StatusRegistry
