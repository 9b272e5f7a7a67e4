/-
  Conservation of grants: what is available, what the live grants hold and what is in transit
  add up to the initial count plus everything grown, in every interleaving.

  Each step balances (`trans_balance`), provided the grants it touches are alive and a
  destructor ends an empty grant. Both come from the callers' promise: nobody else uses a
  grant that is being moved or destroyed (`Inv.alone`), so what a destructor left at zero is
  still zero when it ends (`trans_grant` says which steps change which grant).
-/
import Mathlib.Algebra.BigOperators.Fin
import Batt.Grant.Steps

namespace Batt.Grant

open Interleave

/-! ## Amounts -/

def liveSize (gr : GrantState) : Nat := if gr.alive then gr.size.toNat else 0

/-- What the pool and the live grants hold. -/
def amount (sh : Shared) : Nat := sh.available.toNat + total liveSize sh.grants

def transit : Local → Nat
  | .idle => 0
  | .running pc => pc.transit

variable {sh sh' : Shared} {pc pc' : Pc} {g : Nat} {gr : GrantState}

theorem get_grant {v : UInt64} (h : sh.get (.grant g) = some v) :
    ∃ gr, sh.grants[g]? = some gr ∧ gr.size = v :=
  Option.map_eq_some_iff.mp h

theorem alive_of_getElem? (h : sh.grants[g]? = some gr) :
    sh.alive g = gr.alive := by
  simp [Shared.alive, h]

theorem hasIssuer_of_getElem? (h : sh.grants[g]? = some gr) : sh.hasIssuer g = gr.issuer := by
  simp [Shared.hasIssuer, h]

/-- A live grant whose entry changes moves the amount by the difference of the sizes. -/
theorem total_live (u : GrantState → GrantState) (hg : sh.grants[g]? = some gr)
    (ha : gr.alive = true) (hu : (u gr).alive = true) :
    total liveSize (sh.grants.modify g u) + gr.size.toNat =
      total liveSize sh.grants + (u gr).size.toNat := by
  have hmod := total_modify liveSize u hg
  have h1 : liveSize gr = gr.size.toNat := if_pos ha
  have h2 : liveSize (u gr) = (u gr).size.toNat := if_pos hu
  rw [h1, h2] at hmod
  exact hmod

theorem amount_construct (sh : Shared) (issuer : Bool) (size : UInt64) :
    amount (sh.construct issuer size) = amount sh + size.toNat := by
  unfold amount Shared.construct
  rw [total_concat]
  simp only [liveSize, if_true]
  omega

/-- Writing to the counter of a live source moves the amount by the difference. -/
theorem amount_set {source : Source} {v w : UInt64} (has : sh.get source = some v)
    (halive : ∀ g ∈ source.grants, sh.alive g = true) :
    amount (sh.set source w) + v.toNat = amount sh + w.toNat := by
  cases source with
  | available =>
    cases has
    simp only [amount, Shared.set]
    omega
  | grant g =>
    obtain ⟨gr, hgr, rfl⟩ := get_grant has
    have ha := halive g (List.mem_singleton.mpr rfl)
    rw [alive_of_getElem? hgr] at ha
    have := total_live (fun gr => { gr with size := w }) hgr ha ha
    simp only [amount, Shared.set, Shared.setSize] at *
    omega

/-! ## One step balances -/

/-- What a call knows about the grants it works on. -/
def PcOk (sh : Shared) (pc : Pc) : Prop :=
  (∀ g, pc.adds = some g → sh.hasIssuer g = true) ∧
    (∀ g gr, pc.emptied = some g → sh.grants[g]? = some gr → gr.size = 0) ∧
    (∀ issuer size, pc = .moveMake issuer size → issuer = false → size = 0)

theorem transit_afterSpendAll (g : Nat) (n : UInt64) (caller : Caller) :
    (afterSpendAll g n caller).transit = 0 := by
  cases caller <;> rfl

theorem exists_of_alive (h : sh.alive g = true) :
    ∃ gr, sh.grants[g]? = some gr ∧ gr.alive = true := by
  cases hg : sh.grants[g]? with
  | none => simp [Shared.alive, hg] at h
  | some gr => exact ⟨gr, rfl, by simpa [Shared.alive, hg] using h⟩

theorem toNat_add_of_lt {a b : UInt64} (h : a.toNat + b.toNat < 2 ^ 64) :
    (a + b).toNat = a.toNat + b.toNat := by
  rw [UInt64.toNat_add]
  exact Nat.mod_eq_of_lt h

/-- A step moves units between the counters and the call and changes their number only by
    what it grows, as long as the counters do not overflow. -/
theorem trans_balance (ht : Trans sh pc sh' pc') (hused : ∀ g ∈ pc.uses, sh.alive g = true)
    (hok : PcOk sh pc) (hfit : amount sh + pc.transit < 2 ^ 64) :
    amount sh' + pc'.transit + sh.grown = amount sh + pc.transit + sh'.grown := by
  cases ht with
  | quiet idle uses plain => rw [idle, plain.2.2.2]
  | take source count wait v has enough =>
    have hset := amount_set (w := v - count) has hused
    have hsub := UInt64.toNat_sub_of_le v count enough
    have hle := UInt64.le_iff_toNat_le.mp enough
    have hgrown : (sh.set source (v - count)).grown = sh.grown := by cases source <;> rfl
    simp only [Pc.transit]
    omega
  | makeGrant count ret =>
    rw [amount_construct]
    simp only [Pc.transit, Shared.construct]
    omega
  | setZero g caller size has =>
    have hset := amount_set (w := 0) has hused
    simp only [Shared.set] at hset
    simp only [Pc.transit, Shared.setSize, UInt64.toNat_zero] at *
    omega
  | recycleGrow count =>
    have hadd : (sh.available + count).toNat = sh.available.toNat + count.toNat :=
      toNat_add_of_lt (by simp only [amount, Pc.transit] at hfit; omega)
    simp only [amount, Pc.transit] at *
    omega
  | recycle count g caller =>
    have hadd : (sh.available + count).toNat = sh.available.toNat + count.toNat :=
      toNat_add_of_lt (by simp only [amount, Pc.transit] at hfit; omega)
    rw [transit_afterSpendAll]
    simp only [amount, Pc.transit] at *
    omega
  | closeSize g caller =>
    obtain ⟨gr, hgr, ha⟩ := exists_of_alive (hused g (List.mem_singleton.mpr rfl))
    have := total_live (fun gr => { gr with closed := true }) hgr ha ha
    have htr : (if caller = .destroy then Pc.endLife g else .finish .unit).transit = 0 := by
      split <;> rfl
    rw [htr]
    simp only [amount, Pc.transit] at *
    omega
  | endLife g =>
    obtain ⟨gr, hgr, ha⟩ := exists_of_alive (hused g (List.mem_singleton.mpr rfl))
    have hzero : gr.size = 0 := hok.2.1 g gr rfl hgr
    have hmod := total_modify liveSize (fun gr => { gr with alive := false }) hgr
    have h1 : liveSize gr = 0 := by simp [liveSize, hzero]
    have h2 : liveSize { gr with alive := false } = 0 := rfl
    simp only [amount, Pc.transit] at *
    omega
  | subsumeTake this that count has =>
    have hset := amount_set (w := 0) has
      (fun g hg => hused g (by simp_all [Source.grants, Pc.uses]))
    simp only [Shared.set] at hset
    simp only [Pc.transit, Shared.setSize, UInt64.toNat_zero] at *
    omega
  | subsumeAdd this count size has =>
    have hset := amount_set (w := size + count) has hused
    have hle : size.toNat ≤ amount sh := by
      obtain ⟨gr, hgr, rfl⟩ := get_grant has
      have ha := hused this (List.mem_singleton.mpr rfl)
      rw [alive_of_getElem? hgr] at ha
      have hin := le_total liveSize (List.mem_of_getElem? hgr)
      have hsz : liveSize gr = gr.size.toNat := if_pos ha
      unfold amount
      omega
    have hadd : (size + count).toNat = size.toNat + count.toNat :=
      toNat_add_of_lt (by simp only [Pc.transit] at hfit; omega)
    simp only [Shared.set] at hset
    simp only [Pc.transit, Shared.setSize] at *
    omega
  | moveTake g size has =>
    obtain ⟨gr, hgr, rfl⟩ := get_grant has
    have ha := hused g (List.mem_singleton.mpr rfl)
    rw [alive_of_getElem? hgr] at ha
    have := total_live (fun gr => { gr with issuer := false, size := 0 }) hgr ha ha
    simp only [amount, Pc.transit, UInt64.toNat_zero] at *
    omega
  | moveMake issuer size ret =>
    rw [amount_construct]
    simp only [Pc.transit, Shared.construct]
    omega
  | growTotal count =>
    simp only [amount, Pc.transit]
    omega
  | closeAvailable => rfl

/-! ## Which steps change which grant -/

theorem getElem?_modify {gs : List GrantState} {h : Nat} (u : GrantState → GrantState)
    (hg : gs[g]? = some gr) :
    (gs.modify h u)[g]? = some (if h = g then u gr else gr) := by
  rw [List.getElem?_modify, hg]
  rfl

theorem set_grants (sh : Shared) (source : Source) (v : UInt64) (hg : sh.grants[g]? = some gr) :
    ∃ gr', (sh.set source v).grants[g]? = some gr' ∧ (g ∉ source.grants → gr' = gr) ∧
      gr'.issuer = gr.issuer ∧ gr'.alive = gr.alive := by
  cases source with
  | available => exact ⟨gr, hg, fun _ => rfl, rfl, rfl⟩
  | grant h =>
    refine ⟨_, getElem?_modify _ hg, ?_, ?_, ?_⟩
    · intro hne
      rw [if_neg]
      rintro rfl
      exact hne (List.mem_singleton.mpr rfl)
    · split <;> rfl
    · split <;> rfl

theorem construct_grants (sh : Shared) (issuer : Bool) (size : UInt64)
    (hg : sh.grants[g]? = some gr) :
    (sh.construct issuer size).grants[g]? = some gr :=
  getElem?_of_prefix (List.prefix_append _ _) hg

/-- A step changes a grant only if its call uses it, `issuer_` only in a move and the lifetime
    only at its end. -/
theorem trans_grant (ht : Trans sh pc sh' pc') (hg : sh.grants[g]? = some gr) :
    ∃ gr', sh'.grants[g]? = some gr' ∧ (g ∉ pc.uses → gr' = gr) ∧
      (pc.exclusive ≠ some g → gr'.issuer = gr.issuer ∧ gr'.alive = gr.alive) ∧
      (pc ≠ .endLife g → gr'.alive = gr.alive) := by
  cases ht with
  | quiet idle uses plain => exact ⟨gr, hg, fun _ => rfl, fun _ => ⟨rfl, rfl⟩, fun _ => rfl⟩
  | take source count wait v has enough =>
    obtain ⟨gr', hg', hsame, hi, ha⟩ := set_grants sh source (v - count) hg
    exact ⟨gr', hg', hsame, fun _ => ⟨hi, ha⟩, fun _ => ha⟩
  | makeGrant count ret =>
    exact ⟨gr, construct_grants sh true count hg, fun _ => rfl, fun _ => ⟨rfl, rfl⟩, fun _ => rfl⟩
  | setZero h caller size has =>
    obtain ⟨gr', hg', hsame, hi, ha⟩ := set_grants sh (.grant h) 0 hg
    exact ⟨gr', hg', hsame, fun _ => ⟨hi, ha⟩, fun _ => ha⟩
  | recycleGrow count => exact ⟨gr, hg, fun _ => rfl, fun _ => ⟨rfl, rfl⟩, fun _ => rfl⟩
  | recycle count h caller => exact ⟨gr, hg, fun _ => rfl, fun _ => ⟨rfl, rfl⟩, fun _ => rfl⟩
  | closeSize h caller =>
    refine ⟨_, getElem?_modify _ hg, ?_, ?_, ?_⟩
    · intro hne
      rw [if_neg]
      rintro rfl
      exact hne (List.mem_singleton.mpr rfl)
    · intro _
      split <;> exact ⟨rfl, rfl⟩
    · intro _
      split <;> rfl
  | endLife h =>
    refine ⟨_, getElem?_modify _ hg, ?_, ?_, ?_⟩
    · intro hne
      rw [if_neg]
      rintro rfl
      exact hne (List.mem_singleton.mpr rfl)
    · intro hne
      rw [if_neg]
      · exact ⟨rfl, rfl⟩
      · rintro rfl
        exact hne rfl
    · intro hne
      rw [if_neg]
      rintro rfl
      exact hne rfl
  | subsumeTake this that count has =>
    obtain ⟨gr', hg', hsame, hi, ha⟩ := set_grants sh (.grant that) 0 hg
    exact ⟨gr', hg', fun hne => hsame fun h => hne (List.mem_cons_of_mem _ h),
      fun _ => ⟨hi, ha⟩, fun _ => ha⟩
  | subsumeAdd this count size has =>
    obtain ⟨gr', hg', hsame, hi, ha⟩ := set_grants sh (.grant this) (size + count) hg
    exact ⟨gr', hg', hsame, fun _ => ⟨hi, ha⟩, fun _ => ha⟩
  | moveTake h size has =>
    refine ⟨_, getElem?_modify _ hg, ?_, ?_, ?_⟩
    · intro hne
      rw [if_neg]
      rintro rfl
      exact hne (List.mem_singleton.mpr rfl)
    · intro hne
      rw [if_neg]
      · exact ⟨rfl, rfl⟩
      · rintro rfl
        exact hne rfl
    · intro _
      split <;> rfl
  | moveMake issuer size ret =>
    exact ⟨gr, construct_grants sh issuer size hg, fun _ => rfl, fun _ => ⟨rfl, rfl⟩,
      fun _ => rfl⟩
  | growTotal count => exact ⟨gr, hg, fun _ => rfl, fun _ => ⟨rfl, rfl⟩, fun _ => rfl⟩
  | closeAvailable => exact ⟨gr, hg, fun _ => rfl, fun _ => ⟨rfl, rfl⟩, fun _ => rfl⟩

theorem uses_afterSpendAll (g : Nat) (n : UInt64) (caller : Caller) :
    (afterSpendAll g n caller).uses ⊆ [g] := by
  cases caller <;> simp [afterSpendAll, Pc.uses]

/-- A call only gives up grants, until it returns. -/
theorem trans_uses (ht : Trans sh pc sh' pc') :
    pc'.uses ⊆ pc.uses ∧ ∀ g, pc'.exclusive = some g → pc.exclusive = some g := by
  cases ht with
  | quiet idle uses plain =>
    refine ⟨uses, fun g hg => ?_⟩
    rw [plain.2.2.1] at hg
    cases hg
  | setZero g caller size has => exact ⟨List.Subset.refl _, by cases caller <;> exact fun _ => id⟩
  | recycle count g caller =>
    exact ⟨uses_afterSpendAll g count caller, by cases caller <;> simp [afterSpendAll, Pc.exclusive]⟩
  | closeSize g caller =>
    cases caller <;> simp [Pc.uses, Pc.exclusive]
  | subsumeTake this that count has => exact ⟨by simp [Pc.uses], fun _ => nofun⟩
  | _ => exact ⟨List.nil_subset _, fun _ => nofun⟩

/-- Nobody is left with units and no issuer. -/
def NullEmpty (sh : Shared) : Prop :=
  ∀ gr ∈ sh.grants, gr.issuer = false → gr.size = 0

theorem nullEmpty_modify {u : GrantState → GrantState} (h : NullEmpty sh)
    (hu : ∀ gr, sh.grants[g]? = some gr → (u gr).issuer = false → (u gr).size = 0) :
    NullEmpty { sh with grants := sh.grants.modify g u } := by
  intro gr' hmem hi
  obtain ⟨j, hj⟩ := List.mem_iff_getElem?.mp hmem
  rw [List.getElem?_modify] at hj
  obtain ⟨gr, hgr, rfl⟩ := Option.map_eq_some_iff.mp hj
  by_cases hjg : g = j
  · subst hjg
    simp only [if_true] at hi ⊢
    exact hu gr hgr hi
  · simp only [if_neg hjg] at hi ⊢
    exact h gr (List.mem_of_getElem? hgr) hi

theorem nullEmpty_construct {issuer : Bool} {size : UInt64} (h : NullEmpty sh)
    (hs : issuer = false → size = 0) : NullEmpty (sh.construct issuer size) := by
  intro gr hmem hi
  rcases List.mem_append.mp hmem with hold | hnew
  · exact h gr hold hi
  · obtain rfl := List.mem_singleton.mp hnew
    exact hs hi

theorem trans_nullEmpty (ht : Trans sh pc sh' pc') (hok : PcOk sh pc) (hn : NullEmpty sh) :
    NullEmpty sh' := by
  cases ht with
  | take source count wait v has enough =>
    cases source with
    | available => exact hn
    | grant g =>
      -- A grant without issuer has nothing to spend, so `count` is zero here.
      refine nullEmpty_modify hn fun gr hgr hi => ?_
      obtain ⟨gr', hgr', rfl⟩ := get_grant has
      rw [hgr] at hgr'
      cases hgr'
      have hzero := hn gr (List.mem_of_getElem? hgr) hi
      rw [hzero] at enough ⊢
      have := UInt64.le_zero_iff.mp enough
      simp [this]
  | makeGrant count ret => exact nullEmpty_construct hn nofun
  | setZero g caller size has => exact nullEmpty_modify hn fun _ _ _ => rfl
  | closeSize g caller =>
    exact nullEmpty_modify hn fun gr hgr hi => hn gr (List.mem_of_getElem? hgr) hi
  | endLife g =>
    exact nullEmpty_modify hn fun gr hgr hi => hn gr (List.mem_of_getElem? hgr) hi
  | subsumeTake this that count has => exact nullEmpty_modify hn fun _ _ _ => rfl
  | subsumeAdd this count size has =>
    refine nullEmpty_modify hn fun gr hgr hi => ?_
    have := hok.1 this rfl
    rw [hasIssuer_of_getElem? hgr] at this
    rw [this] at hi
    cases hi
  | moveTake g size has => exact nullEmpty_modify hn fun _ _ _ => rfl
  | moveMake issuer size ret => exact nullEmpty_construct hn (hok.2.2 issuer size rfl)
  | _ => exact hn

/-! ## What a call knows stays right -/

theorem pcOk_plain (h : pc.plain) : PcOk sh pc := by
  obtain ⟨hadds, hemptied, _, htr⟩ := h
  refine ⟨?_, ?_, ?_⟩
  · intro g hg
    rw [hadds] at hg
    cases hg
  · intro g gr hg
    rw [hemptied] at hg
    cases hg
  · rintro issuer size rfl _
    exact UInt64.toNat_inj.mp htr

/-- What the call that steps knows afterwards. -/
theorem trans_ok (ht : Trans sh pc sh' pc') (hok : PcOk sh pc) (hn : NullEmpty sh) :
    PcOk sh' pc' := by
  cases ht with
  | quiet idle uses plain => exact pcOk_plain plain
  | setZero g caller size has =>
    refine ⟨fun _ => nofun, ?_, fun _ _ => nofun⟩
    intro g' gr' he hgr'
    obtain rfl : g = g' := by
      cases caller <;> simp_all [Pc.emptied]
    obtain ⟨gr, hgr, rfl⟩ := get_grant has
    have := getElem?_modify (h := g) (fun gr => { gr with size := 0 }) hgr
    rw [if_pos rfl] at this
    simp only [Shared.setSize] at hgr'
    rw [this] at hgr'
    cases hgr'
    rfl
  | recycle count g caller =>
    refine ⟨?_, ?_, ?_⟩
    · intro g' hg'
      cases caller <;> cases hg'
    · intro g' gr' he hgr'
      cases caller with
      | destroy => exact hok.2.1 g' gr' he hgr'
      | user => cases he
      | revoke => cases he
    · intro issuer size hpc
      cases caller <;> cases hpc
  | closeSize g caller =>
    cases caller with
    | destroy =>
      refine ⟨fun _ => nofun, ?_, fun _ _ => nofun⟩
      intro g' gr' he hgr'
      cases he
      rw [List.getElem?_modify] at hgr'
      obtain ⟨gr, hgr, rfl⟩ := Option.map_eq_some_iff.mp hgr'
      have := hok.2.1 g gr rfl hgr
      simpa using this
    | user => exact pcOk_plain (plain_finish _)
    | revoke => exact pcOk_plain (plain_finish _)
  | subsumeTake this that count has =>
    refine ⟨?_, fun _ _ => nofun, fun _ _ => nofun⟩
    rintro g hg
    cases hg
    have hiss := hok.1 this rfl
    cases hgr : sh.grants[this]? with
    | none => simp [Shared.hasIssuer, hgr] at hiss
    | some gr =>
      obtain ⟨gr', hgr', _, hi, _⟩ := set_grants sh (.grant that) 0 hgr
      rw [hasIssuer_of_getElem? hgr] at hiss
      have hgoal : (sh.setSize that 0).hasIssuer this = gr'.issuer := hasIssuer_of_getElem? hgr'
      rw [hgoal, hi]
      exact hiss
  | moveTake g size has =>
    refine ⟨fun _ => nofun, fun _ _ => nofun, ?_⟩
    intro issuer size' hpc hi
    cases hpc
    obtain ⟨gr, hgr, rfl⟩ := get_grant has
    rw [hasIssuer_of_getElem? hgr] at hi
    exact hn gr (List.mem_of_getElem? hgr) hi
  | take | makeGrant | growTotal | recycleGrow | endLife | subsumeAdd | moveMake
  | closeAvailable => exact ⟨fun _ => nofun, fun _ _ => nofun, fun _ _ => nofun⟩

theorem uses_of_adds (h : pc.adds = some g) : g ∈ pc.uses := by
  unfold Pc.adds at h
  split at h <;> cases h <;> simp [Pc.uses]

theorem uses_of_exclusive (h : pc.exclusive = some g) : g ∈ pc.uses := by
  unfold Pc.exclusive at h
  split at h <;> cases h <;> simp [Pc.uses]

theorem exclusive_of_emptied (h : pc.emptied = some g) :
    pc.exclusive = some g := by
  unfold Pc.emptied at h
  split at h <;> cases h <;> rfl

/-- What another call knows is not disturbed by a step of `pc`. -/
theorem pcOk_other {other : Pc} (ht : Trans sh pc sh' pc') (hok : PcOk sh other)
    (hused : ∀ g ∈ other.uses, sh.alive g = true)
    (hpc : ∀ g, pc.exclusive = some g → g ∉ other.uses)
    (hother : ∀ g, other.exclusive = some g → g ∉ pc.uses) : PcOk sh' other := by
  refine ⟨?_, ?_, hok.2.2⟩
  · intro g hg
    have hmem := uses_of_adds hg
    obtain ⟨gr, hgr, _⟩ := exists_of_alive (hused g hmem)
    obtain ⟨gr', hgr', _, hsame, _⟩ := trans_grant ht hgr
    have hiss := hok.1 g hg
    rw [hasIssuer_of_getElem? hgr] at hiss
    rw [hasIssuer_of_getElem? hgr', (hsame fun he => hpc g he hmem).1]
    exact hiss
  · intro g gr' he hgr'
    have hexcl := exclusive_of_emptied he
    obtain ⟨gr, hgr, _⟩ := exists_of_alive (hused g (uses_of_exclusive hexcl))
    obtain ⟨gr'', hgr'', hsame, _⟩ := trans_grant ht hgr
    rw [hgr'] at hgr''
    cases hgr''
    rw [hsame (hother g hexcl)]
    exact hok.2.1 g gr he hgr

/-- A grant that a call still uses after a step is still alive, whosever step it was. -/
theorem trans_alive (ht : Trans sh pc sh' pc') (ha : sh.alive g = true) (hne : pc ≠ .endLife g) :
    sh'.alive g = true := by
  obtain ⟨gr, hgr, hal⟩ := exists_of_alive ha
  obtain ⟨gr', hgr', _, _, hsame⟩ := trans_grant ht hgr
  rw [alive_of_getElem? hgr', hsame hne]
  exact hal

theorem trans_alive_self (ht : Trans sh pc sh' pc') (ha : sh.alive g = true) (hg : g ∈ pc'.uses) :
    sh'.alive g = true := by
  by_cases hend : pc = .endLife g
  · subst hend
    cases ht with
    | quiet idle uses plain => exact ha
    | endLife => cases hg
  · exact trans_alive ht ha hend

/-! ## Starting a call -/

theorem begin_spec {op : Op} (h : begin sh op = some pc) (hn : NullEmpty sh) :
    pc.uses ⊆ op.grants ∧ (∀ g, pc.exclusive = some g → op.exclusive = some g) ∧
      pc.transit = 0 ∧ PcOk sh pc := by
  have hspend : ∀ g caller, (beginSpendAll sh g caller).uses ⊆ [g] ∧
      (beginSpendAll sh g caller).transit = 0 ∧ PcOk sh (beginSpendAll sh g caller) := by
    intro g caller
    unfold beginSpendAll
    split
    · refine ⟨List.Subset.refl _, rfl, fun _ => nofun, ?_, fun _ _ => nofun⟩
      intro g' gr he
      cases caller <;> cases he
    · rename_i hiss
      refine ⟨uses_afterSpendAll g 0 caller, transit_afterSpendAll g 0 caller, ?_, ?_, ?_⟩
      · intro g' hg'
        cases caller <;> cases hg'
      · intro g' gr he hgr
        cases caller <;> cases he
        rw [hasIssuer_of_getElem? hgr] at hiss
        exact hn gr (List.mem_of_getElem? hgr) (by simpa using hiss)
      · intro issuer size hpc
        cases caller <;> cases hpc
  cases op with
  | issueGrant count wait =>
    cases h
    exact ⟨List.Subset.refl _, fun _ => nofun, rfl, fun _ => nofun, fun _ _ => nofun, fun _ _ => nofun⟩
  | spend g count wait =>
    simp only [begin] at h
    split at h <;> cases h
    · exact ⟨List.Subset.refl _, fun _ => nofun, rfl, fun _ => nofun, fun _ _ => nofun,
        fun _ _ => nofun⟩
    · exact ⟨List.nil_subset _, fun _ => nofun, rfl, pcOk_plain (plain_finish _)⟩
  | spendAll g =>
    cases h
    obtain ⟨h1, h2, h3⟩ := hspend g .user
    refine ⟨h1, ?_, h2, h3⟩
    intro g' hg'
    unfold beginSpendAll at hg'
    split at hg' <;> cases hg'
  | revoke g =>
    cases h
    obtain ⟨h1, h2, h3⟩ := hspend g .revoke
    refine ⟨h1, ?_, h2, h3⟩
    intro g' hg'
    unfold beginSpendAll at hg'
    split at hg' <;> cases hg'
  | destroy g =>
    cases h
    obtain ⟨h1, h2, h3⟩ := hspend g .destroy
    refine ⟨h1, ?_, h2, h3⟩
    intro g' hg'
    unfold beginSpendAll at hg'
    split at hg' <;> cases hg' <;> rfl
  | subsume this that =>
    simp only [begin] at h
    split at h
    · split at h <;> cases h
      rename_i hthis
      refine ⟨List.Subset.refl _, fun _ => nofun, rfl, ?_, fun _ _ => nofun, fun _ _ => nofun⟩
      intro g hg
      cases hg
      exact hthis
    · cases h
      exact ⟨List.nil_subset _, fun _ => nofun, rfl, pcOk_plain (plain_finish _)⟩
  | move g =>
    cases h
    exact ⟨List.Subset.refl _, fun _ => id, rfl, fun _ => nofun, fun _ _ => nofun, fun _ _ => nofun⟩
  | grow count =>
    cases h
    exact ⟨List.Subset.refl _, fun _ => nofun, rfl, fun _ => nofun, fun _ _ => nofun, fun _ _ => nofun⟩
  | close =>
    cases h
    exact ⟨List.Subset.refl _, fun _ => nofun, rfl, fun _ => nofun, fun _ _ => nofun, fun _ _ => nofun⟩

/-! ## The invariant -/

def LocalOk (sh : Shared) : Local → Prop
  | .idle => True
  | .running pc => PcOk sh pc

structure Inv (initialCount : UInt64) (sh : Shared) (ls : List Local) : Prop where
  used : ∀ l ∈ ls, ∀ g ∈ l.uses, sh.alive g = true
  alone : ∀ (i j : Nat) (l k : Local) (g : Nat), i ≠ j → ls[i]? = some l → ls[j]? = some k →
    l.exclusive = some g → g ∉ k.uses
  ok : ∀ l ∈ ls, LocalOk sh l
  null : NullEmpty sh
  size : sh.totalSize.toNat = (initialCount.toNat + sh.grown) % 2 ^ 64
  balance : initialCount.toNat + sh.grown < 2 ^ 64 →
    amount sh + total transit ls = initialCount.toNat + sh.grown

variable {initialCount : UInt64} {sh sh' : Shared} {ls : List Local} {i : Nat}

theorem inv_begin (inv : Inv initialCount sh ls) {op : Op} (hi : ls[i]? = some .idle)
    (hadm : admits (.call op) sh ls .idle = true) (hb : begin sh op = some pc) :
    Inv initialCount sh (ls.set i (.running pc)) := by
  obtain ⟨huses, hexcl, htr, hok⟩ := begin_spec hb inv.null
  unfold admits at hadm
  rw [Bool.and_eq_true, List.all_eq_true] at hadm
  obtain ⟨hgrants, hmine⟩ := hadm
  have halive : ∀ g ∈ pc.uses, sh.alive g = true := by
    intro g hg
    have := hgrants g (huses hg)
    rw [Bool.and_eq_true] at this
    exact this.1
  have hfree : ∀ g ∈ pc.uses, ∀ l ∈ ls, l.exclusive ≠ some g := by
    intro g hg l hl
    have := hgrants g (huses hg)
    rw [Bool.and_eq_true, List.all_eq_true] at this
    simpa using this.2 l hl
  refine ⟨?_, ?_, ?_, inv.null, inv.size, ?_⟩
  · exact forall_set halive fun j k _ hj => inv.used k (List.mem_of_getElem? hj)
  · intro j j' l k g hne hj hj' hl
    rcases set_cases hj with ⟨rfl, rfl⟩ | ⟨hji, hjl⟩
    · rcases set_cases hj' with ⟨rfl, _⟩ | ⟨_, hjk⟩
      · exact absurd rfl hne
      · have hall : ∀ l ∈ ls, g ∉ l.uses := by
          rw [hexcl g hl] at hmine
          intro l hl
          simpa using List.all_eq_true.mp hmine l hl
        exact hall k (List.mem_of_getElem? hjk)
    · rcases set_cases hj' with ⟨_, rfl⟩ | ⟨_, hjk⟩
      · intro hg
        exact hfree g hg l (List.mem_of_getElem? hjl) hl
      · exact inv.alone j j' l k g hne hjl hjk hl
  · exact forall_set hok fun j k _ hj => inv.ok k (List.mem_of_getElem? hj)
  · intro hfit
    have hset := total_set transit (.running pc) hi
    have h0 : transit (.running pc) = 0 := htr
    have h1 : transit .idle = 0 := rfl
    have := inv.balance hfit
    omega

/-- A call that gives up its grants and holds nothing may return. -/
theorem inv_return (inv : Inv initialCount sh ls) {ret : Ret}
    (hi : ls[i]? = some (.running (.finish ret))) : Inv initialCount sh (ls.set i .idle) := by
  refine ⟨?_, ?_, ?_, inv.null, inv.size, ?_⟩
  · exact forall_set (fun g hg => by cases hg) fun j k _ hj => inv.used k (List.mem_of_getElem? hj)
  · intro j j' l k g hne hj hj' hl
    rcases set_cases hj with ⟨_, rfl⟩ | ⟨_, hjl⟩
    · cases hl
    · rcases set_cases hj' with ⟨_, rfl⟩ | ⟨_, hjk⟩
      · exact List.not_mem_nil
      · exact inv.alone j j' l k g hne hjl hjk hl
  · exact forall_set trivial fun j k _ hj => inv.ok k (List.mem_of_getElem? hj)
  · intro hfit
    have hset := total_set transit .idle hi
    have h0 : transit (.running (.finish ret)) = 0 := rfl
    have h1 : transit .idle = 0 := rfl
    have := inv.balance hfit
    omega

/-- `total_size_` counts what was grown, and nothing is ungrown. -/
theorem trans_size (ht : Trans sh pc sh' pc')
    (hsize : sh.totalSize.toNat = (initialCount.toNat + sh.grown) % 2 ^ 64) :
    sh'.totalSize.toNat = (initialCount.toNat + sh'.grown) % 2 ^ 64 ∧ sh.grown ≤ sh'.grown := by
  cases ht with
  | growTotal count =>
    rw [UInt64.toNat_add, hsize]
    refine ⟨?_, Nat.le_add_right _ _⟩
    rw [Nat.mod_add_mod, Nat.add_assoc]
  | take source count wait v has enough => cases source <;> exact ⟨hsize, Nat.le_refl _⟩
  | _ => exact ⟨hsize, Nat.le_refl _⟩

theorem inv_trans (inv : Inv initialCount sh ls) (hi : ls[i]? = some (.running pc))
    (ht : Trans sh pc sh' pc') :
    Inv initialCount sh' (ls.set i (.running pc')) := by
  have hmem := List.mem_of_getElem? hi
  have hused := inv.used _ hmem
  have hok : PcOk sh pc := inv.ok _ hmem
  obtain ⟨huses, hexcl⟩ := trans_uses ht
  obtain ⟨hsize, hgrown⟩ := trans_size ht inv.size
  refine ⟨?_, ?_, ?_, trans_nullEmpty ht hok inv.null, hsize, ?_⟩
  · refine forall_set (fun g hg => ?_) fun j k hne hj g hg => ?_
    · exact trans_alive_self ht (hused g (huses hg)) hg
    · refine trans_alive ht (inv.used k (List.mem_of_getElem? hj) g hg) ?_
      rintro rfl
      exact inv.alone i j _ k g hne.symm hi hj rfl hg
  · intro j j' l k g hne hj hj' hl
    rcases set_cases hj with ⟨rfl, rfl⟩ | ⟨hji, hjl⟩
    · rcases set_cases hj' with ⟨rfl, _⟩ | ⟨_, hjk⟩
      · exact absurd rfl hne
      · exact inv.alone j j' _ k g hne hi hjk (hexcl g hl)
    · rcases set_cases hj' with ⟨rfl, rfl⟩ | ⟨_, hjk⟩
      · exact fun hg => inv.alone j j' l _ g hne hjl hi hl (huses hg)
      · exact inv.alone j j' l k g hne hjl hjk hl
  · refine forall_set (trans_ok ht hok inv.null) fun j k hne hj => ?_
    have hk := inv.ok k (List.mem_of_getElem? hj)
    cases k with
    | idle => trivial
    | running other =>
      exact pcOk_other ht hk (inv.used _ (List.mem_of_getElem? hj))
        (fun g hg => inv.alone i j _ _ g hne.symm hi hj hg)
        (fun g hg => inv.alone j i _ _ g hne hj hi hg)
  · intro hfit
    have hbal := inv.balance (by omega)
    have hset := total_set transit (.running pc') hi
    have hle := le_total transit hmem
    have h0 : transit (.running pc) = pc.transit := rfl
    have h1 : transit (.running pc') = pc'.transit := rfl
    have hstep := trans_balance ht hused hok (by omega)
    omega

theorem inv_reachable {debug : Bool} {n : Nat} {c : Conf Shared Local}
    (hr : (machine debug).Reachable (initial n initialCount) c) :
    Inv initialCount c.shared c.locals := by
  refine (machine debug).invariant (I := fun c => Inv initialCount c.shared c.locals) ?_ ?_ hr
  · intro c i a c' inv hf
    obtain ⟨l, sh', l', hi, hadm, hs, rfl⟩ := (machine debug).fire_cases hf
    rcases step_cases hs with ⟨op, pc, rfl, rfl, hb, rfl, rfl⟩ | ⟨ret, rfl, rfl, rfl⟩ |
      ⟨pc, pc', rfl, ht, rfl⟩
    · exact inv_begin inv hi hadm hb
    · exact inv_return inv hi
    · exact inv_trans inv hi ht
  · have hidle : ∀ l ∈ (initial n initialCount).locals, l = .idle := by
      intro l hl
      exact List.eq_of_mem_replicate hl
    refine ⟨?_, ?_, ?_, ?_, ?_, ?_⟩
    · intro l hl g hg
      rw [hidle l hl] at hg
      cases hg
    · intro j j' l k g _ hj _ hl
      rw [hidle l (List.mem_of_getElem? hj)] at hl
      cases hl
    · intro l hl
      rw [hidle l hl]
      trivial
    · intro gr hgr
      cases hgr
    · have := initialCount.toNat_lt
      show initialCount.toNat = (initialCount.toNat + 0) % 2 ^ 64
      rw [Nat.add_zero, Nat.mod_eq_of_lt this]
    · intro _
      simp [initial, amount, total_replicate, transit]

/-! ## Units -/

/-- Everybody who can hold units: the pool, the grants and the calls. -/
def holders (c : Conf Shared Local) : List Nat :=
  c.shared.available.toNat :: (c.shared.grants.map liveSize ++ c.locals.map transit)

theorem sum_holders (c : Conf Shared Local) :
    (holders c).sum = amount c.shared + total transit c.locals := by
  simp [holders, amount, total, Nat.add_assoc]

/-- Amounts that add up to `total` are a distribution of `total` units, each with one holder. -/
theorem exists_owner (ns : List Nat) : ∃ owner : Fin ns.sum → Fin ns.length,
    ∀ h, (Finset.univ.filter fun u => owner u = h).card = ns.get h := by
  have hsum : ∑ h, ns.get h = ns.sum := by
    rw [← List.sum_ofFn, List.ofFn_get]
  let e := (finSigmaFinEquiv (n := ns.get)).trans (finCongr hsum)
  refine ⟨fun u => (e.symm u).1, fun h => ?_⟩
  have hmap : (Finset.univ.filter fun u => (e.symm u).1 = h) =
      (Finset.univ : Finset (Fin (ns.get h))).map
        ((Function.Embedding.sigmaMk h).trans e.toEmbedding) := by
    ext u
    simp only [Finset.mem_filter, Finset.mem_univ, true_and, Finset.mem_map,
      Function.Embedding.trans_apply, Function.Embedding.sigmaMk_apply, Equiv.coe_toEmbedding]
    constructor
    · rintro rfl
      exact ⟨(e.symm u).2, e.apply_symm_apply u⟩
    · rintro ⟨k, rfl⟩
      rw [e.symm_apply_apply]
  rw [hmap, Finset.card_map, Finset.card_univ, Fintype.card_fin]

/-- **Grants are conserved.** In every state of every interleaving in which the pool has grown
    to less than 2^64 units: what is available, held by live grants and in transit is the
    initial count plus everything grown; the units can be told apart so that each has exactly
    one holder; no counter exceeds the total (one that had wrapped below zero would); and
    when all grants are destroyed and no call is running, the check in `~Issuer` succeeds. -/
theorem grants_conserved (debug : Bool) (n : Nat) (initialCount : UInt64) (c : Conf Shared Local)
    (hr : (machine debug).Reachable (initial n initialCount) c)
    (hfit : initialCount.toNat + c.shared.grown < 2 ^ 64) :
    c.shared.available.toNat + total liveSize c.shared.grants + total transit c.locals =
        initialCount.toNat + c.shared.grown ∧
      (∃ owner : Fin (initialCount.toNat + c.shared.grown) → Fin (holders c).length,
        ∀ h, (Finset.univ.filter fun u => owner u = h).card = (holders c).get h) ∧
      (c.shared.available.toNat ≤ initialCount.toNat + c.shared.grown ∧
        ∀ gr ∈ c.shared.grants, gr.alive = true →
          gr.size.toNat ≤ initialCount.toNat + c.shared.grown) ∧
      ((∀ gr ∈ c.shared.grants, gr.alive = false) → (∀ l ∈ c.locals, l = .idle) →
        c.shared.issuerDtorCheck = true) := by
  have inv := inv_reachable hr
  have hbal := inv.balance hfit
  unfold amount at hbal
  refine ⟨hbal, ?_, ⟨by omega, ?_⟩, ?_⟩
  · have hsum : (holders c).sum = initialCount.toNat + c.shared.grown :=
      (sum_holders c).trans (inv.balance hfit)
    rw [← hsum]
    exact exists_owner (holders c)
  · intro gr hgr ha
    have hle := le_total liveSize hgr
    have hsz : liveSize gr = gr.size.toNat := if_pos ha
    omega
  · intro hdead hidle
    have hgrants : total liveSize c.shared.grants = 0 := total_eq_zero.mpr fun gr hgr => by
      simp [liveSize, hdead gr hgr]
    have hlocals : total transit c.locals = 0 := total_eq_zero.mpr fun l hl => by
      rw [hidle l hl]
      rfl
    have hsize := inv.size
    rw [Nat.mod_eq_of_lt hfit] at hsize
    have heq : c.shared.totalSize.toNat = c.shared.available.toNat := by omega
    simp [Shared.issuerDtorCheck, UInt64.toNat_inj.mp heq]

/-- Task 0 issues a grant of 6 out of 10, spends 2 of it, subsumes them back and destroys both,
    while task 1 grows the pool by 5 between two of its accesses. -/
def grantRun : List (Nat × Act) :=
  (0, Act.call (.issueGrant 6 false)) :: List.replicate 4 (0, Act.run) ++
    (1, Act.call (.grow 5)) :: (1, Act.run) ::
    (0, Act.call (.spend 0 2 true)) :: List.replicate 2 (0, Act.run) ++
    List.replicate 2 (1, Act.run) ++ List.replicate 2 (0, Act.run) ++
    (0, Act.call (.subsume 0 1)) :: List.replicate 3 (0, Act.run) ++
    (0, Act.call (.destroy 1)) :: List.replicate 5 (0, Act.run) ++
    (1, Act.call (.destroy 0)) :: List.replicate 5 (1, Act.run)

theorem grants_conserved_grantRun :
    ∃ c, (machine true).run grantRun (initial 2 10) = some c ∧
      10 + c.shared.grown = 15 ∧ c.shared.grants.length = 2 ∧
      c.shared.issuerDtorCheck = true := by
  refine ⟨_, rfl, rfl, rfl, ?_⟩
  exact (grants_conserved true 2 10 _ ⟨grantRun, rfl⟩ (by decide)).2.2.2 (by decide) (by decide)

end Batt.Grant
