/-
  Heaps kept in a range of elements, as `push_heap` and `pop_heap` of the C++ library leave them.

  `IsHeap` is the library's definition: with the children of position `i` at `2 i + 1` and
  `2 i + 2`, no element is above its parent. So none is above the first (`IsHeap.not_above`). The
  order has to be a strict weak one of the elements in the range, no more.

  `HeapOps` is what the two functions promise. They do nothing with an element but compare it and
  move it, so they commute with a renaming of the elements that keeps the order (`push_map`,
  `pop_map`). `HeapOps.insertion` is the pair that keeps the range sorted.
-/
import Mathlib.Data.List.Sort

namespace HeapOps

variable {β γ : Type} {less : β → β → Bool}

/-- A strict weak order of the elements of `l`: of two one at most is below the other, and what is
    not below one that is not below a third is not below the third. -/
structure StrictWeakOn (less : β → β → Bool) (l : List β) : Prop where
  asymm : ∀ a ∈ l, ∀ b ∈ l, less a b = true → less b a = false
  not_trans : ∀ a ∈ l, ∀ b ∈ l, ∀ c ∈ l, less a b = false → less b c = false → less a c = false

theorem StrictWeakOn.mono {l l' : List β} (h : StrictWeakOn less l) (hsub : l' ⊆ l) :
    StrictWeakOn less l' :=
  ⟨fun a ha b hb => h.asymm a (hsub ha) b (hsub hb),
    fun a ha b hb c hc => h.not_trans a (hsub ha) b (hsub hb) c (hsub hc)⟩

theorem StrictWeakOn.irrefl {l : List β} (h : StrictWeakOn less l) {a : β} (ha : a ∈ l) :
    less a a = false := by
  by_contra hne
  have htrue : less a a = true := by simpa using hne
  rw [h.asymm a ha a ha htrue] at htrue
  cases htrue

/-- No element is above its parent. -/
def IsHeap (less : β → β → Bool) (l : List β) : Prop :=
  ∀ (i : Nat) (a b : β), 0 < i → l[(i - 1) / 2]? = some a → l[i]? = some b → less a b = false

theorem isHeap_nil : IsHeap less [] := by
  intro i a b _ ha
  rw [List.getElem?_nil] at ha
  cases ha

/-- No element of a heap is above the first. -/
theorem IsHeap.not_above {x : β} {l : List β} (h : IsHeap less (x :: l))
    (ho : StrictWeakOn less (x :: l)) : ∀ y ∈ x :: l, less x y = false := by
  have hpos : ∀ (i : Nat) (y : β), (x :: l)[i]? = some y → less x y = false := by
    intro i
    induction i using Nat.strong_induction_on with
    | h i ih =>
      intro y hy
      rcases Nat.eq_zero_or_pos i with rfl | hi
      · cases hy
        exact ho.irrefl List.mem_cons_self
      · -- by way of the parent
        have hparent : (i - 1) / 2 < i := by omega
        have hlen := (List.getElem?_eq_some_iff.mp hy).1
        have ha := List.getElem?_eq_getElem (hparent.trans hlen)
        exact ho.not_trans x List.mem_cons_self _ (List.mem_of_getElem? ha) y
          (List.mem_of_getElem? hy) (ih _ hparent _ ha) (h i _ y hi ha hy)
  intro y hy
  obtain ⟨i, hi⟩ := List.mem_iff_getElem?.mp hy
  exact hpos i y hi

theorem isHeap_map {less' : γ → γ → Bool} {f : β → γ} {l : List β}
    (hf : ∀ a b, less' (f a) (f b) = less a b) : IsHeap less' (l.map f) ↔ IsHeap less l := by
  constructor
  · intro h i a b hi ha hb
    rw [← hf]
    exact h i (f a) (f b) hi (by rw [List.getElem?_map, ha]; rfl) (by rw [List.getElem?_map, hb]; rfl)
  · intro h i a' b' hi ha hb
    rw [List.getElem?_map] at ha hb
    obtain ⟨a, hla, rfl⟩ := Option.map_eq_some_iff.mp ha
    obtain ⟨b, hlb, rfl⟩ := Option.map_eq_some_iff.mp hb
    rw [hf]
    exact h i a b hi hla hlb

/-- The order of the elements of a heap may change as long as it does not put one above its
    parent. -/
theorem IsHeap.congr {less' : β → β → Bool} {l : List β} (h : IsHeap less l)
    (hsame : ∀ a ∈ l, ∀ b ∈ l, less' a b = less a b) : IsHeap less' l := by
  intro i a b hi ha hb
  rw [hsame a (List.mem_of_getElem? ha) b (List.mem_of_getElem? hb)]
  exact h i a b hi ha hb

end HeapOps

/-! ## The operations -/

open HeapOps

/-- `push_heap` takes the last element into a heap of the others, `pop_heap` puts the first of a
    heap behind a heap of the others. -/
structure HeapOps where
  pushHeap : {β : Type} → (β → β → Bool) → List β → List β
  popHeap : {β : Type} → (β → β → Bool) → List β → List β
  push : ∀ {β : Type} {less : β → β → Bool} {l : List β} {x : β}, StrictWeakOn less (l ++ [x]) →
    IsHeap less l → (pushHeap less (l ++ [x])).Perm (l ++ [x]) ∧
      IsHeap less (pushHeap less (l ++ [x]))
  pop : ∀ {β : Type} {less : β → β → Bool} {l : List β} {x : β}, StrictWeakOn less (x :: l) →
    IsHeap less (x :: l) → ∃ l', popHeap less (x :: l) = l' ++ [x] ∧ l'.Perm l ∧ IsHeap less l'
  push_map : ∀ {β γ : Type} {less : β → β → Bool} {less' : γ → γ → Bool} (f : β → γ) (l : List β),
    (∀ a b, less' (f a) (f b) = less a b) → pushHeap less' (l.map f) = (pushHeap less l).map f
  pop_map : ∀ {β γ : Type} {less : β → β → Bool} {less' : γ → γ → Bool} (f : β → γ) (l : List β),
    (∀ a b, less' (f a) (f b) = less a b) → popHeap less' (l.map f) = (popHeap less l).map f

namespace HeapOps

variable {β γ : Type} {less : β → β → Bool}

/-! ## A range that is kept sorted -/

/-- From the top down. -/
def sortDown (less : β → β → Bool) (l : List β) : List β :=
  l.insertionSort fun a b => less a b = false

theorem pairwise_orderedInsert {a : β} {l : List β} (ho : StrictWeakOn less (a :: l))
    (hl : l.Pairwise fun a b => less a b = false) :
    (l.orderedInsert (fun a b => less a b = false) a).Pairwise fun a b => less a b = false := by
  induction l with
  | nil => exact List.pairwise_singleton _ a
  | cons b l ih =>
    obtain ⟨hb, hrest⟩ := List.pairwise_cons.mp hl
    have ha : a ∈ a :: b :: l := List.mem_cons_self
    have hbm : b ∈ a :: b :: l := List.mem_cons_of_mem a List.mem_cons_self
    rw [List.orderedInsert_cons]
    split
    · rename_i hab
      refine List.pairwise_cons.mpr ⟨fun c hc => ?_, hl⟩
      rcases List.mem_cons.mp hc with rfl | hcl
      · exact hab
      · exact ho.not_trans a ha b hbm c (List.mem_cons_of_mem a hc) hab (hb c hcl)
    · rename_i hab
      have hba : less b a = false := ho.asymm a ha b hbm (by simpa using hab)
      refine List.pairwise_cons.mpr ⟨fun c hc => ?_, ih (ho.mono ?_) hrest⟩
      · rcases List.mem_cons.mp ((List.perm_orderedInsert _ a l).mem_iff.mp hc) with rfl | hcl
        · exact hba
        · exact hb c hcl
      · exact List.cons_subset_cons a (List.subset_cons_self b l)

theorem pairwise_sortDown {l : List β} (ho : StrictWeakOn less l) :
    (sortDown less l).Pairwise fun a b => less a b = false := by
  induction l with
  | nil => exact .nil
  | cons a l ih =>
    have hperm : (sortDown less l).Perm l := List.perm_insertionSort _ l
    refine pairwise_orderedInsert (ho.mono ?_) (ih (ho.mono (List.subset_cons_self a l)))
    exact List.cons_subset_cons a hperm.subset

theorem isHeap_sortDown {l : List β} (ho : StrictWeakOn less l) : IsHeap less (sortDown less l) := by
  intro i a b hi ha hb
  obtain ⟨ha', rfl⟩ := List.getElem?_eq_some_iff.mp ha
  obtain ⟨hb', rfl⟩ := List.getElem?_eq_some_iff.mp hb
  exact List.pairwise_iff_getElem.mp (pairwise_sortDown ho) _ _ ha' hb' (by omega)

theorem orderedInsert_map {r : β → β → Prop} {s : γ → γ → Prop} [DecidableRel r] [DecidableRel s]
    {f : β → γ} (hf : ∀ a b, s (f a) (f b) ↔ r a b) (a : β) (l : List β) :
    (l.map f).orderedInsert s (f a) = (l.orderedInsert r a).map f := by
  induction l with
  | nil => rfl
  | cons b l ih =>
    rw [List.map_cons, List.orderedInsert_cons, List.orderedInsert_cons]
    by_cases h : r a b
    · rw [if_pos h, if_pos ((hf a b).mpr h)]
      rfl
    · rw [if_neg h, if_neg fun h' => h ((hf a b).mp h'), ih]
      rfl

theorem sortDown_map {less' : γ → γ → Bool} {f : β → γ} (hf : ∀ a b, less' (f a) (f b) = less a b)
    (l : List β) : sortDown less' (l.map f) = (sortDown less l).map f := by
  induction l with
  | nil => rfl
  | cons a l ih =>
    have hrel : ∀ a b, less' (f a) (f b) = false ↔ less a b = false := fun a b => by rw [hf]
    unfold sortDown at ih ⊢
    rw [List.map_cons, List.insertionSort_cons, List.insertionSort_cons, ih,
      orderedInsert_map hrel]

def insertion : HeapOps where
  pushHeap := sortDown
  popHeap less l :=
    match l with
    | [] => []
    | x :: l => sortDown less l ++ [x]
  push ho _ := ⟨List.perm_insertionSort _ _, isHeap_sortDown ho⟩
  pop {_ _ l x} ho _ := ⟨_, rfl, List.perm_insertionSort _ _,
    isHeap_sortDown (ho.mono (List.subset_cons_self x l))⟩
  push_map _ l hf := sortDown_map hf l
  pop_map f l hf := by
    cases l with
    | nil => rfl
    | cons x l =>
      rw [List.map_cons]
      simp only [sortDown_map hf, List.map_append, List.map_cons, List.map_nil]

end HeapOps
