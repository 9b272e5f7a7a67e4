/-
  Min-heaps by a key, as what their operations promise.

  `contents` is the multiset of the elements a heap holds. `top` is one of those with the
  least key; which one, where several have it, is up to the heap. `popUpTo` takes the
  elements whose key is at most a bound, one by one from the top. What it takes is exactly
  what is due, and nothing due is left (`popUpTo_spec`).

  `sorted` is the heap that keeps a list in order of the key.
-/
import Mathlib.Data.Multiset.AddSub
import Mathlib.Data.List.Sort
import Mathlib.Order.Defs.LinearOrder

structure MinHeap (α K : Type) [LinearOrder K] (key : α → K) where
  Carrier : Type
  empty : Carrier
  push : Carrier → α → Carrier
  top : Carrier → Option α
  pop : Carrier → Carrier
  size : Carrier → Nat
  contents : Carrier → Multiset α
  contents_empty : contents empty = 0
  contents_push : ∀ h x, contents (push h x) = x ::ₘ contents h
  size_eq : ∀ h, size h = (contents h).card
  top_none : ∀ h, top h = none → contents h = 0
  top_pop : ∀ h x, top h = some x → contents h = x ::ₘ contents (pop h)
  top_le : ∀ h x, top h = some x → ∀ y ∈ contents h, key x ≤ key y

namespace MinHeap

variable {α K : Type} [LinearOrder K] {key : α → K}

/-- Takes elements from the top as long as their key is at most `bound`. -/
def popUpToFuel (m : MinHeap α K key) (bound : K) : Nat → m.Carrier → List α × m.Carrier
  | 0, h => ([], h)
  | fuel + 1, h =>
    match m.top h with
    | none => ([], h)
    | some x =>
      if key x ≤ bound then
        let r := m.popUpToFuel bound fuel (m.pop h)
        (x :: r.1, r.2)
      else ([], h)

def popUpTo (m : MinHeap α K key) (bound : K) (h : m.Carrier) : List α × m.Carrier :=
  m.popUpToFuel bound (m.size h) h

/-- What the loop takes was in the heap and is due; given fuel for every element, what it leaves
    is not due. -/
theorem popUpToFuel_spec (m : MinHeap α K key) (bound : K) (fuel : Nat) (h : m.Carrier) :
    m.contents h = ↑(m.popUpToFuel bound fuel h).1 + m.contents (m.popUpToFuel bound fuel h).2 ∧
      (∀ x ∈ (m.popUpToFuel bound fuel h).1, key x ≤ bound) ∧
      (m.size h ≤ fuel → ∀ y ∈ m.contents (m.popUpToFuel bound fuel h).2, bound < key y) := by
  induction fuel generalizing h with
  | zero =>
    refine ⟨by simp [popUpToFuel], by simp [popUpToFuel], ?_⟩
    intro hsize y hy
    rw [m.size_eq, Nat.le_zero, Multiset.card_eq_zero] at hsize
    rw [popUpToFuel, hsize] at hy
    cases Multiset.notMem_zero y hy
  | succ fuel ih =>
    rw [popUpToFuel]
    cases htop : m.top h with
    | none =>
      refine ⟨by simp, by simp, ?_⟩
      intro _ y hy
      simp only [m.top_none h htop] at hy
      cases Multiset.notMem_zero y hy
    | some x =>
      have hpop := m.top_pop h x htop
      dsimp only
      split
      · rename_i hle
        obtain ⟨hcont, hdue, hrest⟩ := ih (m.pop h)
        refine ⟨?_, ?_, ?_⟩
        · rw [hpop, hcont, ← Multiset.cons_coe, Multiset.cons_add]
        · intro y hy
          rcases List.mem_cons.mp hy with rfl | hy
          · exact hle
          · exact hdue y hy
        · intro hsize
          apply hrest
          rw [m.size_eq, hpop, Multiset.card_cons] at hsize
          rw [m.size_eq]
          omega
      · rename_i hgt
        refine ⟨by simp, by simp, ?_⟩
        intro _ y hy
        exact lt_of_lt_of_le (lt_of_not_ge hgt) (m.top_le h x htop y hy)

theorem popUpTo_spec (m : MinHeap α K key) (bound : K) (h : m.Carrier) :
    m.contents h = ↑(m.popUpTo bound h).1 + m.contents (m.popUpTo bound h).2 ∧
      (∀ x ∈ (m.popUpTo bound h).1, key x ≤ bound) ∧
      ∀ y ∈ m.contents (m.popUpTo bound h).2, bound < key y := by
  obtain ⟨hcont, hdue, hrest⟩ := m.popUpToFuel_spec bound (m.size h) h
  exact ⟨hcont, hdue, hrest (Nat.le_refl _)⟩

/-- A list in order of the key is a min-heap. -/
def sorted (key : α → K) : MinHeap α K key where
  Carrier := { xs : List α // xs.Pairwise fun x y => key x ≤ key y }
  empty := ⟨[], List.Pairwise.nil⟩
  push h x :=
    ⟨h.1.orderedInsert (fun x y => key x ≤ key y) x, by
      have : Std.Total fun x y : α => key x ≤ key y := ⟨fun x y => le_total _ _⟩
      have : IsTrans α fun x y => key x ≤ key y := ⟨fun _ _ _ => le_trans⟩
      exact h.2.orderedInsert x _⟩
  top h := h.1.head?
  pop h := ⟨h.1.tail, h.2.tail⟩
  size h := h.1.length
  contents h := ↑h.1
  contents_empty := rfl
  contents_push h x := by
    rw [Multiset.cons_coe, Multiset.coe_eq_coe]
    exact List.perm_orderedInsert _ x h.1
  size_eq h := rfl
  top_none h htop := by rw [List.head?_eq_none_iff.mp htop]; rfl
  top_pop h x htop := by
    rw [Multiset.cons_coe, List.cons_head?_tail htop]
  top_le h x htop y hy := by
    obtain ⟨xs, hxs⟩ := h
    cases xs with
    | nil => cases htop
    | cons z zs =>
      obtain rfl : z = x := by simpa using htop
      rcases List.mem_cons.mp hy with rfl | hy
      · exact le_refl _
      · exact (List.pairwise_cons.mp hxs).1 y hy

end MinHeap
