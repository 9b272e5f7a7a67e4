/-
  Merging lists that a strict weak order sorts, and shuffles of many lists.

  `merge_append_append` cuts a merge at a pivot: where everything in the first parts goes
  before everything in the second parts, the merge of the whole is the merge of the first
  parts followed by the merge of the second parts. A list sorted by the order is cut at a
  value by `dropWhile`, which is what a lower-bound search returns; the cuts at two values
  in order nest. The merge of two sorted lists is the stable one (`isStableMerge_merge`).

  Each item of a shuffle is the first that is left of one of the lists, so it has the items of all
  the lists (`Shuffle.perm`).
-/
import Mathlib.Data.List.Basic
import Mathlib.Order.Defs.Unbundled
import Batt.Lib.Interleave

namespace Merging

variable {α : Type}

/-- A stable merge splits where its inputs do. -/
theorem merge_append_append {le : α → α → Bool} {xs₁ xs₂ ys₁ ys₂ : List α}
    (h₁ : ∀ a ∈ xs₁, ∀ b ∈ ys₂, le a b = true) (h₂ : ∀ a ∈ xs₂, ∀ b ∈ ys₁, le a b = false) :
    List.merge (xs₁ ++ xs₂) (ys₁ ++ ys₂) le = List.merge xs₁ ys₁ le ++ List.merge xs₂ ys₂ le := by
  induction xs₁ generalizing ys₁ with
  | nil =>
    induction ys₁ with
    | nil => simp
    | cons b ys ih =>
      -- every element of the second part of `xs` lets `b` go first
      have hrest := ih fun a ha c hc => h₂ a ha c (List.mem_cons_of_mem b hc)
      cases xs₂ with
      | nil => simp
      | cons a xs =>
        have hab := h₂ a List.mem_cons_self b List.mem_cons_self
        simp only [List.nil_append, List.nil_merge, List.cons_append] at hrest ⊢
        rw [List.cons_merge_cons_neg le _ _ (by simp [hab]), hrest]
  | cons a xs ihx =>
    have hx : ∀ c ∈ xs, ∀ b ∈ ys₂, le c b = true :=
      fun c hc => h₁ c (List.mem_cons_of_mem a hc)
    induction ys₁ with
    | nil =>
      have hrest := @ihx [] hx (by simp)
      cases ys₂ with
      | nil => simp
      | cons b ys =>
        have hab := h₁ a List.mem_cons_self b List.mem_cons_self
        simp only [List.nil_append, List.merge_right, List.cons_append] at hrest ⊢
        rw [List.cons_merge_cons_pos le _ _ hab, hrest]
    | cons b ys ihy =>
      simp only [List.cons_append, List.cons_merge_cons]
      split
      · have hrest := @ihx (b :: ys) hx h₂
        simp only [List.cons_append] at hrest ⊢
        rw [hrest]
      · have hrest := ihy fun c hc d hd => h₂ c hc d (List.mem_cons_of_mem b hd)
        simp only [List.cons_append] at hrest ⊢
        rw [hrest]

/-- Neither of two is before the other. -/
def tied (lt : α → α → Bool) (a b : α) : Bool := !lt a b && !lt b a

/-- The stable merge of two sorted lists: it has their elements, sorted, and of those that are not
before one another the ones of the first list come first, in the order of the lists. -/
structure IsStableMerge (lt : α → α → Bool) (xs ys zs : List α) : Prop where
  perm : zs.Perm (xs ++ ys)
  sorted : zs.Pairwise fun a b => lt b a = false
  stable : ∀ a, zs.filter (tied lt a) =
    xs.filter (tied lt a) ++ ys.filter (tied lt a)

/-! ## Strict weak orders -/

section StrictWeak

variable {lt : α → α → Bool} (ho : IsStrictWeakOrder α fun a b => lt a b = true) {a b c : α}
include ho

theorem lt_trans (hab : lt a b = true) (hbc : lt b c = true) : lt a c = true :=
  ho.toIsTrans.trans a b c hab hbc

/-- What is before `c` is before everything that is not. -/
theorem lt_of_lt_of_not_lt (hac : lt a c = true) (hbc : lt b c = false) :
    lt a b = true := by
  by_contra hab
  have hba : ¬ lt b a = true := fun h => by
    rw [lt_trans ho h hac] at hbc
    cases hbc
  have hcb : ¬ lt c b = true := fun h => hab (lt_trans ho hac h)
  have hbc' : ¬ lt b c = true := by simp [hbc]
  exact (ho.incomp_trans a b c ⟨hab, hba⟩ ⟨hbc', hcb⟩).1 hac

/-- Of two that are not before one another the one is before what the other is before. -/
theorem lt_congr_left (hab : lt a b = false) (hba : lt b a = false) (hac : lt a c = true) :
    lt b c = true := by
  by_contra hbc
  have hcb : lt c b = false := by
    by_contra hcb
    rw [lt_trans ho hac (by simpa using hcb)] at hab
    cases hab
  have hinc := ho.incomp_trans a b c ⟨by simp [hab], by simp [hba]⟩ ⟨hbc, by simp [hcb]⟩
  exact hinc.1 hac

/-- In a sorted list nothing from the lower bound of `a` on is before `a`. -/
theorem not_lt_of_mem_dropWhile {xs : List α} (hs : xs.Pairwise fun x y => lt y x = false)
    (hb : b ∈ xs.dropWhile (lt · a)) :
    lt b a = false := by
  induction xs with
  | nil => simp at hb
  | cons x xs ih =>
    obtain ⟨hx, hxs⟩ := List.pairwise_cons.mp hs
    by_cases hxa : lt x a = true
    · rw [List.dropWhile_cons, if_pos hxa] at hb
      exact ih hxs hb
    · rw [List.dropWhile_cons, if_neg hxa] at hb
      rcases List.mem_cons.mp hb with rfl | hb
      · simpa using hxa
      · by_contra hba
        have hbx := lt_of_lt_of_not_lt ho (by simpa using hba) (by simpa using hxa)
        rw [hx b hb] at hbx
        cases hbx

/-- The lower bound of the larger value is found from the lower bound of the smaller. -/
theorem dropWhile_dropWhile (hba : lt b a = false) (xs : List α) :
    (xs.dropWhile (lt · a)).dropWhile (lt · b) = xs.dropWhile (lt · b) := by
  induction xs with
  | nil => rfl
  | cons x xs ih =>
    by_cases hxa : lt x a = true
    · rw [List.dropWhile_cons, if_pos hxa, List.dropWhile_cons, if_pos (lt_of_lt_of_not_lt ho hxa hba)]
      exact ih
    · rw [List.dropWhile_cons, if_neg hxa]

/-- What is not before another one is not before what that one is not before. -/
theorem not_lt_trans (hba : lt b a = false) (hcb : lt c b = false) : lt c a = false := by
  by_contra hca
  have hcb' := lt_of_lt_of_not_lt ho (by simpa using hca) hba
  rw [hcb] at hcb'
  cases hcb'

theorem filter_merge {xs ys : List α} (hxs : xs.Pairwise fun a b => lt b a = false)
    (hys : ys.Pairwise fun a b => lt b a = false) (a : α) :
    (List.merge xs ys fun x y => !lt y x).filter (tied lt a) =
      xs.filter (tied lt a) ++ ys.filter (tied lt a) := by
  induction xs generalizing ys with
  | nil => simp
  | cons x xs ihx =>
    obtain ⟨hx, hxs'⟩ := List.pairwise_cons.mp hxs
    induction ys with
    | nil => simp
    | cons y ys ihy =>
      obtain ⟨-, hys'⟩ := List.pairwise_cons.mp hys
      by_cases hyx : lt y x = true
      · rw [List.cons_merge_cons_neg _ _ _ (by simp [hyx])]
        by_cases hya : tied lt a y = true
        · -- `y` is before everything in `xs`, and so is what is not before it
          have hay : lt a y = false ∧ lt y a = false := by simpa [tied] using hya
          have hnone : (x :: xs).filter (tied lt a) = [] := by
            rw [List.filter_eq_nil_iff]
            intro z hz hza
            have hyz : lt y z = true := by
              rcases List.mem_cons.mp hz with rfl | hz
              · exact hyx
              · exact lt_of_lt_of_not_lt ho hyx (hx z hz)
            have haz := lt_congr_left ho hay.2 hay.1 hyz
            simp [tied, haz] at hza
          rw [List.filter_cons_of_pos hya, ihy hys', hnone, List.filter_cons_of_pos hya]
          rfl
        · rw [List.filter_cons_of_neg hya, ihy hys', List.filter_cons_of_neg hya]
      · rw [List.cons_merge_cons_pos _ _ _ (by simp [hyx])]
        by_cases hxa : tied lt a x = true
        · rw [List.filter_cons_of_pos hxa, ihx hxs' hys, List.filter_cons_of_pos hxa, List.cons_append]
        · rw [List.filter_cons_of_neg hxa, ihx hxs' hys, List.filter_cons_of_neg hxa]

theorem isStableMerge_merge {xs ys : List α} (hxs : xs.Pairwise fun a b => lt b a = false)
    (hys : ys.Pairwise fun a b => lt b a = false) :
    IsStableMerge lt xs ys (List.merge xs ys fun x y => !lt y x) where
  perm := List.merge_perm_append _
  sorted := by
    have htrans : ∀ a b c, (!lt b a) = true → (!lt c b) = true → (!lt c a) = true := by
      intro a b c hab hbc
      simpa using not_lt_trans ho (by simpa using hab) (by simpa using hbc)
    have htotal : ∀ a b, ((!lt b a) || (!lt a b)) = true := by
      intro a b
      by_contra h
      have hboth : lt b a = true ∧ lt a b = true := by simpa using h
      exact ho.irrefl a (lt_trans ho hboth.2 hboth.1)
    have hpair := List.pairwise_merge htrans htotal xs ys (by simpa using hxs) (by simpa using hys)
    simpa using hpair
  stable := filter_merge ho hxs hys

end StrictWeak

end Merging

variable {α : Type}

inductive Shuffle : List (List α) → List α → Prop where
  | nil {lists : List (List α)} (h : ∀ xs ∈ lists, xs = []) : Shuffle lists []
  | cons {lists : List (List α)} {i : Nat} {x : α} {xs l : List α} (h : lists[i]? = some (x :: xs))
      (hl : Shuffle (lists.set i xs) l) : Shuffle lists (x :: l)

theorem Shuffle.perm {lists : List (List α)} {l : List α} (h : Shuffle lists l) :
    l.Perm lists.flatten := by
  induction h with
  | nil h => rw [List.flatten_eq_nil_iff.mpr h]
  | cons h _ ih =>
    obtain ⟨rest, hbefore, hafter⟩ := Interleave.flatten_set h
    exact ((ih.trans (hafter _)).cons _).trans hbefore.symm
