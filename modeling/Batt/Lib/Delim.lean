/-
  Lists cut at their first delimiter.

  `Free delims s` says that no element of `s` is a delimiter. Every list is free of delimiters or is
  cut by its first one (`free_or_cut`), and the cut is unique (`cut_unique`); `findIdx?` finds it.
  The pieces of a list that is cut at every delimiter are in it and are free of the delimiter.
-/
import Mathlib.Data.List.Basic

namespace Delim

variable {α : Type}

def Free (delims s : List α) : Prop :=
  ∀ c ∈ s, c ∉ delims

variable {delims s pre pre' rest rest' : List α} {c c' : α}

@[simp] theorem free_nil : Free delims [] := by
  simp [Free]

@[simp] theorem free_cons : Free delims (c :: s) ↔ c ∉ delims ∧ Free delims s := by
  simp [Free]

theorem Free.mono {more : List α} (h : Free more s) (hsub : delims ⊆ more) : Free delims s :=
  fun x hx hd => h x hx (hsub hd)

theorem free_or_cut [DecidableEq α] (delims s : List α) :
    Free delims s ∨ ∃ pre c rest, s = pre ++ c :: rest ∧ Free delims pre ∧ c ∈ delims := by
  induction s with
  | nil => exact .inl free_nil
  | cons a s ih =>
    by_cases ha : a ∈ delims
    · exact .inr ⟨[], a, s, rfl, free_nil, ha⟩
    · rcases ih with hfree | ⟨pre, c, rest, rfl, hpre, hc⟩
      · exact .inl (free_cons.mpr ⟨ha, hfree⟩)
      · exact .inr ⟨a :: pre, c, rest, rfl, free_cons.mpr ⟨ha, hpre⟩, hc⟩

theorem cut_unique (h : pre ++ c :: rest = pre' ++ c' :: rest') (hpre : Free delims pre)
    (hc : c ∈ delims) (hpre' : Free delims pre') (hc' : c' ∈ delims) :
    pre = pre' ∧ c = c' ∧ rest = rest' := by
  induction pre generalizing pre' with
  | nil =>
    cases pre' with
    | nil => simpa using h
    | cons a pre' =>
      obtain ⟨rfl, -⟩ := List.cons.inj h
      exact absurd hc (free_cons.mp hpre').1
  | cons a pre ih =>
    cases pre' with
    | nil =>
      obtain ⟨rfl, -⟩ := List.cons.inj h
      exact absurd hc' (free_cons.mp hpre).1
    | cons a' pre' =>
      obtain ⟨rfl, htail⟩ := List.cons.inj h
      obtain ⟨rfl, hcc, hrest⟩ := ih htail (free_cons.mp hpre).2 (free_cons.mp hpre').2
      exact ⟨rfl, hcc, hrest⟩

section Find

variable [DecidableEq α]

theorem findIdx?_free (h : Free delims s) : s.findIdx? (fun c => decide (c ∈ delims)) = none := by
  rw [List.findIdx?_eq_none_iff]
  intro x hx
  exact decide_eq_false (h x hx)

theorem findIdx?_cut (h : Free delims pre) (hc : c ∈ delims) :
    (pre ++ c :: rest).findIdx? (fun c => decide (c ∈ delims)) = some pre.length := by
  rw [List.findIdx?_append, findIdx?_free h]
  simp [List.findIdx?_cons, hc]

end Find

/-! ## Lists cut where a predicate ends -/

section While

variable {p : α → Bool}

theorem takeWhile_append_of_head (h : ∀ c ∈ rest.head?, p c = false) :
    (s ++ rest).takeWhile p = s.takeWhile p := by
  induction s with
  | nil =>
    cases rest with
    | nil => rfl
    | cons c rest => simp [h c rfl]
  | cons a s ih =>
    rw [List.cons_append, List.takeWhile_cons, List.takeWhile_cons, ih]

theorem dropWhile_append_of_head (h : ∀ c ∈ rest.head?, p c = false) :
    (s ++ rest).dropWhile p = s.dropWhile p ++ rest := by
  induction s with
  | nil =>
    cases rest with
    | nil => rfl
    | cons c rest => simp [h c rfl]
  | cons a s ih =>
    rw [List.cons_append, List.dropWhile_cons, List.dropWhile_cons, ih]
    split <;> rfl

theorem head_dropWhile (p : α → Bool) (s : List α) : ∀ c ∈ (s.dropWhile p).head?, p c = false := by
  induction s with
  | nil => exact fun c hc => by cases hc
  | cons a s ih =>
    rw [List.dropWhile_cons]
    split
    · exact ih
    · rename_i ha
      rintro c hc
      cases hc
      exact Bool.eq_false_iff.mpr ha

end While

/-! ## Lists cut at every delimiter -/

section Split

variable {piece : List α}

theorem subset_intercalate {pieces : List (List α)} (sep : List α) (h : piece ∈ pieces) :
    piece ⊆ sep.intercalate pieces := by
  induction pieces with
  | nil => cases h
  | cons first pieces ih =>
    cases pieces with
    | nil =>
      rw [List.intercalate_singleton, List.mem_singleton.mp h]
      exact List.Subset.refl first
    | cons next pieces =>
      rw [List.intercalate_cons_cons]
      rcases List.mem_cons.mp h with rfl | h
      · exact List.Subset.trans (List.subset_append_left _ _) (List.subset_append_left _ _)
      · exact List.Subset.trans (ih h) (List.subset_append_right _ _)

variable [DecidableEq α]

theorem not_mem_of_mem_splitOn (h : piece ∈ s.splitOn c) : c ∉ piece := by
  induction s generalizing piece with
  | nil =>
    rw [List.splitOn_nil, List.mem_singleton] at h
    rw [h]
    exact List.not_mem_nil
  | cons a s ih =>
    rw [List.splitOn_cons_eq_if_modifyHead] at h
    split at h
    · rcases List.mem_cons.mp h with rfl | h
      · exact List.not_mem_nil
      · exact ih h
    · rename_i hne
      obtain ⟨first, more, hcut⟩ := List.exists_cons_of_ne_nil (List.splitOn_ne_nil c s)
      rw [hcut, List.modifyHead_cons] at h
      rw [hcut] at ih
      rcases List.mem_cons.mp h with rfl | h
      · intro hc
        rcases List.mem_cons.mp hc with rfl | hc
        · exact hne (beq_self_eq_true _)
        · exact ih List.mem_cons_self hc
      · exact ih (List.mem_cons_of_mem _ h)

theorem subset_of_mem_splitOn (h : piece ∈ s.splitOn c) : piece ⊆ s := by
  have hsub := subset_intercalate [c] h
  rwa [List.intercalate_splitOn] at hsub

end Split

end Delim
