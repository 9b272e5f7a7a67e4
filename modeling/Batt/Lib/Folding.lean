/-
  Folding a list in pieces.

  An associative operation folds a list piece by piece: each piece is folded from a left
  identity, and the results are folded in the order of the pieces (`foldl_pieces`). The
  operation need not be commutative, and the identity need not be one on the right, as long
  as no piece is empty.
-/
import Mathlib.Data.List.Basic

namespace Folding

variable {α β : Type} {op : α → α → α} {identity : α}

theorem op_foldl_identity (hassoc : ∀ x y z, op (op x y) z = op x (op y z))
    (hid : ∀ x, op identity x = x) {piece : List α} (hne : piece ≠ []) (a : α) :
    op a (piece.foldl op identity) = piece.foldl op a := by
  have : Std.Associative op := ⟨hassoc⟩
  cases piece with
  | nil => exact absurd rfl hne
  | cons x rest =>
    rw [List.foldl_cons, List.foldl_cons, hid, List.foldl_assoc]

theorem foldl_pieces (hassoc : ∀ x y z, op (op x y) z = op x (op y z))
    (hid : ∀ x, op identity x = x) {pieces : List (List α)} (hne : ∀ piece ∈ pieces, piece ≠ [])
    (a : α) : (pieces.map (List.foldl op identity)).foldl op a = pieces.flatten.foldl op a := by
  induction pieces generalizing a with
  | nil => rfl
  | cons piece pieces ih =>
    rw [List.map_cons, List.foldl_cons, List.flatten_cons, List.foldl_append,
      op_foldl_identity hassoc hid (hne piece List.mem_cons_self)]
    exact ih (fun p hp => hne p (List.mem_cons_of_mem piece hp)) _

/-- A partial map over a list, where it is defined on every element. -/
theorem mapM_eq_some {γ : Type} {f : α → Option γ} {g : β → γ} {h : β → α} {xs : List β}
    (hf : ∀ x ∈ xs, f (h x) = some (g x)) : (xs.map h).mapM f = some (xs.map g) := by
  induction xs with
  | nil => rfl
  | cons x xs ih =>
    have hrest := ih fun y hy => hf y (List.mem_cons_of_mem x hy)
    rw [List.map_cons, List.mapM_cons, hf x List.mem_cons_self, hrest]
    rfl

end Folding
