/-
  Programs that are lists of operations on a store.

  `step` makes one operation, or ends the program. What holds of a store at the start and is kept
  by an operation if and only if that is a careful one holds all along a program if and only if
  each operation that the program makes is careful (`good_iff_careful`).
-/
import Mathlib.Data.List.Induction

namespace Program

variable {W Op : Type} (step : W → Op → Option W)

def exec (w : W) : List Op → Option W
  | [] => some w
  | op :: ops => (step w op).bind fun w' => exec w' ops

variable {step} {w w₀ : W}

theorem exec_append (xs ys : List Op) :
    exec step w (xs ++ ys) = (exec step w xs).bind fun w' => exec step w' ys := by
  induction xs generalizing w with
  | nil => rfl
  | cons op xs ih =>
    rw [List.cons_append, exec, exec]
    cases step w op with
    | none => rfl
    | some w₁ => exact ih

theorem exec_concat {ops : List Op} {op : Op} (h : exec step w₀ ops = some w) :
    exec step w₀ (ops ++ [op]) = step w op := by
  rw [exec_append, h]
  show (step w op).bind some = _
  cases step w op <;> rfl

/-- **A program keeps to what is good exactly when it is careful.** -/
theorem good_iff_careful {Good : W → Prop} {Careful : W → Op → Prop} (hstart : Good w₀)
    (hstep : ∀ {w w' op}, Good w → step w op = some w' → (Good w' ↔ Careful w op))
    (ops : List Op) :
    (∀ pre w, pre <+: ops → exec step w₀ pre = some w → Good w) ↔
      ∀ pre op w w', pre ++ [op] <+: ops → exec step w₀ pre = some w → step w op = some w' →
        Careful w op := by
  constructor
  · intro hall pre op w w' hpre hexec hw'
    have hbefore := hall pre w ((List.prefix_append pre [op]).trans hpre) hexec
    exact (hstep hbefore hw').mp (hall _ w' hpre ((exec_concat hexec).trans hw'))
  · intro hcareful pre
    -- by induction on the operations made, the last one split off
    induction pre using List.reverseRecOn with
    | nil =>
      intro w _ hexec
      cases hexec
      exact hstart
    | append_singleton pre op ih =>
      intro w' hpre hexec'
      have hbefore := (List.prefix_append pre [op]).trans hpre
      cases hexec : exec step w₀ pre with
      | none =>
        rw [exec_append, hexec] at hexec'
        cases hexec'
      | some w =>
        rw [exec_concat hexec] at hexec'
        exact (hstep (ih w hbefore hexec) hexec').mpr (hcareful pre op w w' hpre hexec hexec')

/-- **A program does what it is for exactly when it is careful**, where each operation on a good
    store that leaves a good one has the effect `next` on what is seen of it. -/
theorem refines_iff_careful {G : Type} (Good : W → Prop) (view : W → G)
    {Careful : W → Op → Prop} {next : G → Op → G} (hstart : Good w₀)
    (hstep : ∀ {w w' op}, Good w → step w op = some w' → (Good w' ↔ Careful w op))
    (hnext : ∀ {w w' op}, Good w → step w op = some w' → Good w' → view w' = next (view w) op)
    (ops : List Op) :
    (∀ pre w, pre <+: ops → exec step w₀ pre = some w →
        Good w ∧ view w = pre.foldl next (view w₀)) ↔
      ∀ pre op w w', pre ++ [op] <+: ops → exec step w₀ pre = some w → step w op = some w' →
        Careful w op := by
  rw [← good_iff_careful hstart hstep ops]
  constructor
  · intro hall pre w hpre hexec
    exact (hall pre w hpre hexec).1
  · intro hgood pre w hpre hexec
    refine ⟨hgood pre w hpre hexec, ?_⟩
    -- by induction on the operations made, the last one split off
    induction pre using List.reverseRecOn generalizing w with
    | nil =>
      cases hexec
      rfl
    | append_singleton pre op ih =>
      have hbefore := (List.prefix_append pre [op]).trans hpre
      cases hmid : exec step w₀ pre with
      | none =>
        rw [exec_append, hmid] at hexec
        cases hexec
      | some v =>
        have hlast : step v op = some w := (exec_concat hmid).symm.trans hexec
        rw [hnext (hgood pre v hbefore hmid) hlast (hgood _ w hpre hexec),
          ih v hbefore hmid, List.foldl_append]
        rfl

end Program
