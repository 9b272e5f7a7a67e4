/-
  A stream kept in a ring of `cap` cells. Position `p` of the stream lives in cell `p % cap`.

  `slots cap p n` are the cells of the `n` positions from `p` on. `Holds mem cap s lo hi` says
  that the ring holds positions `lo` to `hi` of the stream `s`; while `hi ≤ lo + cap` these
  are different cells, so a write in front of `hi` disturbs none of them.
-/
import Mathlib.Data.List.Basic
import Mathlib.Data.Nat.ModEq
import Mathlib.Logic.Function.Basic

namespace CellRing

variable {α : Type} {n p hi lo cap : Nat} {mem : Nat → α} {s : List α}

/-! ## Cells of a stretch of the stream -/

def slots (cap p n : Nat) : List Nat := (List.range n).map fun j => (p + j) % cap

@[simp] theorem length_slots (cap p n : Nat) : (slots cap p n).length = n := by
  simp [slots]

@[simp] theorem slots_zero (cap p : Nat) : slots cap p 0 = [] := rfl

theorem getElem?_slots {j : Nat} (h : j < n) :
    (slots cap p n)[j]? = some ((p + j) % cap) := by
  simp [slots, h]

theorem mem_slots {a : Nat} : a ∈ slots cap p n ↔ ∃ j, j < n ∧ (p + j) % cap = a := by
  simp [slots]

theorem slots_append (cap p m n : Nat) :
    slots cap p (m + n) = slots cap p m ++ slots cap (p + m) n := by
  unfold slots
  rw [List.range_add, List.map_append, List.map_map]
  congr 1
  refine List.map_congr_left fun j _ => ?_
  rw [Function.comp_apply, Nat.add_assoc]

theorem slots_succ (cap p n : Nat) : slots cap p (n + 1) = p % cap :: slots cap (p + 1) n := by
  rw [Nat.add_comm n 1, slots_append]
  rfl

theorem slots_drop (cap p n k : Nat) :
    (slots cap p n).drop k = slots cap (p + k) (n - k) := by
  by_cases h : k ≤ n
  · obtain ⟨m, rfl⟩ := Nat.exists_eq_add_of_le h
    rw [slots_append, List.drop_left' (length_slots cap p k), Nat.add_sub_cancel_left]
  · have h0 : n - k = 0 := by omega
    rw [h0, slots_zero, List.drop_eq_nil_iff, length_slots]
    omega

theorem slots_take {k : Nat} (h : k ≤ n) : (slots cap p n).take k = slots cap p k := by
  obtain ⟨m, rfl⟩ := Nat.exists_eq_add_of_le h
  rw [slots_append, List.take_left' (length_slots cap p k)]

/-- Up to the end of the ring the cells are consecutive. -/
theorem slots_eq_range' (h : p % cap + n ≤ cap) :
    slots cap p n = List.range' (p % cap) n := by
  unfold slots
  rw [List.range'_eq_map_range]
  refine List.map_congr_left fun j hj => ?_
  have hj' : j < n := List.mem_range.mp hj
  rw [← Nat.mod_add_mod, Nat.mod_eq_of_lt (by omega)]

/-- Past the end they go on at cell zero. -/
theorem slots_wrap (hcap : 0 < cap) (h : n ≤ cap) :
    slots cap (p + (cap - p % cap)) n = List.range' 0 n := by
  have hmod : (p + (cap - p % cap)) % cap = 0 := by
    have hlt := Nat.mod_lt p hcap
    rw [← Nat.mod_add_mod]
    have : p % cap + (cap - p % cap) = cap := by omega
    rw [this, Nat.mod_self]
  rw [slots_eq_range' (by omega), hmod]

/-- Two positions less than a lap apart are in different cells. -/
theorem slot_ne {q : Nat} (h : p < q) (hq : q < p + cap) : p % cap ≠ q % cap := by
  intro he
  obtain ⟨k, rfl⟩ := Nat.exists_eq_add_of_lt h
  have hmod : (k + 1) % cap = 0 := by
    have : p + 0 ≡ p + (k + 1) [MOD cap] := he
    exact (Nat.ModEq.add_left_cancel' p this).symm
  have hlt : (k + 1) % cap = k + 1 := Nat.mod_eq_of_lt (by omega)
  omega

/-! ## A ring that holds part of a stream -/

def Holds (mem : Nat → α) (cap : Nat) (s : List α) (lo hi : Nat) : Prop :=
  ∀ p, lo ≤ p → p < hi → s[p]? = some (mem (p % cap))

theorem Holds.mono {lo' hi' : Nat} (h : Holds mem cap s lo hi) (hlo : lo ≤ lo') (hhi : hi' ≤ hi) :
    Holds mem cap s lo' hi' :=
  fun p h1 h2 => h p (by omega) (by omega)

/-- A write to a cell in front of `hi`, at most a lap from `lo`, leaves the held part alone. -/
theorem Holds.write {q : Nat} (h : Holds mem cap s lo hi) (hq : hi ≤ q) (hlap : q < lo + cap)
    (b : α) :
    Holds (Function.update mem (q % cap) b) cap s lo hi := by
  intro p h1 h2
  rw [Function.update_of_ne (slot_ne (by omega) (by omega))]
  exact h p h1 h2

/-- Taking `k` more positions into the stream with what their cells hold. -/
theorem Holds.extend (h : Holds mem cap s lo hi) (hlen : s.length = hi) (k : Nat) :
    Holds mem cap (s ++ (slots cap hi k).map mem) lo (hi + k) := by
  intro p h1 h2
  by_cases hp : p < hi
  · rw [List.getElem?_append_left (by omega)]
    exact h p h1 hp
  · rw [List.getElem?_append_right (by omega), hlen, List.getElem?_map,
      getElem?_slots (by omega)]
    have : hi + (p - hi) = p := by omega
    rw [this]
    rfl

/-- Reading the cells of a held stretch gives that stretch of the stream. -/
theorem Holds.read (h : Holds mem cap s lo hi) (hp : lo ≤ p) (hn : p + n ≤ hi) :
    (slots cap p n).map mem = (s.drop p).take n := by
  refine List.ext_getElem? fun j => ?_
  by_cases hj : j < n
  · rw [List.getElem?_map, getElem?_slots hj, List.getElem?_take_of_lt hj, List.getElem?_drop,
      h (p + j) (by omega) (by omega)]
    rfl
  · rw [List.getElem?_eq_none (by simp; omega), List.getElem?_eq_none]
    rw [List.length_take]
    omega

end CellRing
