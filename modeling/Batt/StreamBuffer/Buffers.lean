/-
  The pieces of `buffer_` that `get_buffers` and `fetch_at_least` hand out, as positions of the
  stream: a buffer sequence of `count` bytes at `offset` is the cells of positions `offset` to
  `offset + count`, in order, whether it is in one piece, in two, or gathered.
-/
import Batt.StreamBuffer.Model

namespace Batt.StreamBuffer

open CellRing

theorem cells_cons (b : Buffer) (bs : List Buffer) : cells (b :: bs) = b.cells ++ cells bs := by
  simp [cells]

@[simp] theorem length_cells_ring (begin len : Nat) : (Buffer.ring begin len).cells.length = len := by
  simp [Buffer.cells]

@[simp] theorem length_cells_tmp (bytes : List UInt8) :
    (Buffer.tmp bytes).cells.length = bytes.length := by
  simp [Buffer.cells]

variable {count offset : Int}

/-- `get_buffers` returns one piece or two that meet at the end of the array. -/
theorem getBuffers_cases {capacity : Nat} {bs : List Buffer}
    (h : getBuffers capacity offset count = some bs) :
    0 ≤ offset ∧ 0 < capacity ∧ 0 ≤ count ∧
      ((offset.toNat % capacity + count.toNat ≤ capacity ∧
          bs = [.ring (offset.toNat % capacity) count.toNat]) ∨
        (∃ n, count.toNat = capacity - offset.toNat % capacity + n ∧
          bs = [.ring (offset.toNat % capacity) (capacity - offset.toNat % capacity),
            .ring 0 n])) := by
  unfold getBuffers at h
  split at h
  · cases h
  rename_i hoff
  split at h
  · cases h
  rename_i hcap
  have hmod := Nat.mod_lt offset.toNat (Nat.pos_of_ne_zero hcap)
  simp only at h
  split at h
  · rename_i hone
    split at h
    · cases h
    · rename_i hneg
      cases h
      exact ⟨by omega, by omega, by omega, .inl ⟨by omega, rfl⟩⟩
  · rename_i htwo
    cases h
    refine ⟨by omega, by omega, by omega,
      .inr ⟨(count - ((capacity - offset.toNat % capacity : Nat) : Int)).toNat, by omega, ?_⟩⟩
    rw [Int.toNat_natCast]

/-- What `get_buffers` hands out are the cells of `count` positions from `offset` on. -/
theorem getBuffers_cells {capacity : Nat} {bs : List Buffer}
    (h : getBuffers capacity offset count = some bs) (hfit : count ≤ capacity) :
    cells bs = (slots capacity offset.toNat count.toNat).map .ring := by
  obtain ⟨_, hcap, _, ⟨hle, rfl⟩ | ⟨n, hn, rfl⟩⟩ := getBuffers_cases h
  · rw [slots_eq_range' hle]
    simp [cells, Buffer.cells]
  · have hmod := Nat.mod_lt offset.toNat hcap
    rw [hn, slots_append, slots_wrap hcap (by omega), slots_eq_range' (by omega), List.map_append]
    simp [cells, Buffer.cells]

/-- A cell of the ring, or a copy of what was in it. -/
def SameByte (mem : Nat → UInt8) (c c' : Cell) : Prop := c' = c ∨ c' = .tmp (c.read mem)

theorem sameByte_refl (mem : Nat → UInt8) (cs : List Cell) : List.Forall₂ (SameByte mem) cs cs :=
  List.forall₂_same.mpr fun _ _ => .inl rfl

theorem sameByte_copy (mem : Nat → UInt8) (cs : List Cell) :
    List.Forall₂ (SameByte mem) cs ((cs.map (Cell.read mem)).map .tmp) := by
  rw [List.forall₂_map_right_iff, List.forall₂_map_right_iff]
  exact List.forall₂_same.mpr fun _ _ => .inr rfl

/-- Gathering `k` bytes of the back into the front changes no byte. -/
theorem gather_two (mem : Nat → UInt8) (first len k m : Nat) :
    List.Forall₂ (SameByte mem) (cells [.ring first len, .ring 0 (k + m)])
      (cells (.tmp (((cells [.ring first len, .ring 0 (k + m)]).map (Cell.read mem)).take (len + k)) ::
        if m = 0 then [] else [.ring k m])) := by
  have hall : cells [.ring first len, .ring 0 (k + m)] =
      ((List.range' first len).map .ring ++ (List.range' 0 k).map .ring) ++
        (List.range' k m).map .ring := by
    have hback := List.range'_append_1 (s := 0) (m := k) (n := m)
    rw [Nat.zero_add] at hback
    simp [cells, Buffer.cells, ← hback]
  have hrest : cells (if m = 0 then [] else [.ring k m]) = (List.range' k m).map .ring := by
    by_cases hm : m = 0
    · rw [if_pos hm, hm]
      rfl
    · rw [if_neg hm]
      simp [cells, Buffer.cells]
  rw [hall, cells_cons, hrest, List.map_append, List.take_left' (by simp)]
  exact List.rel_append (sameByte_copy mem _) (sameByte_refl mem _)

/-- The first buffer has `min_count` bytes after the gathering, and no byte has changed. -/
theorem gather_spec {mem : Nat → UInt8} {capacity minCount : Nat} {bs bs' : List Buffer}
    (hbs : getBuffers capacity offset count = some bs) (hmin : (minCount : Int) ≤ count)
    (h : gather mem minCount bs = some bs') :
    (∃ front rest, bs' = front :: rest ∧ minCount ≤ front.size) ∧
      List.Forall₂ (SameByte mem) (cells bs) (cells bs') := by
  obtain ⟨_, hcap, hpos, ⟨hle, rfl⟩ | ⟨n, hn, rfl⟩⟩ := getBuffers_cases hbs
  · cases h
    refine ⟨⟨_, _, rfl, ?_⟩, sameByte_refl mem _⟩
    simp only [Buffer.size]
    omega
  · generalize capacity - offset.toNat % capacity = len at *
    generalize offset.toNat % capacity = first at *
    unfold gather at h
    by_cases hlt : len < minCount
    · -- Here the front is too short, and the back has the missing bytes and `m` more.
      obtain ⟨k, rfl⟩ := Nat.exists_eq_add_of_lt hlt
      obtain ⟨m, rfl⟩ : ∃ m, n = k + 1 + m := ⟨n - (k + 1), by omega⟩
      have hsub : len + k + 1 - len = k + 1 := by omega
      have hmink : min (k + 1) (k + 1 + m) = k + 1 := by omega
      have hback : k + 1 + m - (k + 1) = m := by omega
      have hlen : (((cells [.ring first len, .ring 0 (k + 1 + m)]).map (Cell.read mem)).take
          (len + k + 1)).length = len + k + 1 := by
        simp [cells]
        omega
      simp only [Buffer.size, if_pos hlt, hsub, hmink, hback, if_pos hlen, Nat.zero_add] at h
      cases h
      refine ⟨⟨_, _, rfl, ?_⟩, gather_two mem first len (k + 1) m⟩
      simp only [Buffer.size]
      omega
    · have hsize : ¬ (Buffer.ring first len).size < minCount := hlt
      simp only [if_neg hsize] at h
      cases h
      exact ⟨⟨_, _, rfl, by simp only [Buffer.size]; omega⟩, sameByte_refl mem _⟩

end Batt.StreamBuffer
