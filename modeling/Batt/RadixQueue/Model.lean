/-
  `batt::RadixQueue` (`radix_queue.hpp`): a queue of numbers, each with its own radix, packed
  into the 64-bit segments of a ring.

  `K` is `kQueueSize`. Where a `BATT_CHECK` fails, and where the source divides by zero, an
  operation is `none`. `live` are the segments in use, in order; `operator==` and `Hash` read
  these and nothing else.
-/
import Batt.Lib.Ring

namespace Batt

open CellRing

/-- `std::numeric_limits<u64>::max()`. -/
def maxU64 : Nat := 2 ^ 64 - 1

structure Segment where
  radix : Nat := 1
  value : Nat := 0
  deriving DecidableEq, Repr

structure RadixQueue (K : Nat) where
  frontIndex : Fin K
  backIndex : Fin K
  queue : Vector Segment K
  deriving DecidableEq, Repr

namespace RadixQueue

variable {K : Nat}

def new [NeZero K] : RadixQueue K where
  frontIndex := 0
  backIndex := 0
  queue := Vector.replicate K {}

def front (q : RadixQueue K) : Segment := q.queue[q.frontIndex]

def back (q : RadixQueue K) : Segment := q.queue[q.backIndex]

def setFront (q : RadixQueue K) (s : Segment) : RadixQueue K :=
  { q with queue := q.queue.set q.frontIndex s }

def setBack (q : RadixQueue K) (s : Segment) : RadixQueue K :=
  { q with queue := q.queue.set q.backIndex s }

def advanceIndex (i : Fin K) : Fin K := ⟨(i + 1) % K, Nat.mod_lt _ i.pos⟩

def queueSize (q : RadixQueue K) : Nat :=
  let upperBound :=
    if q.frontIndex ≤ q.backIndex then q.backIndex.val + 1 else K + q.backIndex.val + 1
  upperBound - q.frontIndex

def empty (q : RadixQueue K) : Bool := q.queueSize = 1 ∧ q.front.radix = 1

def full (q : RadixQueue K) : Bool := q.frontIndex = advanceIndex q.backIndex

def clear [NeZero K] (q : RadixQueue K) : RadixQueue K where
  frontIndex := 0
  backIndex := 0
  queue := q.queue.set 0 {} (Nat.pos_of_neZero K)

def popFront (q : RadixQueue K) : Option (RadixQueue K) :=
  if q.frontIndex ≠ q.backIndex then some { q with frontIndex := advanceIndex q.frontIndex }
  else none

def pushBack (q : RadixQueue K) : Option (RadixQueue K) :=
  if q.full then none
  else some { q with
    backIndex := advanceIndex q.backIndex
    queue := q.queue.set (advanceIndex q.backIndex) {} }

def push (q : RadixQueue K) (radix value : Nat) : Option (RadixQueue K) :=
  if radix > value then
    let wouldOverflow := maxU64 / q.back.radix < radix
    (if wouldOverflow then q.pushBack else some q).map fun q =>
      q.setBack
        { radix := q.back.radix * radix % 2 ^ 64
          value := (q.back.value + value * q.back.radix) % 2 ^ 64 }
  else none

/-- The value popped and the queue after it. -/
def pop (q : RadixQueue K) (radix : Nat) : Option (Nat × RadixQueue K) :=
  if radix = 0 then none
  else if radix ≤ q.front.radix then
    let s : Segment := { radix := q.front.radix / radix, value := q.front.value / radix }
    if s.value < s.radix then
      let popped := q.setFront s
      (if s.radix = 1 ∧ popped.queueSize > 1 then popped.popFront else some popped).map
        fun q' => (q.front.value % radix, q')
    else none
  else none

/-- The segment at position `i` of the ring. -/
def segment (q : RadixQueue K) (i : Nat) : Segment := q.queue[i]?.getD {}

def live (q : RadixQueue K) : List Segment :=
  (slots K q.frontIndex q.queueSize).map q.segment

/-! ## The ring of segments -/

theorem queueSize_pos (q : RadixQueue K) : 0 < q.queueSize := by
  have hf := q.frontIndex.isLt
  unfold queueSize
  simp only [Fin.le_def]
  split <;> omega

theorem queueSize_le (q : RadixQueue K) : q.queueSize ≤ K := by
  have hf := q.frontIndex.isLt
  have hb := q.backIndex.isLt
  unfold queueSize
  simp only [Fin.le_def]
  split <;> omega

/-- The back is the last of the segments in use. -/
theorem back_slot (q : RadixQueue K) :
    (q.frontIndex.val + (q.queueSize - 1)) % K = q.backIndex.val := by
  have hf := q.frontIndex.isLt
  have hb := q.backIndex.isLt
  unfold queueSize
  simp only [Fin.le_def]
  split
  · rw [Nat.mod_eq_of_lt (by omega)]
    omega
  · have h : q.frontIndex.val + (K + q.backIndex.val + 1 - q.frontIndex.val - 1) =
        q.backIndex.val + K := by omega
    rw [h, Nat.add_mod_right, Nat.mod_eq_of_lt hb]

theorem segment_frontIndex (q : RadixQueue K) : q.segment q.frontIndex = q.front := by
  simp [segment, front]

theorem segment_backIndex (q : RadixQueue K) : q.segment q.backIndex = q.back := by
  simp [segment, back]

@[simp] theorem length_live (q : RadixQueue K) : q.live.length = q.queueSize := by
  simp [live]

/-- The segments in use, from the front. -/
theorem live_eq_cons (q : RadixQueue K) :
    q.live = q.front :: (slots K (q.frontIndex + 1) (q.queueSize - 1)).map q.segment := by
  have hpos := q.queueSize_pos
  have hsize : q.queueSize = q.queueSize - 1 + 1 := by omega
  unfold live
  rw [hsize, slots_succ, List.map_cons, Nat.mod_eq_of_lt q.frontIndex.isLt, segment_frontIndex]
  rfl

/-- The segments in use, to the back. -/
theorem live_eq_concat (q : RadixQueue K) :
    q.live = (slots K q.frontIndex (q.queueSize - 1)).map q.segment ++ [q.back] := by
  have hpos := q.queueSize_pos
  have hsize : q.queueSize = q.queueSize - 1 + 1 := by omega
  unfold live
  rw [hsize, slots_append, List.map_append]
  congr 1
  rw [slots_succ, slots_zero, q.back_slot, List.map_singleton, segment_backIndex]

theorem segment_set_of_ne (q : RadixQueue K) {i : Fin K} {j : Nat} (s : Segment)
    (h : i.val ≠ j) : ({ q with queue := q.queue.set i s } : RadixQueue K).segment j =
      q.segment j := by
  simp [segment, h]

theorem live_setFront (q : RadixQueue K) (s : Segment) :
    (q.setFront s).live = s :: q.live.tail := by
  have hle := q.queueSize_le
  rw [live_eq_cons (q.setFront s), live_eq_cons q, List.tail_cons]
  refine congrArg₂ _ (by simp [front, setFront]) (List.map_congr_left fun j hj => ?_)
  obtain ⟨k, hk, rfl⟩ := mem_slots.mp hj
  have hk : k < q.queueSize - 1 := hk
  refine segment_set_of_ne q s ?_
  have hne : q.frontIndex.val % K ≠ (q.frontIndex.val + 1 + k) % K :=
    slot_ne (by omega) (by omega)
  rwa [Nat.mod_eq_of_lt q.frontIndex.isLt] at hne

theorem live_setBack (q : RadixQueue K) (s : Segment) :
    (q.setBack s).live = q.live.dropLast ++ [s] := by
  have hle := q.queueSize_le
  rw [live_eq_concat (q.setBack s), live_eq_concat q, List.dropLast_concat]
  refine congrArg₂ _ (List.map_congr_left fun j hj => ?_) (by simp [back, setBack])
  obtain ⟨k, hk, rfl⟩ := mem_slots.mp hj
  have hk : k < q.queueSize - 1 := hk
  refine segment_set_of_ne q s ?_
  show q.backIndex.val ≠ (q.frontIndex.val + k) % K
  rw [← q.back_slot]
  exact (slot_ne (by omega) (by omega)).symm

/-- Dropping the front segment takes more than one in use. -/
theorem live_popFront {q q' : RadixQueue K} (h : q.popFront = some q') :
    q'.live = q.live.tail := by
  have hf := q.frontIndex.isLt
  have hb := q.backIndex.isLt
  unfold popFront at h
  split at h <;> cases h
  rename_i hne
  have hval : q.frontIndex.val ≠ q.backIndex.val := fun e => hne (Fin.ext e)
  rw [live_eq_cons q, List.tail_cons]
  unfold live
  have hsize : ({ q with frontIndex := advanceIndex q.frontIndex } : RadixQueue K).queueSize =
      q.queueSize - 1 := by
    unfold queueSize advanceIndex
    simp only [Fin.le_def]
    by_cases hwrap : q.frontIndex.val + 1 = K
    · rw [hwrap, Nat.mod_self]
      split <;> split <;> omega
    · rw [Nat.mod_eq_of_lt (by omega)]
      split <;> split <;> omega
  rw [hsize]
  unfold slots
  simp only [List.map_map]
  refine List.map_congr_left fun j _ => ?_
  simp only [Function.comp_apply, advanceIndex, Nat.mod_add_mod]
  rfl

theorem popFront_isSome {q : RadixQueue K} (h : 1 < q.queueSize) : ∃ q', q.popFront = some q' := by
  unfold popFront
  rw [if_pos]
  · exact ⟨_, rfl⟩
  · intro he
    unfold queueSize at h
    simp [he] at h

theorem full_iff (q : RadixQueue K) : q.full = true ↔ q.queueSize = K := by
  have hf := q.frontIndex.isLt
  have hb := q.backIndex.isLt
  unfold full queueSize advanceIndex
  simp only [Fin.le_def, Fin.ext_iff, decide_eq_true_eq]
  by_cases hwrap : q.backIndex.val + 1 = K
  · rw [hwrap, Nat.mod_self]
    split <;> omega
  · rw [Nat.mod_eq_of_lt (by omega)]
    split <;> omega

theorem live_pushBack {q q' : RadixQueue K} (h : q.pushBack = some q') :
    q'.live = q.live ++ [⟨1, 0⟩] := by
  have hf := q.frontIndex.isLt
  have hb := q.backIndex.isLt
  have hle := q.queueSize_le
  have hpos := q.queueSize_pos
  unfold pushBack at h
  split at h <;> cases h
  rename_i hfull
  have hsize : q.queueSize ≠ K := fun e => hfull (q.full_iff.mpr e)
  have hadv : (advanceIndex q.backIndex).val = (q.frontIndex + q.queueSize) % K := by
    show (q.backIndex.val + 1) % K = _
    rw [← q.back_slot, Nat.mod_add_mod]
    congr 1
    omega
  set r : RadixQueue K := ⟨q.frontIndex, advanceIndex q.backIndex,
    q.queue.set (advanceIndex q.backIndex) {}⟩ with hr
  have hgrow : r.queueSize = q.queueSize + 1 := by
    unfold queueSize at hsize ⊢
    simp only [hr, Fin.le_def, advanceIndex] at hsize ⊢
    by_cases hwrap : q.backIndex.val + 1 = K
    · rw [hwrap, Nat.mod_self]
      split <;> split <;> simp_all <;> omega
    · rw [Nat.mod_eq_of_lt (by omega)]
      split <;> split <;> simp_all <;> omega
  rw [live_eq_concat r, hgrow, Nat.add_sub_cancel]
  refine congrArg₂ _ (List.map_congr_left fun j hj => ?_) (by simp [back, hr])
  obtain ⟨k, hk, rfl⟩ := mem_slots.mp hj
  refine segment_set_of_ne q _ ?_
  show (advanceIndex q.backIndex).val ≠ (q.frontIndex.val + k) % K
  rw [hadv]
  exact (slot_ne (by omega) (by omega)).symm

@[simp] theorem live_new [NeZero K] : (new : RadixQueue K).live = [⟨1, 0⟩] := by
  rw [live_eq_cons]
  simp [new, front, queueSize]

@[simp] theorem live_clear [NeZero K] (q : RadixQueue K) : q.clear.live = [⟨1, 0⟩] := by
  rw [live_eq_cons]
  simp [clear, front, queueSize]

/-- The queue is empty when one segment is in use and it holds nothing. -/
theorem empty_iff (q : RadixQueue K) : q.empty = true ↔ ∃ s, q.live = [s] ∧ s.radix = 1 := by
  have hpos := q.queueSize_pos
  unfold empty
  rw [decide_eq_true_eq]
  constructor
  · rintro ⟨hsize, hradix⟩
    exact ⟨q.front, by rw [live_eq_cons, hsize]; rfl, hradix⟩
  · rintro ⟨s, hs, hradix⟩
    have hlen := congrArg List.length hs
    rw [length_live] at hlen
    rw [live_eq_cons] at hs
    exact ⟨hlen, (List.cons.inj hs).1 ▸ hradix⟩

end RadixQueue

end Batt
