/-
  The bits of `WatchAtomic::spin_state_`, one Boolean each, and what the words stored by
  `lock_observers`, `unlock_observers`, `async_wait`, `notify` and `close` do to them.
  After this file no proof looks at a mask again.
-/
import Batt.Watch.Model

namespace Batt.Watch

def locked (s : SpinState) : Bool := s.getLsbD 0
def isOpen (s : SpinState) : Bool := s.getLsbD 1
def waiting (s : SpinState) : Bool := s.getLsbD 2
def atEnd (s : SpinState) : Bool := s.getLsbD 3
def beforeEnd (s : SpinState) : Bool := s.getLsbD 4

/-! ## Tests -/

theorem and_kLocked (s : SpinState) : s &&& kLocked = if locked s then kLocked else 0 := by
  have h : kLocked = BitVec.twoPow 32 0 := by decide
  rw [h, BitVec.and_twoPow]
  rfl

theorem and_kOpen (s : SpinState) : s &&& kOpen = if isOpen s then kOpen else 0 := by
  have h : kOpen = BitVec.twoPow 32 1 := by decide
  rw [h, BitVec.and_twoPow]
  rfl

theorem and_kWaiting (s : SpinState) : s &&& kWaiting = if waiting s then kWaiting else 0 := by
  have h : kWaiting = BitVec.twoPow 32 2 := by decide
  rw [h, BitVec.and_twoPow]
  rfl

theorem and_kClosedAtEnd (s : SpinState) :
    s &&& kClosedAtEnd = if atEnd s then kClosedAtEnd else 0 := by
  have h : kClosedAtEnd = BitVec.twoPow 32 3 := by decide
  rw [h, BitVec.and_twoPow]
  rfl

theorem and_kClosedBeforeEnd (s : SpinState) :
    s &&& kClosedBeforeEnd = if beforeEnd s then kClosedBeforeEnd else 0 := by
  have h : kClosedBeforeEnd = BitVec.twoPow 32 4 := by decide
  rw [h, BitVec.and_twoPow]
  rfl

theorem and_kLocked_eq_zero (s : SpinState) : s &&& kLocked = 0 ↔ locked s = false := by
  rw [and_kLocked]
  cases locked s <;> decide

theorem and_kOpen_eq_zero (s : SpinState) : s &&& kOpen = 0 ↔ isOpen s = false := by
  rw [and_kOpen]
  cases isOpen s <;> decide

/-- The fast path of `notify`: nobody holds the lock and nobody waits. -/
theorem and_kLocked_kWaiting_eq_zero (s : SpinState) :
    s &&& (kLocked ||| kWaiting) = 0 ↔ locked s = false ∧ waiting s = false := by
  have h : s &&& (kLocked ||| kWaiting) = (s &&& kLocked) ||| (s &&& kWaiting) := by
    ext i
    simp [Bool.and_or_distrib_left]
  rw [h, and_kLocked, and_kWaiting]
  cases locked s <;> cases waiting s <;> decide

/-- `get_final_status` reads the two closed bits. -/
theorem finalStatus_eq (s : SpinState) :
    finalStatus s = if beforeEnd s && !atEnd s then .kClosedBeforeEndOfStream
      else if atEnd s && !beforeEnd s then .kEndOfStream else .kClosed := by
  have h : s &&& (kClosedAtEnd ||| kClosedBeforeEnd) =
      (s &&& kClosedAtEnd) ||| (s &&& kClosedBeforeEnd) := by
    ext i
    simp [Bool.and_or_distrib_left]
  unfold finalStatus
  rw [h, and_kClosedAtEnd, and_kClosedBeforeEnd]
  cases atEnd s <;> cases beforeEnd s <;> decide

/-! ## Stores -/

/-- `lock_observers` sets one bit. -/
@[simp] theorem bits_lock (s : SpinState) :
    locked (s ||| kLocked) = true ∧ isOpen (s ||| kLocked) = isOpen s ∧
      waiting (s ||| kLocked) = waiting s ∧ atEnd (s ||| kLocked) = atEnd s ∧
      beforeEnd (s ||| kLocked) = beforeEnd s := by
  simp [locked, isOpen, waiting, atEnd, beforeEnd, kLocked]

/-- `unlock_observers` clears one bit of the word it is given. -/
@[simp] theorem bits_unlock (s : SpinState) :
    locked (s &&& ~~~kLocked) = false ∧ isOpen (s &&& ~~~kLocked) = isOpen s ∧
      waiting (s &&& ~~~kLocked) = waiting s ∧ atEnd (s &&& ~~~kLocked) = atEnd s ∧
      beforeEnd (s &&& ~~~kLocked) = beforeEnd s := by
  simp [locked, isOpen, waiting, atEnd, beforeEnd, kLocked]

@[simp] theorem bits_setWaiting (s : SpinState) :
    isOpen (s ||| kWaiting) = isOpen s ∧ waiting (s ||| kWaiting) = true ∧
      atEnd (s ||| kWaiting) = atEnd s ∧ beforeEnd (s ||| kWaiting) = beforeEnd s := by
  simp [isOpen, waiting, atEnd, beforeEnd, kWaiting]

@[simp] theorem bits_clearWaiting (s : SpinState) :
    isOpen (s &&& ~~~kWaiting) = isOpen s ∧ waiting (s &&& ~~~kWaiting) = false ∧
      atEnd (s &&& ~~~kWaiting) = atEnd s ∧ beforeEnd (s &&& ~~~kWaiting) = beforeEnd s := by
  simp [isOpen, waiting, atEnd, beforeEnd, kWaiting]

/-- `close` clears `kOpen` and `kWaiting`; the first close chooses the closed bits and a
    later one keeps them. -/
@[simp] theorem bits_closedState (code : StatusCode) (s : SpinState) :
    isOpen (closedState code s) = false ∧ waiting (closedState code s) = false ∧
      atEnd (closedState code s) = (atEnd s || (isOpen s && decide (code = .kEndOfStream))) ∧
      beforeEnd (closedState code s) =
        (beforeEnd s || (isOpen s && decide (code = .kClosedBeforeEndOfStream))) := by
  unfold closedState
  rw [and_kOpen]
  cases hs : isOpen s <;> cases code <;>
    simp [isOpen, waiting, atEnd, beforeEnd, kOpen, kWaiting, kClosedAtEnd, kClosedBeforeEnd]

@[simp] theorem bits_kOpen : locked kOpen = false ∧ isOpen kOpen = true ∧
    waiting kOpen = false ∧ atEnd kOpen = false ∧ beforeEnd kOpen = false := by
  decide

end Batt.Watch
