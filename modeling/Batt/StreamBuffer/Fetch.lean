/-
  A call of `fetch_at_least`, from its first access to its return.

  `Fetches` says where such a call can be, and `steps` how many accesses it has still to make, apart
  from its wait. Every access but a wait that has nothing to wake it for brings the call nearer to
  its end, and while the positions are `i64` numbers no check on its way fails.
-/
import Batt.StreamBuffer.EndOfStream

namespace Batt.StreamBuffer

/-- The call is `fetch_at_least(n)`, or it is over. -/
def Fetches (capacity : Nat) (n : Int) : Pc → Prop
  | .idle => True
  | .minTarget t | .awaitTrue t _ | .awaitNotEqual t _ | .recheck t _ | .offset t
  | .sizeCommit t _ | .sizeConsume t _ _ | .finish (.buffers t _) => t = .fetchAtLeast n
  | .finish (.status code) => code = .kEndOfStream ∨ code = .kInvalidArgument ∧ capacity < n
  | _ => False

def Pc.steps : Pc → Nat
  | .idle => 10
  | .minTarget _ => 9
  | .awaitTrue _ _ => 8
  | .awaitNotEqual _ _ => 7
  | .recheck _ _ => 6
  | .offset _ => 5
  | .sizeCommit _ _ => 4
  | .sizeConsume _ _ _ => 3
  | .finish _ => 2
  | _ => 0

section

variable {sh sh' : Shared} {region region' : List Cell} {n : Int} {pc pc' : Pc}

theorem fetches_exec (hf : Fetches sh.capacity n pc)
    (h : exec sh region pc = some (sh', pc', region')) :
    sh' = sh ∧ Fetches sh.capacity n pc' ∧ pc'.steps < pc.steps := by
  cases pc with
  | minTarget t =>
    obtain rfl : t = .fetchAtLeast n := hf
    simp only [exec] at h
    split at h
    · rename_i hlarge
      cases h
      exact ⟨rfl, .inr ⟨rfl, hlarge⟩, by simp [Pc.steps]⟩
    · split at h <;> cases h
      exact ⟨rfl, rfl, by simp [Pc.steps]⟩
  | awaitTrue t target =>
    simp only [exec] at h
    split at h <;> cases h <;> exact ⟨rfl, hf, by simp [Pc.steps]⟩
  | awaitNotEqual t target =>
    obtain rfl : t = .fetchAtLeast n := hf
    simp only [exec, closeStatus, Transfer.side, ne_eq, not_true_eq_false, if_false] at h
    split at h <;> cases h
    exact ⟨rfl, rfl, by simp [Pc.steps]⟩
  | recheck t target =>
    obtain rfl : t = .fetchAtLeast n := hf
    simp only [exec] at h
    split at h <;> cases h
    · exact ⟨rfl, .inl rfl, by simp [Pc.steps]⟩
    · exact ⟨rfl, rfl, by simp [Pc.steps]⟩
  | offset t =>
    obtain rfl : t = .fetchAtLeast n := hf
    cases h
    exact ⟨rfl, rfl, by simp [Pc.steps]⟩
  | sizeCommit t offset =>
    cases h
    exact ⟨rfl, hf, by simp [Pc.steps]⟩
  | sizeConsume t offset commitPos =>
    obtain rfl : t = .fetchAtLeast n := hf
    simp only [exec, deliver, Option.map_map] at h
    rw [ite_eq_iff] at h
    rcases h with ⟨_, h⟩ | ⟨_, h⟩
    · obtain ⟨bs, _, hbs⟩ := Option.bind_eq_some_iff.mp h
      obtain ⟨r, _, hr⟩ := Option.map_eq_some_iff.mp hbs
      cases hr
      exact ⟨rfl, rfl, by simp [Pc.steps]⟩
    · cases h
  | idle | finish => cases h
  | _ => exact hf.elim

/-- `get_buffers` has one piece or two for bytes that are there. -/
theorem exists_getBuffers {capacity : Nat} {offset count : Int} (hoff : 0 ≤ offset)
    (hcap : 0 < capacity) (hcount : 0 ≤ count) : ∃ bs, getBuffers capacity offset count = some bs := by
  unfold getBuffers
  rw [if_neg (by omega), if_neg (by omega)]
  dsimp only
  split
  · exact ⟨_, if_neg (by omega)⟩
  · exact ⟨_, rfl⟩

/-- The gathering finds the bytes it needs. -/
theorem exists_gather {mem : Nat → UInt8} {capacity minCount : Nat} {offset count : Int}
    {bs : List Buffer} (hbs : getBuffers capacity offset count = some bs)
    (hmin : (minCount : Int) ≤ count) : ∃ bs', gather mem minCount bs = some bs' := by
  obtain ⟨_, _, _, ⟨_, rfl⟩ | ⟨k, hk, rfl⟩⟩ := getBuffers_cases hbs
  · exact ⟨_, rfl⟩
  · unfold gather
    dsimp only
    split
    · refine ⟨_, if_pos ?_⟩
      simp only [cells_cons, List.length_take, List.length_map, List.length_append,
        length_cells_ring]
      simp only [cells, List.flatMap_nil, List.length_nil]
      omega
    · exact ⟨_, rfl⟩

/-- A call that is under way has a next access, unless it waits for bytes of a stream that is open. -/
theorem exists_exec (st : Stream sh) (hn : 1 ≤ n)
    (hroom : sh.consumePos.value + sh.capacity < 2 ^ 63) (hok : PcOk sh .consumer region pc)
    (hf : Fetches sh.capacity n pc) (hidle : pc ≠ .idle) (hbusy : ∀ ret, pc ≠ .finish ret)
    (hwait : ∀ t target, pc = .awaitNotEqual t target → sh.commitPos.closed = true) :
    ∃ r, exec sh region pc = some r := by
  have hconsume := st.consume
  cases pc with
  | minTarget t =>
    obtain rfl : t = .fetchAtLeast n := hf
    simp only [exec]
    split
    · exact ⟨_, rfl⟩
    · rename_i hfits
      refine ⟨_, if_pos ?_⟩
      simp only [Transfer.minCount, Transfer.minDelta, Transfer.side, Shared.fixedPos] at hfits ⊢
      simp only [inI64, Bool.and_eq_true, decide_eq_true_eq]
      omega
  | awaitTrue t target =>
    simp only [exec]
    split <;> exact ⟨_, rfl⟩
  | awaitNotEqual t target =>
    obtain rfl : t = .fetchAtLeast n := hf
    exact ⟨_, (if_pos (hwait _ _ rfl)).trans rfl⟩
  | recheck t target =>
    simp only [exec]
    split <;> exact ⟨_, rfl⟩
  | offset t =>
    obtain rfl : t = .fetchAtLeast n := hf
    exact ⟨_, rfl⟩
  | sizeCommit t offset => exact ⟨_, rfl⟩
  | sizeConsume t offset commitPos =>
    obtain rfl : t = .fetchAtLeast n := hf
    obtain ⟨_, henough, hoffset, _, hmin⟩ := hok
    dsimp only [Transfer.minCount, Shared.fixedPos] at hmin hoffset
    have hcap : n ≤ sh.capacity := henough.1
    have hsize : n ≤ commitPos - sh.consumePos.value := by omega
    obtain ⟨bs, hbs⟩ : ∃ bs, getBuffers sh.capacity offset (commitPos - sh.consumePos.value) =
        some bs := exists_getBuffers (by omega) (by omega) (by omega)
    obtain ⟨bs', hbs'⟩ : ∃ bs', gather sh.mem n.toNat bs = some bs' :=
      exists_gather hbs (by omega)
    refine ⟨(sh, .finish (.buffers (.fetchAtLeast n) bs'), cells bs'), ?_⟩
    have hdeliver : deliver sh region bs (.fetchAtLeast n) =
        some (.finish (.buffers (.fetchAtLeast n) bs'), cells bs') := by
      rw [deliver, hbs']
      rfl
    have hpos : 0 ≤ commitPos - sh.consumePos.value := by omega
    refine (if_pos ⟨hpos, hpos⟩).trans ?_
    show (getBuffers sh.capacity offset (commitPos - sh.consumePos.value)).bind _ = _
    rw [hbs, Option.bind_some, hdeliver]
    rfl
  | idle => exact absurd rfl hidle
  | finish ret => exact absurd rfl (hbusy ret)
  | _ => exact hf.elim

end

end Batt.StreamBuffer
