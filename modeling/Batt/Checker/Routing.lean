/-
  Which hashes `find_shard` sends to a shard.

  The hash space is cut into pieces of `(2 ^ 64 - 1) / n`, rounded down, so the `n` pieces end at
  or below `2 ^ 64 - 1` and at least the largest hash is behind the last of them: its index is `n`
  or more, for every `n` (`last_hash_outside`). There `explore` has no shard to send the branch
  to. Every shard has hashes of its own, so the check in `pop_next` can succeed on each.
-/
import Batt.Checker.Model

namespace Batt.Checker

open Interleave

variable {St : Type} {K : Nat}

/-! ## The index of a hash -/

/-- `find_shard` of a branch with this hash. -/
def shardOf (shardCount : Nat) (branchHash : UInt64) : Nat :=
  branchHash.toNat / (maxU64 / shardCount)

def Mesh.branchHash (mesh : Mesh St) (b : Branch St K) : UInt64 := mesh.hash b.snapshot b.delta.live

theorem findShard_eq (mesh : Mesh St) (b : Branch St K) :
    mesh.findShard b = shardOf mesh.shardCount (mesh.branchHash b) := rfl

variable {n : Nat}

theorem pieces_pos (hn : 1 ≤ n) (hw : n ≤ maxU64) : 0 < maxU64 / n := Nat.div_pos hw hn

theorem shardOf_lt_iff (hn : 1 ≤ n) (hw : n ≤ maxU64) (h : UInt64) :
    shardOf n h < n ↔ h.toNat < n * (maxU64 / n) :=
  Nat.div_lt_iff_lt_mul (pieces_pos hn hw)

/-- The first hash of a piece. -/
theorem exists_shardOf (hn : 1 ≤ n) (hw : n ≤ maxU64) {i : Nat} (hi : i < n) :
    ∃ h : UInt64, shardOf n h = i := by
  have hfit : i * (maxU64 / n) < 2 ^ 64 := by
    have hall : n * (maxU64 / n) ≤ maxU64 := Nat.mul_div_le maxU64 n
    have hle : i * (maxU64 / n) ≤ n * (maxU64 / n) := Nat.mul_le_mul_right _ hi.le
    unfold maxU64 at hall hle ⊢
    omega
  refine ⟨UInt64.ofNat (i * (maxU64 / n)), ?_⟩
  unfold shardOf
  rw [UInt64.toNat_ofNat_of_lt' hfit, Nat.mul_div_cancel _ (pieces_pos hn hw)]

/-! ## Where branches go -/

variable [NeZero K]

/-- The arrays are as long as there are shards: `explore` has a step for the branch on each. -/
def Sendable (mesh : Mesh St) (b : Branch St K) : Prop :=
  ∀ (l : Local St K) (forceSend : Bool) (caller : ExploreCaller St K),
    l.shardI < mesh.shardCount → (explore mesh l b forceSend caller).isSome

theorem sendable_iff (mesh : Mesh St) (hpos : 1 ≤ mesh.shardCount) (b : Branch St K) :
    Sendable mesh b ↔ mesh.findShard b < mesh.shardCount := by
  constructor
  · intro h
    have hsome := h { shardI := 0, history := .new, sendQueues := [] } true .initial hpos
    unfold explore at hsome
    rw [if_neg (by simp)] at hsome
    by_contra hlt
    rw [if_neg hlt] at hsome
    cases hsome
  · intro hlt l forceSend caller hid
    unfold explore
    dsimp only
    rw [if_pos hlt]
    split <;> rfl

variable [DecidableEq St]

/-- `pop_next` takes a branch with this hash on shard `i`. -/
def Poppable (mesh : Mesh St) (m : StateMachineModel St) (i : Nat) (h : UInt64) : Prop :=
  ∀ (sh : Shared St K) (l : Local St K) (b : Branch St K) (rest : List (Branch St K)),
    l.shardI = i → l.pc = .popNext → l.queue = b :: rest → mesh.branchHash b = h →
      exec mesh m sh l = some (sh, enter m l b rest)

theorem poppable_of_shardOf {mesh : Mesh St} (m : StateMachineModel St) {i : Nat} {h : UInt64}
    (hi : shardOf mesh.shardCount h = i) : Poppable (K := K) mesh m i h := by
  intro sh l b rest hid hpc hqueue hhash
  unfold exec
  rw [hpc]
  dsimp only
  rw [hqueue]
  dsimp only
  rw [if_pos]
  rw [findShard_eq, hhash, hi, hid]

/-- **A branch has a shard if and only if its hash is below the end of the last piece.** Each
    shard has hashes of its own. -/
theorem findShard_inRange_iff (mesh : Mesh St) (m : StateMachineModel St)
    (hpos : 1 ≤ mesh.shardCount) (hword : mesh.shardCount ≤ maxU64) :
    (∀ b : Branch St K, (mesh.findShard b < mesh.shardCount ∧ Sendable mesh b) ↔
      (mesh.branchHash b).toNat < mesh.shardCount * (maxU64 / mesh.shardCount)) ∧
    ∀ i, i < mesh.shardCount →
      ∃ h, shardOf mesh.shardCount h = i ∧ Poppable (K := K) mesh m i h := by
  constructor
  · intro b
    rw [sendable_iff mesh hpos, and_self, findShard_eq]
    exact shardOf_lt_iff hpos hword _
  · intro i hi
    obtain ⟨h, hh⟩ := exists_shardOf hpos hword hi
    exact ⟨h, hh, poppable_of_shardOf m hh⟩

/-- Three shards, and a state with the largest hash. -/
def threeShards : Mesh Bool where
  shardCount := 3
  hash s _ := if s then 0xffffffffffffffff else 0
  maxLoopIterationsBetweenFlush := 16

theorem findShard_inRange_iff_three :
    (threeShards.findShard (.root false : Branch Bool 1) < 3 ∧
        Sendable threeShards (.root false : Branch Bool 1)) ∧
      ¬(threeShards.findShard (.root true : Branch Bool 1) < 3 ∧
        Sendable threeShards (.root true : Branch Bool 1)) ∧
      ∃ h, shardOf 3 h = 2 := by
  obtain ⟨hall, hown⟩ := findShard_inRange_iff (K := 1) threeShards
    ⟨false, id, fun s => .ret s, fun _ => true⟩ (by decide) (by decide)
  obtain ⟨h, hh, _⟩ := hown 2 (by decide)
  exact ⟨(hall _).mpr (by decide), fun hlast => absurd ((hall _).mp hlast) (by decide), h, hh⟩

/-- With one shard, a branch with the largest hash is sent to the shard behind it. -/
theorem findShard_outside_single :
    ∃ mesh : Mesh Bool, mesh.shardCount = 1 ∧ mesh.findShard (.root true : Branch Bool 1) = 1 ∧
      ¬Sendable mesh (.root true : Branch Bool 1) := by
  refine ⟨⟨1, fun _ _ => 0xffffffffffffffff, 16⟩, rfl, by decide, fun h => ?_⟩
  have hlt := (sendable_iff _ (by decide) _).mp h
  exact absurd hlt (by decide)

end Batt.Checker
