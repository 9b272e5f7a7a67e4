/-
  Parallel model checking agrees with one shard.

  Where all shards return with `ok`, they have together visited the reachable states and taken
  up every branch of each, once, and so has a run on one shard. What is left is that
  `check_model` puts the results together: it does so for up to 64 shards.
-/
import Batt.Checker.Alone
import Batt.Checker.Single
import Batt.Checker.Merge

namespace Batt.Checker

open Interleave Choice

variable {St : Type} {K : Nat} [NeZero K] [DecidableEq St] {l : Local Unit 1} {sh : Shared Unit 1}

/-! ## The result of all shards -/

section

variable {mesh : Mesh St} {m : StateMachineModel St} {c : Conf (Shared St K) (Local St K)}

theorem checkModel_of_le (hr : (machine mesh m).Reachable (initial mesh) c)
    (hn : 0 < mesh.shardCount) (hok : AllOk c) (hle : mesh.shardCount ≤ 64) :
    ∃ r visited, checkModel c = some (r, visited) ∧ r.ok = true ∧
      (∀ x, x ∈ visited ↔ ∃ l ∈ c.locals, x ∈ l.visited) ∧ visited.Nodup ∧
      r.stateCount = visited.length ∧
      r.branchPopCount = total (fun l => l.result.branchPopCount) c.locals := by
  have hs := sound_reachable hr
  have hlen := hs.basic.shards
  unfold checkModel
  split
  · -- one shard, whose result is returned as it is
    rename_i l hl
    have hmem : l ∈ c.locals := by rw [hl]; simp
    have hone : mesh.shardCount = 1 := by
      rw [← hlen, hl]
      rfl
    refine ⟨l.result, l.visited, rfl, (hok l hmem).2, by rw [hl]; simp, (hs.held l hmem).nodup,
      stateCount_eq hone hr hl (hok l hmem).1 (hok l hmem).2, ?_⟩
    rw [hl, total_cons, total_nil, Nat.add_zero]
  · have hnodup : ∀ r ∈ c.locals.map fun l => (⟨l.result, 0, l.visited⟩ : ShardResult St),
        r.visited.Nodup := by
      intro r hr
      obtain ⟨l, hl, rfl⟩ := List.mem_map.mp hr
      exact (hs.held l hl).nodup
    obtain ⟨r, hcovers, hmerge⟩ := merge_covers (by simpa [hlen] using hn)
      (by simpa [hlen] using hle) hnodup
    refine ⟨_, _, hmerge, ?_, ?_, hcovers.nodup, rfl, ?_⟩
    · simp only [hcovers.ok, List.all_map, List.all_eq_true, Function.comp]
      exact fun l hl => (hok l hl).2
    · intro x
      rw [hcovers.visited]
      constructor
      · rintro ⟨s, hs, hx⟩
        obtain ⟨l, hl, rfl⟩ := List.mem_map.mp hs
        exact ⟨l, hl, hx⟩
      · rintro ⟨l, hl, hx⟩
        exact ⟨_, List.mem_map_of_mem hl, hx⟩
    · simp only [hcovers.popped, List.map_map]
      rfl

theorem checkModel_none (hr : (machine mesh m).Reachable (initial mesh) c)
    (hgt : 64 < mesh.shardCount) : checkModel c = none := by
  have hlen := (basic_reachable hr).shards
  unfold checkModel
  split
  · rename_i l hl
    rw [hl] at hlen
    simp at hlen
    omega
  · exact merge_none (by simpa [hlen] using hgt)

/-- One shard has taken the branch up, once, and no other has. -/
def ExpandedOnce (c : Conf (Shared St K) (Local St K)) (κ : St × List Digit) : Prop :=
  ∃ (i : Nat) (l : Local St K), c.locals[i]? = some l ∧ l.entered.count κ = 1 ∧
    ∀ (j : Nat) (k : Local St K), j ≠ i → c.locals[j]? = some k → κ ∉ k.entered

omit [NeZero K] in
theorem expandedOnce_of_taken {κ : St × List Digit} (h : taken κ c = 1) : ExpandedOnce c κ := by
  obtain ⟨l, hl, hmem⟩ := exists_of_taken (show 0 < taken κ c by omega)
  obtain ⟨i, hi⟩ := List.mem_iff_getElem?.mp hl
  have hpos := List.count_pos_iff.mpr hmem
  have hothers := others_zero (f := fun l : Local St K => l.entered.count κ) h.le hi hpos
  have hle : l.entered.count κ ≤ taken κ c :=
    le_total (fun l : Local St K => l.entered.count κ) hl
  refine ⟨i, l, hi, by omega, fun j k hji hj => ?_⟩
  exact List.count_eq_zero.mp (hothers j k hji hj)

/-- All branches that were taken up, shard by shard. -/
def allEntered (c : Conf (Shared St K) (Local St K)) : List (St × List Digit) :=
  c.locals.flatMap fun l => l.entered

omit [NeZero K] in
theorem count_allEntered (κ : St × List Digit) : (allEntered c).count κ = taken κ c := by
  unfold allEntered taken total
  rw [List.count_flatMap]
  rfl

/-- A branch of a reachable state is taken up once, and nothing else is. -/
theorem Settled.taken_eq (h : Settled mesh m c) (κ : St × List Digit) :
    taken κ c = open Classical in if m.Reach κ.1 ∧ IsBranch (m.step κ.1) κ.2 then 1 else 0 := by
  split
  · rename_i hκ
    exact h.taken_branch (h.arrives hκ.1) hκ.2
  · rename_i hκ
    by_contra hne
    obtain ⟨l, hl, hmem⟩ := exists_of_taken (Nat.pos_of_ne_zero hne)
    obtain ⟨hreach, hbranch, _⟩ := (h.explored.sound.held l hl).entered κ hmem
    exact hκ ⟨hreach, hbranch⟩

theorem Settled.popped (h : Settled mesh m c) (hr : (machine mesh m).Reachable (initial mesh) c) :
    total (fun l => l.result.branchPopCount) c.locals = (allEntered c).length := by
  unfold allEntered
  rw [List.length_flatMap]
  refine congrArg List.sum (List.map_congr_left fun l hl => ?_)
  have hpopped := (honest_reachable hr l hl).popped
  have hpopped : l.result.branchPopCount = l.entered.length + l.rejected.length := hpopped
  rw [hpopped, h.rejected l hl]
  rfl

end

/-! ## Agreement with one shard -/

/-- `check_model` on the shards of `c` returns what the single shard `l₁` returned, and the
    shards have shared the branches out among them. -/
def Agrees (m : StateMachineModel St) (c : Conf (Shared St K) (Local St K)) (l₁ : Local St K) :
    Prop :=
  (∃ r visited, checkModel c = some (r, visited) ∧ r.ok = l₁.result.ok ∧
    (∀ x, x ∈ visited ↔ x ∈ l₁.visited) ∧ r.stateCount = l₁.result.stateCount ∧
    r.branchPopCount = l₁.result.branchPopCount) ∧
  (∀ x ds, m.Reach x → IsBranch (m.step x) ds → ExpandedOnce c (x, ds)) ∧
  ∀ l ∈ c.locals, ∀ κ ∈ l.entered, m.Reach κ.1 ∧ IsBranch (m.step κ.1) κ.2

/-- **Parallel model checking agrees with one shard** if and only if there are at most 64
    shards: for every model, every number of shards and every schedule in which all shards
    return with `ok`. -/
theorem parallel_agrees (mesh single : Mesh St) (m : StateMachineModel St)
    (c c₁ : Conf (Shared St K) (Local St K)) (l₁ : Local St K) (hn : 0 < mesh.shardCount)
    (hr : (machine mesh m).Reachable (initial mesh) c) (hok : AllOk c)
    (hone : single.shardCount = 1) (hr₁ : (machine single m).Reachable (initial single) c₁)
    (hl₁ : c₁.locals = [l₁]) (hret : l₁.pc = .returned) :
    Agrees m c l₁ ↔ mesh.shardCount ≤ 64 := by
  have hsettled := settled_of_allOk hr hn hok
  have hok₁ : l₁.result.ok = true :=
    (ok_iff_checksHold hone hr₁ hl₁ hret).mpr hsettled.checksHold
  have hsettled₁ : Settled single m c₁ := settled_of_allOk hr₁ (by omega) fun k hk => by
    rw [hl₁] at hk
    rw [List.mem_singleton.mp hk]
    exact ⟨hret, hok₁⟩
  constructor
  · rintro ⟨⟨r, visited, hmodel, _⟩, _⟩
    by_contra hgt
    rw [checkModel_none hr (by omega)] at hmodel
    cases hmodel
  · intro hle
    obtain ⟨r, visited, hmodel, hrok, hvisited, hnodup, hcount, hpopped⟩ :=
      checkModel_of_le hr hn hok hle
    have hmem₁ : l₁ ∈ c₁.locals := by rw [hl₁]; simp
    have hsame : ∀ x, x ∈ visited ↔ x ∈ l₁.visited := by
      intro x
      rw [hvisited, hsettled.visited_iff, ← hsettled₁.visited_iff, hl₁]
      simp
    refine ⟨⟨r, visited, hmodel, by rw [hrok, hok₁], hsame, ?_, ?_⟩, ?_, ?_⟩
    · rw [hcount, stateCount_eq hone hr₁ hl₁ hret hok₁]
      have hnodup₁ : l₁.visited.Nodup := (hsettled₁.explored.sound.held l₁ hmem₁).nodup
      exact ((List.perm_ext_iff_of_nodup hnodup hnodup₁).mpr hsame).length_eq
    · have hperm : (allEntered c).Perm (allEntered c₁) := by
        refine List.perm_iff_count.mpr fun κ => ?_
        rw [count_allEntered, count_allEntered, hsettled.taken_eq, hsettled₁.taken_eq]
      have hpopped₁ := hsettled₁.popped hr₁
      rw [hl₁, total_cons, total_nil, Nat.add_zero] at hpopped₁
      rw [hpopped, hsettled.popped hr, hperm.length_eq, hpopped₁]
    · intro x ds hx hds
      exact expandedOnce_of_taken (hsettled.taken_branch (hsettled.arrives hx) hds)
    · intro l hl κ hκ
      obtain ⟨hreach, hbranch, _⟩ := (hsettled.explored.sound.held l hl).entered κ hκ
      exact ⟨hreach, hbranch⟩

/-! ## Two shards, and sixty-five -/

/-- Both shards on `toggle`, up to their return. -/
def toggleDone : List (Nat × Act) :=
  toggleAck ++ List.replicate 16 (0, Act.run) ++ List.replicate 9 (1, Act.run)

set_option maxRecDepth 3000 in
theorem parallel_agrees_toggle :
    ∃ (c c₁ : Conf (Shared Bool 1) (Local Bool 1)) (l₁ : Local Bool 1),
      (machine twoShards toggle).run toggleDone (initial twoShards) = some c ∧ AllOk c ∧
      (machine oneShard toggle).run (List.replicate 53 (0, .run)) (initial oneShard) = some c₁ ∧
      c₁.locals = [l₁] ∧ l₁.pc = .returned ∧ Agrees toggle c l₁ := by
  have hrun : ((machine twoShards toggle).run toggleDone
      (initial twoShards : Conf (Shared Bool 1) (Local Bool 1))).map
        (fun c => c.locals.all Local.returnedOk) = some true := by
    decide
  obtain ⟨c, hc, hall⟩ := Option.map_eq_some_iff.mp hrun
  have hrun₁ : ((machine oneShard toggle).run (List.replicate 53 (0, .run))
      (initial oneShard : Conf (Shared Bool 1) (Local Bool 1))).map
        (fun c => c.locals.all Local.returnedOk) = some true := by
    decide
  obtain ⟨c₁, hc₁, hall₁⟩ := Option.map_eq_some_iff.mp hrun₁
  obtain ⟨l₁, hl₁⟩ := List.length_eq_one_iff.mp (basic_reachable ⟨_, hc₁⟩).shards
  have hret := (allOk_of_all hall₁ l₁ (by rw [hl₁]; simp)).1
  exact ⟨c, c₁, l₁, hc, allOk_of_all hall, hc₁, hl₁, hret,
    (parallel_agrees twoShards oneShard toggle c c₁ l₁ (by decide) ⟨_, hc⟩ (allOk_of_all hall) rfl
      ⟨_, hc₁⟩ hl₁ hret).mpr (by decide)⟩

/-- A machine that stays where it is. -/
def still : StateMachineModel Unit where
  initialState := ()
  normalize := id
  step s := .ret s
  checkInvariants _ := true

/-- All branches belong to the first of 65 shards. -/
def manyShards : Mesh Unit where
  shardCount := 65
  hash _ _ := 0
  maxLoopIterationsBetweenFlush := 16

/-- All shards up to the barrier; all but the first until they wait; the first to its end; the
    others to theirs. -/
def stillDone : List (Nat × Nat) :=
  (List.range 65).map (·, 73) ++ (List.range' 1 64).map (·, 139) ++ [(0, 603)] ++
    (List.range' 1 64).map (·, 135)

/-- The queues when `i` shards have sent the initial state to the first. -/
def seeded (i : Nat) : List (RecvQueue Unit 1) :=
  ⟨List.replicate i [.root ()], i, false⟩ :: List.replicate 64 {}

/-- A shard on its way to the barrier. -/
def seeding (i : Nat) (r : Result) (pc : Pc Unit 1) : Local Unit 1 :=
  { shardI := i, history := .new, result := r, pc := pc, sendQueues := List.replicate 65 [] }

theorem findShard_root : manyShards.findShard (.root () : Branch Unit 1) = 0 := by decide

theorem explore_root (i : Nat) : ∃ r,
    explore manyShards (seeding i {} .init) (.root ()) true .initial =
      some { seeding i r (.sendStalled 0 .initial) with
        sendQueues := [.root ()] :: List.replicate 64 [] } := by
  unfold explore
  simp only [findShard_root, Bool.true_eq_false, and_false, if_false]
  exact ⟨_, rfl⟩

/-- The shared store when `i` shards have come to the barrier. -/
def Arrived (i : Nat) (sh : Shared Unit 1) : Prop :=
  sh = ⟨i, seeded i, fun _ _ => false, 65 - i, []⟩

/-- The shared store when all shards have come to the barrier, and none has received anything. -/
def AllArrived (sh : Shared Unit 1) : Prop := ∃ stalled, sh = ⟨65, seeded 65, stalled, 0, []⟩

def AtBarrier (i : Nat) (l : Local Unit 1) : Prop := ∃ r, l = seeding i r .barrierAwait

theorem alone_seed {i : Nat} (hsh : Arrived i sh) (hl : l = seeding i {} .init)
    :
    ∃ sh' l', (machine manyShards still).alone .run 73 (sh, l) = some (sh', l') ∧
      Arrived (i + 1) sh' ∧ AtBarrier i l' := by
  obtain ⟨r, hr⟩ := explore_root i
  have hinit : exec manyShards still sh l = some (⟨i, seeded i, fun _ _ => false, 65 - i, []⟩,
      { seeding i r (.sendStalled 0 .initial) with
        sendQueues := [.root ()] :: List.replicate 64 [] }) := by
    rw [hsh, hl]
    exact congrArg (Option.map _) hr
  have hpush : (machine manyShards still).alone .run 6
      (⟨i, seeded i, fun _ _ => false, 65 - i, []⟩, { seeding i r (.sendStalled 0 .initial) with
        sendQueues := [.root ()] :: List.replicate 64 [] }) =
      some (⟨(i + 1 : Nat), seeded (i + 1), fun _ _ => false, 65 - i, []⟩,
        seeding i r (.flushAll 1 .start)) := by
    rw [show seeded (i + 1) = ⟨List.replicate i [.root ()] ++ [[.root ()]], i + 1, false⟩ ::
      List.replicate 64 {} by rw [seeded, List.replicate_succ']]
    rfl
  have hflush : (machine manyShards still).alone .run 65
      (⟨(i + 1 : Nat), seeded (i + 1), fun _ _ => false, 65 - i, []⟩,
        seeding i r (.flushAll 1 .start)) =
      some (⟨(i + 1 : Nat), seeded (i + 1), fun _ _ => false, 65 - i, []⟩,
        seeding i r .barrierSub) :=
    alone_flushAll (l := seeding i r _) rfl rfl
  have hsub : exec manyShards still
      ⟨(i + 1 : Nat), seeded (i + 1), fun _ _ => false, 65 - i, []⟩ (seeding i r .barrierSub) =
      some (⟨(i + 1 : Nat), seeded (i + 1), fun _ _ => false, 65 - (i + 1), []⟩,
        seeding i r .barrierAwait) := rfl
  exact ⟨_, _, Machine.alone_trans (Machine.alone_trans (Machine.alone_trans
    (alone_exec hinit 0) hpush) hflush) (alone_exec hsub 0), rfl, r, rfl⟩

/-- A shard that waits for an update of its queue, and has found nothing wrong. -/
structure Asleep (i : Nat) (l : Local Unit 1) : Prop where
  shardI : l.shardI = i
  pc : l.pc = .awaitUpdate
  buffers : l.sendQueues = List.replicate 65 []
  ok : l.result.ok = true

theorem alone_sleep {i : Nat} (hsh : AllArrived sh) (hl : 0 < i ∧ i < 65 ∧ AtBarrier i l) :
    ∃ sh' l', (machine manyShards still).alone .run 139 (sh, l) = some (sh', l') ∧
      AllArrived sh' ∧ Asleep i l' := by
  obtain ⟨stalled, rfl⟩ := hsh
  obtain ⟨hpos, hlt, r, rfl⟩ := hl
  have hown : (seeded 65)[i]? = some {} := by
    obtain ⟨j, rfl⟩ : ∃ j, i = j + 1 := ⟨i - 1, by omega⟩
    rw [seeded, List.getElem?_cons_succ, List.getElem?_replicate_of_lt (by omega)]
  let r' : Result := { r with ok := true, stateCount := 1 }
  have hbegin : (machine manyShards still).alone .run 4
      (⟨65, seeded 65, stalled, 0, []⟩, seeding i r .barrierAwait) =
        some (⟨65, seeded 65, stalled, 0, []⟩, seeding i r' .tryAcquire) := rfl
  have hacquire : exec manyShards still ⟨65, seeded 65, stalled, 0, []⟩ (seeding i r' .tryAcquire) =
      some (⟨65, seeded 65, stalled, 0, []⟩, seeding i r' (.setStalled 0)) := by
    show (seeded 65)[i]?.bind _ = _
    rw [hown]
    rfl
  obtain ⟨stalled', hrecv⟩ : ∃ stalled', (machine manyShards still).alone .run 132
      (⟨65, seeded 65, stalled, 0, []⟩, seeding i r' (.setStalled 0)) =
        some (⟨65, seeded 65, stalled', 0, []⟩, seeding i r' .ack) :=
    alone_recv (l := seeding i r' _) rfl rfl
  have hack : exec manyShards still ⟨65, seeded 65, stalled', 0, []⟩ (seeding i r' .ack) =
      some (⟨65, seeded 65, stalled', 0, []⟩, seeding i r' .awaitNext) := rfl
  have hawait : exec manyShards still ⟨65, seeded 65, stalled', 0, []⟩ (seeding i r' .awaitNext) =
      some (⟨65, seeded 65, stalled', 0, []⟩, seeding i r' .awaitUpdate) := by
    show (seeded 65)[i]?.bind _ = _
    rw [hown]
    rfl
  exact ⟨_, _, Machine.alone_trans (Machine.alone_trans (Machine.alone_trans (Machine.alone_trans
    hbegin (alone_exec hacquire 0)) hrecv) (alone_exec hack 0)) (alone_exec hawait 0),
    ⟨stalled', rfl⟩, ⟨rfl, rfl, rfl, rfl⟩⟩

/-- The first shard takes the branches of the others and has seen the state already. -/
theorem alone_receive {k : Nat} (rest : List (RecvQueue Unit 1)) (stalled : Nat → Nat → Bool)
    (hid : l.shardI = 0) (hpc : l.pc = .tryAcquire) (hqueue : l.queue = [])
    (hvisited : l.visited = [()]) :
    (machine manyShards still).alone .run (3 * k)
      (⟨65, ⟨List.replicate k [.root ()], k, false⟩ :: rest, stalled, 0, []⟩, l) =
    some (⟨65, ⟨[], 0, false⟩ :: rest, stalled, 0, []⟩,
      { l with localConsumeCount := l.localConsumeCount + k }) := by
  induction k generalizing l with
  | zero => rfl
  | succ k ih =>
    have hround : (machine manyShards still).alone .run 3
        (⟨65, ⟨List.replicate (k + 1) [.root ()], k + 1, false⟩ :: rest, stalled, 0, []⟩, l) =
        some (⟨65, ⟨List.replicate k [.root ()], k, false⟩ :: rest, stalled, 0, []⟩,
          { l with localConsumeCount := l.localConsumeCount + 1 }) := by
      obtain ⟨shardI, pc, queue, visited, history, chosen, result, loopCounter, sendQueues,
        localConsumeCount, entered, rejected, executed⟩ := l
      simp only at hid hpc hqueue hvisited
      subst hid hpc hqueue hvisited
      rfl
    rw [show 3 * (k + 1) = 3 + 3 * k by omega]
    have hrest := ih (l := { l with localConsumeCount := l.localConsumeCount + 1 }) hid hpc hqueue
      hvisited
    rw [show l.localConsumeCount + (k + 1) = l.localConsumeCount + 1 + k by omega]
    exact Machine.alone_trans hround hrest

/-- All queues are closed, and they are empty. -/
def Closed (sh : Shared Unit 1) : Prop :=
  sh.recvQueues.length = 65 ∧ ∀ q ∈ sh.recvQueues, q.pendingCount = 0 ∧ q.closed = true

def Local.Ended (l : Local Unit 1) : Prop := l.pc = .returned ∧ l.result.ok = true

theorem alone_finish {i : Nat} (hsh : Closed sh) (hl : i < 65 ∧ Asleep i l) :
    ∃ sh' l', (machine manyShards still).alone .run 135 (sh, l) = some (sh', l') ∧
      Closed sh' ∧ l'.Ended := by
  obtain ⟨hlt, hid, hpc, hbuffers, hok⟩ := hl
  have hinRange : l.shardI < sh.recvQueues.length := by
    rw [hid, hsh.1]
    exact hlt
  obtain ⟨stalled, hfinished⟩ : ∃ stalled, (machine manyShards still).alone .run 135 (sh, l) =
      some ({ sh with stalled := stalled }, { l with pc := .returned }) :=
    alone_finished hbuffers hinRange hsh.2 hpc
  exact ⟨_, _, hfinished, hsh, rfl, hok⟩

theorem alone_first (hsh : AllArrived sh) (hl : AtBarrier 0 l) :
    ∃ sh' l', (machine manyShards still).alone .run 603 (sh, l) = some (sh', l') ∧
      Closed sh' ∧ l'.Ended := by
  obtain ⟨stalled, rfl⟩ := hsh
  obtain ⟨r, rfl⟩ := hl
  -- up to the first `recv`, and back from the execution of the branch received
  obtain ⟨l, hbegin, hid, hpc, hqueue, hvisited, hbuffers, hcount, hok⟩ : ∃ l,
      (machine manyShards still).alone .run 10
        (⟨65, seeded 65, stalled, 0, []⟩, seeding 0 r .barrierAwait) =
        some (⟨65, ⟨List.replicate 64 [.root ()], 64, false⟩ :: List.replicate 64 {}, stalled, 0,
          []⟩, l) ∧ l.shardI = 0 ∧ l.pc = .tryAcquire ∧ l.queue = [] ∧ l.visited = [()] ∧
        l.sendQueues = List.replicate 65 [] ∧ l.localConsumeCount = 1 ∧ l.result.ok = true :=
    ⟨_, rfl, rfl, rfl, rfl, rfl, rfl, rfl, rfl⟩
  have hreceive := alone_receive (k := 64) (List.replicate 64 {}) stalled hid hpc hqueue hvisited
  have hacquire : exec manyShards still
      ⟨65, ⟨[], 0, false⟩ :: List.replicate 64 {}, stalled, 0, []⟩
      { l with localConsumeCount := l.localConsumeCount + 64 } =
      some (⟨65, ⟨[], 0, false⟩ :: List.replicate 64 {}, stalled, 0, []⟩,
        { l with localConsumeCount := l.localConsumeCount + 64, pc := .setStalled 0 }) := by
    simp only [exec, hpc, hid]
    rfl
  obtain ⟨stalled', hrecv⟩ : ∃ stalled', (machine manyShards still).alone .run 132
      (⟨65, ⟨[], 0, false⟩ :: List.replicate 64 {}, stalled, 0, []⟩,
        { l with localConsumeCount := l.localConsumeCount + 64, pc := .setStalled 0 }) =
        some (⟨65, ⟨[], 0, false⟩ :: List.replicate 64 {}, stalled', 0, []⟩,
          { l with localConsumeCount := l.localConsumeCount + 64, pc := .ack }) :=
    alone_recv (l := { l with localConsumeCount := l.localConsumeCount + 64, pc := .setStalled 0 })
      hbuffers rfl
  have hack : exec manyShards still
      ⟨65, ⟨[], 0, false⟩ :: List.replicate 64 {}, stalled', 0, []⟩
      { l with localConsumeCount := l.localConsumeCount + 64, pc := .ack } =
      some (⟨0, ⟨[], 0, false⟩ :: List.replicate 64 {}, stalled', 0, []⟩,
        { l with localConsumeCount := 0, pc := .closeEmpty 0 }) := by
    simp only [exec, hcount]
    rfl
  obtain ⟨sh', hclose, hsh'⟩ : ∃ sh', (machine manyShards still).alone .run 131
      (⟨0, ⟨[], 0, false⟩ :: List.replicate 64 {}, stalled', 0, []⟩,
        { l with localConsumeCount := 0, pc := .closeEmpty 0 }) =
        some (sh', { l with localConsumeCount := 0, pc := .awaitNext }) ∧ Closed sh' := by
    refine alone_closeAll (l := { l with localConsumeCount := 0, pc := .closeEmpty 0 }) (k := 65)
      rfl (fun j q hj => ⟨?_, fun h => absurd h (Nat.not_lt_zero j)⟩) rfl
    rcases List.mem_cons.mp (List.mem_of_getElem? hj) with rfl | hq
    · rfl
    · rw [List.eq_of_mem_replicate hq]
  have hawait : exec manyShards still sh' { l with localConsumeCount := 0, pc := .awaitNext } =
      some (sh', { l with localConsumeCount := 0, pc := .awaitUpdate }) := by
    have hlt : 0 < sh'.recvQueues.length := by
      rw [hsh'.1]
      decide
    have hempty := (hsh'.2 _ (List.getElem_mem hlt)).1
    simp only [exec, hid, List.getElem?_eq_getElem hlt, Option.bind_some, hempty, Nat.lt_irrefl,
      if_false, goto]
  obtain ⟨sh₁, l₁, hfinish, hsh₁, hl₁⟩ := alone_finish
    (l := { l with localConsumeCount := 0, pc := .awaitUpdate }) hsh'
    ⟨Nat.zero_lt_succ 64, hid, rfl, hbuffers, hok⟩
  have hdrained := Machine.alone_trans (Machine.alone_trans hbegin hreceive) (alone_exec hacquire 0)
  have hacked := Machine.alone_trans (Machine.alone_trans hdrained hrecv) (alone_exec hack 0)
  have hasleep := Machine.alone_trans (Machine.alone_trans hacked hclose) (alone_exec hawait 0)
  have hall := Machine.alone_trans hasleep hfinish
  rw [show 10 + 3 * 64 + (0 + 1) + 132 + (0 + 1) + 131 + (0 + 1) + 135 = 603 from rfl] at hall
  exact ⟨sh₁, l₁, hall, hsh₁, hl₁⟩

theorem bursts_stillDone :
    ∃ c : Conf (Shared Unit 1) (Local Unit 1),
      (machine manyShards still).bursts .run stillDone (initial manyShards) = some c ∧
      ∀ i, i < 65 → ∃ l, c.locals[i]? = some l ∧ l.Ended := by
  have hinitial : ∀ i, 0 ≤ i → i < 0 + 65 →
      ∃ l, (initial manyShards : Conf (Shared Unit 1) (Local Unit 1)).locals[i]? = some l ∧
        l = seeding i {} .init := by
    intro i _ hlt
    have hlocals : (initial manyShards : Conf (Shared Unit 1) (Local Unit 1)).locals =
      (List.range 65).map fun i => seeding i {} .init := rfl
    refine ⟨_, ?_, rfl⟩
    rw [hlocals, List.getElem?_map, List.getElem?_range (by omega), Option.map_some]
  have harrived : Arrived 0 (initial manyShards).shared := rfl
  obtain ⟨c₁, h₁, hsh₁, hbarrier, _⟩ :=
    Machine.bursts_turns (P := Arrived) (fun _ _ _ => alone_seed) harrived hinitial
  obtain ⟨c₂, h₂, hsh₂, hasleep, hrest₂⟩ := Machine.bursts_turns (P := fun _ => AllArrived)
    (fun i _ _ => alone_sleep (i := i)) (n := 64) ⟨_, hsh₁⟩
    fun i (hpos : 1 ≤ i) (hlt : i < 1 + 64) => by
      obtain ⟨l, hl, hr⟩ := hbarrier i (by omega) (by omega)
      exact ⟨l, hl, by omega, by omega, hr⟩
  obtain ⟨l, hl, hfirst⟩ := hbarrier 0 (by omega) (by omega)
  rw [← hrest₂ 0 (by omega)] at hl
  obtain ⟨sh, l', h₃, hsh₃, hended⟩ := alone_first hsh₂ hfirst
  have hlt := (List.getElem?_eq_some_iff.mp hl).1
  obtain ⟨c₄, h₄, _, hothers, hrest₄⟩ := Machine.bursts_turns (P := fun _ => Closed)
    (fun i _ _ => alone_finish (i := i)) (n := 64) (c := ⟨sh, c₂.locals.set 0 l'⟩) hsh₃
    fun i (hpos : 1 ≤ i) (hlt : i < 1 + 64) => by
      obtain ⟨l, hl, hr⟩ := hasleep i hpos hlt
      exact ⟨l, by rw [List.getElem?_set_ne (by omega), hl], by omega, hr⟩
  refine ⟨c₄, ?_, fun i hi => ?_⟩
  · rw [stillDone, List.range_eq_range', Machine.bursts_append, Machine.bursts_append,
      Machine.bursts_append, h₁, Option.bind_some, h₂, Option.bind_some, Machine.bursts, hl,
      Option.bind_some, h₃]
    exact h₄
  · rcases Nat.eq_zero_or_pos i with rfl | hpos
    · exact ⟨l', by rw [hrest₄ 0 (by omega), List.getElem?_set_self hlt], hended⟩
    · exact hothers i hpos (by omega)

/-- **With 65 shards `check_model` has no result** although every shard returns with `ok`. -/
theorem too_many_shards_no_result :
    ∃ c : Conf (Shared Unit 1) (Local Unit 1),
      (machine manyShards still).run
        (stillDone.flatMap fun b => List.replicate b.2 (b.1, .run)) (initial manyShards) = some c ∧
      AllOk c ∧ checkModel c = none := by
  obtain ⟨c, hbursts, hended⟩ := bursts_stillDone
  have hc := Machine.run_bursts (fun _ _ _ _ => rfl) hbursts
  refine ⟨c, hc, fun l hl => ?_, checkModel_none ⟨_, hc⟩ (by decide)⟩
  obtain ⟨i, hi⟩ := List.mem_iff_getElem?.mp hl
  have hlt : i < 65 := by
    rw [← show manyShards.shardCount = 65 from rfl, ← (basic_reachable ⟨_, hc⟩).shards]
    exact (List.getElem?_eq_some_iff.mp hi).1
  obtain ⟨l', hl', hended⟩ := hended i hlt
  rw [hi] at hl'
  cases hl'
  exact hended

end Batt.Checker
