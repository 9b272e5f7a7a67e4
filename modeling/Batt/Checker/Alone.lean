/-
  The loops of a shard that runs alone, with the numbers of their steps.

  `flush_all` where nothing is buffered, the loops over the `stalled` flags in `recv`, `close_all`
  where nothing is pending, and from them what `recv` and `finished` come to.
-/
import Batt.Checker.Model

namespace Batt.Checker

open Interleave

variable {St : Type} {K : Nat} [DecidableEq St] [NeZero K] {mesh : Mesh St}
  {m : StateMachineModel St} {sh : Shared St K} {l : Local St K}

theorem alone_exec {s : Shared St K × Local St K} (h : exec mesh m sh l = some s) (k : Nat) :
    (machine mesh m).alone .run (k + 1) (sh, l) = (machine mesh m).alone .run k s :=
  Machine.alone_succ h k

theorem alone_flushAll {dst k : Nat} {caller : FlushCaller}
    (hbuffers : l.sendQueues = List.replicate (dst + k) []) (hpc : l.pc = .flushAll dst caller) :
    (machine mesh m).alone .run (k + 1) (sh, l) = some (sh, { l with pc := caller.resume }) := by
  induction k generalizing dst l with
  | zero =>
    have hend : l.sendQueues[dst]? = none := by
      rw [hbuffers, Nat.add_zero, List.getElem?_eq_none (by rw [List.length_replicate])]
    refine alone_exec ?_ 0
    simp only [exec, hpc, hend, goto]
  | succ k ih =>
    have hempty : l.sendQueues[dst]? = some [] := by
      rw [hbuffers, List.getElem?_replicate_of_lt (by omega)]
    have hstep : exec mesh m sh l = some (sh, { l with pc := .flushAll (dst + 1) caller }) := by
      simp only [exec, hpc, hempty, goto]
    rw [alone_exec hstep]
    exact ih (by rw [hbuffers, Nat.add_right_comm, Nat.add_assoc]) rfl

/-- A loop that gives the `stalled` flags of the shard one value. -/
theorem alone_stalled (loop : Nat → Pc St K) {exit : Pc St K} {b : Bool}
    (hloop : ∀ (sh : Shared St K) (l : Local St K) (other : Nat), l.pc = loop other →
      exec mesh m sh l = if other < mesh.shardCount then
        goto (sh.setStalled other l.shardI b) l (loop (other + 1)) else goto sh l exit)
    {other k : Nat} (hcount : other + k = mesh.shardCount) (hpc : l.pc = loop other) :
    ∃ stalled, (machine mesh m).alone .run (k + 1) (sh, l) =
      some ({ sh with stalled := stalled }, { l with pc := exit }) := by
  induction k generalizing other sh l with
  | zero =>
    refine ⟨sh.stalled, alone_exec ?_ 0⟩
    rw [hloop sh l other hpc, if_neg (by omega)]
    rfl
  | succ k ih =>
    have hstep := hloop sh l other hpc
    rw [if_pos (by omega)] at hstep
    rw [alone_exec hstep]
    have hnext : other + 1 + k = mesh.shardCount := by omega
    exact ih hnext rfl

/-! ## The ends of `recv` and of `run` -/

/-- `recv` where nothing is pending, up to its acknowledgement. -/
theorem alone_recv (hbuffers : l.sendQueues = List.replicate mesh.shardCount [])
    (hpc : l.pc = .setStalled 0) :
    ∃ stalled, (machine mesh m).alone .run (mesh.shardCount + 1 + (mesh.shardCount + 1)) (sh, l) =
      some ({ sh with stalled := stalled }, { l with pc := .ack }) := by
  have hloop : ∀ (sh : Shared St K) (l : Local St K) (other : Nat), l.pc = .setStalled other →
      exec mesh m sh l = if other < mesh.shardCount then
        goto (sh.setStalled other l.shardI true) l (.setStalled (other + 1))
      else goto sh l (.flushAll 0 .recv) := by
    intro sh l other hpc
    simp only [exec, hpc]
  obtain ⟨stalled, hstalled⟩ := alone_stalled .setStalled hloop (Nat.zero_add _) hpc
  exact ⟨stalled, Machine.alone_trans hstalled (alone_flushAll (l := { l with pc := _ })
    (by rw [Nat.zero_add]; exact hbuffers) rfl)⟩

/-- `close_all` where no queue holds anything. -/
theorem alone_closeAll {dst k : Nat} (hlen : sh.recvQueues.length = dst + k)
    (hclosed : ∀ j q, sh.recvQueues[j]? = some q →
      q.pendingCount = 0 ∧ (j < dst → q.closed = true))
    (hpc : l.pc = .closeEmpty dst) :
    ∃ sh', (machine mesh m).alone .run (2 * k + 1) (sh, l) =
        some (sh', { l with pc := .awaitNext }) ∧
      sh'.recvQueues.length = dst + k ∧
      ∀ q ∈ sh'.recvQueues, q.pendingCount = 0 ∧ q.closed = true := by
  induction k generalizing dst sh l with
  | zero =>
    have hend : sh.recvQueues[dst]? = none := List.getElem?_eq_none (by omega)
    refine ⟨sh, alone_exec ?_ 0, hlen, fun q hq => ?_⟩
    · simp only [exec, hpc, hend, goto]
    · obtain ⟨j, hj⟩ := List.mem_iff_getElem?.mp hq
      have hlt := (List.getElem?_eq_some_iff.mp hj).1
      exact ⟨(hclosed j q hj).1, (hclosed j q hj).2 (by omega)⟩
  | succ k ih =>
    obtain ⟨q, hq⟩ : ∃ q, sh.recvQueues[dst]? = some q :=
      ⟨_, List.getElem?_eq_getElem (by omega)⟩
    have hempty : exec mesh m sh l = some (sh, { l with pc := .close dst }) := by
      simp only [exec, hpc, hq, if_pos (hclosed dst q hq).1, goto]
    let sh₁ := sh.modifyQueue dst fun q => { q with closed := true }
    have hlen₁ : sh₁.recvQueues.length = dst + 1 + k := by
      show (sh.recvQueues.modify dst _).length = _
      rw [List.length_modify]
      omega
    have hclosed₁ : ∀ j q, sh₁.recvQueues[j]? = some q →
        q.pendingCount = 0 ∧ (j < dst + 1 → q.closed = true) := by
      intro j q hj
      rw [show sh₁.recvQueues = sh.recvQueues.modify dst _ from rfl, List.getElem?_modify] at hj
      obtain ⟨q₀, hq₀, rfl⟩ := Option.map_eq_some_iff.mp hj
      obtain ⟨hcount, hbefore⟩ := hclosed j q₀ hq₀
      split
      · exact ⟨hcount, fun _ => rfl⟩
      · exact ⟨hcount, fun hlt => hbefore (by omega)⟩
    rw [show 2 * (k + 1) + 1 = 2 * k + 1 + 1 + 1 by omega, alone_exec hempty,
      alone_exec (s := (sh₁, { l with pc := .closeEmpty (dst + 1) })) rfl]
    obtain ⟨sh', halone, hlen', hclosed'⟩ :=
      ih (l := { l with pc := .closeEmpty (dst + 1) }) hlen₁ hclosed₁ rfl
    exact ⟨sh', halone, by omega, hclosed'⟩

/-- `finished` where everything is closed and empty. -/
theorem alone_finished (hbuffers : l.sendQueues = List.replicate mesh.shardCount [])
    (hid : l.shardI < sh.recvQueues.length)
    (hclosed : ∀ q ∈ sh.recvQueues, q.pendingCount = 0 ∧ q.closed = true)
    (hpc : l.pc = .awaitUpdate) :
    ∃ stalled, (machine mesh m).alone .run
        (1 + (mesh.shardCount + 1) + (mesh.shardCount + 1) + 2) (sh, l) =
      some ({ sh with stalled := stalled }, { l with pc := .returned }) := by
  obtain ⟨q, hq⟩ : ∃ q, sh.recvQueues[l.shardI]? = some q := ⟨_, List.getElem?_eq_getElem hid⟩
  obtain ⟨hcount, hopen⟩ := hclosed q (List.mem_of_getElem? hq)
  have hupdate : exec mesh m sh l = some (sh, { l with pc := .resetStalled 0 true }) := by
    simp only [exec, hpc, hq, Option.bind_some, hopen, if_true, goto]
  have hloop : ∀ (sh : Shared St K) (l : Local St K) (other : Nat),
      l.pc = .resetStalled other true → exec mesh m sh l = if other < mesh.shardCount then
        goto (sh.setStalled other l.shardI false) l (.resetStalled (other + 1) true)
      else goto sh l (.flushAll 0 .finished) := by
    intro sh l other hpc
    simp only [exec, hpc, if_true]
  obtain ⟨stalled, hstalled⟩ := alone_stalled (l := { l with pc := .resetStalled 0 true })
    (.resetStalled · true) hloop (Nat.zero_add _) rfl
  have hflush : (machine mesh m).alone .run (mesh.shardCount + 1)
      ({ sh with stalled := stalled }, { l with pc := .flushAll 0 .finished }) =
        some ({ sh with stalled := stalled }, { l with pc := .finishedClose }) :=
    alone_flushAll (l := { l with pc := _ }) (by rw [Nat.zero_add]; exact hbuffers) rfl
  have hsame : sh.recvQueues.modify l.shardI (fun q => { q with closed := true }) =
      sh.recvQueues := by
    refine List.ext_getElem? fun j => ?_
    rw [List.getElem?_modify]
    cases hj : sh.recvQueues[j]? with
    | none => rfl
    | some q =>
      have hq := (hclosed q (List.mem_of_getElem? hj)).2
      show some (if l.shardI = j then _ else q) = some q
      split
      · rw [← hq]
      · rfl
  have hdrain : (machine mesh m).alone .run 2
      ({ sh with stalled := stalled }, { l with pc := .finishedClose }) =
        some ({ sh with stalled := stalled }, { l with pc := .returned }) := by
    have hclose : exec mesh m { sh with stalled := stalled } { l with pc := .finishedClose } =
        some ({ sh with stalled := stalled }, { l with pc := .drain }) := by
      simp only [exec, goto, Shared.modifyQueue, hsame]
    rw [alone_exec hclose]
    refine alone_exec ?_ 0
    simp only [exec, hq, Option.bind_some, hcount, Nat.lt_irrefl, if_false, goto]
  exact ⟨stalled, Machine.alone_trans (Machine.alone_trans (Machine.alone_trans
    (alone_exec hupdate 0) hstalled) hflush) hdrain⟩

end Batt.Checker
