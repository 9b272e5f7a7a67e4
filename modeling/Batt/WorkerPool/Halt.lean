/-
  Shutting a pool down: `WorkerPool::halt` while work is still being submitted.

  `async_run` counts an item, tests whether the queue is open, inserts it and notifies, in steps of
  their own, and does not look at what `push` returned. Two things can go wrong. The queue may be
  closed before the test: the item is refused and never run, but a context has already counted it.
  And a worker may find its queue closed while an item is in it, or about to be inserted by a push
  that passed the test before: the worker exits, and the item stays there.

  `keepsWork` excludes the two steps and nothing else. In the runs that are left an exited worker
  leaves an empty queue that nobody will insert into (`Drained`), so a pool that has been shut down
  has run everything it has counted.
-/
import Batt.WorkerPool.AwaitDone

namespace Batt.WorkerPool

open Interleave

/-! ## The pool after shutdown -/

/-- The thread is in `async_run`, or in a work function that `async_run` called on this thread. -/
def inAsyncRun (t : Thread) : Bool :=
  match t.pc with
  | .startRef _ | .startWork _ _ | .pick _ | .push _ _ _ => true
  | _ => t.worker.isNone && !t.stack.isEmpty

/-- Every worker has exited (`halt` has closed its queue then) and no `async_run` is under way. -/
structure ShutDown (c : Conf Shared Thread) : Prop where
  exited : ∀ t ∈ c.locals, t.worker ≠ none → t.pc = .exited
  idle : ∀ t ∈ c.locals, inAsyncRun t = false

/-- Every item was run once, unless it was passed to the pool itself and refused; nothing is left
    in a queue, and no context counts an item that is not going to run. -/
structure NothingLost (c : Conf Shared Thread) : Prop where
  ran : ∀ item ∈ c.shared.submitted, c.shared.ran.count item = 1 ∨
    (c.shared.ran.count item = 0 ∧ item.context = none)
  queues : ∀ q ∈ c.shared.queues, q.items = []
  counts : ∀ ctx ∈ c.shared.contexts, ctx.workCount.value = 0

/-! ## The condition -/

/-- A push into queue `v` that has passed its test and has not inserted its item. -/
def holding (v : Nat) (t : Thread) : Bool :=
  match t.pc with
  | .push w _ (.lockPush _) | .push w _ (.insert _ (_ :: _)) => w == v
  | _ => false

/-- An item of a context is not refused, and a worker gives up only where its queue is empty and
    nobody is about to insert into it. -/
def keepsWorkAt (c : Conf Shared Thread) (t : Thread) (a : Act) : Bool :=
  match t.pc, t.worker, a with
  | .push v item (.isOpen _), _, _ =>
    item.context.isNone || c.shared.queues[v]?.all fun q => !q.closed
  | .next (.awaitNotEqual _), some v, .run =>
    (c.shared.queues[v]?.all fun q => q.items.isEmpty) && c.locals.all fun u => !holding v u
  | _, _, _ => true

def keepsWork (c : Conf Shared Thread) (i : Nat) (a : Act) : Bool :=
  match c.locals[i]? with
  | some t => keepsWorkAt c t a
  | none => true

/-! ## The invariant -/

structure Drained (c : Conf Shared Thread) : Prop where
  exits : ∀ t ∈ c.locals, ∀ v, t.worker = some v → t.pc = .exited →
    ∃ q, c.shared.queues[v]? = some q ∧ q.closed = true ∧ q.items = [] ∧
      ∀ u ∈ c.locals, holding v u = false
  refused : ∀ item ∈ c.shared.dropped, item.context = none
  workers : ∀ v < c.shared.queues.length, ∃ t ∈ c.locals, t.worker = some v

section

variable {sh sh' : Shared} {t t' : Thread} {v : Nat}

theorem holding_leave (v : Nat) (t : Thread) : holding v t.leave = false := by
  rcases leave_pc t with h | h <;> simp [holding, h]

theorem queues_trans (h : Trans sh t sh' t') : sh'.queues.length = sh.queues.length := by
  cases h <;> first | rfl | exact List.length_set

/-- A queue that is closed, and into which the thread is not about to insert, keeps its items
    where the thread is not its worker. -/
theorem closed_trans {q : Queue.Shared Item} (h : Trans sh t sh' t')
    (hq : sh.queues[v]? = some q) (hclosed : q.closed = true) (hidle : holding v t = false)
    (hw : t.worker ≠ some v) :
    ∃ q', sh'.queues[v]? = some q' ∧ q'.closed = true ∧ q'.items = q.items ∧
      holding v t' = false := by
  have hset : ∀ {n : Nat} {q₁ q₂ : Queue.Shared Item} {u : Thread}, sh.queues[n]? = some q₁ →
      (n = v → q₁.closed = true → q₂.closed = true ∧ q₂.items = q₁.items) → holding v u = false →
      ∃ q', (sh.queues.set n q₂)[v]? = some q' ∧ q'.closed = true ∧ q'.items = q.items ∧
        holding v u = false := by
    intro n q₁ q₂ u here hsame hu
    by_cases hn : n = v
    · subst hn
      rw [hq] at here
      cases here
      obtain ⟨hc, hitems⟩ := hsame rfl hclosed
      exact ⟨q₂, List.getElem?_set_self (List.getElem?_eq_some_iff.mp hq).1, hc, hitems, hu⟩
    · exact ⟨q, by rw [List.getElem?_set_ne hn, hq], hclosed, rfl, hu⟩
  cases h with
  | push o st item n q₁ here step on =>
    by_cases hn : n = v
    · subst hn
      rw [hq] at here
      cases here
      have hopen : ∀ {pc : Queue.Pc Item}, holding n ⟨o, st, .push n item pc⟩ = false →
          ∀ {pc' q'}, PushStep item q pc q' pc' → q'.closed = true ∧ q'.items = q.items ∧
            holding n ⟨o, st, .push n item pc'⟩ = false := by
        intro pc hpc pc' q' hstep
        cases hstep with
        | isOpen isOpen =>
          rw [isOpen] at hclosed
          cases hclosed
        | lock | insert => simp [holding] at hpc
        | refuse | unlock | notify => exact ⟨hclosed, rfl, rfl⟩
      obtain ⟨hc, hitems, hold⟩ := hopen hidle step
      exact hset hq (fun _ _ => ⟨hc, hitems⟩) hold
    · refine hset here (fun h => absurd h hn) ?_
      unfold holding
      split
      · rename_i hpc
        cases hpc
        exact beq_false_of_ne hn
      · rename_i hpc
        cases hpc
        exact beq_false_of_ne hn
      · rfl
  | pushed o st item n q₁ here step =>
    refine hset here (fun hn hc => ?_) rfl
    cases step
    exact ⟨hc, rfl⟩
  | refused o st item n q₁ here closed => exact hset here (fun _ hc => ⟨hc, rfl⟩) rfl
  | close o st n q₁ here => exact hset here (fun _ _ => ⟨rfl, rfl⟩) rfl
  | take n st q₁ here step on => exact hset here (fun hn => absurd (congrArg some hn) hw) rfl
  | taken n st q₁ item here => exact hset here (fun hn => absurd (congrArg some hn) hw) rfl
  | exit n st q₁ old here closed => exact hset here (fun _ hc => ⟨hc, rfl⟩) rfl
  | returnsPool | finishRef => exact ⟨q, hq, hclosed, rfl, holding_leave v _⟩
  | _ => exact ⟨q, hq, hclosed, rfl, rfl⟩

theorem set_self {n : Nat} {q : Queue.Shared Item} (h : sh.queues[n]? = some q) :
    (sh.setQueue n q).queues = sh.queues := by
  obtain ⟨hlt, hget⟩ := List.getElem?_eq_some_iff.mp h
  rw [Shared.setQueue, ← hget]
  exact List.set_getElem_self hlt

/-- A worker exits where it waits on its closed queue. -/
theorem exit_trans (h : Trans sh t sh' t') (hpc : t'.pc = .exited) :
    ∃ v q old, t.worker = some v ∧ t.pc = .next (.awaitNotEqual old) ∧
      sh.queues[v]? = some q ∧ q.closed = true ∧ sh'.queues = sh.queues := by
  cases h with
  | exit n st q old here closed => exact ⟨n, q, old, rfl, rfl, here, closed, set_self here⟩
  | returnsPool o item rest context | finishRef o item rest j cx context here =>
    rcases leave_pc ⟨o, item :: rest, _⟩ with hl | hl <;> cases hl.symm.trans hpc
  | _ => cases hpc

theorem exit_run {a : Act} {old : Int} (h : step a sh t = some (sh', t'))
    (hpc : t.pc = .next (.awaitNotEqual old)) (hpc' : t'.pc = .exited) : a = .run := by
  obtain ⟨o, st, pc⟩ := t
  cases hpc
  unfold step at h
  split at h
  · cases h
  · cases o with
    | none => cases h
    | some w =>
      obtain ⟨q, _, hq⟩ := Option.bind_eq_some_iff.mp h
      obtain ⟨⟨q', pc'⟩, hstep, hr⟩ := Option.map_eq_some_iff.mp hq
      cases a with
      | run => rfl
      | woken v =>
        simp only [queueStep] at hstep
        split at hstep
        · cases hstep
          cases hr
          cases hpc'
        · cases hstep
      | _ => cases hstep

theorem dropped_trans (h : Trans sh t sh' t') :
    sh'.dropped = sh.dropped ∨ ∃ v item q, t.pc = .push v item (.isOpen [item]) ∧
      sh.queues[v]? = some q ∧ q.closed = true ∧ sh'.dropped = sh.dropped ++ [item] := by
  cases h with
  | refused o st item n q here closed => exact .inr ⟨n, item, q, rfl, here, closed, rfl⟩
  | _ => exact .inl rfl

end

section

variable {c : Conf Shared Thread} {i : Nat} {a : Act} {t t' : Thread} {sh' : Shared}

theorem exits_step (inv : Inv c) (hd : Drained c) (hp : keepsWorkAt c t a = true)
    (hi : c.locals[i]? = some t) (hstep : step a c.shared t = some (sh', t'))
    (htrans : Trans c.shared t sh' t') : ∀ u ∈ c.locals.set i t', ∀ v, u.worker = some v →
      u.pc = .exited → ∃ q, sh'.queues[v]? = some q ∧ q.closed = true ∧ q.items = [] ∧
        ∀ x ∈ c.locals.set i t', holding v x = false := by
  refine forall_set (fun v hworker hpc => ?_) fun j u hne hj v hworker hpc => ?_
  · obtain ⟨w, q, old, hw, hwait, hq, hclosed, hqueues⟩ := exit_trans htrans hpc
    have hv : w = v := by
      rw [trans_worker htrans, hw] at hworker
      exact Option.some.inj hworker
    subst hv
    rw [exit_run hstep hwait hpc] at hp
    simp only [keepsWorkAt, hwait, hw, hq, Option.all_some, Bool.and_eq_true,
      List.isEmpty_iff] at hp
    refine ⟨q, hqueues ▸ hq, hclosed, hp.1, forall_set ?_ fun j u _ hj => ?_⟩
    · rw [holding, hpc]
    · exact Bool.not_eq_true' _ ▸ List.all_eq_true.mp hp.2 u (List.mem_of_getElem? hj)
  · obtain ⟨q, hq, hclosed, hitems, hold⟩ := hd.exits u (List.mem_of_getElem? hj) v hworker hpc
    have hw : t.worker ≠ some v := fun hw => hne (inv.single j i v u t hj hi hworker hw)
    obtain ⟨q', hq', hclosed', hitems', hold'⟩ :=
      closed_trans htrans hq hclosed (hold t (List.mem_of_getElem? hi)) hw
    exact ⟨q', hq', hclosed', hitems'.trans hitems, forall_set hold' fun k x _ hk =>
      hold x (List.mem_of_getElem? hk)⟩

theorem drained_step {c' : Conf Shared Thread} (inv : Inv c) (hd : Drained c)
    (hp : keepsWork c i a = true) (hf : machine.fire i a c = some c') : Inv c' ∧ Drained c' := by
  obtain ⟨t, sh', t', hi, htrans, hstep, rfl⟩ := fire_trans inv.toShape hf
  have hat : keepsWorkAt c t a = true := by rwa [keepsWork, hi] at hp
  refine ⟨inv_trans inv hi htrans, exits_step inv hd hat hi hstep htrans, ?_, fun v hv => ?_⟩
  · intro item hitem
    rcases dropped_trans htrans with h | ⟨v, other, q, hpc, hq, hclosed, h⟩
    · exact hd.refused item (h ▸ hitem)
    · rw [h] at hitem
      rcases List.mem_append.mp hitem with hitem | hitem
      · exact hd.refused item hitem
      · rw [List.mem_singleton.mp hitem]
        simp only [keepsWorkAt, hpc, hq, Option.all_some, hclosed, Bool.not_true,
          Bool.or_false] at hat
        exact Option.isNone_iff_eq_none.mp hat
  · rw [queues_trans htrans] at hv
    obtain ⟨u, hu, hworker⟩ := hd.workers v hv
    obtain ⟨j, hj⟩ := List.mem_iff_getElem?.mp hu
    by_cases hij : i = j
    · subst hij
      rw [hi] at hj
      cases hj
      have hset := List.getElem?_set_self (a := t') (List.getElem?_eq_some_iff.mp hi).1
      exact ⟨t', List.mem_of_getElem? hset, trans_worker htrans ▸ hworker⟩
    · exact ⟨u, List.mem_of_getElem? ((List.getElem?_set_ne hij).trans hj), hworker⟩

end

theorem drained_initial (nWorkers nContexts n : Nat) : Drained (initial nWorkers nContexts n) := by
  refine ⟨fun t ht v _ hpc => ?_, nofun, fun v hv => ⟨newWorker v, ?_, rfl⟩⟩
  · rcases List.mem_append.mp ht with ht | ht
    · obtain ⟨w, _, rfl⟩ := List.mem_map.mp ht
      cases hpc
    · rw [List.eq_of_mem_replicate ht] at hpc
      cases hpc
  · rw [initial, List.length_replicate] at hv
    exact List.mem_append_left _ (List.mem_map_of_mem (List.mem_range.mpr hv))

/-! ## Nothing is lost -/

section

variable {c : Conf Shared Thread}

/-- A thread of a pool that is shut down has no item. -/
theorem tokens_shutDown (inv : Inv c) (hs : ShutDown c) {t : Thread} (ht : t ∈ c.locals) :
    tokens t = [] := by
  have hok := inv.threads t ht
  have hidle := hs.idle t ht
  have hexited := hs.exited t ht
  obtain ⟨o, st, pc⟩ := t
  cases o with
  | some v =>
    cases hexited nofun
    obtain ⟨_, hstack⟩ := hok
    cases hstack
    rfl
  | none =>
    have hstack : st = [] := by
      cases st with
      | nil => rfl
      | cons item rest => cases pc <;> cases hidle
    subst hstack
    cases pc with
    | startRef | startWork | pick | push => cases hidle
    | finishWork pc =>
      obtain ⟨⟨_, _, _, hst, _⟩, _⟩ := hok
      cases hst
    | finishRef =>
      obtain ⟨_, _, _, hst, _⟩ := hok
      cases hst
    | next pc =>
      obtain ⟨⟨_, hw⟩, _⟩ := hok
      cases hw
    | _ => rfl

theorem queues_shutDown (hd : Drained c) (hs : ShutDown c) : ∀ q ∈ c.shared.queues, q.items = [] := by
  intro q hq
  obtain ⟨v, hv⟩ := List.mem_iff_getElem?.mp hq
  obtain ⟨t, ht, hworker⟩ := hd.workers v (List.getElem?_eq_some_iff.mp hv).1
  have hexited := hs.exited t ht (by rw [hworker]; exact nofun)
  obtain ⟨q', hq', _, hitems, _⟩ := hd.exits t ht v hworker hexited
  rw [hv] at hq'
  cases hq'
  exact hitems

theorem nothingLost_of_drained (inv : Inv c) (hd : Drained c) (hs : ShutDown c) : NothingLost c := by
  have hqueues := queues_shutDown hd hs
  have hzero : ∀ f, balance f c = 0 := by
    intro f
    refine balance_eq_zero.mpr ⟨fun t ht x hx => ?_, fun q hq item hitem => ?_⟩
    · rw [tokens_shutDown inv hs ht] at hx
      cases hx
    · rw [hqueues q hq] at hitem
      cases hitem
  refine ⟨fun item hmem => ?_, hqueues, fun ctx hctx => ?_⟩
  · have hplace := inv.place item
    have hran := inv.ran item
    rw [hzero, Nat.zero_add] at hplace hran
    rw [List.count_eq_one_of_mem (submitted_nodup inv.toBalanced) hmem] at hplace
    by_cases hdropped : item ∈ c.shared.dropped
    · have := List.count_pos_iff.mpr hdropped
      exact .inr ⟨by omega, hd.refused item hdropped⟩
    · rw [List.count_eq_zero.mpr hdropped] at hplace
      exact .inl (by omega)
  · obtain ⟨k, hk⟩ := List.mem_iff_getElem?.mp hctx
    have hwork := inv.work k
    have hnone : c.shared.dropped.countP (ofContext k) = 0 := by
      refine List.countP_eq_zero.mpr fun item hitem => ?_
      simp [ofContext, hd.refused item hitem]
    rw [workOf_at hk, hzero, hnone] at hwork
    exact hwork

end

/-- **Shutdown loses no work**, in every run in which no item of a context is refused and no worker
    gives up on a queue that has an item, or that a push under way will still insert into. -/
theorem shutdown_loses_no_work (nWorkers nContexts n : Nat) (c : Conf Shared Thread)
    (hr : machine.ReachableWhere keepsWork (initial nWorkers nContexts n) c) (hs : ShutDown c) :
    NothingLost c := by
  obtain ⟨inv, hd⟩ := machine.invariant_runWhere (I := fun c => Inv c ∧ Drained c)
    (fun _ _ _ _ hc hp hf => drained_step hc.1 hc.2 hp hf)
    ⟨inv_initial nWorkers nContexts n, drained_initial nWorkers nContexts n⟩ hr
  exact nothingLost_of_drained inv hd hs

/-- The pool is halted between two items: the first was inserted before and is run, the second is
    passed to the pool itself and refused. -/
def drainRun : List (Nat × Act) :=
  (1, Act.asyncRun (some 0)) :: List.replicate 9 (1, Act.run) ++ (2, Act.halt) ::
    List.replicate 2 (2, Act.run) ++
    List.replicate 6 (0, Act.run) ++ (0, Act.workReturns) :: List.replicate 3 (0, Act.run) ++
    (1, Act.asyncRun none) :: List.replicate 2 (1, Act.run) ++ List.replicate 3 (0, Act.run)

theorem shutDown_rest (sh : Shared) :
    ShutDown ⟨sh, [⟨some 0, [], .exited⟩, newThread, newThread]⟩ := by
  constructor
  · intro t ht hw
    rcases List.mem_cons.mp ht with rfl | ht
    · rfl
    · rw [List.eq_of_mem_replicate (show t ∈ List.replicate 2 newThread from ht)] at hw
      exact absurd rfl hw
  · intro t ht
    rcases List.mem_cons.mp ht with rfl | ht
    · rfl
    · rw [List.eq_of_mem_replicate (show t ∈ List.replicate 2 newThread from ht)]
      rfl

theorem shutdown_loses_no_work_drainRun :
    ∃ c, machine.runWhere keepsWork drainRun (initial 1 1 2) = some c ∧ ShutDown c ∧
      c.shared.submitted = [⟨0, some 0⟩, ⟨1, none⟩] ∧ c.shared.ran = [⟨0, some 0⟩] ∧ NothingLost c := by
  refine ⟨_, rfl, shutDown_rest _, rfl, rfl, ?_⟩
  exact shutdown_loses_no_work 1 1 2 _ ⟨drainRun, rfl⟩ (shutDown_rest _)

/-- The queue is closed after the item has been counted and before `push` tests it. -/
def refusedRun : List (Nat × Act) :=
  (1, Act.asyncRun (some 0)) :: List.replicate 4 (1, Act.run) ++ (2, Act.halt) ::
    List.replicate 2 (2, Act.run) ++
    (1, Act.run) :: List.replicate 3 (0, Act.run)

/-- The queue is closed, and its worker has exited, after `push` has tested it and before the item
    is inserted. -/
def leftRun : List (Nat × Act) :=
  (1, Act.asyncRun (some 0)) :: List.replicate 5 (1, Act.run) ++ (2, Act.halt) ::
    List.replicate 2 (2, Act.run) ++
    List.replicate 3 (0, Act.run) ++ List.replicate 4 (1, Act.run)

theorem work_lost_at_shutdown :
    (∃ c, machine.run refusedRun (initial 1 1 2) = some c ∧ ShutDown c ∧
      c.shared.submitted = [⟨0, some 0⟩] ∧ c.shared.ran = [] ∧
      c.shared.contexts.map (fun ctx => ctx.workCount.value) = [1] ∧ ¬NothingLost c) ∧
    ∃ c, machine.run leftRun (initial 1 1 2) = some c ∧ ShutDown c ∧
      c.shared.submitted = [⟨0, some 0⟩] ∧ c.shared.ran = [] ∧
      c.shared.queues.map (fun q => q.items) = [[⟨0, some 0⟩]] ∧ ¬NothingLost c := by
  constructor
  · refine ⟨_, rfl, shutDown_rest _, rfl, rfl, rfl, fun h => ?_⟩
    cases h.counts _ List.mem_cons_self
  · refine ⟨_, rfl, shutDown_rest _, rfl, rfl, rfl, fun h => ?_⟩
    cases h.queues _ List.mem_cons_self

end Batt.WorkerPool
