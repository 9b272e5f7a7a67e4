/-
  The two counts of a context, in every run.

  `Shape` keeps the threads well formed: each work queue has one consumer, so what a worker has
  seen at the front is still there when it pops it. With it every step is one of `Ledger`, and
  `Balanced` follows step by step: `ref_count_` counts the items from before they are submitted
  until after they have run, `work_count_` counts them from after their submission was counted until
  their work function has returned, and an item that was refused stays counted in both.
-/
import Batt.WorkerPool.Ledger

namespace Batt.WorkerPool

open Interleave

/-! ## One consumer for each queue -/

structure Shape (c : Conf Shared Thread) : Prop where
  threads : ∀ t ∈ c.locals, ThreadOk t
  pops : ∀ t ∈ c.locals, PopOk c.shared t
  single : ∀ (i j v : Nat) (t u : Thread), c.locals[i]? = some t → c.locals[j]? = some u →
    t.worker = some v → u.worker = some v → i = j

section

variable {sh sh' : Shared} {t t' : Thread}

theorem trans_worker (h : Trans sh t sh' t') : t'.worker = t.worker := by
  cases h <;> rfl

theorem pushStep_items {item : Item} {q q' : Queue.Shared Item} {pc pc' : Queue.Pc Item}
    (h : PushStep item q pc q' pc') : q.items <+: q'.items := by
  cases h with
  | insert => exact List.prefix_append _ _
  | _ => exact List.prefix_refl _

/-- Where a queue has changed, a push has added to it or its own worker took the step. -/
theorem queues_set {v n : Nat} {q q₁ q' : Queue.Shared Item} (here : sh.queues[n]? = some q₁)
    (h : (sh.queues.set n q')[v]? = some q) :
    (v = n ∧ q = q' ∧ sh.queues[v]? = some q₁) ∨ (v ≠ n ∧ sh.queues[v]? = some q) := by
  rcases set_cases h with ⟨rfl, rfl⟩ | ⟨hne, h⟩
  · exact .inl ⟨rfl, rfl, here⟩
  · exact .inr ⟨hne, h⟩

theorem trans_items {v : Nat} {q' : Queue.Shared Item} (h : Trans sh t sh' t')
    (hq : sh'.queues[v]? = some q') :
    ∃ q, sh.queues[v]? = some q ∧ (t.worker ≠ some v → q.items <+: q'.items) := by
  have hset : ∀ {n : Nat} {q₁ q₂ : Queue.Shared Item}, sh.queues[n]? = some q₁ →
      (sh.queues.set n q₂)[v]? = some q' → (t.worker ≠ some v → v = n → q₁.items <+: q₂.items) →
      ∃ q, sh.queues[v]? = some q ∧ (t.worker ≠ some v → q.items <+: q'.items) := by
    intro n q₁ q₂ here hq hitems
    rcases queues_set here hq with ⟨rfl, rfl, hold⟩ | ⟨hne, hold⟩
    · exact ⟨q₁, hold, fun hw => hitems hw rfl⟩
    · exact ⟨q', hold, fun _ => List.prefix_refl _⟩
  cases h with
  | push o st item n q here step on => exact hset here hq fun _ _ => pushStep_items step
  | pushed o st item n q here step => exact hset here hq fun _ _ => pushStep_items step
  | refused o st item n q here closed => exact hset here hq fun _ _ => List.prefix_refl _
  | close o st n q here => exact hset here hq fun _ _ => List.prefix_refl _
  | take n st q here step on => exact hset here hq fun hw hn => absurd (hn ▸ rfl) hw
  | taken n st q item here => exact hset here hq fun hw hn => absurd (hn ▸ rfl) hw
  | exit n st q old here closed => exact hset here hq fun hw hn => absurd (hn ▸ rfl) hw
  | _ => exact ⟨q', hq, fun _ => List.prefix_refl _⟩

/-- The thread that steps to the pop has just seen the front. -/
theorem popOk_trans (h : Trans sh t sh' t') : PopOk sh' t' := by
  intro v item q' hworker hpc hq
  cases h with
  | take n st q here step on =>
    cases hworker
    cases hpc
    rw [Shared.setQueue, List.getElem?_set_self (List.getElem?_eq_some_iff.mp here).1] at hq
    cases hq
    cases step with
    | quiet takes takes' items closed stays => exact absurd rfl (stays item)
    | front item rest items => exact ⟨rest, items⟩
  | returnsPool o item rest context | finishRef o item rest k ctx context here =>
    simp only [Thread.leave] at hpc
    split at hpc <;> cases hpc
  | checkFails | spin => cases hpc
  | _ => cases hpc

theorem popOk_other {u : Thread} (hpop : PopOk sh u) (h : Trans sh t sh' t')
    (hother : ∀ v, u.worker = some v → t.worker ≠ some v) : PopOk sh' u := by
  intro v item q' hworker hpc hq
  obtain ⟨q, hq₀, hitems⟩ := trans_items h hq
  obtain ⟨rest, hrest⟩ := hpop v item q hworker hpc hq₀
  obtain ⟨more, hmore⟩ := hitems (hother v hworker)
  refine ⟨rest ++ more, ?_⟩
  rw [← hmore, hrest, List.cons_append]

end

variable {c : Conf Shared Thread} {t t' : Thread} {sh' : Shared} {i : Nat}

theorem shape_trans (hs : Shape c) (hi : c.locals[i]? = some t) (h : Trans c.shared t sh' t') :
    Shape ⟨sh', c.locals.set i t'⟩ where
  threads := by
    refine forall_set (threadOk_trans (hs.threads t (List.mem_of_getElem? hi)) h) ?_
    intro j u _ hj
    exact hs.threads u (List.mem_of_getElem? hj)
  pops := by
    refine forall_set (popOk_trans h) ?_
    intro j u hne hj
    refine popOk_other (hs.pops u (List.mem_of_getElem? hj)) h fun v hv ht => hne ?_
    exact hs.single j i v u t hj hi hv ht
  single := by
    intro j k v u w hj hk hu hw
    have hback : ∀ {n : Nat} {x : Thread}, (c.locals.set i t')[n]? = some x → x.worker = some v →
        ∃ y, c.locals[n]? = some y ∧ y.worker = some v := by
      intro n x hn hx
      rcases set_cases hn with ⟨rfl, rfl⟩ | ⟨_, hn⟩
      · exact ⟨t, hi, trans_worker h ▸ hx⟩
      · exact ⟨x, hn, hx⟩
    obtain ⟨y, hy, hyv⟩ := hback hj hu
    obtain ⟨z, hz, hzv⟩ := hback hk hw
    exact hs.single j k v y z hy hz hyv hzv

theorem shape_initial (nWorkers nContexts n : Nat) : Shape (initial nWorkers nContexts n) := by
  have hcases : ∀ {i : Nat} {t : Thread}, (initial nWorkers nContexts n).locals[i]? = some t →
      t = newWorker i ∨ t = newThread := by
    intro i t hi
    simp only [initial] at hi
    rw [List.getElem?_append] at hi
    split at hi
    · rw [List.getElem?_map] at hi
      obtain ⟨v, hv, rfl⟩ := Option.map_eq_some_iff.mp hi
      obtain ⟨_, rfl⟩ := List.getElem?_eq_some_iff.mp hv
      rw [List.getElem_range]
      exact .inl rfl
    · exact .inr (List.eq_of_mem_replicate (List.mem_of_getElem? hi))
  refine ⟨fun t ht => ?_, fun t ht => ?_, fun i j v t u hi hj ht hu => ?_⟩
  · obtain ⟨i, hi⟩ := List.mem_iff_getElem?.mp ht
    rcases hcases hi with rfl | rfl
    · exact ⟨⟨i, rfl⟩, rfl, .inl .load⟩
    · exact nofun
  · obtain ⟨i, hi⟩ := List.mem_iff_getElem?.mp ht
    intro v item q _ hpc
    rcases hcases hi with rfl | rfl <;> cases hpc
  · rcases hcases hi with rfl | rfl <;> rcases hcases hj with rfl | rfl <;> cases ht <;> cases hu
    rfl

/-! ## The counts -/

def refWeight (k : Nat) (x : Token) : Nat :=
  if x.1.context = some k ∧ x.2 ≠ .entering then 1 else 0

def workWeight (k : Nat) (x : Token) : Nat :=
  if x.1.context = some k ∧ (x.2 = .queued ∨ x.2 = .running ∨ x.2 = .done) then 1 else 0

/-- The item has not finished. -/
def openWeight (item : Item) (x : Token) : Nat :=
  if x.1 = item ∧ x.2 ≠ .done ∧ x.2 ≠ .uncounted then 1 else 0

def runWeight (item : Item) (x : Token) : Nat :=
  if x.1 = item ∧ x.2 = .running then 1 else 0

def ofContext (k : Nat) (item : Item) : Bool := item.context = some k

structure Balanced (c : Conf Shared Thread) : Prop where
  ref : ∀ k, refOf c.shared k =
    balance (refWeight k) c + c.shared.dropped.countP (ofContext k)
  work : ∀ k, workOf c.shared k =
    balance (workWeight k) c + c.shared.dropped.countP (ofContext k)
  place : ∀ item, balance (openWeight item) c + c.shared.finished.count item +
    c.shared.dropped.count item = c.shared.submitted.count item
  ran : ∀ item, c.shared.ran.count item =
    balance (runWeight item) c + c.shared.finished.count item
  numbered : ∀ (n : Nat) (item : Item), c.shared.submitted[n]? = some item → item.id = n

theorem balance_moved {old new : List Token} (hi : c.locals[i]? = some t)
    (hm : Moved c.shared t sh' t' old new) (f : Token → Nat) :
    balance f ⟨sh', c.locals.set i t'⟩ + weigh f old = balance f c + weigh f new := by
  have hset := total_set (threadWeight f) t' hi
  have hw := hm.weight f
  unfold balance
  simp only
  omega

section

variable {sh sh' : Shared} {old new : List Token}

theorem ledger_ref (h : Ledger sh old new sh') (k : Nat) :
    refOf sh' k + weigh (refWeight k) old + sh.dropped.countP (ofContext k) =
      refOf sh k + weigh (refWeight k) new + sh'.dropped.countP (ofContext k) := by
  cases h with
  | keep books => simp [books.ref, books.dropped, nothing]
  | submit item fresh books =>
    cases hctx : item.context <;>
      simp [books.ref, books.dropped, nothing, refWeight, firstPhase, hctx]
  | ref item j context books | unref item j context books =>
    by_cases hk : k = j
    · subst hk
      simp [books.ref, books.dropped, only, refWeight, context]
    · simp [books.ref, books.dropped, only, refWeight, context, hk, Ne.symm hk]
  | drop item books =>
    by_cases hctx : item.context = some k
    · simp [books.ref, books.dropped, nothing, refWeight, ofContext, hctx]
      omega
    · simp [books.ref, books.dropped, nothing, refWeight, ofContext, hctx]
  | finishPool item context books => simp [books.ref, books.dropped, nothing, refWeight, context]
  | work item j context books | finish item j context books | unwork item j context books
  | start item books =>
    simp [books.ref, books.dropped, nothing, refWeight]

theorem ledger_work (h : Ledger sh old new sh') (k : Nat) :
    workOf sh' k + weigh (workWeight k) old + sh.dropped.countP (ofContext k) =
      workOf sh k + weigh (workWeight k) new + sh'.dropped.countP (ofContext k) := by
  cases h with
  | keep books => simp [books.work, books.dropped, nothing]
  | submit item fresh books =>
    cases hctx : item.context <;>
      simp [books.work, books.dropped, nothing, workWeight, firstPhase, hctx]
  | work item j context books | unwork item j context books =>
    by_cases hk : k = j
    · subst hk
      simp [books.work, books.dropped, only, workWeight, context]
    · simp [books.work, books.dropped, only, workWeight, context, hk, Ne.symm hk]
  | drop item books =>
    by_cases hctx : item.context = some k
    · simp [books.work, books.dropped, nothing, workWeight, ofContext, hctx]
      omega
    · simp [books.work, books.dropped, nothing, workWeight, ofContext, hctx]
  | finishPool item context books => simp [books.work, books.dropped, nothing, workWeight, context]
  | ref item j context books | finish item j context books | unref item j context books
  | start item books =>
    simp [books.work, books.dropped, nothing, workWeight]

theorem ledger_place (h : Ledger sh old new sh') (item : Item) :
    sh'.submitted.count item + weigh (openWeight item) old + sh.finished.count item +
        sh.dropped.count item =
      sh.submitted.count item + weigh (openWeight item) new + sh'.finished.count item +
        sh'.dropped.count item := by
  cases h with
  | keep books | ref other j context books | work other j context books | start other books
  | unwork other j context books | unref other j context books =>
    simp [books.submitted, books.finished, books.dropped, openWeight]
  | submit other fresh books =>
    have hphase : firstPhase other ≠ .done ∧ firstPhase other ≠ .uncounted := by
      unfold firstPhase
      split <;> exact ⟨nofun, nofun⟩
    simp [books.submitted, books.finished, books.dropped, openWeight, hphase, List.count_singleton]
  | drop other books =>
    simp [books.submitted, books.finished, books.dropped, openWeight, List.count_singleton]
    omega
  | finish other j context books | finishPool other context books =>
    simp [books.submitted, books.finished, books.dropped, openWeight, List.count_singleton]
    omega

theorem ledger_ran (h : Ledger sh old new sh') (item : Item) :
    sh'.ran.count item + weigh (runWeight item) old + sh.finished.count item =
      sh.ran.count item + weigh (runWeight item) new + sh'.finished.count item := by
  cases h with
  | submit other fresh books =>
    have hphase : firstPhase other ≠ .running := by
      unfold firstPhase
      split <;> exact nofun
    simp [books.ran, books.finished, runWeight, hphase]
  | keep books | ref other j context books | work other j context books | drop other books
  | unwork other j context books | unref other j context books =>
    simp [books.ran, books.finished, runWeight]
  | start other books => simp [books.ran, books.finished, runWeight, List.count_singleton]
  | finish other j context books | finishPool other context books =>
    simp [books.ran, books.finished, runWeight, List.count_singleton]
    omega

theorem ledger_numbered (h : Ledger sh old new sh')
    (hnum : ∀ (n : Nat) (item : Item), sh.submitted[n]? = some item → item.id = n) (n : Nat)
    (item : Item) (hn : sh'.submitted[n]? = some item) : item.id = n := by
  cases h with
  | submit other fresh books =>
    rw [books.submitted, List.getElem?_append] at hn
    split at hn
    · exact hnum n item hn
    · obtain ⟨hlt, rfl⟩ := List.getElem?_eq_some_iff.mp hn
      simp only [List.length_singleton] at hlt
      rw [List.getElem_singleton, fresh]
      omega
  | keep books | ref other j context books | work other j context books | drop other books
  | start other books | finish other j context books | finishPool other context books
  | unwork other j context books | unref other j context books =>
    rw [books.submitted, List.append_nil] at hn
    exact hnum n item hn

end

theorem balanced_moved {old new : List Token} (hb : Balanced c) (hi : c.locals[i]? = some t)
    (hm : Moved c.shared t sh' t' old new) :
    Balanced ⟨sh', c.locals.set i t'⟩ where
  ref k := by
    have hbal := balance_moved hi hm (refWeight k)
    have hledger := ledger_ref hm.ledger k
    have hold := hb.ref k
    simp only
    omega
  work k := by
    have hbal := balance_moved hi hm (workWeight k)
    have hledger := ledger_work hm.ledger k
    have hold := hb.work k
    simp only
    omega
  place item := by
    have hbal := balance_moved hi hm (openWeight item)
    have hledger := ledger_place hm.ledger item
    have hold := hb.place item
    simp only
    omega
  ran item := by
    have hbal := balance_moved hi hm (runWeight item)
    have hledger := ledger_ran hm.ledger item
    have hold := hb.ran item
    simp only
    omega
  numbered := ledger_numbered hm.ledger hb.numbered

theorem balanced_initial (nWorkers nContexts n : Nat) :
    Balanced (initial nWorkers nContexts n) := by
  have hzero : ∀ f, balance f (initial nWorkers nContexts n) = 0 := by
    intro f
    unfold balance
    rw [Nat.add_eq_zero_iff, total_eq_zero, total_eq_zero]
    constructor
    · intro t ht
      rcases List.mem_append.mp ht with ht | ht
      · obtain ⟨v, _, rfl⟩ := List.mem_map.mp ht
        rfl
      · rw [List.eq_of_mem_replicate ht]
        rfl
    · intro q hq
      rw [List.eq_of_mem_replicate hq]
      rfl
  have hctx : ∀ {k : Nat} {ctx : Context},
      (initial nWorkers nContexts n).shared.contexts[k]? = some ctx → ctx = newContext := fun h =>
    List.eq_of_mem_replicate (List.mem_of_getElem? h)
  refine ⟨fun k => ?_, fun k => ?_, fun item => ?_, fun item => ?_, nofun⟩
  · rw [hzero, refOf]
    cases hk : (initial nWorkers nContexts n).shared.contexts[k]? with
    | none => rfl
    | some ctx =>
      rw [hctx hk]
      rfl
  · rw [hzero, workOf]
    cases hk : (initial nWorkers nContexts n).shared.contexts[k]? with
    | none => rfl
    | some ctx =>
      rw [hctx hk]
      rfl
  · rw [hzero]
    rfl
  · rw [hzero]
    rfl

/-! ## Every run -/

/-- What holds in every run, whatever the threads do. -/
structure Inv (c : Conf Shared Thread) : Prop extends Shape c, Balanced c

theorem fire_trans {c' : Conf Shared Thread} {a : Act} (hs : Shape c)
    (h : machine.fire i a c = some c') :
    ∃ t sh' t', c.locals[i]? = some t ∧ Trans c.shared t sh' t' ∧ step a c.shared t = some (sh', t') ∧
      c' = ⟨sh', c.locals.set i t'⟩ := by
  obtain ⟨t, sh', t', hi, _, hstep, rfl⟩ := Machine.fire_cases h
  exact ⟨t, sh', t', hi, trans_of_step (hs.threads t (List.mem_of_getElem? hi)) hstep, hstep, rfl⟩

theorem inv_trans (inv : Inv c) (hi : c.locals[i]? = some t) (h : Trans c.shared t sh' t') :
    Inv ⟨sh', c.locals.set i t'⟩ := by
  have ht := List.mem_of_getElem? hi
  obtain ⟨old, new, hm⟩ := moved_trans (inv.threads t ht) (inv.pops t ht) h
  exact ⟨shape_trans inv.toShape hi h, balanced_moved inv.toBalanced hi hm⟩

theorem inv_initial (nWorkers nContexts n : Nat) : Inv (initial nWorkers nContexts n) :=
  ⟨shape_initial nWorkers nContexts n, balanced_initial nWorkers nContexts n⟩

end Batt.WorkerPool
