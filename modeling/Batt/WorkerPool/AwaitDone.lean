/-
  `WorkContext::await_done` waits for everything.

  The waiter leaves `await_true` with a count that was zero at some moment, but a notifier that is
  late may have told it: the count may have gone up since, and it may be zero again only later.
  What makes `await_done` safe is the loop on `ref_count_` after it. The reference of an item is
  taken before anything else is done for it and given back after everything else, and a work
  function that submits another holds its own meanwhile. So once nobody submits from outside, a
  reference count of zero stays zero, and there is no item left that would touch the context.

  `orderly` is what the caller promises: nobody submits an item from outside the context's own work
  functions while `await_done` is called or after it. The pool may be halted meanwhile; an item that
  it refuses keeps its reference, and `await_done` does not return.
-/
import Batt.WorkerPool.Balance
import Mathlib.Data.List.Nodup

namespace Batt.WorkerPool

open Interleave

/-! ## The promise -/

/-- No work function of context `k` is under way on the thread. -/
def outside (k : Nat) (t : Thread) : Bool := !t.stack.any (ofContext k)

/-- The thread is in `async_run` of context `k`. -/
def submitting (k : Nat) (t : Thread) : Bool :=
  match t.pc with
  | .startRef item | .startWork item _ | .pick item | .push _ item _ => ofContext k item
  | _ => false

def orderly (c : Conf Shared Thread) (i : Nat) : Act → Bool
  | .asyncRun (some k) =>
    match c.locals[i]?, c.shared.contexts[k]? with
    | some t, some ctx => !ctx.awaited || !outside k t
    | _, _ => true
  | .awaitDone k => c.locals.all fun t => !(submitting k t && outside k t)
  | _ => true

/-- The next step of the thread accesses context `k`, on behalf of a work item. -/
def touches (k : Nat) (t : Thread) : Bool :=
  match t.pc, t.stack with
  | .startRef item, _ | .startWork item _, _ | .pick item, _ => ofContext k item
  | .finishWork _, item :: _ | .finishRef, item :: _ => ofContext k item
  | _, _ => false

/-! ## What a step does to a context -/

/-- The call into `work_count_` of context `k` a thread has under way. -/
def call (k : Nat) (t : Thread) : Watch.Local Int :=
  match t.pc, t.stack with
  | .startWork item pc, _ | .finishWork pc, item :: _ =>
    if item.context = some k then .running 0 pc else .idle
  | .awaitNotEqual j pc, _ => if j = k then .running 0 pc else .idle
  | _, _ => .idle

/-- The context a thread is waiting for. -/
def awaits (t : Thread) : Option Nat :=
  match t.pc with
  | .awaitLoad k | .awaitCheck k _ | .awaitNotEqual k _ | .awaitRef k => some k
  | _ => none

structure ContextStep (k : Nat) (ctx : Context) (t : Thread) (ctx' : Context) (t' : Thread) :
    Prop where
  moves : Watch.Moves .kClosed ctx.workCount (call k t) ctx'.workCount (call k t')
  awaited : ctx.awaited = true → ctx'.awaited = true
  asked : ctx'.awaited = true → ctx.awaited = true ∨ t' = { t with pc := .awaitLoad k }
  waits : awaits t' = some k → awaits t = some k ∨ ctx'.awaited = true
  returned : ctx'.returned = true →
    ctx.returned = true ∨ (awaits t = some k ∧ ctx'.refCount ≤ 0)
  ref : ctx'.refCount ≤ ctx.refCount ∨ submitting k t = true

theorem leave_pc (t : Thread) : t.leave.pc = .user ∨ t.leave.pc = .next .awaitModifyLoad := by
  unfold Thread.leave
  cases hb : t.worker.isSome && t.stack.tail.isEmpty with
  | true => exact .inr (by simp [hb])
  | false => exact .inl (by simp [hb])

theorem call_leave (k : Nat) (t : Thread) : call k t.leave = .idle := by
  rcases leave_pc t with h | h <;> simp [call, h]

theorem awaits_leave (t : Thread) : awaits t.leave = none := by
  rcases leave_pc t with h | h <;> simp [awaits, h]

theorem leave_ne_awaits {k : Nat} {pc : Pc} (t : Thread)
    (h : awaits { t with pc := pc } = some k) : t.leave.pc ≠ pc := by
  rintro rfl
  rcases leave_pc t with hpc | hpc <;> simp [awaits, hpc] at h

theorem submitting_leave (k : Nat) (t : Thread) : submitting k t.leave = false := by
  rcases leave_pc t with h | h <;> simp [submitting, h]

variable {ctx' : Context}

section

variable {sh sh' : Shared} {k : Nat} {ctx : Context} {t t' : Thread}

/-- A step that leaves the context alone. -/
theorem ContextStep.same (hcall : call k t' = call k t)
    (hawaits : awaits t' = some k → awaits t = some k) : ContextStep k ctx t ctx t' where
  moves := by
    rw [hcall]
    exact .stay _
  awaited := id
  asked := .inl
  waits h := .inl (hawaits h)
  returned := .inl
  ref := .inl (Int.le_refl _)

/-- A step that changes context `j` only. -/
theorem contextStep_at {j : Nat} {cx cx' : Context} (here : sh.contexts[j]? = some cx)
    (hk : sh.contexts[k]? = some ctx) (hself : j = k → ContextStep k cx t cx' t')
    (hother : j ≠ k → ContextStep k ctx t ctx t') :
    ∃ ctx', (sh.setContext j cx').contexts[k]? = some ctx' ∧ ContextStep k ctx t ctx' t' := by
  rw [contexts_set here]
  by_cases hjk : j = k
  · subst hjk
    rw [here] at hk
    cases hk
    exact ⟨cx', if_pos rfl, hself rfl⟩
  · exact ⟨ctx, by rw [if_neg (Ne.symm hjk), hk], hother hjk⟩

/-- A call into `work_count_` that goes on, or returns. -/
theorem contextStep_watch {j : Nat} {cx : Context} {w : Watch.Shared Int} {l l' : Watch.Local Int}
    (here : sh.contexts[j]? = some cx) (hk : sh.contexts[k]? = some ctx)
    (hmoves : Watch.Moves .kClosed cx.workCount l w l')
    (hcall : call k t = if j = k then l else .idle) (hcall' : call k t' = if j = k then l' else .idle)
    (hawaits : awaits t' = some k → awaits t = some k) :
    ∃ ctx', (sh.setContext j { cx with workCount := w }).contexts[k]? = some ctx' ∧
      ContextStep k ctx t ctx' t' := by
  refine contextStep_at here hk (fun hjk => ?_) fun hjk => ?_
  · rw [if_pos hjk] at hcall hcall'
    refine ⟨?_, id, .inl, fun h => .inl (hawaits h), .inl, .inl (Int.le_refl _)⟩
    rw [hcall, hcall']
    exact hmoves
  · rw [if_neg hjk] at hcall hcall'
    exact .same (hcall'.trans hcall.symm) hawaits

theorem contextStep_trans (hk : sh.contexts[k]? = some ctx) (h : Trans sh t sh' t') :
    ∃ ctx', sh'.contexts[k]? = some ctx' ∧ ContextStep k ctx t ctx' t' := by
  have hsame : ∀ {sh' : Shared} {t' : Thread}, sh'.contexts = sh.contexts → call k t' = call k t →
      (awaits t' = some k → awaits t = some k) →
      ∃ ctx', sh'.contexts[k]? = some ctx' ∧ ContextStep k ctx t ctx' t' :=
    fun hctx hcall hawaits => ⟨ctx, by rw [hctx, hk], .same hcall hawaits⟩
  have hcontext : ∀ {item : Item} {j : Nat} (l : Watch.Local Int), item.context = some j →
      (if item.context = some k then l else .idle) = if j = k then l else .idle := by
    intro item j l hj
    simp only [hj, Option.some.injEq]
  cases h with
  | submit o st j => exact hsame rfl rfl nofun
  | submitPool o st => exact hsame rfl rfl nofun
  | returns o item rest j context =>
    refine ⟨ctx, hk, ?_, id, .inl, nofun, .inl, .inl (Int.le_refl _)⟩
    by_cases hjk : j = k
    · have hcall : call k ⟨o, item :: rest, .finishWork (.fetch .sub 1)⟩ =
          .running 0 (.fetch .sub 1) := if_pos (context.trans (congrArg some hjk))
      rw [hcall]
      exact .enter (Watch.fetchSub 1) nofun
    · have hcall : call k ⟨o, item :: rest, .finishWork (.fetch .sub 1)⟩ = .idle :=
        if_neg fun h => hjk (Option.some.inj (context.symm.trans h))
      rw [hcall]
      exact .stay _
  | returnsPool o item rest context =>
    refine hsame rfl (call_leave k _) fun h => ?_
    rw [awaits_leave] at h
    cases h
  | awaitDone o j cx here =>
    refine contextStep_at here hk (fun hjk => ?_) fun hjk => .same rfl ?_
    · subst hjk
      exact ⟨.stay _, fun _ => rfl, fun _ => .inr rfl, fun _ => .inr rfl, .inl, .inl (Int.le_refl _)⟩
    · intro h
      exact absurd (Option.some.inj h) hjk
  | halt o st => exact hsame rfl rfl nofun
  | startRef o st item j cx context here =>
    refine contextStep_at here hk (fun hjk => ?_) fun hjk => .same ?_ nofun
    · refine ⟨?_, id, .inl, nofun, .inl, .inr (decide_eq_true (context.trans (congrArg some hjk)))⟩
      have hcall : call k ⟨o, st, .startWork item (.fetch .add 1)⟩ = .running 0 (.fetch .add 1) :=
        if_pos (context.trans (congrArg some hjk))
      rw [hcall]
      exact .enter (Watch.fetchAdd 1) nofun
    · exact if_neg fun h => hjk (Option.some.inj (context.symm.trans h))
  | startWork o st item j cx context here trans on =>
    exact contextStep_watch here hk (.access trans) (hcontext _ context) (hcontext _ context) nofun
  | startedWork o st item j cx context here trans =>
    exact contextStep_watch here hk (.leave trans) (hcontext _ context) (ite_self _).symm nofun
  | runHere o st item alone => exact hsame rfl rfl nofun
  | pick o st item => exact hsame rfl rfl nofun
  | push o st item v q here step on => exact hsame rfl rfl nofun
  | pushed o st item v q here step => exact hsame rfl rfl nofun
  | refused o st item v q here closed => exact hsame rfl rfl nofun
  | finishWork o item rest j cx context here trans on =>
    exact contextStep_watch here hk (.access trans) (hcontext _ context) (hcontext _ context) nofun
  | finishedWork o item rest j cx context here trans =>
    exact contextStep_watch here hk (.leave trans) (hcontext _ context) (ite_self _).symm nofun
  | finishRef o item rest j cx context here =>
    have hawaits : ∀ {P : Prop}, awaits (Thread.leave ⟨o, item :: rest, .finishRef⟩) = some k → P := by
      intro P h
      rw [awaits_leave] at h
      cases h
    refine contextStep_at here hk (fun hjk => ?_) fun hjk => .same (call_leave k _) hawaits
    refine ⟨?_, id, .inl, hawaits, .inl, .inl (by simp only; omega)⟩
    rw [call_leave]
    exact .stay _
  | awaitLoad o st j cx here => exact hsame rfl rfl id
  | checkFails o st j count negative => exact hsame rfl rfl id
  | checkZero o st j => exact hsame rfl rfl id
  | checkWaits o st j cx count here =>
    refine contextStep_at here hk (fun hjk => ?_) fun hjk => .same (if_neg hjk) id
    refine ⟨?_, id, .inl, .inl, .inl, .inl (Int.le_refl _)⟩
    have hcall : call k ⟨o, st, .awaitNotEqual j (Watch.begin cx.workCount (.awaitNotEqual count)).2⟩ =
        .running 0 (Watch.begin cx.workCount (.awaitNotEqual count)).2 := if_pos hjk
    rw [hcall]
    exact .enter (.awaitNotEqual count) nofun
  | await o st j cx here trans on => exact contextStep_watch here hk (.access trans) rfl rfl id
  | awake o st j cx count here trans =>
    exact contextStep_watch here hk (.leave trans) rfl (ite_self _).symm id
  | closed o st j cx here trans =>
    exact contextStep_watch here hk (.leave trans) rfl (ite_self _).symm id
  | spin o st j => exact hsame rfl rfl id
  | done o st j cx here zero =>
    refine contextStep_at here hk (fun hjk => ?_) fun hjk => .same rfl nofun
    subst hjk
    exact ⟨.stay _, id, .inl, nofun, fun _ => .inr ⟨rfl, zero⟩, .inl (Int.le_refl _)⟩
  | close o st n q here => exact hsame rfl rfl nofun
  | halted o st n last => exact hsame rfl rfl nofun
  | take v st q here step on => exact hsame rfl rfl nofun
  | taken v st q item here => exact hsame rfl rfl nofun
  | exit v st q old here closed => exact hsame rfl rfl nofun

theorem contexts_trans (h : Trans sh t sh' t') : sh'.contexts.length = sh.contexts.length := by
  cases h <;> first | rfl | exact List.length_set

/-- Every context after a step was one before it. -/
theorem contextStep_back (hk : sh'.contexts[k]? = some ctx') (h : Trans sh t sh' t') :
    ∃ ctx, sh.contexts[k]? = some ctx ∧ ContextStep k ctx t ctx' t' := by
  have hlt := (List.getElem?_eq_some_iff.mp hk).1
  rw [contexts_trans h] at hlt
  have hold := List.getElem?_eq_getElem hlt
  obtain ⟨ctx₁, hk₁, hstep⟩ := contextStep_trans hold h
  rw [hk] at hk₁
  cases hk₁
  exact ⟨_, hold, hstep⟩

/-! ## Who submits and who waits -/

/-- A submission goes on under the same work functions. -/
theorem submitting_trans (h : Trans sh t sh' t') (hs : submitting k t' = true) :
    t'.stack = t.stack ∧ (submitting k t = true ∨ t.pc = .user) := by
  cases h with
  | submit o st j => exact ⟨rfl, .inr rfl⟩
  | startRef | startWork | startedWork | pick | push => exact ⟨rfl, .inl hs⟩
  | returnsPool | finishRef =>
    rw [submitting_leave] at hs
    cases hs
  | _ => cases hs

/-- Which call it was, by where the thread is after it. -/
theorem call_of_step {a : Act} {o : Option Nat} {st : List Item}
    (h : step a sh ⟨o, st, .user⟩ = some (sh', t')) :
    (submitting k t' = true → a = .asyncRun (some k)) ∧ (t'.pc = .awaitLoad k → a = .awaitDone k) := by
  unfold step at h
  split at h
  · cases h
  · cases a with
    | asyncRun context =>
      cases context with
      | none =>
        cases h
        exact ⟨(fun h => by cases h), by simp⟩
      | some j =>
        cases h
        refine ⟨fun hs => ?_, by simp⟩
        rw [Option.some.inj (of_decide_eq_true hs : some j = some k)]
    | workReturns =>
      simp only [Thread.call, workReturns] at h
      split at h
      · cases h
      · split at h
        · cases h
          exact ⟨(fun h => by cases h), by simp⟩
        · cases h
          refine ⟨fun hs => ?_, fun hpc => ?_⟩
          · rw [submitting_leave] at hs
            cases hs
          · exact absurd hpc (leave_ne_awaits _ rfl)
    | awaitDone j =>
      simp only [Thread.call] at h
      split at h
      · obtain ⟨ctx, _, hr⟩ := Option.map_eq_some_iff.mp h
        cases hr
        refine ⟨(fun h => by cases h), fun hpc => ?_⟩
        cases hpc
        rfl
      · cases h
    | halt =>
      cases h
      exact ⟨(fun h => by cases h), by simp⟩
    | _ => cases h

theorem asked_user (h : Trans sh t sh' t') (hpc : t'.pc = .awaitLoad k) : t.pc = .user := by
  cases h with
  | awaitDone => rfl
  | returnsPool | finishRef => exact absurd hpc (leave_ne_awaits _ rfl)
  | _ => cases hpc

end

/-! ## The invariant -/

/-- What is known of a context and the threads around it. -/
structure WaitedAt (k : Nat) (ctx : Context) (ts : List Thread) : Prop where
  inside : ctx.awaited = true → ∀ t ∈ ts, submitting k t = true → outside k t = false
  used : Watch.Used (0 ≤ ·) .kClosed ctx.workCount (ts.map (call k))
  checked : ∀ t ∈ ts, ∀ count, t.pc = .awaitCheck k count → 0 ≤ count
  waits : ∀ t ∈ ts, awaits t = some k → ctx.awaited = true
  returned : ctx.returned = true → ctx.awaited = true ∧ ctx.refCount ≤ 0

structure Waited (c : Conf Shared Thread) : Prop where
  contexts : ∀ k ctx, c.shared.contexts[k]? = some ctx → WaitedAt k ctx c.locals
  there : ∀ t ∈ c.locals, ∀ k, awaits t = some k → k < c.shared.contexts.length
  checks : c.shared.panicked = false

variable {f : Token → Nat}

section

variable {c : Conf Shared Thread} {k : Nat} {ctx : Context} {t : Thread} {sh' : Shared}
  {t' : Thread}

theorem weigh_pos {ts : List Token} {x : Token} (hx : x ∈ ts) (hf : 0 < f x) :
    0 < weigh f ts :=
  Nat.lt_of_lt_of_le hf (le_total f hx)

theorem topPhase_ne_entering (pc : Pc) : topPhase pc ≠ .entering := by
  unfold topPhase
  split
  · split <;> exact nofun
  · exact nofun
  · exact nofun

/-- A work function of the context that is under way holds a reference. -/
theorem refWeight_stack (h : outside k t = false) : 0 < threadWeight (refWeight k) t := by
  have hany : t.stack.any (ofContext k) = true := by simpa [outside] using h
  obtain ⟨item, hmem, hitem⟩ := List.any_eq_true.mp hany
  have hcontext : item.context = some k := of_decide_eq_true hitem
  have htoken : ∃ p, (item, p) ∈ tokens t ∧ p ≠ .entering := by
    cases hst : t.stack with
    | nil =>
      rw [hst] at hmem
      cases hmem
    | cons top rest =>
      rw [hst] at hmem
      rcases List.mem_cons.mp hmem with rfl | hmem
      · refine ⟨topPhase t.pc, List.mem_append_right _ ?_, ?_⟩
        · rw [hst]
          exact List.mem_cons_self
        · exact topPhase_ne_entering t.pc
      · refine ⟨.running, List.mem_append_right _ ?_, nofun⟩
        rw [hst]
        exact List.mem_cons_of_mem _ (List.mem_map_of_mem hmem)
  obtain ⟨p, hmem, hp⟩ := htoken
  refine weigh_pos hmem ?_
  rw [refWeight, if_pos ⟨hcontext, hp⟩]
  exact Nat.one_pos

theorem balance_pos (ht : t ∈ c.locals) (h : 0 < threadWeight f t) :
    0 < balance f c := by
  have := le_total (threadWeight f) ht
  unfold balance
  omega

theorem refCount_pos (hb : Balanced c) (hk : c.shared.contexts[k]? = some ctx) (ht : t ∈ c.locals)
    (h : 0 < threadWeight (refWeight k) t) : 0 < ctx.refCount := by
  have href := hb.ref k
  rw [refOf_at hk] at href
  have := balance_pos ht h
  omega

theorem work_nonneg (hb : Balanced c) (hk : c.shared.contexts[k]? = some ctx) :
    0 ≤ ctx.workCount.value := by
  have hwork := hb.work k
  rw [workOf_at hk] at hwork
  omega

theorem Waited.here (hw : Waited c) (ht : t ∈ c.locals) (h : awaits t = some k) :
    ∃ ctx, c.shared.contexts[k]? = some ctx ∧ WaitedAt k ctx c.locals :=
  ⟨_, List.getElem?_eq_getElem (hw.there t ht k h),
    hw.contexts k _ (List.getElem?_eq_getElem (hw.there t ht k h))⟩

/-- The counts that `await_done` looks at. -/
theorem checked_trans {count : Int} (hok : ThreadOk t) (hw : Waited c) (ht : t ∈ c.locals)
    (h : Trans c.shared t sh' t') (hpc : t'.pc = .awaitCheck k count) :
    0 ≤ count := by
  cases h with
  | awaitLoad o st j cx here =>
    cases hpc
    exact (hw.contexts k cx here).used.value
  | checkFails o st j n negative =>
    obtain ⟨ctx, _, hat⟩ := hw.here ht rfl
    cases hpc
    exact hat.checked _ ht count rfl
  | awake o st j cx n here trans =>
    cases hpc
    obtain ⟨_, h, hstage⟩ := hok
    rcases Watch.trans_wait_finish trans hstage with ⟨hstage', _⟩ | ⟨result, _, hlookup, hret⟩
    · cases hstage'
    · cases result with
      | error code => cases hret
      | ok v =>
        cases hret
        exact (hw.contexts k cx here).used.invoked h count (Watch.mem_of_lookup hlookup)
  | returnsPool | finishRef => exact absurd hpc (leave_ne_awaits _ rfl)
  | _ => cases hpc

theorem panicked_trans (hw : Waited c) (ht : t ∈ c.locals) (h : Trans c.shared t sh' t') :
    sh'.panicked = false := by
  cases h with
  | checkFails o st j n negative =>
    obtain ⟨ctx, _, hat⟩ := hw.here ht rfl
    have := hat.checked _ ht n rfl
    omega
  | _ => exact hw.checks

/-- Once `await_done` is called, who submits does it inside a work function of the context. -/
theorem inside_step {i : Nat} {a : Act} (hat : WaitedAt k ctx c.locals) (hp : orderly c i a = true)
    (hi : c.locals[i]? = some t) (hk : c.shared.contexts[k]? = some ctx)
    (hstep : step a c.shared t = some (sh', t')) (htrans : Trans c.shared t sh' t')
    (hs : ContextStep k ctx t ctx' t') (hawaited : ctx'.awaited = true) :
    ∀ u ∈ c.locals.set i t', submitting k u = true → outside k u = false := by
  have huser : ∀ {u : Thread}, t.pc = .user → step a c.shared t = some (sh', u) →
      (submitting k u = true → a = .asyncRun (some k)) ∧ (u.pc = .awaitLoad k → a = .awaitDone k) := by
    intro u hpc hstep
    obtain ⟨o, st, pc⟩ := t
    cases hpc
    exact call_of_step hstep
  rcases hs.asked hawaited with hold | hask
  · refine forall_set (fun hsub => ?_) fun j u _ hj => hat.inside hold u (List.mem_of_getElem? hj)
    obtain ⟨hstack, hsub₀ | hpc⟩ := submitting_trans htrans hsub
    · rw [outside, hstack]
      exact hat.inside hold t (List.mem_of_getElem? hi) hsub₀
    · rw [(huser hpc hstep).1 hsub] at hp
      simp only [orderly, hi, hk, hold, Bool.not_true, Bool.false_or, Bool.not_eq_true'] at hp
      rwa [outside, hstack]
  · have hload : t'.pc = .awaitLoad k := by rw [hask]
    rw [(huser (asked_user htrans hload) hstep).2 hload] at hp
    refine forall_set (fun hsub => ?_) fun j u _ hj hsub => ?_
    · rw [submitting, hload] at hsub
      cases hsub
    · have := List.all_eq_true.mp hp u (List.mem_of_getElem? hj)
      rw [hsub] at this
      simpa using this

/-- **The step lemma**: what is known of one context. -/
theorem waitedAt_step {c' : Conf Shared Thread} {i : Nat} {a : Act} (inv : Inv c) (hw : Waited c)
    (hp : orderly c i a = true) (hf : machine.fire i a c = some c')
    (hk : c'.shared.contexts[k]? = some ctx') : WaitedAt k ctx' c'.locals := by
  obtain ⟨t, sh', t', hi, htrans, hstep, rfl⟩ := fire_trans inv.toShape hf
  obtain ⟨ctx, hk₀, hs⟩ := contextStep_back hk htrans
  have hat := hw.contexts k ctx hk₀
  have ht := List.mem_of_getElem? hi
  have inv' := inv_trans inv hi htrans
  refine ⟨fun hawaited => ?_, ?_, ?_, ?_, ?_⟩
  · exact inside_step hat hp hi hk₀ hstep htrans hs hawaited
  · have hmoves := Watch.used_moves hat.used (by rw [List.getElem?_map, hi]; rfl) hs.moves
      (work_nonneg inv'.toBalanced hk)
    rwa [← List.map_set] at hmoves
  · exact forall_set (fun count => checked_trans (inv.threads t ht) hw ht htrans) fun j u _ hj =>
      hat.checked u (List.mem_of_getElem? hj)
  · refine forall_set (fun h => ?_) fun j u _ hj h =>
      hs.awaited (hat.waits u (List.mem_of_getElem? hj) h)
    rcases hs.waits h with h | h
    · exact hs.awaited (hat.waits t ht h)
    · exact h
  · intro hreturned
    rcases hs.returned hreturned with h | ⟨h, hzero⟩
    · obtain ⟨hawaited, hzero⟩ := hat.returned h
      refine ⟨hs.awaited hawaited, ?_⟩
      rcases hs.ref with href | hsub
      · exact Int.le_trans href hzero
      · have hin := refWeight_stack (hat.inside hawaited t ht hsub)
        have hpos := refCount_pos inv.toBalanced hk₀ ht hin
        omega
    · exact ⟨hs.awaited (hat.waits t ht h), hzero⟩

theorem awaits_there (hw : Waited c) (ht : t ∈ c.locals) (h : Trans c.shared t sh' t')
    (hpc : awaits t' = some k) : k < c.shared.contexts.length := by
  cases h with
  | awaitDone o j cx here =>
    cases hpc
    exact (List.getElem?_eq_some_iff.mp here).1
  | awaitLoad | checkFails | checkZero | checkWaits | await | awake | closed | spin =>
    exact hw.there _ ht k hpc
  | returnsPool | finishRef =>
    rw [awaits_leave] at hpc
    cases hpc
  | _ => cases hpc

theorem waited_step {c' : Conf Shared Thread} {i : Nat} {a : Act} (inv : Inv c) (hw : Waited c)
    (hp : orderly c i a = true) (hf : machine.fire i a c = some c') : Inv c' ∧ Waited c' := by
  obtain ⟨t, sh', t', hi, htrans, hstep, rfl⟩ := fire_trans inv.toShape hf
  have ht := List.mem_of_getElem? hi
  refine ⟨inv_trans inv hi htrans, fun k ctx hk => waitedAt_step inv hw hp hf hk, ?_,
    panicked_trans hw ht htrans⟩
  rw [contexts_trans htrans]
  exact forall_set (fun k => awaits_there hw ht htrans) fun j u _ hj =>
    hw.there u (List.mem_of_getElem? hj)

end

theorem waited_initial (nWorkers nContexts n : Nat) : Waited (initial nWorkers nContexts n) := by
  have hquiet : ∀ t ∈ (initial nWorkers nContexts n).locals,
      (∀ k, submitting k t = false ∧ call k t = .idle) ∧ awaits t = none := by
    intro t ht
    rcases List.mem_append.mp ht with ht | ht
    · obtain ⟨v, _, rfl⟩ := List.mem_map.mp ht
      exact ⟨fun k => ⟨rfl, rfl⟩, rfl⟩
    · rw [List.eq_of_mem_replicate ht]
      exact ⟨fun k => ⟨rfl, rfl⟩, rfl⟩
  refine ⟨fun k ctx hk => ?_, fun t ht k h => ?_, rfl⟩
  · rw [List.eq_of_mem_replicate (List.mem_of_getElem? hk)]
    refine ⟨nofun, ?_, fun t ht count hpc => ?_, fun t ht h => ?_, nofun⟩
    · refine Watch.used_new .kClosed (Int.le_refl 0) fun l hl => ?_
      obtain ⟨t, ht, rfl⟩ := List.mem_map.mp hl
      exact ((hquiet t ht).1 k).2
    · have hnone := (hquiet t ht).2
      rw [awaits, hpc] at hnone
      cases hnone
    · rw [(hquiet t ht).2] at h
      cases h
  · rw [(hquiet t ht).2] at h
    cases h

theorem waited_reachable {nWorkers nContexts n : Nat} {c : Conf Shared Thread}
    (hr : machine.ReachableWhere orderly (initial nWorkers nContexts n) c) : Inv c ∧ Waited c :=
  machine.invariant_runWhere (I := fun c => Inv c ∧ Waited c)
    (fun _ _ _ _ hc hp hf => waited_step hc.1 hc.2 hp hf)
    ⟨inv_initial nWorkers nContexts n, waited_initial nWorkers nContexts n⟩ hr

/-! ## After `await_done` -/

section

variable {c : Conf Shared Thread} {k : Nat} {ctx : Context}

/-- No item of the context holds a reference any more. -/
theorem refWeight_zero (hb : Balanced c) (hk : c.shared.contexts[k]? = some ctx)
    (hzero : ctx.refCount ≤ 0) :
    balance (refWeight k) c = 0 ∧ c.shared.dropped.countP (ofContext k) = 0 := by
  have href := hb.ref k
  rw [refOf_at hk] at href
  omega

theorem balance_eq_zero : balance f c = 0 ↔
    (∀ t ∈ c.locals, ∀ x ∈ tokens t, f x = 0) ∧
      ∀ q ∈ c.shared.queues, ∀ item ∈ q.items, f (item, .queued) = 0 := by
  unfold balance
  rw [Nat.add_eq_zero_iff, total_eq_zero, total_eq_zero]
  refine and_congr (forall₂_congr fun t _ => total_eq_zero) (forall₂_congr fun q _ => ?_)
  exact total_eq_zero.trans List.forall_mem_map

theorem runWeight_zero {item : Item} (h : balance (openWeight item) c = 0) :
    balance (runWeight item) c = 0 := by
  have hle : ∀ x, openWeight item x = 0 → runWeight item x = 0 := by
    intro x hx
    refine if_neg fun hrun => ?_
    rw [openWeight, if_pos ⟨hrun.1, by rw [hrun.2]; exact ⟨by simp, by simp⟩⟩] at hx
    cases hx
  obtain ⟨hthreads, hqueues⟩ := balance_eq_zero.mp h
  exact balance_eq_zero.mpr
    ⟨fun t ht x hx => hle x (hthreads t ht x hx), fun q hq y hy => hle _ (hqueues q hq y hy)⟩

/-- An item that is not yet counted is with the thread that submits it. -/
theorem entering_mem {t : Thread} {item : Item} (h : (item, .entering) ∈ tokens t) :
    t.pc = .startRef item := by
  rcases List.mem_append.mp h with h | h
  · unfold pcTokens at h
    split at h
    · rename_i other hpc
      cases List.mem_singleton.mp h
      exact hpc
    · rename_i other pc hpc
      split at h <;> cases List.mem_singleton.mp h
    · cases List.mem_singleton.mp h
    · cases List.mem_singleton.mp h
    · cases List.mem_singleton.mp h
    · cases List.mem_singleton.mp h
    · cases List.mem_singleton.mp h
    · cases h
  · cases hst : t.stack with
    | nil =>
      rw [hst] at h
      cases h
    | cons top rest =>
      rw [hst] at h
      rcases List.mem_cons.mp h with h | h
      · exact absurd (congrArg Prod.snd h).symm (topPhase_ne_entering t.pc)
      · obtain ⟨_, _, hx⟩ := List.mem_map.mp h
        cases hx

theorem submitted_nodup (hb : Balanced c) : c.shared.submitted.Nodup := by
  rw [List.nodup_iff_getElem?_ne_getElem?]
  intro i j hij hj heq
  have hi := List.getElem?_eq_getElem (Nat.lt_trans hij hj)
  have hsame := hb.numbered j _ (heq.symm.trans hi)
  rw [hb.numbered i _ hi] at hsame
  omega

/-- Nobody is in `async_run` of the context, and none of its work functions is under way. -/
theorem returned_quiet (inv : Inv c) (hat : WaitedAt k ctx c.locals)
    (hk : c.shared.contexts[k]? = some ctx) (hreturned : ctx.returned = true) :
    ∀ t ∈ c.locals, submitting k t = false ∧ outside k t = true := by
  intro t ht
  obtain ⟨hawaited, hzero⟩ := hat.returned hreturned
  have hout : outside k t = true := by
    by_contra hin
    have := refCount_pos inv.toBalanced hk ht (refWeight_stack (Bool.eq_false_iff.mpr hin))
    omega
  refine ⟨?_, hout⟩
  by_contra hsub
  have hin := hat.inside hawaited t ht (Bool.not_eq_false _ ▸ hsub)
  rw [hout] at hin
  cases hin

theorem touches_of_quiet {t : Thread} (hsub : submitting k t = false) (hout : outside k t = true) :
    touches k t = false := by
  have htop : ∀ {item : Item} {rest : List Item}, t.stack = item :: rest → ofContext k item = false := by
    intro item rest hst
    rw [outside, hst, List.any_cons, Bool.not_or, Bool.and_eq_true] at hout
    exact Bool.not_eq_true' _ ▸ hout.1
  unfold touches
  split
  · rename_i item _ hpc
    rwa [submitting, hpc] at hsub
  · rename_i item _ _ hpc
    rwa [submitting, hpc] at hsub
  · rename_i item _ hpc
    rwa [submitting, hpc] at hsub
  · rename_i hst
    exact htop hst
  · rename_i hst
    exact htop hst
  · rfl

/-- No item of the context is still to finish. -/
theorem returned_open (inv : Inv c) (hat : WaitedAt k ctx c.locals)
    (hk : c.shared.contexts[k]? = some ctx) (hreturned : ctx.returned = true) {item : Item}
    (hitem : item.context = some k) : balance (openWeight item) c = 0 := by
  have hzero := (refWeight_zero inv.toBalanced hk (hat.returned hreturned).2).1
  obtain ⟨hthreads, hqueues⟩ := balance_eq_zero.mp hzero
  refine balance_eq_zero.mpr ⟨fun t ht x hx => if_neg ?_, fun q hq other hother => if_neg ?_⟩
  · obtain ⟨other, p⟩ := x
    rintro ⟨rfl, _⟩
    have hp : p = .entering := by
      by_contra hp
      have := hthreads t ht _ hx
      rw [refWeight, if_pos ⟨hitem, hp⟩] at this
      cases this
    subst hp
    have hquiet := (returned_quiet inv hat hk hreturned t ht).1
    rw [submitting, entering_mem hx] at hquiet
    exact of_decide_eq_false hquiet hitem
  · rintro ⟨rfl, _⟩
    have := hqueues q hq _ hother
    rw [refWeight, if_pos ⟨hitem, by simp⟩] at this
    cases this

end

/-- **`await_done` waits for everything.** In every run in which nobody submits to a context from
    outside once `await_done` is called on it, the check on the count never fails; and from when
    `await_done` has returned, every item submitted to the context has been run and has finished,
    once, and no thread is about to access the context for an item. -/
theorem await_done_waits_for_everything (nWorkers nContexts n : Nat) (c : Conf Shared Thread)
    (hr : machine.ReachableWhere orderly (initial nWorkers nContexts n) c) :
    c.shared.panicked = false ∧
      ∀ k ctx, c.shared.contexts[k]? = some ctx → ctx.returned = true →
        (∀ item ∈ c.shared.submitted, item.context = some k →
          c.shared.ran.count item = 1 ∧ c.shared.finished.count item = 1) ∧
        ∀ t ∈ c.locals, touches k t = false := by
  obtain ⟨inv, hw⟩ := waited_reachable hr
  refine ⟨hw.checks, fun k ctx hk hreturned => ⟨fun item hmem hitem => ?_, fun t ht => ?_⟩⟩
  · have hat := hw.contexts k ctx hk
    have hopen := returned_open inv hat hk hreturned hitem
    have hdropped : c.shared.dropped.count item = 0 := by
      have hnone := (refWeight_zero inv.toBalanced hk (hat.returned hreturned).2).2
      refine List.count_eq_zero.mpr fun hd => ?_
      exact List.countP_eq_zero.mp hnone item hd (decide_eq_true hitem)
    have hplace := inv.place item
    rw [List.count_eq_one_of_mem (submitted_nodup inv.toBalanced) hmem] at hplace
    have hrun := runWeight_zero hopen
    have hran := inv.ran item
    omega
  · obtain ⟨hsub, hout⟩ := returned_quiet inv (hw.contexts k ctx hk) hk hreturned t ht
    exact touches_of_quiet hsub hout

/-- A work function submits another one, and `await_done` has to wait for both. -/
def nestedRun : List (Nat × Act) :=
  (1, Act.asyncRun (some 0)) :: List.replicate 9 (1, Act.run) ++ List.replicate 6 (0, Act.run) ++
    (0, Act.asyncRun (some 0)) :: List.replicate 9 (0, Act.run) ++
    (1, Act.awaitDone 0) :: List.replicate 2 (1, Act.run) ++
    (0, Act.workReturns) :: List.replicate 9 (0, Act.run) ++
    (0, Act.workReturns) :: List.replicate 3 (0, Act.run) ++ List.replicate 5 (1, Act.run)

theorem await_done_waits_for_everything_nestedRun :
    ∃ c ctx, machine.runWhere orderly nestedRun (initial 1 1 1) = some c ∧
      c.shared.contexts[0]? = some ctx ∧ ctx.returned = true ∧
      c.shared.submitted = [⟨0, some 0⟩, ⟨1, some 0⟩] ∧
      c.shared.finished.count ⟨0, some 0⟩ = 1 ∧ c.shared.finished.count ⟨1, some 0⟩ = 1 := by
  refine ⟨_, _, rfl, rfl, rfl, rfl, ?_⟩
  have hall := (await_done_waits_for_everything 1 1 1 _ ⟨nestedRun, rfl⟩).2 0 _ rfl rfl
  exact ⟨(hall.1 ⟨0, some 0⟩ List.mem_cons_self rfl).2,
    (hall.1 ⟨1, some 0⟩ (List.mem_cons_of_mem _ List.mem_cons_self) rfl).2⟩

end Batt.WorkerPool
