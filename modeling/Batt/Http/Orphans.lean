/-
  The messages of a connection that nobody will resolve.

  `Fresh` holds in every run of callers that bring new responses: a message is in one place at a time,
  and it is not resolved before it has gone through all of them. So a step that lets go of a message
  leaves one that is not resolved, out of reach of the tasks that go on: an `Orphan`. No step takes
  that back, and `settled_iff_meets` follows: when both tasks have returned, every request that was
  dequeued is resolved with its response exactly if no step let go of one.
-/
import Batt.Http.Resolved

namespace Batt.Http.Client

open Interleave

/-! ## One place at a time -/

structure Fresh (sh : Shared) (q : RequestsPc) (r : ResponsesPc) : Prop where
  queued : (sh.requestQueue ++ sh.dequeued).Nodup
  flowing : (flow sh q r).Nodup
  dequeued : ∀ n ∈ flow sh q r, n ∈ sh.dequeued
  response : ∀ n, n ∉ sh.dequeued ∨ n ∈ flow sh q r → ¬ (sh.response n).Resolved .kInitialized
  taken : ∀ n, q.request = some n → n ∈ sh.dequeued ∧ ¬ (sh.request n).Resolved .kConsumed
  opened : ∀ n, n ∉ sh.dequeued → (sh.request n).closed = false

variable {q q' : RequestsPc} {r r' : ResponsesPc} {sh sh' : Shared} {callers : List CallerPc}
  {a : Act} {f : FillPc}

/-- A step of `process_requests` with the request that it has: its response may get lost. -/
theorem Fresh.stay (h : Fresh sh q r) (hqueue : sh'.requestQueue = sh.requestQueue)
    (hdeq : sh'.dequeued = sh.dequeued) (hresp : sh'.response = sh.response)
    (hflow : (flow sh' q' r).Sublist (flow sh q r))
    (hreq : ∀ n, q.request ≠ some n → sh'.request n = sh.request n)
    (htaken : ∀ n, q'.request = some n → q.request = some n ∧
      ((sh'.request n).Resolved .kConsumed → (sh.request n).Resolved .kConsumed)) :
    Fresh sh' q' r where
  queued := by rw [hqueue, hdeq]; exact h.queued
  flowing := h.flowing.sublist hflow
  dequeued n hn := by
    rw [hdeq]
    exact h.dequeued n (hflow.subset hn)
  response n hn := by
    rw [hdeq] at hn
    rw [hresp]
    exact h.response n (hn.imp_right fun hmem => hflow.subset hmem)
  taken n hn := by
    obtain ⟨hq, hres⟩ := htaken n hn
    rw [hdeq]
    exact ⟨(h.taken n hq).1, fun hr => (h.taken n hq).2 (hres hr)⟩
  opened n hn := by
    rw [hdeq] at hn
    rw [hreq n fun hq => hn (h.taken n hq).1]
    exact h.opened n hn

theorem RequestsStep.fresh (hs : RequestsStep sh a q sh' q') (hb : Booked sh q r callers)
    (h : Fresh sh q r) : Fresh sh' q' r := by
  have hupdate : ∀ {n : Nat} {g : MessageBase → MessageBase}, q.request = some n →
      ∀ k, q.request ≠ some k → (sh.updateRequest n g).request k = sh.request k := by
    intro n g hn k hk
    refine sh.updateRequest_of_ne ?_ g
    rintro rfl
    exact hk hn
  cases hs with
  | @dequeue n rest connected hq hstate =>
    have hqueued : (n :: (rest ++ sh.dequeued)).Nodup := by
      have hnodup := h.queued
      rwa [hq, List.cons_append] at hnodup
    have hnot : n ∉ sh.dequeued := fun hn =>
      (List.nodup_cons.mp hqueued).1 (List.mem_append_right rest hn)
    have hflow : flow { sh with requestQueue := rest, dequeued := sh.dequeued ++ [n] }
        (if connected then .push n else .openConnection n) r =
        n :: flow sh (.awaitNextRequest connected) r := by
      cases connected <;> rfl
    have htaken : (if connected then RequestsPc.push n else .openConnection n).request = some n := by
      cases connected <;> rfl
    refine ⟨?_, ?_, ?_, ?_, ?_, ?_⟩
    · rw [← List.append_assoc]
      exact (List.perm_append_singleton n _).nodup_iff.mpr hqueued
    · rw [hflow]
      exact List.nodup_cons.mpr ⟨fun hn => hnot (h.dequeued n hn), h.flowing⟩
    · rw [hflow]
      intro k hk
      rcases List.mem_cons.mp hk with rfl | hk
      · exact List.mem_append_right _ List.mem_cons_self
      · exact List.mem_append_left _ (h.dequeued k hk)
    · rw [hflow]
      rintro k (hk | hk)
      · exact h.response k (.inl fun hmem => hk (List.mem_append_left _ hmem))
      · rcases List.mem_cons.mp hk with rfl | hk
        · exact h.response k (.inl hnot)
        · exact h.response k (.inr hk)
    · rw [htaken]
      rintro k ⟨⟩
      refine ⟨List.mem_append_right _ List.mem_cons_self, ?_⟩
      rintro (hcons | hclosed)
      · rw [hstate] at hcons
        cases hcons
      · rw [h.opened n hnot] at hclosed
        cases hclosed
    · exact fun k hk => h.opened k fun hmem => hk (List.mem_append_left _ hmem)
  | noMore connected =>
    exact h.stay rfl rfl rfl (List.Sublist.refl _) (fun _ _ => rfl) fun n hn => by cases hn
  | connected n _ => exact h.stay rfl rfl rfl (List.Sublist.refl _) (fun _ _ => rfl) fun k hk => ⟨hk, id⟩
  | refused n _ =>
    exact h.stay rfl rfl rfl (List.sublist_cons_self n _) (fun _ _ => rfl) fun k hk => ⟨hk, id⟩
  | updateStatus n status =>
    refine h.stay rfl rfl rfl (List.Sublist.refl _) (hupdate rfl) ?_
    rintro k ⟨⟩
    refine ⟨rfl, ?_⟩
    rw [Shared.updateRequest_self]
    exact (MessageBase.resolved_updateStatus _ _ _).mp
  | close n =>
    exact h.stay rfl rfl rfl (List.Sublist.refl _) (hupdate rfl) fun k hk => by cases hk
  | push n =>
    rw [hb.pushResponse]
    have hperm : (flow { sh with responseQueue := sh.responseQueue ++ [n] } (.serialize n) r).Perm
        (flow sh (.push n) r) := by
      simp only [flow, RequestsPc.response, Option.toList_some, Option.toList_none, List.nil_append]
      exact (List.perm_append_comm).append_right _
    refine ⟨h.queued, hperm.nodup_iff.mpr h.flowing, ?_, ?_, h.taken, h.opened⟩
    · exact fun k hk => h.dequeued k (hperm.mem_iff.mp hk)
    · exact fun k hk => h.response k (hk.imp_right hperm.mem_iff.mp)
  | written n => exact h.stay rfl rfl rfl (List.Sublist.refl _) (fun _ _ => rfl) fun k hk => ⟨hk, id⟩
  | notWritten n _ =>
    exact h.stay rfl rfl rfl (List.Sublist.refl _) (fun _ _ => rfl) fun k hk => by cases hk
  | consumed n =>
    exact h.stay rfl rfl rfl (List.Sublist.refl _) (hupdate rfl) fun k hk => by cases hk
  | exit => exact h.stay rfl rfl rfl (List.Sublist.refl _) (fun _ _ => rfl) fun k hk => by cases hk
  | joined => exact h.stay rfl rfl rfl (List.Sublist.refl _) (fun _ _ => rfl) fun k hk => by cases hk

/-- A step of `process_responses` with the response that it has, which may get lost or be resolved. -/
theorem Fresh.serve (h : Fresh sh q r) (hqueue : sh'.requestQueue = sh.requestQueue)
    (hdeq : sh'.dequeued = sh.dequeued) (hreq : sh'.request = sh.request)
    (hflow : (flow sh' q r').Subperm (flow sh q r))
    (hresp : ∀ n, n ∉ sh.dequeued ∨ n ∈ flow sh' q r' →
      (sh'.response n).Resolved .kInitialized → (sh.response n).Resolved .kInitialized) :
    Fresh sh' q r' where
  queued := by rw [hqueue, hdeq]; exact h.queued
  flowing := by
    obtain ⟨l, hperm, hsub⟩ := hflow
    exact hperm.nodup_iff.mp (h.flowing.sublist hsub)
  dequeued n hn := by
    rw [hdeq]
    exact h.dequeued n (hflow.subset hn)
  response n hn hr := by
    rw [hdeq] at hn
    exact h.response n (hn.imp_right fun hmem => hflow.subset hmem) (hresp n hn hr)
  taken n hn := by
    rw [hdeq, hreq]
    exact h.taken n hn
  opened n hn := by
    rw [hdeq] at hn
    rw [hreq]
    exact h.opened n hn

theorem ResponsesStep.fresh (hs : ResponsesStep sh a r sh' r') (h : Fresh sh q r) :
    Fresh sh' q r' := by
  -- the response that `process_responses` has is nowhere else
  have hgone : ∀ n, r.response = some n →
      ∀ k, k ∉ sh.dequeued ∨ k ∈ q.response.toList ++ sh.responseQueue → k ≠ n := by
    rintro n hn k hk rfl
    have hnodup := h.flowing
    have hdeq := h.dequeued k (by rw [flow, hn]; simp)
    rw [flow, hn, Option.toList_some] at hnodup
    rcases hk with hk | hk
    · exact hk hdeq
    · exact (List.nodup_append.mp hnodup).2.2 k hk k (by simp) rfl
  have hsub : ∀ {sh' r'}, sh'.responseQueue = sh.responseQueue → r'.response = none →
      (flow sh' q r').Subperm (flow sh q r) := by
    intro sh' r' hqueue hr'
    rw [flow, hqueue, hr', Option.toList_none, List.append_nil]
    exact (List.sublist_append_left _ _).subperm
  have hresolve : ∀ {n r'} (g : MessageBase → MessageBase), r.response = some n → r'.response = none →
      Fresh (sh.updateResponse n g) q r' := by
    intro n r' g hn hr'
    refine h.serve rfl rfl rfl (hsub rfl hr') ?_
    intro k hk hres
    rw [flow, hr', Option.toList_none, List.append_nil] at hk
    rwa [Shared.updateResponse_of_ne _ (hgone n hn k hk)] at hres
  cases hs with
  | @pop n rest hq =>
    have hperm : (flow { sh with responseQueue := rest } q (.readNextResponse n)).Perm
        (flow sh q .awaitNext) := by
      simp only [flow, hq, ResponsesPc.response, Option.toList_some, Option.toList_none,
        List.append_nil, List.append_assoc]
      exact (List.perm_append_singleton n rest).append_left _
    exact h.serve rfl rfl rfl hperm.subperm fun _ _ => id
  | noMore => exact h.serve rfl rfl rfl (List.Subperm.refl _) fun _ _ => id
  | valid n => exact h.serve rfl rfl rfl (List.Subperm.refl _) fun _ _ => id
  | invalid n => exact h.serve rfl rfl rfl (List.Subperm.refl _) fun _ _ => id
  | notRead n status => exact h.serve rfl rfl rfl (hsub rfl rfl) fun _ _ => id
  | updateStatus n =>
    refine h.serve rfl rfl rfl (List.Subperm.refl _) ?_
    intro k _ hk
    by_cases hkn : k = n
    · rw [hkn, Shared.updateResponse_self] at hk
      rw [hkn]
      exact (MessageBase.resolved_updateStatus _ _ _).mp hk
    · rwa [Shared.updateResponse_of_ne _ hkn] at hk
  | close n => exact hresolve _ rfl rfl
  | initialized n info => exact hresolve _ rfl rfl
  | serve _ hr' _ _ => exact h.serve rfl rfl rfl (hsub rfl hr') fun _ _ => id
  | exit => exact h.serve rfl rfl rfl (List.Subperm.refl _) fun _ _ => id

theorem Aside.fresh (ha : Aside sh sh') (h : Fresh sh q r)
    (hqueued : (sh'.requestQueue ++ sh.dequeued).Nodup)
    (hopened : ∀ n, (sh'.request n).closed = (sh.request n).closed) : Fresh sh' q r where
  queued := by rw [ha.dequeued]; exact hqueued
  flowing := by rw [flow, ha.responseQueue]; exact h.flowing
  dequeued n hn := by
    rw [flow, ha.responseQueue] at hn
    rw [ha.dequeued]
    exact h.dequeued n hn
  response n hn := by
    rw [ha.dequeued, flow, ha.responseQueue] at hn
    rw [ha.response]
    exact h.response n hn
  taken n hn := by
    obtain ⟨hdeq, hres⟩ := h.taken n hn
    rw [ha.dequeued, ha.request n hdeq]
    exact ⟨hdeq, hres⟩
  opened n hn := by
    rw [ha.dequeued] at hn
    rw [hopened]
    exact h.opened n hn

theorem CallerStep.fresh {n : Nat} {pc pc' : CallerPc} (hs : CallerStep sh n pc sh' pc')
    (hb : Booked sh q r callers) (hpc : callers[n]? = some pc) (h : Fresh sh q r) : Fresh sh' q r := by
  have ha := hs.aside hb hpc
  cases hs with
  | prepare =>
    refine ha.fresh h h.queued ?_
    intro k
    by_cases hkn : k = n
    · rw [hkn, Shared.updateRequest_self]
      rfl
    · rw [Shared.updateRequest_of_ne _ hkn]
  | submit =>
    have hnew : (sh.requestQueue ++ [n] ++ sh.dequeued).Nodup := by
      rw [List.append_assoc, List.singleton_append, List.perm_middle.nodup_iff]
      refine List.nodup_cons.mpr ⟨?_, h.queued⟩
      rw [List.mem_append]
      exact hb.submitted hpc rfl
    unfold Shared.pushRequest at ha ⊢
    split at ha
    · rename_i hclosed
      rw [if_pos hclosed]
      exact h
    · rename_i hopen
      rw [if_neg hopen]
      exact ha.fresh h hnew fun _ => rfl
  | wait _ _ => exact h

/-! ## Orphans -/

def RequestsPc.exiting : RequestsPc → Bool
  | .onExit | .joinFill | .returned => true
  | _ => false

/-- The connection was not opened, or `process_requests` is about to return. -/
def RequestsPc.failing : RequestsPc → Bool
  | .updateStatus _ _ | .closeRequest _ | .onExit | .joinFill | .returned => true
  | _ => false

def ResponsesPc.exiting : ResponsesPc → Bool
  | .onExit | .returned => true
  | _ => false

/-- A message that is not resolved, and no task that goes on has it. -/
inductive Orphan (sh : Shared) (q : RequestsPc) (r : ResponsesPc) : Prop
  | request {n : Nat} (hn : n ∈ sh.dequeued) (h : ¬ (sh.request n).Resolved .kConsumed)
      (hq : q.exiting = true)
  | unread {n : Nat} (hn : n ∈ sh.dequeued) (h : ¬ (sh.response n).Resolved .kInitialized)
      (hr : r.exiting = true)
  | unsent {n : Nat} (hn : n ∈ sh.dequeued) (h : ¬ (sh.response n).Resolved .kInitialized)
      (hq : q.failing = true) (hqueue : n ∉ sh.responseQueue) (hr : r.response ≠ some n)

theorem Orphan.not_settled (h : Orphan sh q r) :
    ¬ Settled sh := by
  intro hset
  cases h with
  | request hn h _ => exact h (hset _ hn).1
  | unread hn h _ => exact h (hset _ hn).2
  | unsent hn h _ _ _ => exact h (hset _ hn).2

/-! ### No step takes an orphan back -/

theorem Aside.orphan (ha : Aside sh sh') (h : Orphan sh q r) : Orphan sh' q r := by
  cases h with
  | request hn h hq => exact .request (ha.dequeued ▸ hn) (by rwa [ha.request _ hn]) hq
  | unread hn h hr => exact .unread (ha.dequeued ▸ hn) (by rwa [ha.response]) hr
  | unsent hn h hq hqueue hr =>
    exact .unsent (ha.dequeued ▸ hn) (by rwa [ha.response]) hq (ha.responseQueue ▸ hqueue) hr

theorem RequestsStep.dequeued_mono (hs : RequestsStep sh a q sh' q') {n : Nat}
    (hn : n ∈ sh.dequeued) : n ∈ sh'.dequeued := by
  cases hs with
  | dequeue _ _ _ => exact List.mem_append_left _ hn
  | push k =>
    unfold Shared.pushResponse
    split <;> exact hn
  | _ => exact hn

theorem RequestsStep.orphan (hs : RequestsStep sh a q sh' q') (h : Orphan sh q r) :
    Orphan sh' q' r := by
  have hresp := hs.frame.1
  cases h with
  | request hn h hq =>
    cases hs with
    | exit => exact .request hn h rfl
    | joined => exact .request hn h rfl
    | _ => cases hq
  | unread hn h hr => exact .unread (hs.dequeued_mono hn) (by rwa [hresp]) hr
  | unsent hn h hq hqueue hr =>
    cases hs with
    | updateStatus _ _ => exact .unsent hn h rfl hqueue hr
    | close _ => exact .unsent hn h rfl hqueue hr
    | exit => exact .unsent hn h rfl hqueue hr
    | joined => exact .unsent hn h rfl hqueue hr
    | _ => cases hq

theorem ResponsesStep.orphan (hs : ResponsesStep sh a r sh' r') (h : Orphan sh q r) :
    Orphan sh' q r' := by
  obtain ⟨hreq, -, hdeq, -⟩ := hs.frame
  cases h with
  | request hn h hq => exact .request (hdeq ▸ hn) (by rwa [hreq]) hq
  | unread hn h hr =>
    cases hs with
    | exit => exact .unread hn h rfl
    | serve _ _ hexit hreturned =>
      cases r with
      | onExit => exact absurd rfl hexit
      | returned => exact absurd rfl hreturned.1
      | _ => cases hr
    | _ => cases hr
  | @unsent n hn h hq hqueue hr =>
    have hother : ∀ {k : Nat} (g : MessageBase → MessageBase), some k ≠ some n →
        ¬ ((sh.updateResponse k g).response n).Resolved .kInitialized := by
      intro k g hk
      rwa [Shared.updateResponse_of_ne _ fun hnk => hk (congrArg some hnk.symm)]
    cases hs with
    | pop heq =>
      rw [heq] at hqueue
      refine .unsent hn h hq (fun hmem => hqueue (List.mem_cons_of_mem _ hmem)) ?_
      rintro ⟨⟩
      exact hqueue List.mem_cons_self
    | noMore => exact .unsent hn h hq hqueue (by simp [ResponsesPc.response])
    | valid k => exact .unsent hn h hq hqueue hr
    | invalid k => exact .unsent hn h hq hqueue hr
    | notRead k status => exact .unsent hn h hq hqueue (by simp [ResponsesPc.response])
    | updateStatus k => exact .unsent hn (hother _ hr) hq hqueue hr
    | close k => exact .unsent hn (hother _ hr) hq hqueue (by simp [ResponsesPc.response])
    | initialized k info => exact .unsent hn (hother _ hr) hq hqueue (by simp [ResponsesPc.response])
    | serve _ hr' _ _ => exact .unsent hn h hq hqueue (by simp [hr'])
    | exit => exact .unsent hn h hq hqueue (by simp [ResponsesPc.response])

/-! ### A step that does not meet the condition leaves one -/

theorem RequestsStep.orphan_of_not_meets (hs : RequestsStep sh a q sh' q')
    (hb : Booked sh q r callers) (h : Fresh sh q r)
    (hmeets : meets (conf sh q r f callers) 0 a ≠ true) : Orphan sh' q' r := by
  cases hs with
  | refused n hopen =>
    have hmem : n ∈ flow sh (.openConnection n) r := List.mem_cons_self
    have hnot : n ∉ sh.responseQueue ++ r.response.toList := (List.nodup_cons.mp h.flowing).1
    rw [List.mem_append, not_or] at hnot
    refine .unsent (h.dequeued n hmem) (h.response n (.inr hmem)) rfl hnot.1 ?_
    intro hr
    exact hnot.2 (by simp [hr])
  | push n =>
    have hread : sh.inputClosedForRead = true := by simpa [meets, conf] using hmeets
    have hmem : n ∈ flow sh (.push n) r := List.mem_cons_self
    obtain rfl := hb.returned.mp hread
    rw [hb.pushResponse]
    exact .unread (h.dequeued n hmem) (h.response n (.inr hmem)) rfl
  | notWritten n status =>
    obtain ⟨hdeq, hres⟩ := h.taken n rfl
    exact .request hdeq hres rfl
  | connected n hopen =>
    exact absurd (by simp [meets, conf, hopen, Except.isOk, Except.toBool]) hmeets
  | _ => exact absurd rfl hmeets

theorem ResponsesStep.orphan_of_not_meets (hs : ResponsesStep sh a r sh' r') (h : Fresh sh q r)
    (hmeets : meets (conf sh q r f callers) 1 a ≠ true) : Orphan sh' q r' := by
  cases hs with
  | notRead n status =>
    have hmem : n ∈ flow sh q (.readNextResponse n) := mem_flow.mpr (.inr (.inr rfl))
    exact .unread (h.dequeued n hmem) (h.response n (.inr hmem)) rfl
  | exit =>
    cases hqueue : sh.responseQueue with
    | nil => exact absurd (by simp [meets, conf, hqueue]) hmeets
    | cons n rest =>
      have hmem : n ∈ flow sh q .onExit := mem_flow.mpr (.inr (.inl (by simp [hqueue])))
      exact .unread (h.dequeued n hmem) (h.response n (.inr hmem)) rfl
  | serve hr _ hexit _ =>
    cases r with
    | onExit => exact absurd rfl hexit
    | readNextResponse n => cases hr
    | _ => exact absurd rfl hmeets
  | _ => exact absurd rfl hmeets

/-! ## Runs -/

theorem fresh_init {k : Nat} {response : Nat → MessageBase}
    (hnew : ∀ n, ¬ (response n).Resolved .kInitialized) :
    Fresh (init k response).shared (.awaitNextRequest false) .awaitNext where
  queued := List.nodup_nil
  flowing := List.nodup_nil
  dequeued n hn := by cases hn
  response n _ := hnew n
  taken n hn := by cases hn
  opened n _ := rfl

/-- A step of a task that is not one of the two lets go of nothing. -/
theorem meets_of_two_le {i : Nat} (hi : 2 ≤ i) (a : Act) :
    meets (conf sh q r f callers) i a = true := by
  match i, hi with
  | 2, _ => rfl
  | 3, _ => rfl
  | n + 4, _ =>
    have hidx : (conf sh q r f callers).locals[n + 4]? = (callers.mapIdx Task.caller)[n]? := rfl
    unfold meets
    rw [hidx, List.getElem?_mapIdx]
    cases callers[n]? <;> rfl

/-- The steps so far met the condition, or one of them left an orphan. -/
def Tracked (c₀ : Conf Shared Task) (past : List (Nat × Act)) (c : Conf Shared Task) : Prop :=
  Holds (fun sh q r callers => Booked sh q r callers ∧
    (Fresh sh q r ∧ machine.runWhere meets past c₀ = some c ∨ Orphan sh q r)) c

theorem Tracked.step {c₀ c c' : Conf Shared Task} {past : List (Nat × Act)} {i : Nat}
    (h : Tracked c₀ past c) (hf : machine.fire i a c = some c') :
    Tracked c₀ (past ++ [(i, a)]) c' := by
  obtain ⟨sh, q, r, f, callers, rfl, hb, hcase⟩ := h
  have hmoved := moved_of_fire hf
  rcases hcase with ⟨hfresh, hwhere⟩ | horphan
  · by_cases hmeets : meets (conf sh q r f callers) i a = true
    · have hnext : machine.runWhere meets (past ++ [(i, a)]) c₀ = some c' := by
        rw [Machine.runWhere_append, hwhere, Option.bind_some, Machine.runWhere, if_pos hmeets, hf]
        rfl
      refine hmoved.holds hb ?_ ?_ ?_ ?_
      · exact fun sh' q' _ hs => .inl ⟨hs.fresh hb hfresh, hnext⟩
      · exact fun sh' r' _ hs => .inl ⟨hs.fresh hfresh, hnext⟩
      · intro sh' _ ha hreq hqueue
        refine .inl ⟨ha.fresh hfresh ?_ fun n => by rw [hreq], hnext⟩
        exact hfresh.queued.sublist (hqueue.append_right _)
      · exact fun sh' n pc pc' _ hpc hs _ => .inl ⟨hs.fresh hb hpc hfresh, hnext⟩
    · refine hmoved.holds hb ?_ ?_ ?_ ?_
      · rintro sh' q' rfl hs
        exact .inr (hs.orphan_of_not_meets hb hfresh hmeets)
      · rintro sh' r' rfl hs
        exact .inr (hs.orphan_of_not_meets hfresh hmeets)
      · exact fun sh' hi _ _ _ => absurd (meets_of_two_le hi a) hmeets
      · exact fun sh' n pc pc' hi _ _ _ => absurd (meets_of_two_le hi a) hmeets
  · refine hmoved.holds hb ?_ ?_ ?_ ?_
    · exact fun sh' q' _ hs => .inr (hs.orphan horphan)
    · exact fun sh' r' _ hs => .inr (hs.orphan horphan)
    · exact fun sh' _ ha _ _ => .inr (ha.orphan horphan)
    · exact fun sh' n pc pc' _ _ _ ha => .inr (ha.orphan horphan)

/-- A run meets the condition at every step, or leaves an orphan. -/
theorem meets_or_orphan {k : Nat} {response : Nat → MessageBase}
    (hnew : ∀ n, ¬ (response n).Resolved .kInitialized) {sched : List (Nat × Act)}
    {c : Conf Shared Task} (hrun : machine.run sched (init k response) = some c) :
    machine.runWhere meets sched (init k response) = some c ∨
      Holds (fun sh q r _ => Orphan sh q r) c := by
  have hinit : Tracked (init k response) [] (init k response) :=
    ⟨_, _, _, _, _, rfl, booked_init k response, .inl ⟨fresh_init (k := k) hnew, rfl⟩⟩
  have hhist : Tracked (init k response) ([] ++ sched) c :=
    machine.history_runWhere (fun _ _ _ _ _ h _ hf => h.step hf) hinit hrun
  obtain ⟨sh, q, r, f, callers, rfl, -, ⟨-, hwhere⟩ | horphan⟩ := hhist
  · exact .inl hwhere
  · exact .inr ⟨sh, q, r, f, callers, rfl, horphan⟩

/-- A caller that waits for a resolved message goes on. -/
theorem caller_goes_on {n : Nat} {pc : CallerPc} (hset : Settled sh) (hn : n ∈ sh.dequeued)
    (hpc : callers[n]? = some pc) (hwait : pc = .awaitRequest ∨ pc = .awaitResponse) :
    (machine.fire (n + 4) .run (conf sh q r f callers)).isSome = true := by
  have hlocal : (conf sh q r f callers).locals[n + 4]? = some (.caller n pc) := by
    have hidx : (conf sh q r f callers).locals[n + 4]? = (callers.mapIdx Task.caller)[n]? := rfl
    rw [hidx, List.getElem?_mapIdx, hpc]
    rfl
  obtain ⟨hreq, hresp⟩ := hset n hn
  have hstep : ∃ next, httpRequest .run n sh pc = some next := by
    rcases hwait with rfl | rfl
    · obtain ⟨status, hstatus⟩ := MessageBase.awaitEqual_of_resolved hreq
      exact ⟨_, by rw [httpRequest, hstatus, Option.map_some]⟩
    · obtain ⟨status, hstatus⟩ := MessageBase.awaitEqual_of_resolved hresp
      exact ⟨_, by rw [httpRequest, hstatus, Option.map_some]⟩
  obtain ⟨next, hnext⟩ := hstep
  have hsh : (conf sh q r f callers).shared = sh := rfl
  simp [Machine.fire, hlocal, hsh, machine, step, hnext]

/-- **A connection resolves what it has dequeued if no step lets go of a message.** When both tasks
    have returned, every request that was dequeued is consumed or closed and its response initialized
    or closed, and no caller is left waiting, in every run whose steps all meet the condition; and for
    callers that bring new responses, only in these. -/
theorem settled_iff_meets {k : Nat} {response : Nat → MessageBase} {sched : List (Nat × Act)}
    {c : Conf Shared Task} (hrun : machine.run sched (init k response) = some c)
    (hrequests : c.locals[0]? = some (.requests .returned))
    (hresponses : c.locals[1]? = some (.responses .returned)) :
    (machine.runWhere meets sched (init k response) = some c →
      Settled c.shared ∧ ∀ n ∈ c.shared.dequeued, ∀ pc, c.locals[n + 4]? = some (.caller n pc) →
        pc = .awaitRequest ∨ pc = .awaitResponse → (machine.fire (n + 4) .run c).isSome = true) ∧
    ((∀ n, ¬ (response n).Resolved .kInitialized) → Settled c.shared →
      machine.runWhere meets sched (init k response) = some c) := by
  refine ⟨?_, ?_⟩
  · intro hwhere
    obtain ⟨sh, q, r, f, callers, rfl, hb, hheld⟩ := held_of_meets ⟨sched, hwhere⟩
    cases hrequests
    cases hresponses
    have hempty := hheld.drained (hb.returned.mpr rfl)
    have hset : Settled sh := by
      intro n hn
      refine ⟨(hheld.request n hn).resolve_right (by simp [RequestsPc.request]), ?_⟩
      refine (hheld.response n hn).resolve_right ?_
      simp [mem_flow, RequestsPc.response, ResponsesPc.response, hempty]
    refine ⟨hset, ?_⟩
    intro n hn pc hpc hwait
    have hidx : (callers.mapIdx Task.caller)[n]? = some (.caller n pc) := hpc
    rw [List.getElem?_mapIdx] at hidx
    obtain ⟨pc', hpc', heq⟩ := Option.map_eq_some_iff.mp hidx
    cases heq
    exact caller_goes_on hset hn hpc' hwait
  · intro hnew hset
    rcases meets_or_orphan hnew hrun with hwhere | ⟨sh, q, r, f, callers, rfl, horphan⟩
    · exact hwhere
    · exact absurd hset horphan.not_settled

/-- One request that is answered; then there are no more. -/
def answered : List (Nat × Act) :=
  [(4, .run), (4, .run), (0, .run), (0, .hosts (.ok [false, true])), (0, .run), (0, .status (.ok ())),
    (0, .run), (1, .run), (1, .message (.ok ⟨1, 0, 200, [], []⟩)), (1, .run), (1, .status (.ok ())),
    (1, .status (.ok ())), (1, .status (.ok ())), (1, .run), (2, .run), (2, .run), (2, .run),
    (3, .closeRequestQueue), (0, .closed), (0, .run), (0, .run)]

theorem settled_iff_meets_answered :
    ∃ c, machine.run answered (init 1 fun _ => .new) = some c ∧
      machine.runWhere meets answered (init 1 fun _ => .new) = some c ∧
      c.locals[0]? = some (.requests .returned) ∧ c.locals[1]? = some (.responses .returned) ∧
      c.shared.dequeued = [0] ∧ Settled c.shared := by
  have hwhere : machine.runWhere meets answered (init 1 fun _ => .new) = some _ := rfl
  have hrun := machine.run_of_runWhere hwhere
  exact ⟨_, hrun, hwhere, rfl, rfl, rfl, ((settled_iff_meets hrun rfl rfl).1 hwhere).1⟩

/-- The peer takes the connection and is gone when the request is written. -/
def unwritten : List (Nat × Act) :=
  [(4, .run), (4, .run), (0, .run), (0, .hosts (.ok [true])), (0, .run),
    (0, .status (.error .kUnavailable)), (0, .run), (1, .run), (1, .message (.error .kEndOfStream)),
    (1, .run), (2, .run), (2, .run), (2, .run), (0, .run)]

/-- Its caller waits for a request that is neither consumed nor closed. -/
theorem unwritten_not_settled :
    ∃ c, machine.run unwritten (init 1 fun _ => .new) = some c ∧
      c.locals[0]? = some (.requests .returned) ∧ c.locals[1]? = some (.responses .returned) ∧
      c.locals[4]? = some (.caller 0 .awaitRequest) ∧ ¬ Settled c.shared ∧
      ∀ a, (machine.fire 4 a c).isNone = true := by
  refine ⟨_, rfl, rfl, rfl, rfl, ?_, ?_⟩
  · intro hset
    rcases (hset 0 (by decide)).1 with h | h <;> cases h
  · intro a
    cases a <;> rfl

end Batt.Http.Client
