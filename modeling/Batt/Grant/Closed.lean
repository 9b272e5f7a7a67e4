/-
  Calls made on a closed pool or a revoked grant.

  `close()` and `revoke()` set the closed bit of a watch, which no step clears
  (`closed_fire`, `returned_closes`). But `modify_if` looks at the count only, so a transfer
  from a closed watch is denied only if its compare-exchange never finds the units: a pool keeps
  what it has when it is closed, and units can be subsumed into a revoked grant. A transfer
  that waits is denied with the status of the watch, not with that of a revoked grant.
  `closed_denies_iff` says exactly when a later call fails as it should.
-/
import Batt.Grant.Conserve

namespace Batt.Grant

open Interleave

/-! ## The closed bit -/

variable {sh sh' : Shared}

theorem isClosed_grant {g : Nat} {closed : Bool} (h : sh.isClosed (.grant g) = some closed) :
    ∃ gr, sh.grants[g]? = some gr ∧ gr.closed = closed :=
  Option.map_eq_some_iff.mp h

/-- Changing a grant does not open another one, nor itself if `u` keeps it closed. -/
theorem isClosed_modify {g h : Nat} {u : GrantState → GrantState}
    (hu : ∀ gr, gr.closed = true → (u gr).closed = true)
    (hclosed : sh.isClosed (.grant g) = some true) :
    ({ sh with grants := sh.grants.modify h u } : Shared).isClosed (.grant g) = some true := by
  obtain ⟨gr, hgr, hc⟩ := isClosed_grant hclosed
  simp only [Shared.isClosed, getElem?_modify u hgr, Option.map_some]
  split
  · rw [hu gr hc]
  · rw [hc]

theorem isClosed_construct {g : Nat} {issuer : Bool} {size : UInt64}
    (hclosed : sh.isClosed (.grant g) = some true) :
    (sh.construct issuer size).isClosed (.grant g) = some true := by
  obtain ⟨gr, hgr, hc⟩ := isClosed_grant hclosed
  simp only [Shared.isClosed, construct_grants sh issuer size hgr, Option.map_some, hc]

variable {source : Source} {c c' : Conf Shared Local} {sched : List (Nat × Act)} {pc pc' : Pc}
  {debug : Bool}

theorem trans_closed (ht : Trans sh pc sh' pc') (hclosed : sh.isClosed source = some true) :
    sh'.isClosed source = some true := by
  cases source with
  | available =>
    cases ht with
    | take source count wait v has enough => cases source <;> exact hclosed
    | closeAvailable => rfl
    | _ => exact hclosed
  | grant g =>
    cases ht with
    | quiet idle uses plain => exact hclosed
    | take source count wait v has enough =>
      cases source with
      | available => exact hclosed
      | grant h => exact isClosed_modify (fun _ => id) hclosed
    | makeGrant count ret => exact isClosed_construct hclosed
    | setZero h caller size has => exact isClosed_modify (fun _ => id) hclosed
    | recycleGrow count => exact hclosed
    | recycle count h caller => exact hclosed
    | closeSize h caller => exact isClosed_modify (fun _ _ => rfl) hclosed
    | endLife h => exact isClosed_modify (fun _ => id) hclosed
    | subsumeTake this that count has => exact isClosed_modify (fun _ => id) hclosed
    | subsumeAdd this count size has => exact isClosed_modify (fun _ => id) hclosed
    | moveTake h size has => exact isClosed_modify (fun _ => id) hclosed
    | moveMake issuer size ret => exact isClosed_construct hclosed
    | growTotal count => exact hclosed
    | closeAvailable => exact hclosed

/-- A watch that is closed stays closed. -/
theorem closed_fire {i : Nat} {a : Act} (hf : (machine debug).fire i a c = some c')
    (hclosed : c.shared.isClosed source = some true) :
    c'.shared.isClosed source = some true := by
  obtain ⟨l, sh', l', hi, hadm, hs, rfl⟩ := (machine debug).fire_cases hf
  rcases step_cases hs with ⟨op, pc, rfl, rfl, hb, rfl, rfl⟩ | ⟨ret, rfl, rfl, rfl⟩ |
    ⟨pc, pc', rfl, ht, rfl⟩
  · exact hclosed
  · exact hclosed
  · exact trans_closed ht hclosed

/-! ## One call -/

/-- Thread `i` does not return from the call it is in. -/
def inCall (i : Nat) (c : Conf Shared Local) (j : Nat) (_ : Act) : Bool :=
  match c.locals[i]? with
  | some (.running (.finish _)) => j != i
  | _ => true

/-- The step is a compare-exchange of thread `i` that finds the units it has observed. -/
def takes (i : Nat) (c : Conf Shared Local) (j : Nat) : Act → Bool
  | .run =>
    j == i &&
      match c.locals[i]? with
      | some (.running (.modifyIfCas source count _ observed)) =>
        decide (count ≤ observed) && c.shared.get source == some observed
      | _ => false
  | _ => false

/-- Thread `i` does not return, and finds the units nowhere. -/
def denied (i : Nat) (c : Conf Shared Local) (j : Nat) (a : Act) : Bool :=
  inCall i c j a && !takes i c j a

/-- With what a transfer from a closed watch is denied. -/
def deniedStatus (wait : Bool) : StatusCode := if wait then .kClosed else .kGrantRevoked

/-- A transfer that has not found the units so far. -/
def Pending (source : Source) (count : UInt64) (wait : Bool) : Pc → Prop
  | .modifyIfLoad s n w => s = source ∧ n = count ∧ w = wait
  | .modifyIfCas s n w _ => s = source ∧ n = count ∧ w = wait
  | .isClosed s => s = source ∧ wait = false
  | .awaitTrue s n => s = source ∧ n = count ∧ wait = true
  | .awaitNotEqual s n => s = source ∧ n = count ∧ wait = true
  | .finish ret => ret = .status (deniedStatus wait)
  | _ => False

/-- A transfer that has found them. -/
def Granted : Pc → Prop
  | .makeGrant _ => True
  | .finish (.grant _) => True
  | _ => False

theorem get_of_closed (h : sh.isClosed source = some true) :
    ∃ v, sh.get source = some v := by
  cases source with
  | available => exact ⟨_, rfl⟩
  | grant g =>
    obtain ⟨gr, hgr, _⟩ := isClosed_grant h
    exact ⟨gr.size, by simp only [Shared.get, hgr, Option.map_some]⟩

section Steps

variable {debug : Bool} {source : Source} {count : UInt64} {wait : Bool}

/-- An access of a transfer that is pending on a closed watch: it finds the units, or it stays
    pending. -/
theorem pending_exec {weak : Bool} (hclosed : sh.isClosed source = some true)
    (hp : Pending source count wait pc) (he : exec debug weak sh pc = some (sh', pc')) :
    (Granted pc' ∧ weak = true ∧ ∃ observed, pc = .modifyIfCas source count wait observed ∧
        count ≤ observed ∧ sh.get source = some observed) ∨
      (Pending source count wait pc' ∧ ∀ observed, pc = .modifyIfCas source count wait observed →
        weak = true → count ≤ observed → sh.get source ≠ some observed) := by
  cases pc with
  | modifyIfLoad s n w =>
    obtain ⟨v, _, hr⟩ := Option.map_eq_some_iff.mp he
    cases hr
    exact .inr ⟨hp, by simp⟩
  | modifyIfCas s n w observed =>
    obtain ⟨rfl, rfl, rfl⟩ := hp
    simp only [exec] at he
    split at he
    · next henough =>
      obtain ⟨v, hv, hr⟩ := Option.map_eq_some_iff.mp he
      split at hr
      · next hcas =>
        obtain ⟨hweak, rfl⟩ := hcas
        cases hr
        exact .inl ⟨trivial, hweak, v, rfl, henough, hv⟩
      · next hcas =>
        cases hr
        refine .inr ⟨⟨rfl, rfl, rfl⟩, ?_⟩
        rintro observed' ⟨⟩ hweak _ hget
        rw [hv] at hget
        cases hget
        exact hcas ⟨hweak, rfl⟩
    · next hshort =>
      refine .inr ⟨?_, ?_⟩
      · split at he
        · next hwait =>
          cases he
          exact ⟨rfl, rfl, hwait⟩
        · next hwait =>
          cases he
          exact ⟨rfl, Bool.eq_false_iff.mpr hwait⟩
      · rintro observed' ⟨⟩ _ henough _
        exact hshort henough
  | isClosed s =>
    obtain ⟨rfl, rfl⟩ := hp
    simp only [exec, hclosed, Option.map_some] at he
    cases he
    exact .inr ⟨rfl, by simp⟩
  | awaitTrue s n =>
    obtain ⟨rfl, rfl, rfl⟩ := hp
    obtain ⟨v, _, hr⟩ := Option.map_eq_some_iff.mp he
    cases hr
    refine .inr ⟨?_, by simp⟩
    split
    · exact ⟨rfl, rfl, rfl⟩
    · exact ⟨rfl, rfl, rfl⟩
  | awaitNotEqual s n =>
    obtain ⟨rfl, rfl, rfl⟩ := hp
    simp only [exec, hclosed, Option.bind_some, if_true] at he
    cases he
    exact .inr ⟨rfl, by simp⟩
  | finish ret => cases he
  | makeGrant | setZero | recycle | closeSize | endLife | subsumeTake | subsumeAdd | moveTake
  | moveMake | growTotal | closeAvailable => cases hp

/-- A transfer that is pending on a closed watch and has not finished is not blocked. -/
theorem pending_enabled (hclosed : sh.isClosed source = some true)
    (hp : Pending source count wait pc) (hfinish : ∀ ret, pc ≠ .finish ret) :
    (exec debug true sh pc).isSome := by
  obtain ⟨v, hv⟩ := get_of_closed hclosed
  cases pc with
  | modifyIfLoad s n w =>
    obtain ⟨rfl, _, _⟩ := hp
    simp only [exec, hv, Option.map_some, Option.isSome_some]
  | modifyIfCas s n w observed =>
    obtain ⟨rfl, _, _⟩ := hp
    simp only [exec, hv, Option.map_some]
    split
    · rfl
    · split <;> rfl
  | isClosed s =>
    obtain ⟨rfl, _⟩ := hp
    simp only [exec, hclosed, Option.map_some, Option.isSome_some]
  | awaitTrue s n =>
    obtain ⟨rfl, _, _⟩ := hp
    simp only [exec, hv, Option.map_some, Option.isSome_some]
  | awaitNotEqual s n =>
    obtain ⟨rfl, _, _⟩ := hp
    simp only [exec, hclosed, Option.bind_some, if_true, Option.isSome_some]
  | finish ret => exact absurd rfl (hfinish ret)
  | makeGrant | setZero | recycle | closeSize | endLife | subsumeTake | subsumeAdd | moveTake
  | moveMake | growTotal | closeAvailable => cases hp

/-- The step of a thread that is in a call and does not return from it. -/
theorem step_inCall {a : Act} {l' : Local} (hfinish : ∀ ret, pc ≠ .finish ret)
    (hs : step debug a sh (.running pc) = some (sh', l')) :
    (∃ pc', a = .run ∧ l' = .running pc' ∧ exec debug true sh pc = some (sh', pc')) ∨
    (∃ pc', a = .spurious ∧ l' = .running pc' ∧ exec debug false sh pc = some (sh', pc')) ∨
    (∃ s n v, a = .woken v ∧ pc = .awaitNotEqual s n ∧ sh' = sh ∧
      l' = .running (if v ≥ n then .modifyIfLoad s n true else .awaitNotEqual s n)) := by
  cases a with
  | call op => cases hs
  | run =>
    have hstep : step debug .run sh (.running pc) =
        (exec debug true sh pc).map fun r => (r.1, .running r.2) := by
      cases pc with
      | finish ret => exact absurd rfl (hfinish ret)
      | _ => rfl
    rw [hstep] at hs
    obtain ⟨⟨s, pc'⟩, he, hr⟩ := Option.map_eq_some_iff.mp hs
    cases hr
    exact .inl ⟨pc', rfl, rfl, he⟩
  | spurious =>
    cases pc with
    | modifyIfCas s n w observed =>
      obtain ⟨⟨s, pc'⟩, he, hr⟩ := Option.map_eq_some_iff.mp hs
      cases hr
      exact .inr (.inl ⟨pc', rfl, rfl, he⟩)
    | _ => cases hs
  | woken v =>
    cases pc with
    | awaitNotEqual s n =>
      cases hs
      exact .inr (.inr ⟨s, n, v, rfl, rfl, rfl, rfl⟩)
    | _ => cases hs

/-! ## Runs -/

/-- Thread `i` is in a call, at a point with `P`. -/
def At (i : Nat) (P : Pc → Prop) (c : Conf Shared Local) : Prop :=
  ∃ pc, c.locals[i]? = some (.running pc) ∧ P pc

theorem not_finish_of_inCall {i : Nat} {a : Act} (hi : c.locals[i]? = some (.running pc))
    (hin : inCall i c i a = true) :
    ∀ ret, pc ≠ .finish ret := by
  rintro ret rfl
  simp only [inCall, hi, bne_self_eq_false] at hin
  cases hin

variable {i j : Nat} {a : Act} {c c' : Conf Shared Local}

theorem takes_other (hne : j ≠ i) : takes i c j a = false := by
  cases a with
  | run => simp [takes, hne]
  | _ => rfl

theorem pending_fire (hclosed : c.shared.isClosed source = some true)
    (hp : At i (Pending source count wait) c) (hin : inCall i c j a = true)
    (hf : (machine debug).fire j a c = some c') :
    (takes i c j a = false ∧ At i (Pending source count wait) c') ∨
      (takes i c j a = true ∧ At i Granted c') := by
  obtain ⟨pc, hi, hp⟩ := hp
  obtain ⟨l, sh', l', hj, hadm, hs, rfl⟩ := (machine debug).fire_cases hf
  by_cases hji : j = i
  · subst hji
    rw [hi] at hj
    cases hj
    have hset : ∀ pc', l' = .running pc' → (c.locals.set j l')[j]? = some (.running pc') := by
      rintro pc' rfl
      exact List.getElem?_set_self (List.getElem?_eq_some_iff.mp hi).1
    rcases step_inCall (not_finish_of_inCall hi hin) hs with ⟨pc', rfl, hl', he⟩ |
      ⟨pc', rfl, hl', he⟩ | ⟨s, n, v, rfl, rfl, rfl, hl'⟩
    · rcases pending_exec hclosed hp he with ⟨hg, _, observed, rfl, henough, hget⟩ | ⟨hp', hnot⟩
      · refine .inr ⟨?_, pc', hset pc' hl', hg⟩
        simp only [takes, hi, hget, beq_self_eq_true, Bool.true_and, Bool.and_true]
        exact decide_eq_true henough
      · refine .inl ⟨?_, pc', hset pc' hl', hp'⟩
        simp only [takes, hi, beq_self_eq_true, Bool.true_and]
        cases pc with
        | modifyIfCas s n w observed =>
          obtain ⟨rfl, rfl, rfl⟩ := hp
          by_cases henough : n ≤ observed
          · have hne := hnot observed rfl rfl henough
            simp only [Bool.and_eq_false_iff, beq_eq_false_iff_ne]
            exact .inr hne
          · simp only [Bool.and_eq_false_iff, decide_eq_false_iff_not]
            exact .inl henough
        | _ => rfl
    · rcases pending_exec hclosed hp he with ⟨_, hweak, _⟩ | ⟨hp', _⟩
      · cases hweak
      · exact .inl ⟨rfl, pc', hset pc' hl', hp'⟩
    · refine .inl ⟨rfl, _, hset _ hl', ?_⟩
      split
      · exact ⟨hp.1, hp.2.1, hp.2.2.symm⟩
      · exact hp
  · refine .inl ⟨takes_other hji, pc, ?_, hp⟩
    rw [List.getElem?_set_ne hji]
    exact hi

theorem granted_fire (hg : At i Granted c) (hin : inCall i c j a = true)
    (hf : (machine debug).fire j a c = some c') : At i Granted c' := by
  obtain ⟨pc, hi, hg⟩ := hg
  obtain ⟨l, sh', l', hj, hadm, hs, rfl⟩ := (machine debug).fire_cases hf
  by_cases hji : j = i
  · subst hji
    rw [hi] at hj
    cases hj
    have hset : ∀ pc', l' = .running pc' → (c.locals.set j l')[j]? = some (.running pc') := by
      rintro pc' rfl
      exact List.getElem?_set_self (List.getElem?_eq_some_iff.mp hi).1
    have hfinish := not_finish_of_inCall hi hin
    cases pc with
    | makeGrant n =>
      rcases step_inCall hfinish hs with ⟨pc', rfl, hl', he⟩ | ⟨pc', rfl, hl', he⟩ |
        ⟨s, n, v, rfl, hpc, _⟩
      · cases he
        exact ⟨_, hset _ hl', trivial⟩
      · cases he
        exact ⟨_, hset _ hl', trivial⟩
      · cases hpc
    | finish ret => exact absurd rfl (hfinish ret)
    | _ => cases hg
  · refine ⟨pc, ?_, hg⟩
    rw [List.getElem?_set_ne hji]
    exact hi

theorem granted_run (hg : At i Granted c)
    (hr : (machine debug).runWhere (inCall i) sched c = some c') : At i Granted c' := by
  induction sched generalizing c with
  | nil =>
    cases hr
    exact hg
  | cons e rest ih =>
    obtain ⟨j, a⟩ := e
    unfold Machine.runWhere at hr
    split at hr
    · next hin =>
      obtain ⟨c₁, hf, hrest⟩ := Option.bind_eq_some_iff.mp hr
      exact ih (granted_fire hg hin hf) hrest
    · cases hr

/-- A transfer from a closed watch stays pending as long as it does not find the units, and is
    granted once it has. -/
theorem pending_run (hclosed : c.shared.isClosed source = some true)
    (hp : At i (Pending source count wait) c)
    (hr : (machine debug).runWhere (inCall i) sched c = some c') :
    c'.shared.isClosed source = some true ∧
      (((machine debug).runWhere (denied i) sched c = some c' ∧
          At i (Pending source count wait) c') ∨
        ((machine debug).runWhere (denied i) sched c = none ∧ At i Granted c')) := by
  induction sched generalizing c with
  | nil =>
    cases hr
    exact ⟨hclosed, .inl ⟨rfl, hp⟩⟩
  | cons e rest ih =>
    obtain ⟨j, a⟩ := e
    unfold Machine.runWhere at hr
    split at hr
    · next hin =>
      obtain ⟨c₁, hf, hrest⟩ := Option.bind_eq_some_iff.mp hr
      have hclosed₁ := closed_fire hf hclosed
      have hclosed' : c'.shared.isClosed source = some true := by
        refine (machine debug).invariant_runWhere
          (I := fun c => c.shared.isClosed source = some true) ?_ hclosed₁ ⟨rest, hrest⟩
        intro c i a c' hc _ hf
        exact closed_fire hf hc
      rw [Machine.runWhere, hf, Option.bind_some]
      rcases pending_fire hclosed hp hin hf with ⟨htakes, hp₁⟩ | ⟨htakes, hg₁⟩
      · rw [if_pos (by simp only [denied, hin, htakes, Bool.not_false, Bool.and_true])]
        exact ih hclosed₁ hp₁ hrest
      · rw [if_neg (by simp [denied, htakes])]
        exact ⟨hclosed', .inr ⟨rfl, granted_run hg₁ hrest⟩⟩
    · cases hr

end Steps

/-! ## The call that closes -/

/-- The call is on its way to close the watch. -/
def Closing (source : Source) : Pc → Prop
  | .closeAvailable => source = .available
  | .setZero g .revoke => source = .grant g
  | .recycle _ (.spendAll g .revoke) => source = .grant g
  | .closeSize g .revoke => source = .grant g
  | _ => False

theorem trans_isClosed_isSome (ht : Trans sh pc sh' pc') (h : (sh.isClosed source).isSome) :
    (sh'.isClosed source).isSome := by
  cases source with
  | available => rfl
  | grant g =>
    obtain ⟨closed, hclosed⟩ := Option.isSome_iff_exists.mp h
    obtain ⟨gr, hgr, _⟩ := isClosed_grant hclosed
    obtain ⟨gr', hgr', _⟩ := trans_grant ht hgr
    simp only [Shared.isClosed, hgr', Option.map_some, Option.isSome_some]

theorem closing_exec {weak : Bool} (hsome : (sh.isClosed source).isSome) (hc : Closing source pc)
    (he : exec debug weak sh pc = some (sh', pc')) :
    Closing source pc' ∨ sh'.isClosed source = some true := by
  unfold Closing at hc
  split at hc
  · subst hc
    cases he
    exact .inr rfl
  · subst hc
    obtain ⟨size, _, hr⟩ := Option.map_eq_some_iff.mp he
    cases hr
    exact .inl rfl
  · subst hc
    cases he
    exact .inl rfl
  · subst hc
    cases he
    obtain ⟨closed, hclosed⟩ := Option.isSome_iff_exists.mp hsome
    obtain ⟨gr, hgr, _⟩ := isClosed_grant hclosed
    refine .inr ?_
    simp only [Shared.isClosed, getElem?_modify _ hgr, if_true, Option.map_some]
  · cases hc

/-- The call is on its way to close the watch, or the watch is closed. -/
def WillClose (j : Nat) (source : Source) (c : Conf Shared Local) : Prop :=
  (c.shared.isClosed source).isSome ∧
    (At j (Closing source) c ∨ c.shared.isClosed source = some true)

theorem willClose_fire {i j : Nat} {a : Act} (h : WillClose j source c)
    (hin : inCall j c i a = true) (hf : (machine debug).fire i a c = some c') :
    WillClose j source c' := by
  obtain ⟨hsome, hclosing | hclosed⟩ := h
  · obtain ⟨pc, hj, hc⟩ := hclosing
    obtain ⟨l, sh', l', hi, hadm, hs, rfl⟩ := (machine debug).fire_cases hf
    have hsome' : (sh'.isClosed source).isSome := by
      rcases step_cases hs with ⟨op, pc, rfl, rfl, hb, rfl, rfl⟩ | ⟨ret, rfl, rfl, rfl⟩ |
        ⟨pc, pc', rfl, ht, rfl⟩
      · exact hsome
      · exact hsome
      · exact trans_isClosed_isSome ht hsome
    refine ⟨hsome', ?_⟩
    by_cases hij : i = j
    · subst hij
      rw [hj] at hi
      cases hi
      have hset : ∀ pc', l' = .running pc' → (c.locals.set i l')[i]? = some (.running pc') := by
        rintro pc' rfl
        exact List.getElem?_set_self (List.getElem?_eq_some_iff.mp hj).1
      rcases step_inCall (not_finish_of_inCall hj hin) hs with ⟨pc', rfl, hl', he⟩ |
        ⟨pc', rfl, hl', he⟩ | ⟨s, n, v, rfl, rfl, _⟩
      · exact (closing_exec hsome hc he).imp (fun h => ⟨pc', hset pc' hl', h⟩) id
      · exact (closing_exec hsome hc he).imp (fun h => ⟨pc', hset pc' hl', h⟩) id
      · cases hc
    · refine .inl ⟨pc, ?_, hc⟩
      rw [List.getElem?_set_ne hij]
      exact hj
  · have hclosed' := closed_fire hf hclosed
    exact ⟨by rw [hclosed']; rfl, .inr hclosed'⟩

/-- The watch that a call takes units from, or closes. -/
def Op.watch : Op → Option Source
  | .issueGrant _ _ | .close => some .available
  | .spend g _ _ | .revoke g => some (.grant g)
  | _ => none

/-- `close()` and `revoke()`. -/
def Op.closes : Op → Bool
  | .close | .revoke _ => true
  | _ => false

theorem willClose_begin {j : Nat} {op : Op} (hcloses : op.closes = true)
    (hwatch : op.watch = some source) (hf : (machine debug).fire j (.call op) c = some c') :
    WillClose j source c' := by
  obtain ⟨l, sh', l', hj, hadm, hs, rfl⟩ := (machine debug).fire_cases hf
  rcases step_cases hs with ⟨op', pc, hop, rfl, hb, rfl, rfl⟩ | ⟨ret, rfl, rfl, rfl⟩ |
    ⟨pc, pc', rfl, ht, rfl⟩
  · cases hop
    have hset := List.getElem?_set_self (a := Local.running pc) (List.getElem?_eq_some_iff.mp hj).1
    cases op with
    | close =>
      cases hwatch
      cases hb
      exact ⟨rfl, .inl ⟨_, hset, rfl⟩⟩
    | revoke g =>
      cases hwatch
      cases hb
      refine ⟨?_, .inl ⟨_, hset, ?_⟩⟩
      · have hall : admits (.call (.revoke g)) c.shared c.locals .idle = true := hadm
        simp only [admits, Op.grants, List.all_cons, Bool.and_eq_true] at hall
        obtain ⟨gr, hgr, _⟩ := exists_of_alive hall.1.1.1
        simp only [Shared.isClosed, hgr, Option.map_some, Option.isSome_some]
      · unfold beginSpendAll
        split <;> rfl
    | _ => cases hcloses
  · cases hs
  · cases hs

/-- A call that closes the watch of `op` has come to its end, some time before `c`. -/
def ClosedBefore (debug : Bool) (op : Op) (c : Conf Shared Local) : Prop :=
  ∃ (closer : Op) (j : Nat) (c₀ c₁ c₂ : Conf Shared Local) (s₁ s₂ : List (Nat × Act)) (ret : Ret),
    closer.closes = true ∧ closer.watch = op.watch ∧
    (machine debug).fire j (.call closer) c₀ = some c₁ ∧
    (machine debug).runWhere (inCall j) s₁ c₁ = some c₂ ∧
    c₂.locals[j]? = some (.running (.finish ret)) ∧
    (machine debug).run s₂ c₂ = some c

theorem returned_closes {op : Op} (hwatch : op.watch = some source) (h : ClosedBefore debug op c) :
    c.shared.isClosed source = some true := by
  obtain ⟨closer, j, c₀, c₁, c₂, s₁, s₂, ret, hcloses, hsame, hcall, hrun, hret, hlater⟩ := h
  have hwill := (machine debug).invariant_runWhere (I := WillClose j source)
    (fun c i a c' hc hin hf => willClose_fire hc hin hf)
    (willClose_begin hcloses (hsame.trans hwatch) hcall) ⟨s₁, hrun⟩
  have hclosed : c₂.shared.isClosed source = some true := by
    rcases hwill.2 with ⟨pc, hpc, hclosing⟩ | hclosed
    · rw [hret] at hpc
      cases hpc
      cases hclosing
    · exact hclosed
  exact (machine debug).invariant (I := fun c => c.shared.isClosed source = some true)
    (fun c i a c' hc hf => closed_fire hf hc) hclosed ⟨s₂, hlater⟩

/-! ## Later calls -/

/-- What the call must return: `issue_grant` an error, `spend` that of a revoked grant. -/
def Op.deniedWith : Op → Ret → Prop
  | .issueGrant _ _, ret => ∃ code, ret = .status code
  | .spend _ _ _, ret => ret = .status .kGrantRevoked
  | _, _ => False

/-- A spend does not wait, and its grant has not been moved from. -/
def Op.reported (sh : Shared) : Op → Prop
  | .spend g _ wait => wait = false ∧ sh.hasIssuer g = true
  | _ => True

/-- `issue_grant` and `spend`. -/
def Op.transfers : Op → Bool
  | .issueGrant _ _ | .spend _ _ _ => true
  | _ => false

section Later

variable {debug : Bool} {i : Nat} {c₀ c₁ c₂ : Conf Shared Local} {op : Op} {pc : Pc}

theorem fire_begin (hcall : (machine debug).fire i (.call op) c₀ = some c₁) :
    ∃ pc, begin c₀.shared op = some pc ∧ c₁.shared = c₀.shared ∧
      c₁.locals[i]? = some (.running pc) := by
  obtain ⟨l, sh', l', hi, hadm, hs, rfl⟩ := (machine debug).fire_cases hcall
  rcases step_cases hs with ⟨op', pc, hop, rfl, hb, rfl, rfl⟩ | ⟨ret, rfl, rfl, rfl⟩ |
    ⟨pc, pc', rfl, ht, rfl⟩
  · cases hop
    exact ⟨pc, hb, rfl, List.getElem?_set_self (List.getElem?_eq_some_iff.mp hi).1⟩
  · cases hs
  · cases hs

theorem fire_run_of_exec (hi : c₂.locals[i]? = some (.running pc))
    (hfinish : ∀ ret, pc ≠ .finish ret) (he : (exec debug true c₂.shared pc).isSome) :
    ∃ c₃, (machine debug).fire i .run c₂ = some c₃ := by
  obtain ⟨⟨sh', pc'⟩, he⟩ := Option.isSome_iff_exists.mp he
  have hstep : step debug .run c₂.shared (.running pc) = some (sh', .running pc') := by
    cases pc with
    | finish ret => exact absurd rfl (hfinish ret)
    | _ => simp only [step, he, Option.map_some]
  refine ⟨⟨sh', c₂.locals.set i (.running pc')⟩, ?_⟩
  simp only [Machine.fire, hi, machine, admits, if_true, hstep, Option.map_some]

/-- A thread that does not return stays where it has finished. -/
theorem finish_run {ret : Ret} (hi : c₁.locals[i]? = some (.running (.finish ret)))
    (hr : (machine debug).runWhere (inCall i) sched c₁ = some c₂) :
    c₂.locals[i]? = some (.running (.finish ret)) := by
  refine (machine debug).invariant_runWhere
    (I := fun c => c.locals[i]? = some (.running (.finish ret))) ?_ hi ⟨sched, hr⟩
  intro c j a c' hc hin hf
  obtain ⟨l, sh', l', hj, hadm, hs, rfl⟩ := (machine debug).fire_cases hf
  have hji : j ≠ i := by
    simpa only [inCall, hc, bne_iff_ne] using hin
  rw [List.getElem?_set_ne hji]
  exact hc

/-- A transfer from a watch that is closed: it is never blocked, and it is denied if and only if
    it has not found the units. -/
theorem transfer_closed {count : UInt64} {wait : Bool}
    (hclosed : c₁.shared.isClosed source = some true)
    (hi : c₁.locals[i]? = some (.running (.modifyIfLoad source count wait)))
    (hr : (machine debug).runWhere (inCall i) sched c₁ = some c₂) :
    ∃ pc, c₂.locals[i]? = some (.running pc) ∧
      ((∀ ret, pc ≠ .finish ret) → ∃ c₃, (machine debug).fire i .run c₂ = some c₃) ∧
      ∀ ret, pc = .finish ret →
        ((machine debug).runWhere (denied i) sched c₁ = some c₂ ∧
          ret = .status (deniedStatus wait)) ∨
        ((machine debug).runWhere (denied i) sched c₁ = none ∧ ∃ g, ret = .grant g) := by
  have hpending : At i (Pending source count wait) c₁ := ⟨_, hi, rfl, rfl, rfl⟩
  obtain ⟨hclosed₂, ⟨hdenied, pc, hpc, hp⟩ | ⟨hdenied, pc, hpc, hg⟩⟩ :=
    pending_run hclosed hpending hr
  · refine ⟨pc, hpc, fun hfinish => ?_, ?_⟩
    · exact fire_run_of_exec hpc hfinish (pending_enabled hclosed₂ hp hfinish)
    · rintro ret rfl
      exact .inl ⟨hdenied, hp⟩
  · refine ⟨pc, hpc, fun hfinish => ?_, ?_⟩
    · refine fire_run_of_exec hpc hfinish ?_
      cases pc with
      | makeGrant n => rfl
      | finish ret => exact absurd rfl (hfinish ret)
      | _ => cases hg
    · rintro ret rfl
      refine .inr ⟨hdenied, ?_⟩
      cases ret with
      | grant g => exact ⟨g, rfl⟩
      | _ => cases hg

/-- **When a closed pool and a revoked grant deny**: a call of `issue_grant` or `spend` that is
    made after `close()` of the pool or `revoke()` of the grant has come to its end is never
    blocked; and it fails as documented if and only if none of its compare-exchanges finds the
    units, and, for a `spend`, it does not wait and its grant has not been moved from. -/
theorem closed_denies_iff (debug : Bool) (i : Nat) (op : Op) (sched : List (Nat × Act))
    (c₀ c₁ c₂ : Conf Shared Local) (htransfers : op.transfers = true)
    (hclosed : ClosedBefore debug op c₀)
    (hcall : (machine debug).fire i (.call op) c₀ = some c₁)
    (hr : (machine debug).runWhere (inCall i) sched c₁ = some c₂) :
    ∃ pc, c₂.locals[i]? = some (.running pc) ∧
      ((∀ ret, pc ≠ .finish ret) → ∃ c₃, (machine debug).fire i .run c₂ = some c₃) ∧
      ∀ ret, pc = .finish ret →
        (op.deniedWith ret ↔ op.reported c₀.shared ∧
          (machine debug).runWhere (denied i) sched c₁ = some c₂) := by
  obtain ⟨pc₁, hbegin, hshared, hi⟩ := fire_begin hcall
  cases op with
  | issueGrant count wait =>
    have hsource : c₀.shared.isClosed .available = some true := returned_closes rfl hclosed
    cases hbegin
    obtain ⟨pc, hpc, henabled, hret⟩ := transfer_closed (hshared ▸ hsource) hi hr
    refine ⟨pc, hpc, henabled, fun ret hfinish => ?_⟩
    rcases hret ret hfinish with ⟨hdenied, rfl⟩ | ⟨hdenied, g, rfl⟩
    · exact ⟨fun _ => ⟨trivial, hdenied⟩, fun _ => ⟨_, rfl⟩⟩
    · rw [hdenied]
      refine ⟨?_, fun h => by cases h.2⟩
      rintro ⟨code, hcode⟩
      cases hcode
  | spend g count wait =>
    have hsource : c₀.shared.isClosed (.grant g) = some true := returned_closes rfl hclosed
    simp only [begin] at hbegin
    split at hbegin
    · next hissuer =>
      cases hbegin
      obtain ⟨pc, hpc, henabled, hret⟩ := transfer_closed (hshared ▸ hsource) hi hr
      refine ⟨pc, hpc, henabled, fun ret hfinish => ?_⟩
      rcases hret ret hfinish with ⟨hdenied, rfl⟩ | ⟨hdenied, g, rfl⟩
      · simp only [Op.deniedWith, Op.reported, hissuer, hdenied, and_true]
        cases wait <;> simp [deniedStatus]
      · rw [hdenied]
        refine ⟨fun h => ?_, fun h => by cases h.2⟩
        cases h
    · next hissuer =>
      cases hbegin
      have hpc := finish_run hi hr
      refine ⟨_, hpc, fun hfinish => absurd rfl (hfinish _), ?_⟩
      rintro ret ⟨⟩
      exact ⟨(fun h => by cases h), fun h => absurd h.1.2 hissuer⟩
  | _ => cases htransfers

end Later

/-- Task 0 makes a call, takes `n` steps in it and returns. -/
def callRun (op : Op) (n : Nat) : List (Nat × Act) :=
  (0, .call op) :: List.replicate (n + 1) (0, .run)

/-- A pool of 10 units with one grant and one task. -/
def oneGrant (available size : UInt64) (closed : Bool) (l : Local) : Conf Shared Local where
  shared :=
    { available := available, availableClosed := false, totalSize := 10,
      grants := [{ issuer := true, size := size, closed := closed, alive := true }], grown := 0 }
  locals := [l]

/-- A grant of 3 units is revoked; a spend of 1 unit that does not wait is then denied. -/
theorem closed_denies_iff_revoked :
    (machine true).run (callRun (.issueGrant 3 false) 3) (initial 1 10) =
        some (oneGrant 7 3 false .idle) ∧
      (machine true).run (callRun (.revoke 0) 3) (oneGrant 7 3 false .idle) =
        some (oneGrant 10 0 true .idle) ∧
      (Op.spend 0 1 false).deniedWith (.status .kGrantRevoked) := by
  have hclosed : ClosedBefore true (.spend 0 1 false) (oneGrant 10 0 true .idle) :=
    ⟨.revoke 0, 0, oneGrant 7 3 false .idle, oneGrant 7 3 false (.running (.setZero 0 .revoke)),
      oneGrant 10 0 true (.running (.finish .unit)), List.replicate 3 (0, .run), [(0, .run)],
      .unit, rfl, rfl, rfl, rfl, rfl, rfl⟩
  obtain ⟨pc, hpc, _, hret⟩ := closed_denies_iff true 0 (.spend 0 1 false)
    (List.replicate 3 (0, .run)) (oneGrant 10 0 true .idle)
    (oneGrant 10 0 true (.running (.modifyIfLoad (.grant 0) 1 false)))
    (oneGrant 10 0 true (.running (.finish (.status .kGrantRevoked)))) rfl hclosed rfl rfl
  cases hpc
  exact ⟨rfl, rfl, (hret _ rfl).mpr ⟨⟨rfl, rfl⟩, rfl⟩⟩

/-- A closed pool that has units still issues a grant of them; a revoked grant that units are
    subsumed into still spends them; and a spend that waits on a revoked grant is denied with the
    status of its watch. -/
theorem closed_still_issues :
    (∃ c, (machine true).run (callRun .close 1 ++ callRun (.issueGrant 3 false) 3)
        (initial 1 10) = some c ∧
      c.shared.availableClosed = true ∧ c.shared.grants.map GrantState.size = [3]) ∧
    (∃ c, (machine true).run
        (callRun (.issueGrant 3 false) 3 ++ callRun (.issueGrant 2 false) 3 ++
          callRun (.revoke 0) 3 ++ callRun (.subsume 0 1) 2 ++ callRun (.spend 0 1 false) 3)
        (initial 1 10) = some c ∧
      c.shared.isClosed (.grant 0) = some true ∧
      c.shared.grants.map GrantState.size = [1, 0, 1]) ∧
    ∃ c, (machine true).run
        (callRun (.issueGrant 3 false) 3 ++ callRun (.revoke 0) 3 ++
          (0, Act.call (.spend 0 1 true)) :: List.replicate 4 (0, Act.run))
        (initial 1 10) = some c ∧
      c.locals = [.running (.finish (.status .kClosed))] :=
  ⟨⟨_, rfl, rfl, by decide⟩, ⟨_, rfl, rfl, by decide⟩, ⟨_, rfl, rfl⟩⟩

end Batt.Grant
