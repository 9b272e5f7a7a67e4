/-
  `Grant::swap` among the other calls.

  `that.size_.set_value(this->size_.set_value(that.size_.set_value(0)))` is three exchanges, each
  of them one step here; the value which the last one returns is thrown away. The two grants are
  of one issuer, so that `std::swap` of the issuer pointers leaves both as they were. All other
  calls are those of the model without `swap`.

  A swap is two subsumes that cross, of `that` into `this` and of `this` into `that`, if its last
  exchange finds nothing: `virtual` lists the calls of that model which stand for the threads of
  this one, with a spend that never returns for each amount thrown away. Its invariant then
  carries over (`inv_fire`), and what is missing from the sum is what the last exchanges found
  (`swap_conserves_iff`).
-/
import Batt.Grant.Conserve

namespace Batt.Grant

open Interleave

/-! ## The calls -/

/-- The exchanges of `swap`. -/
inductive SwapPc where
  | take (this that : Nat)
  | exchange (this that : Nat) (taken : UInt64)
  | put (that : Nat) (old : UInt64)
  | finish
  deriving DecidableEq, Repr

inductive Thread where
  | call (l : Local)
  | swap (pc : SwapPc)
  deriving DecidableEq, Repr

inductive SwapAct where
  | call (a : Act)
  | swap (this that : Nat)
  | run

structure Pool where
  shared : Shared
  /-- Sum of the sizes that last exchanges have thrown away; no step reads it. -/
  lost : Nat

def swapExec (p : Pool) : SwapPc → Option (Pool × Thread)
  | .take this that =>
    (p.shared.get (.grant that)).map fun size =>
      ({ p with shared := p.shared.setSize that 0 }, .swap (.exchange this that size))
  | .exchange this that taken =>
    (p.shared.get (.grant this)).map fun size =>
      ({ p with shared := p.shared.setSize this taken }, .swap (.put that size))
  | .put that old =>
    (p.shared.get (.grant that)).map fun size =>
      ({ shared := p.shared.setSize that old, lost := p.lost + size.toNat }, .swap .finish)
  | .finish => some (p, .call .idle)

def swapStep (debug : Bool) : SwapAct → Pool → Thread → Option (Pool × Thread)
  | .call a, p, .call l =>
    (step debug a p.shared l).map fun r => ({ p with shared := r.1 }, .call r.2)
  | .swap this that, p, .call .idle =>
    if p.shared.hasIssuer this ∧ p.shared.hasIssuer that then
      some (p, .swap (.take this that))
    else none
  | .run, p, .swap pc => swapExec p pc
  | _, _, _ => none

/-- A swap still uses the grants that a subsume of the same grants would. -/
def Thread.asCall : Thread → Local
  | .call l => l
  | .swap (.take this that) | .swap (.exchange this that _) => .running (.subsumeTake this that)
  | .swap (.put that old) => .running (.subsumeAdd that old)
  | .swap .finish => .idle

/-- A swap must not be concurrent with a move or the destruction of one of its grants. -/
def swapAdmits : SwapAct → Pool → List Thread → Thread → Bool
  | .call a, p, ts, t => admits a p.shared (ts.map Thread.asCall) t.asCall
  | .swap this that, p, ts, t =>
    admits (.call (.subsume this that)) p.shared (ts.map Thread.asCall) t.asCall
  | .run, _, _, _ => true

def swapMachine (debug : Bool) : Machine Pool Thread SwapAct where
  step := swapStep debug
  admits := swapAdmits

def swapInitial (n : Nat) (initialCount : UInt64) : Conf Pool Thread where
  shared := { shared := (initial n initialCount).shared, lost := 0 }
  locals := List.replicate n (.call .idle)

/-- What a thread has taken out of one counter and not yet put into another. -/
def Thread.transit : Thread → Nat
  | .call l => Grant.transit l
  | .swap (.exchange _ _ taken) => taken.toNat
  | .swap (.put _ old) => old.toNat
  | .swap _ => 0

/-- The sum of all sizes and of what is moved by running calls. -/
def poolAmount (c : Conf Pool Thread) : Nat :=
  amount c.shared.shared + total Thread.transit c.locals

/-! ## A swap as two subsumes -/

/-- The subsume of `that` into `this`. -/
def Thread.left : Thread → Local
  | .call l => l
  | .swap (.take this that) => .running (.subsumeTake this that)
  | .swap (.exchange this _ taken) => .running (.subsumeAdd this taken)
  | .swap _ => .idle

/-- The subsume of `this` into `that`. -/
def Thread.right : Thread → Local
  | .swap (.take this that) | .swap (.exchange this that _) => .running (.subsumeTake that this)
  | .swap (.put that old) => .running (.subsumeAdd that old)
  | _ => .idle

/-- The calls that stand for the threads, and for the amounts thrown away. -/
def virtual (ts : List Thread) (ghosts : List UInt64) : List Local :=
  ts.map Thread.left ++ (ts.map Thread.right ++ ghosts.map fun size => .running (.makeGrant size))

theorem transit_eq (t : Thread) :
    t.transit = Grant.transit t.left + Grant.transit t.right := by
  match t with
  | .call l => rfl
  | .swap (.take this that) => rfl
  | .swap (.exchange this that taken) => rfl
  | .swap (.put that old) => exact (Nat.zero_add _).symm
  | .swap .finish => rfl

theorem total_virtual (ts : List Thread) (ghosts : List UInt64) :
    total Grant.transit (virtual ts ghosts) =
      total Thread.transit ts + (ghosts.map UInt64.toNat).sum := by
  have hthreads : total Thread.transit ts =
      total Grant.transit (ts.map Thread.left) + total Grant.transit (ts.map Thread.right) := by
    induction ts with
    | nil => rfl
    | cons t ts ih =>
      simp only [total, List.map_cons, List.sum_cons, transit_eq t] at ih ⊢
      omega
  have hghosts : total Grant.transit (ghosts.map fun size => .running (.makeGrant size)) =
      (ghosts.map UInt64.toNat).sum := by
    rw [total, List.map_map]
    rfl
  rw [hthreads, ← hghosts]
  simp only [virtual, total, List.map_append, List.sum_append]
  omega

variable {l l' : Local}

section Virtual

variable {ts : List Thread} {ghosts : List UInt64} {i : Nat} {t t' : Thread}

theorem virtual_left (hi : ts[i]? = some t) : (virtual ts ghosts)[i]? = some t.left := by
  have hlt : i < (ts.map Thread.left).length := by
    rw [List.length_map]
    exact (List.getElem?_eq_some_iff.mp hi).1
  rw [virtual, List.getElem?_append_left hlt, List.getElem?_map, hi]
  rfl

theorem virtual_right (hi : ts[i]? = some t) :
    (virtual ts ghosts)[ts.length + i]? = some t.right := by
  have hlt : i < (ts.map Thread.right).length := by
    rw [List.length_map]
    exact (List.getElem?_eq_some_iff.mp hi).1
  rw [virtual, List.getElem?_append_right (by rw [List.length_map]; omega), List.length_map,
    Nat.add_sub_cancel_left, List.getElem?_append_left hlt, List.getElem?_map, hi]
  rfl

/-- A thread that moves is two calls that move. -/
theorem virtual_set (hi : ts[i]? = some t) :
    virtual (ts.set i t') ghosts =
      ((virtual ts ghosts).set i t'.left).set (ts.length + i) t'.right := by
  have hlt := (List.getElem?_eq_some_iff.mp hi).1
  rw [virtual, virtual, List.map_set, List.map_set,
    List.set_append_left _ _ (by rw [List.length_map]; exact hlt),
    List.set_append_right _ _ (by rw [List.length_set, List.length_map]; omega),
    List.length_set, List.length_map, Nat.add_sub_cancel_left,
    List.set_append_left _ _ (by rw [List.length_map]; exact hlt)]

theorem set_self {ls : List Local} (hi : ls[i]? = some l) : ls.set i l = ls := by
  obtain ⟨hlt, rfl⟩ := List.getElem?_eq_some_iff.mp hi
  exact List.set_getElem_self hlt

theorem virtual_set_left (hi : ts[i]? = some t) (hsame : t'.right = t.right) :
    virtual (ts.set i t') ghosts = (virtual ts ghosts).set i t'.left := by
  have hne : i ≠ ts.length + i := by
    have := (List.getElem?_eq_some_iff.mp hi).1
    omega
  rw [virtual_set hi, hsame]
  apply set_self
  rw [List.getElem?_set_ne hne]
  exact virtual_right hi

theorem virtual_set_right (hi : ts[i]? = some t) (hsame : t'.left = t.left) :
    virtual (ts.set i t') ghosts = (virtual ts ghosts).set (ts.length + i) t'.right := by
  rw [virtual_set hi, hsame, set_self (virtual_left hi)]

theorem mem_virtual (h : l ∈ virtual ts ghosts) :
    (∃ t ∈ ts, l = t.left ∨ l = t.right) ∨ ∃ size, l = .running (.makeGrant size) := by
  rcases List.mem_append.mp h with h | h
  · obtain ⟨t, ht, rfl⟩ := List.mem_map.mp h
    exact .inl ⟨t, ht, .inl rfl⟩
  · rcases List.mem_append.mp h with h | h
    · obtain ⟨t, ht, rfl⟩ := List.mem_map.mp h
      exact .inl ⟨t, ht, .inr rfl⟩
    · obtain ⟨size, _, rfl⟩ := List.mem_map.mp h
      exact .inr ⟨size, rfl⟩

/-- The two calls of a thread use no more than the thread. -/
theorem asCall_covers (t : Thread) :
    (t.left.uses ⊆ t.asCall.uses ∧ ∀ g, t.left.exclusive = some g → t.asCall.exclusive = some g) ∧
      t.right.uses ⊆ t.asCall.uses ∧
      ∀ g, t.right.exclusive = some g → t.asCall.exclusive = some g := by
  have hfree : ∀ {o : Option Nat} (g : Nat), (none : Option Nat) = some g → o = some g := by
    intro o g h
    cases h
  cases t with
  | call l => exact ⟨⟨List.Subset.refl _, fun _ => id⟩, List.nil_subset _, hfree⟩
  | swap pc =>
    cases pc with
    | take this that =>
      exact ⟨⟨List.Subset.refl _, hfree⟩, by simp [Thread.right, Thread.asCall, Local.uses,
        Pc.uses], hfree⟩
    | exchange this that taken =>
      exact ⟨⟨by simp [Thread.left, Thread.asCall, Local.uses, Pc.uses], hfree⟩,
        by simp [Thread.right, Thread.asCall, Local.uses, Pc.uses], hfree⟩
    | put that old => exact ⟨⟨List.nil_subset _, hfree⟩, List.Subset.refl _, hfree⟩
    | finish => exact ⟨⟨List.nil_subset _, hfree⟩, List.nil_subset _, hfree⟩

theorem virtual_covered (h : l ∈ virtual ts ghosts) :
    (∀ g ∈ l.uses, ∃ k ∈ ts.map Thread.asCall, g ∈ k.uses) ∧
      ∀ g, l.exclusive = some g → ∃ k ∈ ts.map Thread.asCall, k.exclusive = some g := by
  rcases mem_virtual h with ⟨t, ht, rfl | rfl⟩ | ⟨size, rfl⟩
  · have hmem := List.mem_map_of_mem (f := Thread.asCall) ht
    exact ⟨fun g hg => ⟨_, hmem, (asCall_covers t).1.1 hg⟩,
      fun g hg => ⟨_, hmem, (asCall_covers t).1.2 g hg⟩⟩
  · have hmem := List.mem_map_of_mem (f := Thread.asCall) ht
    exact ⟨fun g hg => ⟨_, hmem, (asCall_covers t).2.1 hg⟩,
      fun g hg => ⟨_, hmem, (asCall_covers t).2.2 g hg⟩⟩
  · exact ⟨nofun, fun _ => nofun⟩

/-- What the callers promise of the threads holds of the calls that stand for them. -/
theorem admits_virtual {sh : Shared} {op : Op}
    (h : admits (.call op) sh (ts.map Thread.asCall) l = true) :
    admits (.call op) sh (virtual ts ghosts) l' = true := by
  unfold admits at h ⊢
  rw [Bool.and_eq_true, List.all_eq_true] at h ⊢
  obtain ⟨hgrants, hmine⟩ := h
  constructor
  · intro g hg
    have hg' := hgrants g hg
    rw [Bool.and_eq_true, List.all_eq_true] at hg' ⊢
    refine ⟨hg'.1, fun k hk => ?_⟩
    rw [decide_eq_true_iff]
    intro hexcl
    obtain ⟨k', hk', hsame⟩ := (virtual_covered hk).2 g hexcl
    exact absurd hsame (by simpa using hg'.2 k' hk')
  · cases hop : op.exclusive with
    | none => rfl
    | some g =>
      rw [hop] at hmine
      simp only [List.all_eq_true] at hmine ⊢
      intro k hk
      rw [Bool.not_eq_true', ← Bool.not_eq_true, List.contains_iff_mem]
      intro hg
      obtain ⟨k', hk', hin⟩ := (virtual_covered hk).1 g hg
      exact absurd hin (by simpa using hmine k' hk')

end Virtual

/-! ## Steps -/

theorem setSize_setSize (sh : Shared) (g : Nat) (v w : UInt64) :
    (sh.setSize g v).setSize g w = sh.setSize g w := by
  simp only [Shared.setSize, List.modify_modify_eq]
  rfl

theorem get_setSize {sh : Shared} {g : Nat} {v : UInt64} (w : UInt64)
    (h : sh.get (.grant g) = some v) : (sh.setSize g w).get (.grant g) = some w := by
  obtain ⟨gr, hgr, _⟩ := get_grant h
  simp only [Shared.get, Shared.setSize, getElem?_modify _ hgr, if_true, Option.map_some]

section Inv

variable {initialCount : UInt64} {sh : Shared} {ls : List Local}

theorem inv_idle (inv : Inv initialCount sh ls) : Inv initialCount sh (ls ++ [.idle]) := by
  have hmem : ∀ l ∈ ls ++ [Local.idle], l ∈ ls ∨ l = .idle := fun l hl => by
    rcases List.mem_append.mp hl with h | h
    · exact .inl h
    · exact .inr (List.mem_singleton.mp h)
  refine ⟨?_, ?_, ?_, inv.null, inv.size, ?_⟩
  · intro l hl g hg
    rcases hmem l hl with h | rfl
    · exact inv.used l h g hg
    · cases hg
  · intro j j' l k g hne hj hj' hl
    have hin : ∀ {j : Nat} {l : Local}, (ls ++ [Local.idle])[j]? = some l →
        ls[j]? = some l ∨ l = .idle := fun {j l} h => by
      rcases Nat.lt_or_ge j ls.length with hlt | hge
      · rw [List.getElem?_append_left hlt] at h
        exact .inl h
      · rw [List.getElem?_append_right hge] at h
        exact .inr (List.mem_singleton.mp (List.mem_of_getElem? h))
    rcases hin hj with hjl | rfl
    · rcases hin hj' with hjk | rfl
      · exact inv.alone j j' l k g hne hjl hjk hl
      · exact List.not_mem_nil
    · cases hl
  · intro l hl
    rcases hmem l hl with h | rfl
    · exact inv.ok l h
    · trivial
  · intro hfit
    rw [total_concat, show transit .idle = 0 from rfl, Nat.add_zero]
    exact inv.balance hfit

/-- Whatever a grant holds may be spent, by a call that then never returns. -/
theorem inv_discard (inv : Inv initialCount sh ls) {g : Nat} {size : UInt64}
    (hsize : sh.get (.grant g) = some size) (halive : sh.alive g = true)
    (hissuer : sh.hasIssuer g = true) (hfree : ∀ l ∈ ls, l.exclusive ≠ some g) :
    Inv initialCount (sh.setSize g 0) (ls ++ [.running (.makeGrant size)]) := by
  have hi : ∀ l : Local, (ls ++ [l])[ls.length]? = some l := fun l =>
    List.getElem?_concat_length
  have hset : ∀ l l' : Local, (ls ++ [l]).set ls.length l' = ls ++ [l'] := fun l l' => by
    rw [List.set_append_right _ _ (Nat.le_refl _), Nat.sub_self]
    rfl
  have hadm : admits (.call (.spend g size false)) sh (ls ++ [.idle]) .idle = true := by
    unfold admits
    simp only [Op.grants, Op.exclusive, List.all_cons, List.all_nil, Bool.and_true, halive,
      Bool.true_and, List.all_eq_true]
    intro l hl
    rcases List.mem_append.mp hl with h | h
    · exact decide_eq_true (hfree l h)
    · rw [List.mem_singleton.mp h]
      rfl
  have hbegin : begin sh (.spend g size false) = some (.modifyIfLoad (.grant g) size false) := by
    rw [begin, if_pos hissuer]
  have hcalled := inv_begin (inv_idle inv) (hi _) hadm hbegin
  rw [hset] at hcalled
  have hload : Trans sh (.modifyIfLoad (.grant g) size false) sh
      (.modifyIfCas (.grant g) size false size) :=
    .quiet rfl (List.Subset.refl _) (plain_transfer (.grant g) size size false).2.1
  have hloaded := inv_trans hcalled (hi _) hload
  rw [hset] at hloaded
  have htaken := inv_trans hloaded (hi _)
    (.take (.grant g) size false size hsize (UInt64.le_refl size))
  rw [hset, UInt64.sub_self] at htaken
  exact htaken

end Inv

variable {debug : Bool}

section Fire

variable {initialCount : UInt64}

/-- The invariant of the model without `swap` holds of the calls that stand for the threads. -/
def SimInv (initialCount : UInt64) (p : Pool) (ts : List Thread) : Prop :=
  ∃ ghosts : List UInt64, Inv initialCount p.shared (virtual ts ghosts) ∧
    (ghosts.map UInt64.toNat).sum = p.lost

theorem swapStep_cases {a : SwapAct} {p p' : Pool} {t t' : Thread}
    (h : swapStep debug a p t = some (p', t')) :
    (∃ b l sh' l', a = .call b ∧ t = .call l ∧ step debug b p.shared l = some (sh', l') ∧
      p' = { p with shared := sh' } ∧ t' = .call l') ∨
    (∃ this that, a = .swap this that ∧ t = .call .idle ∧ p.shared.hasIssuer this = true ∧
      p.shared.hasIssuer that = true ∧ p' = p ∧ t' = .swap (.take this that)) ∨
    (∃ pc, a = .run ∧ t = .swap pc ∧ swapExec p pc = some (p', t')) := by
  unfold swapStep at h
  split at h
  · next b l =>
    obtain ⟨⟨sh', l'⟩, hs, hr⟩ := Option.map_eq_some_iff.mp h
    cases hr
    exact .inl ⟨b, l, sh', l', rfl, rfl, hs, rfl, rfl⟩
  · next this that =>
    split at h
    · next hissuer =>
      cases h
      exact .inr (.inl ⟨this, that, rfl, rfl, hissuer.1, hissuer.2, rfl, rfl⟩)
    · cases h
  · next pc => exact .inr (.inr ⟨pc, rfl, rfl, h⟩)
  · cases h

variable {p p' : Pool} {ts : List Thread} {i : Nat}

theorem simInv_call (hsim : SimInv initialCount p ts) {b : Act} {sh' : Shared}
    (hi : ts[i]? = some (.call l)) (hadm : swapAdmits (.call b) p ts (.call l) = true)
    (hs : step debug b p.shared l = some (sh', l')) :
    SimInv initialCount { p with shared := sh' } (ts.set i (.call l')) := by
  obtain ⟨ghosts, inv, hlost⟩ := hsim
  refine ⟨ghosts, ?_, hlost⟩
  have hright : (Thread.call l').right = (Thread.call l).right := rfl
  rw [virtual_set_left hi hright]
  have hleft : (virtual ts ghosts)[i]? = some l := virtual_left hi
  rcases step_cases hs with ⟨op, pc, rfl, rfl, hb, rfl, rfl⟩ | ⟨ret, rfl, rfl, rfl⟩ |
    ⟨pc, pc', rfl, ht, rfl⟩
  · have hadm : admits (.call op) p.shared (ts.map Thread.asCall) .idle = true := hadm
    exact inv_begin inv hleft (admits_virtual hadm) hb
  · exact inv_return inv hleft
  · exact inv_trans inv hleft ht

/-- Two subsumes that cross may be made where one of them may. -/
theorem admits_subsume_comm {sh : Shared} {ls : List Local} {this that : Nat} {k : Local}
    (h : admits (.call (.subsume this that)) sh ls l = true) (hk : k.exclusive = none) :
    admits (.call (.subsume that this)) sh (ls.set i k) l' = true := by
  simp only [admits, Op.grants, Op.exclusive, List.all_cons, List.all_nil, Bool.and_true,
    Bool.and_eq_true, List.all_eq_true] at h ⊢
  have hset : ∀ g, (∀ l ∈ ls, decide (l.exclusive ≠ some g) = true) →
      ∀ l ∈ ls.set i k, decide (l.exclusive ≠ some g) = true := fun g hall =>
    forall_set (by rw [hk]; rfl) fun j l _ hj => hall l (List.mem_of_getElem? hj)
  exact ⟨⟨h.2.1, hset that h.2.2⟩, h.1.1, hset this h.1.2⟩

theorem simInv_begin (hsim : SimInv initialCount p ts) {this that : Nat}
    (hi : ts[i]? = some (.call .idle)) (hadm : swapAdmits (.swap this that) p ts (.call .idle) = true)
    (hthis : p.shared.hasIssuer this = true) (hthat : p.shared.hasIssuer that = true) :
    SimInv initialCount p (ts.set i (.swap (.take this that))) := by
  obtain ⟨ghosts, inv, hlost⟩ := hsim
  refine ⟨ghosts, ?_, hlost⟩
  have hleft : (virtual ts ghosts)[i]? = some .idle := virtual_left hi
  have hright : (virtual ts ghosts)[ts.length + i]? = some .idle := virtual_right hi
  have hne : i ≠ ts.length + i := by
    have := (List.getElem?_eq_some_iff.mp hi).1
    omega
  have hbegin : ∀ {g h : Nat}, p.shared.hasIssuer g = true → p.shared.hasIssuer h = true →
      begin p.shared (.subsume g h) = some (.subsumeTake g h) := fun hg hh => by
    rw [begin, if_pos hh, if_pos hg]
  have hadm : admits (.call (.subsume this that)) p.shared (ts.map Thread.asCall) .idle = true :=
    hadm
  have hadm' : admits (.call (.subsume this that)) p.shared (virtual ts ghosts) .idle = true :=
    admits_virtual hadm
  have hfirst := inv_begin inv hleft hadm' (hbegin hthis hthat)
  rw [virtual_set hi]
  refine inv_begin hfirst ?_ (admits_subsume_comm hadm' rfl) (hbegin hthat hthis)
  rw [List.getElem?_set_ne hne]
  exact hright

theorem simInv_exec (hsim : SimInv initialCount p ts) {pc : SwapPc} {t' : Thread}
    (hi : ts[i]? = some (.swap pc)) (hs : swapExec p pc = some (p', t')) :
    SimInv initialCount p' (ts.set i t') := by
  obtain ⟨ghosts, inv, hlost⟩ := hsim
  have hleft : (virtual ts ghosts)[i]? = some (Thread.swap pc).left := virtual_left hi
  have hright : (virtual ts ghosts)[ts.length + i]? = some (Thread.swap pc).right :=
    virtual_right hi
  have hne : ts.length + i ≠ i := by
    have := (List.getElem?_eq_some_iff.mp hi).1
    omega
  cases pc with
  | take this that =>
    obtain ⟨size, hsize, hr⟩ := Option.map_eq_some_iff.mp hs
    cases hr
    refine ⟨ghosts, ?_, hlost⟩
    have hsame : (Thread.swap (.exchange this that size)).right =
      (Thread.swap (.take this that)).right := rfl
    rw [virtual_set_left hi hsame]
    exact inv_trans inv hleft (.subsumeTake this that size hsize)
  | exchange this that taken =>
    obtain ⟨size, hsize, hr⟩ := Option.map_eq_some_iff.mp hs
    cases hr
    refine ⟨ghosts, ?_, hlost⟩
    -- the old size goes to the subsume into `that`, then what was taken arrives in `this`
    have htaken := inv_trans inv hright (.subsumeTake that this size hsize)
    have hadded := inv_trans htaken (by rw [List.getElem?_set_ne hne]; exact hleft)
      (.subsumeAdd this taken 0 (get_setSize 0 hsize))
    rw [setSize_setSize, UInt64.zero_add] at hadded
    have hreturned := inv_return hadded (List.getElem?_set_self (by
      rw [List.length_set]
      exact (List.getElem?_eq_some_iff.mp hleft).1))
    rw [List.set_set, List.set_comm _ _ hne] at hreturned
    rw [virtual_set hi]
    exact hreturned
  | put that old =>
    obtain ⟨size, hsize, hr⟩ := Option.map_eq_some_iff.mp hs
    cases hr
    have hmem := List.mem_of_getElem? hright
    have halive := inv.used _ hmem that (List.mem_singleton.mpr rfl)
    have hissuer : p.shared.hasIssuer that = true := (inv.ok _ hmem).1 that rfl
    have hfree : ∀ l ∈ virtual ts ghosts, l.exclusive ≠ some that := by
      intro l hl hexcl
      obtain ⟨j, hj⟩ := List.mem_iff_getElem?.mp hl
      by_cases hji : j = ts.length + i
      · subst hji
        rw [hright] at hj
        cases hj
        cases hexcl
      · exact inv.alone j _ l _ that hji hj hright hexcl (List.mem_singleton.mpr rfl)
    refine ⟨ghosts ++ [size], ?_, ?_⟩
    · have hdiscarded := inv_discard inv hsize halive hissuer hfree
      have happend : virtual ts (ghosts ++ [size]) =
          virtual ts ghosts ++ [.running (.makeGrant size)] := by
        simp only [virtual, List.map_append, List.map_cons, List.map_nil, List.append_assoc]
      rw [← happend] at hdiscarded
      have hright' : (virtual ts (ghosts ++ [size]))[ts.length + i]? =
          some (.running (.subsumeAdd that old)) := virtual_right hi
      have hadded := inv_trans hdiscarded hright' (.subsumeAdd that old 0 (get_setSize 0 hsize))
      rw [setSize_setSize, UInt64.zero_add] at hadded
      have hreturned := inv_return hadded (List.getElem?_set_self
        (List.getElem?_eq_some_iff.mp hright').1)
      rw [List.set_set] at hreturned
      have hsame : (Thread.swap .finish).left = (Thread.swap (.put that old)).left := rfl
      rw [virtual_set_right hi hsame]
      exact hreturned
    · rw [List.map_append, List.sum_append, hlost]
      rfl
  | finish =>
    cases hs
    refine ⟨ghosts, ?_, hlost⟩
    have hsame : (Thread.call .idle).right = (Thread.swap .finish).right := rfl
    have hidle : (virtual ts ghosts)[i]? = some (Thread.call .idle).left := hleft
    rw [virtual_set_left hi hsame, set_self hidle]
    exact inv

theorem inv_fire {n : Nat} {c : Conf Pool Thread}
    (hr : (swapMachine debug).Reachable (swapInitial n initialCount) c) :
    SimInv initialCount c.shared c.locals := by
  refine (swapMachine debug).invariant (I := fun c => SimInv initialCount c.shared c.locals)
    ?_ ?_ hr
  · intro c i a c' hsim hf
    obtain ⟨t, p', t', hi, hadm, hs, rfl⟩ := (swapMachine debug).fire_cases hf
    rcases swapStep_cases hs with ⟨b, l, sh', l', rfl, rfl, hb, rfl, rfl⟩ |
      ⟨this, that, rfl, rfl, hthis, hthat, rfl, rfl⟩ | ⟨pc, rfl, rfl, he⟩
    · exact simInv_call hsim hi hadm hb
    · exact simInv_begin hsim hi hadm hthis hthat
    · exact simInv_exec hsim hi he
  · refine ⟨[], ?_, rfl⟩
    have hstart : (machine debug).Reachable (initial (n + n) initialCount)
      (initial (n + n) initialCount) := ⟨[], rfl⟩
    have hinit := inv_reachable hstart
    have hlocals : virtual (swapInitial n initialCount).locals [] =
        (initial (n + n) initialCount).locals := by
      simp only [virtual, swapInitial, initial, List.map_replicate, List.map_nil, List.append_nil,
        Thread.left, Thread.right, List.replicate_append_replicate]
    rw [hlocals]
    exact hinit

end Fire

/-! ## What is lost -/

/-- The step is not the last exchange of a swap, or that exchange finds nothing. -/
def findsNothing (c : Conf Pool Thread) (i : Nat) : SwapAct → Bool
  | .run =>
    match c.locals[i]? with
    | some (.swap (.put that _)) => c.shared.shared.get (.grant that) == some 0
    | _ => true
  | _ => true

/-- A step throws units away if and only if it is a last exchange that finds some. -/
theorem fire_lost {i : Nat} {a : SwapAct} {c c' : Conf Pool Thread}
    (hf : (swapMachine debug).fire i a c = some c') :
    c.shared.lost ≤ c'.shared.lost ∧
      (c'.shared.lost = c.shared.lost ↔ findsNothing c i a = true) := by
  obtain ⟨t, p', t', hi, hadm, hs, rfl⟩ := (swapMachine debug).fire_cases hf
  have hkeep : findsNothing c i a = true → p'.lost = c.shared.lost →
      c.shared.lost ≤ p'.lost ∧ (p'.lost = c.shared.lost ↔ findsNothing c i a = true) :=
    fun hnothing hlost => ⟨hlost.ge, ⟨fun _ => hnothing, fun _ => hlost⟩⟩
  rcases swapStep_cases hs with ⟨b, l, sh', l', rfl, rfl, hb, rfl, rfl⟩ |
    ⟨this, that, rfl, rfl, hthis, hthat, rfl, rfl⟩ | ⟨pc, rfl, rfl, he⟩
  · exact hkeep rfl rfl
  · exact hkeep rfl rfl
  · cases pc with
    | take this that =>
      obtain ⟨size, hsize, hr⟩ := Option.map_eq_some_iff.mp he
      cases hr
      exact hkeep (by simp only [findsNothing, hi]) rfl
    | exchange this that taken =>
      obtain ⟨size, hsize, hr⟩ := Option.map_eq_some_iff.mp he
      cases hr
      exact hkeep (by simp only [findsNothing, hi]) rfl
    | put that old =>
      obtain ⟨size, hsize, hr⟩ := Option.map_eq_some_iff.mp he
      cases hr
      refine ⟨Nat.le_add_right _ _, ?_⟩
      simp only [findsNothing, hi, hsize, Nat.add_eq_left, beq_iff_eq, Option.some.injEq]
      exact ⟨fun h => UInt64.toNat_inj.mp h, fun h => by rw [h]; rfl⟩
    | finish =>
      cases he
      exact hkeep (by simp only [findsNothing, hi]) rfl

theorem run_lost {sched : List (Nat × SwapAct)} {c₀ c : Conf Pool Thread}
    (hr : (swapMachine debug).run sched c₀ = some c) :
    c₀.shared.lost ≤ c.shared.lost ∧
      (c.shared.lost = c₀.shared.lost ↔
        (swapMachine debug).runWhere findsNothing sched c₀ = some c) := by
  induction sched generalizing c₀ with
  | nil =>
    cases hr
    exact ⟨Nat.le_refl _, ⟨fun _ => rfl, fun _ => rfl⟩⟩
  | cons e rest ih =>
    obtain ⟨i, a⟩ := e
    rw [Machine.run_cons] at hr
    obtain ⟨c₁, hf, hrest⟩ := Option.bind_eq_some_iff.mp hr
    obtain ⟨hle, hstep⟩ := fire_lost hf
    obtain ⟨hle', hrun⟩ := ih hrest
    refine ⟨Nat.le_trans hle hle', ?_⟩
    rw [Machine.runWhere, hf, Option.bind_some]
    by_cases hnothing : findsNothing c₀ i a = true
    · rw [if_pos hnothing, ← hrun, hstep.mpr hnothing]
    · rw [if_neg hnothing]
      refine ⟨fun h => absurd (hstep.mp (by omega)) hnothing, by simp⟩

/-- **Swap conserves units if and only if no last exchange finds any**: over every interleaving of
    swaps with all other calls, for any two grants of one issuer, the same one passed twice
    included. The sum of all sizes and of what is on its way is the initial count and what was
    grown, at the end of a run, if and only if every last exchange of a swap in it was made
    while `that` was empty. -/
theorem swap_conserves_iff (debug : Bool) (n : Nat) (initialCount : UInt64)
    (sched : List (Nat × SwapAct)) (c : Conf Pool Thread)
    (hr : (swapMachine debug).run sched (swapInitial n initialCount) = some c)
    (hfit : initialCount.toNat + c.shared.shared.grown < 2 ^ 64) :
    poolAmount c = initialCount.toNat + c.shared.shared.grown ↔
      (swapMachine debug).runWhere findsNothing sched (swapInitial n initialCount) = some c := by
  obtain ⟨ghosts, inv, hlost⟩ := inv_fire ⟨sched, hr⟩
  have hbalance := inv.balance hfit
  rw [total_virtual, hlost] at hbalance
  rw [← (run_lost hr).2]
  have hzero : (swapInitial n initialCount).shared.lost = 0 := rfl
  unfold poolAmount
  omega

/-- Task 0 issues a grant of `count`. -/
def issueRun (count : UInt64) : List (Nat × SwapAct) :=
  (0, .call (.call (.issueGrant count false))) :: List.replicate 4 (0, .call .run)

/-- Task 0 swaps two grants of 3 and 2 units, while task 1 spends one unit of the second between
    the first two exchanges. -/
def spendDuringSwap : List (Nat × SwapAct) :=
  issueRun 3 ++ issueRun 2 ++
    (1, SwapAct.call (.call (.spend 1 1 false))) :: (0, SwapAct.swap 0 1) ::
    (1, SwapAct.call .run) :: (1, SwapAct.call .run) :: (0, SwapAct.run) :: (1, SwapAct.call .run) ::
    List.replicate 3 (0, SwapAct.run)

theorem swap_conserves_iff_spendDuringSwap :
    ∃ c, (swapMachine true).run spendDuringSwap (swapInitial 2 10) = some c ∧
      c.shared.shared.grants.map GrantState.size = [1, 3, 1] ∧ poolAmount c = 10 := by
  refine ⟨_, rfl, by decide, ?_⟩
  exact (swap_conserves_iff true 2 10 spendDuringSwap _ rfl (by decide)).mpr rfl

/-- Task 0 swaps a grant of 6 units with itself. -/
def selfSwap : List (Nat × SwapAct) :=
  issueRun 6 ++ (0, SwapAct.swap 0 0) :: List.replicate 4 (0, SwapAct.run)

/-- Task 0 swaps two grants of 3 and 2 units, while task 1 subsumes a third one of 1 unit into the
    second between the first two exchanges. -/
def subsumeDuringSwap : List (Nat × SwapAct) :=
  issueRun 3 ++ issueRun 2 ++ issueRun 1 ++
    (0, SwapAct.swap 0 1) :: (1, SwapAct.call (.call (.subsume 1 2))) :: (0, SwapAct.run) ::
    List.replicate 3 (1, SwapAct.call .run) ++ List.replicate 3 (0, SwapAct.run)

/-- A grant of 6 units swapped with itself is left with none; a unit that is added to the second
    grant during a swap is gone. -/
theorem swap_loses_units :
    (∃ c, (swapMachine true).run selfSwap (swapInitial 1 10) = some c ∧
      c.shared.shared.grants.map GrantState.size = [0] ∧ c.shared.shared.grown = 0 ∧
      poolAmount c = 4) ∧
    ∃ c, (swapMachine true).run subsumeDuringSwap (swapInitial 2 10) = some c ∧
      c.shared.shared.grants.map GrantState.size = [2, 3, 0] ∧ c.shared.shared.grown = 0 ∧
      poolAmount c = 9 :=
  ⟨⟨_, rfl, by decide, rfl, by decide⟩, ⟨_, rfl, by decide, rfl, by decide⟩⟩

end Batt.Grant
