/-
  `batt::Mutex` (`async/mutex.hpp`): a ticket lock over an atomic counter `next_ticket_` and a
  watch `current_ticket_`, its mutual exclusion and its order.

  Any number of tasks take locks, move them and release them. A `LockImpl` is a number, its
  position in `locks`; every task may use every lock, so one may be released by a task that
  did not take it. `~LockImpl` is a call of `release`. A lock that was released, or moved from,
  has a null `val_` and stays in the table; releasing or moving it again does nothing.

  Each access to an atomic or to the watch is one step. `await_not_equal` blocks until a
  mutator hands over a value the watch has held, which may be out of date by the time the task
  runs; which one is left to the schedule (`Act.woken`). The watch is never closed: no member
  function does it. The comparison of a `BATT_CHECK_EQ` is a step of its own (`Pc.checkEq`);
  where it fails the program ends and there is no step.

  `taken`, `released` and `granted` record the run, and no step reads them, nor the `ticket` of a
  lock. While at most `2 ^ 64` tickets have been taken, those from `released` to `taken` are
  outstanding and each of them has exactly one owner: a task inside `acquire`, a lock that holds
  it, or a task that is about to pass it on (`Inv.owners`). Whatever a task sees of
  `current_ticket_`, however late, is at most `released`, and its own ticket is at least that; so
  the loop of `acquire` ends at equality, and only the owner of `released` can hold the lock.
-/
import Batt.Lib.Interleave

namespace Batt.Mutex

open Interleave

/-! ## The mutex and its locks -/

/-- `held` is `val_ != nullptr`. -/
structure LockImpl where
  held : Bool
  ticket : UInt64
  deriving DecidableEq, Repr

structure Shared where
  nextTicket : UInt64
  currentTicket : UInt64
  /-- The values `current_ticket_` had before. -/
  past : List UInt64
  locks : List LockImpl
  /-- Calls of `fetch_add` on `next_ticket_` and on `current_ticket_`. -/
  taken : Nat
  released : Nat
  /-- The tickets of the locks, in the order in which these were constructed. -/
  granted : List UInt64

/-! ## Calls -/

inductive Op where
  | lock
  | release (lock : Nat)
  | move (lock : Nat)
  deriving DecidableEq, Repr

inductive Ret where
  | flag (released : Bool)
  | lock (lock : Nat)
  deriving DecidableEq, Repr

inductive Pc where
  | fetchAdd
  | getValue (myTicket : UInt64)
  | awaitNotEqual (myTicket latestTicket : UInt64)
  | checkEq (myTicket latestTicket : UInt64)
  | clearVal (lock : Nat)
  | release (ticket : UInt64)
  | moveVal (lock : Nat)
  | finish (ret : Ret)
  deriving DecidableEq, Repr

inductive Local where
  | idle
  | running (pc : Pc)
  deriving DecidableEq, Repr

inductive Act where
  | call (op : Op)
  | run
  | woken (v : UInt64)

/-! ## Steps -/

def begin : Op → Pc
  | .lock => .fetchAdd
  | .release lock => .clearVal lock
  | .move lock => .moveVal lock

/-- The loop of `acquire`, with the ticket seen last. -/
def acquireLoop (myTicket latestTicket : UInt64) : Pc :=
  if latestTicket < myTicket then .awaitNotEqual myTicket latestTicket
  else .checkEq myTicket latestTicket

/-- The pointer of a lock is taken out of it. -/
def Shared.clear (sh : Shared) (lock : Nat) : Shared :=
  { sh with locks := sh.locks.modify lock fun l => { l with held := false } }

def Shared.construct (sh : Shared) (l : LockImpl) : Shared :=
  { sh with locks := sh.locks ++ [l] }

/-- The next access of a call. -/
def exec (sh : Shared) : Pc → Option (Shared × Pc)
  | .fetchAdd =>
    some ({ sh with nextTicket := sh.nextTicket + 1, taken := sh.taken + 1 },
      .getValue sh.nextTicket)
  | .getValue myTicket => some (sh, acquireLoop myTicket sh.currentTicket)
  | .awaitNotEqual _ _ => none
  | .checkEq myTicket latestTicket =>
    if latestTicket = myTicket then
      some ({ sh.construct { held := true, ticket := myTicket } with
          granted := sh.granted ++ [myTicket] },
        .finish (.lock sh.locks.length))
    else none
  | .clearVal lock =>
    (sh.locks[lock]?).map fun l =>
      (sh.clear lock, if l.held then .release l.ticket else .finish (.flag false))
  | .release _ =>
    some ({ sh with
        currentTicket := sh.currentTicket + 1
        past := sh.currentTicket :: sh.past
        released := sh.released + 1 },
      .finish (.flag true))
  | .moveVal lock =>
    (sh.locks[lock]?).map fun l =>
      ((sh.clear lock).construct l, .finish (.lock sh.locks.length))
  | .finish _ => none

def step : Act → Shared → Local → Option (Shared × Local)
  | .call op, sh, .idle => some (sh, .running (begin op))
  | .run, sh, .running (.finish _) => some (sh, .idle)
  | .run, sh, .running pc => (exec sh pc).map fun r => (r.1, .running r.2)
  | .woken v, sh, .running (.awaitNotEqual myTicket _) =>
    if v ∈ sh.currentTicket :: sh.past then some (sh, .running (acquireLoop myTicket v)) else none
  | _, _, _ => none

def machine : Machine Shared Local Act where
  step := step

/-- A new mutex and `n` tasks. -/
def initial (n : Nat) : Conf Shared Local where
  shared :=
    { nextTicket := 0, currentTicket := 0, past := [], locks := [], taken := 0, released := 0,
      granted := [] }
  locals := List.replicate n .idle

/-! ## Owners of tickets -/

/-- The ticket a task has drawn, or is about to pass on. -/
def Local.ticket? : Local → Option UInt64
  | .running (.getValue t) | .running (.awaitNotEqual t _) | .running (.checkEq t _)
  | .running (.release t) => some t
  | _ => none

def owns (t : UInt64) : Local → Nat := ind fun l => l.ticket? = some t

def lockOwns (t : UInt64) : LockImpl → Nat := ind fun k => k.held && k.ticket == t

def isHeld : LockImpl → Nat := ind LockImpl.held

/-- Has given up its lock and not passed the ticket on yet. -/
def releasing : Local → Nat := ind fun
  | .running (.release _) => true
  | _ => false

/-- What the compared values of a task are known to be. -/
def LocalOk (sh : Shared) : Local → Prop
  | .running (.checkEq myTicket latestTicket) =>
    myTicket ≤ latestTicket ∧ latestTicket.toNat ≤ sh.released
  | .running (.release ticket) => ticket.toNat = sh.released
  | _ => True

structure Inv (sh : Shared) (ls : List Local) : Prop where
  next : sh.nextTicket.toNat = sh.taken % 2 ^ 64
  current : sh.currentTicket.toNat = sh.released % 2 ^ 64
  order : sh.released ≤ sh.taken
  past : ∀ v ∈ sh.past, v.toNat ≤ sh.released
  owners : ∀ t, total (owns t) ls + total (lockOwns t) sh.locks =
    if sh.released ≤ t.toNat ∧ t.toNat < sh.taken then 1 else 0
  tasks : ∀ l ∈ ls, LocalOk sh l
  locks : ∀ k ∈ sh.locks, k.held = true → k.ticket.toNat = sh.released
  granted : sh.granted.map UInt64.toNat = List.range sh.granted.length
  count : sh.granted.length = sh.released + (total releasing ls + total isHeld sh.locks)

variable {t v : UInt64} {l l' : Local}

theorem owns_ticket (h : l.ticket? = some t) (t' : UInt64) :
    owns t' l = if t = t' then 1 else 0 := by
  simp [owns, ind, h]

theorem owns_none (h : l.ticket? = none) (t : UInt64) : owns t l = 0 := by
  simp [owns, ind, h]

theorem lockOwns_eq (k : LockImpl) (t : UInt64) :
    lockOwns t k = if k.held = true ∧ k.ticket = t then 1 else 0 := by
  simp [lockOwns, ind]

variable {ls : List Local} {sh : Shared} {i lock : Nat}

/-- A ticket that has an owner is outstanding, and has no other owner. -/
theorem Inv.owned (inv : Inv sh ls) (h : 0 < total (owns t) ls + total (lockOwns t) sh.locks) :
    sh.released ≤ t.toNat ∧ t.toNat < sh.taken ∧
      total (owns t) ls + total (lockOwns t) sh.locks = 1 := by
  have howners := inv.owners t
  split at howners
  · rename_i hrange
    exact ⟨hrange.1, hrange.2, howners⟩
  · omega

theorem Inv.drawn (inv : Inv sh ls) (hl : l ∈ ls) (ht : l.ticket? = some t) :
    sh.released ≤ t.toNat ∧ t.toNat < sh.taken ∧
      total (owns t) ls + total (lockOwns t) sh.locks = 1 := by
  refine inv.owned ?_
  have h1 : owns t l = 1 := by rw [owns_ticket ht, if_pos rfl]
  have := le_total (owns t) hl
  omega

/-- Whoever has the lock, or has just given it up, owns the ticket `released`. -/
theorem Inv.holders_le (inv : Inv sh ls) (ht : t.toNat = sh.released) :
    total releasing ls ≤ total (owns t) ls ∧
      total isHeld sh.locks ≤ total (lockOwns t) sh.locks := by
  constructor
  · refine total_mono_of_mem fun l hl => ?_
    have hok := inv.tasks l hl
    match l, hok with
    | .running (.release ticket), hok =>
      have heq : ticket = t := UInt64.toNat_inj.mp (hok.trans ht.symm)
      rw [owns_ticket (t := ticket) rfl, if_pos heq]
      exact Nat.le_refl 1
    | .idle, _ | .running .fetchAdd, _ | .running (.getValue _), _
    | .running (.awaitNotEqual _ _), _ | .running (.checkEq _ _), _ | .running (.clearVal _), _
    | .running (.moveVal _), _ | .running (.finish _), _ => exact Nat.zero_le _
  · refine total_mono_of_mem fun k hk => ?_
    unfold isHeld ind
    split
    · rename_i hheld
      have heq : k.ticket = t := UInt64.toNat_inj.mp ((inv.locks k hk hheld).trans ht.symm)
      have hone : lockOwns t k = 1 := by rw [lockOwns_eq, if_pos ⟨hheld, heq⟩]
      exact Nat.le_of_eq hone.symm
    · exact Nat.zero_le _

/-- A task that compares its ticket with `released` is the only owner: nobody has the lock. -/
theorem Inv.nobody_holds (inv : Inv sh ls) (hl : l ∈ ls) (hpc : l = .running (.checkEq t v))
    (ht : t.toNat = sh.released) :
    total releasing ls = 0 ∧ total isHeld sh.locks = 0 := by
  obtain ⟨i, hi⟩ := List.mem_iff_getElem?.mp hl
  have hone := (inv.drawn hl (t := t) (by rw [hpc]; rfl)).2.2
  have hle := inv.holders_le ht
  have h1 : owns t l = 1 := by rw [owns_ticket (t := t) (by rw [hpc]; rfl), if_pos rfl]
  have hown := le_total (owns t) hl
  -- all of the one owner is this task, which is not among the releasing ones
  have hrel : total releasing ls = 0 := by
    refine total_eq_zero.mpr fun k hk => ?_
    obtain ⟨j, hj⟩ := List.mem_iff_getElem?.mp hk
    by_cases hij : i = j
    · subst hij
      rw [hi] at hj
      cases hj
      rw [hpc]
      rfl
    · have htwo := add_le_total (owns t) hij hi hj
      have hzero : owns t k = 0 := by omega
      by_contra hne
      have hok := inv.tasks k hk
      match k, hne, hok with
      | .running (.release ticket), _, hok =>
        have heq : ticket = t := UInt64.toNat_inj.mp (hok.trans ht.symm)
        rw [owns_ticket (t := ticket) rfl, if_pos heq] at hzero
        cases hzero
  exact ⟨hrel, by omega⟩

/-! ## Steps -/

/-- What a step can be: a call, the return from one, an access, or a wake-up. -/
theorem step_cases {a : Act} {sh' : Shared} (h : step a sh l = some (sh', l')) :
    (∃ op, l = .idle ∧ sh' = sh ∧ l' = .running (begin op)) ∨
      (∃ ret, l = .running (.finish ret) ∧ sh' = sh ∧ l' = .idle) ∨
      (∃ pc pc', l = .running pc ∧ exec sh pc = some (sh', pc') ∧ l' = .running pc') ∨
      (∃ v t w, l = .running (.awaitNotEqual t w) ∧ v ∈ sh.currentTicket :: sh.past ∧ sh' = sh ∧
        l' = .running (acquireLoop t v)) := by
  unfold step at h
  split at h
  · cases h
    exact .inl ⟨_, rfl, rfl, rfl⟩
  · cases h
    exact .inr (.inl ⟨_, rfl, rfl, rfl⟩)
  · obtain ⟨⟨s, pc'⟩, he, hr⟩ := Option.map_eq_some_iff.mp h
    cases hr
    exact .inr (.inr (.inl ⟨_, pc', rfl, he, rfl⟩))
  · split at h <;> cases h
    rename_i hv
    exact .inr (.inr (.inr ⟨_, _, _, rfl, hv, rfl, rfl⟩))
  · cases h

/-- A step that leaves the mutex alone and the task with the ticket it had. -/
theorem inv_local (inv : Inv sh ls) (hi : ls[i]? = some l) (hticket : l'.ticket? = l.ticket?)
    (hreleasing : releasing l' = releasing l) (hok : LocalOk sh l') : Inv sh (ls.set i l') := by
  have howns : ∀ t, owns t l' = owns t l := fun t => by simp [owns, ind, hticket]
  refine { inv with owners := ?_, tasks := ?_, count := ?_ }
  · intro t
    have hset := total_set (owns t) l' hi
    rw [howns t] at hset
    rw [← inv.owners t]
    omega
  · exact forall_set hok fun j k _ hj => inv.tasks k (List.mem_of_getElem? hj)
  · have hset := total_set releasing l' hi
    have hcount := inv.count
    omega

theorem localOk_acquireLoop {myTicket : UInt64} (hv : v.toNat ≤ sh.released) :
    LocalOk sh (.running (acquireLoop myTicket v)) := by
  unfold acquireLoop
  split
  · trivial
  · rename_i hge
    exact ⟨UInt64.not_lt.mp hge, hv⟩

theorem ticket?_acquireLoop (myTicket v : UInt64) :
    (Local.running (acquireLoop myTicket v)).ticket? = some myTicket := by
  unfold acquireLoop
  split <;> rfl

theorem releasing_acquireLoop (myTicket v : UInt64) :
    releasing (.running (acquireLoop myTicket v)) = 0 := by
  unfold acquireLoop
  split <;> rfl

theorem Inv.current_le (inv : Inv sh ls) :
    sh.currentTicket.toNat ≤ sh.released := by
  rw [inv.current]
  exact Nat.mod_le _ _

/-- A ticket is drawn. -/
theorem inv_fetchAdd (inv : Inv sh ls) (hi : ls[i]? = some (.running .fetchAdd))
    (hbound : sh.taken + 1 ≤ 2 ^ 64) :
    Inv { sh with nextTicket := sh.nextTicket + 1, taken := sh.taken + 1 }
      (ls.set i (.running (.getValue sh.nextTicket))) := by
  have hnext : sh.nextTicket.toNat = sh.taken := by
    rw [inv.next]
    exact Nat.mod_eq_of_lt (by omega)
  have horder := inv.order
  refine ⟨?_, inv.current, by simp only; omega, inv.past, ?_, ?_, inv.locks, inv.granted, ?_⟩
  · simp only [UInt64.toNat_add, hnext]
    rfl
  · intro t
    have hset := total_set (owns t) (.running (.getValue sh.nextTicket)) hi
    rw [owns_none (l := .running .fetchAdd) rfl,
      owns_ticket (l := .running (.getValue sh.nextTicket)) rfl] at hset
    have howners := inv.owners t
    by_cases ht : sh.nextTicket = t
    · subst ht
      rw [if_pos rfl] at hset
      rw [if_neg (by omega)] at howners
      rw [if_pos (by simp only; omega)]
      simp only
      omega
    · have hne : t.toNat ≠ sh.taken := fun h => ht (UInt64.toNat_inj.mp (hnext.trans h.symm))
      rw [if_neg ht] at hset
      have hiff : (sh.released ≤ t.toNat ∧ t.toNat < sh.taken + 1) ↔
          (sh.released ≤ t.toNat ∧ t.toNat < sh.taken) := by omega
      simp only [hiff]
      omega
  · refine forall_set trivial fun j k _ hj => ?_
    exact inv.tasks k (List.mem_of_getElem? hj)
  · have hset := total_set releasing (.running (.getValue sh.nextTicket)) hi
    have hcount := inv.count
    have h0 : releasing (.running .fetchAdd) = 0 := rfl
    have h1 : releasing (.running (.getValue sh.nextTicket)) = 0 := rfl
    simp only
    omega

/-- The comparison of `acquire` holds. -/
theorem Inv.check_eq (inv : Inv sh ls) (hl : Local.running (.checkEq t v) ∈ ls) :
    v = t ∧ t.toNat = sh.released := by
  obtain ⟨hle, hv⟩ : t ≤ v ∧ v.toNat ≤ sh.released := inv.tasks _ hl
  have hge := (inv.drawn hl (t := t) rfl).1
  have hle' := UInt64.le_iff_toNat_le.mp hle
  have ht : t.toNat = sh.released := by omega
  exact ⟨UInt64.toNat_inj.mp (by omega), ht⟩

/-- A lock is constructed: its ticket passes from the task to it. -/
theorem inv_grant (inv : Inv sh ls) (hi : ls[i]? = some (.running (.checkEq t v))) :
    Inv { sh.construct { held := true, ticket := t } with granted := sh.granted ++ [t] }
      (ls.set i (.running (.finish (.lock lock)))) := by
  have hmem := List.mem_of_getElem? hi
  have ht := (inv.check_eq hmem).2
  obtain ⟨hrel, hheld⟩ := inv.nobody_holds hmem rfl ht
  have hcount := inv.count
  refine ⟨inv.next, inv.current, inv.order, inv.past, ?_, ?_, ?_, ?_, ?_⟩
  · intro t'
    have hset := total_set (owns t') (.running (.finish (.lock lock))) hi
    rw [owns_none (l := .running (.finish (.lock lock))) rfl,
      owns_ticket (l := .running (.checkEq t v)) rfl] at hset
    have hlocks := total_concat (lockOwns t') sh.locks { held := true, ticket := t }
    rw [lockOwns_eq] at hlocks
    simp only [true_and] at hlocks
    refine Eq.trans ?_ (inv.owners t')
    simp only [Shared.construct]
    omega
  · refine forall_set trivial fun j k _ hj => ?_
    exact inv.tasks k (List.mem_of_getElem? hj)
  · intro k hk hheld
    simp only [Shared.construct, List.mem_append, List.mem_singleton] at hk
    rcases hk with hk | rfl
    · exact inv.locks k hk hheld
    · exact ht
  · simp only [List.map_append, List.length_append, List.map_singleton, List.length_singleton,
      List.range_succ, inv.granted, ht]
    congr 2
    omega
  · have hset := total_set releasing (.running (.finish (.lock lock))) hi
    have h0 : releasing (.running (.checkEq t v)) = 0 := rfl
    have h1 : releasing (.running (.finish (.lock lock))) = 0 := rfl
    have hlocks := total_concat isHeld sh.locks { held := true, ticket := t }
    have h2 : isHeld { held := true, ticket := t } = 1 := rfl
    simp only [Shared.construct, List.length_append, List.length_singleton]
    omega

theorem clear_of_not_held {k : LockImpl} (hk : sh.locks[lock]? = some k) (hheld : k.held = false) :
    sh.clear lock = sh := by
  unfold Shared.clear
  have hsame : sh.locks.modify lock (fun l => { l with held := false }) = sh.locks := by
    rw [List.modify_eq_set_getElem?, hk]
    obtain ⟨hlt, rfl⟩ := List.getElem?_eq_some_iff.mp hk
    have heta : ({ sh.locks[lock] with held := false } : LockImpl) = sh.locks[lock] := by
      rw [← hheld]
    rw [Option.map_eq_map, Option.map_some, Option.getD_some, heta]
    exact List.set_getElem_self hlt
  rw [hsame]

/-- A lock gives up its pointer: its ticket passes to the task that releases it. -/
theorem inv_clearVal {k : LockImpl} (inv : Inv sh ls)
    (hi : ls[i]? = some (.running (.clearVal lock))) (hk : sh.locks[lock]? = some k)
    (hheld : k.held = true) :
    Inv (sh.clear lock) (ls.set i (.running (.release k.ticket))) := by
  have ht := inv.locks k (List.mem_of_getElem? hk) hheld
  refine ⟨inv.next, inv.current, inv.order, inv.past, ?_, ?_, ?_, inv.granted, ?_⟩
  · intro t
    have hset := total_set (owns t) (.running (.release k.ticket)) hi
    rw [owns_none (l := .running (.clearVal lock)) rfl,
      owns_ticket (l := .running (.release k.ticket)) rfl] at hset
    have hlocks := total_modify (lockOwns t) (fun l => { l with held := false }) hk
    rw [lockOwns_eq, lockOwns_eq] at hlocks
    simp only [hheld, true_and, Bool.false_eq_true, false_and, if_false] at hlocks
    refine Eq.trans ?_ (inv.owners t)
    simp only [Shared.clear]
    omega
  · refine forall_set ht fun j l _ hj => ?_
    exact inv.tasks l (List.mem_of_getElem? hj)
  · intro k' hk' hheld'
    obtain ⟨j, hj⟩ := List.mem_iff_getElem?.mp hk'
    simp only [Shared.clear, List.getElem?_modify] at hj
    obtain ⟨k₀, hk₀, rfl⟩ := Option.map_eq_some_iff.mp hj
    have hk₀' := List.mem_of_getElem? hk₀
    by_cases hlock : lock = j
    · rw [if_pos hlock] at hheld'
      cases hheld'
    · rw [if_neg hlock] at hheld' ⊢
      exact inv.locks k₀ hk₀' hheld'
  · have hset := total_set releasing (.running (.release k.ticket)) hi
    have h0 : releasing (.running (.clearVal lock)) = 0 := rfl
    have h1 : releasing (.running (.release k.ticket)) = 1 := rfl
    have hlocks := total_modify isHeld (fun l => { l with held := false }) hk
    have h2 : isHeld k = 1 := ind_true hheld
    have h3 : isHeld { k with held := false } = 0 := rfl
    have hcount := inv.count
    simp only [Shared.clear]
    omega

/-- A lock is moved: its ticket passes to the new one. -/
theorem inv_move {k : LockImpl} (inv : Inv sh ls) (hi : ls[i]? = some (.running (.moveVal lock)))
    (hk : sh.locks[lock]? = some k) :
    Inv ((sh.clear lock).construct k)
      (ls.set i (.running (.finish (.lock sh.locks.length)))) := by
  refine ⟨inv.next, inv.current, inv.order, inv.past, ?_, ?_, ?_, inv.granted, ?_⟩
  · intro t
    have hset := total_set (owns t) (.running (.finish (.lock sh.locks.length))) hi
    rw [owns_none (l := .running (.moveVal lock)) rfl,
      owns_none (l := .running (.finish (.lock sh.locks.length))) rfl] at hset
    have hclear := total_modify (lockOwns t) (fun l => { l with held := false }) hk
    have hzero : lockOwns t { k with held := false } = 0 := by
      rw [lockOwns_eq]
      simp
    have hlocks := total_concat (lockOwns t)
      (sh.locks.modify lock fun l => { l with held := false }) k
    refine Eq.trans ?_ (inv.owners t)
    simp only [Shared.clear, Shared.construct]
    omega
  · refine forall_set trivial fun j l _ hj => ?_
    exact inv.tasks l (List.mem_of_getElem? hj)
  · intro k' hk' hheld'
    simp only [Shared.construct, Shared.clear, List.mem_append, List.mem_singleton] at hk'
    rcases hk' with hk' | rfl
    · obtain ⟨j, hj⟩ := List.mem_iff_getElem?.mp hk'
      rw [List.getElem?_modify] at hj
      obtain ⟨k₀, hk₀, rfl⟩ := Option.map_eq_some_iff.mp hj
      by_cases hlock : lock = j
      · rw [if_pos hlock] at hheld'
        cases hheld'
      · rw [if_neg hlock] at hheld' ⊢
        exact inv.locks k₀ (List.mem_of_getElem? hk₀) hheld'
    · exact inv.locks k' (List.mem_of_getElem? hk) hheld'
  · have hset := total_set releasing (.running (.finish (.lock sh.locks.length))) hi
    have h0 : releasing (.running (.moveVal lock)) = 0 := rfl
    have h1 : releasing (.running (.finish (.lock sh.locks.length))) = 0 := rfl
    have hclear := total_modify isHeld (fun l => { l with held := false }) hk
    have hzero : isHeld { k with held := false } = 0 := rfl
    have hlocks := total_concat isHeld (sh.locks.modify lock fun l => { l with held := false }) k
    have hcount := inv.count
    simp only [Shared.clear, Shared.construct]
    omega

/-- The ticket is passed on. -/
theorem inv_release {ret : Ret} (inv : Inv sh ls) (hi : ls[i]? = some (.running (.release t))) :
    Inv { sh with
        currentTicket := sh.currentTicket + 1
        past := sh.currentTicket :: sh.past
        released := sh.released + 1 }
      (ls.set i (.running (.finish ret))) := by
  have hmem := List.mem_of_getElem? hi
  have ht : t.toNat = sh.released := inv.tasks _ hmem
  obtain ⟨_, hlt, hone⟩ := inv.drawn hmem (t := t) rfl
  have hown := owns_ticket (l := .running (.release t)) rfl t
  rw [if_pos rfl] at hown
  have hle := inv.holders_le ht
  have hself := le_total (owns t) hmem
  have hrel := le_total releasing hmem
  have h1 : releasing (.running (.release t)) = 1 := rfl
  have hheld : total isHeld sh.locks = 0 := by omega
  refine ⟨inv.next, ?_, by simp only; omega, ?_, ?_, ?_, ?_, inv.granted, ?_⟩
  · simp only [UInt64.toNat_add, inv.current]
    exact Nat.mod_add_mod _ _ _
  · intro v hv
    rcases List.mem_cons.mp hv with rfl | hv
    · have := inv.current_le
      simp only
      omega
    · have := inv.past v hv
      simp only
      omega
  · intro t'
    have hset := total_set (owns t') (.running (.finish ret)) hi
    rw [owns_none (l := .running (.finish ret)) rfl,
      owns_ticket (l := .running (.release t)) rfl] at hset
    have howners := inv.owners t'
    by_cases heq : t = t'
    · subst heq
      rw [if_pos rfl] at hset
      rw [if_neg (by simp only; omega)]
      simp only
      omega
    · have hne : t'.toNat ≠ sh.released := fun h =>
        heq (UInt64.toNat_inj.mp (ht.trans h.symm))
      rw [if_neg heq] at hset
      have hiff : (sh.released + 1 ≤ t'.toNat ∧ t'.toNat < sh.taken) ↔
          (sh.released ≤ t'.toNat ∧ t'.toNat < sh.taken) := by omega
      simp only [hiff]
      omega
  · refine forall_set trivial fun j l hne hj => ?_
    have hok := inv.tasks l (List.mem_of_getElem? hj)
    match l, hj, hok with
    | .running (.checkEq t' v), _, hok => exact ⟨hok.1, Nat.le_succ_of_le hok.2⟩
    | .running (.release t'), hj, hok =>
      -- the other one would own the same ticket
      have heq : t' = t := UInt64.toNat_inj.mp (Eq.trans hok ht.symm)
      have htwo := add_le_total (owns t) hne hj hi
      have hother := owns_ticket (l := .running (.release t')) rfl t
      rw [if_pos heq] at hother
      omega
    | .idle, _, _ | .running .fetchAdd, _, _ | .running (.getValue _), _, _
    | .running (.awaitNotEqual _ _), _, _ | .running (.clearVal _), _, _
    | .running (.moveVal _), _, _ | .running (.finish _), _, _ => trivial
  · intro k hk hheld'
    have hzero := total_eq_zero.mp hheld k hk
    have hk1 : isHeld k = 1 := ind_true hheld'
    omega
  · have hset := total_set releasing (.running (.finish ret)) hi
    have h0 : releasing (.running (.finish ret)) = 0 := rfl
    have hcount := inv.count
    simp only
    omega

/-! ## Every run -/

theorem taken_le_fire {a : Act} {c c' : Conf Shared Local} (hf : machine.fire i a c = some c') :
    c.shared.taken ≤ c'.shared.taken := by
  obtain ⟨l, sh', l', _, _, hs, rfl⟩ := machine.fire_cases hf
  rcases step_cases hs with ⟨_, _, rfl, _⟩ | ⟨_, _, rfl, _⟩ | ⟨pc, pc', _, he, _⟩ |
    ⟨_, _, _, _, _, rfl, _⟩
  · exact Nat.le_refl _
  · exact Nat.le_refl _
  · cases pc with
    | fetchAdd =>
      cases he
      exact Nat.le_succ _
    | getValue myTicket | release ticket =>
      cases he
      exact Nat.le_refl _
    | checkEq myTicket latestTicket =>
      simp only [exec] at he
      split at he <;> cases he
      exact Nat.le_refl _
    | clearVal lock | moveVal lock =>
      obtain ⟨k, _, hk⟩ := Option.map_eq_some_iff.mp he
      cases hk
      exact Nat.le_refl _
    | awaitNotEqual myTicket latestTicket | finish ret => cases he
  · exact Nat.le_refl _

theorem inv_fire {a : Act} {c c' : Conf Shared Local} (inv : Inv c.shared c.locals)
    (hbound : c'.shared.taken ≤ 2 ^ 64) (hf : machine.fire i a c = some c') :
    Inv c'.shared c'.locals := by
  obtain ⟨l, sh', l', hi, _, hs, rfl⟩ := machine.fire_cases hf
  have hcurrent := inv.current_le
  rcases step_cases hs with ⟨op, rfl, rfl, rfl⟩ | ⟨ret, rfl, rfl, rfl⟩ |
    ⟨pc, pc', rfl, he, rfl⟩ | ⟨v, t, w, rfl, hv, rfl, rfl⟩
  · cases op <;> exact inv_local inv hi rfl rfl trivial
  · exact inv_local inv hi rfl rfl trivial
  · cases pc with
    | fetchAdd =>
      cases he
      exact inv_fetchAdd inv hi hbound
    | getValue myTicket =>
      cases he
      exact inv_local inv hi (ticket?_acquireLoop _ _) (releasing_acquireLoop _ _)
        (localOk_acquireLoop hcurrent)
    | awaitNotEqual myTicket latestTicket => cases he
    | checkEq myTicket latestTicket =>
      simp only [exec] at he
      split at he <;> cases he
      exact inv_grant inv hi
    | clearVal lock =>
      obtain ⟨k, hk, hr⟩ := Option.map_eq_some_iff.mp he
      cases hheld : k.held with
      | true =>
        rw [hheld] at hr
        cases hr
        exact inv_clearVal inv hi hk hheld
      | false =>
        rw [hheld, clear_of_not_held hk hheld] at hr
        cases hr
        exact inv_local inv hi rfl rfl trivial
    | release ticket =>
      cases he
      exact inv_release inv hi
    | moveVal lock =>
      obtain ⟨k, hk, hr⟩ := Option.map_eq_some_iff.mp he
      cases hr
      exact inv_move inv hi hk
    | finish ret => cases he
  · have hle : v.toNat ≤ c.shared.released := by
      rcases List.mem_cons.mp hv with rfl | hv
      · exact hcurrent
      · exact inv.past v hv
    exact inv_local inv hi (ticket?_acquireLoop _ _) (releasing_acquireLoop _ _)
      (localOk_acquireLoop hle)

theorem inv_initial (n : Nat) : Inv (initial n).shared (initial n).locals := by
  refine ⟨rfl, rfl, Nat.le_refl _, nofun, ?_, ?_, nofun, rfl, ?_⟩
  · intro t
    rw [if_neg (by simp [initial])]
    simp only [initial, total_replicate, total_nil, Nat.add_zero]
    rfl
  · intro l hl
    obtain ⟨_, rfl⟩ := List.mem_replicate.mp hl
    trivial
  · simp only [initial, total_replicate, total_nil, Nat.add_zero, Nat.zero_add, List.length_nil]
    rfl

theorem inv_reachable {n : Nat} {c : Conf Shared Local} (hr : machine.Reachable (initial n) c)
    (hbound : c.shared.taken ≤ 2 ^ 64) : Inv c.shared c.locals := by
  refine machine.invariant (I := fun c => c.shared.taken ≤ 2 ^ 64 → Inv c.shared c.locals)
    ?_ ?_ hr hbound
  · intro c i a c' ih hf hbound
    exact inv_fire (ih (Nat.le_trans (taken_le_fire hf) hbound)) hbound hf
  · intro _
    exact inv_initial n

/-- **Mutual exclusion, in the order of the tickets.** For any number of tasks, in every run in
    which at most `2 ^ 64` tickets are drawn: at most one lock is held; the `k`-th lock granted
    has ticket `k`; every ticket drawn and not passed on yet has exactly one owner, which is a
    task waiting for it or the holder of the current one; and the comparison in `acquire` never
    fails. -/
theorem mutual_exclusion_fifo (n : Nat) (c : Conf Shared Local)
    (hr : machine.Reachable (initial n) c) (hbound : c.shared.taken ≤ 2 ^ 64) :
    total isHeld c.shared.locks ≤ 1 ∧
      c.shared.granted.map UInt64.toNat = List.range c.shared.granted.length ∧
      (∀ t : UInt64, c.shared.released ≤ t.toNat → t.toNat < c.shared.taken →
        total (owns t) c.locals + total (lockOwns t) c.shared.locks = 1) ∧
      (∀ k ∈ c.shared.locks, k.held = true → k.ticket = c.shared.currentTicket) ∧
      (∀ myTicket latestTicket, .running (.checkEq myTicket latestTicket) ∈ c.locals →
        latestTicket = myTicket) := by
  have inv := inv_reachable hr hbound
  refine ⟨?_, inv.granted, ?_, ?_, fun t v hl => (inv.check_eq hl).1⟩
  · by_contra hne
    have hsome : 0 < total isHeld c.shared.locks := by omega
    obtain ⟨k, hk, hpos⟩ := exists_of_total_pos hsome
    have ht := inv.locks k hk (ind_pos.mp hpos)
    have hone : lockOwns k.ticket k = 1 := by
      rw [lockOwns_eq, if_pos ⟨ind_pos.mp hpos, rfl⟩]
    have hle := le_total (lockOwns k.ticket) hk
    have := (inv.owned (t := k.ticket) (by omega)).2.2
    have := (inv.holders_le ht).2
    omega
  · intro t h1 h2
    rw [inv.owners t, if_pos ⟨h1, h2⟩]
  · intro k hk hheld
    have ht := inv.locks k hk hheld
    have hlt := k.ticket.toNat_lt
    refine UInt64.toNat_inj.mp ?_
    rw [inv.current, Nat.mod_eq_of_lt (by omega), ht]

/-- Task 1 waits for the lock of task 0, which task 2 moves and releases. The first value that
    wakes task 1 is out of date. -/
def movedLock : List (Nat × Act) :=
  (0, Act.call .lock) :: List.replicate 4 (0, Act.run) ++
    [(1, Act.call .lock), (1, Act.run), (1, Act.run), (2, Act.call (.move 0)), (2, Act.run),
      (2, Act.run), (2, Act.call (.release 1)), (2, Act.run), (2, Act.run), (1, Act.woken 0),
      (1, Act.woken 1), (1, Act.run)]

theorem mutual_exclusion_fifo_movedLock :
    ∃ c, machine.run movedLock (initial 3) = some c ∧ c.shared.granted = [0, 1] ∧
      total isHeld c.shared.locks ≤ 1 ∧
      (∀ k ∈ c.shared.locks, k.held = true → k.ticket = 1) := by
  have hrun : (machine.run movedLock (initial 3)).map (fun c =>
      (c.shared.granted, c.shared.taken, c.shared.currentTicket)) = some ([0, 1], 2, 1) := by
    decide
  obtain ⟨c, hc, hview⟩ := Option.map_eq_some_iff.mp hrun
  simp only [Prod.mk.injEq] at hview
  obtain ⟨hgranted, htaken, hcurrent⟩ := hview
  obtain ⟨hone, _, _, hheld, _⟩ :=
    mutual_exclusion_fifo 3 c ⟨movedLock, hc⟩ (by rw [htaken]; decide)
  rw [hcurrent] at hheld
  exact ⟨c, hc, hgranted, hone, hheld⟩

/-! ## The counters wrap around -/

/-- Task 0 takes the lock, which gets the number `lock`, and releases it. -/
def lockAndRelease (lock : Nat) : List (Nat × Act) :=
  (0, Act.call .lock) :: List.replicate 4 (0, Act.run) ++
    (0, Act.call (.release lock)) :: List.replicate 3 (0, Act.run)

/-- Two idle tasks, and `n` as the ticket to be drawn and to be served next. -/
def Unused (n : Nat) (c : Conf Shared Local) : Prop :=
  c.locals = [.idle, .idle] ∧ c.shared.nextTicket = UInt64.ofNat n ∧
    c.shared.currentTicket = UInt64.ofNat n

theorem acquireLoop_self (t : UInt64) : acquireLoop t t = .checkEq t t :=
  if_neg (UInt64.lt_irrefl t)

/-- A step of task 0 while task 1 is idle. -/
theorem run_first {a : Act} {rest : List (Nat × Act)} {sh' : Shared}
    (h : step a sh l = some (sh', l')) :
    machine.run ((0, a) :: rest) ⟨sh, [l, .idle]⟩ = machine.run rest ⟨sh', [l', .idle]⟩ := by
  have hfire : machine.fire 0 a ⟨sh, [l, .idle]⟩ = some ⟨sh', [l', .idle]⟩ := by
    simp [Machine.fire, machine, h]
  rw [Machine.run_cons, hfire, Option.bind_some]

theorem unused_succ {n : Nat} {c : Conf Shared Local} (h : Unused n c) :
    ∃ c', machine.run (lockAndRelease c.shared.locks.length) c = some c' ∧ Unused (n + 1) c' := by
  obtain ⟨sh, ls⟩ := c
  obtain ⟨hls, hnext, hcurrent⟩ := h
  simp only at hls hnext hcurrent
  subst hls
  have hsame : sh.currentTicket = sh.nextTicket := hcurrent.trans hnext.symm
  have hrun : machine.run (lockAndRelease sh.locks.length) ⟨sh, [.idle, .idle]⟩ = some
      ⟨{ nextTicket := sh.nextTicket + 1, currentTicket := sh.currentTicket + 1,
         past := sh.currentTicket :: sh.past,
         locks := (sh.locks ++ [(⟨true, sh.nextTicket⟩ : LockImpl)]).modify sh.locks.length fun l =>
           { l with held := false },
         taken := sh.taken + 1, released := sh.released + 1,
         granted := sh.granted ++ [sh.nextTicket] }, [.idle, .idle]⟩ := by
    have hcheck : ∀ (sh : Shared) (t : UInt64), step .run sh (.running (.checkEq t t)) =
        some ({ sh.construct { held := true, ticket := t } with granted := sh.granted ++ [t] },
          .running (.finish (.lock sh.locks.length))) := by
      intro sh t
      simp only [step, exec, if_true, Option.map_some]
    have hclear : ∀ (sh : Shared) (locks : List LockImpl) (t : UInt64),
        sh.locks = locks ++ [⟨true, t⟩] → step .run sh (.running (.clearVal locks.length)) =
          some (sh.clear locks.length, .running (.release t)) := by
      intro sh locks t hlocks
      simp only [step, exec, hlocks, List.getElem?_concat_length, Option.map_some, if_true]
    refine (run_first rfl).trans ((run_first rfl).trans ((run_first rfl).trans ?_))
    rw [hsame, acquireLoop_self]
    refine (run_first (hcheck _ _)).trans ((run_first rfl).trans ((run_first rfl).trans ?_))
    refine (run_first (hclear _ sh.locks sh.nextTicket rfl)).trans ?_
    refine (run_first rfl).trans ((run_first rfl).trans ?_)
    rw [← hsame]
    rfl
  refine ⟨_, hrun, rfl, ?_, ?_⟩
  · simp only [hnext]
    exact (UInt64.ofNat_add n 1).symm
  · simp only [hcurrent]
    exact (UInt64.ofNat_add n 1).symm

theorem unused_reachable (n : Nat) :
    ∃ c, machine.Reachable (initial 2) c ∧ Unused n c := by
  induction n with
  | zero => exact ⟨_, ⟨[], rfl⟩, rfl, rfl, rfl⟩
  | succ n ih =>
    obtain ⟨c, ⟨sched, hr⟩, hc⟩ := ih
    obtain ⟨c', hr', hc'⟩ := unused_succ hc
    refine ⟨c', ⟨sched ++ lockAndRelease c.shared.locks.length, ?_⟩, hc'⟩
    rw [Machine.run_append, hr, Option.bind_some]
    exact hr'

/-- After `2 ^ 64 - 1` uses of the lock one task draws the last ticket and a second one the
    ticket zero again. The second task compares its ticket with the last one. -/
theorem wrapped_ticket_fails_check :
    ∃ c, machine.Reachable (initial 2) c ∧
      .running (.checkEq 0 (UInt64.ofNat (2 ^ 64 - 1))) ∈ c.locals ∧
      UInt64.ofNat (2 ^ 64 - 1) ≠ (0 : UInt64) := by
  obtain ⟨⟨sh, ls⟩, ⟨sched, hr⟩, hls, hnext, hcurrent⟩ := unused_reachable (2 ^ 64 - 1)
  simp only at hls hnext hcurrent
  subst hls
  have hrun : machine.run [(0, .call .lock), (0, .run), (1, .call .lock), (1, .run), (1, .run)]
      ⟨sh, [.idle, .idle]⟩ = some
        ⟨{ sh with nextTicket := sh.nextTicket + 1 + 1, taken := sh.taken + 1 + 1 },
          [.running (.getValue sh.nextTicket),
            .running (acquireLoop (sh.nextTicket + 1) sh.currentTicket)]⟩ := rfl
  have hwrap : acquireLoop (UInt64.ofNat (2 ^ 64 - 1) + 1) (UInt64.ofNat (2 ^ 64 - 1)) =
      .checkEq 0 (UInt64.ofNat (2 ^ 64 - 1)) := by decide
  have hreach := machine.run_append sched
    [(0, .call .lock), (0, .run), (1, .call .lock), (1, .run), (1, .run)] (initial 2)
  rw [hr, Option.bind_some, hrun] at hreach
  refine ⟨_, ⟨_, hreach⟩, ?_, by decide⟩
  simp only [hnext, hcurrent, hwrap, List.mem_cons, true_or, or_true]

end Batt.Mutex
