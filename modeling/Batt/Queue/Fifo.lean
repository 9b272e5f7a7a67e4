/-
  Safety and order of `batt::Queue`.

  A consumer reserves an item by counting `pending_count_` down and takes it out of the deque
  later; a producer puts its items into the deque and counts up later. Between the two updates
  the deque has more items than the counter says. `Inv.available` is the balance: the items in
  the deque are those a consumer may still reserve, those reserved and not popped, and those
  whose producer has not counted them yet. The counter is the first of the three, reduced to an
  `i64`; a wrapped value is smaller than the number it stands for, so a positive one can be
  counted down.

  The order of the items is that of the lock: at most one task is between taking and giving back
  the lock, so what it puts in, or is about to take out, stays where it is.
-/
import Batt.Queue.Model

namespace Batt.Queue

open Interleave

variable {T : Type} {ls : List (Local T)} {sh sh' : Shared T} {i : Nat} {l l' : Local T}

/-! ## What the tasks account for -/

/-- The items a task has reserved and not taken out of the deque yet. -/
def reserved : Local T → Nat
  | .running (.lockPop _) | .running (.front _) | .running (.popFront _ _) => 1
  | _ => 0

/-- The items a task has put into the deque and not counted yet. -/
def uncounted : Local T → Nat
  | .running (.insert done _) => done.length
  | .running (.notify batch) => batch.length
  | _ => 0

/-- The task has the lock. -/
def critical : Local T → Nat
  | .running (.insert _ _) | .running (.front _) | .running (.popFront _ _)
  | .running (.unlockPop _ _) => 1
  | _ => 0

def inserting : Local T → Nat
  | .running (.insert _ _) => 1
  | _ => 0

def LocalOk (sh : Shared T) : Local T → Prop
  | .running (.insert done _) => sh.inserted = sh.batches.flatten ++ done
  | .running (.notify batch) => batch ∈ sh.batches
  | .running (.popFront _ v) => ∃ rest, sh.items = v :: rest
  | _ => True

structure Inv (sh : Shared T) (ls : List (Local T)) : Prop where
  available : ∃ n : Nat, sh.items.length = n + (total reserved ls + total uncounted ls) ∧
    sh.pendingCount = Int.bmod n (2 ^ 64)
  lock : total critical ls = if sh.locked then 1 else 0
  order : sh.popped ++ sh.items = sh.inserted
  whole : total inserting ls = 0 → sh.inserted = sh.batches.flatten
  tasks : ∀ l ∈ ls, LocalOk sh l

theorem inserting_le_critical (l : Local T) : inserting l ≤ critical l := by
  unfold inserting critical
  split
  · exact Nat.le_refl _
  · exact Nat.zero_le _

theorem Inv.critical_le (inv : Inv sh ls) :
    total critical ls ≤ 1 := by
  rw [inv.lock]
  split <;> omega

/-- What a task without the lock knows only gets better. -/
theorem localOk_mono (h : LocalOk sh l) (hout : critical l = 0)
    (hbatches : sh.batches ⊆ sh'.batches) : LocalOk sh' l := by
  unfold LocalOk at *
  split at h
  · cases hout
  · exact hbatches h
  · cases hout
  · trivial

/-- A wrapped count is at most the number it stands for. -/
theorem bmod_le (n : Nat) : Int.bmod n (2 ^ 64) ≤ n := by
  rw [Int.bmod_def]
  split <;> omega

/-- Counting a positive wrapped count down is counting the number down. -/
theorem bmod_pred {m : Nat} (h : 0 < Int.bmod (m + 1 : Nat) (2 ^ 64)) :
    Int.bmod (m + 1 : Nat) (2 ^ 64) - 1 = Int.bmod m (2 ^ 64) := by
  rw [Int.bmod_def] at h ⊢
  rw [Int.bmod_def]
  split at h <;> split <;> split <;> omega

/-! ## Steps -/

/-- What a step can be: a call, the return from one, an access, or a wake-up. -/
theorem step_cases {a : Act T} (h : step a sh l = some (sh', l')) :
    (∃ op, l = .idle ∧ sh' = sh ∧ l' = .running (begin op)) ∨
      (∃ ret, l = .running (.finish ret) ∧ sh' = sh ∧ l' = .idle) ∨
      (∃ weak pc pc', l = .running pc ∧ exec weak sh pc = some (sh', pc') ∧ l' = .running pc') ∨
      (∃ v old, l = .running (.awaitNotEqual old) ∧ sh' = sh ∧
        l' = .running (.awaitModifyCas v)) := by
  unfold step at h
  split at h
  · cases h
    exact .inl ⟨_, rfl, rfl, rfl⟩
  · cases h
    exact .inr (.inl ⟨_, rfl, rfl, rfl⟩)
  · obtain ⟨⟨s, pc'⟩, he, hr⟩ := Option.map_eq_some_iff.mp h
    cases hr
    exact .inr (.inr (.inl ⟨_, _, pc', rfl, he, rfl⟩))
  · split at h
    · obtain ⟨⟨s, pc'⟩, he, hr⟩ := Option.map_eq_some_iff.mp h
      cases hr
      exact .inr (.inr (.inl ⟨_, _, pc', rfl, he, rfl⟩))
    · obtain ⟨⟨s, pc'⟩, he, hr⟩ := Option.map_eq_some_iff.mp h
      cases hr
      exact .inr (.inr (.inl ⟨_, _, pc', rfl, he, rfl⟩))
    · cases h
  · split at h <;> cases h
    exact .inr (.inr (.inr ⟨_, _, rfl, rfl, rfl⟩))
  · cases h

/-- A step that leaves the queue alone and accounts for what the task did before. -/
theorem inv_local (inv : Inv sh ls) (hi : ls[i]? = some l) (hreserved : reserved l' = reserved l)
    (huncounted : uncounted l' = uncounted l) (hcritical : critical l' = critical l)
    (hinserting : inserting l' = inserting l) (hok : LocalOk sh l') : Inv sh (ls.set i l') := by
  have h1 := total_set reserved l' hi
  have h2 := total_set uncounted l' hi
  have h3 := total_set critical l' hi
  have h4 := total_set inserting l' hi
  obtain ⟨n, hlen, hpending⟩ := inv.available
  refine ⟨⟨n, by omega, hpending⟩, ?_, inv.order, ?_, ?_⟩
  · rw [← inv.lock]
    omega
  · intro h0
    exact inv.whole (by omega)
  · exact forall_set hok fun j k _ hj => inv.tasks k (List.mem_of_getElem? hj)

/-- Taking the lock. -/
theorem inv_lock (inv : Inv sh ls) (hi : ls[i]? = some l) (hfree : sh.locked = false)
    (hreserved : reserved l' = reserved l) (huncounted : uncounted l' = uncounted l)
    (hout : critical l = 0) (hin : critical l' = 1)
    (hok : sh.inserted = sh.batches.flatten → LocalOk sh l') :
    Inv { sh with locked := true } (ls.set i l') := by
  have h1 := total_set reserved l' hi
  have h2 := total_set uncounted l' hi
  have h3 := total_set critical l' hi
  have hlock := inv.lock
  rw [hfree] at hlock
  have hnone : total critical ls = 0 := hlock
  have hmono := total_mono ls (inserting_le_critical (T := T))
  have hwhole := inv.whole (by omega)
  obtain ⟨n, hlen, hpending⟩ := inv.available
  refine ⟨⟨n, by simp only; omega, hpending⟩, ?_, inv.order, fun _ => hwhole, ?_⟩
  · rw [if_pos rfl]
    omega
  · refine forall_set ?_ fun j k _ hj => ?_
    · have := hok hwhole
      unfold LocalOk at *
      split at this <;> exact this
    · have hk := inv.tasks k (List.mem_of_getElem? hj)
      have hzero := total_eq_zero.mp hnone k (List.mem_of_getElem? hj)
      exact localOk_mono hk hzero (List.Subset.refl _)

/-- One item more in the deque. -/
theorem inv_insert {x : T} {done rest : List T} (inv : Inv sh ls)
    (hi : ls[i]? = some (.running (.insert done (x :: rest)))) :
    Inv { sh with items := sh.items ++ [x], inserted := sh.inserted ++ [x] }
      (ls.set i (.running (.insert (done ++ [x]) rest))) := by
  have hmem := List.mem_of_getElem? hi
  have hdone : sh.inserted = sh.batches.flatten ++ done := inv.tasks _ hmem
  have h1 := total_set reserved (.running (.insert (done ++ [x]) rest)) hi
  have h2 := total_set uncounted (.running (.insert (done ++ [x]) rest)) hi
  have h3 := total_set critical (.running (.insert (done ++ [x]) rest)) hi
  have h4 := total_set inserting (.running (.insert (done ++ [x]) rest)) hi
  simp only [reserved, uncounted, critical, inserting, List.length_append,
    List.length_singleton] at h1 h2 h3 h4
  obtain ⟨n, hlen, hpending⟩ := inv.available
  refine ⟨⟨n, ?_, hpending⟩, ?_, ?_, ?_, ?_⟩
  · simp only [List.length_append, List.length_singleton]
    omega
  · rw [← inv.lock]
    omega
  · simp only
    rw [← List.append_assoc, inv.order]
  · intro h0
    have hone : 1 ≤ total inserting ls := le_total inserting hmem
    omega
  · refine forall_set ?_ fun j k hne hj => ?_
    · show sh.inserted ++ [x] = sh.batches.flatten ++ (done ++ [x])
      rw [hdone, List.append_assoc]
    · have hzero := others_zero inv.critical_le hi (Nat.one_pos) j k hne hj
      exact localOk_mono (inv.tasks k (List.mem_of_getElem? hj)) hzero (List.Subset.refl _)

/-- A push gives the lock back. -/
theorem inv_unlockPush {done : List T} (inv : Inv sh ls)
    (hi : ls[i]? = some (.running (.insert done []))) :
    Inv { sh with locked := false, batches := sh.batches ++ [done] }
      (ls.set i (.running (.notify done))) := by
  have hmem := List.mem_of_getElem? hi
  have hdone : sh.inserted = sh.batches.flatten ++ done := inv.tasks _ hmem
  have h1 := total_set reserved (.running (.notify done)) hi
  have h2 := total_set uncounted (.running (.notify done)) hi
  have h3 := total_set critical (.running (.notify done)) hi
  simp only [reserved, uncounted, critical] at h1 h2 h3
  have hle := inv.critical_le
  obtain ⟨n, hlen, hpending⟩ := inv.available
  refine ⟨⟨n, by simp only; omega, hpending⟩, ?_, inv.order, fun _ => ?_, ?_⟩
  · simp only [Bool.false_eq_true, if_false]
    omega
  · simp only [hdone, List.flatten_append, List.flatten_singleton]
  · refine forall_set ?_ fun j k hne hj => ?_
    · exact List.mem_append_right _ (List.mem_singleton_self done)
    · have hzero := others_zero inv.critical_le hi (Nat.one_pos) j k hne hj
      exact localOk_mono (inv.tasks k (List.mem_of_getElem? hj)) hzero
        (List.subset_append_left _ _)

/-- Updating the counter: `n` items could be reserved before, `n'` can be after. -/
theorem inv_setPending {n n' : Nat} {v : Int} (inv : Inv sh ls) (hi : ls[i]? = some l)
    (hlen : sh.items.length = n + (total reserved ls + total uncounted ls))
    (hv : v = Int.bmod n' (2 ^ 64))
    (hsum : n' + (reserved l' + uncounted l') = n + (reserved l + uncounted l))
    (hcritical : critical l' = critical l) (hinserting : inserting l' = inserting l)
    (hok : LocalOk (sh.setPending v) l') : Inv (sh.setPending v) (ls.set i l') := by
  have h1 := total_set reserved l' hi
  have h2 := total_set uncounted l' hi
  have h3 := total_set critical l' hi
  have h4 := total_set inserting l' hi
  refine ⟨⟨n', ?_, hv⟩, ?_, inv.order, ?_, ?_⟩
  · simp only [Shared.setPending]
    omega
  · have hsame : total critical (ls.set i l') = total critical ls := by omega
    rw [hsame]
    exact inv.lock
  · intro h0
    exact inv.whole (by omega)
  · refine forall_set hok fun j k _ hj => ?_
    have hk := inv.tasks k (List.mem_of_getElem? hj)
    unfold LocalOk at *
    split at hk <;> exact hk

theorem inv_notify {batch : List T} (inv : Inv sh ls)
    (hi : ls[i]? = some (.running (.notify batch))) :
    Inv (sh.setPending (addI64 sh.pendingCount batch.length))
      (ls.set i (.running (.finish (.flag true)))) := by
  obtain ⟨n, hlen, hpending⟩ := id inv.available
  have hwrap : addI64 sh.pendingCount batch.length =
      Int.bmod ((n + batch.length : Nat) : Int) (2 ^ 64) := by
    unfold addI64
    rw [hpending, Int.bmod_add_bmod, Int.natCast_add]
  refine inv_setPending inv hi hlen hwrap ?_ rfl rfl trivial
  simp only [reserved, uncounted]
  omega

/-- A consumer counts the counter down from a positive value and has an item reserved. -/
theorem inv_reserve {k : Caller} {old new : Int} (inv : Inv sh ls) (hi : ls[i]? = some l)
    (hreserved : reserved l = 0) (huncounted : uncounted l = 0) (hcritical : critical l = 0)
    (hinserting : inserting l = 0) (hnew : decrementIfPositive old = some new)
    (hold : sh.pendingCount = old) :
    Inv (sh.setPending new) (ls.set i (.running (.lockPop k))) := by
  obtain ⟨n, hlen, hpending⟩ := id inv.available
  unfold decrementIfPositive at hnew
  split at hnew <;> cases hnew
  rename_i hpos
  have hle := bmod_le n
  rw [← hpending, hold] at hle
  have hn : 0 < n := Int.natCast_pos.mp (Int.lt_of_lt_of_le hpos hle)
  obtain ⟨m, rfl⟩ := Nat.exists_eq_add_one.mpr hn
  have hsub : old - 1 = Int.bmod m (2 ^ 64) := by
    rw [← hold, hpending] at hpos ⊢
    exact bmod_pred hpos
  have hsum : m + (reserved (.running (.lockPop k) : Local T) +
      uncounted (.running (.lockPop k) : Local T)) = m + 1 + (reserved l + uncounted l) := by
    rw [hreserved, huncounted]
    rfl
  exact inv_setPending inv hi hlen hsub hsum hcritical.symm hinserting.symm trivial

/-- The front of the deque is taken out. -/
theorem inv_popFront {k : Caller} {v : T} (inv : Inv sh ls)
    (hi : ls[i]? = some (.running (.popFront k v))) :
    Inv { sh with items := sh.items.tail, popped := sh.popped ++ [v] }
      (ls.set i (.running (.unlockPop k v))) := by
  have hmem := List.mem_of_getElem? hi
  obtain ⟨rest, hrest⟩ : ∃ rest, sh.items = v :: rest := inv.tasks _ hmem
  have h1 := total_set reserved (.running (.unlockPop k v)) hi
  have h2 := total_set uncounted (.running (.unlockPop k v)) hi
  have h3 := total_set critical (.running (.unlockPop k v)) hi
  have h4 := total_set inserting (.running (.unlockPop k v)) hi
  simp only [reserved, uncounted, critical, inserting] at h1 h2 h3 h4
  obtain ⟨n, hlen, hpending⟩ := inv.available
  rw [hrest, List.length_cons] at hlen
  refine ⟨⟨n, ?_, hpending⟩, ?_, ?_, fun h0 => inv.whole (by omega), ?_⟩
  · simp only [hrest, List.tail_cons]
    omega
  · rw [← inv.lock]
    omega
  · simp only [hrest, List.tail_cons]
    rw [List.append_assoc, List.singleton_append, ← hrest, inv.order]
  · refine forall_set trivial fun j k hne hj => ?_
    have hzero := others_zero inv.critical_le hi (Nat.one_pos) j k hne hj
    exact localOk_mono (inv.tasks k (List.mem_of_getElem? hj)) hzero (List.Subset.refl _)

/-- A consumer gives the lock back. -/
theorem inv_unlockPop {k : Caller} {v : T} (inv : Inv sh ls)
    (hi : ls[i]? = some (.running (.unlockPop k v))) :
    Inv { sh with locked := false } (ls.set i (.running (afterPop v k))) := by
  have hafter : reserved (.running (afterPop v k)) = 0 ∧ uncounted (.running (afterPop v k)) = 0 ∧
      critical (.running (afterPop v k)) = 0 ∧ inserting (.running (afterPop v k)) = 0 ∧
      LocalOk { sh with locked := false } (.running (afterPop v k)) := by
    cases k <;> exact ⟨rfl, rfl, rfl, rfl, trivial⟩
  obtain ⟨hr, hu, hc, hn, hok⟩ := hafter
  have h1 := total_set reserved (.running (afterPop v k)) hi
  have h2 := total_set uncounted (.running (afterPop v k)) hi
  have h3 := total_set critical (.running (afterPop v k)) hi
  have h4 := total_set inserting (.running (afterPop v k)) hi
  rw [hr] at h1
  rw [hu] at h2
  rw [hc] at h3
  rw [hn] at h4
  simp only [reserved, uncounted, critical, inserting] at h1 h2 h3 h4
  have hle := inv.critical_le
  obtain ⟨n, hlen, hpending⟩ := inv.available
  refine ⟨⟨n, by simp only; omega, hpending⟩, ?_, inv.order, fun h0 => inv.whole (by omega), ?_⟩
  · simp only [Bool.false_eq_true, if_false]
    omega
  · refine forall_set hok fun j k hne hj => ?_
    have hzero := others_zero inv.critical_le hi (Nat.one_pos) j k hne hj
    exact localOk_mono (inv.tasks k (List.mem_of_getElem? hj)) hzero (List.Subset.refl _)

theorem inv_close (inv : Inv sh ls) :
    Inv { sh with closed := true } ls := by
  refine ⟨inv.available, inv.lock, inv.order, inv.whole, fun l hl => ?_⟩
  have hk := inv.tasks l hl
  unfold LocalOk at *
  split at hk <;> exact hk

/-! ## Every run -/

theorem inv_exec {weak : Bool} {pc pc' : Pc T} (inv : Inv sh ls) (hi : ls[i]? = some (.running pc))
    (h : exec weak sh pc = some (sh', pc')) : Inv sh' (ls.set i (.running pc')) := by
  cases pc with
  | isOpen batch =>
    cases h
    refine inv_local inv hi ?_ ?_ ?_ ?_ ?_ <;> split <;> first | rfl | trivial
  | lockPush batch =>
    simp only [exec] at h
    split at h <;> cases h
    rename_i hfree
    refine inv_lock inv hi (by simpa using hfree) rfl rfl rfl rfl fun hwhole => ?_
    rw [LocalOk, List.append_nil]
    exact hwhole
  | insert done rest =>
    cases rest with
    | nil =>
      cases h
      exact inv_unlockPush inv hi
    | cons x rest =>
      cases h
      exact inv_insert inv hi
  | notify batch =>
    cases h
    exact inv_notify inv hi
  | awaitModifyLoad | modifyIfLoad k =>
    cases h
    exact inv_local inv hi rfl rfl rfl rfl trivial
  | awaitModifyCas old =>
    simp only [exec] at h
    split at h
    · cases h
      exact inv_local inv hi rfl rfl rfl rfl trivial
    · rename_i new hnew
      split at h <;> cases h
      · rename_i hcas
        exact inv_reserve inv hi rfl rfl rfl rfl hnew hcas.2
      · exact inv_local inv hi rfl rfl rfl rfl trivial
  | awaitNotEqual old =>
    simp only [exec] at h
    split at h <;> cases h
    exact inv_local inv hi rfl rfl rfl rfl trivial
  | modifyIfCas k old =>
    simp only [exec] at h
    split at h
    · cases h
      cases k <;> exact inv_local inv hi rfl rfl rfl rfl trivial
    · rename_i new hnew
      split at h <;> cases h
      · rename_i hcas
        exact inv_reserve inv hi rfl rfl rfl rfl hnew hcas.2
      · exact inv_local inv hi rfl rfl rfl rfl trivial
  | lockPop k =>
    simp only [exec] at h
    split at h <;> cases h
    rename_i hfree
    exact inv_lock inv hi (by simpa using hfree) rfl rfl rfl rfl fun _ => trivial
  | front k =>
    simp only [exec] at h
    split at h <;> cases h
    rename_i v rest hitems
    exact inv_local inv hi rfl rfl rfl rfl ⟨rest, hitems⟩
  | popFront k v =>
    cases h
    exact inv_popFront inv hi
  | unlockPop k v =>
    cases h
    exact inv_unlockPop inv hi
  | closePending =>
    cases h
    exact inv_local (inv_close inv) hi rfl rfl rfl rfl trivial
  | finish ret => cases h

theorem inv_fire {a : Act T} {c c' : Conf (Shared T) (Local T)} (inv : Inv c.shared c.locals)
    (hf : machine.fire i a c = some c') :
    Inv c'.shared c'.locals := by
  obtain ⟨l, sh', l', hi, _, hs, rfl⟩ := machine.fire_cases hf
  rcases step_cases hs with ⟨op, rfl, rfl, rfl⟩ | ⟨ret, rfl, rfl, rfl⟩ |
    ⟨weak, pc, pc', rfl, he, rfl⟩ | ⟨v, old, rfl, rfl, rfl⟩
  · cases op <;> exact inv_local inv hi rfl rfl rfl rfl trivial
  · exact inv_local inv hi rfl rfl rfl rfl trivial
  · exact inv_exec inv hi he
  · exact inv_local inv hi rfl rfl rfl rfl trivial

theorem inv_reachable {n : Nat} {c : Conf (Shared T) (Local T)}
    (hr : machine.Reachable (initial n) c) : Inv c.shared c.locals := by
  refine machine.invariant (I := fun c => Inv c.shared c.locals) (fun c i a c' => inv_fire) ?_ hr
  have hzero : ∀ f : Local T → Nat, f .idle = 0 → total f (initial n).locals = 0 := by
    intro f hf
    rw [initial, total_replicate, hf, Nat.mul_zero]
  refine ⟨⟨0, ?_, rfl⟩, ?_, rfl, fun _ => rfl, ?_⟩
  · rw [hzero reserved rfl, hzero uncounted rfl]
    rfl
  · rw [hzero critical rfl]
    rfl
  · intro l hl
    obtain ⟨_, rfl⟩ := List.mem_replicate.mp hl
    trivial

/-- **Reserved items are there, and leave in order.** For any number of producers and consumers,
    in every run: the items reserved and not popped plus `pending_count_` are at most the items
    stored; the deque is not empty where `pop_next_or_panic` checks it; what was popped is a
    beginning of what was inserted; and what was inserted are the arguments of the pushes one
    after the other, the last of them perhaps not complete yet. -/
theorem reserved_items_present (n : Nat) (c : Conf (Shared T) (Local T))
    (hr : machine.Reachable (initial n) c) :
    (total reserved c.locals : Int) + c.shared.pendingCount ≤ c.shared.items.length ∧
      (∀ k, .running (.front k) ∈ c.locals → c.shared.items ≠ []) ∧
      c.shared.popped ++ c.shared.items = c.shared.inserted ∧
      (∃ tail, c.shared.inserted = c.shared.batches.flatten ++ tail ∧
        (tail = [] ∨ ∃ rest, .running (.insert tail rest) ∈ c.locals)) ∧
      (∀ batch, .running (.notify batch) ∈ c.locals → batch ∈ c.shared.batches) := by
  have inv := inv_reachable hr
  obtain ⟨m, hlen, hpending⟩ := inv.available
  refine ⟨?_, ?_, inv.order, ?_, fun batch hb => inv.tasks _ hb⟩
  · have hle := bmod_le m
    rw [← hpending] at hle
    have hcast : (c.shared.items.length : Int) =
        m + (total reserved c.locals + total uncounted c.locals) := by
      rw [hlen]
      rfl
    omega
  · intro k hk hnil
    have hone : 1 ≤ total reserved c.locals := le_total reserved hk
    rw [hnil, List.length_nil] at hlen
    omega
  · by_cases h0 : total inserting c.locals = 0
    · exact ⟨[], by rw [List.append_nil]; exact inv.whole h0, .inl rfl⟩
    · obtain ⟨l, hl, hpos⟩ := exists_of_total_pos (Nat.pos_of_ne_zero h0)
      match l, hl, hpos with
      | .running (.insert done rest), hl, _ =>
        exact ⟨done, inv.tasks _ hl, .inr ⟨rest, hl⟩⟩

/-- A consumer reserves the first item of a push of two before a second consumer, which takes the
    lock first, and a third push comes in between. -/
def overtakenRun : List (Nat × Act Nat) :=
  (0, Act.call (.pushAll [1, 2])) :: List.replicate 6 (0, Act.run) ++
    [(1, Act.call .awaitNext), (1, Act.run), (1, Act.run), (2, Act.call .tryPopNext), (2, Act.run),
      (2, Act.spurious), (2, Act.run), (2, Act.run), (2, Act.run), (2, Act.run), (0, Act.run),
      (0, Act.call (.push 3)), (0, Act.run), (2, Act.run), (0, Act.run), (0, Act.run), (0, Act.run),
      (1, Act.run)]

theorem reserved_items_present_overtakenRun :
    ∃ c, machine.run overtakenRun (initial 3) = some c ∧ c.shared.popped = [1] ∧
      .running (.front .awaitNext) ∈ c.locals ∧ c.shared.items ≠ [] ∧
      c.shared.popped ++ c.shared.items = [1, 2, 3] := by
  have hrun : (machine.run overtakenRun (initial 3)).map (fun c =>
      (c.shared.popped, c.locals[1]?, c.shared.inserted)) =
      some ([1], some (.running (.front .awaitNext)), [1, 2, 3]) := by
    decide
  obtain ⟨c, hc, hview⟩ := Option.map_eq_some_iff.mp hrun
  simp only [Prod.mk.injEq] at hview
  obtain ⟨hpopped, hfront, hinserted⟩ := hview
  have hmem := List.mem_of_getElem? hfront
  obtain ⟨_, hne, horder, _⟩ := reserved_items_present 3 c ⟨overtakenRun, hc⟩
  exact ⟨c, hc, hpopped, hmem, hne _ hmem, horder.trans hinserted⟩

end Batt.Queue
