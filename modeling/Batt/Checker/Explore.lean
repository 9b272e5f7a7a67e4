/-
  Every branch is explored, once.

  For each branch there is one equation. A branch other than the root of its state is in a
  queue, in flight, about to be queued, taken up or rejected as often as its parent has been
  taken up, if its parent leaves it at all (`Grown`). The root of a state is in the queue of
  its owner, taken up or rejected there, once where the owner has visited the state and not
  at all elsewhere (`Rooted`). A state that any shard has visited is one its owner has
  visited, or the root is on the way to the owner (`Known`).

  Where nothing is left and no check has failed, all branches of all reachable states have
  been taken up and every outcome has been executed (`explored_of_quiet`).
-/
import Mathlib.Data.List.Count
import Batt.Checker.Held
import Batt.Checker.Quiescence

namespace Batt.Checker

open Interleave Choice

variable {St : Type} {K : Nat} {c : Conf (Shared St K) (Local St K)} {i : Nat} {l : Local St K}

/-! ## Counting branches -/

def floating (w : Branch St K → Nat) (c : Conf (Shared St K) (Local St K)) : Nat :=
  total (sent w) c.locals + afloat w c.shared

theorem floating_set (w : Branch St K → Nat) (hl : c.locals[i]? = some l) (sh' : Shared St K)
    (l' : Local St K) :
    floating w ⟨sh', c.locals.set i l'⟩ + flight w c.shared l =
      floating w c + flight w sh' l' := by
  have := total_set (sent w) l' hl
  unfold floating flight
  simp only
  omega

theorem flight_le_floating (w : Branch St K → Nat) (hl : l ∈ c.locals) :
    flight w c.shared l ≤ floating w c := by
  have := le_total (sent w) hl
  unfold floating flight
  omega

variable [DecidableEq St] {m : StateMachineModel St} {κ : St × List Digit} {bs : List (Branch St K)}
  {b : Branch St K}

def weigh (κ : St × List Digit) (b : Branch St K) : Nat := if b.key = κ then 1 else 0

theorem weigh_eq_count (κ : St × List Digit) (b : Branch St K) :
    weigh κ b = [b.key].count κ := by
  rw [weigh, List.count_singleton]
  simp only [beq_iff_eq]

theorem count_key_cons (κ : St × List Digit) (b : Branch St K) (rest : List (St × List Digit)) :
    (b.key :: rest).count κ = weigh κ b + rest.count κ := by
  rw [← List.singleton_append, List.count_append, weigh_eq_count]

theorem weigh_of_path_ne (h : b.path ≠ κ.2) :
    weigh κ b = 0 := by
  refine if_neg fun heq => h ?_
  rw [← heq]
  rfl

theorem weigh_root_self [NeZero K] (x : St) : weigh (x, []) (.root x : Branch St K) = 1 := if_pos rfl

theorem mem_of_total_weigh (h : 0 < total (weigh κ) bs) :
    ∃ b ∈ bs, b.key = κ := by
  obtain ⟨b, hb, hpos⟩ := exists_of_total_pos h
  refine ⟨b, hb, ?_⟩
  by_contra hne
  rw [weigh, if_neg hne] at hpos
  cases hpos

/-- Branches with choices to repeat are never duplicates. -/
theorem weigh_dedup (hκ : κ.2 ≠ []) (hbs : ∀ b ∈ bs, b.WellFormed m) (visited : List St) :
    total (weigh κ) (dedup visited bs).2 = total (weigh κ) bs := by
  induction bs generalizing visited with
  | nil => rfl
  | cons b bs ih =>
    have hrest := ih fun b' hb' => hbs b' (List.mem_cons_of_mem _ hb')
    unfold dedup
    split
    · rename_i hempty
      have hpath := (hbs b (by simp)).empty_iff.mp hempty
      have hzero : weigh κ b = 0 := weigh_of_path_ne (by rw [hpath]; exact hκ.symm)
      split
      · rw [hrest, total_cons, hzero, Nat.zero_add]
      · rw [total_cons, total_cons, hrest]
    · rw [total_cons, total_cons, hrest]

/-- Of the roots of a state, the first that is received is kept. -/
theorem weigh_root_dedup (x : St) (hbs : ∀ b ∈ bs, b.WellFormed m) (visited : List St) :
    total (weigh (x, [])) (dedup visited bs).2 + (if x ∈ visited then 1 else 0) =
      if x ∈ (dedup visited bs).1 then 1 else 0 := by
  induction bs generalizing visited with
  | nil => exact Nat.zero_add _
  | cons b bs ih =>
    have hrest := fun visited => ih (fun b' hb' => hbs b' (List.mem_cons_of_mem _ hb')) visited
    have hpath := (hbs b (by simp)).empty_iff
    unfold dedup
    split
    · rename_i hempty
      have hkey : b.key = (b.snapshot, []) := by
        rw [Branch.key, hpath.mp hempty]
      split
      · exact hrest visited
      · rename_i hnew
        have hgrow := hrest (visited ++ [b.snapshot])
        dsimp only
        rw [total_cons]
        by_cases hx : b.snapshot = x
        · subst hx
          rw [if_pos (by simp)] at hgrow
          rw [weigh, if_pos hkey, if_neg hnew]
          omega
        · have hmem : x ∈ visited ++ [b.snapshot] ↔ x ∈ visited := by
            rw [List.mem_append, List.mem_singleton]
            exact or_iff_left fun h => hx h.symm
          simp only [hmem] at hgrow
          rw [weigh, if_neg (by rw [hkey]; simp [hx])]
          omega
    · rename_i hne
      have hzero : weigh (x, []) b = 0 := weigh_of_path_ne fun h => hne (hpath.mpr h)
      rw [total_cons, hzero, Nat.zero_add]
      exact hrest visited

/-! ## The children of a branch -/

/-- How often a shard holds the branch, has taken it up or has rejected it. -/
def View.share (κ : St × List Digit) (v : View St K) : Nat :=
  total (weigh κ) v.queue + v.future.count κ + v.entered.count κ + v.rejected.count κ

/-- How often the branch was left for later: once for each time its parent was taken up. -/
def due (m : StateMachineModel St) (κ : St × List Digit) (entered : List (St × List Digit)) : Nat :=
  if κ.2 ∈ pending (m.step κ.1) (parent κ.2) [] then entered.count (κ.1, parent κ.2) else 0

def Grown (m : StateMachineModel St) (c : Conf (Shared St K) (Local St K)) : Prop :=
  ∀ κ : St × List Digit, κ.2 ≠ [] →
    total (fun l => l.view.share κ) c.locals + floating (weigh κ) c =
      total (fun l => due m κ l.view.entered) c.locals

theorem due_concat (m : StateMachineModel St) (κ : St × List Digit)
    (entered : List (St × List Digit)) (e : St × List Digit) :
    due m κ (entered ++ [e]) = due m κ entered + due m κ [e] := by
  unfold due
  split
  · exact List.count_append
  · rfl

/-- A call of `step()` leaves the children of the branch that it runs. -/
theorem count_children (hb : b.WellFormed m) (κ : St × List Digit) :
    ((pending (m.step b.snapshot) b.path []).map (Prod.mk b.snapshot)).count κ =
      due m κ [b.key] := by
  obtain ⟨x, ds⟩ := κ
  unfold due
  rw [List.count_singleton]
  by_cases hx : b.snapshot = x
  · subst hx
    rw [List.count_map_of_injective _ _ (Prod.mk_right_injective b.snapshot),
      count_pending hb.branch]
    by_cases hmem : ds ∈ pending (m.step b.snapshot) (parent ds) []
    · simp only [hmem, true_and, if_true, Branch.key, beq_iff_eq, Prod.mk.injEq,
        eq_comm (a := b.path)]
    · simp [hmem]
  · have hnot : (x, ds) ∉ (pending (m.step b.snapshot) b.path []).map (Prod.mk b.snapshot) := by
      intro hmem
      obtain ⟨_, _, heq⟩ := List.mem_map.mp hmem
      exact hx (congrArg Prod.fst heq)
    rw [List.count_eq_zero_of_not_mem hnot]
    simp [Branch.key, hx]

section

variable [NeZero K] {mesh : Mesh St} {c' : Conf (Shared St K) (Local St K)} {sh sh' : Shared St K}

theorem grown_flow {l' : Local St K} (hv : l.view.Held m) (hfly : flight (illFormed m) sh l = 0)
    (hκ : κ.2 ≠ []) (hf : Flow mesh m sh l sh' l') :
    l'.view.share κ + flight (weigh κ) sh' l' + due m κ l.view.entered =
      l.view.share κ + flight (weigh κ) sh l + due m κ l'.view.entered := by
  have hroot : ∀ x, weigh κ (.root x : Branch St K) = 0 := fun x => weigh_of_path_ne hκ.symm
  cases hf with
  | idle view stay => rw [view, stay]
  | seed _ view add => rw [view, add, hroot, Nat.add_zero]
  | enter b rest hqueue hrun hfuture h view stay =>
    have hchildren := count_children (hv.queue b (by rw [hqueue]; simp)) κ
    rw [view, stay, due_concat, ← hchildren]
    simp only [View.share, hqueue, hfuture, total_cons, List.count_append, List.count_nil,
      weigh_eq_count κ b]
    omega
  | reject b rest hqueue hrun hfuture h view stay =>
    rw [view, stay]
    simp only [View.share, hqueue, total_cons, List.count_append, weigh_eq_count κ b]
    omega
  | keep b rest hfuture hencodes owner view stay =>
    rw [view, stay]
    simp only [View.share, hfuture, total_concat, count_key_cons]
    omega
  | send b rest hfuture hencodes remote inRange view add =>
    rw [view, add]
    simp only [View.share, hfuture, count_key_cons]
    omega
  | leave e hrun hfuture hseen view stay =>
    rw [view, stay]
    rfl
  | discoverKeep e hrun hfuture h hnew owner view stay =>
    rw [view, stay]
    simp only [View.share, total_concat, hroot, Nat.add_zero]
  | discoverSend e hrun hfuture h hnew remote inRange view add =>
    rw [view, add, hroot, Nat.add_zero]
    rfl
  | receive q batch items hq hitems hempty hrun view take =>
    have hill := take (illFormed m)
    have hbatch : ∀ b ∈ batch, b.WellFormed m := total_illFormed.mp (by omega)
    have htake := take (weigh κ)
    have hkeep := weigh_dedup hκ hbatch l.view.visited
    rw [view]
    simp only [View.share, hempty, total_nil]
    rw [hkeep]
    omega

theorem grown_step {a : Act} (hs : Sound mesh m c) (hg : Grown m c)
    (hf : (machine mesh m).fire i a c = some c') : Grown m c' := by
  obtain ⟨l, sh', l', hl, ht, rfl⟩ := fire_trans hf
  have hmem := List.mem_of_getElem? hl
  intro κ hκ
  have hflow := grown_flow (hs.held l hmem) (hs.flight hmem) hκ (hs.flow hmem ht)
  have hshare := total_set (fun l : Local St K => l.view.share κ) l' hl
  have hdue := total_set (fun l : Local St K => due m κ l.view.entered) l' hl
  have hfloat := floating_set (weigh κ) hl sh' l'
  have := hg κ hκ
  simp only at hshare hdue ⊢
  omega

/-! ## The roots -/

def View.roots (x : St) (v : View St K) : Nat :=
  total (weigh (x, [])) v.queue + v.entered.count (x, []) + v.rejected.count (x, [])

def Local.Rooted (mesh : Mesh St) (l : Local St K) : Prop :=
  ∀ x, l.view.roots x = if mesh.owner K x = l.shardI ∧ x ∈ l.view.visited then 1 else 0

omit [DecidableEq St] in
/-- A root that a shard receives belongs to it. -/
theorem owner_of_received (hplaced : sh.Placed mesh) {d : Nat} {q : RecvQueue St K}
    {batch : List (Branch St K)} {items : List (List (Branch St K))}
    (hq : sh.recvQueues[d]? = some q) (hitems : q.items = batch :: items) (hb : b ∈ batch)
    (hwf : b.WellFormed m) (hpath : b.path = []) :
    mesh.owner K b.snapshot = d := by
  rw [← findShard_of_path_nil hwf hpath]
  exact hplaced d q hq batch (by rw [hitems]; simp) b hb

theorem rooted_flow {l' : Local St K} (hv : l.view.Held m) (hfly : flight (illFormed m) sh l = 0)
    (hplaced : sh.Placed mesh) (hid : l'.shardI = l.shardI) (hr : l.Rooted mesh)
    (hf : Flow mesh m sh l sh' l') : l'.Rooted mesh := by
  intro x
  have hx := hr x
  rw [hid]
  cases hf with
  | idle view | seed _ view | leave _ _ _ _ view =>
    rw [view]
    exact hx
  | enter b rest hqueue hrun hfuture h view | reject b rest hqueue hrun hfuture h view =>
    rw [view]
    simp only [View.roots, hqueue, total_cons, List.count_append, weigh_eq_count _ b] at hx ⊢
    omega
  | keep b rest hfuture hencodes owner view =>
    obtain ⟨_, _, hne⟩ := hv.upcoming (show b.key ∈ l.view.future by rw [hfuture]; simp)
    have hzero : weigh (x, []) b = 0 := weigh_of_path_ne hne
    rw [view]
    simp only [View.roots, total_concat, hzero, Nat.add_zero] at hx ⊢
    exact hx
  | send b rest hfuture hencodes remote inRange view =>
    rw [view]
    exact hx
  | discoverKeep e hrun hfuture h hnew owner view =>
    rw [view]
    simp only [View.roots, total_concat, List.mem_append, List.mem_singleton] at hx ⊢
    by_cases heq : x = m.normalize e.raw
    · subst heq
      rw [if_neg fun h' => hnew h'.2] at hx
      rw [if_pos ⟨owner, .inr rfl⟩, weigh_root_self]
      omega
    · have hzero : weigh (x, []) (.root (m.normalize e.raw) : Branch St K) = 0 :=
        if_neg fun h' => heq (congrArg Prod.fst h').symm
      simp only [heq, or_false, hzero, Nat.add_zero]
      exact hx
  | discoverSend e hrun hfuture h hnew remote inRange view =>
    rw [view]
    simp only [View.roots, List.mem_append, List.mem_singleton] at hx ⊢
    by_cases heq : x = m.normalize e.raw
    · subst heq
      rw [if_neg fun h' => remote h'.1] at hx ⊢
      exact hx
    · simp only [heq, or_false]
      exact hx
  | receive q batch items hq hitems hempty hrun view take =>
    have hill := take (illFormed m)
    have hbatch : ∀ b ∈ batch, b.WellFormed m := total_illFormed.mp (by omega)
    have hkeep := weigh_root_dedup x hbatch l.view.visited
    rw [view]
    simp only [View.roots, hempty, total_nil] at hx ⊢
    by_cases howner : mesh.owner K x = l.shardI
    · simp only [howner, true_and] at hx ⊢
      omega
    · simp only [howner, false_and, if_false] at hx ⊢
      have hnone : total (weigh (x, [])) (dedup l.view.visited batch).2 = 0 := by
        by_contra hpos
        obtain ⟨b, hb, hkey⟩ := mem_of_total_weigh (Nat.pos_of_ne_zero hpos)
        have hmem := dedup_subset _ _ hb
        have hown := owner_of_received hplaced hq hitems hmem (hbatch b hmem)
          (congrArg Prod.snd hkey)
        rw [show b.snapshot = x from congrArg Prod.fst hkey] at hown
        exact howner hown
      omega

/-! ## The states on the way to their owners -/

/-- The owner has visited the state, or will. -/
def Arrives (mesh : Mesh St) (x : St) (c : Conf (Shared St K) (Local St K)) : Prop :=
  (∃ l ∈ c.locals, l.shardI = mesh.owner K x ∧ x ∈ l.view.visited) ∨
    0 < floating (weigh (x, [])) c

structure Known (mesh : Mesh St) (m : StateMachineModel St)
    (c : Conf (Shared St K) (Local St K)) : Prop where
  visited : ∀ l ∈ c.locals, ∀ x ∈ l.view.visited, Arrives mesh x c
  seeded : (∃ l ∈ c.locals, l.pc ≠ .init) → Arrives mesh (m.normalize m.initialState) c

/-- A shard forgets no state, and comes to know those that it discovers or receives. -/
theorem visited_flow {l' : Local St K} (hfly : flight (illFormed m) sh l = 0)
    (hplaced : sh.Placed mesh) (hf : Flow mesh m sh l sh' l') (x : St) :
    (x ∈ l.view.visited → x ∈ l'.view.visited) ∧
      (x ∈ l'.view.visited → x ∈ l.view.visited ∨ mesh.owner K x = l.shardI ∨
        0 < flight (weigh (x, [])) sh' l') ∧
      (flight (weigh (x, [])) sh l ≤ flight (weigh (x, [])) sh' l' ∨
        mesh.owner K x = l.shardI ∧ x ∈ l'.view.visited) := by
  cases hf with
  | idle view stay | enter _ _ _ _ _ _ view stay | reject _ _ _ _ _ _ view stay
  | keep _ _ _ _ _ view stay | leave _ _ _ _ view stay =>
    rw [view, stay]
    exact ⟨id, .inl, .inl (Nat.le_refl _)⟩
  | seed _ view add | send _ _ _ _ _ _ view add =>
    rw [view, add]
    exact ⟨id, .inl, .inl (by omega)⟩
  | discoverKeep e hrun hfuture h hnew owner view stay =>
    rw [view, stay]
    refine ⟨List.mem_append_left _, fun hx => ?_, .inl (Nat.le_refl _)⟩
    rcases List.mem_append.mp hx with hx | hx
    · exact .inl hx
    · rw [List.mem_singleton.mp hx]
      exact .inr (.inl owner)
  | discoverSend e hrun hfuture h hnew remote inRange view add =>
    rw [view, add]
    refine ⟨List.mem_append_left _, fun hx => ?_, .inl (by omega)⟩
    rcases List.mem_append.mp hx with hx | hx
    · exact .inl hx
    · rw [List.mem_singleton.mp hx, weigh_root_self]
      exact .inr (.inr (by omega))
  | receive q batch items hq hitems hempty hrun view take =>
    have hill := take (illFormed m)
    have hbatch : ∀ b ∈ batch, b.WellFormed m := total_illFormed.mp (by omega)
    have htake := take (weigh (x, []))
    rw [view]
    refine ⟨fun hx => mem_dedup.mpr (.inl hx), fun hx => ?_, ?_⟩
    · rcases mem_dedup.mp hx with hx | ⟨b, hb, hempty, rfl⟩
      · exact .inl hx
      · exact .inr (.inl (owner_of_received hplaced hq hitems hb (hbatch b hb)
          ((hbatch b hb).empty_iff.mp hempty)))
    · by_cases hpos : 0 < total (weigh (x, [])) batch
      · obtain ⟨b, hb, hkey⟩ := mem_of_total_weigh hpos
        have hpath : b.path = [] := congrArg Prod.snd hkey
        have hsnap : b.snapshot = x := congrArg Prod.fst hkey
        refine .inr ⟨?_, mem_dedup.mpr (.inr ⟨b, hb, (hbatch b hb).empty_iff.mpr hpath, hsnap⟩)⟩
        rw [← hsnap]
        exact owner_of_received hplaced hq hitems hb (hbatch b hb) hpath
      · exact .inl (by omega)

theorem arrives_step {a : Act} (hs : Sound mesh m c) {x : St} (hx : Arrives mesh x c)
    (hf : (machine mesh m).fire i a c = some c') :
    Arrives mesh x c' := by
  obtain ⟨l, sh', l', hl, ht, rfl⟩ := fire_trans hf
  have hmem := List.mem_of_getElem? hl
  have hid := (trans_sizes ht).1
  have hmem' : l' ∈ c.locals.set i l' :=
    List.mem_of_getElem? (List.getElem?_set_self (List.getElem?_eq_some_iff.mp hl).1)
  obtain ⟨hkeep, _, hfloat⟩ := visited_flow (hs.flight hmem) hs.queues (hs.flow hmem ht) x
  rcases hx with ⟨k, hk, howner, hkx⟩ | hpos
  · left
    obtain ⟨j, hj⟩ := List.mem_iff_getElem?.mp hk
    by_cases hji : j = i
    · subst hji
      rw [hl] at hj
      cases hj
      exact ⟨l', hmem', hid.trans howner, hkeep hkx⟩
    · refine ⟨k, List.mem_of_getElem? (i := j) ?_, howner, hkx⟩
      rw [List.getElem?_set_ne (Ne.symm hji)]
      exact hj
  · rcases hfloat with hle | ⟨howner, hx'⟩
    · have := floating_set (weigh (x, [])) hl sh' l'
      exact .inr (by omega)
    · exact .inl ⟨l', hmem', hid.trans howner.symm, hx'⟩

/-- The first step of a shard sends it the initial state. -/
theorem seed_step {a : Act} (hs : Sound mesh m c) (hl : c.locals[i]? = some l) (hpc : l.pc = .init)
    (hf : (machine mesh m).fire i a c = some c') :
    0 < floating (weigh (m.normalize m.initialState, [])) c' := by
  have hmem := List.mem_of_getElem? hl
  obtain ⟨l₀, sh', l', hl₀, _, hstep, rfl⟩ := Machine.fire_cases hf
  rw [hl] at hl₀
  cases hl₀
  cases a with
  | wake =>
    simp only [machine, step, hpc] at hstep
    cases hstep
  | run =>
    simp only [machine, step, exec, hpc] at hstep
    obtain ⟨l₁, hexplore, heq⟩ := Option.map_eq_some_iff.mp hstep
    cases heq
    rcases explore_cases hexplore with ⟨hforce, _⟩ | hb
    · cases hforce
    · obtain ⟨_, hadd⟩ := hb.view (hs.basic.sends l hmem)
      have hflight := hadd (by rw [hpc]; rfl) c.shared
        (weigh (m.normalize m.initialState, []))
      rw [weigh_root_self] at hflight
      have := floating_set (weigh (m.normalize m.initialState, [])) hl c.shared l'
      omega

theorem known_step {a : Act} (hs : Sound mesh m c) (hk : Known mesh m c)
    (hf : (machine mesh m).fire i a c = some c') : Known mesh m c' := by
  have hstep := fun {x} hx => arrives_step (x := x) hs hx hf
  have hseed := fun {l} hl hpc => seed_step (l := l) hs hl hpc hf
  obtain ⟨l, sh', l', hl, ht, rfl⟩ := fire_trans hf
  have hmem := List.mem_of_getElem? hl
  have hmem' : l' ∈ c.locals.set i l' :=
    List.mem_of_getElem? (List.getElem?_set_self (List.getElem?_eq_some_iff.mp hl).1)
  constructor
  · refine forall_set ?_ fun j k _ hj x hx => hstep (hk.visited k (List.mem_of_getElem? hj) x hx)
    intro x hx
    obtain ⟨_, hnew, _⟩ := visited_flow (hs.flight hmem) hs.queues (hs.flow hmem ht) x
    rcases hnew hx with h | h | h
    · exact hstep (hk.visited l hmem x h)
    · exact .inl ⟨l', hmem', (trans_sizes ht).1.trans h.symm, hx⟩
    · have := flight_le_floating (weigh (x, []))
        (c := (⟨sh', c.locals.set i l'⟩ : Conf (Shared St K) (Local St K))) hmem'
      simp only at this
      exact .inr (by omega)
  · intro _
    by_cases hinit : l.pc = .init
    · exact .inr (hseed hl hinit)
    · exact hstep (hk.seeded ⟨l, hmem, hinit⟩)

/-! ## Every run -/

structure Explored (mesh : Mesh St) (m : StateMachineModel St)
    (c : Conf (Shared St K) (Local St K)) : Prop where
  sound : Sound mesh m c
  grown : Grown m c
  rooted : ∀ l ∈ c.locals, l.Rooted mesh
  known : Known mesh m c

theorem explored_reachable (h : (machine mesh m).Reachable (initial mesh) c) :
    Explored mesh m c := by
  refine Machine.invariant ?_ ?_ h
  · intro c i a c' he hf
    refine ⟨sound_step he.sound hf, grown_step he.sound he.grown hf, ?_,
      known_step he.sound he.known hf⟩
    obtain ⟨l, sh', l', hl, ht, rfl⟩ := fire_trans hf
    have hmem := List.mem_of_getElem? hl
    exact forall_set (rooted_flow (he.sound.held l hmem) (he.sound.flight hmem) he.sound.queues
      (trans_sizes ht).1 (he.rooted l hmem) (he.sound.flow hmem ht))
      fun j k _ hj => he.rooted k (List.mem_of_getElem? hj)
  · have hlocal : ∀ l ∈ (initial mesh : Conf (Shared St K) (Local St K)).locals,
        l.pc = .init ∧ (∀ κ, l.view.share κ = 0) ∧ (∀ κ, due m κ l.view.entered = 0) ∧
          (∀ w, sent w l = 0) ∧ l.Rooted mesh ∧ l.view.visited = [] := by
      intro l hl
      obtain ⟨i, _, rfl⟩ := List.mem_map.mp hl
      refine ⟨rfl, fun κ => rfl, fun κ => ?_, fun w => ?_, fun x => ?_, rfl⟩
      · exact ite_self 0
      · simp [sent, Pc.batch, total_replicate]
      · exact (if_neg fun h => List.not_mem_nil h.2).symm
    refine ⟨sound_initial mesh m, ?_, fun l hl => (hlocal l hl).2.2.2.2.1, ?_, ?_⟩
    · intro κ _
      have hshare : total (fun l => l.view.share κ)
          (initial mesh : Conf (Shared St K) (Local St K)).locals = 0 :=
        total_eq_zero.mpr fun l hl => (hlocal l hl).2.1 κ
      have hdue : total (fun l => due m κ l.view.entered)
          (initial mesh : Conf (Shared St K) (Local St K)).locals = 0 :=
        total_eq_zero.mpr fun l hl => (hlocal l hl).2.2.1 κ
      have hsent : total (sent (weigh κ)) (initial mesh : Conf (Shared St K) (Local St K)).locals = 0 :=
        total_eq_zero.mpr fun l hl => (hlocal l hl).2.2.2.1 _
      have hafloat : afloat (weigh κ) (initial mesh : Conf (Shared St K) (Local St K)).shared = 0 := by
        simp [afloat, initial, total_replicate]
      rw [hshare, hdue, floating, hsent, hafloat]
    · intro l hl x hx
      rw [(hlocal l hl).2.2.2.2.2] at hx
      cases hx
    · rintro ⟨l, hl, hpc⟩
      exact absurd (hlocal l hl).1 hpc

end

end Batt.Checker
