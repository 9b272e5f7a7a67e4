/-
  `Latch` is write-once and delivers its value once.

  A thread that cannot go on is in an `await`, at the bottom of its stack: the user's handlers run
  only when the latch is ready, and an `await` made from there does not wait (`Nested`). So where
  no thread can go on, no handler is in the hands of a call. If then a setter has been called, the
  value is `kReady`, every handler of `state_` has been invoked and nobody is left waiting
  (`quiescent_idle`).
-/
import Batt.Latch.Tally

namespace Batt.Latch

open Interleave

variable {T : Type} {c : Conf (Shared T) (List (Frame T))} {stack : List (Frame T)}

/-! ## Where a thread can wait -/

/-- In the loop of `await`. -/
def Frame.awaits : Frame T → Bool
  | .inWatch _ .awaitNotEqual _ => true
  | _ => false

def Frame.loads : Frame T → Bool
  | .awaitLoad _ => true
  | _ => false

/-- Above another call nobody waits. -/
def Nested (sh : Shared T) (stack : List (Frame T)) : Prop :=
  ∀ f ∈ stack.dropLast, f.awaits = false ∧ (f.loads = true → sh.state.value = kReady)

section

variable {sh sh' : Shared T} {f : Frame T} {fs rest : List (Frame T)}

theorem moves_ready (inv : Inv sh (f :: rest)) (h : Moves sh f sh' fs)
    (hready : sh.state.value = kReady) : sh'.state.value = kReady := by
  cases h with
  | access call site access => exact access_ready inv access hready
  | _ => exact hready

/-- A step leaves no `await` where there was none, and begins to wait only if the latch is not
    ready. -/
theorem moves_awaits (h : Moves sh f sh' fs) (hf : f.awaits = false)
    (hready : f.loads = true → sh.state.value = kReady) :
    ∀ g ∈ fs, g.awaits = false ∧ (g.loads = true → f.loads = true) := by
  have hsingle : ∀ {x : Frame T}, x.awaits = false → x.loads = false →
      ∀ g ∈ [x], g.awaits = false ∧ (g.loads = true → f.loads = true) := by
    intro x hx hloads g hg
    obtain rfl := List.mem_singleton.mp hg
    refine ⟨hx, fun h => ?_⟩
    rw [hloads] at h
    cases h
  cases h with
  | access call site access =>
    intro g hg
    rcases List.mem_append.mp hg with hg | hg
    · obtain ⟨e, _, he⟩ := List.mem_filterMap.mp hg
      obtain ⟨handler, rfl⟩ := frameOf_handler he
      exact ⟨rfl, nofun⟩
    · obtain rfl := List.mem_singleton.mp hg
      refine ⟨?_, nofun⟩
      cases site <;> first | rfl | cases hf
  | fail fails =>
    intro g hg
    obtain rfl := List.mem_singleton.mp hg
    exact ⟨hf, id⟩
  | wait observes unready =>
    cases observes with
    | load call => exact absurd (hready rfl) unready
    | awaited call observed => cases hf
  | _ => first | exact hsingle rfl rfl | exact List.forall_mem_nil _

/-- Below the last one, a step leaves frames of handlers only. -/
theorem moves_dropLast (h : Moves sh f sh' fs) :
    ∀ g ∈ fs.dropLast, ∃ call result, g = .handler call result := by
  cases h with
  | access call site access =>
    intro g hg
    rw [List.dropLast_concat] at hg
    obtain ⟨e, _, he⟩ := List.mem_filterMap.mp hg
    obtain ⟨handler, rfl⟩ := frameOf_handler he
    exact ⟨handler, e.2, rfl⟩
  | _ => exact List.forall_mem_nil _

theorem nested_move {others : List (Frame T)} (inv : Inv sh (f :: others))
    (hn : Nested sh (f :: rest)) (h : Moves sh f sh' fs) : Nested sh' (fs ++ rest) := by
  cases rest with
  | nil =>
    intro g hg
    rw [List.append_nil] at hg
    obtain ⟨call, result, rfl⟩ := moves_dropLast h g hg
    exact ⟨rfl, nofun⟩
  | cons r rest =>
    obtain ⟨hf, hready⟩ := hn f List.mem_cons_self
    intro g hg
    rw [List.dropLast_append_of_ne_nil (List.cons_ne_nil r rest)] at hg
    rcases List.mem_append.mp hg with hg | hg
    · obtain ⟨hg, hloads⟩ := moves_awaits h hf hready g hg
      exact ⟨hg, fun hl => moves_ready inv h (hready (hloads hl))⟩
    · obtain ⟨hg, hloads⟩ := hn g (List.mem_cons_of_mem _ hg)
      exact ⟨hg, fun hl => moves_ready inv h (hloads hl)⟩

theorem mayCall_cases (h : mayCall stack = true) :
    stack = [] ∨ ∃ rest, stack = .user :: rest := by
  unfold mayCall at h
  split at h
  · exact .inl rfl
  · exact .inr ⟨_, rfl⟩
  · cases h

theorem nested_call (hmay : mayCall stack = true)
    (huser : Frame.user ∈ stack → sh.state.value = kReady) (hn : Nested sh stack) (op : Op T) :
    Nested (begin { sh with calls := sh.calls ++ [op] } sh.calls.length op).1
      ((begin { sh with calls := sh.calls ++ [op] } sh.calls.length op).2 ++ stack) := by
  generalize hbegin : begin { sh with calls := sh.calls ++ [op] } sh.calls.length op = r
  have hr : r.1.state.value = sh.state.value ∧ ∃ x, r.2 = [x] ∧ x.awaits = false := by
    rw [← hbegin]
    cases op <;> exact ⟨rfl, _, rfl, rfl⟩
  obtain ⟨hvalue, x, hx, hawaits⟩ := hr
  intro g hg
  rw [hvalue]
  rw [hx] at hg
  rcases mayCall_cases hmay with rfl | ⟨rest, rfl⟩
  · cases hg
  · rcases List.mem_cons.mp hg with rfl | hg
    · exact ⟨hawaits, fun _ => huser List.mem_cons_self⟩
    · exact hn g hg

end

theorem nested_reachable {n : Nat} (hr : machine.Reachable (initial n) c) :
    ∀ stack ∈ c.locals, Nested c.shared stack := by
  refine machine.invariant_reachable
    (I := fun c => ∀ stack ∈ c.locals, Nested c.shared stack) ?_ ?_ hr
  · intro c i a c' hr hn hf
    have inv := inv_reachable hr
    obtain ⟨stack, sh', stack', hi, -, hs, rfl⟩ := machine.fire_cases hf
    have hstack := List.mem_of_getElem? hi
    obtain ⟨others, hperm, _⟩ := flatten_set hi
    have inv := inv.perm hperm
    -- the latch stays ready, so the other stacks are as they were
    suffices h : Nested sh' stack' ∧ (c.shared.state.value = kReady → sh'.state.value = kReady) by
      refine forall_set h.1 fun j k _ hj g hg => ?_
      obtain ⟨hawaits, hloads⟩ := hn k (List.mem_of_getElem? hj) g hg
      exact ⟨hawaits, fun hl => h.2 (hloads hl)⟩
    simp only [machine, step] at hs
    split at hs
    · cases hs
    · split at hs
      · rename_i op
        split at hs
        · rename_i hmay
          cases hs
          refine ⟨nested_call hmay ?_ (hn stack hstack) op, ?_⟩
          · intro huser
            exact inv.frames .user (List.mem_append_left _ huser)
          · intro hready
            cases op <;> exact hready
        · cases hs
      · obtain ⟨⟨sh₁, frames⟩, hstep, hrest⟩ := Option.map_eq_some_iff.mp hs
        cases hrest
        have hm := step_moves hstep
        exact ⟨nested_move inv (hn _ hstack) hm, moves_ready inv hm⟩
      · cases hs
  · intro stack hstack
    rw [List.eq_of_mem_replicate hstack]
    exact List.forall_mem_nil _

/-! ## Where nobody can go on -/

/-- No thread can take its next step. -/
def Quiescent (c : Conf (Shared T) (List (Frame T))) : Prop := ∀ i, machine.fire i .run c = none

/-- The only step that may have to wait is the one that takes the result of an `await`. -/
theorem blocked_frame {sh : Shared T} {f : Frame T} (hok : FrameOk sh f)
    (h : f.step sh = none) :
    ∃ call handler k, f = .inWatch call .awaitNotEqual (.awaitResult handler k) ∧
      sh.state.invoked.lookup handler = none := by
  cases f with
  | inWatch call site pc =>
    by_cases hpc : ∃ ret, pc = .finish ret
    · obtain ⟨ret, rfl⟩ := hpc
      have hafter : afterWatch sh call site ret = none := h
      cases site with
      | fetchOr v =>
        obtain ⟨_, hstart | ⟨priorState, hstage, _⟩⟩ := hok
        · cases hstart
        · cases hstage
          simp only [afterWatch] at hafter
          split at hafter <;> cases hafter
      | setReady | asyncGet | rearm => cases hafter
      | awaitNotEqual =>
        obtain ⟨_, hstage, _⟩ | ⟨v, hfinish⟩ := hok
        · cases hstage
        · cases hfinish
          cases hafter
    · have hexec : Watch.exec true sh.state call pc = none := by
        refine Option.map_eq_none_iff.mp (?_ : sh.watchStep call site pc = none)
        cases pc <;> first | exact h | exact absurd ⟨_, rfl⟩ hpc
      obtain hfinish | ⟨handler, k, rfl, hnone⟩ := Watch.exec_eq_none hexec
      · exact absurd hfinish hpc
      · cases site with
        | fetchOr v =>
          obtain ⟨_, hstart | ⟨_, hstage, _⟩⟩ := hok
          · cases hstart
          · cases hstage
        | setReady =>
          obtain ⟨_, _, ⟨hstart, _⟩ | ⟨_, hstage⟩⟩ := hok
          · cases hstart
          · cases hstage
        | awaitNotEqual => exact ⟨call, handler, k, rfl, hnone⟩
        | asyncGet | rearm =>
          obtain ⟨_, _, hrunning⟩ | ⟨_, hfinish⟩ := hok
          · exact absurd rfl (hrunning handler k)
          · cases hfinish
  | setError call status | emplace call v | poll call | checkReady call | checkValue call
  | readValue call | handlerRead call =>
    simp only [Frame.step] at h
    split at h <;> cases h
  | construct call v =>
    cases v with
    | ok a => cases h
    | error code => cases code <;> cases h
  | handler call result =>
    cases result with
    | error code => cases h
    | ok observed =>
      simp only [Frame.step] at h
      split at h
      · split at h <;> cases h
      · cases h
  | awaitLoad | engage | isReady | user => cases h

theorem quiescent_stack {n : Nat} (hr : machine.Reachable (initial n) c) (hq : Quiescent c)
    (hfail : c.shared.failure = none) (hs : stack ∈ c.locals) :
    stack = [] ∨ ∃ call handler k,
      stack = [.inWatch call .awaitNotEqual (.awaitResult handler k)] ∧
        c.shared.state.invoked.lookup handler = none := by
  cases stack with
  | nil => exact .inl rfl
  | cons f rest =>
    obtain ⟨i, hi⟩ := List.mem_iff_getElem?.mp hs
    have hok := (inv_reachable hr).frames f
      (List.mem_flatten.mpr ⟨_, hs, List.mem_cons_self⟩)
    have hnone : f.step c.shared = none := by
      have hf := hq i
      simpa [Machine.fire, hi, machine, step, hfail] using hf
    obtain ⟨call, handler, k, rfl, hlookup⟩ := blocked_frame hok hnone
    refine .inr ⟨call, handler, k, ?_, hlookup⟩
    cases rest with
    | nil => rfl
    | cons r rest =>
      have hawaits := (nested_reachable hr _ hs _ List.mem_cons_self).1
      cases hawaits

/-- If a setter has been called, the latch is ready. -/
theorem quiescent_ready {n : Nat} (hr : machine.Reachable (initial n) c) (hq : Quiescent c)
    (hfail : c.shared.failure = none) {call : Nat} {v : StatusOr T} (hsets : Sets c.shared call v) :
    c.shared.state.value = kReady := by
  have inv := inv_reachable hr
  have t := tally_reachable hr
  have hawaits : ∀ f ∈ c.locals.flatten, f.awaits = true := by
    intro f hf
    obtain ⟨stack, hstack, hf⟩ := List.mem_flatten.mp hf
    rcases quiescent_stack hr hq hfail hstack with rfl | ⟨_, _, _, rfl, _⟩
    · cases hf
    · obtain rfl := List.mem_singleton.mp hf
      rfl
  have hno : ∀ f ∈ c.locals.flatten, setting f = false ∧ f.sets = false := by
    intro f hf
    have hf := hawaits f hf
    unfold Frame.awaits at hf
    split at hf
    · exact ⟨rfl, rfl⟩
    · cases hf
  -- nobody is on the way to store `kReady`
  have hsettings := inv.settings
  rw [total_eq_zero.mpr fun f hf => ind_false (hno f hf).1] at hsettings
  -- the setter has returned
  have hsetter : isSetter c.shared call = true := by simp [isSetter, Sets.eq_1 .. ▸ hsets]
  have hzero : total (runs call) c.locals.flatten = 0 := by
    refine total_eq_zero.mpr fun f hf => if_neg fun hcall => ?_
    have hserves := t.serves f hf call hcall
    rw [hsetter, (hno f hf).2] at hserves
    cases hserves
  have hlt : call < c.shared.calls.length := by
    obtain ⟨op, hop, _⟩ := Option.bind_eq_some_iff.mp hsets
    exact (List.getElem?_eq_some_iff.mp hop).1
  have hreturned := t.calls call
  rw [hzero, if_pos hlt, Nat.zero_add] at hreturned
  obtain ⟨⟨call', ret⟩, he, rfl⟩ := List.mem_map.mp
    (List.count_pos_iff.mp (Nat.lt_of_lt_of_eq Nat.one_pos hreturned.symm))
  have hret : ret.sets = true := (t.answers _ he).symm.trans hsetter
  have hclaimed : ∃ winner v, Claimed c.shared winner v := by
    have hok := inv.returns _ he
    cases ret with
    | set b =>
      cases b with
      | true => exact ⟨call', hok⟩
      | false => exact hok
    | _ => cases hret
  obtain ⟨winner, v', hhead, _⟩ := hclaimed
  have hlinks : c.shared.state.links ≠ [] := by
    intro hnil
    rw [hnil] at hhead
    cases hhead
  rcases inv.value with hv | hv | hv
  · exact absurd (inv.fresh.mp hv) hlinks
  · rw [if_pos hv] at hsettings
    cases hsettings
  · exact hv

/-- ... then every thread is idle, and every handler of `state_` has been invoked. -/
theorem quiescent_idle {n : Nat} (hr : machine.Reachable (initial n) c) (hq : Quiescent c)
    (hfail : c.shared.failure = none) (hready : c.shared.state.value = kReady) :
    (∀ stack ∈ c.locals, stack = []) ∧
      ∀ h < c.shared.state.handlers.length, Watch.timesInvoked h c.shared.state = 1 := by
  have inv := inv_reachable hr
  have hdelivered : ∀ h < c.shared.state.handlers.length,
      Watch.timesInvoked h c.shared.state = 1 := by
    intro h hh
    refine inv.flow.delivered hready ?_ hh
    intro l hl
    obtain ⟨f, hf, hl⟩ := List.mem_filterMap.mp hl
    obtain ⟨stack, hstack, hf⟩ := List.mem_flatten.mp hf
    rcases quiescent_stack hr hq hfail hstack with rfl | ⟨call, handler, k, rfl, _⟩
    · cases hf
    · obtain rfl := List.mem_singleton.mp hf
      exact ⟨call, handler, k, (Option.some.inj hl).symm⟩
  refine ⟨fun stack hstack => ?_, hdelivered⟩
  rcases quiescent_stack hr hq hfail hstack with hnil | ⟨call, handler, k, rfl, hnone⟩
  · exact hnil
  · -- the handler it waits for has been invoked
    have hok := inv.frames _ (List.mem_flatten.mpr ⟨_, hstack, List.mem_cons_self⟩)
    obtain ⟨_, hstage, hlt⟩ | ⟨_, hfinish⟩ := hok
    · cases hstage
      have hpos := Nat.lt_of_lt_of_eq Nat.one_pos (hdelivered handler hlt).symm
      obtain ⟨result, hsome⟩ := Watch.lookup_of_timesInvoked hpos
      rw [hsome] at hnone
      cases hnone
    · cases hfinish

/-! ## The latch -/

/-- What holds of a latch at any time. -/
structure WriteOnce (sh : Shared T) : Prop where
  /-- A setter that returned true was the first to reach `state_`. -/
  set : ∀ call, (call, .set true) ∈ sh.returns → ∃ v, Claimed sh call v
  once : wins sh ≤ 1
  /-- `await` and `poll` return the value of that setter, or `poll` that there is none yet. -/
  result : ∀ call r, (call, .result r) ∈ sh.returns → (∃ winner, Claimed sh winner r) ∨
    r = .error .kUnavailable ∧ sh.calls[call]? = some .poll
  ready : ∀ call, (call, .ready true) ∈ sh.returns → ∃ winner v, Claimed sh winner v
  /-- So are the handlers of `async_get` given this value, once at most. -/
  given : ∀ call r, (call, r) ∈ sh.given → ∃ winner, Claimed sh winner r
  givenOnce : ∀ call, timesGiven sh call ≤ 1
  /-- Nothing fails but a check of an argument: an OK status where an error is asked for. -/
  failure : ∀ f, sh.failure = some f → f = .okStatus ∧ ∃ call, Sets sh call (.error .kOk)

/-- What holds when all calls have come to their end. -/
structure Delivered (c : Conf (Shared T) (List (Frame T))) : Prop where
  idle : ∀ stack ∈ c.locals, stack = []
  returned : ∀ call < c.shared.calls.length, timesReturned c.shared call = 1
  set : wins c.shared = 1
  given : ∀ call, c.shared.calls[call]? = some .asyncGet → timesGiven c.shared call = 1

/-- **`Latch` is write-once and delivers once.** In every interleaving of any number of threads and
    calls, the first setter to reach `state_` is the only one to return true, and its value is what
    everybody gets. When no thread can go on and a setter has been called, all calls have returned,
    one setter has returned true, and every handler of `async_get` has been invoked once. -/
theorem latch_write_once (n : Nat) (c : Conf (Shared T) (List (Frame T)))
    (hr : machine.Reachable (initial n) c) :
    WriteOnce c.shared ∧
      (Quiescent c → c.shared.failure = none → (∃ call v, Sets c.shared call v) →
        Delivered c) := by
  have inv := inv_reachable hr
  have t := tally_reachable hr
  refine ⟨⟨?_, ?_, ?_, ?_, ?_, ?_, inv.failure⟩, ?_⟩
  · exact fun call he => inv.returns _ he
  · have hwinnings := inv.winnings
    split at hwinnings <;> omega
  · exact fun call r he => inv.returns _ he
  · exact fun call he => inv.returns _ he rfl
  · exact fun call r he => inv.given _ he
  · intro call
    exact Nat.le_trans (timesGiven_le inv t call) (asked_le_one call)
  · rintro hq hfail ⟨setter, v, hsets⟩
    have hready := quiescent_ready hr hq hfail hsets
    obtain ⟨hidle, hinvoked⟩ := quiescent_idle hr hq hfail hready
    have hnil : c.locals.flatten = [] := List.flatten_eq_nil_iff.mpr hidle
    refine ⟨hidle, ?_, ?_, ?_⟩
    · intro call hcall
      have hcalls := t.calls call
      rwa [hnil, total_nil, Nat.zero_add, if_pos hcall] at hcalls
    · have hwinnings := inv.winnings
      rwa [hnil, total_nil, Nat.zero_add, hready, if_neg (by decide)] at hwinnings
    · intro call hcall
      have hgiven := timesGiven_eq inv t hnil hinvoked call
      simpa [asked, hcall, Op.asks] using hgiven

def runOf (i k : Nat) : List (Nat × Act Nat) := List.replicate k (i, .run)

/-- A handler is passed, and two setters race. An `await` that begins between the claim and the
    value is woken by the claim already, and so is the handler; both wait again. -/
def raceRun : List (Nat × Act Nat) :=
  (0, Act.call .asyncGet) :: runOf 0 6 ++ (1, Act.call (.setValue (.ok 7))) ::
    (2, Act.call (.setValue (.ok 8))) :: runOf 1 1 ++ runOf 2 2 ++ (2, Act.call .await) ::
    runOf 2 6 ++ runOf 1 29 ++ runOf 2 9

theorem latch_write_once_raceRun :
    ∃ c : Conf (Shared Nat) (List (Frame Nat)), machine.run raceRun (initial 3) = some c ∧
      Delivered c ∧ Claimed c.shared 1 (.ok 7) ∧ c.shared.given = [(0, .ok 7)] ∧
      c.shared.returns =
        [(0, .unit), (2, .set false), (1, .set true), (3, .result (.ok 7))] := by
  refine ⟨_, rfl, ?_, ⟨rfl, rfl⟩, rfl, rfl⟩
  refine (latch_write_once 3 _ ⟨raceRun, rfl⟩).2 ?_ rfl ⟨1, .ok 7, rfl⟩
  rintro (_ | _ | _ | i) <;> rfl

end Batt.Latch
