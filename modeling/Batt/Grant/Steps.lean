/-
  What one step of a call on an `Issuer` or a `Grant` can do, said once. `Trans` has one case
  for each access that changes a counter or a grant; everything else (loads, failed
  compare-exchanges, waiting) is `quiet`. `transit` is the amount a call has taken out of one
  counter and not yet put into another.
-/
import Batt.Grant.Model

namespace Batt.Grant

open Interleave

/-! ## Phases of a call -/

/-- What the call holds between two accesses. -/
def Pc.transit : Pc → Nat
  | .makeGrant count => count.toNat
  | .recycle count _ => count.toNat
  | .subsumeAdd _ count => count.toNat
  | .moveMake _ size => size.toNat
  | _ => 0

/-- The grant that `subsume` is going to add to. -/
def Pc.adds : Pc → Option Nat
  | .subsumeTake this _ => some this
  | .subsumeAdd this _ => some this
  | _ => none

/-- The grant that a destructor has emptied. -/
def Pc.emptied : Pc → Option Nat
  | .recycle _ (.spendAll g .destroy) => some g
  | .closeSize g .destroy => some g
  | .endLife g => some g
  | _ => none

/-- A point from which nothing needs to be known about a grant. -/
def Pc.plain (pc : Pc) : Prop :=
  pc.adds = none ∧ pc.emptied = none ∧ pc.exclusive = none ∧ pc.transit = 0

theorem plain_transfer (source : Source) (count v : UInt64) (wait : Bool) :
    (Pc.modifyIfLoad source count wait).plain ∧ (Pc.modifyIfCas source count wait v).plain ∧
      (Pc.isClosed source).plain ∧ (Pc.awaitTrue source count).plain ∧
      (Pc.awaitNotEqual source count).plain := by
  refine ⟨?_, ?_, ?_, ?_, ?_⟩ <;> exact ⟨rfl, rfl, rfl, rfl⟩

theorem plain_finish (ret : Ret) : (Pc.finish ret).plain := ⟨rfl, rfl, rfl, rfl⟩

inductive Trans (sh : Shared) : Pc → Shared → Pc → Prop where
  | quiet {pc pc' : Pc} (idle : pc.transit = 0) (uses : pc'.uses ⊆ pc.uses) (plain : pc'.plain) :
      Trans sh pc sh pc'
  | take (source : Source) (count : UInt64) (wait : Bool) (v : UInt64)
      (has : sh.get source = some v) (enough : count ≤ v) :
      Trans sh (.modifyIfCas source count wait v) (sh.set source (v - count)) (.makeGrant count)
  | makeGrant (count : UInt64) (ret : Ret) :
      Trans sh (.makeGrant count) (sh.construct true count) (.finish ret)
  | setZero (g : Nat) (caller : Caller) (size : UInt64) (has : sh.get (.grant g) = some size) :
      Trans sh (.setZero g caller) (sh.setSize g 0) (.recycle size (.spendAll g caller))
  | recycleGrow (count : UInt64) :
      Trans sh (.recycle count .grow) { sh with available := sh.available + count }
        (.finish .unit)
  | recycle (count : UInt64) (g : Nat) (caller : Caller) :
      Trans sh (.recycle count (.spendAll g caller))
        { sh with available := sh.available + count } (afterSpendAll g count caller)
  | closeSize (g : Nat) (caller : Caller) :
      Trans sh (.closeSize g caller)
        { sh with grants := sh.grants.modify g fun gr => { gr with closed := true } }
        (if caller = .destroy then .endLife g else .finish .unit)
  | endLife (g : Nat) :
      Trans sh (.endLife g)
        { sh with grants := sh.grants.modify g fun gr => { gr with alive := false } }
        (.finish .unit)
  | subsumeTake (this that : Nat) (count : UInt64) (has : sh.get (.grant that) = some count) :
      Trans sh (.subsumeTake this that) (sh.setSize that 0) (.subsumeAdd this count)
  | subsumeAdd (this : Nat) (count size : UInt64) (has : sh.get (.grant this) = some size) :
      Trans sh (.subsumeAdd this count) (sh.setSize this (size + count)) (.finish .unit)
  | moveTake (g : Nat) (size : UInt64) (has : sh.get (.grant g) = some size) :
      Trans sh (.moveTake g)
        { sh with grants := sh.grants.modify g fun gr => { gr with issuer := false, size := 0 } }
        (.moveMake (sh.hasIssuer g) size)
  | moveMake (issuer : Bool) (size : UInt64) (ret : Ret) :
      Trans sh (.moveMake issuer size) (sh.construct issuer size) (.finish ret)
  | growTotal (count : UInt64) :
      Trans sh (.growTotal count)
        { sh with totalSize := sh.totalSize + count, grown := sh.grown + count.toNat }
        (.recycle count .grow)
  | closeAvailable : Trans sh .closeAvailable { sh with availableClosed := true } (.finish .unit)

theorem exec_trans {debug weak : Bool} {sh sh' : Shared} {pc pc' : Pc}
    (h : exec debug weak sh pc = some (sh', pc')) : Trans sh pc sh' pc' := by
  cases pc with
  | modifyIfLoad source count wait =>
    obtain ⟨v, _, hr⟩ := Option.map_eq_some_iff.mp h
    cases hr
    exact .quiet rfl (List.Subset.refl _) (plain_transfer source count v wait).2.1
  | modifyIfCas source count wait observed =>
    simp only [exec] at h
    obtain ⟨_, _, hclosed, hawait, _⟩ := plain_transfer source count observed wait
    split at h
    · rename_i henough
      obtain ⟨v, hv, hr⟩ := Option.map_eq_some_iff.mp h
      split at hr
      · rename_i hcas
        obtain ⟨_, rfl⟩ := hcas
        cases hr
        exact .take source count wait v hv henough
      · cases hr
        exact .quiet rfl (List.Subset.refl _) (plain_transfer source count v wait).2.1
    · split at h <;> cases h
      · exact .quiet rfl (List.Subset.refl _) hawait
      · exact .quiet rfl (List.Subset.refl _) hclosed
  | isClosed source =>
    obtain ⟨closed, _, hr⟩ := Option.map_eq_some_iff.mp h
    cases hr
    exact .quiet rfl (List.nil_subset _) (plain_finish _)
  | awaitTrue source count =>
    obtain ⟨v, _, hr⟩ := Option.map_eq_some_iff.mp h
    obtain ⟨hload, _, _, _, hwait⟩ := plain_transfer source count v true
    cases hr
    split
    · exact .quiet rfl (List.Subset.refl _) hload
    · exact .quiet rfl (List.Subset.refl _) hwait
  | awaitNotEqual source count =>
    obtain ⟨closed, _, hr⟩ := Option.bind_eq_some_iff.mp h
    split at hr <;> cases hr
    exact .quiet rfl (List.nil_subset _) (plain_finish _)
  | makeGrant count => cases h; exact .makeGrant count _
  | setZero g caller =>
    obtain ⟨size, hsize, hr⟩ := Option.map_eq_some_iff.mp h
    cases hr
    exact .setZero g caller size hsize
  | recycle count k =>
    cases k with
    | grow => cases h; exact .recycleGrow count
    | spendAll g caller => cases h; exact .recycle count g caller
  | closeSize g caller => cases h; exact .closeSize g caller
  | endLife g => cases h; exact .endLife g
  | subsumeTake this that =>
    obtain ⟨count, hcount, hr⟩ := Option.map_eq_some_iff.mp h
    cases hr
    exact .subsumeTake this that count hcount
  | subsumeAdd this count =>
    obtain ⟨size, hsize, hr⟩ := Option.map_eq_some_iff.mp h
    cases hr
    exact .subsumeAdd this count size hsize
  | moveTake g =>
    obtain ⟨size, hsize, hr⟩ := Option.map_eq_some_iff.mp h
    cases hr
    exact .moveTake g size hsize
  | moveMake issuer size => cases h; exact .moveMake issuer size _
  | growTotal count =>
    simp only [exec] at h
    split at h <;> cases h
    exact .growTotal count
  | closeAvailable => cases h; exact .closeAvailable
  | finish ret => cases h

/-- A step of a task makes a call, returns from one, or takes the next access of one. -/
theorem step_cases {debug : Bool} {a : Act} {sh sh' : Shared} {l l' : Local}
    (h : step debug a sh l = some (sh', l')) :
    (∃ op pc, a = .call op ∧ l = .idle ∧ begin sh op = some pc ∧ sh' = sh ∧ l' = .running pc) ∨
    (∃ ret, l = .running (.finish ret) ∧ sh' = sh ∧ l' = .idle) ∨
    (∃ pc pc', l = .running pc ∧ Trans sh pc sh' pc' ∧ l' = .running pc') := by
  unfold step at h
  split at h
  · rename_i op
    obtain ⟨pc, hpc, hr⟩ := Option.map_eq_some_iff.mp h
    cases hr
    exact .inl ⟨op, pc, rfl, rfl, hpc, rfl, rfl⟩
  · rename_i ret
    cases h
    exact .inr (.inl ⟨ret, rfl, rfl, rfl⟩)
  · rename_i pc _
    obtain ⟨⟨s, pc'⟩, he, hr⟩ := Option.map_eq_some_iff.mp h
    cases hr
    exact .inr (.inr ⟨pc, pc', rfl, exec_trans he, rfl⟩)
  · rename_i source count wait observed
    obtain ⟨⟨s, pc'⟩, he, hr⟩ := Option.map_eq_some_iff.mp h
    cases hr
    exact .inr (.inr ⟨_, pc', rfl, exec_trans he, rfl⟩)
  · rename_i v source count
    obtain ⟨hload, _, _, _, hwait⟩ := plain_transfer source count v true
    cases h
    refine .inr (.inr ⟨_, _, rfl, ?_, rfl⟩)
    split
    · exact .quiet rfl (List.Subset.refl _) hload
    · exact .quiet rfl (List.Subset.refl _) hwait
  · cases h

end Batt.Grant
