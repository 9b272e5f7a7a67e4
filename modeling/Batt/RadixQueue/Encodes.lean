/-
  What a `RadixQueue` holds.

  The items are cut into one chunk for each segment in use. A segment holds the digits of its
  chunk in mixed radix, the oldest as the least significant; its radix is the product of
  theirs and fits into 64 bits, so `push` never wraps around. `push` adds an item at the
  end (`encodes_push`), and `pop` with the radix of the oldest item returns that item
  (`encodes_pop`).
-/
import Batt.RadixQueue.Model
import Batt.Lib.Choice

namespace Batt.RadixQueue

open Choice

variable {K : Nat} {ds : List Digit} {q r : RadixQueue K} {d : Digit} {cs : List (List Digit)}

/-! ## Digits in mixed radix -/

def volume : List Digit → Nat
  | [] => 1
  | d :: ds => d.radix * volume ds

def number : List Digit → Nat
  | [] => 0
  | d :: ds => d.value + d.radix * number ds

def WithinRadix (ds : List Digit) : Prop := ∀ d ∈ ds, d.value < d.radix

theorem volume_append (ds es : List Digit) : volume (ds ++ es) = volume ds * volume es := by
  induction ds with
  | nil => simp [volume]
  | cons d ds ih => rw [List.cons_append, volume, volume, ih, Nat.mul_assoc]

theorem number_append (ds es : List Digit) :
    number (ds ++ es) = number ds + volume ds * number es := by
  induction ds with
  | nil => simp [volume, number]
  | cons d ds ih =>
    rw [List.cons_append, number, number, volume, ih, Nat.mul_add, Nat.mul_assoc]
    omega

theorem volume_pos (h : WithinRadix ds) : 0 < volume ds := by
  induction ds with
  | nil => exact Nat.one_pos
  | cons d ds ih =>
    have hd := h d (by simp)
    exact Nat.mul_pos (by omega) (ih fun e he => h e (by simp [he]))

theorem radix_le_volume (h : WithinRadix ds) (hd : d ∈ ds) :
    d.radix ≤ volume ds := by
  induction ds with
  | nil => cases hd
  | cons e ds ih =>
    have hds : WithinRadix ds := fun e he => h e (by simp [he])
    have hpos := volume_pos hds
    have he := h e (by simp)
    rcases List.mem_cons.mp hd with rfl | hd
    · exact Nat.le_mul_of_pos_right _ hpos
    · exact (ih hds hd).trans (Nat.le_mul_of_pos_left _ (by omega))

theorem number_lt (h : WithinRadix ds) : number ds < volume ds := by
  induction ds with
  | nil => exact Nat.one_pos
  | cons d ds ih =>
    have hd := h d (by simp)
    have hlt := ih fun e he => h e (by simp [he])
    have hmul : d.radix * (number ds + 1) ≤ d.radix * volume ds := Nat.mul_le_mul_left _ hlt
    rw [Nat.mul_succ] at hmul
    unfold number volume
    omega

/-- Digits of radix one hold nothing. -/
theorem volume_eq_one : volume ds = 1 ↔ ∀ d ∈ ds, d.radix = 1 := by
  induction ds with
  | nil => simp [volume]
  | cons d ds ih =>
    rw [List.forall_mem_cons, ← ih, volume]
    constructor
    · intro h
      exact ⟨Nat.eq_one_of_mul_eq_one_right h, Nat.eq_one_of_mul_eq_one_left h⟩
    · rintro ⟨h1, h2⟩
      rw [h1, h2]

theorem number_of_volume_one (h : WithinRadix ds) (hv : volume ds = 1) :
    number ds = 0 := by
  have := number_lt h
  omega

/-! ## The items of a queue -/

def pack (chunk : List Digit) : Segment := ⟨volume chunk, number chunk⟩

structure Encodes (q : RadixQueue K) (ds : List Digit) : Prop where
  digits : WithinRadix ds
  chunks : ∃ cs : List (List Digit), q.live = cs.map pack ∧ cs.flatten = ds ∧
    (∀ c ∈ cs, volume c ≤ maxU64) ∧ (1 < cs.length → ∀ c ∈ cs, 1 < volume c)

/-- There is always a segment in use. -/
theorem ne_nil_of_live (h : q.live = cs.map pack) :
    cs ≠ [] := by
  intro h0
  have hlen := congrArg List.length h
  rw [length_live, h0, List.map_nil, List.length_nil] at hlen
  have := q.queueSize_pos
  omega

theorem encodes_of_live (h : q.live = [⟨1, 0⟩]) : Encodes q [] where
  digits := by simp [WithinRadix]
  chunks := ⟨[[]], by simpa [pack, volume, number] using h, rfl, by simp [volume, maxU64], by simp⟩

theorem encodes_new [NeZero K] : Encodes (new : RadixQueue K) [] := encodes_of_live live_new

theorem encodes_clear [NeZero K] (q : RadixQueue K) : Encodes q.clear [] :=
  encodes_of_live (live_clear q)

theorem Encodes.live_nil (h : Encodes q []) : q.live = [⟨1, 0⟩] := by
  obtain ⟨cs, hlive, hflat, _, hbig⟩ := h.chunks
  have hnil : ∀ c ∈ cs, c = [] := List.flatten_eq_nil_iff.mp hflat
  have hone : ¬ 1 < cs.length := by
    intro hlen
    obtain ⟨c, hc⟩ := List.exists_mem_of_ne_nil cs (ne_nil_of_live hlive)
    have := hbig hlen c hc
    rw [hnil c hc] at this
    exact absurd this (by simp [volume])
  match cs, ne_nil_of_live hlive, hone, hnil, hlive with
  | [c], _, _, hnil, hlive =>
    rw [hlive, hnil c (by simp)]
    rfl
  | c :: c' :: cs, _, hone, _, _ => simp at hone

/-- What a queue holds is in the segments in use. -/
theorem Encodes.congr (h : Encodes q ds) (hlive : r.live = q.live) : Encodes r ds := by
  obtain ⟨cs, hq, hcs⟩ := h.chunks
  exact ⟨h.digits, cs, hlive.trans hq, hcs⟩

/-- The radix of an item is a machine word. -/
theorem Encodes.radix_le (h : Encodes q ds) (hd : d ∈ ds) : d.radix ≤ maxU64 := by
  obtain ⟨cs, _, hflat, hle, _⟩ := h.chunks
  rw [← hflat] at hd
  obtain ⟨chunk, hchunk, hd⟩ := List.mem_flatten.mp hd
  have hwithin : WithinRadix chunk := fun e he =>
    h.digits e (hflat ▸ List.mem_flatten.mpr ⟨chunk, hchunk, he⟩)
  exact (radix_le_volume hwithin hd).trans (hle chunk hchunk)

/-- The queue is empty when no item that holds anything is left. -/
theorem Encodes.empty_iff (h : Encodes q ds) :
    q.empty = true ↔ ∀ d ∈ ds, d.radix = 1 := by
  obtain ⟨cs, hlive, hflat, _, hbig⟩ := h.chunks
  rw [RadixQueue.empty_iff]
  constructor
  · rintro ⟨s, hs, hradix⟩
    rw [hs] at hlive
    obtain ⟨c, rfl⟩ := List.length_eq_one_iff.mp (by simpa using (congrArg List.length hlive).symm)
    rw [List.map_singleton] at hlive
    have hs : s = pack c := (List.cons.inj hlive).1
    rw [← hflat, List.flatten_singleton]
    rw [hs] at hradix
    exact volume_eq_one.mp hradix
  · intro hall
    match cs with
    | [] => exact absurd rfl (ne_nil_of_live hlive)
    | [c] =>
      refine ⟨pack c, hlive, volume_eq_one.mpr fun d hd => hall d ?_⟩
      rw [← hflat]
      simpa using hd
    | c :: c' :: cs =>
      have h1 := hbig (by simp) c (by simp)
      have h2 : volume c = 1 := volume_eq_one.mpr fun d hd => hall d (by rw [← hflat]; simp [hd])
      omega

/-- The segment at the back takes one more item. -/
theorem encodes_setBack {c : List Digit} (hds : WithinRadix ds) (hd : d.value < d.radix)
    (hlive : q.live = (cs ++ [c]).map pack) (hflat : (cs ++ [c]).flatten = ds)
    (hle : ∀ c' ∈ cs, volume c' ≤ maxU64) (hfit : volume c * d.radix ≤ maxU64)
    (hbig : cs ≠ [] → (∀ c' ∈ cs, 1 < volume c') ∧ 1 < volume c * d.radix) :
    Encodes (q.setBack
      { radix := q.back.radix * d.radix % 2 ^ 64
        value := (q.back.value + d.value * q.back.radix) % 2 ^ 64 }) (ds ++ [d]) := by
  have hback : q.back = pack c := by
    have hlast := q.live_eq_concat
    rw [hlive, List.map_append, List.map_singleton] at hlast
    exact (List.append_singleton_inj.mp hlast).2.symm
  have hwithin : WithinRadix (ds ++ [d]) := by
    intro e he
    rcases List.mem_append.mp he with he | he
    · exact hds e he
    · rw [List.mem_singleton.mp he]
      exact hd
  have hchunk : WithinRadix (c ++ [d]) := fun e he => hwithin e (by
    rw [← hflat]
    rcases List.mem_append.mp he with he | he <;> simp [he])
  have hvol : volume (c ++ [d]) = volume c * d.radix := by simp [volume_append, volume]
  have hnum : number (c ++ [d]) = number c + d.value * volume c := by
    rw [number_append, Nat.mul_comm d.value]
    simp [number]
  have hlt : number (c ++ [d]) < volume (c ++ [d]) := number_lt hchunk
  have hmax : maxU64 < 2 ^ 64 := by decide
  refine ⟨hwithin, cs ++ [c ++ [d]], ?_, by simp [← hflat], ?_, ?_⟩
  · rw [live_setBack, hlive, List.map_append, List.map_append, List.map_singleton,
      List.map_singleton, List.dropLast_concat, hback]
    simp only [pack]
    rw [← hnum, ← hvol, Nat.mod_eq_of_lt (by omega), Nat.mod_eq_of_lt (by omega)]
  · intro c' hc'
    rcases List.mem_append.mp hc' with h | h
    · exact hle c' h
    · rw [List.mem_singleton.mp h, hvol]
      exact hfit
  · intro hlen c' hc'
    have hne : cs ≠ [] := by
      intro h0
      simp [h0] at hlen
    obtain ⟨hcs, hc⟩ := hbig hne
    rcases List.mem_append.mp hc' with h | h
    · exact hcs c' h
    · rw [List.mem_singleton.mp h, hvol]
      exact hc

/-- `push` puts an item at the end. -/
theorem encodes_push {q' : RadixQueue K} (h : Encodes q ds) (hd : d.radix ≤ maxU64)
    (hp : q.push d.radix d.value = some q') : Encodes q' (ds ++ [d]) := by
  obtain ⟨cs, hlive, hflat, hle, hbig⟩ := h.chunks
  have hne := ne_nil_of_live hlive
  obtain ⟨cs, c, rfl⟩ : ∃ cs' c, cs = cs' ++ [c] :=
    ⟨cs.dropLast, cs.getLast hne, (List.dropLast_append_getLast hne).symm⟩
  have hback : q.back = pack c := by
    have hlast := q.live_eq_concat
    rw [hlive, List.map_append, List.map_singleton] at hlast
    exact (List.append_singleton_inj.mp hlast).2.symm
  have hcpos : 0 < volume c := volume_pos fun e he => h.digits e (by rw [← hflat]; simp [he])
  have hcle : volume c ≤ maxU64 := hle c (by simp)
  unfold push at hp
  split at hp
  · rename_i hlt
    obtain ⟨r, hr, heq⟩ := Option.map_eq_some_iff.mp hp
    subst heq
    have hradix : q.back.radix = volume c := by rw [hback]; rfl
    split at hr
    · -- the product would not fit: the item starts a segment of its own
      rename_i hover
      rw [hradix] at hover
      have hvc : 1 < volume c := by
        by_contra h1
        have : volume c = 1 := by omega
        rw [this, Nat.div_one] at hover
        omega
      have hdr : 1 < d.radix := by
        have : 1 ≤ maxU64 / volume c := (Nat.one_le_div_iff hcpos).mpr hcle
        omega
      have hcs : ∀ c' ∈ cs ++ [c], 1 < volume c' := by
        intro c' hc'
        by_cases hlen : 1 < (cs ++ [c]).length
        · exact hbig hlen c' hc'
        · have h0 : cs = [] := by
            have : cs.length = 0 := by simpa using hlen
            exact List.length_eq_zero_iff.mp this
          subst h0
          simp at hc'
          rw [hc']
          exact hvc
      have hlive' : r.live = ((cs ++ [c]) ++ [[]]).map pack := by
        rw [live_pushBack hr, hlive]
        simp [pack, volume, number]
      exact encodes_setBack h.digits hlt hlive' (by simpa using hflat) hle
        (by simpa [volume] using hd) fun _ => ⟨hcs, by simpa [volume] using hdr⟩
    · rename_i hover
      cases hr
      rw [hradix] at hover
      have hfit : volume c * d.radix ≤ maxU64 := by
        have hmul : d.radix * volume c ≤ maxU64 := (Nat.le_div_iff_mul_le hcpos).mp (by omega)
        rwa [Nat.mul_comm] at hmul
      refine encodes_setBack h.digits hlt hlive hflat (fun c' hc' => hle c' (by simp [hc'])) hfit ?_
      intro hcs
      have hall := hbig (by
        have : 0 < cs.length := List.length_pos_iff.mpr hcs
        simp
        omega)
      refine ⟨fun c' hc' => hall c' (by simp [hc']), ?_⟩
      have hc := hall c (by simp)
      calc 1 < volume c := hc
        _ = volume c * 1 := (Nat.mul_one _).symm
        _ ≤ volume c * d.radix := Nat.mul_le_mul_left _ (by omega)
  · cases hp

/-- The first chunk holds the oldest item. -/
theorem head_chunk (hne : cs ≠ []) (hflat : cs.flatten = d :: ds)
    (hbig : 1 < cs.length → ∀ c ∈ cs, 1 < volume c) :
    ∃ c cs', cs = (d :: c) :: cs' ∧ c ++ cs'.flatten = ds := by
  match cs with
  | [] => exact absurd rfl hne
  | [] :: cs =>
    cases cs with
    | nil => simp at hflat
    | cons c' cs =>
      have := hbig (by simp) [] (by simp)
      simp [volume] at this
  | (e :: c) :: cs =>
    rw [List.flatten_cons, List.cons_append] at hflat
    obtain ⟨rfl, hrest⟩ := List.cons.inj hflat
    exact ⟨c, cs, rfl, hrest⟩

/-- `pop` with the radix of the oldest item returns that item. -/
theorem encodes_pop (h : Encodes q (d :: ds)) :
    ∃ q', q.pop d.radix = some (d.value, q') ∧ Encodes q' ds := by
  obtain ⟨cs, hlive, hflat, hle, hbig⟩ := h.chunks
  obtain ⟨c, cs, rfl, hrest⟩ := head_chunk (ne_nil_of_live hlive) hflat hbig
  have hd : d.value < d.radix := h.digits d (by simp)
  have hds : WithinRadix ds := fun e he => h.digits e (by simp [he])
  have hc : WithinRadix c := fun e he => hds e (by rw [← hrest]; simp [he])
  have hfront : q.front = pack (d :: c) := by
    have hfirst := q.live_eq_cons
    rw [hlive, List.map_cons] at hfirst
    exact (List.cons.inj hfirst).1.symm
  have hradix : q.front.radix = d.radix * volume c := by rw [hfront]; rfl
  have hvalue : q.front.value = d.value + d.radix * number c := by rw [hfront]; rfl
  have hvpos := volume_pos hc
  have hdpos : 0 < d.radix := by omega
  have hdivr : q.front.radix / d.radix = volume c := by
    rw [hradix, Nat.mul_div_cancel_left _ hdpos]
  have hdivv : q.front.value / d.radix = number c := by
    rw [hvalue, Nat.add_mul_div_left _ _ hdpos, Nat.div_eq_of_lt hd, Nat.zero_add]
  have hmod : q.front.value % d.radix = d.value := by
    rw [hvalue, Nat.add_mul_mod_self_left, Nat.mod_eq_of_lt hd]
  have hset : (q.setFront (pack c)).live = (c :: cs).map pack := by
    rw [live_setFront, hlive]
    rfl
  have hlen : (q.setFront (pack c)).queueSize = cs.length + 1 := by
    rw [← length_live, hset]
    simp
  have hcle : volume c ≤ maxU64 := by
    have hall := hle (d :: c) (by simp)
    calc volume c = 1 * volume c := (Nat.one_mul _).symm
      _ ≤ d.radix * volume c := Nat.mul_le_mul_right _ hdpos
      _ ≤ maxU64 := hall
  unfold pop
  rw [if_neg (by omega), if_pos (by rw [hradix]; exact Nat.le_mul_of_pos_right _ hvpos)]
  simp only [hdivr, hdivv, hmod]
  rw [if_pos (number_lt hc)]
  show ∃ q', (if volume c = 1 ∧ (q.setFront (pack c)).queueSize > 1 then
    (q.setFront (pack c)).popFront else some (q.setFront (pack c))).map _ = _ ∧ _
  by_cases hpop : volume c = 1 ∧ (q.setFront (pack c)).queueSize > 1
  · -- what is left of the chunk holds nothing and counts to the next one
    rw [if_pos hpop]
    obtain ⟨hv1, hsize⟩ := hpop
    obtain ⟨r, hr⟩ := popFront_isSome hsize
    rw [hr]
    refine ⟨r, rfl, hds, ?_⟩
    match cs with
    | [] =>
      rw [hlen] at hsize
      simp at hsize
    | c' :: cs =>
      have hv : volume (c ++ c') = volume c' := by rw [volume_append, hv1, Nat.one_mul]
      have hn : number (c ++ c') = number c' := by
        rw [number_append, number_of_volume_one hc hv1, hv1, Nat.one_mul, Nat.zero_add]
      have hpack : pack (c ++ c') = pack c' := by rw [pack, hv, hn]; rfl
      refine ⟨(c ++ c') :: cs, ?_, ?_, ?_, ?_⟩
      · rw [live_popFront hr, hset, List.map_cons, List.tail_cons, List.map_cons, List.map_cons,
          hpack]
      · rw [← hrest]
        simp
      · intro e he
        rcases List.mem_cons.mp he with rfl | he
        · rw [hv]
          exact hle c' (by simp)
        · exact hle e (by simp [he])
      · intro _ e he
        have hall := hbig (by simp)
        rcases List.mem_cons.mp he with rfl | he
        · rw [hv]
          exact hall c' (by simp)
        · exact hall e (by simp [he])
  · rw [if_neg hpop]
    refine ⟨_, rfl, hds, c :: cs, hset, hrest, ?_, ?_⟩
    · intro e he
      rcases List.mem_cons.mp he with rfl | he
      · exact hcle
      · exact hle e (by simp [he])
    · intro hlen' e he
      have hsize : (q.setFront (pack c)).queueSize > 1 := by
        rw [hlen]
        simpa using hlen'
      have hv1 : volume c ≠ 1 := fun hv => hpop ⟨hv, hsize⟩
      rcases List.mem_cons.mp he with rfl | he
      · omega
      · exact hbig (by simpa using hlen') e (by simp [he])

/-! ## Room for items -/

/-- Pushes the items in order. -/
def pushAll (q : RadixQueue K) : List Digit → Option (RadixQueue K)
  | [] => some q
  | d :: ds => (q.push d.radix d.value).bind fun q' => q'.pushAll ds

theorem pushAll_append (q : RadixQueue K) (ds es : List Digit) :
    q.pushAll (ds ++ es) = (q.pushAll ds).bind fun q' => q'.pushAll es := by
  induction ds generalizing q with
  | nil => rfl
  | cons d ds ih =>
    simp only [List.cons_append, pushAll, Option.bind_assoc]
    exact congrArg _ (funext ih)

theorem back_of_live (h : q.live = r.live) :
    q.back = r.back ∧ q.queueSize = r.queueSize := by
  constructor
  · have hlast := q.live_eq_concat
    rw [h, r.live_eq_concat] at hlast
    exact (List.append_singleton_inj.mp hlast).2.symm
  · rw [← length_live, h, length_live]

/-- Whether an item fits depends on the segments in use. -/
theorem push_of_live {q' : RadixQueue K} (h : q.live = r.live) {radix value : Nat}
    (hp : q.push radix value = some q') :
    ∃ r', r.push radix value = some r' ∧ q'.live = r'.live := by
  obtain ⟨hback, hsize⟩ := back_of_live h
  unfold push at hp ⊢
  split at hp
  · rename_i hlt
    rw [if_pos hlt]
    simp only at hp ⊢
    rw [hback] at hp
    obtain ⟨q₁, hq₁, rfl⟩ := Option.map_eq_some_iff.mp hp
    have hroom : ∃ r₁, (if maxU64 / r.back.radix < radix then r.pushBack else some r) = some r₁ ∧
        q₁.live = r₁.live := by
      split at hq₁
      · have hfull : r.full = false := by
          by_contra hf
          unfold pushBack at hq₁
          rw [if_pos (q.full_iff.mpr (hsize.trans (r.full_iff.mp (by simpa using hf))))] at hq₁
          cases hq₁
        have hr₁ : r.pushBack = some { r with
            backIndex := advanceIndex r.backIndex
            queue := r.queue.set (advanceIndex r.backIndex) {} } := by
          unfold pushBack
          rw [hfull]
          rfl
        rename_i hover
        rw [if_pos hover]
        exact ⟨_, hr₁, by rw [live_pushBack hq₁, live_pushBack hr₁, h]⟩
      · rename_i hover
        rw [if_neg hover]
        cases hq₁
        exact ⟨r, rfl, h⟩
    obtain ⟨r₁, hr₁, hlive⟩ := hroom
    rw [hr₁]
    refine ⟨_, rfl, ?_⟩
    rw [live_setBack, live_setBack, (back_of_live hlive).1, hlive]
  · cases hp

end Batt.RadixQueue
