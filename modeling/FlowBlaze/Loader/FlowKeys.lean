import Mathlib.Data.List.Basic
import Mathlib.Data.List.Forall2
/-!
# Packing the flow keys — `parser.py`, `programmer.py`

A flow key is a list of byte ranges of the packet. The board has two
windows of eight bytes, each with an offset and a mask, and
`pack_flow_keys` lays the ranges of every stage into them: the first two
into the first window, the next two into the second. `pack_update_keys`
is the same loop over the update keys.

The loop appends an entry after every range it has read, so a stage has
as many entries as ranges, and the entries of all stages are in one list.
Offsets and lengths are given by the numbers their texts spell. A call
that ends in an exit has no result.
-/

namespace FlowBlaze

namespace Loader

/-- A byte range of a key: `from` and `length`. -/
structure KeyField where
  start : ℕ
  length : ℕ
deriving DecidableEq, Repr

/-- The range holds a byte of the packet. -/
def KeyField.Covers (f : KeyField) (b : ℕ) : Prop := f.start ≤ b ∧ b < f.start + f.length

/-- What the packing reads of a stage. -/
structure KeyStage where
  flowKey : List KeyField
  updateKey : List KeyField

/-- An entry of `flow_keys` or `update_keys`. -/
structure Key where
  off1 : ℕ
  off2 : ℕ
  mask : ℕ
deriving DecidableEq, Repr

/-- The variables of the loop over the ranges of a stage. -/
structure KeyLoop where
  i : ℕ
  lastLen : ℕ
  off1Full : Bool
  off2Full : Bool
  off2Start : Bool
  off1 : ℕ
  off2 : ℕ
  mask1 : ℕ
  mask2 : ℕ

/-- Before the first range. -/
def KeyLoop.start : KeyLoop := ⟨0, 0, false, false, false, 0, 0, 0, 0⟩

/-- `for i in range(a, a + n): mask |= 0xff << i * 8`: the mask. -/
def fillMask (mask a n : ℕ) : ℕ :=
  (List.range' a n).foldl (fun m i => m ||| (0xff <<< (i * 8))) mask

/-- And `i` after that loop, which has no scope of its own. -/
def lastIndex (i a n : ℕ) : ℕ := if n = 0 then i else a + n - 1

/-- **One range of a key.** -/
def keyStep (s : KeyLoop) (f : KeyField) : Option KeyLoop :=
  if s.i = 0 then
    if f.length > 8 then
      -- the error is only printed
      some { s with i := s.i + 1, off1 := f.start }
    else
      some { s with
        i := lastIndex s.i 0 f.length + 1
        off1 := f.start
        mask1 := fillMask s.mask1 0 f.length
        lastLen := f.length }
  else if s.off1Full = false then
    if f.start = s.off1 + s.lastLen ∧ f.length ≤ 8 - s.lastLen then
      some { s with
        i := lastIndex s.i s.lastLen f.length + 1
        mask1 := fillMask s.mask1 s.lastLen f.length
        off1Full := true }
    else none
  else if s.off2Start = false then
    if f.length > 8 then none
    else
      some { s with
        i := lastIndex s.i 0 f.length + 1
        off2Start := true
        off2 := f.start
        mask2 := fillMask s.mask2 0 f.length }
  else if s.off2Full = false then
    -- the first offset again, where the second is meant
    if f.start = s.off1 + s.lastLen ∧ f.length ≤ 8 - s.lastLen then
      some { s with
        i := lastIndex s.i s.lastLen f.length + 1
        mask2 := fillMask s.mask2 s.lastLen f.length
        off2Full := true }
    else none
  else some { s with i := s.i + 1 }

/-- The entry appended after a range. -/
def KeyLoop.key (s : KeyLoop) : Key := ⟨s.off1, s.off2, s.mask1 ||| (s.mask2 <<< 64)⟩

/-- The entries of a stage. -/
def packKey (s : KeyLoop) : List KeyField → Option (List Key)
  | [] => some []
  | f :: fields =>
    (keyStep s f).bind fun s => (packKey s fields).map (s.key :: ·)

/-- The loop over the stages. -/
def packKeys : List (List KeyField) → Option (List Key)
  | [] => some []
  | fields :: stages =>
    (packKey KeyLoop.start fields).bind fun keys => (packKeys stages).map (keys ++ ·)

/-- `pack_flow_keys`. -/
def packFlowKeys (stages : List KeyStage) : Option (List Key) :=
  packKeys (stages.map KeyStage.flowKey)

/-- `pack_update_keys`. -/
def packUpdateKeys (stages : List KeyStage) : Option (List Key) :=
  packKeys (stages.map KeyStage.updateKey)

/-- The writes of a key: the offsets to a register, the mask to the four
after another. -/
def writeKey (scope mask : ℕ) (k : Key) : List (ℕ × ℕ) :=
  (scope, k.off1 ||| (k.off2 <<< 16)) ::
    (List.range 4).map fun i => (mask + i * 4, (k.mask >>> (i * 32)) &&& 0xffffffff)

/-- `write_flow_key`. -/
def writeFlowKey (fk : Key) : List (ℕ × ℕ) := writeKey 0x80000010 0x80000030 fk

/-- `write_update_key`. -/
def writeUpdateKey (ufk : Key) : List (ℕ × ℕ) := writeKey 0x80000020 0x80000040 ufk

/-- The four words of a written mask are the mask, cut in four. -/
theorem getElem?_writeKey (scope mask : ℕ) (k : Key) {i : ℕ} (hi : i < 4) :
    ∃ w, (writeKey scope mask k)[i + 1]? = some (mask + i * 4, w) ∧
      ∀ b, b < 32 → w.testBit b = k.mask.testBit (32 * i + b) := by
  refine ⟨(k.mask >>> (i * 32)) &&& 0xffffffff, ?_, fun b hb => ?_⟩
  · rw [writeKey, List.getElem?_cons_succ, List.getElem?_map, List.getElem?_range hi]
    rfl
  · rw [Nat.testBit_and, Nat.testBit_shiftRight, show (0xffffffff : ℕ) = 2 ^ 32 - 1 from rfl,
      Nat.testBit_two_pow_sub_one, decide_eq_true hb, Bool.and_true, Nat.mul_comm]

/-! ## Masks of whole bytes -/

/-- The mask is made of the bytes with a property. -/
def ByteMask (mask : ℕ) (P : ℕ → Prop) : Prop := ∀ i, mask.testBit i = true ↔ P (i / 8)

theorem ByteMask.zero : ByteMask 0 fun _ => False := fun i => by simp

theorem ByteMask.congr {mask : ℕ} {P Q : ℕ → Prop} (h : ByteMask mask P) (hPQ : ∀ j, P j ↔ Q j) :
    ByteMask mask Q := fun i => (h i).trans (hPQ _)

/-- One byte more. -/
theorem ByteMask.or_byte {mask : ℕ} {P : ℕ → Prop} (h : ByteMask mask P) (k : ℕ) :
    ByteMask (mask ||| (0xff <<< (k * 8))) fun j => P j ∨ j = k := by
  intro i
  rw [Nat.testBit_or, Bool.or_eq_true, h, Nat.testBit_shiftLeft,
    show (0xff : ℕ) = 2 ^ 8 - 1 from rfl, Nat.testBit_two_pow_sub_one, Bool.and_eq_true,
    decide_eq_true_iff, decide_eq_true_iff]
  exact or_congr_right (by omega)

/-- The bytes the inner loop fills. -/
theorem ByteMask.fillMask {mask : ℕ} {P : ℕ → Prop} (h : ByteMask mask P) (a n : ℕ) :
    ByteMask (Loader.fillMask mask a n) fun j => P j ∨ (a ≤ j ∧ j < a + n) := by
  induction n generalizing mask P a with
  | zero => exact h.congr fun j => (or_iff_left (by omega)).symm
  | succ n ih =>
    rw [Loader.fillMask, List.range'_succ, List.foldl_cons]
    refine (ih (h.or_byte a) (a + 1)).congr fun j => ?_
    rw [or_assoc]
    exact or_congr_right (by omega)

/-- Two windows side by side. -/
theorem ByteMask.or_window {mask1 mask2 : ℕ} {P Q : ℕ → Prop} (h : ByteMask mask1 P)
    (h' : ByteMask mask2 Q) :
    ByteMask (mask1 ||| (mask2 <<< 64)) fun j => P j ∨ (8 ≤ j ∧ Q (j - 8)) := by
  intro i
  rw [Nat.testBit_or, Bool.or_eq_true, h, Nat.testBit_shiftLeft, Bool.and_eq_true, h',
    decide_eq_true_iff, show (i - 64) / 8 = i / 8 - 8 by omega]
  exact or_congr_right (and_congr_left fun _ => by omega)

/-- A byte of the mask is all ones. -/
def Key.unmasked (k : Key) (j : ℕ) : Bool := (k.mask >>> (8 * j)) &&& 0xff == 0xff

theorem ByteMask.unmasked {k : Key} {P : ℕ → Prop} (h : ByteMask k.mask P) (j : ℕ) :
    k.unmasked j = true ↔ P j := by
  have hbits : k.unmasked j = true ↔ ∀ r, r < 8 → k.mask.testBit (8 * j + r) = true := by
    rw [Key.unmasked, beq_iff_eq, show (0xff : ℕ) = 2 ^ 8 - 1 from rfl]
    constructor
    · intro heq r hr
      have hbit := congrArg (fun n => n.testBit r) heq
      rw [Nat.testBit_and, Nat.testBit_shiftRight, Nat.testBit_two_pow_sub_one, decide_eq_true hr,
        Bool.and_true] at hbit
      exact hbit
    · intro hall
      refine Nat.eq_of_testBit_eq fun r => ?_
      rw [Nat.testBit_and, Nat.testBit_shiftRight, Nat.testBit_two_pow_sub_one]
      by_cases hr : r < 8
      · rw [hall r hr, Bool.true_and]
      · rw [decide_eq_false hr, Bool.and_false]
  rw [hbits]
  constructor
  · intro hall
    have := (h (8 * j + 0)).mp (hall 0 (by decide))
    rwa [show (8 * j + 0) / 8 = j by omega] at this
  · intro hP r hr
    rw [h, show (8 * j + r) / 8 = j by omega]
    exact hP

/-! ## What a prefix of a key leaves -/

/-- The part of the first range that is kept: all of it, or nothing when
it is longer than a window. -/
def KeyField.kept (f : KeyField) : ℕ := if f.length > 8 then 0 else f.length

/-- The loop after a first range `f`, with what the two masks hold. -/
structure KeyLoop.After (s : KeyLoop) (f : KeyField) (off1Full off2Start off2Full : Bool)
    (off2 : ℕ) (P Q : ℕ → Prop) : Prop where
  i : s.i ≠ 0
  off1 : s.off1 = f.start
  lastLen : s.lastLen = f.kept
  off1Full : s.off1Full = off1Full
  off2Start : s.off2Start = off2Start
  off2Full : s.off2Full = off2Full
  off2 : s.off2 = off2
  mask1 : ByteMask s.mask1 P
  mask2 : ByteMask s.mask2 Q

variable {s s' : KeyLoop} {f g : KeyField} {off2 : ℕ} {P Q : ℕ → Prop}

/-- The first range sets the offset. -/
theorem keyStep_first (h : keyStep KeyLoop.start f = some s) :
    s.After f false false false 0 (fun j => j < f.kept) fun _ => False := by
  rw [keyStep, if_pos (show KeyLoop.start.i = 0 from rfl)] at h
  by_cases hlen : f.length > 8
  · rw [if_pos hlen] at h
    cases h
    have hkept : f.kept = 0 := if_pos hlen
    exact ⟨Nat.succ_ne_zero _, rfl, hkept.symm, rfl, rfl, rfl, rfl,
      ByteMask.zero.congr fun j => by simp [hkept], ByteMask.zero⟩
  · rw [if_neg hlen] at h
    cases h
    have hkept : f.kept = f.length := if_neg hlen
    refine ⟨Nat.succ_ne_zero _, rfl, hkept.symm, rfl, rfl, rfl, rfl, ?_, ByteMask.zero⟩
    exact (ByteMask.zero.fillMask 0 f.length).congr fun j => by simp [hkept]

/-- The second range continues the first window. -/
theorem keyStep_second (hs : s.After f false false false off2 P Q) (h : keyStep s g = some s') :
    g.start = f.start + f.kept ∧ g.length ≤ 8 - f.kept ∧
      s'.After f true false false off2
        (fun j => P j ∨ (f.kept ≤ j ∧ j < f.kept + g.length)) Q := by
  rw [keyStep, if_neg hs.i, if_pos hs.off1Full] at h
  split at h
  · rename_i hcond
    cases h
    rw [hs.off1, hs.lastLen] at hcond
    exact ⟨hcond.1, hcond.2, Nat.succ_ne_zero _, hs.off1, hs.lastLen, rfl, hs.off2Start,
      hs.off2Full, hs.off2, (hs.mask1.fillMask _ _).congr fun j => by rw [hs.lastLen], hs.mask2⟩
  · cases h

/-- The third starts the second. -/
theorem keyStep_third (hs : s.After f true false false off2 P Q) (h : keyStep s g = some s') :
    g.length ≤ 8 ∧
      s'.After f true true false g.start P fun j => Q j ∨ (0 ≤ j ∧ j < 0 + g.length) := by
  have hfull : ¬ s.off1Full = false := by rw [hs.off1Full]; decide
  rw [keyStep, if_neg hs.i, if_neg hfull, if_pos hs.off2Start] at h
  split at h
  · cases h
  · rename_i hlen
    cases h
    exact ⟨by omega, Nat.succ_ne_zero _, hs.off1, hs.lastLen, hs.off1Full, rfl, hs.off2Full,
      rfl, hs.mask1, hs.mask2.fillMask _ _⟩

/-- The fourth is compared with the first window, and placed in the
second. -/
theorem keyStep_fourth (hs : s.After f true true false off2 P Q) (h : keyStep s g = some s') :
    g.start = f.start + f.kept ∧ g.length ≤ 8 - f.kept ∧
      s'.After f true true true off2 P
        fun j => Q j ∨ (f.kept ≤ j ∧ j < f.kept + g.length) := by
  have hfull : ¬ s.off1Full = false := by rw [hs.off1Full]; decide
  have hstart : ¬ s.off2Start = false := by rw [hs.off2Start]; decide
  rw [keyStep, if_neg hs.i, if_neg hfull, if_neg hstart, if_pos hs.off2Full] at h
  split at h
  · rename_i hcond
    cases h
    rw [hs.off1, hs.lastLen] at hcond
    exact ⟨hcond.1, hcond.2, Nat.succ_ne_zero _, hs.off1, hs.lastLen, hs.off1Full, hs.off2Start,
      rfl, hs.off2, hs.mask1, (hs.mask2.fillMask _ _).congr fun j => by rw [hs.lastLen]⟩
  · cases h

/-- Any other is passed over. -/
theorem keyStep_later (hs : s.After f true true true off2 P Q) (h : keyStep s g = some s') :
    s'.After f true true true off2 P Q := by
  have hfull : ¬ s.off1Full = false := by rw [hs.off1Full]; decide
  have hstart : ¬ s.off2Start = false := by rw [hs.off2Start]; decide
  have hfull2 : ¬ s.off2Full = false := by rw [hs.off2Full]; decide
  rw [keyStep, if_neg hs.i, if_neg hfull, if_neg hstart, if_neg hfull2] at h
  cases h
  exact ⟨Nat.succ_ne_zero _, hs.off1, hs.lastLen, hs.off1Full, hs.off2Start, hs.off2Full, hs.off2,
    hs.mask1, hs.mask2⟩

/-- The loop after some ranges. -/
def runKey (fields : List KeyField) : Option KeyLoop := fields.foldlM keyStep KeyLoop.start

/-- The bytes of the packet the first window keeps. -/
def keptFirst : List KeyField → ℕ → Prop
  | [], _ => False
  | [f], b => f.start ≤ b ∧ b < f.start + f.kept
  | f :: g :: _, b => (f.start ≤ b ∧ b < f.start + f.kept) ∨ g.Covers b

/-- The bytes the second window keeps. The fourth range lies as far from
the third as the first range is long. -/
def keptSecond : List KeyField → ℕ → Prop
  | [_, _, h], b => h.Covers b
  | f :: _ :: h :: k :: _, b =>
    h.Covers b ∨ (h.start + f.kept ≤ b ∧ b < h.start + f.kept + k.length)
  | _, _ => False

/-- The offset of the first window. -/
def firstOffset : List KeyField → ℕ
  | [] => 0
  | f :: _ => f.start

/-- The offset of the second. -/
def secondOffset : List KeyField → ℕ
  | _ :: _ :: h :: _ => h.start
  | _ => 0

/-- **What an entry made from some ranges holds**: the windows keep the
bytes said above, all of which they reach. -/
structure Holds (k : Key) (fields : List KeyField) : Prop where
  off1 : k.off1 = firstOffset fields
  off2 : k.off2 = secondOffset fields
  first : ∀ j, j < 8 → (k.unmasked j = true ↔ keptFirst fields (k.off1 + j))
  second : ∀ j, j < 8 → (k.unmasked (8 + j) = true ↔ keptSecond fields (k.off2 + j))
  first_window : ∀ b, keptFirst fields b → k.off1 ≤ b ∧ b < k.off1 + 8
  second_window : ∀ b, keptSecond fields b → k.off2 ≤ b ∧ b < k.off2 + 8

theorem KeyField.kept_le (f : KeyField) : f.kept ≤ 8 := by
  unfold kept
  split <;> omega

/-- The entry of the loop, from what its masks hold. -/
theorem KeyLoop.After.holds {fields : List KeyField} {b1 b2 b3 : Bool}
    (hs : s.After f b1 b2 b3 off2 P Q) (h1 : firstOffset fields = f.start)
    (h2 : secondOffset fields = off2) (hP : ∀ j, P j → j < 8) (hQ : ∀ j, Q j → j < 8)
    (hfirst : ∀ b, keptFirst fields b ↔ f.start ≤ b ∧ P (b - f.start))
    (hsecond : ∀ b, keptSecond fields b ↔ off2 ≤ b ∧ Q (b - off2)) :
    Holds s.key fields := by
  have hmask : ByteMask s.key.mask fun j => P j ∨ (8 ≤ j ∧ Q (j - 8)) :=
    hs.mask1.or_window hs.mask2
  refine ⟨hs.off1.trans h1.symm, hs.off2.trans h2.symm, fun j hj => ?_, fun j hj => ?_,
    fun b hb => ?_, fun b hb => ?_⟩
  · rw [hmask.unmasked, show s.key.off1 = f.start from hs.off1, hfirst, Nat.add_sub_cancel_left]
    constructor
    · rintro (hp | ⟨h8, -⟩)
      · exact ⟨Nat.le_add_right _ _, hp⟩
      · omega
    · exact fun h => .inl h.2
  · rw [hmask.unmasked, show s.key.off2 = off2 from hs.off2, hsecond, Nat.add_sub_cancel_left,
      Nat.add_sub_cancel_left]
    constructor
    · rintro (hp | ⟨-, hq⟩)
      · have := hP _ hp
        omega
      · exact ⟨Nat.le_add_right _ _, hq⟩
    · exact fun h => .inr ⟨Nat.le_add_right _ _, h.2⟩
  · rw [show s.key.off1 = f.start from hs.off1]
    obtain ⟨hle, hp⟩ := (hfirst b).mp hb
    have := hP _ hp
    omega
  · rw [show s.key.off2 = off2 from hs.off2]
    obtain ⟨hle, hq⟩ := (hsecond b).mp hb
    have := hQ _ hq
    omega

/-- Ranges after the fourth change nothing. -/
theorem KeyLoop.After.later {rest : List KeyField} (hs : s.After f true true true off2 P Q)
    (h : rest.foldlM keyStep s = some s') : s'.After f true true true off2 P Q := by
  induction rest generalizing s with
  | nil =>
    cases h
    exact hs
  | cons g rest ih =>
    rw [List.foldlM_cons] at h
    obtain ⟨s₁, h₁, h⟩ := Option.bind_eq_some_iff.mp h
    exact ih (keyStep_later hs h₁) h

/-- **The entry after some ranges**, if the loop gets that far. -/
theorem holds_runKey {fields : List KeyField} (h : runKey fields = some s) :
    Holds s.key fields := by
  rw [runKey] at h
  cases fields with
  | nil =>
    cases h
    have hmask : ByteMask KeyLoop.start.key.mask fun j => False ∨ (8 ≤ j ∧ False) :=
      ByteMask.zero.or_window ByteMask.zero
    refine ⟨rfl, rfl, fun j _ => ?_, fun j _ => ?_, fun b hb => hb.elim, fun b hb => hb.elim⟩
    · rw [hmask.unmasked]
      simp [keptFirst]
    · rw [hmask.unmasked]
      simp [keptSecond]
  | cons f fields =>
    have hkept := f.kept_le
    rw [List.foldlM_cons] at h
    obtain ⟨s₁, h₁, h⟩ := Option.bind_eq_some_iff.mp h
    have hs₁ := keyStep_first h₁
    cases fields with
    | nil =>
      cases h
      refine hs₁.holds rfl rfl (fun j hj => by omega) (fun j hj => hj.elim) (fun b => ?_)
        fun b => ?_
      · rw [keptFirst]
        omega
      · simp [keptSecond]
    | cons g fields =>
      rw [List.foldlM_cons] at h
      obtain ⟨s₂, h₂, h⟩ := Option.bind_eq_some_iff.mp h
      obtain ⟨hg, hglen, hs₂⟩ := keyStep_second hs₁ h₂
      -- the first window is full now
      have hfirst : ∀ b, ((f.start ≤ b ∧ b < f.start + f.kept) ∨ g.Covers b) ↔
          f.start ≤ b ∧ (b - f.start < f.kept ∨
            (f.kept ≤ b - f.start ∧ b - f.start < f.kept + g.length)) := by
        intro b
        rw [KeyField.Covers, hg]
        omega
      cases fields with
      | nil =>
        cases h
        refine hs₂.holds rfl rfl (fun j hj => by omega) (fun j hj => hj.elim) hfirst fun b => ?_
        simp [keptSecond]
      | cons e fields =>
        rw [List.foldlM_cons] at h
        obtain ⟨s₃, h₃, h⟩ := Option.bind_eq_some_iff.mp h
        obtain ⟨helen, hs₃⟩ := keyStep_third hs₂ h₃
        cases fields with
        | nil =>
          cases h
          refine hs₃.holds rfl rfl (fun j hj => by omega)
            (fun j hj => by simp only [false_or] at hj; omega) hfirst
            fun b => ?_
          simp only [keptSecond, KeyField.Covers, false_or]
          omega
        | cons k fields =>
          rw [List.foldlM_cons] at h
          obtain ⟨s₄, h₄, h⟩ := Option.bind_eq_some_iff.mp h
          obtain ⟨-, hklen, hs₄⟩ := keyStep_fourth hs₃ h₄
          refine (hs₄.later h).holds rfl rfl (fun j hj => by omega)
            (fun j hj => by simp only [false_or] at hj; omega) hfirst
            fun b => ?_
          simp only [keptSecond, KeyField.Covers, false_or]
          omega

/-! ## The entries of a program -/

/-- The non-empty prefixes of a key, the shortest first. -/
def keyPrefixes (fields : List KeyField) : List (List KeyField) :=
  (List.range fields.length).map fun i => fields.take (i + 1)

/-- One entry for every prefix of a stage's key. -/
theorem packKey_prefixes {before fields : List KeyField} (hs : runKey before = some s)
    {keys : List Key} (h : packKey s fields = some keys) :
    keys.map some =
      (keyPrefixes fields).map fun p => (runKey (before ++ p)).map KeyLoop.key := by
  induction fields generalizing s before keys with
  | nil =>
    cases h
    rfl
  | cons f fields ih =>
    obtain ⟨s₁, h₁, h⟩ := Option.bind_eq_some_iff.mp h
    obtain ⟨rest, hrest, rfl⟩ := Option.map_eq_some_iff.mp h
    have hrun : runKey (before ++ [f]) = some s₁ := by
      rw [runKey, List.foldlM_append, ← runKey, hs]
      exact Option.bind_eq_some_iff.mpr ⟨s, rfl, Option.bind_eq_some_iff.mpr ⟨s₁, h₁, rfl⟩⟩
    rw [List.map_cons, ih hrun hrest, keyPrefixes, keyPrefixes, List.length_cons,
      List.range_succ_eq_map,
      List.map_cons, List.map_cons, List.map_map, List.map_map, List.map_map]
    refine congrArg₂ List.cons ?_ (List.map_congr_left fun i _ => ?_)
    · rw [List.take_succ_cons, List.take_zero, hrun, Option.map_some]
    · simp [List.append_assoc]

/-- **One entry for every prefix of every stage's key**, stage after
stage. -/
theorem packKeys_prefixes {stages : List (List KeyField)} {keys : List Key}
    (h : packKeys stages = some keys) :
    keys.map some = (stages.flatMap keyPrefixes).map fun p => (runKey p).map KeyLoop.key := by
  induction stages generalizing keys with
  | nil =>
    cases h
    rfl
  | cons fields stages ih =>
    obtain ⟨first, hfirst, h⟩ := Option.bind_eq_some_iff.mp h
    obtain ⟨rest, hrest, rfl⟩ := Option.map_eq_some_iff.mp h
    have hone := @packKey_prefixes KeyLoop.start [] fields rfl first hfirst
    rw [List.map_append, hone, ih hrest, List.flatMap_cons, List.map_append]
    rfl

/-- An entry is the one of the prefix of its number. -/
theorem packKeys_getElem? {stages : List (List KeyField)} {keys : List Key}
    (h : packKeys stages = some keys) (n : ℕ) :
    (keys[n]? = none ∧ (stages.flatMap keyPrefixes)[n]? = none) ∨
      ∃ k p, keys[n]? = some k ∧ (stages.flatMap keyPrefixes)[n]? = some p ∧ Holds k p := by
  have hmap := congrArg (fun l => l[n]?) (packKeys_prefixes h)
  rw [List.getElem?_map, List.getElem?_map] at hmap
  cases hk : keys[n]? with
  | none =>
    rw [hk] at hmap
    exact .inl ⟨rfl, Option.map_eq_none_iff.mp hmap.symm⟩
  | some k =>
    rw [hk] at hmap
    obtain ⟨p, hp, hrun⟩ := Option.map_eq_some_iff.mp hmap.symm
    obtain ⟨s, hs, rfl⟩ := Option.map_eq_some_iff.mp hrun
    exact .inr ⟨s.key, p, rfl, hp, holds_runKey hs⟩

/-! ## The bytes of a key -/

/-- A byte of the packet belongs to one of the ranges. -/
def InKey (fields : List KeyField) (b : ℕ) : Prop := ∃ f ∈ fields, f.Covers b

/-- **An entry selects exactly a set of bytes**: in both windows a byte
is unmasked just when the byte of the packet it stands for belongs to the
set, and every byte of the set is in a window. -/
structure Selects (k : Key) (bytes : ℕ → Prop) : Prop where
  first : ∀ j, j < 8 → (k.unmasked j = true ↔ bytes (k.off1 + j))
  second : ∀ j, j < 8 → (k.unmasked (8 + j) = true ↔ bytes (k.off2 + j))
  covers : ∀ b, bytes b → (k.off1 ≤ b ∧ b < k.off1 + 8) ∨ (k.off2 ≤ b ∧ b < k.off2 + 8)

/-- **The ranges of a prefix are enough**: what its windows keep is the
key, and where the windows overlap they keep the same. -/
structure KeepsKey (p fields : List KeyField) : Prop where
  kept : ∀ b, InKey fields b ↔ keptFirst p b ∨ keptSecond p b
  first : ∀ b, firstOffset p ≤ b → b < firstOffset p + 8 → keptSecond p b → keptFirst p b
  second : ∀ b, secondOffset p ≤ b → b < secondOffset p + 8 → keptFirst p b → keptSecond p b

/-- An entry selects a key exactly when its prefix keeps it. -/
theorem Holds.selects_iff {k : Key} {p fields : List KeyField} (h : Holds k p) :
    Selects k (InKey fields) ↔ KeepsKey p fields := by
  have hin1 : ∀ b, k.off1 ≤ b → b < k.off1 + 8 → ∃ j, j < 8 ∧ b = k.off1 + j := fun b hle hlt =>
    ⟨b - k.off1, by omega, by omega⟩
  have hin2 : ∀ b, k.off2 ≤ b → b < k.off2 + 8 → ∃ j, j < 8 ∧ b = k.off2 + j := fun b hle hlt =>
    ⟨b - k.off2, by omega, by omega⟩
  constructor
  · intro hsel
    -- inside a window the key is what the window keeps
    have h1 : ∀ b, k.off1 ≤ b → b < k.off1 + 8 → (InKey fields b ↔ keptFirst p b) := by
      intro b hle hlt
      obtain ⟨j, hj, rfl⟩ := hin1 b hle hlt
      rw [← hsel.first j hj, h.first j hj]
    have h2 : ∀ b, k.off2 ≤ b → b < k.off2 + 8 → (InKey fields b ↔ keptSecond p b) := by
      intro b hle hlt
      obtain ⟨j, hj, rfl⟩ := hin2 b hle hlt
      rw [← hsel.second j hj, h.second j hj]
    refine ⟨fun b => ⟨fun hb => ?_, ?_⟩, fun b hle hlt hb => ?_, fun b hle hlt hb => ?_⟩
    · obtain ⟨hle, hlt⟩ | ⟨hle, hlt⟩ := hsel.covers b hb
      · exact .inl ((h1 b hle hlt).mp hb)
      · exact .inr ((h2 b hle hlt).mp hb)
    · rintro (hb | hb)
      · obtain ⟨hle, hlt⟩ := h.first_window b hb
        exact (h1 b hle hlt).mpr hb
      · obtain ⟨hle, hlt⟩ := h.second_window b hb
        exact (h2 b hle hlt).mpr hb
    · rw [← h.off1] at hle hlt
      obtain ⟨hle', hlt'⟩ := h.second_window b hb
      exact (h1 b hle hlt).mp ((h2 b hle' hlt').mpr hb)
    · rw [← h.off2] at hle hlt
      obtain ⟨hle', hlt'⟩ := h.first_window b hb
      exact (h2 b hle hlt).mp ((h1 b hle' hlt').mpr hb)
  · intro hkeep
    refine ⟨fun j hj => ?_, fun j hj => ?_, fun b hb => ?_⟩
    · rw [h.first j hj, hkeep.kept]
      refine ⟨.inl, fun hb => hb.elim id fun hb => ?_⟩
      exact hkeep.first _ (by rw [← h.off1]; omega) (by rw [← h.off1]; omega) hb
    · rw [h.second j hj, hkeep.kept]
      refine ⟨.inr, fun hb => hb.elim (fun hb => ?_) id⟩
      exact hkeep.second _ (by rw [← h.off2]; omega) (by rw [← h.off2]; omega) hb
    · exact ((hkeep.kept b).mp hb).imp (h.first_window b) (h.second_window b)

/-- **The entry of a stage selects its key** when the prefix of that number
keeps it. -/
theorem packKeys_selects {stages : List (List KeyField)} {keys : List Key}
    (h : packKeys stages = some keys) (n : ℕ) (fields : List KeyField) :
    (∃ k, keys[n]? = some k ∧ Selects k (InKey fields)) ↔
      ∃ p, (stages.flatMap keyPrefixes)[n]? = some p ∧ KeepsKey p fields := by
  obtain ⟨hk, hp⟩ | ⟨k, p, hk, hp, hholds⟩ := packKeys_getElem? h n
  · simp [hk, hp]
  · rw [hk, hp]
    constructor
    · rintro ⟨k', hk', hsel⟩
      cases hk'
      exact ⟨p, rfl, hholds.selects_iff.mp hsel⟩
    · rintro ⟨p', hp', hkeep⟩
      cases hp'
      exact ⟨k, rfl, hholds.selects_iff.mpr hkeep⟩

/-- A key of one range is kept, if the range fits a window and does not
touch the first eight bytes, where the unused window lies. -/
theorem keepsKey_single {f : KeyField} (hlen : f.length ≤ 8) (hstart : 8 ≤ f.start) :
    KeepsKey [f] [f] := by
  have hkept : f.kept = f.length := if_neg (by omega)
  refine ⟨fun b => ?_, fun b _ _ hb => hb.elim, fun b _ hlt hb => ?_⟩
  · simp [InKey, keptFirst, keptSecond, KeyField.Covers, hkept]
  · have hzero : secondOffset [f] = 0 := rfl
    have := hb.1
    omega

/-- **The entry of a stage selects exactly the bytes of its key** when the
prefix of the stage's number, among the prefixes of all keys, keeps that
key: for the flow keys and for the update keys. -/
theorem keys_select_iff {stages : List KeyStage} {s : ℕ} (hs : s < stages.length) :
    (∀ flowKeys, packFlowKeys stages = some flowKeys →
      ((∃ k, flowKeys[s]? = some k ∧ Selects k (InKey stages[s].flowKey)) ↔
        ∃ p, ((stages.map KeyStage.flowKey).flatMap keyPrefixes)[s]? = some p ∧
          KeepsKey p stages[s].flowKey)) ∧
    ∀ updateKeys, packUpdateKeys stages = some updateKeys →
      ((∃ k, updateKeys[s]? = some k ∧ Selects k (InKey stages[s].updateKey)) ↔
        ∃ p, ((stages.map KeyStage.updateKey).flatMap keyPrefixes)[s]? = some p ∧
          KeepsKey p stages[s].updateKey) :=
  ⟨fun _ h => packKeys_selects h s stages[s].flowKey,
    fun _ h => packKeys_selects h s stages[s].updateKey⟩

/-- The first stage looks up the source address and updates the destination
address, and the second one the other way round. -/
def crossedStages : List KeyStage := [⟨[⟨26, 4⟩], [⟨30, 4⟩]⟩, ⟨[⟨30, 4⟩], [⟨26, 4⟩]⟩]

/-- **The entries of the second stage** are its keys. -/
theorem keys_select_crossed :
    (∃ k, (packFlowKeys crossedStages).bind (·[1]?) = some k ∧ Selects k (InKey [⟨30, 4⟩])) ∧
      ∃ k, (packUpdateKeys crossedStages).bind (·[1]?) = some k ∧ Selects k (InKey [⟨26, 4⟩]) := by
  obtain ⟨hflow, hupdate⟩ := @keys_select_iff crossedStages 1 (by decide)
  exact ⟨(hflow _ rfl).mpr ⟨[⟨30, 4⟩], rfl, keepsKey_single (by decide) (by decide)⟩,
    (hupdate _ rfl).mpr ⟨[⟨26, 4⟩], rfl, keepsKey_single (by decide) (by decide)⟩⟩

/-- **A key of two ranges**: the entry of the only stage is the one made
after the first range, without the second. -/
theorem not_keys_select :
    packFlowKeys [⟨[⟨26, 4⟩, ⟨30, 4⟩], []⟩] =
      some [⟨26, 0, 0xffffffff⟩, ⟨26, 0, 0xffffffffffffffff⟩] ∧
    ¬ Selects ⟨26, 0, 0xffffffff⟩ (InKey [⟨26, 4⟩, ⟨30, 4⟩]) := by
  refine ⟨rfl, fun h => ?_⟩
  have hin : InKey [⟨26, 4⟩, ⟨30, 4⟩] (26 + 4) := ⟨⟨30, 4⟩, by simp, by simp [KeyField.Covers]⟩
  exact absurd ((h.first 4 (by decide)).mpr hin) (by decide)

end Loader

end FlowBlaze
