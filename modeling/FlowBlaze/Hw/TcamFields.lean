import FlowBlaze.Hw.TcamSpec
import Mathlib.Data.Fintype.Basic
import Mathlib.Tactic.FinCases
/-!
# Entries with header fields

An entry of the second TCAM, bit by bit. Bits 0 to 7 are the state, the
next 16 the results of the comparators, and from bit 24 on there are 32
bits for each header field. A row's results set some bits of the value and
make some bits significant; what they leave in the words is the union of
what each of them puts there.
-/

namespace FlowBlaze

namespace Loader

/-! ## The words as one string of bits -/

/-- A bit of the value. -/
def Words.valueBit (w : Words) (b : ℕ) : Bool :=
  if h : b / 32 < 4 then (w.value ⟨b / 32, h⟩).testBit (b % 32) else false

/-- A bit of the mask. -/
def Words.maskBit (w : Words) (b : ℕ) : Bool :=
  if h : b / 32 < 8 then (w.mask ⟨b / 32, h⟩).testBit (b % 32) else false

theorem Words.valueBit_word (w : Words) (k : Fin 4) {r : ℕ} (hr : r < 32) :
    w.valueBit (32 * k + r) = (w.value k).testBit r := by
  have hk : (32 * k.val + r) / 32 = k := by omega
  have hm : (32 * k.val + r) % 32 = r := by omega
  simp only [valueBit, hk, hm, k.isLt, dif_pos]

theorem Words.maskBit_word (w : Words) (k : Fin 8) {r : ℕ} (hr : r < 32) :
    w.maskBit (32 * k + r) = (w.mask k).testBit r := by
  have hk : (32 * k.val + r) / 32 = k := by omega
  have hm : (32 * k.val + r) % 32 = r := by omega
  simp only [maskBit, hk, hm, k.isLt, dif_pos]

/-- A value at a field's position. -/
structure Put where
  pos : ℕ
  value : ℕ
  mask : ℕ

/-- The first bit of a position. -/
def fieldBit (pos : ℕ) : ℕ := 24 + 32 * pos

/-- A bit it sets: the value is not cut to the field, so up to eight bits
of it reach the next position. -/
def Put.Sets (p : Put) (b : ℕ) : Prop :=
  ∃ i, i < 40 ∧ b = fieldBit p.pos + i ∧ p.value.testBit i = true

/-- A bit it makes significant. -/
def Put.Cares (p : Put) (b : ℕ) : Prop :=
  ∃ i, i < 32 ∧ b = fieldBit p.pos + i ∧ p.mask.testBit i = false

/-- Two words of a value, seen from a position. -/
theorem exists_offset {pos k r : ℕ} {n : ℕ} {P : ℕ → Prop} :
    (∃ i, i < n ∧ 32 * k + r = fieldBit pos + i ∧ P i) ↔
      fieldBit pos ≤ 32 * k + r ∧ 32 * k + r < fieldBit pos + n ∧
        P (32 * k + r - fieldBit pos) := by
  constructor
  · rintro ⟨i, hi, hb, hP⟩
    refine ⟨by omega, by omega, ?_⟩
    rwa [hb, Nat.add_sub_cancel_left]
  · rintro ⟨hle, hlt, hP⟩
    exact ⟨_, by omega, by omega, hP⟩

/-- The eight low bits. -/
theorem testBit_and_ff (v i : ℕ) : (v &&& 0xff).testBit i = (decide (i < 8) && v.testBit i) := by
  rw [Nat.testBit_and, show (0xff : ℕ) = 2 ^ 8 - 1 from rfl, Nat.testBit_two_pow_sub_one,
    Bool.and_comm]

/-- The field's value reaches two words. -/
theorem Words.valueBit_putField {w w' : Words} {p : Put} (hpos : p.pos < 3)
    (h : w.putField p.pos p.value p.mask = some w') {b : ℕ} (hb : b < 128) :
    w'.valueBit b = true ↔ w.valueBit b = true ∨ p.Sets b := by
  obtain ⟨k, r, hr, rfl⟩ : ∃ (k : Fin 4) (r : ℕ), r < 32 ∧ b = 32 * k + r :=
    ⟨⟨b / 32, by omega⟩, b % 32, Nat.mod_lt _ (by decide), (Nat.div_add_mod b 32).symm⟩
  rw [putField, dif_pos (by omega)] at h
  cases h
  rw [valueBit_word _ k hr, valueBit_word _ k hr, Put.Sets, exists_offset, fieldBit]
  by_cases hk : k.val = p.pos
  · have hfst : (⟨p.pos, by omega⟩ : Fin 4) = k := Fin.ext hk.symm
    have hne : k ≠ ⟨p.pos + 1, by omega⟩ := Fin.ne_of_val_ne (by dsimp only; omega)
    dsimp only
    rw [hfst, Function.update_of_ne hne, Function.update_self, Nat.testBit_or,
      Nat.testBit_shiftLeft,
      testBit_and_ff, Bool.or_eq_true, Bool.and_eq_true, Bool.and_eq_true, decide_eq_true_iff,
      decide_eq_true_iff, show 32 * k.val + r - (24 + 32 * p.pos) = r - 24 by omega]
    exact or_congr_right ⟨fun h => ⟨by omega, by omega, h.2.2⟩,
      fun h => ⟨by omega, by omega, h.2.2⟩⟩
  · by_cases hk1 : k.val = p.pos + 1
    · have hsnd : (⟨p.pos + 1, by omega⟩ : Fin 4) = k := Fin.ext hk1.symm
      dsimp only
      rw [hsnd, Function.update_self, Nat.testBit_or, Nat.testBit_shiftRight, Bool.or_eq_true,
        show 32 * k.val + r - (24 + 32 * p.pos) = 8 + r by omega]
      exact or_congr_right ⟨fun h => ⟨by omega, by omega, h⟩, fun h => h.2.2⟩
    · dsimp only
      rw [Function.update_of_ne (Fin.ne_of_val_ne hk1), Function.update_of_ne (Fin.ne_of_val_ne hk)]
      exact (or_iff_left fun h => by omega).symm

/-- So does its mask. -/
theorem Words.maskBit_putField {w w' : Words} {p : Put} (hpos : p.pos < 3)
    (h : w.putField p.pos p.value p.mask = some w') {b : ℕ} (hb : b < 256) :
    w'.maskBit b = true ↔ w.maskBit b = true ∧ ¬ p.Cares b := by
  have hlow : ∀ i, Nat.testBit 0x00ffffff i = decide (i < 24) := fun i => by
    rw [show (0x00ffffff : ℕ) = 2 ^ 24 - 1 from rfl, Nat.testBit_two_pow_sub_one]
  have hhigh : ∀ i, i < 32 → Nat.testBit 0xff000000 i = decide (24 ≤ i) := by decide
  obtain ⟨k, r, hr, rfl⟩ : ∃ (k : Fin 8) (r : ℕ), r < 32 ∧ b = 32 * k + r :=
    ⟨⟨b / 32, by omega⟩, b % 32, Nat.mod_lt _ (by decide), (Nat.div_add_mod b 32).symm⟩
  rw [putField, dif_pos (by omega)] at h
  cases h
  rw [maskBit_word _ k hr, maskBit_word _ k hr, Put.Cares, exists_offset, fieldBit,
    ← Bool.not_eq_true]
  by_cases hk : k.val = p.pos
  · have hfst : (⟨p.pos, by omega⟩ : Fin 8) = k := Fin.ext hk.symm
    have hne : k ≠ ⟨p.pos + 1, by omega⟩ := Fin.ne_of_val_ne (by dsimp only; omega)
    dsimp only
    rw [hfst, Function.update_of_ne hne, Function.update_self, Nat.testBit_and, Nat.testBit_or,
      hlow,
      Nat.testBit_shiftLeft, Bool.and_eq_true, Bool.or_eq_true, Bool.and_eq_true,
      decide_eq_true_iff, decide_eq_true_iff,
      show 32 * k.val + r - (24 + 32 * p.pos) = r - 24 by omega]
    refine and_congr_right fun _ => ⟨?_, fun h => ?_⟩
    · rintro (hr' | ⟨-, hbit⟩) ⟨h24, -, hnot⟩
      · omega
      · exact hnot hbit
    · by_cases hr' : r < 24
      · exact Or.inl hr'
      · exact Or.inr ⟨by omega, not_not.mp fun hn => h ⟨by omega, by omega, hn⟩⟩
  · by_cases hk1 : k.val = p.pos + 1
    · have hsnd : (⟨p.pos + 1, by omega⟩ : Fin 8) = k := Fin.ext hk1.symm
      dsimp only
      rw [hsnd, Function.update_self, Nat.testBit_and, Nat.testBit_or, hhigh r hr,
        Nat.testBit_shiftRight, Bool.and_eq_true, Bool.or_eq_true, decide_eq_true_iff,
        show 32 * k.val + r - (24 + 32 * p.pos) = 8 + r by omega]
      refine and_congr_right fun _ => ⟨?_, fun h => ?_⟩
      · rintro (hr' | hbit) ⟨-, hlt, hnot⟩
        · omega
        · exact hnot hbit
      · by_cases hr' : 24 ≤ r
        · exact Or.inl hr'
        · exact Or.inr (not_not.mp fun hn => h ⟨by omega, by omega, hn⟩)
    · dsimp only
      rw [Function.update_of_ne (Fin.ne_of_val_ne hk1), Function.update_of_ne (Fin.ne_of_val_ne hk)]
      exact (and_iff_left fun h => by omega).symm

/-! ## The loop over the results -/

/-- What a condition puts at its field's position; a register comparison
has none. -/
def PackedCondition.put (hfs : List HeaderField) : PackedCondition → Option Put
  | register => none
  | exactMatch op0 op1 =>
    (maskFromField op0).bind fun m =>
      match op0 with
      | .eventField _ => (portsAt op1).map fun v => ⟨findHfPosition hfs op0, v, m⟩
      | .pktField _ _ => some ⟨findHfPosition hfs op0, hton op1 m, m⟩

/-- The results of the register comparisons, in order. -/
def registerResults (xs : List (FbResult × PackedCondition)) : List FbResult :=
  xs.filterMap fun x => if x.2 = .register then some x.1 else none

/-- What the tested fields put into the words. -/
def fieldPuts (hfs : List HeaderField) (xs : List (FbResult × PackedCondition)) : List Put :=
  xs.filterMap fun x => if x.1 = .fbDontCare then none else x.2.put hfs

/-- **What results do to the words**: the bits of the comparators from
`j + 8` on, and the fields put in. -/
structure Filled (w : Words) (registers : List FbResult) (puts : List Put) (w' : Words) :
    Prop where
  count : w'.j = w.j + registers.length
  value_bit : ∀ b, b < 128 → (w'.valueBit b = true ↔ w.valueBit b = true ∨
    (∃ i, b = w.j + 8 + i ∧ registers[i]? = some .fbTrue) ∨ ∃ p ∈ puts, p.Sets b)
  mask_bit : ∀ b, b < 256 → (w'.maskBit b = true ↔ w.maskBit b = true ∧
    (∀ i r, b = w.j + 8 + i → registers[i]? = some r → r = .fbDontCare) ∧
      ∀ p ∈ puts, ¬ p.Cares b)

/-- No results leave the words as they are. -/
theorem Filled.refl (w : Words) : Filled w [] [] w where
  count := rfl
  value_bit b _ := by simp
  mask_bit b _ := by simp

/-- **Results one after the other.** -/
theorem Filled.trans {w w₁ w' : Words} {rs rs' : List FbResult} {ps ps' : List Put}
    (h : Filled w rs ps w₁) (h' : Filled w₁ rs' ps' w') :
    Filled w (rs ++ rs') (ps ++ ps') w' := by
  have hlow : ∀ i, i < rs.length → (rs ++ rs')[i]? = rs[i]? := fun i hi =>
    List.getElem?_append_left hi
  have hhigh : ∀ i, (rs ++ rs')[rs.length + i]? = rs'[i]? := fun i => by
    rw [List.getElem?_append_right (Nat.le_add_right _ _), Nat.add_sub_cancel_left]
  refine ⟨by rw [h'.count, h.count, List.length_append]; omega, fun b hb => ?_, fun b hb => ?_⟩
  · rw [h'.value_bit b hb, h.value_bit b hb, h.count]
    constructor
    · rintro ((hw | ⟨i, hi, hr⟩ | ⟨p, hp, hs⟩) | ⟨i, hi, hr⟩ | ⟨p, hp, hs⟩)
      · exact .inl hw
      · exact .inr (.inl ⟨i, hi, by rwa [hlow i (List.getElem?_eq_some_iff.mp hr).1]⟩)
      · exact .inr (.inr ⟨p, List.mem_append_left _ hp, hs⟩)
      · exact .inr (.inl ⟨rs.length + i, by omega, by rwa [hhigh]⟩)
      · exact .inr (.inr ⟨p, List.mem_append_right _ hp, hs⟩)
    · rintro (hw | ⟨i, hi, hr⟩ | ⟨p, hp, hs⟩)
      · exact .inl (.inl hw)
      · by_cases hlt : i < rs.length
        · exact .inl (.inr (.inl ⟨i, hi, by rwa [hlow i hlt] at hr⟩))
        · obtain ⟨k, rfl⟩ := Nat.exists_eq_add_of_le (not_lt.mp hlt)
          exact .inr (.inl ⟨k, by omega, by rwa [hhigh] at hr⟩)
      · obtain hp | hp := List.mem_append.mp hp
        · exact .inl (.inr (.inr ⟨p, hp, hs⟩))
        · exact .inr (.inr ⟨p, hp, hs⟩)
  · rw [h'.mask_bit b hb, h.mask_bit b hb, h.count]
    constructor
    · rintro ⟨⟨hw, hr, hp⟩, hr', hp'⟩
      refine ⟨hw, fun i r hi hri => ?_, fun p hmem => ?_⟩
      · by_cases hlt : i < rs.length
        · exact hr i r hi (by rwa [hlow i hlt] at hri)
        · obtain ⟨k, rfl⟩ := Nat.exists_eq_add_of_le (not_lt.mp hlt)
          exact hr' k r (by omega) (by rwa [hhigh] at hri)
      · exact (List.mem_append.mp hmem).elim (hp p) (hp' p)
    · rintro ⟨hw, hr, hp⟩
      refine ⟨⟨hw, fun i r hi hri => ?_, fun p hmem => hp p (List.mem_append_left _ hmem)⟩,
        fun i r hi hri => ?_, fun p hmem => hp p (List.mem_append_right _ hmem)⟩
      · exact hr i r hi (by rwa [hlow i (List.getElem?_eq_some_iff.mp hri).1])
      · exact hr (rs.length + i) r (by omega) (by rwa [hhigh])

/-- Setting a bit of the first value word. -/
theorem Words.valueBit_set {w w' : Words} {n : ℕ} (hn : n < 32)
    (h : w'.value = Function.update w.value 0 (w.value 0 ||| 1 <<< n)) {b : ℕ} (hb : b < 128) :
    w'.valueBit b = true ↔ w.valueBit b = true ∨ b = n := by
  obtain ⟨k, r, hr, rfl⟩ : ∃ (k : Fin 4) (r : ℕ), r < 32 ∧ b = 32 * k + r :=
    ⟨⟨b / 32, by omega⟩, b % 32, Nat.mod_lt _ (by decide), (Nat.div_add_mod b 32).symm⟩
  rw [valueBit_word _ k hr, valueBit_word _ k hr, h]
  by_cases hk : k = 0
  · subst hk
    rw [Function.update_self, Nat.testBit_or, Nat.one_shiftLeft, Nat.testBit_two_pow,
      Bool.or_eq_true, decide_eq_true_iff]
    exact or_congr_right ⟨fun h => by simp [h], fun h => by simpa using h.symm⟩
  · have hpos : 0 < k.val := Fin.pos_iff_ne_zero.mpr hk
    rw [Function.update_of_ne hk]
    exact (or_iff_left fun h => by omega).symm

/-- Clearing the bit of the next comparator. -/
theorem Words.maskBit_careBit (w : Words) (hj : w.j + 8 < 32) {b : ℕ} (hb : b < 256) :
    w.careBit.maskBit b = true ↔ w.maskBit b = true ∧ b ≠ w.j + 8 := by
  obtain ⟨k, r, hr, rfl⟩ : ∃ (k : Fin 8) (r : ℕ), r < 32 ∧ b = 32 * k + r :=
    ⟨⟨b / 32, by omega⟩, b % 32, Nat.mod_lt _ (by decide), (Nat.div_add_mod b 32).symm⟩
  rw [maskBit_word _ k hr, maskBit_word _ k hr]
  by_cases hk : k = 0
  · subst hk
    rw [testBit_careBit]
    simp
  · have hpos : 0 < k.val := Fin.pos_iff_ne_zero.mpr hk
    rw [careBit_mask w hk]
    exact (and_iff_left (by omega)).symm

/-- A register comparison takes the next bit. -/
theorem filled_register (hfs : List HeaderField) (w : Words) {r : FbResult} (hr : r ≠ .fbExact)
    (hj : w.j + 8 < 32) :
    ∃ w', resultStep hfs w r .register = some w' ∧ Filled w [r] [] w' := by
  have hsingle : ∀ i (q : FbResult), [r][i]? = some q ↔ i = 0 ∧ q = r := by
    intro i q
    cases i <;> simp [eq_comm]
  -- the bit is significant for the two results that ask for something
  have hcare : ∀ b, b < 256 → r ≠ .fbDontCare →
      (w.careBit.maskBit b = true ↔ w.maskBit b = true ∧
        (∀ i q, b = w.j + 8 + i → [r][i]? = some q → q = .fbDontCare) ∧
          ∀ p ∈ ([] : List Put), ¬ p.Cares b) := by
    intro b hb hne
    rw [w.maskBit_careBit hj hb]
    refine and_congr_right fun _ => ⟨fun hb => ⟨fun i q hi hq => ?_, by simp⟩, fun h hb => ?_⟩
    · obtain ⟨rfl, rfl⟩ := (hsingle i q).mp hq
      exact absurd hi hb
    · exact hne (h.1 0 r hb rfl)
  cases r with
  | fbExact => exact absurd rfl hr
  | fbDontCare =>
    refine ⟨_, rfl, rfl, fun b _ => ?_, fun b _ => ?_⟩
    · simp [hsingle, Words.valueBit]
    · simp [hsingle, Words.maskBit]
  | fbTrue =>
    refine ⟨_, rfl, rfl, fun b hb => ?_, fun b hb => hcare b hb (by decide)⟩
    rw [Words.valueBit_set hj rfl hb]
    refine or_congr_right ⟨fun h => .inl ⟨0, h, rfl⟩, ?_⟩
    rintro (⟨i, hi, hq⟩ | ⟨p, hp, -⟩)
    · rwa [((hsingle i _).mp hq).1] at hi
    · cases hp
  | fbFalse =>
    refine ⟨_, rfl, rfl, fun b _ => ?_, fun b hb => hcare b hb (by decide)⟩
    simp [hsingle, Words.careBit, Words.valueBit]

/-- A tested field is put in. -/
theorem filled_exactMatch {hfs : List HeaderField} {r : FbResult} (hr : r ≠ .fbDontCare)
    {cond : PackedCondition} {p : Put} (hput : cond.put hfs = some p) (hpos : p.pos < 3)
    (w : Words) :
    ∃ w', resultStep hfs w r cond = some w' ∧ Filled w [] [p] w' := by
  cases cond with
  | register => cases hput
  | exactMatch op0 op1 =>
    have hstep : resultStep hfs w r (.exactMatch op0 op1) =
        w.putField p.pos p.value p.mask := by
      obtain ⟨m, hm, hp⟩ := Option.bind_eq_some_iff.mp hput
      cases op0 with
      | eventField s =>
        obtain ⟨v, hv, rfl⟩ := Option.map_eq_some_iff.mp hp
        cases r with
        | fbDontCare => exact absurd rfl hr
        | _ => simp only [resultStep, hm, hv, Option.bind_some]
      | pktField o l =>
        cases hp
        cases r with
        | fbDontCare => exact absurd rfl hr
        | _ => simp only [resultStep, hm, Option.bind_some]
    have hsome : ∃ w', w.putField p.pos p.value p.mask = some w' := by
      rw [Words.putField, dif_pos (by omega)]
      exact ⟨_, rfl⟩
    obtain ⟨w', hw'⟩ := hsome
    refine ⟨w', hstep.trans hw', ?_, fun b hb => ?_, fun b hb => ?_⟩
    · rw [Words.putField, dif_pos (by omega)] at hw'
      cases hw'
      rfl
    · rw [Words.valueBit_putField hpos hw' hb]
      simp
    · rw [Words.maskBit_putField hpos hw' hb]
      simp

/-- **The loop over the results.** -/
theorem packResults_filled {hfs : List HeaderField} {xs : List (FbResult × PackedCondition)}
    (hexact : ∀ x ∈ xs, x.1 ≠ .fbExact)
    (hput : ∀ x ∈ xs, x.2 ≠ .register → ∃ p, x.2.put hfs = some p ∧ p.pos < 3) (w : Words)
    (hj : w.j + (registerResults xs).length ≤ 24) :
    ∃ w', packResults hfs w (xs.map Prod.fst) (xs.map Prod.snd) = some w' ∧
      Filled w (registerResults xs) (fieldPuts hfs xs) w' := by
  induction xs generalizing w with
  | nil => exact ⟨w, rfl, Filled.refl w⟩
  | cons x xs ih =>
    obtain ⟨r, cond⟩ := x
    obtain ⟨hr, hexact⟩ := List.forall_mem_cons.mp hexact
    obtain ⟨hcond, hput⟩ := List.forall_mem_cons.mp hput
    -- one result, then the rest from the words it leaves
    have hstep : ∃ w₁, resultStep hfs w r cond = some w₁ ∧
        Filled w (registerResults [(r, cond)]) (fieldPuts hfs [(r, cond)]) w₁ := by
      cases cond with
      | register =>
        have hput : fieldPuts hfs [(r, PackedCondition.register)] = [] := by
          cases r <;> rfl
        rw [hput]
        refine filled_register hfs w hr ?_
        have hlen : (registerResults ((r, .register) :: xs)).length =
            (registerResults xs).length + 1 := by
          simp [registerResults]
        omega
      | exactMatch op0 op1 =>
        obtain ⟨p, hp, hpos⟩ := hcond (by rintro ⟨⟩)
        by_cases hdc : r = .fbDontCare
        · subst hdc
          exact ⟨w, rfl, Filled.refl w⟩
        · have hputs : fieldPuts hfs [(r, .exactMatch op0 op1)] = [p] := by
            rw [fieldPuts, List.filterMap_cons_some (b := p)]
            · rfl
            · rw [if_neg hdc, hp]
          rw [hputs]
          exact filled_exactMatch hdc hp hpos w
    obtain ⟨w₁, hw₁, hone⟩ := hstep
    have hreg : registerResults ((r, cond) :: xs) =
        registerResults [(r, cond)] ++ registerResults xs :=
      List.filterMap_append (l := [(r, cond)])
    have hputs : fieldPuts hfs ((r, cond) :: xs) =
        fieldPuts hfs [(r, cond)] ++ fieldPuts hfs xs :=
      List.filterMap_append (l := [(r, cond)])
    obtain ⟨w', hw', hrest⟩ := ih hexact hput w₁ (by
      rw [hone.count]
      rw [hreg, List.length_append] at hj
      omega)
    refine ⟨w', ?_, ?_⟩
    · rw [List.map_cons, List.map_cons, packResults, hw₁]
      exact hw'
    · rw [hreg, hputs]
      exact hone.trans hrest

/-! ## The state byte -/

/-- Where the state byte is set. -/
theorem Words.valueBit_putState (w : Words) (state : ℕ) {b : ℕ} (hb : b < 128) :
    (w.putState state).valueBit b = true ↔
      w.valueBit b = true ∨ (state ≠ 255 ∧ b < 8 ∧ state.testBit b = true) := by
  obtain ⟨k, r, hr, rfl⟩ : ∃ (k : Fin 4) (r : ℕ), r < 32 ∧ b = 32 * k + r :=
    ⟨⟨b / 32, by omega⟩, b % 32, Nat.mod_lt _ (by decide), (Nat.div_add_mod b 32).symm⟩
  rw [valueBit_word _ k hr, valueBit_word _ k hr, putState]
  by_cases h : state = 255
  · rw [if_neg (not_not.mpr h)]
    simp [h]
  · rw [if_pos h]
    dsimp only
    by_cases hk : k = 0
    · subst hk
      rw [Function.update_self, Nat.testBit_or, testBit_and_ff]
      simp [h]
    · have hpos : 0 < k.val := Fin.pos_iff_ne_zero.mpr hk
      rw [Function.update_of_ne hk]
      exact (or_iff_left fun h => by omega).symm

/-- Where the state byte is significant. -/
theorem Words.maskBit_putState (w : Words) (state : ℕ) {b : ℕ} (hb : b < 256) :
    (w.putState state).maskBit b = true ↔ w.maskBit b = true ∧ (state = 255 ∨ 8 ≤ b) := by
  obtain ⟨k, r, hr, rfl⟩ : ∃ (k : Fin 8) (r : ℕ), r < 32 ∧ b = 32 * k + r :=
    ⟨⟨b / 32, by omega⟩, b % 32, Nat.mod_lt _ (by decide), (Nat.div_add_mod b 32).symm⟩
  rw [maskBit_word _ k hr, maskBit_word _ k hr]
  by_cases hk : k = 0
  · subst hk
    rw [testBit_putState_mask _ _ hr]
    simp
  · have hpos : 0 < k.val := Fin.pos_iff_ne_zero.mpr hk
    rw [putState_mask _ _ hk]
    exact (and_iff_left (by omega)).symm

theorem Words.valueBit_start (b : ℕ) : Words.start.valueBit b = false := by
  unfold valueBit
  split
  · exact Nat.zero_testBit _
  · rfl

theorem Words.maskBit_start {b : ℕ} (hb : b < 256) : Words.start.maskBit b = true := by
  rw [maskBit, dif_pos (by omega), show Words.start.mask _ = 2 ^ 32 - 1 from rfl,
    Nat.testBit_two_pow_sub_one]
  exact decide_eq_true (Nat.mod_lt _ (by decide))

end Loader

namespace Hw

open Loader

/-! ## What the entry matches -/

/-- An entry is compared bit by bit. -/
theorem entryMatches_bits (w : Words) (word : BitVec 120) :
    entryMatches (entryOf w) word = true ↔
      ∀ b, b < 120 → w.maskBit b = true ∨ word.getLsbD b = w.valueBit b := by
  rw [entryMatches_iff]
  refine forall₂_congr fun b hb => ?_
  have hmod : b % 32 < 32 := Nat.mod_lt _ (by omega)
  have hword : (⟨b / 32 % 4, by omega⟩ : Fin 4) = ⟨b / 32, by omega⟩ :=
    Fin.ext (Nat.mod_eq_of_lt (by omega))
  rw [entryOf, getLsbD_low120 _ hb, getLsbD_low120 _ hb, BitVec.getLsbD_ofNat,
    BitVec.getLsbD_ofNat, decide_eq_true hmod, Bool.true_and, Bool.true_and, Words.maskBit,
    dif_pos (by omega), Words.valueBit, dif_pos (by omega), hword]

/-- The header fields of the word of a packet, from position 0 on. -/
theorem getLsbD_fullInput2_field (o : Fin 3 → BitVec 32) (conditions : BitVec 16)
    (state : BitVec 8) (p : Fin 3) {i : ℕ} (hi : i < 32) :
    (fullInput2 (o 2) (o 1) (o 0) conditions state).getLsbD (fieldBit p + i) =
      (o p).getLsbD i := by
  unfold fullInput2 fieldBit
  rw [BitVec.getLsbD_append, if_neg (by omega), BitVec.getLsbD_append, if_neg (by omega),
    BitVec.getLsbD_append, BitVec.getLsbD_append]
  fin_cases p
  · rw [if_pos (by dsimp only; omega)]
    exact congrArg _ (by dsimp only; omega)
  · rw [if_neg (by dsimp only; omega), if_pos (by dsimp only; omega)]
    exact congrArg _ (by dsimp only; omega)
  · rw [if_neg (by dsimp only; omega), if_neg (by dsimp only; omega)]
    exact congrArg _ (by dsimp only; omega)

/-- **The entry of a row**: the state byte, the results of the
comparators, and the bits of the fields, each compared on its own. -/
theorem entryMatches_filled {w : Words} {rs : List FbResult} {ps : List Put}
    (h : Filled Words.start rs ps w) (hexact : .fbExact ∉ rs) (hlen : rs.length ≤ 16)
    (state : ℕ) (o : Fin 3 → BitVec 32) (conditions : BitVec 16) (s : BitVec 8) :
    entryMatches (entryOf (w.putState state)) (fullInput2 (o 2) (o 1) (o 0) conditions s) = true ↔
      (state = 255 ∨ state % 256 = s.toNat) ∧
      (∀ (i : ℕ) (r : FbResult), rs[i]? = some r → r.allows (conditions.getLsbD i)) ∧
      ∀ (p : Fin 3) (i : ℕ), i < 32 → (∃ q ∈ ps, q.Cares (fieldBit p + i)) →
        ((o p).getLsbD i = true ↔ ∃ q ∈ ps, q.Sets (fieldBit p + i)) := by
  have hj : Words.start.j + 8 = 8 := rfl
  have hmask : ∀ b, b < 120 → ((w.putState state).maskBit b = true ↔
      ((∀ i r, b = 8 + i → rs[i]? = some r → r = .fbDontCare) ∧ ∀ q ∈ ps, ¬ q.Cares b) ∧
        (state = 255 ∨ 8 ≤ b)) := by
    intro b hb
    rw [w.maskBit_putState state (by omega), h.mask_bit b (by omega), hj,
      and_iff_right (Words.maskBit_start (by omega))]
  have hvalue : ∀ b, b < 120 → ((w.putState state).valueBit b = true ↔
      ((∃ i, b = 8 + i ∧ rs[i]? = some .fbTrue) ∨ ∃ q ∈ ps, q.Sets b) ∨
        (state ≠ 255 ∧ b < 8 ∧ state.testBit b = true)) := by
    intro b hb
    have hzero : ¬ Words.start.valueBit b = true := by rw [Words.valueBit_start]; decide
    rw [w.valueBit_putState state (by omega), h.value_bit b (by omega), hj, or_iff_right hzero]
  -- fields lie above the comparators
  have hsets : ∀ b, b < 24 → ¬ ∃ q ∈ ps, q.Sets b := by
    rintro b hb ⟨q, -, i, -, hi, -⟩
    rw [fieldBit] at hi
    omega
  have hcares : ∀ b, b < 24 → ∀ q ∈ ps, ¬ q.Cares b := by
    rintro b hb q - ⟨i, -, hi, -⟩
    rw [fieldBit] at hi
    omega
  have hlt : ∀ (i : ℕ) (r : FbResult), rs[i]? = some r → i < 16 := fun i r hi =>
    lt_of_lt_of_le (List.getElem?_eq_some_iff.mp hi).1 hlen
  have hstate : state % 256 = s.toNat ↔ ∀ b, b < 8 → (s.getLsbD b = true ↔
      state.testBit b = true) := by
    rw [show (256 : ℕ) = 2 ^ 8 from rfl, ← BitVec.toNat_ofNat, BitVec.toNat_inj]
    constructor
    · rintro rfl b hb
      rw [BitVec.getLsbD_ofNat, decide_eq_true hb, Bool.true_and]
    · intro hbits
      refine BitVec.eq_of_getLsbD_eq fun b hb => ?_
      rw [BitVec.getLsbD_ofNat, decide_eq_true hb, Bool.true_and, Bool.eq_iff_iff, hbits b hb]
  rw [entryMatches_bits]
  constructor
  · intro hbits
    refine ⟨or_iff_not_imp_left.mpr fun hany => hstate.mpr fun b hb => ?_, fun i r hi => ?_,
      fun p i hi hcare => ?_⟩
    · have hbit := (hbits b (by omega)).resolve_left fun hm =>
        (((hmask b (by omega)).mp hm).2.elim hany fun h8 => by omega)
      rw [getLsbD_fullInput2_state _ _ _ _ _ hb] at hbit
      rw [hbit, hvalue b (by omega)]
      constructor
      · rintro ((⟨i, rfl, -⟩ | hs) | ⟨-, -, ht⟩)
        · omega
        · exact absurd hs (hsets b (by omega))
        · exact ht
      · exact fun ht => .inr ⟨hany, hb, ht⟩
    · have hi16 := hlt i r hi
      have hbit := hbits (8 + i) (by omega)
      rw [getLsbD_fullInput2_conditions _ _ _ _ _ hi16, hmask _ (by omega)] at hbit
      obtain hdc | heq := hbit
      · rw [hdc.1.1 i r rfl hi]
        exact trivial
      · have hset := hvalue (8 + i) (by omega)
        rw [← heq] at hset
        cases r with
        | fbDontCare => exact trivial
        | fbExact => exact absurd (List.mem_of_getElem? hi) hexact
        | fbTrue => exact hset.mpr (.inl (.inl ⟨i, rfl, hi⟩))
        | fbFalse =>
          refine Bool.eq_false_iff.mpr fun ht => ?_
          obtain (⟨k, hk, hk'⟩ | hs) | ⟨-, h8, -⟩ := hset.mp ht
          · obtain rfl : i = k := by omega
            cases hi.symm.trans hk'
          · exact hsets _ (by omega) hs
          · omega
    · have hb : fieldBit p + i < 120 := by rw [fieldBit]; omega
      have hb24 : 24 ≤ fieldBit p + i := by rw [fieldBit]; omega
      have hbit := (hbits _ hb).resolve_left fun hm => by
        obtain ⟨q, hq, hc⟩ := hcare
        exact ((hmask _ hb).mp hm).1.2 q hq hc
      rw [getLsbD_fullInput2_field o conditions s p hi] at hbit
      rw [hbit, hvalue _ hb]
      constructor
      · rintro ((⟨k, hk, hk'⟩ | hs) | ⟨-, h8, -⟩)
        · have := hlt k _ hk'
          omega
        · exact hs
        · omega
      · exact fun hs => .inl (.inr hs)
  · rintro ⟨hst, hrs, hfields⟩ b hb
    rw [hmask b hb]
    by_cases h8 : b < 8
    · obtain h255 | heq := hst
      · exact .inl ⟨⟨fun i r hi => by omega, hcares b (by omega)⟩, .inl h255⟩
      · by_cases h255 : state = 255
        · exact .inl ⟨⟨fun i r hi => by omega, hcares b (by omega)⟩, .inl h255⟩
        · right
          rw [getLsbD_fullInput2_state _ _ _ _ _ h8, Bool.eq_iff_iff, hstate.mp heq b h8,
            hvalue b hb]
          constructor
          · exact fun ht => .inr ⟨h255, h8, ht⟩
          · rintro ((⟨i, rfl, -⟩ | hs) | ⟨-, -, ht⟩)
            · omega
            · exact absurd hs (hsets b (by omega))
            · exact ht
    by_cases h24 : b < 24
    · obtain ⟨i, rfl⟩ : ∃ i, b = 8 + i := ⟨b - 8, by omega⟩
      by_cases hdc : ∀ r, rs[i]? = some r → r = .fbDontCare
      · refine .inl ⟨⟨fun k r hk hr => ?_, hcares _ h24⟩, .inr (by omega)⟩
        obtain rfl : i = k := by omega
        exact hdc r hr
      · push Not at hdc
        obtain ⟨r, hr, hne⟩ := hdc
        right
        rw [getLsbD_fullInput2_conditions _ _ _ _ _ (hlt i r hr), Bool.eq_iff_iff, hvalue _ hb]
        have hallow := hrs i r hr
        constructor
        · intro ht
          refine .inl (.inl ⟨i, rfl, ?_⟩)
          cases r with
          | fbTrue => exact hr
          | fbDontCare => exact absurd rfl hne
          | fbFalse => exact absurd ht (Bool.eq_false_iff.mp hallow)
          | fbExact => exact hallow.elim
        · rintro ((⟨k, hk, hk'⟩ | hs) | ⟨-, h8', -⟩)
          · obtain rfl : i = k := by omega
            obtain rfl := Option.some.inj (hr.symm.trans hk')
            exact hallow
          · exact absurd hs (hsets _ h24)
          · omega
    · obtain ⟨p, i, hi, rfl⟩ : ∃ (p : Fin 3) (i : ℕ), i < 32 ∧ b = fieldBit p + i :=
        ⟨⟨(b - 24) / 32, by omega⟩, (b - 24) % 32, Nat.mod_lt _ (by decide), by
          rw [fieldBit]
          dsimp only
          omega⟩
      by_cases hcare : ∃ q ∈ ps, q.Cares (fieldBit p + i)
      · right
        rw [getLsbD_fullInput2_field o conditions s p hi, Bool.eq_iff_iff,
          hfields p i hi hcare, hvalue _ hb]
        constructor
        · exact fun hs => .inl (.inr hs)
        · rintro ((⟨k, hk, hk'⟩ | hs) | ⟨-, h8', -⟩)
          · have := hlt k _ hk'
            omega
          · exact hs
          · omega
      · push Not at hcare
        refine .inl ⟨⟨fun k r hk hr => ?_, hcare⟩, .inr (by omega)⟩
        have := hlt k r hr
        omega

end Hw

end FlowBlaze
