import FlowBlaze.Hw.Tcam
import FlowBlaze.Loader.Programmer
/-!
# A programmed TCAM

What `write_tcam2` leaves in the CAM when the conditions of the stage
are register comparisons: an entry for each row, in order, which matches
exactly the packets whose state is the row's, or any state for a row of
state 255, and whose conditions have the results the row asks for.
-/

namespace FlowBlaze

namespace Hw

open Loader

/-! ## One entry through the registers -/

/-- The address of a value word. -/
private theorem dataIn_address (i : Fin 4) :
    (BitVec.ofNat 32 (tcam2DataIn i)).extractLsb' 16 16 = 0x8001 ∧
      (BitVec.ofNat 32 (tcam2DataIn i)).extractLsb' 0 6 = BitVec.ofNat 6 (4 * i) ∧
      cam2We (BitVec.ofNat 32 (tcam2DataIn i)) = false := by
  revert i
  decide

/-- The address of a mask word of an entry. -/
private theorem mask_address (n : Fin 32) (i : Fin 8) :
    (BitVec.ofNat 32 (tcam2Mask i ||| n.val <<< 6)).extractLsb' 16 16 = 0x8001 ∧
      (BitVec.ofNat 32 (tcam2Mask i ||| n.val <<< 6)).extractLsb' 0 6 =
        BitVec.ofNat 6 (32 + 4 * i) ∧
      cam2We (BitVec.ofNat 32 (tcam2Mask i ||| n.val <<< 6)) = (i == 7) ∧
      (BitVec.ofNat 32 (tcam2Mask i ||| n.val <<< 6)).extractLsb' 6 5 = BitVec.ofNat 5 n := by
  revert n i
  decide +kernel

/-- The value words are told apart by six bits of the address. -/
private theorem dataIn_word (i : Fin 4) (k : Fin 8) :
    (BitVec.ofNat 6 (4 * i.val) == BitVec.ofNat 6 (4 * k)) = (k.val == i.val) ∧
      (BitVec.ofNat 6 (4 * i.val) == BitVec.ofNat 6 (32 + 4 * k)) = false := by
  revert i k
  decide

/-- So are the mask words. -/
private theorem mask_word (i k : Fin 8) :
    (BitVec.ofNat 6 (32 + 4 * i.val) == BitVec.ofNat 6 (4 * k)) = false ∧
      (BitVec.ofNat 6 (32 + 4 * i.val) == BitVec.ofNat 6 (32 + 4 * k)) = (k == i) := by
  revert i k
  decide

/-- The entries are told apart by five bits. -/
private theorem entry_address (n k : Fin 32) :
    (BitVec.ofNat 5 n.val == BitVec.ofNat 5 k.val) = (k == n) := by
  revert n k
  decide +kernel

/-- The entry the words of a row become. -/
def entryOf (w : Words) : BitVec 120 × BitVec 120 :=
  (low120 fun k => BitVec.ofNat 32 (w.value ⟨k.val % 4, by omega⟩),
    low120 fun k => BitVec.ofNat 32 (w.mask k))

namespace CamReg

variable {c : CamReg}

/-- Writing a value word. -/
theorem write_dataIn (i : Fin 4) (v : BitVec 32) :
    c.write (BitVec.ofNat 32 (tcam2DataIn i)) v =
      { c with tcamDataIn := fun k => if k.val = i.val then v else c.tcamDataIn k } := by
  obtain ⟨hpage, hlow, hwe⟩ := dataIn_address i
  unfold write
  simp only [hpage, hlow, hwe, (dataIn_word i _).1, (dataIn_word i _).2]
  simp

/-- Writing a mask word. The last one also writes the CAM. -/
theorem write_mask (n : Fin 32) (i : Fin 8) (v : BitVec 32) :
    c.write (BitVec.ofNat 32 (tcam2Mask i ||| n.val <<< 6)) v =
      { c with
        tcamMask := fun k => if k = i then v else c.tcamMask k
        cam2 := fun k =>
          if i = 7 ∧ k = n then some (low120 c.tcamDataIn, low120 c.tcamMask)
          else c.cam2 k } := by
  obtain ⟨hpage, hlow, hwe, hentry⟩ := mask_address n i
  unfold write
  simp only [hpage, hlow, hwe, hentry, (mask_word i _).1, (mask_word i _).2, entry_address]
  simp

/-- **Programming an entry** writes that entry of the CAM, from the low
four words of each kind. -/
theorem program_writes (w : Words) (n : Fin 32) :
    (c.program (w.writes n)).cam2 = Function.update c.cam2 n (some (entryOf w)) := by
  have hdata : List.finRange 4 = [0, 1, 2, 3] := rfl
  have hmask : List.finRange 8 = [0, 1, 2, 3, 4, 5, 6, 7] := rfl
  unfold program Words.writes entryOf
  rw [hdata, hmask]
  simp only [List.map_cons, List.map_nil, List.cons_append, List.nil_append, List.foldl_cons,
    List.foldl_nil, write_dataIn, write_mask]
  funext k
  by_cases hk : k = n
  · subst hk
    simp [low120]
  · simp [hk]

end CamReg

/-! ## What an entry matches -/

/-- A bit of the low 120. -/
theorem getLsbD_low120 (w : Fin 8 → BitVec 32) {b : ℕ} (hb : b < 120) :
    (low120 w).getLsbD b = (w ⟨b / 32, by omega⟩).getLsbD (b % 32) := by
  have hdiv : b / 32 = 0 ∨ b / 32 = 1 ∨ b / 32 = 2 ∨ b / 32 = 3 := by omega
  have hmod : b = 32 * (b / 32) + b % 32 := (Nat.div_add_mod b 32).symm
  have hlt : b % 32 < 32 := Nat.mod_lt _ (by omega)
  unfold low120
  rw [BitVec.getLsbD_extractLsb', BitVec.getLsbD_append, BitVec.getLsbD_append,
    BitVec.getLsbD_append, decide_eq_true hb, Bool.true_and, Nat.zero_add]
  generalize b % 32 = r at hmod hlt ⊢
  obtain h | h | h | h := hdiv <;> simp only [h] at hmod ⊢ <;> subst hmod
  · rw [if_pos (by omega)]
    simp only [Nat.mul_zero, Nat.zero_add]
    rfl
  · rw [if_neg (by omega), if_pos (by omega), show 32 * 1 + r - 32 = r by omega]
    rfl
  · rw [if_neg (by omega), if_neg (by omega), if_pos (by omega),
      show 32 * 2 + r - 32 - 32 = r by omega]
    rfl
  · rw [if_neg (by omega), if_neg (by omega), if_neg (by omega),
      show 32 * 3 + r - 32 - 32 - 32 = r by omega]
    rfl

end Hw

namespace Loader

/-! ## The first word -/

/-- The condition results a result of a row allows. -/
def FbResult.allows : FbResult → Bool → Prop
  | .fbFalse, b => b = false
  | .fbTrue, b => b = true
  | .fbDontCare, _ => True
  | .fbExact, _ => False

/-- What the loop over the results does to the words when every condition
is a register comparison: the bits from `j + 8` on are set by the results,
the rest stays. -/
structure Packed (w : Words) (results : List FbResult) (w' : Words) : Prop where
  mask_high : ∀ k, k ≠ 0 → w'.mask k = w.mask k
  value_bit : ∀ b, (w'.value 0).testBit b = true ↔
    (w.value 0).testBit b = true ∨ ∃ i, b = w.j + 8 + i ∧ results[i]? = some .fbTrue
  mask_bit : ∀ b, (w'.mask 0).testBit b = true ↔
    (w.mask 0).testBit b = true ∧
      ∀ i r, b = w.j + 8 + i → results[i]? = some r → r = .fbDontCare

/-- A bit of a cleared mask word. -/
theorem Words.testBit_careBit (w : Words) (b : ℕ) :
    (w.careBit.mask 0).testBit b = true ↔ (w.mask 0).testBit b = true ∧ b ≠ w.j + 8 := by
  have hmask : w.careBit.mask 0 = Nat.ldiff (w.mask 0) (1 <<< (w.j + 8)) := by
    simp [careBit]
  rw [hmask, Nat.testBit_ldiff, Nat.one_shiftLeft, Nat.testBit_two_pow, Bool.and_eq_true,
    Bool.not_eq_true', decide_eq_false_iff_not]
  exact and_congr_right fun _ => ne_comm

/-- The other mask words are not touched. -/
theorem Words.careBit_mask (w : Words) {k : Fin 8} (hk : k ≠ 0) :
    w.careBit.mask k = w.mask k :=
  Function.update_of_ne hk _ _

/-- One turn of the loop. -/
theorem resultStep_register (hfs : List HeaderField) (w : Words) {r : FbResult}
    (hr : r ≠ .fbExact) :
    ∃ w', resultStep hfs w r .register = some w' ∧ w'.j = w.j + 1 ∧ Packed w [r] w' := by
  have hsingle : ∀ i (q : FbResult), [r][i]? = some q ↔ i = 0 ∧ q = r := by
    intro i q
    cases i <;> simp [eq_comm]
  have hcare : r ≠ .fbDontCare → ∀ b, b ≠ w.j + 8 ↔
      ∀ i q, b = w.j + 8 + i → [r][i]? = some q → q = .fbDontCare := by
    intro hne b
    constructor
    · intro hb i q hbi hi
      obtain ⟨rfl, rfl⟩ := (hsingle i q).mp hi
      exact absurd hbi hb
    · intro h hb
      exact hne (h 0 r hb rfl)
  cases r with
  | fbExact => exact absurd rfl hr
  | fbDontCare =>
    refine ⟨_, rfl, rfl, fun k _ => rfl, fun b => ?_, fun b => ?_⟩
    · simp [hsingle]
    · simp [hsingle]
  | fbTrue =>
    refine ⟨_, rfl, rfl, fun k hk => w.careBit_mask hk, fun b => ?_, fun b => ?_⟩
    · rw [show ∀ v j, ({ w.careBit with value := v, j := j } : Words).value = v from
        fun _ _ => rfl, Function.update_self, Nat.testBit_or, Nat.one_shiftLeft,
        Nat.testBit_two_pow, Bool.or_eq_true, decide_eq_true_iff, @eq_comm _ (w.j + 8)]
      simp [hsingle]
    · exact (w.testBit_careBit b).trans (and_congr_right fun _ => hcare (by decide) b)
  | fbFalse =>
    refine ⟨_, rfl, rfl, fun k hk => w.careBit_mask hk, fun b => ?_, fun b => ?_⟩
    · simp [hsingle, Words.careBit]
    · exact (w.testBit_careBit b).trans (and_congr_right fun _ => hcare (by decide) b)

/-- **The loop over the results**, when every condition is a register
comparison. -/
theorem packResults_register (hfs : List HeaderField) {results : List FbResult}
    (hresults : .fbExact ∉ results) (w : Words) {n : ℕ} (hn : results.length ≤ n) :
    ∃ w', packResults hfs w results (List.replicate n .register) = some w' ∧
      Packed w results w' := by
  induction results generalizing w n with
  | nil =>
    refine ⟨w, rfl, fun k _ => rfl, fun b => ?_, fun b => ?_⟩
    · simp
    · simp
  | cons r results ih =>
    obtain ⟨n, rfl⟩ : ∃ m, n = m + 1 := ⟨n - 1, by simp at hn; omega⟩
    obtain ⟨hr, hresults⟩ := not_or.mp (mt List.mem_cons.mpr hresults)
    obtain ⟨w₁, hstep, hj, hone⟩ := resultStep_register hfs w (Ne.symm hr)
    obtain ⟨w', hrest, hpacked⟩ := ih hresults w₁ (Nat.le_of_succ_le_succ hn)
    refine ⟨w', ?_, fun k hk => ?_, fun b => ?_, fun b => ?_⟩
    · rw [List.replicate_succ, packResults, hstep]
      exact hrest
    · rw [hpacked.mask_high k hk, hone.mask_high k hk]
    · rw [hpacked.value_bit, hone.value_bit, hj, or_assoc]
      refine or_congr_right ⟨?_, ?_⟩
      · rintro (⟨i, rfl, hi⟩ | ⟨i, rfl, hi⟩)
        · cases i with
          | zero => exact ⟨0, rfl, hi⟩
          | succ i => simp at hi
        · exact ⟨i + 1, by omega, hi⟩
      · rintro ⟨i, rfl, hi⟩
        cases i with
        | zero => exact Or.inl ⟨0, rfl, hi⟩
        | succ i => exact Or.inr ⟨i, by omega, hi⟩
    · rw [hpacked.mask_bit, hone.mask_bit, hj, and_assoc]
      refine and_congr_right fun _ => ⟨?_, ?_⟩
      · rintro ⟨hfirst, hlater⟩ i q rfl hi
        cases i with
        | zero => exact hfirst 0 q rfl hi
        | succ i => exact hlater i q (by omega) hi
      · intro h
        refine ⟨fun i q hb hi => ?_, fun i q hb hi => h (i + 1) q (by omega) hi⟩
        cases i with
        | zero => exact h 0 q hb hi
        | succ i => simp at hi

/-- The mask of an entry after the loop: the high words are all ones. -/
theorem Packed.mask_start {results : List FbResult} {w : Words}
    (h : Packed Words.start results w) {k : Fin 8} (hk : k ≠ 0) : w.mask k = 0xffffffff :=
  h.mask_high k hk

/-- Only the first word of a mask changes with the state. -/
theorem Words.putState_mask (w : Words) (state : ℕ) {k : Fin 8} (hk : k ≠ 0) :
    (w.putState state).mask k = w.mask k := by
  unfold putState
  split
  · exact Function.update_of_ne hk _ _
  · rfl

/-- The first mask word with the state byte. -/
theorem Words.testBit_putState_mask (w : Words) (state : ℕ) {b : ℕ} (hb : b < 32) :
    ((w.putState state).mask 0).testBit b = true ↔
      (w.mask 0).testBit b = true ∧ (state = 255 ∨ 8 ≤ b) := by
  have hbyte : ∀ b, b < 32 → Nat.testBit 0xffffff00 b = decide (8 ≤ b) := by decide
  unfold putState
  split
  · next h => simp [Nat.testBit_and, hbyte b hb, h]
  · next h => simp [not_not.mp h]

/-- The first value word with the state byte. -/
theorem Words.testBit_putState_value (w : Words) {state : ℕ} (hstate : state < 256) (b : ℕ) :
    ((w.putState state).value 0).testBit b = true ↔
      (w.value 0).testBit b = true ∨ (state ≠ 255 ∧ state.testBit b = true) := by
  have hand : state &&& 0xff = state := by
    rw [show 0xff = 2 ^ 8 - 1 from rfl, Nat.and_two_pow_sub_one_eq_mod]
    omega
  unfold putState
  split
  · next h => simp [hand, h]
  · next h => simp [not_not.mp h]

end Loader

namespace Hw

open Loader

/-! ## The entry of a row -/

/-- The low bits of the word of a packet are its state. -/
theorem getLsbD_fullInput2_state (o3 o2 o1 : BitVec 32) (conditions : BitVec 16) (state : BitVec 8)
    {b : ℕ} (hb : b < 8) :
    (fullInput2 o3 o2 o1 conditions state).getLsbD b = state.getLsbD b := by
  unfold fullInput2
  rw [BitVec.getLsbD_append, if_pos hb]

/-- The next 16 are the results of the conditions. -/
theorem getLsbD_fullInput2_conditions (o3 o2 o1 : BitVec 32) (conditions : BitVec 16)
    (state : BitVec 8) {b : ℕ} (hb : b < 16) :
    (fullInput2 o3 o2 o1 conditions state).getLsbD (8 + b) = conditions.getLsbD b := by
  unfold fullInput2
  rw [BitVec.getLsbD_append, if_neg (by omega), BitVec.getLsbD_append, if_pos (by omega),
    Nat.add_sub_cancel_left]

/-- When all but the first mask word is ones, only the first word is
compared. -/
theorem entryMatches_entryOf {w : Words} (hmask : ∀ k, k ≠ 0 → w.mask k = 0xffffffff)
    (word : BitVec 120) :
    entryMatches (entryOf w) word = true ↔
      ∀ b, b < 32 → (w.mask 0).testBit b = true ∨ word.getLsbD b = (w.value 0).testBit b := by
  rw [entryMatches_iff]
  constructor
  · intro h b hb
    have hfst : b / 32 = 0 := by omega
    have hbit := h b (by omega)
    unfold entryOf at hbit
    simp only [getLsbD_low120 _ (show b < 120 by omega), BitVec.getLsbD_ofNat, hfst,
      Nat.mod_eq_of_lt hb, hb, decide_true, Bool.true_and] at hbit
    exact hbit
  · intro h b hb
    unfold entryOf
    rw [getLsbD_low120 _ hb, getLsbD_low120 _ hb, BitVec.getLsbD_ofNat, BitVec.getLsbD_ofNat]
    by_cases hlow : b < 32
    · have hfst : b / 32 = 0 := by omega
      simp only [hfst, Nat.mod_eq_of_lt hlow, hlow, decide_true, Bool.true_and]
      exact h b hlow
    · have hne : (⟨b / 32, by omega⟩ : Fin 8) ≠ 0 := by
        intro h0
        have := congrArg Fin.val h0
        simp at this
        omega
      have hmod : b % 32 < 32 := Nat.mod_lt _ (by omega)
      left
      rw [hmask _ hne, show 0xffffffff = 2 ^ 32 - 1 from rfl, Nat.testBit_two_pow_sub_one]
      simp [hmod]

/-- What a row asks for, in terms of the board: its state, or any state
for a row of state 255, and its condition results. -/
def Covers (e : Entry) (conditions : BitVec 16) (state : BitVec 8) : Prop :=
  (e.state = 255 ∨ e.state = state.toNat) ∧
    ∀ (i : ℕ) (r : FbResult), e.results[i]? = some r → r.allows (conditions.getLsbD i)

/-- **The entry of a row** matches the packets the row covers, and no
others. -/
theorem entryMatches_row {e : Entry} {w : Words} (hpacked : Packed Words.start e.results w)
    (hexact : .fbExact ∉ e.results) (hlen : e.results.length ≤ 16) (hstate : e.state < 256)
    (o3 o2 o1 : BitVec 32) (conditions : BitVec 16) (state : BitVec 8) :
    entryMatches (entryOf (w.putState e.state)) (fullInput2 o3 o2 o1 conditions state) = true ↔
      Covers e conditions state := by
  have hmask : ∀ b, b < 32 → (((w.putState e.state).mask 0).testBit b = true ↔
      (∀ i r, b = 8 + i → e.results[i]? = some r → r = .fbDontCare) ∧
        (e.state = 255 ∨ 8 ≤ b)) := by
    intro b hb
    have hones : Nat.testBit (Words.start.mask 0) b = true := by
      rw [show Words.start.mask 0 = 2 ^ 32 - 1 from rfl, Nat.testBit_two_pow_sub_one]
      exact decide_eq_true hb
    have hj : Words.start.j + 8 = 8 := rfl
    rw [w.testBit_putState_mask e.state hb, hpacked.mask_bit, hj]
    exact and_congr_left fun _ => and_iff_right hones
  have hvalue : ∀ b, ((w.putState e.state).value 0).testBit b = true ↔
      (∃ i, b = 8 + i ∧ e.results[i]? = some .fbTrue) ∨
        (e.state ≠ 255 ∧ e.state.testBit b = true) := by
    intro b
    have hzero : Nat.testBit (Words.start.value 0) b = false := Nat.zero_testBit b
    have hj : Words.start.j + 8 = 8 := rfl
    rw [w.testBit_putState_value hstate, hpacked.value_bit, hzero, hj]
    simp
  have hhigh : ∀ b, 8 ≤ b → e.state.testBit b = false := fun b hb =>
    Nat.testBit_lt_two_pow (lt_of_lt_of_le hstate
      (show 2 ^ 8 ≤ 2 ^ b from Nat.pow_le_pow_right Nat.two_pos hb))
  rw [entryMatches_entryOf fun k hk => by rw [Words.putState_mask _ _ hk, hpacked.mask_start hk]]
  constructor
  · intro h
    refine ⟨or_iff_not_imp_left.mpr fun hany => ?_, fun i r hi => ?_⟩
    · -- the state byte, bit by bit
      refine Nat.eq_of_testBit_eq fun b => ?_
      rw [BitVec.testBit_toNat]
      by_cases hb : b < 8
      · have hnot : ¬((w.putState e.state).mask 0).testBit b = true := by
          rw [hmask b (by omega)]
          rintro ⟨-, h255 | h8⟩
          · exact hany h255
          · omega
        have heq := (h b (by omega)).resolve_left hnot
        rw [getLsbD_fullInput2_state _ _ _ _ _ hb] at heq
        rw [heq, Bool.eq_iff_iff, hvalue]
        constructor
        · exact fun ht => Or.inr ⟨hany, ht⟩
        · rintro (⟨i, rfl, -⟩ | ⟨-, ht⟩)
          · omega
          · exact ht
      · rw [hhigh b (by omega), BitVec.getLsbD_of_ge _ _ (not_lt.mp hb)]
    · have hlt : i < 16 := lt_of_lt_of_le (List.getElem?_eq_some_iff.mp hi).1 hlen
      have hbit := h (8 + i) (by omega)
      rw [hmask _ (by omega), getLsbD_fullInput2_conditions _ _ _ _ _ hlt] at hbit
      have hset : ((w.putState e.state).value 0).testBit (8 + i) = true ↔ r = .fbTrue := by
        rw [hvalue, hhigh _ (by omega)]
        constructor
        · rintro (⟨k, hk, hi'⟩ | ⟨-, ht⟩)
          · obtain rfl : i = k := by omega
            exact Option.some.inj (hi.symm.trans hi')
          · cases ht
        · rintro rfl
          exact Or.inl ⟨i, rfl, hi⟩
      obtain hdc | heq := hbit
      · rw [hdc.1 i r rfl hi]
        exact trivial
      · cases r with
        | fbDontCare => exact trivial
        | fbExact => exact absurd (List.mem_of_getElem? hi) hexact
        | fbTrue => exact heq.trans (hset.mpr rfl)
        | fbFalse =>
          refine heq.trans (Bool.eq_false_iff.mpr fun ht => ?_)
          cases hset.mp ht
  · rintro ⟨hst, hres⟩ b hb
    by_cases hlow : b < 8
    · rw [getLsbD_fullInput2_state _ _ _ _ _ hlow]
      obtain h255 | heq := hst
      · left
        rw [hmask b hb]
        exact ⟨fun i r hbi => by omega, Or.inl h255⟩
      · by_cases h255 : e.state = 255
        · left
          rw [hmask b hb]
          exact ⟨fun i r hbi => by omega, Or.inl h255⟩
        · right
          rw [Bool.eq_iff_iff, hvalue, ← BitVec.testBit_toNat, ← heq]
          constructor
          · exact fun ht => Or.inr ⟨h255, ht⟩
          · rintro (⟨i, rfl, -⟩ | ⟨-, ht⟩)
            · omega
            · exact ht
    · obtain ⟨i, rfl⟩ : ∃ i, b = 8 + i := ⟨b - 8, by omega⟩
      cases hi : e.results[i]? with
      | none =>
        left
        rw [hmask _ hb]
        refine ⟨fun k r hk hr => ?_, Or.inr (by omega)⟩
        obtain rfl : i = k := by omega
        rw [hi] at hr
        cases hr
      | some r =>
        have hlt : i < 16 := lt_of_lt_of_le (List.getElem?_eq_some_iff.mp hi).1 hlen
        by_cases hdc : r = .fbDontCare
        · left
          rw [hmask _ hb]
          refine ⟨fun k q hk hq => ?_, Or.inr (by omega)⟩
          obtain rfl : i = k := by omega
          exact (Option.some.inj (hi.symm.trans hq)) ▸ hdc
        · right
          rw [getLsbD_fullInput2_conditions _ _ _ _ _ hlt, Bool.eq_iff_iff, hvalue,
            hhigh _ (by omega)]
          have hr := hres i r hi
          constructor
          · intro ht
            refine Or.inl ⟨i, rfl, ?_⟩
            cases r with
            | fbTrue => exact hi
            | fbDontCare => exact absurd rfl hdc
            | fbFalse => exact absurd ht (Bool.eq_false_iff.mp hr)
            | fbExact => exact hr.elim
          · rintro (⟨k, hk, hi'⟩ | ⟨-, ht⟩)
            · obtain rfl : i = k := by omega
              obtain rfl := Option.some.inj (hi.symm.trans hi')
              exact hr
            · cases ht

/-! ## All rows -/

/-- A row with register conditions only. -/
structure RegisterRow (n : ℕ) (e : Entry) : Prop where
  length : e.results.length = n
  noExact : .fbExact ∉ e.results
  state : e.state < 256

/-- Writing one row. -/
theorem writeTcam2Entry_register (hfs : List HeaderField) {n : ℕ} (hn : n ≤ 16) {e : Entry}
    (he : RegisterRow n e) (i : Fin 32) :
    ∃ ws entry, writeTcam2Entry hfs (List.replicate n .register) i e.state e.results = some ws ∧
      (∀ c : CamReg, (c.program ws).cam2 = Function.update c.cam2 i (some entry)) ∧
      ∀ o3 o2 o1 conditions state,
        entryMatches entry (fullInput2 o3 o2 o1 conditions state) = true ↔
          Covers e conditions state := by
  obtain ⟨w, hpack, hpacked⟩ := packResults_register hfs he.noExact Words.start he.length.le
  refine ⟨(w.putState e.state).writes i, entryOf (w.putState e.state), ?_, ?_, ?_⟩
  · unfold writeTcam2Entry
    rw [hpack]
    rfl
  · exact fun c => c.program_writes _ i
  · exact entryMatches_row hpacked he.noExact (he.length.le.trans hn) he.state

/-- A program is run in order. -/
theorem CamReg.program_append (c : CamReg) (ws ws' : List (ℕ × ℕ)) :
    c.program (ws ++ ws') = (c.program ws).program ws' := by
  unfold program
  exact List.foldl_append

/-- **Writing all rows** from an address on: each gets the entry at its
place, and the other entries stay. -/
theorem writeTcam2_register (hfs : List HeaderField) {n : ℕ} (hn : n ≤ 16) {entries : List Entry}
    (hentries : ∀ e ∈ entries, RegisterRow n e) {i : ℕ} (hi : i + entries.length ≤ 32) :
    ∃ ws, writeTcam2 hfs (List.replicate n .register) i entries = some ws ∧
      ∀ c : CamReg, ∀ k : Fin 32,
        (k.val < i ∨ i + entries.length ≤ k.val → (c.program ws).cam2 k = c.cam2 k) ∧
        ∀ e, i ≤ k.val → entries[k.val - i]? = some e →
          ∃ entry, (c.program ws).cam2 k = some entry ∧
            ∀ o3 o2 o1 conditions state,
              entryMatches entry (fullInput2 o3 o2 o1 conditions state) = true ↔
                Covers e conditions state := by
  induction entries generalizing i with
  | nil => exact ⟨[], rfl, fun c k => ⟨fun _ => rfl, fun e _ he => by simp at he⟩⟩
  | cons e₀ entries ih =>
    rw [List.length_cons] at hi
    have hlen : i + 1 + entries.length ≤ 32 := by omega
    obtain ⟨ws₀, entry₀, hws₀, hone, hmatch⟩ :=
      writeTcam2Entry_register hfs hn (hentries e₀ List.mem_cons_self) ⟨i, by omega⟩
    obtain ⟨ws, hws, hrest⟩ :=
      ih (fun e he => hentries e (List.mem_cons_of_mem _ he)) hlen
    refine ⟨ws₀ ++ ws, ?_, fun c k => ⟨fun hk => ?_, fun e hik he => ?_⟩⟩
    · unfold writeTcam2
      rw [hws₀, Option.bind_some, hws, Option.map_some]
    · rw [List.length_cons] at hk
      rw [CamReg.program_append, ((hrest _ k).1 (by omega)), hone,
        Function.update_of_ne (Fin.ne_of_val_ne (by simp; omega))]
    · rw [CamReg.program_append]
      by_cases hki : k.val = i
      · have hk : k = ⟨i, by omega⟩ := Fin.ext hki
        rw [hki, Nat.sub_self, List.getElem?_cons_zero] at he
        cases he
        refine ⟨entry₀, ?_, hmatch⟩
        rw [((hrest _ k).1 (by omega)), hone, hk, Function.update_self]
      · obtain ⟨m, hm⟩ : ∃ m, k.val - i = m + 1 := ⟨k.val - i - 1, by omega⟩
        rw [hm, List.getElem?_cons_succ] at he
        exact (hrest _ k).2 e (by omega) (by rwa [show k.val - (i + 1) = m by omega])

/-- The first address that holds a match is the place of the first match. -/
theorem map_find?_finRange {α : Type} {q : α → Bool} {xs : List α} {m : ℕ} {p : Fin m → Bool}
    (hlen : xs.length ≤ m) (hp : ∀ k : Fin m, p k = (xs[k.val]?).any q) :
    ((List.finRange m).find? p).map Fin.val = xs.findIdx? q := by
  induction xs generalizing m with
  | nil =>
    have hnone : (List.finRange m).find? p = none :=
      List.find?_eq_none.mpr fun k _ => by simp [hp]
    rw [hnone]
    rfl
  | cons x xs ih =>
    obtain ⟨m, rfl⟩ : ∃ m', m = m' + 1 := ⟨m - 1, by simp at hlen; omega⟩
    have hsucc := ih (p := p ∘ Fin.succ) (Nat.le_of_succ_le_succ hlen) fun k => hp k.succ
    have hzero : p 0 = q x := hp 0
    rw [List.finRange_succ, List.find?_cons, List.findIdx?_cons, hzero]
    cases q x with
    | true => rfl
    | false =>
      rw [List.find?_map, ← hsucc, Option.map_map, Option.map_map]
      rfl

/-- **The row of a packet.** The board presents the number of the first
row that covers the packet. -/
theorem lookup_writeTcam2 (hfs : List HeaderField) {n : ℕ} (hn : n ≤ 16) {entries : List Entry}
    (hentries : ∀ e ∈ entries, RegisterRow n e) (hlen : entries.length ≤ 32) :
    ∃ ws, writeTcam2 hfs (List.replicate n .register) 0 entries = some ws ∧
      ∀ o3 o2 o1 conditions state (p : Entry → Bool),
        (∀ e, p e = true ↔ Covers e conditions state) →
        ((CamReg.initial.program ws).lookup (fullInput2 o3 o2 o1 conditions state)).map
            Fin.val = entries.findIdx? p := by
  have hroom : 0 + entries.length ≤ 32 := by omega
  obtain ⟨ws, hws, hspec⟩ := writeTcam2_register hfs hn hentries hroom
  refine ⟨ws, hws, fun o3 o2 o1 conditions state p hp => map_find?_finRange hlen fun k => ?_⟩
  obtain ⟨hout, hin⟩ := hspec CamReg.initial k
  unfold CamReg.matchLine
  cases he : entries[k.val]? with
  | none =>
    rw [hout (Or.inr (by have := List.getElem?_eq_none_iff.mp he; omega))]
    rfl
  | some e =>
    obtain ⟨entry, hentry, hmatch⟩ := hin e (Nat.zero_le _) he
    rw [hentry, Option.any_some, Bool.eq_iff_iff, hp]
    exact hmatch o3 o2 o1 conditions state

end Hw

end FlowBlaze
