import FlowBlaze.Common.BitVectors
import FlowBlaze.Common.CellLoop
import Mathlib.Data.List.FinRange
import Mathlib.Data.Nat.Bitwise
import Mathlib.Tactic.Ring
/-!
# The address of a match — `cam_match_enc.vhd`

The lines of the entries that match are turned round and reduced in pairs:
a cell says whether there is a match in its block, and at which of the
block's places the last one is. Turned back, that is the first entry that
matches.

`C_ADDR_TYPE` is binary, `C_MATCH_RESOLUTION_TYPE` the lowest match,
`C_MEM_TYPE` the shift registers, and there is no `MULTIPLE_MATCH` and no
`SINGLE_MATCH`, as in the core.
-/

namespace FlowBlaze

namespace Hw

open Common

/-! ## The process -/

/-- A place of `matches_red` and of `bin_matches_tmp`, by its bits. -/
structure BinCell where
  matchesRed : Bool
  binMatches : ℕ → Bool

/-- `matches_i`: the lines, the last one first. -/
def matchesI (depth : ℕ) (lines : ℕ → Bool) (i : ℕ) : Bool := lines (depth - 1 - i)

/-- `matches_s`: filled up to a power of two, from below. -/
def matchesS (w depth : ℕ) (lines : ℕ → Bool) (i : ℕ) : Bool :=
  if 2 ^ w - depth ≤ i then matchesI depth lines (i - (2 ^ w - depth)) else false

/-- `in_pr_bin_loop`: the pairs. -/
def inPrBinLoop (s : ℕ → Bool) (j : ℕ) : BinCell where
  matchesRed := s (j * 2) || s (j * 2 + 1)
  binMatches b := if b = 0 then s (j * 2 + 1) else false

/-- What the body of `in_bin_loop` makes of two cells. -/
def binStep (i : ℕ) (low high : BinCell) : BinCell where
  matchesRed := low.matchesRed || high.matchesRed
  binMatches b :=
    if b = i then high.matchesRed
    else if b < i then if high.matchesRed then high.binMatches b else low.binMatches b
    else low.binMatches b

/-- `in_bin_loop`, with `step` two to the power of `i`. -/
def inBinLoop (w i : ℕ) (cells : ℕ → BinCell) : ℕ → BinCell :=
  cellLoop (fun j => j * 2 ^ i)
    (fun j cells => binStep i (cells (j * 2 ^ i)) (cells (j * 2 ^ i + 2 ^ i / 2)))
    (2 ^ w / (2 * 2 ^ i)) cells

/-- `out_bin_loop`, for `i` from 1 to a number. -/
def outBinLoop (w : ℕ) (s : ℕ → Bool) : ℕ → ℕ → BinCell
  | 0 => inPrBinLoop s
  | i + 1 => inBinLoop w (i + 1) (outBinLoop w s i)

/-- `bin_proc`. -/
def binProc (w : ℕ) (s : ℕ → Bool) : BinCell := outBinLoop w s (w - 1) 0

/-- The lines by number. -/
def lineOf {depth : ℕ} (lines : Fin depth → Bool) (k : ℕ) : Bool :=
  if h : k < depth then lines ⟨k, h⟩ else false

/-- **`MATCH`**, before its register. -/
def matchBfReg (w : ℕ) {depth : ℕ} (lines : Fin depth → Bool) : Bool :=
  (binProc w (matchesS w depth (lineOf lines))).matchesRed

/-- **`MATCH_ADDR_BIN`**, before its register: the address found, turned back. -/
def matchAddrBinBfReg (w : ℕ) {depth : ℕ} (lines : Fin depth → Bool) : BitVec w :=
  ~~~ vectorOf (binProc w (matchesS w depth (lineOf lines))).binMatches w

/-! ## Blocks -/

/-- The last match of a block of `2 ^ i` places. -/
def LastIn (s : ℕ → Bool) (base i last : ℕ) : Prop :=
  base ≤ last ∧ last < base + 2 ^ i ∧ s last = true ∧
    ∀ b, last < b → b < base + 2 ^ i → s b = false

/-- **A cell stands for a block**: it says whether there is a match in the
block, and its bits are the low ones of the place of the last match. -/
structure Reduced (s : ℕ → Bool) (base i : ℕ) (cell : BinCell) : Prop where
  none : cell.matchesRed = false → (∀ b, base ≤ b → b < base + 2 ^ i → s b = false) ∧
    ∀ k < i, cell.binMatches k = false
  some : cell.matchesRed = true → ∃ last, LastIn s base i last ∧
    ∀ k < i, cell.binMatches k = last.testBit k

variable {s : ℕ → Bool} {w i j base : ℕ} {low high : BinCell}

/-- A bit of a number in a block of blocks. -/
theorem testBit_of_block {n m : ℕ} (hle : m * 2 ^ i ≤ n) (hlt : n < (m + 1) * 2 ^ i) :
    n.testBit i = decide (m % 2 = 1) := by
  have hdiv : n / 2 ^ i = m := Nat.div_eq_of_lt_le hle hlt
  rw [Nat.testBit_eq_decide_div_mod_eq, hdiv]

/-- The pairs. -/
theorem reduced_inPrBinLoop (s : ℕ → Bool) (j : ℕ) : Reduced s (j * 2) 1 (inPrBinLoop s j) := by
  have hzero : ∀ k < 1, k = 0 := fun k hk => by omega
  have hbits : (j * 2).testBit 0 = false ∧ (j * 2 + 1).testBit 0 = true := by
    simp [Nat.testBit_zero]
  cases hhigh : s (j * 2 + 1) with
  | true =>
    refine ⟨fun h => ?_, fun _ => ⟨j * 2 + 1, ⟨by omega, by omega, hhigh, fun b h1 h2 => ?_⟩,
      fun k hk => ?_⟩⟩
    · simp [inPrBinLoop, hhigh] at h
    · omega
    · obtain rfl := hzero k hk
      rw [hbits.2]
      exact hhigh
  | false =>
    cases hlow : s (j * 2) with
    | true =>
      refine ⟨fun h => ?_, fun _ => ⟨j * 2, ⟨by omega, by omega, hlow, fun b h1 h2 => ?_⟩,
        fun k hk => ?_⟩⟩
      · simp [inPrBinLoop, hlow] at h
      · obtain rfl : b = j * 2 + 1 := by omega
        exact hhigh
      · obtain rfl := hzero k hk
        rw [hbits.1]
        exact hhigh
    | false =>
      refine ⟨fun _ => ⟨fun b h1 h2 => ?_, fun k hk => ?_⟩, fun h => ?_⟩
      · obtain rfl | rfl : b = j * 2 ∨ b = j * 2 + 1 := by omega
        · exact hlow
        · exact hhigh
      · obtain rfl := hzero k hk
        exact hhigh
      · simp [inPrBinLoop, hlow, hhigh] at h

/-- **Two blocks are one.** -/
theorem reduced_binStep (hlow : Reduced s (j * 2 * 2 ^ i) i low)
    (hhigh : Reduced s ((j * 2 + 1) * 2 ^ i) i high) :
    Reduced s (j * 2 ^ (i + 1)) (i + 1) (binStep i low high) := by
  have hpow : 2 ^ (i + 1) = 2 ^ i + 2 ^ i := by rw [pow_succ]; omega
  have hbase : j * 2 ^ (i + 1) = j * 2 * 2 ^ i := by rw [pow_succ]; ring
  have hmid : (j * 2 + 1) * 2 ^ i = j * 2 * 2 ^ i + 2 ^ i := by ring
  rw [hbase]
  cases hh : high.matchesRed with
  | true =>
    -- the last match is in the upper block
    obtain ⟨last, ⟨hle, hlt, hs, hafter⟩, hbits⟩ := hhigh.some hh
    refine ⟨fun h => ?_,
      fun _ => ⟨last, ⟨by omega, by omega, hs, fun b h1 h2 => ?_⟩, fun k hk => ?_⟩⟩
    · simp [binStep, hh] at h
    · exact hafter b h1 (by omega)
    · have htop : last.testBit i = true := by
        rw [testBit_of_block hle (by rw [Nat.add_mul, Nat.one_mul]; exact hlt)]
        simp
      by_cases hki : k = i
      · subst hki
        simp [binStep, hh, htop]
      · have hlt' : k < i := by omega
        simp [binStep, hh, hki, hlt', hbits k hlt']
  | false =>
    obtain ⟨hempty, -⟩ := hhigh.none hh
    cases hl : low.matchesRed with
    | true =>
      obtain ⟨last, ⟨hle, hlt, hs, hafter⟩, hbits⟩ := hlow.some hl
      refine ⟨fun h => ?_, fun _ => ⟨last, ⟨by omega, by omega, hs, fun b h1 h2 => ?_⟩,
        fun k hk => ?_⟩⟩
      · simp [binStep, hl] at h
      · by_cases hb : b < j * 2 * 2 ^ i + 2 ^ i
        · exact hafter b h1 hb
        · exact hempty b (by omega) (by omega)
      · have htop : last.testBit i = false := by
          rw [testBit_of_block hle (by rw [Nat.add_mul, Nat.one_mul]; exact hlt)]
          simp
        by_cases hki : k = i
        · subst hki
          simp [binStep, hh, htop]
        · have hlt' : k < i := by omega
          simp [binStep, hh, hki, hbits k hlt']
    | false =>
      obtain ⟨hempty', hzeros⟩ := hlow.none hl
      refine ⟨fun _ => ⟨fun b h1 h2 => ?_, fun k hk => ?_⟩, fun h => ?_⟩
      · by_cases hb : b < j * 2 * 2 ^ i + 2 ^ i
        · exact hempty' b h1 hb
        · exact hempty b (by omega) (by omega)
      · by_cases hki : k = i
        · subst hki
          simp [binStep, hh]
        · have hlt' : k < i := by omega
          simp [binStep, hh, hki, hzeros k hlt']
      · simp [binStep, hl, hh] at h

/-! ## The loops -/

/-- **One turn of the outer loop** doubles the blocks. -/
theorem inBinLoop_cell {cells : ℕ → BinCell} (hj : j < 2 ^ w / (2 * 2 ^ i)) :
    inBinLoop w i cells (j * 2 ^ i) =
      binStep i (cells (j * 2 ^ i)) (cells (j * 2 ^ i + 2 ^ i / 2)) := by
  have hpos : 0 < 2 ^ i := Nat.two_pow_pos i
  have hhalf : 2 ^ i / 2 < 2 ^ i := Nat.div_lt_self hpos (by decide)
  refine cellLoop_target (fun a b hab h => ?_) (fun k c c' hcc => ?_) hj
  · have := Nat.eq_of_mul_eq_mul_right hpos h
    omega
  · -- what a turn reads lies in its own part
    have hown : ∀ a < k, ∀ r < 2 ^ i, k * 2 ^ i + r ≠ a * 2 ^ i := fun a ha r hr h => by
      have : (a + 1) * 2 ^ i ≤ k * 2 ^ i := Nat.mul_le_mul_right _ ha
      rw [Nat.add_mul] at this
      omega
    rw [hcc (k * 2 ^ i) (fun a ha => hown a ha 0 hpos), hcc _ fun a ha => hown a ha _ hhalf]

/-- **The blocks after some turns.** -/
theorem reduced_outBinLoop (hi : i < w) (hj : j < 2 ^ (w - (i + 1))) :
    Reduced s (j * 2 ^ (i + 1)) (i + 1) (outBinLoop w s i (j * 2 ^ i)) := by
  induction i generalizing j with
  | zero =>
    rw [pow_zero, Nat.mul_one]
    exact reduced_inPrBinLoop s j
  | succ i ih =>
    have hsplit : 2 ^ (w - (i + 1)) = 2 ^ (w - (i + 1 + 1)) * 2 := by
      rw [← pow_succ]
      congr 1
      omega
    have hturns : 2 ^ w / (2 * 2 ^ (i + 1)) = 2 ^ (w - (i + 1 + 1)) := by
      rw [← pow_succ', Nat.pow_div (by omega) (by decide)]
    have hlow := ih (by omega) (j := j * 2) (by omega)
    have hhigh := ih (by omega) (j := j * 2 + 1) (by omega)
    change Reduced s _ _ (inBinLoop w (i + 1) (outBinLoop w s i) (j * 2 ^ (i + 1)))
    rw [inBinLoop_cell (by rw [hturns]; exact hj)]
    have hleft : j * 2 ^ (i + 1) = j * 2 * 2 ^ i := by rw [pow_succ]; ring
    have hright : j * 2 ^ (i + 1) + 2 ^ (i + 1) / 2 = (j * 2 + 1) * 2 ^ i := by
      rw [pow_succ, Nat.mul_div_cancel _ (by decide)]
      ring
    rw [hright, hleft]
    exact reduced_binStep hlow hhigh

/-- **The first cell stands for all places.** -/
theorem reduced_binProc (hw : 0 < w) : Reduced s 0 w (binProc w s) := by
  obtain ⟨v, rfl⟩ : ∃ v, w = v + 1 := ⟨w - 1, by omega⟩
  have h := @reduced_outBinLoop s (v + 1) v 0 (Nat.lt_succ_self v) (Nat.two_pow_pos _)
  rw [Nat.zero_mul, Nat.zero_mul] at h
  exact h

/-! ## The first match -/

section FirstMatch

variable {depth : ℕ} {lines : Fin depth → Bool}

theorem lineOf_val (lines : Fin depth → Bool) (k : Fin depth) : lineOf lines k.val = lines k :=
  dif_pos k.isLt

/-- The lines, turned round. -/
theorem matchesS_sub (hdepth : depth ≤ 2 ^ w) (lines : Fin depth → Bool) (k : Fin depth) :
    matchesS w depth (lineOf lines) (2 ^ w - 1 - k.val) = lines k := by
  have hk := k.isLt
  unfold matchesS matchesI
  rw [if_pos (by omega), ← lineOf_val lines k]
  congr 1
  omega

/-- A place with a match is that of a line. -/
theorem exists_of_matchesS (hdepth : depth ≤ 2 ^ w) {b : ℕ} (hb : b < 2 ^ w)
    (h : matchesS w depth (lineOf lines) b = true) :
    ∃ k : Fin depth, b = 2 ^ w - 1 - k.val ∧ lines k = true := by
  have hle : 2 ^ w - depth ≤ b := by
    by_contra hlt
    rw [matchesS, if_neg hlt] at h
    cases h
  have hlt : 2 ^ w - 1 - b < depth := by omega
  have heq : b = 2 ^ w - 1 - (2 ^ w - 1 - b) := by omega
  refine ⟨⟨2 ^ w - 1 - b, hlt⟩, heq, ?_⟩
  rw [← matchesS_sub hdepth lines ⟨2 ^ w - 1 - b, hlt⟩, ← heq]
  exact h

/-- A bit of the address. -/
theorem getLsbD_matchAddrBinBfReg {k : ℕ} (hk : k < w) :
    (matchAddrBinBfReg w lines).getLsbD k =
      !(binProc w (matchesS w depth (lineOf lines))).binMatches k := by
  unfold matchAddrBinBfReg
  rw [BitVec.getLsbD_not, decide_eq_true hk, Bool.true_and, getLsbD_vectorOf hk]

/-- **The encoder finds the first match.** Without one the address is all
ones. -/
theorem matchEnc_find? (hw : 0 < w) (hdepth : depth ≤ 2 ^ w) :
    matchBfReg w lines = ((List.finRange depth).find? lines).isSome ∧
      matchAddrBinBfReg w lines =
        (((List.finRange depth).find? lines).map fun k => BitVec.ofNat w k.val).getD
          (BitVec.allOnes w) := by
  have hred := @reduced_binProc (matchesS w depth (lineOf lines)) w hw
  cases hm : (binProc w (matchesS w depth (lineOf lines))).matchesRed with
  | false =>
    obtain ⟨hempty, hzeros⟩ := hred.none hm
    have hnone : (List.finRange depth).find? lines = none :=
      List.find?_eq_none.mpr fun k _ => by
        rw [← matchesS_sub hdepth lines k, hempty _ (Nat.zero_le _) (by omega)]
        exact Bool.false_ne_true
    rw [hnone]
    refine ⟨hm, BitVec.eq_of_getLsbD_eq fun k hk => ?_⟩
    rw [getLsbD_matchAddrBinBfReg hk, hzeros k hk]
    simp [hk]
  | true =>
    obtain ⟨last, ⟨-, hlt, hs, hafter⟩, hbits⟩ := hred.some hm
    rw [Nat.zero_add] at hlt hafter
    obtain ⟨k, rfl, hk⟩ := exists_of_matchesS hdepth hlt hs
    have hfirst : (List.finRange depth).find? lines = some k := by
      refine List.find?_eq_some_iff_getElem.mpr ⟨hk, k.val, by simp, by simp, fun i hik => ?_⟩
      rw [List.getElem_finRange, ← matchesS_sub hdepth lines, hafter _ (by simp; omega) (by omega)]
      rfl
    rw [hfirst]
    refine ⟨hm, BitVec.eq_of_getLsbD_eq fun b hb => ?_⟩
    have hkw : k.val < 2 ^ w := Nat.lt_of_lt_of_le k.isLt hdepth
    rw [getLsbD_matchAddrBinBfReg hb, hbits b hb, Nat.sub_sub, Nat.add_comm 1,
      Nat.testBit_two_pow_sub_succ hkw, decide_eq_true hb, Bool.true_and, Bool.not_not,
      Option.map_some, Option.getD_some, BitVec.getLsbD_ofNat, decide_eq_true hb, Bool.true_and]

end FirstMatch

end Hw

end FlowBlaze
