import Mathlib.Data.Nat.Notation
/-!
# Bit vectors by their bits
-/

namespace FlowBlaze

namespace Common

/-- A vector by its bits, from the low end. -/
def vectorOf (bits : ℕ → Bool) : (w : ℕ) → BitVec w
  | 0 => 0#0
  | w + 1 => BitVec.cons (bits w) (vectorOf bits w)

variable {bits : ℕ → Bool} {w k : ℕ}

theorem getLsbD_vectorOf (hk : k < w) : (vectorOf bits w).getLsbD k = bits k := by
  induction w with
  | zero => exact absurd hk (Nat.not_lt_zero k)
  | succ w ih =>
    rw [vectorOf, BitVec.getLsbD_cons]
    by_cases h : k = w
    · rw [if_pos h, h]
    · rw [if_neg h, ih (by omega)]

end Common

end FlowBlaze
