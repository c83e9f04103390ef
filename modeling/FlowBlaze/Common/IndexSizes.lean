import Mathlib.Data.Nat.Notation
/-!
# Sizes of index types

Lanes, ways, words and operands are counted by small types `Fin n`. That
none of these sizes is zero is said here, once and by name, for the
literals of these types.
-/

namespace FlowBlaze

namespace Common

instance neZero_three : @NeZero ℕ Zero.ofOfNat0 3 := ⟨Nat.succ_ne_zero 2⟩

instance neZero_four : @NeZero ℕ Zero.ofOfNat0 4 := ⟨Nat.succ_ne_zero 3⟩

instance neZero_eight : @NeZero ℕ Zero.ofOfNat0 8 := ⟨Nat.succ_ne_zero 7⟩

instance neZero_nine : @NeZero ℕ Zero.ofOfNat0 9 := ⟨Nat.succ_ne_zero 8⟩

end Common

end FlowBlaze
