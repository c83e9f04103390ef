import Mathlib.Data.List.TakeWhile
import Mathlib.Data.Nat.Bitwise
/-!
# Numbers in strings — `strtoul`

The C library's `strtoul` in base ten: leading space and a sign are
skipped, digits are read as far as they go, and what follows them is not
looked at. A number that does not fit sets `ERANGE`, and a string without
digits leaves the end pointer at its start.
-/

namespace FlowBlaze

namespace Common

/-- `isspace`. -/
def isspace (c : Char) : Bool := c.toNat == 32 || (9 ≤ c.toNat && c.toNat ≤ 13)

/-- The sign, and what follows it. -/
def sign : List Char → Bool × List Char
  | '-' :: cs => (true, cs)
  | '+' :: cs => (false, cs)
  | cs => (false, cs)

/-- `strtoul(s, &endptr, 10)`, and whether it set `ERANGE`; `none` when no
digit was read. -/
def strtoul (s : String) : Option (BitVec 64 × Bool) :=
  let signed := sign (s.toList.dropWhile isspace)
  let digits := signed.2.takeWhile Char.isDigit
  let n := Nat.ofDigitChars 10 digits 0
  if digits = [] then none
  else if n < 2 ^ 64 then
    some (if signed.1 then -BitVec.ofNat 64 n else BitVec.ofNat 64 n, false)
  else some (BitVec.allOnes 64, true)

variable {c : Char} {cs : List Char} {s : String}

theorem isDigit_iff : c.isDigit = true ↔ 48 ≤ c.toNat ∧ c.toNat ≤ 57 := by
  simp only [Char.isDigit, Bool.and_eq_true, decide_eq_true_eq, ge_iff_le, UInt32.le_iff_toNat_le]
  rfl

/-- A digit is no space. -/
theorem isspace_of_isDigit (h : c.isDigit = true) : isspace c = false := by
  obtain ⟨hlo, hhi⟩ := isDigit_iff.mp h
  unfold isspace
  simp only [Bool.or_eq_false_iff, beq_eq_false_iff_ne, Bool.and_eq_false_iff,
    decide_eq_false_iff_not]
  omega

/-- A digit is no sign. -/
theorem sign_of_isDigit (h : c.isDigit = true) : sign (c :: cs) = (false, c :: cs) := by
  unfold sign
  split
  · next heq =>
    cases heq
    exact absurd h (by decide)
  · next heq =>
    cases heq
    exact absurd h (by decide)
  · rfl

/-- **A string of digits** is read to its end. -/
theorem strtoul_of_digits (hne : s.toList ≠ []) (hdigits : ∀ c ∈ s.toList, c.isDigit = true) :
    strtoul s =
      if Nat.ofDigitChars 10 s.toList 0 < 2 ^ 64 then
        some (BitVec.ofNat 64 (Nat.ofDigitChars 10 s.toList 0), false)
      else some (BitVec.allOnes 64, true) := by
  unfold strtoul
  generalize s.toList = cs at *
  cases cs with
  | nil => exact absurd rfl hne
  | cons c cs =>
    have hc := hdigits c List.mem_cons_self
    have hspace : (c :: cs).dropWhile isspace = c :: cs :=
      List.dropWhile_cons_of_neg (by rw [isspace_of_isDigit hc]; exact Bool.false_ne_true)
    have hall : (c :: cs).takeWhile Char.isDigit = c :: cs := List.takeWhile_eq_self_iff.mpr hdigits
    rw [hspace, sign_of_isDigit hc]
    dsimp only
    rw [hall, if_neg hne]
    rfl

/-- **A number in decimal** is read back. -/
theorem strtoul_repr {n : ℕ} (h : n < 2 ^ 64) :
    strtoul n.repr = some (BitVec.ofNat 64 n, false) := by
  have hdigits : ∀ c ∈ n.repr.toList, c.isDigit = true := by
    intro c hc
    rw [Nat.toList_repr] at hc
    exact Nat.isDigit_of_mem_toDigits (by decide) (by decide) hc
  rw [strtoul_of_digits (by rw [Nat.toList_repr]; exact Nat.toDigits_ne_nil) hdigits]
  rw [Nat.toList_repr, Nat.ofDigitChars_ten_toDigits, if_pos h]

end Common

end FlowBlaze
