import FlowBlaze.Sw.Loader
/-!
# Numbers parsed or refused

A string of decimal digits with a value of so many bits is stored as it
is. Other strings should be refused; `strtoul` skips space and a sign,
stops at the first character that is no digit, and the check for an
overflow compares with the bounds of a signed number cut to the width, so
a value between the width and 64 bits passes, and at 64 bits every value
does.
-/

namespace FlowBlaze

namespace Sw

open Common

/-- The value of a non-empty string of decimal digits. -/
def decimalValue (s : String) : Option ℕ :=
  if s.toList ≠ [] ∧ s.toList.all Char.isDigit = true then
    some (Nat.ofDigitChars 10 s.toList 0)
  else none

/-- A number of so many bits, in decimal digits. -/
def exactNumber (w : ℕ) (s : String) : Option (BitVec w) :=
  (decimalValue s).bind fun n => if n < 2 ^ w then some (BitVec.ofNat w n) else none

/-- **A number is parsed exactly or refused.** -/
def ParsesExactly (w : ℕ) (s : String) : Prop := strToUint w s = exactNumber w s

/-- The digits behind the space and the sign that a string begins with. -/
def leadingDigits (s : String) : List Char :=
  (sign (s.toList.dropWhile isspace)).2.takeWhile Char.isDigit

/-! ## What is refused -/

section Refused

variable {w : ℕ} {s : String}

/-- A string without digits where a number begins is refused. -/
theorem strToUint_of_leadingDigits_eq_nil (h : leadingDigits s = []) :
    strToUint w s = none := by
  unfold strToUint strtoul
  unfold leadingDigits at h
  dsimp only
  rw [if_pos h]
  rfl

/-- **What becomes of the digits** that a string begins with, as far as
they fit 64 bits. -/
theorem strToUint_of_lt (hne : leadingDigits s ≠ [])
    (hlt : Nat.ofDigitChars 10 (leadingDigits s) 0 < 2 ^ 64) :
    (strToUint w s).isSome = true := by
  unfold strToUint strtoul
  unfold leadingDigits at hne hlt
  dsimp only
  rw [if_neg hne, if_pos hlt, Option.bind_some, if_neg (fun h => Bool.false_ne_true h.1)]
  rfl

/-- A number that does not fit 64 bits is refused where the cut bound of a
signed number has all bits set, and taken for the largest one else. -/
theorem strToUint_of_ge (hw : w = 8 ∨ w = 32 ∨ w = 64) (hne : leadingDigits s ≠ [])
    (hge : ¬Nat.ofDigitChars 10 (leadingDigits s) 0 < 2 ^ 64) :
    strToUint w s = none ↔ w ≠ 64 := by
  have hoverflow : strtoul s = some (BitVec.allOnes 64, true) := by
    unfold strtoul
    unfold leadingDigits at hne hge
    dsimp only
    rw [if_neg hne, if_neg hge]
  unfold strToUint
  rw [hoverflow, Option.bind_some]
  rcases hw with rfl | rfl | rfl <;> decide

end Refused

/-! ## Digits only -/

section Digits

variable {w n : ℕ} {s : String}

theorem decimalValue_eq_some_iff :
    decimalValue s = some n ↔ s.toList ≠ [] ∧ (∀ c ∈ s.toList, c.isDigit = true) ∧
      Nat.ofDigitChars 10 s.toList 0 = n := by
  unfold decimalValue
  rw [Option.ite_none_right_eq_some, List.all_eq_true, Option.some.injEq, and_assoc]

/-- **A number that fits is stored** as it is. -/
theorem strToUint_of_decimalValue (hw : w = 8 ∨ w = 32 ∨ w = 64)
    (h : decimalValue s = some n) (hn : n < 2 ^ w) :
    strToUint w s = some (BitVec.ofNat w n) := by
  obtain ⟨hne, hdigits, rfl⟩ := decimalValue_eq_some_iff.mp h
  have hle : 2 ^ w ≤ 2 ^ 64 := by rcases hw with rfl | rfl | rfl <;> decide
  unfold strToUint
  rw [strtoul_of_digits hne hdigits, if_pos (hn.trans_le hle), Option.bind_some]
  refine (if_neg fun h => Bool.false_ne_true h.1).trans ?_
  refine congrArg some (BitVec.eq_of_toNat_eq ?_)
  rw [BitVec.toNat_setWidth, BitVec.toNat_ofNat, BitVec.toNat_ofNat,
    Nat.mod_eq_of_lt (hn.trans_le hle)]

end Digits

/-- **When a number is parsed exactly or refused**: the string is a number
that fits, or no number begins it, or at eight and 32 bits the number that
begins it does not fit even 64 bits. -/
theorem parsesExactly_iff {w : ℕ} (hw : w = 8 ∨ w = 32 ∨ w = 64) (s : String) :
    ParsesExactly w s ↔
      (∃ n, decimalValue s = some n ∧ n < 2 ^ w) ∨ leadingDigits s = [] ∨
        (w ≠ 64 ∧ ¬Nat.ofDigitChars 10 (leadingDigits s) 0 < 2 ^ 64) := by
  unfold ParsesExactly exactNumber
  by_cases hfits : ∃ n, decimalValue s = some n ∧ n < 2 ^ w
  · obtain ⟨n, hvalue, hn⟩ := hfits
    rw [strToUint_of_decimalValue hw hvalue hn, hvalue, Option.bind_some, if_pos hn]
    exact iff_of_true rfl (.inl ⟨n, rfl, hn⟩)
  · have hrefuse : ((decimalValue s).bind fun n =>
        if n < 2 ^ w then some (BitVec.ofNat w n) else none) = none := by
      cases hvalue : decimalValue s with
      | none => rfl
      | some n => exact if_neg fun hn => hfits ⟨n, hvalue, hn⟩
    -- what does not fit has to be refused
    rw [hrefuse]
    by_cases hne : leadingDigits s = []
    · exact iff_of_true (strToUint_of_leadingDigits_eq_nil hne) (.inr (.inl hne))
    · by_cases hlt : Nat.ofDigitChars 10 (leadingDigits s) 0 < 2 ^ 64
      · have hsome := strToUint_of_lt (w := w) hne hlt
        refine iff_of_false (fun h => ?_) ?_
        · rw [h] at hsome
          cases hsome
        · rintro (h | h | ⟨-, h⟩)
          · exact hfits h
          · exact hne h
          · exact h hlt
      · rw [strToUint_of_ge hw hne hlt]
        constructor
        · exact fun h => .inr (.inr ⟨h, hlt⟩)
        · rintro (h | h | ⟨h, -⟩)
          · exact absurd h hfits
          · exact absurd h hne
          · exact h

/-- The largest byte **is parsed** as it is, and what is no number is
refused. -/
theorem parsesExactly_255 :
    (strToUint 8 "255" = some 255 ∧ ParsesExactly 8 "255") ∧
      (strToUint 8 " +x5" = none ∧ ParsesExactly 8 " +x5") :=
  ⟨⟨by decide, (parsesExactly_iff (.inl rfl) "255").mpr (.inl ⟨255, by decide, by decide⟩)⟩,
    by decide, (parsesExactly_iff (.inl rfl) " +x5").mpr (.inr (.inl (by decide)))⟩

/-- **A byte of 256** is accepted as zero. -/
theorem not_parsesExactly : strToUint 8 "256" = some 0 ∧ ¬ParsesExactly 8 "256" := by
  have hzero : strToUint 8 "256" = some 0 := by decide
  refine ⟨hzero, fun h => ?_⟩
  unfold ParsesExactly at h
  rw [hzero] at h
  revert h
  decide

end Sw

end FlowBlaze
