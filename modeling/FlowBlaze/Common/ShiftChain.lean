import Mathlib.Data.Nat.Count
/-!
# A chain of registers with an enable

In an enabled cycle every value moves one place on and the first place
takes the input; in the other cycles nothing moves. What stands where is
a matter of counting: a value that entered in one cycle stands at the
place that is the number of enabled cycles since (`chain_eq_input`).
-/

namespace FlowBlaze

namespace Common

variable {α : Type*} (enable : ℕ → Bool) (input : ℕ → α) (init : α)

/-- What the places hold in each cycle. -/
def chain : ℕ → ℕ → α
  | 0, _ => init
  | t + 1, 0 => if enable t then input t else chain t 0
  | t + 1, k + 1 => if enable t then chain t k else chain t (k + 1)

/-- The enabled cycles from one cycle up to, but not including, another. -/
def moves (s t : ℕ) : ℕ :=
  Nat.count (fun i => enable i = true) t - Nat.count (fun i => enable i = true) s

variable {enable} {s m t k : ℕ}

@[simp] theorem moves_self : moves enable s s = 0 := Nat.sub_self _

/-- Enabled cycles add up. -/
theorem moves_add (hs : s ≤ m) (hm : m ≤ t) :
    moves enable s m + moves enable m t = moves enable s t := by
  have h₁ := Nat.count_monotone (fun i => enable i = true) hs
  have h₂ := Nat.count_monotone (fun i => enable i = true) hm
  unfold moves
  omega

/-- One more cycle. -/
theorem moves_succ (h : s ≤ t) :
    moves enable s (t + 1) = moves enable s t + if enable t then 1 else 0 := by
  have hm := Nat.count_monotone (fun i => enable i = true) h
  unfold moves
  rw [Nat.count_succ]
  omega

/-- An enabled cycle is one more. -/
theorem moves_succ_of_enabled (h : s ≤ t) (he : enable t = true) :
    moves enable s (t + 1) = moves enable s t + 1 := by
  rw [moves_succ h, if_pos he]

/-- A cycle that is not enabled changes nothing. -/
theorem moves_succ_of_disabled (h : s ≤ t) (he : enable t = false) :
    moves enable s (t + 1) = moves enable s t := by
  rw [moves_succ h, if_neg (by rw [he]; exact Bool.false_ne_true), Nat.add_zero]

/-- More cycles, more enabled ones. -/
theorem moves_mono (h : m ≤ t) : moves enable s m ≤ moves enable s t :=
  Nat.sub_le_sub_right (Nat.count_monotone _ h) _

/-- No more enabled cycles than cycles. -/
theorem moves_le (h : s ≤ t) : moves enable s t ≤ t - s := by
  induction t, h using Nat.le_induction with
  | base => simp
  | succ t h ih =>
    rw [moves_succ h]
    split <;> omega

/-- Where every cycle is enabled, all of them count. -/
theorem moves_of_enabled (h : s ≤ t) (he : ∀ i, s ≤ i → i < t → enable i = true) :
    moves enable s t = t - s := by
  induction t, h using Nat.le_induction with
  | base => simp
  | succ t h ih =>
    rw [moves_succ_of_enabled h (he t h (Nat.lt_succ_self t)),
      ih fun i hi hit => he i hi (Nat.lt_succ_of_lt hit)]
    omega

/-- Where no cycle is enabled, none counts. -/
theorem moves_of_disabled (h : s ≤ t) (he : ∀ i, s ≤ i → i < t → enable i = false) :
    moves enable s t = 0 := by
  induction t, h using Nat.le_induction with
  | base => simp
  | succ t h ih =>
    rw [moves_succ_of_disabled h (he t h (Nat.lt_succ_self t)),
      ih fun i hi hit => he i hi (Nat.lt_succ_of_lt hit)]

/-- The cycles that are not enabled. -/
def still (enable : ℕ → Bool) (s t : ℕ) : ℕ := t - s - moves enable s t

/-- Every cycle is enabled or not. -/
theorem moves_add_still (h : s ≤ t) : s + moves enable s t + still enable s t = t := by
  have hle := @moves_le enable s t h
  unfold still
  omega

variable {input init}

/-- **Where a value stands.** What entered in an enabled cycle stands at
the place that is the number of enabled cycles since. -/
theorem chain_eq_input (hs : enable s = true) (hst : s < t)
    (hk : moves enable s t = k + 1) : chain enable input init t k = input s := by
  induction t, hst using Nat.le_induction generalizing k with
  | base =>
    rw [moves_succ_of_enabled (Nat.le_refl s) hs, moves_self] at hk
    obtain rfl : k = 0 := by omega
    simp [chain, hs]
  | succ t hst ih =>
    have hpos : 1 ≤ moves enable s t := by
      have hone : moves enable s (s + 1) = 1 := by
        rw [moves_succ_of_enabled (Nat.le_refl s) hs, moves_self]
      rw [← hone]
      exact moves_mono hst
    cases he : enable t with
    | false =>
      rw [moves_succ_of_disabled (by omega) he] at hk
      cases k with
      | zero => simp [chain, he, ih hk]
      | succ k => simp [chain, he, ih hk]
    | true =>
      rw [moves_succ_of_enabled (by omega) he] at hk
      cases k with
      | zero => omega
      | succ k => simp [chain, he, ih (by omega : moves enable s t = k + 1)]

/-- **Where a value comes from.** A place holds its initial value, or what
entered in an enabled cycle. -/
theorem chain_cases (t k : ℕ) : (moves enable 0 t ≤ k ∧ chain enable input init t k = init) ∨
    ∃ s < t, enable s = true ∧ moves enable s t = k + 1 ∧
      chain enable input init t k = input s := by
  induction t generalizing k with
  | zero => exact .inl ⟨by simp, by simp [chain]⟩
  | succ t ih =>
    cases he : enable t with
    | false =>
      have hchain : chain enable input init (t + 1) k = chain enable input init t k := by
        cases k <;> simp [chain, he]
      rw [hchain]
      rcases ih k with ⟨hm, hk⟩ | ⟨s, hs, hes, hm, hk⟩
      · exact .inl ⟨by rwa [moves_succ_of_disabled (Nat.zero_le t) he], hk⟩
      · exact .inr ⟨s, by omega, hes, by rwa [moves_succ_of_disabled (by omega) he], hk⟩
    | true =>
      cases k with
      | zero =>
        refine .inr ⟨t, Nat.lt_succ_self t, he, ?_, by simp [chain, he]⟩
        rw [moves_succ_of_enabled (Nat.le_refl t) he, moves_self]
      | succ k =>
        have hchain : chain enable input init (t + 1) (k + 1) = chain enable input init t k := by
          simp [chain, he]
        rw [hchain]
        rcases ih k with ⟨hm, hk⟩ | ⟨s, hs, hes, hm, hk⟩
        · exact .inl ⟨by rw [moves_succ_of_enabled (Nat.zero_le t) he]; omega, hk⟩
        · refine .inr ⟨s, by omega, hes, ?_, hk⟩
          rw [moves_succ_of_enabled (by omega) he, hm]

end Common

end FlowBlaze
