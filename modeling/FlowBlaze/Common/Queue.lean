import Mathlib.Data.List.Forall2
/-!
# Queues over time

In every step of a run some values go into a queue and others come out at
its front. What has come out is then what has gone in, up to what the queue
still holds. Where a value is changed on its way out, the lists correspond
one by one.
-/

namespace FlowBlaze

namespace Common

variable {α β : Type*} {contents ins outs : ℕ → List α}

/-- What a run has put through before a step. -/
def before (xs : ℕ → List α) (n : ℕ) : List α := (List.range n).flatMap xs

@[simp] theorem before_zero (xs : ℕ → List α) : before xs 0 = [] := rfl

theorem before_succ (xs : ℕ → List α) (n : ℕ) : before xs (n + 1) = before xs n ++ xs n := by
  unfold before
  rw [List.range_succ, List.flatMap_append, List.flatMap_singleton]

/-- **Nothing is lost in a queue**, and nothing is duplicated. -/
theorem conserved (hstep : ∀ t, contents t ++ ins t = outs t ++ contents (t + 1)) (n : ℕ) :
    contents 0 ++ before ins n = before outs n ++ contents n := by
  induction n with
  | zero => simp
  | succ n ih =>
    rw [before_succ, before_succ, ← List.append_assoc, ih, List.append_assoc, hstep,
      List.append_assoc]

/-- What a run has put through goes on. -/
theorem exists_before_append {xs : ℕ → List α} {m n : ℕ} (h : m ≤ n) :
    ∃ rest, before xs n = before xs m ++ rest := by
  induction n with
  | zero =>
    obtain rfl : m = 0 := by omega
    exact ⟨[], rfl⟩
  | succ n ih =>
    rcases Nat.lt_or_eq_of_le h with hlt | rfl
    · obtain ⟨rest, hrest⟩ := ih (by omega)
      rw [before_succ, hrest, List.append_assoc]
      exact ⟨_, rfl⟩
    · exact ⟨[], (List.append_nil _).symm⟩

/-! ## One at a time

In every step there is one value, or none, and those of two steps keep a
distance. Then so many values in between take so many steps. -/

/-- **One value at a time**, at a distance. -/
structure KeepDistance (distance : ℕ) (xs : ℕ → List α) : Prop where
  one : ∀ t, (xs t).length ≤ 1
  apart : ∀ s t, s < t → xs s ≠ [] → xs t ≠ [] → s + distance ≤ t

/-- The values since one of them: behind the last of them there are few steps. -/
theorem KeepDistance.length_since {distance s : ℕ} {xs : ℕ → List α} (h : KeepDistance distance xs)
    (hs : xs s ≠ []) {t : ℕ} (hst : s < t) :
    ∃ u, s ≤ u ∧ u < t ∧ xs u ≠ [] ∧
      s + distance * (before xs t).length ≤ u + distance * ((before xs s).length + 1) := by
  induction t with
  | zero => omega
  | succ t ih =>
    rw [before_succ, List.length_append]
    rcases Nat.lt_succ_iff_lt_or_eq.mp hst with hlt | rfl
    · obtain ⟨u, hsu, hut, hu, hlen⟩ := ih hlt
      by_cases ht : xs t = []
      · refine ⟨u, hsu, by omega, hu, ?_⟩
        rw [ht, List.length_nil, Nat.add_zero]
        exact hlen
      · have hdist := h.apart u t hut hu ht
        have hone := h.one t
        refine ⟨t, by omega, Nat.lt_succ_self t, ht, ?_⟩
        have hmul : distance * (xs t).length ≤ distance := by
          calc distance * (xs t).length ≤ distance * 1 := Nat.mul_le_mul_left _ hone
            _ = distance := Nat.mul_one distance
        rw [Nat.mul_add]
        omega
    · refine ⟨s, Nat.le_refl s, Nat.lt_succ_self s, hs, ?_⟩
      have hone := h.one s
      have hmul := Nat.mul_le_mul_left distance
        (Nat.add_le_add_left hone (before xs s).length)
      omega

/-- **Two values with others between them** are far apart. -/
theorem KeepDistance.far {distance s t between : ℕ} {xs : ℕ → List α}
    (h : KeepDistance distance xs) (hst : s < t) (hs : xs s ≠ []) (ht : xs t ≠ [])
    (hbetween : (before xs s).length + 1 + between ≤ (before xs t).length) :
    s + distance * (between + 1) ≤ t := by
  obtain ⟨u, -, hut, hu, hlen⟩ := h.length_since hs hst
  have hdist := h.apart u t hut hu ht
  have hmul := Nat.mul_le_mul_left distance hbetween
  rw [Nat.mul_add] at hmul hlen ⊢
  rw [Nat.mul_add] at hmul
  omega

/-- What is between two of the values, in the list of all. -/
theorem before_eq_of_lt {xs : ℕ → List α} {s t n : ℕ} {a b : α} (hst : s < t) (htn : t < n)
    (ha : xs s = [a]) (hb : xs t = [b]) :
    ∃ middle rest, before xs n = before xs s ++ a :: (middle ++ b :: rest) ∧
      (before xs t).length = (before xs s).length + 1 + middle.length := by
  obtain ⟨middle, hmiddle⟩ := @exists_before_append _ xs (s + 1) t hst
  obtain ⟨rest, hrest⟩ := @exists_before_append _ xs (t + 1) n htn
  rw [before_succ, ha] at hmiddle
  rw [before_succ, hmiddle, hb] at hrest
  refine ⟨middle, rest, ?_, ?_⟩
  · rw [hrest]
    simp
  · rw [hmiddle]
    simp only [List.length_append, List.length_singleton]

/-- What corresponds in each step corresponds over the run. -/
theorem forall₂_before {R : α → β → Prop} {xs : ℕ → List α} {ys : ℕ → List β}
    (hstep : ∀ t, List.Forall₂ R (xs t) (ys t)) (n : ℕ) :
    List.Forall₂ R (before xs n) (before ys n) := by
  induction n with
  | zero => exact .nil
  | succ n ih =>
    rw [before_succ, before_succ]
    exact List.rel_append ih (hstep n)

end Common

end FlowBlaze
