import Mathlib.Algebra.Order.Ring.Defs
import Mathlib.Data.Nat.Cast.Order.Ring
import Mathlib.Tactic.Linarith
import Mathlib.Tactic.Ring
/-!
# Sliding windows

A rate limiter of one number: what arrives no later than `tmin` is
refused. What is accepted moves `tmin` by a period, or more if it arrived
late: `tmin` is never more than a burst before the last arrival. What is
accepted in an interval is bounded by the length of the interval.

Nothing is asked of the order of the arrivals.
-/

namespace FlowBlaze

namespace Common

namespace SlidingWindow

variable {α : Type} [CommRing α] [LinearOrder α] [IsStrictOrderedRing α] {burst period : α}

/-- An arrival: `none` if it is refused, and otherwise what becomes of
`tmin`. -/
def arrive (burst period tmin now : α) : Option α :=
  if now ≤ tmin then none
  else some (if now ≤ tmin + (burst + period) then tmin + period else now - burst)

/-- **Arrivals in turn**: which of them are accepted. -/
def accepts (burst period : α) : α → List α → List Bool
  | _, [] => []
  | tmin, now :: arrivals =>
    match arrive burst period tmin now with
    | none => false :: accepts burst period tmin arrivals
    | some tmin' => true :: accepts burst period tmin' arrivals

/-- An arrival that was accepted in an interval. -/
def acceptedIn (first last : α) (arrival : α × Bool) : Bool :=
  arrival.2 && decide (first ≤ arrival.1) && decide (arrival.1 ≤ last)

variable {tmin tmin' now first last : α}

/-- **An accepted arrival** moves `tmin` by a period at least, and is no
more than a burst after it. -/
theorem of_arrive (h : arrive burst period tmin now = some tmin') :
    tmin < now ∧ tmin + period ≤ tmin' ∧ now - burst ≤ tmin' := by
  unfold arrive at h
  split at h
  · cases h
  · next hlate =>
    have hlt := lt_of_not_ge hlate
    cases h
    split
    · next hin => exact ⟨hlt, le_rfl, by linarith⟩
    · next hafter =>
      have hlt' := lt_of_not_ge hafter
      exact ⟨hlt, by linarith, le_rfl⟩

/-- The number of arrivals accepted until some time. -/
theorem count_until (hperiod : 0 < period) (arrivals : List α) (tmin : α)
    (hsome : 0 < (arrivals.zip (accepts burst period tmin arrivals)).countP
      (acceptedIn first last)) :
    tmin + ((arrivals.zip (accepts burst period tmin arrivals)).countP
      (acceptedIn first last) : α) * period < last + period := by
  induction arrivals generalizing tmin with
  | nil => exact absurd hsome (lt_irrefl 0)
  | cons now arrivals ih =>
    unfold accepts at hsome ⊢
    cases harrive : arrive burst period tmin now with
    | none =>
      rw [harrive] at hsome
      simp only [List.zip_cons_cons, acceptedIn, Bool.false_and, List.countP_cons_of_neg,
        Bool.false_eq_true, not_false_eq_true] at hsome ⊢
      exact ih tmin hsome
    | some tmin' =>
      rw [harrive] at hsome
      obtain ⟨hlt, hmoved, -⟩ := of_arrive harrive
      simp only [List.zip_cons_cons] at hsome ⊢
      have hrest := ih tmin'
      generalize hn : (arrivals.zip (accepts burst period tmin' arrivals)).countP
        (acceptedIn first last) = n at hrest hsome ⊢
      by_cases hin : acceptedIn first last (now, true) = true
      · have hlast : now ≤ last := by
          simp only [acceptedIn, Bool.and_eq_true, decide_eq_true_eq] at hin
          exact hin.2
        rw [List.countP_cons_of_pos hin, hn]
        push_cast
        rcases Nat.eq_zero_or_pos n with h0 | hpos
        · rw [h0]
          push_cast
          linarith
        · have := hrest hpos
          linarith
      · rw [List.countP_cons_of_neg hin, hn] at hsome ⊢
        have := hrest hsome
        linarith

/-- **What is accepted in an interval** of some length is less than the
length and the burst have periods, and two. -/
theorem count_interval (hburst : 0 ≤ burst) (hperiod : 0 < period) {length : α}
    (hlength : 0 ≤ length) (arrivals : List α) (tmin first : α) :
    ((arrivals.zip (accepts burst period tmin arrivals)).countP
      (acceptedIn first (first + length)) : α) * period < length + burst + 2 * period := by
  induction arrivals generalizing tmin with
  | nil =>
    simp only [accepts, List.zip_nil_right, List.countP_nil, Nat.cast_zero, zero_mul]
    linarith
  | cons now arrivals ih =>
    unfold accepts
    cases harrive : arrive burst period tmin now with
    | none =>
      simp only [List.zip_cons_cons, acceptedIn, Bool.false_and, List.countP_cons_of_neg,
        Bool.false_eq_true, not_false_eq_true]
      exact ih tmin
    | some tmin' =>
      obtain ⟨-, -, hwindow⟩ := of_arrive harrive
      simp only [List.zip_cons_cons]
      by_cases hin : acceptedIn first (first + length) (now, true) = true
      · have hfirst : first ≤ now := by
          simp only [acceptedIn, Bool.and_eq_true, decide_eq_true_eq] at hin
          exact hin.1.2
        have hrest := @count_until _ _ _ _ burst period first (first + length) hperiod
          arrivals tmin'
        rw [List.countP_cons_of_pos hin]
        generalize (arrivals.zip (accepts burst period tmin' arrivals)).countP
          (acceptedIn first (first + length)) = n at hrest ⊢
        push_cast
        rcases Nat.eq_zero_or_pos n with h0 | hpos
        · rw [h0]
          push_cast
          linarith
        · have := hrest hpos
          linarith
      · rw [List.countP_cons_of_neg hin]
        exact ih tmin'

end SlidingWindow

end Common

end FlowBlaze
