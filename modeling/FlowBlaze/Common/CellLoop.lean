import Mathlib.Data.List.Range
import Mathlib.Logic.Function.Basic
/-!
# A loop over cells

Every turn of the loop writes one cell of its own. A turn reads the cells as
the turns before it have left them; where it reads none that they have
written, the turns could as well run at once (`cellLoop_target`).
-/

namespace FlowBlaze

namespace Common

variable {ι α : Type*} [DecidableEq ι] (target : ℕ → ι) (f : ℕ → (ι → α) → α)

/-- The turns `0` to `n - 1`, the turn `j` with its own cell `target j`. -/
def cellLoop (n : ℕ) (cells : ι → α) : ι → α :=
  (List.range n).foldl (fun cells j => Function.update cells (target j) (f j cells)) cells

variable {target f} {n j : ℕ} {cells : ι → α}

theorem cellLoop_succ : cellLoop target f (n + 1) cells =
    Function.update (cellLoop target f n cells) (target n) (f n (cellLoop target f n cells)) := by
  unfold cellLoop
  rw [List.range_succ, List.foldl_append]
  rfl

/-- A cell that belongs to no turn stays. -/
theorem cellLoop_of_ne {x : ι} (hx : ∀ j < n, x ≠ target j) :
    cellLoop target f n cells x = cells x := by
  induction n with
  | zero => rfl
  | succ n ih =>
    rw [cellLoop_succ, Function.update_of_ne (hx n (Nat.lt_succ_self n))]
    exact ih fun j hj => hx j (Nat.lt_succ_of_lt hj)

/-- **What a turn leaves**, when no turn before it has written what it reads
and none behind it writes its cell. -/
theorem cellLoop_target (hinj : ∀ i j, i < j → target i ≠ target j)
    (hread : ∀ j cells cells', (∀ x, (∀ i < j, x ≠ target i) → cells x = cells' x) →
      f j cells = f j cells') (hj : j < n) :
    cellLoop target f n cells (target j) = f j cells := by
  induction n with
  | zero => exact absurd hj (Nat.not_lt_zero j)
  | succ n ih =>
    rw [cellLoop_succ]
    rcases Nat.lt_succ_iff_lt_or_eq.mp hj with hlt | rfl
    · rw [Function.update_of_ne (hinj j n hlt), ih hlt]
    · rw [Function.update_self]
      exact hread j _ _ fun x hx => cellLoop_of_ne hx

end Common

end FlowBlaze
