import Mathlib.Algebra.BigOperators.Ring.Finset
import Mathlib.Algebra.BigOperators.Pi
import Mathlib.Tactic.Ring
/-!
# Affine forms

A constant and a coefficient for each of finitely many sources. Forms are
added and subtracted as their values are, and two forms with the same
values are the same (`ext_eval`), so a form is a normal form of the sums
and differences it stands for.
-/

namespace FlowBlaze

namespace Common

/-- A constant and the coefficients of the sources. -/
structure AffineForm (R S : Type*) where
  const : R
  coef : S → R

namespace AffineForm

variable {R S : Type*}

@[ext] theorem ext' {f g : AffineForm R S} (hc : f.const = g.const)
    (hs : ∀ s, f.coef s = g.coef s) : f = g := by
  cases f
  cases g
  obtain rfl := hc
  obtain rfl := funext hs
  rfl

instance [DecidableEq R] [Fintype S] : DecidableEq (AffineForm R S) := fun f g =>
  decidable_of_iff (f.const = g.const ∧ ∀ s, f.coef s = g.coef s)
    ⟨fun h => ext' h.1 h.2, fun h => h ▸ ⟨rfl, fun _ => rfl⟩⟩

section CommRing

variable [CommRing R]

/-- A constant. -/
def ofConst (c : R) : AffineForm R S := ⟨c, fun _ => 0⟩

/-- A source. -/
def source [DecidableEq S] (s : S) : AffineForm R S := ⟨0, Pi.single s 1⟩

instance : Add (AffineForm R S) := ⟨fun f g => ⟨f.const + g.const, fun s => f.coef s + g.coef s⟩⟩

instance : Sub (AffineForm R S) := ⟨fun f g => ⟨f.const - g.const, fun s => f.coef s - g.coef s⟩⟩

variable [Fintype S] {f g : AffineForm R S} {v : S → R}

/-- The value of a form, given the values of the sources. -/
def eval (f : AffineForm R S) (v : S → R) : R := f.const + ∑ s, f.coef s * v s

@[simp] theorem eval_ofConst (c : R) : (ofConst c : AffineForm R S).eval v = c := by
  simp [eval, ofConst]

@[simp] theorem eval_source [DecidableEq S] (s : S) : (source s : AffineForm R S).eval v = v s := by
  simp [eval, source, Pi.single_apply]

@[simp] theorem eval_add : (f + g).eval v = f.eval v + g.eval v := by
  change f.const + g.const + ∑ s, (f.coef s + g.coef s) * v s = _
  simp only [add_mul, Finset.sum_add_distrib, eval]
  ring

@[simp] theorem eval_sub : (f - g).eval v = f.eval v - g.eval v := by
  change f.const - g.const + ∑ s, (f.coef s - g.coef s) * v s = _
  simp only [sub_mul, Finset.sum_sub_distrib, eval]
  ring

/-- With all sources zero only the constant is left. -/
theorem eval_zero : f.eval 0 = f.const := by simp [eval]

/-- With one source one and the others zero its coefficient is added. -/
theorem eval_single [DecidableEq S] (s : S) : f.eval (Pi.single s 1) = f.const + f.coef s := by
  simp [eval, Pi.single_apply]

/-- **A form is determined by its values** at zero and at the unit vectors. -/
theorem ext_eval [DecidableEq S] (hz : f.eval 0 = g.eval 0)
    (hs : ∀ s, f.eval (Pi.single s 1) = g.eval (Pi.single s 1)) : f = g := by
  have hc : f.const = g.const := by simpa only [eval_zero] using hz
  refine ext' hc fun s => ?_
  have h := hs s
  rw [eval_single, eval_single, hc] at h
  exact add_left_cancel h

end CommRing

end AffineForm

end Common

end FlowBlaze
