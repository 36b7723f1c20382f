import Starter.Gdouble

/-!
The finite doubles. Each of them is a rational number, and C compares them as these numbers.
-/
namespace Starter

/-- What the macros of `<math.h>` and `printf` can tell of a `gdouble`. -/
class FiniteGdouble (α : Type) extends Gdouble α where
  isfinite : α → Bool
  isnan : α → Bool
  signbit : α → Bool
  /-- The number that a finite one is. -/
  toRat : α → ℚ

open Gdouble FiniteGdouble

/-- What C and its format guarantee: the order, the limits, and that only zero is two values. -/
class LawfulFinite (α : Type) [FiniteGdouble α] : Prop where
  lt_iff : ∀ x y : α, isfinite x = true → isfinite y = true → (lt x y = true ↔ toRat x < toRat y)
  le_iff : ∀ x y : α, isfinite x = true → isfinite y = true → (le x y = true ↔ toRat x ≤ toRat y)
  eq_iff : ∀ x y : α, isfinite x = true → isfinite y = true → (eq x y = true ↔ toRat x = toRat y)
  eq_finite : ∀ x y : α, eq x y = true → isfinite x = isfinite y
  toRat_inj : ∀ x y : α, isfinite x = true → isfinite y = true → toRat x = toRat y → toRat x ≠ 0 → x = y
  dblMin_finite : isfinite (dblMin : α) = true
  toRat_dblMin : toRat (dblMin : α) = 1 / 2 ^ 1022
  dblMax_finite : isfinite (dblMax : α) = true
  toRat_dblMax : toRat (dblMax : α) = (2 - 1 / 2 ^ 52) * 2 ^ 1023
  finite_ofRat : ∀ q : ℚ, |q| ≤ (2 - 1 / 2 ^ 52) * 2 ^ 1023 → isfinite (ofRat q : α) = true
  abs_le_dblMax : ∀ x : α, isfinite x = true → |toRat x| ≤ (2 - 1 / 2 ^ 52) * 2 ^ 1023

/-- The exact numbers that are no larger than a double can be. -/
instance : FiniteGdouble ℚ where
  isfinite x := decide (|x| ≤ (2 - 1 / 2 ^ 52) * 2 ^ 1023)
  isnan _ := false
  signbit x := decide (x < 0)
  toRat x := x

instance : LawfulFinite ℚ where
  lt_iff _ _ _ _ := decide_eq_true_iff
  le_iff _ _ _ _ := decide_eq_true_iff
  eq_iff _ _ _ _ := decide_eq_true_iff
  eq_finite _ _ same := by rw [of_decide_eq_true same]
  toRat_inj _ _ _ _ same _ := same
  dblMin_finite := by decide +kernel
  toRat_dblMin := rfl
  dblMax_finite := by decide +kernel
  toRat_dblMax := rfl
  finite_ofRat _ small := decide_eq_true small
  abs_le_dblMax _ finite := of_decide_eq_true finite

/-- Two finite values that are equal to a third one. -/
theorem LawfulFinite.eq_of_eq {α : Type} [FiniteGdouble α] [LawfulFinite α] {x y z : α} (finite : isfinite z = true)
    (one : eq x z = true) (two : eq y z = true) : eq x y = true := by
  have finiteX : isfinite x = true := (LawfulFinite.eq_finite x z one).trans finite
  have finiteY : isfinite y = true := (LawfulFinite.eq_finite y z two).trans finite
  rw [LawfulFinite.eq_iff x z finiteX finite] at one
  rw [LawfulFinite.eq_iff y z finiteY finite] at two
  exact (LawfulFinite.eq_iff x y finiteX finiteY).mpr (one.trans two.symm)

end Starter
