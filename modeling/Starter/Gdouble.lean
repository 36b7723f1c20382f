import Mathlib.Algebra.Order.Round
import Mathlib.Data.Rat.Floor

/-!
The arithmetic of `gdouble`. Rules and I/O objects are modelled over any type with the
operations the sources use; nothing is assumed of them, so that the results hold of
IEEE doubles with their NaN, infinities and rounding as well as of exact arithmetic
(`ℚ`). What a result needs of the arithmetic it takes from `LawfulGdouble`.
-/
namespace Starter

/-- The operations on `gdouble` of the sources. Comparisons are those of C: a NaN is
    not equal to itself. -/
class Gdouble (α : Type) where
  /-- The value of a numeric literal. -/
  ofRat : ℚ → α
  eq : α → α → Bool
  lt : α → α → Bool
  le : α → α → Bool
  add : α → α → α
  sub : α → α → α
  mul : α → α → α
  div : α → α → α
  neg : α → α
  /-- `round` of `<math.h>`: to the nearest integer, ties away from zero. -/
  round : α → α

namespace Gdouble
variable {α : Type} [Gdouble α]

def zero : α := ofRat 0
def one : α := ofRat 1
/-- `DBL_MIN`, the smallest normalised positive double; also `G_MINDOUBLE`. -/
def dblMin : α := ofRat (1 / 2 ^ 1022)
/-- `G_MAXDOUBLE`. -/
def dblMax : α := ofRat ((2 - 1 / 2 ^ 52) * 2 ^ 1023)
def dblEpsilon : α := ofRat (1 / 2 ^ 52)

/-- What a C comparison yields when it is stored in a double. -/
def ofBool (b : Bool) : α := if b then one else zero
/-- A double where C expects a truth value. -/
def truth (x : α) : Bool := !eq x zero
/-- The macro `ABS`. -/
def abs (x : α) : α := if lt x zero then neg x else x
/-- The macro `MAX`. -/
def max (x y : α) : α := if lt y x then x else y

end Gdouble

/-- What C guarantees of `==` on doubles, NaN included: it is symmetric and transitive. -/
class LawfulGdouble (α : Type) [Gdouble α] : Prop where
  eq_symm : ∀ x y : α, Gdouble.eq x y = true → Gdouble.eq y x = true
  eq_trans : ∀ x y z : α, Gdouble.eq x y = true → Gdouble.eq y z = true → Gdouble.eq x z = true

/-- `round` on exact numbers. -/
def roundAway (x : ℚ) : ℚ := if 0 ≤ x then (⌊x + 1 / 2⌋ : ℤ) else (⌈x - 1 / 2⌉ : ℤ)

/-- Exact arithmetic. -/
instance : Gdouble ℚ where
  ofRat x := x
  eq x y := decide (x = y)
  lt x y := decide (x < y)
  le x y := decide (x ≤ y)
  add x y := x + y
  sub x y := x - y
  mul x y := x * y
  div x y := x / y
  neg x := -x
  round := roundAway

instance : LawfulGdouble ℚ where
  eq_symm := by
    intro x y same
    simpa [Gdouble.eq, eq_comm] using same
  eq_trans := by
    intro x y z first second
    simp only [Gdouble.eq, decide_eq_true_eq] at *
    exact first.trans second

end Starter
