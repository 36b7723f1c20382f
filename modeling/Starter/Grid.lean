import Starter.Objects

/-!
Objects on the grid of their step. Rounding moves neither their bounds nor their value,
and the value is within the bounds: what the constructors leave where the arithmetic is
exact.
-/
namespace Starter.Grid
open Gdouble Objects

section
variable {α : Type} [Gdouble α]

/-- The step is one that the constructors and the setters accept; rounding to it moves
    none of min, max and val; val is between the other two. -/
structure OnGrid (obj : IoObject α) : Prop where
  step : lt dblMin (abs obj.step) = true
  usable : le (abs obj.step) dblMin = false
  min : snapToStep obj.min obj.step = obj.min
  max : snapToStep obj.max obj.step = obj.max
  val : snapToStep obj.val obj.step = obj.val
  above : le obj.min obj.val = true
  below : le obj.val obj.max = true

variable {obj : IoObject α}

/-- The constructors make such an object of its own fields. -/
theorem ioNew_same (grid : OnGrid obj) :
    ioNew obj.name obj.descr obj.unit obj.min obj.max obj.step obj.val obj.flags = some obj := by
  simp only [ioNew,grid.step,grid.min,grid.max,grid.val,grid.above,grid.below,Bool.and_self,if_true]

theorem ioSetMin_same (grid : OnGrid obj) : (ioSetMin obj obj.min).obj = obj := by
  simp only [ioSetMin,grid.min,grid.above,if_true]

theorem ioSetMax_same (grid : OnGrid obj) : (ioSetMax obj obj.max).obj = obj := by
  simp only [ioSetMax,grid.max,grid.below,if_true]

theorem ioSetStep_same (what : String) (grid : OnGrid obj) : (ioSetStep what obj obj.step).obj = obj := by
  simp only [ioSetStep,grid.usable,grid.min,grid.max,grid.val,grid.above,grid.below,Bool.and_self,if_true,ite_self,
    Bool.false_eq_true,if_false]

/-- A value that is on the grid and within the bounds is taken as it is. -/
theorem ioSetVal_exact {val : α} (fixed : snapToStep val obj.step = val) (above : le obj.min val = true)
    (below : le val obj.max = true) : (ioSetVal obj val).obj = { obj with val := val } := by
  simp only [ioSetVal,fixed,above,below,Bool.and_self,if_true]

/-- The value that `st_input_set_val` leaves is within the bounds; it is on the grid when
    rounding does not move it again. -/
theorem ioSetVal_onGrid {val : α} (grid : OnGrid obj)
    (fixed : snapToStep (ioSetVal obj val).obj.val obj.step = (ioSetVal obj val).obj.val) :
    OnGrid (ioSetVal obj val).obj := by
  cases accepted : Accepts obj val with
  | false =>
    rw [ioSetVal_rejected accepted]
    exact grid
  | true =>
    rw [ioSetVal_accepted accepted] at fixed ⊢
    simp only [Accepts,Bool.and_eq_true] at accepted
    exact { grid with val := fixed, above := accepted.1, below := accepted.2 }

theorem ioSetFlags_onGrid (grid : OnGrid obj) (flags : IoFlags) : OnGrid (ioSetFlags obj flags).obj :=
  { grid with }

end

theorem roundAway_int (n : ℤ) : roundAway n = n := by
  unfold roundAway
  split
  · have floor : ⌊(n : ℚ) + 1 / 2⌋ = n := by
      rw [Int.floor_eq_iff]
      constructor <;> linarith
    rw [floor]
  · have ceil : ⌈(n : ℚ) - 1 / 2⌉ = n := by
      rw [Int.ceil_eq_iff]
      constructor <;> linarith
    rw [ceil]

theorem roundAway_whole (x : ℚ) : ∃ k : ℤ, roundAway x = k := by
  unfold roundAway
  split
  · exact ⟨_,rfl⟩
  · exact ⟨_,rfl⟩

/-- Exact arithmetic rounds to the grid once. -/
theorem snapToStep_again (x step : ℚ) : snapToStep (snapToStep x step) step = snapToStep x step := by
  unfold snapToStep roundToStep
  by_cases small : le (Gdouble.abs step) dblMin = true
  · simp only [small,if_true]
  · have nonzero : step ≠ 0 := by
      rintro rfl
      exact small (by decide +kernel)
    obtain ⟨n,rounded⟩ := roundAway_whole (x / step)
    simp only [small,if_false,Bool.false_eq_true,mul,div,Gdouble.round,rounded,mul_div_cancel_right₀ (n : ℚ) nonzero,roundAway_int]

/-- Exactly, every object that a constructor makes is on its grid. -/
theorem ioNew_onGrid {name descr : String} {unit : Int} {min max step val : ℚ} {flags : IoFlags} {obj : IoObject ℚ}
    (made : ioNew name descr unit min max step val flags = some obj) : OnGrid obj := by
  simp only [ioNew] at made
  split at made
  · rename_i accepted
    split at made
    · rename_i within
      cases made
      simp only [Bool.and_eq_true] at within
      have usable : le (Gdouble.abs step) (dblMin : ℚ) = false := by
        simp only [lt,le,decide_eq_true_eq,decide_eq_false_iff_not,not_le] at accepted ⊢
        exact accepted
      exact ⟨accepted,usable,snapToStep_again _ _,snapToStep_again _ _,snapToStep_again _ _,within.1,within.2⟩
    · cases made
  · cases made

end Starter.Grid
