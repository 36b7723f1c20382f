import Starter.Lib.Runs
import Starter.Grid

/-!
Sequences of calls of the setters of an object, in exact arithmetic. All of them but the
setter of the step store what they have rounded; that one rounds the three values to the
new step, tests what it has rounded, and then stores a value only where it has moved by
more than the tolerance of `nearly_equal`.
-/
namespace Starter.Setters
open Gdouble Objects Grid Lib.Runs

/-- A call of a setter. -/
inductive Call (α : Type)
  | min (v : α)
  | max (v : α)
  | step (v : α)
  | val (v : α)
  | flags (word : IoFlags)

section
variable {α : Type} [Gdouble α]

/-- The call, on an input or an output by the word of its errors. -/
def Call.update (what : String) (obj : IoObject α) : Call α → Update α
  | .min v => ioSetMin obj v
  | .max v => ioSetMax obj v
  | .step v => ioSetStep what obj v
  | .val v => ioSetVal obj v
  | .flags word => ioSetFlags obj word

def step (what : String) (obj : IoObject α) (call : Call α) : Option (IoObject α) := some (call.update what obj).obj

/-- A value stays as it is on a new grid, or moves by more than the tolerance. -/
def Clear (value step : α) : Prop := snapToStep value step = value ∨ nearlyEqual value (snapToStep value step) step = false

/-- The setter of the step accepts it. -/
def AcceptsStep (obj : IoObject α) (step : α) : Prop :=
  le (abs step) dblMin = false ∧ le (snapToStep obj.min step) (snapToStep obj.val step) = true ∧
    le (snapToStep obj.val step) (snapToStep obj.max step) = true

/-- A step that is accepted moves none of the three values by less than the tolerance. -/
def Exact (obj : IoObject α) : Call α → Prop
  | .step v => AcceptsStep obj v → Clear obj.min v ∧ Clear obj.max v ∧ Clear obj.val v
  | _ => True

/-- What the setter of the step stores for a value. -/
def stored (value step : α) : α :=
  if nearlyEqual value (snapToStep value step) step then value else snapToStep value step

variable {obj : IoObject α} {v : α}

theorem ioSetStep_accepted (what : String) (accepts : AcceptsStep obj v) :
    (ioSetStep what obj v).obj =
      { obj with min := stored obj.min v, max := stored obj.max v, val := stored obj.val v, step := v } := by
  obtain ⟨usable,above,below⟩ := accepts
  simp only [ioSetStep,usable,above,below,stored,Bool.and_self,if_true,Bool.false_eq_true,if_false]
  cases nearlyEqual obj.min (snapToStep obj.min v) v <;> cases nearlyEqual obj.max (snapToStep obj.max v) v <;>
    cases nearlyEqual obj.val (snapToStep obj.val v) v <;> rfl

theorem ioSetStep_refused (what : String) (refuses : ¬ AcceptsStep obj v) : (ioSetStep what obj v).obj = obj := by
  simp only [ioSetStep]
  split
  · rfl
  · rename_i usable
    split
    · rename_i within
      simp only [Bool.and_eq_true] at within
      exact absurd ⟨by simpa using usable,within⟩ refuses
    · rfl

/-- What is clear of the tolerance is stored as it was rounded and tested. -/
theorem stored_clear {x : α} (clear : Clear x v) : stored x v = snapToStep x v := by
  unfold stored
  rcases clear with fixed | moved
  · rw [fixed,ite_self]
  · rw [moved]
    rfl

end

/-- The step is not zero, min ≤ val ≤ max, and the three are multiples of the step. -/
structure Regular (obj : IoObject ℚ) : Prop where
  step : obj.step ≠ 0
  above : obj.min ≤ obj.val
  below : obj.val ≤ obj.max
  min : ∃ k : ℤ, obj.min = k * obj.step
  max : ∃ k : ℤ, obj.max = k * obj.step
  val : ∃ k : ℤ, obj.val = k * obj.step

/-- The step is one that the constructors and the setters accept. -/
def Usable (obj : IoObject ℚ) : Prop := le (Gdouble.abs obj.step) (dblMin : ℚ) = false

private theorem nonzero_of_usable {step : ℚ} (usable : le (Gdouble.abs step) (dblMin : ℚ) = false) : step ≠ 0 := by
  rintro rfl
  exact absurd usable (by decide +kernel)

/-- Rounding leaves the multiples of the step, and makes nothing else. -/
theorem snapToStep_fixed {x step : ℚ} (usable : le (Gdouble.abs step) (dblMin : ℚ) = false) :
    snapToStep x step = x ↔ ∃ k : ℤ, x = k * step := by
  have nonzero := nonzero_of_usable usable
  have snapped : snapToStep x step = roundAway (x / step) * step := by
    simp only [snapToStep,roundToStep,usable,Bool.false_eq_true,if_false]
    rfl
  rw [snapped]
  constructor
  · intro fixed
    obtain ⟨k,rounded⟩ := roundAway_whole (x / step)
    exact ⟨k,by rw [← rounded,fixed]⟩
  · rintro ⟨k,rfl⟩
    rw [mul_div_cancel_right₀ _ nonzero,roundAway_int]

theorem onGrid_iff (obj : IoObject ℚ) : OnGrid obj ↔ Usable obj ∧ Regular obj := by
  have lt_le : lt (dblMin : ℚ) (Gdouble.abs obj.step) = true ↔ le (Gdouble.abs obj.step) (dblMin : ℚ) = false := by
    simp only [lt,le,decide_eq_true_eq,decide_eq_false_iff_not,not_le]
  constructor
  · intro grid
    have fixed := fun x => snapToStep_fixed (x := x) grid.usable
    refine ⟨grid.usable,nonzero_of_usable grid.usable,?_,?_,(fixed _).mp grid.min,(fixed _).mp grid.max,(fixed _).mp grid.val⟩
    · simpa [le] using grid.above
    · simpa [le] using grid.below
  · rintro ⟨usable,regular⟩
    have fixed := fun x => snapToStep_fixed (x := x) usable
    refine ⟨lt_le.mpr usable,usable,(fixed _).mpr regular.min,(fixed _).mpr regular.max,(fixed _).mpr regular.val,?_,?_⟩
    · simpa [le] using regular.above
    · simpa [le] using regular.below

/-- The new grid has what is stored exactly where that is clear of the tolerance. -/
theorem stored_fixed (x v : ℚ) : snapToStep (stored x v) v = stored x v ↔ Clear x v := by
  constructor
  · intro fixed
    unfold stored at fixed
    cases near : nearlyEqual x (snapToStep x v) v with
    | true =>
      rw [near] at fixed
      exact .inl fixed
    | false => exact .inr near
  · intro clear
    rw [stored_clear clear,snapToStep_again]

variable {obj next : IoObject ℚ} {what : String}

theorem ioSetMin_onGrid (grid : OnGrid obj) (v : ℚ) : OnGrid (ioSetMin obj v).obj := by
  simp only [ioSetMin]
  split
  · rename_i above
    exact { grid with min := snapToStep_again _ _, above := above }
  · exact grid

theorem ioSetMax_onGrid (grid : OnGrid obj) (v : ℚ) : OnGrid (ioSetMax obj v).obj := by
  simp only [ioSetMax]
  split
  · rename_i below
    exact { grid with max := snapToStep_again _ _, below := below }
  · exact grid

theorem ioSetVal_exact_onGrid (grid : OnGrid obj) (v : ℚ) : OnGrid (ioSetVal obj v).obj := by
  refine ioSetVal_onGrid grid ?_
  cases accepted : Accepts obj v with
  | false =>
    rw [ioSetVal_rejected accepted]
    exact grid.val
  | true =>
    rw [ioSetVal_accepted accepted]
    exact snapToStep_again _ _

/-- The setter of the step keeps the invariant exactly when it moves none of the three
    values by less than the tolerance. -/
theorem ioSetStep_onGrid_iff (grid : OnGrid obj) (v : ℚ) :
    OnGrid (ioSetStep what obj v).obj ↔ Exact obj (.step v) := by
  by_cases accepts : AcceptsStep obj v
  · rw [ioSetStep_accepted what accepts]
    have usable : lt (dblMin : ℚ) (Gdouble.abs v) = true := by
      simpa only [lt,le,decide_eq_true_eq,decide_eq_false_iff_not,not_le] using accepts.1
    constructor
    · intro after _
      exact ⟨(stored_fixed _ _).mp after.min,(stored_fixed _ _).mp after.max,(stored_fixed _ _).mp after.val⟩
    · intro exact
      obtain ⟨min,max,val⟩ := exact accepts
      refine ⟨usable,accepts.1,(stored_fixed _ _).mpr min,(stored_fixed _ _).mpr max,(stored_fixed _ _).mpr val,?_,?_⟩
      · simp only [stored_clear min,stored_clear val,accepts.2.1]
      · simp only [stored_clear max,stored_clear val,accepts.2.2]
  · rw [ioSetStep_refused what accepts]
    exact ⟨fun _ accepted => absurd accepted accepts,fun _ => grid⟩

theorem update_onGrid_iff (grid : OnGrid obj) (call : Call ℚ) : OnGrid (call.update what obj).obj ↔ Exact obj call := by
  cases call with
  | min v => exact iff_of_true (ioSetMin_onGrid grid v) trivial
  | max v => exact iff_of_true (ioSetMax_onGrid grid v) trivial
  | step v => exact ioSetStep_onGrid_iff grid v
  | val v => exact iff_of_true (ioSetVal_exact_onGrid grid v) trivial
  | flags word => exact iff_of_true (ioSetFlags_onGrid grid word) trivial

/-- No setter stores a step that is not usable. -/
theorem step_usable (call : Call ℚ) (usable : Usable obj) (stepped : step what obj call = some next) : Usable next := by
  cases stepped
  cases call with
  | step v =>
    by_cases accepts : AcceptsStep obj v
    · simp only [Call.update,ioSetStep_accepted what accepts]
      exact accepts.1
    · simp only [Call.update,ioSetStep_refused what accepts]
      exact usable
  | min v =>
    simp only [Call.update,ioSetMin]
    split <;> exact usable
  | max v =>
    simp only [Call.update,ioSetMax]
    split <;> exact usable
  | val v =>
    simp only [Call.update,ioSetVal]
    split <;> exact usable
  | flags word => exact usable

/-- All along a sequence of calls the step is not zero, min ≤ val ≤ max and the three are
    multiples of the step, exactly when no call of the setter of the step is accepted that
    moves one of them by less than the tolerance. -/
theorem run_regular_iff {name descr : String} {unit : Int} {min max stepSize val : ℚ} {flags : IoFlags}
    (made : ioNew name descr unit min max stepSize val flags = some obj) (what : String) (calls : List (Call ℚ)) :
    Always (step what) Regular obj calls ↔ Meets (step what) Exact obj calls := by
  have grid := ioNew_onGrid made
  have each : ∀ (obj : IoObject ℚ) (call : Call ℚ) (next : IoObject ℚ), OnGrid obj → step what obj call = some next →
      (OnGrid next ↔ Exact obj call) := by
    rintro obj call next grid stepped
    cases stepped
    exact update_onGrid_iff grid call
  have whole : Always (step what) OnGrid obj calls ↔ Meets (step what) Exact obj calls :=
    always_iff_meets (fun obj call _ stopped => by simp [step] at stopped) each grid calls
  rw [← whole]
  constructor
  · intro always
    have usable := always_and (fun obj call next holds _ stepped => step_usable call holds stepped)
      ((onGrid_iff obj).mp grid).1 always
    exact always_mono (fun obj both => (onGrid_iff obj).mpr both) usable
  · exact always_mono fun obj grid => ((onGrid_iff obj).mp grid).2

private def dial : IoObject ℚ := ⟨"dial","",0,0,10,1,1,0⟩

private theorem dial_made : ioNew "dial" "" 0 0 10 1 1 0 = some dial := by decide +kernel

theorem run_regular_iff_dial :
    Always (step "input") Regular dial [.val 3,.step (1 / 2),.min 1] ↔
      Meets (step "input") Exact dial [.val 3,.step (1 / 2),.min 1] :=
  run_regular_iff dial_made "input" _

/-- The step becomes 1 + 10⁻¹⁰; 1 and 10 are so near to multiples of it that they stay. -/
theorem step_leaves_value_off :
    ioNew "dial" "" 0 0 10 1 1 0 = some dial ∧
    (ioSetStep "input" dial (1 + 1 / 10 ^ 10)).obj = { dial with step := 1 + 1 / 10 ^ 10 } ∧
    ¬ Always (step "input") Regular dial [.step (1 + 1 / 10 ^ 10)] := by
  have after : (ioSetStep "input" dial (1 + 1 / 10 ^ 10)).obj = { dial with step := 1 + 1 / 10 ^ 10 } := by decide +kernel
  refine ⟨dial_made,after,fun always => ?_⟩
  have regular : Regular { dial with step := 1 + 1 / 10 ^ 10 } := after ▸ always_first (always.2 _ rfl)
  have off : snapToStep (1 : ℚ) (1 + 1 / 10 ^ 10) ≠ 1 := by decide +kernel
  exact off ((snapToStep_fixed (by decide +kernel)).mpr regular.val)

end Starter.Setters
