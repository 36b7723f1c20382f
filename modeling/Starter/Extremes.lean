import Starter.Finite
import Starter.Lib.Selection
import Starter.Methods
import Starter.Sequence

/-!
The least and the greatest of some values: the functions `MIN` and `MAX` (`src/expr.c`) and
the entries of the statistics (`lib/stats.c`). Both start from `G_MAXDOUBLE` and
`G_MINDOUBLE`; the latter is the smallest positive number, so that what is not positive is
never taken for the greatest.
-/
namespace Starter.Extremes
open Gdouble FiniteGdouble Expressions Sequence Methods Lib.Selection

section
variable {α : Type} [FiniteGdouble α]

/-- `st_entry_init`. -/
def stEntryInit : StatsEntry α := ⟨dblMax,dblMin,zero⟩

/-- `st_entry_update`. -/
def stEntryUpdate (entry : StatsEntry α) (val : α) : StatsEntry α :=
  ⟨if lt val entry.min then val else entry.min,if lt entry.max val then val else entry.max,val⟩

/-- The value is one of the values, and none is below it. -/
def Least (vals : List α) (r : α) : Prop := r ∈ vals ∧ ∀ val ∈ vals, le r val = true

def Greatest (vals : List α) (r : α) : Prop := r ∈ vals ∧ ∀ val ∈ vals, le val r = true

theorem entry_fold (entry : StatsEntry α) (vals : List α) : vals.foldl stEntryUpdate entry =
    ⟨selectAll lt entry.min vals,selectAll (fun new best => lt best new) entry.max vals,vals.getLastD entry.last⟩ := by
  induction vals generalizing entry with
  | nil => rfl
  | cons val vals ih =>
    rw [List.foldl_cons,ih,List.getLastD_cons]
    rfl

variable [LawfulFinite α] {vals : List α}

/-- What is selected from the largest number on is the least. -/
theorem least_of_finite (nonempty : vals ≠ []) (finite : ∀ val ∈ vals, isfinite val = true) : Least vals (selectAll lt dblMax vals) := by
  have law : ∀ x y : α, isfinite x = true → isfinite y = true → (lt x y = true ↔ toRat x < toRat y) := LawfulFinite.lt_iff
  have best := (selectAll_best_iff law LawfulFinite.dblMax_finite
    (fun x isFinite same => LawfulFinite.toRat_inj _ _ isFinite LawfulFinite.dblMax_finite same
      (by rw [same,LawfulFinite.toRat_dblMax]; norm_num)) finite).mpr ?_
  · obtain ⟨member,least⟩ := best
    exact ⟨member,fun val among => (LawfulFinite.le_iff _ _ (finite _ member) (finite val among)).mpr (least val among)⟩
  · obtain ⟨val,among⟩ := List.exists_mem_of_ne_nil vals nonempty
    exact ⟨val,among,((le_abs_self _).trans (LawfulFinite.abs_le_dblMax val (finite val among))).trans LawfulFinite.toRat_dblMax.ge⟩

/-- What is selected from the smallest positive number on is the greatest, if any is as large as that number. -/
theorem greatest_iff (finite : ∀ val ∈ vals, isfinite val = true) :
    Greatest vals (selectAll (fun new best => lt best new) dblMin vals) ↔ ∃ val ∈ vals, le dblMin val = true := by
  have law : ∀ x y : α, isfinite x = true → isfinite y = true →
      (lt y x = true ↔ OrderDual.toDual (toRat x) < OrderDual.toDual (toRat y)) := by
    intro x y one two
    rw [OrderDual.toDual_lt_toDual,LawfulFinite.lt_iff y x two one]
  have best := selectAll_best_iff law LawfulFinite.dblMin_finite
    (fun x isFinite same => LawfulFinite.toRat_inj _ _ isFinite LawfulFinite.dblMin_finite (OrderDual.toDual_inj.mp same)
      (by rw [OrderDual.toDual_inj.mp same,LawfulFinite.toRat_dblMin]; positivity)) finite
  simp only [OrderDual.toDual_le_toDual] at best
  have above : (∃ val ∈ vals, le dblMin val = true) ↔ ∃ val ∈ vals, toRat (dblMin : α) ≤ toRat val :=
    exists_congr fun val => and_congr_right fun among => LawfulFinite.le_iff _ _ LawfulFinite.dblMin_finite (finite val among)
  rw [above,← best]
  refine and_congr_right fun member => forall₂_congr fun val among => ?_
  exact LawfulFinite.le_iff _ _ (finite val among) (finite _ member)

/-- The samples leave an entry with the least, the greatest and the last of them exactly if one of them is as large
as the smallest positive number. -/
theorem entry_iff (nonempty : vals ≠ []) (finite : ∀ val ∈ vals, isfinite val = true) :
    (Least vals (vals.foldl stEntryUpdate stEntryInit).min ∧ Greatest vals (vals.foldl stEntryUpdate stEntryInit).max ∧
      vals.getLast nonempty = (vals.foldl stEntryUpdate stEntryInit).last) ↔ ∃ val ∈ vals, le dblMin val = true := by
  have last : vals.getLast nonempty = vals.getLastD zero := by
    rw [List.getLastD_eq_getLast?,List.getLast?_eq_some_getLast nonempty]
    rfl
  rw [entry_fold,← greatest_iff finite]
  exact ⟨fun all => all.2.1,fun greatest => ⟨least_of_finite nonempty finite,greatest,last⟩⟩

end

theorem entry_iff_priorities :
    (Least [-20,-2] ([-20,-2].foldl stEntryUpdate stEntryInit : StatsEntry ℚ).min ∧
      Greatest [-20,-2] ([-20,-2].foldl stEntryUpdate stEntryInit : StatsEntry ℚ).max ∧
      -2 = ([-20,-2].foldl stEntryUpdate stEntryInit : StatsEntry ℚ).last) ↔ ∃ val ∈ ([-20,-2] : List ℚ), le dblMin val = true :=
  entry_iff (by simp) (by simp only [List.forall_mem_cons]; refine ⟨?_,?_,fun _ member => nomatch member⟩ <;> decide +kernel)

/-- Samples that are not positive, as the priority of a process may be: the greatest is not one of them. -/
theorem priorities_without_max : ¬ Greatest [-20,-2] ([-20,-2].foldl stEntryUpdate stEntryInit : StatsEntry ℚ).max := by
  rintro ⟨member,-⟩
  have other : ([-20,-2].foldl stEntryUpdate stEntryInit : StatsEntry ℚ).max = dblMin := by decide +kernel
  rw [other] at member
  exact absurd member (by decide +kernel)

section
variable {α : Type} [FiniteGdouble α] {depth : Nat} {io : Io α} {vars : Variables α} {args : List (Expr α)} {vals : List α} {m t : Mem α}

/-- `MIN` and `MAX` of arguments that have values. -/
theorem exprEval_extremes (nonempty : args ≠ []) (run : Run (args.map (exprEval depth io vars)) m vals t) (node : Nat) :
    exprEval depth io vars (.func node .min args) m = some (.value (selectAll lt dblMax vals),t) ∧
      exprEval depth io vars (.func node .max args) m = some (.value (selectAll (fun new best => lt best new) dblMin vals),t) := by
  cases depth with
  | zero =>
    obtain ⟨arg,rest,rfl⟩ := List.exists_cons_of_ne_nil nonempty
    cases run with
    | cons first _ => cases first
  | succ depth =>
    have same : exprEval (depth+1) io vars = evalWith (exprEval depth io vars) io vars := rfl
    rw [same] at run ⊢
    rw [evalWith_inOrder,evalWith_inOrder,operandCount,operandCount,List.take_length,inOrder_all run,inOrder_all run]
    exact ⟨rfl,rfl⟩

/-- `MIN` and `MAX` of arguments with finite values are the least and the greatest of them exactly if one of them is as large
as the smallest positive number. -/
theorem extremes_iff [LawfulFinite α] (nonempty : args ≠ []) (run : Run (args.map (exprEval depth io vars)) m vals t)
    (finite : ∀ val ∈ vals, isfinite val = true) (node : Nat) :
    ((∃ r, exprEval depth io vars (.func node .min args) m = some (.value r,t) ∧ Least vals r) ∧
      ∃ r, exprEval depth io vars (.func node .max args) m = some (.value r,t) ∧ Greatest vals r) ↔
      ∃ val ∈ vals, le dblMin val = true := by
  obtain ⟨least,greatest⟩ := exprEval_extremes nonempty run node
  have some : vals ≠ [] := by
    rintro rfl
    exact nonempty (by simpa using run.length_eq.symm)
  rw [least,greatest,← greatest_iff finite]
  constructor
  · rintro ⟨-,r,same,found⟩
    cases same
    exact found
  · exact fun found => ⟨⟨_,rfl,least_of_finite some finite⟩,_,rfl,found⟩

end

private def noIo : Io ℚ := ⟨fun _ => none,fun _ => none⟩

private theorem literals_run (one two : ℚ) :
    Run ([.literal one,.literal two].map (exprEval 1 noIo fun _ => none)) freshMem [one,two] freshMem := .cons rfl (.cons rfl .nil)

theorem extremes_iff_literals :
    ((∃ r, exprEval 1 noIo (fun _ => none) (.func 0 .min [.literal 3,.literal (-4)]) freshMem = some (.value r,freshMem) ∧
        Least [3,-4] r) ∧
      ∃ r, exprEval 1 noIo (fun _ => none) (.func 0 .max [.literal 3,.literal (-4)]) freshMem = some (.value r,freshMem) ∧
        Greatest [3,-4] r) ↔ ∃ val ∈ ([3,-4] : List ℚ), le dblMin val = true :=
  extremes_iff (by simp) (literals_run 3 (-4))
    (by simp only [List.forall_mem_cons]; refine ⟨?_,?_,fun _ member => nomatch member⟩ <;> decide +kernel) 0

/-- Arguments that are not positive: `MAX (0, -1)` is neither of them. -/
theorem max_not_positive : Run ([.literal 0,.literal (-1)].map (exprEval 1 noIo fun _ => none)) freshMem [0,-1] freshMem ∧
    ¬ ∃ r, exprEval 1 noIo (fun _ => none) (.func 0 .max [.literal 0,.literal (-1)]) freshMem = some (.value r,freshMem) ∧
      Greatest [0,-1] r := by
  refine ⟨literals_run 0 (-1),?_⟩
  rintro ⟨r,done,member,-⟩
  rw [(exprEval_extremes (by simp) (literals_run 0 (-1)) 0).2] at done
  have other : selectAll (fun new best => lt best new) dblMin [0,-1] = (dblMin : ℚ) := by decide +kernel
  rw [other] at done
  cases done
  exact absurd member (by decide +kernel)

end Starter.Extremes
