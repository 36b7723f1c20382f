import Mathlib.Data.List.Forall2
import Starter.Expressions

/-!
Two evaluations of one expression. A relation between computations that the ways of the
evaluators to go on, to fail and to end respect holds between the evaluations of every
expression, if it does so for the names and for the nodes that write into memory.
-/
namespace Starter.Evaluation
open Gdouble Expressions Lib.Approx

variable {α : Type}

/-- The relation respects the ways in which the evaluators build computations. -/
structure Congruent (R : Eval α α → Eval α α → Prop) : Prop where
  ret : ∀ v, R (ret v) (ret v)
  fail : ∀ e, R (fail e) (fail e)
  stuck : R stuck stuck
  andThen : ∀ {x y f g}, R x y → (∀ v, R (f v) (g v)) → R (andThen x f) (andThen y g)

variable [Gdouble α] {R : Eval α α → Eval α α → Prop} {xs ys : List (Eval α α)}

private theorem related_min (cong : Congruent R) (each : List.Forall₂ R xs ys) :
    ∀ r, R (minFuncExprEval xs r) (minFuncExprEval ys r) := by
  induction each with
  | nil => exact cong.ret
  | cons head _ ih => exact fun r => cong.andThen head fun _ => ih _

private theorem related_max (cong : Congruent R) (each : List.Forall₂ R xs ys) :
    ∀ r, R (maxFuncExprEval xs r) (maxFuncExprEval ys r) := by
  induction each with
  | nil => exact cong.ret
  | cons head _ ih => exact fun r => cong.andThen head fun _ => ih _

private theorem related_round (cong : Congruent R) (each : List.Forall₂ R xs ys) :
    R (roundFuncExprEval xs) (roundFuncExprEval ys) := by
  cases each with
  | nil => exact cong.stuck
  | cons head _ => exact cong.andThen head fun _ => cong.ret _

private theorem related_limit (cong : Congruent R) (each : List.Forall₂ R xs ys) :
    R (limitFuncExprEval xs) (limitFuncExprEval ys) := by
  cases each with
  | nil => exact cong.stuck
  | cons val rest =>
    cases rest with
    | nil => exact cong.andThen val fun _ => cong.stuck
    | cons low rest =>
      cases rest with
      | nil => exact cong.andThen val fun _ => cong.andThen low fun _ => cong.stuck
      | cons high _ =>
        exact cong.andThen val fun _ => cong.andThen low fun _ => cong.andThen high fun _ => cong.ret _

/-- A `CHANGED` node, if the relation holds of what it writes. -/
theorem related_changed (cong : Congruent R) {node : Nat}
    (store : ∀ init v, R (changedStore node init v) (changedStore node init v)) (args : List (Expr α))
    (each : List.Forall₂ R xs ys) : R (changedFuncExprEval node args xs) (changedFuncExprEval node args ys) := by
  rcases args with _ | ⟨_,_ | ⟨second,_⟩⟩
  · simp only [changedFuncExprEval]
    exact cong.stuck
  · rcases each with _ | ⟨head,_ | _⟩
    · simp only [changedFuncExprEval]
      exact cong.stuck
    · simp only [changedFuncExprEval]
      exact cong.andThen head fun _ => store _ _
    · simp only [changedFuncExprEval]
      exact cong.stuck
  · rcases each with _ | ⟨head,rest⟩
    · cases second <;> (simp only [changedFuncExprEval]; exact cong.stuck)
    · cases second with
      | literal =>
        simp only [changedFuncExprEval]
        exact cong.andThen head fun _ => store _ _
      | op | ref | func | flag =>
        rcases rest with _ | ⟨two,_⟩
        · simp only [changedFuncExprEval]
          exact cong.stuck
        · simp only [changedFuncExprEval]
          exact cong.andThen head fun _ => cong.andThen two fun _ => cong.stuck

section
variable {io io' : Io α} {vars vars' : Variables α} {id : String}

omit [Gdouble α] in
/-- A name that is read alike, if the relation holds of the expressions it stands for. -/
theorem related_ref (cong : Congruent R) (k k' : Expr α → Eval α α) (inputs : io.inputs id = io'.inputs id)
    (outputs : io.outputs id = io'.outputs id) (same : vars id = vars' id) (calls : ∀ e, vars id = some e → R (k e) (k' e)) :
    R (refExprEval k io vars id) (refExprEval k' io' vars' id) := by
  simp only [refExprEval,← inputs,← outputs,← same]
  cases io.inputs id with
  | some input => exact cong.ret _
  | none =>
    cases io.outputs id with
    | some output => exact cong.ret _
    | none =>
      cases stored : vars id with
      | some e => exact calls e stored
      | none => exact cong.fail _

theorem related_flag (cong : Congruent R) (bit : IoFlags) (inputs : io.inputs id = io'.inputs id)
    (outputs : io.outputs id = io'.outputs id) : R (flagExprEval io id bit) (flagExprEval io' id bit) := by
  simp only [flagExprEval,← inputs,← outputs]
  cases io.inputs id with
  | some input => exact cong.ret _
  | none =>
    cases io.outputs id with
    | some output => exact cong.ret _
    | none => exact cong.fail _

end

theorem evalArgs_eq_map (k : Expr α → Eval α α) (io : Io α) (vars : Variables α) (args : List (Expr α)) :
    evalArgs k io vars args = args.map (evalWith k io vars) := by
  induction args with
  | nil => rfl
  | cons e es ih => rw [evalArgs,ih,List.map_cons]

theorem forall₂_evalArgs {k k' : Expr α → Eval α α} {io io' : Io α} {vars vars' : Variables α} {args : List (Expr α)}
    (each : ∀ e ∈ args, R (evalWith k io vars e) (evalWith k' io' vars' e)) :
    List.Forall₂ R (evalArgs k io vars args) (evalArgs k' io' vars' args) := by
  rw [evalArgs_eq_map,evalArgs_eq_map,List.forall₂_map_left_iff,List.forall₂_map_right_iff]
  exact List.forall₂_same.mpr each

/-- What makes the two evaluations of every expression that is `ok` related: `ok` passes
    to the parts, and the names and the nodes that write into memory are related. -/
structure Related (R : Eval α α → Eval α α → Prop) (ok : Expr α → Prop) (k k' : Expr α → Eval α α) (io io' : Io α)
    (vars vars' : Variables α) : Prop where
  cong : Congruent R
  op : ∀ o l r, ok (.op o l r) → ok l ∧ ok r
  args : ∀ node func args, func ≠ .eval → func ≠ .changed → ok (.func node func args) → ∀ e ∈ args, ok e
  ref : ∀ id, ok (.ref id) → R (refExprEval k io vars id) (refExprEval k' io' vars' id)
  flag : ∀ id bit, ok (.flag id bit) → R (flagExprEval io id bit) (flagExprEval io' id bit)
  writes : ∀ node func args, func = .eval ∨ func = .changed → ok (.func node func args) →
    (∀ e ∈ args, ok e → R (evalWith k io vars e) (evalWith k' io' vars' e)) →
    R (funcExprEval node func args (evalArgs k io vars args)) (funcExprEval node func args (evalArgs k' io' vars' args))

variable {ok : Expr α → Prop} {k k' : Expr α → Eval α α} {io io' : Io α} {vars vars' : Variables α}

mutual
/-- The induction over expressions. -/
theorem evalWith_related (rel : Related R ok k k' io io' vars vars') :
    ∀ e, ok e → R (evalWith k io vars e) (evalWith k' io' vars' e)
  | .literal v => fun _ => by
    simp only [evalWith]
    exact rel.cong.ret v
  | .op o left right => fun fine => by
    obtain ⟨okLeft,okRight⟩ := rel.op o left right fine
    have one := evalWith_related rel left okLeft
    have two := evalWith_related rel right okRight
    simp only [evalWith]
    exact rel.cong.andThen one fun _ => rel.cong.andThen two fun _ => rel.cong.ret _
  | .ref id => fun fine => by
    simp only [evalWith]
    exact rel.ref id fine
  | .func node func args => fun fine => by
    have each := evalArgs_related rel args
    simp only [evalWith]
    by_cases special : func = .eval ∨ func = .changed
    · exact rel.writes node func args special fine each
    · obtain ⟨notEval,notChanged⟩ := not_or.mp special
      have all := forall₂_evalArgs fun e member => each e member (rel.args node func args notEval notChanged fine e member)
      cases func with
      | min => exact related_min rel.cong all _
      | max => exact related_max rel.cong all _
      | round => exact related_round rel.cong all
      | limit => exact related_limit rel.cong all
      | eval => exact absurd rfl notEval
      | changed => exact absurd rfl notChanged
  | .flag id bit => fun fine => by
    simp only [evalWith]
    exact rel.flag id bit fine

private theorem evalArgs_related (rel : Related R ok k k' io io' vars vars') :
    ∀ args : List (Expr α), ∀ e ∈ args, ok e → R (evalWith k io vars e) (evalWith k' io' vars' e)
  | [] => by simp
  | first :: rest => by
    intro e member fine
    rcases List.mem_cons.mp member with same | member
    · rw [same] at fine ⊢
      exact evalWith_related rel first fine
    · exact evalArgs_related rel rest e member fine
end

/-- Evaluations at any depth are related, if related answers of the variables are enough. -/
theorem exprEval_related (start : ∀ e, ok e → R (exprEval 0 io vars e) (exprEval 0 io' vars' e))
    (rel : ∀ k k', (∀ e, ok e → R (k e) (k' e)) → Related R ok k k' io io' vars vars') (depth : Nat) :
    ∀ e, ok e → R (exprEval depth io vars e) (exprEval depth io' vars' e) := by
  induction depth with
  | zero => exact start
  | succ depth ih => exact fun e fine => evalWith_related (rel _ _ ih) e fine

end Starter.Evaluation
