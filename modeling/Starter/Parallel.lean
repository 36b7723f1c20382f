import Starter.Evaluation

/-!
Two evaluations side by side, of two expressions of one shape. Their values may be
related by more than equality: no evaluator decides by a value what it evaluates next, so
that two evaluations run alike also where their values differ.
-/
namespace Starter.Parallel
open Gdouble Expressions Evaluation Lib.Approx

variable {α : Type}

/-- The values are the same, if `exact` asks for it. -/
def Agree (exact : Prop) (v w : α) : Prop := exact → v = w

/-- The relation respects the ways in which the evaluators build computations. -/
structure Side (exact : Prop) (R : Eval α α → Eval α α → Prop) : Prop where
  ret : ∀ {v w}, Agree exact v w → R (ret v) (ret w)
  fail : ∀ e, R (fail e) (fail e)
  stuck : R stuck stuck
  andThen : ∀ {x y f g}, R x y → (∀ v w, Agree exact v w → R (f v) (g w)) → R (andThen x f) (andThen y g)

theorem Agree.refl (exact : Prop) (v : α) : Agree exact v v := fun _ => rfl

/-- An operation yields values that agree of operands that agree. -/
theorem Agree.apply {exact : Prop} {v w v' w' : α} (f : α → α → α) (first : Agree exact v w)
    (second : Agree exact v' w') : Agree exact (f v v') (f w w') := by
  intro asked
  rw [first asked,second asked]

variable [Gdouble α] {exact : Prop} {R : Eval α α → Eval α α → Prop} {xs ys : List (Eval α α)}

private theorem beside_min (side : Side exact R) (each : List.Forall₂ R xs ys) :
    ∀ r r', Agree exact r r' → R (minFuncExprEval xs r) (minFuncExprEval ys r') := by
  induction each with
  | nil => exact fun r r' agree => side.ret agree
  | cons head _ ih =>
    exact fun r r' agree => side.andThen head fun _ _ same => ih _ _ (same.apply (fun v r => if lt v r then v else r) agree)

private theorem beside_max (side : Side exact R) (each : List.Forall₂ R xs ys) :
    ∀ r r', Agree exact r r' → R (maxFuncExprEval xs r) (maxFuncExprEval ys r') := by
  induction each with
  | nil => exact fun r r' agree => side.ret agree
  | cons head _ ih =>
    exact fun r r' agree => side.andThen head fun _ _ same => ih _ _ (same.apply (fun v r => if lt r v then v else r) agree)

private theorem beside_round (side : Side exact R) (each : List.Forall₂ R xs ys) :
    R (roundFuncExprEval xs) (roundFuncExprEval ys) := by
  cases each with
  | nil => exact side.stuck
  | cons head _ => exact side.andThen head fun _ _ same => side.ret (same.apply (fun v _ => Gdouble.round v) same)

private theorem beside_limit (side : Side exact R) (each : List.Forall₂ R xs ys) :
    R (limitFuncExprEval xs) (limitFuncExprEval ys) := by
  rcases each with _ | ⟨val,_ | ⟨low,_ | ⟨high,_⟩⟩⟩
  · exact side.stuck
  · exact side.andThen val fun _ _ _ => side.stuck
  · exact side.andThen val fun _ _ _ => side.andThen low fun _ _ _ => side.stuck
  · refine side.andThen val fun v w first => side.andThen low fun v' w' second => side.andThen high fun v'' w'' third => ?_
    refine side.ret fun asked => ?_
    rw [first asked,second asked,third asked]

/-- The literal that a `CHANGED` node has before it is first written; none where its second
    argument is no literal. -/
def initial : List (Expr α) → Option α
  | [_] => some dblMin
  | _ :: .literal init :: _ => some init
  | _ => none

theorem changedFuncExprEval_initial {node : Nat} {args : List (Expr α)} {init : α} {x : Eval α α}
    (literal : initial args = some init) (count : args.length = (x :: xs).length) :
    changedFuncExprEval node args (x :: xs) = andThen x fun v => changedStore node init v := by
  rcases args with _ | ⟨first,_ | ⟨second,rest⟩⟩
  · simp [initial] at literal
  · rcases xs with _ | _
    · simp only [initial,Option.some.injEq] at literal
      rw [changedFuncExprEval,literal]
    · simp at count
  · cases second with
    | literal v =>
      simp only [initial,Option.some.injEq] at literal
      rw [changedFuncExprEval,literal]
    | op | ref | func | flag => simp [initial] at literal

/-- A second argument that is no literal is evaluated, and then written over. -/
theorem changedFuncExprEval_none (node : Nat) {args : List (Expr α)} {x : Eval α α} (literal : initial args = none)
    (count : args.length = (x :: xs).length) : ∃ y ys, xs = y :: ys ∧
      changedFuncExprEval node args (x :: xs) = andThen x fun _ => andThen y fun _ => stuck := by
  rcases args with _ | ⟨first,_ | ⟨second,others⟩⟩
  · simp at count
  · simp [initial] at literal
  · rcases xs with _ | ⟨y,ys⟩
    · simp at count
    · cases second with
      | literal v => simp [initial] at literal
      | op | ref | func | flag => exact ⟨y,ys,rfl,by simp only [changedFuncExprEval]⟩

/-- Two `CHANGED` nodes, if the relation holds of what they write. -/
theorem beside_changed (side : Side exact R) {node node' : Nat} {args args' : List (Expr α)}
    (count : args.length = xs.length) (count' : args'.length = ys.length) (each : List.Forall₂ R xs ys)
    (shape : (initial args).isSome = (initial args').isSome)
    (store : ∀ init init', initial args = some init → initial args' = some init' →
      ∀ v w, Agree exact v w → R (changedStore node init v) (changedStore node' init' w)) :
    R (changedFuncExprEval node args xs) (changedFuncExprEval node' args' ys) := by
  rcases each with _ | ⟨head,rest⟩
  · obtain rfl := List.length_eq_zero_iff.mp count
    obtain rfl := List.length_eq_zero_iff.mp count'
    simp only [changedFuncExprEval]
    exact side.stuck
  · cases literal : initial args with
    | some init =>
      rw [literal,Option.isSome_some] at shape
      obtain ⟨init',literal'⟩ := Option.isSome_iff_exists.mp shape.symm
      rw [changedFuncExprEval_initial literal count,changedFuncExprEval_initial literal' count']
      exact side.andThen head fun v w same => store init init' literal literal' v w same
    | none =>
      rw [literal,Option.isSome_none] at shape
      have literal' : initial args' = none := by simpa using shape.symm
      obtain ⟨y,_,rfl,one⟩ := changedFuncExprEval_none node literal count
      obtain ⟨y',_,rfl,two⟩ := changedFuncExprEval_none node' literal' count'
      rw [one,two]
      rcases rest with _ | ⟨second,_⟩
      exact side.andThen head fun _ _ _ => side.andThen second fun _ _ _ => side.stuck

section
variable {k k' : Expr α → Eval α α} {io : Io α} {vars vars' : Variables α} {id : String}

omit [Gdouble α] in
/-- A name, if the relation holds of the expressions it stands for. -/
theorem beside_ref (side : Side exact R) (same : vars id = vars' id) (calls : ∀ e, vars id = some e → R (k e) (k' e)) :
    R (refExprEval k io vars id) (refExprEval k' io vars' id) := by
  rw [refExprEval,refExprEval,← same]
  cases io.inputs id with
  | some input => exact side.ret (Agree.refl _ _)
  | none =>
    cases io.outputs id with
    | some output => exact side.ret (Agree.refl _ _)
    | none =>
      cases stored : vars id with
      | some e => exact calls e stored
      | none => exact side.fail _

theorem beside_flag (side : Side exact R) (io : Io α) (id : String) (bit : IoFlags) :
    R (flagExprEval io id bit) (flagExprEval io id bit) := by
  rw [flagExprEval]
  cases io.inputs id with
  | some input => exact side.ret (Agree.refl _ _)
  | none =>
    cases io.outputs id with
    | some output => exact side.ret (Agree.refl _ _)
    | none => exact side.fail _

end

/-- What makes the evaluations of every two expressions that are `ok` related: `ok` passes
    to the parts, and the names and the nodes that write into memory are related. -/
structure Beside (exact : Prop) (R : Eval α α → Eval α α → Prop) (ok : Expr α → Expr α → Prop)
    (k k' : Expr α → Eval α α) (io io' : Io α) (vars vars' : Variables α) : Prop where
  side : Side exact R
  literal : ∀ v e', ok (.literal v) e' → ∃ w, e' = .literal w ∧ Agree exact v w
  op : ∀ o l r e', ok (.op o l r) e' → ∃ l' r', e' = .op o l' r' ∧ ok l l' ∧ ok r r'
  args : ∀ node func args e', func ≠ .eval → func ≠ .changed → ok (.func node func args) e' →
    ∃ node' args', e' = .func node' func args' ∧ List.Forall₂ ok args args'
  ref : ∀ id e', ok (.ref id) e' → R (refExprEval k io vars id) (evalWith k' io' vars' e')
  flag : ∀ id bit e', ok (.flag id bit) e' → R (flagExprEval io id bit) (evalWith k' io' vars' e')
  writes : ∀ node func args e', func = .eval ∨ func = .changed → ok (.func node func args) e' →
    (∀ e ∈ args, ∀ e', ok e e' → R (evalWith k io vars e) (evalWith k' io' vars' e')) →
    R (funcExprEval node func args (evalArgs k io vars args)) (evalWith k' io' vars' e')

variable {ok : Expr α → Expr α → Prop} {k k' : Expr α → Eval α α} {io io' : Io α} {vars vars' : Variables α}

theorem forall₂_evalArgs {args args' : List (Expr α)} (pairs : List.Forall₂ ok args args')
    (each : ∀ e ∈ args, ∀ e', ok e e' → R (evalWith k io vars e) (evalWith k' io' vars' e')) :
    List.Forall₂ R (evalArgs k io vars args) (evalArgs k' io' vars' args') := by
  induction pairs with
  | nil => exact .nil
  | cons head _ ih =>
    exact .cons (each _ List.mem_cons_self _ head) (ih fun e member => each e (List.mem_cons_of_mem _ member))

mutual
/-- The induction over the first expression. -/
theorem evalWith_beside (beside : Beside exact R ok k k' io io' vars vars') :
    ∀ e e', ok e e' → R (evalWith k io vars e) (evalWith k' io' vars' e')
  | .literal v => fun e' fine => by
    obtain ⟨w,rfl,agree⟩ := beside.literal v e' fine
    simp only [evalWith]
    exact beside.side.ret agree
  | .op o left right => fun e' fine => by
    obtain ⟨left',right',rfl,okLeft,okRight⟩ := beside.op o left right e' fine
    have one := evalWith_beside beside left left' okLeft
    have two := evalWith_beside beside right right' okRight
    simp only [evalWith]
    refine beside.side.andThen one fun _ _ first => beside.side.andThen two fun _ _ second => ?_
    exact beside.side.ret (first.apply (opApply o) second)
  | .ref id => fun e' fine => by
    rw [evalWith]
    exact beside.ref id e' fine
  | .func node func args => fun e' fine => by
    have each := evalArgs_beside beside args
    by_cases special : func = .eval ∨ func = .changed
    · rw [evalWith]
      exact beside.writes node func args e' special fine each
    · obtain ⟨notEval,notChanged⟩ := not_or.mp special
      obtain ⟨node',args',rfl,pairs⟩ := beside.args node func args e' notEval notChanged fine
      have all := forall₂_evalArgs pairs each
      simp only [evalWith]
      cases func with
      | min => exact beside_min beside.side all _ _ (Agree.refl _ _)
      | max => exact beside_max beside.side all _ _ (Agree.refl _ _)
      | round => exact beside_round beside.side all
      | limit => exact beside_limit beside.side all
      | eval => exact absurd rfl notEval
      | changed => exact absurd rfl notChanged
  | .flag id bit => fun e' fine => by
    rw [evalWith]
    exact beside.flag id bit e' fine

private theorem evalArgs_beside (beside : Beside exact R ok k k' io io' vars vars') :
    ∀ args : List (Expr α), ∀ e ∈ args, ∀ e', ok e e' → R (evalWith k io vars e) (evalWith k' io' vars' e')
  | [] => by simp
  | first :: rest => by
    intro e member e' fine
    rcases List.mem_cons.mp member with same | member
    · rw [same] at fine ⊢
      exact evalWith_beside beside first e' fine
    · exact evalArgs_beside beside rest e member e' fine
end

/-- Evaluations at any depth are related, if related answers of the variables are enough. -/
theorem exprEval_beside (start : ∀ e e', ok e e' → R (exprEval 0 io vars e) (exprEval 0 io' vars' e'))
    (beside : ∀ k k', (∀ e e', ok e e' → R (k e) (k' e')) → Beside exact R ok k k' io io' vars vars') (depth : Nat) :
    ∀ e e', ok e e' → R (exprEval depth io vars e) (exprEval depth io' vars' e') := by
  induction depth with
  | zero => exact start
  | succ depth ih => exact fun e e' fine => evalWith_beside (beside _ _ ih) e e' fine

end Starter.Parallel
