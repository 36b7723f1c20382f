import Starter.Parallel

/-!
The evaluators of the functions in one form: each evaluates some of the arguments of its
node, from left to right and up to the first that has no value, and then makes its result
of their values.
-/
namespace Starter.Sequence
open Gdouble Expressions Evaluation Parallel

variable {α β γ : Type}

/-- The computations one after the other; one that has no value ends the whole. -/
def inOrder : List (Eval α β) → (List β → Eval α γ) → Eval α γ
  | [], f => f []
  | x :: xs, f => andThen x fun v => inOrder xs fun vs => f (v :: vs)

/-- The computations have these values, one after the other. -/
inductive Run : List (Eval α β) → Mem α → List β → Mem α → Prop
  | nil {m : Mem α} : Run [] m [] m
  | cons {x : Eval α β} {xs : List (Eval α β)} {v : β} {vs : List β} {m middle t : Mem α}
      (first : x m = some (.value v,middle)) (rest : Run xs middle vs t) : Run (x :: xs) m (v :: vs) t

theorem Run.length_eq {xs : List (Eval α β)} {vs : List β} {m t : Mem α} (run : Run xs m vs t) : vs.length = xs.length := by
  induction run with
  | nil => rfl
  | cons _ _ ih => simp [ih]

/-- Behind computations that have values the others go on. -/
theorem inOrder_run {xs ys : List (Eval α β)} {f : List β → Eval α γ} {vs : List β} {m t : Mem α} (run : Run xs m vs t) :
    inOrder (xs ++ ys) f m = inOrder ys (fun ws => f (vs ++ ws)) t := by
  induction run generalizing f with
  | nil => rfl
  | cons first _ ih =>
    rw [List.cons_append,inOrder,andThen]
    simp only [first]
    exact ih

theorem inOrder_all {xs : List (Eval α β)} {vs : List β} {m t : Mem α} (run : Run xs m vs t) (f : List β → Eval α γ) :
    inOrder xs f m = f vs t := by
  induction run generalizing f with
  | nil => rfl
  | cons first _ ih =>
    rw [inOrder,andThen]
    simp only [first]
    exact ih fun vs => f (_ :: vs)

/-- Either all of them have values, or one of them ends the whole. -/
theorem inOrder_cases {xs : List (Eval α α)} {f : List α → Eval α α} {m : Mem α} {r : Outcome α × Mem α}
    (answered : inOrder xs f m = some r) :
    (∃ vs t, Run xs m vs t ∧ f vs t = some r) ∨
      ∃ before x after vs t, xs = before ++ x :: after ∧ Run before m vs t ∧ x t = some r ∧ ∀ v, r.1 ≠ .value v := by
  induction xs generalizing f m with
  | nil => exact .inl ⟨[],m,.nil,answered⟩
  | cons x xs ih =>
    rw [inOrder,andThen] at answered
    split at answered
    · cases answered
    · rename_i v middle called
      rcases ih answered with ⟨vs,t,run,done⟩ | ⟨before,y,after,vs,t,split_,run,ended,noValue⟩
      · exact .inl ⟨v :: vs,t,.cons called run,done⟩
      · exact .inr ⟨x :: before,y,after,v :: vs,t,by rw [split_,List.cons_append],.cons called run,ended,noValue⟩
    · rename_i error middle called
      cases answered
      exact .inr ⟨[],x,xs,[],m,rfl,.nil,called,by simp⟩
    · rename_i middle called
      cases answered
      exact .inr ⟨[],x,xs,[],m,rfl,.nil,called,by simp⟩

variable [Gdouble α]

/-- How many of its arguments the evaluator of the node evaluates, if it has so many. -/
def operandCount (captured : Nat → Option α) (node : Nat) : Func → List (Expr α) → Nat
  | .min, args => args.length
  | .max, args => args.length
  | .round, _ => 1
  | .limit, _ => 3
  | .eval, .literal _ :: _ => 0
  | .eval, _ => if (captured node).isSome then 0 else 1
  | .changed, args => if (initial args).isSome then 1 else 2

/-- Once the arguments that it evaluates have values the evaluator has a result. -/
def hasResult (captured : Nat → Option α) (node : Nat) : Func → List (Expr α) → Bool
  | .min, _ => true
  | .max, _ => true
  | .round, args => 1 ≤ args.length
  | .limit, args => 3 ≤ args.length
  | .eval, [] => false
  | .eval, .literal _ :: _ => true
  | .eval, _ :: _ => (captured node).isSome
  | .changed, args => (initial args).isSome

/-- What the evaluator does with the values. -/
def finish (captured : Nat → Option α) (node : Nat) : Func → List (Expr α) → List α → Eval α α
  | .min, _, vals => ret (vals.foldl (fun r val => if lt val r then val else r) dblMax)
  | .max, _, vals => ret (vals.foldl (fun r val => if lt r val then val else r) dblMin)
  | .round, _, [val] => ret (round val)
  | .limit, _, [val,low,high] => ret (if lt val low then low else if lt high val then high else val)
  | .eval, .literal v :: _, _ => ret ((captured node).getD v)
  | .eval, _ :: _, vals =>
    match captured node, vals with
    | some v, _ => ret v
    | none, [x] => fun m => some (.undefined,{ m with captured := Function.update m.captured node (some x) })
    | none, _ => stuck
  | .changed, args, val :: _ =>
    match initial args with
    | some init => changedStore node init val
    | none => stuck
  | _, _, _ => stuck

/-- It never calls an evaluator. -/
theorem finish_total (captured : Nat → Option α) (node : Nat) (func : Func) (args : List (Expr α)) (vals : List α)
    (m : Mem α) : finish captured node func args vals m ≠ none := by
  cases func with
  | min => simp [finish,ret]
  | max => simp [finish,ret]
  | round => rcases vals with _ | ⟨_,_ | _⟩ <;> simp [finish,ret,stuck]
  | limit => rcases vals with _ | ⟨_,_ | ⟨_,_ | ⟨_,_ | _⟩⟩⟩ <;> simp [finish,ret,stuck]
  | eval =>
    rcases args with _ | ⟨arg,args⟩
    · simp [finish,stuck]
    · cases found : captured node with
      | some v => cases arg <;> simp [finish,found,ret]
      | none => cases arg <;> rcases vals with _ | ⟨_,_ | _⟩ <;> simp [finish,found,ret,stuck]
  | changed =>
    rcases vals with _ | ⟨val,vals⟩
    · simp [finish,stuck]
    · cases literal : initial args <;> simp [finish,literal,stuck,changedStore]

/-- What `op_expr_eval` does with the values. -/
def opFinish (o : Op) : List α → Eval α α
  | [lval,rval] => ret (opApply o lval rval)
  | _ => stuck

private theorem min_inOrder (xs : List (Eval α α)) (f : List α → List α) (r : α)
    (same : ∀ vs, (f vs).foldl (fun r val => if lt val r then val else r) dblMax =
      vs.foldl (fun r val => if lt val r then val else r) r) :
    minFuncExprEval xs r = inOrder xs fun vs => ret ((f vs).foldl (fun r val => if lt val r then val else r) dblMax) := by
  induction xs generalizing f r with
  | nil => simp only [minFuncExprEval,inOrder,same,List.foldl_nil]
  | cons x xs ih =>
    rw [minFuncExprEval,inOrder]
    refine congrArg (andThen x) (funext fun v => ih (fun vs => f (v :: vs)) _ fun vs => ?_)
    rw [same,List.foldl_cons]

private theorem max_inOrder (xs : List (Eval α α)) (f : List α → List α) (r : α)
    (same : ∀ vs, (f vs).foldl (fun r val => if lt r val then val else r) dblMin =
      vs.foldl (fun r val => if lt r val then val else r) r) :
    maxFuncExprEval xs r = inOrder xs fun vs => ret ((f vs).foldl (fun r val => if lt r val then val else r) dblMin) := by
  induction xs generalizing f r with
  | nil => simp only [maxFuncExprEval,inOrder,same,List.foldl_nil]
  | cons x xs ih =>
    rw [maxFuncExprEval,inOrder]
    refine congrArg (andThen x) (funext fun v => ih (fun vs => f (v :: vs)) _ fun vs => ?_)
    rw [same,List.foldl_cons]

variable {node : Nat} {args : List (Expr α)} {xs : List (Eval α α)} {m : Mem α}

private theorem eval_inOrder (count : args.length = xs.length) :
    evalFuncExprEval node args xs m =
      inOrder (xs.take (operandCount m.captured node .eval args)) (finish m.captured node .eval args) m := by
  rcases args with _ | ⟨arg,args⟩
  · obtain rfl := List.length_eq_zero_iff.mp count.symm
    simp [evalFuncExprEval,inOrder,finish]
  · rcases xs with _ | ⟨x,xs⟩
    · simp at count
    · cases found : m.captured node with
      | some v => cases arg <;> simp [evalFuncExprEval,operandCount,inOrder,finish,found,ret]
      | none =>
        cases arg with
        | literal v => simp [evalFuncExprEval,operandCount,inOrder,finish,found,ret]
        | op | ref | func | flag => simp [evalFuncExprEval,operandCount,inOrder,finish,found]

private theorem changed_inOrder (count : args.length = xs.length) :
    changedFuncExprEval node args xs =
      inOrder (xs.take (operandCount m.captured node .changed args)) (finish m.captured node .changed args) := by
  rcases xs with _ | ⟨x,xs⟩
  · obtain rfl := List.length_eq_zero_iff.mp count
    simp [changedFuncExprEval,inOrder,finish]
  · cases literal : initial args with
    | some init => simp [changedFuncExprEval_initial literal count,operandCount,inOrder,finish,literal]
    | none =>
      obtain ⟨y,ys,rfl,body⟩ := changedFuncExprEval_none node literal count
      simp [body,operandCount,inOrder,finish,literal]

/-- The evaluators in this form. -/
theorem funcExprEval_inOrder (node : Nat) (func : Func) (count : args.length = xs.length) (m : Mem α) :
    funcExprEval node func args xs m =
      inOrder (xs.take (operandCount m.captured node func args)) (finish m.captured node func args) m := by
  cases func with
  | min =>
    rw [operandCount,count,List.take_length]
    exact congrFun (min_inOrder xs id dblMax fun _ => rfl) m
  | max =>
    rw [operandCount,count,List.take_length]
    exact congrFun (max_inOrder xs id dblMin fun _ => rfl) m
  | round => rcases xs with _ | ⟨x,xs⟩ <;> rfl
  | limit => rcases xs with _ | ⟨val,_ | ⟨low,_ | ⟨high,xs⟩⟩⟩ <;> rfl
  | eval => exact eval_inOrder count
  | changed => exact congrFun (changed_inOrder count) m

/-- An operator node. -/
theorem evalWith_op_inOrder (k : Expr α → Eval α α) (io : Io α) (vars : Variables α) (o : Op) (left right : Expr α) :
    evalWith k io vars (.op o left right) = inOrder ([left,right].map (evalWith k io vars)) (opFinish o) := rfl

/-- A function node. -/
theorem evalWith_inOrder (k : Expr α → Eval α α) (io : Io α) (vars : Variables α) (node : Nat) (func : Func)
    (args : List (Expr α)) (m : Mem α) :
    evalWith k io vars (.func node func args) m =
      inOrder ((args.take (operandCount m.captured node func args)).map (evalWith k io vars))
        (finish m.captured node func args) m := by
  rw [evalWith,evalArgs_eq_map,funcExprEval_inOrder node func (by simp) m,List.map_take]

end Starter.Sequence
