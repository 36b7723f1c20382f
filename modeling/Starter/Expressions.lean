import Starter.Lib.Approx
import Starter.Objects

/-!
The expressions of the rules (`src/expr.c`). A node never changes once it is parsed but
for two kinds: `EVAL` replaces its argument by a literal, and `CHANGED` overwrites the
literal that it remembers. What these two have written is kept apart from the trees, in
a `Mem` indexed by the address of the node, so that a tree that a rule and a variable
share has one memory.
-/
namespace Starter.Expressions
open Gdouble Objects
open Lib.Approx

inductive Op
  | eq | ne | lt | le | gt | ge | and | or | add | sub | mul | div
deriving DecidableEq, Repr

inductive Func
  | min | max | round | limit | eval | changed
deriving DecidableEq, Repr

/-- `Expr`. The operators and functions are those the grammar can build; `args` are the
    arguments as written, without the literal that `CHANGED` adds. -/
inductive Expr (α : Type)
  | literal (val : α)
  | op (op : Op) (left right : Expr α)
  | ref (id : String)
  | func (node : Nat) (func : Func) (args : List (Expr α))
  | flag (ref : String) (bit : IoFlags)

/-- What evaluation has written into the nodes: the literal in place of the argument of
    an `EVAL` node, and the literal that a `CHANGED` node remembers. -/
structure Mem (α : Type) where
  captured : Nat → Option α
  seen : Nat → Option α

/-- The nodes as the parser leaves them. -/
def freshMem {α : Type} : Mem α := ⟨fun _ => none,fun _ => none⟩

/-- How a call of an evaluator ends. `undefined` is a call to which C gives no meaning:
    an argument read past the end of the array, a literal written into a node of another
    type, or an evaluator that returns without a value. -/
inductive Outcome (β : Type)
  | value (v : β)
  | error (e : StError)
  | undefined
deriving DecidableEq

/-- A computation over the memory of the nodes; `none` when it runs out of depth. -/
abbrev Eval (α β : Type) := Mem α → Option (Outcome β × Mem α)

/-- The tables `all_inputs` and `all_outputs`, read through to the mirrored objects. -/
structure Io (α : Type) where
  inputs : String → Option (IoObject α)
  outputs : String → Option (IoObject α)

/-- The table `engine->variables`, from names to stored expressions. -/
abbrev Variables (α : Type) := String → Option (Expr α)

variable {α β γ : Type}

def ret (v : β) : Eval α β := fun m => some (.value v,m)
def fail (e : StError) : Eval α β := fun m => some (.error e,m)
def stuck : Eval α β := fun m => some (.undefined,m)

/-- Goes on with the value; a failed or undefined computation ends the whole. -/
def andThen (x : Eval α β) (f : β → Eval α γ) : Eval α γ := fun m =>
  match x m with
  | none => none
  | some (.value v,m) => f v m
  | some (.error e,m) => some (.error e,m)
  | some (.undefined,m) => some (.undefined,m)

section
variable [Gdouble α]

/-- The operators of `op_expr_eval`. -/
def opApply : Op → α → α → α
  | .eq, l, r => ofBool (eq l r)
  | .ne, l, r => ofBool (!eq l r)
  | .lt, l, r => ofBool (lt l r)
  | .le, l, r => ofBool (le l r)
  | .gt, l, r => ofBool (lt r l)
  | .ge, l, r => ofBool (le r l)
  | .and, l, r => ofBool (truth l && truth r)
  | .or, l, r => ofBool (truth l || truth r)
  | .add, l, r => add l r
  | .sub, l, r => sub l r
  | .mul, l, r => mul l r
  | .div, l, r => div l r

/-- The loop of `min_func_expr_eval`. -/
def minFuncExprEval : List (Eval α α) → α → Eval α α
  | [], r => ret r
  | arg :: rest, r => andThen arg fun val => minFuncExprEval rest (if lt val r then val else r)

/-- The loop of `max_func_expr_eval`. -/
def maxFuncExprEval : List (Eval α α) → α → Eval α α
  | [], r => ret r
  | arg :: rest, r => andThen arg fun val => maxFuncExprEval rest (if lt r val then val else r)

def roundFuncExprEval : List (Eval α α) → Eval α α
  | [] => stuck
  | arg :: _ => andThen arg fun val => ret (round val)

def limitFuncExprEval : List (Eval α α) → Eval α α
  | [] => stuck
  | [arg] => andThen arg fun _ => stuck
  | [arg,low] => andThen arg fun _ => andThen low fun _ => stuck
  | arg :: low :: high :: _ =>
    andThen arg fun val => andThen low fun min => andThen high fun max =>
      ret (if lt val min then min else if lt max val then max else val)

/-- `eval_func_expr_eval` on the arguments as written and their evaluators. -/
def evalFuncExprEval (node : Nat) : List (Expr α) → List (Eval α α) → Eval α α
  | arg :: _, eval :: _ => fun m =>
    match m.captured node, arg with
    | some v, _ => some (.value v,m)
    | none, .literal v => some (.value v,m)
    | none, _ =>
      -- The branch that captures the value has no `return`.
      andThen eval (fun x m => some (.undefined,{ m with captured := Function.update m.captured node (some x) })) m
  | _, _ => stuck

/-- What `changed_func_expr_eval` does once its argument has the value `val0`, where the
    literal it remembers is `init` until it is first written. -/
def changedStore (node : Nat) (init val0 : α) : Eval α α := fun m =>
  let val1 := (m.seen node).getD init
  some (.value (if eq val1 dblMin then one else ofBool (!eq val0 val1)),
    { m with seen := Function.update m.seen node (some val0) })

/-- `changed_func_expr_eval`. Its second argument is the literal that
    `expr_new_func_changed` adds, unless the rules give more than one argument. -/
def changedFuncExprEval (node : Nat) : List (Expr α) → List (Eval α α) → Eval α α
  | [_], [eval] => andThen eval fun val0 => changedStore node dblMin val0
  | _ :: .literal init :: _, eval :: _ => andThen eval fun val0 => changedStore node init val0
  | _ :: _ :: _, eval :: second :: _ => andThen eval fun _ => andThen second fun _ => stuck
  | _, _ => stuck

/-- The evaluator that a function node calls. -/
def funcExprEval (node : Nat) (func : Func) (args : List (Expr α)) (evals : List (Eval α α)) : Eval α α :=
  match func with
  | .min => minFuncExprEval evals dblMax
  | .max => maxFuncExprEval evals dblMin
  | .round => roundFuncExprEval evals
  | .limit => limitFuncExprEval evals
  | .eval => evalFuncExprEval node args evals
  | .changed => changedFuncExprEval node args evals

/-- `ref_expr_eval`, with `k` for the evaluation of the expression of a variable. -/
def refExprEval (k : Expr α → Eval α α) (io : Io α) (vars : Variables α) (id : String) : Eval α α :=
  match io.inputs id with
  | some input => ret input.val
  | none =>
    match io.outputs id with
    | some output => ret output.val
    | none =>
      match vars id with
      | some e => k e
      | none => fail ⟨.undefinedIdentifier,"ref_expr_eval: undefined identifier: " ++ id⟩

/-- `flag_expr_eval`. -/
def flagExprEval (io : Io α) (id : String) (bit : IoFlags) : Eval α α :=
  match io.inputs id with
  | some input => ret (ofBool (hasFlag input.flags bit))
  | none =>
    match io.outputs id with
    | some output => ret (ofBool (hasFlag output.flags bit))
    | none => fail ⟨.undefinedIdentifier,"flag_expr_eval: undefined identifier for FLAG: " ++ id⟩

mutual
/-- The body of `expr_eval`, with `k` for the evaluation of the expression of a variable. -/
def evalWith (k : Expr α → Eval α α) (io : Io α) (vars : Variables α) : Expr α → Eval α α
  | .literal val => ret val
  | .op o left right =>
    andThen (evalWith k io vars left) fun lval =>
      andThen (evalWith k io vars right) fun rval => ret (opApply o lval rval)
  | .ref id => refExprEval k io vars id
  | .func node func args => funcExprEval node func args (evalArgs k io vars args)
  | .flag id bit => flagExprEval io id bit

def evalArgs (k : Expr α → Eval α α) (io : Io α) (vars : Variables α) : List (Expr α) → List (Eval α α)
  | [] => []
  | e :: es => evalWith k io vars e :: evalArgs k io vars es
end

/-- `evalWith` as the functional of a recursion. -/
def evalStep (io : Io α) (vars : Variables α) (f : Expr α × Mem α → Option (Outcome α × Mem α)) :
    Expr α × Mem α → Option (Outcome α × Mem α) :=
  fun call => evalWith (fun e m => f (e,m)) io vars call.1 call.2

/-- `expr_eval`, following variables at most `depth` deep. -/
def exprEval (depth : Nat) (io : Io α) (vars : Variables α) (e : Expr α) : Eval α α :=
  fun m => approx (evalStep io vars) depth (e,m)

theorem exprEval_succ (depth : Nat) (io : Io α) (vars : Variables α) (e : Expr α) :
    exprEval (depth+1) io vars e = evalWith (exprEval depth io vars) io vars e := rfl

end

/-- The answer of a loop that stops at the first TRUE. -/
def anyRef : List (Option Bool) → Option Bool
  | [] => some false
  | none :: _ => none
  | some true :: _ => some true
  | some false :: rest => anyRef rest

/-- `ref_expr_have_ref_to`, with `k` for the expression of a variable. -/
def refExprHaveRefTo (k : Expr α → Option Bool) (vars : Variables α) (id ref : String) : Option Bool :=
  if ref = id then some true
  else
    match vars ref with
    | some e => k e
    | none => some false

mutual
/-- The body of `expr_have_ref_to`, with `k` for the expression of a variable. The
    argument of an `EVAL` node that has been captured is a literal. -/
def haveRefWith (k : Expr α → Option Bool) (vars : Variables α) (captured : Nat → Option α) (id : String) :
    Expr α → Option Bool
  | .literal _ => some false
  | .op _ left right => anyRef [haveRefWith k vars captured id left,haveRefWith k vars captured id right]
  | .ref ref => refExprHaveRefTo k vars id ref
  | .func node func args =>
    let refs := haveRefArgs k vars captured id args
    match func, captured node with
    | .eval, some _ => anyRef refs.tail
    | _, _ => anyRef refs
  | .flag ref _ => some (ref = id)

def haveRefArgs (k : Expr α → Option Bool) (vars : Variables α) (captured : Nat → Option α) (id : String) :
    List (Expr α) → List (Option Bool)
  | [] => []
  | e :: es => haveRefWith k vars captured id e :: haveRefArgs k vars captured id es
end

/-- `expr_have_ref_to`, following variables at most `depth` deep. -/
def exprHaveRefTo (depth : Nat) (vars : Variables α) (captured : Nat → Option α) (id : String) :
    Expr α → Option Bool :=
  approx (fun k => haveRefWith k vars captured id) depth

theorem exprHaveRefTo_succ (depth : Nat) (vars : Variables α) (captured : Nat → Option α) (id : String) :
    exprHaveRefTo (depth+1) vars captured id =
      haveRefWith (exprHaveRefTo depth vars captured id) vars captured id := rfl

section
variable [Gdouble α]

mutual
/-- The tree as it stands in memory: captured arguments are literals, and a `CHANGED`
    node has the literal that it remembers among its arguments. -/
def current (m : Mem α) : Expr α → Expr α
  | .literal val => .literal val
  | .op o left right => .op o (current m left) (current m right)
  | .ref id => .ref id
  | .func node func args =>
    let now := currentArgs m args
    match func, m.captured node, m.seen node with
    | .eval, some v, _ => .func node .eval (.literal v :: now.tail)
    | .changed, _, some v => .func node .changed ((now ++ [Expr.literal dblMin]).set 1 (.literal v))
    | .changed, _, none => .func node .changed (now ++ [Expr.literal dblMin])
    | f, _, _ => .func node f now
  | .flag id bit => .flag id bit

def currentArgs (m : Mem α) : List (Expr α) → List (Expr α)
  | [] => []
  | e :: es => current m e :: currentArgs m es
end

mutual
/-- The loop through two trees of `expr_equal`, as they stand in memory. A function node is
    equal to itself. -/
def sameTree : Expr α → Expr α → Bool
  | .literal x, .literal y => eq x y
  | .op o l r, .op o' l' r' => decide (o = o') && sameTree l l' && sameTree r r'
  | .ref id, .ref id' => decide (id = id')
  | .func node func args, .func node' func' args' =>
    decide (node = node') || (decide (func = func') && sameTrees args args')
  | .flag id bit, .flag id' bit' => decide (bit = bit') && decide (id = id')
  | _, _ => false

def sameTrees : List (Expr α) → List (Expr α) → Bool
  | [], [] => true
  | e :: es, e' :: es' => sameTree e e' && sameTrees es es'
  | _, _ => false
end

variable [DecidableEq α]

mutual
/-- The two are one tree, with its nodes at one address. -/
def identical : Expr α → Expr α → Bool
  | .literal x, .literal y => decide (x = y)
  | .op o l r, .op o' l' r' => decide (o = o') && identical l l' && identical r r'
  | .ref id, .ref id' => decide (id = id')
  | .func node func args, .func node' func' args' =>
    decide (node = node') && decide (func = func') && identicalArgs args args'
  | .flag id bit, .flag id' bit' => decide (bit = bit') && decide (id = id')
  | _, _ => false

def identicalArgs : List (Expr α) → List (Expr α) → Bool
  | [], [] => true
  | e :: es, e' :: es' => identical e e' && identicalArgs es es'
  | _, _ => false
end

omit [Gdouble α] in
mutual
theorem identical_iff : ∀ a b : Expr α, identical a b = true ↔ a = b
  | .literal _, b => by cases b <;> simp [identical]
  | .op _ l r, b => by cases b <;> simp [identical,identical_iff l,identical_iff r,and_assoc]
  | .ref _, b => by cases b <;> simp [identical]
  | .func _ _ args, b => by cases b <;> simp [identical,identicalArgs_iff args,and_assoc]
  | .flag _ _, b => by cases b <;> simp [identical,and_comm]

theorem identicalArgs_iff : ∀ as bs : List (Expr α), identicalArgs as bs = true ↔ as = bs
  | [], bs => by cases bs <;> simp [identicalArgs]
  | a :: as, bs => by cases bs <;> simp [identicalArgs,identical_iff a,identicalArgs_iff as]
end

/-- `expr_equal`. A tree is equal to itself, whatever is in it. -/
def exprEqual (m : Mem α) (a b : Expr α) : Bool := identical a b || sameTree (current m a) (current m b)

end

end Starter.Expressions
