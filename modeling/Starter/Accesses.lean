import Starter.Expressions

/-!
What the evaluators of `src/expr.c` do to the arrays of arguments: their reads of
`args->pdata` and their writes of `data.literal`, in the order in which they come. Without
this log the evaluators here are those of the expressions.
-/
namespace Starter.Accesses
open Gdouble Expressions Lib.Approx

/-- An access of the evaluator of a function node. -/
inductive Access
  /-- `args->pdata[index]`, where `args->len` is `len`. -/
  | arg (node index len : Nat)
  /-- `data.literal` of an argument is written; `own` if that is the literal that
      `expr_new_func_changed` has added. -/
  | literal (node : Nat) (own : Bool)
deriving DecidableEq

/-- The access is inside of the array, or to a literal of the node's own. -/
def Access.Ok : Access → Prop
  | .arg _ index len => index < len
  | .literal _ own => own = true

/-- A computation with its accesses, also those before it fails or does not end. -/
abbrev Traced (α β : Type) := Mem α → List Access × Option (Outcome β × Mem α)

variable {α β γ : Type}

/-- The computation without the log. -/
def erase (x : Traced α β) : Eval α β := fun m => (x m).2

def quiet (x : Eval α β) : Traced α β := fun m => ([],x m)

def note (a : Access) (x : Traced α β) : Traced α β := fun m => (a :: (x m).1,(x m).2)

/-- Goes on with the value. -/
def chain (x : Traced α β) (f : β → Traced α γ) : Traced α γ := fun m =>
  match x m with
  | (log,none) => (log,none)
  | (log,some (.value v,m)) => (log ++ (f v m).1,(f v m).2)
  | (log,some (.error e,m)) => (log,some (.error e,m))
  | (log,some (.undefined,m)) => (log,some (.undefined,m))

/-- Goes on with the argument at an index; past the end there is none. -/
def pdata (node : Nat) (args : List (Traced α α)) (index : Nat) (f : Traced α α → Traced α β) : Traced α β :=
  note (.arg node index args.length) (match args[index]? with | some arg => f arg | none => quiet stuck)

section
variable [Gdouble α]

/-- The loops of `MIN` and `MAX`; `next` is what becomes of the result with one more value. -/
def loopTraced (node len : Nat) (next : α → α → α) : Nat → List (Traced α α) → α → Traced α α
  | _, [], r => quiet (ret r)
  | i, arg :: rest, r => note (.arg node i len) (chain arg fun val => loopTraced node len next (i + 1) rest (next r val))

def minTraced (node : Nat) (args : List (Traced α α)) : Traced α α :=
  loopTraced node args.length (fun r val => if lt val r then val else r) 0 args dblMax

def maxTraced (node : Nat) (args : List (Traced α α)) : Traced α α :=
  loopTraced node args.length (fun r val => if lt r val then val else r) 0 args dblMin

def roundTraced (node : Nat) (args : List (Traced α α)) : Traced α α :=
  pdata node args 0 fun arg => chain arg fun val => quiet (ret (round val))

def limitTraced (node : Nat) (args : List (Traced α α)) : Traced α α :=
  pdata node args 0 fun arg => chain arg fun val =>
    pdata node args 1 fun low => chain low fun min =>
      pdata node args 2 fun high => chain high fun max =>
        quiet (ret (if lt val min then min else if lt max val then max else val))

def evalTraced (node : Nat) (args : List (Expr α)) (evals : List (Traced α α)) : Traced α α :=
  pdata node evals 0 fun eval => fun m =>
    match m.captured node, args with
    | some v, _ => quiet (ret v) m
    | none, .literal v :: _ => quiet (ret v) m
    | none, _ =>
      chain eval (fun x => note (.arg node 0 evals.length) fun m =>
        ([],some (.undefined,{ m with captured := Function.update m.captured node (some x) }))) m

/-- Both arguments are read before the first one is evaluated. The array has one more than
    the rules give: the literal that `expr_new_func_changed` adds. -/
def changedTraced (node : Nat) (args : List (Expr α)) (evals : List (Traced α α)) : Traced α α :=
  note (.arg node 0 (evals.length + 1)) (note (.arg node 1 (evals.length + 1))
    (match args, evals with
    | [_], [eval] => chain eval fun val0 => note (.literal node true) (quiet (changedStore node dblMin val0))
    | _ :: .literal init :: _, eval :: _ =>
      chain eval fun val0 => note (.literal node false) (quiet (changedStore node init val0))
    | _ :: _ :: _, eval :: second :: _ =>
      chain eval fun _ => chain second fun _ => note (.literal node false) (quiet stuck)
    | _, _ => quiet stuck))

def funcTraced (node : Nat) (func : Func) (args : List (Expr α)) (evals : List (Traced α α)) : Traced α α :=
  match func with
  | .min => minTraced node evals
  | .max => maxTraced node evals
  | .round => roundTraced node evals
  | .limit => limitTraced node evals
  | .eval => evalTraced node args evals
  | .changed => changedTraced node args evals

def refTraced (k : Expr α → Traced α α) (io : Io α) (vars : Variables α) (id : String) : Traced α α :=
  match io.inputs id with
  | some input => quiet (ret input.val)
  | none =>
    match io.outputs id with
    | some output => quiet (ret output.val)
    | none =>
      match vars id with
      | some e => k e
      | none => quiet (fail ⟨.undefinedIdentifier,"ref_expr_eval: undefined identifier: " ++ id⟩)

mutual
def tracedWith (k : Expr α → Traced α α) (io : Io α) (vars : Variables α) : Expr α → Traced α α
  | .literal val => quiet (ret val)
  | .op o left right =>
    chain (tracedWith k io vars left) fun lval =>
      chain (tracedWith k io vars right) fun rval => quiet (ret (opApply o lval rval))
  | .ref id => refTraced k io vars id
  | .func node func args => funcTraced node func args (tracedArgs k io vars args)
  | .flag id bit => quiet (flagExprEval io id bit)

def tracedArgs (k : Expr α → Traced α α) (io : Io α) (vars : Variables α) : List (Expr α) → List (Traced α α)
  | [] => []
  | e :: es => tracedWith k io vars e :: tracedArgs k io vars es
end

/-- `expr_eval` with its accesses, following variables at most `depth` deep. -/
def exprTraced : Nat → Io α → Variables α → Expr α → Traced α α
  | 0, _, _, _ => fun _ => ([],none)
  | depth+1, io, vars, e => tracedWith (exprTraced depth io vars) io vars e

end

@[simp] theorem erase_quiet (x : Eval α β) : erase (quiet x) = x := rfl

@[simp] theorem erase_note (a : Access) (x : Traced α β) : erase (note a x) = erase x := rfl

@[simp] theorem erase_chain (x : Traced α β) (f : β → Traced α γ) :
    erase (chain x f) = andThen (erase x) fun v => erase (f v) := by
  funext m
  simp only [erase,chain,andThen]
  rcases x m with ⟨log,_ | ⟨_ | _ | _,m⟩⟩ <;> rfl

section
variable [Gdouble α]

theorem erase_min (node : Nat) (args : List (Traced α α)) :
    erase (minTraced node args) = minFuncExprEval (args.map erase) dblMax := by
  have loop : ∀ (len i : Nat) (args : List (Traced α α)) (r : α),
      erase (loopTraced node len (fun r val => if lt val r then val else r) i args r) = minFuncExprEval (args.map erase) r := by
    intro len i args r
    induction args generalizing i r with
    | nil => rfl
    | cons arg rest ih => simp only [loopTraced,erase_note,erase_chain,ih,List.map_cons,minFuncExprEval]
  exact loop _ 0 args dblMax

theorem erase_max (node : Nat) (args : List (Traced α α)) :
    erase (maxTraced node args) = maxFuncExprEval (args.map erase) dblMin := by
  have loop : ∀ (len i : Nat) (args : List (Traced α α)) (r : α),
      erase (loopTraced node len (fun r val => if lt r val then val else r) i args r) = maxFuncExprEval (args.map erase) r := by
    intro len i args r
    induction args generalizing i r with
    | nil => rfl
    | cons arg rest ih => simp only [loopTraced,erase_note,erase_chain,ih,List.map_cons,maxFuncExprEval]
  exact loop _ 0 args dblMin

theorem erase_round (node : Nat) (args : List (Traced α α)) :
    erase (roundTraced node args) = roundFuncExprEval (args.map erase) := by
  cases args <;> simp [roundTraced,pdata,roundFuncExprEval]

theorem erase_limit (node : Nat) (args : List (Traced α α)) :
    erase (limitTraced node args) = limitFuncExprEval (args.map erase) := by
  rcases args with _ | ⟨arg,_ | ⟨low,_ | ⟨high,rest⟩⟩⟩ <;> simp [limitTraced,pdata,limitFuncExprEval]

omit [Gdouble α] in
theorem erase_eval (node : Nat) (args : List (Expr α)) (evals : List (Traced α α)) (same : args.length = evals.length) :
    erase (evalTraced node args evals) = evalFuncExprEval node args (evals.map erase) := by
  cases evals with
  | nil =>
    obtain rfl : args = [] := List.length_eq_zero_iff.mp same
    rfl
  | cons eval evals =>
    cases args with
    | nil => cases same
    | cons arg args =>
      funext m
      simp only [evalTraced,pdata,erase_note,List.getElem?_cons_zero,List.map_cons,evalFuncExprEval]
      simp only [erase]
      cases m.captured node with
      | some v => rfl
      | none =>
        cases arg with
        | literal v => rfl
        | op | ref | func | flag => exact congrFun (erase_chain eval _) m

theorem erase_changed (node : Nat) (args : List (Expr α)) (evals : List (Traced α α)) (same : args.length = evals.length) :
    erase (changedTraced node args evals) = changedFuncExprEval node args (evals.map erase) := by
  rcases evals with _ | ⟨eval,_ | ⟨second,evals⟩⟩
  · obtain rfl : args = [] := List.length_eq_zero_iff.mp same
    rfl
  · obtain ⟨arg,rfl⟩ := List.length_eq_one_iff.mp same
    simp [changedTraced,changedFuncExprEval]
  · rcases args with _ | ⟨arg,_ | ⟨other,args⟩⟩
    · cases same
    · simp at same
    · cases other <;> simp [changedTraced,changedFuncExprEval]

theorem erase_func (node : Nat) (func : Func) (args : List (Expr α)) (evals : List (Traced α α))
    (same : args.length = evals.length) : erase (funcTraced node func args evals) = funcExprEval node func args (evals.map erase) := by
  cases func with
  | min => exact erase_min node evals
  | max => exact erase_max node evals
  | round => exact erase_round node evals
  | limit => exact erase_limit node evals
  | eval => exact erase_eval node args evals same
  | changed => exact erase_changed node args evals same

omit [Gdouble α] in
theorem erase_ref (k : Expr α → Traced α α) (io : Io α) (vars : Variables α) (id : String) :
    erase (refTraced k io vars id) = refExprEval (fun e => erase (k e)) io vars id := by
  unfold refTraced refExprEval
  cases io.inputs id with
  | some input => rfl
  | none =>
    cases io.outputs id with
    | some output => rfl
    | none => cases vars id <;> rfl

theorem tracedArgs_length (k : Expr α → Traced α α) (io : Io α) (vars : Variables α) (es : List (Expr α)) :
    es.length = (tracedArgs k io vars es).length := by
  induction es with
  | nil => rfl
  | cons e es ih => simp [tracedArgs,ih]

mutual
theorem erase_with (k : Expr α → Traced α α) (io : Io α) (vars : Variables α) :
    ∀ e : Expr α, erase (tracedWith k io vars e) = evalWith (fun e => erase (k e)) io vars e
  | .literal val => rfl
  | .op o left right => by
    simp only [tracedWith,erase_chain,erase_with k io vars left,erase_with k io vars right,erase_quiet,evalWith]
  | .ref id => erase_ref k io vars id
  | .func node func args => by
    rw [tracedWith,erase_func _ _ _ _ (tracedArgs_length k io vars args),erase_args k io vars args,evalWith]
  | .flag id bit => rfl

theorem erase_args (k : Expr α → Traced α α) (io : Io α) (vars : Variables α) :
    ∀ es : List (Expr α), (tracedArgs k io vars es).map erase = evalArgs (fun e => erase (k e)) io vars es
  | [] => rfl
  | e :: es => by rw [tracedArgs,List.map_cons,erase_with k io vars e,erase_args k io vars es,evalArgs]
end

end

/-- The numbers of arguments, as written, that the evaluator of a function can do with. -/
def neededCount : Func → Nat → Bool
  | .min, n => 1 ≤ n
  | .max, n => 1 ≤ n
  | .round, n => n = 1
  | .limit, n => n = 3
  | .eval, n => n = 1
  | .changed, n => n = 1

mutual
/-- Every function node of the tree has as many arguments as its evaluator needs. -/
def Counts : Expr α → Prop
  | .literal _ => True
  | .op _ left right => Counts left ∧ Counts right
  | .ref _ => True
  | .func _ func args => neededCount func args.length = true ∧ CountsAll args
  | .flag _ _ => True

def CountsAll : List (Expr α) → Prop
  | [] => True
  | e :: es => Counts e ∧ CountsAll es
end

/-- Whatever the nodes hold, every access is in order. -/
def Safe (x : Traced α β) : Prop := ∀ m, ∀ a ∈ (x m).1, a.Ok

theorem safe_quiet (x : Eval α β) : Safe (quiet x) := by
  intro m a member
  cases member

theorem safe_note {a : Access} {x : Traced α β} (ok : a.Ok) (safe : Safe x) : Safe (note a x) := by
  intro m b member
  rcases List.mem_cons.mp member with rfl | later
  · exact ok
  · exact safe m b later

theorem safe_chain {x : Traced α β} {f : β → Traced α γ} (safe : Safe x) (next : ∀ v, Safe (f v)) : Safe (chain x f) := by
  intro m a member
  have first := safe m
  simp only [chain] at member
  rcases result : x m with ⟨log,_ | ⟨v | _ | _,m'⟩⟩
  all_goals
    rw [result] at first member
    dsimp only at first member
  · exact first a member
  · rcases List.mem_append.mp member with inFirst | inNext
    · exact first a inFirst
    · exact next v m' a inNext
  · exact first a member
  · exact first a member

theorem safe_pdata {node : Nat} {args : List (Traced α α)} {index : Nat} {f : Traced α α → Traced α β}
    (inside : index < args.length) (next : ∀ arg ∈ args, Safe (f arg)) : Safe (pdata node args index f) := by
  refine safe_note inside ?_
  rw [List.getElem?_eq_getElem inside]
  exact next _ (List.getElem_mem inside)

section
variable [Gdouble α]

omit [Gdouble α] in
theorem safe_loop {node len i : Nat} {next : α → α → α} {args : List (Traced α α)} (r : α) (inside : i + args.length ≤ len)
    (safe : ∀ arg ∈ args, Safe arg) : Safe (loopTraced node len next i args r) := by
  induction args generalizing i r with
  | nil => exact safe_quiet _
  | cons arg rest ih =>
    rw [List.length_cons] at inside
    refine safe_note (show i < len by omega) (safe_chain (safe arg List.mem_cons_self) fun val => ?_)
    exact ih _ (by omega) fun other member => safe other (List.mem_cons_of_mem _ member)

theorem safe_round {node : Nat} {args : List (Traced α α)} (count : args.length = 1) (safe : ∀ arg ∈ args, Safe arg) :
    Safe (roundTraced node args) :=
  safe_pdata (by omega) fun arg member => safe_chain (safe arg member) fun _ => safe_quiet _

theorem safe_limit {node : Nat} {args : List (Traced α α)} (count : args.length = 3) (safe : ∀ arg ∈ args, Safe arg) :
    Safe (limitTraced node args) := by
  refine safe_pdata (by omega) fun arg member => safe_chain (safe arg member) fun val => ?_
  refine safe_pdata (by omega) fun low member => safe_chain (safe low member) fun min => ?_
  exact safe_pdata (by omega) fun high member => safe_chain (safe high member) fun max => safe_quiet _

omit [Gdouble α] in
theorem safe_eval {node : Nat} {args : List (Expr α)} {evals : List (Traced α α)} (count : evals.length = 1)
    (safe : ∀ eval ∈ evals, Safe eval) : Safe (evalTraced node args evals) := by
  refine safe_pdata (by omega) fun eval member m => ?_
  have captures : Safe (chain eval fun x => note (.arg node 0 evals.length) fun m =>
      (([],some (Outcome.undefined,{ m with captured := Function.update m.captured node (some x) })) :
        List Access × Option (Outcome α × Mem α))) :=
    safe_chain (safe eval member) fun x => safe_note (show 0 < evals.length by omega) fun m a none => by cases none
  cases m.captured node with
  | some v => exact safe_quiet _ m
  | none =>
    cases args with
    | nil => exact captures m
    | cons arg args =>
      cases arg with
      | literal v => exact safe_quiet _ m
      | op | ref | func | flag => exact captures m

theorem safe_changed {node : Nat} {args : List (Expr α)} {evals : List (Traced α α)} (count : args.length = 1)
    (same : args.length = evals.length) (safe : ∀ eval ∈ evals, Safe eval) : Safe (changedTraced node args evals) := by
  obtain ⟨arg,rfl⟩ := List.length_eq_one_iff.mp count
  obtain ⟨eval,rfl⟩ := List.length_eq_one_iff.mp same.symm
  refine safe_note (by decide : (0 : Nat) < 2) (safe_note (by decide : (1 : Nat) < 2) ?_)
  exact safe_chain (safe eval List.mem_cons_self) fun val0 => safe_note rfl (safe_quiet _)

theorem safe_func {node : Nat} {func : Func} {args : List (Expr α)} {evals : List (Traced α α)}
    (count : neededCount func args.length = true) (same : args.length = evals.length) (safe : ∀ eval ∈ evals, Safe eval) :
    Safe (funcTraced node func args evals) := by
  cases func <;> simp only [neededCount,decide_eq_true_eq] at count
  case min => exact safe_loop _ (by omega) safe
  case max => exact safe_loop _ (by omega) safe
  case round => exact safe_round (by omega) safe
  case limit => exact safe_limit (by omega) safe
  case eval => exact safe_eval (by omega) safe
  case changed => exact safe_changed count same safe

omit [Gdouble α] in
theorem safe_ref {k : Expr α → Traced α α} {io : Io α} {vars : Variables α} (later : ∀ id e, vars id = some e → Safe (k e))
    (id : String) : Safe (refTraced k io vars id) := by
  unfold refTraced
  cases io.inputs id with
  | some input => exact safe_quiet _
  | none =>
    cases io.outputs id with
    | some output => exact safe_quiet _
    | none =>
      cases found : vars id with
      | some e => exact later id e found
      | none => exact safe_quiet _

mutual
theorem safe_with {k : Expr α → Traced α α} {io : Io α} {vars : Variables α} (later : ∀ id e, vars id = some e → Safe (k e)) :
    ∀ e : Expr α, Counts e → Safe (tracedWith k io vars e)
  | .literal _, _ => safe_quiet _
  | .op _ left right, counts =>
    safe_chain (safe_with later left counts.1) fun _ => safe_chain (safe_with later right counts.2) fun _ => safe_quiet _
  | .ref id, _ => safe_ref later id
  | .func _ _ args, counts =>
    safe_func counts.1 (tracedArgs_length k io vars args) (safe_args later args counts.2)
  | .flag _ _, _ => safe_quiet _

theorem safe_args {k : Expr α → Traced α α} {io : Io α} {vars : Variables α} (later : ∀ id e, vars id = some e → Safe (k e)) :
    ∀ es : List (Expr α), CountsAll es → ∀ eval ∈ tracedArgs k io vars es, Safe eval
  | [], _ => by
    intro eval member
    cases member
  | e :: es, counts => by
    intro eval member
    rcases List.mem_cons.mp member with rfl | later'
    · exact safe_with later e counts.1
    · exact safe_args later es counts.2 eval later'
end

/-- With the right numbers of arguments, in the tree and in the variables, no evaluation reads or writes amiss. -/
theorem exprTraced_safe {io : Io α} {vars : Variables α} {e : Expr α} (depth : Nat) (counts : Counts e)
    (stored : ∀ id e, vars id = some e → Counts e) : Safe (exprTraced depth io vars e) := by
  induction depth generalizing e with
  | zero =>
    intro m a member
    cases member
  | succ depth ih => exact safe_with (fun id e found => ih (stored id e found)) e counts

end

end Starter.Accesses
