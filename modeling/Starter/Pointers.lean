import Starter.Actions
import Starter.Lib.Counting

/-!
The expressions as they lie in memory (`src/expr.c`, the constructors of `src/engine.c` and
`src/var.c`, and the actions of `src/rules.y`). A tree is a graph of `Expr` cells with
counters; `EVAL` and `CHANGED` write into the cells, and who gives up an expression calls
`expr_unref`. A function node has the only reference to its array of arguments, so that the
array is a part of the node. Addresses are never used twice, and an access to a cell that is
not allocated is a fault.
-/
namespace Starter.Pointers
open Gdouble Objects Grammar Lib.Lr Lib.Counting
open Expressions (Op Func Outcome Io)

abbrev Addr := Nat

/-- The union `data` of an `Expr`, with its `type`. -/
inductive Data (α : Type)
  | literal (val : α)
  | op (op : Op)
  | ref (id : String)
  | func (func : Func) (args : List Addr)
  | flag (ref : String) (bit : IoFlags)

/-- `Expr` without its `nref`, which is in the cell. -/
structure Node (α : Type) where
  data : Data α
  left : Option Addr
  right : Option Addr

abbrev Memory (α : Type) := Heap (Node α)

variable {α β γ : Type}

def Data.args : Data α → List Addr
  | .func _ args => args
  | _ => []

/-- `type == EXPR_TYPE_LITERAL`. -/
def Data.isLiteral : Data α → Bool
  | .literal _ => true
  | _ => false

/-- The expressions that a node owns. -/
def children (node : Node α) : List Addr := node.data.args ++ (node.left.toList ++ node.right.toList)

/-! ### Counting -/

/-- `expr_ref`. -/
def exprRef (self : Addr) (h : Memory α) : Option (Memory α) := h.retain self

/-- `if (self->left) expr_unref (self->left);` -/
def unrefSome (unref : Addr → Memory α → Option (Memory α)) : Option Addr → Memory α → Option (Memory α)
  | none, h => some h
  | some a, h => unref a h

/-- `expr_unref`, with calls nested less than `n` deep: the `destroy` of a function gives up
    the arguments. -/
def exprUnrefWithin : Nat → Addr → Memory α → Option (Memory α)
  | 0, _, _ => none
  | n+1, self, h => (h.cells self).bind fun cell =>
    if 1 < cell.nref then some (h.set self (some { cell with nref := cell.nref - 1 }))
    else
      (releaseAll (exprUnrefWithin n) cell.node.data.args h).bind fun h =>
        (unrefSome (exprUnrefWithin n) cell.node.left h).bind fun h =>
          (unrefSome (exprUnrefWithin n) cell.node.right h).bind (Heap.free self)

/-- `expr_unref`. There are no more cells than have been allocated. -/
def exprUnref (self : Addr) (h : Memory α) : Option (Memory α) := exprUnrefWithin h.fresh self h

/-! ### Constructors -/

def exprNewLiteral (val : α) (h : Memory α) : Addr × Memory α := (h.fresh,h.allocate ⟨.literal val,none,none⟩)

def exprNewRef (ref : String) (h : Memory α) : Addr × Memory α := (h.fresh,h.allocate ⟨.ref ref,none,none⟩)

def exprNewFlag (ref : String) (bit : IoFlags) (h : Memory α) : Addr × Memory α :=
  (h.fresh,h.allocate ⟨.flag ref bit,none,none⟩)

def exprNewOp (op : Op) (left right : Addr) (h : Memory α) : Option (Addr × Memory α) :=
  (exprRef left h).bind fun h => (exprRef right h).map fun h => (h.fresh,h.allocate ⟨.op op,some left,some right⟩)

/-- `expr_new_func`. The caller gives up its reference to the array. -/
def exprNewFunc (func : Func) (args : List Addr) (h : Memory α) : Addr × Memory α :=
  (h.fresh,h.allocate ⟨.func func args,none,none⟩)

/-- `Assign`. -/
structure Assign where
  id : String
  rval : Addr
  flagBit : IoFlags

/-- `LabelEntry`. -/
structure LabelEntry where
  cond : Addr
  ass : Assign

/-- `LabelBlock`. -/
structure LabelBlock where
  entries : List LabelEntry

/-- `Trigger`. -/
structure Trigger where
  cond : Addr
  ass : List Assign

/-- `assign_new_flag`, and `assign_new` where the bit is 0. -/
def assignNew (id : String) (bit : IoFlags) (rval : Addr) (h : Memory α) : Option (Assign × Memory α) :=
  (exprRef rval h).map fun h => (⟨id,rval,bit⟩,h)

def labelEntryNew (cond : Addr) (ass : Assign) (h : Memory α) : Option (LabelEntry × Memory α) :=
  (exprRef cond h).map fun h => (⟨cond,ass⟩,h)

def triggerNew (cond : Addr) (ass : List Assign) (h : Memory α) : Option (Trigger × Memory α) :=
  (exprRef cond h).map fun h => (⟨cond,ass⟩,h)

/-! ### The actions of the parser -/

/-- The semantic values, as pointers. -/
inductive Val (α : Type)
  | unset
  | dval (v : α)
  | sval (id : String)
  | uval (bit : IoFlags)
  | expr (a : Addr)
  | args (as : List Addr)
  | assign (a : Assign)
  | assigns (as : List Assign)
  | entry (e : LabelEntry)
  | entries (es : List LabelEntry)
  | block (b : LabelBlock)
  | trigger (t : Trigger)

/-- What the actions write: memory, the engine, what nobody has a pointer to any more without
    having given it up, whether an action has read a value that none has made, and whether one
    has touched a cell that is not allocated. A variable that is declared again is replaced in
    the table, and the old one gives up nothing (`st_var_finalize`). -/
structure Build (α : Type) where
  memory : Memory α
  labels : List LabelBlock
  triggers : List Trigger
  vars : List (String × Addr)
  lost : List Addr
  undefined : Bool
  fault : Bool

def emptyBuild : Build α := ⟨⟨fun _ => none,0⟩,[],[],[],[],false,false⟩

def Build.readUnset (s : Build α) : Val α × Build α := (.unset,{ s with undefined := true })

/-- What an action makes of memory; the value may be put into the engine. -/
def Build.onMemory (s : Build α) (f : Memory α → Option (β × Memory α)) (k : β → Build α → Val α × Build α) : Val α × Build α :=
  match f s.memory with
  | some (b,h) => k b { s with memory := h }
  | none => (.unset,{ s with fault := true })

/-- `g_hash_table_insert (engine->variables, name, st_var_new (name, value))`, where `value` has
    been counted. -/
def Build.insert (s : Build α) (name : String) (value : Addr) : Build α :=
  { s with
    vars := s.vars.filter (fun entry => entry.1 ≠ name) ++ [(name,value)]
    lost := s.lost ++ (s.vars.lookup name).toList }

/-- The memory and what has been made of it, with references given up afterwards. -/
def thenUnref (as : List Addr) (made : Option (β × Memory α)) : Option (β × Memory α) :=
  made.bind fun r => (releaseAll exprUnref as r.2).map fun h => (r.1,h)

/-- The entries of a label block get its name, and its flag. -/
def labelBlockNew (id : String) (bit : IoFlags) (entries : List LabelEntry) : LabelBlock :=
  ⟨entries.map fun e => { e with ass := { e.ass with id := id,flagBit := bit } }⟩

section
variable [Gdouble α]

/-- The constructor of a call; `expr_new_func_changed` adds a literal to the array. -/
def newFunc (func : Func) (args : List Addr) (h : Memory α) : Addr × Memory α :=
  match func with
  | .changed =>
    let last := exprNewLiteral dblMin h
    exprNewFunc .changed (args ++ [last.1]) last.2
  | func => exprNewFunc func args h

/-- The action of a call; the array of an unknown function is left behind. -/
def call (id : String) (args : Val α) (s : Build α) : Val α × Build α :=
  match Actions.funcOf id with
  | none =>
    match args with
    | .args as => (.unset,{ s with lost := s.lost ++ as })
    | _ => (.unset,s)
  | some func =>
    match args with
    | .args as => s.onMemory (fun h => some (newFunc func as h)) fun a s => (.expr a,s)
    | _ => s.readUnset

/-- The actions that make or use expressions. -/
def expAct (r : Rule) (vals : List (Val α)) (s : Build α) : Val α × Build α :=
  match r, vals with
  | .value, [.dval v] => s.onMemory (fun h => some (exprNewLiteral v h)) fun a s => (.expr a,s)
  | .identifier, [.sval id] => s.onMemory (fun h => some (exprNewRef id h)) fun a s => (.expr a,s)
  | .flag, [.sval id,_,.uval bit] => s.onMemory (fun h => some (exprNewFlag id bit h)) fun a s => (.expr a,s)
  | .binary op, [.expr left,_,.expr right] =>
    s.onMemory (fun h => thenUnref [left,right] (exprNewOp op left right h)) fun a s => (.expr a,s)
  | .parentheses, [_,v,_] => (v,s)
  | .minus, [_,.expr e] =>
    s.onMemory (fun h =>
      let le := exprNewLiteral (ofRat (-1)) h
      thenUnref [le.1,e] (exprNewOp .mul le.1 e le.2)) fun a s => (.expr a,s)
  | .call, [.sval id,_,args,_] => call id args s
  | .argumentsNone, _ => (.unset,s)
  | .argumentsOne, [.expr e] => (.args [e],s)
  | .argumentsMore, [.args es,_,.expr e] => (.args (es ++ [e]),s)
  | _, _ => s.readUnset

/-- The action of a rule. Of a block or trigger that is in the engine no other reference counts. -/
def act (r : Rule) (vals : List (Val α)) (s : Build α) : Val α × Build α :=
  match r, vals with
  | .labelBlock, [.block b] => (.unset,{ s with labels := s.labels ++ [b] })
  | .triggerStatement, [.trigger t] => (.unset,{ s with triggers := s.triggers ++ [t] })
  | .block, [.sval id,_,.entries es,_] => (.block (labelBlockNew id 0 es),s)
  | .flagBlock, [.sval id,_,.uval bit,_,.entries es,_] => (.block (labelBlockNew id bit es),s)
  | .entriesOne, [.entry e] => (.entries [e],s)
  | .entriesMore, [.entries es,.entry e] => (.entries (es ++ [e]),s)
  | .entry, [_,.expr rval,_,.expr cond,_] =>
    s.onMemory (fun h => thenUnref [rval,cond] ((assignNew "" 0 rval h).bind fun r => labelEntryNew cond r.1 r.2))
      fun e s => (.entry e,s)
  | .trigger, [_,_,.expr cond,_,.assigns as,_] =>
    s.onMemory (fun h => thenUnref [cond] (triggerNew cond as h)) fun t s => (.trigger t,s)
  | .assignmentsOne, [.assign a] => (.assigns [a],s)
  | .assignmentsMore, [.assigns as,_,.assign a] => (.assigns (as ++ [a]),s)
  | .assignment, [.sval id,_,.expr e] =>
    s.onMemory (fun h => thenUnref [e] (assignNew id 0 e h)) fun a s => (.assign a,s)
  | .flagAssignment, [.sval id,_,.uval bit,_,.expr e] =>
    s.onMemory (fun h => thenUnref [e] (assignNew id bit e h)) fun a s => (.assign a,s)
  | .varDeclaration, [_,.sval id,_] =>
    s.onMemory (fun h =>
      let v := exprNewLiteral zero h
      thenUnref [v.1] ((exprRef v.1 v.2).map fun h => (v.1,h))) fun v s => (.unset,s.insert id v)
  | .varInitialized, [_,.sval id,_,.expr e,_] =>
    s.onMemory (fun h => thenUnref [e] ((exprRef e h).map fun h => (e,h))) fun v s => (.unset,s.insert id v)
  | .accept, _ | .program, _ | .instructionsOne, _ | .instructionsMore, _ | .declaration, _ => (.unset,s)
  | r, vals => expAct r vals s

def semantics : Semantics Terminal Rule (Syntax.Token α) (Val α) (Build α) where
  kind := Syntax.Token.kind
  value
    | .value v => .dval v
    | .identifier id => .sval id
    | .flagName bit => .uval bit
    | _ => .unset
  act := act

end

/-! ### Evaluation -/

/-- How a call on memory ends: with an outcome, or not within the depth, or in a fault. -/
inductive Ends (α β : Type)
  | done (out : Outcome β) (h : Memory α)
  | deeper
  | fault

abbrev Run (α β : Type) := Memory α → Ends α β

def Run.ret (v : β) : Run α β := fun h => .done (.value v) h
def Run.fail (e : StError) : Run α β := fun h => .done (.error e) h
def Run.stuck : Run α β := fun h => .done .undefined h

/-- Goes on with the value. -/
def Run.andThen (x : Run α β) (f : β → Run α γ) : Run α γ := fun h =>
  match x h with
  | .done (.value v) h => f v h
  | .done (.error e) h => .done (.error e) h
  | .done .undefined h => .done .undefined h
  | .deeper => .deeper
  | .fault => .fault

/-- `*self`. -/
def deref (self : Addr) : Run α (Node α) := fun h =>
  match h.cells self with
  | some cell => .done (.value cell.node) h
  | none => .fault

/-- A pointer that is followed is not NULL. -/
def nonNull : Option Addr → Run α Addr
  | some a => .ret a
  | none => fun _ => .fault

/-- `self->data.func.args->pdata[i]`, to which C gives no meaning past the end. -/
def pdata (self : Addr) (i : Nat) : Run α Addr :=
  (deref self).andThen fun node =>
    match node.data.args[i]? with
    | some a => .ret a
    | none => .stuck

/-- What `eval_func_expr_eval` does to its argument: a literal is put in its place, and it is given up. -/
def capture (self arg : Addr) (xres : α) (h : Memory α) : Option (Memory α) :=
  let xarg := exprNewLiteral xres h
  (xarg.2.cells self).bind fun cell =>
    (xarg.2.write self { cell.node with data := match cell.node.data with
      | .func func args => .func func (args.set 0 xarg.1)
      | data => data }).bind (exprUnref arg)

/-- `arg->data.literal = val`, to which C gives no meaning where `arg` is no literal. -/
def storeLiteral (arg : Addr) (val : α) : Run α Unit :=
  (deref arg).andThen fun node h =>
    if node.data.isLiteral then
      match h.write arg { node with data := .literal val } with
      | some h => .done (.value ()) h
      | none => .fault
    else .done .undefined h

section
variable [Gdouble α] (k : Addr → Run α α)

/-- `op_expr_eval`. -/
def opExprEval (self : Addr) (op : Op) : Run α α :=
  (deref self).andThen fun node => (nonNull node.left).andThen fun left => (k left).andThen fun lval =>
    (deref self).andThen fun node => (nonNull node.right).andThen fun right => (k right).andThen fun rval =>
      .ret (Expressions.opApply op lval rval)

/-- The loops of `min_func_expr_eval` and `max_func_expr_eval` over the arguments that are left. -/
def argsLoop (better : α → α → Bool) (self : Addr) : Nat → Nat → α → Run α α
  | 0, _, r => .ret r
  | left+1, i, r =>
    (pdata self i).andThen fun arg => (k arg).andThen fun val =>
      argsLoop better self left (i+1) (if better val r then val else r)

def minFuncExprEval (self : Addr) : Run α α :=
  (deref self).andThen fun node => argsLoop k (fun val r => lt val r) self node.data.args.length 0 dblMax

def maxFuncExprEval (self : Addr) : Run α α :=
  (deref self).andThen fun node => argsLoop k (fun val r => lt r val) self node.data.args.length 0 dblMin

def roundFuncExprEval (self : Addr) : Run α α :=
  (pdata self 0).andThen fun arg => (k arg).andThen fun val => .ret (round val)

def limitFuncExprEval (self : Addr) : Run α α :=
  (pdata self 0).andThen fun arg => (k arg).andThen fun val =>
    (pdata self 1).andThen fun low => (k low).andThen fun min =>
      (pdata self 2).andThen fun high => (k high).andThen fun max =>
        .ret (if lt val min then min else if lt max val then max else val)

def evalFuncExprEval (self : Addr) : Run α α :=
  (pdata self 0).andThen fun arg => (deref arg).andThen fun node =>
    if node.data.isLiteral then k arg
    else
      (k arg).andThen fun xres h =>
        match capture self arg xres h with
        -- The branch that captures the value has no `return`.
        | some h => .done .undefined h
        | none => .fault

def changedFuncExprEval (self : Addr) : Run α α :=
  (pdata self 0).andThen fun arg0 => (pdata self 1).andThen fun arg1 =>
    (k arg0).andThen fun val0 => (k arg1).andThen fun val1 =>
      (storeLiteral arg1 val0).andThen fun _ => .ret (if eq val1 dblMin then one else ofBool (!eq val0 val1))

/-- The evaluator that a function node calls. -/
def funcExprEval (self : Addr) : Func → Run α α
  | .min => minFuncExprEval k self
  | .max => maxFuncExprEval k self
  | .round => roundFuncExprEval k self
  | .limit => limitFuncExprEval k self
  | .eval => evalFuncExprEval k self
  | .changed => changedFuncExprEval k self

/-- `ref_expr_eval`; `vars` has the values of the variables. -/
def refExprEval (io : Io α) (vars : String → Option Addr) (id : String) : Run α α :=
  match io.inputs id with
  | some input => .ret input.val
  | none =>
    match io.outputs id with
    | some output => .ret output.val
    | none =>
      match vars id with
      | some value => k value
      | none => .fail ⟨.undefinedIdentifier,"ref_expr_eval: undefined identifier: " ++ id⟩

/-- `flag_expr_eval`. -/
def flagExprEval (io : Io α) (id : String) (bit : IoFlags) : Run α α :=
  match io.inputs id with
  | some input => .ret (ofBool (hasFlag input.flags bit))
  | none =>
    match io.outputs id with
    | some output => .ret (ofBool (hasFlag output.flags bit))
    | none => .fail ⟨.undefinedIdentifier,"flag_expr_eval: undefined identifier for FLAG: " ++ id⟩

/-- `expr_eval` in one tree, with pointers followed less than `n` deep, and `k` for the
    expressions of the variables. -/
def evalWithin (io : Io α) (vars : String → Option Addr) : Nat → Addr → Run α α
  | 0, _ => fun _ => .deeper
  | n+1, self => (deref self).andThen fun node =>
    match node.data with
    | .literal val => .ret val
    | .op op => opExprEval (evalWithin io vars n) self op
    | .ref id => refExprEval k io vars id
    | .func func _ => funcExprEval (evalWithin io vars n) self func
    | .flag id bit => flagExprEval io id bit

/-- `expr_eval`, following variables at most `depth` deep. -/
def exprEval (io : Io α) (vars : String → Option Addr) : Nat → Addr → Run α α
  | 0, _ => fun _ => .deeper
  | depth+1, self => fun h => evalWithin (exprEval io vars depth) io vars h.fresh self h

end

/-! ### Comparison and assignment -/

section
variable [Gdouble α]

/-- `expr_equal` of two pointers that may be NULL. -/
def equalSome (equal : Addr → Addr → Option Bool) : Option Addr → Option Addr → Option Bool
  | none, none => some true
  | some a, some b => equal a b
  | _, _ => some false

/-- The loop over two arrays of one length. -/
def equalAll (equal : Addr → Addr → Option Bool) : List Addr → List Addr → Option Bool
  | a :: as, b :: bs => (equal a b).bind fun same => if same then equalAll equal as bs else some false
  | _, _ => some true

/-- `expr_equal`, with pointers followed less than `n` deep. -/
def exprEqualWithin (h : Memory α) : Nat → Addr → Addr → Option Bool
  | 0, _, _ => none
  | n+1, a, b =>
    if a = b then some true
    else
      (h.cells a).bind fun x => (h.cells b).bind fun y =>
        match x.node.data, y.node.data with
        | .literal v, .literal w => some (eq v w)
        | .ref id, .ref id' => some (decide (id = id'))
        | .op o, .op o' =>
          if o = o' then
            (equalSome (exprEqualWithin h n) x.node.left y.node.left).bind fun same =>
              if same then equalSome (exprEqualWithin h n) x.node.right y.node.right else some false
          else some false
        | .func f as, .func f' bs =>
          if f = f' ∧ as.length = bs.length then equalAll (exprEqualWithin h n) as bs else some false
        | .flag id bit, .flag id' bit' => some (decide (bit = bit') && decide (id = id'))
        | _, _ => some false

/-- `expr_equal`. -/
def exprEqual (a b : Addr) (h : Memory α) : Option Bool := exprEqualWithin h h.fresh a b

/-- `st_var_set_value` of a variable that has the value `self`: what it has afterwards, and
    whether it has changed. -/
def stVarSetValue (self value : Addr) (h : Memory α) : Option ((Addr × Bool) × Memory α) :=
  (exprEqual self value h).bind fun equal =>
    if equal then some ((self,false),h)
    else (exprUnref self h).bind fun h => (exprRef value h).map fun h => ((value,true),h)

end

end Starter.Pointers
