import Starter.Rules
import Starter.Syntax

/-!
The actions of `src/rules.y`: what the parser builds of a rules file. `$$` starts as `$1`;
an action that leaves it alone passes that on, and the one of an empty list passes on
whatever lies on the stack. Reading such a value as an expression or an array has no
meaning in C.
-/
namespace Starter.Actions
open Gdouble Expressions Rules Grammar Syntax Lib.Lr Lib.Precedence

/-- The semantic values, `YYSTYPE`; `unset` is one that no action has made. -/
inductive Val (α : Type)
  | unset
  | dval (v : α)
  | sval (id : String)
  | uval (bit : IoFlags)
  | expr (e : Expr α)
  | args (es : List (Expr α))
  | assign (a : Assign α)
  | assigns (as : List (Assign α))
  | entry (e : LabelEntry α)
  | entries (es : List (LabelEntry α))
  | block (b : LabelBlock α)
  | trigger (t : Trigger α)

/-- What the actions write: the engine, the messages of `yyerror`, how many function nodes
    there are, and whether an action has read a value that none has made. -/
structure Build (α : Type) where
  labels : List (LabelBlock α)
  triggers : List (Trigger α)
  decls : List (String × Expr α)
  messages : List String
  nodes : Nat
  undefined : Bool

/-- The engine before the rules file is read. -/
def emptyBuild {α : Type} : Build α := ⟨[],[],[],[],0,false⟩

variable {α : Type}

/-- The program that is built. -/
def Build.program (s : Build α) : Program α := ⟨⟨s.labels,s.triggers⟩,s.decls⟩

def Build.yyerror (s : Build α) (message : String) : Build α := { s with messages := s.messages ++ [message] }

def Build.readUnset (s : Build α) : Val α × Build α := (.unset,{ s with undefined := true })

/-- The names that the action of a call compares with. -/
def funcOf (id : String) : Option Func :=
  if id = "MIN" then some .min
  else if id = "MAX" then some .max
  else if id = "ROUND" then some .round
  else if id = "LIMIT" then some .limit
  else if id = "EVAL" then some .eval
  else if id = "CHANGED" then some .changed
  else none

/-- The numbers of arguments without a message. -/
def silentCount : Func → Nat → Bool
  | .min, n => 1 ≤ n
  | .max, n => 1 ≤ n
  | .round, n => n = 1
  | .limit, n => n = 3
  | .eval, n => n = 1
  | .changed, n => 1 ≤ n

/-- The action of a call. It goes on after its messages; for an unknown name `$$` stays
    the name, which is freed. -/
def call (id : String) (args : Val α) (s : Build α) : Val α × Build α :=
  match funcOf id with
  | none => (.unset,s.yyerror "Unknown function")
  | some func =>
    match args with
    | .args es =>
      let checked := if silentCount func es.length then s else s.yyerror ("wrong number of arguments for " ++ id)
      (.expr (.func s.nodes func es),{ checked with nodes := s.nodes + 1 })
    | _ => s.readUnset

/-- The entries of a label block get its name, and its flag. -/
def labelBlockNew (id : String) (bit : IoFlags) (entries : List (LabelEntry α)) : LabelBlock α :=
  ⟨entries.map fun e => { e with ass := { e.ass with id := id,flagBit := bit } }⟩

/-- The actions that make or use expressions. -/
def expAct [Gdouble α] (r : Rule) (vals : List (Val α)) (s : Build α) : Val α × Build α :=
  match r, vals with
  | .value, [.dval v] => (.expr (.literal v),s)
  | .identifier, [.sval id] => (.expr (.ref id),s)
  | .flag, [.sval id,_,.uval bit] => (.expr (.flag id bit),s)
  | .binary op, [.expr left,_,.expr right] => (.expr (.op op left right),s)
  | .parentheses, [_,v,_] => (v,s)
  | .minus, [_,.expr e] => (.expr (.op .mul (.literal (ofRat (-1))) e),s)
  | .call, [.sval id,_,args,_] => call id args s
  | .argumentsNone, _ => (.unset,s)
  | .argumentsOne, [.expr e] => (.args [e],s)
  | .argumentsMore, [.args es,_,.expr e] => (.args (es ++ [e]),s)
  | _, _ => s.readUnset

/-- The action of a rule on the values of its right-hand side. -/
def act [Gdouble α] (r : Rule) (vals : List (Val α)) (s : Build α) : Val α × Build α :=
  match r, vals with
  | .labelBlock, [.block b] => (.block b,{ s with labels := s.labels ++ [b] })
  | .triggerStatement, [.trigger t] => (.trigger t,{ s with triggers := s.triggers ++ [t] })
  | .block, [.sval id,_,.entries es,_] => (.block (labelBlockNew id 0 es),s)
  | .flagBlock, [.sval id,_,.uval bit,_,.entries es,_] => (.block (labelBlockNew id bit es),s)
  | .entriesOne, [.entry e] => (.entries [e],s)
  | .entriesMore, [.entries es,.entry e] => (.entries (es ++ [e]),s)
  | .entry, [_,.expr rval,_,.expr cond,_] => (.entry ⟨cond,⟨"",rval,0⟩⟩,s)
  | .trigger, [_,_,.expr cond,_,.assigns as,_] => (.trigger ⟨cond,as⟩,s)
  | .assignmentsOne, [.assign a] => (.assigns [a],s)
  | .assignmentsMore, [.assigns as,_,.assign a] => (.assigns (as ++ [a]),s)
  | .assignment, [.sval id,_,.expr e] => (.assign ⟨id,e,0⟩,s)
  | .flagAssignment, [.sval id,_,.uval bit,_,.expr e] => (.assign ⟨id,e,bit⟩,s)
  | .varDeclaration, [_,.sval id,_] => (.unset,{ s with decls := s.decls ++ [(id,.literal zero)] })
  | .varInitialized, [_,.sval id,_,.expr e,_] => (.unset,{ s with decls := s.decls ++ [(id,e)] })
  | .accept, _ | .program, _ | .instructionsOne, _ | .instructionsMore, _ | .declaration, _ => (.unset,s)
  | r, vals => expAct r vals s

def semantics [Gdouble α] : Semantics Terminal Rule (Token α) (Val α) (Build α) where
  kind := Token.kind
  value
    | .value v => .dval v
    | .identifier id => .sval id
    | .flagName bit => .uval bit
    | _ => .unset
  act := act

section
variable [Gdouble α]

mutual
/-- The actions of a tree, from the leaves to the root and from left to right. -/
def operandBuild : Operand α → Build α → Val α × Build α
  | .value v, s => act .value [.dval v] s
  | .ref id, s => act .identifier [.sval id] s
  | .flag id bit, s => act .flag [.sval id,.unset,.uval bit] s
  | .parens e, s => act .parentheses [.unset,(expBuild e s).1,.unset] (expBuild e s).2
  | .minus a, s => act .minus [.unset,(operandBuild a s).1] (operandBuild a s).2
  | .call id args, s => act .call [.sval id,.unset,(argsBuild args s).1,.unset] (argsBuild args s).2

def expBuild : Grouping Op (Operand α) → Build α → Val α × Build α
  | .leaf a, s => operandBuild a s
  | .node op left right, s =>
    act (.binary op) [(expBuild left s).1,.unset,(expBuild right (expBuild left s).2).1]
      (expBuild right (expBuild left s).2).2

def argsBuild : Args (Grouping Op (Operand α)) → Build α → Val α × Build α
  | .none, s => act .argumentsNone [] s
  | .one e, s => act .argumentsOne [(expBuild e s).1] (expBuild e s).2
  | .more before e, s =>
    act .argumentsMore [(argsBuild before s).1,.unset,(expBuild e (argsBuild before s).2).1]
      (expBuild e (argsBuild before s).2).2
end

/-- The actions of a list, by the rules of its first and its later members. -/
def manyBuild {β : Type} (one more : Rule) (sep : List (Val α)) (each : β → Build α → Val α × Build α) :
    Many β → Build α → Val α × Build α
  | .one x, s => act one [(each x s).1] (each x s).2
  | .more before x, s =>
    let first := manyBuild one more sep each before s
    act more (first.1 :: (sep ++ [(each x first.2).1])) (each x first.2).2

def assignmentBuild (a : Assignment α) (s : Build α) : Val α × Build α :=
  match a.flag with
  | none => act .assignment [.sval a.id,.unset,(expBuild a.rval s).1] (expBuild a.rval s).2
  | some bit =>
    act .flagAssignment [.sval a.id,.unset,.uval bit,.unset,(expBuild a.rval s).1] (expBuild a.rval s).2

def entryBuild (e : Entry α) (s : Build α) : Val α × Build α :=
  let rval := expBuild e.rval s
  let cond := expBuild e.cond rval.2
  act .entry [.unset,rval.1,.unset,cond.1,.unset] cond.2

/-- The actions of an instruction. -/
def instructionBuild : Instruction α → Build α → Val α × Build α
  | .block id flag entries, s =>
    let r := manyBuild .entriesOne .entriesMore [] entryBuild entries s
    let b :=
      match flag with
      | none => act .block [.sval id,.unset,r.1,.unset] r.2
      | some bit => act .flagBlock [.sval id,.unset,.uval bit,.unset,r.1,.unset] r.2
    act .labelBlock [b.1] b.2
  | .trigger cond ass, s =>
    let c := expBuild cond s
    let r := manyBuild .assignmentsOne .assignmentsMore [.unset] assignmentBuild ass c.2
    let t := act .trigger [.unset,.unset,c.1,.unset,r.1,.unset] r.2
    act .triggerStatement [t.1] t.2
  | .var id none, s =>
    let d := act .varDeclaration [.unset,.sval id,.unset] s
    act .declaration [d.1] d.2
  | .var id (some e), s =>
    let r := expBuild e s
    let d := act .varInitialized [.unset,.sval id,.unset,r.1,.unset] r.2
    act .declaration [d.1] d.2

/-- What the parser builds of a program. -/
def instructionsBuild (p : Instructions α) (s : Build α) : Build α :=
  (manyBuild .instructionsOne .instructionsMore [] instructionBuild p s).2

end

end Starter.Actions
