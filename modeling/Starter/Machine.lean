import Starter.Pointers

/-!
The engine on memory (`src/engine.c`, `st_var_set_value` of `src/var.c`). It does what the
engine of the trees does, with pointers for expressions: a variable that is set gives up
what it had, and gets a reference to the expression of the assignment.
-/
namespace Starter.Machine
open Gdouble Objects Pointers Lib.Counting
open Rules (Env Res Stored)

variable {α β W : Type}

/-! ### References to a name -/

/-- `x || y`. -/
def either (x y : Run α Bool) : Run α Bool := x.andThen fun found => if found then .ret true else y

/-- A loop that ends with the first TRUE. -/
def anyOf : List (Run α Bool) → Run α Bool
  | [] => .ret false
  | x :: rest => either x (anyOf rest)

section
variable (k : Addr → Run α Bool)

/-- `op_expr_have_ref_to`. -/
def opHaveRefTo (self : Addr) : Run α Bool :=
  either ((deref self).andThen fun node => (nonNull node.left).andThen k)
    ((deref self).andThen fun node => (nonNull node.right).andThen k)

/-- `ref_expr_have_ref_to`. -/
def refHaveRefTo (vars : String → Option Addr) (id ref : String) : Run α Bool :=
  if ref = id then .ret true
  else
    match vars ref with
    | some value => k value
    | none => .ret false

/-- The loop of `func_expr_have_ref_to` over the arguments that are left. -/
def argsHaveRefTo (self : Addr) : Nat → Nat → Run α Bool
  | 0, _ => .ret false
  | left+1, i => either ((pdata self i).andThen k) (argsHaveRefTo self left (i+1))

/-- `func_expr_have_ref_to`. -/
def funcHaveRefTo (self : Addr) : Run α Bool :=
  (deref self).andThen fun node => argsHaveRefTo k self node.data.args.length 0

/-- `expr_have_ref_to` in one tree, with pointers followed less than `n` deep, and `k` for the
    expressions of the variables. -/
def haveRefWithin (vars : String → Option Addr) (id : String) : Nat → Addr → Run α Bool
  | 0, _ => fun _ => .deeper
  | n+1, self => (deref self).andThen fun node =>
    match node.data with
    | .literal _ => .ret false
    | .op _ => opHaveRefTo (haveRefWithin vars id n) self
    | .ref ref => refHaveRefTo k vars id ref
    | .func _ _ => funcHaveRefTo (haveRefWithin vars id n) self
    | .flag ref _ => .ret (decide (ref = id))

end

/-- `expr_have_ref_to`, following variables at most `depth` deep. -/
def exprHaveRefTo (vars : String → Option Addr) (id : String) : Nat → Addr → Run α Bool
  | 0, _ => fun _ => .deeper
  | depth+1, self => fun h => haveRefWithin (exprHaveRefTo vars id depth) vars id h.fresh self h

/-! ### The engine -/

/-- The rules of an `Engine`. -/
structure Engine where
  labels : List LabelBlock
  triggers : List Trigger

inductive Rule
  | label (block : LabelBlock)
  | trigger (trigger : Trigger)

/-- The rules in the order in which `engine_apply` comes to them. -/
def Engine.rules (self : Engine) : List Rule := self.labels.map .label ++ self.triggers.map .trigger

/-- What the engine reports; of a variable that changes, what it has got. -/
inductive Event (α : Type)
  | told (event : Rules.Event α)
  | varChanged (id : String) (value : Addr)

/-- The state of a running engine, and whether it has touched a cell that is not allocated. -/
structure EngineState (α W : Type) where
  vars : List (String × Addr)
  memory : Memory α
  peers : W
  log : List (Event α)
  fault : Bool

def EngineState.note (s : EngineState α W) (event : Rules.Event α) : EngineState α W := { s with log := s.log ++ [.told event] }

/-- A variable has got an expression. -/
def EngineState.store (s : EngineState α W) (id : String) (value : Addr) (h : Memory α) : EngineState α W :=
  { s with
    vars := Lib.Tables.replace s.vars id value
    memory := h
    log := s.log ++ [.varChanged id value] }

/-- A call that reads or writes memory, as a call of the engine. -/
def onMemory (x : Run α β) (s : EngineState α W) : Res (EngineState α W) β :=
  match x s.memory with
  | .done (.value v) h => .returned v { s with memory := h }
  | .done (.error error) h => .failed error { s with memory := h }
  | .done .undefined _ => .stopped s
  | .deeper => .stopped s
  | .fault => .stopped { s with fault := true }

/-- The handler of a variable's signal "changed". -/
abbrev Changed (α W : Type) := String → EngineState α W → Res (EngineState α W) Unit

section
variable [Gdouble α]

def evaluate (env : Env α W) (e : Addr) (s : EngineState α W) : Res (EngineState α W) α :=
  onMemory (exprEval env.io (s.vars.lookup ·) env.depth e) s

/-- The state after a call of `st_client_set_output` or `st_client_set_input`. -/
def EngineState.send (s : EngineState α W) (call : W → String → α → IoFlags → Bool × W)
    (event : String → α → IoFlags → Bool → Rules.Event α) (id : String) (val : α) (flags : IoFlags) : EngineState α W :=
  let answer := call s.peers id val flags
  { s with peers := answer.2 }.note (event id val flags answer.1)

/-- Such a call on behalf of a rule. -/
def request (call : W → String → α → IoFlags → Bool × W) (event : String → α → IoFlags → Bool → Rules.Event α)
    (error : String) (id : String) (val : α) (flags : IoFlags) (s : EngineState α W) : Res (EngineState α W) Stored :=
  if (call s.peers id val flags).1 then .returned (.quiet true) (s.send call event id val flags)
  else .failed ⟨.invalidValue,error ++ id⟩ (s.send call event id val flags)

/-- The branches of `assign_apply_flag` for an output and for an input. -/
def assignFlagOf (call : W → String → α → IoFlags → Bool × W) (event : String → α → IoFlags → Bool → Rules.Event α)
    (error : String) (self : Assign) (obj : IoObject α) (exprRes : α) (s : EngineState α W) : Res (EngineState α W) Stored :=
  let newFlags := writeFlag obj.flags self.flagBit (truth exprRes)
  if newFlags = obj.flags then .returned (.quiet false) (s.note (.flagUnchanged self.id self.flagBit))
  else request call event error self.id obj.val newFlags s

/-- `assign_apply_flag`. -/
def assignApplyFlag (env : Env α W) (self : Assign) (s : EngineState α W) : Res (EngineState α W) Stored :=
  if !stIoFlagBitIsUsr self.flagBit then .returned (.quiet false) (s.note (.flagRefused self.id self.flagBit))
  else
    (evaluate env self.rval s).andThen fun exprRes s =>
      match env.io.outputs self.id with
      | some out =>
        assignFlagOf env.bus.setOutput .setOutput "error in st_client_set_output (FLAG) for " self out exprRes s
      | none =>
        match env.io.inputs self.id with
        | some input =>
          assignFlagOf env.bus.setInput .setInput "error in st_client_set_input (FLAG) for " self input exprRes s
        | none => .failed ⟨.undefinedIdentifier,"FLAG target " ++ self.id ++ " is not an input or output"⟩ s

/-- The branch of `assign_apply` for an output. -/
def assignOutput (env : Env α W) (self : Assign) (output : IoObject α) (s : EngineState α W) : Res (EngineState α W) Stored :=
  (evaluate env self.rval s).andThen fun exprRes s =>
    if eq output.val exprRes then .returned (.quiet false) (s.note (.unchanged self.id))
    else if hasFlag output.flags stIoFlagManualOverride then .returned (.quiet false) (s.note (.overridden self.id))
    else
      request env.bus.setOutput .setOutput "error in st_client_set_output with output: " self.id exprRes output.flags s

/-- The branch of `assign_apply` for a variable, up to its signal. -/
def assignVar (self : Assign) (value : Addr) (s : EngineState α W) : Res (EngineState α W) Stored :=
  match stVarSetValue value self.rval s.memory with
  | some ((_,false),_) => .returned (.quiet false) (s.note (.varUnchanged self.id))
  | some ((value,true),h) => .returned (.changed self.id) (s.store self.id value h)
  | none => .stopped { s with fault := true }

/-- `assign_apply` up to the signal of a variable. -/
def assignStore (env : Env α W) (self : Assign) (s : EngineState α W) : Res (EngineState α W) Stored :=
  if self.flagBit ≠ 0 then assignApplyFlag env self s
  else
    match env.io.outputs self.id with
    | some output => assignOutput env self output s
    | none =>
      match s.vars.lookup self.id with
      | some value => assignVar self value s
      | none => .failed ⟨.undefinedIdentifier,"cannot lookup identifier " ++ self.id⟩ s

/-- `assign_apply`; its result is `did_apply`. -/
def assignApply (env : Env α W) (changed : Changed α W) (self : Assign) (s : EngineState α W) : Res (EngineState α W) Bool :=
  (assignStore env self s).andThen fun stored s =>
    match stored with
    | .quiet didApply => .returned didApply s
    | .changed id => (changed id s).andThen fun _ s => .returned true s

/-- The loop of `label_block_apply` up to the entry whose assignment it applies. -/
def labelBlockSelect (env : Env α W) : List LabelEntry → EngineState α W → Res (EngineState α W) (Option LabelEntry)
  | [], s => .returned none s
  | entry :: rest, s =>
    (evaluate env entry.cond s).andThen fun condRes s =>
      if truth condRes then .returned (some entry) s else labelBlockSelect env rest s

/-- `label_block_apply`. -/
def labelBlockApply (env : Env α W) (changed : Changed α W) (self : LabelBlock) (s : EngineState α W) :
    Res (EngineState α W) Unit :=
  (labelBlockSelect env self.entries s).andThen fun selected s =>
    match selected with
    | none => .returned () s
    | some entry =>
      (assignApply env changed entry.ass s).andThen fun didApply s =>
        .returned () (if didApply then s.note (.ruleTriggered entry.ass.id) else s)

/-- The loop of `trigger_apply` over its assignments; the result is `first_error`. -/
def triggerAssigns (env : Env α W) (changed : Changed α W) : List Assign → Option StError → EngineState α W →
    Res (EngineState α W) (Option StError)
  | [], firstError, s => .returned firstError s
  | ass :: rest, firstError, s =>
    match assignApply env changed ass s with
    | .returned didApply s =>
      triggerAssigns env changed rest firstError (if didApply then s.note (.triggerTriggered ass.id) else s)
    | .failed error s =>
      triggerAssigns env changed rest (firstError.or (some error)) (s.note (.assignFailed ass.id error))
    | .stopped s => .stopped s

/-- `trigger_apply`. -/
def triggerApply (env : Env α W) (changed : Changed α W) (self : Trigger) (s : EngineState α W) : Res (EngineState α W) Unit :=
  (evaluate env self.cond s).andThen fun condRes s =>
    if truth condRes then
      (triggerAssigns env changed self.ass none s).andThen fun firstError s =>
        match firstError with
        | none => .returned () s
        | some error => .failed error s
    else .returned () s

/-- `label_entry_have_ref_to`. -/
def labelEntryHaveRefTo (refers : Addr → Run α Bool) (self : LabelEntry) : Run α Bool := either (refers self.cond) (refers self.ass.rval)

/-- `label_block_have_ref_to` and `trigger_have_ref_to`. -/
def Rule.haveRefTo (refers : Addr → Run α Bool) : Rule → Run α Bool
  | .label block => anyOf (block.entries.map (labelEntryHaveRefTo refers))
  | .trigger t => either (refers t.cond) (anyOf (t.ass.map fun ass => refers ass.rval))

def Rule.apply (env : Env α W) (changed : Changed α W) : Rule → EngineState α W → Res (EngineState α W) Unit
  | .label block => labelBlockApply env changed block
  | .trigger t => triggerApply env changed t

/-- The test of `engine_apply` whether to iterate a rule. -/
def Rule.concerned (env : Env α W) (id : Option String) (s : EngineState α W) (self : Rule) : Res (EngineState α W) Bool :=
  match id with
  | none => .returned true s
  | some id => onMemory (self.haveRefTo (exprHaveRefTo (s.vars.lookup ·) id env.depth)) s

/-- The loops of `engine_apply`, from the rule at `pos` on. -/
def iterateRules (env : Env α W) (changed : Changed α W) (id : Option String) : Nat → List Rule → EngineState α W →
    Res (EngineState α W) Unit
  | _, [], s => .returned () s
  | pos, rule :: rest, s =>
    (rule.concerned env id s).andThen fun concerned s =>
      if concerned then
        match rule.apply env changed (s.note (.iterate pos id)) with
        | .returned _ s => iterateRules env changed id (pos+1) rest s
        | .failed error s => iterateRules env changed id (pos+1) rest (s.note (.ruleFailed pos error))
        | .stopped s => .stopped s
      else iterateRules env changed id (pos+1) rest s

/-- `engine_apply`, called again from inside itself at most `n` deep. -/
def engineApply (env : Env α W) (engine : Engine) : Nat → Option String → EngineState α W → Res (EngineState α W) Unit
  | 0, _, s => .stopped s
  | n+1, id, s => iterateRules env (fun name => engineApply env engine n (some name)) id 0 engine.rules s

end

end Starter.Machine
