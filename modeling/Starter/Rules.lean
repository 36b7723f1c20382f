import Starter.Lib.Tables
import Starter.References

/-!
The engine (`src/engine.c`) and the callback that ties it to its variables
(`st_core_var_changed_callback` of `src/main.c`, in a Core without the debug server).
The mirrored inputs and outputs do not move while the engine runs: a message of a peer
is dispatched after `engine_apply` has returned. What the engine reports, on standard
error or to its hooks, and what it asks of the peers is kept in a log.
-/
namespace Starter.Rules
open Gdouble Objects Expressions

/-- `Assign`; `flagBit` is 0 for an assignment of a value. -/
structure Assign (α : Type) where
  id : String
  rval : Expr α
  flagBit : IoFlags

structure LabelEntry (α : Type) where
  cond : Expr α
  ass : Assign α

structure LabelBlock (α : Type) where
  entries : List (LabelEntry α)

structure Trigger (α : Type) where
  cond : Expr α
  ass : List (Assign α)

/-- The rules of an `Engine`; its table of variables is part of the state. -/
structure Engine (α : Type) where
  labels : List (LabelBlock α)
  triggers : List (Trigger α)

inductive Rule (α : Type)
  | label (block : LabelBlock α)
  | trigger (trigger : Trigger α)

/-- The rules in the order in which `engine_apply` comes to them. -/
def Engine.rules {α : Type} (self : Engine α) : List (Rule α) :=
  self.labels.map .label ++ self.triggers.map .trigger

/-- What a rules file declares: the rules, and the variables in their order. -/
structure Program (α : Type) where
  engine : Engine α
  decls : List (String × Expr α)

/-- The table that the declarations fill; a later one replaces an earlier one of its name. -/
def initialTable {α : Type} (decls : List (String × Expr α)) : Variables α :=
  decls.foldl (fun vars decl => Function.update vars decl.1 (some decl.2)) fun _ => none

theorem initialTable_entry {α : Type} (decls : List (String × Expr α)) {x : String} {e : Expr α}
    (stored : initialTable decls x = some e) : (x,e) ∈ decls := (Lib.Tables.insertAll_some stored).resolve_right (by simp)

/-- What the engine reports and what it does to the peers and the variables. A rule is
    given by its position among the rules. -/
inductive Event (α : Type)
  /-- "Iterate label block because of ..." and "Iterate trigger because of ...". -/
  | iterate (pos : Nat) (id : Option String)
  /-- A call `SetOutput` and its answer. -/
  | setOutput (id : String) (val : α) (flags : IoFlags) (ok : Bool)
  /-- A call `SetInput` and its answer. -/
  | setInput (id : String) (val : α) (flags : IoFlags) (ok : Bool)
  /-- "Avoid call `st_client_set_output' because value is not changed". -/
  | unchanged (id : String)
  /-- "Avoid call `st_client_set_output' because of ST_IO_FLAG_MANUAL_OVERRIDE". -/
  | overridden (id : String)
  /-- "Avoid SetOutput FLAG" and "Avoid SetInput FLAG". -/
  | flagUnchanged (id : String) (bit : IoFlags)
  /-- "skip FLAG write". -/
  | flagRefused (id : String) (bit : IoFlags)
  /-- "Variable changed". -/
  | varChanged (id : String) (e : Expr α)
  /-- "Avoid variable set because expression is unchanged". -/
  | varUnchanged (id : String)
  /-- The hook `on_rule_triggered`. -/
  | ruleTriggered (dest : String)
  /-- The hook `on_trigger_triggered`. -/
  | triggerTriggered (dest : String)
  /-- "trigger assign failed". -/
  | assignFailed (id : String) (error : StError)
  /-- "apply label block failed" and "apply trigger failed". -/
  | ruleFailed (pos : Nat) (error : StError)

/-- The state of a running engine; `peers` is the world beyond the connections. -/
structure EngineState (α W : Type) where
  vars : Variables α
  mem : Mem α
  peers : W
  log : List (Event α)

/-- The calls `st_client_set_output` and `st_client_set_input` on the client of an
    identifier: what they answer and the world after them. -/
structure Bus (α W : Type) where
  setOutput : W → String → α → IoFlags → Bool × W
  setInput : W → String → α → IoFlags → Bool × W

/-- What the engine runs on: the mirrored objects, the connections to the peers, and how
    deep expressions may nest through variables. -/
structure Env (α W : Type) where
  io : Io α
  bus : Bus α W
  depth : Nat

/-- How a call ends: it returns TRUE, with a result, or FALSE, with an error, or it does
    not end, for want of depth or because C gives no meaning to it; then `stopped` has
    the state that it got to. -/
inductive Res (σ β : Type)
  | returned (b : β) (s : σ)
  | failed (e : StError) (s : σ)
  | stopped (s : σ)

section
variable {σ β γ : Type}

/-- Goes on when the call returned TRUE. -/
def Res.andThen (x : Res σ β) (f : β → σ → Res σ γ) : Res σ γ :=
  match x with
  | .returned b s => f b s
  | .failed e s => .failed e s
  | .stopped s => .stopped s

/-- The call returned TRUE. -/
def Res.returns : Res σ β → Bool
  | .returned _ _ => true
  | .failed _ _ => false
  | .stopped _ => false

/-- The state at the end of a call, or where it stopped. -/
def Res.state : Res σ β → σ
  | .returned _ s => s
  | .failed _ s => s
  | .stopped s => s

end

variable {α W : Type}

def EngineState.note (s : EngineState α W) (event : Event α) : EngineState α W := { s with log := s.log ++ [event] }

/-- `st_var_set_value` when the expression is another one, up to its signal. -/
def EngineState.store (s : EngineState α W) (id : String) (e : Expr α) : EngineState α W :=
  { s with vars := Function.update s.vars id (some e) }.note (.varChanged id e)

@[simp] theorem note_vars (s : EngineState α W) (event : Event α) : (s.note event).vars = s.vars := rfl
@[simp] theorem note_mem (s : EngineState α W) (event : Event α) : (s.note event).mem = s.mem := rfl
@[simp] theorem note_peers (s : EngineState α W) (event : Event α) : (s.note event).peers = s.peers := rfl
@[simp] theorem note_log (s : EngineState α W) (event : Event α) : (s.note event).log = s.log ++ [event] := rfl
@[simp] theorem store_vars (s : EngineState α W) (id : String) (e : Expr α) :
    (s.store id e).vars = Function.update s.vars id (some e) := rfl
@[simp] theorem store_mem (s : EngineState α W) (id : String) (e : Expr α) : (s.store id e).mem = s.mem := rfl
@[simp] theorem store_peers (s : EngineState α W) (id : String) (e : Expr α) : (s.store id e).peers = s.peers := rfl
@[simp] theorem store_log (s : EngineState α W) (id : String) (e : Expr α) :
    (s.store id e).log = s.log ++ [.varChanged id e] := rfl

section
variable [Gdouble α]

/-- `expr_eval` on the state of the engine. -/
def evaluate (env : Env α W) (e : Expr α) (s : EngineState α W) : Res (EngineState α W) α :=
  match exprEval env.depth env.io s.vars e s.mem with
  | some (.value v,m) => .returned v { s with mem := m }
  | some (.error error,m) => .failed error { s with mem := m }
  | some (.undefined,_) => .stopped s
  | none => .stopped s

/-- What `assign_apply` has done: something with the given `did_apply`, or it has stored
    an expression in a variable, whose signal "changed" is next. -/
inductive Stored
  | quiet (didApply : Bool)
  | changed (id : String)

/-- The state after a call of `st_client_set_output` or `st_client_set_input`. -/
def EngineState.send (s : EngineState α W) (call : W → String → α → IoFlags → Bool × W)
    (event : String → α → IoFlags → Bool → Event α) (id : String) (val : α) (flags : IoFlags) : EngineState α W :=
  let answer := call s.peers id val flags
  { s with peers := answer.2 }.note (event id val flags answer.1)

/-- Such a call on behalf of a rule. -/
def request (call : W → String → α → IoFlags → Bool × W) (event : String → α → IoFlags → Bool → Event α)
    (error : String) (id : String) (val : α) (flags : IoFlags) (s : EngineState α W) : Res (EngineState α W) Stored :=
  if (call s.peers id val flags).1 then .returned (.quiet true) (s.send call event id val flags)
  else .failed ⟨.invalidValue,error ++ id⟩ (s.send call event id val flags)

/-- The branches of `assign_apply_flag` for an output and for an input are the same but
    for the call. -/
def assignFlagOf (call : W → String → α → IoFlags → Bool × W) (event : String → α → IoFlags → Bool → Event α)
    (error : String) (self : Assign α) (obj : IoObject α) (exprRes : α) (s : EngineState α W) :
    Res (EngineState α W) Stored :=
  let newFlags := writeFlag obj.flags self.flagBit (truth exprRes)
  if newFlags = obj.flags then .returned (.quiet false) (s.note (.flagUnchanged self.id self.flagBit))
  else request call event error self.id obj.val newFlags s

/-- `assign_apply_flag`. -/
def assignApplyFlag (env : Env α W) (self : Assign α) (s : EngineState α W) : Res (EngineState α W) Stored :=
  if !stIoFlagBitIsUsr self.flagBit then .returned (.quiet false) (s.note (.flagRefused self.id self.flagBit))
  else
    (evaluate env self.rval s).andThen fun exprRes s =>
      match env.io.outputs self.id with
      | some out =>
        assignFlagOf env.bus.setOutput .setOutput "error in st_client_set_output (FLAG) for " self out exprRes s
      | none =>
        match env.io.inputs self.id with
        | some input =>
          assignFlagOf env.bus.setInput .setInput "error in st_client_set_input (FLAG) for " self input exprRes s
        | none => .failed ⟨.undefinedIdentifier,"FLAG target " ++ self.id ++ " is not an input or output"⟩ s

variable [DecidableEq α]

/-- The branch of `assign_apply` for an output. -/
def assignOutput (env : Env α W) (self : Assign α) (output : IoObject α) (s : EngineState α W) :
    Res (EngineState α W) Stored :=
  (evaluate env self.rval s).andThen fun exprRes s =>
    if eq output.val exprRes then .returned (.quiet false) (s.note (.unchanged self.id))
    else if hasFlag output.flags stIoFlagManualOverride then .returned (.quiet false) (s.note (.overridden self.id))
    else
      request env.bus.setOutput .setOutput "error in st_client_set_output with output: " self.id exprRes output.flags s

/-- `assign_apply` up to the signal of a variable. -/
def assignStore (env : Env α W) (self : Assign α) (s : EngineState α W) : Res (EngineState α W) Stored :=
  if self.flagBit ≠ 0 then assignApplyFlag env self s
  else
    match env.io.outputs self.id with
    | some output => assignOutput env self output s
    | none =>
      match s.vars self.id with
      | some value =>
        if exprEqual s.mem value self.rval then .returned (.quiet false) (s.note (.varUnchanged self.id))
        else .returned (.changed self.id) (s.store self.id self.rval)
      | none => .failed ⟨.undefinedIdentifier,"cannot lookup identifier " ++ self.id⟩ s

/-- The handler of a variable's signal "changed". -/
abbrev Changed (α W : Type) := String → EngineState α W → Res (EngineState α W) Unit

/-- `assign_apply`; its result is `did_apply`. -/
def assignApply (env : Env α W) (changed : Changed α W) (self : Assign α) (s : EngineState α W) :
    Res (EngineState α W) Bool :=
  (assignStore env self s).andThen fun stored s =>
    match stored with
    | .quiet didApply => .returned didApply s
    | .changed id => (changed id s).andThen fun _ s => .returned true s

/-- The loop of `label_block_apply` up to the entry whose assignment it applies. -/
def labelBlockSelect (env : Env α W) : List (LabelEntry α) → EngineState α W →
    Res (EngineState α W) (Option (LabelEntry α))
  | [], s => .returned none s
  | entry :: rest, s =>
    (evaluate env entry.cond s).andThen fun condRes s =>
      if truth condRes then .returned (some entry) s else labelBlockSelect env rest s

/-- `label_block_apply`. -/
def labelBlockApply (env : Env α W) (changed : Changed α W) (self : LabelBlock α) (s : EngineState α W) :
    Res (EngineState α W) Unit :=
  (labelBlockSelect env self.entries s).andThen fun selected s =>
    match selected with
    | none => .returned () s
    | some entry =>
      (assignApply env changed entry.ass s).andThen fun didApply s =>
        .returned () (if didApply then s.note (.ruleTriggered entry.ass.id) else s)

/-- The loop of `trigger_apply` over its assignments; a failed one does not end it. The
    result is `first_error`. -/
def triggerAssigns (env : Env α W) (changed : Changed α W) : List (Assign α) → Option StError → EngineState α W →
    Res (EngineState α W) (Option StError)
  | [], firstError, s => .returned firstError s
  | ass :: rest, firstError, s =>
    match assignApply env changed ass s with
    | .returned didApply s =>
      triggerAssigns env changed rest firstError (if didApply then s.note (.triggerTriggered ass.id) else s)
    | .failed error s =>
      triggerAssigns env changed rest (firstError.or (some error)) (s.note (.assignFailed ass.id error))
    | .stopped s => .stopped s

/-- `trigger_apply`. -/
def triggerApply (env : Env α W) (changed : Changed α W) (self : Trigger α) (s : EngineState α W) :
    Res (EngineState α W) Unit :=
  (evaluate env self.cond s).andThen fun condRes s =>
    if truth condRes then
      (triggerAssigns env changed self.ass none s).andThen fun firstError s =>
        match firstError with
        | none => .returned () s
        | some error => .failed error s
    else .returned () s

/-- `label_entry_have_ref_to`. -/
def labelEntryHaveRefTo (depth : Nat) (vars : Variables α) (captured : Nat → Option α) (id : String)
    (self : LabelEntry α) : Option Bool :=
  anyRef [exprHaveRefTo depth vars captured id self.cond,exprHaveRefTo depth vars captured id self.ass.rval]

/-- `label_block_have_ref_to`. -/
def labelBlockHaveRefTo (depth : Nat) (vars : Variables α) (captured : Nat → Option α) (id : String)
    (self : LabelBlock α) : Option Bool :=
  anyRef (self.entries.map (labelEntryHaveRefTo depth vars captured id))

/-- `trigger_have_ref_to`. -/
def triggerHaveRefTo (depth : Nat) (vars : Variables α) (captured : Nat → Option α) (id : String)
    (self : Trigger α) : Option Bool :=
  anyRef (exprHaveRefTo depth vars captured id self.cond ::
    self.ass.map fun ass => exprHaveRefTo depth vars captured id ass.rval)

def Rule.haveRefTo (depth : Nat) (vars : Variables α) (captured : Nat → Option α) (id : String) :
    Rule α → Option Bool
  | .label block => labelBlockHaveRefTo depth vars captured id block
  | .trigger t => triggerHaveRefTo depth vars captured id t

def Rule.apply (env : Env α W) (changed : Changed α W) : Rule α → EngineState α W → Res (EngineState α W) Unit
  | .label block => labelBlockApply env changed block
  | .trigger t => triggerApply env changed t

/-- The test of `engine_apply` whether to iterate a rule. -/
def Rule.concerned (env : Env α W) (id : Option String) (s : EngineState α W) (self : Rule α) : Option Bool :=
  match id with
  | none => some true
  | some id => self.haveRefTo env.depth s.vars s.mem.captured id

/-- The loops of `engine_apply`, from the rule at `pos` on. -/
def iterateRules (env : Env α W) (changed : Changed α W) (id : Option String) : Nat → List (Rule α) →
    EngineState α W → Res (EngineState α W) Unit
  | _, [], s => .returned () s
  | pos, rule :: rest, s =>
    match rule.concerned env id s with
    | none => .stopped s
    | some false => iterateRules env changed id (pos+1) rest s
    | some true =>
      match rule.apply env changed (s.note (.iterate pos id)) with
      | .returned _ s => iterateRules env changed id (pos+1) rest s
      | .failed error s => iterateRules env changed id (pos+1) rest (s.note (.ruleFailed pos error))
      | .stopped s => .stopped s

/-- `engine_apply`, called again from inside itself at most `n` deep; the handler of the
    variables is `st_core_var_changed_callback`, which calls it with their name. -/
def engineApply (env : Env α W) (engine : Engine α) : Nat → Option String → EngineState α W →
    Res (EngineState α W) Unit
  | 0, _, s => .stopped s
  | n+1, id, s => iterateRules env (fun name => engineApply env engine n (some name)) id 0 engine.rules s

end

end Starter.Rules
