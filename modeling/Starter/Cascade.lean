import Mathlib.Logic.Relation
import Starter.Relevance

/-!
Runs of the engine. What `engine_apply` does, with the calls of itself that its
assignments bring about, is a sequence of actions on behalf of single rules and of
changes of variables.
-/
namespace Starter.Cascade
open Gdouble Objects Expressions References Rules Relevance

variable {α W : Type}

/-- The assignments of a rule. -/
def assigns : Rule α → List (Assign α)
  | .label block => block.entries.map LabelEntry.ass
  | .trigger trigger => trigger.ass

theorem rval_of_assigns {rule : Rule α} {ass : Assign α} (member : ass ∈ assigns rule) : ass.rval ∈ exprs rule := by
  cases rule with
  | label block =>
    obtain ⟨entry,inBlock,rfl⟩ := List.mem_map.mp member
    exact rval_mem_exprs inBlock
  | trigger trigger => exact List.mem_cons_of_mem _ (List.mem_map_of_mem member)

/-- The rule at position `j` has the assignment. -/
def Assigns (rules : List (Rule α)) (j : Nat) (ass : Assign α) : Prop := ∃ rule, rules[j]? = some rule ∧ ass ∈ assigns rule

/-- Reports that an evaluation is over. -/
inductive Remark : Event α → Prop
  | ruleTriggered (dest : String) : Remark (.ruleTriggered dest)
  | triggerTriggered (dest : String) : Remark (.triggerTriggered dest)
  | assignFailed (id : String) (error : StError) : Remark (.assignFailed id error)
  | ruleFailed (pos : Nat) (error : StError) : Remark (.ruleFailed pos error)

/-- Reports that an assignment to `id` has no effect. -/
inductive Avoids (id : String) : Event α → Prop
  | unchanged : Avoids id (.unchanged id)
  | overridden : Avoids id (.overridden id)
  | flagUnchanged (bit : IoFlags) : Avoids id (.flagUnchanged id bit)
  | flagRefused (bit : IoFlags) : Avoids id (.flagRefused id bit)
  | varUnchanged : Avoids id (.varUnchanged id)

/-- A variable changes, or a call `SetOutput` or `SetInput` is made. -/
def acts : Event α → Bool
  | .varChanged .. | .setOutput .. | .setInput .. => true
  | _ => false

section
variable [Gdouble α]

/-- What the rule at position `j` does that leaves the table of variables alone. -/
inductive Action (env : Env α W) (rules : List (Rule α)) (j : Nat) : EngineState α W → EngineState α W → Prop
  | iterated {s : EngineState α W} (key : Option String) : Action env rules j s (s.note (.iterate j key))
  | evaluated {s : EngineState α W} {e : Expr α} {out : Outcome α} {m : Mem α} {rule : Rule α}
      (at_j : rules[j]? = some rule) (member : e ∈ exprs rule)
      (answered : exprEval env.depth env.io s.vars e s.mem = some (out,m)) (defined : out ≠ .undefined) :
      Action env rules j s { s with mem := m }
  | remarked {s : EngineState α W} {event : Event α} (remark : Remark event) : Action env rules j s (s.note event)
  | avoided {s : EngineState α W} {ass : Assign α} {event : Event α} (member : Assigns rules j ass)
      (avoids : Avoids ass.id event) : Action env rules j s (s.note event)
  | valueSet {s : EngineState α W} {ass : Assign α} {output : IoObject α} {v : α} (member : Assigns rules j ass)
      (value : ass.flagBit = 0) (mirrored : env.io.outputs ass.id = some output) (differs : eq output.val v = false)
      (free : hasFlag output.flags stIoFlagManualOverride = false) :
      Action env rules j s (s.send env.bus.setOutput .setOutput ass.id v output.flags)
  | outputFlagSet {s : EngineState α W} {ass : Assign α} {output : IoObject α} {v : α}
      (member : Assigns rules j ass) (usr : stIoFlagBitIsUsr ass.flagBit = true)
      (mirrored : env.io.outputs ass.id = some output)
      (differs : writeFlag output.flags ass.flagBit (truth v) ≠ output.flags) :
      Action env rules j s
        (s.send env.bus.setOutput .setOutput ass.id output.val (writeFlag output.flags ass.flagBit (truth v)))
  | inputFlagSet {s : EngineState α W} {ass : Assign α} {input : IoObject α} {v : α}
      (member : Assigns rules j ass) (usr : stIoFlagBitIsUsr ass.flagBit = true)
      (unshadowed : env.io.outputs ass.id = none) (mirrored : env.io.inputs ass.id = some input)
      (differs : writeFlag input.flags ass.flagBit (truth v) ≠ input.flags) :
      Action env rules j s (s.send env.bus.setInput .setInput ass.id input.val (writeFlag input.flags ass.flagBit (truth v)))

/-- Any number of actions of one rule. -/
abbrev Actions (env : Env α W) (rules : List (Rule α)) (j : Nat) : EngineState α W → EngineState α W → Prop :=
  Relation.ReflTransGen (Action env rules j)

variable {env : Env α W} {rules : List (Rule α)} {j : Nat} {s t : EngineState α W}

theorem action_alike (action : Action env rules j s t) : Alike s t := by
  cases action with
  | evaluated _ _ answered defined => exact ⟨rfl,exprEval_captured answered defined⟩
  | _ => exact ⟨rfl,rfl⟩

/-- What is in the log stays there. -/
theorem action_log (action : Action env rules j s t) : s.log <+: t.log := by
  cases action with
  | evaluated => exact List.prefix_rfl
  | _ => exact List.prefix_append _ _

theorem actions_alike (actions : Actions env rules j s t) : Alike s t := by
  induction actions with
  | refl => exact ⟨rfl,rfl⟩
  | tail _ last ih => exact ih.trans (action_alike last)

theorem actions_log (actions : Actions env rules j s t) : s.log <+: t.log := by
  induction actions with
  | refl => exact List.prefix_rfl
  | tail _ last ih => exact ih.trans (action_log last)

theorem evaluate_actions {rule : Rule α} {e : Expr α} (at_j : rules[j]? = some rule) (member : e ∈ exprs rule) :
    Actions env rules j s (evaluate env e s).state := by
  unfold evaluate
  split
  · rename_i answered
    exact .single (.evaluated at_j member answered (by simp))
  · rename_i answered
    exact .single (.evaluated at_j member answered (by simp))
  · exact .refl
  · exact .refl

variable [DecidableEq α]

/-- The rule at position `j` changes the variable `id` to `e`. -/
def Stores (env : Env α W) (rules : List (Rule α)) (j : Nat) (s : EngineState α W) (id : String) (e : Expr α) : Prop :=
  ∃ ass, Assigns rules j ass ∧ ass.id = id ∧ ass.rval = e ∧ ass.flagBit = 0 ∧ env.io.outputs id = none ∧
    ∃ value, s.vars id = some value ∧ exprEqual s.mem value e = false

/-- How an assignment of the rule at position `j` ends: in actions, the last of which may
    be followed by the change of a variable. -/
def AssignEnds (env : Env α W) (rules : List (Rule α)) (j : Nat) (s : EngineState α W) :
    Res (EngineState α W) Stored → Prop
  | .returned (.changed id) t => ∃ u e, Actions env rules j s u ∧ Stores env rules j u id e ∧ t = u.store id e
  | .returned (.quiet _) t => Actions env rules j s t
  | .failed _ t => Actions env rules j s t
  | .stopped t => Actions env rules j s t

private theorem assignEnds_of_state {r : Res (EngineState α W) Stored}
    (quiet : ∀ id t, r ≠ .returned (.changed id) t) (actions : Actions env rules j s r.state) :
    AssignEnds env rules j s r := by
  rcases r with ⟨_ | id,t⟩ | _ | _
  · exact actions
  · exact absurd rfl (quiet id t)
  · exact actions
  · exact actions

omit [Gdouble α] [DecidableEq α] in
/-- A request makes one step, whichever way it is answered. -/
private theorem request_state {call : W → String → α → IoFlags → Bool × W}
    {event : String → α → IoFlags → Bool → Event α} {error id : String} {val : α} {flags : IoFlags} :
    (request call event error id val flags s).state = s.send call event id val flags ∧
      ∀ x t, request call event error id val flags s ≠ .returned (.changed x) t := by
  unfold request
  split
  · exact ⟨rfl,by simp⟩
  · exact ⟨rfl,by simp⟩

private theorem assignApplyFlag_ends {ass : Assign α} (member : Assigns rules j ass) :
    AssignEnds env rules j s (assignApplyFlag env ass s) := by
  obtain ⟨rule,at_j,inRule⟩ := member
  have member : Assigns rules j ass := ⟨rule,at_j,inRule⟩
  have evaluation : Actions env rules j s (evaluate env ass.rval s).state :=
    evaluate_actions at_j (rval_of_assigns inRule)
  unfold assignApplyFlag
  split
  · exact .single (.avoided member (.flagRefused _))
  · rename_i usr
    replace usr : stIoFlagBitIsUsr ass.flagBit = true := by simpa using usr
    cases evaluated : evaluate env ass.rval s with
    | failed => simpa [evaluated,Res.andThen,AssignEnds,Res.state] using evaluation
    | stopped => simpa [evaluated,Res.andThen,AssignEnds,Res.state] using evaluation
    | returned v t =>
      rw [evaluated] at evaluation
      simp only [Res.andThen,Res.state] at evaluation ⊢
      cases output : env.io.outputs ass.id with
      | some obj =>
        simp only [assignFlagOf]
        split
        · exact evaluation.tail (.avoided member (.flagUnchanged _))
        · rename_i differs
          refine assignEnds_of_state request_state.2 ?_
          rw [request_state.1]
          exact evaluation.tail (.outputFlagSet member usr output differs)
      | none =>
        simp only
        cases input : env.io.inputs ass.id with
        | some obj =>
          simp only [assignFlagOf]
          split
          · exact evaluation.tail (.avoided member (.flagUnchanged _))
          · rename_i differs
            refine assignEnds_of_state request_state.2 ?_
            rw [request_state.1]
            exact evaluation.tail (.inputFlagSet member usr output input differs)
        | none => exact evaluation

private theorem assignOutput_ends {ass : Assign α} {output : IoObject α} (member : Assigns rules j ass)
    (value : ass.flagBit = 0) (mirrored : env.io.outputs ass.id = some output) :
    AssignEnds env rules j s (assignOutput env ass output s) := by
  obtain ⟨rule,at_j,inRule⟩ := member
  have member : Assigns rules j ass := ⟨rule,at_j,inRule⟩
  have evaluation : Actions env rules j s (evaluate env ass.rval s).state :=
    evaluate_actions at_j (rval_of_assigns inRule)
  unfold assignOutput
  cases evaluated : evaluate env ass.rval s with
  | failed => simpa [evaluated,Res.andThen,AssignEnds,Res.state] using evaluation
  | stopped => simpa [evaluated,Res.andThen,AssignEnds,Res.state] using evaluation
  | returned v t =>
    rw [evaluated] at evaluation
    simp only [Res.andThen,Res.state] at evaluation ⊢
    split
    · exact evaluation.tail (.avoided member .unchanged)
    · rename_i differs
      split
      · exact evaluation.tail (.avoided member .overridden)
      · rename_i free
        refine assignEnds_of_state request_state.2 ?_
        rw [request_state.1]
        exact evaluation.tail (.valueSet member value mirrored (by simpa using differs) (by simpa using free))

theorem assignStore_ends {ass : Assign α} (member : Assigns rules j ass) :
    AssignEnds env rules j s (assignStore env ass s) := by
  unfold assignStore
  split
  · exact assignApplyFlag_ends member
  · rename_i value
    simp only [ne_eq,not_not] at value
    cases output : env.io.outputs ass.id with
    | some obj => exact assignOutput_ends member value output
    | none =>
      simp only
      cases stored : s.vars ass.id with
      | none => exact .refl
      | some old =>
        simp only
        split
        · exact .single (.avoided member .varUnchanged)
        · rename_i differs
          exact ⟨s,ass.rval,.refl,⟨ass,member,rfl,rfl,value,output,old,stored,by simpa using differs⟩,rfl⟩

omit [DecidableEq α] in
theorem labelBlockSelect_actions {rule : Rule α} (at_j : rules[j]? = some rule) {entries : List (LabelEntry α)}
    (members : ∀ entry ∈ entries, entry.cond ∈ exprs rule) :
    Actions env rules j s (labelBlockSelect env entries s).state := by
  induction entries generalizing s with
  | nil => exact .refl
  | cons entry rest ih =>
    have evaluation : Actions env rules j s (evaluate env entry.cond s).state :=
      evaluate_actions at_j (members entry List.mem_cons_self)
    simp only [labelBlockSelect]
    cases evaluated : evaluate env entry.cond s with
    | failed =>
      rw [evaluated] at evaluation
      exact evaluation
    | stopped =>
      rw [evaluated] at evaluation
      exact evaluation
    | returned v t =>
      rw [evaluated] at evaluation
      simp only [Res.andThen]
      split
      · exact evaluation
      · exact evaluation.trans (ih fun e member => members e (List.mem_cons_of_mem entry member))

/-- `label_block_apply` up to the signal of a variable. -/
def labelBlockStore (env : Env α W) (self : LabelBlock α) (s : EngineState α W) :
    Res (EngineState α W) (Option (LabelEntry α × Stored)) :=
  (labelBlockSelect env self.entries s).andThen fun selected s =>
    match selected with
    | none => .returned none s
    | some entry => (assignStore env entry.ass s).andThen fun stored s => .returned (some (entry,stored)) s

theorem labelBlockApply_eq (changed : Changed α W) (block : LabelBlock α) :
    labelBlockApply env changed block s = (labelBlockStore env block s).andThen fun result s =>
      match result with
      | none => .returned () s
      | some (entry,.quiet didApply) => .returned () (if didApply then s.note (.ruleTriggered entry.ass.id) else s)
      | some (entry,.changed id) =>
        (changed id s).andThen fun _ s => .returned () (s.note (.ruleTriggered entry.ass.id)) := by
  unfold labelBlockApply labelBlockStore assignApply
  cases labelBlockSelect env block.entries s with
  | failed => rfl
  | stopped => rfl
  | returned selected t =>
    cases selected with
    | none => rfl
    | some entry =>
      simp only [Res.andThen]
      cases assignStore env entry.ass t with
      | failed => rfl
      | stopped => rfl
      | returned stored u =>
        cases stored with
        | quiet => rfl
        | changed id =>
          simp only
          cases changed id u <;> rfl

/-- How the evaluation of the label block at position `j` ends. -/
def BlockEnds (env : Env α W) (rules : List (Rule α)) (j : Nat) (s : EngineState α W) :
    Res (EngineState α W) (Option (LabelEntry α × Stored)) → Prop
  | .returned (some (_,.changed id)) t => ∃ u e, Actions env rules j s u ∧ Stores env rules j u id e ∧ t = u.store id e
  | .returned (some (_,.quiet _)) t => Actions env rules j s t
  | .returned none t => Actions env rules j s t
  | .failed _ t => Actions env rules j s t
  | .stopped t => Actions env rules j s t

theorem labelBlockStore_ends {block : LabelBlock α} (at_j : rules[j]? = some (.label block)) :
    BlockEnds env rules j s (labelBlockStore env block s) := by
  have selection : Actions env rules j s (labelBlockSelect env block.entries s).state :=
    labelBlockSelect_actions at_j fun entry member => cond_mem_exprs member
  unfold labelBlockStore
  cases selected : labelBlockSelect env block.entries s with
  | failed =>
    rw [selected] at selection
    exact selection
  | stopped =>
    rw [selected] at selection
    exact selection
  | returned entry t =>
    rw [selected] at selection
    cases entry with
    | none => exact selection
    | some entry =>
      have member : Assigns rules j entry.ass :=
        ⟨_,at_j,List.mem_map_of_mem (labelBlockSelect_mem selected)⟩
      have ends : AssignEnds env rules j t (assignStore env entry.ass t) := assignStore_ends member
      simp only [Res.andThen]
      cases stored : assignStore env entry.ass t with
      | failed =>
        rw [stored] at ends
        exact selection.trans ends
      | stopped =>
        rw [stored] at ends
        exact selection.trans ends
      | returned result u =>
        rw [stored] at ends
        cases result with
        | quiet => exact selection.trans ends
        | changed id =>
          obtain ⟨v,e,actions,stores,rfl⟩ := ends
          exact ⟨v,e,selection.trans actions,stores,rfl⟩

/-- One step of the engine: an action of a rule, or the change of a variable. -/
inductive Step (env : Env α W) (rules : List (Rule α)) : EngineState α W → EngineState α W → Prop
  | action {j : Nat} {s t : EngineState α W} (action : Action env rules j s t) : Step env rules s t
  | store {j : Nat} {s : EngineState α W} {id : String} {e : Expr α} (stores : Stores env rules j s id e) :
      Step env rules s (s.store id e)

abbrev Steps (env : Env α W) (rules : List (Rule α)) : EngineState α W → EngineState α W → Prop :=
  Relation.ReflTransGen (Step env rules)

/-! ### What a call of `engine_apply` is made of

The handler of the variables may do what it likes: the call is made of the steps of the
rules and of whatever the handler does. -/

/-- The loop of `label_block_apply` comes to a condition, in a state, of which `C` holds. -/
inductive InSelect (env : Env α W) (C : Expr α → EngineState α W → Prop) : List (LabelEntry α) → EngineState α W → Prop
  | now {entry : LabelEntry α} {rest : List (LabelEntry α)} {s : EngineState α W} (holds : C entry.cond s) :
      InSelect env C (entry :: rest) s
  | later {entry : LabelEntry α} {rest : List (LabelEntry α)} {s t : EngineState α W} {condRes : α}
      (evaluated : evaluate env entry.cond s = .returned condRes t) (passed : truth condRes = false)
      (inside : InSelect env C rest t) : InSelect env C (entry :: rest) s

/-- The loop of `trigger_apply` comes to an assignment, in a state, of which `P` holds. -/
inductive InTrigger (env : Env α W) (changed : Changed α W) (P : Assign α → EngineState α W → Prop) :
    List (Assign α) → EngineState α W → Prop
  | now {ass : Assign α} {rest : List (Assign α)} {s : EngineState α W} (holds : P ass s) :
      InTrigger env changed P (ass :: rest) s
  | returned {ass : Assign α} {rest : List (Assign α)} {s t : EngineState α W} {didApply : Bool}
      (applied : assignApply env changed ass s = .returned didApply t)
      (later : InTrigger env changed P rest (if didApply then t.note (.triggerTriggered ass.id) else t)) :
      InTrigger env changed P (ass :: rest) s
  | failed {ass : Assign α} {rest : List (Assign α)} {s t : EngineState α W} {error : StError}
      (applied : assignApply env changed ass s = .failed error t)
      (later : InTrigger env changed P rest (t.note (.assignFailed ass.id error))) : InTrigger env changed P (ass :: rest) s

/-- `label_block_apply` or `trigger_apply` comes to one or the other. -/
def InRule (env : Env α W) (changed : Changed α W) (C : Expr α → EngineState α W → Prop)
    (P : Assign α → EngineState α W → Prop) : Rule α → EngineState α W → Prop
  | .label block, s =>
    InSelect env C block.entries s ∨ ∃ entry t, labelBlockSelect env block.entries s = .returned (some entry) t ∧ P entry.ass t
  | .trigger trigger, s =>
    C trigger.cond s ∨
      ∃ condRes t, evaluate env trigger.cond s = .returned condRes t ∧ truth condRes = true ∧
        InTrigger env changed P trigger.ass t

/-- The loops of `engine_apply` come to one or the other, from the rule at a position on. -/
inductive InLoop (env : Env α W) (changed : Changed α W) (key : Option String) (C : Expr α → EngineState α W → Prop)
    (P : Assign α → EngineState α W → Prop) : Nat → List (Rule α) → EngineState α W → Prop
  | now {pos : Nat} {rule : Rule α} {rest : List (Rule α)} {s : EngineState α W}
      (concerned : rule.concerned env key s = some true) (inside : InRule env changed C P rule (s.note (.iterate pos key))) :
      InLoop env changed key C P pos (rule :: rest) s
  | passed {pos : Nat} {rule : Rule α} {rest : List (Rule α)} {s : EngineState α W}
      (apart : rule.concerned env key s = some false) (later : InLoop env changed key C P (pos+1) rest s) :
      InLoop env changed key C P pos (rule :: rest) s
  | returned {pos : Nat} {rule : Rule α} {rest : List (Rule α)} {s t : EngineState α W}
      (concerned : rule.concerned env key s = some true)
      (applied : rule.apply env changed (s.note (.iterate pos key)) = .returned () t)
      (later : InLoop env changed key C P (pos+1) rest t) : InLoop env changed key C P pos (rule :: rest) s
  | failed {pos : Nat} {rule : Rule α} {rest : List (Rule α)} {s t : EngineState α W} {error : StError}
      (concerned : rule.concerned env key s = some true)
      (applied : rule.apply env changed (s.note (.iterate pos key)) = .failed error t)
      (later : InLoop env changed key C P (pos+1) rest (t.note (.ruleFailed pos error))) :
      InLoop env changed key C P pos (rule :: rest) s

/-- The assignment changes the variable `id`, and its handler is called in the state `u`. -/
def Signals (env : Env α W) (id : String) (u : EngineState α W) (ass : Assign α) (s : EngineState α W) : Prop :=
  assignStore env ass s = .returned (.changed id) u

/-- `assign_apply` evaluates the expression of the assignment. -/
def Evaluates (env : Env α W) (ass : Assign α) : Prop :=
  if ass.flagBit ≠ 0 then stIoFlagBitIsUsr ass.flagBit = true else env.io.outputs ass.id ≠ none

/-- The loops of `engine_apply` call the handler for the variable `id`, in the state `u`. -/
abbrev Notified (env : Env α W) (changed : Changed α W) (key : Option String) (id : String) (u : EngineState α W) :
    Nat → List (Rule α) → EngineState α W → Prop := InLoop env changed key (fun _ _ => False) (Signals env id u)

/-- They evaluate an expression in a state, and `C` holds of the two. -/
abbrev Evaluated (env : Env α W) (changed : Changed α W) (key : Option String) (C : Expr α → EngineState α W → Prop) :
    Nat → List (Rule α) → EngineState α W → Prop := InLoop env changed key C fun ass s => Evaluates env ass ∧ C ass.rval s

/-- Something is so in a call of `engine_apply`, or in one inside it. With `n` calls nested the handler is `changed n`, and
`calls` says when it calls `engine_apply`, and in which state. -/
inductive Within (env : Env α W) (rules : List (Rule α)) (changed : Nat → Changed α W)
    (calls : String → EngineState α W → EngineState α W → Prop) (own : Nat → Option String → EngineState α W → Prop) :
    Nat → Option String → EngineState α W → Prop
  | own {n : Nat} {key : Option String} {s : EngineState α W} (holds : own n key s) : Within env rules changed calls own (n+1) key s
  | nested {n : Nat} {key : Option String} {s v w : EngineState α W} {x : String}
      (called : Notified env (changed n) key x v 0 rules s) (applies : calls x v w)
      (later : Within env rules changed calls own n (some x) w) : Within env rules changed calls own (n+1) key s

section
variable {ι : Type} {changed : Changed α W} {key : Option String} {C : Expr α → EngineState α W → Prop}
  {P : Assign α → EngineState α W → Prop} {R : ι → Assign α → EngineState α W → Prop} {H : ι → Prop}

private theorem inTrigger_or {asss : List (Assign α)}
    (inside : InTrigger env changed (fun ass s => P ass s ∨ ∃ i, R i ass s ∧ H i) asss s) :
    InTrigger env changed P asss s ∨ ∃ i, InTrigger env changed (R i) asss s ∧ H i := by
  induction inside with
  | now holds => exact holds.imp .now fun ⟨i,found,which⟩ => ⟨i,.now found,which⟩
  | returned applied _ ih => exact ih.imp (.returned applied) fun ⟨i,found,which⟩ => ⟨i,.returned applied found,which⟩
  | failed applied _ ih => exact ih.imp (.failed applied) fun ⟨i,found,which⟩ => ⟨i,.failed applied found,which⟩

private theorem inRule_or {rule : Rule α} (inside : InRule env changed C (fun ass s => P ass s ∨ ∃ i, R i ass s ∧ H i) rule s) :
    InRule env changed C P rule s ∨ ∃ i, InRule env changed (fun _ _ => False) (R i) rule s ∧ H i := by
  cases rule with
  | label block =>
    rcases inside with selecting | ⟨entry,t,selected,holds | ⟨i,found,which⟩⟩
    · exact .inl (.inl selecting)
    · exact .inl (.inr ⟨entry,t,selected,holds⟩)
    · exact .inr ⟨i,.inr ⟨entry,t,selected,found⟩,which⟩
  | trigger trigger =>
    rcases inside with cond | ⟨condRes,t,evaluated,holds,inside⟩
    · exact .inl (.inl cond)
    · exact (inTrigger_or inside).imp (fun found => .inr ⟨condRes,t,evaluated,holds,found⟩)
        fun ⟨i,found,which⟩ => ⟨i,.inr ⟨condRes,t,evaluated,holds,found⟩,which⟩

/-- Loops that come to one of two things come to the one or to the other. -/
theorem inLoop_or {pos : Nat} {rest : List (Rule α)}
    (inside : InLoop env changed key C (fun ass s => P ass s ∨ ∃ i, R i ass s ∧ H i) pos rest s) :
    InLoop env changed key C P pos rest s ∨ ∃ i, InLoop env changed key (fun _ _ => False) (R i) pos rest s ∧ H i := by
  induction inside with
  | now concerned inside =>
    exact (inRule_or inside).imp (.now concerned) fun ⟨i,found,which⟩ => ⟨i,.now concerned found,which⟩
  | passed apart _ ih => exact ih.imp (.passed apart) fun ⟨i,found,which⟩ => ⟨i,.passed apart found,which⟩
  | returned concerned applied _ ih =>
    exact ih.imp (.returned concerned applied) fun ⟨i,found,which⟩ => ⟨i,.returned concerned applied found,which⟩
  | failed concerned applied _ ih =>
    exact ih.imp (.failed concerned applied) fun ⟨i,found,which⟩ => ⟨i,.failed concerned applied found,which⟩

/-- The call does not end. -/
def Stops {β : Type} (result : Res (EngineState α W) β) : Prop := ∃ t, result = .stopped t

variable (conds : ∀ e s, C e s → Stops (evaluate env e s)) (asss : ∀ ass s, P ass s → Stops (assignApply env changed ass s))
include conds

omit [DecidableEq α] in
private theorem inSelect_stops {entries : List (LabelEntry α)} (inside : InSelect env C entries s) :
    Stops (labelBlockSelect env entries s) := by
  induction inside with
  | now holds =>
    obtain ⟨t,stopped⟩ := conds _ _ holds
    exact ⟨t,by simp only [labelBlockSelect,stopped,Res.andThen]⟩
  | later evaluated passed _ ih =>
    obtain ⟨t,stopped⟩ := ih
    exact ⟨t,by simp only [labelBlockSelect,evaluated,Res.andThen,passed,Bool.false_eq_true,if_false,stopped]⟩

include asss
omit conds in
private theorem inTrigger_stops {list : List (Assign α)} (inside : InTrigger env changed P list s) (first : Option StError) :
    Stops (triggerAssigns env changed list first s) := by
  induction inside generalizing first with
  | now holds =>
    obtain ⟨t,stopped⟩ := asss _ _ holds
    exact ⟨t,by simp only [triggerAssigns,stopped]⟩
  | returned applied _ ih =>
    obtain ⟨t,stopped⟩ := ih first
    exact ⟨t,by simp only [triggerAssigns,applied,stopped]⟩
  | @failed _ _ _ _ error applied _ ih =>
    obtain ⟨t,stopped⟩ := ih (first.or (some error))
    exact ⟨t,by simp only [triggerAssigns,applied,stopped]⟩

private theorem inRule_stops {rule : Rule α} (inside : InRule env changed C P rule s) : Stops (rule.apply env changed s) := by
  cases rule with
  | label block =>
    rcases inside with selecting | ⟨entry,t,selected,holds⟩
    · obtain ⟨t,stopped⟩ := inSelect_stops conds selecting
      exact ⟨t,by simp only [Rule.apply,labelBlockApply,stopped,Res.andThen]⟩
    · obtain ⟨u,stopped⟩ := asss _ _ holds
      exact ⟨u,by simp only [Rule.apply,labelBlockApply,selected,stopped,Res.andThen]⟩
  | trigger trigger =>
    rcases inside with cond | ⟨condRes,t,evaluated,holds,inside⟩
    · obtain ⟨t,stopped⟩ := conds _ _ cond
      exact ⟨t,by simp only [Rule.apply,triggerApply,stopped,Res.andThen]⟩
    · obtain ⟨u,stopped⟩ := inTrigger_stops asss inside none
      exact ⟨u,by simp only [Rule.apply,triggerApply,evaluated,holds,if_true,stopped,Res.andThen]⟩

/-- Loops that come to something that does not end do not end. -/
theorem inLoop_stops {pos : Nat} {rest : List (Rule α)} (inside : InLoop env changed key C P pos rest s) :
    Stops (iterateRules env changed key pos rest s) := by
  induction inside with
  | now concerned inside =>
    obtain ⟨t,stopped⟩ := inRule_stops conds asss inside
    exact ⟨t,by simp only [iterateRules,concerned,stopped]⟩
  | passed apart _ ih =>
    obtain ⟨t,stopped⟩ := ih
    exact ⟨t,by simp only [iterateRules,apart,stopped]⟩
  | returned concerned applied _ ih =>
    obtain ⟨t,stopped⟩ := ih
    exact ⟨t,by simp only [iterateRules,concerned,applied,stopped]⟩
  | failed concerned applied _ ih =>
    obtain ⟨t,stopped⟩ := ih
    exact ⟨t,by simp only [iterateRules,concerned,applied,stopped]⟩

end

/-- What the change of a variable comes to, with what the handler makes of it, where the handler is called. -/
def Calls (env : Env α W) (rules : List (Rule α)) (M : EngineState α W → EngineState α W → Prop) (changed : Changed α W)
    (called : String → EngineState α W → Prop) : Prop :=
  ∀ j s id e, Stores env rules j s id e → called id (s.store id e) →
    Relation.ReflTransGen M s (changed id (s.store id e)).state

private theorem labelBlockStore_changed {block : LabelBlock α} {entry : LabelEntry α} {id : String} {u : EngineState α W}
    (stored : labelBlockStore env block s = .returned (some (entry,.changed id)) u) :
    ∃ entry t, labelBlockSelect env block.entries s = .returned (some entry) t ∧ Signals env id u entry.ass t := by
  unfold labelBlockStore at stored
  cases selected : labelBlockSelect env block.entries s with
  | failed | stopped => simp [selected,Res.andThen] at stored
  | returned found t =>
    rw [selected] at stored
    cases found with
    | none => simp [Res.andThen] at stored
    | some entry =>
      simp only [Res.andThen] at stored
      cases made : assignStore env entry.ass t with
      | failed | stopped => simp [made] at stored
      | returned result v =>
        rw [made] at stored
        cases stored
        exact ⟨entry,t,rfl,made⟩

private theorem calls_of {M : EngineState α W → EngineState α W → Prop} {changed : Changed α W}
    {called others : String → EngineState α W → Prop} (calls : Calls env rules M changed called)
    (sub : ∀ id u, others id u → called id u) : Calls env rules M changed others :=
  fun j s id e stores called => calls j s id e stores (sub id _ called)

section
variable {M : EngineState α W → EngineState α W → Prop} (includes : ∀ {s t}, Step env rules s t → M s t)
include includes

private theorem actions_along (actions : Actions env rules j s t) : Relation.ReflTransGen M s t :=
  Relation.ReflTransGen.mono (fun _ _ action => includes (.action action)) _ _ actions

private theorem assignApply_along {changed : Changed α W} {ass : Assign α}
    (calls : Calls env rules M changed fun id u => Signals env id u ass s)
    (member : Assigns rules j ass) : Relation.ReflTransGen M s (assignApply env changed ass s).state := by
  have ends : AssignEnds env rules j s (assignStore env ass s) := assignStore_ends member
  unfold assignApply
  cases stored : assignStore env ass s with
  | failed =>
    rw [stored] at ends
    exact actions_along includes ends
  | stopped =>
    rw [stored] at ends
    exact actions_along includes ends
  | returned result t =>
    rw [stored] at ends
    cases result with
    | quiet => exact actions_along includes ends
    | changed id =>
      obtain ⟨u,e,actions,stores,rfl⟩ := ends
      have call := (actions_along includes actions).trans (calls _ _ _ _ stores stored)
      simp only [Res.andThen]
      cases called : changed id (u.store id e) <;> rw [called] at call <;> exact call

private theorem labelBlockApply_along {changed : Changed α W} {block : LabelBlock α}
    (calls : Calls env rules M changed fun id u => InRule env changed (fun _ _ => False) (Signals env id u) (.label block) s)
    (at_j : rules[j]? = some (.label block)) :
    Relation.ReflTransGen M s (labelBlockApply env changed block s).state := by
  have ends : BlockEnds env rules j s (labelBlockStore env block s) := labelBlockStore_ends at_j
  rw [labelBlockApply_eq]
  cases stored : labelBlockStore env block s with
  | failed =>
    rw [stored] at ends
    exact actions_along includes ends
  | stopped =>
    rw [stored] at ends
    exact actions_along includes ends
  | returned result t =>
    rw [stored] at ends
    rcases result with _ | ⟨entry,didApply | id⟩
    · exact actions_along includes ends
    · cases didApply with
      | false => exact actions_along includes ends
      | true => exact actions_along includes (ends.tail (.remarked (.ruleTriggered _)))
    · obtain ⟨u,e,actions,stores,rfl⟩ := ends
      have call := (actions_along includes actions).trans (calls _ _ _ _ stores (.inr (labelBlockStore_changed stored)))
      simp only [Res.andThen]
      cases called : changed id (u.store id e) with
      | failed =>
        rw [called] at call
        exact call
      | stopped =>
        rw [called] at call
        exact call
      | returned _ v =>
        rw [called] at call
        exact call.tail (includes (.action (.remarked (j := j) (.ruleTriggered _))))

theorem triggerAssigns_along {changed : Changed α W} {asss : List (Assign α)}
    (calls : Calls env rules M changed fun id u => InTrigger env changed (Signals env id u) asss s)
    (members : ∀ ass ∈ asss, Assigns rules j ass) (first : Option StError) :
    Relation.ReflTransGen M s (triggerAssigns env changed asss first s).state := by
  induction asss generalizing s first with
  | nil => exact .refl
  | cons ass rest ih =>
    have applied : Relation.ReflTransGen M s (assignApply env changed ass s).state :=
      assignApply_along includes (calls_of calls fun _ _ => .now) (members ass List.mem_cons_self)
    have others := fun a member => members a (List.mem_cons_of_mem ass member)
    simp only [triggerAssigns]
    cases called : assignApply env changed ass s with
    | stopped =>
      rw [called] at applied
      exact applied
    | failed error t =>
      rw [called] at applied
      have rest := ih (calls_of calls fun _ _ => .failed called) others (first.or (some error))
      exact (applied.tail (includes (.action (.remarked (j := j) (.assignFailed _ _))))).trans rest
    | returned didApply t =>
      rw [called] at applied
      have rest := ih (calls_of calls fun _ _ => .returned called) others first
      cases didApply with
      | false => exact applied.trans rest
      | true => exact (applied.tail (includes (.action (.remarked (j := j) (.triggerTriggered _))))).trans rest

private theorem ruleApply_along {changed : Changed α W} {rule : Rule α}
    (calls : Calls env rules M changed fun id u => InRule env changed (fun _ _ => False) (Signals env id u) rule s)
    (at_j : rules[j]? = some rule) : Relation.ReflTransGen M s (rule.apply env changed s).state := by
  cases rule with
  | label block => exact labelBlockApply_along includes calls at_j
  | trigger trigger =>
    have evaluation : Relation.ReflTransGen M s (evaluate env trigger.cond s).state :=
      actions_along includes (evaluate_actions at_j List.mem_cons_self)
    simp only [Rule.apply,triggerApply]
    cases evaluated : evaluate env trigger.cond s with
    | failed =>
      rw [evaluated] at evaluation
      exact evaluation
    | stopped =>
      rw [evaluated] at evaluation
      exact evaluation
    | returned v t =>
      rw [evaluated] at evaluation
      simp only [Res.andThen]
      split
      · rename_i holds
        have loop : Relation.ReflTransGen M t (triggerAssigns env changed trigger.ass none t).state :=
          triggerAssigns_along includes (calls_of calls fun _ _ inside => .inr ⟨v,t,evaluated,holds,inside⟩)
            (fun ass member => ⟨_,at_j,member⟩) none
        have all := Relation.ReflTransGen.trans evaluation loop
        cases looped : triggerAssigns env changed trigger.ass none t with
        | failed =>
          rw [looped] at all
          exact all
        | stopped =>
          rw [looped] at all
          exact all
        | returned first u =>
          rw [looped] at all
          cases first <;> exact all
      · exact evaluation

theorem iterateRules_along {changed : Changed α W} (key : Option String) (rest : List (Rule α)) (pos : Nat)
    (calls : Calls env rules M changed fun id u => Notified env changed key id u pos rest s) (suffix : rules.drop pos = rest) :
    Relation.ReflTransGen M s (iterateRules env changed key pos rest s).state := by
  induction rest generalizing s pos with
  | nil => exact .refl
  | cons rule rest ih =>
    have at_pos : rules[pos]? = some rule := by
      rw [← List.head?_drop,suffix,List.head?_cons]
    have suffix' : rules.drop (pos+1) = rest := by
      rw [← List.tail_drop,suffix,List.tail_cons]
    simp only [iterateRules]
    cases concerned : rule.concerned env key s with
    | none => exact .refl
    | some refers =>
      cases refers with
      | false => exact ih (pos+1) (calls_of calls fun _ _ => .passed concerned) suffix'
      | true =>
        have begun : Relation.ReflTransGen M s (s.note (.iterate pos key)) := .single (includes (.action (.iterated key)))
        have applied := begun.trans (ruleApply_along includes (calls_of calls fun _ _ => .now concerned) at_pos)
        simp only
        cases called : rule.apply env changed (s.note (.iterate pos key)) with
        | stopped =>
          rw [called] at applied
          exact applied
        | returned _ t =>
          rw [called] at applied
          exact applied.trans (ih (pos+1) (calls_of calls fun _ _ => .returned concerned called) suffix')
        | failed error t =>
          rw [called] at applied
          have rest := ih (pos+1) (calls_of calls fun _ _ => .failed concerned called) suffix'
          exact (applied.tail (includes (.action (.remarked (j := pos) (.ruleFailed _ _))))).trans rest

private theorem inSelect_along {rule : Rule α} {entries : List (LabelEntry α)} {C : Expr α → EngineState α W → Prop}
    (at_j : rules[j]? = some rule) (members : ∀ entry ∈ entries, entry.cond ∈ exprs rule) (inside : InSelect env C entries s) :
    ∃ v, Relation.ReflTransGen M s v ∧ ∃ e ∈ exprs rule, C e v := by
  induction inside with
  | @now entry _ s holds => exact ⟨s,.refl,entry.cond,members entry List.mem_cons_self,holds⟩
  | @later entry _ s _ _ evaluated _ _ ih =>
    obtain ⟨v,path,found⟩ := ih fun e member => members e (List.mem_cons_of_mem entry member)
    have before : Relation.ReflTransGen M s (evaluate env entry.cond s).state :=
      actions_along includes (evaluate_actions at_j (members entry List.mem_cons_self))
    rw [evaluated] at before
    exact ⟨v,before.trans path,found⟩

private theorem inTrigger_along {changed : Changed α W} {asss : List (Assign α)} {P : Assign α → EngineState α W → Prop}
    (calls : Calls env rules M changed fun _ _ => True) (members : ∀ ass ∈ asss, Assigns rules j ass)
    (inside : InTrigger env changed P asss s) : ∃ v, Relation.ReflTransGen M s v ∧ ∃ ass, Assigns rules j ass ∧ P ass v := by
  have applied : ∀ {ass s}, Assigns rules j ass → Relation.ReflTransGen M s (assignApply env changed ass s).state :=
    assignApply_along includes (calls_of calls fun _ _ _ => trivial)
  induction inside with
  | @now ass rest s holds => exact ⟨s,.refl,ass,members ass List.mem_cons_self,holds⟩
  | @returned ass rest s t didApply called _ ih =>
    obtain ⟨v,path,found⟩ := ih fun a member => members a (List.mem_cons_of_mem ass member)
    have before := applied (s := s) (members ass List.mem_cons_self)
    rw [called] at before
    refine ⟨v,.trans ?_ path,found⟩
    cases didApply with
    | false => exact before
    | true => exact before.tail (includes (.action (.remarked (j := j) (.triggerTriggered _))))
  | @failed ass rest s t error called _ ih =>
    obtain ⟨v,path,found⟩ := ih fun a member => members a (List.mem_cons_of_mem ass member)
    have before := applied (s := s) (members ass List.mem_cons_self)
    rw [called] at before
    exact ⟨v,(before.tail (includes (.action (.remarked (j := j) (.assignFailed _ _))))).trans path,found⟩

/-- Where the loops come to, in a rule: to one of its expressions or to one of its assignments. -/
def ComesTo (rules : List (Rule α)) (C : Expr α → EngineState α W → Prop) (P : Assign α → EngineState α W → Prop) (j : Nat)
    (v : EngineState α W) : Prop :=
  (∃ rule, rules[j]? = some rule ∧ ∃ e ∈ exprs rule, C e v) ∨ ∃ ass, Assigns rules j ass ∧ P ass v

variable {C : Expr α → EngineState α W → Prop} {P : Assign α → EngineState α W → Prop}

private theorem inRule_along {changed : Changed α W} {rule : Rule α} (calls : Calls env rules M changed fun _ _ => True)
    (at_j : rules[j]? = some rule) (inside : InRule env changed C P rule s) :
    ∃ v, Relation.ReflTransGen M s v ∧ ComesTo rules C P j v := by
  cases rule with
  | label block =>
    have conds : ∀ entry ∈ block.entries, entry.cond ∈ exprs (.label block) := fun entry member => cond_mem_exprs member
    rcases inside with selecting | ⟨entry,t,selected,holds⟩
    · obtain ⟨v,path,found⟩ := inSelect_along includes at_j conds selecting
      exact ⟨v,path,.inl ⟨_,at_j,found⟩⟩
    · have selection : Relation.ReflTransGen M s (labelBlockSelect env block.entries s).state :=
        actions_along includes (labelBlockSelect_actions at_j conds)
      rw [selected] at selection
      exact ⟨t,selection,.inr ⟨entry.ass,⟨_,at_j,List.mem_map_of_mem (labelBlockSelect_mem selected)⟩,holds⟩⟩
  | trigger trigger =>
    rcases inside with holds | ⟨condRes,t,evaluated,_,inside⟩
    · exact ⟨s,.refl,.inl ⟨_,at_j,trigger.cond,List.mem_cons_self,holds⟩⟩
    · have evaluation : Relation.ReflTransGen M s (evaluate env trigger.cond s).state :=
        actions_along includes (evaluate_actions at_j List.mem_cons_self)
      rw [evaluated] at evaluation
      obtain ⟨v,path,found⟩ := inTrigger_along includes calls (fun ass member => ⟨_,at_j,member⟩) inside
      exact ⟨v,evaluation.trans path,.inr found⟩

/-- Whatever the loops come to, they come to it in a state of the run. -/
theorem inLoop_along {changed : Changed α W} {key : Option String} {pos : Nat} {rest : List (Rule α)}
    (calls : Calls env rules M changed fun _ _ => True) (suffix : rules.drop pos = rest)
    (inside : InLoop env changed key C P pos rest s) : ∃ j v, Relation.ReflTransGen M s v ∧ ComesTo rules C P j v := by
  have here : ∀ {pos} {rule : Rule α} {rest}, rules.drop pos = rule :: rest →
      rules[pos]? = some rule ∧ rules.drop (pos+1) = rest := by
    intro pos rule rest suffix
    exact ⟨by rw [← List.head?_drop,suffix,List.head?_cons],by rw [← List.tail_drop,suffix,List.tail_cons]⟩
  have begun : ∀ pos s, Relation.ReflTransGen M s (s.note (.iterate pos key)) :=
    fun pos _ => .single (includes (.action (.iterated (j := pos) key)))
  have applied : ∀ {pos s} {rule : Rule α}, rules[pos]? = some rule →
      Relation.ReflTransGen M s (rule.apply env changed (s.note (.iterate pos key))).state :=
    fun {pos s _} at_pos => (begun pos s).trans (ruleApply_along includes (calls_of calls fun _ _ _ => trivial) at_pos)
  induction inside with
  | @now pos _ _ s _ inside =>
    obtain ⟨v,path,found⟩ := inRule_along includes calls (here suffix).1 inside
    exact ⟨pos,v,(begun pos s).trans path,found⟩
  | passed _ _ ih => exact ih (here suffix).2
  | @returned pos _ _ s _ _ called _ ih =>
    obtain ⟨j,v,path,found⟩ := ih (here suffix).2
    have before := applied (s := s) (here suffix).1
    rw [called] at before
    exact ⟨j,v,before.trans path,found⟩
  | @failed pos _ _ s _ _ _ called _ ih =>
    obtain ⟨j,v,path,found⟩ := ih (here suffix).2
    have before := applied (s := s) (here suffix).1
    rw [called] at before
    exact ⟨j,v,(before.tail (includes (.action (.remarked (j := pos) (.ruleFailed _ _))))).trans path,found⟩

/-- Where the handler is called, the run has come to a state in which a rule stores another expression in the variable. -/
theorem notified_along {changed : Changed α W} {key : Option String} {id : String} {u : EngineState α W}
    (calls : Calls env rules M changed fun _ _ => True) (called : Notified env changed key id u 0 rules s) :
    ∃ j v e, Relation.ReflTransGen M s v ∧ Stores env rules j v id e ∧ u = v.store id e := by
  obtain ⟨j,v,path,⟨_,_,_,_,no⟩ | ⟨ass,member,signals⟩⟩ := inLoop_along includes calls rfl called
  · exact no.elim
  · have ends : AssignEnds env rules j v (assignStore env ass v) := assignStore_ends member
    rw [show assignStore env ass v = .returned (.changed id) u from signals] at ends
    obtain ⟨w,e,actions,stores,same⟩ := ends
    exact ⟨j,w,e,path.trans (actions_along includes actions),stores,same⟩

end

/-- The invariant rule: what every step keeps, and every change of a variable with what
    the handler makes of it, holds wherever the call gets to. -/
theorem iterateRules_keeps {I : EngineState α W → Prop} {changed : Changed α W} (steps : ∀ s t, I s → Step env rules s t → I t)
    (key : Option String) (calls : ∀ j u id e, I u → Stores env rules j u id e →
      Notified env changed key id (u.store id e) 0 rules s → I (changed id (u.store id e)).state)
    (holds : I s) : I (iterateRules env changed key 0 rules s).state := by
  have path : Relation.ReflTransGen (fun s t => I s → I t) s (iterateRules env changed key 0 rules s).state :=
    iterateRules_along (fun step holds => steps _ _ holds step) key rules 0
      (fun j u id e stores called => .single fun holds => calls j u id e holds stores called) rfl
  generalize (iterateRules env changed key 0 rules s).state = t at path
  induction path with
  | refl => exact holds
  | tail _ last ih => exact last ih

/-- Whatever `engine_apply` does, returning or not, is a sequence of steps. -/
theorem engineApply_steps (env : Env α W) (engine : Engine α) :
    ∀ n key (s : EngineState α W), Steps env engine.rules s (engineApply env engine n key s).state := by
  intro n
  induction n with
  | zero => exact fun _ _ => .refl
  | succ n ih =>
    intro key s
    exact iterateRules_along id key engine.rules 0 (fun j s id e stores _ => .head (.store stores) (ih (some id) _)) rfl

theorem step_log (step : Step env rules s t) : s.log <+: t.log := by
  cases step with
  | action action => exact action_log action
  | store => exact List.prefix_append _ _

theorem steps_log (steps : Steps env rules s t) : s.log <+: t.log := by
  induction steps with
  | refl => exact List.prefix_rfl
  | tail _ last ih => exact ih.trans (step_log last)

/-- No step adds or removes a variable. -/
theorem step_domain (step : Step env rules s t) (x : String) : t.vars x = none ↔ s.vars x = none := by
  cases step with
  | action action => rw [(action_alike action).1]
  | @store j _ id e stores =>
    obtain ⟨_,_,_,_,_,_,value,stored,_⟩ := stores
    by_cases same : x = id
    · subst same
      simp [stored]
    · simp [Function.update_of_ne same]

theorem steps_domain (steps : Steps env rules s t) (x : String) : t.vars x = none ↔ s.vars x = none := by
  induction steps with
  | refl => exact Iff.rfl
  | tail _ last ih => exact (step_domain last x).trans ih

end

end Starter.Cascade
