import Starter.Aliases
import Starter.Coverage
import Starter.Debugger
import Starter.Termination
import Starter.Twins

/-!
How deep cascades go. Every change of a variable calls `engine_apply` again, from inside
itself. When neither the variables mention each other in a circle nor the rules change in
a circle what they mention, every call returns, and no more calls are nested than there
are variables, and one; unless it evaluates a node without a result, from which C does
not go on in any way that could be relied on.
-/
namespace Starter.Nesting
open Gdouble Objects Expressions Evaluation References Rules Relevance Cascade Coverage Debugger Termination Twins Lib.Approx
  Lib.Graphs
open Aliases (Stalls stalls_undefined exprEval_told)
open Sequence (hasResult)

variable {α W : Type}

/-- The expression mentions `x`, itself or through the expressions that are given to the
    variables which it mentions. -/
inductive Reads (program : Program α) (x : String) : Expr α → Prop
  | ref : Reads program x (.ref x)
  | flag (bit : IoFlags) : Reads program x (.flag x bit)
  | through {y : String} {e : Expr α} (given : Given program y e) (inside : Reads program x e) : Reads program x (.ref y)
  | left {o : Op} {l r : Expr α} (inside : Reads program x l) : Reads program x (.op o l r)
  | right {o : Op} {l r : Expr α} (inside : Reads program x r) : Reads program x (.op o l r)
  | arg {node : Nat} {func : Func} {args : List (Expr α)} {e : Expr α} (member : e ∈ args) (inside : Reads program x e) :
      Reads program x (.func node func args)

/-- A rule that assigns the variable `y` mentions `x`. -/
def Above (program : Program α) (x y : String) : Prop :=
  initialTable program.decls y ≠ none ∧ ∃ rule ∈ program.engine.rules,
    (∃ ass ∈ assigns rule, ass.flagBit = 0 ∧ ass.id = y) ∧ ∃ e ∈ exprs rule, Reads program x e

/-- The variables of a program. -/
def varNames (program : Program α) : Finset String := (program.decls.map Prod.fst).toFinset

/-- The tables that assignments of the rules make from the initial one. -/
inductive Reachable (program : Program α) : Variables α → Prop
  | initial : Reachable program (initialTable program.decls)
  | assigned {vars : Variables α} {j : Nat} {ass : Assign α} (before : Reachable program vars)
      (assigned : Assigns program.engine.rules j ass) (value : ass.flagBit = 0) (there : vars ass.id ≠ none) :
      Reachable program (Function.update vars ass.id (some ass.rval))

theorem reachable_known {program : Program α} {vars : Variables α} (reachable : Reachable program vars) : Known program vars := by
  induction reachable with
  | initial => exact fun x e stored => .inl stored
  | @assigned vars j ass _ assigned value there ih =>
    intro x e stored
    by_cases same : x = ass.id
    · subst same
      rw [Function.update_self] at stored
      obtain ⟨f,before⟩ := Option.ne_none_iff_exists'.mp there
      exact .inr ⟨given_declared (ih _ f before),j,ass,assigned,value,rfl,Option.some.inj stored⟩
    · rw [Function.update_of_ne same] at stored
      exact ih x e stored

theorem mem_varNames {program : Program α} {x : String} (declared : initialTable program.decls x ≠ none) :
    x ∈ varNames program := by
  obtain ⟨e,stored⟩ := Option.ne_none_iff_exists'.mp declared
  exact List.mem_toFinset.mpr (List.mem_map_of_mem (f := Prod.fst) (initialTable_entry program.decls stored))

/-- What an expression refers to on a table of the program it mentions. -/
theorem reads_of_refersTo {program : Program α} {vars : Variables α} (known : Known program vars)
    {captured : Nat → Option α} {x : String} {e : Expr α} (refers : RefersTo vars captured x e) : Reads program x e := by
  induction refers with
  | ref named =>
    subst named
    exact .ref
  | flag named =>
    subst named
    exact .flag _
  | var stored _ ih => exact .through (known _ _ stored) ih
  | left _ ih => exact .left ih
  | right _ ih => exact .right ih
  | arg live _ ih => exact .arg (liveArgs_subset live) ih

section
variable [Gdouble α] [DecidableEq α]

/-- `engine_apply` in which a change of a variable goes to a callback, which calls it again,
    and what would be the nested call after the `n`-th goes to `deeper` instead. -/
def nestedApply (env : Env α W) (engine : Engine α) (callback : Changed α W → Changed α W)
    (deeper : Option String → EngineState α W → Res (EngineState α W) Unit) :
    Nat → Option String → EngineState α W → Res (EngineState α W) Unit
  | 0, key, s => deeper key s
  | n+1, key, s =>
    iterateRules env (callback fun name => nestedApply env engine callback deeper n (some name)) key 0 engine.rules s

/-- The callback of a Core without a debug server only calls `engine_apply`. -/
theorem nestedApply_plain (env : Env α W) (engine : Engine α) (m n : Nat) (key : Option String) (s : EngineState α W) :
    nestedApply env engine id (engineApply env engine m) n key s = engineApply env engine (m+n) key s := by
  induction n generalizing key s with
  | zero => rfl
  | succ n ih =>
    have calls : (fun name => nestedApply env engine id (engineApply env engine m) n (some name)) =
        fun name => engineApply env engine (m+n) (some name) := by
      funext name t
      exact ih (some name) t
    simp only [nestedApply,id_eq,calls]
    rfl

theorem nestedApply_debug (env : Env α (W × CoreDebug α)) (engine : Engine α) (m n : Nat) (key : Option String)
    (s : Debugged α W) :
    nestedApply env engine (varChangedCallback env) (engineApplyDebug env engine m) n key s =
      engineApplyDebug env engine (m+n) key s := by
  induction n generalizing key s with
  | zero => rfl
  | succ n ih =>
    have calls : (fun name => nestedApply env engine (varChangedCallback env) (engineApplyDebug env engine m) n (some name)) =
        fun name => engineApplyDebug env engine (m+n) (some name) := by
      funext name t
      exact ih (some name) t
    simp only [nestedApply,calls]
    rfl

end

/-! ### One rule

The rule is applied twice, once with more depth for the expressions and with other
handlers of the variables. Both come to the same end. -/

/-- The expressions of a program. -/
def texts (program : Program α) : List (Expr α) := program.engine.rules.flatMap exprs ++ program.decls.map Prod.snd

private theorem text_of_rule {program : Program α} {rule : Rule α} {e : Expr α}
    (among : rule ∈ program.engine.rules) (inRule : e ∈ exprs rule) :
    e ∈ texts program := List.mem_append_left _ (List.mem_flatMap.mpr ⟨rule,among,inRule⟩)

private theorem text_of_given {program : Program α} {x : String} {e : Expr α} (given : Given program x e) : e ∈ texts program := by
  rcases given with initial | ⟨_,j,ass,⟨rule,at_j,member⟩,_,_,rfl⟩
  · exact List.mem_append_right _ (List.mem_map_of_mem (f := Prod.snd) (initialTable_entry program.decls initial))
  · exact text_of_rule (List.mem_of_getElem? at_j) (rval_of_assigns member)

/-- What `assignStore` says about the variable that it has changed. -/
def Names (program : Program α) (ass : Assign α) (stored : Stored) : Prop :=
  ∀ id, stored = .changed id → id = ass.id ∧ ass.flagBit = 0 ∧ initialTable program.decls id ≠ none

private theorem names_quiet {program : Program α} {ass : Assign α} (didApply : Bool) : Names program ass (.quiet didApply) := by
  rintro _ ⟨⟩

/-- The two calls end alike: they return, with a table of the program, or they come to what
    `S` says. -/
inductive Sure (program : Program α) (S : Prop) {β : Type} (Q : β → Prop) :
    Res (EngineState α W) β → Res (EngineState α W) β → Prop
  | returned {b : β} {s : EngineState α W} (holds : Q b) (reachable : Reachable program s.vars) :
      Sure program S Q (.returned b s) (.returned b s)
  | failed {error : StError} {s : EngineState α W} (reachable : Reachable program s.vars) :
      Sure program S Q (.failed error s) (.failed error s)
  | stopped {s : EngineState α W} (stalls : S) : Sure program S Q (.stopped s) (.stopped s)

variable {program : Program α} {env : Env α W} {S S' : Prop} {β γ : Type} {P : β → Prop} {Q : γ → Prop} {s : EngineState α W}

theorem sure_eq {x x' : Res (EngineState α W) β} (sure : Sure program S P x x') : x = x' := by
  cases sure <;> rfl

theorem sure_left {x x' : Res (EngineState α W) β} (sure : Sure program S P x x') :
    (∃ b t, x = .returned b t ∧ Reachable program t.vars) ∨ (∃ error t, x = .failed error t) ∨ ((∃ t, x = .stopped t) ∧ S) := by
  cases sure with
  | returned _ reachable => exact .inl ⟨_,_,rfl,reachable⟩
  | failed => exact .inr (.inl ⟨_,_,rfl⟩)
  | stopped stalls => exact .inr (.inr ⟨⟨_,rfl⟩,stalls⟩)

theorem sure_mono {P Q : β → Prop} {x x' : Res (EngineState α W) β} (weaker : ∀ b, P b → Q b) (stalls : S → S')
    (sure : Sure program S P x x') : Sure program S' Q x x' := by
  cases sure with
  | returned holds reachable => exact .returned (weaker _ holds) reachable
  | failed reachable => exact .failed reachable
  | stopped found => exact .stopped (stalls found)

theorem sure_handle {x x' : Res (EngineState α W) β} {f f' : β → EngineState α W → Res (EngineState α W) γ}
    {g g' : StError → EngineState α W → Res (EngineState α W) γ} (first : Sure program S P x x') (here : S → S')
    (second : ∀ b t, x = .returned b t → P b → Reachable program t.vars → Sure program S' Q (f b t) (f' b t))
    (otherwise : ∀ error t, x = .failed error t → Reachable program t.vars → Sure program S' Q (g error t) (g' error t)) :
    Sure program S' Q (handle x f g) (handle x' f' g') := by
  cases first with
  | returned holds reachable => exact second _ _ rfl holds reachable
  | failed reachable => exact otherwise _ _ rfl reachable
  | stopped found => exact .stopped (here found)

theorem sure_andThen {x x' : Res (EngineState α W) β} {f f' : β → EngineState α W → Res (EngineState α W) γ}
    (first : Sure program S P x x') (here : S → S')
    (second : ∀ b t, x = .returned b t → P b → Reachable program t.vars → Sure program S' Q (f b t) (f' b t)) :
    Sure program S' Q (x.andThen f) (x'.andThen f') := by
  rw [andThen_eq_handle,andThen_eq_handle]
  exact sure_handle first here second fun error t _ reachable => .failed reachable

section
variable [Gdouble α]

/-- The depth suffices for all the expressions of the program on all its tables. -/
structure Deep (program : Program α) (depth : Nat) : Prop where
  evals : ∀ d ≥ depth, ∀ e ∈ texts program, ∀ io vars m, Known program vars → exprEval d io vars e m ≠ none
  tests : ∀ d ≥ depth, ∀ e ∈ texts program, ∀ vars captured id, Known program vars →
    exprHaveRefTo d vars captured id e ≠ none

def deepen (env : Env α W) (depth : Nat) : Env α W := { env with depth := depth }

/-- The evaluation of the expression in the state comes to a node without a result. -/
def Stalling (env : Env α W) (e : Expr α) (s : EngineState α W) : Prop := Stalls env.io s.vars s.mem.captured e

omit [Gdouble α] in
private theorem sure_request {call : W → String → α → IoFlags → Bool × W} {event : String → α → IoFlags → Bool → Event α}
    {error id : String} {val : α} {flags : IoFlags} {ass : Assign α} (reachable : Reachable program s.vars) :
    Sure program S (Names program ass) (request call event error id val flags s) (request call event error id val flags s) := by
  unfold request
  split
  · exact .returned (names_quiet true) reachable
  · exact .failed reachable

private theorem sure_assignFlagOf {call : W → String → α → IoFlags → Bool × W}
    {event : String → α → IoFlags → Bool → Event α}
    {error : String} {obj : IoObject α} {v : α} {ass : Assign α} (reachable : Reachable program s.vars) :
    Sure program S (Names program ass) (assignFlagOf call event error ass obj v s) (assignFlagOf call event error ass obj v s) := by
  unfold assignFlagOf
  simp only
  split
  · exact .returned (names_quiet false) reachable
  · exact sure_request reachable

section
variable {depth : Nat} (deep : Deep program env.depth) (more : env.depth ≤ depth)
include deep more

theorem sure_evaluate {e : Expr α} (text : e ∈ texts program) (reachable : Reachable program s.vars) :
    Sure program (Stalling env e s) (fun _ => True) (evaluate env e s) (evaluate (deepen env depth) e s) := by
  have known := reachable_known reachable
  obtain ⟨r,ends⟩ := Option.ne_none_iff_exists'.mp (deep.evals env.depth le_rfl e text env.io s.vars s.mem known)
  obtain ⟨r',ends'⟩ := Option.ne_none_iff_exists'.mp (deep.evals depth more e text env.io s.vars s.mem known)
  obtain rfl := exprEval_unique ends ends'
  simp only [evaluate,deepen,ends,ends']
  have told := exprEval_told env.depth e s.mem r ends
  obtain ⟨_ | _ | _,m⟩ := r
  · exact .returned trivial reachable
  · exact .failed reachable
  · exact .stopped told

theorem sure_labelBlockSelect {entries : List (LabelEntry α)} (text : ∀ entry ∈ entries, entry.cond ∈ texts program)
    (reachable : Reachable program s.vars) :
    Sure program (InSelect env (Stalling env) entries s) (fun selected => ∀ entry, selected = some entry → entry ∈ entries)
      (labelBlockSelect env entries s) (labelBlockSelect (deepen env depth) entries s) := by
  induction entries generalizing s with
  | nil => exact .returned (by rintro _ ⟨⟩) reachable
  | cons entry rest ih =>
    refine sure_andThen (sure_evaluate deep more (text entry List.mem_cons_self) reachable) .now
      fun v t evaluated _ reachable => ?_
    split
    · refine .returned ?_ reachable
      rintro _ ⟨⟩
      exact List.mem_cons_self
    · rename_i passed
      exact sure_mono (fun selected among other found => List.mem_cons_of_mem entry (among other found))
        (.later evaluated (by simpa using passed))
        (ih (fun other member => text other (List.mem_cons_of_mem entry member)) reachable)

/-- Whether a rule is concerned is always decided, and it is only if it refers to what has
    changed. -/
private theorem concerned_decided {rule : Rule α} (among : rule ∈ program.engine.rules) (key : Option String)
    (known : Known program s.vars) :
    ∃ concerned, rule.concerned env key s = some concerned ∧ rule.concerned (deepen env depth) key s = some concerned ∧
      (concerned = true → ∀ x, key = some x → RuleRefersTo s.vars s.mem.captured x rule) := by
  cases key with
  | none => exact ⟨true,rfl,rfl,by simp⟩
  | some x =>
    have decided : ∀ d ≥ env.depth, rule.haveRefTo d s.vars s.mem.captured x ≠ none := by
      intro d enough
      have each : ∀ e ∈ exprs rule, exprHaveRefTo d s.vars s.mem.captured x e ≠ none := fun e inRule =>
        deep.tests d enough e (text_of_rule among inRule) s.vars s.mem.captured x known
      cases rule with
      | label block =>
        refine anyRef_ends fun answer member => ?_
        obtain ⟨entry,inBlock,rfl⟩ := List.mem_map.mp member
        refine anyRef_ends fun answer member => ?_
        simp only [List.mem_cons,List.not_mem_nil,or_false] at member
        rcases member with rfl | rfl
        · exact each _ (cond_mem_exprs inBlock)
        · exact each _ (rval_mem_exprs inBlock)
      | trigger trigger =>
        refine anyRef_ends fun answer member => ?_
        rcases List.mem_cons.mp member with rfl | member
        · exact each _ List.mem_cons_self
        · obtain ⟨ass,inTrigger,rfl⟩ := List.mem_map.mp member
          exact each _ (List.mem_cons_of_mem _ (List.mem_map_of_mem inTrigger))
    obtain ⟨b,first⟩ := Option.ne_none_iff_exists'.mp (decided env.depth le_rfl)
    obtain ⟨b',second⟩ := Option.ne_none_iff_exists'.mp (decided depth more)
    have same : b' = b := by
      cases b <;> cases b'
      · rfl
      · exact absurd (haveRefTo_true second) (haveRefTo_false first)
      · exact absurd (haveRefTo_true first) (haveRefTo_false second)
      · rfl
    subst same
    refine ⟨_,first,second,?_⟩
    rintro rfl _ ⟨⟩
    exact haveRefTo_true first

variable [DecidableEq α]

theorem sure_assignStore {ass : Assign α} {j : Nat} (member : Assigns program.engine.rules j ass)
    (text : ass.rval ∈ texts program) (reachable : Reachable program s.vars) :
    Sure program (Evaluates env ass ∧ Stalling env ass.rval s) (Names program ass) (assignStore env ass s)
      (assignStore (deepen env depth) ass s) := by
  unfold assignStore
  split
  · rename_i flag
    unfold assignApplyFlag
    split
    · exact .returned (names_quiet false) reachable
    · rename_i usr
      have evaluates : Evaluates env ass := by
        rw [Evaluates,if_pos flag]
        simpa using usr
      refine sure_andThen (sure_evaluate deep more text reachable) (fun stalls => ⟨evaluates,stalls⟩) fun v t _ _ reachable => ?_
      simp only [deepen]
      cases env.io.outputs ass.id with
      | some out => exact sure_assignFlagOf reachable
      | none =>
        cases env.io.inputs ass.id with
        | some input => exact sure_assignFlagOf reachable
        | none => exact .failed reachable
  · rename_i value
    have sameIo : (deepen env depth).io = env.io := rfl
    rw [sameIo]
    cases mirrored : env.io.outputs ass.id with
    | some output =>
      have evaluates : Evaluates env ass := by
        rw [Evaluates,if_neg value,mirrored]
        simp
      refine sure_andThen (sure_evaluate deep more text reachable) (fun stalls => ⟨evaluates,stalls⟩) fun v t _ _ reachable => ?_
      simp only [deepen]
      split
      · exact .returned (names_quiet false) reachable
      · split
        · exact .returned (names_quiet false) reachable
        · exact sure_request reachable
    | none =>
      simp only
      cases stored : s.vars ass.id with
      | none => exact .failed reachable
      | some held =>
        simp only
        split
        · exact .returned (names_quiet false) reachable
        · have zero : ass.flagBit = 0 := by simpa using value
          refine .returned ?_ (.assigned reachable member zero (by simp [stored]))
          rintro _ ⟨⟩
          exact ⟨rfl,zero,given_declared (reachable_known reachable _ _ stored)⟩

variable {changed changed' : Changed α W} {H : String → EngineState α W → Prop}

/-- The handlers come to the same end for the variables that the rule assigns, or to what
    `H` says. -/
def Handles (program : Program α) (H : String → EngineState α W → Prop) (rule : Rule α) (changed changed' : Changed α W) : Prop :=
  ∀ ass ∈ assigns rule, ass.flagBit = 0 → initialTable program.decls ass.id ≠ none →
    ∀ t, Reachable program t.vars → Sure program (H ass.id t) (fun _ => True) (changed ass.id t) (changed' ass.id t)

/-- The expression that the assignment evaluates stalls, or the handler that is called for it comes to what `H` says. -/
def Hits (env : Env α W) (H : String → EngineState α W → Prop) (ass : Assign α) (s : EngineState α W) : Prop :=
  (Evaluates env ass ∧ Stalling env ass.rval s) ∨ ∃ call : String × EngineState α W, Signals env call.1 call.2 ass s ∧ H call.1 call.2

theorem sure_assignApply {rule : Rule α} (among : rule ∈ program.engine.rules) (handles : Handles program H rule changed changed')
    {ass : Assign α} (member : ass ∈ assigns rule) (reachable : Reachable program s.vars) :
    Sure program (Hits env H ass s) (fun _ => True) (assignApply env changed ass s) (assignApply (deepen env depth) changed' ass s) := by
  obtain ⟨j,at_j⟩ := List.getElem?_of_mem among
  rw [assignApply_eq,assignApply_eq]
  refine sure_andThen (sure_assignStore deep more ⟨rule,at_j,member⟩ (text_of_rule among (rval_of_assigns member)) reachable)
    .inl ?_
  intro stored t made names reachable
  cases stored with
  | quiet didApply => exact .returned trivial reachable
  | changed id =>
    obtain ⟨rfl,value,declared⟩ := names id rfl
    exact sure_andThen (handles ass member value declared t reachable) (fun hit => .inr ⟨(ass.id,t),made,hit⟩)
      fun _ u _ _ reachable => .returned trivial reachable

omit [Gdouble α] [DecidableEq α] deep more in
private theorem reachable_hook {didApply : Bool} {event : Event α} (reachable : Reachable program s.vars) :
    Reachable program (if didApply then s.note event else s).vars := by
  cases didApply <;> exact reachable

theorem sure_labelBlockApply {block : LabelBlock α} (among : .label block ∈ program.engine.rules)
    (handles : Handles program H (.label block) changed changed') (reachable : Reachable program s.vars) :
    Sure program (InRule env changed (Stalling env) (Hits env H) (.label block) s) (fun _ => True)
      (labelBlockApply env changed block s) (labelBlockApply (deepen env depth) changed' block s) := by
  have text : ∀ entry ∈ block.entries, entry.cond ∈ texts program := fun entry member => text_of_rule among (cond_mem_exprs member)
  refine sure_andThen (sure_labelBlockSelect deep more text reachable) .inl fun selected t found members reachable => ?_
  cases selected with
  | none => exact .returned trivial reachable
  | some entry =>
    have member : entry.ass ∈ assigns (.label block) := List.mem_map_of_mem (members entry rfl)
    exact sure_andThen (sure_assignApply deep more among handles member reachable) (fun hit => .inr ⟨entry,t,found,hit⟩)
      fun _ u _ _ reachable => .returned trivial (reachable_hook reachable)

theorem sure_triggerAssigns {rule : Rule α} (among : rule ∈ program.engine.rules) (handles : Handles program H rule changed changed')
    {asss : List (Assign α)} (members : ∀ ass ∈ asss, ass ∈ assigns rule) (first : Option StError)
    (reachable : Reachable program s.vars) :
    Sure program (InTrigger env changed (Hits env H) asss s) (fun _ => True) (triggerAssigns env changed asss first s)
      (triggerAssigns (deepen env depth) changed' asss first s) := by
  induction asss generalizing s first with
  | nil => exact .returned trivial reachable
  | cons ass rest ih =>
    have others := fun other member => members other (List.mem_cons_of_mem ass member)
    rw [triggerAssigns_cons,triggerAssigns_cons]
    exact sure_handle (sure_assignApply deep more among handles (members ass List.mem_cons_self) reachable) .now
      (fun _ t applied _ reachable => sure_mono (fun _ _ => trivial) (.returned applied) (ih others first (reachable_hook reachable)))
      fun error t applied reachable => sure_mono (fun _ _ => trivial) (.failed applied) (ih others _ reachable)

theorem sure_triggerApply {trigger : Trigger α} (among : .trigger trigger ∈ program.engine.rules)
    (handles : Handles program H (.trigger trigger) changed changed') (reachable : Reachable program s.vars) :
    Sure program (InRule env changed (Stalling env) (Hits env H) (.trigger trigger) s) (fun _ => True)
      (triggerApply env changed trigger s) (triggerApply (deepen env depth) changed' trigger s) := by
  rw [triggerApply_eq,triggerApply_eq]
  refine sure_andThen (sure_evaluate deep more (text_of_rule among List.mem_cons_self) reachable) .inl
    fun v t evaluated _ reachable => ?_
  split
  · rename_i holds
    refine sure_handle (sure_triggerAssigns deep more among handles (fun _ member => member) none reachable)
      (fun inside => .inr ⟨v,t,evaluated,holds,inside⟩) ?_ fun error t _ reachable => .failed reachable
    intro first t _ _ reachable
    cases first with
    | none => exact .returned trivial reachable
    | some error => exact .failed reachable
  · exact .returned trivial reachable

theorem sure_ruleApply {rule : Rule α} (among : rule ∈ program.engine.rules) (handles : Handles program H rule changed changed')
    (reachable : Reachable program s.vars) :
    Sure program (InRule env changed (Stalling env) (Hits env H) rule s) (fun _ => True) (rule.apply env changed s)
      (rule.apply (deepen env depth) changed' s) := by
  cases rule with
  | label block => exact sure_labelBlockApply deep more among handles reachable
  | trigger trigger => exact sure_triggerApply deep more among handles reachable

/-- The loop over the rules, if the handlers come to the same end for the variables of the
    rules that mention what has changed. -/
theorem sure_iterateRules {key : Option String} {rules : List (Rule α)} (among : ∀ rule ∈ rules, rule ∈ program.engine.rules)
    (handles : ∀ rule ∈ rules, (∀ x, key = some x → ∃ e ∈ exprs rule, Reads program x e) →
      Handles program H rule changed changed') (pos : Nat) (reachable : Reachable program s.vars) :
    Sure program (InLoop env changed key (Stalling env) (Hits env H) pos rules s) (fun _ => True)
      (iterateRules env changed key pos rules s) (iterateRules (deepen env depth) changed' key pos rules s) := by
  induction rules generalizing s pos with
  | nil => exact .returned trivial reachable
  | cons rule rest ih =>
    have here := among rule List.mem_cons_self
    have onward : ∀ {t : EngineState α W}, Reachable program t.vars →
        Sure program (InLoop env changed key (Stalling env) (Hits env H) (pos+1) rest t) (fun _ => True)
          (iterateRules env changed key (pos+1) rest t) (iterateRules (deepen env depth) changed' key (pos+1) rest t) :=
      fun reachable => ih (fun other member => among other (List.mem_cons_of_mem rule member))
        (fun other member => handles other (List.mem_cons_of_mem rule member)) (pos+1) reachable
    have known := reachable_known reachable
    obtain ⟨concerned,first,second,refers⟩ := concerned_decided deep more here key known
    rw [iterateRules_cons,iterateRules_cons,first,second]
    cases concerned with
    | false => exact sure_mono (fun _ _ => trivial) (.passed first) (onward reachable)
    | true =>
      have handled : Handles program H rule changed changed' := by
        refine handles rule List.mem_cons_self fun x called => ?_
        obtain ⟨e,inRule,refersTo⟩ := refers rfl x called
        exact ⟨e,inRule,reads_of_refersTo known refersTo⟩
      exact sure_handle (sure_ruleApply deep more here handled reachable) (.now first)
        (fun _ t applied _ reachable => sure_mono (fun _ _ => trivial) (.returned first applied) (onward reachable))
        fun error t applied reachable => sure_mono (fun _ _ => trivial) (.failed first applied) (onward reachable)

/-! ### The nested calls -/

/-- What a callback does with the change of a variable: it calls `engine_apply` in a state with the same variables, or it
evaluates something that stalls, or it returns. -/
structure Callback (program : Program α) (env : Env α W) (callback callback' : Changed α W → Changed α W)
    (calls : String → EngineState α W → EngineState α W → Prop) (looks : String → EngineState α W → Prop) : Prop where
  applies : ∀ name s t, calls name s t → t.vars = s.vars ∧ ∀ apply, callback apply name s = apply name t
  stalls : ∀ name s, looks name s → ∀ apply, Stops (callback apply name s)
  alike : ∀ apply apply' name s (S : EngineState α W → Prop), Reachable program s.vars →
    (∀ t, calls name s t → Sure program (S t) (fun _ => True) (apply name t) (apply' name t)) →
    Sure program (looks name s ∨ ∃ t, calls name s t ∧ S t) (fun _ => True) (callback apply name s) (callback' apply' name s)

/-- In a call of `engine_apply`, or in one inside it, an expression is evaluated that stalls. -/
def StuckIn (env : Env α W) (engine : Engine α) (handler : Nat → Changed α W)
    (calls : String → EngineState α W → EngineState α W → Prop) (looks : String → EngineState α W → Prop) :
    Nat → Option String → EngineState α W → Prop :=
  Within env engine.rules handler calls fun n key s =>
    Evaluated env (handler n) key (Stalling env) 0 engine.rules s ∨
      ∃ name u, Notified env (handler n) key name u 0 engine.rules s ∧ looks name u

variable {callback callback' : Changed α W → Changed α W} {calls : String → EngineState α W → EngineState α W → Prop}
  {looks : String → EngineState α W → Prop}

/-- The handler of the variables, with `n` calls nested. -/
abbrev nestedHandler (env : Env α W) (engine : Engine α) (callback : Changed α W → Changed α W)
    (deeper : Option String → EngineState α W → Res (EngineState α W) Unit) (n : Nat) : Changed α W :=
  callback fun name => nestedApply env engine callback deeper n (some name)

/-- The calls of `engine_apply` with `n` nested ones, if no more variables than `n` are below
    any of those that they may change. -/
theorem sure_nestedApply (acyclic : Acyclic (Above program)) (spec : Callback program env callback callback' calls looks)
    (deeper deeper' : Option String → EngineState α W → Res (EngineState α W) Unit) (n : Nat) (key : Option String)
    (reachable : Reachable program s.vars)
    (few : ∀ y, initialTable program.decls y ≠ none → (∀ x, key = some x → Above program x y) →
      (below (Above program) (varNames program) y).card < n) :
    Sure program (StuckIn env program.engine (nestedHandler env program.engine callback deeper) calls looks (n+1) key s)
      (fun _ => True) (nestedApply env program.engine callback deeper (n+1) key s)
      (nestedApply (deepen env depth) program.engine callback' deeper' (n+1) key s) := by
  induction n generalizing key s with
  | zero =>
    refine sure_mono (fun _ _ => trivial) (fun hits => .own ?_) (sure_iterateRules (H := fun _ _ => False) deep more
      (fun _ among => among) (fun rule among mentions ass member value declared t there => ?_) 0 reachable)
    · rcases inLoop_or hits with own | ⟨_,_,no⟩
      · exact .inl own
      · exact no.elim
    · have above := few ass.id declared fun x called => ⟨declared,rule,among,⟨ass,member,value,rfl⟩,mentions x called⟩
      omega
  | succ n ih =>
    refine sure_mono (fun _ _ => trivial) (fun hits => ?_) (sure_iterateRules
      (H := fun name u => looks name u ∨ ∃ w, calls name u w ∧
        StuckIn env program.engine (nestedHandler env program.engine callback deeper) calls looks (n+1) (some name) w)
      deep more (fun _ among => among) (fun rule among mentions ass member value declared t there => ?_) 0 reachable)
    · rcases inLoop_or hits with own | ⟨⟨name,u⟩,notified,looked | ⟨w,called,later⟩⟩
      · exact .own (.inl own)
      · exact .own (.inr ⟨name,u,notified,looked⟩)
      · exact .nested notified called later
    · have above := few ass.id declared fun x called => ⟨declared,rule,among,⟨ass,member,value,rfl⟩,mentions x called⟩
      refine spec.alike _ _ ass.id t _ there fun u called => ih (some ass.id) ?_ fun y declaredY edge => ?_
      · exact (spec.applies _ _ _ called).1 ▸ there
      · have fewer := below_card_lt acyclic (mem_varNames declaredY) (edge ass.id rfl)
        omega

end

/-! An evaluation that stalls does not end, and neither does the call that it is part of. -/

theorem stalling_ends {e : Expr α} (stalls : Stalling env e s) {r : Outcome α × Mem α}
    (ends : exprEval env.depth env.io s.vars e s.mem = some r) : ∃ m, r = (.undefined,m) := by
  obtain ⟨_,always⟩ := stalls_undefined stalls
  obtain ⟨_,m,undefined,rfl⟩ := always s.mem rfl
  exact ⟨m,exprEval_unique ends undefined⟩

private theorem evaluate_stops {e : Expr α} {s : EngineState α W} (stalls : Stalling env e s) : Stops (evaluate env e s) := by
  unfold evaluate
  cases ends : exprEval env.depth env.io s.vars e s.mem with
  | none => exact ⟨s,rfl⟩
  | some r =>
    obtain ⟨m,rfl⟩ := stalling_ends stalls ends
    exact ⟨s,rfl⟩

section
variable [DecidableEq α]

private theorem assignApply_stops {changed : Changed α W} {ass : Assign α} (evaluates : Evaluates env ass)
    (stalls : Stalling env ass.rval s) : Stops (assignApply env changed ass s) := by
  obtain ⟨t,stopped⟩ := evaluate_stops stalls
  refine ⟨t,?_⟩
  unfold Evaluates at evaluates
  split at evaluates
  · rename_i flag
    simp only [assignApply,assignStore,if_pos flag,assignApplyFlag,evaluates,Bool.not_true,Bool.false_eq_true,if_false,stopped,
      Res.andThen]
  · rename_i value
    obtain ⟨output,mirrored⟩ := Option.ne_none_iff_exists'.mp evaluates
    simp only [assignApply,assignStore,if_neg value,mirrored,assignOutput,stopped,Res.andThen]

private theorem signals_stops {changed : Changed α W} {ass : Assign α} {name : String} {u : EngineState α W}
    (signals : Signals env name u ass s) (stops : Stops (changed name u)) : Stops (assignApply env changed ass s) := by
  obtain ⟨t,stopped⟩ := stops
  have signals : assignStore env ass s = .returned (.changed name) u := signals
  exact ⟨t,by simp only [assignApply,signals,stopped,Res.andThen]⟩

theorem stuck_stops {callback callback' : Changed α W → Changed α W} {calls : String → EngineState α W → EngineState α W → Prop}
    {looks : String → EngineState α W → Prop} (spec : Callback program env callback callback' calls looks)
    {deeper : Option String → EngineState α W → Res (EngineState α W) Unit} {n : Nat} {key : Option String}
    (stuck : StuckIn env program.engine (nestedHandler env program.engine callback deeper) calls looks n key s) :
    Stops (nestedApply env program.engine callback deeper n key s) := by
  induction stuck with
  | own holds =>
    rcases holds with evaluated | ⟨name,u,notified,looked⟩
    · exact inLoop_stops (fun _ _ => evaluate_stops) (fun _ _ hit => assignApply_stops hit.1 hit.2) evaluated
    · exact inLoop_stops (fun _ _ no => no.elim) (fun _ _ signals => signals_stops signals (spec.stalls _ _ looked _)) notified
  | nested notified called _ ih =>
    refine inLoop_stops (fun _ _ no => no.elim) (fun _ _ signals => signals_stops signals ?_) notified
    rw [(spec.applies _ _ _ called).2]
    exact ih

end

/-! ### The two callbacks -/

section
variable [DecidableEq α]

omit [Gdouble α] [DecidableEq α] in
/-- Without the debug server the callback only calls `engine_apply`. -/
theorem callback_plain : Callback program env id id (fun _ s t => t = s) fun _ _ => False := by
  refine ⟨?_,fun _ _ no => no.elim,fun apply apply' name s S _ calls => ?_⟩
  · rintro name s _ rfl
    exact ⟨rfl,fun _ => rfl⟩
  · exact sure_mono (fun _ _ => trivial) (fun stalls => .inr ⟨s,rfl,stalls⟩) (calls s rfl)

variable {beside : Env α (W × CoreDebug α)} {depth : Nat}

/-- The expression that the debug server evaluates stalls. -/
def Looks (env : Env α (W × CoreDebug α)) (name : String) (s : Debugged α W) : Prop := ∃ e, s.vars name = some e ∧ Stalling env e s

omit [DecidableEq α] in
theorem looks_asked {name : String} {s : Debugged α W} (looks : Looks beside name s) : asked beside name s = none := by
  obtain ⟨e,stored,stalls⟩ := looks
  have result : (observation beside e s).result = exprEval beside.depth beside.io s.vars e s.mem := rfl
  cases ends : exprEval beside.depth beside.io s.vars e s.mem with
  | none => simp only [asked,stored,result,ends]
  | some r =>
    obtain ⟨m,rfl⟩ := stalling_ends stalls ends
    simp only [asked,stored,result,ends]

omit [DecidableEq α] in
/-- The callback does the same with more depth, and if it does not end then because the expression stalls. -/
private theorem varChangedCallback_deepen (deep : Deep program beside.depth) (more : beside.depth ≤ depth) (name : String)
    {s : Debugged α W} (reachable : Reachable program s.vars) :
    (∀ apply, varChangedCallback (deepen beside depth) apply name s = varChangedCallback beside apply name s) ∧
      (asked beside name s = none → Looks beside name s) := by
  cases stored : s.vars name with
  | none =>
    refine ⟨fun apply => ?_,fun hangs => ?_⟩
    · simp only [varChangedCallback,stored]
    · simp [asked,stored] at hangs
  | some e =>
    have known := reachable_known reachable
    have text : e ∈ texts program := text_of_given (known name e stored)
    obtain ⟨r,ends⟩ := Option.ne_none_iff_exists'.mp (deep.evals beside.depth le_rfl e text beside.io s.vars s.mem known)
    obtain ⟨r',ends'⟩ := Option.ne_none_iff_exists'.mp (deep.evals depth more e text beside.io s.vars s.mem known)
    obtain rfl := exprEval_unique ends ends'
    have same : observation (deepen beside depth) e s = observation beside e s := by
      simp only [observation,deepen,ends,ends']
    have seen : observe (deepen beside depth) e s = observe beside e s := by
      simp only [observe,same]
    refine ⟨fun apply => ?_,fun hangs => ⟨e,stored,?_⟩⟩
    · simp only [varChangedCallback,stored,same,seen]
    · have told := exprEval_told beside.depth e s.mem r ends
      have result : (observation beside e s).result = some r := ends
      obtain ⟨_ | _ | _,m⟩ := r
      · simp [asked,stored,result] at hangs
      · simp [asked,stored,result] at hangs
      · exact told

omit [DecidableEq α] in
/-- With the debug server it evaluates the new expression first, and calls `engine_apply` where the server lets it. -/
theorem callback_debug (deep : Deep program beside.depth) (more : beside.depth ≤ depth) :
    Callback program beside (varChangedCallback beside) (varChangedCallback (deepen beside depth)) (PassesOn beside)
      (Looks beside) := by
  refine ⟨?_,fun name s looks apply => ?_,fun apply apply' name s S reachable calls => ?_⟩
  · rintro name s t ⟨free,value,looks⟩
    rcases varChangedCallback_cases looks with ⟨caught,_⟩ | ⟨_,applies⟩
    · exact absurd caught free
    · exact ⟨(asked_looked looks).vars,applies⟩
  · obtain ⟨t,_,hangs⟩ := varChangedCallback_hangs (looks_asked looks)
    exact ⟨t,hangs apply⟩
  · obtain ⟨same,stalls⟩ := varChangedCallback_deepen deep more name reachable
    rw [same]
    cases looks : asked beside name s with
    | none =>
      obtain ⟨t,_,hangs⟩ := varChangedCallback_hangs looks
      rw [hangs,hangs]
      exact .stopped (.inl (stalls looks))
    | some found =>
      obtain ⟨value,t⟩ := found
      rcases varChangedCallback_cases looks with ⟨_,server,_,_,returns⟩ | ⟨free,applies⟩
      · rw [returns,returns]
        refine .returned trivial ?_
        rw [withDebug_vars,(asked_looked looks).vars]
        exact reachable
      · rw [applies,applies]
        have passes : PassesOn beside name s t := ⟨free,value,looks⟩
        exact sure_mono (fun _ _ => trivial) (fun found => .inr ⟨t,passes,found⟩) (calls t passes)

end

/-! ### All together -/

/-- Some depth suffices for all the tables. -/
theorem deep_exists (acyclic : Acyclic (Depends program)) : ∃ depth, Deep program depth := by
  have finite : Set.Finite fun e => e ∈ texts program := List.finite_toSet (texts program)
  obtain ⟨N,evals⟩ := ends_all finite fun e _ => exprEval_ends_known acyclic e
  obtain ⟨M,tests⟩ := ends_all finite fun e _ => exprHaveRefTo_ends_known acyclic e
  refine ⟨max N M,fun d enough e text io vars m known => ?_,fun d enough e text vars captured x known => ?_⟩
  · exact evals d (le_trans (le_max_left N M) enough) e text (io,⟨vars,known⟩,m)
  · exact tests d (le_trans (le_max_right N M) enough) e text (⟨vars,known⟩,captured,x)

variable [DecidableEq α]

theorem reachable_store {j : Nat} {id : String} {e : Expr α} (stores : Stores env program.engine.rules j s id e)
    (reachable : Reachable program s.vars) : Reachable program (s.store id e).vars := by
  obtain ⟨ass,assigned,rfl,rfl,value,_,held,stored,_⟩ := stores
  exact .assigned reachable assigned value (by simp [stored])

theorem reachable_step {t : EngineState α W} (step : Step env program.engine.rules s t) (reachable : Reachable program s.vars) :
    Reachable program t.vars := by
  cases step with
  | action action => exact (action_alike action).1 ▸ reachable
  | store stores => exact reachable_store stores reachable

theorem reachable_steps {t : EngineState α W} (steps : Steps env program.engine.rules s t) (reachable : Reachable program s.vars) :
    Reachable program t.vars := by
  induction steps with
  | refl => exact reachable
  | tail _ last before => exact reachable_step last before

/-- The tables of the states that calls of `engine_apply` come to are reachable. -/
theorem reached_reachable (reached : Reached program s) : Reachable program s.vars := by
  induction reached with
  | start => exact .initial
  | @call s env n key _ ih => exact reachable_steps (engineApply_steps env program.engine n key s) ih

/-- The call returns, with one and the same result at every depth from that of `env` on and with every number of nested
calls from `levels` on, and it does so whatever would become of a call nested deeper. -/
def ReturnsWithin (program : Program α) (env : Env α W) (callback : Env α W → Changed α W → Changed α W)
    (call : Env α W → Engine α → Nat → Option String → EngineState α W → Res (EngineState α W) Unit) (levels : Nat)
    (key : Option String) (s : EngineState α W) : Prop :=
  ∃ t, Reachable program t.vars ∧
    (∀ depth ≥ env.depth, ∀ n ≥ levels, call (deepen env depth) program.engine n key s = .returned () t) ∧
    ∀ depth ≥ env.depth, ∀ deeper,
      nestedApply (deepen env depth) program.engine (callback (deepen env depth)) deeper levels key s = .returned () t

/-- In the course of the call, with `n` calls nested, an expression is evaluated that stalls. -/
def Stuck (env : Env α W) (engine : Engine α) : Nat → Option String → EngineState α W → Prop :=
  StuckIn env engine (fun n name => engineApply env engine n (some name)) (fun _ s t => t = s) fun _ _ => False

/-- The same with the debug server, which evaluates expressions too. -/
def StuckDebug (env : Env α (W × CoreDebug α)) (engine : Engine α) : Nat → Option String → Debugged α W → Prop :=
  StuckIn env engine (handlerDebug env engine) (PassesOn env) (Looks env)

private theorem returnsWithin_of (deep : Deep program env.depth) (acyclic : Acyclic (Above program))
    {callback : Env α W → Changed α W → Changed α W} {calls : String → EngineState α W → EngineState α W → Prop}
    {looks : String → EngineState α W → Prop}
    {call : Env α W → Engine α → Nat → Option String → EngineState α W → Res (EngineState α W) Unit}
    (spec : ∀ depth ≥ env.depth, Callback program env (callback env) (callback (deepen env depth)) calls looks)
    (nested : ∀ env engine m n key s, nestedApply env engine (callback env) (call env engine m) n key s = call env engine (m+n) key s)
    (key : Option String) (reachable : Reachable program s.vars) :
    ReturnsWithin program env callback call ((varNames program).card+1) key s ↔
      ¬ StuckIn env program.engine (fun n => callback env fun name => call env program.engine n (some name)) calls looks
        ((varNames program).card+1) key s := by
  have handlers : (fun n => callback env fun name => call env program.engine n (some name)) =
      nestedHandler env program.engine (callback env) (call env program.engine 0) := by
    funext n
    have calls : (fun name => call env program.engine n (some name)) =
        fun name => nestedApply env program.engine (callback env) (call env program.engine 0) n (some name) := by
      funext name t
      rw [nested,Nat.zero_add]
    simp only [nestedHandler,calls]
  rw [handlers]
  constructor
  · rintro ⟨t,_,returns,_⟩ stuck
    obtain ⟨u,stopped⟩ := stuck_stops (spec env.depth le_rfl) stuck
    rw [nested,Nat.zero_add] at stopped
    have returned := returns env.depth le_rfl _ le_rfl
    rw [show deepen env env.depth = env from rfl,stopped] at returned
    cases returned
  · intro free
    have few : ∀ y, initialTable program.decls y ≠ none → (∀ x, key = some x → Above program x y) →
        (below (Above program) (varNames program) y).card < (varNames program).card :=
      fun y declared _ => below_card_lt_card acyclic (mem_varNames declared)
    have sure := fun depth more deeper =>
      sure_nestedApply deep more acyclic (spec depth more) (call env program.engine 0) deeper _ key reachable few
    obtain ⟨_,t,result,there⟩ | ⟨error,t,result⟩ | ⟨_,stuck⟩ := sure_left (sure env.depth le_rfl fun _ => .stopped)
    · refine ⟨t,there,fun depth more n enough => ?_,fun depth more deeper => (sure_eq (sure depth more deeper)).symm.trans result⟩
      obtain ⟨m,rfl⟩ := Nat.exists_eq_add_of_le' enough
      rw [← nested]
      exact (sure_eq (sure depth more _)).symm.trans result
    · exact absurd result (iterateRules_true error t)
    · exact absurd stuck free

mutual
/-- Every call in the expression has a result once its operands have values: no `EVAL` but of a literal, and enough arguments. -/
def Complete : Expr α → Prop
  | .literal _ => True
  | .op _ left right => Complete left ∧ Complete right
  | .ref _ => True
  | .func node func args => (∀ captured, hasResult captured node func args = true) ∧ CompleteArgs args
  | .flag _ _ => True

def CompleteArgs : List (Expr α) → Prop
  | [] => True
  | e :: es => Complete e ∧ CompleteArgs es
end

omit [DecidableEq α] in
private theorem complete_arg {args : List (Expr α)} {e : Expr α} (complete : CompleteArgs args) (member : e ∈ args) : Complete e := by
  induction args with
  | nil => cases member
  | cons first rest ih =>
    rcases List.mem_cons.mp member with rfl | member
    · exact complete.1
    · exact ih complete.2 member

omit [DecidableEq α] in
theorem complete_goes_on (complete : ∀ e ∈ texts program, Complete e) {io : Io α} {vars : Variables α}
    {captured : Nat → Option α} (known : Known program vars) {e : Expr α} (own : Complete e) : ¬ Stalls io vars captured e := by
  intro stalls
  induction stalls with
  | stored _ found _ ih => exact ih (complete _ (text_of_given (known _ _ found)))
  | left _ ih => exact ih own.1
  | right _ _ ih => exact ih own.2
  | @arg node func args before after x operands _ _ ih =>
    have among : x ∈ before ++ x :: after := by simp
    rw [← operands] at among
    exact ih (complete_arg own.2 (List.mem_of_mem_take among))
  | call _ noResult => simp [own.1] at noResult

/-- In a call on a table of such a program nothing stalls. -/
theorem complete_unstuck (complete : ∀ e ∈ texts program, Complete e) {n : Nat} {key : Option String}
    (reachable : Reachable program s.vars) : ¬ Stuck env program.engine n key s := by
  have goesOn : ∀ {e : Expr α} {v : EngineState α W}, e ∈ texts program → Reachable program v.vars → ¬ Stalling env e v :=
    fun text there => complete_goes_on complete (reachable_known there) (complete _ text)
  have kept : ∀ {s v : EngineState α W},
      Relation.ReflTransGen (fun s t : EngineState α W => Reachable program s.vars → Reachable program t.vars) s v →
      Reachable program s.vars → Reachable program v.vars := by
    intro s v path there
    induction path with
    | refl => exact there
    | tail _ last ih => exact last ih
  have calls : ∀ n, Calls env program.engine.rules (fun s t => Reachable program s.vars → Reachable program t.vars)
      (fun name => engineApply env program.engine n (some name)) fun _ _ => True := fun n j u name e stores _ =>
    .single fun there => reachable_steps (engineApply_steps env program.engine n (some name) _) (reachable_store stores there)
  intro stuck
  induction stuck with
  | own holds =>
    rcases holds with evaluated | ⟨_,_,_,no⟩
    · obtain ⟨j,v,path,found⟩ := inLoop_along (fun step there => reachable_step step there) (calls _) rfl evaluated
      have there := kept path reachable
      rcases found with ⟨rule,at_j,e,inRule,stalls⟩ | ⟨ass,⟨rule,at_j,member⟩,_,stalls⟩
      · exact goesOn (text_of_rule (List.mem_of_getElem? at_j) inRule) there stalls
      · exact goesOn (text_of_rule (List.mem_of_getElem? at_j) (rval_of_assigns member)) there stalls
    · exact no
  | nested notified applies _ ih =>
    subst applies
    obtain ⟨j,v,e,path,stores,rfl⟩ := notified_along (fun step there => reachable_step step there) (calls _) notified
    exact ih (reachable_store stores (kept path reachable))

end

private def acceptAll : Bus ℚ Unit := ⟨fun w _ _ _ => (true,w),fun w _ _ _ => (true,w)⟩

/-- `VAR low = 0; VAR high = low; low { SET door WHEN EVAL(1); } TRIGGER WHEN CHANGED(high) SET nowhere = 1, lamp = high;`. -/
private def stairProgram : Program ℚ :=
  ⟨⟨[⟨[⟨.func 1 .eval [.literal 1],⟨"low",.ref "door",0⟩⟩]⟩],
      [⟨.func 0 .changed [.ref "high"],[⟨"nowhere",.literal 1,0⟩,⟨"lamp",.ref "high",0⟩]⟩]⟩,
    [("low",.literal 0),("high",.ref "low")]⟩

private theorem stair_declared {x : String} (declared : initialTable stairProgram.decls x ≠ none) : x = "low" ∨ x = "high" := by
  obtain ⟨e,stored⟩ := Option.ne_none_iff_exists'.mp declared
  have entry := initialTable_entry _ stored
  simp only [stairProgram,List.mem_cons,List.not_mem_nil,or_false,Prod.mk.injEq] at entry
  exact entry.imp And.left And.left

private theorem stair_given {x : String} {e : Expr ℚ} (given : Given stairProgram x e) :
    (x = "high" ∧ e = .ref "low") ∨ x = "low" ∧ (e = .literal 0 ∨ e = .ref "door") := by
  rcases given with initial | ⟨declared,j,ass,⟨rule,at_j,member⟩,_,rfl,rfl⟩
  · have entry := initialTable_entry _ initial
    simp only [stairProgram,List.mem_cons,List.not_mem_nil,or_false,Prod.mk.injEq] at entry
    rcases entry with ⟨rfl,rfl⟩ | ⟨rfl,rfl⟩
    · exact .inr ⟨rfl,.inl rfl⟩
    · exact .inl ⟨rfl,rfl⟩
  · have among : rule ∈ stairProgram.engine.rules := List.mem_of_getElem? at_j
    simp only [stairProgram,Engine.rules,List.map_cons,List.map_nil,List.cons_append,List.nil_append,List.mem_cons,
      List.not_mem_nil,or_false] at among
    rcases among with rfl | rfl
    · simp only [assigns,List.map_cons,List.map_nil,List.mem_singleton] at member
      subst member
      exact .inr ⟨rfl,.inr rfl⟩
    · simp only [assigns,List.mem_cons,List.not_mem_nil,or_false] at member
      rcases member with rfl | rfl <;> exact absurd (stair_declared declared) (by simp)

private theorem stair_mentions : Acyclic (Depends stairProgram) := by
  refine acyclic_of_rank (fun x => if x = "high" then 2 else if x = "low" then 1 else 0) ?_
  rintro x y ⟨e,given,inside⟩
  rcases stair_given given with ⟨rfl,rfl⟩ | ⟨rfl,rfl | rfl⟩
  · simp only [refs,List.mem_singleton] at inside
    subst inside
    decide
  · simp [refs] at inside
  · simp only [refs,List.mem_singleton] at inside
    subst inside
    decide

/-- Of the variables only `low` is assigned, and the rule that does it mentions the door. -/
private theorem stair_above : Acyclic (Above stairProgram) := by
  refine acyclic_of_rank (fun x => if x = "low" then 0 else 1) ?_
  rintro x y ⟨declared,rule,among,⟨ass,member,_,rfl⟩,e,inRule,mentions⟩
  simp only [stairProgram,Engine.rules,List.map_cons,List.map_nil,List.cons_append,List.nil_append,List.mem_cons,
    List.not_mem_nil,or_false] at among
  rcases among with rfl | rfl
  · simp only [assigns,List.map_cons,List.map_nil,List.mem_singleton] at member
    subst member
    simp only [exprs,List.flatMap_cons,List.flatMap_nil,List.append_nil,List.mem_cons,List.not_mem_nil,or_false] at inRule
    rcases inRule with rfl | rfl
    · cases mentions with
      | arg member inside =>
        rw [List.mem_singleton.mp member] at inside
        cases inside
    · cases mentions with
      | ref => decide
      | through given _ =>
        rcases stair_given given with ⟨same,_⟩ | ⟨same,_⟩
        · simp at same
        · simp at same
  · simp only [assigns,List.mem_cons,List.not_mem_nil,or_false] at member
    rcases member with rfl | rfl <;> exact absurd (stair_declared declared) (by simp)

private theorem stair_complete : ∀ e ∈ texts stairProgram, Complete e := by
  intro e text
  simp only [texts,stairProgram,Engine.rules,List.map_cons,List.map_nil,List.cons_append,List.nil_append,List.flatMap_cons,
    List.flatMap_nil,exprs,List.append_nil,List.mem_cons,List.not_mem_nil,or_false] at text
  rcases text with rfl | rfl | rfl | rfl | rfl | rfl | rfl <;> simp [Complete,CompleteArgs,hasResult,Parallel.initial]

/-- `lamp { SET EVAL(door) WHEN 1; }`. -/
private def evalProgram : Program ℚ := ⟨⟨[⟨[⟨.literal 1,⟨"lamp",.func 0 .eval [.ref "door"],0⟩⟩]⟩],[]⟩,[]⟩

private theorem evalProgram_undeclared (x : String) : initialTable evalProgram.decls x = none := rfl

end Starter.Nesting
