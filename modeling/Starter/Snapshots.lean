import Starter.Cascade
import Starter.Core

/-!
`EVAL` on the right of an assignment. The assignment of a variable stores the node, which
is evaluated only when somebody reads the variable; and the branch of
`eval_func_expr_eval` that evaluates the argument and replaces it by a literal returns
nothing. In a run to which C gives a meaning no node is captured, and what an assignment
`x = EVAL(e)` leaves is the value of `e` exactly where `e` is a literal.
-/
namespace Starter.Snapshots
open Gdouble Objects Expressions Rules Relevance Cascade

variable {α W : Type}

/-- The expressions that variables and assignments of a program have. -/
def StoredIn (program : Program α) (e : Expr α) : Prop :=
  e ∈ program.decls.map Prod.snd ∨ ∃ j ass, Assigns program.engine.rules j ass ∧ ass.rval = e

/-- Nodes of one address are one node. -/
def Addressed (program : Program α) : Prop :=
  ∀ node func args func' args', StoredIn program (.func node func args) →
    StoredIn program (.func node func' args') → func = func' ∧ args = args'

/-- The mirrored objects with the engine. -/
abbrev World (α W : Type) := Io α × EngineState α W

/-- The engine as a program starts it. -/
def begin (program : Program α) (peers : W) : EngineState α W := ⟨initialTable program.decls,freshMem,peers,[]⟩

section
variable [Gdouble α] [DecidableEq α]

/-- What happens in a Core, in steps as small as those of the engine: a rule does
    something, somebody reads an expression, or the objects and the peers become others. -/
inductive Moves (depth : Nat) (rules : List (Rule α)) : World α W → World α W → Prop
  | engine {io : Io α} {bus : Bus α W} {s t : EngineState α W} (step : Step ⟨io,bus,depth⟩ rules s t) :
      Moves depth rules (io,s) (io,t)
  | reads {io : Io α} {s : EngineState α W} {e : Expr α} {out : Outcome α} {m : Mem α}
      (answered : exprEval depth io s.vars e s.mem = some (out,m)) (defined : out ≠ .undefined) :
      Moves depth rules (io,s) (io,{ s with mem := m })
  | world {io : Io α} {s : EngineState α W} (io' : Io α) (peers : W) :
      Moves depth rules (io,s) (io',{ s with peers := peers })

/-- The world is one that a run of the program comes to. -/
def Reachable (depth : Nat) (program : Program α) (peers : W) (world : World α W) : Prop :=
  ∃ io, Relation.ReflTransGen (Moves depth program.engine.rules) (io,begin program peers) world

/-- The run goes on without another assignment of `x`. -/
def Until (depth : Nat) (rules : List (Rule α)) (x : String) : World α W → World α W → Prop :=
  Relation.ReflTransGen fun a b => Moves depth rules a b ∧ b.2.vars x = a.2.vars x

/-- The variable reads as the value. -/
def ReadsAs (depth : Nat) (x : String) (v : α) (world : World α W) : Prop :=
  ∃ e w m, world.2.vars x = some e ∧ exprEval depth world.1 world.2.vars e world.2.mem = some (.value w,m) ∧
    (w = v ∨ eq w v = true)

/-- The application of the assignment gives its target the value `v`: an output gets what
    it gets from an assignment of the constant; a variable reads as it then, and until the
    next assignment of it. -/
def Gives (env : Env α W) (rules : List (Rule α)) (ass : Assign α) (v : α) (s : EngineState α W) : Prop :=
  match env.io.outputs ass.id with
  | some _ => assignStore env ass s = assignStore env { ass with rval := .literal v } s
  | none =>
    ∀ world, Until env.depth rules ass.id (env.io,(assignStore env ass s).state) world →
      ReadsAs env.depth ass.id v world

/-- What every move keeps. -/
structure Uncaptured (program : Program α) (s : EngineState α W) : Prop where
  captured : s.mem.captured = fun _ => none
  stored : ∀ id e, s.vars id = some e → StoredIn program e

variable {depth : Nat} {program : Program α} {rules : List (Rule α)} {env : Env α W} {s t : EngineState α W}

theorem step_uncaptured (kept : Uncaptured program s) (step : Step env program.engine.rules s t) :
    Uncaptured program t := by
  cases step with
  | action action =>
    obtain ⟨vars,captured⟩ := action_alike action
    exact ⟨captured.trans kept.captured,fun id e there => kept.stored id e (vars ▸ there)⟩
  | @store j _ id e stores =>
    refine ⟨kept.captured,fun other value there => ?_⟩
    rw [store_vars] at there
    by_cases same : other = id
    · subst same
      rw [Function.update_self] at there
      obtain ⟨ass,member,_,rval,_⟩ := stores
      exact .inr ⟨j,ass,member,rval.trans (Option.some.inj there)⟩
    · rw [Function.update_of_ne same] at there
      exact kept.stored other value there

theorem moves_uncaptured {a b : World α W} (kept : Uncaptured program a.2) (moves : Moves depth program.engine.rules a b) :
    Uncaptured program b.2 := by
  cases moves with
  | engine step => exact step_uncaptured kept step
  | reads answered defined => exact ⟨(References.exprEval_captured answered defined).trans kept.captured,kept.stored⟩
  | world io' peers => exact ⟨kept.captured,kept.stored⟩

theorem reachable_uncaptured {peers : W} {world : World α W} (reachable : Reachable depth program peers world) :
    Uncaptured program world.2 := by
  obtain ⟨io,moves⟩ := reachable
  induction moves with
  | refl => exact ⟨rfl,fun id e there => .inl (List.mem_map_of_mem (initialTable_entry _ there))⟩
  | tail _ last ih => exact moves_uncaptured ih last

variable {io : Io α} {vars : Variables α} {m m' : Mem α} {node : Nat} {e : Expr α} {v : α} {ass : Assign α}

omit [DecidableEq α] in
theorem exprEval_eval_literal (depth : Nat) (uncaptured : m.captured node = none) :
    exprEval (depth+1) io vars (.func node .eval [.literal v]) m = some (.value v,m) := by
  simp only [exprEval_succ,evalWith,evalArgs,funcExprEval,evalFuncExprEval,uncaptured]

omit [DecidableEq α] in
/-- An argument that is no literal leaves the call without a value. -/
theorem exprEval_eval_expression (depth : Nat) (uncaptured : m.captured node = none)
    (expression : ∀ v, e ≠ .literal v) (w : α) :
    exprEval depth io vars (.func node .eval [e]) m ≠ some (.value w,m') := by
  cases depth with
  | zero => simp [exprEval,Lib.Approx.approx]
  | succ depth =>
    simp only [exprEval_succ,evalWith,evalArgs,funcExprEval,evalFuncExprEval,uncaptured,andThen]
    cases e with
    | literal v => exact absurd rfl (expression v)
    | op | ref | func | flag => split <;> simp

omit [DecidableEq α] in
/-- The branch that captures the value of its argument ends undefined. -/
theorem exprEval_eval_undefined {depth : Nat} (uncaptured : m.captured node = none)
    (expression : ∀ v, e ≠ .literal v) (evaluates : exprEval (depth+1) io vars e m = some (.value v,m')) :
    ∃ m'', exprEval (depth+1) io vars (.func node .eval [e]) m = some (.undefined,m'') := by
  rw [exprEval_succ] at evaluates
  simp only [exprEval_succ,evalWith,evalArgs,funcExprEval,evalFuncExprEval,uncaptured,andThen,evaluates]
  cases e with
  | literal v => exact absurd rfl (expression v)
  | op | ref | func | flag => exact ⟨_,rfl⟩

/-- What an equal node holds: `expr_equal` compares the arguments, or finds one node. -/
theorem exprEqual_eval (uncaptured : m.captured = fun _ => none) (addressed : Addressed program)
    {value : Expr α} (old : StoredIn program value) (new : StoredIn program (.func node .eval [e]))
    (equal : exprEqual m value (.func node .eval [e]) = true) :
    ∃ node' e', value = .func node' .eval [e'] ∧ (e' = e ∨ sameTree (current m e') (current m e) = true) := by
  cases value with
  | func node' func' args' =>
    have same : node' = node ∨ func' = .eval ∧ sameTrees (currentArgs m args') [current m e] = true := by
      rw [exprEqual,Bool.or_eq_true,identical_iff] at equal
      rcases equal with one | equal
      · exact .inl (Expr.func.inj one).1
      · cases func' <;> cases seen : m.seen node' <;>
          simp_all [current,currentArgs,sameTree,Bool.or_eq_true]
    rcases same with rfl | ⟨rfl,args⟩
    · obtain ⟨rfl,rfl⟩ := addressed _ _ _ _ _ old new
      exact ⟨_,e,rfl,.inl rfl⟩
    · rcases args' with _ | ⟨e',_ | ⟨_,_⟩⟩
      · simp [currentArgs,sameTrees] at args
      · simp only [currentArgs,sameTrees,Bool.and_true] at args
        exact ⟨node',e',rfl,.inr args⟩
      · simp [currentArgs,sameTrees] at args
  | literal | op | ref | flag => simp [exprEqual,identical,current,sameTree,uncaptured] at equal

omit [DecidableEq α] in
/-- Only a literal stands in memory as one. -/
theorem current_literal (literal : current m e = .literal v) : e = .literal v := by
  cases e with
  | literal w => exact literal
  | func node func args =>
    simp only [current] at literal
    split at literal <;> cases literal
  | op | ref | flag => simp [current] at literal

omit [DecidableEq α] in
/-- An argument that is compared equal to a literal is one. -/
theorem sameTree_literal {e' : Expr α} (same : e' = e ∨ sameTree (current m e') (current m e) = true) :
    (∃ v, e' = .literal v) ↔ ∃ v, e = .literal v := by
  rcases same with rfl | same
  · exact Iff.rfl
  · constructor
    · rintro ⟨v,rfl⟩
      cases now : current m e with
      | literal w => exact ⟨w,current_literal now⟩
      | op | ref | func | flag => simp [now,current,sameTree] at same
    · rintro ⟨v,rfl⟩
      cases now : current m e' with
      | literal w => exact ⟨w,current_literal now⟩
      | op | ref | func | flag => simp [now,current,sameTree] at same

theorem assignStore_variable {old : Expr α} (value : ass.flagBit = 0) (variable_ : env.io.outputs ass.id = none)
    (there : s.vars ass.id = some old) :
    (assignStore env ass s).state =
      if exprEqual s.mem old ass.rval then s.note (.varUnchanged ass.id) else s.store ass.id ass.rval := by
  simp only [assignStore,value,ne_eq,not_true_eq_false,if_false,variable_,there]
  split <;> rfl

/-- The expression that the variable has after the application. -/
theorem stored_after (env : Env α W) (addressed : Addressed program) (kept : Uncaptured program s) {j : Nat}
    (member : Assigns program.engine.rules j ass) (value : ass.flagBit = 0) (captures : ass.rval = .func node .eval [e])
    (variable_ : env.io.outputs ass.id = none) {old : Expr α} (there : s.vars ass.id = some old) :
    Uncaptured program (assignStore env ass s).state ∧
      ∃ node' e', (assignStore env ass s).state.vars ass.id = some (.func node' .eval [e']) ∧
        (e' = e ∨ sameTree (current s.mem e') (current s.mem e) = true) := by
  have new : StoredIn program (.func node .eval [e]) := .inr ⟨j,ass,member,captures⟩
  rw [assignStore_variable value variable_ there]
  split
  · rename_i equal
    rw [captures] at equal
    obtain ⟨node',e',rfl,same⟩ := exprEqual_eval kept.captured addressed (kept.stored _ _ there) new equal
    exact ⟨⟨kept.captured,kept.stored⟩,node',e',there,same⟩
  · rename_i differs
    have stores : Stores env program.engine.rules j s ass.id ass.rval :=
      ⟨ass,member,rfl,rfl,value,variable_,old,there,by simpa using differs⟩
    exact ⟨step_uncaptured kept (.store stores),node,e,by simp [captures],.inl rfl⟩

/-- Until the next assignment the variable keeps its expression, and no node is captured. -/
theorem until_kept {x : String} {a b : World α W} (kept : Uncaptured program a.2)
    (later : Until depth program.engine.rules x a b) : Uncaptured program b.2 ∧ b.2.vars x = a.2.vars x := by
  induction later with
  | refl => exact ⟨kept,rfl⟩
  | tail _ last ih => exact ⟨moves_uncaptured ih.1 last.1,last.2.trans ih.2⟩

omit [DecidableEq α] in
/-- An assignment of a value to an output ends in one way or the other. -/
theorem assignOutput_ends {output : IoObject α} (evaluated : evaluate env ass.rval s = .returned v t) :
    ∀ u, assignOutput env ass output s ≠ .stopped u := by
  intro u
  simp only [assignOutput,evaluated,Res.andThen,request]
  split
  · simp
  · split
    · simp
    · split <;> simp

/-- In every run of a program, whenever an assignment `x = EVAL(e)` is applied to a variable
    or an output while `e` has a value, the application gives `x` this value exactly where
    `e` is a literal. -/
theorem gives_iff (addressed : Addressed program) {peers : W} (reachable : Reachable depth program peers (io,s))
    {j : Nat} (member : Assigns program.engine.rules j ass) (value : ass.flagBit = 0)
    (captures : ass.rval = .func node .eval [e])
    (target : (io.outputs ass.id).isSome = true ∨ (s.vars ass.id).isSome = true)
    (evaluates : exprEval depth io s.vars e s.mem = some (.value v,m)) (bus : Bus α W) :
    Gives ⟨io,bus,depth⟩ program.engine.rules ass v s ↔ ∃ w, e = .literal w := by
  have kept : Uncaptured program s := reachable_uncaptured reachable
  have uncaptured : s.mem.captured node = none := by rw [kept.captured]
  obtain ⟨depth,rfl⟩ : ∃ d, depth = d + 1 := by
    cases depth with
    | zero => simp [exprEval,Lib.Approx.approx] at evaluates
    | succ d => exact ⟨d,rfl⟩
  have own : ∀ w, e = .literal w → w = v := by
    rintro w rfl
    simp only [exprEval_succ,evalWith,ret,Option.some.injEq,Prod.mk.injEq,Outcome.value.injEq] at evaluates
    exact evaluates.1
  unfold Gives
  cases output : io.outputs ass.id with
  | some out =>
    have constant : evaluate ⟨io,bus,depth+1⟩ (.literal v) s = .returned v s := rfl
    simp only [assignStore,value,ne_eq,not_true_eq_false,if_false,output]
    constructor
    · intro same
      by_contra expression
      obtain ⟨_,undefined⟩ := exprEval_eval_undefined uncaptured (fun w literal => expression ⟨w,literal⟩) evaluates
      have stops : assignOutput ⟨io,bus,depth+1⟩ ass out s = .stopped s := by
        simp only [assignOutput,evaluate,captures,undefined,Res.andThen]
      exact assignOutput_ends (show evaluate ⟨io,bus,depth+1⟩ ({ ass with rval := .literal v } : Assign α).rval s =
        .returned v s from rfl) s (same.symm.trans stops)
    · rintro ⟨w,rfl⟩
      cases own w rfl
      have evaluated : evaluate ⟨io,bus,depth+1⟩ ass.rval s = .returned v s := by
        simp only [evaluate,captures,exprEval_eval_literal depth uncaptured]
      simp only [assignOutput,evaluated,constant]
  | none =>
    obtain ⟨old,there⟩ := Option.isSome_iff_exists.mp (target.resolve_left (by simp [output]))
    obtain ⟨after,node',e',stored,same⟩ :=
      stored_after ⟨io,bus,depth+1⟩ addressed kept member value captures output there
    simp only
    constructor
    · intro reads
      obtain ⟨e₀,w,m₀,at_x,answered,_⟩ := reads _ .refl
      cases at_x.symm.trans stored
      by_contra expression
      refine exprEval_eval_expression (depth+1) (by rw [after.captured]) (fun w literal => ?_) w answered
      exact expression ((sameTree_literal same).mp ⟨w,literal⟩)
    · intro literal world later
      obtain ⟨keeps,fixed⟩ := until_kept after later
      obtain ⟨w,rfl⟩ := (sameTree_literal same).mpr literal
      refine ⟨_,w,_,fixed.trans stored,exprEval_eval_literal depth (by rw [keeps.captured]),?_⟩
      obtain ⟨x,rfl⟩ := literal
      cases own x rfl
      rcases same with equal | equal
      · exact .inl (Expr.literal.inj equal)
      · exact .inr (by simpa [current,sameTree] using equal)

section
open Starter.Core
variable (setup : Setup α W)

/-- Moves lead from one state of a Core to another. -/
def Leads (core next : StCore α W) : Prop :=
  Relation.ReflTransGen (Moves setup.depth setup.engine.rules) (core.registry.io,core.engine) (next.registry.io,next.engine)

variable {setup} {core middle next : StCore α W}

theorem Leads.trans (first : Leads setup core middle) (second : Leads setup middle next) : Leads setup core next :=
  Relation.ReflTransGen.trans first second

/-- The tables and the objects may become any others. -/
theorem leads_world (same : next.engine = core.engine) : Leads setup core next := by
  unfold Leads
  rw [same]
  exact .single (.world _ core.engine.peers)

theorem withRegistry_leads (registry : Registry α) (core : StCore α W) :
    Leads setup core (core.withRegistry registry) := leads_world rfl

theorem apply_leads (key : Option String) (core : StCore α W) : Leads setup core (core.apply setup key) := by
  have steps := engineApply_steps (setup.env core.registry) setup.engine setup.nesting key core.engine
  exact Relation.ReflTransGen.lift (fun s => (core.registry.io,s)) (fun _ _ step => Moves.engine step) _ _ steps

theorem raised_leads (side : Side) (client index : Nat) (raised : List (IoSignal × IoObject α)) (core : StCore α W) :
    Leads setup core (core.raised setup side client index raised) := by
  induction raised generalizing core with
  | nil => exact .refl
  | cons first rest ih =>
    simp only [StCore.raised]
    split
    · exact .refl
    · have written : Leads setup core (core.write side client index first.2) := leads_world rfl
      split
      · exact (written.trans (apply_leads _ _)).trans (ih _)
      · exact written.trans (ih _)

theorem set_leads (side : Side) (client index : Nat) (setter : IoObject α → Update α) (core : StCore α W) :
    Leads setup core (core.set setup side client index setter) := by
  unfold StCore.set
  split
  · exact .refl
  · split
    · exact .refl
    · rename_i obj _
      have raised : Leads setup core _ := raised_leads side client index (setter obj).emitted core
      simp only
      split
      · exact raised
      · exact raised.trans (leads_world rfl)

theorem handleChanged_leads (side : Side) (client : Nat) (message : IoObject α) (core : StCore α W) :
    Leads setup core (core.handleChanged setup side client message) := by
  unfold StCore.handleChanged
  split
  · exact .refl
  · rename_i index found
    clear found
    generalize setters side message = list
    induction list generalizing core with
    | nil => exact .refl
    | cons setter rest ih => exact (set_leads side client index setter core).trans (ih _)

theorem registerReadyClient_leads {name : String} {client : Nat} {orders : Orders}
    (registered : core.registerReadyClient setup name client orders = some next) : Leads setup core next := by
  simp only [StCore.registerReadyClient] at registered
  split at registered
  · cases registered
    exact (withRegistry_leads _ core).trans (apply_leads none _)
  · cases registered

theorem onClientStartFinished_leads {record : Nat} {success : Bool} {loaded : Client α} {orders : Orders}
    (finished : core.onClientStartFinished setup record success loaded orders = some next) : Leads setup core next := by
  simp only [StCore.onClientStartFinished] at finished
  split at finished
  · cases finished
  · split at finished
    · cases finished
      exact .refl
    · split at finished
      · obtain ⟨middle,registered,rfl⟩ := Option.map_eq_some_iff.mp finished
        have before : Leads setup core middle := (withRegistry_leads _ core).trans (registerReadyClient_leads registered)
        split
        · exact before
        · exact before.trans (leads_world rfl)
      · cases finished
        exact leads_world rfl

/-- Every event of a Core is a sequence of moves. -/
theorem step_leads {event : Core.Event α W} (stepped : Core.step setup core event = some next) :
    Leads setup core next := by
  simp only [Core.step] at stepped
  split at stepped
  · cases stepped
  · split at stepped
    · simp only [StCore.onMdnsServiceAdded] at stepped
      split at stepped
      · split at stepped
        · cases stepped
          exact leads_world rfl
        · cases stepped
      · cases stepped
        exact .refl
    · simp only [StCore.onMdnsServiceRemoved] at stepped
      split at stepped
      · split at stepped
        · cases stepped
          exact leads_world rfl
        · cases stepped
      · cases stepped
        exact leads_world rfl
    · split at stepped
      · cases stepped
      · split at stepped
        · cases stepped
          exact leads_world rfl
        · exact (withRegistry_leads _ core).trans (onClientStartFinished_leads stepped)
    · split at stepped
      · cases stepped
        exact handleChanged_leads _ _ _ _
      · cases stepped
    · split at stepped
      · cases stepped
        exact handleChanged_leads _ _ _ _
      · cases stepped
    · cases stepped
      exact .single (.world _ _)

/-- The states of a Core that runs a program are among those that its moves reach. -/
theorem run_reachable {decls : List (String × Expr α)} {peers : W} {events : List (Core.Event α W)} {last : StCore α W}
    (ran : Lib.Runs.run (Core.step setup) (Core.start (begin ⟨setup.engine,decls⟩ peers)) events = some last) :
    Reachable setup.depth ⟨setup.engine,decls⟩ peers (last.registry.io,last.engine) := by
  refine ⟨(Core.start (begin ⟨setup.engine,decls⟩ peers)).registry.io,?_⟩
  have keeps : ∀ (core : StCore α W) (event : Core.Event α W) (next : StCore α W),
      Leads setup (Core.start (begin ⟨setup.engine,decls⟩ peers)) core → Core.step setup core event = some next →
        Leads setup (Core.start (begin ⟨setup.engine,decls⟩ peers)) next :=
    fun core event next led stepped => led.trans (step_leads stepped)
  exact Lib.Runs.run_preserves keeps events _ last .refl ran

end

end

/-! A door that is open, and a rule that keeps in `memory` whether it is. -/

private def door : IoObject ℚ := ⟨"door","",0,0,1,1,1,0⟩

private def doorIo (val : ℚ) : Io ℚ :=
  ⟨fun id => if id = "door" then some { door with val := val } else none,fun _ => none⟩

private def noBus : Bus ℚ Unit := ⟨fun _ _ _ _ => (false,()),fun _ _ _ _ => (false,())⟩

private def keeping (e : Expr ℚ) : Program ℚ :=
  ⟨⟨[⟨[⟨.literal 1,⟨"memory",.func 0 .eval [e],0⟩⟩]⟩],[]⟩,[("memory",.literal 0)]⟩

private theorem keeping_assigns (e : Expr ℚ) : Assigns (keeping e).engine.rules 0 ⟨"memory",.func 0 .eval [e],0⟩ :=
  ⟨_,rfl,List.mem_singleton_self _⟩

private theorem keeping_stored {e value : Expr ℚ} (stored : StoredIn (keeping e) value) :
    value = .literal 0 ∨ value = .func 0 .eval [e] := by
  rcases stored with declared | ⟨j,ass,⟨rule,at_j,member⟩,rfl⟩
  · exact .inl (List.mem_singleton.mp declared)
  · have only : rule = .label ⟨[⟨.literal 1,⟨"memory",.func 0 .eval [e],0⟩⟩]⟩ :=
      List.mem_singleton.mp (List.mem_of_getElem? at_j)
    subst only
    rw [List.mem_singleton.mp member]
    exact .inr rfl

private theorem keeping_addressed (e : Expr ℚ) : Addressed (keeping e) := by
  intro node func args func' args' one two
  have first := (keeping_stored one).resolve_left (by simp)
  have second := (keeping_stored two).resolve_left (by simp)
  cases first
  cases second
  exact ⟨rfl,rfl⟩

/-- A Core with the rule finds the peer of the door, which is open and is then closed. -/
private def doorRun : Option (Core.StCore ℚ Unit) :=
  Lib.Runs.run (Core.step ⟨(keeping (.ref "door")).engine,fun _ => noBus,3,4,fun _ => true⟩)
    (Core.start (begin (keeping (.ref "door")) ()))
    [.serviceAdded "plant" 0 0,.startFinished 0 true ⟨[door],[]⟩ ⟨[("plant",0)],[("plant",0)]⟩,
      .message 0 (.inputChanged { door with val := 0 })]

theorem run_reachable_door : ∃ last, doorRun = some last ∧ last.calls.length = 2 ∧
    Reachable 3 (keeping (.ref "door")) () (last.registry.io,last.engine) := by
  have ends : doorRun.map (fun last => last.calls.length) = some 2 := by decide +kernel
  obtain ⟨last,ran,calls⟩ := Option.map_eq_some_iff.mp ends
  exact ⟨last,ran,calls,run_reachable ran⟩

theorem gives_iff_constant :
    Gives ⟨doorIo 1,noBus,3⟩ (keeping (.literal 4)).engine.rules ⟨"memory",.func 0 .eval [.literal 4],0⟩ 4
        (begin (keeping (.literal 4)) ()) ↔ ∃ w, (.literal 4 : Expr ℚ) = .literal w :=
  gives_iff (keeping_addressed _) ⟨doorIo 1,.refl⟩ (keeping_assigns _) rfl rfl (.inr rfl) rfl noBus

/-- When the rule is applied the door is open; whoever reads `memory` then gets no value. -/
theorem eval_captures_when_read :
    (exprEval 3 (doorIo 1) (begin (keeping (.ref "door")) ()).vars (.ref "door") freshMem).map Prod.fst =
        some (.value 1) ∧
      (exprEval 3 (doorIo 1) (begin (keeping (.ref "door")) ()).vars (.func 0 .eval [.ref "door"]) freshMem).map Prod.fst =
        some .undefined ∧
      ¬ Gives ⟨doorIo 1,noBus,3⟩ (keeping (.ref "door")).engine.rules ⟨"memory",.func 0 .eval [.ref "door"],0⟩ 1
        (begin (keeping (.ref "door")) ()) := by
  refine ⟨rfl,rfl,fun gives => ?_⟩
  obtain ⟨e,w,m,stored,answered,_⟩ := gives _ .refl
  have at_memory : ((assignStore ⟨doorIo 1,noBus,3⟩ ⟨"memory",.func 0 .eval [.ref "door"],0⟩
      (begin (keeping (.ref "door")) ())).state.vars "memory") = some (.func 0 .eval [.ref "door"]) := rfl
  cases at_memory.symm.trans stored
  exact exprEval_eval_expression 3 rfl (fun v => by simp) w answered

end Starter.Snapshots
