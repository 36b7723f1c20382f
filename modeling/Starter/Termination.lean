import Mathlib.Data.Set.Finite.Lattice
import Mathlib.Order.Filter.AtTopBot.Basic
import Mathlib.Order.Filter.Finite
import Starter.Lib.Graphs
import Starter.Cascade

/-!
The references among the variables. Variables hold live expressions, and assignments
rewrite them at run time; every expression that a variable ever holds is its initial one
or the right-hand side of an assignment to it. When these, taken together, have no cycle,
then no table that a run comes through has one, and `expr_eval` and `expr_have_ref_to`
come to an end on it.
-/
namespace Starter.Termination
open Gdouble Objects Expressions Evaluation References Rules Relevance Cascade Lib.Approx Lib.Graphs

variable {α W : Type}

mutual
/-- The names that an expression refers to by value. A reference `id FLAG name` is one to
    an input or output, whatever the table of variables has. -/
def refs : Expr α → List String
  | .literal _ => []
  | .op _ left right => refs left ++ refs right
  | .ref id => [id]
  | .func _ _ args => refsArgs args
  | .flag _ _ => []

def refsArgs : List (Expr α) → List String
  | [] => []
  | e :: es => refs e ++ refsArgs es
end

theorem refs_of_args {args : List (Expr α)} {e : Expr α} {y : String} (member : e ∈ args) (inside : y ∈ refs e) :
    y ∈ refsArgs args := by
  induction args with
  | nil => simp at member
  | cons first rest ih =>
    rcases List.mem_cons.mp member with rfl | member
    · exact List.mem_append_left _ inside
    · exact List.mem_append_right _ (ih member)

/-- The expression stored in the variable `x` mentions `y`. -/
def Mentions (vars : Variables α) (x y : String) : Prop := ∃ e, vars x = some e ∧ y ∈ refs e

/-- The expression is the initial one of the variable `x`, or the rules assign it to `x`. -/
def Given (program : Program α) (x : String) (e : Expr α) : Prop :=
  initialTable program.decls x = some e ∨
  initialTable program.decls x ≠ none ∧
    ∃ j ass, Assigns program.engine.rules j ass ∧ ass.flagBit = 0 ∧ ass.id = x ∧ ass.rval = e

theorem given_declared {program : Program α} {x : String} {e : Expr α} (given : Given program x e) :
    initialTable program.decls x ≠ none := by
  rcases given with initial | ⟨declared,_⟩
  · simp [initial]
  · exact declared

/-- An expression that is given to the variable `x` mentions `y`. -/
def Depends (program : Program α) (x y : String) : Prop := ∃ e, Given program x e ∧ y ∈ refs e

/-- What the table stores for a variable has been given to it. -/
def Known (program : Program α) (vars : Variables α) : Prop := ∀ x e, vars x = some e → Given program x e

/-- The table after the changes that a log reports. -/
def replay (vars : Variables α) : List (Event α) → Variables α
  | [] => vars
  | .varChanged id e :: rest => replay (Function.update vars id (some e)) rest
  | _ :: rest => replay vars rest

theorem replay_append (vars : Variables α) (first second : List (Event α)) :
    replay vars (first ++ second) = replay (replay vars first) second := by
  induction first generalizing vars with
  | nil => rfl
  | cons event rest ih => cases event <;> exact ih _

theorem replay_stored {vars : Variables α} {events : List (Event α)} {x : String} {e : Expr α}
    (stored : replay vars events x = some e) : vars x = some e ∨ .varChanged x e ∈ events := by
  induction events generalizing vars with
  | nil => exact .inl stored
  | cons event rest ih =>
    cases event with
    | varChanged id f =>
      rcases ih stored with before | later
      · by_cases same : x = id
        · subst same
          simp only [Function.update_self,Option.some.injEq] at before
          subst before
          exact .inr List.mem_cons_self
        · rw [Function.update_of_ne same] at before
          exact .inl before
      · exact .inr (List.mem_cons_of_mem _ later)
    | _ => exact (ih stored).imp_right (List.mem_cons_of_mem _)

/-- The changes of variables that the log reports are assignments of the rules. -/
def FromRules (program : Program α) (log : List (Event α)) : Prop := ∀ x e, .varChanged x e ∈ log → Given program x e

section
variable [Gdouble α] {env : Env α W} {rules : List (Rule α)} {s t : EngineState α W}

/-- An action reports no change of a variable. -/
private theorem action_log {j : Nat} (action : Action env rules j s t) :
    ∃ new, t.log = s.log ++ new ∧ ∀ x e, .varChanged x e ∉ new := by
  cases action with
  | evaluated => exact ⟨[],by simp,by simp⟩
  | iterated => exact ⟨_,rfl,by simp⟩
  | remarked remark => exact ⟨_,rfl,by cases remark <;> simp⟩
  | avoided _ avoids => exact ⟨_,rfl,by cases avoids <;> simp⟩
  | valueSet => exact ⟨_,rfl,by simp⟩
  | outputFlagSet => exact ⟨_,rfl,by simp⟩
  | inputFlagSet => exact ⟨_,rfl,by simp⟩

omit [Gdouble α] in
private theorem replay_quiet {vars : Variables α} {events : List (Event α)} (quiet : ∀ x e, .varChanged x e ∉ events) :
    replay vars events = vars := by
  induction events with
  | nil => rfl
  | cons event rest ih =>
    have others := ih fun x e member => quiet x e (List.mem_cons_of_mem _ member)
    cases event with
    | varChanged id e => exact absurd List.mem_cons_self (quiet id e)
    | _ => exact others

variable [DecidableEq α]

/-- The log of a state accounts for its table. -/
def Accounts (program : Program α) (s : EngineState α W) : Prop :=
  s.vars = replay (initialTable program.decls) s.log ∧ FromRules program s.log

omit [Gdouble α] [DecidableEq α] in
private theorem accounts_given {program : Program α} (accounts : Accounts program s) {x : String} {e : Expr α}
    (stored : s.vars x = some e) : Given program x e := by
  rw [accounts.1] at stored
  rcases replay_stored stored with initial | changed
  · exact .inl initial
  · exact accounts.2 x e changed

private theorem accounts_step {program : Program α} (step : Step env program.engine.rules s t)
    (before : Accounts program s) : Accounts program t := by
  have given : ∀ {x e}, s.vars x = some e → Given program x e := accounts_given before
  obtain ⟨table,fromRules⟩ := before
  cases step with
  | action action =>
    obtain ⟨new,logged,quiet⟩ := action_log action
    constructor
    · rw [logged,replay_append,replay_quiet quiet,← table]
      exact (action_alike action).1
    · intro x e member
      rw [logged] at member
      rcases List.mem_append.mp member with old | fresh
      · exact fromRules x e old
      · exact absurd fresh (quiet x e)
  | @store j _ id f stores =>
    constructor
    · rw [store_log,replay_append,← table]
      rfl
    · intro x e member
      rcases List.mem_append.mp member with old | fresh
      · exact fromRules x e old
      · obtain ⟨ass,assigned,named,rval,value,_,held,stored,_⟩ := stores
        simp only [List.mem_singleton,Event.varChanged.injEq] at fresh
        obtain ⟨rfl,rfl⟩ := fresh
        exact .inr ⟨given_declared (given stored),j,ass,assigned,value,named,rval⟩

/-- The states that a program comes to: at the start, and after a call of `engine_apply`
    on whatever the mirrors show by then; also where a call has not returned. -/
inductive Reached (program : Program α) : EngineState α W → Prop
  | start (mem : Mem α) (peers : W) : Reached program ⟨initialTable program.decls,mem,peers,[]⟩
  | call {s : EngineState α W} (env : Env α W) (n : Nat) (key : Option String) (reached : Reached program s) :
      Reached program (engineApply env program.engine n key s).state

private theorem accounts_steps {program : Program α} (steps : Steps env program.engine.rules s t)
    (before : Accounts program s) : Accounts program t := by
  induction steps with
  | refl => exact before
  | tail _ last ih => exact accounts_step last ih

theorem reached_accounts {program : Program α} (reached : Reached program s) : Accounts program s := by
  induction reached with
  | start => exact ⟨rfl,by simp [FromRules]⟩
  | @call s env n key _ ih => exact accounts_steps (engineApply_steps env program.engine n key s) ih

/-- Every table that a run comes through mentions only what the program does. -/
theorem mentions_depends {program : Program α} (reached : Reached program s) {seen : List (Event α)}
    (before : seen <+: s.log) {x y : String} (mentions : Mentions (replay (initialTable program.decls) seen) x y) :
    Depends program x y := by
  obtain ⟨e,stored,inside⟩ := mentions
  rcases replay_stored stored with initial | changed
  · exact ⟨e,.inl initial,inside⟩
  · exact ⟨e,(reached_accounts reached).2 x e (before.subset changed),inside⟩

end

theorem declared_finite (program : Program α) : Set.Finite fun x => initialTable program.decls x ≠ none := by
  refine Set.Finite.subset (List.finite_toSet (program.decls.map Prod.fst)) fun x declared => ?_
  obtain ⟨e,stored⟩ := Option.ne_none_iff_exists'.mp declared
  exact List.mem_map_of_mem (f := Prod.fst) (initialTable_entry program.decls stored)

theorem depends_finite (program : Program α) : Set.Finite fun x => ∃ y, Depends program x y :=
  (declared_finite program).subset fun _ ⟨_,_,given,_⟩ => given_declared given

theorem depends_wellFounded {program : Program α} (acyclic : Acyclic (Depends program)) :
    WellFounded fun y x => Depends program x y := acyclic_wellFounded (depends_finite program) acyclic

/-- A table with finitely many variables and no cycle can be walked by recursion. -/
theorem mentions_wellFounded {vars : Variables α} (finite : Set.Finite fun x => vars x ≠ none)
    (acyclic : Acyclic (Mentions vars)) : WellFounded fun y x => Mentions vars x y := by
  refine acyclic_wellFounded (finite.subset fun x mentions => ?_) acyclic
  obtain ⟨y,e,stored,_⟩ := mentions
  show vars x ≠ none
  simp [stored]

/-- Finitely many expressions are given to a variable. -/
theorem given_finite (program : Program α) (x : String) : Set.Finite fun e => Given program x e := by
  refine Set.Finite.subset (List.finite_toSet
    (program.decls.map Prod.snd ++ (program.engine.rules.flatMap assigns).map Assign.rval)) ?_
  rintro e (initial | ⟨_,j,ass,⟨rule,at_j,member⟩,_,_,rfl⟩)
  · exact List.mem_append_left _ (List.mem_map_of_mem (f := Prod.snd) (initialTable_entry program.decls initial))
  · refine List.mem_append_right _ (List.mem_map_of_mem ?_)
    exact List.mem_flatMap.mpr ⟨rule,List.mem_of_getElem? at_j,member⟩

section

/-- From some depth on the computation always comes to an end. -/
def Ends {A : Type} {B : A → Type} (f : Nat → (a : A) → Option (B a)) : Prop := ∃ N, ∀ depth ≥ N, ∀ a, f depth a ≠ none

/-- What comes to an end for each of finitely many expressions comes to an end for all of
    them at one depth. -/
theorem ends_all {A : Type} {B : A → Type} {f : Nat → Expr α → (a : A) → Option (B a)} {es : Set (Expr α)} (finite : es.Finite)
    (each : ∀ e ∈ es, Ends fun depth => f depth e) : ∃ N, ∀ depth ≥ N, ∀ e ∈ es, ∀ a, f depth e a ≠ none := by
  refine Filter.eventually_atTop.mp ((Filter.eventually_all_finite finite).mpr fun e member => ?_)
  exact Filter.eventually_atTop.mpr (each e member)

/-- Recursion along the references, where a name may stand for any of finitely many
    expressions: a program that comes to an end on an expression whenever it does so on all
    that the names stand for which it mentions comes to an end on all. -/
theorem ends_of_wellFounded {A : Type} {B : A → Type} {f : Nat → Expr α → (a : A) → Option (B a)}
    {given : String → Expr α → Prop} (finite : ∀ x, Set.Finite fun e => given x e)
    (wellFounded : WellFounded fun y x => ∃ e, given x e ∧ y ∈ refs e)
    (body : ∀ depth e, (∀ y ∈ refs e, ∀ e', given y e' → ∀ a, f depth e' a ≠ none) → ∀ a, f (depth+1) e a ≠ none)
    (e : Expr α) : Ends fun depth => f depth e := by
  have step : ∀ e, (∀ y ∈ refs e, ∀ e', given y e' → Ends fun depth => f depth e') → Ends fun depth => f depth e := by
    intro e each
    have mentioned : Set.Finite (⋃ y ∈ refs e, fun e' => given y e') :=
      Set.Finite.biUnion (List.finite_toSet (refs e)) fun y _ => finite y
    obtain ⟨N,ends⟩ := ends_all (f := f) mentioned fun e' member => by
      obtain ⟨y,inside,given⟩ := Set.mem_iUnion₂.mp member
      exact each y inside e' given
    refine ⟨N+1,fun depth enough a => ?_⟩
    obtain ⟨depth,rfl⟩ : ∃ d, depth = d+1 := ⟨depth-1,by omega⟩
    exact body depth e (fun y inside e' given => ends depth (by omega) e' (Set.mem_iUnion₂.mpr ⟨y,inside,given⟩)) a
  have stored : ∀ x e, given x e → Ends fun depth => f depth e := by
    intro x
    induction x using wellFounded.induction with
    | _ x ih => exact fun e found => step e fun y inside e' found' => ih y ⟨e,found,inside⟩ e' found'
  exact step e fun y _ e' found => stored y e' found

variable {vars : Variables α}

private theorem stored_finite (vars : Variables α) (x : String) : Set.Finite fun e => vars x = some e := by
  refine Set.Subsingleton.finite fun e₁ first e₂ second => ?_
  exact Option.some.inj (Eq.trans (Eq.symm first) second)

/-- The computation comes to an end from every memory. -/
private def Total (x : Eval α α) : Prop := ∀ m, x m ≠ none

private theorem total_congruent : Congruent fun x _ : Eval α α => Total x := by
  refine ⟨fun v m => by simp [ret],fun e m => by simp [fail],fun m => by simp [stuck],?_⟩
  intro x _ f _ first next m
  unfold andThen
  rcases called : x m with _ | ⟨_ | _ | _,m₁⟩
  · exact absurd called (first m)
  · exact next _ m₁
  · simp
  · simp

private theorem total_eval {node : Nat} (args : List (Expr α)) {xs : List (Eval α α)} (each : ∀ x ∈ xs, Total x) :
    Total (evalFuncExprEval node args xs) := by
  rcases args with _ | ⟨arg,_⟩
  · simp only [evalFuncExprEval]
    exact total_congruent.stuck
  rcases xs with _ | ⟨x,_⟩
  · simp only [evalFuncExprEval]
    exact total_congruent.stuck
  intro m
  simp only [evalFuncExprEval]
  cases m.captured node with
  | some v => simp
  | none =>
    cases arg with
    | literal v => simp
    | op | ref | func | flag =>
      exact total_congruent.andThen (y := x) (g := fun _ => stuck) (each x List.mem_cons_self) (fun _ _ => by simp) m

variable [Gdouble α]

private theorem total_related (io : Io α) (k : Expr α → Eval α α) :
    Related (fun x _ => Total x) (fun e => ∀ y ∈ refs e, ∀ e', vars y = some e' → Total (k e')) k k io io vars vars := by
  have cong := total_congruent (α := α)
  refine ⟨cong,?_,?_,?_,?_,?_⟩
  · exact fun _ _ _ fine => ⟨fun y inside => fine y (List.mem_append_left _ inside),
      fun y inside => fine y (List.mem_append_right _ inside)⟩
  · exact fun _ _ _ _ _ fine e member y inside => fine y (refs_of_args member inside)
  · exact fun id fine => related_ref cong k k rfl rfl rfl fun e stored => fine id (by simp [refs]) e stored
  · exact fun _ bit _ => related_flag cong bit rfl rfl
  · rintro node func args (rfl | rfl) fine each
    · refine total_eval args fun x member => ?_
      rw [evalArgs_eq_map] at member
      obtain ⟨e,inArgs,rfl⟩ := List.mem_map.mp member
      exact each e inArgs fun y inside => fine y (refs_of_args inArgs inside)
    · have all : List.Forall₂ (fun x _ => Total x) (evalArgs k io vars args) (evalArgs k io vars args) :=
        forall₂_evalArgs fun e inArgs => each e inArgs fun y inside => fine y (refs_of_args inArgs inside)
      exact related_changed cong (fun _ _ m => by simp [changedStore]) args all

/-- `expr_eval` comes to an end on a table without cycles. -/
theorem exprEval_ends (wellFounded : WellFounded fun y x => Mentions vars x y) (io : Io α) (e : Expr α) :
    Ends fun depth => exprEval depth io vars e := by
  refine ends_of_wellFounded (f := fun depth e => exprEval depth io vars e) (stored_finite vars) wellFounded ?_ e
  intro depth e fine m
  rw [exprEval_succ]
  exact evalWith_related (total_related io (exprEval depth io vars)) e fine m

end

section
variable [Gdouble α] {program : Program α}

/-- At one depth `expr_eval` comes to an end on all the tables that a program may have. -/
theorem exprEval_ends_known (acyclic : Acyclic (Depends program)) (e : Expr α) :
    Ends fun depth (a : Io α × { vars : Variables α // Known program vars } × Mem α) =>
      exprEval depth a.1 a.2.1.1 e a.2.2 := by
  refine ends_of_wellFounded (f := fun depth e (a : Io α × { vars : Variables α // Known program vars } × Mem α) =>
    exprEval depth a.1 a.2.1.1 e a.2.2) (given_finite program) (depends_wellFounded acyclic) ?_ e
  rintro depth e fine ⟨io,⟨vars,known⟩,m⟩
  have calls : ∀ y ∈ refs e, ∀ e', vars y = some e' → Total (exprEval depth io vars e') :=
    fun y inside e' stored m => fine y inside e' (known y e' stored) (io,⟨vars,known⟩,m)
  change exprEval (depth+1) io vars e m ≠ none
  rw [exprEval_succ]
  exact evalWith_related (total_related io (exprEval depth io vars)) e calls m

end

theorem anyRef_ends {answers : List (Option Bool)} (each : ∀ a ∈ answers, a ≠ none) : anyRef answers ≠ none := by
  induction answers with
  | nil => simp [anyRef]
  | cons a rest ih =>
    rcases a with _ | _ | _
    · exact absurd rfl (each _ List.mem_cons_self)
    · exact ih fun a member => each a (List.mem_cons_of_mem _ member)
    · simp [anyRef]

section
variable {vars : Variables α}

private theorem haveRefWith_ends {k : Expr α → Option Bool} {captured : Nat → Option α} {id : String} (e : Expr α) :
    (∀ y ∈ refs e, ∀ e', vars y = some e' → k e' ≠ none) → haveRefWith k vars captured id e ≠ none := by
  induction e using Expr.rec (motive_2 := fun args => ∀ e ∈ args,
    (∀ y ∈ refs e, ∀ e', vars y = some e' → k e' ≠ none) → haveRefWith k vars captured id e ≠ none) with
  | literal v => simp [haveRefWith]
  | op o l r left right =>
    intro fine
    rw [haveRefWith]
    apply anyRef_ends
    simp only [List.mem_cons,List.not_mem_nil,or_false,forall_eq_or_imp,forall_eq]
    exact ⟨left fun y inside => fine y (List.mem_append_left _ inside),
      right fun y inside => fine y (List.mem_append_right _ inside)⟩
  | ref ref =>
    intro fine
    rw [haveRefWith,refExprHaveRefTo]
    split
    · simp
    · cases stored : vars ref with
      | none => simp
      | some e => exact fine ref (by simp [refs]) e stored
  | func node func args each =>
    intro fine
    rw [haveRefWith_func]
    apply anyRef_ends
    intro a member
    obtain ⟨e,live,rfl⟩ := List.mem_map.mp member
    exact each e (liveArgs_subset live) fun y inside => fine y (refs_of_args (liveArgs_subset live) inside)
  | flag ref bit => simp [haveRefWith]
  | nil =>
    rename_i member _
    simp at member
  | cons first rest one others =>
    rename_i e member fine
    rcases List.mem_cons.mp member with rfl | member
    · exact one fine
    · exact others e member fine

/-- `expr_have_ref_to` comes to an end on a table without cycles. -/
theorem exprHaveRefTo_ends (wellFounded : WellFounded fun y x => Mentions vars x y) (e : Expr α) :
    Ends fun depth (query : (Nat → Option α) × String) => exprHaveRefTo depth vars query.1 query.2 e := by
  refine ends_of_wellFounded (f := fun depth e (query : (Nat → Option α) × String) =>
    exprHaveRefTo depth vars query.1 query.2 e) (stored_finite vars) wellFounded ?_ e
  intro depth e fine query
  rw [exprHaveRefTo_succ]
  exact haveRefWith_ends e fun y inside e' stored => fine y inside e' stored query

end

/-- At one depth `expr_have_ref_to` comes to an end on all the tables that a program may have. -/
theorem exprHaveRefTo_ends_known {program : Program α} (acyclic : Acyclic (Depends program)) (e : Expr α) :
    Ends fun depth (a : { vars : Variables α // Known program vars } × (Nat → Option α) × String) =>
      exprHaveRefTo depth a.1.1 a.2.1 a.2.2 e := by
  refine ends_of_wellFounded (f := fun depth e (a : { vars : Variables α // Known program vars } × (Nat → Option α) × String) =>
    exprHaveRefTo depth a.1.1 a.2.1 a.2.2 e) (given_finite program) (depends_wellFounded acyclic) ?_ e
  rintro depth e fine ⟨⟨vars,known⟩,captured,id⟩
  change exprHaveRefTo (depth+1) vars captured id e ≠ none
  rw [exprHaveRefTo_succ]
  exact haveRefWith_ends e fun y inside e' stored => fine y inside e' (known y e' stored) (⟨vars,known⟩,captured,id)

section
variable [Gdouble α] [DecidableEq α] {s : EngineState α W}

/-- When the expressions that the program gives its variables have no cycle, neither has
    any table that a run comes through, and on it the evaluation of every expression and
    every test for a reference come to an end. -/
theorem reached_acyclic {program : Program α} (acyclic : Acyclic (Depends program)) (reached : Reached program s) :
    s.vars = replay (initialTable program.decls) s.log ∧
    ∀ seen, seen <+: s.log →
      Acyclic (Mentions (replay (initialTable program.decls) seen)) ∧
      ∀ e, (∀ io, Ends fun depth => exprEval depth io (replay (initialTable program.decls) seen) e) ∧
        Ends fun depth (query : (Nat → Option α) × String) =>
          exprHaveRefTo depth (replay (initialTable program.decls) seen) query.1 query.2 e := by
  refine ⟨(reached_accounts reached).1,fun seen before => ?_⟩
  have sub : ∀ x y, Mentions (replay (initialTable program.decls) seen) x y → Depends program x y :=
    fun x y => mentions_depends reached before
  have noCycle := acyclic_mono sub acyclic
  have finite : Set.Finite fun x => ∃ y, Mentions (replay (initialTable program.decls) seen) x y :=
    (depends_finite program).subset fun x ⟨y,mentions⟩ => ⟨y,sub x y mentions⟩
  have wellFounded := acyclic_wellFounded finite noCycle
  exact ⟨noCycle,fun e => ⟨fun io => exprEval_ends wellFounded io e,exprHaveRefTo_ends wellFounded e⟩⟩

end

/-- `VAR level = 0; VAR twice = level * 2; level { SET door + 1 WHEN TRUE; } lamp { SET twice WHEN TRUE; }`. -/
private def levelProgram : Program ℚ :=
  ⟨⟨[⟨[⟨.literal 1,⟨"level",.op .add (.ref "door") (.literal 1),0⟩⟩]⟩,⟨[⟨.literal 1,⟨"lamp",.ref "twice",0⟩⟩]⟩],[]⟩,
    [("level",.literal 0),("twice",.op .mul (.ref "level") (.literal 2))]⟩

private def levelRank (x : String) : Nat := if x = "twice" then 2 else if x = "level" then 1 else 0

private theorem levelProgram_acyclic : Acyclic (Depends levelProgram) := by
  refine acyclic_of_rank levelRank ?_
  rintro x y ⟨e,stored | ⟨declared,j,ass,⟨rule,at_j,member⟩,_,rfl,rfl⟩,inside⟩
  · by_cases twice : x = "twice"
    · subst twice
      simp only [initialTable,levelProgram,List.foldl,Function.update_self,Option.some.injEq] at stored
      subst stored
      simp only [refs,List.append_nil,List.mem_singleton] at inside
      subst inside
      decide
    · by_cases level : x = "level"
      · subst level
        simp only [initialTable,levelProgram,List.foldl,Function.update_of_ne twice,Function.update_self,
          Option.some.injEq] at stored
        subst stored
        simp [refs] at inside
      · simp [initialTable,levelProgram,Function.update_of_ne twice,Function.update_of_ne level] at stored
  · have one : rule ∈ levelProgram.engine.rules := List.mem_of_getElem? at_j
    simp only [levelProgram,Engine.rules,List.map_cons,List.map_nil,List.append_nil,List.mem_cons,List.not_mem_nil,
      or_false] at one
    rcases one with rfl | rfl <;>
      (simp only [assigns,List.map_cons,List.map_nil,List.mem_singleton] at member; subst member)
    · simp only [refs,List.append_nil,List.mem_singleton] at inside
      subst inside
      decide
    · exact absurd (by decide) declared

private def levelEnv (door : ℚ) : Env ℚ Unit where
  io := ⟨fun id => if id = "door" then some ⟨"door","",0,0,1,1,door,0⟩ else none,
    fun id => if id = "lamp" then some ⟨"lamp","",0,0,9,1,0,0⟩ else none⟩
  bus := ⟨fun peers _ _ _ => (true,peers),fun peers _ _ _ => (true,peers)⟩
  depth := 4

/-- The rules are run for a door that is open, and again after it was shut: the block of `level` stores `door + 1`, the
change runs the block of `lamp` through `twice`, and the second run stores the same expression again. -/
private def levelState : EngineState ℚ Unit :=
  (engineApply (levelEnv 0) levelProgram.engine 3 (some "door")
    (engineApply (levelEnv 1) levelProgram.engine 3 none ⟨initialTable levelProgram.decls,freshMem,(),[]⟩).state).state

theorem reached_acyclic_level :
    ((levelState.vars "level").map refs = some ["door"] ∧ levelState.log.length = 14) ∧ Acyclic (Mentions levelState.vars) ∧
      ∀ io, Ends fun depth => exprEval depth io levelState.vars (.ref "twice") := by
  have reached : Reached levelProgram levelState :=
    .call (levelEnv 0) 3 (some "door") (.call (levelEnv 1) 3 none (.start freshMem ()))
  obtain ⟨accounted,each⟩ := reached_acyclic levelProgram_acyclic reached
  obtain ⟨noCycle,ends⟩ := each levelState.log List.prefix_rfl
  rw [← accounted] at noCycle ends
  exact ⟨⟨by decide +kernel,by decide +kernel⟩,noCycle,(ends _).1⟩

/-- `VAR x = x; lamp { SET x WHEN TRUE; }`. -/
private def selfProgram : Program ℚ :=
  ⟨⟨[⟨[⟨.literal 1,⟨"lamp",.ref "x",0⟩⟩]⟩],[]⟩,[("x",.ref "x")]⟩

/-- Nothing keeps a variable from mentioning itself; then neither function ends. -/
theorem self_reference_never_ends :
    ∃ s : EngineState ℚ Unit, Reached selfProgram s ∧ ¬ Acyclic (Mentions s.vars) ∧
      (∀ depth m, exprEval depth ⟨fun _ => none,fun _ => none⟩ s.vars (.ref "x") m = none) ∧
      ∀ depth captured, exprHaveRefTo depth s.vars captured "door" (.ref "x") = none := by
  have stored : initialTable selfProgram.decls "x" = some (.ref "x") := rfl
  refine ⟨_,.start freshMem (),?_,?_,?_⟩
  · exact fun acyclic => acyclic "x" (.single ⟨_,stored,by simp [refs]⟩)
  · intro depth
    induction depth with
    | zero => exact fun _ => rfl
    | succ depth ih =>
      intro m
      rw [exprEval_succ]
      simp only [evalWith,refExprEval,stored]
      exact ih m
  · intro depth captured
    induction depth with
    | zero => rfl
    | succ depth ih =>
      rw [exprHaveRefTo_succ]
      simp only [haveRefWith,refExprHaveRefTo,stored]
      exact ih

end Starter.Termination
