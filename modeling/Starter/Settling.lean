import Starter.Coverage

/-!
Settling: when `engine_apply` returns, a variable that one label block gives its value
holds the right-hand side of the first entry of the block whose condition is true in the
final table, for rules without `CHANGED` and `EVAL`.
-/
namespace Starter.Settling
open Gdouble Objects Expressions References Rules Relevance Cascade Coverage

variable {α W : Type}

/-- No expression of the rules has `CHANGED` or `EVAL`. -/
def PlainRules (rules : List (Rule α)) : Prop := ∀ rule ∈ rules, ∀ e ∈ exprs rule, plain e = true

/-- No stored expression has. -/
def PlainTable (vars : Variables α) : Prop := ∀ x e, vars x = some e → plain e = true

section
variable [Gdouble α]

/-- The expression evaluates to the value, at some depth. -/
def Evaluates (io : Io α) (vars : Variables α) (mem : Mem α) (e : Expr α) (v : α) : Prop :=
  ∃ depth m, exprEval depth io vars e mem = some (.value v,m)

/-- The entry is the first whose condition is true. -/
inductive FirstTrue (io : Io α) (vars : Variables α) (mem : Mem α) : List (LabelEntry α) → LabelEntry α → Prop
  | here {entry : LabelEntry α} {rest : List (LabelEntry α)} {v : α}
      (evaluates : Evaluates io vars mem entry.cond v) (holds : truth v = true) : FirstTrue io vars mem (entry :: rest) entry
  | later {first entry : LabelEntry α} {rest : List (LabelEntry α)} {v : α}
      (evaluates : Evaluates io vars mem first.cond v) (fails : truth v = false)
      (among : FirstTrue io vars mem rest entry) : FirstTrue io vars mem (first :: rest) entry

variable {io io' : Io α} {vars vars' : Variables α} {mem : Mem α} {names : String → Prop}

theorem evaluates_of_exprEval {e : Expr α} {v : α} (depth : Nat)
    (answered : (exprEval depth io vars e mem).map Prod.fst = some (.value v)) : Evaluates io vars mem e v := by
  obtain ⟨⟨out,m⟩,called,same⟩ := Option.map_eq_some_iff.mp answered
  simp only at same
  subst same
  exact ⟨depth,m,called⟩

theorem evaluates_unique {e : Expr α} {v w : α} (first : Evaluates io vars mem e v)
    (second : Evaluates io vars mem e w) : v = w := by
  obtain ⟨_,_,first⟩ := first
  obtain ⟨_,_,second⟩ := second
  have same := exprEval_unique first second
  simp only [Prod.mk.injEq,Outcome.value.injEq] at same
  exact same.1

theorem evaluates_agree (agree : AgreeOff names io io' vars vars') {e : Expr α} {v : α}
    (free : ¬ Reaches vars mem.captured names e) :
    Evaluates io vars mem e v ↔ Evaluates io' vars' mem e v := by
  unfold Evaluates
  simp only [exprEval_agree agree free]

theorem evaluates_views (same : SameViews io io') {e : Expr α} {v : α} : Evaluates io vars mem e v ↔ Evaluates io' vars mem e v := by
  unfold Evaluates
  simp only [exprEval_views same]

theorem firstTrue_mem {entries : List (LabelEntry α)} {entry : LabelEntry α}
    (first : FirstTrue io vars mem entries entry) : entry ∈ entries := by
  induction first with
  | here => exact List.mem_cons_self
  | later _ _ _ ih => exact List.mem_cons_of_mem _ ih

theorem firstTrue_agree (agree : AgreeOff names io io' vars vars') {entries : List (LabelEntry α)}
    {entry : LabelEntry α} (free : ∀ entry ∈ entries, ¬ Reaches vars mem.captured names entry.cond)
    (first : FirstTrue io vars mem entries entry) : FirstTrue io' vars' mem entries entry := by
  induction first with
  | here evaluates holds => exact .here ((evaluates_agree agree (free _ List.mem_cons_self)).mp evaluates) holds
  | later evaluates fails _ ih =>
    exact .later ((evaluates_agree agree (free _ List.mem_cons_self)).mp evaluates) fails
      (ih fun entry member => free entry (List.mem_cons_of_mem _ member))

theorem firstTrue_views (same : SameViews io io') {entries : List (LabelEntry α)} {entry : LabelEntry α}
    (first : FirstTrue io vars mem entries entry) : FirstTrue io' vars mem entries entry := by
  induction first with
  | here evaluates holds => exact .here ((evaluates_views same).mp evaluates) holds
  | later evaluates fails _ ih => exact .later ((evaluates_views same).mp evaluates) fails ih

variable {env : Env α W} {rules : List (Rule α)} {j : Nat} {s t : EngineState α W}

theorem evaluate_plain (env : Env α W) {e : Expr α} (table : PlainTable s.vars) (free : plain e = true) :
    (∀ v t, evaluate env e s = .returned v t → t = s ∧ Evaluates env.io s.vars s.mem e v) ∧
    (∀ error t, evaluate env e s = .failed error t → t = s ∧ ∀ v, ¬ Evaluates env.io s.vars s.mem e v) := by
  unfold evaluate
  split
  · rename_i v m answered
    obtain rfl : m = s.mem := exprEval_plain table env.depth e free s.mem _ answered
    refine ⟨?_,by simp⟩
    rintro _ _ ⟨⟩
    exact ⟨rfl,env.depth,_,answered⟩
  · rename_i error m answered
    obtain rfl : m = s.mem := exprEval_plain table env.depth e free s.mem _ answered
    refine ⟨by simp,?_⟩
    rintro _ _ ⟨⟩
    refine ⟨rfl,?_⟩
    rintro v ⟨_,_,other⟩
    have same := exprEval_unique answered other
    simp at same
  · simp
  · simp

/-- The loop over the entries of a block finds the first whose condition is true. -/
theorem labelBlockSelect_firstTrue (table : PlainTable s.vars) {entries : List (LabelEntry α)} {entry : LabelEntry α}
    (free : ∀ entry ∈ entries, plain entry.cond = true) (first : FirstTrue env.io s.vars s.mem entries entry) :
    labelBlockSelect env entries s = .returned (some entry) s ∨ ∃ u, labelBlockSelect env entries s = .stopped u := by
  induction first with
  | @here entry rest v evaluates holds =>
    obtain ⟨returned,failed⟩ := evaluate_plain env table (free entry List.mem_cons_self)
    simp only [labelBlockSelect]
    cases called : evaluate env entry.cond s with
    | stopped u => exact .inr ⟨u,rfl⟩
    | failed error u => exact absurd evaluates ((failed error u called).2 v)
    | returned w u =>
      obtain ⟨rfl,same⟩ := returned w u called
      obtain rfl := evaluates_unique evaluates same
      simp [Res.andThen,holds]
  | @later first entry rest v evaluates fails _ ih =>
    obtain ⟨returned,failed⟩ := evaluate_plain env table (free first List.mem_cons_self)
    simp only [labelBlockSelect]
    cases called : evaluate env first.cond s with
    | stopped u => exact .inr ⟨u,rfl⟩
    | failed error u => exact absurd evaluates ((failed error u called).2 v)
    | returned w u =>
      obtain ⟨rfl,same⟩ := returned w u called
      obtain rfl := evaluates_unique evaluates same
      simp only [Res.andThen,fails]
      exact ih fun entry member => free entry (List.mem_cons_of_mem _ member)

/-- The actions of rules without `CHANGED` and `EVAL` write nothing into the nodes. -/
theorem action_plain (program : PlainRules rules) (table : PlainTable s.vars) (action : Action env rules j s t) :
    t.vars = s.vars ∧ t.mem = s.mem := by
  cases action with
  | evaluated at_j member answered _ =>
    have free := program _ (List.mem_of_getElem? at_j) _ member
    exact ⟨rfl,exprEval_plain table env.depth _ free s.mem _ answered⟩
  | _ => exact ⟨rfl,rfl⟩

theorem actions_plain (program : PlainRules rules) (table : PlainTable s.vars) (actions : Actions env rules j s t) :
    t.vars = s.vars ∧ t.mem = s.mem := by
  induction actions with
  | refl => exact ⟨rfl,rfl⟩
  | tail _ last ih =>
    obtain ⟨sameVars,sameMem⟩ := action_plain program (ih.1 ▸ table) last
    exact ⟨sameVars.trans ih.1,sameMem.trans ih.2⟩

variable [DecidableEq α]

/-- An expression is `expr_equal` to itself. -/
theorem exprEqual_refl (m : Mem α) (e : Expr α) : exprEqual m e e = true := by
  rw [exprEqual,(identical_iff e e).mpr rfl,Bool.true_or]

theorem store_plain (program : PlainRules rules) (table : PlainTable s.vars) {id : String} {e : Expr α}
    (stores : Stores env rules j s id e) : PlainTable (s.store id e).vars := by
  obtain ⟨ass,⟨rule,at_j,inRule⟩,_,rfl,_⟩ := stores
  intro y f stored
  by_cases same : y = id
  · subst same
    simp only [store_vars,Function.update_self,Option.some.injEq] at stored
    subst stored
    exact program rule (List.mem_of_getElem? at_j) _ (rval_of_assigns inRule)
  · simp only [store_vars,Function.update_of_ne same] at stored
    exact table y f stored

/-- The variable `x`, whose name is not that of an output, gets its value from the label
    block at position `p` and from no other rule. -/
structure GivesValue (io : Io α) (rules : List (Rule α)) (vars : Variables α) (x : String) (p : Nat)
    (block : LabelBlock α) : Prop where
  at_p : rules[p]? = some (.label block)
  target : ∀ entry ∈ block.entries, entry.ass.id = x ∧ entry.ass.flagBit = 0
  sole : ∀ j ass, j ≠ p → Assigns rules j ass → ass.flagBit = 0 → ass.id ≠ x
  declared : vars x ≠ none
  unshadowed : io.outputs x = none

/-- The variable holds the right-hand side that the block selects. -/
def Holds (io : Io α) (s : EngineState α W) (x : String) (block : LabelBlock α) : Prop :=
  ∀ entry, FirstTrue io s.vars s.mem block.entries entry →
    ∃ e, s.vars x = some e ∧ exprEqual s.mem e entry.ass.rval = true

/-- Every variable that one block gives its value holds what the block selects. -/
def Settled (io : Io α) (rules : List (Rule α)) (s : EngineState α W) : Prop :=
  ∀ x p block, GivesValue io rules s.vars x p block → Holds io s x block

omit [Gdouble α] [DecidableEq α] in
theorem conds_free {block : LabelBlock α} {p : Nat} {id : String} (at_p : rules[p]? = some (.label block))
    (apart : ¬ Refers rules s p id) :
    ∀ entry ∈ block.entries, ¬ Reaches s.vars s.mem.captured (· = id) entry.cond :=
  fun _ member inside => apart ⟨_,at_p,_,cond_mem_exprs member,inside⟩

omit [Gdouble α] [DecidableEq α] in
theorem rvals_free {block : LabelBlock α} {p : Nat} {id : String} (at_p : rules[p]? = some (.label block))
    (apart : ¬ Refers rules s p id) :
    ∀ entry ∈ block.entries, ¬ Reaches s.vars s.mem.captured (· = id) entry.ass.rval :=
  fun _ member inside => apart ⟨_,at_p,_,rval_mem_exprs member,inside⟩

omit [Gdouble α] [DecidableEq α] in
theorem vars_agree (io : Io α) (s : EngineState α W) (id : String) (e : Expr α) :
    AgreeOff (· = id) io io (s.store id e).vars s.vars := by
  refine ⟨fun _ _ => rfl,fun _ _ => rfl,fun y apart => ?_⟩
  simp [Function.update_of_ne apart]

/-- What the evaluation of the block that gives `x` its value leaves behind. -/
private theorem block_holds (program : PlainRules rules) (table : PlainTable s.vars) {x : String} {p : Nat}
    {block : LabelBlock α} (gives : GivesValue env.io rules s.vars x p block) (key : Option String) :
    match labelBlockStore env block (s.note (.iterate p key)) with
    | .returned (some (_,.changed id)) t => Holds env.io t x block ∨ Refers rules t p id
    | .returned _ t => Holds env.io t x block
    | .failed _ t => Holds env.io t x block
    | .stopped _ => True := by
  obtain ⟨old,stored⟩ := Option.ne_none_iff_exists'.mp gives.declared
  have free : ∀ entry ∈ block.entries, plain entry.cond = true := fun entry member =>
    program _ (List.mem_of_getElem? gives.at_p) _ (cond_mem_exprs member)
  -- With a first true entry the block compares the right-hand side and stores another one.
  have selects : ∀ entry, FirstTrue env.io s.vars s.mem block.entries entry →
      (∃ u, labelBlockStore env block (s.note (.iterate p key)) = .stopped u) ∨
      (exprEqual s.mem old entry.ass.rval = true ∧ ∃ t, t.vars = s.vars ∧ t.mem = s.mem ∧
        labelBlockStore env block (s.note (.iterate p key)) = .returned (some (entry,.quiet false)) t) ∨
      labelBlockStore env block (s.note (.iterate p key)) =
        .returned (some (entry,.changed x)) ((s.note (.iterate p key)).store x entry.ass.rval) := by
    intro entry first
    obtain ⟨named,value⟩ := gives.target entry (firstTrue_mem first)
    have select := labelBlockSelect_firstTrue (s := s.note (.iterate p key)) table free first
    unfold labelBlockStore
    rcases select with select | ⟨u,select⟩
    · refine .inr ?_
      rw [select]
      simp only [Res.andThen,assignStore,value,ne_eq,not_true_eq_false,if_false,named,gives.unshadowed,note_vars,note_mem,stored]
      by_cases same : exprEqual s.mem old entry.ass.rval = true
      · rw [if_pos same]
        exact .inl ⟨same,(s.note (.iterate p key)).note (.varUnchanged x),rfl,rfl,rfl⟩
      · rw [if_neg same]
        exact .inr rfl
    · rw [select]
      exact .inl ⟨u,rfl⟩
  have ends : BlockEnds env rules p (s.note (.iterate p key)) (labelBlockStore env block (s.note (.iterate p key))) :=
    labelBlockStore_ends gives.at_p
  have quiet : ∀ t, Actions env rules p (s.note (.iterate p key)) t → (∀ entry, FirstTrue env.io s.vars s.mem block.entries
      entry → exprEqual s.mem old entry.ass.rval = true) → Holds env.io t x block := by
    intro t actions equal entry first
    obtain ⟨sameVars,sameMem⟩ : t.vars = s.vars ∧ t.mem = s.mem :=
      actions_plain (s := s.note (.iterate p key)) program table actions
    rw [sameVars,sameMem] at first
    rw [sameVars,sameMem]
    exact ⟨old,stored,equal entry first⟩
  cases called : labelBlockStore env block (s.note (.iterate p key)) with
  | stopped => trivial
  | failed error t =>
    rw [called] at ends
    refine quiet t ends fun entry first => ?_
    rcases selects entry first with ⟨u,other⟩ | ⟨same,_⟩ | other
    · simp [called] at other
    · exact same
    · simp [called] at other
  | returned result t =>
  rw [called] at ends
  rcases result with _ | ⟨chosen,_ | id⟩
  · refine quiet t ends fun entry first => ?_
    rcases selects entry first with ⟨u,other⟩ | ⟨same,_⟩ | other
    · simp [called] at other
    · exact same
    · simp [called] at other
  · refine quiet t ends fun entry first => ?_
    rcases selects entry first with ⟨u,other⟩ | ⟨same,_⟩ | other
    · simp [called] at other
    · exact same
    · simp [called] at other
  · obtain ⟨u,e,actions,stores,rfl⟩ := ends
    obtain ⟨sameVars,sameMem⟩ : u.vars = s.vars ∧ u.mem = s.mem :=
      actions_plain (s := s.note (.iterate p key)) program table actions
    by_cases refers : Refers rules (u.store id e) p id
    · exact .inr refers
    · refine .inl fun entry first => ?_
      have before := firstTrue_agree (vars_agree env.io u id e) (conds_free gives.at_p refers) first
      have before : FirstTrue env.io s.vars s.mem block.entries entry := by
        rw [← sameVars,← sameMem]
        exact before
      rcases selects entry before with ⟨v,other⟩ | ⟨_,v,_,_,other⟩ | other
      · simp [called] at other
      · simp [called] at other
      · rw [called] at other
        simp only [Res.returned.injEq] at other
        rw [other.2]
        exact ⟨entry.ass.rval,by simp,exprEqual_refl _ _⟩

private theorem established (program : PlainRules rules) {x : String} {p : Nat} {block : LabelBlock α}
    (at_p : rules[p]? = some (.label block)) (target : ∀ entry ∈ block.entries, entry.ass.id = x ∧ entry.ass.flagBit = 0)
    (sole : ∀ j ass, j ≠ p → Assigns rules j ass → ass.flagBit = 0 → ass.id ≠ x)
    (unshadowed : env.io.outputs x = none) :
    Established env rules (fun s => PlainTable s.vars ∧ s.vars x ≠ none)
      (fun q s => q = p → Holds env.io s x block) := by
  have other : ∀ j, Bystander rules j p → j ≠ p := by
    rintro j (apart | ⟨trigger,at_j⟩) rfl
    · exact apart rfl
    · rw [at_p] at at_j
      cases at_j
  refine ⟨?_,?_,?_,?_,?_,?_⟩
  · rintro s t step ⟨table,defined⟩
    refine ⟨?_,fun gone => defined ((step_domain step x).mp gone)⟩
    cases step with
    | action action => exact (action_alike action).1 ▸ table
    | store stores => exact store_plain program table stores
  · rintro j q s t ⟨table,_⟩ _ action done rfl entry first
    obtain ⟨sameVars,sameMem⟩ := action_plain program table action
    rw [sameVars,sameMem] at first
    rw [sameVars,sameMem]
    exact done rfl entry first
  · rintro j q s id e _ bystander stores done
    by_cases refers : Refers rules (s.store id e) q id
    · exact .inr refers
    · refine .inl ?_
      rintro rfl entry first
      obtain ⟨f,stored,same⟩ := done rfl entry (firstTrue_agree (vars_agree env.io s id e) (conds_free at_p refers) first)
      obtain ⟨ass,assigned,rfl,_,value,_⟩ := stores
      have apart : x ≠ ass.id := (sole j ass (other j bystander) assigned value).symm
      exact ⟨f,by simp [Function.update_of_ne apart,stored],same⟩
  · exact fun q s event _ _ done same => done same
  · rintro j trigger s key _ at_j rfl
    rw [at_p] at at_j
    cases at_j
  · rintro j b s key ⟨table,defined⟩ at_j
    by_cases here : j = p
    · subst here
      rw [at_p] at at_j
      cases at_j
      have result := block_holds program table ⟨at_p,target,sole,defined,unshadowed⟩ key
      cases called : labelBlockStore env block (s.note (.iterate j key)) with
      | stopped => trivial
      | failed =>
        rw [called] at result
        exact fun _ => result
      | returned outcome t =>
        rw [called] at result
        rcases outcome with _ | ⟨_,_ | id⟩
        · exact fun _ => result
        · exact fun _ => result
        · exact result.imp_left fun holds _ => holds
    · rcases labelBlockStore env b (s.note (.iterate j key)) with ⟨_ | ⟨_,_ | id⟩,_⟩ | _ | _
      · exact fun same => absurd same here
      · exact fun same => absurd same here
      · exact .inl fun same => absurd same here
      · exact fun same => absurd same here
      · trivial

/-- The two mirrors differ in the object named `id` only, and it exists in both. -/
structure ObjectChanged (id : String) (io io' : Io α) : Prop where
  inputs : ∀ x, x ≠ id → io.inputs x = io'.inputs x
  outputs : ∀ x, x ≠ id → io.outputs x = io'.outputs x
  output : io.outputs id = none ↔ io'.outputs id = none

/-- `engine_apply` settles the variables: on a start, whatever the table was, and after
    a change of an object, when they were settled before it. -/
theorem engineApply_settles {engine : Engine α} (program : PlainRules engine.rules) (table : PlainTable s.vars) :
    (∀ n t, engineApply env engine n none s = .returned () t → Settled env.io engine.rules t) ∧
    (∀ n id io t, Settled io engine.rules s → ObjectChanged id io env.io →
      engineApply env engine n (some id) s = .returned () t → Settled env.io engine.rules t) := by
  have defined : ∀ {n key t x}, engineApply env engine n key s = .returned () t → t.vars x ≠ none → s.vars x ≠ none := by
    intro n key t x called later gone
    have steps := engineApply_steps env engine n key s
    rw [called] at steps
    exact later ((steps_domain steps x).mpr gone)
  constructor
  · intro n t called x p block gives
    have below : p < engine.rules.length := (List.getElem?_eq_some_iff.mp gives.at_p).1
    exact engineApply_established_all (established program gives.at_p gives.target gives.sole gives.unshadowed) called
      ⟨table,defined called gives.declared⟩ p below rfl
  · intro n id io t before changed called x p block gives
    have below : p < engine.rules.length := (List.getElem?_eq_some_iff.mp gives.at_p).1
    have unshadowed : io.outputs x = none := by
      by_cases same : x = id
      · subst same
        exact changed.output.mpr gives.unshadowed
      · rw [changed.outputs x same]
        exact gives.unshadowed
    have holds := before x p block
      ⟨gives.at_p,gives.target,gives.sole,defined called gives.declared,unshadowed⟩
    refine engineApply_established (established program gives.at_p gives.target gives.sole gives.unshadowed) called
      ⟨table,defined called gives.declared⟩ ?_ p below rfl
    intro q _
    by_cases refers : Refers engine.rules s q id
    · exact .inr refers
    · refine .inl ?_
      rintro rfl entry first
      have agree : AgreeOff (· = id) env.io io s.vars s.vars :=
        ⟨fun y apart => (changed.inputs y apart).symm,fun y apart => (changed.outputs y apart).symm,fun _ _ => rfl⟩
      exact holds entry (firstTrue_agree agree (conds_free gives.at_p refers) first)

end

private def acceptAll : Bus ℚ Unit := ⟨fun w _ _ _ => (true,w),fun w _ _ _ => (true,w)⟩

/-- `fan { SET speed + 1 WHEN door == 1; SET 0 WHEN TRUE; } speed { SET 2 WHEN TRUE; }`. -/
private def fanEngine : Engine ℚ :=
  ⟨[⟨[⟨.op .eq (.ref "door") (.literal 1),⟨"fan",.op .add (.ref "speed") (.literal 1),0⟩⟩,
      ⟨.literal 1,⟨"fan",.literal 0,0⟩⟩]⟩,
    ⟨[⟨.literal 1,⟨"speed",.literal 2,0⟩⟩]⟩],[]⟩

private def fanEnv : Env ℚ Unit :=
  ⟨⟨fun id => if id = "door" then some ⟨"door","",0,0,1,1,1,0⟩ else none,fun _ => none⟩,acceptAll,3⟩

private def fanStart : EngineState ℚ Unit :=
  ⟨fun id => if id = "fan" ∨ id = "speed" then some (.literal 0) else none,freshMem,(),[]⟩

theorem engineApply_settles_fan :
    Settled fanEnv.io fanEngine.rules (engineApply fanEnv fanEngine 3 none fanStart).state := by
  have program : PlainRules fanEngine.rules := by
    unfold PlainRules
    decide
  have table : PlainTable fanStart.vars := by
    intro x e stored
    simp only [fanStart] at stored
    split at stored
    · cases stored
      rfl
    · cases stored
  exact (engineApply_settles program table).1 3 _ rfl

/-- `lamp { SET 1 WHEN TRUE; }`. -/
private def lampBlock : LabelBlock ℚ := ⟨[⟨.literal 1,⟨"lamp",.literal 1,0⟩⟩]⟩

/-- `VAR lamp = 0;`. -/
private def lampStart : EngineState ℚ Unit :=
  ⟨fun id => if id = "lamp" then some (.literal 0) else none,freshMem,(),[]⟩

private def lampOutput : Env ℚ Unit :=
  ⟨⟨fun _ => none,fun id => if id = "lamp" then some ⟨"lamp","",0,0,10,1,0,0⟩ else none⟩,acceptAll,1⟩

/-- A variable with the name of an output keeps its expression: the block writes the
    output. -/
theorem shadowed_variable_unsettled : ∃ t entry,
    engineApply lampOutput ⟨[lampBlock],[]⟩ 1 none lampStart = .returned () t ∧
      FirstTrue lampOutput.io t.vars t.mem lampBlock.entries entry ∧ entry.ass.id = "lamp" ∧
      t.vars "lamp" = some (.literal 0) ∧ exprEqual t.mem (.literal 0) entry.ass.rval = false :=
  ⟨_,_,rfl,.here (v := 1) ⟨1,_,rfl⟩ (by decide),rfl,rfl,by decide⟩

end Starter.Settling
