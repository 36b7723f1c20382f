import Starter.Rules

/-!
Which rules `engine_apply` may pass over: a rule that does not refer to a name selects and
assigns the same whatever the name stands for.
-/
namespace Starter.Relevance
open Gdouble Objects Expressions References Rules

variable {α W : Type}

/-- The expressions of a rule: its conditions and the right-hand sides of its assignments. -/
def exprs : Rule α → List (Expr α)
  | .label block => block.entries.flatMap fun entry => [entry.cond,entry.ass.rval]
  | .trigger trigger => trigger.cond :: trigger.ass.map Assign.rval

/-- The rule refers to one of the names. -/
def RuleReaches (vars : Variables α) (captured : Nat → Option α) (names : String → Prop) (rule : Rule α) : Prop :=
  ∃ e ∈ exprs rule, Reaches vars captured names e

abbrev RuleRefersTo (vars : Variables α) (captured : Nat → Option α) (id : String) : Rule α → Prop :=
  RuleReaches vars captured (· = id)

theorem haveRefTo_false {vars : Variables α} {captured : Nat → Option α} {id : String} {rule : Rule α} {depth : Nat}
    (passed : rule.haveRefTo depth vars captured id = some false) : ¬ RuleRefersTo vars captured id rule := by
  rintro ⟨e,member,refers⟩
  have undecided := exprHaveRefTo_false refers depth
  cases rule with
  | label block =>
    obtain ⟨entry,inBlock,inEntry⟩ := List.mem_flatMap.mp member
    have entryFalse := anyRef_false passed _ (List.mem_map_of_mem inBlock)
    have each := anyRef_false entryFalse
    rcases List.mem_cons.mp inEntry with rfl | inEntry
    · exact undecided (each _ (by simp))
    · obtain rfl := List.mem_singleton.mp inEntry
      exact undecided (each _ (by simp))
  | trigger trigger =>
    have each := anyRef_false passed
    rcases List.mem_cons.mp member with rfl | inAss
    · exact undecided (each _ (by simp))
    · obtain ⟨ass,inTrigger,rfl⟩ := List.mem_map.mp inAss
      exact undecided (each _ (List.mem_cons_of_mem _ (List.mem_map.mpr ⟨ass,inTrigger,rfl⟩)))

theorem haveRefTo_true {vars : Variables α} {captured : Nat → Option α} {id : String} {rule : Rule α} {depth : Nat}
    (iterated : rule.haveRefTo depth vars captured id = some true) : RuleRefersTo vars captured id rule := by
  cases rule with
  | label block =>
    obtain ⟨entry,inBlock,entryTrue⟩ := List.mem_map.mp (anyRef_true iterated)
    have either := anyRef_true entryTrue
    simp only [List.mem_cons,List.not_mem_nil,or_false] at either
    rcases either with cond | rval
    · exact ⟨entry.cond,List.mem_flatMap.mpr ⟨entry,inBlock,by simp⟩,exprHaveRefTo_true cond.symm⟩
    · exact ⟨entry.ass.rval,List.mem_flatMap.mpr ⟨entry,inBlock,by simp⟩,exprHaveRefTo_true rval.symm⟩
  | trigger trigger =>
    rcases List.mem_cons.mp (anyRef_true iterated) with cond | inAss
    · exact ⟨trigger.cond,List.mem_cons_self,exprHaveRefTo_true cond.symm⟩
    · obtain ⟨ass,inTrigger,rvalTrue⟩ := List.mem_map.mp inAss
      exact ⟨ass.rval,List.mem_cons_of_mem _ (List.mem_map_of_mem inTrigger),exprHaveRefTo_true rvalTrue⟩

/-- What `iterateRules` decides about a rule. -/
theorem concerned_false [Gdouble α] [DecidableEq α] {env : Env α W} {key : Option String} {s : EngineState α W}
    {rule : Rule α} (passed : rule.concerned env key s = some false) :
    ∃ id, key = some id ∧ ¬ RuleRefersTo s.vars s.mem.captured id rule := by
  cases key with
  | none => simp [Rule.concerned] at passed
  | some id => exact ⟨id,rfl,haveRefTo_false passed⟩

section
variable {σ τ β γ : Type}

/-- The same end in another kind of state. -/
def onState (f : σ → τ) : Res σ β → Res τ β
  | .returned b s => .returned b (f s)
  | .failed e s => .failed e (f s)
  | .stopped s => .stopped (f s)

end

variable [Gdouble α]

/-- What the right-hand sides of the assignments evaluate to, in their order. -/
def readAssigns (env : Env α W) : List (Assign α) → EngineState α W →
    Res (EngineState α W) (List (Assign α × Except StError α))
  | [], s => .returned [] s
  | ass :: rest, s =>
    match evaluate env ass.rval s with
    | .returned v s => (readAssigns env rest s).andThen fun reads s => .returned ((ass,.ok v) :: reads) s
    | .failed error s => (readAssigns env rest s).andThen fun reads s => .returned ((ass,.error error) :: reads) s
    | .stopped s => .stopped s

/-- The assignments that the rule selects, with what their right-hand sides evaluate to;
    nothing is assigned. It fails where a condition does. -/
def reads (env : Env α W) : Rule α → EngineState α W → Res (EngineState α W) (List (Assign α × Except StError α))
  | .label block, s =>
    (labelBlockSelect env block.entries s).andThen fun selected s =>
      match selected with
      | none => .returned [] s
      | some entry => readAssigns env [entry.ass] s
  | .trigger trigger, s =>
    (evaluate env trigger.cond s).andThen fun condRes s =>
      if truth condRes then readAssigns env trigger.ass s else .returned [] s

/-- The state with another table of variables. -/
def withVars (vars : Variables α) (s : EngineState α W) : EngineState α W := { s with vars := vars }

def withIo (io : Io α) (env : Env α W) : Env α W := { env with io := io }

/-- States that agree with `s` in what the reference test looks at. -/
def Alike (s t : EngineState α W) : Prop := t.vars = s.vars ∧ t.mem.captured = s.mem.captured

variable {env : Env α W} {io' : Io α} {vars' : Variables α} {names : String → Prop} {s t : EngineState α W}

theorem evaluate_alike {e : Expr α} {v : α} (evaluated : evaluate env e s = .returned v t) : Alike s t := by
  unfold evaluate at evaluated
  split at evaluated
  · rename_i found
    cases evaluated
    exact ⟨rfl,exprEval_captured found (by simp)⟩
  · cases evaluated
  · cases evaluated
  · cases evaluated

theorem evaluate_failed_alike {e : Expr α} {error : StError} (evaluated : evaluate env e s = .failed error t) :
    Alike s t := by
  unfold evaluate at evaluated
  split at evaluated
  · cases evaluated
  · rename_i found
    cases evaluated
    exact ⟨rfl,exprEval_captured found (by simp)⟩
  · cases evaluated
  · cases evaluated

omit [Gdouble α] in
theorem Alike.trans {r : EngineState α W} (first : Alike s t) (second : Alike t r) : Alike s r :=
  ⟨second.1.trans first.1,second.2.trans first.2⟩

/-- An expression that reaches none of the names evaluates alike, error and memory
    included. -/
theorem evaluate_agree (agree : AgreeOff names env.io io' s.vars vars') {e : Expr α}
    (free : ¬ Reaches s.vars s.mem.captured names e) (alike : Alike s t) :
    evaluate (withIo io' env) e (withVars vars' t) = onState (withVars vars') (evaluate env e t) := by
  obtain ⟨sameVars,sameCaptured⟩ := alike
  rw [← sameVars] at agree free
  rw [← sameCaptured] at free
  have same := exprEval_agree agree free env.depth
  unfold evaluate
  simp only [withIo,withVars,← same]
  rcases exprEval env.depth env.io t.vars e t.mem with _ | ⟨_ | _ | _,_⟩ <;> rfl

theorem labelBlockSelect_agree (agree : AgreeOff names env.io io' s.vars vars') {entries : List (LabelEntry α)}
    (free : ∀ entry ∈ entries, ¬ Reaches s.vars s.mem.captured names entry.cond) (alike : Alike s t) :
    labelBlockSelect (withIo io' env) entries (withVars vars' t) =
      onState (withVars vars') (labelBlockSelect env entries t) := by
  induction entries generalizing t with
  | nil => rfl
  | cons entry rest ih =>
    simp only [labelBlockSelect,evaluate_agree agree (free entry List.mem_cons_self) alike]
    cases evaluated : evaluate env entry.cond t with
    | returned v u =>
      have later := alike.trans (evaluate_alike evaluated)
      simp only [onState,Res.andThen]
      split
      · rfl
      · exact ih (fun e member => free e (List.mem_cons_of_mem entry member)) later
    | failed => rfl
    | stopped => rfl

theorem readAssigns_agree (agree : AgreeOff names env.io io' s.vars vars') {asss : List (Assign α)}
    (free : ∀ ass ∈ asss, ¬ Reaches s.vars s.mem.captured names ass.rval) (alike : Alike s t) :
    readAssigns (withIo io' env) asss (withVars vars' t) =
      onState (withVars vars') (readAssigns env asss t) := by
  induction asss generalizing t with
  | nil => rfl
  | cons ass rest ih =>
    have others := fun a member => free a (List.mem_cons_of_mem ass member)
    simp only [readAssigns,evaluate_agree agree (free ass List.mem_cons_self) alike]
    cases evaluated : evaluate env ass.rval t with
    | returned v u =>
      simp only [onState,ih others (alike.trans (evaluate_alike evaluated))]
      cases readAssigns env rest u <;> rfl
    | failed error u =>
      simp only [onState,ih others (alike.trans (evaluate_failed_alike evaluated))]
      cases readAssigns env rest u <;> rfl
    | stopped => rfl

theorem labelBlockSelect_alike {entries : List (LabelEntry α)} {selected : Option (LabelEntry α)}
    (done : labelBlockSelect env entries s = .returned selected t) : Alike s t := by
  induction entries generalizing s with
  | nil =>
    cases done
    exact ⟨rfl,rfl⟩
  | cons entry rest ih =>
    simp only [labelBlockSelect] at done
    cases evaluated : evaluate env entry.cond s with
    | returned v u =>
      simp only [evaluated,Res.andThen] at done
      split at done
      · cases done
        exact evaluate_alike evaluated
      · exact (evaluate_alike evaluated).trans (ih done)
    | failed => simp [evaluated,Res.andThen] at done
    | stopped => simp [evaluated,Res.andThen] at done

theorem labelBlockSelect_mem {entries : List (LabelEntry α)} {entry : LabelEntry α}
    (done : labelBlockSelect env entries s = .returned (some entry) t) : entry ∈ entries := by
  induction entries generalizing s with
  | nil => cases done
  | cons first rest ih =>
    simp only [labelBlockSelect] at done
    cases evaluated : evaluate env first.cond s with
    | returned v u =>
      simp only [evaluated,Res.andThen] at done
      split at done
      · cases done
        exact List.mem_cons_self
      · exact List.mem_cons_of_mem _ (ih done)
    | failed => simp [evaluated,Res.andThen] at done
    | stopped => simp [evaluated,Res.andThen] at done

omit [Gdouble α] in
theorem cond_mem_exprs {block : LabelBlock α} {entry : LabelEntry α} (member : entry ∈ block.entries) :
    entry.cond ∈ exprs (.label block) := List.mem_flatMap.mpr ⟨entry,member,by simp⟩

omit [Gdouble α] in
theorem rval_mem_exprs {block : LabelBlock α} {entry : LabelEntry α} (member : entry ∈ block.entries) :
    entry.ass.rval ∈ exprs (.label block) := List.mem_flatMap.mpr ⟨entry,member,by simp⟩

/-- A rule that refers to none of the names selects the same assignments, evaluates
    their right-hand sides alike and fails alike. -/
theorem reads_agree (agree : AgreeOff names env.io io' s.vars vars') {rule : Rule α}
    (free : ¬ RuleReaches s.vars s.mem.captured names rule) :
    reads (withIo io' env) rule (withVars vars' s) = onState (withVars vars') (reads env rule s) := by
  have each : ∀ e ∈ exprs rule, ¬ Reaches s.vars s.mem.captured names e := fun e member inside => free ⟨e,member,inside⟩
  cases rule with
  | label block =>
    simp only [reads]
    rw [labelBlockSelect_agree agree (fun entry member => each _ (cond_mem_exprs member)) ⟨rfl,rfl⟩]
    cases selected : labelBlockSelect env block.entries s with
    | returned entry t =>
      have alike := labelBlockSelect_alike selected
      cases entry with
      | none => rfl
      | some entry =>
        simp only [onState,Res.andThen]
        refine readAssigns_agree agree (fun ass member => ?_) alike
        obtain rfl := List.mem_singleton.mp member
        exact each _ (rval_mem_exprs (labelBlockSelect_mem selected))
    | failed => rfl
    | stopped => rfl
  | trigger trigger =>
    simp only [reads]
    rw [evaluate_agree agree (each _ List.mem_cons_self) ⟨rfl,rfl⟩]
    cases evaluated : evaluate env trigger.cond s with
    | returned v t =>
      simp only [onState,Res.andThen]
      split
      · refine readAssigns_agree agree (fun ass member => ?_) (evaluate_alike evaluated)
        exact each _ (List.mem_cons_of_mem _ (List.mem_map_of_mem member))
      · rfl
    | failed => rfl
    | stopped => rfl

/-- Passing over a rule whose reference test answers FALSE misses nothing: whatever `id`
    comes to stand for, each expression of the rule evaluates as before, from any memory
    with these captured literals, and the rule selects the same assignments with the same
    values and errors. -/
theorem passed_over_unaffected {depth : Nat} {id : String} {rule : Rule α}
    (passed : rule.haveRefTo depth s.vars s.mem.captured id = some false)
    (agree : AgreeOff (· = id) env.io io' s.vars vars') :
    (∀ e ∈ exprs rule, ∀ t, Alike s t →
      evaluate (withIo io' env) e (withVars vars' t) = onState (withVars vars') (evaluate env e t)) ∧
    reads (withIo io' env) rule (withVars vars' s) = onState (withVars vars') (reads env rule s) := by
  have apart := haveRefTo_false passed
  constructor
  · exact fun e member t alike => evaluate_agree agree (fun inside => apart ⟨e,member,inside⟩) alike
  · exact reads_agree agree apart

/-- `lamp { SET level WHEN door == 1; }`. -/
private def lampRule : Rule ℚ :=
  .label ⟨[⟨.op .eq (.ref "door") (.literal 1),⟨"lamp",.ref "level",0⟩⟩]⟩

private def siren (val : ℚ) (flags : IoFlags) : IoObject ℚ := ⟨"siren","",0,0,10,1,val,flags⟩

private def sirenIo (val : ℚ) (flags : IoFlags) : Io ℚ :=
  ⟨fun id => if id = "siren" then some (siren val flags) else none,fun _ => none⟩

private def lampState : EngineState ℚ Unit :=
  ⟨fun id => if id = "level" then some (.ref "clock") else none,freshMem,(),[]⟩

private def lampEnv : Env ℚ Unit :=
  ⟨sirenIo 3 0,⟨fun w _ _ _ => (true,w),fun w _ _ _ => (true,w)⟩,9⟩

private theorem siren_agree :
    AgreeOff (· = "siren") lampEnv.io (sirenIo 7 stIoFlagUsr1) lampState.vars lampState.vars := by
  refine ⟨fun x apart => ?_,fun _ _ => rfl,fun _ _ => rfl⟩
  simp [lampEnv,sirenIo,apart]

theorem passed_over_unaffected_lamp :
    reads (withIo (sirenIo 7 stIoFlagUsr1) lampEnv) lampRule (withVars lampState.vars lampState) =
      onState (withVars lampState.vars) (reads lampEnv lampRule lampState) := by
  have passed : lampRule.haveRefTo 9 lampState.vars lampState.mem.captured "siren" = some false := rfl
  exact (passed_over_unaffected passed siren_agree).2

end Starter.Relevance
