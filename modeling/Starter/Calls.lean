import Starter.Accesses
import Starter.Lexer
import Starter.Operators

/-!
The calls of the rules. The action of a call only reports a wrong number of arguments and
an unknown name, and the one of an empty list of arguments makes no list; so what the
parser builds and what the evaluators read is in order exactly if the calls are.
-/
namespace Starter.Calls
open Gdouble Expressions Rules Grammar Syntax Actions Parsing Operators Accesses Lexer Lib.Lr Lib.Precedence

variable {α : Type}

/-- The list has an argument before its first comma. -/
def argsMade {β : Type} : Args β → Bool
  | .none => false
  | .one _ => true
  | .more before _ => argsMade before

def argsLength {β : Type} : Args β → Nat
  | .none => 0
  | .one _ => 1
  | .more before _ => argsLength before + 1

mutual
/-- Every call has a known name and a list of arguments, of a number that is right. -/
def OperandCalls (count : Func → Nat → Bool) : Operand α → Prop
  | .value _ => True
  | .ref _ => True
  | .flag _ _ => True
  | .parens e => ExpCalls count e
  | .minus a => OperandCalls count a
  | .call id args =>
    (∃ func, funcOf id = some func ∧ count func (argsLength args) = true) ∧ argsMade args = true ∧ ArgsCalls count args

def ExpCalls (count : Func → Nat → Bool) : Grouping Op (Operand α) → Prop
  | .leaf a => OperandCalls count a
  | .node _ left right => ExpCalls count left ∧ ExpCalls count right

def ArgsCalls (count : Func → Nat → Bool) : Args (Grouping Op (Operand α)) → Prop
  | .none => True
  | .one e => ExpCalls count e
  | .more before e => ArgsCalls count before ∧ ExpCalls count e
end

/-- What holds of every expression of an instruction. -/
def InstructionAll (P : Exp α → Prop) : Instruction α → Prop
  | .block _ _ entries => entries.all fun e => P e.rval ∧ P e.cond
  | .trigger cond ass => P cond ∧ ass.all fun a => P a.rval
  | .var _ none => True
  | .var _ (some e) => P e

/-- Every call of the program is one of a documented function with as many arguments as it needs. -/
def GoodCalls (p : Instructions α) : Prop := p.all (InstructionAll (ExpCalls neededCount))

/-- Numbers of arguments that nothing is asked of. -/
def anyCount (_ : Func) (_ : Nat) : Bool := true

mutual
theorem operand_any {count : Func → Nat → Bool} : ∀ a : Operand α, OperandCalls count a → OperandCalls anyCount a
  | .value _, _ => trivial
  | .ref _, _ => trivial
  | .flag _ _, _ => trivial
  | .parens e, calls => exp_any e calls
  | .minus a, calls => operand_any a calls
  | .call _ args, calls => by
    obtain ⟨⟨func,known,_⟩,listMade,inside⟩ := calls
    exact ⟨⟨func,known,rfl⟩,listMade,args_any args inside⟩

theorem exp_any {count : Func → Nat → Bool} : ∀ e : Grouping Op (Operand α), ExpCalls count e → ExpCalls anyCount e
  | .leaf a, calls => operand_any a calls
  | .node _ left right, calls => ⟨exp_any left calls.1,exp_any right calls.2⟩

theorem args_any {count : Func → Nat → Bool} :
    ∀ args : Args (Grouping Op (Operand α)), ArgsCalls count args → ArgsCalls anyCount args
  | .none, _ => trivial
  | .one e, calls => exp_any e calls
  | .more before e, calls => ⟨args_any before calls.1,exp_any e calls.2⟩
end

theorem many_all {β : Type} {P Q : β → Prop} (imp : ∀ x, P x → Q x) (m : Many β) (all : m.all P) : m.all Q := by
  induction m with
  | one x => exact imp x all
  | more before x ih => exact ⟨ih all.1,imp x all.2⟩

theorem instructionAll_mono {P Q : Exp α → Prop} (imp : ∀ e, P e → Q e) {i : Instruction α} (all : InstructionAll P i) :
    InstructionAll Q i := by
  cases i with
  | block id flag entries => exact many_all (fun _ both => ⟨imp _ both.1,imp _ both.2⟩) entries all
  | trigger cond ass => exact ⟨imp _ all.1,many_all (fun _ one => imp _ one) ass all.2⟩
  | var id init =>
    cases init with
    | none => trivial
    | some e => exact imp e all

/-- What holds of every expression in a value. -/
def Holds (P : Expr α → Prop) : Val α → Prop
  | .expr e => P e
  | .args es => ∀ e ∈ es, P e
  | .assign a => P a.rval
  | .assigns as => ∀ a ∈ as, P a.rval
  | .entry e => P e.ass.rval ∧ P e.cond
  | .entries es => ∀ e ∈ es, P e.ass.rval ∧ P e.cond
  | .block b => ∀ e ∈ b.entries, P e.ass.rval ∧ P e.cond
  | .trigger t => P t.cond ∧ ∀ a ∈ t.ass, P a.rval
  | _ => True

def IsExpr (v : Val α) : Prop := ∃ e, v = .expr e
def IsArgs (v : Val α) : Prop := ∃ es, v = .args es
def IsAssign (v : Val α) : Prop := ∃ a, v = .assign a
def IsAssigns (v : Val α) : Prop := ∃ as, v = .assigns as
def IsEntry (v : Val α) : Prop := ∃ e, v = .entry e
def IsEntries (v : Val α) : Prop := ∃ es, v = .entries es
def IsBlock (v : Val α) : Prop := ∃ b, v = .block b
def IsTrigger (v : Val α) : Prop := ∃ t, v = .trigger t

/-- What the actions of a part of the text do: where its calls are `made` they make a value of the right kind, whose
counts are right if the calls are `good`; else one of them reads what none has made, or the value is of another kind. -/
structure Spec (f : Build α → Val α × Build α) (is : Val α → Prop) (made good : Prop) : Prop where
  program : ∀ s, (f s).2.program = s.program
  mono : ∀ s, s.undefined = true → (f s).2.undefined = true
  makes : made → ∀ s, is (f s).1 ∧ (f s).2.undefined = s.undefined ∧ (Holds Counts (f s).1 ↔ good)
  breaks : ¬ made → ∀ s, (f s).2.undefined = true ∨ ¬ is (f s).1

section
variable [Gdouble α]

omit [Gdouble α] in
theorem call_keeps (id : String) (v : Val α) (s : Build α) :
    (call id v s).2.program = s.program ∧ (s.undefined = true → (call id v s).2.undefined = true) := by
  unfold call
  cases funcOf id with
  | none => exact ⟨rfl,fun before => before⟩
  | some func =>
    cases v with
    | args es =>
      dsimp only
      split_ifs
      · exact ⟨rfl,fun before => before⟩
      · exact ⟨rfl,fun before => before⟩
    | _ => exact ⟨rfl,fun _ => rfl⟩

theorem expAct_keeps (r : Rule) (vals : List (Val α)) (s : Build α) :
    (expAct r vals s).2.program = s.program ∧ (s.undefined = true → (expAct r vals s).2.undefined = true) := by
  unfold expAct
  split
  case h_7 => exact call_keeps _ _ _
  all_goals exact ⟨rfl,by simp [Build.readUnset]⟩

/-- Every rule but those that write the engine leaves it alone. -/
theorem act_keeps (r : Rule) (vals : List (Val α)) (s : Build α)
    (writes : r ∉ [Rule.labelBlock,.triggerStatement,.varDeclaration,.varInitialized]) :
    (act r vals s).2.program = s.program ∧ (s.undefined = true → (act r vals s).2.undefined = true) := by
  unfold act
  split
  case h_1 | h_2 | h_13 | h_14 => exact absurd writes (by decide)
  case h_20 => exact expAct_keeps _ _ _
  all_goals exact ⟨rfl,fun before => before⟩

theorem args_length {args : Args (Exp α)} {s : Build α} {es : List (Expr α)} (made : (argsBuild args s).1 = .args es) :
    es.length = argsLength args := by
  induction args generalizing es with
  | none => cases made
  | one e =>
    rw [argsBuild] at made
    cases v : (expBuild e s).1 <;> rw [v] at made <;> cases made
    rfl
  | more before e ih =>
    rw [argsBuild] at made
    cases v : (argsBuild before s).1 <;> rw [v] at made
    case args es' =>
      cases w : (expBuild e (argsBuild before s).2).1 <;> rw [w] at made <;> cases made
      rw [List.length_append,ih v]
      rfl
    all_goals
      cases w : (expBuild e (argsBuild before s).2).1 <;> rw [w] at made <;> cases made

omit [Gdouble α] in
theorem countsAll_iff (es : List (Expr α)) : CountsAll es ↔ ∀ e ∈ es, Counts e := by
  induction es with
  | nil => simp [CountsAll]
  | cons e es ih => simp [CountsAll,ih]

/-- One action after one part: it uses a value of the right kind, and a value of another kind shows. -/
theorem spec_one {f : Build α → Val α × Build α} {is is' : Val α → Prop} {made good : Prop} (r : Rule) (vals : Val α → List (Val α))
    (spec : Spec f is made good) (writes : r ∉ [Rule.labelBlock,.triggerStatement,.varDeclaration,.varInitialized])
    (uses : ∀ v s, is v → is' (act r (vals v) s).1 ∧ (act r (vals v) s).2.undefined = s.undefined ∧
      (Holds Counts (act r (vals v) s).1 ↔ Holds Counts v))
    (shows : ∀ v s, ¬ is v → (act r (vals v) s).2.undefined = true ∨ ¬ is' (act r (vals v) s).1) :
    Spec (fun s => act r (vals (f s).1) (f s).2) is' made good where
  program s := (act_keeps r _ _ writes).1.trans (spec.program s)
  mono s before := (act_keeps r _ _ writes).2 (spec.mono s before)
  makes isMade s := by
    obtain ⟨isKind,same,counts⟩ := spec.makes isMade s
    obtain ⟨isKind',same',counts'⟩ := uses (f s).1 (f s).2 isKind
    exact ⟨isKind',same'.trans same,counts'.trans counts⟩
  breaks notMade s := by
    rcases spec.breaks notMade s with broken | other
    · exact .inl ((act_keeps r _ _ writes).2 broken)
    · exact shows _ _ other

/-- One action after two parts. -/
theorem spec_two {f g : Build α → Val α × Build α} {is is₁ is₂ : Val α → Prop} {made₁ made₂ good₁ good₂ : Prop} (r : Rule)
    (vals : Val α → Val α → List (Val α)) (spec₁ : Spec f is₁ made₁ good₁) (spec₂ : Spec g is₂ made₂ good₂)
    (writes : r ∉ [Rule.labelBlock,.triggerStatement,.varDeclaration,.varInitialized])
    (uses : ∀ v w s, is₁ v → is₂ w → is (act r (vals v w) s).1 ∧ (act r (vals v w) s).2.undefined = s.undefined ∧
      (Holds Counts (act r (vals v w) s).1 ↔ Holds Counts v ∧ Holds Counts w))
    (shows : ∀ v w s, ¬ is₁ v ∨ ¬ is₂ w → (act r (vals v w) s).2.undefined = true ∨ ¬ is (act r (vals v w) s).1) :
    Spec (fun s => act r (vals (f s).1 (g (f s).2).1) (g (f s).2).2) is (made₁ ∧ made₂) (good₁ ∧ good₂) where
  program s := (act_keeps r _ _ writes).1.trans ((spec₂.program _).trans (spec₁.program s))
  mono s before := (act_keeps r _ _ writes).2 (spec₂.mono _ (spec₁.mono s before))
  makes isMade s := by
    obtain ⟨isKind₁,same₁,counts₁⟩ := spec₁.makes isMade.1 s
    obtain ⟨isKind₂,same₂,counts₂⟩ := spec₂.makes isMade.2 (f s).2
    obtain ⟨isKind,same,counts⟩ := uses (f s).1 (g (f s).2).1 (g (f s).2).2 isKind₁ isKind₂
    exact ⟨isKind,same.trans (same₂.trans same₁),counts.trans (and_congr counts₁ counts₂)⟩
  breaks notMade s := by
    by_cases first : made₁
    · rcases spec₂.breaks (fun second => notMade ⟨first,second⟩) (f s).2 with broken | other
      · exact .inl ((act_keeps r _ _ writes).2 broken)
      · exact shows _ _ _ (.inr other)
    · rcases spec₁.breaks first s with broken | other
      · exact .inl ((act_keeps r _ _ writes).2 (spec₂.mono _ broken))
      · exact shows _ _ _ (.inl other)

/-- A call: its name has to be known, and its list made; the numbers of arguments are compared later. -/
theorem call_spec {args : Args (Exp α)} {made good : Prop} (id : String) (spec : Spec (argsBuild args) IsArgs made good) :
    Spec (fun s => act .call [.sval id,.unset,(argsBuild args s).1,.unset] (argsBuild args s).2) IsExpr
      ((∃ func, funcOf id = some func) ∧ made)
      ((∃ func, funcOf id = some func ∧ neededCount func (argsLength args) = true) ∧ good) where
  program s := (act_keeps _ _ _ (by decide)).1.trans (spec.program s)
  mono s before := (act_keeps _ _ _ (by decide)).2 (spec.mono s before)
  makes isMade s := by
    obtain ⟨⟨func,known⟩,isMade⟩ := isMade
    obtain ⟨⟨es,list⟩,same,counts⟩ := spec.makes isMade s
    have length := args_length list
    rw [list] at counts ⊢
    have built : act .call [.sval id,.unset,.args es,.unset] (argsBuild args s).2 = call id (.args es) (argsBuild args s).2 := rfl
    simp only [built,call,known]
    refine ⟨⟨_,rfl⟩,?_,?_⟩
    · split_ifs
      · exact same
      · exact same
    · simp only [Holds,Counts,countsAll_iff,← counts,length,Option.some_inj,exists_eq_left']
  breaks notMade s := by
    have built : ∀ v, act .call [.sval id,.unset,v,.unset] (argsBuild args s).2 = call id v (argsBuild args s).2 := fun _ => rfl
    rw [built]
    cases known : funcOf id with
    | none =>
      right
      rintro ⟨e,isExpr⟩
      simp only [call,known] at isExpr
      cases isExpr
    | some func =>
      left
      rcases spec.breaks (fun isMade => notMade ⟨⟨func,known⟩,isMade⟩) s with broken | other
      · exact (call_keeps _ _ _).2 broken
      · simp only [call,known]
        cases list : (argsBuild args s).1 with
        | args es => exact absurd ⟨es,list⟩ other
        | _ => rfl

omit [Gdouble α] in
theorem spec_congr {f : Build α → Val α × Build α} {is : Val α → Prop} {made made' good good' : Prop} (spec : Spec f is made good)
    (same : made ↔ made') (counts : made → (good ↔ good')) : Spec f is made' good' where
  program := spec.program
  mono := spec.mono
  makes isMade s := by
    obtain ⟨isKind,unchanged,holds⟩ := spec.makes (same.mpr isMade) s
    exact ⟨isKind,unchanged,holds.trans (counts (same.mpr isMade))⟩
  breaks notMade := spec.breaks fun isMade => notMade (same.mp isMade)

omit [Gdouble α] in
theorem spec_leaf {f : Build α → Val α × Build α} {e : Expr α} (made : ∀ s, f s = (.expr e,s)) (counts : Counts e) :
    Spec f IsExpr True True where
  program s := by rw [made]
  mono s before := by rw [made]; exact before
  makes _ s := by
    rw [made]
    exact ⟨⟨e,rfl⟩,rfl,iff_true_intro counts⟩
  breaks notMade := absurd trivial notMade

mutual
theorem operand_spec : ∀ a : Operand α,
    Spec (operandBuild a) IsExpr (OperandCalls anyCount a) (OperandCalls neededCount a)
  | .value v => spec_leaf (fun _ => rfl) trivial
  | .ref id => spec_leaf (fun _ => rfl) trivial
  | .flag id bit => spec_leaf (fun _ => rfl) trivial
  | .parens e => by
    refine spec_one .parentheses (fun v => [.unset,v,.unset]) (exp_spec e) (by decide) ?_ ?_
    · exact fun v s isExpr => ⟨isExpr,rfl,Iff.rfl⟩
    · exact fun v s other => .inr other
  | .minus a => by
    refine spec_one .minus (fun v => [.unset,v]) (operand_spec a) (by decide) ?_ ?_
    · rintro _ s ⟨e,rfl⟩
      exact ⟨⟨_,rfl⟩,rfl,by simp [act,expAct,Holds,Counts]⟩
    · intro v s other
      cases v with
      | expr e => exact absurd ⟨e,rfl⟩ other
      | _ => exact .inl rfl
  | .call id args => by
    refine spec_congr (call_spec id (args_spec args)) (by simp [OperandCalls,anyCount]) ?_
    rintro ⟨_,listMade,_⟩
    simp [OperandCalls,listMade]

theorem exp_spec : ∀ e : Grouping Op (Operand α), Spec (expBuild e) IsExpr (ExpCalls anyCount e) (ExpCalls neededCount e)
  | .leaf a => operand_spec a
  | .node op left right => by
    refine spec_two (.binary op) (fun v w => [v,.unset,w]) (exp_spec left) (exp_spec right) (by simp) ?_ ?_
    · rintro _ _ s ⟨e,rfl⟩ ⟨e',rfl⟩
      exact ⟨⟨_,rfl⟩,rfl,Iff.rfl⟩
    · intro v w s other
      cases v with
      | expr e =>
        cases w with
        | expr e' => exact absurd other (by simp [IsExpr])
        | _ => exact .inl rfl
      | _ => exact .inl rfl

theorem args_spec : ∀ args : Args (Grouping Op (Operand α)),
    Spec (argsBuild args) IsArgs (argsMade args = true ∧ ArgsCalls anyCount args) (ArgsCalls neededCount args)
  | .none => by
    refine ⟨fun _ => rfl,fun _ before => before,fun made => absurd made.1 (by simp [argsMade]),fun _ s => .inr ?_⟩
    rintro ⟨es,list⟩
    cases list
  | .one e => by
    refine spec_congr (spec_one .argumentsOne (fun v => [v]) (exp_spec e) (by decide) ?_ ?_) (by simp [argsMade,ArgsCalls])
      fun _ => Iff.rfl
    · rintro _ s ⟨e,rfl⟩
      exact ⟨⟨_,rfl⟩,rfl,by simp [act,expAct,Holds]⟩
    · intro v s other
      cases v with
      | expr e => exact absurd ⟨e,rfl⟩ other
      | _ => exact .inl rfl
  | .more before e => by
    refine spec_congr (spec_two .argumentsMore (fun v w => [v,.unset,w]) (args_spec before) (exp_spec e) (by decide) ?_ ?_)
      (by simp [argsMade,ArgsCalls,and_assoc]) fun _ => Iff.rfl
    · rintro _ _ s ⟨es,rfl⟩ ⟨e,rfl⟩
      exact ⟨⟨_,rfl⟩,rfl,by simp [act,expAct,Holds,or_imp,forall_and]⟩
    · intro v w s other
      cases v with
      | args es =>
        cases w with
        | expr e' => exact absurd other (by simp [IsExpr,IsArgs])
        | _ => exact .inl rfl
      | _ => exact .inl rfl
end

theorem assignment_spec (a : Assignment α) :
    Spec (assignmentBuild a) IsAssign (ExpCalls anyCount a.rval) (ExpCalls neededCount a.rval) := by
  obtain ⟨id,flag,rval⟩ := a
  cases flag with
  | none =>
    refine spec_one .assignment (fun v => [.sval id,.unset,v]) (exp_spec rval) (by decide) ?_ ?_
    · rintro _ s ⟨e,rfl⟩
      exact ⟨⟨_,rfl⟩,rfl,Iff.rfl⟩
    · intro v s other
      cases v with
      | expr e => exact absurd ⟨e,rfl⟩ other
      | _ => exact .inl rfl
  | some bit =>
    refine spec_one .flagAssignment (fun v => [.sval id,.unset,.uval bit,.unset,v]) (exp_spec rval) (by decide) ?_ ?_
    · rintro _ s ⟨e,rfl⟩
      exact ⟨⟨_,rfl⟩,rfl,Iff.rfl⟩
    · intro v s other
      cases v with
      | expr e => exact absurd ⟨e,rfl⟩ other
      | _ => exact .inl rfl

theorem entry_spec (e : Entry α) : Spec (entryBuild e) IsEntry (ExpCalls anyCount e.rval ∧ ExpCalls anyCount e.cond)
    (ExpCalls neededCount e.rval ∧ ExpCalls neededCount e.cond) := by
  refine spec_two .entry (fun v w => [.unset,v,.unset,w,.unset]) (exp_spec e.rval) (exp_spec e.cond) (by decide) ?_ ?_
  · rintro _ _ s ⟨rval,rfl⟩ ⟨cond,rfl⟩
    exact ⟨⟨_,rfl⟩,rfl,Iff.rfl⟩
  · intro v w s other
    cases v with
    | expr rval =>
      cases w with
      | expr cond => exact absurd other (by simp [IsExpr])
      | _ => exact .inl rfl
    | _ => exact .inl rfl

theorem entries_spec (es : Many (Entry α)) : Spec (manyBuild .entriesOne .entriesMore [] entryBuild es) IsEntries
    (es.all fun e => ExpCalls anyCount e.rval ∧ ExpCalls anyCount e.cond)
    (es.all fun e => ExpCalls neededCount e.rval ∧ ExpCalls neededCount e.cond) := by
  induction es with
  | one e =>
    refine spec_one .entriesOne (fun v => [v]) (entry_spec e) (by decide) ?_ ?_
    · rintro _ s ⟨e,rfl⟩
      exact ⟨⟨_,rfl⟩,rfl,by simp [act,Holds]⟩
    · intro v s other
      cases v with
      | entry e => exact absurd ⟨e,rfl⟩ other
      | _ => exact .inl rfl
  | more before e ih =>
    refine spec_two .entriesMore (fun v w => [v,w]) ih (entry_spec e) (by decide) ?_ ?_
    · rintro _ _ s ⟨es,rfl⟩ ⟨e,rfl⟩
      exact ⟨⟨_,rfl⟩,rfl,by simp only [act,Holds,List.forall_mem_append,List.forall_mem_singleton]⟩
    · intro v w s other
      cases v with
      | entries es =>
        cases w with
        | entry e => exact absurd other (by simp [IsEntry,IsEntries])
        | _ => exact .inl rfl
      | _ => exact .inl rfl

theorem assignments_spec (as : Many (Assignment α)) :
    Spec (manyBuild .assignmentsOne .assignmentsMore [.unset] assignmentBuild as) IsAssigns
      (as.all fun a => ExpCalls anyCount a.rval) (as.all fun a => ExpCalls neededCount a.rval) := by
  induction as with
  | one a =>
    refine spec_one .assignmentsOne (fun v => [v]) (assignment_spec a) (by decide) ?_ ?_
    · rintro _ s ⟨a,rfl⟩
      exact ⟨⟨_,rfl⟩,rfl,by simp [act,Holds]⟩
    · intro v s other
      cases v with
      | assign a => exact absurd ⟨a,rfl⟩ other
      | _ => exact .inl rfl
  | more before a ih =>
    refine spec_two .assignmentsMore (fun v w => [v,.unset,w]) ih (assignment_spec a) (by decide) ?_ ?_
    · rintro _ _ s ⟨as,rfl⟩ ⟨a,rfl⟩
      exact ⟨⟨_,rfl⟩,rfl,by simp only [act,Holds,List.forall_mem_append,List.forall_mem_singleton]⟩
    · intro v w s other
      cases v with
      | assigns as =>
        cases w with
        | assign a => exact absurd other (by simp [IsAssign,IsAssigns])
        | _ => exact .inl rfl
      | _ => exact .inl rfl

end

/-- The conditions and right-hand sides of a program, those of the declarations included. -/
def exprs (p : Program α) : List (Expr α) :=
  p.engine.labels.flatMap (fun b => b.entries.flatMap fun e => [e.ass.rval,e.cond]) ++
    (p.engine.triggers.flatMap (fun t => t.cond :: t.ass.map Assign.rval) ++ p.decls.map Prod.snd)

theorem forall_exprs {P : Expr α → Prop} {p : Program α} : (∀ e ∈ exprs p, P e) ↔
    (∀ b ∈ p.engine.labels, ∀ e ∈ b.entries, P e.ass.rval ∧ P e.cond) ∧
      (∀ t ∈ p.engine.triggers, P t.cond ∧ ∀ a ∈ t.ass, P a.rval) ∧ ∀ decl ∈ p.decls, P decl.2 := by
  simp only [exprs,List.forall_mem_append,List.forall_mem_flatMap,List.forall_mem_cons,List.forall_mem_map]
  simp

/-- What an instruction does to the engine. -/
structure Adds (f : Build α → Build α) (made good : Prop) : Prop where
  mono : ∀ s, s.undefined = true → (f s).undefined = true
  makes : made → ∀ s, (f s).undefined = s.undefined ∧
    ((∀ e ∈ exprs (f s).program, Counts e) ↔ (∀ e ∈ exprs s.program, Counts e) ∧ good)
  breaks : ¬ made → ∀ s, (f s).undefined = true

theorem spec_adds {f : Build α → Val α × Build α} {is : Val α → Prop} {made good : Prop} (write : Val α → Build α → Build α)
    (spec : Spec f is made good) (mono : ∀ v s, s.undefined = true → (write v s).undefined = true)
    (uses : ∀ v s, is v → (write v s).undefined = s.undefined ∧
      ((∀ e ∈ exprs (write v s).program, Counts e) ↔ (∀ e ∈ exprs s.program, Counts e) ∧ Holds Counts v))
    (shows : ∀ v s, ¬ is v → (write v s).undefined = true) : Adds (fun s => write (f s).1 (f s).2) made good where
  mono s before := mono _ _ (spec.mono s before)
  makes isMade s := by
    obtain ⟨isKind,same,counts⟩ := spec.makes isMade s
    obtain ⟨same',counts'⟩ := uses _ (f s).2 isKind
    refine ⟨same'.trans same,?_⟩
    rw [counts',counts,spec.program]
  breaks notMade s := by
    rcases spec.breaks notMade s with broken | other
    · exact mono _ _ broken
    · exact shows _ _ other

section
variable [Gdouble α]

theorem act_mono (r : Rule) (vals : List (Val α)) (s : Build α) (before : s.undefined = true) :
    (act r vals s).2.undefined = true := by
  unfold act
  split
  case h_20 => exact (expAct_keeps _ _ _).2 before
  all_goals exact before

/-- `label_block`: the block of the entries is added to the engine. -/
theorem block_adds {f : Build α → Val α × Build α} {made good : Prop} (spec : Spec f IsBlock made good) :
    Adds (fun s => (act .labelBlock [(f s).1] (f s).2).2) made good := by
  refine spec_adds (fun v s => (act .labelBlock [v] s).2) spec (fun v s => act_mono _ _ s) ?_ ?_
  · rintro _ s ⟨b,rfl⟩
    refine ⟨rfl,?_⟩
    simp only [forall_exprs,act,Build.program,Holds,List.forall_mem_append,List.forall_mem_singleton]
    tauto
  · intro v s other
    cases v with
    | block b => exact absurd ⟨b,rfl⟩ other
    | _ => rfl

theorem trigger_adds {f : Build α → Val α × Build α} {made good : Prop} (spec : Spec f IsTrigger made good) :
    Adds (fun s => (act .triggerStatement [(f s).1] (f s).2).2) made good := by
  refine spec_adds (fun v s => (act .triggerStatement [v] s).2) spec (fun v s => act_mono _ _ s) ?_ ?_
  · rintro _ s ⟨t,rfl⟩
    refine ⟨rfl,?_⟩
    simp only [forall_exprs,act,Build.program,Holds,List.forall_mem_append,List.forall_mem_singleton]
    tauto
  · intro v s other
    cases v with
    | trigger t => exact absurd ⟨t,rfl⟩ other
    | _ => rfl

theorem instruction_adds (i : Instruction α) : Adds (fun s => (instructionBuild i s).2) (InstructionAll (ExpCalls anyCount) i)
    (InstructionAll (ExpCalls neededCount) i) := by
  cases i with
  | block id flag entries =>
    cases flag with
    | none =>
      refine block_adds (spec_one .block (fun v => [.sval id,.unset,v,.unset]) (entries_spec entries) (by decide) ?_ ?_)
      · rintro _ s ⟨es,rfl⟩
        exact ⟨⟨_,rfl⟩,rfl,by simp [act,Holds,labelBlockNew]⟩
      · intro v s other
        cases v with
        | entries es => exact absurd ⟨es,rfl⟩ other
        | _ => exact .inl rfl
    | some bit =>
      refine block_adds (spec_one .flagBlock (fun v => [.sval id,.unset,.uval bit,.unset,v,.unset]) (entries_spec entries)
        (by decide) ?_ ?_)
      · rintro _ s ⟨es,rfl⟩
        exact ⟨⟨_,rfl⟩,rfl,by simp [act,Holds,labelBlockNew]⟩
      · intro v s other
        cases v with
        | entries es => exact absurd ⟨es,rfl⟩ other
        | _ => exact .inl rfl
  | trigger cond ass =>
    refine trigger_adds (spec_two .trigger (fun v w => [.unset,.unset,v,.unset,w,.unset]) (exp_spec cond)
      (assignments_spec ass) (by decide) ?_ ?_)
    · rintro _ _ s ⟨e,rfl⟩ ⟨as,rfl⟩
      exact ⟨⟨_,rfl⟩,rfl,Iff.rfl⟩
    · intro v w s other
      cases v with
      | expr e =>
        cases w with
        | assigns as => exact absurd other (by simp [IsExpr,IsAssigns])
        | _ => exact .inl rfl
      | _ => exact .inl rfl
  | var id init =>
    cases init with
    | none =>
      refine ⟨fun _ before => before,fun _ s => ⟨rfl,?_⟩,fun notMade => absurd trivial notMade⟩
      simp only [forall_exprs,instructionBuild,act,Build.program,List.forall_mem_append,List.forall_mem_singleton,Counts,
        InstructionAll,and_true]
    | some e =>
      refine spec_adds (fun v s => (act .declaration [(act .varInitialized [.unset,.sval id,.unset,v,.unset] s).1]
        (act .varInitialized [.unset,.sval id,.unset,v,.unset] s).2).2) (exp_spec e) ?_ ?_ ?_
      · exact fun v s before => act_mono _ _ _ (act_mono _ _ _ before)
      · rintro _ s ⟨e,rfl⟩
        refine ⟨rfl,?_⟩
        simp only [forall_exprs,act,Build.program,Holds,List.forall_mem_append,List.forall_mem_singleton]
        tauto
      · intro v s other
        cases v with
        | expr e => exact absurd ⟨e,rfl⟩ other
        | _ => rfl

/-- What the whole of the program does to the engine. -/
theorem instructions_adds (p : Instructions α) :
    Adds (instructionsBuild p) (p.all (InstructionAll (ExpCalls anyCount))) (GoodCalls p) := by
  induction p with
  | one i => exact instruction_adds i
  | more before i ih =>
    have last := instruction_adds i
    refine ⟨fun s undef => last.mono _ (ih.mono s undef),fun made s => ?_,fun notMade s => ?_⟩
    · obtain ⟨same,counts⟩ := ih.makes made.1 s
      obtain ⟨same',counts'⟩ := last.makes made.2 (instructionsBuild before s)
      exact ⟨same'.trans same,counts'.trans ((and_congr_left' counts).trans and_assoc)⟩
    · by_cases first : before.all (InstructionAll (ExpCalls anyCount))
      · exact last.breaks (fun second => notMade ⟨first,second⟩) _
      · exact last.mono _ (ih.breaks first s)

/-- An evaluation: the state of the mirrored objects and of the variables, and the expression. -/
structure Evaluation (α : Type) where
  depth : Nat
  io : Io α
  vars : Variables α
  e : Expr α

/-- The expression is one of the program, and so are those of the variables, unless they are literals. -/
def Evaluation.Of (p : Program α) (c : Evaluation α) : Prop :=
  c.e ∈ exprs p ∧ ∀ id e, c.vars id = some e → e ∈ exprs p ∨ ∃ v, e = .literal v

/-- The accesses of a sequence of evaluations, each on what the ones before have left in the nodes. -/
def accesses : List (Evaluation α) → Mem α → List Access
  | [], _ => []
  | c :: rest, m =>
    (exprTraced c.depth c.io c.vars c.e m).1 ++
      match (exprTraced c.depth c.io c.vars c.e m).2 with
      | some (_,m) => accesses rest m
      | none => []

/-- What the parser has built can be relied on: every function node has the number of arguments that its evaluator needs,
no action has read what none has made, and no evaluation reads past the end of an array or writes another literal than
the one of the node itself. -/
structure Sound (after : Build α) : Prop where
  counts : ∀ e ∈ exprs after.program, Counts e
  produced : after.undefined = false
  accesses : ∀ calls : List (Evaluation α), (∀ c ∈ calls, c.Of after.program) → ∀ a ∈ accesses calls freshMem, a.Ok

theorem accesses_ok {p : Program α} (counts : ∀ e ∈ exprs p, Counts e) {calls : List (Evaluation α)}
    (of : ∀ c ∈ calls, c.Of p) (m : Mem α) : ∀ a ∈ accesses calls m, a.Ok := by
  induction calls generalizing m with
  | nil =>
    intro a none
    cases none
  | cons c rest ih =>
    obtain ⟨evaluated,stored⟩ := of c List.mem_cons_self
    have table : ∀ id e, c.vars id = some e → Counts e := by
      intro id e found
      rcases stored id e found with inProgram | ⟨v,rfl⟩
      · exact counts e inProgram
      · trivial
    have safe : Safe (exprTraced c.depth c.io c.vars c.e) := exprTraced_safe c.depth (counts c.e evaluated) table
    intro a member
    rcases List.mem_append.mp member with first | later
    · exact safe m a first
    · cases result : (exprTraced c.depth c.io c.vars c.e m).2 with
      | none =>
        rw [result] at later
        cases later
      | some next =>
        rw [result] at later
        exact ih (fun other member => of other (List.mem_cons_of_mem _ member)) next.2 a later

theorem parses_program {text : List Char} {p : Instructions α} (fine : p.Fine) (tokens : p.tokens .mul = lex text)
    (need : instructionsNeed p < 9999) : Parses (lex text) (instructionsBuild p emptyBuild) := by
  rw [Parses,← tokens]
  refine accepts_instructions p fine fun n le => ?_
  simp only [stackRoom,decide_eq_true_eq]
  omega

/-- What the actions of a program build is sound if its calls are good, and only then. -/
theorem instructionsBuild_sound (p : Instructions α) : Sound (instructionsBuild p emptyBuild) ↔ GoodCalls p := by
  have adds := instructions_adds p
  constructor
  · intro sound
    by_cases made : p.all (InstructionAll (ExpCalls anyCount))
    · exact ((adds.makes made emptyBuild).2.mp sound.counts).2
    · have broken := adds.breaks made emptyBuild
      rw [sound.produced] at broken
      cases broken
  · intro good
    obtain ⟨same,counts⟩ := adds.makes (many_all (fun _ => instructionAll_mono exp_any) p good) emptyBuild
    have all : ∀ e ∈ exprs (instructionsBuild p emptyBuild).program, Counts e := counts.mpr ⟨by simp [exprs,emptyBuild,Build.program],good⟩
    exact ⟨all,same,fun calls of => accesses_ok all of freshMem⟩

/-- What `yyparse` has built of a text that it accepts is sound exactly if every call in it is one of a known function,
with as many arguments as that needs. -/
theorem parses_sound_iff (text : List Char) (after : Build α) (parses : Parses (lex text) after) :
    Sound after ↔ ∃ p : Instructions α, p.Fine ∧ p.tokens .mul = lex text ∧ GoodCalls p := by
  obtain ⟨p,fine,tokens,rfl⟩ := accepts_only lex_inner parses
  rw [instructionsBuild_sound]
  constructor
  · exact fun good => ⟨p,fine,tokens,good⟩
  · rintro ⟨p',fine',tokens',good⟩
    rw [← instructionsBuild_sound,instructionsBuild_congr fine fine' (tokens.trans tokens'.symm)]
    exact (instructionsBuild_sound p').mpr good

end

/-- `VAR v = LIMIT(1);`. -/
def limitProgram : Instructions ℚ := .one (.var "v" (some (.leaf (.call "LIMIT" (.one (.leaf (.value (ofRat (atof ['1'])))))))))

theorem limit_parses : Parses (lex "VAR v = LIMIT(1);".toList) (instructionsBuild limitProgram emptyBuild) := by
  have words : lexWords "VAR v = LIMIT(1);".toList = [.keyVar,.identifier "v",.assign,.identifier "LIMIT",.parenOpen,
      .value (.number ['1']),.parenClose,.semicolon] := by decide +kernel
  refine parses_program trivial ?_ (by decide)
  rw [lex,words]
  rfl

theorem parses_sound_limit : Sound (instructionsBuild limitProgram emptyBuild) ↔
    ∃ p : Instructions ℚ, p.Fine ∧ p.tokens .mul = lex "VAR v = LIMIT(1);".toList ∧ GoodCalls p :=
  parses_sound_iff _ _ limit_parses

/-- `LIMIT(1)` is accepted, as a node with one argument. -/
theorem limit_unsound : ∃ after : Build ℚ, Parses (lex "VAR v = LIMIT(1);".toList) after ∧ ¬ Sound after := by
  refine ⟨_,limit_parses,?_⟩
  rw [instructionsBuild_sound]
  rintro ⟨⟨func,known,count⟩,_⟩
  cases known
  exact absurd count (by decide)

end Starter.Calls
