import Starter.Spelling

/-!
What is printed is read back. The text of a tree is that of a syntax tree with every operand of
an operator in parentheses, and the parser builds of it a tree that is equal to the first one.
So does it of a printed rule, as long as its stack is deep enough for the parentheses.
-/
namespace Starter.RoundTrip
open Gdouble Expressions Rules Grammar Syntax Actions Parsing Operators Accesses Calls Lexer Printing FiniteGdouble Spelling
  Lib.Lr Lib.Precedence

variable {α : Type}

mutual
/-- Two trees that are alike but for the addresses of their nodes. -/
def Alike : Expr α → Expr α → Prop
  | .literal v, .literal v' => v = v'
  | .op o left right, .op o' left' right' => o = o' ∧ Alike left left' ∧ Alike right right'
  | .ref id, .ref id' => id = id'
  | .func _ func args, .func _ func' args' => func = func' ∧ AlikeAll args args'
  | .flag id bit, .flag id' bit' => id = id' ∧ bit = bit'
  | _, _ => False

def AlikeAll : List (Expr α) → List (Expr α) → Prop
  | [], [] => True
  | e :: es, e' :: es' => Alike e e' ∧ AlikeAll es es'
  | _, _ => False
end

/-- Assignments of related right-hand sides to the same value or flag. -/
structure AssignBy (rel : Expr α → Expr α → Prop) (a a' : Assign α) : Prop where
  id : a.id = a'.id
  rval : rel a.rval a'.rval
  flagBit : a.flagBit = a'.flagBit

structure EntryBy (rel : Expr α → Expr α → Prop) (e e' : LabelEntry α) : Prop where
  cond : rel e.cond e'.cond
  ass : AssignBy rel e.ass e'.ass

structure TriggerBy (rel : Expr α → Expr α → Prop) (t t' : Trigger α) : Prop where
  cond : rel t.cond t'.cond
  ass : List.Forall₂ (AssignBy rel) t.ass t'.ass

theorem alikeAll_length : ∀ {es es' : List (Expr α)}, AlikeAll es es' → es.length = es'.length
  | [], [], _ => rfl
  | _ :: _, _ :: _, alike => congrArg (· + 1) (alikeAll_length alike.2)

/-! The syntax trees of what is printed. -/

def argsOf {β : Type} : List β → Args β
  | [] => .none
  | e :: es => es.foldl .more (.one e)

def manyOf {β : Type} (first : β) (rest : List β) : Many β := rest.foldl .more (.one first)

mutual
def printed : Expr α → Exp α
  | .literal v => .leaf (.value v)
  | .op o left right => .node o (.leaf (.parens (printed left))) (.leaf (.parens (printed right)))
  | .ref id => .leaf (.ref id)
  | .func _ func args => .leaf (.call (funcId func) (argsOf (printedAll args)))
  | .flag id bit => .leaf (.flag id bit)

def printedAll : List (Expr α) → List (Exp α)
  | [] => []
  | e :: es => printed e :: printedAll es
end

/-- The flag of an assignment of a flag. -/
def flagOf (bit : IoFlags) : Option IoFlags := if bit ≠ 0 then some bit else none

def printedAssign (a : Assign α) : Assignment α := ⟨a.id,flagOf a.flagBit,printed a.rval⟩

def printedVar (id : String) (e : Expr α) : Instruction α := .var id (some (printed e))

def printedEntry (e : LabelEntry α) : Instruction α :=
  .block e.ass.id (flagOf e.ass.flagBit) (.one ⟨printed e.ass.rval,printed e.cond⟩)

def printedTrigger (cond : Expr α) (first : Assign α) (rest : List (Assign α)) : Instruction α :=
  .trigger (printed cond) (manyOf (printedAssign first) (rest.map printedAssign))

theorem argsTokens_more (es : List (Exp α)) (before : Args (Exp α)) : argsTokens .mul (es.foldl .more before) =
    argsTokens .mul before ++ (es.map (expTokens .mul)).flatMap fun tokens => .comma :: tokens := by
  induction es generalizing before with
  | nil => simp
  | cons e es ih =>
    rw [List.foldl_cons,ih,argsTokens]
    simp

theorem argsTokens_argsOf (es : List (Exp α)) : argsTokens .mul (argsOf es) = commaTokens (es.map (expTokens .mul)) := by
  cases es with
  | nil => rfl
  | cons e es => exact argsTokens_more es (.one e)

theorem manyTokens_manyOf {β : Type} (each : β → List (Token α)) (first : β) (rest : List β) :
    (manyOf first rest).tokens each [.comma] = commaTokens ((first :: rest).map each) := by
  suffices more : ∀ before : Many β, (rest.foldl .more before).tokens each [.comma] =
      before.tokens each [.comma] ++ (rest.map each).flatMap fun tokens => .comma :: tokens from more (.one first)
  induction rest with
  | nil => simp
  | cons x rest ih =>
    intro before
    rw [List.foldl_cons,ih,Many.tokens]
    simp

theorem argsFine_argsOf {es : List (Exp α)} (fine : ∀ e ∈ es, ExpFine e) : ArgsFine (argsOf es) := by
  have more : ∀ (es : List (Exp α)) (before : Args (Exp α)), ArgsFine before → (∀ e ∈ es, ExpFine e) →
      ArgsFine (es.foldl .more before) := by
    intro es
    induction es with
    | nil => exact fun _ fine _ => fine
    | cons e es ih =>
      intro before fineBefore fine
      rw [List.forall_mem_cons] at fine
      exact ih _ ⟨fineBefore,fine.1⟩ fine.2
  cases es with
  | nil => trivial
  | cons e es =>
    rw [List.forall_mem_cons] at fine
    exact more es (.one e) fine.1 fine.2

theorem all_manyOf {β : Type} {P : β → Prop} (first : β) {rest : List β} (all : ∀ x ∈ first :: rest, P x) :
    (manyOf first rest).all P := by
  rw [List.forall_mem_cons] at all
  obtain ⟨one,all⟩ := all
  suffices more : ∀ before : Many β, before.all P → (rest.foldl .more before).all P from more (.one first) one
  induction rest with
  | nil => exact fun _ before => before
  | cons x rest ih =>
    intro before holds
    rw [List.forall_mem_cons] at all
    exact ih all.2 _ ⟨holds,all.1⟩

mutual
theorem printed_fine : ∀ e : Expr α, ExpFine (printed e)
  | .literal _ => trivial
  | .op _ left right => ⟨printed_fine left,printed_fine right,trivial,trivial⟩
  | .ref _ => trivial
  | .func _ _ args => argsFine_argsOf (printedAll_fine args)
  | .flag _ _ => trivial

theorem printedAll_fine : ∀ es : List (Expr α), ∀ e ∈ printedAll es, ExpFine e
  | [] => by simp [printedAll]
  | e :: es => List.forall_mem_cons.mpr ⟨printed_fine e,printedAll_fine es⟩
end

section
variable [FiniteGdouble α]

mutual
/-- A tree as the printer is made for it: without `CHANGED`, with the right numbers of arguments, and with finite literals
of at most six decimals. -/
def Regular : Expr α → Prop
  | .literal v => (∃ n : ℤ, v = ofRat (n / 10 ^ 6)) ∧ isfinite v = true
  | .op _ left right => Regular left ∧ Regular right
  | .ref _ => True
  | .func _ func args => func ≠ .changed ∧ neededCount func args.length = true ∧ RegularAll args
  | .flag _ _ => True

def RegularAll : List (Expr α) → Prop
  | [] => True
  | e :: es => Regular e ∧ RegularAll es
end

mutual
/-- Such a tree stands in memory as it has been built. -/
theorem current_regular : ∀ e : Expr α, Regular e → current freshMem e = e
  | .literal _, _ => rfl
  | .op o left right, regular => by rw [current,current_regular left regular.1,current_regular right regular.2]
  | .ref _, _ => rfl
  | .func node func args, regular => by
    obtain ⟨notChanged,_,all⟩ := regular
    have now := currentArgs_regular args all
    cases func with
    | changed => exact absurd rfl notChanged
    | _ => simp [current,freshMem] at now ⊢; exact now
  | .flag _ _, _ => rfl

theorem currentArgs_regular : ∀ es : List (Expr α), RegularAll es → currentArgs freshMem es = es
  | [], _ => rfl
  | e :: es, regular => by rw [currentArgs,current_regular e regular.1,currentArgs_regular es regular.2]
end

mutual
theorem regular_alike : ∀ {e e' : Expr α}, Regular e → Alike e e' → Regular e'
  | .literal _, .literal _, regular, alike => alike ▸ regular
  | .op _ _ _, .op _ _ _, regular, alike => ⟨regular_alike regular.1 alike.2.1,regular_alike regular.2 alike.2.2⟩
  | .ref _, .ref _, _, _ => trivial
  | .func _ _ _, .func _ _ _, regular, alike => by
    obtain ⟨rfl,args⟩ := alike
    exact ⟨regular.1,alikeAll_length args ▸ regular.2.1,regularAll_alike regular.2.2 args⟩
  | .flag _ _, .flag _ _, _, _ => trivial

theorem regularAll_alike : ∀ {es es' : List (Expr α)}, RegularAll es → AlikeAll es es' → RegularAll es'
  | [], [], _, _ => trivial
  | _ :: _, _ :: _, regular, alike => ⟨regular_alike regular.1 alike.1,regularAll_alike regular.2 alike.2⟩
end

mutual
theorem sameTree_alike [LawfulPrinted α] : ∀ {e e' : Expr α}, Regular e → Alike e e' → sameTree e e' = true
  | .literal _, .literal _, regular, alike => by
    obtain rfl := alike
    exact LawfulPrinted.eq_self _ regular.2
  | .op _ _ _, .op _ _ _, regular, alike => by
    obtain ⟨rfl,left,right⟩ := alike
    simp [sameTree,sameTree_alike regular.1 left,sameTree_alike regular.2 right]
  | .ref _, .ref _, _, alike => decide_eq_true alike
  | .func _ _ _, .func _ _ _, regular, alike => by
    obtain ⟨rfl,args⟩ := alike
    simp [sameTree,sameTrees_alike regular.2.2 args]
  | .flag _ _, .flag _ _, _, alike => by
    obtain ⟨rfl,rfl⟩ := alike
    simp [sameTree]

theorem sameTrees_alike [LawfulPrinted α] : ∀ {es es' : List (Expr α)}, RegularAll es → AlikeAll es es' → sameTrees es es' = true
  | [], [], _, _ => rfl
  | _ :: _, _ :: _, regular, alike => by
    simp [sameTrees,sameTree_alike regular.1 alike.1,sameTrees_alike regular.2 alike.2]
end

/-- The trees are alike, with the very same literals, and `expr_equal` says so. -/
structure Same [DecidableEq α] (e e' : Expr α) : Prop where
  alike : Alike e e'
  equal : exprEqual freshMem e e' = true

theorem same_of_alike [LawfulPrinted α] [DecidableEq α] {e e' : Expr α} (regular : Regular e) (alike : Alike e e') : Same e e' := by
  refine ⟨alike,?_⟩
  rw [exprEqual,current_regular e regular,current_regular e' (regular_alike regular alike),sameTree_alike regular alike]
  exact Bool.or_true _

theorem assign_same [LawfulPrinted α] [DecidableEq α] {a a' : Assign α} (regular : Regular a.rval) (alike : AssignBy Alike a a') :
    AssignBy Same a a' :=
  ⟨alike.id,same_of_alike regular alike.rval,alike.flagBit⟩

theorem assigns_same [LawfulPrinted α] [DecidableEq α] {as as' : List (Assign α)} (regular : ∀ a ∈ as, Regular a.rval)
    (alike : List.Forall₂ (AssignBy Alike) as as') : List.Forall₂ (AssignBy Same) as as' := by
  induction alike with
  | nil => exact .nil
  | cons one _ ih =>
    rw [List.forall_mem_cons] at regular
    exact .cons (assign_same regular.1 one) (ih regular.2)

/-- The patterns that are words themselves are read as what they are. -/
theorem classify_literals : ∀ l ∈ literals, classify l.1 = some (.token l.2) := by decide +kernel

theorem classify_assign : classify ['='] = some (.token .assign) :=
  classify_literals ("=".toList,_) (by simp only [literals,List.mem_cons,true_or,or_true])
theorem classify_flag : classify "FLAG".toList = some (.token .keyFlag) :=
  classify_literals ("FLAG".toList,_) (by simp only [literals,List.mem_cons,true_or,or_true])
theorem classify_set : classify "SET".toList = some (.token .keySet) :=
  classify_literals ("SET".toList,_) (by simp only [literals,List.mem_cons,true_or,or_true])
theorem classify_trigger : classify "TRIGGER".toList = some (.token .keyTrigger) :=
  classify_literals ("TRIGGER".toList,_) (by simp only [literals,List.mem_cons,true_or,or_true])
theorem classify_var : classify "VAR".toList = some (.token .keyVar) :=
  classify_literals ("VAR".toList,_) (by simp only [literals,List.mem_cons,true_or,or_true])
theorem classify_when : classify "WHEN".toList = some (.token .keyWhen) :=
  classify_literals ("WHEN".toList,_) (by simp only [literals,List.mem_cons,true_or,or_true])

theorem classify_opText (o : Op) : classify (opText o) = some (.token (.op o)) := by cases o <;> decide +kernel

theorem classify_funcId (func : Func) : Name (funcId func) := by
  unfold Name
  cases func <;> decide +kernel

theorem classify_bitName : ∀ bit ∈ flagBits, classify (stIoFlagBitName bit).toList = some (.token (.flagName bit)) := by
  simp only [flagBits,List.forall_mem_cons]
  refine ⟨?_,?_,?_,?_,?_,?_,by simp⟩ <;> decide +kernel

theorem funcOf_funcId (func : Func) : funcOf (funcId func) = some func := by cases func <;> decide

theorem describe_op (o : Op) (left right : Expr α) : describe (.op o left right) =
    ('(' :: (describe left ++ [')'])) ++ ' ' :: (opText o ++ ' ' :: ('(' :: (describe right ++ [')']))) := by
  simp [describe]

theorem describe_func (node : Nat) (func : Func) (args : List (Expr α)) :
    describe (.func node func args) = (funcId func).toList ++ ('(' :: (commas (describeAll args) ++ [')'])) := by
  simp [describe]

omit [FiniteGdouble α] in
theorem flag_text (id : String) (bit : IoFlags) : id.toList ++ (" FLAG ".toList ++ (stIoFlagBitName bit).toList) =
    id.toList ++ ' ' :: ("FLAG".toList ++ ' ' :: (stIoFlagBitName bit).toList) := by
  simp

theorem literal_cuts [LawfulPrinted α] {v : α} (regular : Regular (.literal v)) : Cuts (printfLf v) [(.value v : Token α)] := by
  obtain ⟨⟨n,same⟩,finite⟩ := regular
  obtain ⟨number,value⟩ := printfLf_reads same finite
  have cuts : Cuts (printfLf v) [((Token.value (.number (printfLf v))).map Literal.val : Token α)] := cuts_word (classify_number number) rfl
  rw [Token.map,Literal.val,value] at cuts
  exact cuts

/-- An identifier with the name of a flag. -/
theorem flag_cuts {id : String} {bit : IoFlags} (name : Name id) (known : bit ∈ flagBits) :
    Cuts (id.toList ++ (" FLAG ".toList ++ (stIoFlagBitName bit).toList)) [(.identifier id : Token α),.keyFlag,.flagName bit] := by
  have ofBit : Cuts (stIoFlagBitName bit).toList [(.flagName bit : Token α)] := cuts_word (classify_bitName bit known) rfl
  have behind : Cuts ("FLAG".toList ++ ' ' :: (stIoFlagBitName bit).toList) [(.keyFlag : Token α),.flagName bit] :=
    cuts_spaced classify_flag ofBit
  rw [flag_text]
  exact cuts_spaced name behind

mutual
/-- A printed tree is cut into the tokens of its syntax tree. -/
theorem describe_cuts [LawfulPrinted α] : ∀ e : Expr α, Spelled e → Regular e → Cuts (describe e) (expTokens .mul (printed e))
  | .literal _, _, regular => literal_cuts regular
  | .op o left right, spelled, regular => by
    have first := cuts_parens (describe_cuts left spelled.1 regular.1)
    have second := cuts_parens (describe_cuts right spelled.2 regular.2)
    have both := cuts_apart first (cuts_spaced (classify_opText o) second)
    rw [describe_op]
    simpa [printed,expTokens,Operand.tokens,Token.map] using both
  | .ref _, spelled, _ => cuts_word spelled rfl
  | .func _ func args, spelled, regular => by
    obtain ⟨_,count,all⟩ := regular
    have some : describeAll args ≠ [] := by
      cases args with
      | nil => cases func <;> cases count
      | cons e es => simp [describeAll]
    have call := cuts_call (classify_funcId func) rfl (cuts_parens (cuts_commas (describeAll_cuts args spelled all) some))
    rw [describe_func,printed,expTokens,Operand.tokens,argsTokens_argsOf]
    exact call
  | .flag _ _, spelled, _ => flag_cuts spelled.1 spelled.2

theorem describeAll_cuts [LawfulPrinted α] : ∀ es : List (Expr α), SpelledAll es → RegularAll es →
    List.Forall₂ Cuts (describeAll es) ((printedAll es).map (expTokens .mul))
  | [], _, _ => .nil
  | e :: es, spelled, regular => .cons (describe_cuts e spelled.1 regular.1) (describeAll_cuts es spelled.2 regular.2)
end

/-- The numbers of arguments that no message is printed about. -/
theorem silent_of_needed {func : Func} {n : Nat} (count : neededCount func n = true) : silentCount func n = true := by
  cases func with
  | changed =>
    simp only [neededCount,silentCount,decide_eq_true_eq] at *
    omega
  | _ => exact count

mutual
/-- The actions build of the syntax tree a tree that is alike, and nothing else but its nodes. -/
theorem exp_rebuilt : ∀ e : Expr α, Regular e → ∀ s : Build α, ∃ e' nodes,
    expBuild (printed e) s = (.expr e',{ s with nodes := nodes }) ∧ Alike e e'
  | .literal v, _, s => ⟨.literal v,s.nodes,rfl,rfl⟩
  | .op o left right, regular, s => by
    obtain ⟨left',nodes,builtLeft,alikeLeft⟩ := exp_rebuilt left regular.1 s
    obtain ⟨right',nodes',builtRight,alikeRight⟩ := exp_rebuilt right regular.2 { s with nodes := nodes }
    refine ⟨.op o left' right',nodes',?_,rfl,alikeLeft,alikeRight⟩
    simp [printed,expBuild,operandBuild,builtLeft,builtRight,act,expAct]
  | .ref id, _, s => ⟨.ref id,s.nodes,rfl,rfl⟩
  | .func node func args, regular, s => by
    obtain ⟨_,count,all⟩ := regular
    obtain ⟨args',nodes,builtArgs,alike⟩ : ∃ args' nodes,
        argsBuild (argsOf (printedAll args)) s = (.args args',{ s with nodes := nodes }) ∧ AlikeAll args args' := by
      cases args with
      | nil => cases func <;> cases count
      | cons e es =>
        obtain ⟨e',nodes,built,alike⟩ := exp_rebuilt e all.1 s
        have first : argsBuild (.one (printed e)) s = (.args [e'],{ s with nodes := nodes }) := by
          simp [argsBuild,built,act,expAct]
        obtain ⟨es',nodes',builtRest,alikeRest⟩ := args_rebuilt es all.2 first
        exact ⟨e' :: es',nodes',builtRest,alike,alikeRest⟩
    have silent := silent_of_needed count
    rw [alikeAll_length alike] at silent
    refine ⟨.func nodes func args',nodes + 1,?_,rfl,alike⟩
    simp [printed,expBuild,operandBuild,builtArgs,act,expAct,call,funcOf_funcId,silent]
  | .flag id bit, _, s => ⟨.flag id bit,s.nodes,rfl,rfl,rfl⟩

theorem args_rebuilt : ∀ es : List (Expr α), RegularAll es →
    ∀ {s : Build α} {before : Args (Exp α)} {es' : List (Expr α)} {nodes : Nat},
    argsBuild before s = (.args es',{ s with nodes := nodes }) → ∃ more nodes',
      argsBuild ((printedAll es).foldl .more before) s = (.args (es' ++ more),{ s with nodes := nodes' }) ∧ AlikeAll es more
  | [], _, s, before, es', nodes, built => ⟨[],nodes,by simpa [printedAll] using built,trivial⟩
  | e :: es, regular, s, before, es', nodes, built => by
    obtain ⟨e',nodes',builtFirst,alike⟩ := exp_rebuilt e regular.1 { s with nodes := nodes }
    have first : argsBuild (.more before (printed e)) s = (.args (es' ++ [e']),{ s with nodes := nodes' }) := by
      simp [argsBuild,built,builtFirst,act,expAct]
    obtain ⟨more,nodes'',builtRest,alikeRest⟩ := args_rebuilt es regular.2 first
    refine ⟨e' :: more,nodes'',?_,alike,alikeRest⟩
    simpa [printedAll] using builtRest
end

theorem var_rebuilt (id : String) {e : Expr α} (regular : Regular e) (s : Build α) : ∃ e' nodes,
    (instructionBuild (printedVar id e) s).2 = { s with decls := s.decls ++ [(id,e')],nodes := nodes } ∧ Alike e e' := by
  obtain ⟨e',nodes,built,alike⟩ := exp_rebuilt e regular s
  refine ⟨e',nodes,?_,alike⟩
  simp [printedVar,instructionBuild,built,act]

theorem assign_rebuilt {a : Assign α} (regular : Regular a.rval) (s : Build α) : ∃ a' nodes,
    assignmentBuild (printedAssign a) s = (.assign a',{ s with nodes := nodes }) ∧ AssignBy Alike a a' := by
  obtain ⟨e',nodes,built,alike⟩ := exp_rebuilt a.rval regular s
  by_cases flagged : a.flagBit ≠ 0
  · refine ⟨⟨a.id,e',a.flagBit⟩,nodes,?_,rfl,alike,rfl⟩
    simp only [assignmentBuild,printedAssign,flagOf,if_pos flagged,built]
    rfl
  · refine ⟨⟨a.id,e',0⟩,nodes,?_,rfl,alike,not_not.mp flagged⟩
    simp only [assignmentBuild,printedAssign,flagOf,if_neg flagged,built]
    rfl

theorem assigns_rebuilt (first : Assign α) (rest : List (Assign α)) (regular : ∀ a ∈ first :: rest, Regular a.rval) (s : Build α) :
    ∃ as nodes, manyBuild .assignmentsOne .assignmentsMore [.unset] assignmentBuild
        (manyOf (printedAssign first) (rest.map printedAssign)) s = (.assigns as,{ s with nodes := nodes }) ∧
      List.Forall₂ (AssignBy Alike) (first :: rest) as := by
  obtain ⟨one,later⟩ := List.forall_mem_cons.mp regular
  obtain ⟨a',nodes,built,alike⟩ := assign_rebuilt one s
  suffices more : ∀ (rest : List (Assign α)) (before : Many (Assignment α)) as nodes, (∀ a ∈ rest, Regular a.rval) →
      manyBuild .assignmentsOne .assignmentsMore [.unset] assignmentBuild before s = (.assigns as,{ s with nodes := nodes }) →
      ∃ as' nodes', manyBuild .assignmentsOne .assignmentsMore [.unset] assignmentBuild ((rest.map printedAssign).foldl .more before) s =
        (.assigns (as ++ as'),{ s with nodes := nodes' }) ∧ List.Forall₂ (AssignBy Alike) rest as' by
    obtain ⟨as',nodes',builtRest,alikeRest⟩ := more rest (.one (printedAssign first)) [a'] nodes later (by simp [manyBuild,built,act])
    exact ⟨a' :: as',nodes',builtRest,.cons alike alikeRest⟩
  intro rest
  induction rest with
  | nil => exact fun before as nodes _ built => ⟨[],nodes,by simpa using built,.nil⟩
  | cons a rest ih =>
    intro before as nodes regular built
    rw [List.forall_mem_cons] at regular
    obtain ⟨a',nodes',builtOne,alikeOne⟩ := assign_rebuilt regular.1 { s with nodes := nodes }
    obtain ⟨as',nodes'',builtRest,alikeRest⟩ := ih (.more before (printedAssign a)) (as ++ [a']) nodes' regular.2
      (by simp [manyBuild,built,builtOne,act])
    exact ⟨a' :: as',nodes'',by simpa using builtRest,.cons alikeOne alikeRest⟩

theorem entry_rebuilt {e : LabelEntry α} (cond : Regular e.cond) (rval : Regular e.ass.rval) (s : Build α) : ∃ e' nodes,
    (instructionBuild (printedEntry e) s).2 = { s with labels := s.labels ++ [⟨[e']⟩],nodes := nodes } ∧ EntryBy Alike e e' := by
  obtain ⟨rval',nodes,builtRval,alikeRval⟩ := exp_rebuilt e.ass.rval rval s
  obtain ⟨cond',nodes',builtCond,alikeCond⟩ := exp_rebuilt e.cond cond { s with nodes := nodes }
  by_cases flagged : e.ass.flagBit ≠ 0
  · refine ⟨⟨cond',⟨e.ass.id,rval',e.ass.flagBit⟩⟩,nodes',?_,alikeCond,rfl,alikeRval,rfl⟩
    simp only [printedEntry,flagOf,if_pos flagged,instructionBuild,manyBuild,entryBuild,builtRval,builtCond]
    rfl
  · refine ⟨⟨cond',⟨e.ass.id,rval',0⟩⟩,nodes',?_,alikeCond,rfl,alikeRval,not_not.mp flagged⟩
    simp only [printedEntry,flagOf,if_neg flagged,instructionBuild,manyBuild,entryBuild,builtRval,builtCond]
    rfl

theorem trigger_rebuilt {cond : Expr α} {first : Assign α} {rest : List (Assign α)} (regular : Regular cond)
    (assigned : ∀ a ∈ first :: rest, Regular a.rval) (s : Build α) : ∃ t' nodes,
    (instructionBuild (printedTrigger cond first rest) s).2 = { s with triggers := s.triggers ++ [t'],nodes := nodes } ∧
      TriggerBy Alike ⟨cond,first :: rest⟩ t' := by
  obtain ⟨cond',nodes,builtCond,alikeCond⟩ := exp_rebuilt cond regular s
  obtain ⟨as,nodes',built,alike⟩ := assigns_rebuilt first rest assigned { s with nodes := nodes }
  refine ⟨⟨cond',as⟩,nodes',?_,alikeCond,alike⟩
  simp [printedTrigger,instructionBuild,builtCond,built,act]

/-! The texts of rules. -/

/-- What stands before the brace of a label block with the entry. -/
def blockHeader (a : Assign α) : List Char :=
  if a.flagBit ≠ 0 then a.id.toList ++ (" FLAG ".toList ++ (stIoFlagBitName a.flagBit).toList) else a.id.toList

/-- `VAR id = e;`. -/
def varText (id : String) (e : Expr α) : List Char :=
  "VAR ".toList ++ (id.toList ++ (" = ".toList ++ (exprDescribe freshMem e ++ [';'])))

/-- A label block with one entry. -/
def entryText (e : LabelEntry α) : List Char :=
  blockHeader e.ass ++ (" \x7b ".toList ++ (labelEntryFormatConf freshMem e ++ "; \x7d".toList))

def triggerText (t : Trigger α) : List Char := triggerFormatConf freshMem t ++ [';']

theorem lex_end {text : List Char} {tokens : List (Token α)} (cuts : Cuts text tokens) :
    (lex (text ++ [';']) : List (Token α)) = tokens ++ [.semicolon] := by
  rw [cuts.cut [';'] (by simp [Ending.breaks,isIdentChar,isLetter,isDigit]),lex_mark (t := .semicolon) (by decide +kernel) rfl]
  rfl

theorem header_cuts [LawfulPrinted α] {a : Assign α} (spelled : SpelledAssign a) :
    Cuts (blockHeader a) ((.identifier a.id : Token α) :: flagTokens (flagOf a.flagBit)) := by
  unfold blockHeader flagOf
  split_ifs with flagged
  · exact flag_cuts spelled.id (spelled.flag.resolve_left flagged)
  · exact cuts_word spelled.id rfl

/-- The right-hand side of an assignment, behind what it assigns. -/
theorem assign_cuts [LawfulPrinted α] {a : Assign α} (spelled : SpelledAssign a) (regular : Regular a.rval) :
    Cuts (assignFormatConf freshMem a) ((printedAssign a).tokens .mul) := by
  have value := cuts_spaced classify_assign (describe_cuts a.rval spelled.rval regular)
  have whole := cuts_apart (header_cuts spelled) value
  have text : assignFormatConf freshMem a = blockHeader a ++ ' ' :: (['='] ++ ' ' :: describe a.rval) := by
    unfold assignFormatConf blockHeader exprDescribe
    rw [current_regular _ regular]
    split_ifs
    · simp
    · simp
  rw [text]
  exact whole

theorem var_lexed [LawfulPrinted α] {id : String} {e : Expr α} (name : Name id) (spelled : Spelled e) (regular : Regular e) :
    lex (varText id e) = (printedVar id e).tokens .mul := by
  have cuts := cuts_spaced classify_var (cuts_spaced name (cuts_spaced classify_assign (describe_cuts e spelled regular)))
  have text : varText id e = ("VAR".toList ++ ' ' :: (id.toList ++ ' ' :: (['='] ++ ' ' :: describe e))) ++ [';'] := by
    unfold varText exprDescribe
    rw [current_regular _ regular]
    simp
  rw [text,lex_end cuts]
  rfl

theorem entry_lexed [LawfulPrinted α] {e : LabelEntry α} (spelled : Spelled e.cond) (spelled' : SpelledAssign e.ass)
    (cond : Regular e.cond) (rval : Regular e.ass.rval) : lex (entryText e) = (printedEntry e).tokens .mul := by
  have opens : classify ['\x7b'] = some (.token .braceOpen) := by decide +kernel
  have conf := cuts_spaced classify_set (cuts_apart (describe_cuts _ spelled'.rval rval)
    (cuts_spaced classify_when (describe_cuts _ spelled cond)))
  have cuts := cuts_apart (header_cuts spelled') (cuts_spaced opens conf)
  have text : entryText e = (blockHeader e.ass ++ ' ' :: (['\x7b'] ++ ' ' :: ("SET".toList ++ ' ' :: (describe e.ass.rval ++ ' ' ::
      ("WHEN".toList ++ ' ' :: describe e.cond))))) ++ [';',' ','\x7d'] := by
    unfold entryText labelEntryFormatConf exprDescribe
    rw [current_regular _ rval,current_regular _ cond]
    simp
  rw [text,cuts.cut _ (by simp [Ending.breaks,isIdentChar,isLetter,isDigit]),lex_mark (t := .semicolon) (by decide +kernel) rfl,
    lex_blank ⟨_,_,rfl,by decide⟩,lex_mark (t := .braceClose) (by decide +kernel) rfl,lex_nil]
  simp [printedEntry,Instruction.tokens,Many.tokens,Entry.tokens,Token.map]

theorem triggerText_eq {t : Trigger α} (regular : Regular t.cond) : triggerText t =
    ("TRIGGER".toList ++ ' ' :: ("WHEN".toList ++ ' ' :: (describe t.cond ++ ' ' ::
      ("SET".toList ++ ' ' :: commas (t.ass.map (assignFormatConf freshMem)))))) ++ [';'] := by
  have words : "TRIGGER WHEN ".toList = "TRIGGER".toList ++ ' ' :: ("WHEN".toList ++ [' ']) := by decide +kernel
  have set : " SET ".toList = ' ' :: ("SET".toList ++ [' ']) := by decide +kernel
  unfold triggerText triggerFormatConf exprDescribe
  rewrite [current_regular _ regular,words,set]
  simp only [List.append_assoc,List.cons_append,List.nil_append]

theorem trigger_lexed [LawfulPrinted α] {cond : Expr α} {first : Assign α} {rest : List (Assign α)} (spelled : Spelled cond)
    (assigned : ∀ a ∈ first :: rest, SpelledAssign a) (regular : Regular cond) (rvals : ∀ a ∈ first :: rest, Regular a.rval) :
    lex (triggerText ⟨cond,first :: rest⟩) = (printedTrigger cond first rest).tokens .mul := by
  have each : List.Forall₂ Cuts ((first :: rest).map (assignFormatConf freshMem))
      (((first :: rest).map printedAssign).map (Assignment.tokens .mul)) := by
    rw [List.map_map,List.forall₂_map_left_iff,List.forall₂_map_right_iff,List.forall₂_same]
    exact fun a member => assign_cuts (assigned a member) (rvals a member)
  have list := cuts_commas each (by simp)
  have cuts := cuts_spaced classify_trigger (cuts_spaced classify_when
    (cuts_apart (describe_cuts cond spelled regular) (cuts_spaced classify_set list)))
  have whole := lex_end cuts
  rw [← triggerText_eq (t := ⟨cond,first :: rest⟩) regular] at whole
  rw [whole,printedTrigger,Instruction.tokens,manyTokens_manyOf]
  simp [Token.map]

/-- The parser reads the text without a message and builds the program; `nodes` function nodes have been built before. -/
def ReadsAs (nodes : Nat) (text : List Char) (program : Program α) : Prop :=
  ∃ after : Build α, yyparse.Accepts semantics stackRoom (lex text ++ [.eof]) { emptyBuild with nodes := nodes } after ∧
    after.program = program ∧ after.messages = [] ∧ after.undefined = false

theorem readsAs_of {i : Instruction α} {text : List Char} {nodes : Nat} {after : Build α} (fine : i.Fine)
    (lexed : lex text = i.tokens .mul) (room : instructionsNeed (.one i) < 9999)
    (built : (instructionBuild i { emptyBuild with nodes := nodes }).2 = after)
    (quiet : after.messages = []) (produced : after.undefined = false) : ReadsAs nodes text after.program := by
  have fits : Fits stackRoom (instructionsNeed (.one i)) := by
    intro n le
    simp only [stackRoom,decide_eq_true_eq]
    omega
  have left : instructionsBuild (.one i) { (emptyBuild : Build α) with nodes := nodes } = after := built
  refine ⟨after,?_,rfl,quiet,produced⟩
  rw [lexed,← left]
  exact accepts_instructions (.one i) fine fits

variable [DecidableEq α]

/-- What is printed of an expression, as that of a variable, is read back. -/
def ExprReadBack (nodes : Nat) (id : String) (e : Expr α) : Prop :=
  ∃ e', ReadsAs nodes (varText id e) ⟨⟨[],[]⟩,[(id,e')]⟩ ∧ Same e e'

/-- What is printed of an entry, in a label block of its own, is read back. -/
def EntryReadBack (nodes : Nat) (e : LabelEntry α) : Prop :=
  ∃ e', ReadsAs nodes (entryText e) ⟨⟨[⟨[e']⟩],[]⟩,[]⟩ ∧ EntryBy Same e e'

def TriggerReadBack (nodes : Nat) (t : Trigger α) : Prop :=
  ∃ t', ReadsAs nodes (triggerText t) ⟨⟨[],[t']⟩,[]⟩ ∧ TriggerBy Same t t'

/-- The trees, the entries and the triggers of a program, as far as they are regular and the parser's stack has room for
what is printed of them. A trigger has assignments. -/
structure AllReadBack (nodes : Nat) (p : Program α) : Prop where
  trees : ∀ e ∈ exprs p, Regular e → ∀ id, Name id → instructionsNeed (.one (printedVar id e)) < 9999 → ExprReadBack nodes id e
  entries : ∀ b ∈ p.engine.labels, ∀ e ∈ b.entries, Regular e.cond → Regular e.ass.rval →
    instructionsNeed (.one (printedEntry e)) < 9999 → EntryReadBack nodes e
  triggers : ∀ t ∈ p.engine.triggers, ∃ first rest, t.ass = first :: rest ∧ (Regular t.cond → (∀ a ∈ t.ass, Regular a.rval) →
    instructionsNeed (.one (printedTrigger t.cond first rest)) < 9999 → TriggerReadBack nodes t)

variable [LawfulPrinted α]

theorem expr_read_back {e : Expr α} (spelled : Spelled e) (regular : Regular e) {id : String} (name : Name id)
    (room : instructionsNeed (.one (printedVar id e)) < 9999) (nodes : Nat) : ExprReadBack nodes id e := by
  obtain ⟨e',nodes',built,alike⟩ := var_rebuilt id regular { emptyBuild with nodes := nodes }
  have fine : (printedVar id e).Fine := printed_fine e
  exact ⟨e',readsAs_of fine (var_lexed name spelled regular) room built rfl rfl,same_of_alike regular alike⟩

theorem entry_read_back {e : LabelEntry α} (spelled : Spelled e.cond) (spelled' : SpelledAssign e.ass) (cond : Regular e.cond)
    (rval : Regular e.ass.rval) (room : instructionsNeed (.one (printedEntry e)) < 9999) (nodes : Nat) :
    EntryReadBack nodes e := by
  obtain ⟨e',nodes',built,alike⟩ := entry_rebuilt cond rval { emptyBuild with nodes := nodes }
  have fine : (printedEntry e).Fine := ⟨printed_fine _,printed_fine _⟩
  refine ⟨e',?_,same_of_alike cond alike.cond,assign_same rval alike.ass⟩
  exact readsAs_of fine (entry_lexed spelled spelled' cond rval) room built rfl rfl

theorem trigger_read_back {cond : Expr α} {first : Assign α} {rest : List (Assign α)} (spelled : Spelled cond)
    (assigned : ∀ a ∈ first :: rest, SpelledAssign a) (regular : Regular cond) (rvals : ∀ a ∈ first :: rest, Regular a.rval)
    (room : instructionsNeed (.one (printedTrigger cond first rest)) < 9999) (nodes : Nat) :
    TriggerReadBack nodes ⟨cond,first :: rest⟩ := by
  obtain ⟨t',nodes',built,alike⟩ := trigger_rebuilt regular rvals { emptyBuild with nodes := nodes }
  refine ⟨t',?_,same_of_alike regular alike.cond,assigns_same rvals alike.ass⟩
  have fine : (printedTrigger cond first rest).Fine := by
    refine ⟨printed_fine cond,all_manyOf _ ?_⟩
    intro a member
    rw [← List.map_cons] at member
    obtain ⟨a,_,rfl⟩ := List.mem_map.mp member
    exact printed_fine a.rval
  exact readsAs_of fine (trigger_lexed spelled assigned regular rvals) room built rfl rfl

/-- All that is printed of what the parser has built is read back, as long as its stack has room for the parentheses. -/
theorem printed_read_back {text : List Char} {after : Build α} (parses : Parses (lex text) after) (nodes : Nat) :
    AllReadBack nodes after.program := by
  obtain ⟨labels,triggers,decls⟩ := parses_spelled parses
  have spelled : ∀ e ∈ exprs after.program, Spelled e := by
    refine forall_exprs.mpr ⟨fun b among e member => ?_,fun t member => ?_,fun decl member => (decls decl member).2⟩
    · exact ⟨(labels b among e member).2.rval,(labels b among e member).1⟩
    · exact ⟨(triggers t member).cond,fun a among => ((triggers t member).ass a among).rval⟩
  refine ⟨fun e member regular id name room => ?_,fun b among e member cond rval room => ?_,fun t member => ?_⟩
  · exact expr_read_back (spelled e member) regular name room nodes
  · exact entry_read_back (labels b among e member).1 (labels b among e member).2 cond rval room nodes
  · obtain ⟨condSpelled,some,assigned⟩ := triggers t member
    obtain ⟨cond,ass⟩ := t
    obtain ⟨first,rest,rfl⟩ := List.exists_cons_of_ne_nil some
    exact ⟨first,rest,rfl,fun regular rvals room => trigger_read_back condSpelled assigned regular rvals room nodes⟩

end

/-! What is lost. -/

/-- A label block with one entry, as `label_entry_format_conf` is made for it: without the flag of the block. -/
def plainText [FiniteGdouble α] (e : LabelEntry α) : List Char :=
  e.ass.id.toList ++ (" \x7b ".toList ++ (labelEntryFormatConf freshMem e ++ "; \x7d".toList))

/-- Sums from the left on, and their text. -/
def chain : Nat → Expr α
  | 0 => .ref "a"
  | n+1 => .op .add (chain n) (.ref "a")

def chainExp : Nat → Exp α
  | 0 => .leaf (.ref "a")
  | n+1 => .node .add (chainExp n) (.leaf (.ref "a"))

def chainText : Nat → List Char
  | 0 => "a".toList
  | n+1 => chainText n ++ ' ' :: (opText .add ++ ' ' :: "a".toList)

def chainProgram (n : Nat) : Instructions α := .one (.var "v" (some (chainExp n)))

def chainProgramText (n : Nat) : List Char :=
  ("VAR".toList ++ ' ' :: ("v".toList ++ ' ' :: (['='] ++ ' ' :: chainText n))) ++ [';']

theorem chain_fine (n : Nat) :
    ExpFine (chainExp n : Exp α) ∧ (chainExp n : Exp α).Above rank (rank .add) ∧ expNeed (chainExp n : Exp α) ≤ 3 := by
  induction n with
  | zero => exact ⟨trivial,trivial,show 1 ≤ 3 by decide⟩
  | succ n ih =>
    obtain ⟨fine,above,need⟩ := ih
    exact ⟨⟨fine,trivial,above,trivial⟩,le_rfl,max_le need (le_refl 3)⟩

theorem name_a : Name "a" := by
  unfold Name
  decide +kernel

section
variable [FiniteGdouble α]

theorem chain_built (n : Nat) (s : Build α) : expBuild (chainExp n) s = (.expr (chain n),s) := by
  induction n with
  | zero => rfl
  | succ n ih => simp [chainExp,chain,expBuild,operandBuild,ih,act,expAct]

theorem chain_regular (n : Nat) : Regular (chain n : Expr α) ∧ Spelled (chain n : Expr α) := by
  induction n with
  | zero => exact ⟨trivial,name_a⟩
  | succ n ih => exact ⟨⟨ih.1,trivial⟩,⟨ih.2,name_a⟩⟩

theorem chain_lexed (n : Nat) : lex (chainProgramText n) = (chainProgram n : Instructions α).tokens .mul := by
  have variable' : classify "v".toList = some (.token (.identifier "v")) := by decide +kernel
  have sum : ∀ n, Cuts (chainText n) (expTokens .mul (chainExp n : Exp α)) := by
    intro n
    induction n with
    | zero => exact cuts_word name_a rfl
    | succ n ih => exact cuts_apart ih (cuts_spaced (classify_opText .add) (cuts_word name_a rfl))
  unfold chainProgramText
  rw [lex_end (cuts_spaced classify_var (cuts_spaced variable' (cuts_spaced classify_assign (sum n))))]
  rfl

/-- A sum of any length needs no more than some symbols on the stack. -/
theorem chain_parses (n : Nat) :
    Parses (lex (chainProgramText n)) (instructionsBuild (chainProgram n : Instructions α) emptyBuild) := by
  refine parses_program (chain_fine n).1 (chain_lexed n).symm ?_
  have need := (chain_fine (α := α) n).2.2
  simp only [chainProgram,instructionsNeed,manyNeed,instructionNeed]
  omega

omit [FiniteGdouble α] in
/-- But its printed text begins with as many parentheses. -/
theorem printed_chain (n : Nat) :
    ∃ rest, expTokens .mul (printed (chain n : Expr α)) = List.replicate n .parenOpen ++ rest := by
  induction n with
  | zero => exact ⟨_,rfl⟩
  | succ n ih =>
    obtain ⟨rest,same⟩ := ih
    refine ⟨rest ++ .parenClose :: .op .add :: [.parenOpen,.identifier "a",.parenClose],?_⟩
    rw [chain,printed,expTokens,expTokens,Operand.tokens,same,List.replicate_succ]
    simp [printed,expTokens,Operand.tokens]

/-- All of them are on the stack before one is closed. -/
theorem parens_shifted (n : Nat) (frames : Frames α) (top : yyparse.top frames ∈ expStarts) (rest : List (Token α))
    (s : Build α) : ∃ more : Frames α, more.length = n ∧
      Runs (fun _ => true) ⟨frames,List.replicate n .parenOpen ++ rest,s⟩ ⟨more ++ frames,rest,s⟩ := by
  induction n generalizing frames with
  | zero => exact ⟨[],rfl,.refl⟩
  | succ n ih =>
    have opens : action (yyparse.top frames) .parenOpen = .shift 21 := (expStates.start _ top).2.2.2
    obtain ⟨more,length,runs⟩ := ih ((21,.unset) :: frames) (show (21 : State) ∈ expStarts by decide)
    refine ⟨more ++ [(21,.unset)],by simp [length],?_⟩
    rw [List.append_assoc]
    exact (shift_to opens rfl).trans runs

/-- Where they are too many the printed text is not read. -/
theorem chain_too_deep {id : String} (name : Name id) {n : Nat} (deep : 9996 ≤ n) (after : Build α) [LawfulPrinted α] :
    ¬ Parses (lex (varText id (chain n : Expr α))) after := by
  intro parses
  obtain ⟨regular,spelled⟩ := chain_regular (α := α) n
  obtain ⟨rest,opened⟩ := printed_chain (α := α) n
  obtain ⟨onVar,name',_,assign,_⟩ := instructionStates.var
  have first : Runs (fun _ => true) (⟨[],[.keyVar,.identifier id,.assign] ++ (List.replicate n .parenOpen ++
      (rest ++ [.semicolon,.eof])),emptyBuild⟩ : Config State (Token α) (Val α) (Build α)) _ :=
    shifts_to [(.keyVar,1),(.identifier id,10),(.assign,17)] ⟨(onVar 0 (by decide)).1,name',assign,trivial⟩ fun _ _ => rfl
  obtain ⟨more,length,runs⟩ := parens_shifted n [(17,.unset),(10,.sval id),(1,.unset)]
    (show (17 : State) ∈ expStarts by decide) (rest ++ [.semicolon,.eof]) (emptyBuild : Build α)
  rw [Parses,var_lexed name spelled regular] at parses
  have room := accepts_room (c := ⟨more ++ [(17,.unset),(10,.sval id),(1,.unset)],rest ++ [.semicolon,.eof],emptyBuild⟩)
    parses ?_ (by simp)
  · simp only [stackRoom,decide_eq_true_eq,List.length_append,List.length_cons,List.length_nil] at room
    omega
  · rw [printedVar,Instruction.tokens,opened]
    simp only [List.cons_append,List.nil_append,List.append_assoc] at first ⊢
    exact first.trans runs

/-- The parser builds a sum that it does not read back from its printed text. -/
theorem chain_lost [LawfulPrinted α] {n : Nat} (deep : 9996 ≤ n) : ∃ after : Build α, Parses (lex (chainProgramText n)) after ∧
    ∃ e ∈ exprs after.program, Regular e ∧ ∀ id (after' : Build α), Name id → ¬ Parses (lex (varText id e)) after' := by
  refine ⟨_,chain_parses n,chain n,?_,(chain_regular n).1,fun id after' name => chain_too_deep name deep after'⟩
  simp [exprs,chainProgram,instructionsBuild,manyBuild,instructionBuild,chain_built,act,emptyBuild,Build.program]

/-- Whatever the flag of a block, it is not among what `label_entry_format_conf` prints. -/
theorem plain_without_flag [DecidableEq α] [LawfulPrinted α] {e : LabelEntry α} (cond : Spelled e.cond) (ass : SpelledAssign e.ass)
    (regular : Regular e.cond) (regular' : Regular e.ass.rval)
    (room : instructionsNeed (.one (printedEntry ⟨e.cond,e.ass.id,e.ass.rval,0⟩)) < 9999) {after : Build α}
    (parses : Parses (lex (plainText e)) after) : ∀ b ∈ after.program.engine.labels, ∀ e' ∈ b.entries, e'.ass.flagBit = 0 := by
  obtain ⟨e',⟨after',accepts,program,-⟩,same⟩ :=
    entry_read_back (e := ⟨e.cond,e.ass.id,e.ass.rval,0⟩) cond ⟨ass.id,ass.rval,.inl rfl⟩ regular regular' room 0
  obtain rfl : after' = after := accepts_unique accepts parses
  rw [program]
  intro b inProgram e'' among
  obtain rfl := List.mem_singleton.mp inProgram
  obtain rfl := List.mem_singleton.mp among
  exact same.ass.flagBit.symm

end

private def flagged : String := "a FLAG USR1\x7bSET 1 WHEN a;\x7d"

private def flaggedProgram : Instructions ℚ :=
  .one (.block "a" (some stIoFlagUsr1) (.one ⟨.leaf (.value (ofRat (atof ['1']))),.leaf (.ref "a")⟩))

private theorem flagged_parses : Parses (lex flagged.toList) (instructionsBuild flaggedProgram emptyBuild) := by
  have words : lexWords flagged.toList = [.identifier "a",.keyFlag,.flagName stIoFlagUsr1,.braceOpen,.keySet,
      .value (.number ['1']),.keyWhen,.identifier "a",.semicolon,.braceClose] := by decide +kernel
  refine parses_program ⟨trivial,trivial⟩ ?_ (by decide)
  rw [lex,words]
  rfl

theorem printed_read_back_flagged : AllReadBack 7 (instructionsBuild flaggedProgram emptyBuild).program :=
  printed_read_back flagged_parses 7

/-- The flag of a block is lost where its entry is printed, and a long sum where the expression is. -/
theorem printed_text_loses : (∃ after : Build ℚ, Parses (lex flagged.toList) after ∧
      ∃ b ∈ after.program.engine.labels, ∃ e ∈ b.entries, Regular e.cond ∧ Regular e.ass.rval ∧
        ∀ after' : Build ℚ, Parses (lex (plainText e)) after' → ∀ b' ∈ after'.program.engine.labels, ∀ e' ∈ b'.entries,
          e'.ass.flagBit ≠ e.ass.flagBit) ∧
    ∃ after : Build ℚ, Parses (lex (chainProgramText 10000)) after ∧
      ∃ e ∈ exprs after.program, Regular e ∧ ∀ id (after' : Build ℚ), Name id → ¬ Parses (lex (varText id e)) after' := by
  have one : Regular (.literal (ofRat (atof ['1']) : ℚ)) := ⟨⟨10 ^ 6,by decide +kernel⟩,by decide +kernel⟩
  refine ⟨⟨_,flagged_parses,_,List.mem_singleton_self _,_,List.mem_singleton_self _,trivial,one,?_⟩,chain_lost (by decide)⟩
  intro after' parses b among e member same
  have cond : Spelled (.ref "a" : Expr ℚ) := name_a
  have ass : SpelledAssign (⟨"a",.literal (ofRat (atof ['1'])),stIoFlagUsr1⟩ : Assign ℚ) := ⟨name_a,trivial,.inr (by decide)⟩
  have none := plain_without_flag (e := ⟨_,_⟩) cond ass trivial one (by decide) parses b among e member
  rw [none] at same
  exact absurd same (by decide)

end Starter.RoundTrip
