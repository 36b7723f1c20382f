import Starter.Calls

/-!
Syntax trees with other operands for their numbers and their prefix operators, and what
that does to the tokens. A token tells whether an operand is expected after it, so that
a rewriting of the tokens can tell a prefix operator from a binary one.
-/
namespace Starter.Rewriting
open Expressions Grammar Syntax Parsing Calls Accesses Lib.Precedence

variable {α β : Type}

mutual
/-- The operand with `value` for its numbers and `minus` for its prefix operators, which is given the operand before
and after. -/
def operandRewrite (value : α → Operand β) (minus : Operand α → Operand β → Operand β) : Operand α → Operand β
  | .value v => value v
  | .ref id => .ref id
  | .flag id bit => .flag id bit
  | .parens e => .parens (expRewrite value minus e)
  | .minus a => minus a (operandRewrite value minus a)
  | .call id args => .call id (argsRewrite value minus args)

def expRewrite (value : α → Operand β) (minus : Operand α → Operand β → Operand β) :
    Grouping Op (Operand α) → Grouping Op (Operand β)
  | .leaf a => .leaf (operandRewrite value minus a)
  | .node op left right => .node op (expRewrite value minus left) (expRewrite value minus right)

def argsRewrite (value : α → Operand β) (minus : Operand α → Operand β → Operand β) :
    Args (Grouping Op (Operand α)) → Args (Grouping Op (Operand β))
  | .none => .none
  | .one e => .one (expRewrite value minus e)
  | .more before e => .more (argsRewrite value minus before) (expRewrite value minus e)
end

def manyMap {γ δ : Type} (f : γ → δ) : Many γ → Many δ
  | .one x => .one (f x)
  | .more before x => .more (manyMap f before) (f x)

/-- The instruction with other expressions. -/
def instructionMap (f : Exp α → Exp β) : Instruction α → Instruction β
  | .block id flag entries => .block id flag (manyMap (fun e => ⟨f e.rval,f e.cond⟩) entries)
  | .trigger cond ass => .trigger (f cond) (manyMap (fun a => ⟨a.id,a.flag,f a.rval⟩) ass)
  | .var id init => .var id (init.map f)

def instructionsMap (f : Exp α → Exp β) (p : Instructions α) : Instructions β := manyMap (instructionMap f) p

/-- After the token an operand is expected. -/
def opens : Token α → Bool
  | .op _ | .comma | .assign | .parenOpen | .keySet | .keyWhen => true
  | _ => false

/-- A token that has no value, for numbers of any type. -/
def bare (t : Token Empty) : Token α := t.map Empty.elim

/-- A rewriting of tokens, which knows whether an operand is expected, does what the rewriting of the trees does. -/
structure Transfer (T : Bool → List (Token α) → List (Token β)) (sign sign' : Op) (value : α → Operand β)
    (minus : Operand α → Operand β → Operand β) : Prop where
  nil : T false [] = []
  keeps : ∀ opening (t : Token Empty) rest, (∀ op, t ≠ .op op) → T opening (bare t :: rest) = bare t :: T (opens t) rest
  binary : ∀ op rest, T false (.op op :: rest) = .op op :: T true rest
  number : ∀ v rest, T true (.value v :: rest) = (value v).tokens sign' ++ T false rest
  prefixed : ∀ a rest, T true (a.tokens sign ++ rest) = (operandRewrite value minus a).tokens sign' ++ T false rest →
    T true (.op sign :: (a.tokens sign ++ rest)) = (minus a (operandRewrite value minus a)).tokens sign' ++ T false rest

section
variable {T : Bool → List (Token α) → List (Token β)} {sign sign' : Op} {value : α → Operand β}
  {minus : Operand α → Operand β → Operand β}

mutual
theorem operand_transfer (transfer : Transfer T sign sign' value minus) : ∀ (a : Operand α) (rest : List (Token α)),
    T true (a.tokens sign ++ rest) = (operandRewrite value minus a).tokens sign' ++ T false rest
  | .value v, rest => transfer.number v rest
  | .ref id, rest => transfer.keeps true (.identifier id) rest (by simp)
  | .flag id bit, rest => by
    refine (transfer.keeps true (.identifier id) _ (by simp)).trans (congrArg _ ?_)
    refine (transfer.keeps false .keyFlag _ (by simp)).trans (congrArg _ ?_)
    exact transfer.keeps false (.flagName bit) rest (by simp)
  | .parens e, rest => by
    have opened : ∀ rest, T true (.parenOpen :: rest) = .parenOpen :: T true rest :=
      fun rest => transfer.keeps true .parenOpen rest (by simp)
    have closed : T false (.parenClose :: rest) = .parenClose :: T false rest := transfer.keeps false .parenClose rest (by simp)
    simp only [Operand.tokens,operandRewrite,List.cons_append,List.append_assoc,List.nil_append,opened,
      exp_transfer transfer e,closed]
  | .minus a, rest => transfer.prefixed a rest (operand_transfer transfer a rest)
  | .call id args, rest => by
    have named : ∀ rest, T true (.identifier id :: rest) = .identifier id :: T false rest :=
      fun rest => transfer.keeps true (.identifier id) rest (by simp)
    have opened : ∀ rest, T false (.parenOpen :: rest) = .parenOpen :: T true rest :=
      fun rest => transfer.keeps false .parenOpen rest (by simp)
    have inside := args_transfer transfer args .parenClose (by simp) rest
    simp only [Operand.tokens,operandRewrite,List.cons_append,List.append_assoc,List.nil_append,named,opened]
    exact congrArg _ (congrArg _ inside)

theorem exp_transfer (transfer : Transfer T sign sign' value minus) :
    ∀ (e : Grouping Op (Operand α)) (rest : List (Token α)),
      T true (expTokens sign e ++ rest) = expTokens sign' (expRewrite value minus e) ++ T false rest
  | .leaf a, rest => operand_transfer transfer a rest
  | .node op left right, rest => by
    rw [expTokens,List.append_assoc]
    refine (exp_transfer transfer left _).trans ?_
    rw [List.cons_append,transfer.binary,exp_transfer transfer right,expRewrite,expTokens]
    simp

theorem args_transfer (transfer : Transfer T sign sign' value minus) :
    ∀ (args : Args (Grouping Op (Operand α))) (t : Token Empty), (∀ op, t ≠ .op op) → ∀ rest : List (Token α),
      T true (argsTokens sign args ++ bare t :: rest) =
        argsTokens sign' (argsRewrite value minus args) ++ bare t :: T (opens t) rest
  | .none, t, noOp, rest => transfer.keeps true t rest noOp
  | .one e, t, noOp, rest => by
    refine (exp_transfer transfer e _).trans (congrArg _ ?_)
    exact transfer.keeps false t rest noOp
  | .more before e, t, noOp, rest => by
    rw [argsTokens,List.append_assoc]
    refine (args_transfer transfer before .comma (by simp) _).trans ?_
    rw [argsRewrite,argsTokens,List.append_assoc]
    refine congrArg _ (congrArg _ ((exp_transfer transfer e _).trans (congrArg _ ?_)))
    exact transfer.keeps false t rest noOp
end

end

section
variable {T : Bool → List (Token α) → List (Token β)} {sign sign' : Op} {value : α → Operand β}
  {minus : Operand α → Operand β → Operand β}

theorem flag_transfer (transfer : Transfer T sign sign' value minus) (flag : Option IoFlags) (rest : List (Token α)) :
    T false (flagTokens flag ++ rest) = flagTokens flag ++ T false rest := by
  cases flag with
  | none => rfl
  | some bit =>
    refine (transfer.keeps false .keyFlag _ (by simp)).trans (congrArg _ ?_)
    exact transfer.keeps false (.flagName bit) rest (by simp)

theorem many_transfer {γ δ : Type} {each : γ → List (Token α)} {each' : δ → List (Token β)} {f : γ → δ} {sep : List (Token α)}
    {sep' : List (Token β)} {before between : Bool} (first : ∀ x rest, T before (each x ++ rest) = each' (f x) ++ T false rest)
    (later : ∀ x rest, T between (each x ++ rest) = each' (f x) ++ T false rest)
    (separates : ∀ rest, T false (sep ++ rest) = sep' ++ T between rest) :
    ∀ (m : Many γ) (rest : List (Token α)),
      T before (m.tokens each sep ++ rest) = (manyMap f m).tokens each' sep' ++ T false rest
  | .one x, rest => first x rest
  | .more m x, rest => by
    simp only [Many.tokens,manyMap,List.append_assoc,many_transfer first later separates m,separates,later]

theorem entry_transfer (transfer : Transfer T sign sign' value minus) (e : Entry α) (rest : List (Token α)) :
    T false (e.tokens sign ++ rest) =
      Entry.tokens sign' ⟨expRewrite value minus e.rval,expRewrite value minus e.cond⟩ ++ T false rest := by
  have set : ∀ rest, T false (.keySet :: rest) = .keySet :: T true rest := fun rest => transfer.keeps false .keySet rest (by simp)
  have when : ∀ rest, T false (.keyWhen :: rest) = .keyWhen :: T true rest :=
    fun rest => transfer.keeps false .keyWhen rest (by simp)
  have ends : T false (.semicolon :: rest) = .semicolon :: T false rest := transfer.keeps false .semicolon rest (by simp)
  simp only [Entry.tokens,List.cons_append,List.append_assoc,List.nil_append,set,exp_transfer transfer,when,ends]

theorem assignment_transfer (transfer : Transfer T sign sign' value minus) (a : Assignment α) (rest : List (Token α)) :
    T true (a.tokens sign ++ rest) =
      Assignment.tokens sign' ⟨a.id,a.flag,expRewrite value minus a.rval⟩ ++ T false rest := by
  have named : ∀ rest, T true (.identifier a.id :: rest) = .identifier a.id :: T false rest :=
    fun rest => transfer.keeps true (.identifier a.id) rest (by simp)
  have assign : ∀ rest, T false (.assign :: rest) = .assign :: T true rest :=
    fun rest => transfer.keeps false .assign rest (by simp)
  simp only [Assignment.tokens,List.cons_append,List.append_assoc,named,flag_transfer transfer,assign,exp_transfer transfer]

theorem instruction_transfer (transfer : Transfer T sign sign' value minus) (i : Instruction α) (rest : List (Token α)) :
    T false (i.tokens sign ++ rest) = (instructionMap (expRewrite value minus) i).tokens sign' ++ T false rest := by
  have named : ∀ id rest, T false (.identifier id :: rest) = .identifier id :: T false rest :=
    fun id rest => transfer.keeps false (.identifier id) rest (by simp)
  have ends : T false (.semicolon :: rest) = .semicolon :: T false rest := transfer.keeps false .semicolon rest (by simp)
  cases i with
  | block id flag entries =>
    have opened : ∀ rest, T false (.braceOpen :: rest) = .braceOpen :: T false rest :=
      fun rest => transfer.keeps false .braceOpen rest (by simp)
    have closed : T false (.braceClose :: rest) = .braceClose :: T false rest := transfer.keeps false .braceClose rest (by simp)
    have adjacent : ∀ rest, T false ([] ++ rest) = [] ++ T false rest := fun _ => rfl
    have inside := many_transfer (entry_transfer transfer) (entry_transfer transfer) adjacent entries (.braceClose :: rest)
    simp only [Instruction.tokens,instructionMap,List.cons_append,List.append_assoc,List.nil_append,named,flag_transfer transfer,
      opened,inside,closed]
  | trigger cond ass =>
    have key : ∀ rest, T false (.keyTrigger :: rest) = .keyTrigger :: T false rest :=
      fun rest => transfer.keeps false .keyTrigger rest (by simp)
    have when : ∀ rest, T false (.keyWhen :: rest) = .keyWhen :: T true rest :=
      fun rest => transfer.keeps false .keyWhen rest (by simp)
    have set : ∀ rest, T false (.keySet :: rest) = .keySet :: T true rest :=
      fun rest => transfer.keeps false .keySet rest (by simp)
    have comma : ∀ rest, T false ([.comma] ++ rest) = [.comma] ++ T true rest :=
      fun rest => transfer.keeps false .comma rest (by simp)
    have inside := many_transfer (assignment_transfer transfer) (assignment_transfer transfer) comma ass (.semicolon :: rest)
    simp only [Instruction.tokens,instructionMap,List.cons_append,List.append_assoc,List.nil_append,key,when,
      exp_transfer transfer,set,inside,ends]
  | var id init =>
    have key : ∀ rest, T false (.keyVar :: rest) = .keyVar :: T false rest :=
      fun rest => transfer.keeps false .keyVar rest (by simp)
    have assign : ∀ rest, T false (.assign :: rest) = .assign :: T true rest :=
      fun rest => transfer.keeps false .assign rest (by simp)
    cases init with
    | none => simp only [Instruction.tokens,instructionMap,Option.map_none,List.cons_append,List.nil_append,key,named,ends]
    | some e =>
      simp only [Instruction.tokens,instructionMap,Option.map_some,List.cons_append,List.append_assoc,List.nil_append,key,named,
        assign,exp_transfer transfer,ends]

/-- The tokens of the rewritten program are the rewritten tokens. -/
theorem instructions_transfer (transfer : Transfer T sign sign' value minus) (p : Instructions α) :
    (instructionsMap (expRewrite value minus) p).tokens sign' = T false (p.tokens sign) := by
  have adjacent : ∀ rest, T false ([] ++ rest) = [] ++ T false rest := fun _ => rfl
  have whole := many_transfer (instruction_transfer transfer) (instruction_transfer transfer) adjacent p []
  rw [transfer.nil,List.append_nil,List.append_nil] at whole
  exact whole.symm

end

theorem many_map {γ δ : Type} {Q : δ → Prop} {f : γ → δ} (m : Many γ) : (manyMap f m).all Q ↔ m.all fun x => Q (f x) := by
  induction m with
  | one x => exact Iff.rfl
  | more before x ih => exact and_congr ih Iff.rfl

theorem instructionsMap_all {Q : Exp β → Prop} {f : Exp α → Exp β} (p : Instructions α) :
    Many.all (InstructionAll Q) (instructionsMap f p) ↔ p.all (InstructionAll fun e => Q (f e)) := by
  have each : ∀ i : Instruction α, InstructionAll Q (instructionMap f i) ↔ InstructionAll (fun e => Q (f e)) i := by
    intro i
    cases i with
    | block id flag entries => exact many_map entries
    | trigger cond ass => exact and_congr Iff.rfl (many_map ass)
    | var id init => cases init <;> exact Iff.rfl
  rw [instructionsMap,many_map]
  exact ⟨many_all (fun i => (each i).mp) p,many_all (fun i => (each i).mpr) p⟩

theorem args_rewrite_shape (value : α → Operand β) (minus : Operand α → Operand β → Operand β) (args : Args (Exp α)) :
    argsMade (argsRewrite value minus args) = argsMade args ∧ argsLength (argsRewrite value minus args) = argsLength args := by
  induction args with
  | none => exact ⟨rfl,rfl⟩
  | one e => exact ⟨rfl,rfl⟩
  | more before e ih => exact ⟨ih.1,congrArg (· + 1) ih.2⟩

section
variable {count : Func → Nat → Bool} {value : α → Operand β} {minus : Operand α → Operand β → Operand β}

mutual
/-- A rewriting that adds and takes away no calls keeps the calls. -/
theorem operand_calls (number : ∀ v, OperandCalls count (value v))
    (prefixed : ∀ a b, (OperandCalls count b ↔ OperandCalls count a) → (OperandCalls count (minus a b) ↔ OperandCalls count a)) :
    ∀ a : Operand α, OperandCalls count (operandRewrite value minus a) ↔ OperandCalls count a
  | .value v => iff_of_true (number v) trivial
  | .ref _ => Iff.rfl
  | .flag _ _ => Iff.rfl
  | .parens e => exp_calls number prefixed e
  | .minus a => prefixed a _ (operand_calls number prefixed a)
  | .call id args => by
    obtain ⟨made,length⟩ := args_rewrite_shape value minus args
    simp only [operandRewrite,OperandCalls,made,length,args_calls number prefixed args]

theorem exp_calls (number : ∀ v, OperandCalls count (value v))
    (prefixed : ∀ a b, (OperandCalls count b ↔ OperandCalls count a) → (OperandCalls count (minus a b) ↔ OperandCalls count a)) :
    ∀ e : Grouping Op (Operand α), ExpCalls count (expRewrite value minus e) ↔ ExpCalls count e
  | .leaf a => operand_calls number prefixed a
  | .node _ left right => and_congr (exp_calls number prefixed left) (exp_calls number prefixed right)

theorem args_calls (number : ∀ v, OperandCalls count (value v))
    (prefixed : ∀ a b, (OperandCalls count b ↔ OperandCalls count a) → (OperandCalls count (minus a b) ↔ OperandCalls count a)) :
    ∀ args : Args (Grouping Op (Operand α)), ArgsCalls count (argsRewrite value minus args) ↔ ArgsCalls count args
  | .none => Iff.rfl
  | .one e => exp_calls number prefixed e
  | .more before e => and_congr (args_calls number prefixed before) (exp_calls number prefixed e)
end

end

/-- So does such a rewriting of a program. -/
theorem goodCalls_rewrite {value : α → Operand β} {minus : Operand α → Operand β → Operand β}
    (number : ∀ v, OperandCalls neededCount (value v))
    (prefixed : ∀ a b, (OperandCalls neededCount b ↔ OperandCalls neededCount a) →
      (OperandCalls neededCount (minus a b) ↔ OperandCalls neededCount a)) (p : Instructions α) :
    GoodCalls (instructionsMap (expRewrite value minus) p : Instructions β) ↔ GoodCalls p := by
  refine (instructionsMap_all p).trans ?_
  exact ⟨many_all (fun _ => instructionAll_mono fun e => (exp_calls number prefixed e).mp) p,
    many_all (fun _ => instructionAll_mono fun e => (exp_calls number prefixed e).mpr) p⟩

/-- The tree with other values. -/
def expMap (f : α → β) : Exp α → Exp β := expRewrite (fun v => .value (f v)) fun _ a => .minus a

/-- The calls are the same. -/
theorem goodCalls_map (f : α → β) (p : Instructions α) :
    GoodCalls (instructionsMap (expMap f) p : Instructions β) ↔ GoodCalls p := by
  have number : ∀ v : α, OperandCalls neededCount (Operand.value (f v)) := fun _ => trivial
  have prefixed : ∀ (a : Operand α) (b : Operand β), (OperandCalls neededCount b ↔ OperandCalls neededCount a) →
      (OperandCalls neededCount b.minus ↔ OperandCalls neededCount a) := fun _ _ same => same
  exact goodCalls_rewrite number prefixed p

theorem map_transfer (f : α → β) :
    Transfer (fun _ tokens => tokens.map (Token.map f)) .mul .mul (fun v => .value (f v)) fun _ a => .minus a where
  nil := rfl
  keeps _ t rest _ := by
    cases t with
    | value v => exact v.elim
    | _ => rfl
  binary _ _ := rfl
  number _ _ := rfl
  prefixed a rest ih := congrArg (fun tokens => (Token.op Op.mul : Token β) :: tokens) ih

/-- The tokens up to the first one that stands where a program has none like it: `sign` is the only operator before an
operand, and after an operand there is no value. -/
def cut (sign : Op) : Bool → List (Token α) → List (Token α)
  | _, [] => []
  | true, .op op :: rest => if op = sign then .op op :: cut sign true rest else []
  | false, .value _ :: _ => []
  | _, t :: rest => t :: cut sign (opens t) rest

theorem cut_transfer (sign : Op) : Transfer (cut sign) sign sign (.value : α → Operand α) fun _ a => .minus a where
  nil := rfl
  keeps opening t rest noOp := by
    cases t with
    | op o => exact absurd rfl (noOp o)
    | value v => exact v.elim
    | _ => cases opening <;> rfl
  binary _ _ := rfl
  number _ _ := rfl
  prefixed a rest ih := by
    rw [cut,if_pos rfl,ih]
    rfl

theorem keep_transfer (sign : Op) : Transfer (fun _ tokens => tokens) sign sign (.value : α → Operand α) fun _ a => .minus a where
  nil := rfl
  keeps _ _ _ _ := rfl
  binary _ _ := rfl
  number _ _ := rfl
  prefixed _ _ ih := congrArg (List.cons (Token.op sign)) ih

/-- In a program every token stands where it can. -/
theorem instructions_cut (sign : Op) (p : Instructions α) : cut sign false (p.tokens sign) = p.tokens sign :=
  (instructions_transfer (cut_transfer sign) p).symm.trans (instructions_transfer (keep_transfer sign) p)

theorem above_map {f : α → β} {n : Nat} {e : Exp α} (above : e.Above rank n) : (expMap f e).Above rank n := by
  cases e with
  | leaf a => trivial
  | node op left right => exact above

section
variable (f : α → β)

mutual
theorem operand_same : ∀ a : Operand α, a.Fine → (operandRewrite (fun v => .value (f v)) (fun _ a => .minus a) a).Fine ∧
    operandNeed (operandRewrite (fun v => .value (f v)) (fun _ a => .minus a) a) = operandNeed a
  | .value _, _ => ⟨trivial,rfl⟩
  | .ref _, _ => ⟨trivial,rfl⟩
  | .flag _ _, _ => ⟨trivial,rfl⟩
  | .parens e, fine => by
    obtain ⟨fine',need⟩ := exp_same e fine
    exact ⟨fine',congrArg (fun n => max 3 (1 + n)) need⟩
  | .minus a, fine => by
    obtain ⟨fine',need⟩ := operand_same a fine
    exact ⟨fine',by simp only [operandRewrite,operandNeed,need]⟩
  | .call _ args, fine => by
    obtain ⟨fine',need⟩ := args_same args fine
    exact ⟨fine',by simp only [operandRewrite,operandNeed,need]⟩

theorem exp_same : ∀ e : Grouping Op (Operand α), ExpFine e → ExpFine (expMap f e) ∧ expNeed (expMap f e) = expNeed e
  | .leaf a, fine => operand_same a fine
  | .node _ left right, fine => by
    obtain ⟨fineLeft,fineRight,aboveLeft,aboveRight⟩ := fine
    obtain ⟨fineLeft',needLeft⟩ := exp_same left fineLeft
    obtain ⟨fineRight',needRight⟩ := exp_same right fineRight
    refine ⟨⟨fineLeft',fineRight',above_map aboveLeft,above_map aboveRight⟩,?_⟩
    simp only [expMap,expRewrite,expNeed] at needLeft needRight ⊢
    rw [needLeft,needRight]

theorem args_same : ∀ args : Args (Grouping Op (Operand α)), ArgsFine args →
    ArgsFine (argsRewrite (fun v => .value (f v)) (fun _ a => .minus a) args) ∧
      argsNeed (argsRewrite (fun v => .value (f v)) (fun _ a => .minus a) args) = argsNeed args
  | .none, _ => ⟨trivial,rfl⟩
  | .one e, fine => exp_same e fine
  | .more before e, fine => by
    obtain ⟨fineBefore,needBefore⟩ := args_same before fine.1
    obtain ⟨fineLast,needLast⟩ := exp_same e fine.2
    refine ⟨⟨fineBefore,fineLast⟩,?_⟩
    simp only [expMap] at needLast
    simp only [argsRewrite,argsNeed,needBefore,needLast]
end

end

theorem instruction_fine (i : Instruction α) : i.Fine ↔ InstructionAll ExpFine i := by
  cases i with
  | block id flag entries => exact Iff.rfl
  | trigger cond ass => exact Iff.rfl
  | var id init => cases init <;> exact Iff.rfl

theorem instructions_fine (p : Instructions α) : p.Fine ↔ p.all (InstructionAll ExpFine) :=
  ⟨many_all (fun i => (instruction_fine i).mp) p,many_all (fun i => (instruction_fine i).mpr) p⟩

theorem many_need {γ δ : Type} {P : γ → Prop} {f : γ → δ} {need : γ → Nat} {need' : δ → Nat} {n : Nat}
    (same : ∀ x, P x → need' (f x) = need x) (m : Many γ) (all : m.all P) : manyNeed n need' (manyMap f m) = manyNeed n need m := by
  induction m with
  | one x => exact same x all
  | more before x ih =>
    simp only [manyMap,manyNeed,ih all.1,same x all.2]

theorem instruction_need (f : α → β) (i : Instruction α) (fine : InstructionAll ExpFine i) :
    instructionNeed (instructionMap (expMap f) i) = instructionNeed i := by
  have need : ∀ e : Exp α, ExpFine e → expNeed (expMap f e) = expNeed e := fun e fine => (exp_same f e fine).2
  cases i with
  | block id flag entries =>
    have inside : manyNeed 1 entryNeed (manyMap (fun e : Entry α => (⟨expMap f e.rval,expMap f e.cond⟩ : Entry β)) entries) =
        manyNeed 1 entryNeed entries := by
      refine many_need (fun e both => ?_) entries fine
      simp only [entryNeed,need _ both.1,need _ both.2]
    simp only [instructionMap,instructionNeed,inside]
  | trigger cond ass =>
    have inside : manyNeed 2 assignmentNeed (manyMap (fun a : Assignment α => (⟨a.id,a.flag,expMap f a.rval⟩ : Assignment β)) ass) =
        manyNeed 2 assignmentNeed ass := by
      refine many_need (fun a one => ?_) ass fine.2
      simp only [assignmentNeed,need a.rval one]
    simp only [instructionMap,instructionNeed,need _ fine.1,inside]
  | var id init =>
    cases init with
    | none => rfl
    | some e => simp only [instructionMap,Option.map_some,instructionNeed,need e fine]

/-- With other values a program is as fine, and the parser needs as much room for it. -/
theorem instructionsMap_same (f : α → β) (p : Instructions α) (fine : p.Fine) :
    Instructions.Fine (instructionsMap (expMap f) p) ∧ instructionsNeed (instructionsMap (expMap f) p) = instructionsNeed p := by
  have all := (instructions_fine p).mp fine
  have mapped := many_all (fun _ => instructionAll_mono fun e fine => (exp_same f e fine).1) p all
  refine ⟨(instructions_fine _).mpr ((instructionsMap_all p).mpr mapped),?_⟩
  rw [instructionsNeed,instructionsNeed,instructionsMap,many_need (instruction_need f) p all]

theorem expCalls_leaves {count : Func → Nat → Bool} (e : Exp α) : ExpCalls count e ↔ ∀ a ∈ e.leaves, OperandCalls count a := by
  induction e with
  | leaf a => simp [ExpCalls,Grouping.leaves,Grouping.first,Grouping.rest]
  | node op left right ihLeft ihRight =>
    simp only [ExpCalls,ihLeft,ihRight,Grouping.leaves,Grouping.first,Grouping.rest,List.map_append,List.map_cons,
      ← List.cons_append,List.forall_mem_append]

section
variable {count : Func → Nat → Bool}

mutual
/-- Every operand has the tokens of a grouped one, with the same calls. -/
theorem operand_regroup : ∀ a : Operand α, ∃ a' : Operand α, a'.Fine ∧ a'.tokens .mul = a.tokens .mul ∧
    (OperandCalls count a → OperandCalls count a')
  | .value v => ⟨.value v,trivial,rfl,id⟩
  | .ref id => ⟨.ref id,trivial,rfl,fun calls => calls⟩
  | .flag id bit => ⟨.flag id bit,trivial,rfl,fun calls => calls⟩
  | .parens e => by
    obtain ⟨e',fine,same,calls⟩ := exp_regroup e
    exact ⟨.parens e',fine,by simp only [Operand.tokens,same],calls⟩
  | .minus a => by
    obtain ⟨a',fine,same,calls⟩ := operand_regroup a
    exact ⟨.minus a',fine,by simp only [Operand.tokens,same],calls⟩
  | .call id args => by
    obtain ⟨args',fine,same,calls,made,length⟩ := args_regroup args
    refine ⟨.call id args',fine,by simp only [Operand.tokens,same],?_⟩
    rintro ⟨known,isMade,inside⟩
    exact ⟨length ▸ known,made ▸ isMade,calls inside⟩

theorem exp_regroup : ∀ e : Grouping Op (Operand α), ∃ e' : Exp α, ExpFine e' ∧ expTokens .mul e' = expTokens .mul e ∧
    (ExpCalls count e → ExpCalls count e')
  | .leaf a => by
    obtain ⟨a',fine,same,calls⟩ := operand_regroup a
    exact ⟨.leaf a',fine,same,calls⟩
  | .node op left right => by
    obtain ⟨left',fineLeft,sameLeft,callsLeft⟩ := exp_regroup left
    obtain ⟨right',fineRight,sameRight,callsRight⟩ := exp_regroup right
    obtain ⟨fine,same⟩ := join_fine op fineLeft fineRight
    rw [sameLeft,sameRight] at same
    refine ⟨_,fine,same,fun calls => (expCalls_leaves _).mpr ?_⟩
    rw [join_leaves]
    exact List.forall_mem_append.mpr
      ⟨(expCalls_leaves left').mp (callsLeft calls.1),(expCalls_leaves right').mp (callsRight calls.2)⟩

theorem args_regroup : ∀ args : Args (Grouping Op (Operand α)),
    ∃ args' : Args (Exp α), ArgsFine args' ∧ argsTokens .mul args' = argsTokens .mul args ∧
      (ArgsCalls count args → ArgsCalls count args') ∧ argsMade args' = argsMade args ∧ argsLength args' = argsLength args
  | .none => ⟨.none,trivial,rfl,id,rfl,rfl⟩
  | .one e => by
    obtain ⟨e',fine,same,calls⟩ := exp_regroup e
    exact ⟨.one e',fine,same,calls,rfl,rfl⟩
  | .more before e => by
    obtain ⟨before',fineBefore,sameBefore,callsBefore,made,length⟩ := args_regroup before
    obtain ⟨e',fine,same,calls⟩ := exp_regroup e
    refine ⟨.more before' e',⟨fineBefore,fine⟩,by simp only [argsTokens,sameBefore,same],?_,made,congrArg (· + 1) length⟩
    exact fun both => ⟨callsBefore both.1,calls both.2⟩
end

theorem many_regroup {γ : Type} {P Q : γ → Prop} {each : γ → List (Token α)} (sep : List (Token α))
    (one : ∀ x, ∃ x', P x' ∧ each x' = each x ∧ (Q x → Q x')) (m : Many γ) :
    ∃ m' : Many γ, m'.all P ∧ m'.tokens each sep = m.tokens each sep ∧ (m.all Q → m'.all Q) := by
  induction m with
  | one x =>
    obtain ⟨x',holds,same,calls⟩ := one x
    exact ⟨.one x',holds,same,calls⟩
  | more before x ih =>
    obtain ⟨before',holdsBefore,sameBefore,callsBefore⟩ := ih
    obtain ⟨x',holds,same,calls⟩ := one x
    exact ⟨.more before' x',⟨holdsBefore,holds⟩,by simp only [Many.tokens,sameBefore,same],
      fun both => ⟨callsBefore both.1,calls both.2⟩⟩

theorem instruction_regroup (i : Instruction α) : ∃ i' : Instruction α, i'.Fine ∧ i'.tokens .mul = i.tokens .mul ∧
    (InstructionAll (ExpCalls count) i → InstructionAll (ExpCalls count) i') := by
  cases i with
  | block id flag entries =>
    have each : ∀ e : Entry α, ∃ e' : Entry α, e'.Fine ∧ e'.tokens .mul = e.tokens .mul ∧
        (ExpCalls count e.rval ∧ ExpCalls count e.cond → ExpCalls count e'.rval ∧ ExpCalls count e'.cond) := by
      intro e
      obtain ⟨rval,fineRval,sameRval,callsRval⟩ := exp_regroup e.rval
      obtain ⟨cond,fineCond,sameCond,callsCond⟩ := exp_regroup e.cond
      exact ⟨⟨rval,cond⟩,⟨fineRval,fineCond⟩,by simp only [Entry.tokens,sameRval,sameCond],
        fun both => ⟨callsRval both.1,callsCond both.2⟩⟩
    obtain ⟨entries',fine,same,calls⟩ := many_regroup [] each entries
    exact ⟨.block id flag entries',fine,by simp only [Instruction.tokens,same],calls⟩
  | trigger cond ass =>
    have each : ∀ a : Assignment α, ∃ a' : Assignment α, a'.Fine ∧ a'.tokens .mul = a.tokens .mul ∧
        (ExpCalls count a.rval → ExpCalls count a'.rval) := by
      intro a
      obtain ⟨rval,fine,same,calls⟩ := exp_regroup a.rval
      exact ⟨⟨a.id,a.flag,rval⟩,fine,by simp only [Assignment.tokens,same],calls⟩
    obtain ⟨cond',fineCond,sameCond,callsCond⟩ := exp_regroup cond
    obtain ⟨ass',fine,same,calls⟩ := many_regroup [.comma] each ass
    exact ⟨.trigger cond' ass',⟨fineCond,fine⟩,by simp only [Instruction.tokens,sameCond,same],
      fun both => ⟨callsCond both.1,calls both.2⟩⟩
  | var id init =>
    cases init with
    | none => exact ⟨.var id none,trivial,rfl,fun calls => calls⟩
    | some e =>
      obtain ⟨e',fine,same,calls⟩ := exp_regroup e
      exact ⟨.var id (some e'),fine,by simp only [Instruction.tokens,same],calls⟩

/-- Every program has the tokens of a grouped one, with the same calls. -/
theorem instructions_regroup (p : Instructions α) : ∃ p' : Instructions α, p'.Fine ∧ p'.tokens .mul = p.tokens .mul ∧
    (p.all (InstructionAll (ExpCalls count)) → p'.all (InstructionAll (ExpCalls count))) :=
  many_regroup [] instruction_regroup p

end

end Starter.Rewriting
