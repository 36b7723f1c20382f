import Starter.Grammar
import Starter.Lib.Precedence

/-!
Syntax trees of the rules. Operands are joined by binary operators in the groups that the
`%left` lines of `src/rules.y` make of them; every word that the grammar derives is the
word of such a tree.
-/
namespace Starter.Syntax
open Expressions Grammar Lib.Lr Lib.Precedence

/-- A token that `yylex` returns, with its `yylval`. -/
inductive Token (α : Type)
  | eof
  | op (o : Op)
  | keyVar | keySet | keyWhen | keyTrigger | keyFlag
  | value (dval : α)
  | identifier (sval : String)
  | flagName (uval : IoFlags)
  | braceOpen | braceClose | semicolon | comma | assign | parenOpen | parenClose
deriving DecidableEq

variable {α : Type}

def Token.kind : Token α → Terminal
  | .eof => .eof
  | .op o => .op o
  | .keyVar => .keyVar
  | .keySet => .keySet
  | .keyWhen => .keyWhen
  | .keyTrigger => .keyTrigger
  | .keyFlag => .keyFlag
  | .value _ => .value
  | .identifier _ => .identifier
  | .flagName _ => .flagName
  | .braceOpen => .braceOpen
  | .braceClose => .braceClose
  | .semicolon => .semicolon
  | .comma => .comma
  | .assign => .assign
  | .parenOpen => .parenOpen
  | .parenClose => .parenClose

/-- The token with another value for a number. -/
def Token.map {β : Type} (f : α → β) : Token α → Token β
  | .eof => .eof
  | .op o => .op o
  | .keyVar => .keyVar
  | .keySet => .keySet
  | .keyWhen => .keyWhen
  | .keyTrigger => .keyTrigger
  | .keyFlag => .keyFlag
  | .value v => .value (f v)
  | .identifier id => .identifier id
  | .flagName bit => .flagName bit
  | .braceOpen => .braceOpen
  | .braceClose => .braceClose
  | .semicolon => .semicolon
  | .comma => .comma
  | .assign => .assign
  | .parenOpen => .parenOpen
  | .parenClose => .parenClose

@[simp] theorem map_kind {β : Type} (f : α → β) (t : Token α) : (t.map f).kind = t.kind := by cases t <;> rfl

/-- The levels of the lines `%left`, the loosest first. -/
def rank : Op → Nat
  | .and => 1
  | .or => 2
  | .eq | .ne => 3
  | .lt | .le | .gt | .ge => 4
  | .add | .sub => 5
  | .mul | .div => 6

/-- `argument_list`; it may be empty before its first comma, too. -/
inductive Args (β : Type)
  | none
  | one (e : β)
  | more (before : Args β) (e : β)

/-- A list of at least one member, the last one at the root. -/
inductive Many (β : Type)
  | one (x : β)
  | more (before : Many β) (x : β)

inductive Operand (α : Type)
  | value (v : α)
  | ref (id : String)
  | flag (id : String) (bit : IoFlags)
  | parens (e : Grouping Op (Operand α))
  | minus (a : Operand α)
  | call (id : String) (args : Args (Grouping Op (Operand α)))

abbrev Exp (α : Type) := Grouping Op (Operand α)

/-- `assignment`; without a flag or with one. -/
structure Assignment (α : Type) where
  id : String
  flag : Option IoFlags
  rval : Exp α

/-- `label_entry`. -/
structure Entry (α : Type) where
  rval : Exp α
  cond : Exp α

/-- `instruction`. -/
inductive Instruction (α : Type)
  | block (id : String) (flag : Option IoFlags) (entries : Many (Entry α))
  | trigger (cond : Exp α) (ass : Many (Assignment α))
  | var (id : String) (init : Option (Exp α))

abbrev Instructions (α : Type) := Many (Instruction α)

mutual
/-- The tokens of an operand; `sign` is the prefix operator, which the manual writes `-` and the grammar `*`. -/
def Operand.tokens (sign : Op) : Operand α → List (Token α)
  | .value v => [.value v]
  | .ref id => [.identifier id]
  | .flag id bit => [.identifier id,.keyFlag,.flagName bit]
  | .parens e => .parenOpen :: (expTokens sign e ++ [.parenClose])
  | .minus a => .op sign :: a.tokens sign
  | .call id args => .identifier id :: .parenOpen :: (argsTokens sign args ++ [.parenClose])

def expTokens (sign : Op) : Grouping Op (Operand α) → List (Token α)
  | .leaf a => a.tokens sign
  | .node op left right => expTokens sign left ++ .op op :: expTokens sign right

def argsTokens (sign : Op) : Args (Grouping Op (Operand α)) → List (Token α)
  | .none => []
  | .one e => expTokens sign e
  | .more before e => argsTokens sign before ++ .comma :: expTokens sign e
end

def Many.all {β : Type} (p : β → Prop) : Many β → Prop
  | .one x => p x
  | .more before x => before.all p ∧ p x

/-- The tokens of a list, with `sep` between its members. -/
def Many.tokens {β : Type} (each : β → List (Token α)) (sep : List (Token α)) : Many β → List (Token α)
  | .one x => each x
  | .more before x => before.tokens each sep ++ (sep ++ each x)

def flagTokens : Option IoFlags → List (Token α)
  | none => []
  | some bit => [.keyFlag,.flagName bit]

def Assignment.tokens (sign : Op) (a : Assignment α) : List (Token α) :=
  .identifier a.id :: (flagTokens a.flag ++ .assign :: expTokens sign a.rval)

def Entry.tokens (sign : Op) (e : Entry α) : List (Token α) :=
  .keySet :: (expTokens sign e.rval ++ .keyWhen :: (expTokens sign e.cond ++ [.semicolon]))

def Instruction.tokens (sign : Op) : Instruction α → List (Token α)
  | .block id flag entries =>
    .identifier id :: (flagTokens flag ++ .braceOpen :: (entries.tokens (Entry.tokens sign) [] ++ [.braceClose]))
  | .trigger cond ass =>
    .keyTrigger :: .keyWhen ::
      (expTokens sign cond ++ .keySet :: (ass.tokens (Assignment.tokens sign) [.comma] ++ [.semicolon]))
  | .var id none => [.keyVar,.identifier id,.semicolon]
  | .var id (some e) => .keyVar :: .identifier id :: .assign :: (expTokens sign e ++ [.semicolon])

def Instructions.tokens (sign : Op) (p : Instructions α) : List (Token α) := Many.tokens (Instruction.tokens sign) [] p

mutual
/-- Every expression in the operand is grouped. -/
def Operand.Fine : Operand α → Prop
  | .value _ => True
  | .ref _ => True
  | .flag _ _ => True
  | .parens e => ExpFine e
  | .minus a => a.Fine
  | .call _ args => ArgsFine args

/-- The operators are grouped by their ranks, here and in the operands. -/
def ExpFine : Grouping Op (Operand α) → Prop
  | .leaf a => a.Fine
  | .node op left right => ExpFine left ∧ ExpFine right ∧ left.Above rank (rank op) ∧ right.Above rank (rank op + 1)

def ArgsFine : Args (Grouping Op (Operand α)) → Prop
  | .none => True
  | .one e => ExpFine e
  | .more before e => ArgsFine before ∧ ExpFine e
end

def Assignment.Fine (a : Assignment α) : Prop := ExpFine a.rval

def Entry.Fine (e : Entry α) : Prop := ExpFine e.rval ∧ ExpFine e.cond

def Instruction.Fine : Instruction α → Prop
  | .block _ _ entries => entries.all Entry.Fine
  | .trigger cond ass => ExpFine cond ∧ ass.all Assignment.Fine
  | .var _ none => True
  | .var _ (some e) => ExpFine e

def Instructions.Fine (p : Instructions α) : Prop := Many.all Instruction.Fine p

theorem expFine_iff (e : Exp α) : ExpFine e ↔ e.Grouped rank ∧ ∀ a ∈ e.leaves, a.Fine := by
  induction e with
  | leaf a => simp [ExpFine,Grouping.Grouped,Grouping.leaves,Grouping.first,Grouping.rest]
  | node op left right ihLeft ihRight =>
    simp only [ExpFine,ihLeft,ihRight,Grouping.Grouped,Grouping.leaves,Grouping.first,Grouping.rest,List.map_append,List.map_cons,
      List.mem_cons,List.mem_append]
    constructor
    · rintro ⟨⟨groupedLeft,fineLeft⟩,⟨groupedRight,fineRight⟩,aboveLeft,aboveRight⟩
      refine ⟨⟨groupedLeft,groupedRight,aboveLeft,aboveRight⟩,?_⟩
      rintro a (first | inLeft | inRight)
      · exact fineLeft a (.inl first)
      · exact fineLeft a (.inr inLeft)
      · exact fineRight a inRight
    · rintro ⟨⟨groupedLeft,groupedRight,aboveLeft,aboveRight⟩,fine⟩
      refine ⟨⟨groupedLeft,?_⟩,⟨groupedRight,?_⟩,aboveLeft,aboveRight⟩
      · rintro a (first | inLeft)
        · exact fine a (.inl first)
        · exact fine a (.inr (.inl inLeft))
      · exact fun a member => fine a (.inr (.inr member))

/-- The tokens of the operators and operands after the first one. -/
def restTokens (sign : Op) (rest : List (Op × Operand α)) : List (Token α) :=
  rest.flatMap fun next => .op next.1 :: next.2.tokens sign

/-- How an expression is grouped does not show in its tokens. -/
theorem expTokens_eq (sign : Op) (e : Exp α) : expTokens sign e = e.first.tokens sign ++ restTokens sign e.rest := by
  induction e with
  | leaf a => simp [expTokens,Grouping.first,Grouping.rest,restTokens]
  | node op left right ihLeft ihRight =>
    simp [expTokens,ihLeft,ihRight,Grouping.first,Grouping.rest,restTokens]

/-- What the grammar derives, as syntax trees. -/
def Holds : Symbol → List (Token α) → Prop
  | .inl t, word => ∃ k : Token α, word = [k] ∧ k.kind = t
  | .inr .accept, _ => True
  | .inr .program, word => ∃ p : Instructions α, p.Fine ∧ p.tokens .mul = word
  | .inr .instructionList, word => ∃ p : Instructions α, p.Fine ∧ p.tokens .mul = word
  | .inr .instruction, word => ∃ i : Instruction α, i.Fine ∧ i.tokens .mul = word
  | .inr .labelBlock, word => ∃ i : Instruction α, i.Fine ∧ i.tokens .mul = word
  | .inr .triggerStatement, word => ∃ i : Instruction α, i.Fine ∧ i.tokens .mul = word
  | .inr .declaration, word => ∃ i : Instruction α, i.Fine ∧ i.tokens .mul = word
  | .inr .labelEntries, word => ∃ es : Many (Entry α), es.all Entry.Fine ∧ es.tokens (Entry.tokens .mul) [] = word
  | .inr .labelEntry, word => ∃ e : Entry α, e.Fine ∧ e.tokens .mul = word
  | .inr .assignmentList, word =>
    ∃ as : Many (Assignment α), as.all Assignment.Fine ∧ as.tokens (Assignment.tokens .mul) [.comma] = word
  | .inr .assignment, word => ∃ a : Assignment α, a.Fine ∧ a.tokens .mul = word
  | .inr .expr, word => ∃ e : Exp α, ExpFine e ∧ expTokens .mul e = word
  | .inr .argumentList, word => ∃ args : Args (Exp α), ArgsFine args ∧ argsTokens .mul args = word

/-- The token of a kind that has no value. -/
def plain : Terminal → Option (Token α)
  | .eof => some .eof
  | .op o => some (.op o)
  | .keyVar => some .keyVar
  | .keySet => some .keySet
  | .keyWhen => some .keyWhen
  | .keyTrigger => some .keyTrigger
  | .keyFlag => some .keyFlag
  | .value | .identifier | .flagName => none
  | .braceOpen => some .braceOpen
  | .braceClose => some .braceClose
  | .semicolon => some .semicolon
  | .comma => some .comma
  | .assign => some .assign
  | .parenOpen => some .parenOpen
  | .parenClose => some .parenClose

variable {word : List (Token α)}

theorem holds_plain {t : Terminal} {k : Token α} (known : plain t = some k) (holds : Holds (.inl t) word) :
    word = [k] := by
  obtain ⟨k',rfl,same⟩ := holds
  cases k' <;> cases same <;> cases known <;> rfl

theorem holds_value (holds : Holds (α := α) (.inl .value) word) : ∃ v, word = [.value v] := by
  obtain ⟨k,rfl,same⟩ := holds
  cases k <;> cases same
  exact ⟨_,rfl⟩

theorem holds_identifier (holds : Holds (α := α) (.inl .identifier) word) : ∃ id, word = [.identifier id] := by
  obtain ⟨k,rfl,same⟩ := holds
  cases k <;> cases same
  exact ⟨_,rfl⟩

theorem holds_flagName (holds : Holds (α := α) (.inl .flagName) word) : ∃ bit, word = [.flagName bit] := by
  obtain ⟨k,rfl,same⟩ := holds
  cases k <;> cases same
  exact ⟨_,rfl⟩

/-- A derivation of a binary operator regroups: its word has a tree that is grouped by the ranks. -/
theorem join_fine {left right : Exp α} (op : Op) (fineLeft : ExpFine left) (fineRight : ExpFine right) :
    ExpFine (left.join rank op right) ∧
      expTokens .mul (left.join rank op right) = expTokens .mul left ++ .op op :: expTokens .mul right := by
  obtain ⟨_,leavesLeft⟩ := (expFine_iff left).mp fineLeft
  obtain ⟨_,leavesRight⟩ := (expFine_iff right).mp fineRight
  constructor
  · refine (expFine_iff _).mpr ⟨group_grouped _ _ _,?_⟩
    rw [join_leaves]
    exact List.forall_mem_append.mpr ⟨leavesLeft,leavesRight⟩
  · simp [Grouping.join,expTokens_eq,restTokens]

/-- A prefix `*` before a whole expression is one before its first operand. -/
theorem minus_holds {e : Exp α} (fine : ExpFine e) : Holds (.inr .expr) (.op .mul :: expTokens .mul e) := by
  obtain ⟨grouped,leaves⟩ := (expFine_iff e).mp fine
  refine ⟨e.mapFirst .minus,(expFine_iff _).mpr ⟨mapFirst_grouped _ grouped,?_⟩,?_⟩
  · intro a member
    rw [Grouping.leaves,mapFirst_first,mapFirst_rest] at member
    rcases List.mem_cons.mp member with rfl | later
    · exact leaves e.first List.mem_cons_self
    · exact leaves a (List.mem_cons_of_mem _ later)
  · rw [expTokens_eq,expTokens_eq,mapFirst_first,mapFirst_rest]
    rfl

/-- The rules of expressions and their arguments. -/
private theorem exp_rule_holds (r : Rule) (isExp : r.lhs = .expr ∨ r.lhs = .argumentList)
    (along : Along (Holds (α := α)) r.rhs word) : Holds (.inr r.lhs) word := by
  cases r with
  | value =>
    obtain ⟨_,_,rfl,value,rfl⟩ := along
    obtain ⟨v,rfl⟩ := holds_value value
    exact ⟨.leaf (.value v),trivial,rfl⟩
  | identifier =>
    obtain ⟨_,_,rfl,named,rfl⟩ := along
    obtain ⟨id,rfl⟩ := holds_identifier named
    exact ⟨.leaf (.ref id),trivial,rfl⟩
  | flag =>
    obtain ⟨_,_,rfl,named,_,_,rfl,key,_,_,rfl,ofFlag,rfl⟩ := along
    obtain ⟨id,rfl⟩ := holds_identifier named
    obtain rfl := holds_plain rfl key
    obtain ⟨bit,rfl⟩ := holds_flagName ofFlag
    exact ⟨.leaf (.flag id bit),trivial,rfl⟩
  | binary op =>
    obtain ⟨_,_,rfl,⟨left,fineLeft,rfl⟩,_,_,rfl,key,_,_,rfl,⟨right,fineRight,rfl⟩,rfl⟩ := along
    obtain rfl := holds_plain rfl key
    rw [List.append_nil]
    exact ⟨_,join_fine op fineLeft fineRight⟩
  | parentheses =>
    obtain ⟨_,_,rfl,opens,_,_,rfl,⟨e,fine,rfl⟩,_,_,rfl,closes,rfl⟩ := along
    obtain rfl := holds_plain rfl opens
    obtain rfl := holds_plain rfl closes
    exact ⟨.leaf (.parens e),fine,by simp [expTokens,Operand.tokens]⟩
  | minus =>
    obtain ⟨_,_,rfl,star,_,_,rfl,⟨e,fine,rfl⟩,rfl⟩ := along
    obtain rfl := holds_plain rfl star
    rw [List.append_nil]
    exact minus_holds fine
  | call =>
    obtain ⟨_,_,rfl,named,_,_,rfl,opens,_,_,rfl,⟨args,fine,rfl⟩,_,_,rfl,closes,rfl⟩ := along
    obtain ⟨id,rfl⟩ := holds_identifier named
    obtain rfl := holds_plain rfl opens
    obtain rfl := holds_plain rfl closes
    exact ⟨.leaf (.call id args),fine,by simp [expTokens,Operand.tokens]⟩
  | argumentsNone =>
    obtain rfl : word = [] := along
    exact ⟨.none,trivial,rfl⟩
  | argumentsOne =>
    obtain ⟨_,_,rfl,⟨e,fine,rfl⟩,rfl⟩ := along
    exact ⟨.one e,fine,by simp [argsTokens]⟩
  | argumentsMore =>
    obtain ⟨_,_,rfl,⟨before,fineBefore,rfl⟩,_,_,rfl,comma,_,_,rfl,⟨e,fine,rfl⟩,rfl⟩ := along
    obtain rfl := holds_plain rfl comma
    exact ⟨.more before e,⟨fineBefore,fine⟩,by simp [argsTokens]⟩
  | accept | program | instructionsOne | instructionsMore | labelBlock | triggerStatement | declaration | block
  | flagBlock | entriesOne | entriesMore | entry | trigger | assignmentsOne | assignmentsMore | assignment
  | flagAssignment | varDeclaration | varInitialized => simp [Rule.lhs] at isExp

/-- Every rule keeps what holds of the symbols. -/
theorem rule_holds (r : Rule) (word : List (Token α)) (along : Along (Holds (α := α)) r.rhs word) :
    Holds (.inr r.lhs) word := by
  cases r with
  | value | identifier | flag | binary | parentheses | minus | call =>
    exact exp_rule_holds _ (.inl rfl) along
  | argumentsNone | argumentsOne | argumentsMore => exact exp_rule_holds _ (.inr rfl) along
  | accept => trivial
  | program | labelBlock | triggerStatement | declaration =>
    obtain ⟨_,_,rfl,holds,rfl⟩ := along
    rw [List.append_nil]
    exact holds
  | instructionsOne =>
    obtain ⟨_,_,rfl,⟨i,fine,rfl⟩,rfl⟩ := along
    exact ⟨.one i,fine,by simp [Instructions.tokens,Many.tokens]⟩
  | instructionsMore =>
    obtain ⟨_,_,rfl,⟨p,fineBefore,rfl⟩,_,_,rfl,⟨i,fine,rfl⟩,rfl⟩ := along
    exact ⟨.more p i,⟨fineBefore,fine⟩,by simp [Instructions.tokens,Many.tokens]⟩
  | block =>
    obtain ⟨_,_,rfl,named,_,_,rfl,opens,_,_,rfl,⟨entries,fine,rfl⟩,_,_,rfl,closes,rfl⟩ := along
    obtain ⟨id,rfl⟩ := holds_identifier named
    obtain rfl := holds_plain rfl opens
    obtain rfl := holds_plain rfl closes
    exact ⟨.block id none entries,fine,by simp [Instruction.tokens,flagTokens]⟩
  | flagBlock =>
    obtain ⟨_,_,rfl,named,_,_,rfl,key,_,_,rfl,ofFlag,_,_,rfl,opens,_,_,rfl,⟨entries,fine,rfl⟩,_,_,rfl,closes,rfl⟩ := along
    obtain ⟨id,rfl⟩ := holds_identifier named
    obtain rfl := holds_plain rfl key
    obtain ⟨bit,rfl⟩ := holds_flagName ofFlag
    obtain rfl := holds_plain rfl opens
    obtain rfl := holds_plain rfl closes
    exact ⟨.block id (some bit) entries,fine,by simp [Instruction.tokens,flagTokens]⟩
  | entriesOne =>
    obtain ⟨_,_,rfl,⟨e,fine,rfl⟩,rfl⟩ := along
    exact ⟨.one e,fine,by simp [Many.tokens]⟩
  | entriesMore =>
    obtain ⟨_,_,rfl,⟨before,fineBefore,rfl⟩,_,_,rfl,⟨e,fine,rfl⟩,rfl⟩ := along
    exact ⟨.more before e,⟨fineBefore,fine⟩,by simp [Many.tokens]⟩
  | entry =>
    obtain ⟨_,_,rfl,set,_,_,rfl,⟨rval,fineRval,rfl⟩,_,_,rfl,key,_,_,rfl,⟨cond,fineCond,rfl⟩,_,_,rfl,ends,rfl⟩ := along
    obtain rfl := holds_plain rfl set
    obtain rfl := holds_plain rfl key
    obtain rfl := holds_plain rfl ends
    exact ⟨⟨rval,cond⟩,⟨fineRval,fineCond⟩,by simp [Entry.tokens]⟩
  | trigger =>
    obtain ⟨_,_,rfl,key,_,_,rfl,condition,_,_,rfl,⟨cond,fineCond,rfl⟩,_,_,rfl,set,_,_,rfl,⟨ass,fine,rfl⟩,_,_,rfl,ends,
      rfl⟩ := along
    obtain rfl := holds_plain rfl key
    obtain rfl := holds_plain rfl condition
    obtain rfl := holds_plain rfl set
    obtain rfl := holds_plain rfl ends
    exact ⟨.trigger cond ass,⟨fineCond,fine⟩,by simp [Instruction.tokens]⟩
  | assignmentsOne =>
    obtain ⟨_,_,rfl,⟨a,fine,rfl⟩,rfl⟩ := along
    exact ⟨.one a,fine,by simp [Many.tokens]⟩
  | assignmentsMore =>
    obtain ⟨_,_,rfl,⟨before,fineBefore,rfl⟩,_,_,rfl,comma,_,_,rfl,⟨a,fine,rfl⟩,rfl⟩ := along
    obtain rfl := holds_plain rfl comma
    exact ⟨.more before a,⟨fineBefore,fine⟩,by simp [Many.tokens]⟩
  | assignment =>
    obtain ⟨_,_,rfl,named,_,_,rfl,equals,_,_,rfl,⟨e,fine,rfl⟩,rfl⟩ := along
    obtain ⟨id,rfl⟩ := holds_identifier named
    obtain rfl := holds_plain rfl equals
    exact ⟨⟨id,none,e⟩,fine,by simp [Assignment.tokens,flagTokens]⟩
  | flagAssignment =>
    obtain ⟨_,_,rfl,named,_,_,rfl,key,_,_,rfl,ofFlag,_,_,rfl,equals,_,_,rfl,⟨e,fine,rfl⟩,rfl⟩ := along
    obtain ⟨id,rfl⟩ := holds_identifier named
    obtain rfl := holds_plain rfl key
    obtain ⟨bit,rfl⟩ := holds_flagName ofFlag
    obtain rfl := holds_plain rfl equals
    exact ⟨⟨id,some bit,e⟩,fine,by simp [Assignment.tokens,flagTokens]⟩
  | varDeclaration =>
    obtain ⟨_,_,rfl,key,_,_,rfl,named,_,_,rfl,ends,rfl⟩ := along
    obtain rfl := holds_plain rfl key
    obtain ⟨id,rfl⟩ := holds_identifier named
    obtain rfl := holds_plain rfl ends
    exact ⟨.var id none,trivial,rfl⟩
  | varInitialized =>
    obtain ⟨_,_,rfl,key,_,_,rfl,named,_,_,rfl,equals,_,_,rfl,⟨e,fine,rfl⟩,_,_,rfl,ends,rfl⟩ := along
    obtain rfl := holds_plain rfl key
    obtain ⟨id,rfl⟩ := holds_identifier named
    obtain rfl := holds_plain rfl equals
    obtain rfl := holds_plain rfl ends
    exact ⟨.var id (some e),fine,by simp [Instruction.tokens]⟩

/-- Every derived word is that of a syntax tree. -/
theorem derives_instructions (derives : yyparse.Derives Token.kind [.inr .program] word) :
    ∃ p : Instructions α, p.Fine ∧ p.tokens .mul = word := by
  have along : Along Holds [.inr .program] word := derives_along (fun k => ⟨k,rfl,rfl⟩) rule_holds derives
  obtain ⟨_,_,rfl,⟨p,fine,rfl⟩,rfl⟩ := along
  exact ⟨p,fine,by simp⟩

end Starter.Syntax
