import Starter.Parsing

/-!
The documented precedence of the operators and the one that the parser gives them. The
lines `%left T_AND` and `%left T_OR` stand the other way round, so the two differ on the
sequences that have both `&&` and `||`, and only on those.
-/
namespace Starter.Operators
open Gdouble Expressions Rules Grammar Syntax Actions Parsing Lib.Lr Lib.Precedence

variable {α : Type}

/-- `yyparse` returns 0 on the tokens, and this is what it has built. -/
def Parses [Gdouble α] (tokens : List (Token α)) (after : Build α) : Prop :=
  yyparse.Accepts semantics stackRoom (tokens ++ [.eof]) emptyBuild after

/-- An operand without parentheses. -/
inductive Atom (α : Type)
  | value (v : α)
  | ref (id : String)
  | flag (id : String) (bit : IoFlags)

def Atom.operand : Atom α → Operand α
  | .value v => .value v
  | .ref id => .ref id
  | .flag id bit => .flag id bit

/-- The node that stands for an operand. -/
def Atom.expr : Atom α → Expr α
  | .value v => .literal v
  | .ref id => .ref id
  | .flag id bit => .flag id bit

/-- The nodes that stand for a tree. -/
def treeExpr : Grouping Op (Atom α) → Expr α
  | .leaf a => a.expr
  | .node op left right => .op op (treeExpr left) (treeExpr right)

/-- The precedence of the manual, the loosest first. -/
def documentedRank : Op → Nat
  | .or => 1
  | .and => 2
  | .eq | .ne => 3
  | .lt | .le | .gt | .ge => 4
  | .add | .sub => 5
  | .mul | .div => 6

/-- A sequence of operands and operators. -/
def sequenceTokens (first : Atom α) (rest : List (Op × Atom α)) : List (Token α) :=
  first.operand.tokens .mul ++ restTokens .mul (rest.map fun next => (next.1,next.2.operand))

/-- Where an expression can stand in an instruction. -/
inductive Place (α : Type)
  | var (id : String)
  | blockSet (id : String) (cond : Atom α)
  | blockCond (id : String) (rval : Atom α)
  | triggerCond (id : String) (rval : Atom α)
  | triggerSet (cond : Atom α) (id : String)

/-- The instruction with an expression at the place. -/
def Place.instruction (e : Exp α) : Place α → Instruction α
  | .var id => .var id (some e)
  | .blockSet id cond => .block id none (.one ⟨e,.leaf cond.operand⟩)
  | .blockCond id rval => .block id none (.one ⟨.leaf rval.operand,e⟩)
  | .triggerCond id rval => .trigger e (.one ⟨id,none,.leaf rval.operand⟩)
  | .triggerSet cond id => .trigger (.leaf cond.operand) (.one ⟨id,none,e⟩)

/-- The instruction with a word at the place. -/
def Place.tokens (word : List (Token α)) : Place α → List (Token α)
  | .var id => .keyVar :: .identifier id :: .assign :: (word ++ [.semicolon])
  | .blockSet id cond =>
    .identifier id :: .braceOpen :: .keySet :: (word ++ .keyWhen :: (cond.operand.tokens .mul ++ [.semicolon,.braceClose]))
  | .blockCond id rval =>
    .identifier id :: .braceOpen :: .keySet :: (rval.operand.tokens .mul ++ .keyWhen :: (word ++ [.semicolon,.braceClose]))
  | .triggerCond id rval =>
    .keyTrigger :: .keyWhen :: (word ++ .keySet :: .identifier id :: .assign :: (rval.operand.tokens .mul ++ [.semicolon]))
  | .triggerSet cond id =>
    .keyTrigger :: .keyWhen :: (cond.operand.tokens .mul ++ .keySet :: .identifier id :: .assign :: (word ++ [.semicolon]))

/-- The expression at the place, in a program that is the one instruction. -/
def Place.find (p : Program α) : Place α → Option (Expr α)
  | .var _ => p.decls.head?.map Prod.snd
  | .blockSet _ _ => p.engine.labels.head?.bind fun b => b.entries.head?.map fun e => e.ass.rval
  | .blockCond _ _ => p.engine.labels.head?.bind fun b => b.entries.head?.map fun e => e.cond
  | .triggerCond _ _ => p.engine.triggers.head?.map fun t => t.cond
  | .triggerSet _ _ => p.engine.triggers.head?.bind fun t => t.ass.head?.map fun a => a.rval

theorem place_tokens (place : Place α) (e : Exp α) :
    Instructions.tokens .mul (.one (place.instruction e)) = place.tokens (expTokens .mul e) := by
  cases place <;>
    simp [Instructions.tokens,Many.tokens,Place.instruction,Place.tokens,Instruction.tokens,Entry.tokens,Assignment.tokens,
      flagTokens,expTokens]

theorem atom_fine (a : Atom α) : a.operand.Fine := by cases a <;> trivial

theorem atom_need (a : Atom α) : operandNeed a.operand ≤ 3 := by cases a <;> simp [Atom.operand,operandNeed]

/-- A grouped tree needs little room: the ranks rise along its right side. -/
theorem grouped_need {e : Grouping Op (Atom α)} {n : Nat} (grouped : e.Grouped rank) (above : e.Above rank n) :
    expNeed (e.map Atom.operand) ≤ 3 + 2 * (7 - n) := by
  induction e generalizing n with
  | leaf a => exact le_trans (atom_need a) (Nat.le_add_right _ _)
  | node op left right ihLeft ihRight =>
    obtain ⟨groupedLeft,groupedRight,aboveLeft,aboveRight⟩ := grouped
    have binds : n ≤ rank op := above
    have top : rank op ≤ 6 := by cases op <;> decide
    have inLeft := ihLeft groupedLeft aboveLeft
    have inRight := ihRight groupedRight aboveRight
    simp only [Grouping.map,expNeed]
    omega

theorem grouped_fine {e : Grouping Op (Atom α)} (grouped : e.Grouped rank) : ExpFine (e.map Atom.operand) := by
  refine (expFine_iff _).mpr ⟨map_grouped.mpr grouped,?_⟩
  intro a member
  simp only [Grouping.leaves,map_first,map_rest,List.map_map,List.mem_cons,List.mem_map] at member
  rcases member with rfl | ⟨next,_,rfl⟩
  · exact atom_fine _
  · exact atom_fine _

section
variable [Gdouble α]

theorem atom_build (a : Atom α) (s : Build α) : operandBuild a.operand s = (.expr a.expr,s) := by cases a <;> rfl

/-- The actions build the nodes that stand for the tree. -/
theorem tree_build (e : Grouping Op (Atom α)) (s : Build α) : expBuild (e.map Atom.operand) s = (.expr (treeExpr e),s) := by
  induction e with
  | leaf a => exact atom_build a s
  | node op left right ihLeft ihRight =>
    simp only [Grouping.map,expBuild,ihLeft,ihRight]
    rfl

/-- The parser groups a sequence by the ranks of the `%left` lines, at every place. -/
theorem place_parses (place : Place α) (first : Atom α) (rest : List (Op × Atom α)) :
    ∃ after, Parses (place.tokens (sequenceTokens first rest)) after ∧
      place.find after.program = some (treeExpr (group rank first rest)) := by
  let e : Exp α := (group rank first rest).map Atom.operand
  have fine : ExpFine e := grouped_fine (group_grouped rank first rest)
  have need : expNeed e ≤ 17 := grouped_need (group_grouped rank first rest) (above_zero _)
  have text : expTokens .mul e = sequenceTokens first rest := by
    rw [expTokens_eq,map_first,map_rest,group_first,group_rest]
    rfl
  refine ⟨instructionsBuild (.one (place.instruction e)) emptyBuild,?_,?_⟩
  · rw [Parses,← text,← place_tokens]
    refine accepts_instructions _ ?_ fun m le => ?_
    · cases place with
      | var id => exact fine
      | blockSet id cond => exact ⟨fine,atom_fine cond⟩
      | blockCond id rval => exact ⟨atom_fine rval,fine⟩
      | triggerCond id rval => exact ⟨fine,atom_fine rval⟩
      | triggerSet cond id => exact ⟨atom_fine cond,fine⟩
    · have atoms : ∀ a : Atom α, operandNeed a.operand ≤ 3 := atom_need
      have noFlag : flagNeed none = 0 := rfl
      have small : instructionNeed (place.instruction e) ≤ 30 := by
        cases place with
        | var id =>
          simp only [Place.instruction,instructionNeed]
          omega
        | blockSet id a | blockCond id a =>
          have := atoms a
          simp only [Place.instruction,instructionNeed,manyNeed,entryNeed,expNeed]
          omega
        | triggerCond id a | triggerSet a id =>
          have := atoms a
          simp only [Place.instruction,instructionNeed,manyNeed,assignmentNeed,expNeed]
          omega
      simp only [instructionsNeed,manyNeed] at le
      simp only [stackRoom,decide_eq_true_eq]
      omega
  · have built : ∀ s : Build α, expBuild e s = (.expr (treeExpr (group rank first rest)),s) := tree_build _
    have atoms : ∀ (a : Atom α) (s : Build α), expBuild (.leaf a.operand) s = (.expr a.expr,s) := atom_build
    cases place <;>
      simp [instructionsBuild,manyBuild,Place.instruction,instructionBuild,entryBuild,assignmentBuild,built,atoms,act,
        Place.find,Build.program,emptyBuild,labelBlockNew]

end

theorem atomExpr_injective : Function.Injective (Atom.expr : Atom α → Expr α) := by
  intro a b same
  cases a <;> cases b <;> cases same <;> rfl

theorem treeExpr_injective : Function.Injective (treeExpr : Grouping Op (Atom α) → Expr α) := by
  intro s
  induction s with
  | leaf a =>
    intro t same
    cases t with
    | leaf b => exact congrArg _ (atomExpr_injective same)
    | node op left right => cases a <;> cases same
  | node op left right ihLeft ihRight =>
    intro t same
    cases t with
    | leaf b => cases b <;> cases same
    | node op' left' right' =>
      obtain ⟨rfl,sameLeft,sameRight⟩ := Expr.op.inj same
      rw [ihLeft sameLeft,ihRight sameRight]

/-- The operator occurs in the sequence. -/
def Occurs (op : Op) (rest : List (Op × Atom α)) : Prop := ∃ a, (op,a) ∈ rest

/-- The two rankings group a sequence alike if it does not have both `&&` and `||`. -/
theorem group_documented {first : Atom α} {rest : List (Op × Atom α)} (apart : ¬ (Occurs .and rest ∧ Occurs .or rest)) :
    group rank first rest = group documentedRank first rest := by
  have both : ∀ x ∈ rest, ∀ y ∈ rest, ¬ (x.1 = .and ∧ y.1 = .or) := by
    rintro ⟨_,a⟩ inX ⟨_,b⟩ inY ⟨rfl,rfl⟩
    exact apart ⟨⟨a,inX⟩,⟨b,inY⟩⟩
  have alike : ∀ o o' : Op, ¬ (o = .and ∧ o' = .or) → ¬ (o' = .and ∧ o = .or) →
      (rank o ≤ rank o' → documentedRank o ≤ documentedRank o') ∧
        (rank o < rank o' → documentedRank o < documentedRank o') := by decide
  have regrouped : (group rank first rest).Grouped documentedRank := by
    refine grouped_congr (group_grouped rank first rest) ?_ ?_
    · intro x inX y inY le
      rw [group_rest] at inX inY
      exact (alike x.1 y.1 (both x inX y inY) (both y inY x inX)).1 le
    · intro x inX y inY lt
      rw [group_rest] at inX inY
      exact (alike x.1 y.1 (both x inX y inY) (both y inY x inX)).2 lt
  rw [grouped_eq regrouped,group_first,group_rest]

theorem group_differs {first : Atom α} {rest : List (Op × Atom α)} (and : Occurs .and rest) (or : Occurs .or rest) :
    group rank first rest ≠ group documentedRank first rest := by
  intro same
  have grouped := group_grouped rank first rest
  have documented := group_grouped documentedRank first rest
  have sequence := group_rest rank first rest
  rw [← same] at documented
  obtain ⟨a,atAnd⟩ := and
  obtain ⟨b,atOr⟩ := or
  rw [← sequence] at atAnd atOr
  generalize group rank first rest = t at grouped documented atAnd atOr
  cases t with
  | leaf x => cases atAnd
  | node root left right =>
    -- The root binds least: by the one ranking it is `&&`, by the other it is `||`.
    have least : rank root ≤ rank .and := grouped_above grouped (show rank root ≤ rank root from le_rfl) _ atAnd
    have least' : documentedRank root ≤ documentedRank .or :=
      grouped_above documented (show documentedRank root ≤ documentedRank root from le_rfl) _ atOr
    revert least least'
    cases root <;> decide

/-- The parser builds the tree of the manual of exactly those sequences that do not have both `&&` and `||`. -/
theorem parses_documented_iff [Gdouble α] (place : Place α) (first : Atom α) (rest : List (Op × Atom α)) :
    (∃ after, Parses (place.tokens (sequenceTokens first rest)) after ∧
      place.find after.program = some (treeExpr (group documentedRank first rest))) ↔
        ¬ (Occurs .and rest ∧ Occurs .or rest) := by
  obtain ⟨built,parses,found⟩ := place_parses place first rest
  constructor
  · rintro ⟨after,parses',found'⟩ ⟨and,or⟩
    obtain rfl := accepts_unique parses parses'
    rw [found,Option.some_inj] at found'
    exact group_differs and or (treeExpr_injective found')
  · intro apart
    exact ⟨built,parses,by rw [found,group_documented apart]⟩

/-- `VAR v = a || b && c;` becomes `(a || b) && c`, and not `a || (b && c)`. -/
theorem or_and_misgrouped :
    (∃ after : Build ℚ, Parses [.keyVar,.identifier "v",.assign,.identifier "a",.op .or,.identifier "b",.op .and,
        .identifier "c",.semicolon] after ∧
      after.program.decls.head?.map Prod.snd = some (.op .and (.op .or (.ref "a") (.ref "b")) (.ref "c"))) ∧
    ¬ ∃ after : Build ℚ, Parses [.keyVar,.identifier "v",.assign,.identifier "a",.op .or,.identifier "b",.op .and,
        .identifier "c",.semicolon] after ∧
      after.program.decls.head?.map Prod.snd = some (.op .or (.ref "a") (.op .and (.ref "b") (.ref "c"))) := by
  obtain ⟨built,parses,found⟩ := place_parses (.var "v" : Place ℚ) (.ref "a") [(.or,.ref "b"),(.and,.ref "c")]
  refine ⟨⟨built,parses,found⟩,?_⟩
  rintro ⟨after,parses',found'⟩
  obtain rfl := accepts_unique parses parses'
  have same := Option.some.inj (found.symm.trans found')
  cases same

end Starter.Operators
