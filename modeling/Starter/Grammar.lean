import Starter.Expressions
import Starter.Lib.Lr

/-!
The grammar of the rules (`src/rules.y`) and the tables that `yyparse` runs on
(`src/rules.c`). The tables accept only what the grammar derives: the certificate lists
for every state the states that it is entered from.
-/
namespace Starter.Grammar
open Expressions Lib.Lr

/-- The kinds of the tokens that `yylex` returns; `op` are those of the binary operators. -/
inductive Terminal
  | eof
  | op (op : Op)
  | keyVar | keySet | keyWhen | keyTrigger | keyFlag
  | value | identifier | flagName
  | braceOpen | braceClose | semicolon | comma | assign | parenOpen | parenClose
deriving DecidableEq, Repr

/-- `yysymbol_kind_t`. -/
def Terminal.symbol : Terminal → Nat
  | .eof => 0
  | .op .eq => 3
  | .op .ne => 4
  | .op .lt => 5
  | .op .le => 6
  | .op .gt => 7
  | .op .ge => 8
  | .op .and => 9
  | .op .or => 10
  | .keyVar => 11
  | .keySet => 12
  | .keyWhen => 13
  | .keyTrigger => 14
  | .keyFlag => 15
  | .value => 16
  | .identifier => 17
  | .flagName => 18
  | .op .add => 19
  | .op .sub => 20
  | .op .mul => 21
  | .op .div => 22
  | .braceOpen => 24
  | .braceClose => 25
  | .semicolon => 26
  | .comma => 27
  | .assign => 28
  | .parenOpen => 29
  | .parenClose => 30

def Terminal.all : List Terminal := [
  .eof,.op .eq,.op .ne,.op .lt,.op .le,.op .gt,.op .ge,.op .and,.op .or,.keyVar,.keySet,.keyWhen,.keyTrigger,.keyFlag,
  .value,.identifier,.flagName,.op .add,.op .sub,.op .mul,.op .div,.braceOpen,.braceClose,.semicolon,.comma,.assign,
  .parenOpen,.parenClose]

theorem terminal_mem_all (t : Terminal) : t ∈ Terminal.all := by
  rcases t with _ | (_ | _ | _ | _ | _ | _ | _ | _ | _ | _ | _ | _) | _ <;> decide

instance {P : Terminal → Prop} [DecidablePred P] : Decidable (∀ t, P t) :=
  decidable_of_iff (∀ t ∈ Terminal.all, P t) ⟨fun all t => all t (terminal_mem_all t),fun all t _ => all t⟩

instance {P : Op → Prop} [DecidablePred P] : Decidable (∀ o, P o) :=
  decidable_of_iff (∀ o ∈ [Op.eq,.ne,.lt,.le,.gt,.ge,.and,.or,.add,.sub,.mul,.div], P o)
    ⟨fun all o => all o (by cases o <;> decide),fun all o _ => all o⟩

inductive Nonterminal
  | accept | program | instructionList | instruction | labelBlock | labelEntries | labelEntry | triggerStatement
  | assignmentList | assignment | declaration | expr | argumentList
deriving DecidableEq, Repr

/-- The number of a nonterminal: its symbol less `YYNTOKENS`. -/
def Nonterminal.number : Nonterminal → Nat
  | .accept => 0
  | .program => 1
  | .instructionList => 2
  | .instruction => 3
  | .labelBlock => 4
  | .labelEntries => 5
  | .labelEntry => 6
  | .triggerStatement => 7
  | .assignmentList => 8
  | .assignment => 9
  | .declaration => 10
  | .expr => 11
  | .argumentList => 12

inductive Rule
  | accept | program | instructionsOne | instructionsMore | labelBlock | triggerStatement | declaration
  | block | flagBlock | entriesOne | entriesMore | entry | trigger | assignmentsOne | assignmentsMore
  | assignment | flagAssignment | varDeclaration | varInitialized
  | value | identifier | flag | binary (op : Op) | parentheses | minus | call
  | argumentsNone | argumentsOne | argumentsMore
deriving DecidableEq, Repr

/-- The rules in the order of their numbers, from 1 on. -/
def rules : List Rule := [
  .accept,.program,.instructionsOne,.instructionsMore,.labelBlock,.triggerStatement,.declaration,
  .block,.flagBlock,.entriesOne,.entriesMore,.entry,.trigger,.assignmentsOne,.assignmentsMore,
  .assignment,.flagAssignment,.varDeclaration,.varInitialized,
  .value,.identifier,.flag,.binary .eq,.binary .ne,.binary .lt,.binary .le,.binary .gt,.binary .ge,.binary .and,
  .binary .or,.binary .add,.binary .sub,.binary .mul,.binary .div,.parentheses,.minus,.call,
  .argumentsNone,.argumentsOne,.argumentsMore]

def Rule.lhs : Rule → Nonterminal
  | .accept => .accept
  | .program => .program
  | .instructionsOne | .instructionsMore => .instructionList
  | .labelBlock | .triggerStatement | .declaration => .instruction
  | .block | .flagBlock => .labelBlock
  | .entriesOne | .entriesMore => .labelEntries
  | .entry => .labelEntry
  | .trigger => .triggerStatement
  | .assignmentsOne | .assignmentsMore => .assignmentList
  | .assignment | .flagAssignment => .assignment
  | .varDeclaration | .varInitialized => .declaration
  | .value | .identifier | .flag | .binary _ | .parentheses | .minus | .call => .expr
  | .argumentsNone | .argumentsOne | .argumentsMore => .argumentList

abbrev Symbol := Terminal ⊕ Nonterminal

def Rule.rhs : Rule → List Symbol
  | .accept => [.inr .program,.inl .eof]
  | .program => [.inr .instructionList]
  | .instructionsOne => [.inr .instruction]
  | .instructionsMore => [.inr .instructionList,.inr .instruction]
  | .labelBlock => [.inr .labelBlock]
  | .triggerStatement => [.inr .triggerStatement]
  | .declaration => [.inr .declaration]
  | .block => [.inl .identifier,.inl .braceOpen,.inr .labelEntries,.inl .braceClose]
  | .flagBlock =>
    [.inl .identifier,.inl .keyFlag,.inl .flagName,.inl .braceOpen,.inr .labelEntries,.inl .braceClose]
  | .entriesOne => [.inr .labelEntry]
  | .entriesMore => [.inr .labelEntries,.inr .labelEntry]
  | .entry => [.inl .keySet,.inr .expr,.inl .keyWhen,.inr .expr,.inl .semicolon]
  | .trigger => [.inl .keyTrigger,.inl .keyWhen,.inr .expr,.inl .keySet,.inr .assignmentList,.inl .semicolon]
  | .assignmentsOne => [.inr .assignment]
  | .assignmentsMore => [.inr .assignmentList,.inl .comma,.inr .assignment]
  | .assignment => [.inl .identifier,.inl .assign,.inr .expr]
  | .flagAssignment => [.inl .identifier,.inl .keyFlag,.inl .flagName,.inl .assign,.inr .expr]
  | .varDeclaration => [.inl .keyVar,.inl .identifier,.inl .semicolon]
  | .varInitialized => [.inl .keyVar,.inl .identifier,.inl .assign,.inr .expr,.inl .semicolon]
  | .value => [.inl .value]
  | .identifier => [.inl .identifier]
  | .flag => [.inl .identifier,.inl .keyFlag,.inl .flagName]
  | .binary op => [.inr .expr,.inl (.op op),.inr .expr]
  | .parentheses => [.inl .parenOpen,.inr .expr,.inl .parenClose]
  | .minus => [.inl (.op .mul),.inr .expr]
  | .call => [.inl .identifier,.inl .parenOpen,.inr .argumentList,.inl .parenClose]
  | .argumentsNone => []
  | .argumentsOne => [.inr .expr]
  | .argumentsMore => [.inr .argumentList,.inl .comma,.inr .expr]

/-- The states of `yyparse`, `YYNSTATES` many. -/
abbrev State := Fin 86

instance stateNeZero : NeZero 86 := ⟨by decide⟩

def yypact : List Int := [
  57,-11,-3,-13,46,57,-25,-25,-25,-25,44,23,33,61,-25,-25,-25,23,-25,-6,23,23,104,45,23,16,-25,56,62,23,-25,28,23,23,
  23,23,23,23,23,23,64,23,23,23,23,61,124,-25,-25,-25,-25,144,-22,-25,162,162,72,72,72,72,152,172,14,29,-25,-8,-8,-25,
  -25,18,23,23,-25,77,23,-25,64,-25,80,144,51,144,-25,-25,23,144]

def yydefact : List Int := [
  0,0,0,0,0,2,3,5,6,7,0,0,0,0,1,4,18,0,20,21,0,0,0,0,0,0,10,0,0,38,36,0,0,0,0,0,0,0,0,0,0,0,0,0,0,0,0,8,11,19,22,39,0,
  35,23,24,25,26,27,28,29,30,0,0,14,31,32,33,34,0,0,0,37,0,0,13,0,9,0,40,0,16,15,12,0,17]

def yypgoto : List Int := [
  -25,-25,-25,91,-25,52,-24,-25,-25,22,-25,-17,-25]

def yydefgoto : List Int := [
  0,4,5,6,7,25,26,8,63,64,9,22,52]

def yytable : List Int := [
  27,48,12,30,31,71,10,46,72,28,11,13,51,43,44,54,55,56,57,58,59,60,61,29,65,66,67,68,24,73,24,32,33,34,35,36,37,38,
  39,18,19,47,74,77,20,48,14,41,42,43,44,23,21,78,79,75,76,81,53,32,33,34,35,36,37,38,39,85,1,45,16,2,17,24,3,41,42,
  43,44,84,50,62,49,32,33,34,35,36,37,38,39,41,42,43,44,80,15,69,82,41,42,43,44,0,0,0,83,32,33,34,35,36,37,38,39,0,40,
  0,0,0,0,0,0,41,42,43,44,32,33,34,35,36,37,38,39,0,0,70,0,0,0,0,0,41,42,43,44,32,33,34,35,36,37,38,39,32,33,34,35,36,
  37,0,39,41,42,43,44,34,35,36,37,41,42,43,44,32,33,34,35,36,37,41,42,43,44,0,0,0,0,0,0,41,42,43,44]

def yycheck : List Int := [
  17,25,15,20,21,27,17,24,30,15,13,24,29,21,22,32,33,34,35,36,37,38,39,29,41,42,43,44,12,15,12,3,4,5,6,7,8,9,10,16,17,
  25,28,25,21,69,0,19,20,21,22,18,29,70,71,26,27,74,30,3,4,5,6,7,8,9,10,84,11,24,26,14,28,12,17,19,20,21,22,28,18,17,
  26,3,4,5,6,7,8,9,10,19,20,21,22,18,5,45,76,19,20,21,22,-1,-1,-1,26,3,4,5,6,7,8,9,10,-1,12,-1,-1,-1,-1,-1,-1,19,20,
  21,22,3,4,5,6,7,8,9,10,-1,-1,13,-1,-1,-1,-1,-1,19,20,21,22,3,4,5,6,7,8,9,10,3,4,5,6,7,8,-1,10,19,20,21,22,5,6,7,8,
  19,20,21,22,3,4,5,6,7,8,19,20,21,22,-1,-1,-1,-1,-1,-1,19,20,21,22]

def yyr2 : List Int := [
  0,2,1,1,2,1,1,1,4,6,1,2,5,6,1,3,3,5,3,5,1,1,3,3,3,3,3,3,3,3,3,3,3,3,3,3,2,4,0,1,3]

/-- `yytable[i]`, unless `i` is out of bounds or the entry belongs to another row. -/
def entry (i row : Int) : Option Int :=
  if 0 ≤ i ∧ i ≤ 194 ∧ yycheck.getD i.toNat 0 = row then some (yytable.getD i.toNat 0) else none

/-- The reduction by the rule of a number; rule 0 means that there is none. -/
def reduction (n : Int) : Act State Rule :=
  match n.toNat with
  | 0 => .error
  | n+1 => .reduce (rules.getD n .accept)

/-- What `yyparse` does in a state on a token; `YYPACT_NINF` is -25. -/
def action (q : State) (t : Terminal) : Act State Rule :=
  let start := yypact.getD q 0
  let default := reduction (yydefact.getD q 0)
  if start = -25 then default
  else
    match entry (start + t.symbol) t.symbol with
    | none => default
    | some n => if 0 < n then .shift (Fin.ofNat 86 n.toNat) else reduction (-n)

/-- Where `yyparse` goes after a reduction. -/
def goto (q : State) (x : Nonterminal) : State :=
  Fin.ofNat 86 ((entry (yypgoto.getD x.number 0 + q) q).getD (yydefgoto.getD x.number 0)).toNat

/-- `yyparse` without its values. -/
def yyparse : Automaton State Terminal Nonterminal Rule where
  start := 0
  final := 14
  eof := .eof
  whole := .program
  action := action
  goto := goto
  lhs := Rule.lhs
  arity r := (yyr2.getD (rules.idxOf r + 1) 0).toNat
  rhs := Rule.rhs

/-- `yystos`: the symbol that a state is entered by. -/
def yystos : List Symbol := [
  .inl .eof,.inl .keyVar,.inl .keyTrigger,.inl .identifier,.inr .program,.inr .instructionList,.inr .instruction,
  .inr .labelBlock,.inr .triggerStatement,.inr .declaration,.inl .identifier,.inl .keyWhen,.inl .keyFlag,
  .inl .braceOpen,.inl .eof,.inr .instruction,.inl .semicolon,.inl .assign,.inl .value,.inl .identifier,
  .inl (.op .mul),.inl .parenOpen,.inr .expr,.inl .flagName,.inl .keySet,.inr .labelEntries,.inr .labelEntry,
  .inr .expr,.inl .keyFlag,.inl .parenOpen,.inr .expr,.inr .expr,.inl (.op .eq),.inl (.op .ne),.inl (.op .lt),
  .inl (.op .le),.inl (.op .gt),.inl (.op .ge),.inl (.op .and),.inl (.op .or),.inl .keySet,.inl (.op .add),
  .inl (.op .sub),.inl (.op .mul),.inl (.op .div),.inl .braceOpen,.inr .expr,.inl .braceClose,.inr .labelEntry,
  .inl .semicolon,.inl .flagName,.inr .expr,.inr .argumentList,.inl .parenClose,.inr .expr,.inr .expr,.inr .expr,
  .inr .expr,.inr .expr,.inr .expr,.inr .expr,.inr .expr,.inl .identifier,.inr .assignmentList,.inr .assignment,
  .inr .expr,.inr .expr,.inr .expr,.inr .expr,.inr .labelEntries,.inl .keyWhen,.inl .comma,.inl .parenClose,
  .inl .keyFlag,.inl .assign,.inl .semicolon,.inl .comma,.inl .braceClose,.inr .expr,.inr .expr,.inl .flagName,
  .inr .expr,.inr .assignment,.inl .semicolon,.inl .assign,.inr .expr]

/-- The states that a state is entered from. -/
def entered (q : State) : List State :=
  match q.val with
  | 4 | 5 | 6 => [0]
  | 1 | 2 | 3 | 7 | 8 | 9 => [0,5]
  | 10 => [1]
  | 11 => [2]
  | 12 | 13 => [3]
  | 14 => [4]
  | 15 => [5]
  | 16 | 17 => [10]
  | 18 | 19 | 20 | 21 => [11,17,20,21,24,29,32,33,34,35,36,37,38,39,41,42,43,44,70,71,74,84]
  | 22 => [11]
  | 23 => [12]
  | 24 => [13,25,45,69]
  | 25 => [13]
  | 26 => [13,45]
  | 27 => [17]
  | 28 | 29 => [19]
  | 30 => [20]
  | 31 => [21]
  | 32 | 33 => [22,27,31,46,51,60,61,78,79,81,85]
  | 34 | 35 | 36 | 37 => [22,27,31,46,51,54,55,60,61,78,79,81,85]
  | 38 => [22,27,31,46,51,78,79,81,85]
  | 39 => [22,27,31,46,51,60,78,79,81,85]
  | 40 => [22]
  | 41 | 42 => [22,27,31,46,51,54,55,56,57,58,59,60,61,78,79,81,85]
  | 43 | 44 => [22,27,31,46,51,54,55,56,57,58,59,60,61,65,66,78,79,81,85]
  | 45 => [23]
  | 46 => [24]
  | 47 => [25]
  | 48 => [25,69]
  | 49 => [27]
  | 50 => [28]
  | 51 | 52 => [29]
  | 53 => [31]
  | 54 => [32]
  | 55 => [33]
  | 56 => [34]
  | 57 => [35]
  | 58 => [36]
  | 59 => [37]
  | 60 => [38]
  | 61 => [39]
  | 62 => [40,76]
  | 63 | 64 => [40]
  | 65 => [41]
  | 66 => [42]
  | 67 => [43]
  | 68 => [44]
  | 69 => [45]
  | 70 => [46]
  | 71 | 72 => [52]
  | 73 | 74 => [62]
  | 75 | 76 => [63]
  | 77 => [69]
  | 78 => [70]
  | 79 => [71]
  | 80 => [73]
  | 81 => [74]
  | 82 => [76]
  | 83 => [78]
  | 84 => [80]
  | 85 => [84]
  | _ => []

def certificate : Certificate State Terminal Nonterminal where
  sym q := yystos.getD q (.inl .eof)
  entered := entered

private theorem rules_complete (r : Rule) : r ∈ rules := by
  rcases r with _ | _ | _ | _ | _ | _ | _ | _ | _ | _ | _ | _ | _ | _ | _ | _ | _ | _ | _ | _ | _ | _ |
    (_ | _ | _ | _ | _ | _ | _ | _ | _ | _ | _ | _) | _ <;> decide

theorem yyparse_certified : yyparse.Certified certificate where
  agrees := by
    have all : ∀ p : State, p ≠ yyparse.final → ∀ t, yyparse.agrees certificate p t = true := by decide +kernel
    exact fun p t running => all p running t
  arity r := by
    have all : ∀ r ∈ rules, yyparse.arity r = (yyparse.rhs r).length := by decide +kernel
    exact all r (rules_complete r)
  final := by decide +kernel
  start := rfl

end Starter.Grammar
