import Starter.Actions

/-!
Runs of `yyparse`: on the words of the syntax trees, and only on those, it ends with what
the actions build of the tree, if the stack has room for it.
-/
namespace Starter.Parsing
open Gdouble Expressions Grammar Syntax Actions Lib.Lr Lib.Precedence

/-- `YYMAXDEPTH` states do not fit any more; one of them is below all symbols. -/
def stackRoom (symbols : Nat) : Bool := symbols + 1 < 10000

/-- The states that an expression can start in. -/
def expStarts : List State := [11,17,20,21,24,29,32,33,34,35,36,37,38,39,41,42,43,44,70,71,74,84]

/-- The state after a binary operator. -/
def opState : Op → State
  | .eq => 32
  | .ne => 33
  | .lt => 34
  | .le => 35
  | .gt => 36
  | .ge => 37
  | .and => 38
  | .or => 39
  | .add => 41
  | .sub => 42
  | .mul => 43
  | .div => 44

/-- After an expression that starts in `p` the operators that bind tighter than `n` are shifted. -/
def Shifts (p : State) (n : Nat) : Prop := ∀ o, n < rank o → action (goto p .expr) (.op o) = .shift (opState o)

instance (p : State) (n : Nat) : Decidable (Shifts p n) :=
  inferInstanceAs (Decidable (∀ o, n < rank o → action (goto p .expr) (.op o) = .shift (opState o)))

variable {α : Type}

mutual
/-- How many symbols the parser has on the stack at most while it reads an operand. -/
def operandNeed : Operand α → Nat
  | .value _ => 1
  | .ref _ => 1
  | .flag _ _ => 3
  | .parens e => max 3 (1 + expNeed e)
  | .minus a => 1 + operandNeed a
  | .call _ args => max 4 (2 + argsNeed args)

def expNeed : Grouping Op (Operand α) → Nat
  | .leaf a => operandNeed a
  | .node _ left right => max (expNeed left) (2 + expNeed right)

def argsNeed : Args (Grouping Op (Operand α)) → Nat
  | .none => 1
  | .one e => expNeed e
  | .more before e => max (argsNeed before) (2 + expNeed e)
end

/-- Of a list whose members stand on `n` symbols, but for the first one. -/
def manyNeed {β : Type} (n : Nat) (each : β → Nat) : Many β → Nat
  | .one x => each x
  | .more before x => max (manyNeed n each before) (n + each x)

def flagNeed (flag : Option IoFlags) : Nat := if flag.isSome then 2 else 0

def assignmentNeed (a : Assignment α) : Nat := flagNeed a.flag + (2 + expNeed a.rval)

def entryNeed (e : Entry α) : Nat := max 5 (max (1 + expNeed e.rval) (3 + expNeed e.cond))

def instructionNeed : Instruction α → Nat
  | .block _ flag entries => flagNeed flag + max 4 (2 + manyNeed 1 entryNeed entries)
  | .trigger cond ass => max 6 (max (2 + expNeed cond) (4 + manyNeed 2 assignmentNeed ass))
  | .var _ none => 3
  | .var _ (some e) => max 5 (3 + expNeed e)

def instructionsNeed (p : Instructions α) : Nat := max 2 (manyNeed 1 instructionNeed p)

theorem manyNeed_pos {β : Type} {n : Nat} {need : β → Nat} (each : ∀ x, 1 ≤ need x) (m : Many β) :
    1 ≤ manyNeed n need m := by
  cases m with
  | one x => exact each x
  | more before x => exact le_max_of_le_right (le_trans (each x) (Nat.le_add_left _ _))

mutual
theorem operandNeed_pos : ∀ a : Operand α, 1 ≤ operandNeed a
  | .value _ => le_rfl
  | .ref _ => le_rfl
  | .flag _ _ => by simp [operandNeed]
  | .parens _ => by simp [operandNeed]
  | .minus _ => by simp [operandNeed]
  | .call _ _ => by simp [operandNeed]

theorem expNeed_pos : ∀ e : Grouping Op (Operand α), 1 ≤ expNeed e
  | .leaf a => operandNeed_pos a
  | .node _ left _ => le_max_of_le_left (expNeed_pos left)
end

/-- The entries of the tables for expressions. -/
structure ExpStates : Prop where
  start : ∀ p ∈ expStarts, action p .value = .shift 18 ∧ action p .identifier = .shift 19 ∧
    action p (.op .mul) = .shift 20 ∧ action p .parenOpen = .shift 21
  /-- Where nothing but the expression is open all operators are shifted. -/
  outer : ∀ p ∈ ([11,17,21,24,29,70,71,74,84] : List State), p ∈ expStarts ∧ Shifts p 0
  operator : ∀ o, opState o ∈ expStarts ∧ Shifts (opState o) (rank o)
  /-- After a right operand its operator is reduced, unless one follows that binds tighter. -/
  binary : ∀ o t, (∀ o', t = .op o' → rank o' ≤ rank o) → action (goto (opState o) .expr) t = .reduce (.binary o)
  value : ∀ t, action 18 t = .reduce .value
  identifier : ∀ t, t ≠ .keyFlag → t ≠ .parenOpen → action 19 t = .reduce .identifier
  flag : action 19 .keyFlag = .shift 28 ∧ action 28 .flagName = .shift 50 ∧ ∀ t, action 50 t = .reduce .flag
  parens : goto 21 .expr = 31 ∧ action 31 .parenClose = .shift 53 ∧ ∀ t, action 53 t = .reduce .parentheses
  minus : goto 20 .expr = 30 ∧ ∀ t, action 30 t = .reduce .minus
  call : action 19 .parenOpen = .shift 29 ∧ action 52 .parenClose = .shift 72 ∧ ∀ t, action 72 t = .reduce .call
  args : goto 29 .argumentList = 52 ∧ goto 29 .expr = 51 ∧ goto 71 .expr = 79 ∧ action 52 .comma = .shift 71 ∧
    ∀ t, t = .comma ∨ t = .parenClose → action 29 t = .reduce .argumentsNone ∧ action 51 t = .reduce .argumentsOne ∧
      action 79 t = .reduce .argumentsMore

theorem expStates : ExpStates := by constructor <;> decide +kernel

/-- The entries of the tables for instructions. -/
structure InstructionStates : Prop where
  assignment : (∀ p ∈ ([40,76] : List State), action p .identifier = .shift 62) ∧ action 62 .assign = .shift 74 ∧
    goto 74 .expr = 81 ∧ action 62 .keyFlag = .shift 73 ∧ action 73 .flagName = .shift 80 ∧
    action 80 .assign = .shift 84 ∧ goto 84 .expr = 85 ∧ ∀ t, t = .comma ∨ t = .semicolon →
      action 81 t = .reduce .assignment ∧ action 85 t = .reduce .flagAssignment
  entry : (∀ p ∈ ([13,25,45,69] : List State), action p .keySet = .shift 24) ∧ goto 24 .expr = 46 ∧
    action 46 .keyWhen = .shift 70 ∧ goto 70 .expr = 78 ∧ action 78 .semicolon = .shift 83 ∧
    ∀ t, action 83 t = .reduce .entry
  block : (∀ p ∈ ([0,5] : List State), action p .identifier = .shift 3 ∧ goto p .labelBlock = 7) ∧
    action 3 .braceOpen = .shift 13 ∧ action 25 .braceClose = .shift 47 ∧ action 3 .keyFlag = .shift 12 ∧
    action 12 .flagName = .shift 23 ∧ action 23 .braceOpen = .shift 45 ∧ action 69 .braceClose = .shift 77 ∧
    ∀ t, action 47 t = .reduce .block ∧ action 77 t = .reduce .flagBlock ∧ action 7 t = .reduce .labelBlock
  entries : (goto 13 .labelEntry = 26 ∧ goto 13 .labelEntries = 25 ∧ goto 25 .labelEntry = 48) ∧
    (goto 45 .labelEntry = 26 ∧ goto 45 .labelEntries = 69 ∧ goto 69 .labelEntry = 48) ∧
    ∀ t, action 26 t = .reduce .entriesOne ∧ action 48 t = .reduce .entriesMore
  trigger : (∀ p ∈ ([0,5] : List State), action p .keyTrigger = .shift 2 ∧ goto p .triggerStatement = 8) ∧
    action 2 .keyWhen = .shift 11 ∧ goto 11 .expr = 22 ∧ action 22 .keySet = .shift 40 ∧
    goto 40 .assignmentList = 63 ∧ action 63 .semicolon = .shift 75 ∧
    ∀ t, action 75 t = .reduce .trigger ∧ action 8 t = .reduce .triggerStatement
  assignments : goto 40 .assignment = 64 ∧ action 63 .comma = .shift 76 ∧ goto 76 .assignment = 82 ∧
    ∀ t, action 64 t = .reduce .assignmentsOne ∧ action 82 t = .reduce .assignmentsMore
  var : (∀ p ∈ ([0,5] : List State), action p .keyVar = .shift 1 ∧ goto p .declaration = 9) ∧
    action 1 .identifier = .shift 10 ∧ action 10 .semicolon = .shift 16 ∧ action 10 .assign = .shift 17 ∧
    goto 17 .expr = 27 ∧ action 27 .semicolon = .shift 49 ∧
    ∀ t, action 16 t = .reduce .varDeclaration ∧ action 49 t = .reduce .varInitialized ∧
      action 9 t = .reduce .declaration
  program : goto 0 .instruction = 6 ∧ goto 0 .instructionList = 5 ∧ goto 5 .instruction = 15 ∧
    action 5 .eof = .reduce .program ∧ goto 0 .program = 4 ∧ action 4 .eof = .shift 14 ∧
    ∀ t, action 6 t = .reduce .instructionsOne ∧ action 15 t = .reduce .instructionsMore
  final : ∀ t, action 14 t = .reduce .accept

theorem instructionStates : InstructionStates := by constructor <;> decide +kernel

/-- The token does not go on after an identifier. -/
def Calm (k : Token α) : Prop := k.kind ≠ .keyFlag ∧ k.kind ≠ .parenOpen

/-- No operator of the tree binds less than the token. -/
def Loose (k : Token α) (e : Exp α) : Prop := ∀ o, k.kind = .op o → e.Above rank (rank o)

/-- The tokens that end an expression. -/
def ends : Terminal → Bool
  | .parenClose | .comma | .semicolon | .keyWhen | .keySet => true
  | _ => false

theorem ends_calm {k : Token α} (isEnd : ends k.kind = true) : Calm k := by
  constructor <;>
    · intro same
      rw [same] at isEnd
      cases isEnd

theorem ends_loose {k : Token α} (isEnd : ends k.kind = true) (e : Exp α) : Loose k e := by
  intro o same
  rw [same] at isEnd
  cases isEnd

theorem calm_op (o : Op) : Calm (.op o : Token α) := by constructor <;> simp [Token.kind]

theorem above_mono {n m : Nat} {e : Exp α} (above : e.Above rank n) (le : m ≤ n) : e.Above rank m := by
  cases e with
  | leaf a => trivial
  | node op left right => exact le_trans le above

theorem above_one (e : Exp α) : e.Above rank 1 := by
  cases e with
  | leaf a => trivial
  | node op left right => cases op <;> simp [Grouping.Above,rank]

section
variable [Gdouble α] {room : Nat → Bool}

abbrev Frames (α : Type) := List (State × Val α)

/-- There is room for up to so many symbols. -/
def Fits (room : Nat → Bool) (n : Nat) : Prop := ∀ m ≤ n, room m = true

abbrev Runs (room : Nat → Bool) (c next : Config State (Token α) (Val α) (Build α)) : Prop :=
  yyparse.Steps semantics room c next

/-- The parser reads the word, before the token `k`, into one symbol with its value. -/
def Reads (room : Nat → Bool) (frames : Frames α) (word : List (Token α)) (k : Token α)
    (rest : List (Token α)) (s : Build α) (q : State) (done : Val α × Build α) : Prop :=
  Runs room ⟨frames,word ++ k :: rest,s⟩ ⟨(q,done.1) :: frames,k :: rest,done.2⟩

theorem shift_to {frames : Frames α} {k : Token α} {rest : List (Token α)} {s : Build α} {q : State}
    (acts : action (yyparse.top frames) k.kind = .shift q) (fits : room (frames.length + 1) = true) :
    Runs room ⟨frames,k :: rest,s⟩ ⟨(q,semantics.value k) :: frames,rest,s⟩ := by
  refine .single (step_shift ?_ acts fits)
  intro final
  rw [final] at acts
  cases acts.symm.trans (instructionStates.final _)

/-- The tokens are shifted one after the other, from the state `p` on, each into the state beside it. -/
def Path (p : State) : List (Token α × State) → Prop
  | [] => True
  | (k,q) :: path => action p k.kind = .shift q ∧ Path q path

theorem shifts_to {rest : List (Token α)} {s : Build α} (path : List (Token α × State)) {frames : Frames α}
    (acts : Path (yyparse.top frames) path) (fits : Fits room (frames.length + path.length)) :
    Runs room ⟨frames,path.map Prod.fst ++ rest,s⟩
      ⟨(path.map fun step => (step.2,semantics.value step.1)).reverse ++ frames,rest,s⟩ := by
  induction path generalizing frames with
  | nil => exact .refl
  | cons step path ih =>
    obtain ⟨k,q⟩ := step
    obtain ⟨first,later⟩ := acts
    simp only [List.length_cons] at fits
    have one : Runs room ⟨frames,k :: (path.map Prod.fst ++ rest),s⟩
        ⟨(q,semantics.value k) :: frames,path.map Prod.fst ++ rest,s⟩ := shift_to first (fits _ (by omega))
    have others : Runs room ⟨(q,semantics.value k) :: frames,path.map Prod.fst ++ rest,s⟩ _ :=
      ih later (fun m le => fits m (by simp only [List.length_cons] at le; omega))
    refine one.trans ?_
    simpa using others

private theorem reduce_to {frames : Frames α} {k : Token α} {rest : List (Token α)} {s : Build α} {q : State} (r : Rule)
    (popped : Frames α) (notAccept : r ≠ .accept)
    (acts : action (yyparse.top (popped ++ frames)) k.kind = .reduce r) (length : popped.length = r.rhs.length)
    (goes : goto (yyparse.top frames) r.lhs = q) (fits : room (frames.length + 1) = true) :
    Runs room ⟨popped ++ frames,k :: rest,s⟩
      ⟨(q,(act r (popped.reverse.map Prod.snd) s).1) :: frames,k :: rest,(act r (popped.reverse.map Prod.snd) s).2⟩ := by
  subst goes
  refine .single (step_reduce ?_ acts (length.trans (yyparse_certified.arity r).symm) rfl fits)
  intro final
  rw [final] at acts
  exact notAccept (Act.reduce.inj (acts.symm.trans (instructionStates.final _)))

mutual
theorem operand_reads {frames : Frames α} {k : Token α} {rest : List (Token α)} {s : Build α} {q : State} (a : Operand α)
    (fine : a.Fine) (start : yyparse.top frames ∈ expStarts) (calm : Calm k)
    (goes : goto (yyparse.top frames) .expr = q) (fits : Fits room (frames.length + operandNeed a)) :
    Reads room frames (a.tokens .mul) k rest s q (operandBuild a s) := by
  have one : room (frames.length + 1) = true := fits _ (by have := operandNeed_pos a; omega)
  obtain ⟨onValue,onIdentifier,onStar,onOpen⟩ := expStates.start _ start
  cases a with
  | value v =>
    have read : Runs room ⟨frames,.value v :: k :: rest,s⟩ ⟨(18,.dval v) :: frames,k :: rest,s⟩ := shift_to onValue one
    exact read.trans (reduce_to .value [(18,.dval v)] (by decide) (expStates.value _) rfl goes one)
  | ref id =>
    have read : Runs room ⟨frames,.identifier id :: k :: rest,s⟩ ⟨(19,.sval id) :: frames,k :: rest,s⟩ :=
      shift_to onIdentifier one
    exact read.trans
      (reduce_to .identifier [(19,.sval id)] (by decide) (expStates.identifier _ calm.1 calm.2) rfl goes one)
  | flag id bit =>
    obtain ⟨onKey,onName,reduces⟩ := expStates.flag
    have read : Runs room ⟨frames,.identifier id :: .keyFlag :: .flagName bit :: k :: rest,s⟩
        ⟨(50,.uval bit) :: (28,.unset) :: (19,.sval id) :: frames,k :: rest,s⟩ :=
      shifts_to [(.identifier id,19),(.keyFlag,28),(.flagName bit,50)] ⟨onIdentifier,onKey,onName,trivial⟩ fits
    exact read.trans (reduce_to .flag [(50,.uval bit),(28,.unset),(19,.sval id)] (by decide) (reduces _) rfl goes one)
  | parens e =>
    simp only [operandNeed] at fits
    obtain ⟨after,onClose,reduces⟩ := expStates.parens
    obtain ⟨starts,shifts⟩ := expStates.outer 21 (by decide)
    have opens : Runs room ⟨frames,.parenOpen :: (expTokens .mul e ++ .parenClose :: k :: rest),s⟩
        ⟨(21,.unset) :: frames,expTokens .mul e ++ .parenClose :: k :: rest,s⟩ := shift_to onOpen one
    have inside : Reads room ((21,.unset) :: frames) (expTokens .mul e) .parenClose (k :: rest) s 31 (expBuild e s) :=
      exp_reads e fine starts shifts (above_one e) (ends_calm rfl) (ends_loose rfl e) after
        (fun m le => fits m (by simp only [List.length_cons] at le; omega))
    have closes : Runs room
        ⟨(31,(expBuild e s).1) :: (21,.unset) :: frames,.parenClose :: k :: rest,(expBuild e s).2⟩
        ⟨(53,.unset) :: (31,(expBuild e s).1) :: (21,.unset) :: frames,k :: rest,(expBuild e s).2⟩ :=
      shift_to onClose (fits _ (by simp only [List.length_cons]; omega))
    have whole := opens.trans (inside.trans (closes.trans (reduce_to .parentheses
      [(53,.unset),(31,(expBuild e s).1),(21,.unset)] (by decide) (reduces _) rfl goes one)))
    simp only [Reads,Operand.tokens,operandBuild,List.cons_append,List.append_assoc,List.nil_append]
    exact whole
  | minus a =>
    simp only [operandNeed] at fits
    obtain ⟨after,reduces⟩ := expStates.minus
    have star : Runs room ⟨frames,.op .mul :: (a.tokens .mul ++ k :: rest),s⟩
        ⟨(20,.unset) :: frames,a.tokens .mul ++ k :: rest,s⟩ := shift_to onStar one
    have inside : Reads room ((20,.unset) :: frames) (a.tokens .mul) k rest s 30 (operandBuild a s) :=
      operand_reads a fine (show (20 : State) ∈ expStarts by decide) calm after
        (fun m le => fits m (by simp only [List.length_cons] at le; omega))
    exact star.trans (inside.trans
      (reduce_to .minus [(30,(operandBuild a s).1),(20,.unset)] (by decide) (reduces _) rfl goes one))
  | call id args =>
    simp only [operandNeed] at fits
    obtain ⟨onCall,onClose,reduces⟩ := expStates.call
    have read : Runs room ⟨frames,.identifier id :: .parenOpen :: (argsTokens .mul args ++ .parenClose :: k :: rest),s⟩
        ⟨(29,.unset) :: (19,.sval id) :: frames,argsTokens .mul args ++ .parenClose :: k :: rest,s⟩ :=
      shifts_to [(.identifier id,19),(.parenOpen,29)] ⟨onIdentifier,onCall,trivial⟩
        (fun m le => fits m (by simp only [List.length_cons,List.length_nil] at le; omega))
    have inside : Reads room ((29,.unset) :: (19,.sval id) :: frames) (argsTokens .mul args) .parenClose (k :: rest) s 52
        (argsBuild args s) :=
      args_reads args fine rfl (.inr rfl) (fun m le => fits m (by simp only [List.length_cons] at le; omega))
    have closes : Runs room
        ⟨(52,(argsBuild args s).1) :: (29,.unset) :: (19,.sval id) :: frames,.parenClose :: k :: rest,(argsBuild args s).2⟩
        ⟨(72,.unset) :: (52,(argsBuild args s).1) :: (29,.unset) :: (19,.sval id) :: frames,k :: rest,
          (argsBuild args s).2⟩ :=
      shift_to onClose (fits _ (by simp only [List.length_cons]; omega))
    have whole := read.trans (inside.trans (closes.trans (reduce_to .call
      [(72,.unset),(52,(argsBuild args s).1),(29,.unset),(19,.sval id)] (by decide) (reduces _) rfl goes one)))
    simp only [Reads,Operand.tokens,operandBuild,List.cons_append,List.append_assoc,List.nil_append]
    exact whole

theorem exp_reads {frames : Frames α} {k : Token α} {rest : List (Token α)} {s : Build α} {n : Nat} {q : State}
    (e : Grouping Op (Operand α)) (fine : ExpFine e) (start : yyparse.top frames ∈ expStarts)
    (shifts : Shifts (yyparse.top frames) n) (above : e.Above rank (n + 1)) (calm : Calm k) (loose : Loose k e)
    (goes : goto (yyparse.top frames) .expr = q) (fits : Fits room (frames.length + expNeed e)) :
    Reads room frames (expTokens .mul e) k rest s q (expBuild e s) := by
  cases e with
  | leaf a => exact operand_reads a fine start calm goes fits
  | node op left right =>
    obtain ⟨fineLeft,fineRight,aboveLeft,aboveRight⟩ := fine
    obtain ⟨starts,shiftsTighter⟩ := expStates.operator op
    simp only [expNeed] at fits
    have binds : n < rank op := above
    have first : Reads room frames (expTokens .mul left) (.op op) (expTokens .mul right ++ k :: rest) s q (expBuild left s) := by
      refine exp_reads left fineLeft start shifts (above_mono aboveLeft binds) (calm_op op) ?_ goes
        (fun m le => fits m (by omega))
      rintro o ⟨⟩
      exact aboveLeft
    have operator : Runs room
        ⟨(q,(expBuild left s).1) :: frames,.op op :: (expTokens .mul right ++ k :: rest),(expBuild left s).2⟩
        ⟨(opState op,.unset) :: (q,(expBuild left s).1) :: frames,expTokens .mul right ++ k :: rest,(expBuild left s).2⟩ := by
      refine shift_to ?_ (fits _ (by simp only [List.length_cons]; omega))
      rw [← goes]
      exact shifts op binds
    have second : Reads room ((opState op,.unset) :: (q,(expBuild left s).1) :: frames) (expTokens .mul right) k rest
        (expBuild left s).2 (goto (opState op) .expr) (expBuild right (expBuild left s).2) := by
      refine exp_reads right fineRight starts shiftsTighter aboveRight calm ?_ rfl
        (fun m le => fits m (by simp only [List.length_cons] at le; omega))
      intro o isOp
      have lower : rank o ≤ rank op := loose o isOp
      exact above_mono aboveRight (by omega)
    have reduces : action (goto (opState op) .expr) k.kind = .reduce (.binary op) := expStates.binary op _ loose
    have whole := first.trans (operator.trans (second.trans (reduce_to (.binary op)
      [(goto (opState op) .expr,(expBuild right (expBuild left s).2).1),(opState op,.unset),(q,(expBuild left s).1)] (by simp)
      reduces rfl goes (fits _ (by have := expNeed_pos left; omega)))))
    simp only [Reads,expTokens,expBuild,List.cons_append,List.append_assoc]
    exact whole

/-- The arguments, before a comma or the closing parenthesis. -/
theorem args_reads {frames : Frames α} {k : Token α} {rest : List (Token α)} {s : Build α}
    (args : Args (Grouping Op (Operand α))) (fine : ArgsFine args) (start : yyparse.top frames = 29)
    (follows : k.kind = .comma ∨ k.kind = .parenClose) (fits : Fits room (frames.length + argsNeed args)) :
    Reads room frames (argsTokens .mul args) k rest s 52 (argsBuild args s) := by
  obtain ⟨goesArgs,goesOne,goesMore,onComma,reduces⟩ := expStates.args
  obtain ⟨reducesNone,reducesOne,reducesMore⟩ := reduces _ follows
  rw [← start] at goesArgs goesOne reducesNone
  have isEnd : ends k.kind = true := by rcases follows with same | same <;> rw [same] <;> rfl
  cases args with
  | none => exact reduce_to .argumentsNone [] (by decide) reducesNone rfl goesArgs (fits _ le_rfl)
  | one e =>
    simp only [argsNeed] at fits
    obtain ⟨starts,shifts⟩ := expStates.outer 29 (by decide)
    rw [← start] at starts shifts
    have first : Reads room frames (expTokens .mul e) k rest s 51 (expBuild e s) :=
      exp_reads e fine starts shifts (above_one e) (ends_calm isEnd) (ends_loose isEnd e) goesOne fits
    exact first.trans (reduce_to .argumentsOne [(51,(expBuild e s).1)] (by decide) reducesOne rfl goesArgs
      (fits _ (by have := expNeed_pos e; omega)))
  | more before e =>
    obtain ⟨fineBefore,fineLast⟩ := fine
    simp only [argsNeed] at fits
    obtain ⟨starts,shifts⟩ := expStates.outer 71 (by decide)
    have first : Reads room frames (argsTokens .mul before) .comma (expTokens .mul e ++ k :: rest) s 52 (argsBuild before s) :=
      args_reads before fineBefore start (.inl rfl) (fun m le => fits m (by omega))
    have comma : Runs room
        ⟨(52,(argsBuild before s).1) :: frames,.comma :: (expTokens .mul e ++ k :: rest),(argsBuild before s).2⟩
        ⟨(71,.unset) :: (52,(argsBuild before s).1) :: frames,expTokens .mul e ++ k :: rest,(argsBuild before s).2⟩ :=
      shift_to onComma (fits _ (by have := expNeed_pos e; simp only [List.length_cons]; omega))
    have last : Reads room ((71,.unset) :: (52,(argsBuild before s).1) :: frames) (expTokens .mul e) k rest
        (argsBuild before s).2 79 (expBuild e (argsBuild before s).2) :=
      exp_reads e fineLast starts shifts (above_one e) (ends_calm isEnd) (ends_loose isEnd e) goesMore
        (fun m le => fits m (by simp only [List.length_cons] at le; omega))
    have whole := first.trans (comma.trans (last.trans (reduce_to .argumentsMore
      [(79,(expBuild e (argsBuild before s).2).1),(71,.unset),(52,(argsBuild before s).1)] (by decide) reducesMore rfl goesArgs
      (fits _ (by have := expNeed_pos e; omega)))))
    simp only [Reads,argsTokens,argsBuild,List.cons_append,List.append_assoc]
    exact whole
end

/-- An assignment, before a comma or the semicolon. -/
theorem assignment_reads {frames : Frames α} {k : Token α} {rest : List (Token α)} {s : Build α} {q : State}
    (a : Assignment α) (fine : a.Fine) (start : yyparse.top frames ∈ ([40,76] : List State))
    (follows : k.kind = .comma ∨ k.kind = .semicolon) (goes : goto (yyparse.top frames) .assignment = q)
    (fits : Fits room (frames.length + assignmentNeed a)) :
    Reads room frames (a.tokens .mul) k rest s q (assignmentBuild a s) := by
  obtain ⟨onIdentifier,onAssign,after,onKey,onName,onAssign',after',reduces⟩ := instructionStates.assignment
  obtain ⟨reducesPlain,reducesFlag⟩ := reduces _ follows
  obtain ⟨id,flag,e⟩ := a
  simp only [assignmentNeed] at fits
  have isEnd : ends k.kind = true := by rcases follows with same | same <;> rw [same] <;> rfl
  cases flag with
  | none =>
    simp only [flagNeed,Option.isSome_none,Bool.false_eq_true,if_false] at fits
    obtain ⟨starts,shifts⟩ := expStates.outer 74 (by decide)
    have read : Runs room ⟨frames,.identifier id :: .assign :: (expTokens .mul e ++ k :: rest),s⟩
        ⟨(74,.unset) :: (62,.sval id) :: frames,expTokens .mul e ++ k :: rest,s⟩ :=
      shifts_to [(.identifier id,62),(.assign,74)] ⟨onIdentifier _ start,onAssign,trivial⟩
        (fun m le => fits m (by simp only [List.length_cons,List.length_nil] at le; omega))
    have value : Reads room ((74,.unset) :: (62,.sval id) :: frames) (expTokens .mul e) k rest s 81 (expBuild e s) :=
      exp_reads e fine starts shifts (above_one e) (ends_calm isEnd) (ends_loose isEnd e) after
        (fun m le => fits m (by simp only [List.length_cons] at le; omega))
    exact read.trans (value.trans (reduce_to .assignment
      [(81,(expBuild e s).1),(74,.unset),(62,.sval id)] (by decide) reducesPlain rfl goes (fits _ (by omega))))
  | some bit =>
    simp only [flagNeed,Option.isSome_some,if_true] at fits
    obtain ⟨starts,shifts⟩ := expStates.outer 84 (by decide)
    have pos := expNeed_pos e
    have read : Runs room ⟨frames,.identifier id :: .keyFlag :: .flagName bit :: .assign :: (expTokens .mul e ++ k :: rest),s⟩
        ⟨(84,.unset) :: (80,.uval bit) :: (73,.unset) :: (62,.sval id) :: frames,expTokens .mul e ++ k :: rest,s⟩ :=
      shifts_to [(.identifier id,62),(.keyFlag,73),(.flagName bit,80),(.assign,84)]
        ⟨onIdentifier _ start,onKey,onName,onAssign',trivial⟩
        (fun m le => fits m (by simp only [List.length_cons,List.length_nil] at le; omega))
    have value : Reads room ((84,.unset) :: (80,.uval bit) :: (73,.unset) :: (62,.sval id) :: frames) (expTokens .mul e) k
        rest s 85 (expBuild e s) :=
      exp_reads e fine starts shifts (above_one e) (ends_calm isEnd) (ends_loose isEnd e) after'
        (fun m le => fits m (by simp only [List.length_cons] at le; omega))
    exact read.trans (value.trans (reduce_to .flagAssignment
      [(85,(expBuild e s).1),(84,.unset),(80,.uval bit),(73,.unset),(62,.sval id)] (by decide) reducesFlag rfl goes
      (fits _ (by omega))))

theorem entry_reads {frames : Frames α} {k : Token α} {rest : List (Token α)} {s : Build α} {q : State}
    (e : Entry α) (fine : e.Fine) (start : yyparse.top frames ∈ ([13,25,45,69] : List State))
    (goes : goto (yyparse.top frames) .labelEntry = q) (fits : Fits room (frames.length + entryNeed e)) :
    Reads room frames (e.tokens .mul) k rest s q (entryBuild e s) := by
  obtain ⟨onSet,afterSet,onWhen,afterWhen,onEnd,reduces⟩ := instructionStates.entry
  obtain ⟨rval,cond⟩ := e
  obtain ⟨fineRval,fineCond⟩ := fine
  simp only [entryNeed] at fits
  obtain ⟨startsSet,shiftsSet⟩ := expStates.outer 24 (by decide)
  obtain ⟨startsWhen,shiftsWhen⟩ := expStates.outer 70 (by decide)
  have set : Runs room
      ⟨frames,.keySet :: (expTokens .mul rval ++ .keyWhen :: (expTokens .mul cond ++ .semicolon :: k :: rest)),s⟩
      ⟨(24,.unset) :: frames,expTokens .mul rval ++ .keyWhen :: (expTokens .mul cond ++ .semicolon :: k :: rest),s⟩ :=
    shift_to (onSet _ start) (fits _ (by omega))
  have value : Reads room ((24,.unset) :: frames) (expTokens .mul rval) .keyWhen (expTokens .mul cond ++ .semicolon :: k :: rest) s
      46 (expBuild rval s) :=
    exp_reads rval fineRval startsSet shiftsSet (above_one rval) (ends_calm rfl) (ends_loose rfl rval) afterSet
      (fun m le => fits m (by simp only [List.length_cons] at le; omega))
  generalize isRval : expBuild rval s = r at value
  have key : Runs room
      ⟨(46,r.1) :: (24,.unset) :: frames,.keyWhen :: (expTokens .mul cond ++ .semicolon :: k :: rest),r.2⟩
      ⟨(70,.unset) :: (46,r.1) :: (24,.unset) :: frames,expTokens .mul cond ++ .semicolon :: k :: rest,r.2⟩ :=
    shift_to onWhen (fits _ (by simp only [List.length_cons]; omega))
  have condition : Reads room ((70,.unset) :: (46,r.1) :: (24,.unset) :: frames) (expTokens .mul cond) .semicolon (k :: rest)
      r.2 78 (expBuild cond r.2) :=
    exp_reads cond fineCond startsWhen shiftsWhen (above_one cond) (ends_calm rfl) (ends_loose rfl cond) afterWhen
      (fun m le => fits m (by simp only [List.length_cons] at le; omega))
  generalize isCond : expBuild cond r.2 = c at condition
  have ends : Runs room ⟨(78,c.1) :: (70,.unset) :: (46,r.1) :: (24,.unset) :: frames,.semicolon :: k :: rest,c.2⟩
      ⟨(83,.unset) :: (78,c.1) :: (70,.unset) :: (46,r.1) :: (24,.unset) :: frames,k :: rest,c.2⟩ :=
    shift_to onEnd (fits _ (by simp only [List.length_cons]; omega))
  have whole := set.trans (value.trans (key.trans (condition.trans (ends.trans (reduce_to .entry
    [(83,.unset),(78,c.1),(70,.unset),(46,r.1),(24,.unset)] (by decide) (reduces _) rfl goes (fits _ (by omega)))))))
  simp only [Reads,Entry.tokens,entryBuild,isRval,isCond,List.cons_append,List.append_assoc,List.nil_append]
  exact whole

/-- A list, if its members are read, the first one on `frames` and the later ones behind the list before them. -/
theorem many_reads {β : Type} {one more : Rule} {sep : List (Token α)} {frames : Frames α} {each : β → List (Token α)}
    {build : β → Build α → Val α × Build α} {need : β → Nat} {ok : β → Prop} {q first later : State}
    (between : Frames α) (follows : Token α → Prop)
    (firstReads : ∀ x s k rest, ok x → follows k → Fits room (frames.length + need x) →
      Reads room frames (each x) k rest s first (build x s))
    (laterReads : ∀ v x s k rest, ok x → follows k → Fits room (frames.length + (between.length + 1 + need x)) →
      Runs room ⟨(q,v) :: frames,sep ++ each x ++ k :: rest,s⟩
        ⟨(later,(build x s).1) :: (between ++ (q,v) :: frames),k :: rest,(build x s).2⟩)
    (starts : ∀ x, ∃ k rest, sep ++ each x = k :: rest ∧ follows k)
    (reducesOne : ∀ t, action first t = .reduce one) (lengthOne : one.rhs.length = 1) (notAccept : one ≠ .accept)
    (goesOne : goto (yyparse.top frames) one.lhs = q) (reducesMore : ∀ t, action later t = .reduce more)
    (lengthMore : more.rhs.length = between.length + 2) (notAccept' : more ≠ .accept)
    (goesMore : goto (yyparse.top frames) more.lhs = q) (fitsOne : room (frames.length + 1) = true) (m : Many β) :
    ∀ s k rest, m.all ok → follows k → Fits room (frames.length + manyNeed (between.length + 1) need m) →
      Reads room frames (m.tokens each sep) k rest s q
        (manyBuild one more (between.reverse.map Prod.snd) build m s) := by
  induction m with
  | one x =>
    intro s k rest fine follow fits
    exact (firstReads x s k rest fine follow fits).trans
      (reduce_to one [(first,(build x s).1)] notAccept (reducesOne _) lengthOne.symm goesOne fitsOne)
  | more before x ih =>
    intro s k rest fine follow fits
    simp only [manyNeed] at fits
    obtain ⟨fineBefore,fineLast⟩ := fine
    obtain ⟨k',rest',same,follow'⟩ := starts x
    have begins := ih s k' (rest' ++ k :: rest) fineBefore follow' (fun m le => fits m (by omega))
    have ends := laterReads (manyBuild one more (between.reverse.map Prod.snd) build before s).1 x
      (manyBuild one more (between.reverse.map Prod.snd) build before s).2 k rest fineLast follow
      (fun m le => fits m (by omega))
    simp only [Reads,Many.tokens,manyBuild,List.append_assoc] at begins ⊢
    rw [same,List.cons_append] at ends
    rw [← List.append_assoc sep,same,List.cons_append]
    refine begins.trans (ends.trans ?_)
    generalize manyBuild one more (between.reverse.map Prod.snd) build before s = b
    have reduces : Runs room
        ⟨(later,(build x b.2).1) :: (between ++ [(q,b.1)]) ++ frames,k :: rest,(build x b.2).2⟩ _ :=
      reduce_to more ((later,(build x b.2).1) :: (between ++ [(q,b.1)])) notAccept' (reducesMore _)
        (by simp [lengthMore]) goesMore fitsOne
    simpa using reduces

/-- The entries of a label block, where they are read in the state `q` behind its head. -/
private theorem entries_read {frames : Frames α} {k : Token α} {rest : List (Token α)} {s : Build α} {p q : State}
    (entries : Many (Entry α)) (fine : entries.all Entry.Fine) (head : p = 13 ∧ q = 25 ∨ p = 45 ∧ q = 69)
    (start : yyparse.top frames = p) (fits : Fits room (frames.length + manyNeed 1 entryNeed entries)) :
    Reads room frames (entries.tokens (Entry.tokens .mul) []) k rest s q
      (manyBuild .entriesOne .entriesMore [] entryBuild entries s) := by
  obtain ⟨plain,flagged,reduces⟩ := instructionStates.entries
  have goes : goto p .labelEntry = 26 ∧ goto p .labelEntries = q ∧ goto q .labelEntry = 48 := by
    rcases head with ⟨rfl,rfl⟩ | ⟨rfl,rfl⟩
    · exact plain
    · exact flagged
  have starts : p ∈ ([13,25,45,69] : List State) ∧ q ∈ ([13,25,45,69] : List State) := by
    rcases head with ⟨rfl,rfl⟩ | ⟨rfl,rfl⟩ <;> decide
  rw [← start] at goes starts
  have pos : 1 ≤ manyNeed 1 entryNeed entries := manyNeed_pos (fun e => by simp [entryNeed]) entries
  refine many_reads [] (fun _ => True) ?_ ?_ (fun e => ⟨_,_,rfl,trivial⟩) (fun t => (reduces t).1) rfl (by decide) goes.2.1
    (fun t => (reduces t).2) rfl (by decide) goes.2.1 (fits _ (by omega)) entries s k rest fine trivial fits
  · exact fun e s k rest fine _ fits => entry_reads e fine starts.1 goes.1 fits
  · intro v e s k rest fine _ fits
    refine entry_reads e fine starts.2 goes.2.2 (fun m le => fits m ?_)
    simp only [List.length_cons,List.length_nil] at le ⊢
    omega

/-- The assignments of a TRIGGER, before its semicolon. -/
private theorem assignments_read {frames : Frames α} {rest : List (Token α)} {s : Build α}
    (ass : Many (Assignment α)) (fine : ass.all Assignment.Fine) (start : yyparse.top frames = 40)
    (fits : Fits room (frames.length + manyNeed 2 assignmentNeed ass)) :
    Reads room frames (ass.tokens (Assignment.tokens .mul) [.comma]) .semicolon rest s 63
      (manyBuild .assignmentsOne .assignmentsMore [.unset] assignmentBuild ass s) := by
  obtain ⟨goesFirst,onComma,goesLater,reduces⟩ := instructionStates.assignments
  have goesList := instructionStates.trigger.2.2.2.2.1
  rw [← start] at goesFirst goesList
  have needs : ∀ a : Assignment α, 1 ≤ assignmentNeed a := fun a => by unfold assignmentNeed; omega
  have pos : 1 ≤ manyNeed 2 assignmentNeed ass := manyNeed_pos needs ass
  refine many_reads [(76,.unset)] (fun k => k.kind = .comma ∨ k.kind = .semicolon) ?_ ?_ (fun a => ⟨_,_,rfl,.inl rfl⟩)
    (fun t => (reduces t).1) rfl (by decide) goesList (fun t => (reduces t).2) rfl (by decide) goesList (fits _ (by omega)) ass s
    .semicolon rest fine (.inr rfl) fits
  · exact fun a s k rest fine follow fits =>
      assignment_reads a fine (by rw [start]; decide) follow goesFirst fits
  · intro v a s k rest fine follow fits
    simp only [List.length_cons,List.length_nil] at fits
    have comma : Runs room ⟨(63,v) :: frames,.comma :: (a.tokens .mul ++ k :: rest),s⟩
        ⟨(76,.unset) :: (63,v) :: frames,a.tokens .mul ++ k :: rest,s⟩ :=
      shift_to onComma (fits _ (by have := needs a; simp only [List.length_cons]; omega))
    refine comma.trans (assignment_reads a fine (show (76 : State) ∈ _ by decide) follow goesLater (fun m le => fits m ?_))
    simp only [List.length_cons] at le
    omega

theorem instruction_reads {frames : Frames α} {k : Token α} {rest : List (Token α)} {s : Build α} {q : State}
    (i : Instruction α) (fine : i.Fine) (start : yyparse.top frames ∈ ([0,5] : List State))
    (goes : goto (yyparse.top frames) .instruction = q) (fits : Fits room (frames.length + instructionNeed i)) :
    Reads room frames (i.tokens .mul) k rest s q (instructionBuild i s) := by
  cases i with
  | block id flag entries =>
    obtain ⟨starts,onOpen,onClose,onKey,onName,onOpen',onClose',reduces⟩ := instructionStates.block
    obtain ⟨onIdentifier,goesBlock⟩ := starts _ start
    obtain ⟨reducesPlain,reducesFlag,reducesBlock⟩ := reduces k.kind
    simp only [instructionNeed] at fits
    cases flag with
    | none =>
      simp only [flagNeed,Option.isSome_none,Bool.false_eq_true,if_false] at fits
      have head : Runs room
          ⟨frames,.identifier id :: .braceOpen :: (entries.tokens (Entry.tokens .mul) [] ++ .braceClose :: k :: rest),s⟩
          ⟨(13,.unset) :: (3,.sval id) :: frames,entries.tokens (Entry.tokens .mul) [] ++ .braceClose :: k :: rest,s⟩ :=
        shifts_to [(.identifier id,3),(.braceOpen,13)] ⟨onIdentifier,onOpen,trivial⟩
          (fun m le => fits m (by simp only [List.length_cons,List.length_nil] at le; omega))
      have inside : Reads room ((13,.unset) :: (3,.sval id) :: frames) (entries.tokens (Entry.tokens .mul) []) .braceClose
          (k :: rest) s 25 (manyBuild .entriesOne .entriesMore [] entryBuild entries s) :=
        entries_read entries fine (.inl ⟨rfl,rfl⟩) rfl (fun m le => fits m (by simp only [List.length_cons] at le; omega))
      generalize isList : manyBuild .entriesOne .entriesMore [] entryBuild entries s = b at inside
      have closes : Runs room ⟨(25,b.1) :: (13,.unset) :: (3,.sval id) :: frames,.braceClose :: k :: rest,b.2⟩
          ⟨(47,.unset) :: (25,b.1) :: (13,.unset) :: (3,.sval id) :: frames,k :: rest,b.2⟩ :=
        shift_to onClose (fits _ (by simp only [List.length_cons]; omega))
      have whole := head.trans (inside.trans (closes.trans ((reduce_to .block
        [(47,.unset),(25,b.1),(13,.unset),(3,.sval id)] (by decide) reducesPlain rfl goesBlock (fits _ (by omega))).trans
        (reduce_to .labelBlock [(7,_)] (by decide) reducesBlock rfl goes (fits _ (by omega))))))
      simp only [Reads,Instruction.tokens,flagTokens,instructionBuild,isList,List.cons_append,List.append_assoc,
        List.nil_append]
      exact whole
    | some bit =>
      simp only [flagNeed,Option.isSome_some,if_true] at fits
      have head : Runs room
          ⟨frames,.identifier id :: .keyFlag :: .flagName bit :: .braceOpen ::
            (entries.tokens (Entry.tokens .mul) [] ++ .braceClose :: k :: rest),s⟩
          ⟨(45,.unset) :: (23,.uval bit) :: (12,.unset) :: (3,.sval id) :: frames,
            entries.tokens (Entry.tokens .mul) [] ++ .braceClose :: k :: rest,s⟩ :=
        shifts_to [(.identifier id,3),(.keyFlag,12),(.flagName bit,23),(.braceOpen,45)]
          ⟨onIdentifier,onKey,onName,onOpen',trivial⟩
          (fun m le => fits m (by simp only [List.length_cons,List.length_nil] at le; omega))
      have inside : Reads room ((45,.unset) :: (23,.uval bit) :: (12,.unset) :: (3,.sval id) :: frames)
          (entries.tokens (Entry.tokens .mul) []) .braceClose (k :: rest) s 69
          (manyBuild .entriesOne .entriesMore [] entryBuild entries s) :=
        entries_read entries fine (.inr ⟨rfl,rfl⟩) rfl (fun m le => fits m (by simp only [List.length_cons] at le; omega))
      generalize isList : manyBuild .entriesOne .entriesMore [] entryBuild entries s = b at inside
      have closes : Runs room
          ⟨(69,b.1) :: (45,.unset) :: (23,.uval bit) :: (12,.unset) :: (3,.sval id) :: frames,
            .braceClose :: k :: rest,b.2⟩
          ⟨(77,.unset) :: (69,b.1) :: (45,.unset) :: (23,.uval bit) :: (12,.unset) :: (3,.sval id) :: frames,
            k :: rest,b.2⟩ :=
        shift_to onClose' (fits _ (by simp only [List.length_cons]; omega))
      have whole := head.trans (inside.trans (closes.trans ((reduce_to .flagBlock
        [(77,.unset),(69,b.1),(45,.unset),(23,.uval bit),(12,.unset),(3,.sval id)] (by decide) reducesFlag rfl goesBlock
        (fits _ (by omega))).trans
        (reduce_to .labelBlock [(7,_)] (by decide) reducesBlock rfl goes (fits _ (by omega))))))
      simp only [Reads,Instruction.tokens,flagTokens,instructionBuild,isList,List.cons_append,List.append_assoc,
        List.nil_append]
      exact whole
  | trigger cond ass =>
    obtain ⟨fineCond,fineAss⟩ := fine
    obtain ⟨starts,onWhen,afterWhen,onSet,afterSet,onEnd,reduces⟩ := instructionStates.trigger
    obtain ⟨onTrigger,goesTrigger⟩ := starts _ start
    obtain ⟨reducesTrigger,reducesStatement⟩ := reduces k.kind
    obtain ⟨startsCond,shiftsCond⟩ := expStates.outer 11 (by decide)
    simp only [instructionNeed] at fits
    have head : Runs room
        ⟨frames,.keyTrigger :: .keyWhen :: (expTokens .mul cond ++ .keySet ::
          (ass.tokens (Assignment.tokens .mul) [.comma] ++ .semicolon :: k :: rest)),s⟩
        ⟨(11,.unset) :: (2,.unset) :: frames,expTokens .mul cond ++ .keySet ::
          (ass.tokens (Assignment.tokens .mul) [.comma] ++ .semicolon :: k :: rest),s⟩ :=
      shifts_to [(.keyTrigger,2),(.keyWhen,11)] ⟨onTrigger,onWhen,trivial⟩
        (fun m le => fits m (by simp only [List.length_cons,List.length_nil] at le; omega))
    have value : Reads room ((11,.unset) :: (2,.unset) :: frames) (expTokens .mul cond) .keySet
        (ass.tokens (Assignment.tokens .mul) [.comma] ++ .semicolon :: k :: rest) s 22 (expBuild cond s) :=
      exp_reads cond fineCond startsCond shiftsCond (above_one cond) (ends_calm rfl) (ends_loose rfl cond) afterWhen
        (fun m le => fits m (by simp only [List.length_cons] at le; omega))
    generalize isCond : expBuild cond s = c at value
    have set : Runs room
        ⟨(22,c.1) :: (11,.unset) :: (2,.unset) :: frames,.keySet ::
          (ass.tokens (Assignment.tokens .mul) [.comma] ++ .semicolon :: k :: rest),c.2⟩
        ⟨(40,.unset) :: (22,c.1) :: (11,.unset) :: (2,.unset) :: frames,
          ass.tokens (Assignment.tokens .mul) [.comma] ++ .semicolon :: k :: rest,c.2⟩ :=
      shift_to onSet (fits _ (by simp only [List.length_cons]; omega))
    have inside : Reads room ((40,.unset) :: (22,c.1) :: (11,.unset) :: (2,.unset) :: frames)
        (ass.tokens (Assignment.tokens .mul) [.comma]) .semicolon (k :: rest) c.2 63
        (manyBuild .assignmentsOne .assignmentsMore [.unset] assignmentBuild ass c.2) :=
      assignments_read ass fineAss rfl (fun m le => fits m (by simp only [List.length_cons] at le; omega))
    generalize isList : manyBuild .assignmentsOne .assignmentsMore [.unset] assignmentBuild ass c.2 = b at inside
    have ends : Runs room
        ⟨(63,b.1) :: (40,.unset) :: (22,c.1) :: (11,.unset) :: (2,.unset) :: frames,.semicolon :: k :: rest,b.2⟩
        ⟨(75,.unset) :: (63,b.1) :: (40,.unset) :: (22,c.1) :: (11,.unset) :: (2,.unset) :: frames,k :: rest,b.2⟩ :=
      shift_to onEnd (fits _ (by simp only [List.length_cons]; omega))
    have whole := head.trans (value.trans (set.trans (inside.trans (ends.trans ((reduce_to .trigger
      [(75,.unset),(63,b.1),(40,.unset),(22,c.1),(11,.unset),(2,.unset)] (by decide) reducesTrigger rfl goesTrigger
      (fits _ (by omega))).trans
      (reduce_to .triggerStatement [(8,_)] (by decide) reducesStatement rfl goes (fits _ (by omega))))))))
    simp only [Reads,Instruction.tokens,instructionBuild,isCond,isList,List.cons_append,List.append_assoc,
      List.nil_append]
    exact whole
  | var id init =>
    obtain ⟨starts,onName,onEnd,onAssign,afterAssign,onEnd',reduces⟩ := instructionStates.var
    obtain ⟨onVar,goesVar⟩ := starts _ start
    obtain ⟨reducesPlain,reducesInit,reducesDeclaration⟩ := reduces k.kind
    cases init with
    | none =>
      simp only [instructionNeed] at fits
      have read : Runs room ⟨frames,.keyVar :: .identifier id :: .semicolon :: k :: rest,s⟩
          ⟨(16,.unset) :: (10,.sval id) :: (1,.unset) :: frames,k :: rest,s⟩ :=
        shifts_to [(.keyVar,1),(.identifier id,10),(.semicolon,16)] ⟨onVar,onName,onEnd,trivial⟩ fits
      exact read.trans ((reduce_to .varDeclaration [(16,.unset),(10,.sval id),(1,.unset)] (by decide) reducesPlain rfl goesVar
        (fits _ (by omega))).trans
        (reduce_to .declaration [(9,_)] (by decide) reducesDeclaration rfl goes (fits _ (by omega))))
    | some e =>
      simp only [instructionNeed] at fits
      obtain ⟨startsExp,shiftsExp⟩ := expStates.outer 17 (by decide)
      have head : Runs room ⟨frames,.keyVar :: .identifier id :: .assign :: (expTokens .mul e ++ .semicolon :: k :: rest),s⟩
          ⟨(17,.unset) :: (10,.sval id) :: (1,.unset) :: frames,expTokens .mul e ++ .semicolon :: k :: rest,s⟩ :=
        shifts_to [(.keyVar,1),(.identifier id,10),(.assign,17)] ⟨onVar,onName,onAssign,trivial⟩
          (fun m le => fits m (by simp only [List.length_cons,List.length_nil] at le; omega))
      have value : Reads room ((17,.unset) :: (10,.sval id) :: (1,.unset) :: frames) (expTokens .mul e) .semicolon
          (k :: rest) s 27 (expBuild e s) :=
        exp_reads e fine startsExp shiftsExp (above_one e) (ends_calm rfl) (ends_loose rfl e) afterAssign
          (fun m le => fits m (by simp only [List.length_cons] at le; omega))
      generalize isInit : expBuild e s = b at value
      have ends : Runs room
          ⟨(27,b.1) :: (17,.unset) :: (10,.sval id) :: (1,.unset) :: frames,.semicolon :: k :: rest,b.2⟩
          ⟨(49,.unset) :: (27,b.1) :: (17,.unset) :: (10,.sval id) :: (1,.unset) :: frames,k :: rest,b.2⟩ :=
        shift_to onEnd' (fits _ (by simp only [List.length_cons]; omega))
      have whole := head.trans (value.trans (ends.trans ((reduce_to .varInitialized
        [(49,.unset),(27,b.1),(17,.unset),(10,.sval id),(1,.unset)] (by decide) reducesInit rfl goesVar
        (fits _ (by omega))).trans
        (reduce_to .declaration [(9,_)] (by decide) reducesDeclaration rfl goes (fits _ (by omega))))))
      simp only [Reads,Instruction.tokens,instructionBuild,isInit,List.cons_append,List.append_assoc,List.nil_append]
      exact whole

/-- `yyparse` reads the tokens of a program to their end. -/
theorem instructions_read {s : Build α} (p : Instructions α) (fine : p.Fine) (fits : Fits room (instructionsNeed p)) :
    Runs room ⟨[],p.tokens .mul ++ [.eof],s⟩ ⟨[(14,.unset),(4,.unset)],[],instructionsBuild p s⟩ := by
  obtain ⟨goesFirst,goesList,goesLater,onEof,goesProgram,onEnd,reduces⟩ := instructionStates.program
  replace goesFirst : goto (yyparse.top ([] : Frames α)) .instruction = 6 := goesFirst
  replace goesList : goto (yyparse.top ([] : Frames α)) .instructionList = 5 := goesList
  simp only [instructionsNeed] at fits
  have list : Reads room [] (p.tokens .mul) .eof [] s 5 (manyBuild .instructionsOne .instructionsMore [] instructionBuild p s) := by
    refine many_reads [] (fun _ => True) ?_ ?_ (fun i => ?_) (fun t => (reduces t).1) rfl (by decide) goesList
      (fun t => (reduces t).2) rfl (by decide) goesList (fits _ (by simp)) p s .eof [] fine trivial
      (fun m le => fits m (by simp only [List.length_nil,Nat.zero_add] at le; exact le_max_of_le_right le))
    · exact fun i s k rest fine _ fits => instruction_reads i fine (show (0 : State) ∈ _ by decide) goesFirst fits
    · intro v i s k rest fine _ fits
      refine instruction_reads i fine (show (5 : State) ∈ _ by decide) goesLater (fun m le => fits m ?_)
      simp only [List.length_cons,List.length_nil] at le ⊢
      omega
    · cases i with
      | block => exact ⟨_,_,rfl,trivial⟩
      | trigger => exact ⟨_,_,rfl,trivial⟩
      | var id init => cases init <;> exact ⟨_,_,rfl,trivial⟩
  have start : Reads room [] (p.tokens .mul) .eof [] s 4 (.unset,instructionsBuild p s) :=
    list.trans (reduce_to .program [(5,_)] (by decide) onEof rfl goesProgram (fits _ (by simp)))
  have last : Runs room ⟨[(4,.unset)],[.eof],instructionsBuild p s⟩
      ⟨[(14,.unset),(4,.unset)],[],instructionsBuild p s⟩ := shift_to onEnd (fits _ (by simp))
  exact start.trans last

/-- It accepts them, and leaves what the actions build of them. -/
theorem accepts_instructions {s : Build α} (p : Instructions α) (fine : p.Fine) (fits : Fits room (instructionsNeed p)) :
    yyparse.Accepts semantics room (p.tokens .mul ++ [.eof]) s (instructionsBuild p s) :=
  ⟨_,instructions_read p fine fits,step_accepted.mpr ⟨rfl,rfl⟩⟩

/-- What `yyparse` accepts is a program, and it leaves what the actions build of it. -/
theorem accepts_only {word : List (Token α)} {s after : Build α} (inner : ∀ k ∈ word, k.kind ≠ .eof)
    (accepts : yyparse.Accepts semantics room (word ++ [.eof]) s after) :
    ∃ p : Instructions α, p.Fine ∧ p.tokens .mul = word ∧ instructionsBuild p s = after := by
  have free : yyparse.Accepts semantics (fun _ => true) (word ++ [.eof]) s after :=
    accepts_more_room (fun _ _ => rfl) accepts
  obtain ⟨p,fine,rfl⟩ := derives_instructions (accepts_derives yyparse_certified inner free)
  exact ⟨p,fine,rfl,accepts_unique (accepts_instructions p fine fun _ _ => rfl) free⟩

/-- Two trees of the same tokens build the same. -/
theorem instructionsBuild_congr {p p' : Instructions α} (fine : p.Fine) (fine' : p'.Fine) (same : p.tokens .mul = (p'.tokens .mul))
    (s : Build α) : instructionsBuild p s = instructionsBuild p' s := by
  have one : yyparse.Accepts semantics (fun _ => true) (p.tokens .mul ++ [.eof]) s (instructionsBuild p s) :=
    accepts_instructions p fine fun _ _ => rfl
  rw [same] at one
  exact accepts_unique one (accepts_instructions p' fine' fun _ _ => rfl)

end

end Starter.Parsing
