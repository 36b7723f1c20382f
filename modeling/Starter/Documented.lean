import Starter.Manual
import Starter.Rewriting

/-!
The texts that the parser accepts and the programs of the manual. The two agree where the
lexer drops nothing and takes a sign into a number exactly where the manual has a prefix
`-` before it: at a place where an operand is expected.
-/
namespace Starter.Documented
open Gdouble Expressions Grammar Syntax Actions Parsing Operators Lexer Calls Accesses Manual Rewriting Lib.Munch Lib.Lr Lib.Precedence

/-- The token can stand where an operand is expected, or is not: a number has a `-` only there, and no `+`, and there is
no other operator there that the grammar or the manual has before an operand. -/
def follows (opening : Bool) : Token Literal → Bool
  | .op o => !(opening && (o = .sub || o = .mul))
  | .value (.number (c :: _)) => !isSign c || (opening && c = '-')
  | _ => true

/-- Every token of the text can stand where it does. -/
def regular : Bool → List (Token Literal) → Bool
  | _, [] => true
  | opening, t :: rest => follows opening t && regular (opens t) rest

/-- The operand that the manual has for a number of the parser's lexer. -/
def spell : Literal → Operand Literal
  | .number (c :: word) => if c = '-' then .minus (.value (.number word)) else .value (.number (c :: word))
  | v => .value v

/-- The tokens of the manual's programs for those of the grammar's. -/
def toManual : Bool → List (Token Literal) → List (Token Literal)
  | _, [] => []
  | true, .op .mul :: rest => .op .sub :: toManual true rest
  | _, .value v :: rest => (spell v).tokens .sub ++ toManual false rest
  | _, t :: rest => t :: toManual (opens t) rest

/-- A prefix operator with its operand before and after: a number gets the sign. -/
def contract : Operand Literal → Operand Literal → Operand Literal
  | .value (.number word), _ => .value (.number ('-' :: word))
  | _, a => .minus a

/-- The tokens of the grammar's programs for those of the manual's. -/
def toGrammar : Bool → List (Token Literal) → List (Token Literal)
  | _, [] => []
  | true, .op .sub :: .value (.number word) :: rest => .value (.number ('-' :: word)) :: toGrammar false rest
  | true, .op .sub :: rest => .op .mul :: toGrammar true rest
  | _, t :: rest => t :: toGrammar (opens t) rest

theorem toGrammar_false (t : Token Literal) (rest : List (Token Literal)) :
    toGrammar false (t :: rest) = t :: toGrammar (opens t) rest := by
  simp [toGrammar]

theorem toManual_transfer : Transfer toManual .mul .sub spell fun _ a => .minus a where
  nil := rfl
  keeps opening t rest noOp := by
    cases t with
    | op o => exact absurd rfl (noOp o)
    | value v => exact v.elim
    | _ => cases opening <;> rfl
  binary op rest := by cases op <;> rfl
  number v rest := rfl
  prefixed a rest ih := by
    rw [toManual,ih]
    rfl

theorem toGrammar_transfer : Transfer toGrammar .sub .mul .value contract where
  nil := rfl
  keeps opening t rest noOp := by
    cases t with
    | op o => exact absurd rfl (noOp o)
    | value v => exact v.elim
    | _ => cases opening <;> rfl
  binary op rest := toGrammar_false _ rest
  number v rest := rfl
  prefixed a rest ih := by
    cases a with
    | value v =>
      cases v with
      | number word => rfl
      | truth b => rfl
    | ref | flag | parens | minus | call => exact congrArg _ ih

/-- Where every token can stand as it does, the tokens of the manual are the expanded ones. -/
theorem toManual_expand {opening : Bool} {tokens : List (Token Literal)} (isRegular : regular opening tokens = true) :
    toManual opening tokens = tokens.flatMap expand := by
  induction tokens generalizing opening with
  | nil => cases opening <;> rfl
  | cons t rest ih =>
    obtain ⟨here,later⟩ := Bool.and_eq_true_iff.mp isRegular
    rw [List.flatMap_cons,← ih later]
    cases t with
    | op o =>
      cases opening with
      | false => cases o <;> rfl
      | true =>
        cases o with
        | mul => simp [follows] at here
        | _ => rfl
    | value v =>
      have spelled : (spell v).tokens .sub = expand (.value v) := by
        cases v with
        | truth b => rfl
        | number word =>
          cases word with
          | nil => rfl
          | cons c word =>
            by_cases minus : c = '-'
            · subst minus
              rfl
            · have unsigned : isSign c = false := by simpa [follows,minus] using here
              simp [spell,expand,minus,unsigned,Operand.tokens]
      rw [← spelled]
      cases opening <;> rfl
    | _ => cases opening <;> rfl

/-- And the grammar's tokens are back after that, whatever comes after them. -/
theorem toGrammar_append {opening : Bool} {tokens : List (Token Literal)} (isRegular : regular opening tokens = true) :
    ∃ later, ∀ rest, toGrammar opening (tokens.flatMap expand ++ rest) = tokens ++ toGrammar later rest := by
  induction tokens generalizing opening with
  | nil => exact ⟨opening,fun _ => rfl⟩
  | cons t tokens ih =>
    obtain ⟨here,isRegular⟩ := Bool.and_eq_true_iff.mp isRegular
    obtain ⟨later,after⟩ := ih isRegular
    refine ⟨later,fun rest => ?_⟩
    rw [List.flatMap_cons,List.append_assoc]
    cases t with
    | op o =>
      cases opening with
      | false => exact (toGrammar_false _ _).trans (congrArg (List.cons _) (after rest))
      | true =>
        cases o with
        | sub => simp [follows] at here
        | _ => exact congrArg (List.cons _) (after rest)
    | value v =>
      cases v with
      | truth b =>
        refine Eq.trans ?_ (congrArg (List.cons _) (after rest))
        cases opening <;> rfl
      | number word =>
        cases word with
        | nil =>
          refine Eq.trans ?_ (congrArg (List.cons _) (after rest))
          cases opening <;> rfl
        | cons c word =>
          by_cases sign : isSign c = true
          · -- The sign stands where an operand is expected, and is a `-`.
            obtain ⟨rfl,rfl⟩ : opening = true ∧ c = '-' := by simpa [follows,sign] using here
            exact congrArg (List.cons _) (after rest)
          · have single : expand (.value (.number (c :: word))) = [.value (.number (c :: word))] := by simp [expand,sign]
            rw [single]
            refine Eq.trans ?_ (congrArg (List.cons _) (after rest))
            cases opening <;> rfl
    | _ =>
      refine Eq.trans ?_ (congrArg (List.cons _) (after rest))
      cases opening <;> rfl

theorem toGrammar_expand {opening : Bool} {tokens : List (Token Literal)} (isRegular : regular opening tokens = true) :
    toGrammar opening (tokens.flatMap expand) = tokens := by
  obtain ⟨later,after⟩ := toGrammar_append isRegular
  have whole := after []
  rw [List.append_nil] at whole
  rw [whole]
  cases later <;> exact List.append_nil tokens

theorem regular_take {opening : Bool} {tokens : List (Token Literal)} (isRegular : regular opening tokens = true) (n : Nat) :
    regular opening (tokens.take n) = true := by
  induction n generalizing opening tokens with
  | zero => cases opening <;> rfl
  | succ n ih =>
    cases tokens with
    | nil => exact isRegular
    | cons t tokens =>
      obtain ⟨here,later⟩ := Bool.and_eq_true_iff.mp isRegular
      exact Bool.and_eq_true_iff.mpr ⟨here,ih later⟩

section
variable (α : Type) [Gdouble α]

/-- The parser on the text, with a stack of that depth. -/
abbrev Comes (room : Nat → Bool) (text : List Char) (c : Config State (Token α) (Val α) (Build α)) : Prop :=
  yyparse.Steps semantics room ⟨[],lex text ++ [.eof],emptyBuild⟩ c

/-- The parser comes to look at the token of that number: it has shifted those before it. -/
def Looks (text : List Char) (n : Nat) : Prop := ∃ c, Comes α stackRoom text c ∧ c.input = (lex text ++ [Token.eof]).drop n

/-- What sets no trap for the parser. Up to each token that it looks at, no character is dropped, and signs stand as the
manual has them; if the whole is a program, every call in it is one of a documented function with as many arguments as
that needs; and the stack is as deep as the parser needs it to get as far as it does. -/
structure Plain (text : List Char) : Prop where
  clean : ∀ n, Looks α text n → ∀ step ∈ stepsTo (scan classify text) n, step.1 ≠ .invalid
  regular : ∀ n, Looks α text n → regular false ((lexWords text).take (n + 1)) = true
  calls : ∀ p : Instructions Literal, p.Fine → p.tokens .mul = lexWords text → GoodCalls p
  room : ∀ c, Comes α (fun _ => true) text c → stackRoom c.frames.length = true

end

section
variable {α : Type} [Gdouble α] {text : List Char}

/-- A text that the parser accepts is one of a syntax tree over its words. -/
theorem parses_words {after : Build α} (parses : Parses (lex text) after) :
    ∃ p : Instructions Literal, p.Fine ∧ p.tokens .mul = lexWords text := by
  have derives := accepts_derives yyparse_certified lex_inner (accepts_more_room (fun _ _ => rfl) parses)
  refine derives_instructions (derives_kinds derives ?_)
  rw [lex,List.map_map]
  exact (List.map_congr_left fun t _ => map_kind _ t).symm

theorem spell_calls (p : Instructions Literal) :
    GoodCalls (instructionsMap (expRewrite spell fun _ a => .minus a) p) ↔ GoodCalls p := by
  have number : ∀ v, OperandCalls neededCount (spell v) := by
    intro v
    cases v with
    | truth b => trivial
    | number word =>
      cases word with
      | nil => trivial
      | cons c word =>
        simp only [spell]
        split_ifs
        · trivial
        · trivial
  have prefixed : ∀ a b : Operand Literal, (OperandCalls neededCount b ↔ OperandCalls neededCount a) →
      (OperandCalls neededCount b.minus ↔ OperandCalls neededCount a) := fun _ _ same => same
  exact goodCalls_rewrite number prefixed p

theorem contract_calls (p : Instructions Literal) : GoodCalls (instructionsMap (expRewrite .value contract) p) ↔ GoodCalls p := by
  have prefixed : ∀ a b : Operand Literal, (OperandCalls neededCount b ↔ OperandCalls neededCount a) →
      (OperandCalls neededCount (contract a b) ↔ OperandCalls neededCount a) := by
    intro a b same
    cases a with
    | value v =>
      cases v with
      | number word => exact Iff.rfl
      | truth b => exact same
    | ref | flag | parens | minus | call => exact same
  exact goodCalls_rewrite (fun _ => trivial : ∀ v : Literal, OperandCalls neededCount (.value v)) prefixed p

/-- The grammar has a program for every one of the manual, with the same calls. -/
theorem grammar_program (p : Instructions Literal) :
    ∃ q : Instructions Literal, q.Fine ∧ q.tokens .mul = toGrammar false (p.tokens .sub) ∧ (GoodCalls p → GoodCalls q) := by
  obtain ⟨q,fine,same,calls⟩ := instructions_regroup (instructionsMap (expRewrite .value contract) p)
  exact ⟨q,fine,same.trans (instructions_transfer toGrammar_transfer p),fun good => calls ((contract_calls p).mpr good)⟩

/-- The parser reads the tokens of such a tree to their end, if the stack is deep enough for it. -/
theorem words_read {tokens : List (Token Literal)} {p : Instructions Literal} (fine : p.Fine) (same : p.tokens .mul = tokens) :
    ∃ c : Config State (Token α) (Val α) (Build α), yyparse.Steps semantics (fun _ => true)
      ⟨[],tokens.map (Token.map Literal.val) ++ [.eof],emptyBuild⟩ c ∧ c.input = [] ∧ yyparse.top c.frames = 14 := by
  obtain ⟨fine',_⟩ := instructionsMap_same (Literal.val : Literal → α) p fine
  have mapped := instructions_transfer (map_transfer (Literal.val : Literal → α)) p
  rw [same] at mapped
  have steps := instructions_read (s := emptyBuild) _ fine' (fun _ _ => rfl : Fits (fun _ => true) _)
  rw [expMap,mapped] at steps
  exact ⟨_,steps,rfl,rfl⟩

/-- Where the words up to a token expand to the first ones of a program of the manual, the parser comes to look at the
next one. -/
theorem looks_next {p : Instructions Literal} {n : Nat} (less : n < (lexWords text).length)
    (room : ∀ c, Comes α (fun _ => true) text c → stackRoom c.frames.length = true)
    (isRegular : regular false ((lexWords text).take (n + 1)) = true) {more : List (Token Literal)}
    (tokens : p.tokens .sub = ((lexWords text).take (n + 1)).flatMap expand ++ more) : Looks α text (n + 1) := by
  obtain ⟨q,fine,same,_⟩ := grammar_program p
  obtain ⟨later,after⟩ := toGrammar_append isRegular
  rw [tokens,after] at same
  -- A program of the grammar begins with the same tokens, and the parser looks at nothing else before the next one.
  obtain ⟨c,steps,nothing,_⟩ := words_read (α := α) fine same
  obtain ⟨read,_,input,passed⟩ := steps_reads steps
  have length : ((lex text).take (n + 1) : List (Token α)).length = n + 1 := by
    rw [List.length_take,lex,List.length_map]
    omega
  have whole : ((lexWords text).take (n + 1) ++ toGrammar later more).map (Token.map (Literal.val : Literal → α)) ++ [.eof] =
      (lex text).take (n + 1) ++ ((toGrammar later more).map (Token.map Literal.val) ++ [.eof]) := by
    rw [List.map_append,List.map_take,List.append_assoc,lex]
  dsimp only at input passed
  rw [whole] at steps input passed
  have all := List.drop_eq_nil_iff.mp (input.symm.trans nothing)
  rw [List.length_append,length] at all
  obtain ⟨d,steps,at_next⟩ := passed (n + 1) (by omega)
  rw [List.drop_left' length] at at_next
  obtain ⟨e,steps,ends⟩ := steps_prefix steps rfl at_next ((lex text).drop (n + 1) ++ [.eof])
  have again : (lex text).take (n + 1) ++ ((lex text).drop (n + 1) ++ [Token.eof (α := α)]) = lex text ++ [.eof] := by
    rw [← List.append_assoc,List.take_append_drop]
  dsimp only at steps
  rw [again] at steps
  refine ⟨e,steps_less_room room steps,ends.trans ?_⟩
  rw [← again,List.drop_left' length]

/-- Every such tree with enough room is accepted. -/
theorem words_parse {p : Instructions Literal} (fine : p.Fine) (tokens : p.tokens .mul = lexWords text)
    (need : instructionsNeed p < 9999) : ∃ after : Build α, Parses (lex text) after := by
  obtain ⟨fine',need'⟩ := instructionsMap_same (Literal.val : Literal → α) p fine
  have same := instructions_transfer (map_transfer (Literal.val : Literal → α)) p
  rw [tokens] at same
  exact ⟨_,parses_program fine' same (need'.trans_lt need)⟩

/-- A text that is accepted has been looked at as a whole. -/
theorem parses_looks {after : Build α} (parses : Parses (lex text) after) : ∀ n ≤ (lexWords text).length, Looks α text n := by
  obtain ⟨c,steps,ends⟩ := parses
  obtain ⟨nothing,_⟩ := accepted_input yyparse_certified lex_inner steps ends
  obtain ⟨read,_,input,passed⟩ := steps_reads steps
  intro n le
  refine passed n ?_
  have all : (lex text ++ [Token.eof (α := α)]).length ≤ read := List.drop_eq_nil_iff.mp (input.symm.trans nothing)
  simp only [lex,List.length_append,List.length_map,List.length_cons,List.length_nil] at all
  omega

/-- A text that has been looked at as a whole has no trap at all. -/
theorem plain_whole (plain : Plain α text) (looks : Looks α text (lexWords text).length) :
    Clean text ∧ regular false (lexWords text) = true := by
  have clean := plain.clean _ looks
  have isRegular := plain.regular _ looks
  rw [lexWords,stepsTo_all le_rfl] at clean
  rw [List.take_of_length_le (Nat.le_succ _)] at isRegular
  exact ⟨clean,isRegular⟩

/-- `yyparse` accepts such a text if and only if it is a program of the manual. -/
theorem parses_plain (plain : Plain α text) : (∃ after : Build α, Parses (lex text) after) ↔ Documented text := by
  constructor
  · rintro ⟨after,parses⟩
    obtain ⟨clean,isRegular⟩ := plain_whole plain (parses_looks parses _ le_rfl)
    obtain ⟨covered,words⟩ := manual_scan text clean
    obtain ⟨p,fine,tokens⟩ := parses_words parses
    refine ⟨covered,instructionsMap (expRewrite spell fun _ a => .minus a) p,?_,?_⟩
    · exact (spell_calls p).mpr (plain.calls p fine tokens)
    · rw [instructions_transfer toManual_transfer,tokens,toManual_expand isRegular,words]
  · rintro ⟨_,p,_,tokens⟩
    -- The parser looks at one token after the other, since what it has read of the text begins a program.
    have looks : ∀ n ≤ (lexWords text).length, Looks α text n := by
      intro n
      induction n with
      | zero => exact fun _ => ⟨_,.refl,rfl⟩
      | succ n ih =>
        intro less
        have here := ih (Nat.le_of_succ_le less)
        obtain ⟨more,words⟩ := manual_scan_to text n (plain.clean n here)
        exact looks_next less plain.room (plain.regular n here) (tokens.trans words)
    obtain ⟨clean,isRegular⟩ := plain_whole plain (looks _ le_rfl)
    obtain ⟨_,words⟩ := manual_scan text clean
    obtain ⟨q,fine,same,_⟩ := grammar_program p
    rw [tokens,words,toGrammar_expand isRegular] at same
    obtain ⟨c,steps,_,final⟩ := words_read (α := α) fine same
    exact ⟨_,c,steps_less_room plain.room steps,step_accepted.mpr ⟨final,rfl⟩⟩

/-- An accepted text without traps. -/
theorem plain_program {after : Build α} (parses : Parses (lex text) after) {p : Instructions Literal} (fine : p.Fine)
    (tokens : p.tokens .mul = lexWords text) (good : GoodCalls p) (clean : Clean text)
    (isRegular : regular false (lexWords text) = true) : Plain α text := by
  refine ⟨fun _ _ step member => clean step (stepsTo_mem member),fun n _ => regular_take isRegular _,?_,?_⟩
  · intro q fine' tokens'
    have same := instructions_transfer (map_transfer (Literal.val : Literal → α)) p
    have same' := instructions_transfer (map_transfer (Literal.val : Literal → α)) q
    rw [tokens'.trans tokens.symm,← same] at same'
    rw [← goodCalls_map (Literal.val : Literal → α),← instructionsBuild_sound] at good ⊢
    rw [← expMap] at same'
    rwa [instructionsBuild_congr (instructionsMap_same _ q fine').1 (instructionsMap_same _ p fine).1 same']
  · rintro ⟨frames,input,world⟩ comes
    cases frames with
    | nil => rfl
    | cons f frames => exact accepts_room parses comes (List.cons_ne_nil f frames)

/-- Where the words are those of a program of the grammar, and expand to those of a program of the manual, signs stand as
the manual has them. -/
theorem regular_of_cut {opening : Bool} {tokens : List (Token Literal)} (grammar : cut .mul opening tokens = tokens)
    (manual : cut .sub opening (tokens.flatMap expand) = tokens.flatMap expand) : regular opening tokens = true := by
  induction tokens generalizing opening with
  | nil => cases opening <;> rfl
  | cons t rest ih =>
    rw [List.flatMap_cons] at manual
    rw [regular,Bool.and_eq_true]
    cases t with
    | op o =>
      cases opening with
      | false => exact ⟨rfl,ih (List.cons.inj grammar).2 (List.cons.inj manual).2⟩
      | true =>
        -- The grammar has no operator but `*` here, and the manual none but `-`.
        have isMul : o = .mul := by
          by_contra other
          simp [cut,other] at grammar
        subst isMul
        cases manual
    | value v =>
      cases opening with
      | false => cases grammar
      | true =>
        have later := (List.cons.inj grammar).2
        cases v with
        | truth b => exact ⟨rfl,ih later (List.cons.inj manual).2⟩
        | number word =>
          cases word with
          | nil => exact ⟨rfl,ih later (List.cons.inj manual).2⟩
          | cons c word =>
            by_cases sign : isSign c = true
            · simp only [expand,sign,if_true] at manual
              have isMinus : c = '-' := by
                by_contra other
                simp [cut,other] at manual
              subst isMinus
              exact ⟨rfl,ih later (List.cons.inj (List.cons.inj manual).2).2⟩
            · simp only [expand,sign,Bool.false_eq_true,if_false] at manual
              exact ⟨by simp [follows,sign],ih later (List.cons.inj manual).2⟩
    | _ => cases opening <;> exact ⟨rfl,ih (List.cons.inj grammar).2 (List.cons.inj manual).2⟩

/-- An accepted text that is a program of the manual has no traps, if its comments end. -/
theorem plain_documented {after : Build α} (parses : Parses (lex text) after) (closed : Closed text)
    (documented : Documented text) : Plain α text := by
  obtain ⟨covered,p,good,tokens⟩ := documented
  have clean := clean_of_covered text closed covered
  obtain ⟨_,words⟩ := manual_scan text clean
  obtain ⟨r,_,tokens'⟩ := parses_words parses
  have isRegular : regular false (lexWords text) = true := by
    refine regular_of_cut ?_ ?_
    · rw [← tokens',instructions_cut]
    · rw [← words,← tokens,instructions_cut]
  obtain ⟨q,fine,same,calls⟩ := grammar_program p
  rw [tokens,words,toGrammar_expand isRegular] at same
  exact plain_program parses fine same (calls good) clean isRegular

/-- A text in which the parser meets no trap is accepted if and only if it is a program of the manual. Of the accepted texts
whose comments end, the programs of the manual are the ones without traps. -/
theorem parses_documented_text (text : List Char) :
    (Plain α text → ((∃ after : Build α, Parses (lex text) after) ↔ Documented text)) ∧
      ((∃ after : Build α, Parses (lex text) after) → Closed text → (Documented text ↔ Plain α text)) := by
  refine ⟨parses_plain,?_⟩
  rintro ⟨after,parses⟩ closed
  exact ⟨plain_documented parses closed,fun plain => (parses_plain plain).mp ⟨after,parses⟩⟩

end

private def doorText : List Char := "x\x7bSET MAX(y,-1)WHEN y;\x7d#\nTRIGGER WHEN y SET x=2*y;".toList

private def doorWords : Instructions Literal :=
  .more (.one (.block "x" none (.one
      ⟨.leaf (.call "MAX" (.more (.one (.leaf (.ref "y"))) (.leaf (.value (.number ['-','1']))))),.leaf (.ref "y")⟩)))
    (.trigger (.leaf (.ref "y")) (.one ⟨"x",none,.node .mul (.leaf (.value (.number ['2']))) (.leaf (.ref "y"))⟩))

theorem parses_documented_door : ((∃ after : Build ℚ, Parses (lex doorText) after) ↔ Documented doorText) ∧
    (Documented doorText ↔ Plain ℚ doorText) := by
  have scanned : doorWords.tokens .mul = lexWords doorText ∧ ∀ step ∈ scan classify doorText, step.1 ≠ .invalid := by
    decide +kernel
  have fine : doorWords.Fine := ⟨⟨⟨trivial,trivial⟩,trivial⟩,trivial,trivial,trivial,trivial,trivial⟩
  have good : GoodCalls doorWords := ⟨⟨⟨⟨.max,rfl,rfl⟩,rfl,trivial,trivial⟩,trivial⟩,trivial,trivial,trivial⟩
  obtain ⟨after,parses⟩ : ∃ after : Build ℚ, Parses (lex doorText) after := words_parse fine scanned.1 (by decide)
  have isRegular : regular false (lexWords doorText) = true := by
    rw [← scanned.1]
    decide
  have closed : Closed doorText := fun step member dropped => absurd dropped (scanned.2 step member)
  obtain ⟨enough,needed⟩ := parses_documented_text (α := ℚ) doorText
  exact ⟨enough (plain_program parses fine scanned.1 good scanned.2 isRegular),needed ⟨after,parses⟩ closed⟩

/-- `SET 1 WHEN !door;` is accepted as `SET 1 WHEN door;`, and no program of the manual. -/
theorem negated_door_accepted :
    (∃ after : Build ℚ, Parses (lex "lamp \x7b SET 1 WHEN !door; \x7d".toList) after) ∧
      ¬ Documented "lamp \x7b SET 1 WHEN !door; \x7d".toList := by
  constructor
  · let p : Instructions Literal :=
      .one (.block "lamp" none (.one ⟨.leaf (.value (.number ['1'])),.leaf (.ref "door")⟩))
    have words : lexWords "lamp \x7b SET 1 WHEN !door; \x7d".toList = [.identifier "lamp",.braceOpen,.keySet,
        .value (.number ['1']),.keyWhen,.identifier "door",.semicolon,.braceClose] := by decide +kernel
    exact words_parse (show p.Fine from ⟨trivial,trivial⟩) words.symm (by decide)
  · rintro ⟨covered,_⟩
    exact absurd covered (by decide +kernel)

end Starter.Documented
