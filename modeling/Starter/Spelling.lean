import Starter.Printing
import Starter.Spacing

/-!
The words of what the parser builds. Every name in it is an identifier and every flag bit has
a name, so that the lexer cuts the printed text into the tokens of the tree: after each word
stands a character that cannot make it longer.
-/
namespace Starter.Spelling
open Gdouble Expressions Rules Syntax Actions Operators Lexer Spacing Printing Lib.Lr Lib.Precedence

/-- The lexer returns the identifier for its text. -/
def Name (id : String) : Prop := classify id.toList = some (.token (.identifier id))

/-- The bits that have a name. -/
def flagBits : List IoFlags :=
  [stIoFlagUsr1,stIoFlagUsr2,stIoFlagUsr3,stIoFlagUsr4,stIoFlagManualOverride,stIoFlagNoHistory]

variable {α : Type}

mutual
/-- The names in a tree are identifiers, and its flags have names. -/
def Spelled : Expr α → Prop
  | .literal _ => True
  | .op _ left right => Spelled left ∧ Spelled right
  | .ref id => Name id
  | .func _ _ args => SpelledAll args
  | .flag id bit => Name id ∧ bit ∈ flagBits

def SpelledAll : List (Expr α) → Prop
  | [] => True
  | e :: es => Spelled e ∧ SpelledAll es
end

theorem spelledAll_iff (es : List (Expr α)) : SpelledAll es ↔ ∀ e ∈ es, Spelled e := by
  induction es with
  | nil => simp [SpelledAll]
  | cons e es ih => simp [SpelledAll,ih]

structure SpelledAssign (a : Assign α) : Prop where
  id : Name a.id
  rval : Spelled a.rval
  flag : a.flagBit = 0 ∨ a.flagBit ∈ flagBits

structure SpelledTrigger (t : Trigger α) : Prop where
  cond : Spelled t.cond
  some : t.ass ≠ []
  ass : ∀ a ∈ t.ass, SpelledAssign a

/-- What is spelled of the values on the parser's stack. -/
def SpelledVal : Val α → Prop
  | .sval id => Name id
  | .uval bit => bit ∈ flagBits
  | .expr e => Spelled e
  | .args es => SpelledAll es
  | .assign a => SpelledAssign a
  | .assigns as => as ≠ [] ∧ ∀ a ∈ as, SpelledAssign a
  | .entry e => Spelled e.cond ∧ Spelled e.ass.rval
  | .entries es => ∀ e ∈ es, Spelled e.cond ∧ Spelled e.ass.rval
  | .block b => ∀ e ∈ b.entries, Spelled e.cond ∧ SpelledAssign e.ass
  | .trigger t => SpelledTrigger t
  | .unset | .dval _ => True

structure SpelledProgram (p : Program α) : Prop where
  labels : ∀ b ∈ p.engine.labels, ∀ e ∈ b.entries, Spelled e.cond ∧ SpelledAssign e.ass
  triggers : ∀ t ∈ p.engine.triggers, SpelledTrigger t
  decls : ∀ d ∈ p.decls, Name d.1 ∧ Spelled d.2

section
variable [Gdouble α]

omit [Gdouble α] in
theorem call_spelled {id : String} {v : Val α} {s : Build α} (spelled : SpelledVal v) (program : SpelledProgram s.program) :
    SpelledVal (call id v s).1 ∧ SpelledProgram (call id v s).2.program := by
  unfold call
  cases funcOf id with
  | none => exact ⟨trivial,program⟩
  | some func =>
    cases v with
    | args es =>
      refine ⟨spelled,?_⟩
      dsimp only
      split_ifs
      · exact program
      · exact program
    | _ => exact ⟨trivial,program⟩

theorem expAct_spelled (r : Grammar.Rule) (vals : List (Val α)) (s : Build α) (spelled : ∀ v ∈ vals, SpelledVal v)
    (program : SpelledProgram s.program) : SpelledVal (expAct r vals s).1 ∧ SpelledProgram (expAct r vals s).2.program := by
  unfold expAct
  split <;> try simp only [List.forall_mem_cons] at spelled
  case h_1 => exact ⟨trivial,program⟩
  case h_2 => exact ⟨spelled.1,program⟩
  case h_3 => exact ⟨⟨spelled.1,spelled.2.2.1⟩,program⟩
  case h_4 => exact ⟨⟨spelled.1,spelled.2.2.1⟩,program⟩
  case h_5 => exact ⟨spelled.2.1,program⟩
  case h_6 => exact ⟨⟨trivial,spelled.2.1⟩,program⟩
  case h_7 => exact call_spelled spelled.2.2.1 program
  case h_8 => exact ⟨trivial,program⟩
  case h_9 => exact ⟨⟨spelled.1,trivial⟩,program⟩
  case h_10 es _ e =>
    refine ⟨(spelledAll_iff _).mpr ?_,program⟩
    rw [List.forall_mem_append,List.forall_mem_singleton]
    exact ⟨(spelledAll_iff es).mp spelled.1,spelled.2.2.1⟩
  case h_11 => exact ⟨trivial,program⟩

omit [Gdouble α] in
/-- The entries of a block get its name and its flag. -/
theorem labelBlockNew_spelled {id : String} {bit : IoFlags} {es : List (LabelEntry α)} (name : Name id)
    (flag : bit = 0 ∨ bit ∈ flagBits) (spelled : ∀ e ∈ es, Spelled e.cond ∧ Spelled e.ass.rval) :
    ∀ e ∈ (labelBlockNew id bit es).entries, Spelled e.cond ∧ SpelledAssign e.ass := by
  intro e member
  obtain ⟨entry,among,rfl⟩ := List.mem_map.mp member
  exact ⟨(spelled entry among).1,⟨name,(spelled entry among).2,flag⟩⟩

/-- Every action keeps what is spelled. -/
theorem act_spelled (r : Grammar.Rule) (vals : List (Val α)) (s : Build α) (spelled : ∀ v ∈ vals, SpelledVal v)
    (program : SpelledProgram s.program) : SpelledVal (act r vals s).1 ∧ SpelledProgram (act r vals s).2.program := by
  obtain ⟨labels,triggers,decls⟩ := program
  have same : SpelledProgram s.program := ⟨labels,triggers,decls⟩
  unfold act
  split <;> try simp only [List.forall_mem_cons] at spelled
  case h_1 b =>
    refine ⟨spelled.1,⟨?_,triggers,decls⟩⟩
    exact List.forall_mem_append.mpr ⟨labels,List.forall_mem_singleton.mpr spelled.1⟩
  case h_2 t =>
    refine ⟨spelled.1,⟨labels,?_,decls⟩⟩
    exact List.forall_mem_append.mpr ⟨triggers,List.forall_mem_singleton.mpr spelled.1⟩
  case h_3 => exact ⟨labelBlockNew_spelled spelled.1 (.inl rfl) spelled.2.2.1,same⟩
  case h_4 => exact ⟨labelBlockNew_spelled spelled.1 (.inr spelled.2.2.1) spelled.2.2.2.2.1,same⟩
  case h_5 => exact ⟨List.forall_mem_singleton.mpr spelled.1,same⟩
  case h_6 => exact ⟨List.forall_mem_append.mpr ⟨spelled.1,List.forall_mem_singleton.mpr spelled.2.1⟩,same⟩
  case h_7 => exact ⟨⟨spelled.2.2.2.1,spelled.2.1⟩,same⟩
  case h_8 => exact ⟨⟨spelled.2.2.1,spelled.2.2.2.2.1.1,spelled.2.2.2.2.1.2⟩,same⟩
  case h_9 => exact ⟨⟨by simp,List.forall_mem_singleton.mpr spelled.1⟩,same⟩
  case h_10 => exact ⟨⟨by simp,List.forall_mem_append.mpr ⟨spelled.1.2,List.forall_mem_singleton.mpr spelled.2.2.1⟩⟩,same⟩
  case h_11 => exact ⟨⟨spelled.1,spelled.2.2.1,.inl rfl⟩,same⟩
  case h_12 => exact ⟨⟨spelled.1,spelled.2.2.2.2.1,.inr spelled.2.2.1⟩,same⟩
  case h_13 =>
    refine ⟨trivial,⟨labels,triggers,?_⟩⟩
    exact List.forall_mem_append.mpr ⟨decls,List.forall_mem_singleton.mpr ⟨spelled.2.1,trivial⟩⟩
  case h_14 =>
    refine ⟨trivial,⟨labels,triggers,?_⟩⟩
    exact List.forall_mem_append.mpr ⟨decls,List.forall_mem_singleton.mpr ⟨spelled.2.1,spelled.2.2.2.1⟩⟩
  case h_20 => exact expAct_spelled _ _ s spelled same
  all_goals exact ⟨trivial,same⟩

theorem literals_spelled : ∀ l ∈ literals, ∀ bit, l.2 = .flagName bit → bit ∈ flagBits := by
  have all : ∀ l ∈ literals, (match l.2 with | .flagName bit => decide (bit ∈ flagBits) | _ => true) = true := by decide +kernel
  intro l member bit same
  have here := all l member
  rw [same] at here
  exact of_decide_eq_true here

/-- The values of the tokens of a text are spelled. -/
theorem lex_spelled {text : List Char} : ∀ t ∈ (lex text : List (Token α)), SpelledVal (semantics.value t) := by
  intro t member
  obtain ⟨t,inWords,rfl⟩ := List.mem_map.mp member
  obtain ⟨⟨lexed,word⟩,inScan,isToken⟩ := List.mem_filterMap.mp inWords
  have isWord : classify word = some lexed := Lib.Munch.scan_classify inScan
  cases lexed with
  | token t' =>
    obtain rfl : t' = t := Option.some.inj isToken
    cases t' with
    | identifier id =>
      rcases classify_token isWord with isLiteral | ⟨_,same⟩ | ⟨_,same⟩
      · have named : ∀ l ∈ literals, l.2.kind ≠ .identifier := by decide +kernel
        exact absurd rfl (named _ isLiteral)
      · cases same
      · have text : word = id.toList := by
          rw [Token.identifier.inj same,String.toList_ofList]
        rw [text] at isWord
        exact isWord
    | flagName bit =>
      rcases classify_token isWord with isLiteral | ⟨_,same⟩ | ⟨_,same⟩
      · exact literals_spelled _ isLiteral bit rfl
      · cases same
      · cases same
    | _ => exact trivial
  | blanks | comment | newline | invalid => cases isToken

/-- The names and flags of what the parser builds are spelled. -/
theorem parses_spelled {text : List Char} {after : Build α} (parses : Parses (lex text) after) : SpelledProgram after.program := by
  have values : ∀ t ∈ lex text ++ [.eof], SpelledVal (semantics.value (t : Token α)) := by
    intro t member
    rcases List.mem_append.mp member with inText | isEof
    · exact lex_spelled t inText
    · obtain rfl := List.mem_singleton.mp isEof
      exact trivial
  have start : SpelledProgram (emptyBuild : Build α).program :=
    ⟨by simp [emptyBuild,Build.program],by simp [emptyBuild,Build.program],by simp [emptyBuild,Build.program]⟩
  exact accepts_keeps SpelledVal (fun s => SpelledProgram s.program) values start act_spelled parses

end

/-- A text of whole words: before a character that makes no name longer it is cut into these tokens. -/
structure Cuts [Gdouble α] (text : List Char) (tokens : List (Token α)) : Prop where
  solid : ∃ c rest, text = c :: rest ∧ isBlank c = false
  cut : ∀ rest, (∀ c ∈ rest.head?, Ending.name.breaks c = true) → lex (text ++ rest) = tokens ++ lex rest

section
variable [Gdouble α]

theorem word_solid {word : List Char} {t : Token Literal} (isWord : classify word = some (.token t)) :
    ∃ c rest, word = c :: rest ∧ isBlank c = false := by
  obtain ⟨c,rest,same,heads⟩ := lexeme_heads ⟨word,t,isWord⟩
  exact ⟨c,rest,same,heads.notBlank⟩

theorem lex_word {word rest : List Char} {t : Token Literal} (isWord : classify word = some (.token t))
    (ends : ∀ c ∈ rest.head?, (ending t).breaks c = true) : (lex (word ++ rest) : List (Token α)) = t.map Literal.val :: lex rest := by
  obtain ⟨c,tail,rfl,_⟩ := word_solid isWord
  rw [lex,lexWords_word isWord (List.cons_ne_nil c tail) fun c first => token_stops isWord (ends c first)]
  rfl

theorem lex_blank {text : List Char} (solid : ∃ c rest, text = c :: rest ∧ isBlank c = false) :
    (lex (' ' :: text) : List (Token α)) = lex text := by
  obtain ⟨c,rest,rfl,notBlank⟩ := solid
  have blanks : isBlanks [' '] = true := by decide
  have stops : ∀ d ∈ (c :: rest).head?, Stops [' '] d := by
    rintro d ⟨⟩
    exact stops_blanks blanks notBlank
  have scanned := scan_word (classify_blanks blanks) (List.cons_ne_nil _ _) stops
  rw [List.singleton_append] at scanned
  rw [lex,lexWords,scanned]
  rfl

theorem lex_nil : (lex [] : List (Token α)) = [] := rfl

/-- A word with a blank behind it. -/
theorem lex_spaced {word text : List Char} {t : Token Literal} (isWord : classify word = some (.token t))
    (solid : ∃ c rest, text = c :: rest ∧ isBlank c = false) :
    (lex (word ++ ' ' :: text) : List (Token α)) = t.map Literal.val :: lex text := by
  rw [lex_word isWord,lex_blank solid]
  simp only [List.head?_cons,Option.mem_def,Option.some_inj,forall_eq']
  cases ending t <;> decide

/-- A character that is a word, whatever comes behind it. -/
theorem lex_mark {c : Char} {t : Token Literal} (isWord : classify [c] = some (.token t)) (any : ending t = .any) (rest : List Char) :
    (lex (c :: rest) : List (Token α)) = t.map Literal.val :: lex rest := by
  rw [← List.singleton_append,lex_word isWord]
  intro c _
  rw [any]
  rfl

theorem cuts_word {word : List Char} {t : Token Literal} (isWord : classify word = some (.token t)) (name : ending t = .name) :
    Cuts word [(t.map Literal.val : Token α)] where
  solid := word_solid isWord
  cut rest breaks := by
    rw [lex_word isWord (by rw [name]; exact breaks)]
    rfl

theorem solid_append {text : List Char} (solid : ∃ c rest, text = c :: rest ∧ isBlank c = false) (more : List Char) :
    ∃ c rest, text ++ more = c :: rest ∧ isBlank c = false := by
  obtain ⟨c,rest,rfl,notBlank⟩ := solid
  exact ⟨c,rest ++ more,rfl,notBlank⟩

/-- A word with a blank behind it, before a text of whole words. -/
theorem cuts_spaced {word text : List Char} {t : Token Literal} {tokens : List (Token α)} (isWord : classify word = some (.token t))
    (cuts : Cuts text tokens) : Cuts (word ++ ' ' :: text) (t.map Literal.val :: tokens) where
  solid := solid_append (word_solid isWord) _
  cut rest breaks := by
    rw [List.append_assoc,List.cons_append,lex_spaced isWord (solid_append cuts.solid rest),cuts.cut rest breaks]
    rfl

/-- Two texts with a blank between them. -/
theorem cuts_apart {one two : List Char} {tokens others : List (Token α)} (cuts : Cuts one tokens) (cuts' : Cuts two others) :
    Cuts (one ++ ' ' :: two) (tokens ++ others) where
  solid := solid_append cuts.solid _
  cut rest breaks := by
    rw [List.append_assoc,cuts.cut _ (by simp [Ending.breaks,isIdentChar,isLetter,isDigit]),List.cons_append,
      lex_blank (solid_append cuts'.solid rest),cuts'.cut rest breaks,List.append_assoc]

/-- A text in parentheses. -/
theorem cuts_parens {text : List Char} {tokens : List (Token α)} (cuts : Cuts text tokens) :
    Cuts ('(' :: (text ++ [')'])) (.parenOpen :: (tokens ++ [.parenClose])) where
  solid := ⟨_,_,rfl,by decide⟩
  cut rest _ := by
    have inside := cuts.cut (')' :: rest) (by simp [Ending.breaks,isIdentChar,isLetter,isDigit])
    rw [lex_mark (t := .parenClose) (by decide +kernel) rfl] at inside
    rw [List.cons_append,lex_mark (t := .parenOpen) (by decide +kernel) rfl,List.append_assoc,List.singleton_append,inside]
    simp [Token.map]

/-- A name with a parenthesis right behind it. -/
theorem cuts_call {word text : List Char} {t : Token Literal} {tokens : List (Token α)} (isWord : classify word = some (.token t))
    (name : ending t = .name) (cuts : Cuts ('(' :: text) tokens) : Cuts (word ++ '(' :: text) (t.map Literal.val :: tokens) where
  solid := solid_append (word_solid isWord) _
  cut rest breaks := by
    have opened : ∀ c ∈ (('(' :: text) ++ rest).head?, (ending t).breaks c = true := by
      rw [name]
      simp [Ending.breaks,isIdentChar,isLetter,isDigit]
    rw [List.append_assoc,lex_word isWord opened,cuts.cut rest breaks]
    rfl

/-- Tokens with a comma between each and the next. -/
def commaTokens : List (List (Token α)) → List (Token α)
  | [] => []
  | first :: rest => first ++ rest.flatMap fun tokens => .comma :: tokens

private theorem commas_rest {texts : List (List Char)} {tokens : List (List (Token α))} (cuts : List.Forall₂ Cuts texts tokens) :
    ∀ rest : List Char, (∀ c ∈ rest.head?, Ending.name.breaks c = true) →
      (∀ c ∈ ((texts.flatMap fun text => ", ".toList ++ text) ++ rest).head?, Ending.name.breaks c = true) ∧
      (lex ((texts.flatMap fun text => ", ".toList ++ text) ++ rest) : List (Token α)) =
        (tokens.flatMap fun tokens => .comma :: tokens) ++ lex rest := by
  induction cuts with
  | nil => exact fun rest breaks => ⟨breaks,rfl⟩
  | @cons text tokens texts others one later ih =>
    intro rest breaks
    obtain ⟨breaks',same⟩ := ih rest breaks
    simp only [List.flatMap_cons,List.append_assoc,show ", ".toList = [',',' '] from rfl,List.cons_append,List.nil_append] at *
    constructor
    · simp [Ending.breaks,isIdentChar,isLetter,isDigit]
    · rw [lex_mark (t := .comma) (by decide +kernel) rfl,lex_blank (solid_append one.solid _),one.cut _ breaks',same]
      rfl

/-- Texts with commas between them. -/
theorem cuts_commas {texts : List (List Char)} {tokens : List (List (Token α))} (cuts : List.Forall₂ Cuts texts tokens)
    (some : texts ≠ []) : Cuts (commas texts) (commaTokens tokens) := by
  cases cuts with
  | nil => exact absurd rfl some
  | cons one later =>
    refine ⟨solid_append one.solid _,?_⟩
    intro rest breaks
    obtain ⟨breaks',same⟩ := commas_rest later rest breaks
    rw [commas,commaTokens,List.append_assoc,one.cut _ breaks',same,List.append_assoc]

end

end Starter.Spelling
