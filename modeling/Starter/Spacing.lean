import Starter.Lexer
import Starter.Operators
import Mathlib.Data.List.Chain

/-!
Blanks between the words of an expression. A `+` or `-` with a number without a sign right
after it is one word, so a text means something else when such a blank is left out;
every other blank between words that stay apart can be left out.
-/
namespace Starter.Spacing
open Gdouble Expressions Syntax Actions Lexer Operators Lib.Munch Lib.Precedence

/-- A word of the text with the token that the lexer returns for it. -/
structure Lexeme where
  word : List Char
  token : Token Literal
  isWord : classify word = some (.token token)

/-- Blanks have to stand between two identifiers, keywords or numbers. -/
def Separate (l : Lexeme) (gap : List Char) (next : Lexeme) : Prop :=
  ending l.token = .name → ending next.token = .name → gap ≠ []

/-- One way of writing a sequence of words: the first one, and the others with the blanks before each. -/
structure Writing where
  first : Lexeme
  rest : List (List Char × Lexeme)
  blanks : ∀ next ∈ rest, ∀ c ∈ next.1, isBlank c = true
  separate : List.IsChain (fun before next => Separate before.2 next.1 next.2) (([],first) :: rest)

def Writing.lexemes (w : Writing) : List Lexeme := w.first :: w.rest.map Prod.snd

def Writing.tokens (w : Writing) : List (Token Literal) := w.lexemes.map Lexeme.token

/-- What is written after a word. -/
def write : List (List Char × Lexeme) → List Char
  | [] => []
  | (gap,next) :: rest => gap ++ (next.word ++ write rest)

def Writing.text (w : Writing) : List Char := w.first.word ++ write w.rest

/-- A sign operator has a digit or a point right after it. -/
def glues (l : Lexeme) (gap : List Char) (next : Lexeme) : Bool :=
  ending l.token = .sign && gap.isEmpty && next.word.head?.any fun c => !Ending.sign.breaks c

/-- The places where a sign operator has a number without a sign right after it. -/
def gluesFrom (l : Lexeme) : List (List Char × Lexeme) → List Bool
  | [] => []
  | (gap,next) :: rest => glues l gap next :: gluesFrom next rest

def Writing.glued (w : Writing) : List Bool := gluesFrom w.first w.rest

/-- The tokens of a text: such an operator and number are one signed number. -/
def merged (l : Lexeme) : List (List Char × Lexeme) → List (Token Literal)
  | [] => [l.token]
  | (gap,next) :: rest =>
    if glues l gap next then .value (.number (l.word ++ next.word)) :: (merged next rest).tail
    else l.token :: merged next rest

variable {l next : Lexeme} {gap : List Char} {rest : List (List Char × Lexeme)}

/-- What the first character tells of a word. -/
structure Heads (h : Char) (word : List Char) (t : Token Literal) : Prop where
  notBlank : isBlank h = false
  notName : ending t ≠ .name → Ending.name.breaks h = true
  equals : h = '=' → t = .assign ∨ t = .op .eq
  number : Ending.sign.breaks h = true ∨ charClass h ≠ .sign ∧ isNumber word = true ∧ t = .value (.number word)

theorem literals_heads : ∀ l ∈ literals, (l.1.head?.all fun h => isBlank h = false ∧
    (ending l.2 ≠ .name → Ending.name.breaks h = true) ∧ (h = '=' → l.2 = .assign ∨ l.2 = .op .eq) ∧
    Ending.sign.breaks h = true) = true := by
  decide +kernel

theorem word_heads {h : Char} {tail : List Char} {t : Token Literal} (isWord : classify (h :: tail) = some (.token t)) :
    Heads h (h :: tail) t := by
  obtain ⟨letter,digit,sign,point,blank,_⟩ := charClass_eq h
  rcases classify_token isWord with member | ⟨number,rfl⟩ | ⟨name,rfl⟩
  · obtain ⟨notBlank,notName,equals,breaks⟩ := of_decide_eq_true (literals_heads _ member)
    exact ⟨notBlank,notName,equals,.inl breaks⟩
  · have class_eq := isNumber_class number
    refine ⟨?_,fun other => absurd rfl other,?_,?_⟩
    · rw [Bool.eq_false_iff,ne_eq,blank]
      rcases class_eq with is | is | is <;> simp [is]
    · rintro rfl
      exact absurd class_eq (by decide)
    · by_cases signed : charClass h = .sign
      · left
        simp only [Ending.breaks,Bool.and_eq_true,Bool.not_eq_true',decide_eq_true_eq,Bool.eq_false_iff,ne_eq,digit,point]
        simp [signed]
      · exact .inr ⟨signed,number,rfl⟩
  · have class_eq := (isIdentifier_class name).1
    refine ⟨?_,fun other => absurd rfl other,?_,.inl ?_⟩
    · rw [Bool.eq_false_iff,ne_eq,blank]
      simp [class_eq]
    · rintro rfl
      exact absurd class_eq (by decide)
    · simp only [Ending.breaks,Bool.and_eq_true,Bool.not_eq_true',decide_eq_true_eq,Bool.eq_false_iff,ne_eq,digit,point]
      simp [class_eq]

theorem lexeme_heads (l : Lexeme) : ∃ h tail, l.word = h :: tail ∧ Heads h l.word l.token := by
  obtain ⟨word,token,isWord⟩ := l
  cases word with
  | nil =>
    have none : classify [] = none := by decide +kernel
    rw [none] at isWord
    cases isWord
  | cons h tail => exact ⟨h,tail,rfl,word_heads isWord⟩

theorem lexeme_nonempty (l : Lexeme) : l.word ≠ [] := by
  obtain ⟨h,tail,word,_⟩ := lexeme_heads l
  rw [word]
  exact List.cons_ne_nil h tail

/-- Words that stay apart: no `=` follows a word that it would make longer. -/
def Apart (a b : Token Literal) : Prop := ending a = .comparison → b ≠ .assign ∧ b ≠ .op .eq

/-- The words after a word in the text; where no number is glued to it, it is complete there. -/
theorem write_breaks (blanks : ∀ next ∈ rest, ∀ c ∈ next.1, isBlank c = true)
    (separate : ∀ next ∈ rest.head?, Separate l next.1 next.2) (apart : ∀ next ∈ rest.head?, Apart l.token next.2.token)
    (loose : ∀ next ∈ rest.head?, glues l next.1 next.2 = false) :
    ∀ c ∈ (write rest).head?, (ending l.token).breaks c = true := by
  cases rest with
  | nil => simp [write]
  | cons first rest =>
    obtain ⟨gap,next⟩ := first
    have separate := separate _ rfl
    have apart := apart _ rfl
    have loose := loose _ rfl
    cases gap with
    | cons b gap =>
      have blank := blanks _ List.mem_cons_self b List.mem_cons_self
      simp only [write,List.cons_append,List.head?_cons,Option.mem_def,Option.some_inj,forall_eq']
      simp only [isBlank,decide_eq_true_eq] at blank
      rcases blank with rfl | rfl
      · cases ending l.token <;> rfl
      · cases ending l.token <;> rfl
    | nil =>
      obtain ⟨h,tail,word,heads⟩ := lexeme_heads next
      simp only [write,List.nil_append,word,List.cons_append,List.head?_cons,Option.mem_def,Option.some_inj,forall_eq']
      cases kind : ending l.token with
      | name =>
        exact heads.notName fun name => separate kind name rfl
      | sign =>
        simpa [glues,kind,word] using loose
      | comparison =>
        simp only [Ending.breaks,decide_eq_true_eq]
        intro equals
        rcases heads.equals equals with is | is
        · exact (apart kind).1 is
        · exact (apart kind).2 is
      | any => rfl

/-- A word is scanned if it is complete before the character that follows it. -/
theorem scan_word {word text : List Char} {r : Lexed} (isWord : classify word = some r) (nonempty : word ≠ [])
    (stops : ∀ c ∈ text.head?, Stops word c) : scan classify (word ++ text) = (r,word) :: scan classify text := by
  refine scan_append isWord nonempty ?_
  intro n positive le
  cases text with
  | nil => simp at le; omega
  | cons c text =>
    obtain ⟨n,rfl⟩ : ∃ m, n = m + 1 := ⟨n - 1,by omega⟩
    exact stops c rfl (text.take n)

theorem lexWords_word {word text : List Char} {t : Token Literal} (isWord : classify word = some (.token t)) (nonempty : word ≠ [])
    (stops : ∀ c ∈ text.head?, Stops word c) : lexWords (word ++ text) = t :: lexWords text := by
  rw [lexWords,scan_word isWord nonempty stops]
  rfl

/-- Blanks before a word are skipped. -/
theorem lexWords_gap (blank : ∀ c ∈ gap, isBlank c = true) (l : Lexeme) (text : List Char) :
    lexWords (gap ++ (l.word ++ text)) = lexWords (l.word ++ text) := by
  cases gap with
  | nil => rfl
  | cons b gap =>
    obtain ⟨h,tail,word,heads⟩ := lexeme_heads l
    have blanks : isBlanks (b :: gap) = true := by simpa [isBlanks] using blank
    rw [lexWords,scan_word (classify_blanks blanks) (by simp)]
    · rfl
    · simp only [word,List.cons_append,List.head?_cons,Option.mem_def,Option.some_inj,forall_eq']
      exact stops_blanks blanks heads.notBlank

/-- A sign and a number without one are a number. -/
theorem isNumber_signed {s h : Char} {tail : List Char} (sign : charClass s = .sign) (unsigned : charClass h ≠ .sign)
    (number : isNumber (h :: tail) = true) : isNumber (s :: h :: tail) = true := by
  have isSig := (charClass_eq s).2.2.1.mpr sign
  have notSign : isSign h = false := Bool.eq_false_iff.mpr fun is => unsigned ((charClass_eq h).2.2.1.mp is)
  simp only [isNumber,numberFrom,NumberState.next,isSig,notSign] at number ⊢
  simpa using number

theorem sign_word {word : List Char} {t : Token Literal} (isWord : classify word = some (.token t)) (sign : ending t = .sign) :
    ∃ s, word = [s] ∧ charClass s = .sign := by
  rcases classify_token isWord with member | ⟨_,rfl⟩ | ⟨_,rfl⟩
  · have has := literals_ending _ member
    rw [sign] at has
    simp only [Ending.has,Bool.and_eq_true,decide_eq_true_eq,List.length_eq_one_iff,List.all_eq_true] at has
    obtain ⟨⟨s,rfl⟩,all⟩ := has
    exact ⟨s,rfl,all s List.mem_cons_self⟩
  · cases sign
  · cases sign

/-- What is glued: a sign operator and a number without a sign. -/
theorem glues_number : glues l gap next = true → ending l.token = .sign ∧ gap = [] ∧ next.token = .value (.number next.word) ∧
    isNumber (l.word ++ next.word) = true := by
  intro glue
  simp only [glues,Bool.and_eq_true,decide_eq_true_eq,List.isEmpty_iff] at glue
  obtain ⟨⟨sign,empty⟩,starts⟩ := glue
  obtain ⟨s,word,signed⟩ := sign_word l.isWord sign
  obtain ⟨h,tail,later,heads⟩ := lexeme_heads next
  simp only [later,List.head?_cons,Option.any_some,Bool.not_eq_true'] at starts
  rcases heads.number with breaks | ⟨unsigned,number,token⟩
  · rw [breaks] at starts
    cases starts
  · rw [later] at number
    refine ⟨sign,empty,token,?_⟩
    rw [word,later]
    exact isNumber_signed signed unsigned number

/-- How the words of a text follow each other. -/
structure Spaced (l : Lexeme) (rest : List (List Char × Lexeme)) : Prop where
  blanks : ∀ next ∈ rest, ∀ c ∈ next.1, isBlank c = true
  separate : List.IsChain (fun before next => Separate before.2 next.1 next.2) (([],l) :: rest)
  apart : List.IsChain Apart (l.token :: rest.map fun next => next.2.token)

theorem Spaced.tail (spaced : Spaced l ((gap,next) :: rest)) : Spaced next rest := by
  obtain ⟨blanks,separate,apart⟩ := spaced
  refine ⟨fun other member => blanks other (List.mem_cons_of_mem _ member),?_,?_⟩
  · rw [List.isChain_cons] at separate ⊢
    exact List.isChain_cons.mp separate.2
  · exact (List.isChain_cons.mp apart).2

theorem Spaced.breaks (spaced : Spaced l rest) (loose : ∀ next ∈ rest.head?, glues l next.1 next.2 = false) :
    ∀ c ∈ (write rest).head?, (ending l.token).breaks c = true := by
  refine write_breaks spaced.blanks ?_ ?_ loose
  · intro next first
    exact (List.isChain_cons.mp spaced.separate).1 next first
  · intro next first
    refine (List.isChain_cons.mp spaced.apart).1 next.2.token ?_
    rw [List.head?_map,Option.mem_def.mp first]
    exact rfl

/-- The tokens of a text: only a sign and a number right after it are put together. -/
theorem lexWords_write (spaced : Spaced l rest) : lexWords (l.word ++ write rest) = merged l rest := by
  induction rest generalizing l with
  | nil => exact lexWords_word l.isWord (lexeme_nonempty l) (by simp [write])
  | cons first rest ih =>
    obtain ⟨gap,next⟩ := first
    have later := ih spaced.tail
    have blank := spaced.blanks _ List.mem_cons_self
    cases glue : glues l gap next with
    | false =>
      have complete := spaced.breaks (by simpa using glue)
      rw [lexWords_word l.isWord (lexeme_nonempty l) fun c first => token_stops l.isWord (complete c first)]
      rw [write,lexWords_gap blank,later,merged,glue]
      rfl
    | true =>
      obtain ⟨_,rfl,token,number⟩ := glues_number glue
      have name : ending next.token = .name := by
        rw [token]
        rfl
      have complete := spaced.tail.breaks (by simp [glues,name])
      rw [lexWords_word next.isWord (lexeme_nonempty next) fun c first => token_stops next.isWord (complete c first)] at later
      have stops : ∀ c ∈ (write rest).head?, Stops (l.word ++ next.word) c := by
        intro c first
        have breaks := complete c first
        rw [name] at breaks
        simp only [Ending.breaks,Bool.and_eq_true,Bool.not_eq_true',decide_eq_true_eq] at breaks
        exact stops_number number breaks.1 breaks.2
      rw [write,List.nil_append,← List.append_assoc,lexWords_word (classify_number number) (by simp [lexeme_nonempty]) stops]
      rw [merged,glue,if_pos rfl,← later]
      rfl

/-- Where nothing is glued to it, a word keeps its token. -/
theorem merged_name (name : ending l.token = .name) : merged l rest = l.token :: (merged l rest).tail := by
  cases rest with
  | nil => rfl
  | cons first rest => simp [merged,glues,name]

theorem sign_kind {t : Token Literal} (sign : ending t = .sign) : t.kind ≠ .value := by
  intro value
  cases t <;> cases value
  cases sign

/-- Texts of the same words have the same tokens if the same places are glued. -/
theorem merged_congr {rest' : List (List Char × Lexeme)} (same : rest.map Prod.snd = rest'.map Prod.snd)
    (places : gluesFrom l rest = gluesFrom l rest') : merged l rest = merged l rest' := by
  induction rest generalizing l rest' with
  | nil =>
    obtain rfl : rest' = [] := List.map_eq_nil_iff.mp same.symm
    rfl
  | cons first rest ih =>
    obtain ⟨gap,next⟩ := first
    cases rest' with
    | nil => cases same
    | cons first' rest' =>
      obtain ⟨gap',next'⟩ := first'
      rw [List.map_cons,List.map_cons] at same
      obtain ⟨rfl,sameRest⟩ := List.cons.inj same
      obtain ⟨here,places⟩ := List.cons.inj places
      rw [merged,merged,here,ih sameRest places]

/-- If they are not, the tokens are not even of the same kinds. -/
theorem glues_of_kinds {rest' : List (List Char × Lexeme)} (same : rest.map Prod.snd = rest'.map Prod.snd)
    (kinds : (merged l rest).map Token.kind = (merged l rest').map Token.kind) : gluesFrom l rest = gluesFrom l rest' := by
  induction rest generalizing l rest' with
  | nil =>
    obtain rfl : rest' = [] := List.map_eq_nil_iff.mp same.symm
    rfl
  | cons first rest ih =>
    obtain ⟨gap,next⟩ := first
    cases rest' with
    | nil => cases same
    | cons first' rest' =>
      obtain ⟨gap',next'⟩ := first'
      rw [List.map_cons,List.map_cons] at same
      obtain ⟨rfl,sameRest⟩ := List.cons.inj same
      rw [merged,merged] at kinds
      have later : glues l gap next = glues l gap' next → gluesFrom next rest = gluesFrom next rest' := by
        intro here
        refine ih sameRest ?_
        rw [← here] at kinds
        cases glue : glues l gap next with
        | false =>
          rw [glue] at kinds
          exact (List.cons.inj kinds).2
        | true =>
          have name : ending next.token = .name := by
            rw [(glues_number glue).2.2.1]
            rfl
          rw [glue] at kinds
          have other : merged next rest' = next.token :: (merged next rest').tail := merged_name name
          rw [merged_name name,other,List.map_cons,List.map_cons]
          exact congrArg _ (List.cons.inj kinds).2
      have here : glues l gap next = glues l gap' next := by
        cases glue : glues l gap next with
        | true =>
          cases glue' : glues l gap' next with
          | true => rfl
          | false =>
            rw [glue,glue'] at kinds
            exact absurd (List.cons.inj kinds).1.symm (sign_kind (glues_number glue).1)
        | false =>
          cases glue' : glues l gap' next with
          | false => rfl
          | true =>
            rw [glue,glue'] at kinds
            exact absurd (List.cons.inj kinds).1 (sign_kind (glues_number glue').1)
      rw [gluesFrom,gluesFrom,here,later here]

/-- A part of an expression, as far as its words stay apart. -/
structure Joins (tokens : List (Token Literal)) : Prop where
  chain : tokens.IsChain Apart
  first : ∀ t ∈ tokens.head?, t ≠ .assign ∧ t ≠ .op .eq
  last : ∀ t ∈ tokens.getLast?, ending t ≠ .comparison

theorem joins_append {one two : List (Token Literal)} (joinsOne : Joins one) (joinsTwo : Joins two) (some : one ≠ [])
    (other : two ≠ []) : Joins (one ++ two) := by
  refine ⟨joinsOne.chain.append joinsTwo.chain ?_,?_,?_⟩
  · intro a last b _ comparison
    exact absurd comparison (joinsOne.last a last)
  · rw [List.head?_append_of_ne_nil _ some]
    exact joinsOne.first
  · rw [List.getLast?_append_of_ne_nil _ other]
    exact joinsTwo.last

theorem joins_cons {t : Token Literal} {tokens : List (Token Literal)} (first : t ≠ .assign ∧ t ≠ .op .eq) (joins : Joins tokens)
    (other : tokens ≠ []) : Joins (t :: tokens) := by
  refine ⟨List.isChain_cons.mpr ⟨fun b head _ => joins.first b head,joins.chain⟩,?_,?_⟩
  · simpa using first
  · rw [List.getLast?_cons_of_ne_nil other]
    exact joins.last

/-- An operator or a comma joins two parts. -/
theorem joins_between {one two : List (Token Literal)} (t : Token Literal) (joinsOne : Joins one) (joinsTwo : Joins two)
    (some : one ≠ []) (other : two ≠ []) : Joins (one ++ t :: two) := by
  refine ⟨joinsOne.chain.append (List.isChain_cons.mpr ⟨fun b head _ => joinsTwo.first b head,joinsTwo.chain⟩) ?_,?_,?_⟩
  · intro a last b _ comparison
    exact absurd comparison (joinsOne.last a last)
  · rw [List.head?_append_of_ne_nil _ some]
    exact joinsOne.first
  · rw [List.getLast?_append_of_ne_nil _ (List.cons_ne_nil _ _),List.getLast?_cons_of_ne_nil other]
    exact joinsTwo.last

theorem joins_single {t : Token Literal} (first : t ≠ .assign ∧ t ≠ .op .eq) (last : ending t ≠ .comparison) : Joins [t] :=
  ⟨.singleton t,by simpa using first,by simpa using last⟩

mutual
theorem operand_joins {sign : Op} (isSign : sign = .mul ∨ sign = .sub) :
    ∀ a : Operand Literal, Joins (a.tokens sign) ∧ a.tokens sign ≠ []
  | .value v => ⟨joins_single (by simp) (by simp [ending]),by simp [Operand.tokens]⟩
  | .ref id => ⟨joins_single (by simp) (by simp [ending]),by simp [Operand.tokens]⟩
  | .flag id bit => by
    refine ⟨?_,by simp [Operand.tokens]⟩
    exact joins_cons (by simp) (joins_cons (by simp) (joins_single (by simp) (by simp [ending])) (by simp)) (by simp)
  | .parens e => by
    obtain ⟨joins,some⟩ := exp_joins isSign e
    have close : Joins [Token.parenClose] := joins_single (by simp) (by simp [ending])
    exact ⟨joins_cons (by simp) (joins_append joins close some (by simp)) (by simp),by simp [Operand.tokens]⟩
  | .minus a => by
    obtain ⟨joins,some⟩ := operand_joins isSign a
    refine ⟨joins_cons ?_ joins some,by simp [Operand.tokens]⟩
    rcases isSign with rfl | rfl <;> simp
  | .call id args => by
    have close : Joins [Token.parenClose] := joins_single (by simp) (by simp [ending])
    refine ⟨joins_cons (by simp) (joins_cons (by simp) ?_ (by simp)) (by simp),by simp [Operand.tokens]⟩
    have joins := args_joins isSign args
    by_cases some : argsTokens sign args = []
    · rw [some]
      exact close
    · exact joins_append joins close some (by simp)

theorem exp_joins {sign : Op} (isSign : sign = .mul ∨ sign = .sub) :
    ∀ e : Grouping Op (Operand Literal), Joins (expTokens sign e) ∧ expTokens sign e ≠ []
  | .leaf a => operand_joins isSign a
  | .node op left right => by
    obtain ⟨joinsLeft,someLeft⟩ := exp_joins isSign left
    obtain ⟨joinsRight,someRight⟩ := exp_joins isSign right
    exact ⟨joins_between _ joinsLeft joinsRight someLeft someRight,by simp [expTokens]⟩

theorem args_joins {sign : Op} (isSign : sign = .mul ∨ sign = .sub) :
    ∀ args : Args (Grouping Op (Operand Literal)), Joins (argsTokens sign args)
  | .none => ⟨.nil,by simp [argsTokens],by simp [argsTokens]⟩
  | .one e => (exp_joins isSign e).1
  | .more before e => by
    have joins := args_joins isSign before
    obtain ⟨joinsLast,someLast⟩ := exp_joins isSign e
    by_cases some : argsTokens sign before = []
    · rw [argsTokens,some]
      exact joins_cons (by simp) joinsLast someLast
    · exact joins_between _ joins joinsLast some someLast
end

/-- `sign` is a prefix operator of the expression: the manual's or the grammar's. -/
def Writes (w : Writing) (sign : Op) (e : Exp Literal) : Prop :=
  (sign = .sub ∨ sign = .mul) ∧ w.tokens = expTokens sign e

theorem writing_spaced {w : Writing} {sign : Op} {e : Exp Literal} (writes : Writes w sign e) : Spaced w.first w.rest := by
  refine ⟨w.blanks,w.separate,?_⟩
  have chain := (exp_joins writes.1.symm e).1.chain
  rw [← writes.2,Writing.tokens,Writing.lexemes,List.map_cons,List.map_map] at chain
  exact chain

theorem lex_kinds {α : Type} [Gdouble α] (text : List Char) :
    (lex text : List (Token α)).map Token.kind = (lexWords text).map Token.kind := by
  rw [lex,List.map_map]
  exact List.map_congr_left fun t _ => map_kind _ t

/-- Two ways of writing an expression have the same tokens, and so every program is parsed alike with the one and
with the other, exactly if the same signs have a number right after them. -/
theorem lex_spacing_iff {α : Type} [Gdouble α] (w w' : Writing) (sign : Op) (e : Exp Literal) (writes : Writes w sign e)
    (same : w.lexemes = w'.lexemes) :
    ((lex w.text : List (Token α)) = lex w'.text ∧ ∀ before behind (after : Build α),
      Parses (before ++ lex w.text ++ behind) after ↔ Parses (before ++ lex w'.text ++ behind) after) ↔
        w.glued = w'.glued := by
  have writes' : Writes w' sign e := ⟨writes.1,by rw [Writing.tokens,← same,← writes.2,Writing.tokens]⟩
  have tokens : lexWords w.text = merged w.first w.rest := lexWords_write (writing_spaced writes)
  have tokens' : lexWords w'.text = merged w'.first w'.rest := lexWords_write (writing_spaced writes')
  obtain ⟨firsts,rests⟩ := List.cons.inj same
  constructor
  · rintro ⟨lexed,_⟩
    have kinds := congrArg (List.map Token.kind) lexed
    rw [lex_kinds,lex_kinds,tokens,tokens',← firsts] at kinds
    rw [Writing.glued,Writing.glued,← firsts]
    exact glues_of_kinds rests kinds
  · intro places
    have lexed : (lex w.text : List (Token α)) = lex w'.text := by
      rw [Writing.glued,Writing.glued,← firsts] at places
      rw [lex,lex,tokens,tokens',← firsts,merged_congr rests places]
    exact ⟨lexed,fun before behind after => by rw [lexed]⟩

/-- `time:minute-1` with blanks before and after the sign. -/
def minuteWriting (left right : { gap : List Char // ∀ c ∈ gap, isBlank c = true }) : Writing where
  first := ⟨"time:minute".toList,.identifier "time:minute",by decide +kernel⟩
  rest := [(left.1,⟨['-'],.op .sub,by decide +kernel⟩),(right.1,⟨['1'],.value (.number ['1']),by decide +kernel⟩)]
  blanks := by
    intro next member c inGap
    simp only [List.mem_cons,List.not_mem_nil,or_false] at member
    rcases member with rfl | rfl
    · exact left.2 c inGap
    · exact right.2 c inGap
  separate := by simp [Separate,ending]

/-- `time:minute-1`. -/
def minuteTight : Writing := minuteWriting ⟨[],by simp⟩ ⟨[],by simp⟩

/-- `time:minute - 1`. -/
def minuteSpaced : Writing := minuteWriting ⟨[' '],by simp [isBlank]⟩ ⟨[' '],by simp [isBlank]⟩

/-- With a tabulator and a blank. -/
def minuteTabbed : Writing := minuteWriting ⟨['\t'],by simp [isBlank]⟩ ⟨[' '],by simp [isBlank]⟩

/-- The expression that they write. -/
def minuteExp : Exp Literal := .node .sub (.leaf (.ref "time:minute")) (.leaf (.value (.number ['1'])))

theorem lex_spacing_minute :
    ((lex minuteSpaced.text : List (Token ℚ)) = lex minuteTabbed.text ∧
      ∀ before behind (after : Build ℚ),
        Parses (before ++ lex minuteSpaced.text ++ behind) after ↔ Parses (before ++ lex minuteTabbed.text ++ behind) after) ↔
      minuteSpaced.glued = minuteTabbed.glued :=
  lex_spacing_iff _ _ .sub minuteExp ⟨.inl rfl,rfl⟩ rfl

/-- `time:minute-1` is an identifier and a number, `time:minute - 1` a difference. -/
theorem minute_spacing_differs :
    Writes minuteTight .sub minuteExp ∧ Writes minuteSpaced .sub minuteExp ∧ minuteTight.lexemes = minuteSpaced.lexemes ∧
    minuteTight.text = "time:minute-1".toList ∧ minuteSpaced.text = "time:minute - 1".toList ∧
    (lex "time:minute-1".toList : List (Token ℚ)) ≠ lex "time:minute - 1".toList := by
  refine ⟨⟨.inl rfl,rfl⟩,⟨.inl rfl,rfl⟩,rfl,rfl,rfl,?_⟩
  intro same
  have kinds := congrArg (List.map Token.kind) same
  rw [lex_kinds,lex_kinds] at kinds
  exact absurd kinds (by decide +kernel)

end Starter.Spacing
