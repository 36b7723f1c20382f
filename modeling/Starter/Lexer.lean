import Mathlib.Tactic.SplitIfs
import Starter.Actions
import Starter.Lib.Munch

/-!
The lexer (`src/lex.l`): at every place the longest word of a pattern, and of the patterns
that have it the first one. The text is given byte by byte. The last pattern takes a byte
that no other takes, as `invalid`; the message "Invalid character" that its action gives
to `yyerror` is left out.
-/
namespace Starter.Lexer
open Gdouble Expressions Syntax Lib.Munch

def isDigit (c : Char) : Bool := '0' ≤ c ∧ c ≤ '9'
def isLetter (c : Char) : Bool := ('A' ≤ c ∧ c ≤ 'Z') ∨ ('a' ≤ c ∧ c ≤ 'z')
def isSign (c : Char) : Bool := c = '+' ∨ c = '-'
def isBlank (c : Char) : Bool := c = ' ' ∨ c = '\t'
/-- The characters of an identifier after its first one. -/
def isIdentChar (c : Char) : Bool := isLetter c || isDigit c || c = '_' || c = ':'

/-- How much of `[-+]?[0-9]*\.?[0-9]+([eE][-+]?[0-9]+)?` has been read. -/
inductive NumberState
  | start | sign | whole | point | fraction | exponent | exponentSign | exponentDigits
deriving DecidableEq, Repr

def NumberState.next (c : Char) : NumberState → Option NumberState
  | .start => if isSign c then some .sign else if isDigit c then some .whole else if c = '.' then some .point else none
  | .sign => if isDigit c then some .whole else if c = '.' then some .point else none
  | .whole =>
    if isDigit c then some .whole else if c = '.' then some .point else if c = 'e' ∨ c = 'E' then some .exponent else none
  | .point => if isDigit c then some .fraction else none
  | .fraction => if isDigit c then some .fraction else if c = 'e' ∨ c = 'E' then some .exponent else none
  | .exponent => if isSign c then some .exponentSign else if isDigit c then some .exponentDigits else none
  | .exponentSign => if isDigit c then some .exponentDigits else none
  | .exponentDigits => if isDigit c then some .exponentDigits else none

def NumberState.complete : NumberState → Bool
  | .whole | .fraction | .exponentDigits => true
  | _ => false

/-- The rest of a number, from a state on. -/
def numberFrom (s : NumberState) : List Char → Bool
  | [] => s.complete
  | c :: word =>
    match s.next c with
    | some s' => numberFrom s' word
    | none => false

/-- The pattern `NUMBER`. -/
def isNumber (word : List Char) : Bool := numberFrom .start word

/-- The pattern `IDENTIFIER`. -/
def isIdentifier : List Char → Bool
  | [] => false
  | c :: word => isLetter c && word.all isIdentChar

/-- The pattern `[ \t]+`. -/
def isBlanks (word : List Char) : Bool := word ≠ [] && word.all isBlank

/-- The pattern `"#"([^\n])*\n`. -/
def isComment : List Char → Bool
  | [] => false
  | c :: word => c = '#' && word ≠ [] && word.getLast? = some '\n' && word.dropLast.all (· ≠ '\n')

def digitsValue (digits : List Char) : ℚ := digits.foldl (fun n c => 10 * n + (c.toNat - '0'.toNat : ℕ)) 0

/-- The value of an exponent with its sign. -/
def exponentValue (word : List Char) : ℤ :=
  match word with
  | '-' :: digits => -(digitsValue digits).num
  | '+' :: digits => (digitsValue digits).num
  | digits => (digitsValue digits).num

/-- The value of a number without a sign. -/
def unsignedValue (word : List Char) : ℚ :=
  let whole := word.takeWhile isDigit
  let rest := word.dropWhile isDigit
  let fraction := if rest.head? = some '.' then rest.tail.takeWhile isDigit else []
  let exponent := if rest.head? = some '.' then rest.tail.dropWhile isDigit else rest
  (digitsValue whole + digitsValue fraction / 10 ^ fraction.length) *
    (if exponent = [] then 1 else 10 ^ exponentValue exponent.tail)

/-- `atof` on the words of `NUMBER`, before it is rounded to a double. The double of "-0" is that of 0
    here, where that of C has a sign. -/
def atof (word : List Char) : ℚ :=
  match word with
  | '-' :: word => -unsignedValue word
  | '+' :: word => unsignedValue word
  | word => unsignedValue word

/-- What a `VALUE` is read from. -/
inductive Literal
  | number (word : List Char)
  | truth (b : Bool)
deriving DecidableEq, Repr

/-- The `dval` of a literal. -/
def Literal.val {α : Type} [Gdouble α] : Literal → α
  | .number word => ofRat (atof word)
  | .truth b => ofBool b

/-- What an action of the lexer does: it returns a token or goes on. `invalid` is the action
    that reports a byte, without the report. -/
inductive Lexed
  | token (t : Token Literal)
  | blanks
  | comment
  | newline
  | invalid
deriving DecidableEq

/-- The patterns that are words themselves, in their order. -/
def literals : List (List Char × Token Literal) := [
  ("==".toList,.op .eq),("!=".toList,.op .ne),("<".toList,.op .lt),("<=".toList,.op .le),(">".toList,.op .gt),
  (">=".toList,.op .ge),("&&".toList,.op .and),("||".toList,.op .or),
  ("\x7b".toList,.braceOpen),("\x7d".toList,.braceClose),("(".toList,.parenOpen),(")".toList,.parenClose),
  (",".toList,.comma),("=".toList,.assign),(";".toList,.semicolon),
  ("+".toList,.op .add),("-".toList,.op .sub),("*".toList,.op .mul),("/".toList,.op .div),
  ("VAR".toList,.keyVar),("SET".toList,.keySet),("WHEN".toList,.keyWhen),("TRIGGER".toList,.keyTrigger),
  ("FLAG".toList,.keyFlag),("USR1".toList,.flagName stIoFlagUsr1),("USR2".toList,.flagName stIoFlagUsr2),
  ("USR3".toList,.flagName stIoFlagUsr3),("USR4".toList,.flagName stIoFlagUsr4),
  ("MANUAL_OVERRIDE".toList,.flagName stIoFlagManualOverride),("NO_HISTORY".toList,.flagName stIoFlagNoHistory),
  ("TRUE".toList,.value (.truth true)),("FALSE".toList,.value (.truth false))]

def literal (word : List Char) : Option (Token Literal) := (literals.find? fun l => l.1 = word).map Prod.snd

/-- The action of the first pattern that has the word. -/
def classify (word : List Char) : Option Lexed :=
  match literal word with
  | some t => some (.token t)
  | none =>
    if isNumber word then some (.token (.value (.number word)))
    else if isIdentifier word then some (.token (.identifier (String.ofList word)))
    else if isBlanks word then some .blanks
    else if isComment word then some .comment
    else if word = ['\n'] then some .newline
    else if word.length = 1 then some .invalid
    else none

def Lexed.token? : Lexed → Option (Token Literal)
  | .token t => some t
  | _ => none

/-- The tokens that `yylex` returns for a text, with what their values are read from. -/
def lexWords (text : List Char) : List (Token Literal) := (scan classify text).filterMap fun step => step.1.token?

/-- The tokens that `yylex` returns for a text. -/
def lex {α : Type} [Gdouble α] (text : List Char) : List (Token α) := (lexWords text).map (Token.map Literal.val)

example : lexWords "x - 1 # y\n!z-1".toList =
    [.identifier "x",.op .sub,.value (.number ['1']),.identifier "z",.value (.number ['-','1'])] := by decide +kernel

def literalWords : List (List Char) := [
  "==".toList,"!=".toList,"<".toList,"<=".toList,">".toList,">=".toList,"&&".toList,"||".toList,
  "\x7b".toList,"\x7d".toList,"(".toList,")".toList,",".toList,"=".toList,";".toList,"+".toList,"-".toList,"*".toList,"/".toList,
  "VAR".toList,"SET".toList,"WHEN".toList,"TRIGGER".toList,"FLAG".toList,"USR1".toList,"USR2".toList,"USR3".toList,
  "USR4".toList,"MANUAL_OVERRIDE".toList,"NO_HISTORY".toList,"TRUE".toList,"FALSE".toList]

theorem literal_none {word : List Char} (other : word ∉ literalWords) : literal word = none := by
  have words : literals.map Prod.fst = literalWords := rfl
  simp only [literal,Option.map_eq_none_iff,List.find?_eq_none,decide_eq_true_eq]
  rintro l member rfl
  rw [← words] at other
  exact other (List.mem_map_of_mem member)

theorem literalWords_plain : ∀ word ∈ literalWords, isNumber word = false ∧ isBlanks word = false := by decide +kernel

theorem classify_number {word : List Char} (number : isNumber word = true) :
    classify word = some (.token (.value (.number word))) := by
  have other : word ∉ literalWords := by
    intro member
    rw [(literalWords_plain word member).1] at number
    cases number
  rw [classify,literal_none other]
  exact if_pos number

/-- The operators of two characters. -/
def doubles : List (List Char) := [['=','='],['!','='],['<','='],['>','='],['&','&'],['|','|']]

theorem literalWords_shape : ∀ word ∈ literalWords, isIdentifier word = true ∨ word.length = 1 ∨ word ∈ doubles := by
  decide +kernel

/-- The characters that can come after a complete number. -/
theorem numberFrom_stops {c : Char} (notIdent : isIdentChar c = false) (notPoint : c ≠ '.') (rest : List Char) :
    ∀ {word : List Char} {s : NumberState}, numberFrom s word = true → numberFrom s (word ++ c :: rest) = false
  | [], s => by
    have notDigit : isDigit c = false := by
      simp only [isIdentChar,Bool.or_eq_false_iff] at notIdent
      exact notIdent.1.1.2
    have notE : ¬ (c = 'e' ∨ c = 'E') := by
      rintro (rfl | rfl)
      · exact absurd notIdent (by decide)
      · exact absurd notIdent (by decide)
    intro complete
    cases s <;> first
      | exact absurd complete (by decide)
      | simp [numberFrom,NumberState.next,notDigit,notPoint,notE]
  | c' :: word, s => by
    simp only [List.cons_append,numberFrom]
    cases s.next c' with
    | none => exact fun _ => rfl
    | some s' => exact numberFrom_stops notIdent notPoint rest

/-- What a character is, as far as the patterns tell: `other` has no pattern beyond the literal ones. -/
inductive CharClass
  | letter | digit | sign | point | blank | hash | newline | other
deriving DecidableEq

def charClass (c : Char) : CharClass :=
  if isLetter c then .letter
  else if isDigit c then .digit
  else if isSign c then .sign
  else if c = '.' then .point
  else if isBlank c then .blank
  else if c = '#' then .hash
  else if c = '\n' then .newline
  else .other

theorem isLetter_iff (c : Char) : isLetter c = true ↔ 65 ≤ c.toNat ∧ c.toNat ≤ 90 ∨ 97 ≤ c.toNat ∧ c.toNat ≤ 122 := by
  simp only [isLetter,Char.le_def,UInt32.le_iff_toNat_le,decide_eq_true_eq]
  exact Iff.rfl

theorem isDigit_iff (c : Char) : isDigit c = true ↔ 48 ≤ c.toNat ∧ c.toNat ≤ 57 := by
  simp only [isDigit,Char.le_def,UInt32.le_iff_toNat_le,decide_eq_true_eq]
  exact Iff.rfl

theorem isSign_iff (c : Char) : isSign c = true ↔ c.toNat = 43 ∨ c.toNat = 45 := by
  simp only [isSign,decide_eq_true_eq,← Char.toNat_inj]
  exact Iff.rfl

theorem isBlank_iff (c : Char) : isBlank c = true ↔ c.toNat = 32 ∨ c.toNat = 9 := by
  simp only [isBlank,decide_eq_true_eq,← Char.toNat_inj]
  exact Iff.rfl

/-- The classes do not overlap. -/
theorem charClass_eq (c : Char) : (isLetter c = true ↔ charClass c = .letter) ∧ (isDigit c = true ↔ charClass c = .digit) ∧
    (isSign c = true ↔ charClass c = .sign) ∧ (c = '.' ↔ charClass c = .point) ∧
    (isBlank c = true ↔ charClass c = .blank) ∧ (c = '#' ↔ charClass c = .hash) ∧ (c = '\n' ↔ charClass c = .newline) := by
  have point : c = '.' ↔ c.toNat = 46 := Char.toNat_inj.symm
  have hash : c = '#' ↔ c.toNat = 35 := Char.toNat_inj.symm
  have newline : c = '\n' ↔ c.toNat = 10 := Char.toNat_inj.symm
  simp only [charClass,isLetter_iff,isDigit_iff,isSign_iff,isBlank_iff,point,hash,newline]
  split_ifs <;> simp <;> omega

theorem isNumber_class {h : Char} {word : List Char} (isWord : isNumber (h :: word) = true) :
    charClass h = .digit ∨ charClass h = .sign ∨ charClass h = .point := by
  obtain ⟨_,digit,sign,point,_⟩ := charClass_eq h
  rw [← digit,← sign,← point]
  by_contra none
  push Not at none
  simp [isNumber,numberFrom,NumberState.next,none] at isWord

theorem isIdentifier_class {h : Char} {word : List Char} (isWord : isIdentifier (h :: word) = true) :
    charClass h = .letter ∧ ∀ c ∈ h :: word, isIdentChar c = true := by
  simp only [isIdentifier,Bool.and_eq_true,List.all_eq_true] at isWord
  refine ⟨(charClass_eq h).1.mp isWord.1,?_⟩
  intro c member
  rcases List.mem_cons.mp member with rfl | member
  · simp [isIdentChar,isWord.1]
  · exact isWord.2 c member

theorem isBlanks_class {h : Char} {word : List Char} (isWord : isBlanks (h :: word) = true) :
    charClass h = .blank ∧ ∀ c ∈ h :: word, isBlank c = true := by
  simp only [isBlanks,Bool.and_eq_true,List.all_eq_true] at isWord
  exact ⟨(charClass_eq h).2.2.2.2.1.mp (isWord.2 h List.mem_cons_self),isWord.2⟩

theorem isComment_class {h : Char} {word : List Char} (isWord : isComment (h :: word) = true) :
    charClass h = .hash ∧ word.getLast? = some '\n' ∧ ∀ c ∈ word.dropLast, c ≠ '\n' := by
  simp only [isComment,Bool.and_eq_true,List.all_eq_true,decide_eq_true_eq] at isWord
  exact ⟨(charClass_eq h).2.2.2.2.2.1.mp isWord.1.1.1,isWord.1.2,isWord.2⟩

theorem classify_blanks {h : Char} {word : List Char} (blanks : isBlanks (h :: word) = true) :
    classify (h :: word) = some .blanks := by
  have class_eq := (isBlanks_class blanks).1
  have other : h :: word ∉ literalWords := by
    intro member
    rw [(literalWords_plain _ member).2] at blanks
    cases blanks
  have notNumber : ¬ isNumber (h :: word) = true := fun number => by simpa [class_eq] using isNumber_class number
  have notName : ¬ isIdentifier (h :: word) = true := fun name => by simpa [class_eq] using (isIdentifier_class name).1
  rw [classify,literal_none other]
  dsimp only
  rw [if_neg notNumber,if_neg notName,if_pos blanks]

theorem not_double {h c : Char} (pair : h ∈ ['=','!','<','>'] → c ≠ '=') (and : h = '&' → c ≠ '&') (or : h = '|' → c ≠ '|') :
    [h,c] ∉ doubles := by
  intro member
  simp only [doubles,List.mem_cons,List.cons.injEq,List.not_mem_nil,or_false,and_true] at member
  rcases member with ⟨rfl,rfl⟩ | ⟨rfl,rfl⟩ | ⟨rfl,rfl⟩ | ⟨rfl,rfl⟩ | ⟨rfl,rfl⟩ | ⟨rfl,rfl⟩
  · exact pair (by decide) rfl
  · exact pair (by decide) rfl
  · exact pair (by decide) rfl
  · exact pair (by decide) rfl
  · exact and rfl rfl
  · exact or rfl rfl

theorem doubles_class : ∀ word ∈ doubles, (word.head?.map charClass).getD .other = .other := by decide +kernel

/-- A word is of no pattern if the ones that its first character allows do not have it. -/
theorem classify_none {h : Char} {tail : List Char} (long : tail ≠ [])
    (name : charClass h = .letter → isIdentifier (h :: tail) = false)
    (number : charClass h = .digit ∨ charClass h = .sign ∨ charClass h = .point → isNumber (h :: tail) = false)
    (blanks : charClass h = .blank → isBlanks (h :: tail) = false)
    (comment : charClass h = .hash → isComment (h :: tail) = false)
    (double : charClass h = .other → h :: tail ∉ doubles) : classify (h :: tail) = none := by
  have notName : isIdentifier (h :: tail) = false :=
    Bool.eq_false_iff.mpr fun is => by simp [name (isIdentifier_class is).1] at is
  have notNumber : isNumber (h :: tail) = false :=
    Bool.eq_false_iff.mpr fun is => by simp [number (isNumber_class is)] at is
  have notBlanks : isBlanks (h :: tail) = false :=
    Bool.eq_false_iff.mpr fun is => by simp [blanks (isBlanks_class is).1] at is
  have notComment : isComment (h :: tail) = false :=
    Bool.eq_false_iff.mpr fun is => by simp [comment (isComment_class is).1] at is
  have length : 2 ≤ (h :: tail).length := by
    have positive := List.length_pos_iff.mpr long
    simp only [List.length_cons]
    omega
  have other : h :: tail ∉ literalWords := by
    intro member
    rcases literalWords_shape _ member with is | one | is
    · rw [notName] at is
      cases is
    · omega
    · exact double (doubles_class _ is) is
  have notNewline : h :: tail ≠ ['\n'] := by
    intro same
    rw [same] at length
    simp at length
  rw [classify,literal_none other]
  simp only [notNumber,notName,notBlanks,notComment,notNewline]
  rw [if_neg (by decide),if_neg (by decide),if_neg (by decide),if_neg (by decide),if_neg (by decide),if_neg (by omega)]

/-- No word begins with this one and goes on with the character. -/
def Stops (word : List Char) (c : Char) : Prop := ∀ rest, classify (word ++ c :: rest) = none

/-- Identifiers and keywords. -/
theorem stops_name {word : List Char} {c : Char} (isWord : isIdentifier word = true) (notIdent : isIdentChar c = false) :
    Stops word c := by
  intro rest
  cases word with
  | nil => cases isWord
  | cons h tail =>
    have letter := (isIdentifier_class isWord).1
    refine classify_none (by simp) (fun _ => ?_) ?_ ?_ ?_ ?_
    · rw [Bool.eq_false_iff]
      intro name
      have ident := (isIdentifier_class name).2 c (by simp)
      rw [notIdent] at ident
      cases ident
    all_goals simp [letter]

theorem stops_number {word : List Char} {c : Char} (isWord : isNumber word = true) (notIdent : isIdentChar c = false)
    (notPoint : c ≠ '.') : Stops word c := by
  intro rest
  have notNumber := numberFrom_stops notIdent notPoint rest isWord
  cases word with
  | nil => cases isWord
  | cons h tail =>
    have head := isNumber_class isWord
    refine classify_none (by simp) ?_ (fun _ => notNumber) ?_ ?_ ?_ <;>
      · intro other
        rw [other] at head
        simp at head

theorem stops_blanks {word : List Char} {c : Char} (isWord : isBlanks word = true) (notBlank : isBlank c = false) :
    Stops word c := by
  intro rest
  cases word with
  | nil => cases isWord
  | cons h tail =>
    have blank := (isBlanks_class isWord).1
    refine classify_none (by simp) ?_ ?_ (fun _ => ?_) ?_ ?_
    · simp [blank]
    · simp [blank]
    · rw [Bool.eq_false_iff]
      intro blanks
      have isC := (isBlanks_class blanks).2 c (by simp)
      rw [notBlank] at isC
      cases isC
    · simp [blank]
    · simp [blank]

theorem stops_double {word : List Char} (double : word ∈ doubles) (c : Char) : Stops word c := by
  intro rest
  have shape : ∀ word ∈ doubles, word.length = 2 := by decide +kernel
  have length := shape word double
  cases word with
  | nil => simp at length
  | cons h tail =>
    have other : charClass h = .other := doubles_class _ double
    refine classify_none (by simp) ?_ ?_ ?_ ?_ (fun _ => ?_)
    · simp [other]
    · simp [other]
    · simp [other]
    · simp [other]
    · intro longer
      have length' : (h :: (tail ++ c :: rest)).length = 2 := shape _ longer
      simp only [List.length_cons,List.length_append] at length length'
      omega

/-- Operators and punctuation of one character. -/
theorem stops_single {h c : Char} (class_eq : charClass h = .other) (pair : [h,c] ∉ doubles) : Stops [h] c := by
  intro rest
  have shape : ∀ word ∈ doubles, word.length = 2 := by decide +kernel
  refine classify_none (by simp) ?_ ?_ ?_ ?_ (fun _ => ?_)
  · simp [class_eq]
  · simp [class_eq]
  · simp [class_eq]
  · simp [class_eq]
  · intro longer
    have length : (h :: c :: rest).length = 2 := shape _ longer
    simp only [List.length_cons] at length
    obtain rfl : rest = [] := List.length_eq_zero_iff.mp (by omega)
    exact pair longer

theorem stops_sign {h c : Char} (sign : charClass h = .sign) (notDigit : isDigit c = false) (notPoint : c ≠ '.') :
    Stops [h] c := by
  intro rest
  have isSig := (charClass_eq h).2.2.1.mpr sign
  refine classify_none (by simp) ?_ (fun _ => ?_) ?_ ?_ ?_
  · simp [sign]
  · simp [isNumber,numberFrom,NumberState.next,isSig,notDigit,notPoint]
  · simp [sign]
  · simp [sign]
  · simp [sign]

/-- What tells the end of a token's word. -/
inductive Ending
  | name | sign | comparison | any
deriving DecidableEq

/-- Identifiers, keywords and numbers have the ending of a name. -/
def ending {α : Type} : Token α → Ending
  | .value _ | .identifier _ | .flagName _ | .keyVar | .keySet | .keyWhen | .keyTrigger | .keyFlag => .name
  | .op .add | .op .sub => .sign
  | .op .lt | .op .gt | .assign => .comparison
  | _ => .any

/-- A word of the ending is complete before the character. -/
def Ending.breaks : Ending → Char → Bool
  | .name, c => !isIdentChar c && c ≠ '.'
  | .sign, c => !isDigit c && c ≠ '.'
  | .comparison, c => c ≠ '='
  | .any, _ => true

/-- The words of the literal patterns that have an ending. -/
def Ending.has : Ending → List Char → Bool
  | .name, word => isIdentifier word
  | .sign, word => word.length = 1 && word.all fun h => charClass h = .sign
  | .comparison, word => word.length = 1 && word.all fun h => charClass h = .other ∧ h ≠ '&' ∧ h ≠ '|'
  | .any, word =>
    word ∈ doubles || word.length = 1 && word.all fun h => charClass h = .other ∧ h ∉ ['=','!','<','>','&','|']

variable {word : List Char} {t : Token Literal} {c : Char}

theorem classify_token (isWord : classify word = some (.token t)) :
    (word,t) ∈ literals ∨ (isNumber word = true ∧ t = .value (.number word)) ∨
      (isIdentifier word = true ∧ t = .identifier (String.ofList word)) := by
  unfold classify at isWord
  cases found : literal word with
  | some t' =>
    rw [found] at isWord
    obtain rfl : t' = t := by simpa using isWord
    simp only [literal,Option.map_eq_some_iff] at found
    obtain ⟨⟨word',_⟩,found,rfl⟩ := found
    have same := List.find?_some found
    obtain rfl : word' = word := by simpa using same
    exact .inl (List.mem_of_find?_eq_some found)
  | none =>
    rw [found] at isWord
    dsimp only at isWord
    split at isWord
    · cases isWord
      exact .inr (.inl ⟨‹_›,rfl⟩)
    · split at isWord
      · cases isWord
        exact .inr (.inr ⟨‹_›,rfl⟩)
      · split_ifs at isWord <;> cases isWord

theorem literals_ending : ∀ l ∈ literals, (ending l.2).has l.1 = true := by decide +kernel

theorem Ending.has_stops {e : Ending} (has : e.has word = true) (ends : e.breaks c = true) : Stops word c := by
  cases e with
  | name =>
    simp only [Ending.breaks,Bool.and_eq_true,Bool.not_eq_true'] at ends
    exact stops_name has ends.1
  | sign =>
    simp only [Ending.has,Bool.and_eq_true,decide_eq_true_eq,List.length_eq_one_iff,List.all_eq_true] at has
    obtain ⟨⟨h,rfl⟩,sign⟩ := has
    simp only [Ending.breaks,Bool.and_eq_true,Bool.not_eq_true',decide_eq_true_eq] at ends
    exact stops_sign (sign h List.mem_cons_self) ends.1 ends.2
  | comparison =>
    simp only [Ending.has,Bool.and_eq_true,decide_eq_true_eq,List.length_eq_one_iff,List.all_eq_true] at has
    obtain ⟨⟨h,rfl⟩,all⟩ := has
    obtain ⟨other,notAnd,notOr⟩ := all h List.mem_cons_self
    simp only [Ending.breaks,decide_eq_true_eq] at ends
    exact stops_single other (not_double (fun _ => ends) (fun and => absurd and notAnd) fun or => absurd or notOr)
  | any =>
    simp only [Ending.has,Bool.or_eq_true,Bool.and_eq_true,decide_eq_true_eq,List.length_eq_one_iff,List.all_eq_true] at has
    rcases has with double | ⟨⟨h,rfl⟩,all⟩
    · exact stops_double double c
    · obtain ⟨other,single⟩ := all h List.mem_cons_self
      simp only [List.mem_cons,List.not_mem_nil,or_false,not_or] at single
      obtain ⟨eq,not,lt,gt,and,or⟩ := single
      refine stops_single other (not_double ?_ (fun bad => absurd bad and) fun bad => absurd bad or)
      simp [eq,not,lt,gt]

theorem token_stops (isWord : classify word = some (.token t)) (ends : (ending t).breaks c = true) : Stops word c := by
  rcases classify_token isWord with member | ⟨number,rfl⟩ | ⟨name,rfl⟩
  · exact Ending.has_stops (literals_ending _ member) ends
  · simp only [ending,Ending.breaks,Bool.and_eq_true,Bool.not_eq_true',decide_eq_true_eq] at ends
    exact stops_number number ends.1 ends.2
  · simp only [ending,Ending.breaks,Bool.and_eq_true,Bool.not_eq_true',decide_eq_true_eq] at ends
    exact stops_name name ends.1

/-- The end of the text is no token of it. -/
theorem lexWords_inner {text : List Char} (member : t ∈ lexWords text) : t.kind ≠ .eof := by
  obtain ⟨⟨lexed,word⟩,inScan,isToken⟩ := List.mem_filterMap.mp member
  have isWord : classify word = some lexed := scan_classify inScan
  cases lexed with
  | token t' =>
    cases isToken
    have named : ∀ l ∈ literals, l.2.kind ≠ .eof := by decide +kernel
    rcases classify_token isWord with isLiteral | ⟨_,rfl⟩ | ⟨_,rfl⟩
    · exact named _ isLiteral
    · simp [Token.kind]
    · simp [Token.kind]
  | blanks | comment | newline | invalid => cases isToken

theorem lex_inner {α : Type} [Gdouble α] {text : List Char} : ∀ t ∈ (lex text : List (Token α)), t.kind ≠ .eof := by
  intro t member
  obtain ⟨t,inWords,rfl⟩ := List.mem_map.mp member
  rw [map_kind]
  exact lexWords_inner inWords

end Starter.Lexer
