import Starter.Calls
import Starter.Spacing

/-!
The language of the manual. Its numbers have no sign, a prefix `-` is an operator, a
comment may end with the text, and a character that begins no word is an error. The lexer
of the parser returns a sign and a number after it as one word, and drops such characters.
-/
namespace Starter.Manual
open Gdouble Expressions Rules Grammar Syntax Actions Parsing Operators Lexer Spacing Calls Accesses Lib.Munch Lib.Precedence

def startsSigned (word : List Char) : Bool := word.head?.any isSign

/-- A comment that ends with the text. -/
def isOpenComment : List Char → Bool
  | [] => false
  | c :: word => c = '#' && word.all (· ≠ '\n')

/-- The words of the manual. -/
def manualClassify (word : List Char) : Option Lexed :=
  match literal word with
  | some t => some (.token t)
  | none =>
    if isNumber word && !startsSigned word then some (.token (.value (.number word)))
    else if isIdentifier word then some (.token (.identifier (String.ofList word)))
    else if isBlanks word then some .blanks
    else if isComment word || isOpenComment word then some .comment
    else if word = ['\n'] then some .newline
    else none

def manualWords (text : List Char) : List (Token Literal) :=
  (scan manualClassify text).filterMap fun step => step.1.token?

/-- The text is a program of the manual: all of it is words, and their tokens are those of a program with the prefix
operator `-` in which every call is one of a documented function, with as many arguments as that needs. -/
def Documented (text : List Char) : Prop :=
  (scan manualClassify text).flatMap Prod.snd = text ∧ ∃ p : Instructions Literal, GoodCalls p ∧ p.tokens .sub = manualWords text

/-- The tokens of the manual for a token of the parser's lexer. -/
def expand : Token Literal → List (Token Literal)
  | .value (.number (c :: word)) =>
    if isSign c then [.op (if c = '-' then .sub else .add),.value (.number word)] else [.value (.number (c :: word))]
  | t => [t]

/-- The lexer drops no character of the text. -/
def Clean (text : List Char) : Prop := ∀ step ∈ scan classify text, step.1 ≠ .invalid

/-- No comment is open at the end of the text: the lexer drops no `#`. -/
def Closed (text : List Char) : Prop := ∀ step ∈ scan classify text, step.1 = .invalid → step.2 ≠ ['#']

/-- The steps of the lexer up to the one that returns the token of that number, or all where there are not so many. -/
def stepsTo : List (Lexed × List Char) → Nat → List (Lexed × List Char)
  | [], _ => []
  | (.token t,word) :: _, 0 => [(.token t,word)]
  | (.token t,word) :: rest, n+1 => (.token t,word) :: stepsTo rest n
  | step :: rest, n => step :: stepsTo rest n

variable {word rest : List Char} {r : Lexed}

theorem classify_each (c : Char) : classify [c] ≠ none := by
  unfold classify
  cases literal [c] with
  | some t => simp
  | none => simp; split_ifs <;> simp

/-- The rest of a signed number is a number without a sign. -/
theorem number_signed {c : Char} (number : isNumber (c :: word) = true) (sign : isSign c = true) :
    isNumber word = true ∧ startsSigned word = false ∧ word ≠ [] := by
  simp only [isNumber,numberFrom,NumberState.next,sign,if_true] at number ⊢
  cases word with
  | nil => cases number
  | cons h tail =>
    have unsigned : isSign h = false := by
      rw [Bool.eq_false_iff]
      intro signed
      have notDigit : isDigit h = false := by
        rw [Bool.eq_false_iff,ne_eq,(charClass_eq h).2.1,(charClass_eq h).2.2.1.mp signed]
        decide
      have notPoint : h ≠ '.' := by
        rintro rfl
        exact absurd signed (by decide)
      simp [numberFrom,NumberState.next,notDigit,notPoint] at number
    simp only [numberFrom,NumberState.next,unsigned] at number ⊢
    exact ⟨by simpa using number,by simp [startsSigned,unsigned],by simp⟩

/-- A number is a word of no other pattern. -/
theorem number_alone (number : isNumber word = true) : isIdentifier word = false ∧ isBlanks word = false ∧
    isComment word = false ∧ isOpenComment word = false ∧ word ≠ ['\n'] := by
  cases word with
  | nil => cases number
  | cons h tail =>
    have class_eq := isNumber_class number
    have notHash : h ≠ '#' := by
      rintro rfl
      exact absurd class_eq (by decide)
    refine ⟨?_,?_,?_,?_,?_⟩
    · rw [Bool.eq_false_iff]
      intro name
      simp [(isIdentifier_class name).1] at class_eq
    · rw [Bool.eq_false_iff]
      intro blanks
      simp [(isBlanks_class blanks).1] at class_eq
    · simp [isComment,notHash]
    · simp [isOpenComment,notHash]
    · intro newline
      cases newline
      exact absurd class_eq (by decide)

/-- The words of the parser's lexer are words of the manual, but for numbers with a sign. -/
theorem manual_of_classify (isWord : classify word = some r) (valid : r ≠ .invalid)
    (unsigned : isNumber word = true → startsSigned word = false) : manualClassify word = some r := by
  unfold classify at isWord
  unfold manualClassify
  cases isLiteral : literal word with
  | some t =>
    rw [isLiteral] at isWord
    exact isWord
  | none =>
    rw [isLiteral] at isWord
    dsimp only at isWord ⊢
    by_cases number : isNumber word = true
    · rw [if_pos number] at isWord
      rw [if_pos (by simp [number,unsigned number])]
      exact isWord
    · rw [if_neg number] at isWord
      rw [if_neg (by simp [number])]
      split_ifs at isWord with name blanks comment newline single
      · rw [if_pos name]
        exact isWord
      · rw [if_neg name,if_pos blanks]
        exact isWord
      · rw [if_neg name,if_neg blanks,if_pos (by simp [comment])]
        exact isWord
      · subst newline
        exact isWord
      · exact absurd (Option.some.inj isWord).symm valid

/-- The words of the manual are words of the parser's lexer, but for comments without an end of line. -/
theorem classify_of_manual (isWord : manualClassify word = some r) : classify word = some r ∨ isOpenComment word = true := by
  unfold manualClassify at isWord
  unfold classify
  cases isLiteral : literal word with
  | some t =>
    rw [isLiteral] at isWord
    exact .inl isWord
  | none =>
    rw [isLiteral] at isWord
    dsimp only at isWord ⊢
    by_cases number : isNumber word = true
    · obtain ⟨notName,notBlanks,notComment,notOpen,notNewline⟩ := number_alone number
      simp only [number,notName,notBlanks,notComment,notOpen,notNewline] at isWord
      rw [if_pos number]
      cases signed : startsSigned word <;> rw [signed] at isWord <;> simp at isWord
      exact .inl (congrArg some isWord)
    · rw [if_neg (by simp [number])] at isWord
      rw [if_neg number]
      split_ifs at isWord with name blanks comment newline
      · rw [if_pos name]
        exact .inl isWord
      · rw [if_neg name,if_pos blanks]
        exact .inl isWord
      · rcases Bool.or_eq_true_iff.mp comment with closed | isOpen
        · rw [if_neg name,if_neg blanks,if_pos closed]
          exact .inl isWord
        · exact .inr isOpen
      · subst newline
        exact .inl isWord

/-- A `#` without an end of line is of no pattern. -/
theorem classify_hash (isWord : classify ('#' :: word) = some r) (noNewline : word.all (· ≠ '\n') = true) : r = .invalid := by
  have heads : ∀ word ∈ literalWords, word.head? ≠ some '#' := by decide +kernel
  have hash : charClass '#' = .hash := by decide
  have notNumber : ¬ isNumber ('#' :: word) = true := fun number => by simpa [hash] using isNumber_class number
  have notName : ¬ isIdentifier ('#' :: word) = true := fun name => by simpa [hash] using (isIdentifier_class name).1
  have notBlanks : ¬ isBlanks ('#' :: word) = true := fun blanks => by simpa [hash] using (isBlanks_class blanks).1
  have notComment : ¬ isComment ('#' :: word) = true := by
    intro comment
    have last := List.mem_of_getLast? (isComment_class comment).2.1
    have other := List.all_eq_true.mp noNewline _ last
    simp at other
  rw [classify,literal_none fun member => heads _ member rfl] at isWord
  dsimp only at isWord
  rw [if_neg notNumber,if_neg notName,if_neg notBlanks,if_neg notComment,if_neg (by simp)] at isWord
  split_ifs at isWord
  exact (Option.some.inj isWord).symm

/-- What could not be longer for the parser's lexer could not for the manual. -/
theorem manual_longest (isWord : classify word = some r) (valid : r ≠ .invalid) (nonempty : word ≠ [])
    (longest : Longest classify word rest) : Longest manualClassify word rest := by
  intro n positive le
  cases longer : manualClassify (word ++ rest.take n) with
  | none => rfl
  | some r' =>
    rcases classify_of_manual longer with same | isOpen
    · rw [longest n positive le] at same
      cases same
    · cases word with
      | nil => exact absurd rfl nonempty
      | cons c word =>
        simp only [List.cons_append,isOpenComment,Bool.and_eq_true,decide_eq_true_eq,List.all_append] at isOpen
        obtain ⟨rfl,noNewline,_⟩ := isOpen
        exact absurd (classify_hash isWord noNewline) valid

theorem literal_sign {c : Char} (sign : isSign c = true) :
    manualClassify [c] = some (.token (.op (if c = '-' then .sub else .add))) := by
  simp only [isSign,decide_eq_true_eq] at sign
  rcases sign with rfl | rfl
  · decide +kernel
  · decide +kernel

/-- No word of the manual begins with a sign and goes on. -/
theorem manual_sign {c : Char} (sign : isSign c = true) (nonempty : word ≠ []) : manualClassify (c :: word) = none := by
  have class_eq := (charClass_eq c).2.2.1.mp sign
  have shape : ∀ word ∈ literalWords, word.head?.map charClass = some .sign → word.length = 1 := by decide +kernel
  have length := List.length_pos_iff.mpr nonempty
  have other : c :: word ∉ literalWords := by
    intro member
    have one := shape _ member (congrArg some class_eq)
    rw [List.length_cons] at one
    omega
  have notHash : c ≠ '#' := by
    rintro rfl
    exact absurd sign (by decide)
  have notName : ¬ isIdentifier (c :: word) = true := fun name => by simpa [class_eq] using (isIdentifier_class name).1
  have notBlanks : ¬ isBlanks (c :: word) = true := fun blanks => by simpa [class_eq] using (isBlanks_class blanks).1
  rw [manualClassify,literal_none other]
  dsimp only
  rw [if_neg (by simp [startsSigned,sign]),if_neg notName,if_neg notBlanks,if_neg (by simp [isComment,isOpenComment,notHash]),
    if_neg (by simp [nonempty])]

/-- After its sign, a signed number could not be longer. -/
theorem unsigned_longest {c : Char} (sign : isSign c = true) (number : isNumber (c :: word) = true)
    (longest : Longest classify (c :: word) rest) : Longest manualClassify word rest := by
  obtain ⟨isNum,unsigned,nonempty⟩ := number_signed number sign
  intro n positive le
  cases word with
  | nil => exact absurd rfl nonempty
  | cons h tail =>
    have class_eq := isNumber_class isNum
    have notSign : charClass h ≠ .sign := by
      intro signed
      simp [startsSigned,(charClass_eq h).2.2.1.mpr signed] at unsigned
    have more : tail ++ rest.take n ≠ [] := by
      intro none
      have length := congrArg List.length none
      simp only [List.length_append,List.length_take,List.length_nil] at length
      omega
    have notNumber : isNumber (h :: (tail ++ rest.take n)) = false := by
      rw [Bool.eq_false_iff]
      intro longer
      have signed := isNumber_signed ((charClass_eq c).2.2.1.mp sign) notSign longer
      have none := longest n positive le
      rw [List.cons_append,List.cons_append,classify_number signed] at none
      cases none
    have other : classify (h :: (tail ++ rest.take n)) = none := by
      refine classify_none more ?_ (fun _ => notNumber) ?_ ?_ ?_ <;>
        · intro is
          rw [is] at class_eq
          simp at class_eq
    have notHash : h ≠ '#' := by
      rintro rfl
      exact absurd class_eq (by decide)
    rw [List.cons_append]
    cases isWord : manualClassify (h :: (tail ++ rest.take n)) with
    | none => rfl
    | some r =>
      rcases classify_of_manual isWord with same | isOpen
      · rw [other] at same
        cases same
      · simp [isOpenComment,notHash] at isOpen

/-- Only a number with a sign expands. -/
theorem expand_other {t : Token Literal} (isWord : classify word = some (.token t))
    (unsigned : isNumber word = true → startsSigned word = false) : expand t = [t] := by
  have single : ∀ l ∈ literals, expand l.2 = [l.2] := by decide +kernel
  rcases classify_token isWord with member | ⟨number,rfl⟩ | ⟨_,rfl⟩
  · exact single _ member
  · have notSigned := unsigned number
    cases word with
    | nil => rfl
    | cons c word =>
      have notSign : isSign c = false := by simpa [startsSigned] using notSigned
      simp [expand,notSign]
  · rfl

/-- One step of the parser's lexer is one or two of the manual's, with the tokens that its token expands to. -/
theorem manual_step (isWord : classify word = some r) (valid : r ≠ .invalid) (nonempty : word ≠ [])
    (longest : Longest classify word rest) : ∃ steps, scan manualClassify (word ++ rest) = steps ++ scan manualClassify rest ∧
      steps.flatMap Prod.snd = word ∧ (steps.filterMap fun step => step.1.token?) = r.token?.toList.flatMap expand := by
  by_cases signed : isNumber word = true ∧ startsSigned word = true
  · obtain ⟨number,signs⟩ := signed
    cases word with
    | nil => exact absurd rfl nonempty
    | cons c word =>
      have sign : isSign c = true := by simpa [startsSigned] using signs
      obtain ⟨isNum,unsigned,some⟩ := number_signed number sign
      rw [classify_number number] at isWord
      cases isWord
      have first : scan manualClassify ([c] ++ (word ++ rest)) =
          (.token (.op (if c = '-' then .sub else .add)),[c]) :: scan manualClassify (word ++ rest) := by
        refine scan_append (literal_sign sign) (by simp) fun n positive le => manual_sign sign ?_
        have taken : (word ++ rest).take n ≠ [] := by
          intro none
          have length := congrArg List.length none
          rw [List.length_take,List.length_nil] at length
          omega
        exact taken
      have second : scan manualClassify (word ++ rest) =
          (.token (.value (.number word)),word) :: scan manualClassify rest :=
        scan_append (manual_of_classify (classify_number isNum) (by simp) fun _ => unsigned) some
          (unsigned_longest sign number longest)
      refine ⟨[(_,[c]),(_,word)],first.trans (congrArg _ second),by simp,?_⟩
      simp [Lexed.token?,expand,sign]
  · have unsigned : isNumber word = true → startsSigned word = false :=
      fun number => Bool.eq_false_iff.mpr fun signs => signed ⟨number,signs⟩
    refine ⟨[(r,word)],?_,by simp,?_⟩
    · exact scan_append (manual_of_classify isWord valid unsigned) nonempty (manual_longest isWord valid nonempty longest)
    · cases r with
      | token t => simp [Lexed.token?,expand_other isWord unsigned]
      | blanks | comment | newline | invalid => rfl

/-- If no character is dropped, the words of the manual cover the text, and its tokens are those that the tokens of the
parser's lexer expand to. -/
theorem manual_scan (text : List Char) (clean : Clean text) :
    (scan manualClassify text).flatMap Prod.snd = text ∧ manualWords text = (lexWords text).flatMap expand := by
  induction text using scan_induction classify_each with
  | nil => exact ⟨rfl,rfl⟩
  | word r word rest isWord nonempty longest ih =>
    have here : scan classify (word ++ rest) = (r,word) :: scan classify rest := scan_append isWord nonempty longest
    rw [Clean,here] at clean
    obtain ⟨valid,clean⟩ := List.forall_mem_cons.mp clean
    obtain ⟨covered,tokens⟩ := ih clean
    obtain ⟨steps,scanned,whole,expanded⟩ := manual_step isWord valid nonempty longest
    constructor
    · rw [scanned,List.flatMap_append,whole,covered]
    · rw [manualWords] at tokens ⊢
      rw [scanned,List.filterMap_append,expanded,tokens,lexWords,lexWords,here]
      cases r <;> simp [Lexed.token?]

theorem classify_invalid (dropped : classify word = some .invalid) : ∃ c, word = [c] := by
  unfold classify at dropped
  cases isLiteral : literal word with
  | some t => simp [isLiteral] at dropped
  | none =>
    rw [isLiteral] at dropped
    dsimp only at dropped
    split_ifs at dropped with _ _ _ _ _ single
    all_goals first | exact List.length_eq_one_iff.mp single | cases dropped

theorem manual_valid (isWord : manualClassify word = some r) : r ≠ .invalid := by
  rintro rfl
  unfold manualClassify at isWord
  cases isLiteral : literal word with
  | some t => simp [isLiteral] at isWord
  | none =>
    rw [isLiteral] at isWord
    dsimp only at isWord
    split_ifs at isWord
    all_goals cases isWord

/-- If the words of the manual cover the text, the lexer drops no character, but for the `#` of a comment that is open. -/
theorem clean_of_covered (text : List Char) (closed : Closed text)
    (covered : (scan manualClassify text).flatMap Prod.snd = text) : Clean text := by
  induction text using scan_induction classify_each with
  | nil => exact fun step member => nomatch member
  | word r word rest isWord nonempty longest ih =>
    have here : scan classify (word ++ rest) = (r,word) :: scan classify rest := scan_append isWord nonempty longest
    rw [Closed,here] at closed
    obtain ⟨closedHere,closed⟩ := List.forall_mem_cons.mp closed
    have valid : r ≠ .invalid := by
      rintro rfl
      obtain ⟨c,rfl⟩ := classify_invalid isWord
      -- The manual has a word here, and it is no longer than the one that the lexer takes.
      obtain ⟨r,tail,after,whole,manual⟩ := scan_first covered
      have same : tail ++ after = rest := List.cons.inj whole |>.2
      rcases classify_of_manual manual with taken | isOpen
      · by_cases none : tail = []
        · subst none
          exact manual_valid manual (Option.some.inj (taken.symm.trans isWord))
        · have longer := longest tail.length (List.length_pos_iff.mpr none) (by rw [← same,List.length_append]; omega)
          rw [← same,List.take_left,List.singleton_append,taken] at longer
          cases longer
      · simp only [isOpenComment,Bool.and_eq_true,decide_eq_true_eq] at isOpen
        exact closedHere rfl (congrArg (fun c => [c]) isOpen.1)
    obtain ⟨steps,scanned,taken,_⟩ := manual_step isWord valid nonempty longest
    rw [scanned,List.flatMap_append,taken,List.append_cancel_left_eq] at covered
    rw [Clean,here]
    exact List.forall_mem_cons.mpr ⟨valid,ih closed covered⟩

theorem stepsTo_all {steps : List (Lexed × List Char)} {n : Nat}
    (few : (steps.filterMap fun step => step.1.token?).length ≤ n) : stepsTo steps n = steps := by
  induction steps generalizing n with
  | nil => rfl
  | cons step rest ih =>
    obtain ⟨r,word⟩ := step
    cases r with
    | token t =>
      cases n with
      | zero => simp [Lexed.token?] at few
      | succ n =>
        have fewer : (rest.filterMap fun step => step.1.token?).length ≤ n := by simpa [Lexed.token?] using few
        exact congrArg (List.cons _) (ih fewer)
    | blanks | comment | newline | invalid =>
      have fewer : (rest.filterMap fun step => step.1.token?).length ≤ n := by simpa [Lexed.token?] using few
      exact congrArg (List.cons _) (ih fewer)

theorem stepsTo_mem {steps : List (Lexed × List Char)} {n : Nat} {step : Lexed × List Char}
    (member : step ∈ stepsTo steps n) : step ∈ steps := by
  induction steps generalizing n with
  | nil => exact member
  | cons head rest ih =>
    obtain ⟨r,word⟩ := head
    cases r with
    | token t =>
      cases n with
      | zero => exact List.mem_cons.mpr (.inl (List.mem_singleton.mp member))
      | succ n =>
        rcases List.mem_cons.mp member with first | later
        · exact List.mem_cons.mpr (.inl first)
        · exact List.mem_cons_of_mem _ (ih later)
    | blanks | comment | newline | invalid =>
      rcases List.mem_cons.mp member with first | later
      · exact List.mem_cons.mpr (.inl first)
      · exact List.mem_cons_of_mem _ (ih later)

/-- If no character is dropped up to a token, the tokens of the manual begin with those that the tokens up to it
expand to. -/
theorem manual_scan_to (text : List Char) (n : Nat) (clean : ∀ step ∈ stepsTo (scan classify text) n, step.1 ≠ .invalid) :
    ∃ more, manualWords text = ((lexWords text).take (n + 1)).flatMap expand ++ more := by
  induction text using scan_induction classify_each generalizing n with
  | nil => exact ⟨[],rfl⟩
  | word r word rest isWord nonempty longest ih =>
    have here : scan classify (word ++ rest) = (r,word) :: scan classify rest := scan_append isWord nonempty longest
    rw [here] at clean
    have valid : r ≠ .invalid := by
      refine clean (r,word) ?_
      cases r with
      | token t => cases n <;> exact List.mem_cons_self
      | blanks | comment | newline | invalid => exact List.mem_cons_self
    obtain ⟨steps,scanned,_,expanded⟩ := manual_step isWord valid nonempty longest
    have words : manualWords (word ++ rest) = r.token?.toList.flatMap expand ++ manualWords rest := by
      rw [manualWords,scanned,List.filterMap_append,expanded,manualWords]
    rw [words,lexWords,here]
    cases r with
    | token t =>
      cases n with
      | zero => exact ⟨manualWords rest,by simp [Lexed.token?]⟩
      | succ n =>
        obtain ⟨more,same⟩ := ih n fun step member => clean step (List.mem_cons_of_mem _ member)
        exact ⟨more,by simp [Lexed.token?,same,lexWords]⟩
    | blanks | comment | newline | invalid =>
      obtain ⟨more,same⟩ := ih n fun step member => clean step (List.mem_cons_of_mem _ member)
      exact ⟨more,by simp [Lexed.token?,same,lexWords]⟩

end Starter.Manual
