import Mathlib.Algebra.Order.Ring.Int
import Mathlib.Data.List.TakeWhile

/-!
How C programs read texts: `strtoul` and the conversions of `sscanf` for decimal numbers,
where a `long` has 64 bits and the locale is that of C; `strrchr`, `fgets`, and loops that
move a pointer. A text is the characters before its terminator.
-/
namespace Starter.Lib.Scanning

def isspace (c : Char) : Bool := c = ' ' ∨ c = '\t' ∨ c = '\n' ∨ c = '\x0b' ∨ c = '\x0c' ∨ c = '\r'

/-- The sign that a text starts with, if it is minus, and the text behind the sign. -/
def sign : List Char → Bool × List Char
  | '-' :: s => (true,s)
  | '+' :: s => (false,s)
  | s => (false,s)

/-- The number that a text starts with, behind blanks, by its sign and its digits, and the rest of the text. -/
def number (s : List Char) : Option ((Bool × Nat) × List Char) :=
  let signed := sign (s.dropWhile isspace)
  let digits := signed.2.takeWhile Char.isDigit
  if digits = [] then none
  else some ((signed.1,Nat.ofDigitChars 10 digits 0),signed.2.dropWhile Char.isDigit)

/-- What becomes of a number in an `unsigned long`: one that is too large is the largest, and a sign is taken
    modulo the size. -/
def toUnsignedLong (n : Bool × Nat) : Nat :=
  if 2 ^ 64 ≤ n.2 then 2 ^ 64 - 1 else if n.1 then (2 ^ 64 - n.2) % 2 ^ 64 else n.2

/-- What becomes of it in a `long`. -/
def toLong (n : Bool × Nat) : Int := if n.1 then max (-n.2) (-2 ^ 63) else min n.2 (2 ^ 63 - 1)

/-- `strtoul` to the base ten: the number, and the text that `*endptr` points to. -/
def strtoul (s : List Char) : Nat × List Char :=
  match number s with
  | none => (0,s)
  | some (n,rest) => (toUnsignedLong n,rest)

inductive Conversion
  | lu
  | ld
  /-- `%*d`, which is not assigned. -/
  | skipped

/-- `sscanf` with such conversions, blanks between them: what is assigned up to the first that fails. -/
def sscanf : List Conversion → List Char → List Int
  | [], _ => []
  | conversion :: rest, s =>
    match number s with
    | none => []
    | some (n,behind) =>
      (match conversion with
        | .lu => [(toUnsignedLong n : Int)]
        | .ld => [toLong n]
        | .skipped => []) ++ sscanf rest behind

/-- `strrchr`: what stands before the last such character, and what behind it. -/
def strrchr (c : Char) : List Char → Option (List Char × List Char)
  | [] => none
  | first :: rest =>
    match strrchr c rest with
    | some (before,after) => some (first :: before,after)
    | none => if first = c then some ([],rest) else none

/-- A loop that moves a pointer as long as what it points to is to be skipped; `none` where it goes beyond the terminator. -/
def advance (skips : Char → Bool) : List Char → Option (List Char)
  | [] => if skips '\x00' then none else some []
  | c :: s => if skips c then advance skips s else some (c :: s)

/-- The text up to the end of its first line, which belongs to it. -/
def firstLine : List Char → List Char
  | [] => []
  | c :: s => if c = '\n' then [c] else c :: firstLine s

/-- `fgets` with a buffer of the size, from what is left of a file; `none` where it returns `NULL`. -/
def fgets (size : Nat) (file : List Char) : Option (List Char) :=
  if file = [] then none else some (firstLine (file.take (size-1)))

/-- What a loop over `fgets` is given, one line or full buffer after another; every turn takes some of the file, so
that as many as it has characters are enough. -/
def fgetsLoop (size : Nat) (file : List Char) : Nat → List (List Char)
  | 0 => []
  | turns+1 =>
    match fgets size file with
    | none => []
    | some line => line :: fgetsLoop size (file.drop line.length) turns

/-- The text that stands for a sign. -/
inductive SignText : Bool → List Char → Prop
  | none : SignText false []
  | plus : SignText false ['+']
  | minus : SignText true ['-']

/-- A text whose first character, if it has one, is no digit. -/
def Ends (s : List Char) : Prop := ∀ c, s.head? = some c → c.isDigit = false

theorem isspace_not_digit {c : Char} (space : isspace c = true) : c.isDigit = false ∧ c ≠ '-' ∧ c ≠ '+' := by
  simp only [isspace,Bool.decide_or,Bool.or_eq_true,decide_eq_true_eq] at space
  rcases space with rfl | rfl | rfl | rfl | rfl | rfl <;> decide

theorem digit_not_sign {c : Char} (digit : c.isDigit = true) : c ≠ '-' ∧ c ≠ '+' := by
  constructor <;> (rintro rfl; exact absurd digit (by decide))

theorem sign_some (s : List Char) : ∃ text, SignText (sign s).1 text ∧ s = text ++ (sign s).2 := by
  unfold sign
  split
  case h_1 => exact ⟨_,.minus,rfl⟩
  case h_2 => exact ⟨_,.plus,rfl⟩
  case h_3 => exact ⟨_,.none,rfl⟩

/-- What is read: blanks, a sign, and all the digits there are. -/
theorem number_some {s rest : List Char} {neg : Bool} {n : Nat} (found : number s = some ((neg,n),rest)) :
    ∃ blanks text digits, s = blanks ++ (text ++ (digits ++ rest)) ∧ (∀ c ∈ blanks, isspace c = true) ∧ SignText neg text ∧
      digits ≠ [] ∧ (∀ c ∈ digits, c.isDigit = true) ∧ Nat.ofDigitChars 10 digits 0 = n := by
  obtain ⟨text,stands,split⟩ := sign_some (s.dropWhile isspace)
  unfold number at found
  simp only at found
  split at found
  case isTrue => cases found
  case isFalse some =>
    simp only [Option.some.injEq,Prod.mk.injEq] at found
    obtain ⟨⟨rfl,value⟩,rfl⟩ := found
    refine ⟨s.takeWhile isspace,text,_,?_,fun c => List.mem_takeWhile_imp,stands,some,fun c => List.mem_takeWhile_imp,value⟩
    rw [List.takeWhile_append_dropWhile,← split,List.takeWhile_append_dropWhile]

/-- Such a text is read so. -/
theorem number_eq {blanks text digits rest : List Char} {neg : Bool} (spaces : ∀ c ∈ blanks, isspace c = true)
    (stands : SignText neg text) (some : digits ≠ []) (all : ∀ c ∈ digits, c.isDigit = true) (ends : Ends rest) :
    number (blanks ++ (text ++ (digits ++ rest))) = .some ((neg,Nat.ofDigitChars 10 digits 0),rest) := by
  obtain ⟨d,more,rfl⟩ := List.exists_cons_of_ne_nil some
  have digit := all d List.mem_cons_self
  have solid : isspace d = false := by
    refine Bool.eq_false_iff.mpr fun space => ?_
    rw [(isspace_not_digit space).1] at digit
    cases digit
  have skipped : (blanks ++ (text ++ (d :: more ++ rest))).dropWhile isspace = text ++ (d :: more ++ rest) := by
    rw [List.dropWhile_append_of_pos spaces]
    cases stands with
    | none => exact List.dropWhile_cons_of_neg (by simp [solid])
    | plus => rfl
    | minus => rfl
  have signed : sign (text ++ (d :: more ++ rest)) = (neg,d :: more ++ rest) := by
    cases stands with
    | none =>
      obtain ⟨notMinus,notPlus⟩ := digit_not_sign digit
      simp [sign,notMinus,notPlus]
    | plus => rfl
    | minus => rfl
  have taken : (d :: more ++ rest).takeWhile Char.isDigit = d :: more ∧ (d :: more ++ rest).dropWhile Char.isDigit = rest := by
    rw [List.takeWhile_append_of_pos all,List.dropWhile_append_of_pos all]
    cases rest with
    | nil => exact ⟨List.append_nil _,rfl⟩
    | cons c rest =>
      have other := ends c rfl
      rw [List.takeWhile_cons_of_neg (by simp [other]),List.dropWhile_cons_of_neg (by simp [other])]
      exact ⟨List.append_nil _,rfl⟩
  simp only [number,skipped,signed,taken,reduceCtorEq,if_false]

/-- Blanks alone are no number. -/
theorem number_none {s : List Char} (spaces : ∀ c ∈ s, isspace c = true) : number s = none := by
  have nothing : s.dropWhile isspace = [] := List.dropWhile_eq_nil_iff.mpr spaces
  simp only [number,nothing]
  rfl

theorem strrchr_none {c : Char} {s : List Char} : strrchr c s = none ↔ c ∉ s := by
  induction s with
  | nil => simp [strrchr]
  | cons first rest ih =>
    rw [strrchr,List.mem_cons,not_or,← ih]
    cases strrchr c rest with
    | some parts => simp
    | none => by_cases same : first = c <;> simp [same,Ne.symm]

theorem strrchr_some {c : Char} {s before after : List Char} :
    strrchr c s = some (before,after) ↔ s = before ++ c :: after ∧ c ∉ after := by
  induction s generalizing before after with
  | nil => simp [strrchr]
  | cons first rest ih =>
    rw [strrchr]
    cases found : strrchr c rest with
    | some parts =>
      obtain ⟨start,behind⟩ := parts
      obtain ⟨rfl,absent⟩ := ih.mp found
      constructor
      · intro same
        cases same
        exact ⟨rfl,absent⟩
      · rintro ⟨split,other⟩
        cases before with
        | nil =>
          cases split
          exact absurd (List.mem_append_right _ List.mem_cons_self) other
        | cons _ before =>
          rw [List.cons_append,List.cons.injEq] at split
          obtain ⟨rfl,split⟩ := split
          have again := ih.mpr ⟨split,other⟩
          rw [found] at again
          cases again
          rfl
    | none =>
      have absent := strrchr_none.mp found
      dsimp only
      constructor
      · intro same
        split at same
        case isTrue here =>
          cases same
          exact ⟨by rw [here,List.nil_append],absent⟩
        case isFalse => cases same
      · rintro ⟨split,other⟩
        cases before with
        | nil =>
          cases split
          rw [if_pos rfl]
        | cons _ before =>
          cases split
          exact absurd (List.mem_append_right _ List.mem_cons_self) absent

/-- Such a loop stops at the terminator, if not before. -/
theorem advance_eq {skips : Char → Bool} (stops : skips '\x00' = false) (s : List Char) :
    advance skips s = some (s.dropWhile skips) := by
  induction s with
  | nil => simp [advance,stops]
  | cons c s ih =>
    rw [advance,List.dropWhile_cons]
    split
    · exact ih
    · rfl

theorem firstLine_append {line rest : List Char} (one : '\n' ∉ line) :
    firstLine (line ++ rest) = line ++ firstLine rest := by
  induction line with
  | nil => rfl
  | cons c line ih =>
    rw [List.mem_cons,not_or] at one
    rw [List.cons_append,firstLine,if_neg (Ne.symm one.1),ih one.2]
    rfl

/-- What is read of a file whose first line fits into the buffer: the line, with its end if there is room. -/
theorem fgets_line {size : Nat} {line rest : List Char} (one : '\n' ∉ line) (fits : line.length < size)
    (ends : rest = [] ∨ rest.head? = some '\n') (some : line ++ rest ≠ []) :
    ∃ tail, (tail = [] ∨ tail = ['\n']) ∧ fgets size (line ++ rest) = .some (line ++ tail) := by
  have taken : (line ++ rest).take (size-1) = line ++ rest.take (size-1-line.length) := by
    rw [List.take_append,List.take_of_length_le (by omega)]
  refine ⟨firstLine (rest.take (size-1-line.length)),?_,?_⟩
  · rcases ends with rfl | ended
    · exact .inl (by rw [List.take_nil,firstLine])
    · obtain ⟨more,rfl⟩ := List.head?_eq_some_iff.mp ended
      cases size-1-line.length with
      | zero => exact .inl (by rw [List.take_zero,firstLine])
      | succ room => exact .inr (by rw [List.take_succ_cons,firstLine,if_pos rfl])
  · rw [fgets,if_neg some,taken,firstLine_append one]

end Starter.Lib.Scanning
