import Starter.Lib.Scanning

/-!
The line of `/proc/self/stat` (`read_proc_stat_process` in `lib/process-stats-collector.c`).
The name of the process may contain whatever the fields behind it are told apart by, so they
are counted from the last closing parenthesis on.
-/
namespace Starter.ProcStat
open Lib.Scanning

/-- The macro `SKIP_FIELDS`: where the pointer is then, if it did not return FALSE; `none` where it goes beyond the
terminator. -/
def skipFields : Nat → List Char → Option (Option (List Char))
  | 0, ptr => some (some ptr)
  | count+1, ptr =>
    (advance (fun c => c = ' ') ptr).bind fun ptr =>
      if ptr = [] then some none
      else (advance (fun c => c ≠ ' ' ∧ c ≠ '\x00') ptr).bind fun ptr => skipFields count ptr

/-- What is read, an `unsigned long` or a `long` each. -/
structure Stat where
  utime : Int
  stime : Int
  priority : Int
  numThreads : Int
  nivcsw : Int
deriving DecidableEq

/-- The code behind the macro. -/
def skipping (count : Nat) (p : List Char) (goOn : List Char → Option (Option Stat)) : Option (Option Stat) :=
  (skipFields count p).bind fun
    | none => some none
    | some p => goOn p

/-- `read_proc_stat_process`, of the contents of the file if it can be opened: `none` inside where it returns FALSE, and
`none` where it reads beyond the terminator. -/
def readProcStatProcess (file : Option (List Char)) : Option (Option Stat) :=
  match file.bind (fgets 4096) with
  | none => some none
  | some buffer =>
    match strrchr ')' buffer with
    | none => some none
    | some (_,p) =>
      skipping 11 p fun p =>
        match sscanf [.lu,.lu] p with
        | [utime,stime] =>
          skipping 2 p fun p =>
            match sscanf [.skipped,.skipped,.ld] p with
            | [priority] =>
              skipping 3 p fun p =>
                match sscanf [.skipped,.ld] p with
                | [numThreads] =>
                  skipping 2 p fun p => skipping 2 p fun p => skipping 19 p fun p =>
                    match sscanf [.lu] p with
                    | [nivcsw] => some (some ⟨utime,stime,priority,numThreads,nivcsw⟩)
                    | _ => some none
                | _ => some none
            | _ => some none
        | _ => some none

/-! ## Lines -/

/-- The word is the number in decimal. -/
def Decimal (word : List Char) (v : Int) : Prop :=
  ∃ neg text digits, word = text ++ digits ∧ SignText neg text ∧ digits ≠ [] ∧ (∀ c ∈ digits, c.isDigit = true) ∧
    v = if neg then -(Nat.ofDigitChars 10 digits 0 : Int) else Nat.ofDigitChars 10 digits 0

/-- The type that the field with the number is read as has the value. -/
def InRange (k : Nat) (v : Int) : Prop :=
  if k = 18 ∨ k = 20 then -2 ^ 63 ≤ v ∧ v < 2 ^ 63
  else if k = 14 ∨ k = 15 ∨ k = 42 then 0 ≤ v ∧ v < 2 ^ 64
  else True

/-- A line of the file. The third field is a word, and the fields from the fourth on are numbers, up to the
forty-second at least. -/
structure StatLine where
  pid : List Char
  comm : List Char
  state : List Char
  numbers : List (List Char × Int)
  clean : ∀ c ∈ pid ++ comm ++ state, c ≠ '\n' ∧ c ≠ '\x00'
  word : state ≠ [] ∧ ∀ c ∈ state, c ≠ ' ' ∧ c ≠ ')'
  decimal : ∀ f ∈ numbers, Decimal f.1 f.2
  inRange : ∀ i f, numbers[i]? = some f → InRange (i+4) f.2
  enough : 39 ≤ numbers.length

/-- The fields with blanks before them. -/
def spaced (words : List (List Char)) : List Char := words.flatMap fun word => ' ' :: word

def StatLine.header (line : StatLine) : List Char := line.pid ++ (' ' :: '(' :: (line.comm ++ [')']))

def StatLine.words (line : StatLine) : List (List Char) := line.state :: line.numbers.map Prod.fst

def StatLine.text (line : StatLine) : List Char := line.header ++ spaced line.words

/-- The line up to its forty-second field. -/
def StatLine.before42 (line : StatLine) : List Char := line.header ++ (spaced (line.words.take 39) ++ [' '])

/-- The value of a field, by its number. -/
def StatLine.field (line : StatLine) (k : Nat) : Option Int := (line.numbers[k-4]?).map Prod.snd

/-- How many words begin in a text; it may begin inside a word. -/
def wordsFrom : Bool → List Char → Nat
  | _, [] => 0
  | inside, c :: s => if c = ' ' then wordsFrom false s else (if inside then 0 else 1) + wordsFrom true s

def wordCount : List Char → Nat := wordsFrom false

/-- Fewer than forty words follow the last closing parenthesis. -/
def Short (cut : List Char) : Prop := ∀ before after, strrchr ')' cut = some (before,after) → wordCount after < 40

/-! ## Skipping -/

def solid (c : Char) : Bool := c ≠ ' ' ∧ c ≠ '\x00'

theorem skipFields_succ (count : Nat) (ptr : List Char) : skipFields (count+1) ptr =
    if ptr.dropWhile (fun c => c = ' ') = [] then some none
    else skipFields count ((ptr.dropWhile (fun c => c = ' ')).dropWhile solid) := by
  have one : advance (fun c => decide (c = ' ')) ptr = some (ptr.dropWhile fun c => c = ' ') := advance_eq (by decide) ptr
  rw [skipFields,one,Option.bind_some]
  split
  · rfl
  · rw [show (fun c => decide (c ≠ ' ' ∧ c ≠ '\x00')) = solid from rfl,advance_eq (by decide),Option.bind_some]

theorem skipFields_ne_none (count : Nat) (ptr : List Char) : skipFields count ptr ≠ none := by
  induction count generalizing ptr with
  | zero => simp [skipFields]
  | succ count ih =>
    rw [skipFields_succ]
    split
    · simp
    · exact ih _

theorem skipping_ne_none {count : Nat} {p : List Char} {goOn : List Char → Option (Option Stat)} (goes : ∀ p, goOn p ≠ none) :
    skipping count p goOn ≠ none := by
  cases skipped : skipFields count p with
  | none => exact absurd skipped (skipFields_ne_none count p)
  | some result =>
    rw [skipping,skipped]
    cases result with
    | none => simp
    | some p => exact goes p

/-- Of no file anything beyond the terminator is read. -/
theorem never_beyond (file : Option (List Char)) : readProcStatProcess file ≠ none := by
  unfold readProcStatProcess
  split
  · simp
  · split
    · simp
    · refine skipping_ne_none fun p => ?_
      split
      · refine skipping_ne_none fun p => ?_
        split
        · refine skipping_ne_none fun p => ?_
          split
          · refine skipping_ne_none fun p => skipping_ne_none fun p => skipping_ne_none fun p => ?_
            split <;> simp
          · simp
        · simp
      · simp

theorem skipFields_nil (count : Nat) : skipFields count [] = if count = 0 then some (some []) else some none := by
  cases count with
  | zero => rfl
  | succ count => rw [skipFields_succ,List.dropWhile_nil,if_pos rfl,if_neg (Nat.succ_ne_zero _)]

theorem solid_eq {c : Char} (blank : c ≠ ' ') (zero : c ≠ '\x00') : solid c = true := by simp [solid,blank,zero]

theorem not_solid {c : Char} (ends : solid c = false) (zero : c ≠ '\x00') : c = ' ' := by
  by_contra blank
  rw [solid_eq blank zero] at ends
  cases ends

/-- Skipping goes from word to word. -/
theorem skipFields_spaced {words : List (List Char)} (each : ∀ word ∈ words, word ≠ [] ∧ ∀ c ∈ word, solid c = true)
    {count : Nat} (fewer : count < words.length) (tail : List Char) :
    skipFields count (spaced words ++ tail) = some (some (spaced (words.drop count) ++ tail)) := by
  induction count generalizing words with
  | zero => rfl
  | succ count ih =>
    obtain ⟨word,rest,rfl⟩ := List.exists_cons_of_ne_nil (List.ne_nil_of_length_pos (Nat.zero_lt_of_lt fewer))
    rw [List.forall_mem_cons] at each
    obtain ⟨⟨some,solids⟩,each⟩ := each
    obtain ⟨next,more,rfl⟩ := List.exists_cons_of_ne_nil (List.ne_nil_of_length_pos (Nat.zero_lt_of_lt (Nat.lt_of_succ_lt_succ fewer)))
    obtain ⟨c,chars,rfl⟩ := List.exists_cons_of_ne_nil some
    have first : c ≠ ' ' := by
      rintro rfl
      exact absurd (solids ' ' List.mem_cons_self) (by decide)
    have text : spaced ((c :: chars) :: next :: more) ++ tail = ' ' :: (c :: chars ++ (spaced (next :: more) ++ tail)) := by
      simp only [spaced,List.flatMap_cons,List.cons_append,List.append_assoc]
    have blanks : (' ' :: (c :: chars ++ (spaced (next :: more) ++ tail))).dropWhile (fun c => decide (c = ' ')) =
        c :: chars ++ (spaced (next :: more) ++ tail) := by
      rw [List.dropWhile_cons_of_pos (by decide),List.cons_append,List.dropWhile_cons_of_neg (by simpa using first)]
    have behind : (c :: chars ++ (spaced (next :: more) ++ tail)).dropWhile solid = spaced (next :: more) ++ tail := by
      rw [List.dropWhile_append_of_pos solids]
      exact List.dropWhile_cons_of_neg (by decide)
    rw [skipFields_succ,text,blanks,if_neg (by simp),behind,List.drop_succ_cons]
    exact ih each (Nat.lt_of_succ_lt_succ fewer)

theorem wordsFrom_append_word {word : List Char} (solids : ∀ c ∈ word, solid c = true) (rest : List Char) :
    wordsFrom true (word ++ rest) = wordsFrom true rest := by
  induction word with
  | nil => rfl
  | cons c word ih =>
    rw [List.forall_mem_cons] at solids
    have blank : c ≠ ' ' := by
      rintro rfl
      exact absurd solids.1 (by decide)
    rw [List.cons_append,wordsFrom,if_neg blank,ih solids.2]
    simp

theorem wordCount_dropWhile (s : List Char) : wordCount (s.dropWhile fun c => c = ' ') = wordCount s := by
  induction s with
  | nil => rfl
  | cons c s ih =>
    rw [List.dropWhile_cons]
    split
    case isTrue blank => rw [ih,wordCount,wordsFrom,if_pos (by simpa using blank)]
    case isFalse => rfl

/-- A text that begins with a word and has another count behind it. -/
theorem wordCount_word {c : Char} (first : c ≠ ' ') (s : List Char) (clean : '\x00' ∉ s) :
    wordCount (c :: s) = 1 + wordCount (s.dropWhile solid) := by
  have behind : wordsFrom true s = wordsFrom false (s.dropWhile solid) := by
    have parts : wordsFrom true s = wordsFrom true (s.takeWhile solid ++ s.dropWhile solid) := by
      rw [List.takeWhile_append_dropWhile]
    rw [parts,wordsFrom_append_word fun c => List.mem_takeWhile_imp]
    cases left : s.dropWhile solid with
    | nil => rfl
    | cons d rest =>
      have ends : solid d = false := by
        have head := List.head?_dropWhile_not solid s
        rw [left] at head
        simpa using head
      have zero : d ≠ '\x00' := by
        rintro rfl
        exact clean ((List.dropWhile_suffix solid).subset (left ▸ List.mem_cons_self))
      rw [not_solid ends zero]
      rfl
  rw [wordCount,wordsFrom,if_neg first,behind]
  rfl

/-- Behind blanks either nothing is left, or a word. -/
theorem first_word {c : Char} {s rest : List Char} (left : (s.dropWhile fun c => c = ' ') = c :: rest) (clean : '\x00' ∉ s) :
    solid c = true ∧ '\x00' ∉ rest ∧ wordCount s = 1 + wordCount (rest.dropWhile solid) := by
  have among : c :: rest ⊆ s := left ▸ (List.dropWhile_suffix _).subset
  have blank : c ≠ ' ' := by
    have head := List.head?_dropWhile_not (fun c => decide (c = ' ')) s
    rw [left] at head
    simpa using head
  have zero : c ≠ '\x00' := by
    rintro rfl
    exact clean (among List.mem_cons_self)
  have others : '\x00' ∉ rest := fun member => clean (among (List.mem_cons_of_mem _ member))
  exact ⟨solid_eq blank zero,others,by rw [← wordCount_dropWhile,left,wordCount_word blank rest others]⟩

/-- Where no more words are left than are skipped nothing but blanks remain. -/
theorem skipFields_few {count : Nat} {s tail : List Char} (clean : '\x00' ∉ s) (ends : tail = [] ∨ tail = ['\n'])
    (few : wordCount s ≤ count) : skipFields count (s ++ tail) = some none ∨
      ∃ p, skipFields count (s ++ tail) = some (some p) ∧ ∀ c ∈ p, isspace c = true := by
  have last : (tail.dropWhile fun c => c = ' ') = tail ∧ tail.dropWhile solid = [] ∧ ∀ c ∈ tail, isspace c = true := by
    rcases ends with rfl | rfl
    · exact ⟨rfl,rfl,fun _ member => nomatch member⟩
    · exact ⟨by decide,by decide,List.all_eq_true.mp (by decide)⟩
  have atEnd : ∀ count,
      skipFields count [] = some none ∨ ∃ p, skipFields count [] = some (some p) ∧ ∀ c ∈ p, isspace c = true := by
    intro count
    rw [skipFields_nil]
    split
    · exact .inr ⟨[],rfl,fun _ member => nomatch member⟩
    · exact .inl rfl
  induction count generalizing s with
  | zero =>
    refine .inr ⟨s ++ tail,rfl,fun c member => ?_⟩
    cases left : s.dropWhile fun c => c = ' ' with
    | nil =>
      rcases List.mem_append.mp member with blank | ended
      · obtain rfl : c = ' ' := by simpa using List.dropWhile_eq_nil_iff.mp left c blank
        decide
      · exact last.2.2 c ended
    | cons d rest =>
      have more := (first_word left clean).2.2
      omega
  | succ count ih =>
    rw [skipFields_succ]
    cases left : s.dropWhile fun c => c = ' ' with
    | nil =>
      have blanks := List.dropWhile_eq_nil_iff.mp left
      rw [List.dropWhile_append_of_pos blanks,last.1,last.2.1]
      split
      · exact .inl rfl
      · exact atEnd count
    | cons c rest =>
      obtain ⟨here,clean,more⟩ := first_word left clean
      have blanks : (s ++ tail).dropWhile (fun c => decide (c = ' ')) = c :: (rest ++ tail) := by
        rw [List.dropWhile_append,left]
        rfl
      rw [blanks,if_neg (by simp),List.dropWhile_cons_of_pos here,List.dropWhile_append]
      split
      · rw [last.2.1]
        exact atEnd count
      · refine ih (fun member => clean ((List.dropWhile_suffix solid).subset member)) ?_
        omega

/-! ## Scanning -/

/-- The value is one that the conversion has a type for. -/
def Fits : Conversion → Int → Prop
  | .lu, v => 0 ≤ v ∧ v < 2 ^ 64
  | .ld, v => -2 ^ 63 ≤ v ∧ v < 2 ^ 63
  | .skipped, _ => True

def assigned : Conversion → Int → List Int
  | .lu, v => [v]
  | .ld, v => [v]
  | .skipped, _ => []

theorem sscanf_field {conversion : Conversion} {word behind : List Char} {v : Int} (decimal : Decimal word v)
    (fits : Fits conversion v) (ends : Ends behind) (conversions : List Conversion) :
    sscanf (conversion :: conversions) (' ' :: (word ++ behind)) = assigned conversion v ++ sscanf conversions behind := by
  obtain ⟨neg,text,digits,rfl,stands,some,all,rfl⟩ := decimal
  have reads := number_eq (show ∀ c ∈ [' '], isspace c = true from List.all_eq_true.mp (by decide)) stands some all ends
  rw [List.append_assoc]
  simp only [List.cons_append,List.nil_append] at reads
  rw [sscanf,reads]
  generalize Nat.ofDigitChars 10 digits 0 = n at fits
  cases conversion with
  | skipped => rfl
  | lu =>
    simp only [Fits] at fits
    cases neg with
    | true =>
      obtain rfl : n = 0 := by simp only [if_true] at fits; omega
      rfl
    | false =>
      simp only [Bool.false_eq_true,if_false] at fits
      have small : ¬ 2 ^ 64 ≤ n := by omega
      simp only [toUnsignedLong,if_neg small]
      rfl
  | ld =>
    simp only [Fits] at fits
    cases neg with
    | true =>
      simp only [if_true] at fits
      simp only [toLong,if_true,assigned,show max (-(n : Int)) (-2 ^ 63) = -n by omega]
    | false =>
      simp only [Bool.false_eq_true,if_false] at fits
      simp only [toLong,Bool.false_eq_true,if_false,assigned,show min (n : Int) (2 ^ 63 - 1) = n by omega]

/-- The text from a number of the line on. -/
def StatLine.from (line : StatLine) (tail : List Char) (k : Nat) : List Char := spaced ((line.numbers.drop k).map Prod.fst) ++ tail

section
variable {line : StatLine} {tail : List Char} {k : Nat}

theorem decimal_chars {word : List Char} {v : Int} (decimal : Decimal word v) :
    word ≠ [] ∧ ∀ c ∈ word, solid c = true ∧ c ≠ ')' ∧ c ≠ '\n' := by
  obtain ⟨neg,text,digits,rfl,stands,some,all,-⟩ := decimal
  refine ⟨by simp [some],fun c member => ?_⟩
  rcases List.mem_append.mp member with mark | digit
  · cases stands with
    | none => cases mark
    | plus => exact List.mem_singleton.mp mark ▸ by decide
    | minus => exact List.mem_singleton.mp mark ▸ by decide
  · refine ⟨solid_eq ?_ ?_,?_,?_⟩ <;> (rintro rfl; exact absurd (all _ digit) (by decide))

theorem words_chars (line : StatLine) :
    ∀ word ∈ line.words, word ≠ [] ∧ ∀ c ∈ word, solid c = true ∧ c ≠ ')' ∧ c ≠ '\n' := by
  rw [StatLine.words,List.forall_mem_cons]
  constructor
  · obtain ⟨some,chars⟩ := line.word
    refine ⟨some,fun c member => ?_⟩
    obtain ⟨newline,zero⟩ := line.clean c (List.mem_append_right _ member)
    exact ⟨solid_eq (chars c member).1 zero,(chars c member).2,newline⟩
  · intro word member
    obtain ⟨f,among,rfl⟩ := List.mem_map.mp member
    exact decimal_chars (line.decimal f among)

theorem words_solid (line : StatLine) : ∀ word ∈ line.words, word ≠ [] ∧ ∀ c ∈ word, solid c = true := fun word member =>
  ⟨(words_chars line word member).1,fun c among => ((words_chars line word member).2 c among).1⟩

theorem from_ends (ends : tail = [] ∨ tail = ['\n']) (k : Nat) : Ends (line.from tail k) := by
  rw [StatLine.from]
  cases line.numbers.drop k with
  | nil =>
    rcases ends with rfl | rfl
    · exact fun c none => nomatch none
    · exact fun c same => by cases same; decide
  | cons => exact fun c same => by cases same; decide

theorem skipping_from {count : Nat} (fewer : k + count < line.numbers.length) (goOn : List Char → Option (Option Stat)) :
    skipping count (line.from tail k) goOn = goOn (line.from tail (k+count)) := by
  have each : ∀ word ∈ (line.numbers.drop k).map Prod.fst, word ≠ [] ∧ ∀ c ∈ word, solid c = true := by
    intro word member
    rw [List.map_drop] at member
    exact words_solid line word (List.mem_cons_of_mem _ (List.mem_of_mem_drop member))
  have skipped := skipFields_spaced each (show count < _ by simp; omega) tail
  rw [skipping,StatLine.from,skipped,← List.map_drop,List.drop_drop]
  rfl

theorem sscanf_from (ends : tail = [] ∨ tail = ['\n']) (some : k < line.numbers.length) {conversion : Conversion}
    (fits : Fits conversion line.numbers[k].2) (conversions : List Conversion) :
    sscanf (conversion :: conversions) (line.from tail k) =
      assigned conversion line.numbers[k].2 ++ sscanf conversions (line.from tail (k+1)) := by
  have text : line.from tail k = ' ' :: (line.numbers[k].1 ++ line.from tail (k+1)) := by
    rw [StatLine.from,List.drop_eq_getElem_cons some]
    simp only [spaced,List.map_cons,List.flatMap_cons,List.cons_append,List.append_assoc,StatLine.from]
  rw [text]
  exact sscanf_field (line.decimal _ (List.getElem_mem some)) fits (from_ends ends _) conversions

theorem sscanf_skip (ends : tail = [] ∨ tail = ['\n']) (some : k < line.numbers.length) (conversions : List Conversion) :
    sscanf (.skipped :: conversions) (line.from tail k) = sscanf conversions (line.from tail (k+1)) := by
  have fits : Fits .skipped line.numbers[k].2 := trivial
  exact sscanf_from ends some fits conversions

end

/-! ## Whole lines and lines that are cut off -/

section
variable {line : StatLine} {cut rest : List Char}

theorem spaced_chars {words : List (List Char)} {c : Char} (member : c ∈ spaced words) : c = ' ' ∨ ∃ word ∈ words, c ∈ word := by
  obtain ⟨word,among,inside⟩ := List.mem_flatMap.mp member
  exact (List.mem_cons.mp inside).imp_right fun inside => ⟨word,among,inside⟩

/-- The fields have no closing parenthesis, no end of line and no terminator. -/
theorem fields_clean (line : StatLine) : ∀ c ∈ spaced line.words, c ≠ ')' ∧ c ≠ '\n' ∧ c ≠ '\x00' := by
  intro c member
  rcases spaced_chars member with rfl | ⟨word,among,inside⟩
  · decide
  · obtain ⟨solids,paren,newline⟩ := (words_chars line word among).2 c inside
    refine ⟨paren,newline,?_⟩
    rintro rfl
    exact absurd solids (by decide)

theorem text_clean (line : StatLine) : ∀ c ∈ line.text, c ≠ '\n' ∧ c ≠ '\x00' := by
  intro c member
  rcases List.mem_append.mp member with header | field
  · simp only [StatLine.header,List.mem_append,List.mem_cons,List.not_mem_nil,or_false] at header
    have clean := line.clean c
    simp only [List.mem_append] at clean
    rcases header with pid | rfl | rfl | comm | rfl
    · exact clean (.inl (.inl pid))
    · decide
    · decide
    · exact clean (.inl (.inr comm))
    · decide
  · exact (fields_clean line c field).2

theorem before42_begins (line : StatLine) : line.before42 <+: line.text := by
  have many : 39 < line.words.length := by
    have enough := line.enough
    simp only [StatLine.words,List.length_cons,List.length_map]
    omega
  have split : spaced line.words = spaced (line.words.take 39) ++ spaced (line.words.drop 39) := by
    rw [spaced,spaced,spaced,← List.flatMap_append,List.take_append_drop]
  rw [StatLine.before42,StatLine.text,split,List.drop_eq_getElem_cons many]
  exact (List.prefix_append_right_inj _).mpr ((List.prefix_append_right_inj _).mpr ⟨_,rfl⟩)

/-- What the function reads of a file with such a first line. -/
theorem read_line (clean : ∀ c ∈ cut, c ≠ '\n' ∧ c ≠ '\x00') (fits : cut.length < 4096)
    (ends : rest = [] ∨ rest.head? = some '\n') :
    (cut ++ rest = [] ∧ (some (cut ++ rest)).bind (fgets 4096) = none) ∨
      ∃ tail, (tail = [] ∨ tail = ['\n']) ∧ (some (cut ++ rest)).bind (fgets 4096) = some (cut ++ tail) := by
  by_cases nothing : cut ++ rest = []
  · exact .inl ⟨nothing,by rw [Option.bind_some,fgets,if_pos nothing]⟩
  · exact .inr (fgets_line (fun member => (clean _ member).1 rfl) fits ends nothing)

theorem strrchr_tail {before after tail : List Char} (found : strrchr ')' cut = some (before,after)) (ends : tail = [] ∨ tail = ['\n']) :
    strrchr ')' (cut ++ tail) = some (before,after ++ tail) := by
  obtain ⟨rfl,absent⟩ := strrchr_some.mp found
  refine strrchr_some.mpr ⟨by simp,fun member => ?_⟩
  rcases List.mem_append.mp member with inside | last
  · exact absent inside
  · rcases ends with rfl | rfl
    · cases last
    · exact absurd last (by decide)

/-- Of a whole line the fields are read that are asked for. -/
theorem read_text (line : StatLine) (short : line.text.length < 4096) (ends : rest = [] ∨ rest.head? = some '\n') :
    ∃ stat, readProcStatProcess (some (line.text ++ rest)) = some (some stat) ∧ line.field 14 = some stat.utime ∧
      line.field 15 = some stat.stime ∧ line.field 18 = some stat.priority ∧ line.field 20 = some stat.numThreads := by
  have enough := line.enough
  have ranges : ∀ i (some : i < line.numbers.length), InRange (i+4) line.numbers[i].2 := fun i some =>
    line.inRange i _ (List.getElem?_eq_getElem some)
  have values : ∀ i (some : i < line.numbers.length), line.field (i+4) = .some line.numbers[i].2 := by
    intro i some
    rw [StatLine.field,Nat.add_sub_cancel,List.getElem?_eq_getElem some]
    rfl
  refine ⟨⟨line.numbers[10].2,line.numbers[11].2,line.numbers[14].2,line.numbers[16].2,line.numbers[38].2⟩,?_,
    values 10 _,values 11 _,values 14 _,values 16 _⟩
  rcases read_line (text_clean line) short ends with ⟨nothing,-⟩ | ⟨tail,last,buffer⟩
  · exact absurd nothing (by simp [StatLine.text,StatLine.header])
  have header : strrchr ')' line.text = some (line.pid ++ (' ' :: '(' :: line.comm),spaced line.words) :=
    strrchr_some.mpr ⟨by simp [StatLine.text,StatLine.header],fun member => (fields_clean line _ member).1 rfl⟩
  have first : ∀ goOn : List Char → Option (Option Stat),
      skipping 11 (spaced line.words ++ tail) goOn = goOn (line.from tail 10) := by
    intro goOn
    rw [skipping,skipFields_spaced (words_solid line) (by simp only [StatLine.words,List.length_cons,List.length_map]; omega)]
    simp only [StatLine.words,List.drop_succ_cons,← List.map_drop,Option.bind_some,StatLine.from]
  unfold readProcStatProcess
  rw [buffer]
  simp only [strrchr_tail header last,first]
  have utime : Fits .lu line.numbers[10].2 := by simpa [InRange,Fits] using ranges 10 (by omega)
  have stime : Fits .lu line.numbers[11].2 := by simpa [InRange,Fits] using ranges 11 (by omega)
  have priority : Fits .ld line.numbers[14].2 := by simpa [InRange,Fits] using ranges 14 (by omega)
  have threads : Fits .ld line.numbers[16].2 := by simpa [InRange,Fits] using ranges 16 (by omega)
  have nivcsw : Fits .lu line.numbers[38].2 := by simpa [InRange,Fits] using ranges 38 (by omega)
  have at14 : sscanf [.lu,.lu] (line.from tail 10) = [line.numbers[10].2,line.numbers[11].2] := by
    rw [sscanf_from last (by omega) utime,sscanf_from last (by omega) stime]
    rfl
  have at16 : sscanf [.skipped,.skipped,.ld] (line.from tail 12) = [line.numbers[14].2] := by
    rw [sscanf_skip last (show 12 < line.numbers.length by omega),sscanf_skip last (show 13 < line.numbers.length by omega),
      sscanf_from last (by omega) priority]
    rfl
  have at19 : sscanf [.skipped,.ld] (line.from tail 15) = [line.numbers[16].2] := by
    rw [sscanf_skip last (show 15 < line.numbers.length by omega),sscanf_from last (by omega) threads]
    rfl
  have at42 : sscanf [.lu] (line.from tail 38) = [line.numbers[38].2] := by
    rw [sscanf_from last (by omega) nivcsw]
    rfl
  rw [at14]
  simp only
  rw [skipping_from (by omega),at16]
  simp only
  rw [skipping_from (by omega),at19]
  simp only
  rw [skipping_from (by omega),skipping_from (by omega),skipping_from (by omega),at42]

theorem skipping_some {count : Nat} {p : List Char} {goOn : List Char → Option (Option Stat)} {stat : Stat}
    (done : skipping count p goOn = some (some stat)) : ∃ q, skipFields count p = some (some q) ∧ goOn q = some (some stat) := by
  unfold skipping at done
  cases skipped : skipFields count p with
  | none => simp [skipped] at done
  | some result =>
    rw [skipped] at done
    cases result with
    | none => simp at done
    | some q => exact ⟨q,rfl,done⟩

theorem skipFields_add {first : Nat} {p q : List Char} (skipped : skipFields first p = some (some q)) (second : Nat) :
    skipFields (first+second) p = skipFields second q := by
  induction first generalizing p with
  | zero =>
    cases skipped
    rw [Nat.zero_add]
  | succ first ih =>
    rw [skipFields_succ] at skipped
    rw [Nat.add_right_comm,skipFields_succ]
    split at skipped
    · cases skipped
    · rename_i some
      rw [if_neg some]
      exact ih skipped

/-- What succeeds has found a number behind thirty-nine fields. -/
theorem read_some {buffer : List Char} {file : Option (List Char)} {stat : Stat} (read : file.bind (fgets 4096) = some buffer)
    (done : readProcStatProcess file = some (some stat)) : ∃ before after q, strrchr ')' buffer = some (before,after) ∧
      skipFields 39 after = some (some q) ∧ number q ≠ none := by
  unfold readProcStatProcess at done
  rw [read] at done
  simp only at done
  split at done
  case h_1 => cases done
  case h_2 before after found =>
    obtain ⟨p11,skip11,done⟩ := skipping_some done
    split at done
    case h_2 => cases done
    obtain ⟨p13,skip13,done⟩ := skipping_some done
    split at done
    case h_2 => cases done
    obtain ⟨p16,skip16,done⟩ := skipping_some done
    split at done
    case h_2 => cases done
    obtain ⟨p18,skip18,done⟩ := skipping_some done
    obtain ⟨p20,skip20,done⟩ := skipping_some done
    obtain ⟨p39,skip39,done⟩ := skipping_some done
    refine ⟨before,after,p39,found,?_,fun none => ?_⟩
    · rw [skipFields_add skip11 28,skipFields_add skip13 26,skipFields_add skip16 23,skipFields_add skip18 21,
        skipFields_add skip20 19,skip39]
    · simp [sscanf,none] at done

/-- A line with fewer than forty words behind its last closing parenthesis is refused. -/
theorem short_refused (clean : ∀ c ∈ cut, c ≠ '\n' ∧ c ≠ '\x00') (fits : cut.length < 4096)
    (ends : rest = [] ∨ rest.head? = some '\n')
    (short : Short cut) : readProcStatProcess (some (cut ++ rest)) = some none := by
  cases done : readProcStatProcess (some (cut ++ rest)) with
  | none => exact absurd done (never_beyond _)
  | some result =>
    cases result with
    | none => rfl
    | some stat =>
      exfalso
      rcases read_line clean fits ends with ⟨-,nothing⟩ | ⟨tail,last,buffer⟩
      · unfold readProcStatProcess at done
        rw [nothing] at done
        cases done
      · obtain ⟨before,after,q,found,skipped,some⟩ := read_some buffer done
        cases inside : strrchr ')' cut with
        | none =>
          obtain ⟨split,-⟩ := strrchr_some.mp found
          have member : ')' ∈ cut ++ tail := split ▸ List.mem_append_right _ List.mem_cons_self
          rcases List.mem_append.mp member with here | there
          · exact strrchr_none.mp inside here
          · rcases last with rfl | rfl
            · cases there
            · exact absurd there (by decide)
        | some parts =>
          obtain ⟨start,behind⟩ := parts
          rw [strrchr_tail inside last] at found
          cases found
          have few := short before behind inside
          have among : ∀ c ∈ behind, c ∈ cut := by
            obtain ⟨rfl,-⟩ := strrchr_some.mp inside
            exact fun c member => List.mem_append_right _ (List.mem_cons_of_mem _ member)
          rcases skipFields_few (fun member => (clean _ (among _ member)).2 rfl) last (Nat.le_of_lt_succ few) with
            ended | ⟨p,skips,blanks⟩
          · rw [ended] at skipped
            cases skipped
          · rw [skips] at skipped
            cases skipped
            exact some (number_none blanks)

theorem wordsFrom_prefix {s t : List Char} (cut : s <+: t) : ∀ inside, wordsFrom inside s ≤ wordsFrom inside t := by
  obtain ⟨more,rfl⟩ := cut
  induction s with
  | nil => exact fun _ => Nat.zero_le _
  | cons c s ih =>
    intro inside
    rw [List.cons_append,wordsFrom,wordsFrom]
    split
    · exact ih _
    · exact Nat.add_le_add_left (ih _) _

/-- As many words as there are. -/
theorem wordCount_spaced {words : List (List Char)} (each : ∀ word ∈ words, word ≠ [] ∧ ∀ c ∈ word, solid c = true) :
    wordCount (spaced words ++ [' ']) = words.length := by
  induction words with
  | nil => rfl
  | cons word words ih =>
    rw [List.forall_mem_cons] at each
    obtain ⟨⟨some,solids⟩,each⟩ := each
    obtain ⟨c,chars,rfl⟩ := List.exists_cons_of_ne_nil some
    rw [List.forall_mem_cons] at solids
    have blank : c ≠ ' ' := by
      rintro rfl
      exact absurd solids.1 (by decide)
    have text : spaced ((c :: chars) :: words) ++ [' '] = ' ' :: c :: (chars ++ (spaced words ++ [' '])) := by
      simp only [spaced,List.flatMap_cons,List.cons_append,List.append_assoc]
    have outside : wordsFrom true (spaced words ++ [' ']) = wordsFrom false (spaced words ++ [' ']) := by
      cases words <;> rfl
    rw [text,wordCount,wordsFrom,if_pos rfl,wordsFrom,if_neg blank,wordsFrom_append_word solids.2,outside,← wordCount,ih each,
      List.length_cons]
    simp [Nat.add_comm]

/-- What is cut off behind the name, before the forty-second field, is too short. -/
theorem short_of_header (header : line.header <+: cut) (before : cut <+: line.before42) : Short cut := by
  obtain ⟨r,rfl⟩ := header
  have fields : r <+: spaced (line.words.take 39) ++ [' '] := (List.prefix_append_right_inj _).mp before
  have each : ∀ word ∈ line.words.take 39, word ≠ [] ∧ ∀ c ∈ word, solid c = true := fun word member =>
    words_solid line word (List.mem_of_mem_take member)
  have absent : ')' ∉ r := by
    intro member
    rcases List.mem_append.mp (fields.subset member) with inside | blank
    · rcases spaced_chars inside with no | ⟨word,among,inside⟩
      · exact absurd no (by decide)
      · exact ((words_chars line word (List.mem_of_mem_take among)).2 _ inside).2.1 rfl
    · exact absurd blank (by decide)
  intro start after found
  have last : strrchr ')' (line.header ++ r) = some (line.pid ++ (' ' :: '(' :: line.comm),r) :=
    strrchr_some.mpr ⟨by simp [StatLine.header],absent⟩
  rw [last] at found
  cases found
  have count := wordsFrom_prefix fields false
  rw [← wordCount,wordCount_spaced each] at count
  exact Nat.lt_succ_of_le (count.trans (List.length_take_le _ _))

/-- A whole line is read as what it says. Of a line that is cut off before its forty-second field nothing beyond the terminator
is read, and it is refused if fewer than forty words follow its last closing parenthesis, as behind the name of the process
there always do. -/
theorem procStat_spec (line : StatLine) (short : line.text.length < 4096) (ends : rest = [] ∨ rest.head? = some '\n') :
    (∃ stat, readProcStatProcess (some (line.text ++ rest)) = some (some stat) ∧ line.field 14 = some stat.utime ∧
      line.field 15 = some stat.stime ∧ line.field 18 = some stat.priority ∧ line.field 20 = some stat.numThreads) ∧
    ∀ cut, cut <+: line.before42 → readProcStatProcess (some (cut ++ rest)) ≠ none ∧
      (Short cut ∨ line.header <+: cut → readProcStatProcess (some (cut ++ rest)) = some none) := by
  refine ⟨read_text line short ends,fun cut before => ⟨never_beyond _,fun either => ?_⟩⟩
  have within := before.trans (before42_begins line)
  have clean : ∀ c ∈ cut, c ≠ '\n' ∧ c ≠ '\x00' := fun c member => text_clean line c (within.subset member)
  exact short_refused clean (Nat.lt_of_le_of_lt within.length_le short) ends (either.elim id fun header => short_of_header header before)

end

private theorem one_decimal : Decimal ['1'] 1 :=
  ⟨false,[],['1'],rfl,.none,by decide,List.all_eq_true.mp (by decide),by decide⟩

private theorem ones_inRange (k : Nat) : InRange k 1 := by
  unfold InRange
  split_ifs <;> decide

private theorem clean_of_all {s : List Char} (all : s.all (fun c => c ≠ '\n' ∧ c ≠ '\x00') = true) :
    ∀ c ∈ s, c ≠ '\n' ∧ c ≠ '\x00' :=
  fun c member => of_decide_eq_true (List.all_eq_true.mp all c member)

private def ones (comm : List Char) (clean : ∀ c ∈ comm, c ≠ '\n' ∧ c ≠ '\x00') : StatLine where
  pid := ['1']
  comm := comm
  state := ['S']
  numbers := List.replicate 39 (['1'],1)
  clean := by
    intro c member
    rcases List.mem_append.mp member with named | state
    · rcases List.mem_append.mp named with pid | name
      · exact List.mem_singleton.mp pid ▸ by decide
      · exact clean c name
    · exact List.mem_singleton.mp state ▸ by decide
  word := by
    refine ⟨by decide,fun c member => ?_⟩
    obtain rfl := List.mem_singleton.mp member
    decide
  decimal f member := (List.mem_replicate.mp member).2 ▸ one_decimal
  inRange i f found := by
    obtain ⟨_,rfl⟩ := List.getElem?_eq_some_iff.mp found
    rw [List.getElem_replicate]
    exact ones_inRange _
  enough := by decide

private def bracket : StatLine := ones "a) b".toList (clean_of_all (by decide))

theorem procStat_spec_bracket : (∃ stat, readProcStatProcess (some (bracket.text ++ ['\n'])) = some (some stat) ∧
      bracket.field 14 = some stat.utime ∧ bracket.field 15 = some stat.stime ∧ bracket.field 18 = some stat.priority ∧
      bracket.field 20 = some stat.numThreads) ∧
    ∀ cut, cut <+: bracket.before42 → readProcStatProcess (some (cut ++ ['\n'])) ≠ none ∧
      (Short cut ∨ bracket.header <+: cut → readProcStatProcess (some (cut ++ ['\n'])) = some none) :=
  procStat_spec bracket (by decide +kernel) (.inr rfl)

/-- A name that goes on like a line of its own: cut off within the name it is one. -/
private def misleading : List Char := "a) S".toList ++ spaced (List.replicate 39 ['1'])

theorem cut_accepted : ∃ line : StatLine, line.text.length < 4096 ∧ ∃ cut, cut <+: line.before42 ∧
    readProcStatProcess (some cut) = some (some ⟨1,1,1,1,1⟩) := by
  refine ⟨ones misleading (clean_of_all (by decide +kernel)),by decide +kernel,"1 (".toList ++ misleading,?_,by decide +kernel⟩
  exact List.isPrefixOf_iff_prefix.mp (by decide +kernel)

end Starter.ProcStat
