import Starter.Lib.Scanning

/-!
The address that the debug server is bound to (`parse_bind_spec` in `src/debug-server.c`). The
port is read by `strtoul`, which takes more than digits.
-/
namespace Starter.Binding
open Lib.Scanning

/-- The message of a `G_IO_ERROR_INVALID_ARGUMENT`. -/
abbrev Message := List Char

/-- `*host_out` and `*port_out`. -/
structure Outputs where
  host : List Char
  port : UInt16

/-- `parse_bind_spec`: the error, or none with TRUE, and the outputs. -/
def parseBindSpec (spec : List Char) (out : Outputs) : Option Message × Outputs :=
  let malformed := "invalid debug-server bind '".toList ++ spec ++ "' (expected HOST:PORT)".toList
  match strrchr ':' spec with
  | none => (some malformed,out)
  | some (before,after) =>
    if before = [] ∨ after = [] then (some malformed,out)
    else
      let port := strtoul after
      if port.2 = after ∨ port.2 ≠ [] ∨ 65535 < port.1 then
        (some ("invalid debug-server port in '".toList ++ spec ++ "'".toList),out)
      else if before = [] then (some ("empty host in debug-server bind '".toList ++ spec ++ "'".toList),out)
      else (none,⟨before,port.1.toUInt16⟩)

/-- The address is written as it should be. -/
def Written (spec host : List Char) (port : Nat) : Prop :=
  ∃ digits, spec = host ++ ':' :: digits ∧ host ≠ [] ∧ digits ≠ [] ∧ (∀ c ∈ digits, c.isDigit = true) ∧
    Nat.ofDigitChars 10 digits 0 = port ∧ port ≤ 65535

/-- Exactly such an address is accepted, with its host and its port, and else the outputs stay. -/
def Law (spec : List Char) : Prop := ∀ out,
  (∀ host port, Written spec host port → parseBindSpec spec out = (none,⟨host,port.toUInt16⟩)) ∧
  ((∀ host port, ¬ Written spec host port) → ∃ message, parseBindSpec spec out = (some message,out))

/-- Blanks or a sign stand before the digits of the port; with a minus sign it is the number modulo `2 ^ 64` that is small
enough. -/
def Stretched (spec : List Char) : Prop :=
  ∃ host blanks text digits neg, spec = host ++ ':' :: (blanks ++ (text ++ digits)) ∧ host ≠ [] ∧ (∀ c ∈ blanks, isspace c = true) ∧
    SignText neg text ∧ blanks ++ text ≠ [] ∧ digits ≠ [] ∧ (∀ c ∈ digits, c.isDigit = true) ∧
    if neg then Nat.ofDigitChars 10 digits 0 = 0 ∨ 2 ^ 64 - 65535 ≤ Nat.ofDigitChars 10 digits 0 ∧ Nat.ofDigitChars 10 digits 0 < 2 ^ 64
    else Nat.ofDigitChars 10 digits 0 ≤ 65535

theorem toUnsignedLong_small {neg : Bool} {n : Nat} : toUnsignedLong (neg,n) ≤ 65535 ↔
    if neg then n = 0 ∨ 2 ^ 64 - 65535 ≤ n ∧ n < 2 ^ 64 else n ≤ 65535 := by
  unfold toUnsignedLong
  cases neg with
  | false =>
    simp only [Bool.false_eq_true,if_false]
    split <;> omega
  | true =>
    simp only [if_true]
    split <;> omega

/-- Blanks, a sign and digits have no colon. -/
theorem no_colon {blanks text digits : List Char} {neg : Bool} (spaces : ∀ c ∈ blanks, isspace c = true) (stands : SignText neg text)
    (all : ∀ c ∈ digits, c.isDigit = true) : ':' ∉ blanks ++ (text ++ digits) := by
  simp only [List.mem_append,not_or]
  refine ⟨fun member => absurd (spaces _ member) (by decide),?_,fun member => absurd (all _ member) (by decide)⟩
  cases stands <;> decide

/-- What is accepted: blanks, a sign and digits of a number that is small enough. -/
theorem accepted_iff (spec : List Char) (out given : Outputs) : parseBindSpec spec out = (none,given) ↔
    ∃ host blanks text digits neg, spec = host ++ ':' :: (blanks ++ (text ++ digits)) ∧ host ≠ [] ∧ (∀ c ∈ blanks, isspace c = true) ∧
    SignText neg text ∧ digits ≠ [] ∧ (∀ c ∈ digits, c.isDigit = true) ∧ toUnsignedLong (neg,Nat.ofDigitChars 10 digits 0) ≤ 65535 ∧
    given = ⟨host,(toUnsignedLong (neg,Nat.ofDigitChars 10 digits 0)).toUInt16⟩ := by
  constructor
  · intro accepted
    simp only [parseBindSpec] at accepted
    cases found : strrchr ':' spec with
    | none => simp [found] at accepted
    | some parts =>
      obtain ⟨before,after⟩ := parts
      obtain ⟨rfl,-⟩ := strrchr_some.mp found
      rw [found] at accepted
      by_cases parts : before = [] ∨ after = []
      · simp [parts] at accepted
      · by_cases read : (strtoul after).2 = after ∨ (strtoul after).2 ≠ [] ∨ 65535 < (strtoul after).1
        · simp only [parts,read,if_true,if_false] at accepted
          cases accepted
        · obtain ⟨someHost,someAfter⟩ := not_or.mp parts
          simp only [someHost,someAfter,read,or_self,if_false] at accepted
          cases accepted
          simp only [not_or,not_not,not_lt] at parts read
          obtain ⟨moved,whole,small⟩ := read
          unfold strtoul at moved whole small ⊢
          cases reads : number after with
          | none =>
            rw [reads] at moved
            exact absurd rfl moved
          | some result =>
            obtain ⟨⟨neg,n⟩,rest⟩ := result
            rw [reads] at whole small
            obtain ⟨blanks,text,digits,rfl,spaces,stands,some,all,rfl⟩ := number_some reads
            obtain rfl : rest = [] := whole
            rw [List.append_nil] at reads ⊢
            exact ⟨before,blanks,text,digits,neg,rfl,parts.1,spaces,stands,some,all,small,rfl⟩
  · rintro ⟨host,blanks,text,digits,neg,rfl,some,spaces,stands,someDigits,all,small,rfl⟩
    have found := strrchr_some.mpr (And.intro (Eq.refl (host ++ ':' :: (blanks ++ (text ++ digits)))) (no_colon spaces stands all))
    have ended : Ends [] := fun c none => nomatch none
    have reads := number_eq spaces stands someDigits all ended
    rw [List.append_nil] at reads
    have nonempty : blanks ++ (text ++ digits) ≠ [] := by simp [someDigits]
    have port : strtoul (blanks ++ (text ++ digits)) = (toUnsignedLong (neg,Nat.ofDigitChars 10 digits 0),[]) := by rw [strtoul,reads]
    unfold parseBindSpec
    rw [found]
    simp only [port,some,nonempty,nonempty.symm,not_lt.mpr small,or_self,if_false,ne_eq,not_true]

/-- What is not accepted leaves a message and the outputs. -/
theorem accepted_or_not (spec : List Char) (out : Outputs) :
    (∃ given, parseBindSpec spec out = (none,given)) ∨ ∃ message, parseBindSpec spec out = (some message,out) := by
  unfold parseBindSpec
  split
  case h_1 => exact .inr ⟨_,rfl⟩
  case h_2 =>
    dsimp only
    split_ifs
    · exact .inr ⟨_,rfl⟩
    · exact .inr ⟨_,rfl⟩
    · exact .inr ⟨_,rfl⟩
    · exact .inl ⟨_,rfl⟩

/-- The port of an address is what follows its last colon. -/
theorem written_digits {host after other : List Char} {port : Nat} (absent : ':' ∉ after)
    (written : Written (host ++ ':' :: after) other port) : other = host ∧ ∀ c ∈ after, c.isDigit = true := by
  obtain ⟨digits,split,-,-,all,-⟩ := written
  have last : ':' ∉ digits := fun member => absurd (all _ member) (by decide)
  have one := strrchr_some.mpr (And.intro (Eq.refl (host ++ ':' :: after)) absent)
  rw [strrchr_some.mpr ⟨split,last⟩] at one
  cases one
  exact ⟨rfl,all⟩

/-- The function does what it should of an address exactly if no blanks or sign stand before the number of its port. -/
theorem addressed_iff (spec : List Char) : Law spec ↔ ¬ Stretched spec := by
  constructor
  · rintro law ⟨host,blanks,text,digits,neg,rfl,some,spaces,stands,before,someDigits,all,small⟩
    have none : ∀ other port, ¬ Written (host ++ ':' :: (blanks ++ (text ++ digits))) other port := by
      intro other port written
      obtain ⟨-,allDigits⟩ := written_digits (no_colon spaces stands all) written
      obtain ⟨c,member⟩ := List.exists_mem_of_ne_nil _ before
      have digit := allDigits c (by rw [← List.append_assoc]; exact List.mem_append_left _ member)
      rcases List.mem_append.mp member with blank | mark
      · rw [(isspace_not_digit (spaces c blank)).1] at digit
        cases digit
      · obtain ⟨notMinus,notPlus⟩ := digit_not_sign digit
        cases stands with
        | none => cases mark
        | plus => exact notPlus (List.mem_singleton.mp mark)
        | minus => exact notMinus (List.mem_singleton.mp mark)
    obtain ⟨message,rejected⟩ := (law ⟨[],0⟩).2 none
    have accepted := (accepted_iff _ ⟨[],0⟩ _).mpr
      ⟨host,blanks,text,digits,neg,rfl,some,spaces,stands,someDigits,all,toUnsignedLong_small.mpr small,rfl⟩
    rw [rejected] at accepted
    cases accepted
  · intro plain out
    constructor
    · rintro host port ⟨digits,rfl,some,someDigits,all,rfl,small⟩
      have value : toUnsignedLong (false,Nat.ofDigitChars 10 digits 0) = Nat.ofDigitChars 10 digits 0 := by
        rw [toUnsignedLong,if_neg (by simp only; omega)]
        rfl
      have same : host ++ ':' :: digits = host ++ ':' :: ([] ++ ([] ++ digits)) := rfl
      refine (accepted_iff _ _ _).mpr ⟨host,[],[],digits,false,same,some,?_,.none,someDigits,all,?_,?_⟩
      · exact fun _ member => nomatch member
      · rw [value]
        exact small
      · rw [value]
    · intro none
      rcases accepted_or_not spec out with ⟨given,accepted⟩ | rejected
      · obtain ⟨host,blanks,text,digits,neg,rfl,some,spaces,stands,someDigits,all,small,-⟩ := (accepted_iff _ _ _).mp accepted
        rw [toUnsignedLong_small] at small
        by_cases before : blanks ++ text = []
        · obtain ⟨rfl,rfl⟩ := List.append_eq_nil_iff.mp before
          cases stands with
          | none => exact absurd ⟨digits,rfl,some,someDigits,all,rfl,small⟩ (none host _)
        · exact absurd ⟨host,blanks,text,digits,neg,rfl,some,spaces,stands,before,someDigits,all,small⟩ plain
      · exact rejected

/-- A blank before the port is accepted. -/
theorem blank_accepted : ¬ Law "h: 80".toList := by
  intro law
  obtain ⟨message,rejected⟩ := (law ⟨[],0⟩).2 (by
    intro host port written
    have split : "h: 80".toList = ['h'] ++ ':' :: [' ','8','0'] := rfl
    rw [split] at written
    exact absurd ((written_digits (by decide) written).2 ' ' (by decide)) (by decide))
  have accepted : (parseBindSpec "h: 80".toList ⟨[],0⟩).1 = none := by decide +kernel
  rw [rejected] at accepted
  cases accepted

end Starter.Binding
