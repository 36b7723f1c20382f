import Mathlib.Data.List.TakeWhile
import Mathlib.Tactic.IntervalCases
import Starter.Calls
import Starter.Finite
import Starter.Lib.Decimals

/-!
The text of expressions and rules: `expr_describe` (`src/expr.c`) and `assign_format_conf`,
`label_entry_format_conf` and `trigger_format_conf` (`src/engine.c`). A number is written
with six decimals, and the lexer reads back what was written.
-/
namespace Starter.Printing
open Gdouble FiniteGdouble Expressions Rules Syntax Lexer Lib.Decimals

/-- What the format guarantees: numbers are rounded to a nearest one, the sign bit is the
    sign of what is not zero, and a finite number is equal to itself. -/
class LawfulPrinted (α : Type) [FiniteGdouble α] : Prop where
  rounds : Rounds (ofRat : ℚ → α) toRat fun x => isfinite x = true
  negative : ∀ x : α, isfinite x = true → toRat x < 0 → signbit x = true
  positive : ∀ x : α, isfinite x = true → 0 < toRat x → signbit x = false
  eq_self : ∀ x : α, isfinite x = true → Gdouble.eq x x = true

instance : LawfulPrinted ℚ where
  rounds := rounds_exact _
  negative _ _ below := decide_eq_true below
  positive _ _ above := decide_eq_false (not_lt.mpr above.le)
  eq_self _ _ := decide_eq_true rfl

/-- The last `k` digits of a number, with the zeros before them. -/
def lastDigits : Nat → Nat → List Char
  | 0, _ => []
  | k+1, n => lastDigits k (n / 10) ++ [Nat.digitChar (n % 10)]

/-- A number of millionths. -/
def millionths (n : Nat) : List Char := Nat.toDigits 10 (n / 10 ^ 6) ++ '.' :: lastDigits 6 (n % 10 ^ 6)

/-- `printf` with `%lf`. -/
def printfLf {α : Type} [FiniteGdouble α] (x : α) : List Char :=
  (if signbit x then ['-'] else []) ++
    if isfinite x then millionths (nearestEven (toRat x * 10 ^ 6)).natAbs
    else if isnan x then "nan".toList
    else "inf".toList

/-- `data.op`. -/
def opText : Op → List Char
  | .eq => "==".toList
  | .ne => "!=".toList
  | .lt => "<".toList
  | .le => "<=".toList
  | .gt => ">".toList
  | .ge => ">=".toList
  | .and => "&&".toList
  | .or => "||".toList
  | .add => "+".toList
  | .sub => "-".toList
  | .mul => "*".toList
  | .div => "/".toList

/-- `data.func.id`. -/
def funcId : Func → String
  | .min => "MIN"
  | .max => "MAX"
  | .round => "ROUND"
  | .limit => "LIMIT"
  | .eval => "EVAL"
  | .changed => "CHANGED"

/-- Texts with `, ` before each but the first one. -/
def commas : List (List Char) → List Char
  | [] => []
  | first :: rest => first ++ rest.flatMap fun text => ", ".toList ++ text

section
variable {α : Type} [FiniteGdouble α]

mutual
/-- The callbacks `describe`, on a tree as it stands in memory. -/
def describe : Expr α → List Char
  | .literal v => printfLf v
  | .op o left right =>
    "(".toList ++ (describe left ++ (") ".toList ++ (opText o ++ (" (".toList ++ (describe right ++ ")".toList)))))
  | .ref id => id.toList
  | .func _ func args => (funcId func).toList ++ ("(".toList ++ (commas (describeAll args) ++ ")".toList))
  | .flag id bit => id.toList ++ (" FLAG ".toList ++ (stIoFlagBitName bit).toList)

def describeAll : List (Expr α) → List (List Char)
  | [] => []
  | e :: es => describe e :: describeAll es
end

/-- `expr_describe`. -/
def exprDescribe (m : Mem α) (e : Expr α) : List Char := describe (current m e)

/-- `assign_format_conf`. -/
def assignFormatConf (m : Mem α) (self : Assign α) : List Char :=
  if self.flagBit ≠ 0 then
    self.id.toList ++ (" FLAG ".toList ++ ((stIoFlagBitName self.flagBit).toList ++ (" = ".toList ++ exprDescribe m self.rval)))
  else self.id.toList ++ (" = ".toList ++ exprDescribe m self.rval)

/-- `label_entry_format_conf`. -/
def labelEntryFormatConf (m : Mem α) (self : LabelEntry α) : List Char :=
  "SET ".toList ++ (exprDescribe m self.ass.rval ++ (" WHEN ".toList ++ exprDescribe m self.cond))

/-- `trigger_format_conf`. -/
def triggerFormatConf (m : Mem α) (self : Trigger α) : List Char :=
  "TRIGGER WHEN ".toList ++ (exprDescribe m self.cond ++ (" SET ".toList ++ commas (self.ass.map (assignFormatConf m))))

end

example : printfLf (-(5 / 2) : ℚ) = "-2.500000".toList := by decide +kernel

theorem digitsValue_eq (digits : List Char) : digitsValue digits = (Nat.ofDigitChars 10 digits 0 : ℕ) := by
  induction digits using List.reverseRecOn with
  | nil => rfl
  | append_singleton digits c ih =>
    rw [Nat.ofDigitChars_append,Nat.ofDigitChars_cons,Nat.ofDigitChars_nil,digitsValue,List.foldl_append]
    simp only [List.foldl_cons,List.foldl_nil]
    rw [show List.foldl _ _ digits = digitsValue digits from rfl,ih]
    push_cast
    rfl

theorem isDigit_digitChar {n : Nat} (small : n < 10) : isDigit (Nat.digitChar n) = true := by
  interval_cases n <;> decide

theorem lastDigits_spec (k n : Nat) :
    (lastDigits k n).length = k ∧ (∀ c ∈ lastDigits k n, isDigit c = true) ∧ Nat.ofDigitChars 10 (lastDigits k n) 0 = n % 10 ^ k := by
  induction k generalizing n with
  | zero => simp [lastDigits,Nat.mod_one]
  | succ k ih =>
    obtain ⟨length,digits,value⟩ := ih (n / 10)
    have small : n % 10 < 10 := Nat.mod_lt n (by decide)
    refine ⟨by simp [lastDigits,length],?_,?_⟩
    · intro c member
      rcases List.mem_append.mp member with before | last
      · exact digits c before
      · obtain rfl := List.mem_singleton.mp last
        exact isDigit_digitChar small
    · rw [lastDigits,Nat.ofDigitChars_append,Nat.ofDigitChars_cons_digitChar_of_lt_ten small,Nat.ofDigitChars_nil,value,Nat.pow_succ']
      rw [Nat.mod_mul]
      omega

theorem isDigit_toDigits (n : Nat) : ∀ c ∈ Nat.toDigits 10 n, isDigit c = true := by
  intro c member
  have digit := Nat.isDigit_of_mem_toDigits (by decide) (by decide) member
  simp only [Char.isDigit,Bool.and_eq_true,decide_eq_true_eq,ge_iff_le,UInt32.le_iff_toNat_le] at digit
  exact (isDigit_iff c).mpr digit

theorem numberFrom_whole {digits : List Char} (all : ∀ c ∈ digits, isDigit c = true) (rest : List Char) :
    numberFrom .whole (digits ++ rest) = numberFrom .whole rest := by
  induction digits with
  | nil => rfl
  | cons c digits ih =>
    rw [List.forall_mem_cons] at all
    simp only [List.cons_append,numberFrom,NumberState.next,all.1,if_true]
    exact ih all.2

theorem numberFrom_fraction {digits : List Char} (all : ∀ c ∈ digits, isDigit c = true) : numberFrom .fraction digits = true := by
  induction digits with
  | nil => rfl
  | cons c digits ih =>
    rw [List.forall_mem_cons] at all
    simp only [numberFrom,NumberState.next,all.1,if_true]
    exact ih all.2

theorem isDigit_plain {c : Char} (digit : isDigit c = true) : isSign c = false ∧ c ≠ '.' := by
  obtain ⟨_,isDig,isSig,point,_⟩ := charClass_eq c
  have kind := isDig.mp digit
  rw [Bool.eq_false_iff,ne_eq,isSig,ne_eq,point,kind]
  exact ⟨by decide,by decide⟩

/-- What is printed of a number: digits, a point and six digits. -/
theorem millionths_shape (n : Nat) : ∃ d whole fraction, millionths n = d :: (whole ++ '.' :: fraction) ∧
    (∀ c ∈ d :: whole, isDigit c = true) ∧ (∀ c ∈ fraction, isDigit c = true) ∧ fraction.length = 6 ∧
    digitsValue (d :: whole) + digitsValue fraction / 10 ^ 6 = n / 10 ^ 6 := by
  obtain ⟨length,digits,value⟩ := lastDigits_spec 6 (n % 10 ^ 6)
  have wholes := isDigit_toDigits (n / 10 ^ 6)
  cases isWhole : Nat.toDigits 10 (n / 10 ^ 6) with
  | nil => exact absurd isWhole Nat.toDigits_ne_nil
  | cons d whole =>
    rw [isWhole] at wholes
    refine ⟨d,whole,lastDigits 6 (n % 10 ^ 6),?_,wholes,digits,length,?_⟩
    · rw [millionths,isWhole]
      rfl
    · rw [digitsValue_eq,digitsValue_eq,value,← isWhole,Nat.ofDigitChars_ten_toDigits,Nat.mod_mod]
      have parts : ((10 ^ 6 * (n / 10 ^ 6) + n % 10 ^ 6 : ℕ) : ℚ) = n := by rw [Nat.div_add_mod]
      push_cast at parts ⊢
      field_simp
      linarith

theorem takeWhile_digits {digits : List Char} (all : ∀ c ∈ digits, isDigit c = true) (rest : List Char) :
    (digits ++ '.' :: rest).takeWhile isDigit = digits ∧ (digits ++ '.' :: rest).dropWhile isDigit = '.' :: rest := by
  have point : isDigit '.' = false := by decide
  constructor
  · rw [List.takeWhile_append_of_pos all,List.takeWhile_cons_of_neg (by simp [point]),List.append_nil]
  · rw [List.dropWhile_append_of_pos all,List.dropWhile_cons_of_neg (by simp [point])]

/-- Such a number is read back. -/
theorem unsignedValue_millionths (n : Nat) : unsignedValue (millionths n) = n / 10 ^ 6 := by
  obtain ⟨d,whole,fraction,shape,wholes,digits,length,value⟩ := millionths_shape n
  obtain ⟨taken,dropped⟩ := takeWhile_digits wholes fraction
  have all : fraction.takeWhile isDigit = fraction := List.takeWhile_eq_self_iff.mpr digits
  have none : fraction.dropWhile isDigit = [] := List.dropWhile_eq_nil_iff.mpr digits
  rw [shape,← List.cons_append,unsignedValue,taken,dropped]
  simp only [List.head?_cons,if_true,List.tail_cons,all,none,mul_one,length]
  exact value

theorem isNumber_millionths (n : Nat) (sign : Bool) : isNumber ((if sign then ['-'] else []) ++ millionths n) = true := by
  obtain ⟨d,whole,fraction,shape,wholes,digits,length,_⟩ := millionths_shape n
  rw [List.forall_mem_cons] at wholes
  obtain ⟨notSign,_⟩ := isDigit_plain wholes.1
  have rest : numberFrom .whole (whole ++ '.' :: fraction) = true := by
    rw [numberFrom_whole wholes.2]
    cases fraction with
    | nil => cases length
    | cons c fraction =>
      rw [List.forall_mem_cons] at digits
      have point : isDigit '.' = false := by decide
      simp only [numberFrom,NumberState.next,point,digits.1]
      simpa using numberFrom_fraction digits.2
  rw [shape]
  cases sign with
  | false => simpa [isNumber,numberFrom,NumberState.next,notSign,wholes.1] using rest
  | true =>
    have minus : isSign '-' = true := by decide
    simpa [isNumber,numberFrom,NumberState.next,minus,wholes.1] using rest

section
variable {α : Type} [FiniteGdouble α] [LawfulPrinted α] {x : α}

/-- What is printed of a finite number is the nearest decimal. -/
theorem printfLf_finite (finite : isfinite x = true) :
    isNumber (printfLf x) = true ∧ atof (printfLf x) = nearestDecimal 6 (toRat x) := by
  rw [printfLf,finite,if_pos rfl]
  refine ⟨isNumber_millionths _ _,?_⟩
  have abs : ((nearestEven (toRat x * 10 ^ 6)).natAbs : ℚ) = |(nearestEven (toRat x * 10 ^ 6) : ℚ)| := by
    rw [← Int.cast_abs,Nat.cast_natAbs]
  cases sign : signbit x with
  | true =>
    have le : toRat x ≤ 0 := by
      by_contra above
      rw [LawfulPrinted.positive x finite (not_le.mp above)] at sign
      cases sign
    have below : nearestEven (toRat x * 10 ^ 6) ≤ 0 := by
      rcases le.lt_or_eq with negative | zero
      · exact nearestEven_nonpos (by linarith)
      · rw [zero,zero_mul]
        exact_mod_cast (nearestEven_int 0).le
    rw [if_pos rfl]
    change -unsignedValue (millionths _) = _
    rw [unsignedValue_millionths,abs,abs_of_nonpos (by exact_mod_cast below),nearestDecimal]
    ring
  | false =>
    have ge : 0 ≤ toRat x := by
      by_contra below
      rw [LawfulPrinted.negative x finite (not_le.mp below)] at sign
      cases sign
    have above : 0 ≤ nearestEven (toRat x * 10 ^ 6) := nearestEven_nonneg (by linarith)
    obtain ⟨d,whole,fraction,shape,wholes,_⟩ := millionths_shape (nearestEven (toRat x * 10 ^ 6)).natAbs
    obtain ⟨notSign,_⟩ := isDigit_plain (wholes d List.mem_cons_self)
    have value := unsignedValue_millionths (nearestEven (toRat x * 10 ^ 6)).natAbs
    rw [abs,abs_of_nonneg (by exact_mod_cast above)] at value
    rw [if_neg (by decide),List.nil_append,nearestDecimal,← value,shape]
    unfold atof
    split
    case h_1 same =>
      cases same
      exact absurd notSign (by decide)
    case h_2 same =>
      cases same
      exact absurd notSign (by decide)
    case h_3 => rfl

/-- A number with six decimals is written as a word that the lexer reads back. -/
theorem printfLf_reads {n : ℤ} (same : x = ofRat (n / 10 ^ 6)) (finite : isfinite x = true) :
    isNumber (printfLf x) = true ∧ (ofRat (atof (printfLf x)) : α) = x := by
  obtain ⟨number,value⟩ := printfLf_finite finite
  subst same
  refine ⟨number,?_⟩
  rw [value]
  exact LawfulPrinted.rounds.reads n finite

end

end Starter.Printing
