import Mathlib.Data.List.MinMax
import Starter.Printing

/-!
The history of values in the database, as `lib/mysql-client.c` writes and reads it, and what
`register_ready_client` (`src/mdns.c`) adds to it. A value goes out with six decimals, and rows
are told apart by their milliseconds.
-/
namespace Starter.StoredValues
open Gdouble FiniteGdouble Lexer Printing Lib.Decimals

section
variable {α : Type} [FiniteGdouble α]

/-- `ST_INVALID_VALUE`. -/
def stInvalidValue : α := dblMax

/-- A row of the table `history`; the columns `source` and `flags` are not read again. -/
structure Row (α : Type) where
  timestamp : Nat
  label : String
  value : α

/-- What the server makes of a value in a statement. Words such as `inf` and `nan` name columns that do not exist. -/
def literalValue (text : List Char) : Option ℚ := if isNumber text then some (atof text) else none

/-- `st_mysql_client_store_history`: its result, and the table after it. The column keeps the double nearest to the number. -/
def storeHistory (history : List (Row α)) (now : Nat) (name : String) (value : α) : Bool × List (Row α) :=
  match literalValue (printfLf value) with
  | some number => (true,history ++ [⟨now,name,ofRat number⟩])
  | none => (false,history)

/-- The row may be the one that is selected by `ORDER BY timestamp DESC LIMIT 1`. -/
def Latest (history : List (Row α)) (name : String) (row : Row α) : Prop :=
  row ∈ history ∧ row.label = name ∧ ∀ other ∈ history, other.label = name → other.timestamp ≤ row.timestamp

/-- `st_mysql_client_get_last_history_value` may return the value; `column` is the text that the server sends for a double. -/
inductive GetLastHistoryValue (column : α → List Char) (history : List (Row α)) (name : String) : α → Prop
  | row {row : Row α} (latest : Latest history name row) :
    GetLastHistoryValue column history name (ofRat (atof (column row.value)))
  | none (absent : ∀ row ∈ history, row.label ≠ name) : GetLastHistoryValue column history name stInvalidValue

/-- What `register_ready_client` does with the value of an input or an output, once it has read the last one. -/
def registerReadyIo (history : List (Row α)) (now : Nat) (name : String) (val : α) (flags : IoFlags) (dbVal : α) : List (Row α) :=
  if hasFlag flags stIoFlagNoHistory then history
  else if eq dbVal val then history
  else (storeHistory history now name val).2

/-- A call of `st_mysql_client_store_history`. -/
structure Store (α : Type) where
  time : Nat
  name : String
  value : α

/-- The table after the calls. -/
def stored (stores : List (Store α)) : List (Row α) :=
  stores.foldl (fun history store => (storeHistory history store.time store.name store.value).2) []

/-- The last value that was stored is the one that is read, and when it is registered again no row is added. -/
structure Law (column : α → List Char) (stores : List (Store α)) (last : Store α) : Prop where
  returns : ∀ r, GetLastHistoryValue column (stored stores) last.name r → eq r last.value = true
  registers : ∀ r, GetLastHistoryValue column (stored stores) last.name r → ∀ now val flags, eq val last.value = true →
    registerReadyIo (stored stores) now last.name val flags r = stored stores

/-- The last value is finite, and of the values with its label and its millisecond every one is this value when it is
rounded to six decimals, itself included. -/
def Kept (stores : List (Store α)) (last : Store α) : Prop :=
  isfinite last.value = true ∧ ∀ store ∈ stores, store.name = last.name → store.time = last.time → isfinite store.value = true →
    eq (ofRat (nearestDecimal 6 (toRat store.value))) last.value = true

/-- The call is the last one with its label. -/
def LastStore (stores : List (Store α)) (last : Store α) : Prop :=
  (stores.filter fun store => store.name = last.name).getLast? = some last

/-- The server sends the decimals that it was given so that they are read again. -/
def Shows (column : α → List Char) : Prop :=
  ∀ n : ℤ, isfinite (ofRat (n / 10 ^ 6) : α) = true → (ofRat (atof (column (ofRat (n / 10 ^ 6)))) : α) = ofRat (n / 10 ^ 6)

variable [LawfulFinite α] [LawfulPrinted α] {column : α → List Char} {stores : List (Store α)} {last : Store α}

omit [LawfulFinite α] [LawfulPrinted α] in
theorem isNumber_infinite {x : α} (infinite : isfinite x = false) : isNumber (printfLf x) = false := by
  rw [printfLf,infinite,if_neg Bool.false_ne_true]
  cases signbit x <;> cases isnan x <;> decide +kernel

omit [LawfulFinite α] in
/-- A finite value adds a row, and no other does. -/
theorem storeHistory_rows (history : List (Row α)) (now : Nat) (name : String) (value : α) :
    (storeHistory history now name value).2 = history ++
      if isfinite value then [⟨now,name,ofRat (nearestDecimal 6 (toRat value))⟩] else [] := by
  unfold storeHistory literalValue
  cases finite : isfinite value with
  | true =>
    obtain ⟨number,text⟩ := printfLf_finite finite
    rw [number,text]
    rfl
  | false =>
    rw [isNumber_infinite finite]
    exact (List.append_nil _).symm

omit [LawfulFinite α] in
theorem mem_stored (row : Row α) : row ∈ stored stores ↔ ∃ store ∈ stores, isfinite store.value = true ∧
    row = ⟨store.time,store.name,ofRat (nearestDecimal 6 (toRat store.value))⟩ := by
  have after : ∀ history : List (Row α),
      row ∈ stores.foldl (fun history store => (storeHistory history store.time store.name store.value).2) history ↔
        row ∈ history ∨ ∃ store ∈ stores, isfinite store.value = true ∧
          row = ⟨store.time,store.name,ofRat (nearestDecimal 6 (toRat store.value))⟩ := by
    induction stores with
    | nil => simp
    | cons store rest ih =>
      intro history
      rw [List.foldl_cons,ih,storeHistory_rows,List.mem_append,or_assoc,List.exists_mem_cons_iff]
      refine or_congr_right (or_congr_left ?_)
      cases finite : isfinite store.value <;> simp
  simpa [stored] using after []

omit [LawfulPrinted α] in
/-- The double that a finite value is kept as. -/
theorem finite_stored {x : α} (finite : isfinite x = true) : isfinite (ofRat (nearestDecimal 6 (toRat x)) : α) = true := by
  have largest : ((2 : ℚ) - 1 / 2 ^ 52) * 2 ^ 1023 = (((2 ^ 53 - 1) * 2 ^ 971 * 10 ^ 6 : ℤ) : ℚ) / 10 ^ 6 := by
    have power : (2 : ℚ) ^ (52 + 971) = 2 ^ 52 * 2 ^ 971 := pow_add _ _ _
    rw [show 1023 = 52 + 971 from rfl,power]
    generalize isPower : (2 : ℤ) ^ 971 = m
    have same : (2 : ℚ) ^ 971 = m := by rw [← isPower,Int.cast_pow,Int.cast_ofNat]
    rw [same]
    push_cast
    ring
  have small := LawfulFinite.abs_le_dblMax x finite
  rw [largest] at small
  refine LawfulFinite.finite_ofRat _ ?_
  rw [largest]
  exact nearestDecimal_abs_le small

omit [FiniteGdouble α] [LawfulFinite α] [LawfulPrinted α] in
theorem lastStore_mem (found : LastStore stores last) : last ∈ stores :=
  List.mem_of_mem_filter (List.mem_of_getLast? found)

omit [FiniteGdouble α] [LawfulFinite α] [LawfulPrinted α] in
/-- No call with the label comes later. -/
theorem lastStore_latest (times : stores.Pairwise fun a b => a.time ≤ b.time) (found : LastStore stores last) :
    ∀ store ∈ stores, store.name = last.name → store.time ≤ last.time := by
  intro store member same
  have among : store ∈ stores.filter fun store => store.name = last.name := List.mem_filter.mpr ⟨member,by simpa using same⟩
  have ordered := times.sublist (List.filter_sublist (p := fun store => decide (store.name = last.name)))
  obtain ⟨before,split⟩ := List.getLast?_eq_some_iff.mp found
  rw [split] at among ordered
  rcases List.mem_append.mp among with earlier | itself
  · exact (List.pairwise_append.mp ordered).2.2 store earlier last (List.mem_singleton_self _)
  · rw [List.mem_singleton.mp itself]

omit [LawfulPrinted α] in
/-- What a row is read as. -/
theorem read_back (shows : Shows column) {x : α} (finite : isfinite x = true) :
    (ofRat (atof (column (ofRat (nearestDecimal 6 (toRat x))))) : α) = ofRat (nearestDecimal 6 (toRat x)) :=
  shows _ (finite_stored finite)

omit [LawfulFinite α] [LawfulPrinted α] in
/-- Among the rows of a label there is always a latest one. -/
theorem getLast_exists (column : α → List Char) (history : List (Row α)) (name : String) :
    ∃ r, GetLastHistoryValue column history name r := by
  by_cases absent : ∀ row ∈ history, row.label ≠ name
  · exact ⟨_,.none absent⟩
  · push Not at absent
    obtain ⟨row,member,labelled⟩ := absent
    cases newest : (history.filter fun row => row.label = name).argmax Row.timestamp with
    | none =>
      have among : row ∈ history.filter fun row => row.label = name := List.mem_filter.mpr ⟨member,by simpa using labelled⟩
      rw [List.argmax_eq_none.mp newest] at among
      cases among
    | some first =>
      obtain ⟨among,same⟩ := List.mem_filter.mp (List.argmax_mem newest)
      refine ⟨_,.row ⟨among,by simpa using same,fun other inside name => ?_⟩⟩
      exact List.le_of_mem_argmax (List.mem_filter.mpr ⟨inside,by simpa using name⟩) newest

/-- The history returns the last value that was stored with a label, and takes it no second time, exactly if it is one of six
decimals and no other value was stored in its millisecond. -/
theorem last_stored_iff (times : stores.Pairwise fun a b => a.time ≤ b.time) (found : LastStore stores last) (shows : Shows column) :
    Law column stores last ↔ Kept stores last := by
  have lastMember := lastStore_mem found
  have latest := lastStore_latest times found
  -- A finite value of the last millisecond may be the one that is read.
  have reads : ∀ store ∈ stores, store.name = last.name → store.time = last.time → isfinite store.value = true →
      GetLastHistoryValue column (stored stores) last.name (ofRat (nearestDecimal 6 (toRat store.value))) := by
    intro store member same now finite
    have newest : Latest (stored stores) last.name ⟨store.time,store.name,ofRat (nearestDecimal 6 (toRat store.value))⟩ := by
      refine ⟨(mem_stored _).mpr ⟨store,member,finite,rfl⟩,same,fun other among labelled => ?_⟩
      obtain ⟨earlier,inside,-,rfl⟩ := (mem_stored other).mp among
      exact (latest earlier inside labelled).trans now.ge
    rw [← read_back shows finite]
    exact .row newest
  constructor
  · intro law
    have lastFinite : isfinite last.value = true := by
      obtain ⟨r,read⟩ := getLast_exists column (stored stores) last.name
      have same := LawfulFinite.eq_finite _ _ (law.returns r read)
      rw [← same]
      cases read with
      | row latest =>
        obtain ⟨store,-,finite,rfl⟩ := (mem_stored _).mp latest.1
        rw [read_back shows finite]
        exact finite_stored finite
      | none => exact LawfulFinite.dblMax_finite
    exact ⟨lastFinite,fun store member same now finite => law.returns _ (reads store member same now finite)⟩
  · rintro ⟨lastFinite,each⟩
    have returns : ∀ r, GetLastHistoryValue column (stored stores) last.name r → eq r last.value = true := by
      intro r read
      cases read with
      | none absent => exact absurd rfl (absent _ ((mem_stored _).mpr ⟨last,lastMember,lastFinite,rfl⟩))
      | row newest =>
        obtain ⟨member,labelled,newest⟩ := newest
        obtain ⟨store,among,finite,rfl⟩ := (mem_stored _).mp member
        have after := newest _ ((mem_stored _).mpr ⟨last,lastMember,lastFinite,rfl⟩) rfl
        rw [read_back shows finite]
        exact each store among labelled (le_antisymm (latest store among labelled) after) finite
    refine ⟨returns,fun r read now val flags same => ?_⟩
    unfold registerReadyIo
    split
    · rfl
    · rw [if_pos (LawfulFinite.eq_of_eq lastFinite (returns r read) same)]

end

/-- The shortest decimal of the number that is stored here. -/
private def shownValue (x : ℚ) : List Char := if x = 3 / 2 then "1.5".toList else printfLf x

private theorem shows_shownValue : Shows shownValue := by
  intro n finite
  rw [shownValue]
  split
  case isTrue same =>
    have value : atof "1.5".toList = 3 / 2 := by decide +kernel
    rw [value]
    exact same.symm
  case isFalse => exact (printfLf_reads rfl finite).2

/-- Two labels; the last two values of `lamp` are of one millisecond and the same in six decimals. -/
private def lampStores : List (Store ℚ) :=
  [⟨3,"door",1⟩,⟨3,"lamp",2⟩,⟨4,"lamp",1 / 4⟩,⟨5,"lamp",3 / 2 + 1 / 10 ^ 7⟩,⟨5,"lamp",3 / 2⟩,⟨6,"door",0⟩]

theorem last_stored_iff_lamp : Law shownValue lampStores ⟨5,"lamp",3 / 2⟩ := by
  have times : lampStores.Pairwise fun a b => a.time ≤ b.time := by decide
  have found : LastStore lampStores ⟨5,"lamp",3 / 2⟩ := by rfl
  refine (last_stored_iff times found shows_shownValue).mpr ⟨by decide +kernel,?_⟩
  decide +kernel

/-- A value of more than six decimals is read as another one. -/
theorem small_value_lost : ¬ Law shownValue [⟨5,"lamp",1 / 10 ^ 7⟩] (⟨5,"lamp",1 / 10 ^ 7⟩ : Store ℚ) := by
  intro law
  have latest : Latest (stored [⟨5,"lamp",1 / 10 ^ 7⟩]) "lamp" (⟨5,"lamp",ofRat (nearestDecimal 6 (1 / 10 ^ 7))⟩ : Row ℚ) := by
    refine ⟨(mem_stored _).mpr ⟨_,List.mem_singleton_self _,by decide +kernel,rfl⟩,rfl,fun other member _ => ?_⟩
    obtain ⟨store,among,-,rfl⟩ := (mem_stored other).mp member
    rw [List.mem_singleton.mp among]
  exact absurd (law.returns _ (.row latest)) (by decide +kernel)

end Starter.StoredValues
