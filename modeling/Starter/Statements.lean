import Starter.Lib.Literals
import Starter.Methods
import Starter.Printing

/-!
The statements that `lib/mysql-client.c` sends to the database. Strings are put into quotes as
they are.
-/
namespace Starter.Statements
open Gdouble FiniteGdouble Objects Methods Printing Lib.Literals

/-- `DB_NAME`. -/
def dbName : List Char := "STARTER".toList

/-- `printf` with `%u` and `PRIu64`. -/
def printfU (n : Nat) : List Char := Nat.toDigits 10 n

section
variable {α : Type} [FiniteGdouble α]

/-- `st_mysql_client_store_input_label` and `st_mysql_client_store_output_label`, which differ in the type. -/
def storeLabel (type : String) (self : IoObject α) : List Part :=
  let unit := printfU (self.unit % 2 ^ 32).toNat
  [.text ("INSERT INTO ".toList ++ (dbName ++ ".labels (name,description,type,unit,min,max,step)  VALUES (".toList)),
    .quoted self.name.toList, .text ",".toList, .quoted self.descr.toList, .text ",".toList, .quoted type.toList,
    .text [",".toList,unit,",".toList,printfLf self.min,",".toList,printfLf self.max,",".toList,printfLf self.step,
      ") ON DUPLICATE KEY UPDATE description = ".toList].flatten,
    .quoted self.descr.toList, .text ", type = ".toList, .quoted type.toList,
    .text [", unit = ".toList,unit,", min = ".toList,printfLf self.min,", max = ".toList,printfLf self.max,", step = ".toList,
      printfLf self.step,";".toList].flatten]

def storeInputLabel : IoObject α → List Part := storeLabel "STInput"
def storeOutputLabel : IoObject α → List Part := storeLabel "STOutput"

/-- `st_mysql_client_store_history`. -/
def storeHistory (source name : String) (value : α) (flags : IoFlags) : List Part :=
  [.text ("INSERT INTO ".toList ++ (dbName ++ ".history (source,label_id,value,flags) VALUES(".toList)), .quoted source.toList,
    .text ",(SELECT id FROM labels WHERE name=".toList, .quoted name.toList,
    .text ["),".toList,printfLf value,",".toList,printfU flags.toNat,");".toList].flatten]

/-- `st_mysql_client_get_last_history_value`. -/
def getLastHistoryValue (name : String) : List Part :=
  [.text ["SELECT value FROM ".toList,dbName,".history WHERE label_id=(SELECT id FROM ".toList,dbName,".labels WHERE name=".toList].flatten,
    .quoted name.toList, .text ") ORDER BY timestamp DESC LIMIT 1;".toList]

def entryValues (entry : StatsEntry α) : List Char :=
  ["  ".toList,printfLf entry.min,",".toList,printfLf entry.max,",".toList,printfLf entry.last].flatten

/-- `st_mysql_client_store_stats`. -/
def storeStats (stats : Stats α) : List Part :=
  [.text ["INSERT INTO ".toList,dbName,".stats (service_name, ".toList,
      "  vmsize_min,vmsize_max,vmsize_last, ".toList,
      "  vmrss_min,vmrss_max,vmrss_last, ".toList,
      "  vmswap_min,vmswap_max,vmswap_last, ".toList,
      "  io_read_min,io_read_max,io_read_last, ".toList,
      "  io_write_min,io_write_max,io_write_last, ".toList,
      "  cpu_min,cpu_max,cpu_last, ".toList,
      "  icswitch_min,icswitch_max,icswitch_last, ".toList,
      "  priority_min,priority_max,priority_last, ".toList,
      "  threads_min,threads_max,threads_last) ".toList,
      "VALUES(".toList].flatten,
    .quoted stats.name.toList,
    .text [", ".toList,
      entryValues stats.vmsize,", ".toList,entryValues stats.vmrss,", ".toList,entryValues stats.vmswap,", ".toList,
      entryValues stats.ioRead,", ".toList,entryValues stats.ioWrite,", ".toList,entryValues stats.cpu,", ".toList,
      entryValues stats.icswitch,", ".toList,entryValues stats.priority,", ".toList,entryValues stats.threads,") ".toList,
      "ON DUPLICATE KEY UPDATE ".toList,
      "  updated_at=NOW(), ".toList,
      "  vmsize_min=VALUES(vmsize_min), vmsize_max=VALUES(vmsize_max), vmsize_last=VALUES(vmsize_last), ".toList,
      "  vmrss_min=VALUES(vmrss_min), vmrss_max=VALUES(vmrss_max), vmrss_last=VALUES(vmrss_last), ".toList,
      "  vmswap_min=VALUES(vmswap_min), vmswap_max=VALUES(vmswap_max), vmswap_last=VALUES(vmswap_last), ".toList,
      "  io_read_min=VALUES(io_read_min), io_read_max=VALUES(io_read_max), io_read_last=VALUES(io_read_last), ".toList,
      "  io_write_min=VALUES(io_write_min), io_write_max=VALUES(io_write_max), io_write_last=VALUES(io_write_last), ".toList,
      "  cpu_min=VALUES(cpu_min), cpu_max=VALUES(cpu_max), cpu_last=VALUES(cpu_last), ".toList,
      "  icswitch_min=VALUES(icswitch_min), icswitch_max=VALUES(icswitch_max), icswitch_last=VALUES(icswitch_last), ".toList,
      "  priority_min=VALUES(priority_min), priority_max=VALUES(priority_max), priority_last=VALUES(priority_last), ".toList,
      "  threads_min=VALUES(threads_min), threads_max=VALUES(threads_max), threads_last=VALUES(threads_last);".toList].flatten]

/-- The calls that send a statement. -/
inductive Statement (α : Type)
  | inputLabel (input : IoObject α)
  | outputLabel (output : IoObject α)
  | history (source name : String) (value : α) (flags : IoFlags)
  | lastHistory (name : String)
  | stats (stats : Stats α)

def Statement.parts : Statement α → List Part
  | .inputLabel input => storeInputLabel input
  | .outputLabel output => storeOutputLabel output
  | .history source name value flags => storeHistory source name value flags
  | .lastHistory name => getLastHistoryValue name
  | .stats given => storeStats given

/-- The strings that are given. -/
def Statement.strings : Statement α → List String
  | .inputLabel input => [input.name,input.descr]
  | .outputLabel output => [output.name,output.descr]
  | .history source name _ _ => [source,name]
  | .lastHistory name => [name]
  | .stats given => [given.name]

/-! ## Text without quotes -/

def Quoteless (s : List Char) : Prop := ∀ c ∈ s, c ≠ '\'' ∧ c ≠ '"'

instance (s : List Char) : Decidable (Quoteless s) :=
  decidable_of_iff (s.all (fun c => decide (c ≠ '\'' ∧ c ≠ '"')) = true) (by simp [Quoteless])

theorem quoteless_append {s t : List Char} (one : Quoteless s) (two : Quoteless t) : Quoteless (s ++ t) := fun c member =>
  (List.mem_append.mp member).elim (one c) (two c)

theorem quoteless_flatten {texts : List (List Char)} (each : ∀ s ∈ texts, Quoteless s) : Quoteless texts.flatten := by
  intro c member
  obtain ⟨s,among,inside⟩ := List.mem_flatten.mp member
  exact each s among c inside

theorem quoteless_digits {s : List Char} (digits : ∀ c ∈ s, Lexer.isDigit c = true) : Quoteless s := by
  intro c member
  constructor <;> (rintro rfl; exact absurd (digits _ member) (by decide))

theorem quoteless_printfU (n : Nat) : Quoteless (printfU n) := quoteless_digits (isDigit_toDigits n)

theorem quoteless_printfLf (x : α) : Quoteless (printfLf x) := by
  refine quoteless_append ?_ ?_
  · split <;> decide
  · split
    · refine quoteless_append (quoteless_digits (isDigit_toDigits _)) fun c member => ?_
      rcases List.mem_cons.mp member with rfl | digit
      · decide
      · exact quoteless_digits (lastDigits_spec 6 _).2.1 c digit
    · split <;> decide

/-- A string literal is decided on its characters. -/
theorem quoteless_ofList {s : List Char} (quoteless : Quoteless s) : Quoteless (String.ofList s).toList := by
  rwa [String.toList_ofList]

theorem literal_ne_nil {s : List Char} (some : s ≠ []) : (String.ofList s).toList ≠ [] := by rwa [String.toList_ofList]

theorem flatten_ne_nil {s : List Char} {texts : List (List Char)} (some : s ≠ []) : (s :: texts).flatten ≠ [] := by
  simp [some]

theorem quoteless_dbName : Quoteless dbName := quoteless_ofList (by decide)

theorem quoteless_entry (entry : StatsEntry α) : Quoteless (entryValues entry) := by
  refine quoteless_flatten ?_
  simp only [List.forall_mem_cons]
  refine ⟨?_,quoteless_printfLf _,?_,quoteless_printfLf _,?_,quoteless_printfLf _,fun _ member => nomatch member⟩ <;>
    exact quoteless_ofList (by decide)

theorem fine_storeLabel (type : String) (self : IoObject α) : Fine (storeLabel type self) := by
  refine ⟨quoteless_append ?_ (quoteless_append quoteless_dbName ?_),⟨_,_,literal_ne_nil (by simp),rfl⟩,?_,
    ⟨_,_,literal_ne_nil (by simp),rfl⟩,?_,⟨_,_,flatten_ne_nil (literal_ne_nil (by simp)),rfl⟩,quoteless_flatten ?_,
    ⟨_,_,literal_ne_nil (by simp),rfl⟩,?_,⟨_,_,flatten_ne_nil (literal_ne_nil (by simp)),rfl⟩,quoteless_flatten ?_,trivial⟩
  case refine_5 | refine_7 =>
    simp only [List.forall_mem_cons]
    refine ⟨?_,quoteless_printfU _,?_,quoteless_printfLf _,?_,quoteless_printfLf _,?_,quoteless_printfLf _,?_,
      fun _ member => nomatch member⟩ <;> exact quoteless_ofList (by decide)
  all_goals exact quoteless_ofList (by decide)

theorem fine_storeHistory (source name : String) (value : α) (flags : IoFlags) : Fine (storeHistory source name value flags) := by
  refine ⟨quoteless_append ?_ (quoteless_append quoteless_dbName ?_),⟨_,_,literal_ne_nil (by simp),rfl⟩,?_,
    ⟨_,_,flatten_ne_nil (literal_ne_nil (by simp)),rfl⟩,quoteless_flatten ?_,trivial⟩
  case refine_4 =>
    simp only [List.forall_mem_cons]
    refine ⟨?_,quoteless_printfLf _,?_,quoteless_printfU _,?_,fun _ member => nomatch member⟩ <;>
      exact quoteless_ofList (by decide)
  all_goals exact quoteless_ofList (by decide)

theorem fine_getLastHistoryValue (name : String) : Fine (getLastHistoryValue name) := by
  refine ⟨quoteless_flatten ?_,⟨_,_,literal_ne_nil (by simp),rfl⟩,?_,trivial⟩
  case refine_1 =>
    simp only [List.forall_mem_cons]
    refine ⟨?_,quoteless_dbName,?_,quoteless_dbName,?_,fun _ member => nomatch member⟩ <;>
      exact quoteless_ofList (by decide)
  all_goals exact quoteless_ofList (by decide)

theorem fine_storeStats (stats : Stats α) : Fine (storeStats stats) := by
  refine ⟨quoteless_flatten ?_,⟨_,_,flatten_ne_nil (literal_ne_nil (by simp)),rfl⟩,quoteless_flatten ?_,trivial⟩
  · simp only [List.forall_mem_cons]
    refine ⟨?_,quoteless_dbName,?_,?_,?_,?_,?_,?_,?_,?_,?_,?_,?_,fun _ member => nomatch member⟩ <;>
      exact quoteless_ofList (by decide)
  · simp only [List.forall_mem_cons]
    refine ⟨?_,quoteless_entry _,?_,quoteless_entry _,?_,quoteless_entry _,?_,quoteless_entry _,?_,quoteless_entry _,?_,
      quoteless_entry _,?_,quoteless_entry _,?_,quoteless_entry _,?_,quoteless_entry _,?_,?_,?_,?_,?_,?_,?_,?_,?_,?_,?_,?_,
      fun _ member => nomatch member⟩ <;> exact quoteless_ofList (by decide)

theorem fine_parts (self : Statement α) : Fine self.parts := by
  cases self with
  | inputLabel input => exact fine_storeLabel _ input
  | outputLabel output => exact fine_storeLabel _ output
  | history source name value flags => exact fine_storeHistory source name value flags
  | lastHistory name => exact fine_getLastHistoryValue name
  | stats given => exact fine_storeStats given

/-- The strings of a statement are those that are given, and words of the format. -/
theorem plain_parts_iff (self : Statement α) : (∀ s, .quoted s ∈ self.parts → Plain s) ↔ ∀ s ∈ self.strings, Plain s.toList := by
  have label : ∀ (type : String) (obj : IoObject α), Plain type.toList →
      ((∀ s, .quoted s ∈ storeLabel type obj → Plain s) ↔ ∀ s ∈ [obj.name,obj.descr], Plain s.toList) := by
    intro type obj word
    simp only [storeLabel,List.mem_cons,reduceCtorEq,Part.quoted.injEq,List.not_mem_nil,false_or,or_false]
    constructor
    · rintro all s (rfl | rfl)
      · exact all _ (.inl rfl)
      · exact all _ (.inr (.inl rfl))
    · rintro all s (rfl | rfl | rfl | rfl | rfl)
      · exact all _ (.inl rfl)
      · exact all _ (.inr rfl)
      · exact word
      · exact all _ (.inr rfl)
      · exact word
  cases self with
  | inputLabel input => exact label "STInput" input (by decide)
  | outputLabel output => exact label "STOutput" output (by decide)
  | history source name value flags =>
    simp only [Statement.parts,Statement.strings,storeHistory,List.mem_cons,reduceCtorEq,Part.quoted.injEq,List.not_mem_nil,
      false_or,or_false,forall_eq_or_imp,forall_eq]
  | lastHistory name =>
    simp only [Statement.parts,Statement.strings,getLastHistoryValue,List.mem_cons,reduceCtorEq,Part.quoted.injEq,
      List.not_mem_nil,false_or,or_false,forall_eq]
  | stats given =>
    simp only [Statement.parts,Statement.strings,storeStats,List.mem_cons,reduceCtorEq,Part.quoted.injEq,List.not_mem_nil,
      false_or,or_false,forall_eq]

/-- A statement is a single one of the fixed shape, with the given strings for its literals, exactly if every string is free of
quotes and of backslashes that are not before `%` or `_`. -/
theorem statement_iff (self : Statement α) :
    items none (print self.parts) = some (meaning self.parts) ↔ ∀ s ∈ self.strings, Plain s.toList :=
  (items_print_iff (fine_parts self)).trans (plain_parts_iff self)

end

/-- A harmless name with an apostrophe: what the server reads is no statement at all. -/
theorem apostrophe_breaks : items none (print (getLastHistoryValue "Kid's room")) ≠ some (meaning (getLastHistoryValue "Kid's room")) := by
  intro read
  have plain := (items_print_iff (fine_getLastHistoryValue "Kid's room")).mp read "Kid's room".toList (.tail _ (.head _))
  exact absurd plain (by decide)

end Starter.Statements
