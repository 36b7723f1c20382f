import Mathlib.Algebra.BigOperators.Group.List.Basic
import Mathlib.Algebra.Order.Ring.Int

/-!
The quoted strings of MySQL. Inside of one a quote that is doubled or stands behind a
backslash does not end it; a text that puts its strings into quotes as they are is read as
it is meant exactly if none of them has such a quote or escape.
-/
namespace Starter.Lib.Literals

/-- What a text is to the server: characters outside of strings, and strings. -/
inductive Item
  | code (c : Char)
  | literal (s : List Char)
deriving DecidableEq

/-- What a backslash and a character stand for. -/
def escape : Char → List Char
  | '0' => ['\x00']
  | 'b' => ['\x08']
  | 'n' => ['\n']
  | 'r' => ['\r']
  | 't' => ['\t']
  | 'Z' => ['\x1a']
  | '%' => ['\\','%']
  | '_' => ['\\','_']
  | c => [c]

/-- The items of a text; inside of a string with the quote that it began with and what is read of it. -/
def items : Option (Char × List Char) → List Char → Option (List Item)
  | none, [] => some []
  | some _, [] => none
  | none, c :: s =>
    if c = '\'' ∨ c = '"' then items (some (c,[])) s
    else (items none s).map (.code c :: ·)
  | some (quote,read), [c] => if c = quote then some [.literal read] else none
  | some (quote,read), c :: d :: s =>
    if c = '\\' then items (some (quote,read ++ escape d)) s
    else if c = quote then
      if d = quote then items (some (quote,read ++ [quote])) s
      else (items none (d :: s)).map (.literal read :: ·)
    else items (some (quote,read ++ [c])) (d :: s)

/-- A format of a statement: text, and strings in quotes. -/
inductive Part
  | text (s : List Char)
  | quoted (s : List Char)

/-- The strings are written as they are. -/
def Part.print : Part → List Char
  | .text s => s
  | .quoted s => '\'' :: (s ++ ['\''])

def Part.meaning : Part → List Item
  | .text s => s.map .code
  | .quoted s => [.literal s]

def print (parts : List Part) : List Char := parts.flatMap Part.print

/-- What is meant by it. -/
def meaning (parts : List Part) : List Item := parts.flatMap Part.meaning

/-- The text has no quotes, and there is some of it behind every string. -/
def Fine : List Part → Prop
  | [] => True
  | .text s :: rest => (∀ c ∈ s, c ≠ '\'' ∧ c ≠ '"') ∧ Fine rest
  | .quoted _ :: rest => (∃ s more, s ≠ [] ∧ rest = .text s :: more) ∧ Fine rest

/-- The string has no quote, and no backslash that is not one before `%` or `_`. -/
def Plain : List Char → Prop
  | [] => True
  | c :: s => c ≠ '\'' ∧ (c = '\\' → s.head? = some '%' ∨ s.head? = some '_') ∧ Plain s

instance decidablePlain : ∀ s, Decidable (Plain s)
  | [] => .isTrue trivial
  | c :: s =>
    have := decidablePlain s
    inferInstanceAs (Decidable (c ≠ '\'' ∧ (c = '\\' → s.head? = some '%' ∨ s.head? = some '_') ∧ Plain s))

/-- How long an item is written at least. -/
def Item.weight : Item → Nat
  | .code _ => 1
  | .literal s => s.length + 2

def weight (out : List Item) : Nat := (out.map Item.weight).sum

/-- What is read of a string, with its first quote. -/
def begun : Option (Char × List Char) → Nat
  | none => 0
  | some (_,read) => read.length + 1

@[simp] theorem weight_nil : weight [] = 0 := rfl

@[simp] theorem weight_cons (item : Item) (out : List Item) : weight (item :: out) = item.weight + weight out := by
  simp [weight]

theorem weight_append (out more : List Item) : weight (out ++ more) = weight out + weight more := by
  simp [weight]

theorem escape_length (c : Char) : (escape c).length ≤ 2 ∧ (c ≠ '%' → c ≠ '_' → (escape c).length = 1) := by
  unfold escape
  split <;> simp

/-- No text is longer to the server than it is written. -/
theorem weight_le {state : Option (Char × List Char)} {s : List Char} {out : List Item} (done : items state s = some out) :
    weight out ≤ s.length + begun state := by
  fun_induction items state s generalizing out with
  | case1 =>
    cases done
    exact Nat.le_refl 0
  | case2 => cases done
  | case3 c s _ ih =>
    have inside := ih done
    simp only [begun,List.length_nil,List.length_cons] at inside ⊢
    omega
  | case4 c s _ ih =>
    obtain ⟨more,outside,rfl⟩ := Option.map_eq_some_iff.mp done
    have rest := ih outside
    simp only [weight_cons,Item.weight,begun,List.length_cons] at rest ⊢
    omega
  | case5 quote read =>
    cases done
    simp only [weight_cons,weight_nil,Item.weight,begun,List.length_cons,List.length_nil]
    omega
  | case6 => cases done
  | case7 quote read d s ih =>
    have rest := ih done
    have short := (escape_length d).1
    simp only [begun,List.length_append,List.length_cons] at rest ⊢
    omega
  | case8 read d s _ ih =>
    have rest := ih done
    simp only [begun,List.length_append,List.length_cons,List.length_nil] at rest ⊢
    omega
  | case9 read c d s _ _ ih =>
    obtain ⟨more,outside,rfl⟩ := Option.map_eq_some_iff.mp done
    have rest := ih outside
    simp only [weight_cons,Item.weight,begun,List.length_cons] at rest ⊢
    omega
  | case10 quote read c d s _ _ ih =>
    have rest := ih done
    simp only [begun,List.length_append,List.length_cons,List.length_nil] at rest ⊢
    omega

/-- What is meant is as long as it is written. -/
theorem weight_meaning (parts : List Part) : weight (meaning parts) = (print parts).length := by
  induction parts with
  | nil => rfl
  | cons part rest ih =>
    rw [meaning,print,List.flatMap_cons,List.flatMap_cons,weight_append,List.length_append,← meaning,← print,ih]
    refine congrArg (· + (print rest).length) ?_
    cases part with
    | text s =>
      have one : ∀ s : List Char, weight (s.map .code) = s.length := by
        intro s
        induction s with
        | nil => rfl
        | cons c s ih =>
          rw [List.map_cons,weight_cons,ih,List.length_cons]
          exact Nat.add_comm _ _
      exact one s
    | quoted s => simp [Part.meaning,Part.print,Item.weight,weight]

/-- Text without quotes is read as it is. -/
theorem items_text {s : List Char} (plain : ∀ c ∈ s, c ≠ '\'' ∧ c ≠ '"') (rest : List Char) :
    items none (s ++ rest) = (items none rest).map (s.map .code ++ ·) := by
  induction s with
  | nil => simp
  | cons c s ih =>
    rw [List.forall_mem_cons] at plain
    rw [List.cons_append]
    refine (if_neg (not_or.mpr plain.1)).trans ?_
    rw [ih plain.2,Option.map_map]
    rfl

theorem items_backslash (quote : Char) (read : List Char) (d : Char) (s : List Char) :
    items (some (quote,read)) ('\\' :: d :: s) = items (some (quote,read ++ escape d)) s :=
  if_pos rfl

theorem items_close {quote d : Char} (notEscape : quote ≠ '\\') (other : d ≠ quote) (read s : List Char) :
    items (some (quote,read)) (quote :: d :: s) = (items none (d :: s)).map (.literal read :: ·) := by
  exact (if_neg notEscape).trans ((if_pos rfl).trans (if_neg other))

theorem items_double {quote : Char} (notEscape : quote ≠ '\\') (read s : List Char) :
    items (some (quote,read)) (quote :: quote :: s) = items (some (quote,read ++ [quote])) s := by
  exact (if_neg notEscape).trans ((if_pos rfl).trans (if_pos rfl))

theorem items_ordinary {quote c : Char} (notEscape : c ≠ '\\') (notQuote : c ≠ quote) (read : List Char) {s : List Char} (some : s ≠ []) :
    items (.some (quote,read)) (c :: s) = items (.some (quote,read ++ [c])) s := by
  obtain ⟨d,s,rfl⟩ := List.exists_cons_of_ne_nil some
  exact (if_neg notEscape).trans (if_neg notQuote)

theorem escape_kept {c : Char} (kept : c = '%' ∨ c = '_') : escape c = ['\\',c] := by
  rcases kept with rfl | rfl <;> rfl

/-- A plain string is read to its end. -/
theorem items_plain {s : List Char} (plain : Plain s) (read : List Char) {d : Char} (other : d ≠ '\'') (rest : List Char) :
    items (some ('\'',read)) (s ++ '\'' :: d :: rest) = (items none (d :: rest)).map (.literal (read ++ s) :: ·) := by
  induction length : s.length using Nat.strongRecOn generalizing s read with
  | _ n ih =>
    cases s with
    | nil =>
      rw [List.append_nil]
      exact items_close (by decide) other read rest
    | cons c s =>
      obtain ⟨notQuote,escapes,plain⟩ := plain
      by_cases backslash : c = '\\'
      · subst backslash
        cases s with
        | nil => simp at escapes
        | cons e s =>
          have kept : e = '%' ∨ e = '_' := by simpa using escapes rfl
          have again := ih s.length (by simp only [List.length_cons] at length; omega) plain.2.2 (read ++ ['\\',e]) rfl
          rw [List.cons_append,List.cons_append,items_backslash,escape_kept kept,again,List.append_assoc]
          rfl
      · have again := ih s.length (by simp only [List.length_cons] at length; omega) plain (read ++ [c]) rfl
        rw [List.cons_append,items_ordinary backslash notQuote _ (by simp),again,List.append_assoc]
        rfl

/-- What is read to such an end, and leaves all of the rest, is plain. -/
theorem plain_of_items {s read rest : List Char} {d : Char} {more : List Item} (other : d ≠ '\'')
    (done : items (some ('\'',read)) (s ++ '\'' :: d :: rest) = some (.literal (read ++ s) :: more))
    (all : weight more = (d :: rest).length) : Plain s ∧ items none (d :: rest) = some more := by
  induction length : s.length using Nat.strongRecOn generalizing s read with
  | _ n ih =>
    cases s with
    | nil =>
      rw [List.nil_append,items_close (by decide) other,List.append_nil] at done
      obtain ⟨out,outside,same⟩ := Option.map_eq_some_iff.mp done
      rw [List.cons.injEq] at same
      exact ⟨trivial,same.2 ▸ outside⟩
    | cons c s =>
      by_cases backslash : c = '\\'
      · subst backslash
        cases s with
        | nil =>
          -- The quote that the format ends the string with is escaped, and a character of the rest is missing.
          rw [List.cons_append,List.nil_append,items_backslash] at done
          have one := (escape_length '\'').2 (by decide) (by decide)
          have bound := weight_le done
          simp only [weight_cons,Item.weight,begun,List.length_append,List.length_cons,List.length_nil,one] at bound all
          omega
        | cons e s =>
          rw [List.cons_append,List.cons_append,items_backslash] at done
          by_cases kept : e = '%' ∨ e = '_'
          · rw [escape_kept kept] at done
            have same : read ++ '\\' :: e :: s = read ++ ['\\',e] ++ s := by simp
            rw [same] at done
            obtain ⟨plain,rest⟩ := ih s.length (by simp only [List.length_cons] at length; omega) done rfl
            refine ⟨⟨by decide,fun _ => by simpa using kept,?_,?_,plain⟩,rest⟩
            · rcases kept with rfl | rfl <;> decide
            · rcases kept with rfl | rfl <;> exact fun no => absurd no (by decide)
          · obtain ⟨notPercent,notLine⟩ := not_or.mp kept
            have one := (escape_length e).2 notPercent notLine
            have bound := weight_le done
            simp only [weight_cons,Item.weight,begun,List.length_append,List.length_cons,one] at bound all
            omega
      · by_cases quote : c = '\''
        · subst quote
          cases text : s ++ '\'' :: d :: rest with
          | nil => simp at text
          | cons e behind =>
            have size := congrArg List.length text
            rw [List.cons_append,text] at done
            by_cases again : e = '\''
            · subst again
              rw [items_double (by decide)] at done
              have bound := weight_le done
              simp only [weight_cons,Item.weight,begun,List.length_append,List.length_cons,List.length_nil] at bound all size
              omega
            · rw [items_close (by decide) again] at done
              obtain ⟨out,_,same⟩ := Option.map_eq_some_iff.mp done
              simp at same
        · rw [List.cons_append,items_ordinary backslash quote _ (by simp)] at done
          have same : read ++ c :: s = read ++ [c] ++ s := by simp
          rw [same] at done
          obtain ⟨plain,rest⟩ := ih s.length (by simp only [List.length_cons] at length; omega) done rfl
          exact ⟨⟨quote,fun no => absurd no backslash,plain⟩,rest⟩

/-- A statement is read as it is meant exactly if its strings are plain. -/
theorem items_print_iff {parts : List Part} (fine : Fine parts) :
    items none (print parts) = some (meaning parts) ↔ ∀ s, .quoted s ∈ parts → Plain s := by
  induction parts with
  | nil => simp [items,print,meaning]
  | cons part rest ih =>
    cases part with
    | text s =>
      have whole : print (.text s :: rest) = s ++ print rest := rfl
      have means : meaning (.text s :: rest) = s.map .code ++ meaning rest := rfl
      rw [whole,means,items_text fine.1,Option.map_eq_some_iff]
      simp only [List.append_cancel_left_eq,exists_eq_right,ih fine.2,List.mem_cons,reduceCtorEq,false_or]
    | quoted s =>
      obtain ⟨⟨text,more,some,rfl⟩,later⟩ := fine
      obtain ⟨c,text,rfl⟩ := List.exists_cons_of_ne_nil some
      have other : c ≠ '\'' := (later.1 c List.mem_cons_self).1
      have whole : print (.quoted s :: .text (c :: text) :: more) = '\'' :: (s ++ '\'' :: c :: (text ++ print more)) := by
        simp [print,Part.print]
      have behind : print (.text (c :: text) :: more) = c :: (text ++ print more) := rfl
      have means : meaning (.quoted s :: .text (c :: text) :: more) = .literal s :: meaning (.text (c :: text) :: more) := rfl
      have all := weight_meaning (.text (c :: text) :: more)
      rw [behind] at all
      have inside := ih later
      rw [behind] at inside
      rw [whole,means,items,if_pos (.inl rfl)]
      constructor
      · intro done
        obtain ⟨plain,outside⟩ := plain_of_items other done all
        intro t member
        rcases List.mem_cons.mp member with same | among
        · cases same
          exact plain
        · exact inside.mp outside t among
      · intro plain
        rw [items_plain (plain s List.mem_cons_self) [] other,
          inside.mpr fun t among => plain t (List.mem_cons_of_mem _ among)]
        rfl

end Starter.Lib.Literals
