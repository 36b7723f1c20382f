import Mathlib.Data.List.Basic

/-!
Scanners that take the longest word at every place. A word that no longer prefix of the
text extends to another word is taken whole, whatever comes after it.
-/
namespace Starter.Lib.Munch
universe u v
variable {C : Type u} {R : Type v} (classify : List C → Option R)

/-- The longest prefix of at most `n` characters that is a word, and what comes after it. -/
def munch : Nat → List C → Option (R × List C × List C)
  | 0, _ => none
  | n+1, text =>
    match classify (text.take (n + 1)) with
    | some r => some (r,text.take (n + 1),text.drop (n + 1))
    | none => munch n text

/-- The words of a text, at most so many. -/
def scanUpTo : Nat → List C → List (R × List C)
  | 0, _ => []
  | n+1, text =>
    match munch classify text.length text with
    | some (r,word,rest) => (r,word) :: scanUpTo n rest
    | none => []

/-- The words of a text. -/
def scan (text : List C) : List (R × List C) := scanUpTo classify text.length text

/-- The text after a word does not begin with anything that makes it a longer one. -/
def Longest (word rest : List C) : Prop := ∀ n, 0 < n → n ≤ rest.length → classify (word ++ rest.take n) = none

variable {classify} {text word rest : List C} {r : R}

theorem munch_length {n : Nat} (found : munch classify n text = some (r,word,rest)) (enough : n ≤ text.length) :
    word ≠ [] ∧ word ++ rest = text ∧ classify word = some r := by
  induction n with
  | zero => cases found
  | succ n ih =>
    unfold munch at found
    split at found
    · rename_i r' isWord
      cases found
      refine ⟨?_,List.take_append_drop _ _,isWord⟩
      intro empty
      have length := congrArg List.length empty
      simp only [List.length_take,List.length_nil] at length
      omega
    · exact ih found (by omega)

/-- A word is taken if it cannot become longer. -/
theorem munch_append (isWord : classify word = some r) (some_char : word ≠ []) (longest : Longest classify word rest) :
    munch classify (word ++ rest).length (word ++ rest) = some (r,word,rest) := by
  have down : ∀ n, n ≤ rest.length → munch classify (word.length + n) (word ++ rest) = some (r,word,rest) := by
    intro n
    induction n with
    | zero =>
      intro _
      cases word with
      | nil => exact absurd rfl some_char
      | cons c word => simp [munch,isWord]
    | succ n ih =>
      intro le
      have next := longest (n + 1) (by omega) le
      rw [show word.length + (n + 1) = word.length + n + 1 by omega,munch]
      rw [show (word ++ rest).take (word.length + n + 1) = word ++ rest.take (n + 1) by
        rw [Nat.add_assoc,List.take_length_add_append],next]
      exact ih (by omega)
  rw [List.length_append]
  exact down rest.length (Nat.le_refl _)

/-- What is taken could not be longer. -/
theorem munch_longest (found : munch classify text.length text = some (r,word,rest)) : Longest classify word rest := by
  have down : ∀ n, n ≤ text.length → munch classify n text = some (r,word,rest) →
      ∀ m, word.length < m → m ≤ n → classify (text.take m) = none := by
    intro n
    induction n with
    | zero =>
      intro _ found
      cases found
    | succ n ih =>
      intro le found m longer atMost
      unfold munch at found
      cases isWord : classify (text.take (n + 1)) with
      | some r' =>
        rw [isWord] at found
        cases found
        simp only [List.length_take] at longer
        omega
      | none =>
        rw [isWord] at found
        rcases Nat.lt_or_eq_of_le atMost with less | rfl
        · exact ih (by omega) found m longer (by omega)
        · exact isWord
  obtain ⟨_,rfl,_⟩ := munch_length found (Nat.le_refl _)
  intro n positive le
  have none := down _ (Nat.le_refl _) found (word.length + n) (by omega) (by rw [List.length_append]; omega)
  rwa [List.take_length_add_append] at none

/-- A text that begins with a word has a longest one. -/
theorem munch_some {c : C} (isWord : classify [c] ≠ none) :
    ∃ r word rest, munch classify (c :: text).length (c :: text) = some (r,word,rest) := by
  have found : ∀ n, ∃ r word rest, munch classify (n + 1) (c :: text) = some (r,word,rest) := by
    intro n
    induction n with
    | zero =>
      cases isSome : classify [c] with
      | none => exact absurd isSome isWord
      | some r => exact ⟨r,[c],text,by simp [munch,isSome]⟩
    | succ n ih =>
      unfold munch
      cases classify ((c :: text).take (n + 1 + 1)) with
      | none => exact ih
      | some r => exact ⟨r,_,_,rfl⟩
  exact found text.length

theorem scanUpTo_nil (n : Nat) : scanUpTo classify n [] = [] := by cases n <;> rfl

theorem scanUpTo_enough {n m : Nat} (one : text.length ≤ n) (two : text.length ≤ m) :
    scanUpTo classify n text = scanUpTo classify m text := by
  induction n generalizing m text with
  | zero =>
    obtain rfl : text = [] := List.length_eq_zero_iff.mp (by omega)
    rw [scanUpTo_nil,scanUpTo_nil]
  | succ n ih =>
    cases m with
    | zero =>
      obtain rfl : text = [] := List.length_eq_zero_iff.mp (by omega)
      rw [scanUpTo_nil,scanUpTo_nil]
    | succ m =>
      simp only [scanUpTo]
      cases found : munch classify text.length text with
      | none => rfl
      | some next =>
        obtain ⟨r,word,rest⟩ := next
        obtain ⟨nonempty,rfl,_⟩ := munch_length found (Nat.le_refl _)
        have positive := List.length_pos_iff.mpr nonempty
        simp only [List.length_append] at one two
        exact congrArg _ (ih (by omega) (by omega))

theorem scan_append (isWord : classify word = some r) (some_char : word ≠ []) (longest : Longest classify word rest) :
    scan classify (word ++ rest) = (r,word) :: scan classify rest := by
  have positive := List.length_pos_iff.mpr some_char
  obtain ⟨n,length⟩ : ∃ n, (word ++ rest).length = n + 1 := ⟨word.length + rest.length - 1,by simp; omega⟩
  rw [scan,length,scanUpTo,munch_append isWord some_char longest]
  simp only [List.length_append] at length
  exact congrArg _ (scanUpTo_enough (by omega) (Nat.le_refl _))

/-- A text of which the words leave nothing out begins with a word. -/
theorem scan_first {c : C} (covered : (scan classify (c :: text)).flatMap Prod.snd = c :: text) :
    ∃ r word rest, c :: (word ++ rest) = c :: text ∧ classify (c :: word) = some r := by
  rw [scan,List.length_cons,scanUpTo] at covered
  cases found : munch classify (c :: text).length (c :: text) with
  | none =>
    rw [List.length_cons] at found
    simp [found] at covered
  | some next =>
    obtain ⟨r,word,rest⟩ := next
    obtain ⟨nonempty,whole,isWord⟩ := munch_length found (Nat.le_refl _)
    cases word with
    | nil => exact absurd rfl nonempty
    | cons first word =>
      obtain ⟨rfl,_⟩ := List.cons.inj whole
      exact ⟨r,word,rest,whole,isWord⟩

/-- Word by word: what holds of the empty text, and of a text if it holds after its first word. -/
theorem scan_induction {P : List C → Prop} (each : ∀ c, classify [c] ≠ none) (nil : P [])
    (word : ∀ r word rest, classify word = some r → word ≠ [] → Longest classify word rest → P rest → P (word ++ rest)) :
    ∀ text, P text := by
  have shorter : ∀ n (text : List C), text.length ≤ n → P text := by
    intro n
    induction n with
    | zero =>
      intro text empty
      obtain rfl : text = [] := List.length_eq_zero_iff.mp (by omega)
      exact nil
    | succ n ih =>
      intro text le
      cases text with
      | nil => exact nil
      | cons c text =>
        obtain ⟨r,first,rest,found⟩ := munch_some (each c)
        obtain ⟨nonempty,same,isWord⟩ := munch_length found (Nat.le_refl _)
        have positive := List.length_pos_iff.mpr nonempty
        rw [← same,List.length_append] at le
        rw [← same]
        exact word r first rest isWord nonempty (munch_longest found) (ih rest (by omega))
  exact fun text => shorter text.length text (Nat.le_refl _)

/-- A scanner returns words only. -/
theorem scan_classify {step : R × List C} (member : step ∈ scan classify text) : classify step.2 = some step.1 := by
  have steps : ∀ n text, step ∈ scanUpTo classify n text → classify step.2 = some step.1 := by
    intro n
    induction n with
    | zero =>
      intro text member
      cases member
    | succ n ih =>
      intro text member
      simp only [scanUpTo] at member
      cases found : munch classify text.length text with
      | none =>
        rw [found] at member
        cases member
      | some next =>
        obtain ⟨r,word,rest⟩ := next
        rw [found] at member
        rcases List.mem_cons.mp member with rfl | later
        · exact (munch_length found (Nat.le_refl _)).2.2
        · exact ih rest later
  exact steps _ text member

end Starter.Lib.Munch
