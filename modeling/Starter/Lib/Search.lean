import Mathlib.Data.List.Infix

/-!
The occurrences of a pattern in a list, from left to right and none inside another.
-/
namespace Starter.Lib.Search
universe u
variable {α : Type u} {find s gap after rest : List α} {gaps : List (List α)}

/-- No occurrence begins before that behind the gap. -/
def First (find gap after : List α) : Prop :=
  ∀ before, before.length < gap.length → ¬ before ++ find <+: gap ++ (find ++ after)

/-- The gaps before the occurrences, and what is left behind the last one. -/
inductive Parts (find : List α) : List α → List (List α) → List α → Prop
  | last {s : List α} (none : ¬ find <:+: s) : Parts find s [] s
  | next {gap after rest : List α} {gaps : List (List α)} (first : First find gap after) (others : Parts find after gaps rest) :
    Parts find (gap ++ (find ++ after)) (gap :: gaps) rest

/-- The list with that many occurrences replaced. -/
def fill (find replace : List α) : Nat → List (List α) → List α → List α
  | _, [], rest => rest
  | 0, gap :: gaps, rest => gap ++ (find ++ fill find replace 0 gaps rest)
  | count+1, gap :: gaps, rest => gap ++ (replace ++ fill find replace count gaps rest)

theorem fill_zero (replace : List α) (parts : Parts find s gaps rest) : fill find replace 0 gaps rest = s := by
  induction parts with
  | last => rfl
  | next _ _ ih => rw [fill,ih]

section
variable [DecidableEq α]

/-- How far off the pattern begins for the first time. -/
def search (find : List α) : List α → Option Nat
  | [] => if find = [] then some 0 else none
  | c :: s => if find <+: c :: s then some 0 else (search find s).map (· + 1)

theorem search_none : search find s = none ↔ ¬ find <:+: s := by
  induction s with
  | nil => simp [search]
  | cons c s ih =>
    rw [search,List.infix_cons_iff,not_or,← ih]
    split
    · simp [*]
    · simp [*]

/-- The first occurrence is found. -/
theorem search_first (first : First find gap after) : search find (gap ++ (find ++ after)) = some gap.length := by
  induction gap with
  | nil =>
    have here : find <+: find ++ after := List.prefix_append _ _
    cases text : find ++ after with
    | nil => rw [List.nil_append,search,if_pos (List.append_eq_nil_iff.mp text).1,List.length_nil]
    | cons c s =>
      rw [text] at here
      rw [List.nil_append,search,if_pos here,List.length_nil]
  | cons c gap ih =>
    have later : First find gap after := fun before shorter start =>
      first (c :: before) (Nat.succ_lt_succ shorter) (List.cons_prefix_cons.mpr ⟨rfl,start⟩)
    have elsewhere : ¬ find <+: c :: (gap ++ (find ++ after)) := first [] (Nat.succ_pos _)
    rw [List.cons_append,search,if_neg elsewhere,ih later]
    rfl

/-- What is found is the first occurrence. -/
theorem first_of_search {k : Nat} (found : search find s = some k) :
    ∃ gap after, s = gap ++ (find ++ after) ∧ First find gap after := by
  induction s generalizing k with
  | nil =>
    rw [search] at found
    split at found
    · rename_i nothing
      exact ⟨[],[],by simp [nothing],fun before shorter => absurd shorter (Nat.not_lt_zero _)⟩
    · cases found
  | cons c s ih =>
    rw [search] at found
    split at found
    case isTrue here =>
      obtain ⟨after,split⟩ := here
      exact ⟨[],after,split.symm,fun before shorter => absurd shorter (Nat.not_lt_zero _)⟩
    case isFalse elsewhere =>
      obtain ⟨j,found,-⟩ := Option.map_eq_some_iff.mp found
      obtain ⟨gap,after,rfl,first⟩ := ih found
      refine ⟨c :: gap,after,rfl,fun before shorter start => ?_⟩
      cases before with
      | nil => exact elsewhere start
      | cons d before => exact first before (Nat.lt_of_succ_lt_succ shorter) (List.cons_prefix_cons.mp start).2

/-- Every list has such parts, where the pattern is not empty. -/
theorem parts_exist (some : find ≠ []) (s : List α) : ∃ gaps rest, Parts find s gaps rest := by
  induction length : s.length using Nat.strong_induction_on generalizing s with
  | _ n ih =>
    cases found : search find s with
    | none => exact ⟨[],s,.last (search_none.mp found)⟩
    | some k =>
      obtain ⟨gap,after,rfl,first⟩ := first_of_search found
      have positive := List.length_pos_iff.mpr some
      obtain ⟨gaps,rest,others⟩ := ih after.length (by simp only [List.length_append] at length; omega) after rfl
      exact ⟨gap :: gaps,rest,.next first others⟩

end

end Starter.Lib.Search
