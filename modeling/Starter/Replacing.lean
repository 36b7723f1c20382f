import Mathlib.Algebra.Order.Ring.Int
import Starter.Lib.Approx
import Starter.Lib.Search

/-!
`st_g_string_replace` (`lib/glib-compat.c`), which edits the string that it searches. It goes
on behind what it has put in, so it replaces the occurrences of the string it was given.
-/
namespace Starter.Replacing
open Lib.Approx Lib.Search

/-- `g_string_erase`. -/
def gStringErase (string : List Char) (pos len : Nat) : List Char := string.take pos ++ string.drop (pos+len)

/-- `g_string_insert`. -/
def gStringInsert (string : List Char) (pos : Nat) (val : List Char) : List Char := string.take pos ++ (val ++ string.drop pos)

/-- The variables of the loop, `cur` as an offset into the string. -/
structure Loop where
  string : List Char
  cur : Nat
  n : UInt32

/-- The loop, in terms of what its next round comes to: the string and the number that is returned. -/
def loop (find replace : List Char) (limit : UInt32) (next : Loop → Option (List Char × UInt32)) (self : Loop) :
    Option (List Char × UInt32) :=
  match search find (self.string.drop self.cur) with
  | none => some (self.string,self.n)
  | some offset =>
    let pos := self.cur + offset
    let string := gStringInsert (gStringErase self.string pos find.length) pos replace
    let n := self.n + 1
    if limit ≠ 0 ∧ n = limit then some (string,n)
    else next ⟨string,pos + replace.length,n⟩

/-- `st_g_string_replace`, with at most `depth` rounds of its loop. -/
def stGStringReplace (depth : Nat) (string find replace : List Char) (limit : UInt32) : Option (List Char × UInt32) :=
  if find = [] then some (string,0) else approx (loop find replace limit) depth ⟨string,0,0⟩

/-- How many of the occurrences the limit allows for. -/
def allowed (limit : UInt32) (occurrences : Nat) : Nat := if limit = 0 then occurrences else min occurrences limit.toNat

example : stGStringReplace 3 "aaa".toList "a".toList "ba".toList 2 = some ("babaa".toList,2) := by decide +kernel

theorem loop_mono (find replace : List Char) (limit : UInt32) : Monotone (loop find replace limit) := by
  intro f g below self result done
  unfold loop at done ⊢
  cases found : search find (self.string.drop self.cur) with
  | none =>
    rw [found] at done
    exact done
  | some offset =>
    simp only [found] at done ⊢
    split at done
    case isTrue stops => rwa [if_pos stops]
    case isFalse goes =>
      rw [if_neg goes]
      exact below _ _ done

/-- What a round puts where the first occurrence was. -/
theorem edited (kept gap find after replace : List Char) :
    gStringInsert (gStringErase (kept ++ (gap ++ (find ++ after))) (kept.length + gap.length) find.length)
      (kept.length + gap.length) replace = (kept ++ (gap ++ replace)) ++ after := by
  have first : (kept ++ gap).length = kept.length + gap.length := List.length_append
  have erased : gStringErase (kept ++ (gap ++ (find ++ after))) (kept.length + gap.length) find.length = (kept ++ gap) ++ after := by
    rw [← List.append_assoc,gStringErase,← first,List.take_left,← List.drop_drop,List.drop_left,List.drop_left]
  rw [erased,gStringInsert,← first,List.take_left,List.drop_left]
  simp only [List.append_assoc]

/-- A round that finds nothing ends the loop. -/
theorem loop_ends {find replace kept s : List Char} {limit n : UInt32} (none : ¬ find <:+: s) :
    Answers (loop find replace limit) ⟨kept ++ s,kept.length,n⟩ (kept ++ s,n) := by
  refine ⟨1,?_⟩
  simp only [approx_succ,loop,List.drop_left,search_none.mpr none]

/-- A round that finds an occurrence puts the replacement in its place, and the loop ends there or goes on behind it. -/
theorem loop_round {find replace kept gap after : List Char} {limit n : UInt32} {result : List Char × UInt32}
    (first : First find gap after)
    (goesOn : if limit ≠ 0 ∧ n + 1 = limit then result = (kept ++ (gap ++ replace) ++ after,n + 1)
      else Answers (loop find replace limit) ⟨kept ++ (gap ++ replace) ++ after,(kept ++ (gap ++ replace)).length,n + 1⟩ result) :
    Answers (loop find replace limit) ⟨kept ++ (gap ++ (find ++ after)),kept.length,n⟩ result := by
  have length : kept.length + gap.length + replace.length = (kept ++ (gap ++ replace)).length := by
    simp only [List.length_append]
    omega
  split at goesOn
  case isTrue stops =>
    refine ⟨1,?_⟩
    simp only [approx_succ,loop,List.drop_left,search_first first,edited,goesOn]
    rw [if_pos stops]
  case isFalse goes =>
    obtain ⟨depth,done⟩ := goesOn
    refine ⟨depth+1,?_⟩
    simp only [approx_succ,loop,List.drop_left,search_first first,edited,length]
    rw [if_neg goes]
    exact done

/-- From any round on what is behind `cur` gets as many occurrences replaced as the limit leaves. -/
theorem loop_answers {find replace s rest : List Char} {limit : UInt32} {gaps : List (List Char)} (parts : Parts find s gaps rest)
    {kept : List Char} {n : UInt32} {count : Nat} (left : limit = 0 ∧ count = gaps.length ∨
      ∃ room, 0 < room ∧ n.toNat + room = limit.toNat ∧ count = min gaps.length room) :
    Answers (loop find replace limit) ⟨kept ++ s,kept.length,n⟩ (kept ++ fill find replace count gaps rest,n + UInt32.ofNat count) := by
  induction parts generalizing kept n count with
  | last none =>
    have zero : count = 0 := by
      rcases left with ⟨-,all⟩ | ⟨room,-,-,some⟩
      · exact all
      · simpa using some
    subst zero
    rw [show n + UInt32.ofNat 0 = n from UInt32.add_zero n]
    exact loop_ends none
  | @next gap after rest gaps first others ih =>
    obtain ⟨more,rfl⟩ : ∃ more, count = more + 1 := by
      refine Nat.exists_eq_succ_of_ne_zero ?_
      rcases left with ⟨-,rfl⟩ | ⟨room,some,-,rfl⟩
      · simp
      · rw [List.length_cons]
        omega
    have added : n + UInt32.ofNat (more + 1) = n + 1 + UInt32.ofNat more := by
      rw [UInt32.add_assoc,Nat.add_comm,UInt32.ofNat_add]
      rfl
    have text : kept ++ fill find replace (more + 1) (gap :: gaps) rest =
        kept ++ (gap ++ replace) ++ fill find replace more gaps rest := by
      rw [fill]
      simp only [List.append_assoc]
    rw [added,text]
    refine loop_round first ?_
    rcases left with ⟨unlimited,all⟩ | ⟨room,some,reaches,least⟩
    · rw [if_neg fun both => both.1 unlimited]
      exact ih (.inl ⟨unlimited,Nat.succ_injective all⟩)
    · have next : (n + 1).toNat = n.toNat + 1 := by
        have size := limit.toNat_lt
        rw [UInt32.toNat_add]
        simp only [UInt32.toNat_one]
        omega
      rw [List.length_cons] at least
      split
      case isTrue stops =>
        have last : room = 1 := by
          have same := congrArg UInt32.toNat stops.2
          omega
        obtain rfl : more = 0 := by omega
        rw [fill_zero replace others,show n + 1 + UInt32.ofNat 0 = n + 1 from UInt32.add_zero _]
      case isFalse goes =>
        have nonzero : limit ≠ 0 := by
          rintro rfl
          simp only [UInt32.toNat_zero] at reaches
          omega
        have other : room ≠ 1 := by
          rintro rfl
          exact goes ⟨nonzero,UInt32.toNat_inj.mp (by omega)⟩
        exact ih (.inr ⟨room-1,by omega,by omega,by omega⟩)

/-- The function comes to an end, whatever it puts in. It has then replaced the occurrences in the string it was given, from the
left and as many as the limit allows for, and returns how many they are, modulo the size of a `guint`. -/
theorem replace_spec {find : List Char} (nonempty : find ≠ []) (string replace : List Char) (limit : UInt32) :
    ∃ gaps rest, Parts find string gaps rest ∧ ∃ depth, ∀ more, depth ≤ more →
      stGStringReplace more string find replace limit =
        some (fill find replace (allowed limit gaps.length) gaps rest,UInt32.ofNat (allowed limit gaps.length)) := by
  obtain ⟨gaps,rest,parts⟩ := parts_exist nonempty string
  have left : limit = 0 ∧ allowed limit gaps.length = gaps.length ∨
      ∃ room, 0 < room ∧ (0 : UInt32).toNat + room = limit.toNat ∧ allowed limit gaps.length = min gaps.length room := by
    by_cases unlimited : limit = 0
    · exact .inl ⟨unlimited,if_pos unlimited⟩
    · refine .inr ⟨limit.toNat,?_,Nat.zero_add _,if_neg unlimited⟩
      exact Nat.pos_of_ne_zero fun zero => unlimited (UInt32.toNat_inj.mp zero)
  obtain ⟨depth,done⟩ := @loop_answers find replace string rest limit gaps parts [] 0 _ left
  refine ⟨gaps,rest,parts,depth,fun more enough => ?_⟩
  rw [stGStringReplace,if_neg nonempty]
  have answered := approx_mono (loop_mono find replace limit) enough _ _ done
  rwa [UInt32.zero_add] at answered

theorem replace_spec_nested : ∃ gaps rest, Parts "a".toList "aab".toList gaps rest ∧ ∃ depth, ∀ more, depth ≤ more →
    stGStringReplace more "aab".toList "a".toList "ba".toList 0 =
      some (fill "a".toList "ba".toList (allowed 0 gaps.length) gaps rest,UInt32.ofNat (allowed 0 gaps.length)) :=
  replace_spec (by decide) "aab".toList "ba".toList 0

private theorem parts_replicate (k : Nat) : Parts ['a'] (List.replicate k 'a') (List.replicate k []) [] := by
  induction k with
  | zero => exact .last (by decide)
  | succ k ih =>
    have first : First ['a'] [] (List.replicate k 'a') := fun before shorter => absurd shorter (Nat.not_lt_zero _)
    exact .next first ih

private theorem replicate_counted (k : Nat) : ∃ depth replaced,
    stGStringReplace depth (List.replicate k 'a') ['a'] ['b'] 0 = some (replaced,UInt32.ofNat k) := by
  have left : (0 : UInt32) = 0 ∧ k = (List.replicate k ([] : List Char)).length ∨
      ∃ room, 0 < room ∧ (0 : UInt32).toNat + room = (0 : UInt32).toNat ∧ k = min (List.replicate k ([] : List Char)).length room :=
    .inl ⟨rfl,List.length_replicate.symm⟩
  obtain ⟨depth,done⟩ := @loop_answers _ ['b'] _ _ 0 _ (parts_replicate k) [] 0 k left
  rw [UInt32.zero_add] at done
  refine ⟨depth,fill ['a'] ['b'] k (List.replicate k []) [],?_⟩
  rw [stGStringReplace,if_neg (by decide)]
  exact done

/-- Of as many occurrences as there are numbers the function returns that there were none. -/
theorem count_wraps : Parts ['a'] (List.replicate (2 ^ 32) 'a') (List.replicate (2 ^ 32) []) [] ∧
    ∃ depth replaced, stGStringReplace depth (List.replicate (2 ^ 32) 'a') ['a'] ['b'] 0 = some (replaced,0) := by
  have none : UInt32.ofNat (2 ^ 32) = 0 := by decide
  have counted := replicate_counted (2 ^ 32)
  rw [none] at counted
  exact ⟨parts_replicate (2 ^ 32),counted⟩

end Starter.Replacing
