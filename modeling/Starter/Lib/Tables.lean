import Mathlib.Logic.Function.Basic

/-!
Tables filled from lists of entries: a later entry replaces an earlier one of its key.
-/
namespace Starter.Lib.Tables
universe u v
variable {K : Type u} {V : Type v} [DecidableEq K]

/-- The table after the entries have been inserted one by one. -/
def insertAll (table : K → Option V) (entries : List (K × V)) : K → Option V :=
  entries.foldl (fun table entry => Function.update table entry.1 (some entry.2)) table

theorem insertAll_append (table : K → Option V) (entries more : List (K × V)) :
    insertAll table (entries ++ more) = insertAll (insertAll table entries) more := List.foldl_append

/-- A table made in rounds is the table made at once. -/
theorem insertAll_flatMap {I : Type u} (f : I → List (K × V)) (table : K → Option V) (rounds : List I) :
    rounds.foldl (fun table i => insertAll table (f i)) table = insertAll table (rounds.flatMap f) := by
  induction rounds generalizing table with
  | nil => rfl
  | cons i rest ih => rw [List.foldl_cons,List.flatMap_cons,insertAll_append,ih]

/-- What the table answers is an entry, or was there before. -/
theorem insertAll_some {table : K → Option V} {entries : List (K × V)} {k : K} {v : V}
    (found : insertAll table entries k = some v) : (k,v) ∈ entries ∨ table k = some v := by
  induction entries generalizing table with
  | nil => exact .inr found
  | cons entry rest ih =>
    rcases ih found with later | now
    · exact .inl (List.mem_cons_of_mem _ later)
    · by_cases same : k = entry.1
      · subst same
        simp only [Function.update_self,Option.some.injEq] at now
        exact .inl (now ▸ List.mem_cons_self)
      · simp only [Function.update_of_ne same] at now
        exact .inr now

/-- Every key of an entry is in the table. -/
theorem insertAll_mem {table : K → Option V} {entries : List (K × V)} {k : K}
    (among : (∃ v, (k,v) ∈ entries) ∨ table k ≠ none) : insertAll table entries k ≠ none := by
  induction entries generalizing table with
  | nil =>
    rcases among with ⟨v,member⟩ | there
    · simp at member
    · exact there
  | cons entry rest ih =>
    apply ih
    by_cases same : k = entry.1
    · exact .inr (by simp [same])
    · simp only [Function.update_of_ne same]
      refine among.imp_left ?_
      rintro ⟨v,member⟩
      rcases List.mem_cons.mp member with rfl | later
      · exact absurd rfl same
      · exact ⟨v,later⟩

/-! ### Entries without those of a key -/

theorem lookup_without (entries : List (K × V)) (k x : K) :
    (entries.filter fun entry => entry.1 ≠ k).lookup x = if x = k then none else entries.lookup x := by
  induction entries with
  | nil => simp
  | cons entry rest ih =>
    rw [List.filter_cons,List.lookup_cons]
    by_cases off : entry.1 = k
    · rw [if_neg (by simpa using off),ih]
      by_cases same : x = k
      · rw [if_pos same,if_pos same]
      · rw [if_neg same,if_neg same,beq_false_of_ne fun is => same (is.trans off)]
    · rw [if_pos (by simpa using off),List.lookup_cons,ih]
      by_cases here : x = entry.1
      · subst here
        simp [off]
      · rw [beq_false_of_ne here]

/-- The values of the entries are those of the others and the one of the key. -/
theorem values_without (entries : List (K × V)) (k : K) (nodup : (entries.map Prod.fst).Nodup) :
    (entries.map Prod.snd).Perm ((entries.filter fun entry => entry.1 ≠ k).map Prod.snd ++ (entries.lookup k).toList) := by
  induction entries with
  | nil => simp
  | cons entry rest ih =>
    obtain ⟨off,nodup'⟩ := List.nodup_cons.mp nodup
    rw [List.filter_cons,List.lookup_cons]
    by_cases same : k = entry.1
    · subst same
      have others : rest.filter (fun other => other.1 ≠ entry.1) = rest := by
        refine List.filter_eq_self.mpr fun other member => ?_
        have apart : other.1 ≠ entry.1 := fun is => off (is ▸ List.mem_map_of_mem member)
        simpa using apart
      rw [if_neg (by simp),others]
      have swapped : ([entry.2] ++ rest.map Prod.snd).Perm (rest.map Prod.snd ++ [entry.2]) := List.perm_append_comm
      simpa using swapped
    · rw [if_pos (by simpa using Ne.symm same),beq_false_of_ne same]
      exact (ih nodup').cons entry.2

/-- The entries with another value for a key that they have. -/
def replace (entries : List (K × V)) (k : K) (v : V) : List (K × V) :=
  entries.map fun entry => if entry.1 = k then (k,v) else entry

theorem keys_replace (entries : List (K × V)) (k : K) (v : V) : (replace entries k v).map Prod.fst = entries.map Prod.fst := by
  rw [replace,List.map_map]
  refine List.map_congr_left fun entry _ => ?_
  by_cases same : entry.1 = k
  · simp [same]
  · simp [same]

theorem lookup_replace (entries : List (K × V)) (k : K) (v : V) (x : K) :
    (replace entries k v).lookup x = (entries.lookup x).map fun old => if x = k then v else old := by
  induction entries with
  | nil => rfl
  | cons entry rest ih =>
    have later : (rest.map fun entry => if entry.1 = k then (k,v) else entry).lookup x =
        (rest.lookup x).map fun old => if x = k then v else old := ih
    rw [replace,List.map_cons]
    by_cases here : entry.1 = k
    · rw [if_pos here,List.lookup_cons,List.lookup_cons,here,later]
      by_cases same : x = k
      · simp [same]
      · rw [beq_false_of_ne same]
    · rw [if_neg here,List.lookup_cons,List.lookup_cons,later]
      by_cases same : x = entry.1
      · subst same
        simp [here]
      · rw [beq_false_of_ne same]

/-- One value takes the place of the other. -/
theorem values_replace {entries : List (K × V)} {k : K} {old : V} (nodup : (entries.map Prod.fst).Nodup)
    (there : entries.lookup k = some old) (v : V) :
    ∃ others, (entries.map Prod.snd).Perm (old :: others) ∧ ((replace entries k v).map Prod.snd).Perm (v :: others) := by
  have without : (replace entries k v).filter (fun entry => entry.1 ≠ k) = entries.filter fun entry => entry.1 ≠ k := by
    have test : ((fun entry : K × V => decide (entry.1 ≠ k)) ∘ fun entry => if entry.1 = k then (k,v) else entry) =
        fun entry => decide (entry.1 ≠ k) := by
      funext entry
      by_cases same : entry.1 = k
      · simp [same]
      · simp [same]
    rw [replace,List.filter_map,test]
    refine (List.map_congr_left fun entry member => ?_).trans (List.map_id _)
    exact if_neg (by simpa using (List.mem_filter.mp member).2)
  have before := values_without entries k nodup
  have after := values_without (replace entries k v) k (by rwa [keys_replace])
  rw [there] at before
  rw [lookup_replace,there,without] at after
  simp only [Option.map_some,if_pos,Option.toList_some] at before after
  exact ⟨_,before.trans (List.perm_append_singleton _ _),after.trans (List.perm_append_singleton _ _)⟩

end Starter.Lib.Tables
