import Mathlib.Order.Lattice

/-!
The best of a list. A fold keeps the best of what it has seen, beginning with a sentinel;
elements are compared by a key.
-/
namespace Starter.Lib.Selection
universe u v
variable {α : Type u} {K : Type v}

/-- The new one where it is better. -/
def select (better : α → α → Bool) (best new : α) : α := if better new best then new else best

def selectAll (better : α → α → Bool) (start : α) (xs : List α) : α := xs.foldl (select better) start

variable [LinearOrder K] {better : α → α → Bool} {key : α → K} {P : α → Prop}

/-- Where better means a smaller key nothing seen has a smaller key than the selection, which is the sentinel
or was seen. -/
theorem selectAll_spec (smaller : ∀ x y, P x → P y → (better x y = true ↔ key x < key y)) {start : α} (first : P start)
    {xs : List α} (each : ∀ x ∈ xs, P x) : (selectAll better start xs = start ∨ selectAll better start xs ∈ xs) ∧
      key (selectAll better start xs) ≤ key start ∧ ∀ x ∈ xs, key (selectAll better start xs) ≤ key x := by
  induction xs generalizing start with
  | nil => exact ⟨.inl rfl,le_rfl,fun _ member => nomatch member⟩
  | cons x xs ih =>
    rw [List.forall_mem_cons] at each
    obtain ⟨now,later⟩ := each
    rw [selectAll,List.foldl_cons,← selectAll,List.forall_mem_cons]
    unfold select
    split
    case isTrue won =>
      obtain ⟨among,least,all⟩ := ih now later
      have below := (smaller x start now first).mp won
      refine ⟨.inr (List.mem_cons.mpr ?_),least.trans below.le,least,all⟩
      exact among
    case isFalse lost =>
      obtain ⟨among,least,all⟩ := ih first later
      have above : key start ≤ key x := not_lt.mp fun below => lost ((smaller x start now first).mpr below)
      exact ⟨among.imp_right (List.mem_cons_of_mem _),least,least.trans above,all⟩

/-- The selection is the best element exactly if the sentinel is not better than all of them. -/
theorem selectAll_best_iff (smaller : ∀ x y, P x → P y → (better x y = true ↔ key x < key y)) {start : α} (first : P start)
    (alone : ∀ x, P x → key x = key start → x = start) {xs : List α} (each : ∀ x ∈ xs, P x) :
    (selectAll better start xs ∈ xs ∧ ∀ x ∈ xs, key (selectAll better start xs) ≤ key x) ↔ ∃ x ∈ xs, key x ≤ key start := by
  obtain ⟨among,least,all⟩ := selectAll_spec smaller first each
  constructor
  · exact fun best => ⟨_,best.1,least⟩
  · rintro ⟨x,member,below⟩
    refine ⟨?_,all⟩
    rcases among with same | seen
    · have equal : key x = key start := le_antisymm below (same ▸ all x member)
      rw [same,← alone x (each x member) equal]
      exact member
    · exact seen

end Starter.Lib.Selection
