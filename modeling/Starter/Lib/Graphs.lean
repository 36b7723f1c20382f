import Mathlib.Data.Finset.Card
import Mathlib.Data.Set.Finite.Basic
import Mathlib.Logic.Relation
import Mathlib.Order.WellFounded

/-!
Graphs without cycles. A graph with finitely many sources of edges that has no cycle can
be walked by recursion along its edges; among finitely many vertices no walk has more
steps than there are vertices.
-/
namespace Starter.Lib.Graphs
universe u
variable {V : Type u} {r q : V → V → Prop}

/-- No path leads from a vertex back to it. -/
def Acyclic (r : V → V → Prop) : Prop := ∀ x, ¬ Relation.TransGen r x x

theorem acyclic_mono (sub : ∀ x y, r x y → q x y) (acyclic : Acyclic q) : Acyclic r :=
  fun x path => acyclic x (Relation.TransGen.mono sub _ _ path)

theorem acyclic_of_rank (rank : V → Nat) (descends : ∀ x y, r x y → rank y < rank x) : Acyclic r := by
  have falls : ∀ x y, Relation.TransGen r x y → rank y < rank x := by
    intro x y path
    induction path with
    | single edge => exact descends _ _ edge
    | tail _ edge ih => exact (descends _ _ edge).trans ih
  exact fun x path => Nat.lt_irrefl _ (falls x x path)

/-- Recursion along the edges is well founded. -/
theorem acyclic_wellFounded (finite : Set.Finite fun x => ∃ y, r x y) (acyclic : Acyclic r) :
    WellFounded fun y x => r x y := by
  let Source := { x : V // ∃ y, r x y }
  have : Finite Source := finite
  let Later (b a : Source) : Prop := Relation.TransGen r a.1 b.1
  have trans : IsTrans Source Later := ⟨fun _ _ _ second first => first.trans second⟩
  have irrefl : Std.Irrefl Later := ⟨fun a path => acyclic a.1 path⟩
  have wellFounded : WellFounded Later := Finite.wellFounded_of_trans_of_irrefl Later
  have sources : ∀ a : Source, Acc (fun y x => r x y) a.1 := by
    intro a
    induction a using wellFounded.induction with
    | _ a ih =>
      refine ⟨_,fun y edge => ?_⟩
      by_cases source : ∃ z, r y z
      · exact ih ⟨y,source⟩ (.single edge)
      · exact ⟨_,fun z further => absurd ⟨z,further⟩ source⟩
  refine ⟨fun x => ?_⟩
  by_cases source : ∃ y, r x y
  · exact sources ⟨x,source⟩
  · exact ⟨_,fun y edge => absurd ⟨y,edge⟩ source⟩

open Classical in
/-- The vertices of the set that paths lead to from a vertex. -/
noncomputable def below (r : V → V → Prop) (vertices : Finset V) (x : V) : Finset V :=
  vertices.filter fun y => Relation.TransGen r x y

open Classical in
theorem mem_below {vertices : Finset V} {x y : V} : y ∈ below r vertices x ↔ y ∈ vertices ∧ Relation.TransGen r x y :=
  Finset.mem_filter

theorem below_card_lt (acyclic : Acyclic r) {vertices : Finset V} {x y : V} (among : y ∈ vertices) (edge : r x y) :
    (below r vertices y).card < (below r vertices x).card := by
  refine Finset.card_lt_card ⟨fun z member => ?_,fun sub => ?_⟩
  · obtain ⟨inside,path⟩ := mem_below.mp member
    exact mem_below.mpr ⟨inside,.head edge path⟩
  · exact acyclic y (mem_below.mp (sub (mem_below.mpr ⟨among,.single edge⟩))).2

theorem below_card_lt_card (acyclic : Acyclic r) {vertices : Finset V} {y : V} (among : y ∈ vertices) :
    (below r vertices y).card < vertices.card := by
  refine Finset.card_lt_card ⟨fun z member => (mem_below.mp member).1,fun sub => ?_⟩
  exact acyclic y (mem_below.mp (sub among)).2

end Starter.Lib.Graphs
