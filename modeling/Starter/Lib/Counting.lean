import Mathlib.Algebra.BigOperators.Group.Finset.Basic
import Mathlib.Algebra.Order.BigOperators.Group.Finset
import Mathlib.Algebra.Order.Ring.Int
import Mathlib.Logic.Function.Basic
import Mathlib.Logic.Relation

/-!
Memory whose cells are counted. A cell holds a node, whose children are other cells, and
the number of those that own it. Who gives up a cell releases it: if it is owned by others
only the count is lowered, else its children are released and it is freed. While every
count is the number of the owners no freed cell is ever touched, and the cells that are
left are those that the owners can reach.
-/
namespace Starter.Lib.Counting
universe u
variable {N : Type u}

structure Cell (N : Type u) where
  node : N
  nref : Nat

/-- `fresh` is the address of the cell that is allocated next. -/
structure Heap (N : Type u) where
  cells : Nat → Option (Cell N)
  fresh : Nat

def Heap.set (h : Heap N) (a : Nat) (cell : Option (Cell N)) : Heap N := { h with cells := Function.update h.cells a cell }

/-- A new cell, owned once. -/
def Heap.allocate (node : N) (h : Heap N) : Heap N := ⟨Function.update h.cells h.fresh (some ⟨node,1⟩),h.fresh + 1⟩

/-- One more owner of the cell. -/
def Heap.retain (a : Nat) (h : Heap N) : Option (Heap N) :=
  (h.cells a).map fun cell => h.set a (some { cell with nref := cell.nref + 1 })

def Heap.free (a : Nat) (h : Heap N) : Option (Heap N) := (h.cells a).map fun _ => h.set a none

/-- Another node in the cell. -/
def Heap.write (a : Nat) (node : N) (h : Heap N) : Option (Heap N) :=
  (h.cells a).map fun cell => h.set a (some { cell with node := node })

/-- The cells are released one after the other. -/
def releaseAll (release : Nat → Heap N → Option (Heap N)) : List Nat → Heap N → Option (Heap N)
  | [], h => some h
  | a :: as, h => (release a h).bind (releaseAll release as)

variable (children : N → List Nat)

/-- One owner less, where calls nest less than `n` deep. -/
def release : Nat → Nat → Heap N → Option (Heap N)
  | 0, _, _ => none
  | n+1, a, h => (h.cells a).bind fun cell =>
    if 1 < cell.nref then some (h.set a (some { cell with nref := cell.nref - 1 }))
    else (releaseAll (release n) (children cell.node) h).bind (Heap.free a)

/-- The children of what is at an address. -/
def out (cell : Option (Cell N)) : List Nat := cell.elim [] fun cell => children cell.node

/-- How many pointers to the cell there are in others. -/
def edges (h : Heap N) (a : Nat) : Nat := ∑ b ∈ Finset.range h.fresh, (out children (h.cells b)).count a

def Heap.nref (h : Heap N) (a : Nat) : Nat := (h.cells a).elim 0 Cell.nref

/-- The count of each cell is the number of its owners, those outside and the pointers in
    other cells, and no cell is left without one. -/
structure Balanced (h : Heap N) (owners : List Nat) : Prop where
  below : ∀ a cell, h.cells a = some cell → a < h.fresh
  counted : ∀ a, h.nref a = owners.count a + edges children h a
  positive : ∀ a cell, h.cells a = some cell → 0 < cell.nref

/-- Pointers lead downwards. -/
def Ranked (rank : Nat → Nat) (h : Heap N) : Prop :=
  ∀ a cell, h.cells a = some cell → rank a ≤ a ∧ ∀ b ∈ children cell.node, rank b < rank a

/-- Nothing but counts is changed, and cells may have been freed. -/
def Within (h' h : Heap N) : Prop :=
  h'.fresh = h.fresh ∧ ∀ a cell', h'.cells a = some cell' → ∃ cell, h.cells a = some cell ∧ cell.node = cell'.node

/-- A pointer of one cell to another. -/
def Points (h : Heap N) (a b : Nat) : Prop := ∃ cell, h.cells a = some cell ∧ b ∈ children cell.node

/-- An owner reaches the cell. -/
def Reachable (h : Heap N) (owners : List Nat) (a : Nat) : Prop :=
  ∃ owner ∈ owners, Relation.ReflTransGen (Points children h) owner a

variable {children} {h h' : Heap N} {owners others : List Nat} {a b : Nat} {cell : Cell N} {rank : Nat → Nat}

@[simp] theorem set_fresh (h : Heap N) (a : Nat) (cell : Option (Cell N)) : (h.set a cell).fresh = h.fresh := rfl
@[simp] theorem set_self (h : Heap N) (a : Nat) (cell : Option (Cell N)) : (h.set a cell).cells a = cell := by
  simp [Heap.set]
theorem set_other (apart : b ≠ a) (cell : Option (Cell N)) : (h.set a cell).cells b = h.cells b := by
  simp [Heap.set,apart]
@[simp] theorem set_set (h : Heap N) (a : Nat) (cell cell' : Option (Cell N)) : (h.set a cell).set a cell' = h.set a cell' := by
  simp [Heap.set]
theorem set_eq_self {cell : Option (Cell N)} (same : h.cells a = cell) : h.set a cell = h := by
  subst same
  simp [Heap.set]

theorem set_comm (apart : a ≠ b) (cell cell' : Option (Cell N)) :
    (h.set a cell).set b cell' = (h.set b cell').set a cell := by
  simp only [Heap.set,Function.update_comm apart]

theorem nref_set (h : Heap N) (a b : Nat) (cell : Option (Cell N)) :
    (h.set a cell).nref b = if b = a then cell.elim 0 Cell.nref else h.nref b := by
  by_cases same : b = a
  · subst same
    simp [Heap.nref]
  · simp [Heap.nref,same,set_other]

theorem nref_of (is : h.cells a = some cell) : h.nref a = cell.nref := by
  simp [Heap.nref,is]

/-- What a change of one cell makes of the pointers. -/
theorem edges_set (below : a < h.fresh) (cell : Option (Cell N)) (b : Nat) :
    edges children (h.set a cell) b + (out children (h.cells a)).count b =
      edges children h b + (out children cell).count b := by
  have member : a ∈ Finset.range h.fresh := Finset.mem_range.mpr below
  have rest : ∑ x ∈ (Finset.range h.fresh).erase a, (out children ((h.set a cell).cells x)).count b =
      ∑ x ∈ (Finset.range h.fresh).erase a, (out children (h.cells x)).count b := by
    refine Finset.sum_congr rfl fun x inside => ?_
    rw [set_other (Finset.ne_of_mem_erase inside)]
  have before := Finset.add_sum_erase (Finset.range h.fresh) (fun x => (out children (h.cells x)).count b) member
  have after := Finset.add_sum_erase (Finset.range h.fresh) (fun x => (out children ((h.set a cell).cells x)).count b) member
  simp only [set_self] at after
  simp only [edges,set_fresh]
  omega

theorem edges_pos : 0 < edges children h b ↔ ∃ a < h.fresh, b ∈ out children (h.cells a) := by
  rw [edges,Nat.pos_iff_ne_zero,ne_eq,Finset.sum_eq_zero_iff]
  simp [List.count_eq_zero]

theorem balanced_perm (balanced : Balanced children h owners) (perm : owners.Perm others) : Balanced children h others :=
  ⟨balanced.below,fun a => by rw [← perm.count_eq,balanced.counted],balanced.positive⟩

theorem within_refl (h : Heap N) : Within h h := ⟨rfl,fun _ cell is => ⟨cell,is,rfl⟩⟩

theorem within_trans {h'' : Heap N} (later : Within h'' h') (first : Within h' h) : Within h'' h := by
  refine ⟨later.1.trans first.1,fun a cell is => ?_⟩
  obtain ⟨cell',is',node'⟩ := later.2 a cell is
  obtain ⟨cell'',is'',node''⟩ := first.2 a cell' is'
  exact ⟨cell'',is'',node''.trans node'⟩

theorem ranked_within (ranked : Ranked children rank h) (within : Within h' h) : Ranked children rank h' := by
  intro a cell is
  obtain ⟨cell',is',node⟩ := within.2 a cell is
  exact node ▸ ranked a cell' is'

/-- Whatever somebody owns or points to is there. -/
theorem owned_live (balanced : Balanced children h owners) (owned : 0 < owners.count a + edges children h a) :
    ∃ cell, h.cells a = some cell := by
  rw [← balanced.counted] at owned
  cases is : h.cells a with
  | none => simp [Heap.nref,is] at owned
  | some cell => exact ⟨cell,rfl⟩

theorem owner_live (balanced : Balanced children h owners) (member : a ∈ owners) : ∃ cell, h.cells a = some cell :=
  owned_live balanced (Nat.add_pos_left (List.count_pos_iff.mpr member) _)

theorem child_live (balanced : Balanced children h owners) (is : h.cells a = some cell) (child : b ∈ children cell.node) :
    ∃ cell, h.cells b = some cell := by
  refine owned_live balanced (Nat.add_pos_right _ (edges_pos.mpr ⟨a,balanced.below a cell is,?_⟩))
  simpa [out,is] using child

/-- A change of one cell that is there, where the owners change as the counts and the pointers do. -/
theorem balanced_set (balanced : Balanced children h owners) (is : h.cells a = some cell) {new : Option (Cell N)}
    (positive : ∀ cell', new = some cell' → 0 < cell'.nref)
    (here : new.elim 0 Cell.nref + (owners.count a + (children cell.node).count a) =
      cell.nref + (others.count a + (out children new).count a))
    (there : ∀ b ≠ a, owners.count b + (children cell.node).count b = others.count b + (out children new).count b) :
    Balanced children (h.set a new) others := by
  have below := balanced.below a cell is
  refine ⟨fun b cell' is' => ?_,fun b => ?_,fun b cell' is' => ?_⟩
  · by_cases same : b = a
    · exact same ▸ below
    · rw [set_other same] at is'
      exact balanced.below b cell' is'
  · have edges : edges children _ b + _ = edges children h b + _ := edges_set below new b
    have counted := balanced.counted b
    simp only [is,out,Option.elim_some] at edges
    rw [nref_set]
    by_cases same : b = a
    · subst same
      rw [nref_of is] at counted
      simp only [if_true,out] at here ⊢
      omega
    · have apart := there b same
      simp only [same,if_false,out] at apart ⊢
      omega
  · by_cases same : b = a
    · subst same
      exact positive cell' (by simpa using is')
    · rw [set_other same] at is'
      exact balanced.positive b cell' is'

theorem ranked_set (ranked : Ranked children rank h) {new : Option (Cell N)}
    (here : ∀ cell', new = some cell' → rank a ≤ a ∧ ∀ b ∈ children cell'.node, rank b < rank a) :
    Ranked children rank (h.set a new) := by
  intro b cell' is'
  by_cases same : b = a
  · subst same
    exact here cell' (by simpa using is')
  · rw [set_other same] at is'
    exact ranked b cell' is'

/-! ### The operations -/

theorem retain_balanced (balanced : Balanced children h owners) (is : h.cells a = some cell) :
    h.retain a = some (h.set a (some { cell with nref := cell.nref + 1 })) ∧
      Balanced children (h.set a (some { cell with nref := cell.nref + 1 })) (a :: owners) := by
  refine ⟨by simp [Heap.retain,is],balanced_set balanced is (by simp) ?_ fun b apart => ?_⟩
  · simp only [Option.elim_some,out,List.count_cons_self]
    omega
  · simp [out,List.count_cons_of_ne (Ne.symm apart)]

/-- A new cell takes its children from the owners. -/
theorem allocate_balanced {node : N} (balanced : Balanced children h (children node ++ owners)) :
    Balanced children (h.allocate node) (h.fresh :: owners) := by
  have free : h.cells h.fresh = none := by
    cases is : h.cells h.fresh with
    | none => rfl
    | some cell => exact absurd (balanced.below _ cell is) (Nat.lt_irrefl _)
  have unowned := balanced.counted h.fresh
  simp only [Heap.nref,free,Option.elim_none,List.count_append] at unowned
  have edges : ∀ b, edges children (h.allocate node) b = edges children h b + (children node).count b := by
    intro b
    simp only [Counting.edges,Heap.allocate,Finset.sum_range_succ,Function.update_self]
    congr 1
    refine Finset.sum_congr rfl fun x inside => ?_
    rw [Function.update_of_ne (Finset.mem_range.mp inside).ne]
  refine ⟨fun b cell is => ?_,fun b => ?_,fun b cell is => ?_⟩
  · by_cases same : b = h.fresh
    · exact same ▸ Nat.lt_succ_self _
    · simp only [Heap.allocate,Function.update_of_ne same] at is
      exact (balanced.below b cell is).trans (Nat.lt_succ_self _)
  · rw [edges]
    by_cases same : b = h.fresh
    · subst same
      simp only [Heap.nref,Heap.allocate,Function.update_self,Option.elim_some,List.count_cons_self]
      omega
    · have counted := balanced.counted b
      simp only [List.count_append] at counted
      simp only [Heap.nref,Heap.allocate,Function.update_of_ne same,List.count_cons_of_ne (Ne.symm same)]
      simp only [Heap.nref] at counted
      omega
  · by_cases same : b = h.fresh
    · subst same
      simp only [Heap.allocate,Function.update_self,Option.some.injEq] at is
      subst is
      exact Nat.one_pos
    · simp only [Heap.allocate,Function.update_of_ne same] at is
      exact balanced.positive b cell is

/-- The new cell may have any rank above those of its children. -/
theorem allocate_ranked {node : N} (ranked : Ranked children rank h) (balanced : Balanced children h (children node ++ owners))
    {r : Nat} (low : r ≤ h.fresh) (above : ∀ b ∈ children node, rank b < r) :
    Ranked children (Function.update rank h.fresh r) (h.allocate node) := by
  have older : ∀ b, (∃ cell, h.cells b = some cell) → b ≠ h.fresh := by
    rintro b ⟨cell,is⟩
    exact (balanced.below b cell is).ne
  intro b cell is
  by_cases same : b = h.fresh
  · subst same
    simp only [Heap.allocate,Function.update_self,Option.some.injEq] at is
    subst is
    refine ⟨by rwa [Function.update_self],fun c child => ?_⟩
    rw [Function.update_of_ne (older c (owner_live balanced (List.mem_append_left _ child))),Function.update_self]
    exact above c child
  · simp only [Heap.allocate,Function.update_of_ne same] at is
    rw [Function.update_of_ne same]
    refine ⟨(ranked b cell is).1,fun c child => ?_⟩
    rw [Function.update_of_ne (older c (child_live balanced is child))]
    exact (ranked b cell is).2 c child

/-- A node is exchanged for another one, which takes its children from the owners and leaves
    them the old ones. -/
theorem write_balanced {node : N} (balanced : Balanced children h owners) (is : h.cells a = some cell)
    (perm : (children node ++ others).Perm (children cell.node ++ owners)) :
    h.write a node = some (h.set a (some { cell with node := node })) ∧
      Balanced children (h.set a (some { cell with node := node })) others := by
  have counts : ∀ b, (children node).count b + others.count b = (children cell.node).count b + owners.count b := by
    intro b
    rw [← List.count_append,perm.count_eq,List.count_append]
  refine ⟨by simp [Heap.write,is],balanced_set balanced is ?_ ?_ fun b _ => ?_⟩
  · rintro cell' same
    cases same
    exact balanced.positive a cell is
  · have here := counts a
    simp only [Option.elim_some,out]
    omega
  · have there := counts b
    simp only [Option.elim_some,out]
    omega

/-! ### Releasing -/

theorem releaseAll_append (give : Nat → Heap N → Option (Heap N)) (as bs : List Nat) (h : Heap N) :
    releaseAll give (as ++ bs) h = (releaseAll give as h).bind (releaseAll give bs) := by
  induction as generalizing h with
  | nil => rfl
  | cons a as ih =>
    simp only [List.cons_append,releaseAll,Option.bind_assoc]
    exact Option.bind_congr fun mid _ => ih mid

/-- What is released without touching a cell that is not there is released alike where
    there is one. -/
theorem releaseAll_frame {n : Nat} (cell : Option (Cell N)) (each : ∀ b h h' cell, h.cells a = none → release children n b h = some h' →
      h'.cells a = none ∧ release children n b (h.set a cell) = some (h'.set a cell)) :
    ∀ (as : List Nat) (h h' : Heap N), h.cells a = none → releaseAll (release children n) as h = some h' →
      h'.cells a = none ∧ releaseAll (release children n) as (h.set a cell) = some (h'.set a cell) := by
  intro as
  induction as with
  | nil =>
    intro h h' absent done
    cases done
    exact ⟨absent,rfl⟩
  | cons b as ih =>
    intro h h' absent done
    simp only [releaseAll,Option.bind_eq_some_iff] at done
    obtain ⟨mid,first,rest⟩ := done
    obtain ⟨still,framed⟩ := each b h mid cell absent first
    obtain ⟨last,later⟩ := ih mid h' still rest
    exact ⟨last,by simp only [releaseAll,framed,Option.bind_some,later]⟩

theorem release_frame (n : Nat) : ∀ (b : Nat) (h h' : Heap N) (cell : Option (Cell N)), h.cells a = none →
    release children n b h = some h' →
      h'.cells a = none ∧ release children n b (h.set a cell) = some (h'.set a cell) := by
  induction n with
  | zero =>
    intro b h h' cell _ done
    simp [release] at done
  | succ n ih =>
    intro b h h' cell absent done
    simp only [release,Option.bind_eq_some_iff] at done
    obtain ⟨held,is,done⟩ := done
    have apart : b ≠ a := by
      rintro rfl
      exact nomatch absent.symm.trans is
    have is' : (h.set a cell).cells b = some held := by rw [set_other apart,is]
    simp only [release,is',Option.bind_some]
    split at done
    next shared =>
      cases done
      rw [if_pos shared]
      exact ⟨by rw [set_other apart.symm,absent],by rw [set_comm apart.symm]⟩
    next last =>
      rw [if_neg last]
      obtain ⟨mid,rest,freed⟩ := Option.bind_eq_some_iff.mp done
      obtain ⟨still,framed⟩ := releaseAll_frame cell ih (children held.node) h mid absent rest
      simp only [Heap.free,Option.map_eq_some_iff] at freed
      obtain ⟨gone,there,rfl⟩ := freed
      refine ⟨by rw [set_other apart.symm,still],?_⟩
      rw [framed,Option.bind_some,Heap.free,set_other apart,there,Option.map_some,set_comm apart.symm]

/-- The owners of several cells may each be released in turn, if this may be done with one. -/
theorem releaseAll_balanced {n : Nat} (each : ∀ a (h : Heap N) owners, Ranked children rank h →
      Balanced children h (a :: owners) → rank a < n →
      ∃ h', release children n a h = some h' ∧ Balanced children h' owners ∧ Within h' h) :
    ∀ (as : List Nat) (h : Heap N), Ranked children rank h → Balanced children h (as ++ owners) → (∀ a ∈ as, rank a < n) →
      ∃ h', releaseAll (release children n) as h = some h' ∧ Balanced children h' owners ∧ Within h' h := by
  intro as
  induction as with
  | nil => exact fun h _ balanced _ => ⟨h,rfl,balanced,within_refl h⟩
  | cons a as ih =>
    intro h ranked balanced low
    obtain ⟨mid,first,balanced',within⟩ := each a h (as ++ owners) ranked balanced (low a List.mem_cons_self)
    obtain ⟨h',rest,balanced'',within'⟩ := ih mid (ranked_within ranked within) balanced'
      fun b member => low b (List.mem_cons_of_mem a member)
    exact ⟨h',by simp only [releaseAll,first,Option.bind_some,rest],balanced'',within_trans within' within⟩

/-- A cell that is owned once may be taken out, if its children are owned instead. -/
theorem balanced_out (balanced : Balanced children h (a :: owners)) (is : h.cells a = some cell) (last : ¬ 1 < cell.nref) :
    Balanced children (h.set a none) (children cell.node ++ owners) := by
  have counted := balanced.counted a
  rw [nref_of is,List.count_cons_self] at counted
  have alone : owners.count a = 0 ∧ edges children h a = 0 := by omega
  have own : (children cell.node).count a = 0 := by
    by_contra some
    have pointed : 0 < edges children h a :=
      edges_pos.mpr ⟨a,balanced.below a cell is,by simpa [out,is] using List.count_pos_iff.mp (Nat.pos_of_ne_zero some)⟩
    omega
  refine balanced_set balanced is (by simp) ?_ fun b apart => ?_
  · simp only [Option.elim_none,out,List.count_append,List.count_cons_self,List.count_nil]
    omega
  · simp only [out,Option.elim_none,List.count_append,List.count_cons_of_ne (Ne.symm apart),List.count_nil]
    omega

/-- An owner can give up its cell: no freed cell is touched, and the counts stay right. -/
theorem release_balanced (n : Nat) : ∀ (a : Nat) (h : Heap N) (owners : List Nat), Ranked children rank h →
    Balanced children h (a :: owners) → rank a < n →
      ∃ h', release children n a h = some h' ∧ Balanced children h' owners ∧ Within h' h := by
  induction n with
  | zero => exact fun a h owners _ _ low => absurd low (Nat.not_lt_zero _)
  | succ n ih =>
    intro a h owners ranked balanced low
    obtain ⟨cell,is⟩ := owner_live balanced List.mem_cons_self
    simp only [release,is,Option.bind_some]
    split
    next shared =>
      refine ⟨_,rfl,balanced_set balanced is (by simp; omega) ?_ fun b apart => ?_,rfl,fun b cell' is' => ?_⟩
      · simp only [Option.elim_some,out,List.count_cons_self]
        omega
      · simp [out,List.count_cons_of_ne (Ne.symm apart)]
      · by_cases same : b = a
        · subst same
          simp only [set_self,Option.some.injEq] at is'
          exact ⟨cell,is,by rw [← is']⟩
        · rw [set_other same] at is'
          exact ⟨cell',is',rfl⟩
    next last =>
      have taken := balanced_out balanced is last
      have without : Within (h.set a none) h := by
        refine ⟨rfl,fun b cell' is' => ?_⟩
        by_cases same : b = a
        · simp [same] at is'
        · rw [set_other same] at is'
          exact ⟨cell',is',rfl⟩
      have children_low : ∀ b ∈ children cell.node, rank b < n := fun b child =>
        ((ranked a cell is).2 b child).trans_le (Nat.le_of_lt_succ low)
      obtain ⟨h',done,balanced',within⟩ := releaseAll_balanced ih (children cell.node) (h.set a none)
        (ranked_within ranked without) taken children_low
      obtain ⟨absent,framed⟩ := releaseAll_frame (some cell) (release_frame n) (children cell.node) (h.set a none) h'
        (set_self ..) done
      rw [set_set,set_eq_self is] at framed
      refine ⟨h',?_,balanced',within_trans within without⟩
      rw [framed,Option.bind_some,Heap.free,set_self,Option.map_some,set_set,set_eq_self absent]

/-! ### What is left -/

/-- The cells that are left are those that the owners reach. -/
theorem live_iff_reachable (ranked : Ranked children rank h) (balanced : Balanced children h owners) :
    (∃ cell, h.cells a = some cell) ↔ Reachable children h owners a := by
  constructor
  · rintro ⟨cell,is⟩
    -- Upwards: what points to a cell has a greater rank, and ranks are at most addresses.
    generalize room : h.fresh - rank a = n
    induction n using Nat.strong_induction_on generalizing a cell with
    | _ n ih =>
      have counted := balanced.counted a
      rw [nref_of is] at counted
      have positive := balanced.positive a cell is
      by_cases owned : a ∈ owners
      · exact ⟨a,owned,.refl⟩
      · rw [List.count_eq_zero.mpr owned] at counted
        obtain ⟨b,_,pointed⟩ := edges_pos.mp (show 0 < edges children h a by omega)
        cases is' : h.cells b with
        | none => simp [out,is'] at pointed
        | some parent =>
          simp only [out,is',Option.elim_some] at pointed
          have higher := (ranked b parent is').2 a pointed
          have bound := ((ranked b parent is').1).trans_lt (balanced.below b parent is')
          obtain ⟨owner,member,path⟩ := ih (h.fresh - rank b) (by omega) parent is' rfl
          exact ⟨owner,member,path.tail ⟨parent,is',pointed⟩⟩
  · rintro ⟨owner,member,path⟩
    induction path with
    | refl => exact owner_live balanced member
    | tail _ points _ =>
      obtain ⟨parent,is,child⟩ := points
      exact child_live balanced is child

end Starter.Lib.Counting
