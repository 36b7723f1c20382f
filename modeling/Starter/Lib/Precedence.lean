import Mathlib.Data.List.Basic

/-!
Operands joined by binary operators, and the trees that group them. Operators bind by
their rank, those of one rank to the left: every sequence of operands and operators has
exactly one such grouping.
-/
namespace Starter.Lib.Precedence
universe u v w

inductive Grouping (O : Type u) (A : Type v)
  | leaf (a : A)
  | node (op : O) (left right : Grouping O A)

variable {O : Type u} {A : Type v}

/-- The operand that the sequence starts with. -/
def Grouping.first : Grouping O A → A
  | .leaf a => a
  | .node _ left _ => left.first

/-- The operators of the sequence, each with the operand that follows it. -/
def Grouping.rest : Grouping O A → List (O × A)
  | .leaf _ => []
  | .node op left right => left.rest ++ (op,right.first) :: right.rest

def Grouping.leaves (t : Grouping O A) : List A := t.first :: t.rest.map Prod.snd

/-- The operator at the root, if there is one, has a rank of at least `n`. -/
def Grouping.Above (rank : O → Nat) (n : Nat) : Grouping O A → Prop
  | .leaf _ => True
  | .node op _ _ => n ≤ rank op

/-- Higher ranks bind tighter, and equal ranks to the left. -/
def Grouping.Grouped (rank : O → Nat) : Grouping O A → Prop
  | .leaf _ => True
  | .node op left right =>
    left.Grouped rank ∧ right.Grouped rank ∧ left.Above rank (rank op) ∧ right.Above rank (rank op + 1)

/-- One more operator and operand at the right end. -/
def Grouping.push (rank : O → Nat) (op : O) (a : A) : Grouping O A → Grouping O A
  | .leaf b => .node op (.leaf b) (.leaf a)
  | .node root left right =>
    if rank root < rank op then .node root left (right.push rank op a) else .node op (.node root left right) (.leaf a)

def Grouping.pushAll (rank : O → Nat) (t : Grouping O A) (rest : List (O × A)) : Grouping O A :=
  rest.foldl (fun t next => t.push rank next.1 next.2) t

/-- The grouping of a sequence. -/
def group (rank : O → Nat) (first : A) (rest : List (O × A)) : Grouping O A := (Grouping.leaf first).pushAll rank rest

variable {rank : O → Nat} {t left right : Grouping O A} {op : O} {a : A} {n : Nat}

theorem above_zero (t : Grouping O A) : t.Above rank 0 := by
  cases t with
  | leaf a => trivial
  | node op left right => exact Nat.zero_le _

theorem push_first (t : Grouping O A) : (t.push rank op a).first = t.first := by
  induction t with
  | leaf b => rfl
  | node root left right ihLeft ihRight =>
    unfold Grouping.push
    split <;> rfl

theorem push_rest (t : Grouping O A) : (t.push rank op a).rest = t.rest ++ [(op,a)] := by
  induction t with
  | leaf b => rfl
  | node root left right ihLeft ihRight =>
    unfold Grouping.push
    split
    · simp [Grouping.rest,push_first,ihRight]
    · simp [Grouping.rest,Grouping.first]

theorem push_above (above : t.Above rank n) (binds : n ≤ rank op) : (t.push rank op a).Above rank n := by
  cases t with
  | leaf b => exact binds
  | node root left right =>
    unfold Grouping.push
    split
    · exact above
    · exact binds

theorem push_grouped (grouped : t.Grouped rank) : (t.push rank op a).Grouped rank := by
  induction t with
  | leaf b => exact ⟨trivial,trivial,trivial,trivial⟩
  | node root left right ihLeft ihRight =>
    obtain ⟨groupedLeft,groupedRight,aboveLeft,aboveRight⟩ := grouped
    unfold Grouping.push
    split
    · rename_i tighter
      exact ⟨groupedLeft,ihRight groupedRight,aboveLeft,push_above aboveRight tighter⟩
    · rename_i looser
      exact ⟨⟨groupedLeft,groupedRight,aboveLeft,aboveRight⟩,trivial,Nat.le_of_not_lt looser,trivial⟩

theorem pushAll_first (t : Grouping O A) (rest : List (O × A)) : (t.pushAll rank rest).first = t.first := by
  induction rest generalizing t with
  | nil => rfl
  | cons next rest ih => exact (ih _).trans (push_first t)

theorem pushAll_rest (t : Grouping O A) (rest : List (O × A)) : (t.pushAll rank rest).rest = t.rest ++ rest := by
  induction rest generalizing t with
  | nil => simp [Grouping.pushAll]
  | cons next rest ih =>
    have after := ih (t.push rank next.1 next.2)
    rw [push_rest,List.append_assoc] at after
    exact after

theorem pushAll_grouped (grouped : t.Grouped rank) (rest : List (O × A)) : (t.pushAll rank rest).Grouped rank := by
  induction rest generalizing t with
  | nil => exact grouped
  | cons next rest ih => exact ih (push_grouped grouped)

variable (rank) in
@[simp] theorem group_first (first : A) (rest : List (O × A)) : (group rank first rest).first = first :=
  pushAll_first _ _

variable (rank) in
@[simp] theorem group_rest (first : A) (rest : List (O × A)) : (group rank first rest).rest = rest := pushAll_rest _ _

variable (rank) in
theorem group_grouped (first : A) (rest : List (O × A)) : (group rank first rest).Grouped rank :=
  pushAll_grouped (show (Grouping.leaf first : Grouping O A).Grouped rank from trivial) rest

/-- Two groupings with an operator between them, grouped anew. -/
def Grouping.join (rank : O → Nat) (op : O) (left right : Grouping O A) : Grouping O A :=
  group rank left.first (left.rest ++ (op,right.first) :: right.rest)

theorem join_leaves (op : O) (left right : Grouping O A) : (left.join rank op right).leaves = left.leaves ++ right.leaves := by
  simp [Grouping.join,Grouping.leaves]

/-- The root of a grouping has the lowest rank. -/
theorem grouped_above (grouped : t.Grouped rank) (above : t.Above rank n) : ∀ next ∈ t.rest, n ≤ rank next.1 := by
  induction t generalizing n with
  | leaf b => simp [Grouping.rest]
  | node root left right ihLeft ihRight =>
    obtain ⟨groupedLeft,groupedRight,aboveLeft,aboveRight⟩ := grouped
    intro next member
    have lowest : n ≤ rank root := above
    simp only [Grouping.rest,List.mem_append,List.mem_cons] at member
    rcases member with inLeft | rfl | inRight
    · have tighter := ihLeft groupedLeft aboveLeft next inLeft
      omega
    · exact lowest
    · have tighter := ihRight groupedRight aboveRight next inRight
      omega

/-- Operators that bind tighter than the root go into its right operand. -/
theorem pushAll_node {rest : List (O × A)} (tighter : ∀ next ∈ rest, rank op < rank next.1) :
    (Grouping.node op left right).pushAll rank rest = .node op left (right.pushAll rank rest) := by
  induction rest generalizing right with
  | nil => rfl
  | cons next rest ih =>
    have one : (Grouping.node op left right).push rank next.1 next.2 = .node op left (right.push rank next.1 next.2) := by
      simp [Grouping.push,tighter next List.mem_cons_self]
    simp only [Grouping.pushAll,List.foldl_cons,one]
    exact ih fun later member => tighter later (List.mem_cons_of_mem _ member)

/-- A grouping is the one that its sequence has. -/
theorem grouped_eq (grouped : t.Grouped rank) : t = group rank t.first t.rest := by
  induction t with
  | leaf b => rfl
  | node root left right ihLeft ihRight =>
    obtain ⟨groupedLeft,groupedRight,aboveLeft,aboveRight⟩ := grouped
    have split : group rank left.first (left.rest ++ (root,right.first) :: right.rest) =
        (left.push rank root right.first).pushAll rank right.rest := by
      rw [group,Grouping.pushAll,List.foldl_append,List.foldl_cons]
      change Grouping.pushAll rank (Grouping.push rank root right.first (group rank left.first left.rest)) right.rest = _
      rw [← ihLeft groupedLeft]
    have joined : left.push rank root right.first = .node root left (.leaf right.first) := by
      cases left with
      | leaf b => rfl
      | node lower _ _ =>
        have binds : rank root ≤ rank lower := aboveLeft
        simp [Grouping.push,Nat.not_lt.mpr binds]
    have tighter : ∀ next ∈ right.rest, rank root < rank next.1 := fun next member =>
      grouped_above groupedRight aboveRight next member
    rw [Grouping.first,Grouping.rest,split,joined,pushAll_node tighter]
    congr 1
    exact ihRight groupedRight

/-- Two ranks that order the operators of a sequence alike group it alike. -/
theorem grouped_congr {other : O → Nat} (grouped : t.Grouped rank)
    (alike : ∀ x ∈ t.rest, ∀ y ∈ t.rest, rank x.1 ≤ rank y.1 → other x.1 ≤ other y.1)
    (strict : ∀ x ∈ t.rest, ∀ y ∈ t.rest, rank x.1 < rank y.1 → other x.1 < other y.1) : t.Grouped other := by
  induction t with
  | leaf b => trivial
  | node root left right ihLeft ihRight =>
    obtain ⟨groupedLeft,groupedRight,aboveLeft,aboveRight⟩ := grouped
    have inLeft : ∀ x ∈ left.rest, x ∈ (Grouping.node root left right).rest := fun x member => List.mem_append_left _ member
    have inRight : ∀ x ∈ right.rest, x ∈ (Grouping.node root left right).rest := fun x member =>
      List.mem_append_right _ (List.mem_cons_of_mem _ member)
    have atRoot : (root,right.first) ∈ (Grouping.node root left right).rest := List.mem_append_right _ List.mem_cons_self
    refine ⟨?_,?_,?_,?_⟩
    · exact ihLeft groupedLeft (fun x hx y hy => alike x (inLeft x hx) y (inLeft y hy))
        fun x hx y hy => strict x (inLeft x hx) y (inLeft y hy)
    · exact ihRight groupedRight (fun x hx y hy => alike x (inRight x hx) y (inRight y hy))
        fun x hx y hy => strict x (inRight x hx) y (inRight y hy)
    · cases left with
      | leaf b => trivial
      | node lower l r =>
        exact alike _ atRoot (lower,r.first) (inLeft _ (List.mem_append_right _ List.mem_cons_self)) aboveLeft
    · cases right with
      | leaf b => trivial
      | node lower l r =>
        exact strict _ atRoot (lower,r.first) (inRight _ (List.mem_append_right _ List.mem_cons_self)) aboveRight

def Grouping.map {B : Type w} (f : A → B) : Grouping O A → Grouping O B
  | .leaf a => .leaf (f a)
  | .node op left right => .node op (left.map f) (right.map f)

section
variable {B : Type w} {f : A → B}

theorem map_first (t : Grouping O A) : (t.map f).first = f t.first := by
  induction t with
  | leaf a => rfl
  | node op left right ihLeft ihRight => exact ihLeft

theorem map_rest (t : Grouping O A) : (t.map f).rest = t.rest.map fun next => (next.1,f next.2) := by
  induction t with
  | leaf a => rfl
  | node op left right ihLeft ihRight => simp [Grouping.map,Grouping.rest,map_first,ihLeft,ihRight]

theorem map_above : (t.map f).Above rank n ↔ t.Above rank n := by
  cases t with
  | leaf a => exact Iff.rfl
  | node op left right => exact Iff.rfl

theorem map_grouped : (t.map f).Grouped rank ↔ t.Grouped rank := by
  induction t with
  | leaf a => exact Iff.rfl
  | node op left right ihLeft ihRight => simp only [Grouping.map,Grouping.Grouped,ihLeft,ihRight,map_above]

end

/-- The first operand becomes another one. -/
def Grouping.mapFirst (f : A → A) : Grouping O A → Grouping O A
  | .leaf a => .leaf (f a)
  | .node op left right => .node op (left.mapFirst f) right

theorem mapFirst_first (f : A → A) (t : Grouping O A) : (t.mapFirst f).first = f t.first := by
  induction t with
  | leaf a => rfl
  | node op left right ihLeft ihRight => exact ihLeft

theorem mapFirst_rest (f : A → A) (t : Grouping O A) : (t.mapFirst f).rest = t.rest := by
  induction t with
  | leaf a => rfl
  | node op left right ihLeft ihRight => simp [Grouping.mapFirst,Grouping.rest,ihLeft]

theorem mapFirst_grouped (f : A → A) (grouped : t.Grouped rank) : (t.mapFirst f).Grouped rank := by
  induction t with
  | leaf a => trivial
  | node op left right ihLeft ihRight =>
    obtain ⟨groupedLeft,groupedRight,aboveLeft,aboveRight⟩ := grouped
    refine ⟨ihLeft groupedLeft,groupedRight,?_,aboveRight⟩
    cases left with
    | leaf a => trivial
    | node lower l r => exact aboveLeft

end Starter.Lib.Precedence
