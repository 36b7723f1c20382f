import Mathlib.Data.List.Nodup
import Starter.Parallel
import Starter.Snapshots
import Starter.Termination

/-!
The comparison of two trees by `expr_equal`. It is an equivalence, and two trees that it
finds equal are written alike and remember equal values in corresponding `CHANGED` nodes.
-/
namespace Starter.Equality
open Gdouble Expressions Evaluation Parallel References Termination

variable {α : Type}

mutual
/-- The addresses of the function nodes. -/
def addresses : Expr α → List Nat
  | .literal _ => []
  | .op _ left right => addresses left ++ addresses right
  | .ref _ => []
  | .func node _ args => node :: addressesArgs args
  | .flag _ _ => []

def addressesArgs : List (Expr α) → List Nat
  | [] => []
  | e :: es => addresses e ++ addressesArgs es
end

mutual
/-- The expression has no `EVAL`. -/
def evalFree : Expr α → Bool
  | .literal _ => true
  | .op _ left right => evalFree left && evalFree right
  | .ref _ => true
  | .func _ func args => func != .eval && evalFreeArgs args
  | .flag _ _ => true

def evalFreeArgs : List (Expr α) → Bool
  | [] => true
  | e :: es => evalFree e && evalFreeArgs es
end

/-- Two trees are one, or they have no node in common. -/
def Apart (a b : Expr α) : Prop := a = b ∨ ∀ node ∈ addresses a, node ∉ addresses b

theorem addresses_of_args {args : List (Expr α)} {e : Expr α} {node : Nat} (member : e ∈ args) (inside : node ∈ addresses e) :
    node ∈ addressesArgs args := by
  induction args with
  | nil => simp at member
  | cons first rest ih =>
    rcases List.mem_cons.mp member with rfl | member
    · exact List.mem_append_left _ inside
    · exact List.mem_append_right _ (ih member)

theorem addressesArgs_cases {args : List (Expr α)} {node : Nat} (inside : node ∈ addressesArgs args) :
    ∃ e ∈ args, node ∈ addresses e := by
  induction args with
  | nil => simp [addressesArgs] at inside
  | cons first rest ih =>
    rcases List.mem_append.mp inside with here | later
    · exact ⟨first,List.mem_cons_self,here⟩
    · obtain ⟨e,member,found⟩ := ih later
      exact ⟨e,List.mem_cons_of_mem _ member,found⟩

section
variable [Gdouble α]

mutual
/-- A tree in memory has no other nodes. -/
theorem addresses_current (m : Mem α) : ∀ (e : Expr α), ∀ node ∈ addresses (current m e), node ∈ addresses e
  | .literal _ => by simp [current]
  | .op _ left right => by
    intro node inside
    rw [current,addresses,List.mem_append] at inside
    rw [addresses,List.mem_append]
    exact inside.imp (addresses_current m left node) (addresses_current m right node)
  | .ref _ => by simp [current]
  | .func own func args => by
    intro node inside
    rw [addresses,List.mem_cons]
    have each := addresses_currentArgs m args
    simp only [current] at inside
    split at inside <;> rw [addresses,List.mem_cons] at inside
    · refine inside.imp_right fun later => ?_
      obtain ⟨e,member,found⟩ := addressesArgs_cases later
      rcases List.mem_cons.mp member with rfl | member
      · simp [addresses] at found
      · exact each node e (List.mem_of_mem_tail member) found
    · refine inside.imp_right fun later => ?_
      obtain ⟨e,member,found⟩ := addressesArgs_cases later
      rcases List.mem_or_eq_of_mem_set member with member | rfl
      · rcases List.mem_append.mp member with member | member
        · exact each node e member found
        · obtain rfl := List.mem_singleton.mp member
          simp [addresses] at found
      · simp [addresses] at found
    · refine inside.imp_right fun later => ?_
      obtain ⟨e,member,found⟩ := addressesArgs_cases later
      rcases List.mem_append.mp member with member | member
      · exact each node e member found
      · obtain rfl := List.mem_singleton.mp member
        simp [addresses] at found
    · refine inside.imp_right fun later => ?_
      obtain ⟨e,member,found⟩ := addressesArgs_cases later
      exact each node e member found
  | .flag _ _ => by simp [current]

private theorem addresses_currentArgs (m : Mem α) : ∀ (args : List (Expr α)) (node : Nat), ∀ e ∈ currentArgs m args,
    node ∈ addresses e → node ∈ addressesArgs args
  | [] => by simp [currentArgs]
  | first :: rest => by
    intro node e member found
    rw [currentArgs] at member
    rw [addressesArgs,List.mem_append]
    rcases List.mem_cons.mp member with rfl | member
    · exact .inl (addresses_current m first node found)
    · exact .inr (addresses_currentArgs m rest node e member found)
end

/-! The comparison is an equivalence. -/

mutual
theorem sameTree_symm [LawfulGdouble α] : ∀ x y : Expr α, sameTree x y = true → sameTree y x = true
  | .literal _, y => by
    cases y with
    | literal => simpa [sameTree] using LawfulGdouble.eq_symm _ _
    | op | ref | func | flag => simp [sameTree]
  | .op _ l r, y => by
    cases y with
    | op =>
      simp only [sameTree,Bool.and_eq_true,decide_eq_true_eq]
      rintro ⟨⟨rfl,left⟩,right⟩
      exact ⟨⟨rfl,sameTree_symm l _ left⟩,sameTree_symm r _ right⟩
    | literal | ref | func | flag => simp [sameTree]
  | .ref _, y => by
    cases y with
    | ref => simp [sameTree,eq_comm]
    | literal | op | func | flag => simp [sameTree]
  | .func _ _ args, y => by
    cases y with
    | func =>
      simp only [sameTree,Bool.and_eq_true,Bool.or_eq_true,decide_eq_true_eq]
      rintro (rfl | ⟨rfl,each⟩)
      · exact .inl rfl
      · exact .inr ⟨rfl,sameTrees_symm args _ each⟩
    | literal | op | ref | flag => simp [sameTree]
  | .flag _ _, y => by
    cases y with
    | flag =>
      simp only [sameTree,Bool.and_eq_true,decide_eq_true_eq]
      rintro ⟨rfl,rfl⟩
      exact ⟨rfl,rfl⟩
    | literal | op | ref | func => simp [sameTree]

theorem sameTrees_symm [LawfulGdouble α] : ∀ xs ys : List (Expr α), sameTrees xs ys = true → sameTrees ys xs = true
  | [], ys => by cases ys <;> simp [sameTrees]
  | x :: xs, ys => by
    cases ys with
    | nil => simp [sameTrees]
    | cons y ys =>
      simp only [sameTrees,Bool.and_eq_true]
      exact fun ⟨first,rest⟩ => ⟨sameTree_symm x y first,sameTrees_symm xs ys rest⟩
end

mutual
theorem sameTree_trans [LawfulGdouble α] : ∀ x y z : Expr α,
    (∀ node ∈ addresses x, node ∉ addresses y) → (∀ node ∈ addresses y, node ∉ addresses z) →
    sameTree x y = true → sameTree y z = true → sameTree x z = true
  | .literal _, y, z => by
    intro _ _ first second
    cases y with
    | literal =>
      cases z with
      | literal =>
        simp only [sameTree] at first second ⊢
        exact LawfulGdouble.eq_trans _ _ _ first second
      | op | ref | func | flag => simp [sameTree] at second
    | op | ref | func | flag => simp [sameTree] at first
  | .op _ l r, y, z => by
    intro apart apart' first second
    cases y with
    | op _ l' r' =>
      cases z with
      | op _ l'' r'' =>
        simp only [addresses,List.mem_append,not_or] at apart apart'
        simp only [sameTree,Bool.and_eq_true,decide_eq_true_eq] at first second ⊢
        obtain ⟨⟨rfl,left⟩,right⟩ := first
        obtain ⟨⟨rfl,left'⟩,right'⟩ := second
        refine ⟨⟨rfl,?_⟩,?_⟩
        · exact sameTree_trans l l' l'' (fun n inside => (apart n (.inl inside)).1) (fun n inside => (apart' n (.inl inside)).1)
            left left'
        · exact sameTree_trans r r' r'' (fun n inside => (apart n (.inr inside)).2) (fun n inside => (apart' n (.inr inside)).2)
            right right'
      | literal | ref | func | flag => simp [sameTree] at second
    | literal | ref | func | flag => simp [sameTree] at first
  | .ref _, y, z => by
    intro _ _ first second
    cases y with
    | ref =>
      cases z with
      | ref =>
        simp only [sameTree,decide_eq_true_eq] at first second ⊢
        exact first.trans second
      | literal | op | func | flag => simp [sameTree] at second
    | literal | op | func | flag => simp [sameTree] at first
  | .func node _ args, y, z => by
    intro apart apart' first second
    cases y with
    | func node' _ args' =>
      cases z with
      | func node'' _ args'' =>
        simp only [addresses,List.mem_cons,not_or] at apart apart'
        simp only [sameTree,Bool.and_eq_true,Bool.or_eq_true,decide_eq_true_eq] at first second ⊢
        obtain ⟨rfl,each⟩ := first.resolve_left (apart node (.inl rfl)).1
        obtain ⟨rfl,each'⟩ := second.resolve_left (apart' node' (.inl rfl)).1
        refine .inr ⟨rfl,?_⟩
        exact sameTrees_trans args args' args'' (fun n inside => (apart n (.inr inside)).2)
          (fun n inside => (apart' n (.inr inside)).2) each each'
      | literal | op | ref | flag => simp [sameTree] at second
    | literal | op | ref | flag => simp [sameTree] at first
  | .flag _ _, y, z => by
    intro _ _ first second
    cases y with
    | flag =>
      cases z with
      | flag =>
        simp only [sameTree,Bool.and_eq_true,decide_eq_true_eq] at first second ⊢
        exact ⟨first.1.trans second.1,first.2.trans second.2⟩
      | literal | op | ref | func => simp [sameTree] at second
    | literal | op | ref | func => simp [sameTree] at first

theorem sameTrees_trans [LawfulGdouble α] : ∀ xs ys zs : List (Expr α), (∀ node ∈ addressesArgs xs, node ∉ addressesArgs ys) →
    (∀ node ∈ addressesArgs ys, node ∉ addressesArgs zs) → sameTrees xs ys = true → sameTrees ys zs = true →
    sameTrees xs zs = true
  | [], ys, zs => by
    intro _ _ first second
    cases ys with
    | nil => exact second
    | cons => simp [sameTrees] at first
  | x :: xs, ys, zs => by
    intro apart apart' first second
    cases ys with
    | nil => simp [sameTrees] at first
    | cons y ys =>
      cases zs with
      | nil => simp [sameTrees] at second
      | cons z zs =>
        simp only [addressesArgs,List.mem_append,not_or] at apart apart'
        simp only [sameTrees,Bool.and_eq_true] at first second ⊢
        refine ⟨?_,?_⟩
        · exact sameTree_trans x y z (fun n inside => (apart n (.inl inside)).1) (fun n inside => (apart' n (.inl inside)).1)
            first.1 second.1
        · exact sameTrees_trans xs ys zs (fun n inside => (apart n (.inr inside)).2)
            (fun n inside => (apart' n (.inr inside)).2) first.2 second.2
end

section
variable [DecidableEq α]

/-- `expr_equal`, of one tree in one memory and another in another. -/
def equalAcross (m m' : Mem α) (a b : Expr α) : Bool := identical a b || sameTree (current m a) (current m' b)

theorem exprEqual_iff (m : Mem α) (a b : Expr α) : exprEqual m a b = true ↔ a = b ∨ sameTree (current m a) (current m b) = true := by
  rw [exprEqual,Bool.or_eq_true,identical_iff]

variable [LawfulGdouble α]

theorem exprEqual_symm {m : Mem α} {a b : Expr α} (equal : exprEqual m a b = true) : exprEqual m b a = true := by
  rw [exprEqual_iff] at equal ⊢
  exact equal.imp Eq.symm (sameTree_symm _ _)

theorem exprEqual_trans {m : Mem α} {a b c : Expr α} (apart : Apart a b) (apart' : Apart b c) (first : exprEqual m a b = true)
    (second : exprEqual m b c = true) : exprEqual m a c = true := by
  rcases apart with rfl | apart
  · exact second
  rcases apart' with rfl | apart'
  · exact first
  rw [exprEqual_iff] at first second ⊢
  rcases first with rfl | first
  · exact second
  rcases second with rfl | second
  · exact .inr first
  refine .inr (sameTree_trans _ _ _ ?_ ?_ first second)
  · exact fun node inside found => apart node (addresses_current m a node inside) (addresses_current m b node found)
  · exact fun node inside found => apart' node (addresses_current m b node inside) (addresses_current m c node found)

end

/-! What two trees have in common that are found equal. -/

mutual
/-- The `CHANGED` nodes, with the literals that they have before they are first written. -/
def holders : Expr α → List (Nat × Option α)
  | .literal _ => []
  | .op _ left right => holders left ++ holders right
  | .ref _ => []
  | .func node func args => if func = .changed then (node,initial args) :: holdersArgs args else holdersArgs args
  | .flag _ _ => []

def holdersArgs : List (Expr α) → List (Nat × Option α)
  | [] => []
  | e :: es => holders e ++ holdersArgs es
end

mutual
/-- The `CHANGED` nodes of two trees that are at the same places. -/
def pairs : Expr α → Expr α → List ((Nat × Option α) × Nat × Option α)
  | .op _ left right, .op _ left' right' => pairs left left' ++ pairs right right'
  | .func node func args, .func node' func' args' =>
    if func = .changed ∧ func' = .changed then ((node,initial args),node',initial args') :: pairsArgs args args'
    else pairsArgs args args'
  | _, _ => []

def pairsArgs : List (Expr α) → List (Expr α) → List ((Nat × Option α) × Nat × Option α)
  | e :: es, e' :: es' => pairs e e' ++ pairsArgs es es'
  | _, _ => []
end

/-- A node whose second argument is no literal remembers nothing: it is left undefined
    before it writes. -/
def Unwritten (m : Mem α) (e : Expr α) : Prop := ∀ h ∈ holders e, h.2 = none → m.seen h.1 = none

/-- What the nodes of each pair remember is related. -/
def Slots (rel : α → α → Prop) (m m' : Mem α) (nodes : List ((Nat × Option α) × Nat × Option α)) : Prop :=
  ∀ p ∈ nodes, ∀ init init', p.1.2 = some init → p.2.2 = some init' →
    rel ((m.seen p.1.1).getD init) ((m'.seen p.2.1).getD init')

mutual
/-- The trees are written alike, with related literals, and have no `EVAL`. The literal
    that a `CHANGED` node writes over may be any. -/
def Like (lit : α → α → Prop) : Expr α → Expr α → Prop
  | .literal x, .literal y => lit x y
  | .op o l r, .op o' l' r' => o = o' ∧ Like lit l l' ∧ Like lit r r'
  | .ref id, .ref id' => id = id'
  | .func _ func args, .func _ func' args' => func = func' ∧ func ≠ .eval ∧ LikeArgs lit func 0 args args'
  | .flag id bit, .flag id' bit' => bit = bit' ∧ id = id'
  | _, _ => False

/-- The arguments from the one at the index on; behind those of `CHANGED` is the literal
    that `expr_new_func_changed` adds. -/
def LikeArgs (lit : α → α → Prop) (func : Func) : Nat → List (Expr α) → List (Expr α) → Prop
  | index, [], [] => func = .changed → index ≠ 1 → lit dblMin dblMin
  | index, e :: es, e' :: es' =>
    ((func = .changed ∧ index = 1 ∧ ∃ v v', e = .literal v ∧ e' = .literal v') ∨ Like lit e e') ∧
      LikeArgs lit func (index+1) es es'
  | _, _, _ => False
end

/-- The comparison of the two is one of trees that a parser has made. -/
structure Fits (m m' : Mem α) (e e' : Expr α) : Prop where
  free : evalFree e = true
  free' : evalFree e' = true
  apart : ∀ node ∈ addresses e, node ∉ addresses e'
  unwritten : Unwritten m e
  unwritten' : Unwritten m' e'

omit [Gdouble α] in
theorem slots_append {rel : α → α → Prop} {m m' : Mem α} {first second : List ((Nat × Option α) × Nat × Option α)} :
    Slots rel m m' (first ++ second) ↔ Slots rel m m' first ∧ Slots rel m m' second := by
  constructor
  · exact fun all => ⟨fun p member => all p (List.mem_append_left _ member),fun p member => all p (List.mem_append_right _ member)⟩
  · rintro ⟨one,two⟩ p member
    rcases List.mem_append.mp member with member | member
    · exact one p member
    · exact two p member

theorem holders_of_args {args : List (Expr α)} {e : Expr α} {h : Nat × Option α} (member : e ∈ args) (inside : h ∈ holders e) :
    h ∈ holdersArgs args := by
  induction args with
  | nil => simp at member
  | cons first rest ih =>
    rcases List.mem_cons.mp member with rfl | member
    · exact List.mem_append_left _ inside
    · exact List.mem_append_right _ (ih member)

omit [Gdouble α] in
theorem evalFreeArgs_mem {args : List (Expr α)} (all : evalFreeArgs args = true) : ∀ e ∈ args, evalFree e = true := by
  induction args with
  | nil => simp
  | cons first rest ih =>
    obtain ⟨one,others⟩ := Bool.and_eq_true_iff.mp all
    intro e member
    rcases List.mem_cons.mp member with rfl | member
    · exact one
    · exact ih others e member

variable {m m' : Mem α}

theorem Fits.left {o o' : Op} {l r l' r' : Expr α} (fits : Fits m m' (.op o l r) (.op o' l' r')) : Fits m m' l l' := by
  obtain ⟨free,free',apart,unwritten,unwritten'⟩ := fits
  refine ⟨(Bool.and_eq_true_iff.mp free).1,(Bool.and_eq_true_iff.mp free').1,fun node inside found => ?_,?_,?_⟩
  · exact apart node (List.mem_append_left _ inside) (List.mem_append_left _ found)
  · exact fun h inside => unwritten h (List.mem_append_left _ inside)
  · exact fun h inside => unwritten' h (List.mem_append_left _ inside)

theorem Fits.right {o o' : Op} {l r l' r' : Expr α} (fits : Fits m m' (.op o l r) (.op o' l' r')) : Fits m m' r r' := by
  obtain ⟨free,free',apart,unwritten,unwritten'⟩ := fits
  refine ⟨(Bool.and_eq_true_iff.mp free).2,(Bool.and_eq_true_iff.mp free').2,fun node inside found => ?_,?_,?_⟩
  · exact apart node (List.mem_append_right _ inside) (List.mem_append_right _ found)
  · exact fun h inside => unwritten h (List.mem_append_right _ inside)
  · exact fun h inside => unwritten' h (List.mem_append_right _ inside)

theorem unwritten_args {node : Nat} {func : Func} {args : List (Expr α)} (unwritten : Unwritten m (.func node func args))
    {e : Expr α} (member : e ∈ args) : Unwritten m e := by
  intro h inside
  refine unwritten h ?_
  rw [holders]
  split
  · exact List.mem_cons_of_mem _ (holders_of_args member inside)
  · exact holders_of_args member inside

theorem Fits.args {node node' : Nat} {func func' : Func} {args args' : List (Expr α)}
    (fits : Fits m m' (.func node func args) (.func node' func' args')) {e e' : Expr α} (member : e ∈ args)
    (member' : e' ∈ args') : Fits m m' e e' := by
  obtain ⟨free,free',apart,unwritten,unwritten'⟩ := fits
  simp only [evalFree,Bool.and_eq_true] at free free'
  refine ⟨evalFreeArgs_mem free.2 e member,evalFreeArgs_mem free'.2 e' member',fun node inside found => ?_,
    unwritten_args unwritten member,unwritten_args unwritten' member'⟩
  exact apart node (List.mem_cons_of_mem _ (addresses_of_args member inside))
    (List.mem_cons_of_mem _ (addresses_of_args member' found))

/-- The literal behind the arguments. -/
private def added (func : Func) : List (Expr α) := if func = .changed then [.literal dblMin] else []

/-- Two trees are found equal exactly if they are so written, and so remember. -/
private abbrev Told (m m' : Mem α) (e e' : Expr α) : Prop :=
  sameTree (current m e) (current m' e') = true ↔
    Like (fun x y => eq x y = true) e e' ∧ Slots (fun x y => eq x y = true) m m' (pairs e e')

/-- The arguments behind the one that is written over, if there is such. -/
private theorem sameTrees_told {func : Func} {index : Nat} (past : func = .changed → 2 ≤ index) (args args' : List (Expr α))
    (each : ∀ e ∈ args, ∀ e' ∈ args', Told m m' e e') :
    sameTrees (currentArgs m args ++ added func) (currentArgs m' args' ++ added func) = true ↔
      LikeArgs (fun x y => eq x y = true) func index args args' ∧ Slots (fun x y => eq x y = true) m m' (pairsArgs args args') := by
  induction args generalizing args' index with
  | nil =>
    cases args' with
    | nil =>
      by_cases same : func = .changed
      · have two := past same
        have other : index ≠ 1 := by omega
        simp [currentArgs,added,same,sameTrees,sameTree,LikeArgs,other,pairsArgs,Slots]
      · simp [currentArgs,added,same,sameTrees,LikeArgs,pairsArgs,Slots]
    | cons e' es' =>
      by_cases same : func = .changed
      · cases es' <;> simp [currentArgs,added,same,sameTrees,LikeArgs]
      · simp [currentArgs,added,same,sameTrees,LikeArgs]
  | cons e es ih =>
    cases args' with
    | nil =>
      by_cases same : func = .changed
      · cases es <;> simp [currentArgs,added,same,sameTrees,LikeArgs]
      · simp [currentArgs,added,same,sameTrees,LikeArgs]
    | cons e' es' =>
      have head : sameTree (current m e) (current m' e') = true ↔ _ := each e List.mem_cons_self e' List.mem_cons_self
      have rest := ih (show func = .changed → 2 ≤ index+1 from fun same => (past same).trans (Nat.le_succ index)) es'
        (fun x member x' member' => each x (List.mem_cons_of_mem _ member) x' (List.mem_cons_of_mem _ member'))
      have notSlot : ¬ (func = .changed ∧ index = 1) := by
        rintro ⟨same,one⟩
        have two := past same
        omega
      rw [currentArgs,currentArgs,List.cons_append,List.cons_append,sameTrees,Bool.and_eq_true,head,rest,LikeArgs,pairsArgs,
        slots_append]
      have only : (func = .changed ∧ index = 1 ∧ ∃ v v', e = .literal v ∧ e' = .literal v') ↔ False := by
        simp only [iff_false]
        exact fun ⟨same,one,_⟩ => notSlot ⟨same,one⟩
      rw [only,false_or]
      exact and_and_and_comm

/-- The array of a `CHANGED` node as it stands. -/
private def array (m : Mem α) (node : Nat) (args : List (Expr α)) : List (Expr α) :=
  match m.seen node with
  | some v => (currentArgs m args ++ added .changed).set 1 (.literal v)
  | none => currentArgs m args ++ added .changed

private theorem current_changed (node : Nat) (args : List (Expr α)) :
    current m (.func node .changed args) = .func node .changed (array m node args) := by
  cases written : m.seen node <;> simp [current,array,written,added]

private theorem current_func {node : Nat} {func : Func} {args : List (Expr α)} (notEval : func ≠ .eval)
    (notChanged : func ≠ .changed) : current m (.func node func args) = .func node func (currentArgs m args ++ added func) := by
  cases func with
  | eval => exact absurd rfl notEval
  | changed => exact absurd rfl notChanged
  | min | max | round | limit => simp [current,added]

/-- Where the second argument is a literal it stands for what the node remembers. -/
private theorem array_literal {node : Nat} {arg : Expr α} {init : α} {rest : List (Expr α)} :
    array m node (arg :: .literal init :: rest) =
      current m arg :: .literal ((m.seen node).getD init) :: (currentArgs m rest ++ added .changed) := by
  cases written : m.seen node <;> simp [array,written,currentArgs,current]

private theorem array_one {node : Nat} {arg : Expr α} :
    array m node [arg] = [current m arg,.literal ((m.seen node).getD dblMin)] := by
  cases written : m.seen node <;> simp [array,written,currentArgs,added]

private theorem array_other {node : Nat} {arg second : Expr α} {rest : List (Expr α)} (blank : m.seen node = none) :
    array m node (arg :: second :: rest) = current m arg :: current m second :: (currentArgs m rest ++ added .changed) := by
  simp [array,blank,currentArgs]

private theorem array_nil {node : Nat} : array m node [] = [.literal dblMin] := by
  cases written : m.seen node <;> simp [array,written,currentArgs,added]

/-- A literal and another tree are never found equal. -/
private theorem sameTree_mixed {e : Expr α} (other : ∀ v, e ≠ .literal v) (v : α) :
    sameTree (.literal v) (current m e) = false ∧ sameTree (current m e) (.literal v) = false := by
  cases now : current m e with
  | literal w => exact absurd (Snapshots.current_literal now) (other w)
  | op | ref | func | flag => simp [sameTree]

private theorem initial_other {arg second : Expr α} {rest : List (Expr α)} (other : ∀ v, second ≠ .literal v) :
    initial (arg :: second :: rest) = none := by
  cases second with
  | literal v => exact absurd rfl (other v)
  | op | ref | func | flag => rfl

/-- The arguments of two `CHANGED` nodes. -/
private theorem arrays_told {node node' : Nat} {args args' : List (Expr α)}
    (blank : initial args = none → m.seen node = none) (blank' : initial args' = none → m'.seen node' = none)
    (each : ∀ e ∈ args, ∀ e' ∈ args', Told m m' e e') :
    sameTrees (array m node args) (array m' node' args') = true ↔
      LikeArgs (fun x y => eq x y = true) .changed 0 args args' ∧
        Slots (fun x y => eq x y = true) m m' (((node,initial args),node',initial args') :: pairsArgs args args') := by
  have own : ∀ nodes, Slots (fun x y => eq x y = true) m m' (((node,initial args),node',initial args') :: nodes) ↔
      (∀ init init', initial args = some init → initial args' = some init' →
        eq ((m.seen node).getD init) ((m'.seen node').getD init') = true) ∧
      Slots (fun x y => eq x y = true) m m' nodes := by
    intro nodes
    simp only [Slots,List.forall_mem_cons]
  rw [own]
  rcases args with _ | ⟨arg,_ | ⟨second,rest⟩⟩
  · rcases args' with _ | ⟨arg',_ | ⟨second',rest'⟩⟩
    · simp [array_nil,sameTrees,sameTree,LikeArgs,pairsArgs,Slots,initial]
    · simp [array_nil,array_one,sameTrees,LikeArgs]
    · by_cases literal : ∃ v, second' = .literal v
      · obtain ⟨v,rfl⟩ := literal
        simp [array_nil,array_literal,sameTrees,LikeArgs]
      · push Not at literal
        simp [array_nil,array_other (blank' (initial_other literal)),sameTrees,LikeArgs]
  · rcases args' with _ | ⟨arg',_ | ⟨second',rest'⟩⟩
    · simp [array_nil,array_one,sameTrees,LikeArgs]
    · have head : sameTree (current m arg) (current m' arg') = true ↔ _ := each arg (by simp) arg' (by simp)
      simp only [array_one,sameTrees,sameTree,Bool.and_true,Bool.and_eq_true,head,LikeArgs,pairsArgs,slots_append,initial]
      simp [Slots]
      exact and_assoc.trans (and_congr_right fun _ => and_comm)
    · have short : sameTrees (array m node [arg]) (array m' node' (arg' :: second' :: rest')) = false := by
        by_cases literal : ∃ v, second' = .literal v
        · obtain ⟨v,rfl⟩ := literal
          cases rest' <;> simp [array_one,array_literal,sameTrees,added,currentArgs]
        · push Not at literal
          cases rest' <;> simp [array_one,array_other (blank' (initial_other literal)),sameTrees,added,currentArgs]
      simp [short,LikeArgs]
  · rcases args' with _ | ⟨arg',_ | ⟨second',rest'⟩⟩
    · by_cases literal : ∃ v, second = .literal v
      · obtain ⟨v,rfl⟩ := literal
        simp [array_nil,array_literal,sameTrees,LikeArgs]
      · push Not at literal
        simp [array_nil,array_other (blank (initial_other literal)),sameTrees,LikeArgs]
    · have short : sameTrees (array m node (arg :: second :: rest)) (array m' node' [arg']) = false := by
        by_cases literal : ∃ v, second = .literal v
        · obtain ⟨v,rfl⟩ := literal
          cases rest <;> simp [array_one,array_literal,sameTrees,added,currentArgs]
        · push Not at literal
          cases rest <;> simp [array_one,array_other (blank (initial_other literal)),sameTrees,added,currentArgs]
      simp [short,LikeArgs]
    · have head : sameTree (current m arg) (current m' arg') = true ↔ _ := each arg (by simp) arg' (by simp)
      have next : sameTree (current m second) (current m' second') = true ↔ _ := each second (by simp) second' (by simp)
      have later := @sameTrees_told α _ m m' .changed 2 (fun _ => le_rfl) rest rest'
        (fun x member x' member' => each x (by simp [member]) x' (by simp [member']))
      simp only [LikeArgs,pairsArgs,slots_append]
      by_cases literal : ∃ v, second = .literal v
      · obtain ⟨v,rfl⟩ := literal
        by_cases literal' : ∃ v', second' = .literal v'
        · obtain ⟨v',rfl⟩ := literal'
          simp only [array_literal,sameTrees,sameTree,Bool.and_eq_true,head,later,initial]
          have none : Slots (fun x y => eq x y = true) m m' (pairs (.literal v : Expr α) (.literal v')) := by simp [pairs,Slots]
          simp only [none,Option.some.injEq,true_and]
          simp
          constructor
          · rintro ⟨⟨like,slots⟩,own,likeRest,slotsRest⟩
            exact ⟨⟨like,likeRest⟩,own,slots,slotsRest⟩
          · rintro ⟨⟨like,likeRest⟩,own,slots,slotsRest⟩
            exact ⟨⟨like,slots⟩,own,likeRest,slotsRest⟩
        · push Not at literal'
          have mixed := (@sameTree_mixed α _ m' second' literal' ((m.seen node).getD v)).1
          have unlike : ¬ Like (fun x y => eq x y = true) (.literal v) second' := by
            cases second' with
            | literal w => exact absurd rfl (literal' w)
            | op | ref | func | flag => simp [Like]
          simp [array_literal,array_other (blank' (initial_other literal')),sameTrees,mixed,unlike,literal']
      · push Not at literal
        by_cases literal' : ∃ v', second' = .literal v'
        · obtain ⟨v',rfl⟩ := literal'
          have mixed := (@sameTree_mixed α _ m second literal ((m'.seen node').getD v')).2
          have unlike : ¬ Like (fun x y => eq x y = true) second (.literal v') := by
            cases second with
            | literal w => exact absurd rfl (literal w)
            | op | ref | func | flag => simp [Like]
          simp [array_literal,array_other (blank (initial_other literal)),sameTrees,mixed,unlike,literal]
        · push Not at literal'
          simp only [array_other (blank (initial_other literal)),array_other (blank' (initial_other literal')),sameTrees,
            Bool.and_eq_true,head,next,later,initial_other literal]
          simp [literal]
          constructor
          · rintro ⟨⟨like,slots⟩,⟨likeNext,slotsNext⟩,likeRest,slotsRest⟩
            exact ⟨⟨like,likeNext,likeRest⟩,slots,slotsNext,slotsRest⟩
          · rintro ⟨⟨like,likeNext,likeRest⟩,slots,slotsNext,slotsRest⟩
            exact ⟨⟨like,slots⟩,⟨likeNext,slotsNext⟩,likeRest,slotsRest⟩

private theorem current_node (node : Nat) (func : Func) (args : List (Expr α)) :
    ∃ args', current m (.func node func args) = .func node func args' := by
  simp only [current]
  split <;> exact ⟨_,rfl⟩

mutual
/-- Trees are found equal exactly if they are written alike, with equal literals, and their `CHANGED` nodes remember equal
values. -/
theorem sameTree_told : ∀ e e' : Expr α, Fits m m' e e' → (sameTree (current m e) (current m' e') = true ↔
    Like (fun x y => eq x y = true) e e' ∧ Slots (fun x y => eq x y = true) m m' (pairs e e'))
  | .literal _ => by
    intro e' _
    cases e' with
    | literal => simp [current,sameTree,Like,pairs,Slots]
    | op | ref | flag => simp [current,sameTree,Like]
    | func node' func' args' =>
      obtain ⟨now,is⟩ := @current_node α _ m' node' func' args'
      rw [is]
      simp [current,sameTree,Like]
  | .op _ l r => by
    intro e' fits
    cases e' with
    | op o' l' r' =>
      have one := sameTree_told l l' fits.left
      have two := sameTree_told r r' fits.right
      simp only [current,sameTree,Like,pairs,slots_append,Bool.and_eq_true,decide_eq_true_eq,one,two]
      constructor
      · rintro ⟨⟨same,likeLeft,slotsLeft⟩,likeRight,slotsRight⟩
        exact ⟨⟨same,likeLeft,likeRight⟩,slotsLeft,slotsRight⟩
      · rintro ⟨⟨same,likeLeft,likeRight⟩,slotsLeft,slotsRight⟩
        exact ⟨⟨same,likeLeft,slotsLeft⟩,likeRight,slotsRight⟩
    | literal | ref | flag => simp [current,sameTree,Like]
    | func node' func' args' =>
      obtain ⟨now,is⟩ := @current_node α _ m' node' func' args'
      rw [is]
      simp [current,sameTree,Like]
  | .ref _ => by
    intro e' _
    cases e' with
    | ref => simp [current,sameTree,Like,pairs,Slots]
    | literal | op | flag => simp [current,sameTree,Like]
    | func node' func' args' =>
      obtain ⟨now,is⟩ := @current_node α _ m' node' func' args'
      rw [is]
      simp [current,sameTree,Like]
  | .func node func args => by
    intro e' fits
    obtain ⟨now,is⟩ := @current_node α _ m node func args
    cases e' with
    | literal | op | ref | flag =>
      rw [is]
      simp [current,sameTree,Like]
    | func node' func' args' =>
      have each := sameTree_toldArgs args args' fun e member e' member' => fits.args member member'
      have other : node ≠ node' := fun same => fits.apart node List.mem_cons_self (same ▸ List.mem_cons_self)
      by_cases same : func = func'
      · subst same
        have notEval : func ≠ .eval := by
          have free := fits.free
          simp only [evalFree,Bool.and_eq_true,bne_iff_ne] at free
          exact free.1
        by_cases changed : func = .changed
        · subst changed
          have blank : initial args = none → m.seen node = none :=
            fits.unwritten (node,initial args) (by simp [holders])
          have blank' : initial args' = none → m'.seen node' = none :=
            fits.unwritten' (node',initial args') (by simp [holders])
          have arrays := arrays_told blank blank' each
          simp only [current_changed,sameTree,Like,pairs,other,decide_false,Bool.false_or,decide_true,Bool.true_and,true_and,
            and_self,if_true,arrays]
          simp
        · have lists := @sameTrees_told α _ m m' func 0 (fun same => absurd same changed) args args' each
          simp only [current_func notEval changed,sameTree,Like,pairs,other,decide_false,Bool.false_or,decide_true,
            Bool.true_and,true_and,changed,and_self,if_false,notEval,ne_eq,not_false_eq_true,lists]
      · obtain ⟨now',is'⟩ := @current_node α _ m' node' func' args'
        rw [is,is']
        simp [sameTree,Like,other,same]
  | .flag _ _ => by
    intro e' _
    cases e' with
    | flag => simp [current,sameTree,Like,pairs,Slots]
    | literal | op | ref => simp [current,sameTree,Like]
    | func node' func' args' =>
      obtain ⟨now,is⟩ := @current_node α _ m' node' func' args'
      rw [is]
      simp [current,sameTree,Like]

private theorem sameTree_toldArgs : ∀ args args' : List (Expr α), (∀ e ∈ args, ∀ e' ∈ args', Fits m m' e e') →
    ∀ e ∈ args, ∀ e' ∈ args', Told m m' e e'
  | [] => by simp
  | first :: rest => by
    intro args' fits e member e' member'
    rcases List.mem_cons.mp member with same | member
    · rw [same]
      exact sameTree_told first e' (fits first List.mem_cons_self e' member')
    · exact sameTree_toldArgs rest args' (fun x inside => fits x (List.mem_cons_of_mem _ inside)) e member e' member'
end

/-! The pairs are nodes of the trees, each node in one of them. -/

mutual
theorem holders_sublist : ∀ e : Expr α, List.Sublist ((holders e).map Prod.fst) (addresses e)
  | .literal _ => List.Sublist.slnil
  | .op _ left right => by
    rw [holders,List.map_append]
    exact (holders_sublist left).append (holders_sublist right)
  | .ref _ => List.Sublist.slnil
  | .func node func args => by
    rw [holders]
    split
    · exact (holdersArgs_sublist args).cons_cons node
    · exact (holdersArgs_sublist args).cons node
  | .flag _ _ => List.Sublist.slnil

theorem holdersArgs_sublist : ∀ args : List (Expr α), List.Sublist ((holdersArgs args).map Prod.fst) (addressesArgs args)
  | [] => List.Sublist.slnil
  | e :: es => by
    rw [holdersArgs,List.map_append]
    exact (holders_sublist e).append (holdersArgs_sublist es)
end

mutual
theorem pairs_fst : ∀ e e' : Expr α, List.Sublist ((pairs e e').map Prod.fst) (holders e)
  | .literal _ => fun e' => by cases e' <;> exact List.nil_sublist _
  | .op _ left right => fun e' => by
    cases e' with
    | op _ left' right' =>
      rw [pairs,List.map_append]
      exact (pairs_fst left left').append (pairs_fst right right')
    | literal | ref | func | flag => exact List.nil_sublist _
  | .ref _ => fun e' => by cases e' <;> exact List.nil_sublist _
  | .func node func args => fun e' => by
    cases e' with
    | func node' func' args' =>
      have rest := pairsArgs_fst args args'
      rw [pairs,holders]
      by_cases changed : func = .changed
      · rw [if_pos changed]
        split
        · exact rest.cons_cons _
        · exact rest.cons _
      · rw [if_neg changed,if_neg fun both => changed both.1]
        exact rest
    | literal | op | ref | flag => exact List.nil_sublist _
  | .flag _ _ => fun e' => by cases e' <;> exact List.nil_sublist _

theorem pairsArgs_fst : ∀ args args' : List (Expr α), List.Sublist ((pairsArgs args args').map Prod.fst) (holdersArgs args)
  | [] => fun args' => by cases args' <;> exact List.nil_sublist _
  | e :: es => fun args' => by
    cases args' with
    | nil => exact List.nil_sublist _
    | cons e' es' =>
      rw [pairsArgs,List.map_append]
      exact (pairs_fst e e').append (pairsArgs_fst es es')
end

mutual
theorem pairs_snd : ∀ e e' : Expr α, List.Sublist ((pairs e e').map Prod.snd) (holders e')
  | .literal _ => fun e' => by cases e' <;> exact List.nil_sublist _
  | .op _ left right => fun e' => by
    cases e' with
    | op _ left' right' =>
      rw [pairs,List.map_append]
      exact (pairs_snd left left').append (pairs_snd right right')
    | literal | ref | func | flag => exact List.nil_sublist _
  | .ref _ => fun e' => by cases e' <;> exact List.nil_sublist _
  | .func node func args => fun e' => by
    cases e' with
    | func node' func' args' =>
      have rest := pairsArgs_snd args args'
      rw [pairs,holders]
      by_cases changed : func' = .changed
      · rw [if_pos changed]
        split
        · exact rest.cons_cons _
        · exact rest.cons _
      · rw [if_neg changed,if_neg fun both => changed both.2]
        exact rest
    | literal | op | ref | flag => exact List.nil_sublist _
  | .flag _ _ => fun e' => by cases e' <;> exact List.nil_sublist _

theorem pairsArgs_snd : ∀ args args' : List (Expr α), List.Sublist ((pairsArgs args args').map Prod.snd) (holdersArgs args')
  | [] => fun args' => by cases args' <;> exact List.nil_sublist _
  | e :: es => fun args' => by
    cases args' with
    | nil => exact List.nil_sublist _
    | cons e' es' =>
      rw [pairsArgs,List.map_append]
      exact (pairs_snd e e').append (pairsArgs_snd es es')
end

theorem holder_address {e : Expr α} {h : Nat × Option α} (member : h ∈ holders e) : h.1 ∈ addresses e :=
  (holders_sublist e).subset (List.mem_map_of_mem member)

/-- One address has one `CHANGED` node. -/
theorem holder_unique {e : Expr α} (once : (addresses e).Nodup) {h k : Nat × Option α} (first : h ∈ holders e)
    (second : k ∈ holders e) (same : h.1 = k.1) : h = k :=
  List.inj_on_of_nodup_map ((holders_sublist e).nodup once) first second same

variable {e e' : Expr α} {p q : (Nat × Option α) × Nat × Option α}

theorem pair_holders (member : p ∈ pairs e e') : p.1 ∈ holders e ∧ p.2 ∈ holders e' :=
  ⟨(pairs_fst e e').subset (List.mem_map_of_mem member),(pairs_snd e e').subset (List.mem_map_of_mem member)⟩

/-- A node of the first tree is in one pair, and so is one of the second. -/
theorem pair_unique (once : (addresses e).Nodup) (once' : (addresses e').Nodup) (first : p ∈ pairs e e')
    (second : q ∈ pairs e e') : (p.1.1 = q.1.1 ↔ p.2.1 = q.2.1) := by
  have left : ((pairs e e').map fun p => p.1.1).Nodup := by
    have all := (((pairs_fst e e').map Prod.fst).trans (holders_sublist e)).nodup once
    rwa [List.map_map] at all
  have right : ((pairs e e').map fun p => p.2.1).Nodup := by
    have all := (((pairs_snd e e').map Prod.fst).trans (holders_sublist e')).nodup once'
    rwa [List.map_map] at all
  constructor
  · intro same
    rw [List.inj_on_of_nodup_map left first second same]
  · intro same
    rw [List.inj_on_of_nodup_map right first second same]

/-! Trees that are written alike name the same things. -/

variable {lit : α → α → Prop}

mutual
theorem refs_like : ∀ e e' : Expr α, Like lit e e' → refs e = refs e'
  | .literal _ => fun e' like => by
    cases e' with
    | literal => rfl
    | op | ref | func | flag => exact like.elim
  | .op _ left right => fun e' like => by
    cases e' with
    | op _ left' right' => rw [refs,refs,refs_like left left' like.2.1,refs_like right right' like.2.2]
    | literal | ref | func | flag => exact like.elim
  | .ref _ => fun e' like => by
    cases e' with
    | ref => rw [refs,refs,show _ = _ from like]
    | literal | op | func | flag => exact like.elim
  | .func _ func args => fun e' like => by
    cases e' with
    | func _ _ args' => rw [refs,refs,refsArgs_like func args 0 args' like.2.2]
    | literal | op | ref | flag => exact like.elim
  | .flag _ _ => fun e' like => by
    cases e' with
    | flag => rfl
    | literal | op | ref | func => exact like.elim

theorem refsArgs_like (func : Func) : ∀ (args : List (Expr α)) index args', LikeArgs lit func index args args' →
    refsArgs args = refsArgs args'
  | [] => fun _ args' like => by
    cases args' with
    | nil => rfl
    | cons => exact like.elim
  | e :: es => fun index args' like => by
    cases args' with
    | nil => exact like.elim
    | cons e' es' =>
      rw [refsArgs,refsArgs,refsArgs_like func es (index+1) es' like.2]
      rcases like.1 with ⟨_,_,_,_,first,second⟩ | same
      · rw [first,second]
        rfl
      · rw [refs_like e e' same]
end

omit [Gdouble α] in
private theorem reaches_op {vars : Variables α} {captured : Nat → Option α} {names : String → Prop} {o : Op} {l r : Expr α} :
    Reaches vars captured names (.op o l r) ↔ Reaches vars captured names l ∨ Reaches vars captured names r := by
  constructor
  · intro reaches
    cases reaches with
    | left inside => exact .inl inside
    | right inside => exact .inr inside
  · rintro (inside | inside)
    · exact .left inside
    · exact .right inside

omit [Gdouble α] in
private theorem reaches_func {vars : Variables α} {captured : Nat → Option α} {names : String → Prop} {node : Nat} {func : Func}
    {args : List (Expr α)} (notEval : func ≠ .eval) :
    Reaches vars captured names (.func node func args) ↔ ∃ x ∈ args, Reaches vars captured names x := by
  constructor
  · intro reaches
    cases reaches with
    | arg live inside => exact ⟨_,liveArgs_subset live,inside⟩
  · rintro ⟨x,member,inside⟩
    exact .arg (by simpa [liveArgs,notEval] using member) inside

variable {vars : Variables α} {captured : Nat → Option α} {names : String → Prop}

omit [Gdouble α] in
private theorem reaches_literal {v : α} : ¬ Reaches vars captured names (.literal v) := nofun

mutual
theorem reaches_like : ∀ e e' : Expr α, Like lit e e' → (Reaches vars captured names e ↔ Reaches vars captured names e')
  | .literal _ => fun e' like => by
    cases e' with
    | literal => exact iff_of_false reaches_literal reaches_literal
    | op | ref | func | flag => exact like.elim
  | .op _ left right => fun e' like => by
    cases e' with
    | op _ left' right' =>
      rw [reaches_op,reaches_op,reaches_like left left' like.2.1,reaches_like right right' like.2.2]
    | literal | ref | func | flag => exact like.elim
  | .ref _ => fun e' like => by
    cases e' with
    | ref => rw [show _ = _ from like]
    | literal | op | func | flag => exact like.elim
  | .func _ func args => fun e' like => by
    cases e' with
    | func _ func' args' =>
      obtain ⟨rfl,notEval,each⟩ := like
      rw [reaches_func notEval,reaches_func notEval,reachesArgs_like func args 0 args' each]
    | literal | op | ref | flag => exact like.elim
  | .flag _ _ => fun e' like => by
    cases e' with
    | flag =>
      obtain ⟨rfl,rfl⟩ := like
      rfl
    | literal | op | ref | func => exact like.elim

theorem reachesArgs_like (func : Func) : ∀ (args : List (Expr α)) index args', LikeArgs lit func index args args' →
    ((∃ x ∈ args, Reaches vars captured names x) ↔ ∃ x ∈ args', Reaches vars captured names x)
  | [] => fun _ args' like => by
    cases args' with
    | nil => rfl
    | cons => exact like.elim
  | e :: es => fun index args' like => by
    cases args' with
    | nil => exact like.elim
    | cons e' es' =>
      have rest := reachesArgs_like func es (index+1) es' like.2
      have first : Reaches vars captured names e ↔ Reaches vars captured names e' := by
        rcases like.1 with ⟨_,_,_,_,one,two⟩ | same
        · rw [one,two]
          exact iff_of_false reaches_literal reaches_literal
        · exact reaches_like e e' same
      simp only [List.exists_mem_cons_iff,first,rest]
end

end

end Starter.Equality
