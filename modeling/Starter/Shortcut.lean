import Starter.Aliases
import Starter.Equality
import Starter.Histories

/-!
The shortcut of `st_var_set_value`: an expression that `expr_equal` finds equal to the
stored one is not stored. Two such expressions run in step, each with the memory of its own
nodes, and nothing that is evaluated can tell which of them is there.
-/
namespace Starter.Shortcut
open Gdouble Expressions Evaluation Parallel References Termination Equality Aliases Histories Lib.Approx Lib.Graphs

variable {α : Type} [Gdouble α]

/-- Every comparison with the two comes out alike. -/
def Alike (x y : α) : Prop := ∀ z, eq x z = eq y z ∧ eq z x = eq z y

/-- The two memories differ in nothing but the nodes of the two trees, and there each node
    of `a` remembers in the first what its fellow of `b` does in the second. -/
structure Twin (a b : Expr α) (m m' : Mem α) : Prop where
  captured : m.captured = m'.captured
  others : ∀ node, node ∉ addresses a → node ∉ addresses b → m.seen node = m'.seen node
  slots : Slots Alike m m' (pairs a b)
  unwritten : Unwritten m a
  unwritten' : Unwritten m' b

/-- From such memories the computations end alike, and leave such memories. -/
def InStep (a b : Expr α) (x y : Eval α α) : Prop :=
  ∀ m m', Twin a b m m' → Option.Rel (fun r r' => r.1 = r'.1 ∧ Twin a b r.2 r'.2) (x m) (y m')

variable {a b : Expr α} {m m' : Mem α}

theorem alike_refl (x : α) : Alike x x := fun _ => ⟨rfl,rfl⟩

theorem alike_of_eq [LawfulGdouble α] {x y : α} (equal : eq x y = true) : Alike x y := by
  have back := LawfulGdouble.eq_symm x y equal
  refine fun z => ⟨?_,?_⟩
  · rw [Bool.eq_iff_iff]
    exact ⟨LawfulGdouble.eq_trans y x z back,LawfulGdouble.eq_trans x y z equal⟩
  · rw [Bool.eq_iff_iff]
    exact ⟨fun first => LawfulGdouble.eq_trans z x y first equal,fun first => LawfulGdouble.eq_trans z y x first back⟩

theorem inStep_side (a b : Expr α) : Side True (InStep a b) := by
  refine ⟨?_,?_,?_,?_⟩
  · intro v w same m m' twin
    rw [same trivial]
    exact .some ⟨rfl,twin⟩
  · exact fun e m m' twin => .some ⟨rfl,twin⟩
  · exact fun m m' twin => .some ⟨rfl,twin⟩
  · intro x y f g first next m m' twin
    rw [andThen,andThen]
    rcases called : x m with _ | ⟨out,t⟩ <;> rcases called' : y m' with _ | ⟨out',t'⟩ <;>
      have both := first m m' twin <;> rw [called,called'] at both <;> cases both
    · exact .none
    · rename_i both
      obtain ⟨rfl,twin⟩ := both
      cases out with
      | value v => exact next v v (Agree.refl _ v) t t' twin
      | error error => exact .some ⟨rfl,twin⟩
      | undefined => exact .some ⟨rfl,twin⟩

/-- Fellow nodes write the same value. -/
theorem twin_pair {p : (Nat × Option α) × Nat × Option α} {init init' : α} (once : (addresses a).Nodup)
    (once' : (addresses b).Nodup) (member : p ∈ pairs a b) (first : p.1.2 = some init) (second : p.2.2 = some init') (v : α) :
    InStep a b (changedStore p.1.1 init v) (changedStore p.2.1 init' v) := by
  intro m m' twin
  obtain ⟨holder,holder'⟩ := pair_holders member
  have same := twin.slots p member init init' first second
  refine .some ⟨?_,twin.captured,?_,?_,?_,?_⟩
  · simp only [(same dblMin).1,(same v).2]
  · intro node off off'
    have other : node ≠ p.1.1 := fun is => off (is ▸ holder_address holder)
    have other' : node ≠ p.2.1 := fun is => off' (is ▸ holder_address holder')
    simp only [Function.update_of_ne other,Function.update_of_ne other']
    exact twin.others node off off'
  · intro q inside i i' has has'
    have unique := pair_unique once once' inside member
    by_cases here : q.1.1 = p.1.1
    · simp only [here,unique.mp here,Function.update_self,Option.getD_some]
      exact alike_refl v
    · simp only [Function.update_of_ne here,Function.update_of_ne fun is => here (unique.mpr is)]
      exact twin.slots q inside i i' has has'
  · intro h inside none
    have other : h.1 ≠ p.1.1 := fun is => by
      rw [holder_unique once inside holder is,first] at none
      cases none
    simp only [Function.update_of_ne other]
    exact twin.unwritten h inside none
  · intro h inside none
    have other : h.1 ≠ p.2.1 := fun is => by
      rw [holder_unique once' inside holder' is,second] at none
      cases none
    simp only [Function.update_of_ne other]
    exact twin.unwritten' h inside none

/-- A node of neither tree writes the same value. -/
theorem twin_other {node : Nat} (off : node ∉ addresses a) (off' : node ∉ addresses b) (init v : α) :
    InStep a b (changedStore node init v) (changedStore node init v) := by
  intro m m' twin
  have same := twin.others node off off'
  have holder : ∀ h ∈ holders a, h.1 ≠ node := fun h inside is => off (is ▸ holder_address inside)
  have holder' : ∀ h ∈ holders b, h.1 ≠ node := fun h inside is => off' (is ▸ holder_address inside)
  refine .some ⟨?_,twin.captured,?_,?_,?_,?_⟩
  · simp only [same]
  · intro k away away'
    by_cases here : k = node
    · simp only [here,Function.update_self]
    · simp only [Function.update_of_ne here]
      exact twin.others k away away'
  · intro q inside i i' has has'
    obtain ⟨one,two⟩ := pair_holders inside
    simp only [Function.update_of_ne (holder _ one),Function.update_of_ne (holder' _ two)]
    exact twin.slots q inside i i' has has'
  · intro h inside none
    simp only [Function.update_of_ne (holder h inside)]
    exact twin.unwritten h inside none
  · intro h inside none
    simp only [Function.update_of_ne (holder' h inside)]
    exact twin.unwritten' h inside none

/-- Two trees at the same place of the two. -/
structure Part (a b : Expr α) (names : String → Prop) (e e' : Expr α) : Prop where
  like : Like (· = ·) e e'
  inside : ∀ p ∈ pairs e e', p ∈ pairs a b
  near : ∀ x ∈ refs e, names x

/-- A tree that has no node in common with the two. -/
structure Foreign (a b : Expr α) (names : String → Prop) (e : Expr α) : Prop where
  off : ∀ node ∈ addresses e, node ∉ addresses a ∧ node ∉ addresses b
  near : ∀ x ∈ refs e, names x

/-- The arguments of two nodes at the same place, from an index on. -/
structure Parts (a b : Expr α) (names : String → Prop) (func : Func) (index : Nat) (args args' : List (Expr α)) : Prop where
  like : LikeArgs (· = ·) func index args args'
  inside : ∀ p ∈ pairsArgs args args', p ∈ pairs a b
  near : ∀ x ∈ refsArgs args, names x

variable {names : String → Prop} {e e' : Expr α} {func : Func} {index : Nat} {es es' : List (Expr α)}

theorem Parts.head (parts : Parts a b names func index (e :: es) (e' :: es')) :
    (func = .changed ∧ index = 1 ∧ ∃ v v', e = .literal v ∧ e' = .literal v') ∨ Part a b names e e' := by
  refine parts.like.1.imp_right fun like => ⟨like,?_,?_⟩
  · exact fun p member => parts.inside p (List.mem_append_left _ member)
  · exact fun x member => parts.near x (List.mem_append_left _ member)

theorem Parts.tail (parts : Parts a b names func index (e :: es) (e' :: es')) : Parts a b names func (index+1) es es' := by
  refine ⟨parts.like.2,?_,?_⟩
  · exact fun p member => parts.inside p (List.mem_append_right _ member)
  · exact fun x member => parts.near x (List.mem_append_right _ member)

/-- But for the literal that `CHANGED` writes over each argument has its fellow. -/
theorem Parts.each (other : func ≠ .changed) (parts : Parts a b names func index es es') :
    List.Forall₂ (Part a b names) es es' := by
  induction es generalizing index es' with
  | nil =>
    cases es' with
    | nil => exact .nil
    | cons => exact parts.like.elim
  | cons e es ih =>
    cases es' with
    | nil => exact parts.like.elim
    | cons e' es' => exact .cons (parts.head.resolve_left fun slot => other slot.1) (ih parts.tail)

theorem Part.args {node node' : Nat} {func' : Func} (part : Part a b names (.func node func es) (.func node' func' es')) :
    func = func' ∧ func ≠ .eval ∧ Parts a b names func 0 es es' ∧
      (func = .changed → ((node,initial es),node',initial es') ∈ pairs a b) := by
  obtain ⟨⟨rfl,notEval,like⟩,inside,near⟩ := part
  rw [pairs] at inside
  by_cases changed : func = .changed
  · rw [if_pos ⟨changed,changed⟩] at inside
    exact ⟨rfl,notEval,⟨like,fun p member => inside p (List.mem_cons_of_mem _ member),near⟩,
      fun _ => inside _ List.mem_cons_self⟩
  · rw [if_neg fun both => changed both.1] at inside
    exact ⟨rfl,notEval,⟨like,inside,near⟩,fun is => absurd is changed⟩

omit [Gdouble α] in
theorem Foreign.arg {node : Nat} (foreign : Foreign a b names (.func node func es)) (member : e ∈ es) :
    Foreign a b names e := by
  refine ⟨fun n inside => ?_,fun x inside => ?_⟩
  · exact foreign.off n (List.mem_cons_of_mem _ (addresses_of_args member inside))
  · exact foreign.near x (refs_of_args member inside)

/-- The table is one of trees that have no node of the two, wherever the two lead. -/
structure Tables (a b : Expr α) (names : String → Prop) (vars vars' : Variables α) : Prop where
  same : ∀ x, names x → vars x = vars' x
  foreign : ∀ x e, names x → vars x = some e → Foreign a b names e

variable {k k' : Expr α → Eval α α} {io : Io α} {vars vars' : Variables α}

private theorem changed_other {node : Nat} {arg second : Expr α} {rest : List (Expr α)} {x y : Eval α α} {ys : List (Eval α α)}
    (literal : ∀ v, second ≠ .literal v) :
    changedFuncExprEval node (arg :: second :: rest) (x :: y :: ys) = andThen x fun _ => andThen y fun _ => stuck := by
  cases second with
  | literal v => exact absurd rfl (literal v)
  | op | ref | func | flag => simp only [changedFuncExprEval]

/-- Two `CHANGED` nodes at the same place. -/
private theorem inStep_changed {node node' : Nat} {args args' : List (Expr α)} (once : (addresses a).Nodup)
    (once' : (addresses b).Nodup) (parts : Parts a b names .changed 0 args args')
    (own : ((node,initial args),node',initial args') ∈ pairs a b)
    (each : ∀ e ∈ args, ∀ e', Part a b names e e' → InStep a b (evalWith k io vars e) (evalWith k' io vars' e')) :
    InStep a b (changedFuncExprEval node args (evalArgs k io vars args))
      (changedFuncExprEval node' args' (evalArgs k' io vars' args')) := by
  have side := inStep_side a b
  rcases args with _ | ⟨arg,rest⟩
  · obtain rfl : args' = [] := by
      cases args' with
      | nil => rfl
      | cons => exact parts.like.elim
    exact side.stuck
  rcases args' with _ | ⟨arg',rest'⟩
  · exact parts.like.elim
  have first := each arg List.mem_cons_self arg' (parts.head.resolve_left fun slot => by simp at slot)
  have tail := parts.tail
  rcases rest with _ | ⟨second,rest⟩
  · obtain rfl : rest' = [] := by
      cases rest' with
      | nil => rfl
      | cons => exact tail.like.elim
    simp only [evalArgs,changedFuncExprEval]
    exact side.andThen first fun v w same => same trivial ▸ twin_pair once once' own rfl rfl v
  rcases rest' with _ | ⟨second',rest'⟩
  · exact tail.like.elim
  by_cases literal : ∃ v, second = .literal v
  · obtain ⟨v,rfl⟩ := literal
    obtain ⟨v',rfl⟩ : ∃ v', second' = .literal v' := by
      rcases tail.head with ⟨_,_,_,v',_,is⟩ | part
      · exact ⟨v',is⟩
      · cases second' with
        | literal v' => exact ⟨v',rfl⟩
        | op | ref | func | flag => exact part.like.elim
    simp only [evalArgs,changedFuncExprEval]
    exact side.andThen first fun v w same => same trivial ▸ twin_pair once once' own rfl rfl v
  · push Not at literal
    have part : Part a b names second second' := by
      rcases tail.head with ⟨_,_,v,_,is,_⟩ | part
      · exact absurd is (literal v)
      · exact part
    have literal' : ∀ v, second' ≠ .literal v := by
      rintro v rfl
      cases second with
      | literal w => exact literal w rfl
      | op | ref | func | flag => exact part.like.elim
    have next := each second (by simp) second' part
    simp only [evalArgs,changed_other literal,changed_other literal']
    exact side.andThen first fun _ _ _ => side.andThen next fun _ _ _ => side.stuck

/-- An `EVAL` node of the table. -/
private theorem inStep_eval {node : Nat} (args : List (Expr α)) {xs ys : List (Eval α α)} (each : List.Forall₂ (InStep a b) xs ys) :
    InStep a b (evalFuncExprEval node args xs) (evalFuncExprEval node args ys) := by
  intro m m' twin
  rcases args with _ | ⟨arg,args⟩
  · simp only [evalFuncExprEval]
    exact (inStep_side a b).stuck m m' twin
  rcases each with _ | ⟨head,_⟩
  · simp only [evalFuncExprEval]
    exact (inStep_side a b).stuck m m' twin
  simp only [evalFuncExprEval,← twin.captured]
  cases m.captured node with
  | some v => exact .some ⟨rfl,twin⟩
  | none =>
    have capture : ∀ v : α, InStep a b (fun m => some (.undefined,{ m with captured := Function.update m.captured node (some v) }))
        (fun m => some (.undefined,{ m with captured := Function.update m.captured node (some v) })) := by
      intro v m m' twin
      obtain ⟨captured,others,slots,unwritten,unwritten'⟩ := twin
      exact .some ⟨rfl,by simp only [captured],others,slots,unwritten,unwritten'⟩
    cases arg with
    | literal v => exact .some ⟨rfl,twin⟩
    | op | ref | func | flag =>
      exact (inStep_side a b).andThen head (fun v w same => same trivial ▸ capture v) m m' twin

/-- Two trees at the same place run in step. -/
theorem exprEval_inStep (once : (addresses a).Nodup) (once' : (addresses b).Nodup) (tables : Tables a b names vars vars')
    (depth : Nat) : ∀ e e', Part a b names e e' ∨ (e' = e ∧ Foreign a b names e) →
      InStep a b (exprEval depth io vars e) (exprEval depth io vars' e') := by
  have side := inStep_side a b
  refine @exprEval_beside α _ True (InStep a b) (fun e e' => Part a b names e e' ∨ (e' = e ∧ Foreign a b names e))
    io io vars vars' ?_ ?_ depth
  · exact fun e e' _ m m' _ => .none
  intro k k' calls
  refine ⟨side,?_,?_,?_,?_,?_,?_⟩
  · rintro v e' (part | ⟨rfl,_⟩)
    · cases e' with
      | literal w => exact ⟨w,rfl,fun _ => part.like⟩
      | op | ref | func | flag => exact part.like.elim
    · exact ⟨v,rfl,Agree.refl _ v⟩
  · rintro o l r e' (⟨like,inside,near⟩ | ⟨rfl,off,near⟩)
    · cases e' with
      | op o' l' r' =>
        obtain ⟨rfl,left,right⟩ := like
        refine ⟨l',r',rfl,.inl ⟨left,?_,?_⟩,.inl ⟨right,?_,?_⟩⟩
        · exact fun p member => inside p (List.mem_append_left _ member)
        · exact fun x member => near x (List.mem_append_left _ member)
        · exact fun p member => inside p (List.mem_append_right _ member)
        · exact fun x member => near x (List.mem_append_right _ member)
      | literal | ref | func | flag => exact like.elim
    · refine ⟨l,r,rfl,.inr ⟨rfl,?_,?_⟩,.inr ⟨rfl,?_,?_⟩⟩
      · exact fun node member => off node (List.mem_append_left _ member)
      · exact fun x member => near x (List.mem_append_left _ member)
      · exact fun node member => off node (List.mem_append_right _ member)
      · exact fun x member => near x (List.mem_append_right _ member)
  · rintro node func args e' _ notChanged (part | ⟨rfl,foreign⟩)
    · cases e' with
      | func node' func' args' =>
        obtain ⟨rfl,_,parts,_⟩ := part.args
        exact ⟨node',args',rfl,(parts.each notChanged).imp fun _ _ => .inl⟩
      | literal | op | ref | flag => exact part.like.elim
    · exact ⟨node,args,rfl,List.forall₂_same.mpr fun e member => .inr ⟨rfl,foreign.arg member⟩⟩
  · intro id e' fine
    obtain ⟨rfl,near⟩ : e' = .ref id ∧ names id := by
      rcases fine with part | ⟨rfl,foreign⟩
      · cases e' with
        | ref id' =>
          obtain rfl : id = id' := part.like
          exact ⟨rfl,part.near id (by simp [refs])⟩
        | literal | op | func | flag => exact part.like.elim
      · exact ⟨rfl,foreign.near id (by simp [refs])⟩
    rw [evalWith]
    exact beside_ref side (tables.same id near) fun s stored => calls s s (.inr ⟨rfl,tables.foreign id s near stored⟩)
  · intro id bit e' fine
    obtain rfl : e' = .flag id bit := by
      rcases fine with part | ⟨rfl,_⟩
      · cases e' with
        | flag id' bit' =>
          obtain ⟨rfl,rfl⟩ := part.like
          rfl
        | literal | op | ref | func => exact part.like.elim
      · rfl
    rw [evalWith]
    exact beside_flag side io id bit
  · rintro node func args e' special (part | ⟨rfl,foreign⟩) each
    · cases e' with
      | func node' func' args' =>
        obtain ⟨rfl,notEval,parts,own⟩ := part.args
        obtain rfl := special.resolve_left notEval
        rw [evalWith]
        exact inStep_changed once once' parts (own rfl) fun e member e' part => each e member e' (.inl part)
      | literal | op | ref | flag => exact part.like.elim
    · have all := forall₂_evalArgs (List.forall₂_same.mpr fun e member => .inr ⟨rfl,foreign.arg member⟩) each
      rw [evalWith]
      rcases special with rfl | rfl
      · exact inStep_eval args all
      · refine beside_changed side (by simp [evalArgs_eq_map]) (by simp [evalArgs_eq_map]) all rfl ?_
        intro init init' literal literal' v w same
        obtain rfl := Option.some.inj (literal.symm.trans literal')
        obtain ⟨off,off'⟩ := foreign.off node List.mem_cons_self
        exact same trivial ▸ twin_other off off' init v

/-! Two expressions that are found equal. -/

/-- The names that the expression leads to. -/
def Near (vars : Variables α) (e : Expr α) (x : String) : Prop := ∃ y ∈ refs e, Relation.ReflTransGen (Mentions vars) y x

/-- The trees that the variables have are one of the two, or have no node in common with it. -/
def Shares (vars : Variables α) (a b : Expr α) : Prop := ∀ x e, vars x = some e → Apart e a ∧ Apart e b

/-- Two trees without `EVAL`, as the parser makes them and evaluation leaves them. -/
structure Trees (m : Mem α) (a b : Expr α) : Prop where
  free : evalFree a = true
  free' : evalFree b = true
  once : (addresses a).Nodup
  once' : (addresses b).Nodup
  apart : Apart a b
  unwritten : Unwritten m a
  unwritten' : Unwritten m b

/-- Literals at the same places are not only equal but the same numbers: no 0 is compared with a −0. -/
def SameNumbers (a b : Expr α) : Prop := Like (fun x y => eq x y = true) a b → Like (· = ·) a b

/-- What the `CHANGED` nodes remember is equal to itself, and so is no NaN. -/
def NoNan (m : Mem α) (e : Expr α) : Prop :=
  ∀ h ∈ holders e, ∀ init, h.2 = some init → eq ((m.seen h.1).getD init) ((m.seen h.1).getD init) = true

/-- The evaluations of the two come to one end, and leave trees that are equal again if no `CHANGED` has seen a NaN; the two
refer to the same identifiers. -/
structure Indistinct [DecidableEq α] (io : Io α) (vars : Variables α) (m : Mem α) (a b : Expr α) : Prop where
  result : ∃ out t t', (∃ depth, exprEval depth io vars a m = some (out,t)) ∧ (∃ depth, exprEval depth io vars b m = some (out,t')) ∧
    (NoNan t a → equalAcross t t' a b = true)
  refs : ∀ id, ∃ answer, Answer vars m id a answer ∧ Answer vars m id b answer

/-- The memory at the moment, where the nodes have kept what they had. -/
def owning (c : Moment α) (nodes : List Nat) (own : Nat → Option α) : Mem α :=
  { c.mem with seen := fun node => if node ∈ nodes then own node else c.mem.seen node }

/-- How the evaluations of the variable `x` end while it has the expression `e`. Between two of them the inputs and outputs,
the other variables and the memory of all nodes but `nodes` may become anything. -/
def outcomes (x : String) (e : Expr α) (nodes : List Nat) : (Nat → Option α) → List (Moment α) → List (Option (Outcome α))
  | _, [] => []
  | own, c :: rest =>
    match exprEval c.depth c.io (Function.update c.vars x (some e)) (.ref x) (owning c nodes own) with
    | some (out,t) => some out :: outcomes x e nodes t.seen rest
    | none => none :: outcomes x e nodes own rest

omit [Gdouble α] in
/-- The expression of a variable does not lead back to it. -/
theorem near_acyclic {vars : Variables α} (acyclic : Acyclic (Mentions vars)) {x : String} {e a : Expr α} (stored : vars x = some e)
    (same : refs e = refs a) : ¬ Near vars a x := by
  rintro ⟨y,inside,path⟩
  exact acyclic x (.head' ⟨e,stored,same ▸ inside⟩ path)

omit [Gdouble α] in
theorem tables_near {vars vars' : Variables α} (acyclic : Acyclic (Mentions vars)) (shares : Shares vars a b)
    (same : refs a = refs b) (agree : ∀ x, Near vars a x → vars x = vars' x) : Tables a b (Near vars a) vars vars' := by
  refine ⟨agree,fun x e near stored => ⟨fun node inside => ⟨?_,?_⟩,fun z mentioned => ?_⟩⟩
  · rcases (shares x e stored).1 with rfl | off
    · exact absurd near (near_acyclic acyclic stored rfl)
    · exact off node inside
  · rcases (shares x e stored).2 with rfl | off
    · exact absurd near (near_acyclic acyclic stored same.symm)
    · exact off node inside
  · obtain ⟨y,inside,path⟩ := near
    exact ⟨y,inside,path.tail ⟨e,stored,mentioned⟩⟩

/-- The names that the expressions lead to make them parts of themselves. -/
theorem part_self (vars : Variables α) (like : Like (· = ·) a b) : Part a b (Near vars a) a b :=
  ⟨like,fun _ member => member,fun x inside => ⟨x,inside,.refl⟩⟩

section
variable [LawfulGdouble α]

/-- Two trees that are found equal are written alike, and start in step. -/
theorem twin_start (trees : Trees m a b) (off : ∀ node ∈ addresses a, node ∉ addresses b)
    (same : sameTree (current m a) (current m b) = true) : Like (fun x y => eq x y = true) a b ∧ Twin a b m m := by
  obtain ⟨like,slots⟩ := (sameTree_told a b ⟨trees.free,trees.free',off,trees.unwritten,trees.unwritten'⟩).mp same
  refine ⟨like,rfl,fun _ _ _ => rfl,?_,trees.unwritten,trees.unwritten'⟩
  exact fun p member init init' first second => alike_of_eq (slots p member init init' first second)

omit [LawfulGdouble α] in
/-- Fellow nodes remember equal values, if these are no NaN. -/
theorem twin_equal (twin : Twin a b m m') (noNan : NoNan m a) :
    Slots (fun x y => eq x y = true) m m' (pairs a b) := by
  intro p member init init' first second
  have alike := twin.slots p member init init' first second
  have itself := noNan p.1 (pair_holders member).1 init first
  rw [(alike _).2] at itself
  exact itself

omit [LawfulGdouble α] in
theorem twin_owning (twin : Twin a b m m') (c : Moment α) :
    Twin a b (owning c (addresses a ++ addresses b) m.seen) (owning c (addresses a ++ addresses b) m'.seen) := by
  have left : ∀ h ∈ holders a, h.1 ∈ addresses a ++ addresses b :=
    fun h inside => List.mem_append_left _ (holder_address inside)
  have right : ∀ h ∈ holders b, h.1 ∈ addresses a ++ addresses b :=
    fun h inside => List.mem_append_right _ (holder_address inside)
  refine ⟨rfl,fun node off off' => ?_,?_,?_,?_⟩
  · have neither : node ∉ addresses a ++ addresses b := by simp [off,off']
    simp only [owning,if_neg neither]
  · intro p member init init' first second
    obtain ⟨one,two⟩ := pair_holders member
    simp only [owning,if_pos (left _ one),if_pos (right _ two)]
    exact twin.slots p member init init' first second
  · intro h inside none
    simp only [owning,if_pos (left h inside)]
    exact twin.unwritten h inside none
  · intro h inside none
    simp only [owning,if_pos (right h inside)]
    exact twin.unwritten' h inside none

omit [LawfulGdouble α] in
/-- The variable ends alike with either expression, and leaves them in step. -/
theorem ref_inStep (once : (addresses a).Nodup) (once' : (addresses b).Nodup) (like : Like (· = ·) a b) {x : String}
    {vars : Variables α} (acyclic : Acyclic (Mentions (Function.update vars x (some a))))
    (shares : Shares (Function.update vars x (some a)) a b) (io : Io α) (depth : Nat) :
    InStep a b (exprEval depth io (Function.update vars x (some a)) (.ref x))
      (exprEval depth io (Function.update vars x (some b)) (.ref x)) := by
  have side := inStep_side a b
  have agree : ∀ y, Near (Function.update vars x (some a)) a y →
      Function.update vars x (some a) y = Function.update vars x (some b) y := by
    intro y near
    have other : y ≠ x := by
      rintro rfl
      exact near_acyclic acyclic (Function.update_self ..) rfl near
    rw [Function.update_of_ne other,Function.update_of_ne other]
  have tables := tables_near acyclic shares (refs_like a b like) agree
  cases depth with
  | zero => exact fun m m' _ => .none
  | succ depth =>
    rw [exprEval_succ,exprEval_succ,evalWith,evalWith,refExprEval,refExprEval,Function.update_self,Function.update_self]
    cases io.inputs x with
    | some input => exact side.ret (Agree.refl _ _)
    | none =>
      cases io.outputs x with
      | some output => exact side.ret (Agree.refl _ _)
      | none => exact exprEval_inStep once once' tables depth a b (.inl (part_self _ like))

omit [LawfulGdouble α] in
theorem outcomes_inStep (once : (addresses a).Nodup) (once' : (addresses b).Nodup) (like : Like (· = ·) a b) {x : String}
    {moments : List (Moment α)} (tables : ∀ c ∈ moments, Acyclic (Mentions (Function.update c.vars x (some a))) ∧
      Shares (Function.update c.vars x (some a)) a b) {own own' : Nat → Option α}
    (twins : ∀ c, Twin a b (owning c (addresses a ++ addresses b) own) (owning c (addresses a ++ addresses b) own')) :
    outcomes x a (addresses a ++ addresses b) own moments = outcomes x b (addresses a ++ addresses b) own' moments := by
  induction moments generalizing own own' with
  | nil => rfl
  | cons c rest ih =>
    obtain ⟨acyclic,shares⟩ := tables c List.mem_cons_self
    have both := ref_inStep once once' like acyclic shares c.io c.depth _ _ (twins c)
    have later := fun d member => tables d (List.mem_cons_of_mem _ member)
    rw [outcomes,outcomes]
    rcases called : exprEval c.depth c.io (Function.update c.vars x (some a)) (.ref x)
        (owning c (addresses a ++ addresses b) own) with _ | ⟨out,t⟩ <;>
      rcases called' : exprEval c.depth c.io (Function.update c.vars x (some b)) (.ref x)
        (owning c (addresses a ++ addresses b) own') with _ | ⟨out',t'⟩ <;>
      rw [called,called'] at both <;> cases both
    · exact congrArg (none :: ·) (ih later twins)
    · rename_i both
      obtain ⟨rfl,twin⟩ := both
      exact congrArg (some out :: ·) (ih later (twin_owning twin))

variable [DecidableEq α]

/-- On a table without cycles two expressions that are found equal are not to be told apart. -/
theorem indistinct (trees : Trees m a b) (numbers : SameNumbers a b) (equal : exprEqual m a b = true) (io : Io α)
    {vars : Variables α} (finite : Set.Finite fun x => vars x ≠ none) (acyclic : Acyclic (Mentions vars))
    (shares : Shares vars a b) : Indistinct io vars m a b := by
  have wellFounded := mentions_wellFounded finite acyclic
  obtain ⟨depth,ends⟩ := exprEval_ends wellFounded io a
  obtain ⟨⟨out,t⟩,answered⟩ : ∃ r, exprEval depth io vars a m = some r := Option.ne_none_iff_exists'.mp (ends depth le_rfl m)
  have itself : ∀ id, ∃ answer, Answer vars m id a answer ∧ Answer vars m id a answer := fun id => by
    obtain ⟨answer,has,_⟩ := answer_exists wellFounded m id a
    exact ⟨answer,has,has⟩
  have one : a = b → Indistinct io vars m a b := by
    rintro rfl
    refine ⟨⟨out,t,t,⟨depth,answered⟩,⟨depth,answered⟩,fun _ => ?_⟩,itself⟩
    rw [equalAcross,(identical_iff a a).mpr rfl,Bool.true_or]
  rcases trees.apart with same | off
  · exact one same
  rcases (exprEqual_iff m a b).mp equal with same | same
  · exact one same
  obtain ⟨equally,twin⟩ := twin_start trees off same
  have like := numbers equally
  have tables := tables_near acyclic shares (refs_like a b like) fun _ _ => rfl
  have both : Option.Rel _ (exprEval depth io vars a m) (exprEval depth io vars b m) :=
    exprEval_inStep trees.once trees.once' tables depth a b (.inl (part_self vars like)) m m twin
  rw [answered] at both
  rcases called : exprEval depth io vars b m with _ | ⟨out',t'⟩ <;> rw [called] at both <;> cases both
  rename_i both
  obtain ⟨rfl,after⟩ := both
  refine ⟨⟨out,t,t',⟨depth,answered⟩,⟨depth,called⟩,fun noNan => ?_⟩,fun id => ?_⟩
  · rw [equalAcross,Bool.or_eq_true]
    refine .inr ((sameTree_told a b ⟨trees.free,trees.free',off,after.unwritten,after.unwritten'⟩).mpr ⟨equally,?_⟩)
    exact twin_equal after noNan
  · obtain ⟨answer,has,truth⟩ := answer_exists wellFounded m id a
    obtain ⟨answer',has',truth'⟩ := answer_exists wellFounded m id b
    have same : answer = answer' := by
      rw [Bool.eq_iff_iff,truth,truth']
      exact reaches_like a b like
    exact ⟨answer,has,same ▸ has'⟩

end

/-! Two nodes that are written `CHANGED(door)`. -/

private def door (node : Nat) : Expr ℚ := .func node .changed [.ref "door"]

private def house (val : ℚ) : Io ℚ :=
  ⟨fun id => if id = "door" then some ⟨"door","",0,0,1,1,val,0⟩ else none,fun _ => none⟩

private theorem door_trees : Trees freshMem (door 0) (door 1) := by
  refine ⟨rfl,rfl,by simp [addresses,addressesArgs,door],by simp [addresses,addressesArgs,door],.inr ?_,fun _ _ _ => rfl,
    fun _ _ _ => rfl⟩
  simp [addresses,addressesArgs,door]

private theorem door_numbers : SameNumbers (door 0) (door 1) := by
  intro _
  simp [Like,LikeArgs,door]

/-- The numbers of doubles without their rounding: a zero has a sign, a quotient may be
    infinite or no number at all. -/
inductive Number
  | finite (negative : Bool) (magnitude : ℚ≥0)
  | infinite (negative : Bool)
  | nan
deriving DecidableEq

namespace Number

def value (negative : Bool) (magnitude : ℚ≥0) : ℚ := if negative then -magnitude else magnitude

/-- The number of a value; `negative` is the sign that it has if it is 0. -/
def ofValue (negative : Bool) (x : ℚ) : Number := .finite (if x = 0 then negative else x < 0) (Rat.nnabs x)

def equals : Number → Number → Bool
  | .finite s x, .finite t y => value s x = value t y
  | .infinite s, .infinite t => s = t
  | _, _ => false

def less : Number → Number → Bool
  | .finite s x, .finite t y => value s x < value t y
  | .finite _ _, .infinite t => !t
  | .infinite s, .finite _ _ => s
  | .infinite s, .infinite t => s && !t
  | _, _ => false

def plus : Number → Number → Number
  | .finite s x, .finite t y => ofValue (s && t) (value s x + value t y)
  | .finite _ _, .infinite t => .infinite t
  | .infinite s, .finite _ _ => .infinite s
  | .infinite s, .infinite t => if s = t then .infinite s else .nan
  | _, _ => .nan

def negated : Number → Number
  | .finite s x => .finite (!s) x
  | .infinite s => .infinite (!s)
  | .nan => .nan

def times : Number → Number → Number
  | .finite s x, .finite t y => .finite (s ^^ t) (x * y)
  | .finite s x, .infinite t => if x = 0 then .nan else .infinite (s ^^ t)
  | .infinite s, .finite t y => if y = 0 then .nan else .infinite (s ^^ t)
  | .infinite s, .infinite t => .infinite (s ^^ t)
  | _, _ => .nan

def quotient : Number → Number → Number
  | .finite s x, .finite t y => if y = 0 then (if x = 0 then .nan else .infinite (s ^^ t)) else .finite (s ^^ t) (x / y)
  | .finite s _, .infinite t => .finite (s ^^ t) 0
  | .infinite s, .finite t _ => .infinite (s ^^ t)
  | _, _ => .nan

def rounded : Number → Number
  | .finite s x => .finite s (Rat.nnabs (roundAway x))
  | x => x

end Number

instance : Gdouble Number where
  ofRat x := Number.ofValue false x
  eq := Number.equals
  lt := Number.less
  le x y := Number.less x y || Number.equals x y
  add := Number.plus
  sub x y := Number.plus x (Number.negated y)
  mul := Number.times
  div := Number.quotient
  neg := Number.negated
  round := Number.rounded

/-- `1 / 0` and `1 / -0`. -/
private def inverse (negative : Bool) : Expr Number := .op .div (.literal (.finite false 1)) (.literal (.finite negative 0))

private def watching (node : Nat) : Expr Number := .func node .changed [.ref "gauge"]

/-- An input whose value is no number. -/
private def broken : Io Number :=
  ⟨fun id => if id = "gauge" then some ⟨"gauge","",0,.nan,.nan,.nan,.nan,0⟩ else none,fun _ => none⟩

end Starter.Shortcut
