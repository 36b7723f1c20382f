import Mathlib.Data.List.Chain
import Starter.Parallel
import Starter.Snapshots

/-!
Sequences of evaluations of one node that writes into its own memory. Between two of them
the inputs and outputs, the variables and the memory of the other nodes may become
anything; the node keeps what it has written.
-/
namespace Starter.Histories
open Gdouble Objects Expressions Evaluation Lib.Approx

/-- When a node is evaluated: the state of everything else. -/
structure Moment (α : Type) where
  depth : Nat
  io : Io α
  vars : Variables α
  mem : Mem α

section
variable {α : Type} [Gdouble α]

/-- `expr_eval` at the moment; every evaluation goes into the tree itself. -/
def Moment.eval (c : Moment α) (e : Expr α) : Eval α α := exprEval (c.depth+1) c.io c.vars e

/-! The node `EVAL(e)`, which keeps the value that it has captured. -/

/-- The memory at the moment, where the node has captured `own`. -/
def Moment.captured (c : Moment α) (node : Nat) (own : Option α) : Mem α :=
  { c.mem with captured := Function.update c.mem.captured node own }

/-- The argument of the node as it stands. -/
def argument (node : Nat) (e : Expr α) (m : Mem α) : Expr α :=
  match m.captured node with
  | some v => .literal v
  | none => e

/-- What the manual says of `EVAL(e)`: while `e` fails it fails, with no effect; the first time that `e` has a value it has
it too, and its argument becomes a literal; from then on it has that value. `first` is the value that `e` has had. An
evaluation of `e` that does not end, or to which C gives no meaning, ends the sequence. -/
def KillsLink (node : Nat) (e : Expr α) : Option α → Option α → List (Moment α) → Prop
  | _, _, [] => True
  | some v, own, c :: rest =>
    ∃ m, c.eval (.func node .eval [e]) (c.captured node own) = some (.value v,m) ∧
      KillsLink node e (some v) (m.captured node) rest
  | none, own, c :: rest =>
    match c.eval e (c.captured node own) with
    | some (.value v,_) =>
      ∃ m, c.eval (.func node .eval [e]) (c.captured node own) = some (.value v,m) ∧ argument node e m = .literal v ∧
        KillsLink node e (some v) (m.captured node) rest
    | some (.error error,_) =>
      c.eval (.func node .eval [e]) (c.captured node own) = some (.error error,c.captured node own) ∧
        KillsLink node e none own rest
    | some (.undefined,_) => True
    | none => True

/-- In the sequence the expression never has a value, and where it fails it leaves the memory of all nodes as it was. -/
def Valueless (node : Nat) (e : Expr α) : List (Moment α) → Prop
  | [] => True
  | c :: rest =>
    match c.eval e (c.captured node none) with
    | some (.value _,_) => False
    | some (.error _,m) => m = c.captured node none ∧ Valueless node e rest
    | some (.undefined,_) => True
    | none => True

variable {node : Nat} {e : Expr α} {c : Moment α} {m t : Mem α} {v : α} {error : StError} {moments : List (Moment α)}

omit [Gdouble α] in
@[simp] theorem captured_self (c : Moment α) (node : Nat) (own : Option α) : (c.captured node own).captured node = own := by
  simp [Moment.captured]

/-- An error of the argument is passed on. -/
theorem eval_error (expression : ∀ v, e ≠ .literal v) (failed : c.eval e (c.captured node none) = some (.error error,m)) :
    c.eval (.func node .eval [e]) (c.captured node none) = some (.error error,m) := by
  rw [Moment.eval,exprEval_succ] at failed
  simp only [Moment.eval,exprEval_succ,evalWith,evalArgs,funcExprEval,evalFuncExprEval,captured_self]
  cases e with
  | literal v => exact absurd rfl (expression v)
  | op | ref | func | flag => simp only [andThen,failed]

/-- A literal is what its node yields, at every moment. -/
theorem killsLink_literal (first : Option α) (known : ∀ w, first = some w → w = v) :
    KillsLink node (.literal v) first none moments := by
  induction moments generalizing first with
  | nil => cases first <;> trivial
  | cons c rest ih =>
    have yields : c.eval (.func node .eval [.literal v]) (c.captured node none) = some (.value v,c.captured node none) :=
      Snapshots.exprEval_eval_literal c.depth (captured_self c node none)
    have later : KillsLink node (.literal v) (some v) ((c.captured node none).captured node) rest := by
      rw [captured_self]
      exact ih (some v) (fun w same => (Option.some.inj same).symm)
    cases first with
    | some w =>
      obtain rfl := known w rfl
      exact ⟨_,yields,later⟩
    | none => exact ⟨_,yields,by simp [argument],later⟩

/-- Any other argument has to stay without a value: where it has one the call is left without a result. -/
theorem killsLink_expression (expression : ∀ v, e ≠ .literal v) :
    KillsLink node e none none moments ↔ Valueless node e moments := by
  induction moments with
  | nil => exact Iff.rfl
  | cons c rest ih =>
    rw [KillsLink,Valueless]
    cases evaluated : c.eval e (c.captured node none) with
    | none => exact Iff.rfl
    | some result =>
      obtain ⟨v | error | _,m⟩ := result
      · simp only [iff_false]
        rintro ⟨m',yields,_⟩
        exact Snapshots.exprEval_eval_expression _ (captured_self c node none) expression v yields
      · simp only [eval_error expression evaluated,ih,Option.some.injEq,Prod.mk.injEq,true_and]
      · exact Iff.rfl

/-- A node `EVAL(e)` does what the manual says, over a sequence of evaluations, exactly if `e` is a literal or has no
value in any of them. -/
theorem killsLink_iff (node : Nat) (e : Expr α) (moments : List (Moment α)) :
    KillsLink node e none none moments ↔ (∃ v, e = .literal v) ∨ Valueless node e moments := by
  constructor
  · intro law
    by_cases expression : ∃ v, e = .literal v
    · exact .inl expression
    · push Not at expression
      exact .inr ((killsLink_expression expression).mp law)
  · rintro (⟨v,rfl⟩ | valueless)
    · exact killsLink_literal none (by simp)
    · by_cases expression : ∃ v, e = .literal v
      · obtain ⟨v,rfl⟩ := expression
        exact killsLink_literal none (by simp)
      · push Not at expression
        exact (killsLink_expression expression).mpr valueless


/-! The node `CHANGED(e)`, which remembers the value that `e` had last. -/

/-- The memory at the moment, where the node remembers `own`. -/
def Moment.remembering (c : Moment α) (node : Nat) (own : Option α) : Mem α :=
  { c.mem with seen := Function.update c.mem.seen node own }

/-- What the node should answer: 1 at the first value, and whenever the value differs from the last one. -/
def differs : Option α → α → α
  | none, _ => one
  | some w, v => ofBool (!eq v w)

/-- Every evaluation in which `e` has a value answers as `differs` says; one in which `e` fails fails, and does not count.
`last` is the value that `e` had last, and `own` the literal that the node remembers. -/
def TellsChanges (node : Nat) (e : Expr α) : Option α → Option α → List (Moment α) → Prop
  | _, _, [] => True
  | last, own, c :: rest =>
    match c.eval e (c.remembering node own) with
    | some (.value v,_) =>
      ∃ m, c.eval (.func node .changed [e]) (c.remembering node own) = some (.value (differs last v),m) ∧
        TellsChanges node e (some v) (m.seen node) rest
    | some (.error error,_) =>
      ∃ m, c.eval (.func node .changed [e]) (c.remembering node own) = some (.error error,m) ∧
        TellsChanges node e last (m.seen node) rest
    | some (.undefined,_) => True
    | none => True

/-- The values that `e` has in the sequence. -/
def values (node : Nat) (e : Expr α) : Option α → List (Moment α) → List α
  | _, [] => []
  | own, c :: rest =>
    match c.eval e (c.remembering node own) with
    | some (.value v,_) => v :: values node e (some v) rest
    | some (.error _,_) => values node e own rest
    | some (.undefined,_) => []
    | none => []

mutual
/-- No other node than `CHANGED(e)` has the address of the node. -/
def Sole (node : Nat) (e : Expr α) : Expr α → Prop
  | .literal _ => True
  | .op _ left right => Sole node e left ∧ Sole node e right
  | .ref _ => True
  | .func other func args => (other = node → func = .changed ∧ args = [e]) ∧ SoleArgs node e args
  | .flag _ _ => True

def SoleArgs (node : Nat) (e : Expr α) : List (Expr α) → Prop
  | [] => True
  | first :: rest => Sole node e first ∧ SoleArgs node e rest
end

omit [Gdouble α] in
theorem soleArgs_mem {args : List (Expr α)} (all : SoleArgs node e args) : ∀ x ∈ args, Sole node e x := by
  induction args with
  | nil => simp
  | cons first rest ih =>
    obtain ⟨one,others⟩ := all
    intro x member
    rcases List.mem_cons.mp member with rfl | member
    · exact one
    · exact ih others x member

variable {io : Io α} {vars : Variables α} {captured : Nat → Option α} {depth : Nat}

/-! Whether an evaluation has a value does not depend on what the `CHANGED` nodes remember. -/

/-- If the first computation has a value the second has one too. -/
def Succeeds (captured : Nat → Option α) (x y : Eval α α) : Prop :=
  ∀ m m' v t, m.captured = captured → m'.captured = captured → x m = some (.value v,t) →
    t.captured = captured ∧ ∃ w t', y m' = some (.value w,t') ∧ t'.captured = captured

omit [Gdouble α] in
private theorem succeeds_side (captured : Nat → Option α) : Parallel.Side False (Succeeds captured) := by
  refine ⟨?_,?_,?_,?_⟩
  · rintro v w _ m m' _ _ start start' ⟨⟩
    exact ⟨start,w,m',rfl,start'⟩
  · rintro e m m' _ _ _ _ ⟨⟩
  · rintro m m' _ _ _ _ ⟨⟩
  · intro x y f g first next m m' v t start start' answered
    simp only [andThen] at answered
    split at answered
    · cases answered
    · rename_i u m₁ called
      obtain ⟨kept,w,m₁',called',kept'⟩ := first m m' u m₁ start start' called
      have later := next u w (fun asked => asked.elim) m₁ m₁' v t kept kept' answered
      simp only [andThen,called']
      exact later
    · cases answered
    · cases answered

omit [Gdouble α] in
/-- An `EVAL` node has the value of a literal, or none. -/
private theorem succeeds_eval (args : List (Expr α)) {xs ys : List (Eval α α)} (same : xs.length = ys.length) :
    Succeeds captured (evalFuncExprEval node args xs) (evalFuncExprEval node args ys) := by
  intro m m' v t start start' answered
  rcases args with _ | ⟨arg,_⟩
  · simp [evalFuncExprEval,stuck] at answered
  rcases xs with _ | ⟨x,_⟩
  · simp [evalFuncExprEval,stuck] at answered
  rcases ys with _ | ⟨y,_⟩
  · simp at same
  simp only [evalFuncExprEval,start,start'] at answered ⊢
  cases found : captured node with
  | some w =>
    simp only [found,Option.some.injEq,Prod.mk.injEq] at answered ⊢
    obtain ⟨_,rfl⟩ := answered
    exact ⟨start,w,m',⟨rfl,rfl⟩,start'⟩
  | none =>
    simp only [found] at answered ⊢
    cases arg with
    | literal w =>
      simp only [Option.some.injEq,Prod.mk.injEq] at answered ⊢
      obtain ⟨_,rfl⟩ := answered
      exact ⟨start,w,m',⟨rfl,rfl⟩,start'⟩
    | op | ref | func | flag =>
      simp only [andThen] at answered
      split at answered <;> cases answered

private theorem succeeds_store (init : α) (v w : α) :
    Succeeds captured (changedStore node init v) (changedStore node init w) := by
  rintro m m' _ _ start start' ⟨⟩
  exact ⟨start,_,_,rfl,start'⟩

theorem exprEval_succeeds (captured : Nat → Option α) (depth : Nat) (e : Expr α) :
    Succeeds captured (exprEval depth io vars e) (exprEval depth io vars e) := by
  refine @Parallel.exprEval_beside α _ False (Succeeds captured) Eq io io vars vars ?_ ?_ depth e e rfl
  · intro e _ _ m m' v t _ _ answered
    simp [exprEval,approx] at answered
  intro k k' calls
  have side := succeeds_side captured
  have agree : ∀ v w : α, Parallel.Agree False v w := fun v w asked => asked.elim
  refine ⟨side,?_,?_,?_,?_,?_,?_⟩
  · rintro v _ rfl
    exact ⟨v,rfl,agree v v⟩
  · rintro o l r _ rfl
    exact ⟨l,r,rfl,rfl,rfl⟩
  · rintro node func args _ _ _ rfl
    exact ⟨node,args,rfl,List.forall₂_same.mpr fun _ _ => rfl⟩
  · rintro id _ rfl
    rw [evalWith]
    exact Parallel.beside_ref side rfl fun stored _ => calls stored stored rfl
  · rintro id bit _ rfl
    rw [evalWith]
    exact Parallel.beside_flag side io id bit
  · rintro node func args _ (rfl | rfl) rfl each
    · rw [evalWith]
      exact succeeds_eval args (by simp [evalArgs_eq_map])
    · rw [evalWith]
      have all := Parallel.forall₂_evalArgs (List.forall₂_same.mpr fun _ _ => rfl) each
      refine Parallel.beside_changed side (by simp [evalArgs_eq_map]) (by simp [evalArgs_eq_map]) all rfl ?_
      intro init init' literal literal' v w _
      obtain rfl := Option.some.inj (literal.symm.trans literal')
      exact succeeds_store init v w

/-! Evaluating the argument does not evaluate the node. -/

/-- The computation leaves what the node remembers, and captures nothing unless it ends undefined. -/
def Keeps (captured : Nat → Option α) (node : Nat) (x : Eval α α) : Prop :=
  ∀ m r, m.captured = captured → x m = some r → r.2.seen node = m.seen node ∧ (r.1 ≠ .undefined → r.2.captured = captured)

/-- From no memory with these captured literals the computation has a value. -/
def Barren (captured : Nat → Option α) (x : Eval α α) : Prop := ∀ m v t, m.captured = captured → x m ≠ some (.value v,t)

omit [Gdouble α] in
private theorem keeps_congruent (captured : Nat → Option α) (node : Nat) : Congruent fun x _ : Eval α α => Keeps captured node x := by
  refine ⟨?_,?_,?_,?_⟩
  · rintro v m _ start ⟨⟩
    exact ⟨rfl,fun _ => start⟩
  · rintro e m _ start ⟨⟩
    exact ⟨rfl,fun _ => start⟩
  · rintro m _ start ⟨⟩
    exact ⟨rfl,by simp⟩
  · intro x _ f _ first next m r start answered
    simp only [andThen] at answered
    split at answered
    · cases answered
    · rename_i v m₁ called
      obtain ⟨own,kept⟩ := first m _ start called
      obtain ⟨later,end_⟩ := next v m₁ r (kept (by simp)) answered
      exact ⟨later.trans own,end_⟩
    · rename_i error m₁ called
      cases answered
      exact first m _ start called
    · rename_i m₁ called
      cases answered
      exact first m _ start called

omit [Gdouble α] in
private theorem keeps_eval (args : List (Expr α)) {other : Nat} {xs : List (Eval α α)}
    (each : ∀ x ∈ xs, Keeps captured node x) : Keeps captured node (evalFuncExprEval other args xs) := by
  have cong := keeps_congruent captured node
  rcases args with _ | ⟨arg,_⟩
  · simp only [evalFuncExprEval]
    exact cong.stuck
  rcases xs with _ | ⟨x,_⟩
  · simp only [evalFuncExprEval]
    exact cong.stuck
  rintro m r start answered
  simp only [evalFuncExprEval] at answered
  split at answered
  · cases answered
    exact ⟨rfl,fun _ => start⟩
  · cases answered
    exact ⟨rfl,fun _ => start⟩
  · refine cong.andThen (y := x) (g := fun _ => stuck) (each x List.mem_cons_self) (fun v => ?_) m r start answered
    rintro _ _ _ ⟨⟩
    exact ⟨rfl,by simp⟩

/-- An evaluation leaves what the node remembers, over variables whose evaluation does so, if wherever it comes to the node
itself the argument has no value. -/
private theorem evalWith_keeps {k : Expr α → Eval α α} {ok : Expr α → Prop} (sole : ∀ x, ok x → Sole node e x)
    (parts : (∀ o l r, ok (.op o l r) → ok l ∧ ok r) ∧ ∀ n func args, ok (.func n func args) → ∀ x ∈ args, ok x)
    (barren : ok (.func node .changed [e]) → Barren captured (evalWith k io vars e))
    (calls : ∀ id x, vars id = some x → Keeps captured node (k x)) :
    ∀ x, ok x → Keeps captured node (evalWith k io vars x) := by
  have cong := keeps_congruent captured node
  refine @evalWith_related α _ (fun x _ => Keeps captured node x) ok k k io io vars vars ⟨cong,parts.1,?_,?_,?_,?_⟩
  · exact fun n func args _ _ fine => parts.2 n func args fine
  · exact fun id _ => related_ref cong k k rfl rfl rfl fun x stored => calls id x stored
  · exact fun _ bit _ => related_flag cong bit rfl rfl
  · rintro other func args special fine each
    have all : ∀ x ∈ args, Keeps captured node (evalWith k io vars x) :=
      fun x member => each x member (parts.2 other func args fine x member)
    rcases special with rfl | rfl
    · refine keeps_eval args ?_
      simpa [evalArgs_eq_map] using all
    · by_cases here : other = node
      · obtain ⟨_,rfl⟩ := (sole _ fine).1 here
        subst here
        -- The node itself: its argument fails, and it writes nothing.
        have none := barren fine
        intro m r start answered
        simp only [funcExprEval,evalArgs,changedFuncExprEval,andThen] at answered
        split at answered
        · cases answered
        · rename_i v m₁ called
          exact absurd called (none m v m₁ start)
        · rename_i error m₁ called
          cases answered
          exact all e List.mem_cons_self m _ start called
        · rename_i m₁ called
          cases answered
          exact all e List.mem_cons_self m _ start called
      · refine related_changed cong ?_ args (@forall₂_evalArgs α _ _ k k io io vars vars args all)
        rintro init v m _ start ⟨⟩
        exact ⟨by simp [Function.update_of_ne (Ne.symm here)],fun _ => start⟩

omit [Gdouble α] in
private theorem sole_parts (node : Nat) (e : Expr α) :
    (∀ o l r, Sole node e (.op o l r) → Sole node e l ∧ Sole node e r) ∧
      ∀ n func args, Sole node e (.func n func args) → ∀ x ∈ args, Sole node e x :=
  ⟨fun _ _ _ both => both,fun _ _ _ fine => soleArgs_mem fine.2⟩

/-- Where the argument has no value the node is not written. -/
private theorem keeps_barren (table : ∀ id x, vars id = some x → Sole node e x) (depth : Nat)
    (barren : ∀ d, d ≤ depth → Barren captured (exprEval d io vars e)) :
    ∀ x, Sole node e x → Keeps captured node (exprEval depth io vars x) := by
  induction depth with
  | zero =>
    intro x _ m r _ answered
    simp [exprEval,approx] at answered
  | succ depth ih =>
    have calls := ih fun d below => barren d (Nat.le_succ_of_le below)
    refine evalWith_keeps (fun _ fine => fine) (sole_parts node e) (fun _ => barren (depth+1) le_rfl) ?_
    exact fun id x stored => calls x (table id x stored)

/-- Before the argument has a value the node is not written: the trees of `e` are smaller than the node. -/
private theorem keeps_first (inside : Sole node e e) (table : ∀ id x, vars id = some x → Sole node e x) (depth : Nat)
    (barren : ∀ d, d ≤ depth → Barren captured (exprEval d io vars e)) :
    Keeps captured node (exprEval (depth+1) io vars e) := by
  have smaller : (∀ o l r, (Sole node e (.op o l r) ∧ sizeOf (Expr.op o l r) ≤ sizeOf e) →
        (Sole node e l ∧ sizeOf l ≤ sizeOf e) ∧ Sole node e r ∧ sizeOf r ≤ sizeOf e) ∧
      ∀ n func args, (Sole node e (.func n func args) ∧ sizeOf (Expr.func n func args) ≤ sizeOf e) →
        ∀ x ∈ args, Sole node e x ∧ sizeOf x ≤ sizeOf e := by
    constructor
    · rintro o l r ⟨⟨left,right⟩,size⟩
      simp only [Expr.op.sizeOf_spec] at size
      exact ⟨⟨left,by omega⟩,right,by omega⟩
    · rintro n func args ⟨fine,size⟩ x member
      have less := List.sizeOf_lt_of_mem member
      simp only [Expr.func.sizeOf_spec] at size
      exact ⟨soleArgs_mem fine.2 x member,by omega⟩
  have sole : ∀ x, (Sole node e x ∧ sizeOf x ≤ sizeOf e) → Sole node e x := fun _ fine => fine.1
  refine evalWith_keeps sole smaller ?_ ?_ e ⟨inside,le_rfl⟩
  · rintro ⟨_,size⟩
    simp only [Expr.func.sizeOf_spec,List.cons.sizeOf_spec] at size
    omega
  · exact fun id x stored => keeps_barren table depth barren x (table id x stored)

/-- Evaluating the argument leaves what the node remembers. An evaluation of the argument that came to the node could not
have a value: it would evaluate the argument again, less deep, and so on. -/
theorem keeps_argument (inside : Sole node e e) (table : ∀ id x, vars id = some x → Sole node e x) (depth : Nat) :
    Keeps captured node (exprEval depth io vars e) := by
  by_cases some_value : ∃ d, ¬ Barren captured (exprEval d io vars e)
  · -- The least depth at which `e` has a value.
    obtain ⟨d,valued,least⟩ : ∃ d, ¬ Barren captured (exprEval d io vars e) ∧
        ∀ d' < d, Barren captured (exprEval d' io vars e) := by
      classical
      exact ⟨Nat.find some_value,Nat.find_spec some_value,fun d' less => by simpa using Nat.find_min some_value less⟩
    simp only [Barren,not_forall,not_not] at valued
    obtain ⟨m₀,v,t,start₀,valued⟩ := valued
    cases d with
    | zero => simp [exprEval,approx] at valued
    | succ d =>
      have keeps := keeps_first inside table d fun d' below => least d' (Nat.lt_succ_of_le below)
      intro m r start answered
      obtain ⟨_,w,t',again,_⟩ := exprEval_succeeds captured (d+1) e m₀ m v t start₀ start valued
      obtain rfl := References.exprEval_unique answered again
      exact keeps m _ start again
  · push Not at some_value
    exact keeps_barren table depth (fun d _ => some_value d) e inside

omit [Gdouble α] in
@[simp] theorem remembering_seen (c : Moment α) (node : Nat) (own : Option α) : (c.remembering node own).seen node = own := by
  simp [Moment.remembering]

/-- The node fails where its argument does. -/
theorem changed_error (failed : c.eval e m = some (.error error,t)) :
    c.eval (.func node .changed [e]) m = some (.error error,t) := by
  rw [Moment.eval,exprEval_succ] at failed
  simp only [Moment.eval,exprEval_succ,evalWith,evalArgs,funcExprEval,changedFuncExprEval,andThen,failed]

/-- It stores the value that its argument has. -/
theorem changed_value (valued : c.eval e m = some (.value v,t)) :
    c.eval (.func node .changed [e]) m = changedStore node dblMin v t := by
  rw [Moment.eval,exprEval_succ] at valued
  simp only [Moment.eval,exprEval_succ,evalWith,evalArgs,funcExprEval,changedFuncExprEval,andThen,valued]

/-- What the node answers is right but where both the remembered value and the new one equal the mark. -/
private theorem answer_iff (mark : eq (dblMin : α) dblMin = true) (apart : (one : α) ≠ zero) (last : Option α) (v : α) :
    (if eq (last.getD dblMin) dblMin = true then one else ofBool (!eq v (last.getD dblMin))) = differs last v ↔
      ∀ w ∈ last, ¬ (eq w dblMin = true ∧ eq v w = true) := by
  cases last with
  | none => simp [mark,differs]
  | some w =>
    simp only [Option.getD_some,Option.mem_some_iff,forall_eq',differs]
    cases first : eq w dblMin <;> cases second : eq v w <;> simp [ofBool,apart]

/-- The same of the rest of a sequence, where `last` is what the node has. -/
private theorem tellsChanges_last (mark : eq (dblMin : α) dblMin = true) (apart : (one : α) ≠ zero) (inside : Sole node e e)
    (table : ∀ c ∈ moments, ∀ id x, c.vars id = some x → Sole node e x) (last : Option α) :
    TellsChanges node e last last moments ↔
      List.IsChain (fun w v => ¬ (eq w dblMin = true ∧ eq v w = true)) (last.toList ++ values node e last moments) := by
  induction moments generalizing last with
  | nil =>
    simp only [TellsChanges,values,List.append_nil,true_iff]
    cases last with
    | none => exact .nil
    | some w => exact .singleton w
  | cons c rest ih =>
    have later := ih fun c' member => table c' (List.mem_cons_of_mem c member)
    have lone : List.IsChain (fun w v => ¬ (eq w dblMin = true ∧ eq v w = true)) last.toList := by
      cases last with
      | none => exact .nil
      | some w => exact .singleton w
    rw [TellsChanges,values]
    cases evaluated : c.eval e (c.remembering node last) with
    | none => simpa using lone
    | some result =>
      obtain ⟨out,t⟩ := result
      have own : t.seen node = last := by
        have kept := keeps_argument inside (table c List.mem_cons_self) _ _ _ rfl evaluated
        simpa using kept.1
      cases out with
      | value v =>
        have answered : c.eval (.func node .changed [e]) (c.remembering node last) =
            some (.value (if eq (last.getD dblMin) dblMin = true then one else ofBool (!eq v (last.getD dblMin))),
              { t with seen := Function.update t.seen node (some v) }) := by
          rw [changed_value evaluated,changedStore,own]
        have chained : List.IsChain (fun w v => ¬ (eq w dblMin = true ∧ eq v w = true))
            (last.toList ++ v :: values node e (some v) rest) ↔
              (∀ w ∈ last, ¬ (eq w dblMin = true ∧ eq v w = true)) ∧
                List.IsChain (fun w v => ¬ (eq w dblMin = true ∧ eq v w = true)) (v :: values node e (some v) rest) := by
          cases last <;> simp
        simp only [answered,Option.some.injEq,Prod.mk.injEq,Outcome.value.injEq]
        rw [chained,← answer_iff mark apart]
        constructor
        · rintro ⟨_,⟨right,rfl⟩,tells⟩
          simp only [Function.update_self] at tells
          exact ⟨right,(later (some v)).mp tells⟩
        · rintro ⟨right,chain⟩
          refine ⟨_,⟨right,rfl⟩,?_⟩
          simp only [Function.update_self]
          exact (later (some v)).mpr chain
      | error error =>
        simp only [changed_error evaluated,Option.some.injEq,Prod.mk.injEq,true_and,exists_eq_left',own]
        exact later last
      | undefined => simpa using lone

/-- A node `CHANGED(e)` tells the changes of `e`, over a sequence of evaluations, exactly if no value that equals `DBL_MIN`
is followed by an equal one: this number is the mark of a node that has not been evaluated. -/
theorem tellsChanges_iff (mark : eq (dblMin : α) dblMin = true) (apart : (one : α) ≠ zero) (inside : Sole node e e)
    (table : ∀ c ∈ moments, ∀ id x, c.vars id = some x → Sole node e x) :
    TellsChanges node e none none moments ↔
      List.IsChain (fun w v => ¬ (eq w dblMin = true ∧ eq v w = true)) (values node e none moments) :=
  tellsChanges_last mark apart inside table none

end

/-! A door, that is open or closed. -/

private def door (val : ℚ) : Moment ℚ :=
  ⟨1,⟨fun id => if id = "door" then some ⟨"door","",0,0,1,1,val,0⟩ else none,fun _ => none⟩,fun _ => none,freshMem⟩

/-- `EVAL(door)`: the door is open, and the call is left without a value. -/
theorem eval_kills_nothing : ¬ KillsLink 0 (.ref "door") none none [door 1] := by
  rintro ⟨m,yields,_⟩
  cases yields

theorem tellsChanges_iff_door :
    TellsChanges 0 (.ref "door") none none [door 0,door 1,door 1] ↔
      List.IsChain (fun w v => ¬ (eq w (dblMin : ℚ) = true ∧ eq v w = true))
        (values 0 (.ref "door") none [door 0,door 1,door 1]) := by
  refine tellsChanges_iff (by decide +kernel) (by decide +kernel) trivial ?_
  intro c member id x stored
  have empty : c.vars = fun _ => none := by
    simp only [List.mem_cons,List.not_mem_nil,or_false] at member
    rcases member with rfl | rfl | rfl <;> rfl
  rw [empty] at stored
  cases stored

/-- The loop of `MAX` starts with `DBL_MIN`: this is its value while the door is closed. -/
private theorem max_closed (m : Mem ℚ) : (door 0).eval (.func 1 .max [.ref "door"]) m = some (.value dblMin,m) := by
  have below : lt (dblMin : ℚ) 0 = false := by decide +kernel
  simp [Moment.eval,exprEval_succ,evalWith,evalArgs,funcExprEval,maxFuncExprEval,refExprEval,andThen,ret,door,below]

/-- `CHANGED(MAX(door))`, while the door stays closed, is 1 and then 1 again. -/
theorem changed_repeats : ¬ TellsChanges 0 (.func 1 .max [.ref "door"]) none none [door 0,door 0] := by
  have marked : eq (dblMin : ℚ) dblMin = true := by decide +kernel
  have apart : (one : ℚ) ≠ ofBool (!true) := by decide +kernel
  intro law
  rw [TellsChanges,max_closed] at law
  obtain ⟨m,answered,later⟩ := law
  rw [changed_value (max_closed _),changedStore,Option.some.injEq,Prod.mk.injEq] at answered
  obtain ⟨_,rfl⟩ := answered
  rw [TellsChanges,max_closed] at later
  obtain ⟨m,answered,_⟩ := later
  rw [changed_value (max_closed _)] at answered
  simp only [changedStore,remembering_seen,Function.update_self,Option.getD_some,marked,if_true,differs,Option.some.injEq,
    Prod.mk.injEq,Outcome.value.injEq] at answered
  exact apart answered.1

end Starter.Histories
