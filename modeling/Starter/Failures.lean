import Starter.Sequence
import Starter.References

/-!
What an evaluation leaves in the memory of the nodes when it fails. The evaluators stop at
the first operand that fails and take back nothing: the `CHANGED` nodes that have come to
an answer by then remember the values that they have seen.
-/
namespace Starter.Failures
open Gdouble Objects Expressions Evaluation References Parallel Sequence Lib.Approx

variable {α : Type}

/-- The `CHANGED` nodes that come to an answer in an evaluation, in their order, with the
    values of their arguments. -/
abbrev Completed (α : Type) := Mem α → List (Nat × α)

/-- In evaluations one after the other, up to the first that has no value. -/
def inTurn : List (Completed α × Eval α α) → Completed α
  | [] => fun _ => []
  | (done,x) :: rest => fun m =>
    done m ++ match x m with
      | some (.value _,t) => inTurn rest t
      | _ => []

/-- The last value of the node in the list. -/
def lastOf (node : Nat) : List (Nat × α) → Option α
  | [] => none
  | (other,v) :: rest => (lastOf node rest).or (if other = node then some v else none)

/-- Each node remembers its value. -/
def remember (log : List (Nat × α)) (m : Mem α) : Mem α :=
  log.foldl (fun m answer => { m with seen := Function.update m.seen answer.1 (some answer.2) }) m

theorem remember_append (first second : List (Nat × α)) (m : Mem α) :
    remember (first ++ second) m = remember second (remember first m) := List.foldl_append

theorem remember_captured (log : List (Nat × α)) (m : Mem α) : (remember log m).captured = m.captured := by
  induction log generalizing m with
  | nil => rfl
  | cons _ rest ih => exact ih _

theorem remember_seen (log : List (Nat × α)) (m : Mem α) (node : Nat) :
    (remember log m).seen node = (lastOf node log).or (m.seen node) := by
  induction log generalizing m with
  | nil => rfl
  | cons answer rest ih =>
    obtain ⟨other,v⟩ := answer
    refine (ih _).trans ?_
    rw [lastOf,Option.or_assoc]
    refine congrArg ((lastOf node rest).or) ?_
    by_cases same : other = node
    · subst same
      simp
    · simp only [if_neg same,Function.update_of_ne (Ne.symm same),Option.none_or]

section
variable [Gdouble α]

/-- A `CHANGED` node comes to its answer once its argument has a value. -/
def ownAnswer (node : Nat) (args : List (Expr α)) : Func → List (Completed α × Eval α α) → Completed α
  | .changed, (_,x) :: _ => fun m =>
    match initial args, x m with
    | some _, some (.value v,_) => [(node,v)]
    | _, _ => []
  | _, _ => fun _ => []

mutual
/-- In the body of `expr_eval`, with `done` for the expression of a variable. -/
def completedWith (done : Expr α → Completed α) (k : Expr α → Eval α α) (io : Io α) (vars : Variables α) :
    Expr α → Completed α
  | .literal _ => fun _ => []
  | .op _ left right =>
    inTurn [(completedWith done k io vars left,evalWith k io vars left),
      (completedWith done k io vars right,evalWith k io vars right)]
  | .ref id =>
    match io.inputs id, io.outputs id, vars id with
    | none, none, some e => done e
    | _, _, _ => fun _ => []
  | .func node func args => fun m =>
    let pairs := completedArgs done k io vars args
    inTurn (pairs.take (operandCount m.captured node func args)) m ++ ownAnswer node args func pairs m
  | .flag _ _ => fun _ => []

def completedArgs (done : Expr α → Completed α) (k : Expr α → Eval α α) (io : Io α) (vars : Variables α) :
    List (Expr α) → List (Completed α × Eval α α)
  | [] => []
  | e :: es => (completedWith done k io vars e,evalWith k io vars e) :: completedArgs done k io vars es
end

/-- In the evaluation of an expression. -/
def completed : Nat → Io α → Variables α → Expr α → Completed α
  | 0, _, _, _ => fun _ => []
  | depth+1, io, vars, e => completedWith (completed depth io vars) (exprEval depth io vars) io vars e

/-- The computation, where it is defined, leaves the memory with what has been completed and nothing else. -/
def Leaves (done : Completed α) (x : Eval α α) : Prop :=
  ∀ m out t, x m = some (out,t) → out ≠ .undefined → t = remember (done m) m

variable {pairs : List (Completed α × Eval α α)} {m t : Mem α} {out : Outcome α}

omit [Gdouble α] in
/-- Computations one after the other either have values, or have ended with the whole. -/
theorem inOrder_leaves (each : ∀ p ∈ pairs, Leaves p.1 p.2) {f : List α → Eval α α}
    (answered : inOrder (pairs.map Prod.snd) f m = some (out,t)) (defined : out ≠ .undefined) :
    (∃ vs, vs.length = pairs.length ∧ f vs (remember (inTurn pairs m) m) = some (out,t)) ∨
      t = remember (inTurn pairs m) m := by
  induction pairs generalizing m f with
  | nil => exact .inl ⟨[],rfl,answered⟩
  | cons pair rest ih =>
    obtain ⟨done,x⟩ := pair
    have first : Leaves done x := each (done,x) List.mem_cons_self
    rw [List.map_cons,inOrder,andThen] at answered
    rw [inTurn,remember_append]
    cases called : x m with
    | none => simp [called] at answered
    | some r =>
      obtain ⟨v | error | _,middle⟩ := r
      · simp only [called] at answered ⊢
        rw [← first m _ middle called (by simp)]
        rcases ih (fun p member => each p (List.mem_cons_of_mem _ member)) answered with ⟨vs,count,rest⟩ | ended
        · exact .inl ⟨v :: vs,by simp [count],rest⟩
        · exact .inr ended
      · simp only [called] at answered ⊢
        cases answered
        exact .inr (first m _ t called (by simp))
      · simp only [called] at answered
        cases answered
        exact absurd rfl defined

/-- The evaluators other than that of `CHANGED` write nothing, unless they end undefined. -/
theorem finish_leaves {captured : Nat → Option α} {node : Nat} {func : Func} {args : List (Expr α)} {vs : List α}
    (other : func ≠ .changed ∨ initial args = none) (answered : finish captured node func args vs m = some (out,t))
    (defined : out ≠ .undefined) : t = m := by
  cases func with
  | min => cases answered; rfl
  | max => cases answered; rfl
  | round => rcases vs with _ | ⟨_,_ | _⟩ <;> (cases answered; rfl)
  | limit => rcases vs with _ | ⟨_,_ | ⟨_,_ | ⟨_,_ | _⟩⟩⟩ <;> (cases answered; rfl)
  | eval =>
    rcases args with _ | ⟨arg,args⟩
    · cases answered
      rfl
    · cases found : captured node with
      | some w => cases arg <;> (simp only [finish,found] at answered; cases answered; rfl)
      | none =>
        cases arg with
        | literal w =>
          cases answered
          rfl
        | op | ref | func | flag =>
          rcases vs with _ | ⟨_,_ | _⟩ <;>
            (simp only [finish,found] at answered; cases answered; first | rfl | exact absurd rfl defined)
  | changed =>
    have literal := other.resolve_left (by simp)
    rcases vs with _ | ⟨val,vs⟩
    · cases answered
      rfl
    · simp only [finish,literal] at answered
      cases answered
      rfl

omit [Gdouble α] in
private theorem ownAnswer_nil [Gdouble α] {node : Nat} {func : Func} {args : List (Expr α)}
    (other : func ≠ .changed ∨ initial args = none) : ownAnswer node args func pairs m = [] := by
  cases func with
  | changed =>
    have literal := other.resolve_left (by simp)
    rcases pairs with _ | ⟨⟨_,x⟩,_⟩
    · rfl
    · simp [ownAnswer,literal]
  | min | max | round | limit | eval => rfl

/-- A function node leaves what its operands leave, and its own answer. -/
theorem func_leaves (node : Nat) (func : Func) (args : List (Expr α)) (count : args.length = pairs.length)
    (each : ∀ p ∈ pairs, Leaves p.1 p.2) :
    Leaves (fun m => inTurn (pairs.take (operandCount m.captured node func args)) m ++ ownAnswer node args func pairs m)
      (funcExprEval node func args (pairs.map Prod.snd)) := by
  intro m out t answered defined
  simp only [remember_append]
  by_cases own : func = .changed ∧ ∃ init, initial args = some init
  · obtain ⟨rfl,init,literal⟩ := own
    rcases pairs with _ | ⟨⟨done,x⟩,rest⟩
    · obtain rfl := List.length_eq_zero_iff.mp count
      simp [initial] at literal
    · have first : Leaves done x := each (done,x) List.mem_cons_self
      rw [funcExprEval,List.map_cons,changedFuncExprEval_initial literal (by simpa using count),andThen] at answered
      simp only [operandCount,literal,Option.isSome_some,if_true,List.take_succ_cons,List.take_zero,ownAnswer,inTurn]
      cases called : x m with
      | none => simp [called] at answered
      | some r =>
        obtain ⟨v | error | _,middle⟩ := r
        · simp only [called,List.append_nil] at answered ⊢
          rw [← first m _ middle called (by simp)]
          cases answered
          rfl
        · simp only [called,List.append_nil] at answered ⊢
          cases answered
          exact first m _ t called (by simp)
        · simp only [called] at answered
          cases answered
          exact absurd rfl defined
  · have other : func ≠ .changed ∨ initial args = none := by
      by_cases same : func = .changed
      · refine .inr (Option.eq_none_iff_forall_ne_some.mpr fun init literal => own ⟨same,init,literal⟩)
      · exact .inl same
    rw [ownAnswer_nil other]
    rw [funcExprEval_inOrder node func (by simpa using count) m,← List.map_take] at answered
    rcases inOrder_leaves (fun p member => each p (List.mem_of_mem_take member)) answered defined with ⟨vs,_,done⟩ | ended
    · exact finish_leaves other done defined
    · exact ended

variable {io : Io α} {vars : Variables α}

private theorem completedArgs_snd (done : Expr α → Completed α) (k : Expr α → Eval α α) (args : List (Expr α)) :
    (completedArgs done k io vars args).map Prod.snd = evalArgs k io vars args := by
  induction args with
  | nil => rfl
  | cons e es ih => rw [completedArgs,List.map_cons,ih,evalArgs]

mutual
theorem evalWith_leaves {done : Expr α → Completed α} {k : Expr α → Eval α α} (calls : ∀ e, Leaves (done e) (k e)) :
    ∀ e : Expr α, Leaves (completedWith done k io vars e) (evalWith k io vars e)
  | .literal val => by
    rintro m out t ⟨⟩ _
    rfl
  | .op o left right => by
    intro m out t answered defined
    rw [evalWith_op_inOrder] at answered
    rw [completedWith]
    have each : ∀ p ∈ [(completedWith done k io vars left,evalWith k io vars left),
        (completedWith done k io vars right,evalWith k io vars right)], Leaves p.1 p.2 := by
      simp only [List.mem_cons,List.not_mem_nil,or_false]
      rintro p (rfl | rfl)
      · exact evalWith_leaves calls left
      · exact evalWith_leaves calls right
    rcases inOrder_leaves each answered defined with ⟨vs,count,rest⟩ | ended
    · obtain ⟨lval,rval,rfl⟩ := List.length_eq_two.mp count
      cases rest
      rfl
    · exact ended
  | .ref id => by
    intro m out t answered defined
    rw [evalWith,refExprEval] at answered
    rw [completedWith]
    cases input : io.inputs id with
    | some object =>
      simp only [input] at answered ⊢
      cases answered
      rfl
    | none =>
      cases output : io.outputs id with
      | some object =>
        simp only [input,output] at answered ⊢
        cases answered
        rfl
      | none =>
        cases found : vars id with
        | some stored =>
          simp only [input,output,found] at answered ⊢
          exact calls stored m out t answered defined
        | none =>
          simp only [input,output,found] at answered ⊢
          cases answered
          rfl
  | .func node func args => by
    have count : args.length = (completedArgs done k io vars args).length := by
      rw [← List.length_map (f := Prod.snd),completedArgs_snd,evalArgs_eq_map,List.length_map]
    have leaves := func_leaves node func args count (evalArgs_leaves calls args)
    rw [completedArgs_snd] at leaves
    exact leaves
  | .flag id bit => by
    intro m out t answered _
    rw [evalWith,flagExprEval] at answered
    cases input : io.inputs id with
    | some object =>
      simp only [input] at answered
      cases answered
      rfl
    | none =>
      cases output : io.outputs id with
      | some object =>
        simp only [input,output] at answered
        cases answered
        rfl
      | none =>
        simp only [input,output] at answered
        cases answered
        rfl

private theorem evalArgs_leaves {done : Expr α → Completed α} {k : Expr α → Eval α α} (calls : ∀ e, Leaves (done e) (k e)) :
    ∀ args : List (Expr α), ∀ p ∈ completedArgs done k io vars args, Leaves p.1 p.2
  | [] => by simp [completedArgs]
  | first :: rest => by
    intro p member
    rw [completedArgs] at member
    rcases List.mem_cons.mp member with rfl | member
    · exact evalWith_leaves calls first
    · exact evalArgs_leaves calls rest p member
end

theorem exprEval_leaves (depth : Nat) (e : Expr α) : Leaves (completed depth io vars e) (exprEval depth io vars e) := by
  induction depth generalizing e with
  | zero =>
    intro m out t answered
    simp [exprEval,approx] at answered
  | succ depth ih => exact evalWith_leaves ih e

/-- An evaluation that fails leaves the arguments of `EVAL` as they were, and every `CHANGED` node too, but for those that
had come to an answer before the name was missed: each of these remembers the last value that its argument had. -/
theorem failed_memory (io : Io α) (vars : Variables α) (e : Expr α) (m : Mem α) (depth : Nat) (error : StError) (t : Mem α)
    (failed : exprEval depth io vars e m = some (.error error,t)) :
    t.captured = m.captured ∧
      ∀ node, t.seen node = (lastOf node (completed depth io vars e m)).or (m.seen node) := by
  have left := exprEval_leaves depth e m _ t failed (by simp)
  rw [left]
  exact ⟨remember_captured _ m,remember_seen _ m⟩

end

/-! `CHANGED(a) && b == 1`, where `a` has become 3 and was 2 before. -/

private def watch : Expr ℚ := .op .and (.func 0 .changed [.ref "a"]) (.op .eq (.ref "b") (.literal 1))

private def object (id : String) (val : ℚ) : IoObject ℚ := ⟨id,"",0,0,10,1,val,0⟩

/-- The peer of `b` is offline. -/
private def offline : Io ℚ := ⟨fun id => if id = "a" then some (object "a" 3) else none,fun _ => none⟩

private def online : Io ℚ :=
  ⟨fun id => if id = "a" then some (object "a" 3) else if id = "b" then some (object "b" 1) else none,fun _ => none⟩

private def before : Mem ℚ := remember [(0,2)] freshMem

private def missed : StError := ⟨.undefinedIdentifier,"ref_expr_eval: undefined identifier: b"⟩

theorem failed_memory_watch : (remember [(0,3)] before).captured = before.captured ∧
    ∀ node, (remember [(0,3)] before).seen node =
      (lastOf node (completed 1 offline (fun _ => none) watch before)).or (before.seen node) :=
  failed_memory offline (fun _ => none) watch before 1 missed _ rfl

/-- The evaluation fails at `b`, and the change of `a` is not reported by the next one, though it would be without the first. -/
theorem change_forgotten : ∃ t,
    exprEval 1 offline (fun _ => none) watch before = some (.error missed,t) ∧ t.seen 0 ≠ before.seen 0 ∧
    (exprEval 1 online (fun _ => none) watch t).map Prod.fst = some (.value 0) ∧
    (exprEval 1 online (fun _ => none) watch before).map Prod.fst = some (.value 1) := by
  refine ⟨remember [(0,3)] before,rfl,?_,?_,?_⟩
  · simp [before,remember]
  · decide +kernel
  · decide +kernel

end Starter.Failures
