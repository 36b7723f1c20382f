import Starter.Sequence
import Starter.Termination

/-!
A variable is a name for the expression that it stores. Where the evaluation of an
expression has a result it has the same one with the stored expression written in place of
the name, and so has the test for a reference.
-/
namespace Starter.Aliases
open Gdouble Expressions Evaluation References Parallel Sequence Termination Lib.Approx Lib.Graphs

variable {α : Type}

mutual
/-- The expression with every reference to the variable replaced. The name of a `FLAG` is
    one of an input or output. -/
def replaced (v : String) (stored : Expr α) : Expr α → Expr α
  | .literal val => .literal val
  | .op o left right => .op o (replaced v stored left) (replaced v stored right)
  | .ref id => if id = v then stored else .ref id
  | .func node func args => .func node func (replacedArgs v stored args)
  | .flag id bit => .flag id bit

def replacedArgs (v : String) (stored : Expr α) : List (Expr α) → List (Expr α)
  | [] => []
  | e :: es => replaced v stored e :: replacedArgs v stored es
end

theorem replacedArgs_eq_map (v : String) (stored : Expr α) (args : List (Expr α)) :
    replacedArgs v stored args = args.map (replaced v stored) := by
  induction args with
  | nil => rfl
  | cons e es ih => rw [replacedArgs,ih,List.map_cons]

section
variable [Gdouble α]

/-- `expr_eval` ends in this way. -/
def Yields (io : Io α) (vars : Variables α) (m : Mem α) (e : Expr α) (out : Outcome α) : Prop :=
  ∃ depth t, exprEval depth io vars e m = some (out,t)

/-- `expr_have_ref_to` gives this answer. -/
def Answer (vars : Variables α) (m : Mem α) (id : String) (e : Expr α) (answer : Bool) : Prop :=
  ∃ depth, exprHaveRefTo depth vars m.captured id e = some answer

/-- The two expressions have the same value, or both fail, and they refer to the same
    identifiers other than `v`. -/
structure AliasLaw (io : Io α) (vars : Variables α) (m : Mem α) (v : String) (e e' : Expr α) : Prop where
  result : (∃ w, Yields io vars m e (.value w) ∧ Yields io vars m e' (.value w)) ∨
    ∃ error error', Yields io vars m e (.error error) ∧ Yields io vars m e' (.error error')
  refs : ∀ id, id ≠ v → ∃ answer, Answer vars m id e answer ∧ Answer vars m id e' answer

/-! What an evaluation comes to depends on the names that have a meaning, and not on the
values. -/

/-- The name is one of an input or an output. -/
def Known (io : Io α) (id : String) : Prop := io.inputs id ≠ none ∨ io.outputs id ≠ none

/-- The evaluation comes to a value. -/
inductive Passes (io : Io α) (vars : Variables α) (captured : Nat → Option α) : Expr α → Prop
  | literal {val : α} : Passes io vars captured (.literal val)
  | known {id : String} (known : Known io id) : Passes io vars captured (.ref id)
  | stored {id : String} {e : Expr α} (unknown : ¬ Known io id) (stored : vars id = some e)
      (inside : Passes io vars captured e) : Passes io vars captured (.ref id)
  | flag {id : String} {bit : IoFlags} (known : Known io id) : Passes io vars captured (.flag id bit)
  | op {o : Op} {left right : Expr α} (one : Passes io vars captured left) (two : Passes io vars captured right) :
      Passes io vars captured (.op o left right)
  | func {node : Nat} {func : Func} {args : List (Expr α)}
      (each : ∀ x ∈ args.take (operandCount captured node func args), Passes io vars captured x)
      (result : hasResult captured node func args = true) : Passes io vars captured (.func node func args)

/-- The evaluation comes to a call that has no result: an `EVAL` whose argument is no
    literal, a `CHANGED` whose second argument is none, or too few arguments. -/
inductive Stalls (io : Io α) (vars : Variables α) (captured : Nat → Option α) : Expr α → Prop
  | stored {id : String} {e : Expr α} (unknown : ¬ Known io id) (stored : vars id = some e)
      (inside : Stalls io vars captured e) : Stalls io vars captured (.ref id)
  | left {o : Op} {left right : Expr α} (one : Stalls io vars captured left) : Stalls io vars captured (.op o left right)
  | right {o : Op} {left right : Expr α} (one : Passes io vars captured left) (two : Stalls io vars captured right) :
      Stalls io vars captured (.op o left right)
  | arg {node : Nat} {func : Func} {args before after : List (Expr α)} {x : Expr α}
      (operands : args.take (operandCount captured node func args) = before ++ x :: after)
      (earlier : ∀ y ∈ before, Passes io vars captured y) (inside : Stalls io vars captured x) :
      Stalls io vars captured (.func node func args)
  | call {node : Nat} {func : Func} {args : List (Expr α)}
      (each : ∀ x ∈ args.take (operandCount captured node func args), Passes io vars captured x)
      (noResult : hasResult captured node func args = false) : Stalls io vars captured (.func node func args)

variable {io : Io α} {vars : Variables α} {captured : Nat → Option α} {m t : Mem α} {e : Expr α}

/-- What an end of the evaluation says about the expression. -/
def Told (io : Io α) (vars : Variables α) (captured : Nat → Option α) (e : Expr α) : Outcome α → Prop
  | .value _ => Passes io vars captured e
  | .error _ => True
  | .undefined => Stalls io vars captured e

/-- The evaluators have a result exactly if they are told to have one. -/
theorem finish_cases {node : Nat} {func : Func} {args : List (Expr α)} {vs : List α} {r : Outcome α × Mem α}
    (count : vs.length = (args.take (operandCount captured node func args)).length)
    (answered : finish captured node func args vs m = some r) :
    (hasResult captured node func args = true ∧ ∃ v, r.1 = .value v) ∨
      (hasResult captured node func args = false ∧ r.1 = .undefined) := by
  cases func with
  | min =>
    cases answered
    exact .inl ⟨rfl,_,rfl⟩
  | max =>
    cases answered
    exact .inl ⟨rfl,_,rfl⟩
  | round =>
    rcases args with _ | ⟨arg,args⟩
    · obtain rfl := List.length_eq_zero_iff.mp count
      cases answered
      exact .inr ⟨rfl,rfl⟩
    · obtain ⟨val,rfl⟩ := List.length_eq_one_iff.mp (count.trans (by simp [operandCount]))
      cases answered
      exact .inl ⟨by simp [hasResult],_,rfl⟩
  | limit =>
    rcases args with _ | ⟨arg,_ | ⟨low,_ | ⟨high,args⟩⟩⟩
    · obtain rfl := List.length_eq_zero_iff.mp count
      cases answered
      exact .inr ⟨rfl,rfl⟩
    · obtain ⟨val,rfl⟩ := List.length_eq_one_iff.mp count
      cases answered
      exact .inr ⟨rfl,rfl⟩
    · obtain ⟨val,min,rfl⟩ := List.length_eq_two.mp count
      cases answered
      exact .inr ⟨rfl,rfl⟩
    · obtain ⟨val,min,max,rfl⟩ := List.length_eq_three.mp (count.trans (by simp [operandCount]))
      cases answered
      exact .inl ⟨by simp [hasResult],_,rfl⟩
  | eval =>
    rcases args with _ | ⟨arg,args⟩
    · cases answered
      exact .inr ⟨rfl,rfl⟩
    · cases found : captured node with
      | some w =>
        cases arg <;>
          (simp only [finish,found] at answered; cases answered; exact .inl ⟨by simp [hasResult,found],_,rfl⟩)
      | none =>
        cases arg with
        | literal w =>
          cases answered
          exact .inl ⟨rfl,_,rfl⟩
        | op | ref | func | flag =>
          obtain ⟨val,rfl⟩ := List.length_eq_one_iff.mp (count.trans (by simp [operandCount,found]))
          simp only [finish,found] at answered
          cases answered
          exact .inr ⟨by simp [hasResult,found],rfl⟩
  | changed =>
    rcases vs with _ | ⟨val,vs⟩
    · rcases args with _ | ⟨arg,args⟩
      · cases answered
        exact .inr ⟨rfl,rfl⟩
      · simp only [operandCount] at count
        split at count <;> simp at count
    · cases literal : initial args with
      | some init =>
        simp only [finish,literal] at answered
        cases answered
        exact .inl ⟨by simp [hasResult,literal],_,rfl⟩
      | none =>
        simp only [finish,literal] at answered
        cases answered
        exact .inr ⟨by simp [hasResult,literal],rfl⟩

/-- Expressions that have values one after the other come to values. -/
private theorem run_told (es : List (Expr α)) {vs : List α} {depth : Nat}
    (each : ∀ e ∈ es, ∀ m r, exprEval depth io vars e m = some r → Told io vars m.captured e r.1)
    (run : Run (es.map (exprEval depth io vars)) m vs t) :
    (∀ e ∈ es, Passes io vars m.captured e) ∧ t.captured = m.captured := by
  induction es generalizing m vs with
  | nil =>
    cases run
    exact ⟨by simp,rfl⟩
  | cons e es ih =>
    rw [List.map_cons] at run
    rcases run with _ | ⟨first,rest⟩
    have kept := exprEval_captured first (by simp)
    have head : Passes io vars m.captured e := each e List.mem_cons_self m _ first
    obtain ⟨others,same⟩ := ih (fun e member => each e (List.mem_cons_of_mem _ member)) rest
    rw [kept] at others same
    refine ⟨fun x member => ?_,same⟩
    rcases List.mem_cons.mp member with rfl | member
    · exact head
    · exact others x member

mutual
private theorem evalWith_told {depth : Nat}
    (calls : ∀ e m r, exprEval depth io vars e m = some r → Told io vars m.captured e r.1) :
    ∀ (e : Expr α) m r, exprEval (depth+1) io vars e m = some r → Told io vars m.captured e r.1
  | .literal val => by
    rintro m r ⟨⟩
    exact .literal
  | .op o left right => by
    intro m r answered
    rw [exprEval_succ,evalWith_op_inOrder] at answered
    have each : ∀ e ∈ [left,right], ∀ m r, exprEval (depth+1) io vars e m = some r → Told io vars m.captured e r.1 := by
      simp only [List.mem_cons,List.not_mem_nil,or_false]
      rintro e (rfl | rfl)
      · exact evalWith_told calls e
      · exact evalWith_told calls e
    rcases inOrder_cases answered with ⟨vs,middle,run,done⟩ | ⟨before,x,after,vs,middle,split_,run,ended,noValue⟩
    · obtain ⟨pass,_⟩ := run_told _ each run
      obtain ⟨lval,rval,rfl⟩ := List.length_eq_two.mp run.length_eq
      cases done
      exact .op (pass left (by simp)) (pass right (by simp))
    · rcases before with _ | ⟨one,_ | ⟨two,before⟩⟩
      · cases split_
        cases run
        have last := each left (by simp) m r ended
        rcases r with ⟨v | error | _,t⟩
        · exact absurd rfl (noValue v)
        · trivial
        · exact .left last
      · cases split_
        obtain ⟨pass,kept⟩ := run_told [left] (fun e member => each e (by simp_all)) run
        have last := each right (by simp) middle r ended
        rw [kept] at last
        rcases r with ⟨v | error | _,t⟩
        · exact absurd rfl (noValue v)
        · trivial
        · exact .right (pass left (by simp)) last
      · simp at split_
  | .ref id => by
    intro m r answered
    rw [exprEval_succ,evalWith,refExprEval] at answered
    cases input : io.inputs id with
    | some object =>
      simp only [input] at answered
      cases answered
      exact .known (.inl (by simp [input]))
    | none =>
      cases output : io.outputs id with
      | some object =>
        simp only [input,output] at answered
        cases answered
        exact .known (.inr (by simp [output]))
      | none =>
        have unknown : ¬ Known io id := by simp [Known,input,output]
        cases found : vars id with
        | some stored =>
          simp only [input,output,found] at answered
          have inside := calls stored m r answered
          rcases r with ⟨_ | _ | _,t⟩
          · exact .stored unknown found inside
          · trivial
          · exact .stored unknown found inside
        | none =>
          simp only [input,output,found] at answered
          cases answered
          trivial
  | .func node func args => by
    intro m r answered
    rw [exprEval_succ,evalWith_inOrder] at answered
    have each := evalArgs_told calls args
    rcases inOrder_cases answered with ⟨vs,middle,run,done⟩ | ⟨before,x,after,vs,middle,split_,run,ended,noValue⟩
    · have count := run.length_eq
      rw [List.length_map] at count
      obtain ⟨pass,_⟩ := run_told _ (fun e member => each e (List.mem_of_mem_take member)) run
      rcases finish_cases count done with ⟨result,v,value⟩ | ⟨noResult,undefined⟩
      · rw [value]
        exact .func pass result
      · rw [undefined]
        exact .call pass noResult
    · obtain ⟨first,rest,operands,rfl,others⟩ := List.map_eq_append_iff.mp split_
      obtain ⟨e,_,rfl,rfl,_⟩ := List.map_eq_cons_iff.mp others
      have inside : ∀ y ∈ first ++ e :: _, y ∈ args := fun y member => List.mem_of_mem_take (operands ▸ member)
      obtain ⟨pass,kept⟩ := run_told _ (fun y member => each y (inside y (List.mem_append_left _ member))) run
      have last := each e (inside e (by simp)) middle r ended
      rw [kept] at last
      rcases r with ⟨v | error | _,t⟩
      · exact absurd rfl (noValue v)
      · trivial
      · exact .arg operands pass last
  | .flag id bit => by
    intro m r answered
    rw [exprEval_succ,evalWith,flagExprEval] at answered
    cases input : io.inputs id with
    | some object =>
      simp only [input] at answered
      cases answered
      exact .flag (.inl (by simp [input]))
    | none =>
      cases output : io.outputs id with
      | some object =>
        simp only [input,output] at answered
        cases answered
        exact .flag (.inr (by simp [output]))
      | none =>
        simp only [input,output] at answered
        cases answered
        trivial

private theorem evalArgs_told {depth : Nat}
    (calls : ∀ e m r, exprEval depth io vars e m = some r → Told io vars m.captured e r.1) :
    ∀ args : List (Expr α), ∀ e ∈ args, ∀ m r, exprEval (depth+1) io vars e m = some r → Told io vars m.captured e r.1
  | [] => by simp
  | first :: rest => by
    intro e member m r answered
    rcases List.mem_cons.mp member with same | member
    · rw [same] at answered ⊢
      exact evalWith_told calls first m r answered
    · exact evalArgs_told calls rest e member m r answered
end

/-- An evaluation ends as the names let it. -/
theorem exprEval_told (depth : Nat) : ∀ (e : Expr α) (m : Mem α) r,
    exprEval depth io vars e m = some r → Told io vars m.captured e r.1 := by
  induction depth with
  | zero =>
    intro e m r answered
    simp [exprEval,approx] at answered
  | succ depth ih => exact evalWith_told ih

/-- From every memory with these captured literals the computation comes to such an end. -/
def Always (captured : Nat → Option α) (ends : Outcome α → Prop) (x : Eval α α) : Prop :=
  ∀ m, m.captured = captured → ∃ out t, x m = some (out,t) ∧ ends out

/-- It has a value. -/
def IsValue (out : Outcome α) : Prop := ∃ v, out = .value v

theorem always_mono {ends : Outcome α → Prop} {depth more : Nat} (le : depth ≤ more)
    (always : Always captured ends (exprEval depth io vars e)) : Always captured ends (exprEval more io vars e) := by
  intro m start
  obtain ⟨out,t,answered,fine⟩ := always m start
  exact ⟨out,t,approx_mono (evalStep_monotone io vars) le _ _ answered,fine⟩

/-- Expressions that always have values have them one after the other. -/
private theorem run_always {es : List (Expr α)} {depth : Nat}
    (each : ∀ e ∈ es, Always captured IsValue (exprEval depth io vars e)) (start : m.captured = captured) :
    ∃ vs t, Run (es.map (exprEval depth io vars)) m vs t ∧ t.captured = captured := by
  induction es generalizing m with
  | nil => exact ⟨[],m,.nil,start⟩
  | cons e es ih =>
    obtain ⟨_,middle,answered,v,rfl⟩ := each e List.mem_cons_self m start
    have kept := exprEval_captured answered (by simp)
    obtain ⟨vs,t,run,same⟩ := ih (fun e member => each e (List.mem_cons_of_mem _ member)) (kept.trans start)
    exact ⟨v :: vs,t,.cons answered run,same⟩

/-- One depth is enough for finitely many expressions. -/
private theorem common_depth {ends : Outcome α → Prop} (es : List (Expr α))
    (each : ∀ e ∈ es, ∃ depth, Always captured ends (exprEval (depth+1) io vars e)) :
    ∃ depth, ∀ e ∈ es, Always captured ends (exprEval (depth+1) io vars e) := by
  induction es with
  | nil => exact ⟨0,by simp⟩
  | cons e es ih =>
    obtain ⟨one,first⟩ := each e List.mem_cons_self
    obtain ⟨two,others⟩ := ih fun e member => each e (List.mem_cons_of_mem _ member)
    refine ⟨max one two,fun x member => ?_⟩
    rcases List.mem_cons.mp member with rfl | member
    · exact always_mono (by omega) first
    · exact always_mono (by omega) (others x member)

/-- The end of a node whose operands have values. -/
private theorem call_always {node : Nat} {func : Func} {args : List (Expr α)} {depth : Nat}
    (each : ∀ e ∈ args.take (operandCount captured node func args), Always captured IsValue (exprEval (depth+1) io vars e))
    (start : m.captured = captured) : ∃ r, exprEval (depth+1) io vars (.func node func args) m = some r ∧
      ((hasResult captured node func args = true ∧ ∃ v, r.1 = .value v) ∨
        (hasResult captured node func args = false ∧ r.1 = .undefined)) := by
  obtain ⟨vs,t,run,_⟩ := run_always each start
  have count := run.length_eq
  rw [List.length_map] at count
  have ended := inOrder_all run (finish captured node func args)
  subst start
  rw [exprEval_succ,evalWith_inOrder]
  cases done : finish m.captured node func args vs t with
  | none => exact absurd done (finish_total m.captured node func args vs t)
  | some r => exact ⟨r,ended.trans done,finish_cases count done⟩


private theorem ref_stored {id : String} {stored : Expr α} (unknown : ¬ Known io id) (found : vars id = some stored)
    (depth : Nat) : exprEval (depth+1) io vars (.ref id) = exprEval depth io vars stored := by
  simp only [Known,not_or,not_not] at unknown
  simp only [exprEval_succ,evalWith,refExprEval,unknown.1,unknown.2,found]

/-- An expression that is said to come to a value does. -/
theorem passes_value (passes : Passes io vars captured e) :
    ∃ depth, Always captured IsValue (exprEval (depth+1) io vars e) := by
  induction passes with
  | @literal val => exact ⟨0,fun m _ => ⟨_,m,rfl,val,rfl⟩⟩
  | @known id known =>
    refine ⟨0,fun m _ => ?_⟩
    simp only [exprEval_succ,evalWith,refExprEval]
    cases input : io.inputs id with
    | some object => exact ⟨_,m,rfl,_,rfl⟩
    | none =>
      obtain ⟨object,output⟩ := Option.ne_none_iff_exists'.mp (known.resolve_left fun has => has input)
      simp only [output]
      exact ⟨_,m,rfl,_,rfl⟩
  | stored unknown found _ ih =>
    obtain ⟨depth,always⟩ := ih
    refine ⟨depth+1,?_⟩
    rw [ref_stored unknown found]
    exact always
  | @flag id bit known =>
    refine ⟨0,fun m _ => ?_⟩
    simp only [exprEval_succ,evalWith,flagExprEval]
    cases input : io.inputs id with
    | some object => exact ⟨_,m,rfl,_,rfl⟩
    | none =>
      obtain ⟨object,output⟩ := Option.ne_none_iff_exists'.mp (known.resolve_left fun has => has input)
      simp only [output]
      exact ⟨_,m,rfl,_,rfl⟩
  | @op o left right _ _ first second =>
    obtain ⟨depth,each⟩ := common_depth [left,right] (by simpa using ⟨first,second⟩)
    refine ⟨depth,fun m start => ?_⟩
    obtain ⟨vs,t,run,_⟩ := run_always each start
    obtain ⟨lval,rval,rfl⟩ := List.length_eq_two.mp run.length_eq
    exact ⟨_,t,inOrder_all run (opFinish o),_,rfl⟩
  | @func node func args _ result each =>
    obtain ⟨depth,each⟩ := common_depth _ each
    refine ⟨depth,fun m start => ?_⟩
    obtain ⟨⟨out,t⟩,answered,⟨_,value⟩ | ⟨none,_⟩⟩ := call_always each start
    · exact ⟨out,t,answered,value⟩
    · simp [result] at none

/-- An expression that is said to stall does. -/
theorem stalls_undefined (stalls : Stalls io vars captured e) :
    ∃ depth, Always captured (· = .undefined) (exprEval (depth+1) io vars e) := by
  induction stalls with
  | stored unknown found _ ih =>
    obtain ⟨depth,always⟩ := ih
    refine ⟨depth+1,?_⟩
    rw [ref_stored unknown found]
    exact always
  | @left o left right _ ih =>
    obtain ⟨depth,always⟩ := ih
    refine ⟨depth,fun m start => ?_⟩
    obtain ⟨_,t,answered,rfl⟩ := always m start
    refine ⟨_,t,?_,rfl⟩
    rw [exprEval_succ] at answered
    simp only [exprEval_succ,evalWith,andThen,answered]
  | @right o left right one _ ih =>
    obtain ⟨depth,always⟩ := ih
    obtain ⟨first,value⟩ := passes_value one
    refine ⟨max first depth,fun m start => ?_⟩
    obtain ⟨_,middle,answered,v,rfl⟩ := always_mono (Nat.succ_le_succ (Nat.le_max_left first depth)) value m start
    have kept := exprEval_captured answered (by simp)
    obtain ⟨_,t,undefined,rfl⟩ := always_mono (Nat.succ_le_succ (Nat.le_max_right first depth)) always middle (kept.trans start)
    refine ⟨_,t,?_,rfl⟩
    rw [exprEval_succ] at answered undefined
    simp only [exprEval_succ,evalWith,andThen,answered,undefined]
  | @arg node func args before after x operands earlier _ ih =>
    obtain ⟨depth,always⟩ := ih
    obtain ⟨first,each⟩ := common_depth _ fun y member => passes_value (earlier y member)
    refine ⟨max first depth,fun m start => ?_⟩
    obtain ⟨vs,middle,run,kept⟩ := run_always
      (fun y member => always_mono (Nat.succ_le_succ (Nat.le_max_left first depth)) (each y member)) start
    obtain ⟨_,t,undefined,rfl⟩ := always_mono (Nat.succ_le_succ (Nat.le_max_right first depth)) always middle kept
    refine ⟨_,t,?_,rfl⟩
    subst start
    rw [exprEval_succ,evalWith_inOrder,operands,List.map_append,List.map_cons]
    refine (inOrder_run run).trans ?_
    rw [exprEval_succ] at undefined
    simp only [inOrder,andThen,undefined]
  | @call node func args each noResult =>
    obtain ⟨depth,each⟩ := common_depth _ fun x member => passes_value (each x member)
    refine ⟨depth,fun m start => ?_⟩
    obtain ⟨⟨out,t⟩,answered,⟨result,_⟩ | ⟨_,undefined⟩⟩ := call_always each start
    · simp [noResult] at result
    · exact ⟨out,t,answered,undefined⟩

/-! Writing the stored expression in place of the name keeps every result. -/

/-- What the first computation comes to the second comes to, unless it is undefined. -/
def Carries (x y : Eval α α) : Prop := ∀ m r, x m = some r → r.1 ≠ .undefined → y m = some r

omit [Gdouble α] in
theorem carries_side : Side True (Carries (α := α)) := by
  refine ⟨?_,?_,?_,?_⟩
  · intro v w same m r answered _
    rw [← same trivial]
    exact answered
  · exact fun _ _ _ answered _ => answered
  · exact fun _ _ answered _ => answered
  · intro x y f g first next m r answered defined
    rw [andThen] at answered
    split at answered
    · cases answered
    · rename_i v middle called
      rw [andThen,first m _ called (by simp)]
      exact next v v (Agree.refl _ v) middle r answered defined
    · rename_i error middle called
      rw [andThen,first m _ called (by simp)]
      exact answered
    · cases answered
      exact absurd rfl defined

variable {v : String} {stored : Expr α}

theorem initial_replaced {args : List (Expr α)} {init : α} (literal : initial args = some init) :
    initial (args.map (replaced v stored)) = some init := by
  rcases args with _ | ⟨first,_ | ⟨second,rest⟩⟩
  · simp [initial] at literal
  · simpa [initial] using literal
  · cases second with
    | literal val => simpa [initial,replaced] using literal
    | op | ref | func | flag => simp [initial] at literal

omit [Gdouble α] in
private theorem carries_eval {node : Nat} {arg arg' : Expr α} {args args' : List (Expr α)} {x y : Eval α α} {xs ys : List (Eval α α)}
    (first : Carries x y) (kept : ∀ val, arg = .literal val → arg' = .literal val)
    (value : ∀ val, arg' = .literal val → ∀ m, ∃ v t, y m = some (.value v,t)) :
    Carries (evalFuncExprEval node (arg :: args) (x :: xs)) (evalFuncExprEval node (arg' :: args') (y :: ys)) := by
  intro m r answered defined
  simp only [evalFuncExprEval] at answered ⊢
  cases found : m.captured node with
  | some w =>
    simp only [found] at answered ⊢
    exact answered
  | none =>
    by_cases literal : ∃ val, arg = .literal val
    · obtain ⟨val,rfl⟩ := literal
      rw [kept val rfl]
      simp only [found] at answered ⊢
      exact answered
    · -- The argument has failed, so that it has no literal in its place.
      obtain ⟨error,middle,called,rfl⟩ : ∃ error middle, x m = some (.error error,middle) ∧ r = (.error error,middle) := by
        cases arg with
        | literal val => exact absurd ⟨val,rfl⟩ literal
        | op | ref | func | flag =>
          simp only [found,andThen] at answered
          split at answered
          · cases answered
          · cases answered
            exact absurd rfl defined
          · rename_i error middle called
            cases answered
            exact ⟨error,middle,called,rfl⟩
          · cases answered
            exact absurd rfl defined
      have same := first m _ called (by simp)
      cases arg' with
      | literal val =>
        obtain ⟨v,t,has⟩ := value val rfl m
        simp [has] at same
      | op | ref | func | flag => simp only [andThen,same]

private theorem carries_changed {node : Nat} {args args' : List (Expr α)} {xs ys : List (Eval α α)}
    (count : args.length = xs.length) (count' : args'.length = ys.length) (each : List.Forall₂ Carries xs ys)
    (kept : ∀ init, initial args = some init → initial args' = some init)
    (value : ∀ first init rest, args' = first :: .literal init :: rest → ∀ y ∈ ys[1]?, ∀ m, ∃ v t, y m = some (.value v,t)) :
    Carries (changedFuncExprEval node args xs) (changedFuncExprEval node args' ys) := by
  by_cases shape : (initial args).isSome = (initial args').isSome
  · refine beside_changed carries_side count count' each shape fun init init' literal literal' v w same m r answered _ => ?_
    obtain rfl := Option.some.inj ((kept init literal).symm.trans literal')
    rw [← same trivial]
    exact answered
  · have absent : initial args = none := by
      cases literal : initial args with
      | none => rfl
      | some init => simp [literal,kept init literal] at shape
    have present : (initial args').isSome = true := by
      rw [absent] at shape
      simpa [Option.isSome_iff_ne_none] using shape
    rcases each with _ | ⟨head,rest⟩
    · obtain rfl := List.length_eq_zero_iff.mp count'
      simp [initial] at present
    · rename_i x y xs ys
      obtain ⟨second,_,rfl,body⟩ := changedFuncExprEval_none node absent count
      rcases rest with _ | ⟨next,others⟩
      rename_i second' ys
      obtain ⟨init,literal⟩ := Option.isSome_iff_exists.mp present
      rw [body,changedFuncExprEval_initial literal count']
      obtain ⟨arg,rest,rfl⟩ : ∃ arg rest, args' = arg :: .literal init :: rest := by
        rcases args' with _ | ⟨one,_ | ⟨two,rest⟩⟩
        · simp at count'
        · simp at count'
        · cases two with
          | literal val =>
            simp only [initial,Option.some.injEq] at literal
            exact ⟨one,rest,by rw [literal]⟩
          | op | ref | func | flag => simp [initial] at literal
      intro m r answered defined
      rw [andThen] at answered
      split at answered
      · cases answered
      · rename_i v middle called
        -- The literal has a value, and the name that it replaces has no other.
        rw [andThen] at answered
        split at answered
        · cases answered
        · cases answered
          exact absurd rfl defined
        · rename_i error last failed
          obtain ⟨w,t,has⟩ := value arg init rest rfl second' (by simp) middle
          have same := next middle _ failed (by simp)
          simp [has] at same
        · cases answered
          exact absurd rfl defined
      · rename_i error middle called
        cases answered
        rw [andThen,head m _ called (by simp)]
      · cases answered
        exact absurd rfl defined

/-- Every result of the expression is one of the expression with the name replaced. -/
theorem exprEval_replaced (found : vars v = some stored) (input : io.inputs v = none) (output : io.outputs v = none)
    (depth : Nat) (e : Expr α) : Carries (exprEval depth io vars e) (exprEval depth io vars (replaced v stored e)) := by
  cases depth with
  | zero =>
    intro m r answered
    simp [exprEval,approx] at answered
  | succ depth =>
  have side := carries_side (α := α)
  have literal_value : ∀ (val : α) m, ∃ w t, evalWith (exprEval depth io vars) io vars (.literal val) m = some (.value w,t) :=
    fun val m => ⟨val,m,rfl⟩
  refine @evalWith_beside α _ True Carries (fun e e' => e' = replaced v stored e) (exprEval depth io vars) (exprEval depth io vars)
    io io vars vars ?_ e _ rfl
  refine ⟨side,?_,?_,?_,?_,?_,?_⟩
  · rintro val _ rfl
    exact ⟨val,rfl,Agree.refl _ _⟩
  · rintro o l r _ rfl
    exact ⟨_,_,rfl,rfl,rfl⟩
  · rintro node func args _ _ _ rfl
    refine ⟨node,_,rfl,?_⟩
    rw [replacedArgs_eq_map,List.forall₂_map_right_iff]
    exact List.forall₂_same.mpr fun _ _ => rfl
  · rintro id _ rfl
    rw [replaced]
    by_cases same : id = v
    · subst same
      rw [if_pos rfl,refExprEval,input,output,found]
      exact fun m r answered _ => approx_mono (evalStep_monotone io vars) (Nat.le_succ depth) _ _ answered
    · rw [if_neg same,evalWith]
      exact fun m r answered _ => answered
  · rintro id bit _ rfl m r answered _
    rw [replaced,evalWith]
    exact answered
  · rintro node func args _ special rfl each
    rw [replaced,evalWith,replacedArgs_eq_map]
    have pairs : List.Forall₂ (fun e e' => e' = replaced v stored e) args (args.map (replaced v stored)) := by
      rw [List.forall₂_map_right_iff]
      exact List.forall₂_same.mpr fun _ _ => rfl
    have all := Parallel.forall₂_evalArgs pairs each
    rcases special with rfl | rfl
    · rcases args with _ | ⟨arg,args⟩
      · exact side.stuck
      · simp only [funcExprEval,List.map_cons,evalArgs]
        refine carries_eval (each arg List.mem_cons_self _ rfl) ?_ ?_
        · rintro val rfl
          rfl
        · rintro val literal
          rw [literal]
          exact literal_value val
    · refine carries_changed (by simp [evalArgs_eq_map]) (by simp [evalArgs_eq_map]) all (fun _ => initial_replaced) ?_
      intro first init rest same y member
      rw [same,evalArgs,evalArgs] at member
      simp only [List.getElem?_cons_succ,List.getElem?_cons_zero,Option.mem_def,Option.some.injEq] at member
      exact member ▸ literal_value init

/-! The test for a reference. -/

omit [Gdouble α] in
theorem liveArgs_map (f : Expr α → Expr α) (captured : Nat → Option α) (node : Nat) (func : Func) (args : List (Expr α)) :
    liveArgs captured node func (args.map f) = (liveArgs captured node func args).map f := by
  unfold liveArgs
  split
  · rw [List.map_tail]
  · rfl

omit [Gdouble α] in
/-- What an expression refers to, but for the variable, it refers to through the stored expression. -/
theorem refersTo_replaced {id : String} (found : vars v = some stored) (other : id ≠ v) (refers : RefersTo vars captured id e) :
    RefersTo vars captured id (replaced v stored e) := by
  induction refers with
  | @ref x named =>
    rw [replaced,if_neg (named ▸ other)]
    exact .ref named
  | flag named => exact .flag named
  | @var x e held inside ih =>
    rw [replaced]
    by_cases same : x = v
    · subst same
      rw [if_pos rfl]
      obtain rfl := Option.some.inj (held.symm.trans found)
      exact inside
    · rw [if_neg same]
      exact .var held inside
  | left _ ih => exact .left ih
  | right _ ih => exact .right ih
  | @arg node func args x live _ ih =>
    rw [replaced,replacedArgs_eq_map]
    refine .arg ?_ ih
    rw [liveArgs_map]
    exact List.mem_map_of_mem live

omit [Gdouble α] in
mutual
/-- And it does not refer to anything else. -/
theorem refersTo_of_replaced {id : String} (found : vars v = some stored) :
    ∀ e : Expr α, RefersTo vars captured id (replaced v stored e) → RefersTo vars captured id e
  | .literal val => fun refers => refers
  | .op o left right => fun refers => by
    rw [replaced] at refers
    cases refers with
    | left inside => exact .left (refersTo_of_replaced found left inside)
    | right inside => exact .right (refersTo_of_replaced found right inside)
  | .ref x => fun refers => by
    rw [replaced] at refers
    by_cases same : x = v
    · subst same
      rw [if_pos rfl] at refers
      exact .var found refers
    · rw [if_neg same] at refers
      exact refers
  | .func node func args => fun refers => by
    rw [replaced,replacedArgs_eq_map] at refers
    cases refers with
    | arg live inside =>
      rw [liveArgs_map] at live
      obtain ⟨x,member,rfl⟩ := List.mem_map.mp live
      exact .arg member (refersTo_of_replacedArgs found args x (liveArgs_subset member) inside)
  | .flag x bit => fun refers => refers

theorem refersTo_of_replacedArgs {id : String} (found : vars v = some stored) :
    ∀ args : List (Expr α), ∀ e ∈ args, RefersTo vars captured id (replaced v stored e) → RefersTo vars captured id e
  | [] => by simp
  | first :: rest => by
    intro e member refers
    rcases List.mem_cons.mp member with same | member
    · rw [same] at refers ⊢
      exact refersTo_of_replaced found first refers
    · exact refersTo_of_replacedArgs found rest e member refers
end

omit [Gdouble α] in
/-- On a table without cycles the test has an answer, and it is the truth. -/
theorem answer_exists (wellFounded : WellFounded fun y x => Mentions vars x y) (m : Mem α) (id : String) (e : Expr α) :
    ∃ answer, Answer vars m id e answer ∧ (answer = true ↔ RefersTo vars m.captured id e) := by
  obtain ⟨depth,ends⟩ := exprHaveRefTo_ends wellFounded e
  obtain ⟨answer,answered⟩ := Option.ne_none_iff_exists'.mp (ends depth le_rfl (m.captured,id))
  refine ⟨answer,⟨depth,answered⟩,?_⟩
  constructor
  · rintro rfl
    exact exprHaveRefTo_true answered
  · intro refers
    cases answer with
    | true => rfl
    | false => exact absurd answered (exprHaveRefTo_false refers depth)

end

/-! With `VAR level = 5`. -/

private def levels : Variables ℚ := fun id => if id = "level" then some (.literal 5) else none

private def nothing : Io ℚ := ⟨fun _ => none,fun _ => none⟩

private theorem levels_literal {id : String} {e : Expr ℚ} (held : levels id = some e) : e = .literal 5 := by
  unfold levels at held
  split at held
  · exact (Option.some.inj held).symm
  · cases held

private theorem levels_finite : Set.Finite fun id => levels id ≠ none := by
  refine (Set.finite_singleton "level").subset fun id held => ?_
  by_contra other
  exact held (if_neg other)

private theorem levels_acyclic : Acyclic (Mentions levels) := by
  refine acyclic_of_rank (fun _ => 0) fun x y mentions => ?_
  obtain ⟨e,held,inside⟩ := mentions
  rw [levels_literal held] at inside
  simp [refs] at inside

end Starter.Aliases
