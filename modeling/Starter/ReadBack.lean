import Starter.Requests

/-!
What an assignment leaves to be read. Four lookups decide which object an identifier is:
`ref_expr_eval` and `flag_expr_eval` read, `assign_apply` and `assign_apply_flag` write,
and each goes through the tables in an order of its own. An assignment that is applied
again compares the value with what the peer has made of the first one.
-/
namespace Starter.ReadBack
open Gdouble Objects Expressions Rules Peers

/-- The tables an identifier may be found in. -/
inductive Table
  | inputs
  | outputs
  | vars
deriving DecidableEq

/-- What a lookup finds. -/
inductive Found (α : Type)
  | input (obj : IoObject α)
  | output (obj : IoObject α)
  | expression (value : Expr α)

variable {α W : Type}

def Found.table : Found α → Table
  | .input _ => .inputs
  | .output _ => .outputs
  | .expression _ => .vars

/-- The lookup of `ref_expr_eval`. -/
def valueRead (io : Io α) (vars : Variables α) (id : String) : Option (Found α) :=
  ((io.inputs id).map .input).or (((io.outputs id).map .output).or ((vars id).map .expression))

/-- The lookup of `assign_apply`. -/
def valueWritten (io : Io α) (vars : Variables α) (id : String) : Option (Found α) :=
  ((io.outputs id).map .output).or ((vars id).map .expression)

/-- The lookup of `flag_expr_eval`. -/
def flagRead (io : Io α) (id : String) : Option (Found α) :=
  ((io.inputs id).map .input).or ((io.outputs id).map .output)

/-- The lookup of `assign_apply_flag`. -/
def flagWritten (io : Io α) (id : String) : Option (Found α) :=
  ((io.outputs id).map .output).or ((io.inputs id).map .input)

section
variable [Gdouble α]

/-- The value that is read there. -/
def Found.value (k : Expr α → Eval α α) : Found α → Eval α α
  | .input obj => ret obj.val
  | .output obj => ret obj.val
  | .expression e => k e

/-- The flag that is read there. -/
def Found.flag (bit : IoFlags) : Found α → Eval α α
  | .input obj => ret (ofBool (hasFlag obj.flags bit))
  | .output obj => ret (ofBool (hasFlag obj.flags bit))
  | .expression _ => stuck

omit [Gdouble α] in
theorem refExprEval_found (k : Expr α → Eval α α) (io : Io α) (vars : Variables α) (id : String) :
    refExprEval k io vars id = (valueRead io vars id).elim
      (fail ⟨.undefinedIdentifier,"ref_expr_eval: undefined identifier: " ++ id⟩) (Found.value k) := by
  unfold refExprEval valueRead
  cases io.inputs id with
  | some input => rfl
  | none =>
    cases io.outputs id with
    | some output => rfl
    | none => cases vars id <;> rfl

theorem flagExprEval_found (io : Io α) (id : String) (bit : IoFlags) :
    flagExprEval io id bit = (flagRead io id).elim
      (fail ⟨.undefinedIdentifier,"flag_expr_eval: undefined identifier for FLAG: " ++ id⟩) (Found.flag bit) := by
  unfold flagExprEval flagRead
  cases io.inputs id with
  | some input => rfl
  | none => cases io.outputs id <;> rfl

variable {env : Env α W} {ass : Assign α} {s t : EngineState α W} {changed : Changed α W}

/-- Evaluation changes only the memory of the nodes. -/
theorem evaluate_returned {e : Expr α} {r : α} (evaluated : evaluate env e s = .returned r t) :
    ∃ m, exprEval env.depth env.io s.vars e s.mem = some (.value r,m) ∧ t = { s with mem := m } := by
  unfold evaluate at evaluated
  split at evaluated
  · rename_i m answered
    cases evaluated
    exact ⟨m,answered,rfl⟩
  · cases evaluated
  · cases evaluated
  · cases evaluated

/-- How an application ends that reports `did_apply`. -/
inductive Applied (env : Env α W) (changed : Changed α W) (ass : Assign α) (s t : EngineState α W) : Prop
  | outputFlag (r : α) (s₁ : EngineState α W) (out : IoObject α) (usr : stIoFlagBitIsUsr ass.flagBit = true)
      (evaluated : evaluate env ass.rval s = .returned r s₁) (found : flagWritten env.io ass.id = some (.output out))
      (accepted : (env.bus.setOutput s₁.peers ass.id out.val (writeFlag out.flags ass.flagBit (truth r))).1 = true)
      (peers : t.peers = (env.bus.setOutput s₁.peers ass.id out.val (writeFlag out.flags ass.flagBit (truth r))).2)
  | inputFlag (r : α) (s₁ : EngineState α W) (input : IoObject α) (usr : stIoFlagBitIsUsr ass.flagBit = true)
      (evaluated : evaluate env ass.rval s = .returned r s₁) (found : flagWritten env.io ass.id = some (.input input))
      (accepted : (env.bus.setInput s₁.peers ass.id input.val (writeFlag input.flags ass.flagBit (truth r))).1 = true)
      (peers : t.peers = (env.bus.setInput s₁.peers ass.id input.val (writeFlag input.flags ass.flagBit (truth r))).2)
  | output (r : α) (s₁ : EngineState α W) (out : IoObject α) (value : ass.flagBit = 0)
      (evaluated : evaluate env ass.rval s = .returned r s₁)
      (found : valueWritten env.io s.vars ass.id = some (.output out)) (differs : eq out.val r = false)
      (free : hasFlag out.flags stIoFlagManualOverride = false)
      (accepted : (env.bus.setOutput s₁.peers ass.id r out.flags).1 = true)
      (peers : t.peers = (env.bus.setOutput s₁.peers ass.id r out.flags).2)
  | store (old : Expr α) (value : ass.flagBit = 0)
      (found : valueWritten env.io s.vars ass.id = some (.expression old))

omit [Gdouble α] in
/-- A request that is made is reported if it is accepted. -/
private theorem request_applied {call : W → String → α → IoFlags → Bool × W}
    {event : String → α → IoFlags → Bool → Event α} {error id : String} {val : α} {flags : IoFlags} {stored : Stored}
    (requested : request call event error id val flags s = .returned stored t) :
    stored = .quiet true ∧ (call s.peers id val flags).1 = true ∧ t.peers = (call s.peers id val flags).2 := by
  unfold request at requested
  split at requested
  · rename_i accepted
    cases requested
    exact ⟨rfl,accepted,rfl⟩
  · cases requested

/-- A call that goes on returns if both of its parts do. -/
private theorem returned_of_andThen {σ β γ : Type} {x : Res σ β} {f : β → σ → Res σ γ} {b : γ} {t : σ}
    (returned : x.andThen f = .returned b t) : ∃ a u, x = .returned a u ∧ f a u = .returned b t := by
  cases x with
  | returned a u => exact ⟨a,u,rfl,returned⟩
  | failed error u => cases returned
  | stopped u => cases returned

private theorem assignFlagOf_applied {call : W → String → α → IoFlags → Bool × W}
    {event : String → α → IoFlags → Bool → Event α} {error : String} {obj : IoObject α} {r : α} {stored : Stored}
    (returned : assignFlagOf call event error ass obj r s = .returned stored t) (did : stored ≠ .quiet false) :
    stored = .quiet true ∧ (call s.peers ass.id obj.val (writeFlag obj.flags ass.flagBit (truth r))).1 = true ∧
      t.peers = (call s.peers ass.id obj.val (writeFlag obj.flags ass.flagBit (truth r))).2 := by
  simp only [assignFlagOf] at returned
  split at returned
  · cases returned
    exact absurd rfl did
  · exact request_applied returned

/-- The application of a value to an output. -/
private theorem assignOutput_applied {out : IoObject α} {stored : Stored}
    (returned : assignOutput env ass out s = .returned stored t) (did : stored ≠ .quiet false) :
    ∃ r s₁, evaluate env ass.rval s = .returned r s₁ ∧ eq out.val r = false ∧
      hasFlag out.flags stIoFlagManualOverride = false ∧ stored = .quiet true ∧
      (env.bus.setOutput s₁.peers ass.id r out.flags).1 = true ∧
      t.peers = (env.bus.setOutput s₁.peers ass.id r out.flags).2 := by
  obtain ⟨r,s₁,evaluated,returned⟩ := returned_of_andThen returned
  split at returned
  · cases returned
    exact absurd rfl did
  · rename_i differs
    split at returned
    · cases returned
      exact absurd rfl did
    · rename_i free
      exact ⟨r,s₁,evaluated,by simpa using differs,by simpa using free,request_applied returned⟩

/-! Reading what was written. -/

/-- The lookup for what the assignment assigns, a flag or a value. -/
def written (io : Io α) (vars : Variables α) (ass : Assign α) : Option (Found α) :=
  if ass.flagBit ≠ 0 then flagWritten io ass.id else valueWritten io vars ass.id

/-- The lookup of a reference to it. -/
def read (io : Io α) (vars : Variables α) (ass : Assign α) : Option (Found α) :=
  if ass.flagBit ≠ 0 then flagRead io ass.id else valueRead io vars ass.id

/-- The reference itself: `id`, or `id FLAG USRn`. -/
def reference (ass : Assign α) : Expr α := if ass.flagBit ≠ 0 then .flag ass.id ass.flagBit else .ref ass.id

variable {routes : Routes}

/-- Objects and variables after the application of the assignment has left the peers so: the tables have the same names,
the mirror of the object that was written has caught up with the peer, and a variable that was written has not been
assigned again. Everything else may have become anything. -/
structure Later (routes : Routes) (ass : Assign α) (io : Io α) (peers : Network α) (io' : Io α) (vars' : Variables α) : Prop where
  inputs : (io'.inputs ass.id).isSome = (io.inputs ass.id).isSome
  outputs : (io'.outputs ass.id).isSome = (io.outputs ass.id).isSome
  output : (io.outputs ass.id).isSome = true →
    ∃ c, routes.outputs ass.id = some c ∧ io'.outputs ass.id = findNamed ass.id (peers c).server.outputs
  input : ass.flagBit ≠ 0 → io.outputs ass.id = none → (io.inputs ass.id).isSome = true →
    ∃ c, routes.inputs ass.id = some c ∧ io'.inputs ass.id = findNamed ass.id (peers c).server.inputs
  expression : ass.flagBit = 0 → io.outputs ass.id = none → vars' ass.id = some ass.rval

/-- Reading your writes: what the reference reads is what was written, in the same table. Where the assigned expression had
the value `r`, it yields the truth of `r` if a flag was written, and `r` as the peer has stored it, rounded to the step, if
an output was; where a variable was written it yields what the assigned expression does. -/
structure ReadsBack (env : Env α W) (ass : Assign α) (s : EngineState α W) (io' : Io α) (vars' : Variables α) : Prop where
  table : (read io' vars' ass).map Found.table = (written env.io s.vars ass).map Found.table
  flag : ass.flagBit ≠ 0 → ∃ r s₁, evaluate env ass.rval s = .returned r s₁ ∧ ∀ depth m,
    exprEval (depth+1) io' vars' (reference ass) m = some (.value (ofBool (truth r)),m)
  output : ass.flagBit = 0 → (env.io.outputs ass.id).isSome = true →
    ∃ r s₁ out, evaluate env ass.rval s = .returned r s₁ ∧ io'.outputs ass.id = some out ∧ ∀ depth m,
      exprEval (depth+1) io' vars' (reference ass) m = some (.value (snapToStep r out.step),m)
  expression : ass.flagBit = 0 → env.io.outputs ass.id = none → ∀ depth m,
    exprEval (depth+1) io' vars' (reference ass) m = exprEval depth io' vars' ass.rval m

/-- A value is assigned to a name that no input has; a flag to one that not both an input and an output have. -/
def Unambiguous (io : Io α) (ass : Assign α) : Prop :=
  io.inputs ass.id = none ∨ (ass.flagBit ≠ 0 ∧ io.outputs ass.id = none)

/-- An accepted request has left the object of the name with the value, rounded, and the flags. -/
private theorem setNamed_accepted {name : String} {v : α} {flags : IoFlags} {objs : List (IoObject α)}
    (accepted : (setNamed name v flags objs).res = true) :
    ∃ obj, findNamed name objs = some obj ∧ findNamed name (setNamed name v flags objs).objs =
      some { obj with val := snapToStep v obj.step, flags := flags } := by
  rcases Requests.setNamed_cases name v flags objs with ⟨_,left,_⟩ | ⟨_,obj,_,_,_,_,found,_⟩
  · rw [left] at accepted
    cases accepted
  · obtain ⟨answer,after,_⟩ := setNamed_find v flags found
    rw [answer,setValFlags_ok] at accepted
    rw [(setValFlags_accepted accepted).2] at after
    exact ⟨obj,found,after⟩

/-- The same of a request over the network. -/
private theorem setOutput_accepted {network : Network α} {id : String} {v : α} {flags : IoFlags}
    (accepted : ((networkBus routes).setOutput network id v flags).1 = true) :
    ∃ c obj, routes.outputs id = some c ∧ findNamed id (network c).server.outputs = some obj ∧
      findNamed id (((networkBus routes).setOutput network id v flags).2 c).server.outputs =
        some { obj with val := snapToStep v obj.step, flags := flags } := by
  simp only [networkBus,callPeer] at accepted ⊢
  cases route : routes.outputs id with
  | none => simp [route] at accepted
  | some c =>
    simp only [route] at accepted ⊢
    obtain ⟨obj,found,after⟩ := setNamed_accepted accepted
    exact ⟨c,obj,rfl,found,by rw [Function.update_self]; exact after⟩

private theorem setInput_accepted {network : Network α} {id : String} {v : α} {flags : IoFlags}
    (accepted : ((networkBus routes).setInput network id v flags).1 = true) :
    ∃ c obj, routes.inputs id = some c ∧ findNamed id (network c).server.inputs = some obj ∧
      findNamed id (((networkBus routes).setInput network id v flags).2 c).server.inputs =
        some { obj with val := snapToStep v obj.step, flags := flags } := by
  simp only [networkBus,callPeer] at accepted ⊢
  cases route : routes.inputs id with
  | none => simp [route] at accepted
  | some c =>
    simp only [route] at accepted ⊢
    obtain ⟨obj,found,after⟩ := setNamed_accepted accepted
    exact ⟨c,obj,rfl,found,by rw [Function.update_self]; exact after⟩

/-- Reading the bit that was written. -/
theorem hasFlag_writeFlag {bit : IoFlags} (nonzero : bit ≠ 0) (flags : IoFlags) (on : Bool) :
    hasFlag (writeFlag flags bit on) bit = on := by
  cases on with
  | true =>
    have only : (flags ||| bit) &&& bit = bit := by
      ext i
      simp only [BitVec.getElem_and,BitVec.getElem_or]
      cases flags[i] <;> cases bit[i] <;> rfl
    simpa [hasFlag,writeFlag,only] using nonzero
  | false =>
    have none : flags &&& ~~~bit &&& bit = 0 := by
      ext i
      simp only [BitVec.getElem_and,BitVec.getElem_not]
      cases flags[i] <;> cases bit[i] <;> simp
    simp [hasFlag,writeFlag,none]

/-- A reference to a value evaluates to what its lookup finds, -/
private theorem value_reference {io : Io α} {vars : Variables α} {found : Found α} (value : ass.flagBit = 0)
    (finds : valueRead io vars ass.id = some found) (depth : Nat) (m : Mem α) :
    exprEval (depth+1) io vars (reference ass) m = found.value (exprEval depth io vars) m := by
  simp only [reference,value,ne_eq,not_true_eq_false,if_false,exprEval_succ,evalWith,refExprEval_found,finds,Option.elim]

/-- and so does one to a flag. -/
private theorem flag_reference {io : Io α} {vars : Variables α} {found : Found α} (flag : ass.flagBit ≠ 0)
    (finds : flagRead io ass.id = some found) (depth : Nat) (m : Mem α) :
    exprEval (depth+1) io vars (reference ass) m = found.flag ass.flagBit m := by
  simp only [reference,flag,ne_eq,not_false_eq_true,if_true,exprEval_succ,evalWith,flagExprEval_found,finds,Option.elim]

variable {env : Env α (Network α)} {s t : EngineState α (Network α)} {changed : Changed α (Network α)} {io' : Io α}
  {vars' : Variables α}

omit [Gdouble α] in
private theorem later_inputs (later : Later routes ass env.io t.peers io' vars') (absent : env.io.inputs ass.id = none) :
    io'.inputs ass.id = none := by
  have same := later.inputs
  rw [absent,Option.isSome_none] at same
  simpa using same

omit [Gdouble α] in
private theorem flagWritten_output {io : Io α} {out : IoObject α} (found : flagWritten io ass.id = some (.output out)) :
    io.outputs ass.id = some out := by
  unfold flagWritten at found
  cases outputs : io.outputs ass.id with
  | some obj => simpa [outputs] using found
  | none => cases inputs : io.inputs ass.id <;> simp [outputs,inputs] at found

omit [Gdouble α] in
private theorem flagWritten_input {io : Io α} {input : IoObject α} (found : flagWritten io ass.id = some (.input input)) :
    io.outputs ass.id = none ∧ io.inputs ass.id = some input := by
  unfold flagWritten at found
  cases outputs : io.outputs ass.id with
  | some obj => simp [outputs] at found
  | none => cases inputs : io.inputs ass.id <;> simp_all

omit [Gdouble α] in
private theorem valueWritten_output {io : Io α} {vars : Variables α} {out : IoObject α}
    (found : valueWritten io vars ass.id = some (.output out)) : io.outputs ass.id = some out := by
  unfold valueWritten at found
  cases outputs : io.outputs ass.id with
  | some obj => simpa [outputs] using found
  | none => cases stored : vars ass.id <;> simp [outputs,stored] at found

omit [Gdouble α] in
private theorem valueWritten_expression {io : Io α} {vars : Variables α} {e : Expr α}
    (found : valueWritten io vars ass.id = some (.expression e)) : io.outputs ass.id = none := by
  unfold valueWritten at found
  cases outputs : io.outputs ass.id with
  | some obj => simp [outputs] at found
  | none => rfl

/-- An assignment of a flag, of which an object of the same table is read, with the bit. -/
private theorem reads_flag {r : α} {s₁ : EngineState α (Network α)} {there here : Found α} (flag : ass.flagBit ≠ 0)
    (evaluated : evaluate env ass.rval s = .returned r s₁) (writes : flagWritten env.io ass.id = some there)
    (finds : flagRead io' ass.id = some here) (same : here.table = there.table)
    (bit : here.flag ass.flagBit = ret (ofBool (truth r))) : ReadsBack env ass s io' vars' := by
  refine ⟨?_,fun _ => ⟨r,s₁,evaluated,fun depth m => ?_⟩,fun value => absurd value flag,fun value => absurd value flag⟩
  · simp only [read,written,flag,ne_eq,not_false_eq_true,if_true,finds,writes,Option.map_some,same]
  · rw [flag_reference flag finds,bit]
    rfl

/-- Where no other table is looked up first, the reference reads back what was written. -/
theorem reads_unambiguous (bus : env.bus = networkBus routes) (applied : Applied env changed ass s t)
    (clear : Unambiguous env.io ass) (later : Later routes ass env.io t.peers io' vars') :
    ReadsBack env ass s io' vars' := by
  cases applied with
  | outputFlag r s₁ out usr evaluated found accepted peers =>
    have nonzero := stIoFlagBitIsUsr_ne_zero usr
    have target := flagWritten_output found
    have absent : io'.inputs ass.id = none := later_inputs later (clear.resolve_right fun both => by simp [target] at both)
    rw [bus] at accepted peers
    obtain ⟨c,obj,route,_,after⟩ := setOutput_accepted accepted
    obtain ⟨c',route',mirrored⟩ := later.output (by simp [target])
    obtain rfl : c = c' := Option.some.inj (route.symm.trans route')
    rw [peers,after] at mirrored
    have finds : flagRead io' ass.id = some (.output
        { obj with val := snapToStep out.val obj.step, flags := writeFlag out.flags ass.flagBit (truth r) }) := by
      rw [flagRead,absent,mirrored]
      rfl
    exact reads_flag nonzero evaluated found finds rfl (by simp only [Found.flag,hasFlag_writeFlag nonzero])
  | inputFlag r s₁ input usr evaluated found accepted peers =>
    have nonzero := stIoFlagBitIsUsr_ne_zero usr
    obtain ⟨absent,target⟩ := flagWritten_input found
    rw [bus] at accepted peers
    obtain ⟨c,obj,route,_,after⟩ := setInput_accepted accepted
    obtain ⟨c',route',mirrored⟩ := later.input nonzero absent (by simp [target])
    obtain rfl : c = c' := Option.some.inj (route.symm.trans route')
    rw [peers,after] at mirrored
    have finds : flagRead io' ass.id = some (.input
        { obj with val := snapToStep input.val obj.step, flags := writeFlag input.flags ass.flagBit (truth r) }) := by
      rw [flagRead,mirrored]
      rfl
    exact reads_flag nonzero evaluated found finds rfl (by simp only [Found.flag,hasFlag_writeFlag nonzero])
  | output r s₁ out value evaluated found differs free accepted peers =>
    have target := valueWritten_output found
    have absent : io'.inputs ass.id = none := later_inputs later (clear.resolve_right fun both => both.1 value)
    rw [bus] at accepted peers
    obtain ⟨c,obj,route,_,after⟩ := setOutput_accepted accepted
    obtain ⟨c',route',mirrored⟩ := later.output (by simp [target])
    obtain rfl : c = c' := Option.some.inj (route.symm.trans route')
    rw [peers,after] at mirrored
    have finds : valueRead io' vars' ass.id =
        some (.output { obj with val := snapToStep r obj.step, flags := out.flags }) := by
      rw [valueRead,absent,mirrored]
      rfl
    refine ⟨?_,fun flag => absurd value flag,fun _ _ => ⟨r,s₁,_,evaluated,mirrored,fun depth m => ?_⟩,?_⟩
    · simp only [read,written,value,ne_eq,not_true_eq_false,if_false,finds,found,Option.map_some,Found.table]
    · rw [value_reference value finds]
      rfl
    · intro _ none
      simp [none] at target
  | store old value found =>
    have target := valueWritten_expression found
    have absent : io'.inputs ass.id = none := later_inputs later (clear.resolve_right fun both => both.1 value)
    have gone : io'.outputs ass.id = none := by
      have same := later.outputs
      rw [target,Option.isSome_none] at same
      simpa using same
    have finds : valueRead io' vars' ass.id = some (.expression ass.rval) := by
      rw [valueRead,absent,gone,later.expression value target]
      rfl
    refine ⟨?_,fun flag => absurd value flag,fun _ present => by simp [target] at present,fun _ _ depth m => ?_⟩
    · simp only [read,written,value,ne_eq,not_true_eq_false,if_false,finds,found,Option.map_some,Found.table]
    · rw [value_reference value finds]
      rfl

omit [Gdouble α] in
/-- An input of the name is found first. -/
private theorem read_input {input : IoObject α} (first : io'.inputs ass.id = some input) :
    (read io' vars' ass).map Found.table = some .inputs := by
  unfold read
  split
  · rw [flagRead,first]
    rfl
  · rw [valueRead,first]
    rfl

variable [DecidableEq α]

theorem assignApply_applied (applied : assignApply env changed ass s = .returned true t) : Applied env changed ass s t := by
  obtain ⟨stored,u,stores,returns⟩ := returned_of_andThen applied
  have did : stored ≠ .quiet false := by
    rintro rfl
    cases returns
  simp only [assignStore] at stores
  split at stores
  · simp only [assignApplyFlag] at stores
    split at stores
    · cases stores
      exact absurd rfl did
    · rename_i usr
      obtain ⟨r,s₁,evaluated,stores⟩ := returned_of_andThen stores
      split at stores
      · rename_i out found
        obtain ⟨rfl,accepted,peers⟩ := assignFlagOf_applied stores did
        cases returns
        exact .outputFlag r s₁ out (by simpa using usr) evaluated (by simp [flagWritten,found]) accepted peers
      · rename_i absent
        split at stores
        · rename_i input found
          obtain ⟨rfl,accepted,peers⟩ := assignFlagOf_applied stores did
          cases returns
          exact .inputFlag r s₁ input (by simpa using usr) evaluated (by simp [flagWritten,found,absent]) accepted peers
        · cases stores
  · rename_i value
    rw [ne_eq,not_not] at value
    split at stores
    · rename_i out found
      obtain ⟨r,s₁,evaluated,differs,free,rfl,accepted,peers⟩ := assignOutput_applied stores did
      cases returns
      exact .output r s₁ out value evaluated (by simp [valueWritten,found]) differs free accepted peers
    · rename_i absent
      split at stores
      · rename_i old found
        exact .store old value (by simp [valueWritten,found,absent])
      · cases stores

/-- For every assignment that is applied with `did_apply` TRUE: whatever else becomes of the objects and variables, as soon
as the mirror has caught up the reference reads back what was written, exactly if the name is unambiguous. -/
theorem readsBack_iff (bus : env.bus = networkBus routes) (applied : assignApply env changed ass s = .returned true t) :
    (∀ io' vars', Later routes ass env.io t.peers io' vars' → ReadsBack env ass s io' vars') ↔ Unambiguous env.io ass := by
  have applied := assignApply_applied applied
  refine ⟨fun reads => ?_,fun clear io' vars' later => reads_unambiguous bus applied clear later⟩
  by_contra ambiguous
  obtain ⟨input,first⟩ : ∃ input, env.io.inputs ass.id = some input :=
    Option.ne_none_iff_exists'.mp fun none => ambiguous (.inl none)
  -- The world in which only the mirror of the output, or the variable, has moved.
  have wrong : ∀ there io' vars', written env.io s.vars ass = some there → there.table ≠ .inputs →
      io'.inputs = env.io.inputs → ¬ Later routes ass env.io t.peers io' vars' := by
    intro there io' vars' writes other same later
    have table := (reads io' vars' later).table
    rw [read_input (same ▸ first),writes] at table
    exact other (Option.some.inj table).symm
  cases applied with
  | outputFlag r s₁ out usr evaluated found accepted peers =>
    have nonzero := stIoFlagBitIsUsr_ne_zero usr
    have target := flagWritten_output found
    rw [bus] at accepted peers
    obtain ⟨c,obj,route,_,after⟩ := setOutput_accepted accepted
    refine wrong _ ⟨env.io.inputs,Function.update env.io.outputs ass.id (findNamed ass.id (t.peers c).server.outputs)⟩ s.vars
      (by rw [written,if_pos nonzero,found]) (by simp [Found.table]) rfl ?_
    refine ⟨rfl,?_,fun _ => ⟨c,route,by simp⟩,fun _ none => by simp [target] at none,fun value => absurd value nonzero⟩
    simp [peers,after,target]
  | inputFlag r s₁ input usr evaluated found accepted peers =>
    exact ambiguous (.inr ⟨stIoFlagBitIsUsr_ne_zero usr,(flagWritten_input found).1⟩)
  | output r s₁ out value evaluated found differs free accepted peers =>
    have target := valueWritten_output found
    rw [bus] at accepted peers
    obtain ⟨c,obj,route,_,after⟩ := setOutput_accepted accepted
    refine wrong _ ⟨env.io.inputs,Function.update env.io.outputs ass.id (findNamed ass.id (t.peers c).server.outputs)⟩ s.vars
      (by rw [written,if_neg (not_not.mpr value),found]) (by simp [Found.table]) rfl ?_
    refine ⟨rfl,?_,fun _ => ⟨c,route,by simp⟩,fun flag => absurd value flag,fun _ none => by simp [target] at none⟩
    simp [peers,after,target]
  | store old value found =>
    have target := valueWritten_expression found
    refine wrong _ env.io (Function.update s.vars ass.id (some ass.rval)) (by rw [written,if_neg (not_not.mpr value),found])
      (by simp [Found.table]) rfl ?_
    exact ⟨rfl,rfl,fun present => by simp [target] at present,fun flag => absurd value flag,fun _ _ => by simp⟩

/-! Applying an assignment of a value to an output again. -/

omit [DecidableEq α] in
/-- The application sends the value, to an output whose mirror is `m`. -/
def Sends (m : IoObject α) (r : α) : Prop := eq m.val r = false ∧ hasFlag m.flags stIoFlagManualOverride = false

/-- The application reports `did_apply` FALSE and adds one line to the log, that of no call `SetOutput`. -/
def Quiet (env : Env α W) (changed : Changed α W) (ass : Assign α) (s : EngineState α W) : Prop :=
  ∃ t event, assignApply env changed ass s = .returned false t ∧ t.peers = s.peers ∧ t.log = s.log ++ [event] ∧
    ∀ id v flags ok, event ≠ .setOutput id v flags ok

/-- The application that ends in `t`, and what the hooks of a rule that makes it report, is one that changed the output. -/
structure Effective (env : Env α W) (changed : Changed α W) (ass : Assign α) (s t : EngineState α W) (did : Bool)
    (moved : Prop) : Prop where
  didApply : did = true → moved
  rule : ∀ block cond s₀, labelBlockSelect env block s₀ = .returned (some ⟨cond,ass⟩) s →
    labelBlockApply env changed ⟨block⟩ s₀ = .returned () (t.note (.ruleTriggered ass.id)) → moved
  trigger : triggerAssigns env changed [ass] none s = .returned none (t.note (.triggerTriggered ass.id)) → moved

/-- The condition: a value that is sent is stored as a number that equals the value of the expression at the second
application, and differs from the number that was stored before; where none is sent, because it is that of the mirror or by
manual override, none is to be sent then either. -/
def Settles (m : IoObject α) (r again : α) : Prop :=
  (Sends m r → eq (snapToStep r m.step) again = true ∧ snapToStep r m.step ≠ m.val) ∧
    (¬ Sends m r → ¬ Sends m again)

omit [DecidableEq α] in
/-- Where the expression has the same value again, that is: the value is not sent, or it is on the grid of the output. -/
theorem settles_same (m : IoObject α) (r : α) : Settles m r r ↔ ¬ Sends m r ∨ eq (snapToStep r m.step) r = true := by
  constructor
  · intro settles
    by_cases sends : Sends m r
    · exact .inr (settles.1 sends).1
    · exact .inl sends
  · intro either
    refine ⟨fun sends => ?_,id⟩
    have grid := either.resolve_left (not_not.mpr sends)
    refine ⟨grid,fun same => ?_⟩
    rw [same,sends.1] at grid
    cases grid

section
variable {env : Env α W} {changed : Changed α W} {s s₁ t : EngineState α W} {m : IoObject α} {r : α} {did : Bool}

/-- A value that equals that of the mirror, or one under manual override, is not sent. -/
theorem assignApply_quiet (value : ass.flagBit = 0) (mirrored : env.io.outputs ass.id = some m)
    (evaluated : evaluate env ass.rval s = .returned r s₁) (quiet : ¬ Sends m r) :
    ∃ event, assignApply env changed ass s = .returned false (s₁.note event) ∧
      ∀ id v flags ok, event ≠ .setOutput id v flags ok := by
  simp only [assignApply,assignStore,value,ne_eq,not_true_eq_false,if_false,mirrored,assignOutput,evaluated,Res.andThen]
  cases differs : eq m.val r with
  | true => exact ⟨.unchanged ass.id,rfl,by simp⟩
  | false =>
    cases free : hasFlag m.flags stIoFlagManualOverride with
    | true => exact ⟨.overridden ass.id,rfl,by simp⟩
    | false => exact absurd ⟨differs,free⟩ quiet

/-- Any other value is. -/
theorem assignApply_sends (value : ass.flagBit = 0) (mirrored : env.io.outputs ass.id = some m)
    (evaluated : evaluate env ass.rval s = .returned r s₁) (sends : Sends m r) :
    assignApply env changed ass s =
      if (env.bus.setOutput s₁.peers ass.id r m.flags).1 then
        .returned true (s₁.send env.bus.setOutput .setOutput ass.id r m.flags)
      else .failed ⟨.invalidValue,"error in st_client_set_output with output: " ++ ass.id⟩
        (s₁.send env.bus.setOutput .setOutput ass.id r m.flags) := by
  obtain ⟨differs,free⟩ := sends
  simp only [assignApply,assignStore,value,ne_eq,not_true_eq_false,if_false,mirrored,assignOutput,evaluated,Res.andThen,
    differs,free,Bool.false_eq_true,request]
  cases (env.bus.setOutput s₁.peers ass.id r m.flags).1 <;> rfl

/-- The application is quiet exactly if it does not send the value. -/
theorem quiet_iff (value : ass.flagBit = 0) (mirrored : env.io.outputs ass.id = some m)
    (evaluated : evaluate env ass.rval s = .returned r s₁) : Quiet env changed ass s ↔ ¬ Sends m r := by
  obtain ⟨_,_,rfl⟩ := evaluate_returned evaluated
  constructor
  · rintro ⟨t,event,returned,_⟩ sends
    rw [assignApply_sends value mirrored evaluated sends] at returned
    split at returned <;> cases returned
  · intro quiet
    obtain ⟨event,returned,other⟩ : ∃ event, assignApply env changed ass s = .returned false _ ∧ _ :=
      assignApply_quiet value mirrored evaluated quiet
    exact ⟨_,event,returned,rfl,rfl,other⟩

/-- The hooks are raised where the application reports `did_apply`, and nowhere else. -/
theorem effective_iff (returned : assignApply env changed ass s = .returned did t) (moved : Prop) :
    Effective env changed ass s t did moved ↔ (did = true → moved) := by
  refine ⟨fun effective => effective.didApply,fun only => ⟨only,?_,?_⟩⟩
  · intro block cond s₀ selected applied
    simp only [labelBlockApply,selected,Res.andThen,returned,Res.returned.injEq,true_and] at applied
    cases did with
    | true => exact only rfl
    | false => exact absurd (congrArg (fun s => s.log.length) applied) (by simp)
  · intro applied
    simp only [triggerAssigns,returned,Res.returned.injEq,true_and] at applied
    cases did with
    | true => exact only rfl
    | false => exact absurd (congrArg (fun s => s.log.length) applied) (by simp)

end

variable {m : IoObject α} {c : Nat} {r again : α} {s₁ u u₁ : EngineState α (Network α)} {did : Bool}

end

/-! A lamp of one peer, and perhaps an input of the same name of another one. -/

private def lamp : IoObject ℚ := ⟨"lamp","",0,0,10,1,0,0⟩

private def lampRoutes : Routes := ⟨fun _ => none,fun id => if id = "lamp" then some 0 else none⟩

private def lampEnv (sensor : Option (IoObject ℚ)) : Env ℚ (Network ℚ) :=
  ⟨⟨fun id => if id = "lamp" then sensor else none,fun id => if id = "lamp" then some lamp else none⟩,networkBus lampRoutes,1⟩

private def lampState : EngineState ℚ (Network ℚ) := ⟨fun _ => none,freshMem,fun _ => ⟨⟨[],[lamp]⟩,[]⟩,[]⟩

private def lit (v : ℚ) : Assign ℚ := ⟨"lamp",.literal v,0⟩

private def lampAfter (v : ℚ) : EngineState ℚ (Network ℚ) :=
  lampState.send (networkBus lampRoutes).setOutput .setOutput "lamp" v 0

private def never : Changed ℚ (Network ℚ) := fun _ s => .stopped s

private theorem lamp_applied (sensor : Option (IoObject ℚ)) {v : ℚ} (differs : eq lamp.val v = false)
    (accepted : ((networkBus lampRoutes).setOutput lampState.peers "lamp" v lamp.flags).1 = true) :
    assignApply (lampEnv sensor) never (lit v) lampState = .returned true (lampAfter v) := by
  have output : (lampEnv sensor).io.outputs (lit v).id = some lamp := rfl
  have evaluated : evaluate (lampEnv sensor) (lit v).rval lampState = .returned v lampState := rfl
  rw [assignApply_sends rfl output evaluated ⟨differs,by decide⟩]
  exact if_pos accepted

private theorem lamp_one (sensor : Option (IoObject ℚ)) :
    assignApply (lampEnv sensor) never (lit 1) lampState = .returned true (lampAfter 1) :=
  lamp_applied sensor (by decide +kernel) (by decide +kernel)

private theorem lamp_taken : findNamed "lamp" ((lampAfter 1).peers 0).server.outputs = some { lamp with val := 1 } := by
  decide +kernel

theorem readsBack_iff_lamp :
    (∀ io' vars', Later lampRoutes (lit 1) (lampEnv none).io (lampAfter 1).peers io' vars' →
      ReadsBack (lampEnv none) (lit 1) lampState io' vars') ↔ Unambiguous (lampEnv none).io (lit 1) :=
  readsBack_iff rfl (lamp_one none)

/-- The mirror of the lamp has caught up, and `lamp` still reads as 0: as the input of another peer that has its name. -/
theorem input_hides_output :
    assignApply (lampEnv (some lamp)) never (lit 1) lampState = .returned true (lampAfter 1) ∧
      ∃ io', Later lampRoutes (lit 1) (lampEnv (some lamp)).io (lampAfter 1).peers io' (lampAfter 1).vars ∧
        io'.outputs "lamp" = some { lamp with val := 1 } ∧
        (exprEval 1 io' (lampAfter 1).vars (.ref "lamp") freshMem).map Prod.fst = some (.value 0) ∧
        ¬ ReadsBack (lampEnv (some lamp)) (lit 1) lampState io' (lampAfter 1).vars := by
  refine ⟨lamp_one _,⟨(lampEnv (some lamp)).io.inputs,fun _ => some { lamp with val := 1 }⟩,?_,rfl,rfl,fun reads => ?_⟩
  · exact ⟨rfl,rfl,fun _ => ⟨0,rfl,lamp_taken.symm⟩,fun flag => absurd rfl flag,fun _ none => by cases none⟩
  · exact absurd reads.table (by decide)

private def lampMirror (val : ℚ) : Io ℚ := ⟨fun _ => none,fun id => if id = "lamp" then some { lamp with val := val } else none⟩

end Starter.ReadBack
