import Starter.Rules

/-!
The server of a peer (`lib/server.c`): the objects it owns, its handlers of `SetOutput`
and `SetInput`, and the messages that announce their changes to a connection. A network
of peers is what the calls of the engine go to.
-/
namespace Starter.Peers
open Gdouble Objects Rules

variable {α : Type}

/-- The objects of `STServerPrivate`. -/
structure Server (α : Type) where
  inputs : List (IoObject α)
  outputs : List (IoObject α)
deriving DecidableEq

/-- What `emit_input_changed` and `emit_output_changed` send. -/
inductive Message (α : Type)
  | inputChanged (obj : IoObject α)
  | outputChanged (obj : IoObject α)
deriving DecidableEq

/-- The objects that the handlers of "changed" see: what `input_changed_callback` and
    `output_changed_callback` announce. -/
def Update.announced (u : Update α) : List (IoObject α) :=
  u.emitted.filterMap fun e => if e.1 = .changed then some e.2 else none

/-- The first object of the name, as the loops over `priv->outputs` and `priv->inputs`
    find it. -/
def findNamed (name : String) (objs : List (IoObject α)) : Option (IoObject α) :=
  objs.find? fun obj => obj.name == name

section
variable [Gdouble α]

/-- `st_output_set_val (out, value, &error) && st_output_set_flags (out, flags, &error)`,
    and the same of an input. -/
def setValFlags (self : IoObject α) (value : α) (flags : IoFlags) : Update α :=
  let first := ioSetVal self value
  if first.ok then
    let second := ioSetFlags first.obj flags
    ⟨second.obj,first.emitted ++ second.emitted,second.error⟩
  else first

/-- What a handler of a method leaves: its answer, the objects, and what it announced. -/
structure Handled (α : Type) where
  res : Bool
  objs : List (IoObject α)
  announced : List (IoObject α)

/-- The loop that `handle_method_call` runs for `SetOutput` and for `SetInput`. -/
def setNamed (name : String) (value : α) (flags : IoFlags) : List (IoObject α) → Handled α
  | [] => ⟨false,[],[]⟩
  | obj :: rest =>
    if obj.name = name then
      let update := setValFlags obj value flags
      ⟨update.ok,update.obj :: rest,Update.announced update⟩
    else
      let handled := setNamed name value flags rest
      ⟨handled.res,obj :: handled.objs,handled.announced⟩

/-- A peer with the messages it has sent to the Core. -/
structure Peer (α : Type) where
  server : Server α
  sent : List (Message α)

/-- The branch `SetOutput` of `handle_method_call`. -/
def handleSetOutput (self : Peer α) (name : String) (value : α) (flags : IoFlags) : Bool × Peer α :=
  let handled := setNamed name value flags self.server.outputs
  (handled.res,⟨{ self.server with outputs := handled.objs },self.sent ++ handled.announced.map .outputChanged⟩)

/-- The branch `SetInput`. -/
def handleSetInput (self : Peer α) (name : String) (value : α) (flags : IoFlags) : Bool × Peer α :=
  let handled := setNamed name value flags self.server.inputs
  (handled.res,⟨{ self.server with inputs := handled.objs },self.sent ++ handled.announced.map .inputChanged⟩)

/-- The peers, by the client that is connected to them. -/
abbrev Network (α : Type) := Nat → Peer α

/-- The clients that `all_inputs` and `all_outputs` name for an identifier. -/
structure Routes where
  inputs : String → Option Nat
  outputs : String → Option Nat

/-- A call over the connection of the client that is named for the identifier. -/
def callPeer (route : Option Nat) (handler : Peer α → Bool × Peer α) (network : Network α) : Bool × Network α :=
  match route with
  | none => (false,network)
  | some client =>
    let answer := handler (network client)
    (answer.1,Function.update network client answer.2)

/-- `st_client_set_output` and `st_client_set_input` on these clients. -/
def networkBus (routes : Routes) : Bus α (Network α) where
  setOutput network id value flags := callPeer (routes.outputs id) (handleSetOutput · id value flags) network
  setInput network id value flags := callPeer (routes.inputs id) (handleSetInput · id value flags) network

variable {self : IoObject α} {value : α} {flags : IoFlags} {name : String} {objs : List (IoObject α)}

theorem setValFlags_accepted (accepted : Accepts self value = true) :
    (setValFlags self value flags).ok = true ∧
      (setValFlags self value flags).obj = { self with val := snapToStep value self.step, flags := flags } := by
  have ok : (ioSetVal self value).ok = true := (ioSetVal_ok self value).trans accepted
  unfold setValFlags
  simp only [ok,if_true]
  rw [ioSetVal_accepted accepted]
  exact ⟨rfl,rfl⟩

theorem setValFlags_rejected (rejected : Accepts self value = false) :
    (setValFlags self value flags).ok = false ∧ (setValFlags self value flags).obj = self := by
  have failed : (ioSetVal self value).ok = false := (ioSetVal_ok self value).trans rejected
  unfold setValFlags
  simp only [failed]
  rw [ioSetVal_rejected rejected]
  exact ⟨rfl,rfl⟩

theorem setValFlags_ok (self : IoObject α) (value : α) (flags : IoFlags) :
    (setValFlags self value flags).ok = Accepts self value := by
  cases accepted : Accepts self value with
  | true => exact (setValFlags_accepted accepted).1
  | false => exact (setValFlags_rejected accepted).1

/-- No request gives an object another step. -/
theorem setValFlags_step (self : IoObject α) (value : α) (flags : IoFlags) :
    (setValFlags self value flags).obj.step = self.step := by
  cases accepted : Accepts self value with
  | true => rw [(setValFlags_accepted accepted).2]
  | false => rw [(setValFlags_rejected accepted).2]

/-- No request renames an object. -/
theorem setValFlags_name (self : IoObject α) (value : α) (flags : IoFlags) :
    (setValFlags self value flags).obj.name = self.name := by
  cases accepted : Accepts self value with
  | true => rw [(setValFlags_accepted accepted).2]
  | false => rw [(setValFlags_rejected accepted).2]

/-- A request is for the first object of its name. -/
theorem setNamed_find (value : α) (flags : IoFlags) (found : findNamed name objs = some self) :
    (setNamed name value flags objs).res = (setValFlags self value flags).ok ∧
      findNamed name (setNamed name value flags objs).objs = some (setValFlags self value flags).obj ∧
      (setNamed name value flags objs).announced = Update.announced (setValFlags self value flags) := by
  induction objs with
  | nil => simp [findNamed] at found
  | cons obj rest ih =>
    by_cases same : obj.name = name
    · simp only [findNamed,List.find?_cons,same,beq_self_eq_true,Option.some.injEq] at found
      subst found
      have named := (setValFlags_name obj value flags).trans same
      simp [setNamed,same,findNamed,named]
    · have apart : (obj.name == name) = false := beq_eq_false_iff_ne.mpr same
      simp only [findNamed,List.find?_cons,apart] at found
      have after := ih found
      simp only [setNamed,same,if_false]
      refine ⟨after.1,?_,after.2.2⟩
      simp only [findNamed,List.find?_cons,apart]
      exact after.2.1

/-- Objects of other names keep what they hold. -/
theorem setNamed_others {other : String} (apart : other ≠ name) :
    findNamed other (setNamed name value flags objs).objs = findNamed other objs := by
  induction objs with
  | nil => rfl
  | cons obj rest ih =>
    simp only [findNamed] at ih
    by_cases same : obj.name = name
    · subst same
      have before : (obj.name == other) = false := beq_eq_false_iff_ne.mpr apart.symm
      have after : ((setValFlags obj value flags).obj.name == other) = false :=
        (setValFlags_name obj value flags).symm ▸ before
      simp only [setNamed,if_true,findNamed,List.find?_cons,before,after]
    · simp only [setNamed,same,if_false,findNamed,List.find?_cons,ih]

variable {routes : Routes} {network : Network α} {client : Nat}

/-- A call `SetOutput` reaches the output of its name. -/
theorem networkBus_setOutput (value : α) (flags : IoFlags) (route : routes.outputs name = some client)
    (found : findNamed name (network client).server.outputs = some self) :
    ((networkBus routes).setOutput network name value flags).1 = Accepts self value ∧
      findNamed name (((networkBus routes).setOutput network name value flags).2 client).server.outputs =
        some (setValFlags self value flags).obj := by
  obtain ⟨answer,after,_⟩ := setNamed_find value flags found
  simp only [networkBus,callPeer,route,handleSetOutput,Function.update_self]
  exact ⟨answer.trans (setValFlags_ok self value flags),after⟩

/-- It leaves the outputs of other names. -/
theorem networkBus_setOutput_others {other : String} (apart : other ≠ name) :
    findNamed other (((networkBus routes).setOutput network name value flags).2 client).server.outputs =
      findNamed other (network client).server.outputs := by
  simp only [networkBus,callPeer]
  cases routes.outputs name with
  | none => rfl
  | some target =>
    by_cases same : client = target
    · subst same
      simpa [handleSetOutput] using setNamed_others apart
    · simp [Function.update_of_ne same]

/-- A call `SetInput` reaches the input of its name. -/
theorem networkBus_setInput (value : α) (flags : IoFlags) (route : routes.inputs name = some client)
    (found : findNamed name (network client).server.inputs = some self) :
    findNamed name (((networkBus routes).setInput network name value flags).2 client).server.inputs =
      some (setValFlags self value flags).obj := by
  simp only [networkBus,callPeer,route,handleSetInput,Function.update_self]
  exact (setNamed_find value flags found).2.1

/-- A call `SetInput` leaves every output. -/
theorem networkBus_setInput_outputs :
    (((networkBus routes).setInput network name value flags).2 client).server.outputs =
      (network client).server.outputs := by
  simp only [networkBus,callPeer]
  cases routes.inputs name with
  | none => rfl
  | some target =>
    by_cases same : client = target
    · subst same
      simp [handleSetInput]
    · simp [Function.update_of_ne same]

end

end Starter.Peers
