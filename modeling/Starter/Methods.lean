import Starter.Lib.Runs
import Starter.Peers

/-!
The replies of `handle_method_call` (`lib/server.c`). Each branch answers the invocation
itself; the tail of the function sends an error for the same invocation whenever one is
set, also by a setter that a branch has called.
-/
namespace Starter.Methods
open Objects Peers Lib.Runs

/-- `STVersion`. -/
structure StVersion where
  major : BitVec 8
  minor : BitVec 8
  micro : BitVec 8
deriving DecidableEq

/-- `STStatsEntry`. -/
structure StatsEntry (α : Type) where
  min : α
  max : α
  last : α
deriving DecidableEq

/-- What `st_stats_get_full` yields. -/
structure Stats (α : Type) where
  name : String
  vmsize : StatsEntry α
  vmrss : StatsEntry α
  vmswap : StatsEntry α
  ioRead : StatsEntry α
  ioWrite : StatsEntry α
  priority : StatsEntry α
  threads : StatsEntry α
  icswitch : StatsEntry α
  cpu : StatsEntry α
deriving DecidableEq

/-- The fields of `STServerPrivate` that the handler reads, with the objects and the
    connection of its peer. -/
structure Service (α : Type) where
  name : String
  version : StVersion
  peer : Peer α
  stats : Stats α

/-- A call of a method. Only `SetOutput` and `SetInput` have parameters; the other methods
    read none. -/
structure Call (α : Type) where
  method : String
  id : String
  value : α
  flags : IoFlags

/-- The values that the handler returns. -/
inductive Value (α : Type)
  | name (s : String)
  | version (v : StVersion)
  | objects (objs : List (IoObject α))
  | result (res : Bool)
  | stats (s : Stats α)
deriving DecidableEq

/-- The type of the `GVariant`. -/
def Value.type {α : Type} : Value α → String
  | .name _ => "(s)"
  | .version _ => "(iii)"
  | .objects _ => "(a{s(siddddt)})"
  | .result _ => "(i)"
  | .stats _ => "((sddddddddddddddddddddddddddd))"

/-- The type that `introspection_xml` declares for the reply of a method. -/
def declaredType : String → Option String
  | "GetName" => some "(s)"
  | "GetVersion" => some "((iii))"
  | "GetInputs" => some "(a{s(siddddt)})"
  | "GetOutputs" => some "(a{s(siddddt)})"
  | "SetOutput" => some "(i)"
  | "SetInput" => some "(i)"
  | "GetStats" => some "((sddddddddddddddddddddddddddd))"
  | _ => none

/-- The errors that the tail may find: one of a setter, or `G_IO_ERROR_NOT_FOUND` under
    the domain `G_DBUS_ERROR`. -/
inductive MethodError
  | setter (error : StError)
  | notFound (message : String)
deriving DecidableEq

/-- A call of `g_dbus_method_invocation_return_value` or
    `g_dbus_method_invocation_return_gerror`; each of them consumes the invocation. -/
inductive Reply (α : Type)
  | value (v : Value α)
  | error (e : MethodError)
deriving DecidableEq

/-- A reply goes out when it is an error, or when GLib, by `sends`, accepts a value of its
    type for a method that declares the other. -/
def Reply.sent {α : Type} (sends : String → String → Bool) (method : String) : Reply α → Bool
  | .value v => (declaredType method).any fun declared => sends declared v.type
  | .error _ => true

section
variable {α : Type} [Gdouble α]

/-- The variable `error` after the loop that `setNamed` is the model of. -/
def setNamedError (name : String) (value : α) (flags : IoFlags) (objs : List (IoObject α)) : Option StError :=
  (findNamed name objs).bind fun obj => (setValFlags obj value flags).error

/-- What a branch of the function leaves for its tail. -/
structure Branch (α : Type) where
  replies : List (Reply α)
  error : Option MethodError
  service : Service α

/-- The branches of `handle_method_call`. -/
def methodBranch (self : Service α) (call : Call α) : Branch α :=
  if call.method = "GetName" then ⟨[.value (.name self.name)],none,self⟩
  else if call.method = "GetVersion" then ⟨[.value (.version self.version)],none,self⟩
  else if call.method = "GetInputs" then ⟨[.value (.objects self.peer.server.inputs)],none,self⟩
  else if call.method = "GetOutputs" then ⟨[.value (.objects self.peer.server.outputs)],none,self⟩
  else if call.method = "SetOutput" then
    let handled := handleSetOutput self.peer call.id call.value call.flags
    ⟨[.value (.result handled.1)],
      (setNamedError call.id call.value call.flags self.peer.server.outputs).map .setter,
      { self with peer := handled.2 }⟩
  else if call.method = "SetInput" then
    let handled := handleSetInput self.peer call.id call.value call.flags
    ⟨[.value (.result handled.1)],
      (setNamedError call.id call.value call.flags self.peer.server.inputs).map .setter,
      { self with peer := handled.2 }⟩
  else if call.method = "GetStats" then ⟨[.value (.stats self.stats)],none,self⟩
  else ⟨[],some (.notFound ("unknown method: " ++ call.method)),self⟩

/-- `handle_method_call`: the branch, then its tail. -/
def handleMethodCall (self : Service α) (call : Call α) : List (Reply α) × Service α :=
  let branch := methodBranch self call
  match branch.error with
  | some error => (branch.replies ++ [.error error],branch.service)
  | none => (branch.replies,branch.service)

/-- A service with the replies that it gave to each of the invocations so far, by the
    method they were of. -/
structure Serving (α : Type) where
  service : Service α
  answered : List (String × List (Reply α))

/-- A call arrives, or the program that owns the service does something with it. -/
inductive Event (α : Type)
  | call (c : Call α)
  | acts (service : Service α)

def step (s : Serving α) : Event α → Option (Serving α)
  | .call c =>
    let handled := handleMethodCall s.service c
    some ⟨handled.2,s.answered ++ [(c.method,handled.1)]⟩
  | .acts service => some { s with service := service }

/-- Each invocation was consumed once, by a reply that was sent. -/
def ExactlyOnce (sends : String → String → Bool) (s : Serving α) : Prop :=
  ∀ answer ∈ s.answered, ∃ reply, answer.2 = [reply] ∧ reply.sent sends answer.1 = true

/-- The objects of the name, if there are any, accept the value: the handler tries the
    first one only. -/
def NamedAccepts (name : String) (value : α) (objs : List (IoObject α)) : Prop :=
  ∀ obj, findNamed name objs = some obj → Accepts obj value = true

instance (name : String) (value : α) (objs : List (IoObject α)) : Decidable (NamedAccepts name value objs) :=
  match found : findNamed name objs with
  | none => .isTrue (by simp [NamedAccepts,found])
  | some obj => decidable_of_iff (Accepts obj value = true) (by simp [NamedAccepts,found])

/-- A call of `SetOutput` or `SetInput` is not refused by an object of its name, and a call
    of `GetVersion` is made only where GLib lets the three numbers pass for the tuple that
    the method declares. -/
def Settles (sends : String → String → Bool) (s : Serving α) : Event α → Prop
  | .call c =>
    (c.method = "SetOutput" → NamedAccepts c.id c.value s.service.peer.server.outputs) ∧
      (c.method = "SetInput" → NamedAccepts c.id c.value s.service.peer.server.inputs) ∧
      (c.method = "GetVersion" → sends "((iii))" "(iii)" = true)
  | .acts _ => True

instance (sends : String → String → Bool) (s : Serving α) (e : Event α) : Decidable (Settles sends s e) := by
  cases e <;> unfold Settles <;> infer_instance

variable {name : String} {value : α} {flags : IoFlags} {objs : List (IoObject α)}

/-- The setters leave an error exactly where the object of the name refuses the value. -/
theorem setNamedError_none : setNamedError name value flags objs = none ↔ NamedAccepts name value objs := by
  unfold setNamedError NamedAccepts
  cases found : findNamed name objs with
  | none => simp
  | some obj =>
    simp only [Option.bind_some,Option.some.injEq,forall_eq']
    rw [← setValFlags_ok obj value flags]
    exact Option.isNone_iff_eq_none.symm

theorem handleMethodCall_replies (self : Service α) (call : Call α) :
    (handleMethodCall self call).1 =
      (methodBranch self call).replies ++ ((methodBranch self call).error.map Reply.error).toList := by
  simp only [handleMethodCall]
  split
  · rename_i failed
    simp [failed]
  · rename_i fine
    simp [fine]

omit [Gdouble α] in
/-- A branch that has answered is the whole answer where it leaves no error to the tail. -/
theorem answered_once_iff {sends : String → String → Bool} {method declared : String} {v : Value α}
    {error : Option MethodError} (declares : declaredType method = some declared) :
    (∃ reply, [Reply.value v] ++ (error.map Reply.error).toList = [reply] ∧ reply.sent sends method = true) ↔
      error = none ∧ sends declared v.type = true := by
  cases error with
  | none => simp [Reply.sent,declares]
  | some error => simp

/-- A call is answered once exactly where it settles. -/
theorem handleMethodCall_once_iff {sends : String → String → Bool} (typed : ∀ type, sends type type = true)
    (s : Serving α) (call : Call α) :
    (∃ reply, (handleMethodCall s.service call).1 = [reply] ∧ reply.sent sends call.method = true) ↔
      Settles sends s (.call call) := by
  obtain ⟨method,id,value,flags⟩ := call
  simp only [handleMethodCall_replies,methodBranch,Settles]
  split_ifs with getName getVersion getInputs getOutputs setOutput setInput getStats
  · subst getName
    rw [answered_once_iff rfl]
    simp [Value.type,typed]
  · subst getVersion
    rw [answered_once_iff rfl]
    simp [Value.type]
  · subst getInputs
    rw [answered_once_iff rfl]
    simp [Value.type,typed]
  · subst getOutputs
    rw [answered_once_iff rfl]
    simp [Value.type,typed]
  · subst setOutput
    rw [answered_once_iff rfl]
    simp [Value.type,typed,setNamedError_none]
  · subst setInput
    rw [answered_once_iff rfl]
    simp [Value.type,typed,setNamedError_none]
  · subst getStats
    rw [answered_once_iff rfl]
    simp [Value.type,typed]
  · simp [Reply.sent,getVersion,setOutput,setInput]

theorem step_exactlyOnce_iff {sends : String → String → Bool} (typed : ∀ type, sends type type = true)
    {s next : Serving α} {e : Event α} (once : ExactlyOnce sends s) (stepped : step s e = some next) :
    ExactlyOnce sends next ↔ Settles sends s e := by
  cases e with
  | acts service =>
    cases stepped
    exact iff_of_true once trivial
  | call c =>
    cases stepped
    rw [← handleMethodCall_once_iff typed]
    constructor
    · intro after
      exact after _ (List.mem_append_right _ (List.mem_singleton_self _))
    · intro answered answer member
      rcases List.mem_append.mp member with before | this
      · exact once answer before
      · cases List.mem_singleton.mp this
        exact answered

/-- In every sequence of calls each invocation is answered exactly once, exactly where each
    call settles. -/
theorem always_exactlyOnce_iff (sends : String → String → Bool) (typed : ∀ type, sends type type = true)
    (service : Service α) (events : List (Event α)) :
    Always step (ExactlyOnce sends) ⟨service,[]⟩ events ↔ Meets step (Settles sends) ⟨service,[]⟩ events := by
  have none : ExactlyOnce sends (⟨service,[]⟩ : Serving α) := fun answer member => by simp at member
  have disabled : ∀ (s : Serving α) (e : Event α), ExactlyOnce sends s → step s e = Option.none → Settles sends s e := by
    intro s e _ stopped
    cases e <;> simp [step] at stopped
  exact always_iff_meets disabled (fun _ _ _ once stepped => step_exactlyOnce_iff typed once stepped) none events

end

private def dial : IoObject ℚ := ⟨"dial","",0,0,10,1,1,0⟩

private def still : StatsEntry ℚ := ⟨0,0,0⟩

private def dialService : Service ℚ :=
  ⟨"dials",⟨1,0,0⟩,⟨⟨[],[dial]⟩,[]⟩,⟨"dials",still,still,still,still,still,still,still,still,still⟩⟩

/-- What `g_dbus_method_invocation_return_value` does: it compares the types. -/
private def sameType (declared type : String) : Bool := declared == type

theorem always_exactlyOnce_iff_dial :
    Always step (ExactlyOnce sameType) ⟨dialService,[]⟩
        [.call ⟨"SetOutput","dial",3,0⟩,.acts dialService,.call ⟨"Reset","",0,0⟩] ↔
      Meets step (Settles sameType) ⟨dialService,[]⟩
        [.call ⟨"SetOutput","dial",3,0⟩,.acts dialService,.call ⟨"Reset","",0,0⟩] :=
  always_exactlyOnce_iff sameType (fun type => beq_self_eq_true type) dialService _

/-- The output refuses 11: the caller gets a 0, and the same invocation an error. -/
theorem setOutput_answers_twice :
    (handleMethodCall dialService ⟨"SetOutput","dial",11,0⟩).1 =
        [.value (.result false),.error (.setter ⟨.invalidValue,"val is not compatible with min/max"⟩)] ∧
      ¬ Always step (ExactlyOnce sameType) ⟨dialService,[]⟩ [.call ⟨"SetOutput","dial",11,0⟩] := by
  have replies : (handleMethodCall dialService ⟨"SetOutput","dial",11,0⟩).1 =
      [.value (.result false),.error (.setter ⟨.invalidValue,"val is not compatible with min/max"⟩)] := by decide +kernel
  refine ⟨replies,fun always => ?_⟩
  obtain ⟨reply,single,_⟩ := always_first (always.2 _ rfl) _ (List.mem_singleton_self _)
  exact absurd (replies.symm.trans single) (by simp)

end Starter.Methods
