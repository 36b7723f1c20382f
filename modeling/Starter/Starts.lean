import Starter.Lib.Runs
import Starter.Handshake
import Starter.Methods

/-!
The start of a client (`lib/client.c`): `st_client_start`, which blocks, and
`st_client_start_async` with its four callbacks. What other programs answer, and what the
user of the client does, comes in any order; handlers of the user that the code calls in
the middle of a handshake are frames, under which everything else may happen.
-/
namespace Starter.Starts
open Objects Peers Handshake Methods Lib.Runs

/-- `STClientState`. -/
inductive ClientState
  | idle
  | pending
  | ready
  | failed
deriving DecidableEq

/-- A `GCancellable`: one of the user, or one that `st_client_start_async` has made. -/
abbrev Cancellable := Option Nat

/-- The operations of a handshake, in their order. -/
inductive Stage
  | connect
  | getInputs
  | getOutputs
  | getStats
deriving DecidableEq

/-- What a handshake has done so far. -/
inductive Mark
  | opened
  | inputs
  | outputs
  | stats
  | subscribed (signal : String)
deriving DecidableEq

/-- The arrays and the statistics of `STClientPrivate`. -/
structure Mirror (α : Type) where
  inputs : List (IoObject α)
  outputs : List (IoObject α)
  stats : Stats α
deriving DecidableEq

/-- An operation on its way, with the `GTask` its callback is called with. -/
structure Operation where
  task : Nat
  cancellable : Cancellable
  stage : Stage
deriving DecidableEq

/-- Where the code waits for a handler of the user to return. -/
inductive Frame
  /-- The callback of the task, called by `g_task_return_error_if_cancelled`. -/
  | cancelled
  /-- A handler of "changed" of the statistics, called by `on_start_async_get_stats`. -/
  | statsApplied (task : Nat) (cancellable : Cancellable)
  /-- The same, called by `st_client_start`. -/
  | startStats (call : Nat)
deriving DecidableEq

/-- The fields of `STClientPrivate`, a connection by the start that opened it; the
    operations and frames; the cancellables that were cancelled; and of all starts so far
    their number, their results and what they did. -/
structure StClient (α : Type) where
  state : ClientState
  connection : Option Nat
  startCancellable : Option Cancellable
  mirror : Mirror α
  operations : List Operation
  frames : List Frame
  cancelled : List Nat
  starts : Nat
  results : List (Nat × Bool)
  log : List (Nat × Mark)
deriving DecidableEq

/-- What an operation comes to; a `result` may be of any type. -/
inductive Answer (α : Type)
  | error
  | connected
  | result (v : Value α)

/-- The answers that `st_client_start` gets, as far as it asks for them. -/
structure Answers (α : Type) where
  connected : Bool
  inputs : Answer α
  outputs : Answer α
  stats : Answer α

inductive Event (α : Type)
  | start (answers : Answers α)
  | startAsync (cancellable : Option Nat)
  | cancel (cancellable : Nat)
  | completes (index : Nat) (answer : Answer α)
  | returns
  /-- A signal of the peer changes the mirror. -/
  | signal (side : Core.Side) (obj : IoObject α)

section
variable {α : Type}

/-- `g_cancellable_is_cancelled`. -/
def StClient.isCancelled (self : StClient α) (cancellable : Cancellable) : Bool :=
  cancellable.any fun c => self.cancelled.contains c

/-- What `st_client_start_finish` says of a task that was given a result:
    `g_task_propagate_boolean` looks at the cancellable first. -/
def StClient.startFinish (self : StClient α) (cancellable : Cancellable) (returned : Bool) : Bool :=
  returned && !self.isCancelled cancellable

def StClient.returns (self : StClient α) (start : Nat) (result : Bool) : StClient α :=
  { self with results := self.results ++ [(start,result)] }

def StClient.marks (self : StClient α) (start : Nat) (mark : Mark) : StClient α :=
  { self with log := self.log ++ [(start,mark)] }

/-- The state FAILED, without a connection and without a cancellable. -/
def StClient.drop (self : StClient α) : StClient α :=
  { self with state := .failed, startCancellable := none, connection := none }

/-- `subscribe_change_signals`, on the connection that the client has. -/
def StClient.subscribeChangeSignals (self : StClient α) : StClient α :=
  let subscriptions := self.connection.toList.flatMap fun opener =>
    [(opener,Mark.subscribed "InputChanged"),(opener,.subscribed "OutputChanged"),(opener,.subscribed "StatsChanged")]
  { self with log := self.log ++ subscriptions }

/-- `g_dbus_connection_call` and `g_dbus_connection_new_for_address`: the callback will be
    called once. -/
def StClient.calls (self : StClient α) (task : Nat) (cancellable : Cancellable) (stage : Stage) : StClient α :=
  { self with operations := self.operations ++ [⟨task,cancellable,stage⟩] }

/-- `start_async_fail`. -/
def startAsyncFail (self : StClient α) (task : Nat) : StClient α := self.drop.returns task false

/-- `start_async_complete_ready`. -/
def startAsyncCompleteReady (self : StClient α) (task : Nat) (cancellable : Cancellable) : StClient α :=
  let subscribed := self.subscribeChangeSignals
  { subscribed with state := .ready, startCancellable := none }.returns task (self.startFinish cancellable true)

/-- `g_task_return_error_if_cancelled` with the exit that follows it, or the way on. The
    callback of the task is called before the client leaves the state PENDING. -/
def unlessCancelled (self : StClient α) (task : Nat) (cancellable : Cancellable) (goOn : StClient α) : StClient α :=
  if self.isCancelled cancellable then
    { self.returns task false with frames := .cancelled :: self.frames }
  else goOn

/-- The three replies that are of the type the snapshot is read with, and the others; `none`
    where an assertion of a constructor of objects fails. -/
def applyInputsFromResult [Gdouble α] (self : Mirror α) : Value α → Option (Bool × Mirror α)
  | .objects objs => (applyResult objs).map fun inputs => (true,{ self with inputs := inputs })
  | _ => some (false,self)

def applyOutputsFromResult [Gdouble α] (self : Mirror α) : Value α → Option (Bool × Mirror α)
  | .objects objs => (applyResult objs).map fun outputs => (true,{ self with outputs := outputs })
  | _ => some (false,self)

def applyStatsFromResult (self : Mirror α) : Value α → Option (Bool × Mirror α)
  | .stats stats => some (true,{ self with stats := stats })
  | _ => some (false,self)

/-- The callbacks of the three calls: a reply that is applied, and how each goes on. -/
def onStartAsyncReply (self : StClient α) (task : Nat) (applies : Mirror α → Value α → Option (Bool × Mirror α))
    (mark : Mark) (goOn : StClient α → StClient α) : Answer α → Option (StClient α)
  | .error => some (startAsyncFail self task)
  | .connected => none
  | .result v => (applies self.mirror v).map fun applied =>
    if applied.1 then goOn ({ self with mirror := applied.2 }.marks task mark) else startAsyncFail self task

/-- `on_start_async_connected`. -/
def onStartAsyncConnected (self : StClient α) (task : Nat) (cancellable : Cancellable) :
    Answer α → Option (StClient α)
  | .error => some (startAsyncFail { self with connection := none } task)
  | .connected =>
    let opened := { self with connection := some task }.marks task .opened
    some (unlessCancelled opened task cancellable (opened.calls task cancellable .getInputs))
  | .result _ => none

/-- `on_start_async_get_inputs`. -/
def onStartAsyncGetInputs [Gdouble α] (self : StClient α) (task : Nat) (cancellable : Cancellable) :
    Answer α → Option (StClient α) :=
  onStartAsyncReply self task applyInputsFromResult .inputs fun applied =>
    unlessCancelled applied task cancellable (applied.calls task cancellable .getOutputs)

/-- `on_start_async_get_outputs`. -/
def onStartAsyncGetOutputs [Gdouble α] (self : StClient α) (task : Nat) (cancellable : Cancellable) :
    Answer α → Option (StClient α) :=
  onStartAsyncReply self task applyOutputsFromResult .outputs fun applied =>
    unlessCancelled applied task cancellable (applied.calls task cancellable .getStats)

/-- `on_start_async_get_stats`, up to the handlers of the statistics. -/
def onStartAsyncGetStats (self : StClient α) (task : Nat) (cancellable : Cancellable) :
    Answer α → Option (StClient α) :=
  onStartAsyncReply self task applyStatsFromResult .stats fun applied =>
    { applied with frames := .statsApplied task cancellable :: applied.frames }

/-- What the code does once the handler of the user has returned. -/
def Frame.resume (self : StClient α) : Frame → StClient α
  | .cancelled => self.drop
  | .statsApplied task cancellable =>
    unlessCancelled self task cancellable (startAsyncCompleteReady self task cancellable)
  | .startStats call => { self.subscribeChangeSignals with state := .ready }.returns call true

/-- `call_get_inputs_method`, `call_get_outputs_method` and `call_get_stats_method`: the
    answer, and whether it was applied. -/
def callMethod (self : StClient α) (call : Nat) (applies : Mirror α → Value α → Option (Bool × Mirror α))
    (mark : Mark) : Answer α → Option (Bool × StClient α)
  | .error => some (false,self)
  | .connected => none
  | .result v => (applies self.mirror v).map fun applied =>
    if applied.1 then (true,{ self with mirror := applied.2 }.marks call mark) else (false,self)

/-- The exit of `st_client_start` after a call that failed. -/
def startFails (self : StClient α) (call : Nat) : StClient α :=
  { self with state := .failed, connection := none }.returns call false

/-- Another call, or the exit of `st_client_start`. -/
def andThen (call : Nat) (made : Option (Bool × StClient α)) (goOn : StClient α → Option (StClient α)) :
    Option (StClient α) :=
  made.bind fun applied => if applied.1 then goOn applied.2 else some (startFails applied.2 call)

/-- `st_client_start`, up to the handlers of the statistics. -/
def stClientStart [Gdouble α] (self : StClient α) (answers : Answers α) : Option (StClient α) :=
  let call := self.starts
  let self := { self with starts := call + 1 }
  if self.state = .pending ∨ self.state = .ready then some (self.returns call false)
  else if answers.connected then
    let opened := { self with state := .pending, connection := some call }.marks call .opened
    andThen call (callMethod opened call applyInputsFromResult .inputs answers.inputs) fun withInputs =>
      andThen call (callMethod withInputs call applyOutputsFromResult .outputs answers.outputs) fun withOutputs =>
        andThen call (callMethod withOutputs call applyStatsFromResult .stats answers.stats) fun withStats =>
          some { withStats with frames := .startStats call :: withStats.frames }
  else some (startFails self call)

/-- `st_client_start_async`. -/
def stClientStartAsync (self : StClient α) (cancellable : Option Nat) : StClient α :=
  let task := self.starts
  let self := { self with starts := task + 1 }
  if self.state = .pending ∨ self.state = .ready then self.returns task false
  else { self with state := .pending, startCancellable := some cancellable }.calls task cancellable .connect

/-- A signal is delivered where it was subscribed to. -/
def StClient.subscribedTo (self : StClient α) (side : Core.Side) : Bool :=
  let signal := match side with
    | .input => "InputChanged"
    | .output => "OutputChanged"
  self.log.any fun entry => entry.2 == .subscribed signal

/-- `handle_input_changed_signal` and `handle_output_changed_signal`. -/
def Mirror.signalled [Gdouble α] (self : Mirror α) (side : Core.Side) (obj : IoObject α) : Mirror α :=
  match side with
  | .input => { self with inputs := handleOn .input obj self.inputs }
  | .output => { self with outputs := handleOn .output obj self.outputs }

def step [Gdouble α] (self : StClient α) : Event α → Option (StClient α)
  | .start answers => stClientStart self answers
  | .startAsync cancellable => some (stClientStartAsync self cancellable)
  | .cancel cancellable => some { self with cancelled := cancellable :: self.cancelled }
  | .completes index answer =>
    self.operations[index]?.bind fun op =>
      let taken := { self with operations := self.operations.eraseIdx index }
      match op.stage with
      | .connect => onStartAsyncConnected taken op.task op.cancellable answer
      | .getInputs => onStartAsyncGetInputs taken op.task op.cancellable answer
      | .getOutputs => onStartAsyncGetOutputs taken op.task op.cancellable answer
      | .getStats => onStartAsyncGetStats taken op.task op.cancellable answer
  | .returns =>
    match self.frames with
    | [] => none
    | frame :: frames => some (frame.resume { self with frames := frames })
  | .signal side obj =>
    if self.subscribedTo side then some { self with mirror := self.mirror.signalled side obj } else none

/-- `st_client_new`. -/
def stClientNew (stats : Stats α) : StClient α := ⟨.idle,none,none,⟨[],[],stats⟩,[],[],[],0,[],[]⟩

/-! What the mirror is made of. -/

/-- The client goes on from the answer; any other one is an error, or a reply of another type. -/
def Answer.read : Stage → Answer α → Bool
  | .connect, .connected => true
  | .getInputs, .result (.objects _) => true
  | .getOutputs, .result (.objects _) => true
  | .getStats, .result (.stats _) => true
  | _, _ => false

def Answers.of (self : Answers α) : Stage → Answer α
  | .connect => if self.connected then .connected else .error
  | .getInputs => self.inputs
  | .getOutputs => self.outputs
  | .getStats => self.stats

/-- The answers that `st_client_start` asks for: up to the first that it does not go on from. -/
def Answers.askedFrom (self : Answers α) : List Stage → List (Stage × Answer α)
  | [] => []
  | stage :: rest => (stage,self.of stage) :: if (self.of stage).read stage then self.askedFrom rest else []

def Answers.asked (self : Answers α) : List (Stage × Answer α) :=
  self.askedFrom [.connect,.getInputs,.getOutputs,.getStats]

/-- What has come in from other programs: the replies, each with the start and the operation that it answers, and the
signals. -/
structure History (α : Type) where
  replies : List (Nat × Stage × Value α)
  signals : List (Core.Side × IoObject α)
deriving DecidableEq

/-- The replies to the calls of a start. -/
def History.of (self : History α) (start : Nat) : List (Stage × Value α) :=
  self.replies.filterMap fun reply => if reply.1 = start then some reply.2 else none

def History.reply (self : History α) (start : Nat) : Stage × Answer α → History α
  | (stage,.result v) => { self with replies := self.replies ++ [(start,stage,v)] }
  | _ => self

/-- What an event adds to it. -/
def History.after (self : History α) (client : StClient α) : Event α → History α
  | .start answers =>
    if client.state = .pending ∨ client.state = .ready then self
    else answers.asked.foldl (fun history asked => history.reply client.starts asked) self
  | .completes index answer =>
    match client.operations[index]? with
    | some op => self.reply op.task (op.stage,answer)
    | none => self
  | .signal side obj => { self with signals := self.signals ++ [(side,obj)] }
  | _ => self

/-- A step of the client, with the history beside it. -/
def recordedStep [Gdouble α] (self : StClient α × History α) (event : Event α) : Option (StClient α × History α) :=
  (step self.1 event).map fun next => (next,self.2.after self.1 event)

/-- What the signals make of the mirror, one after the other. -/
def Mirror.follows [Gdouble α] (self : Mirror α) (signals : List (Core.Side × IoObject α)) : Mirror α :=
  signals.foldl (fun mirror signal => mirror.signalled signal.1 signal.2) self

/-- The replies are the three snapshots, each of its type, and the mirror has what they contain. -/
def FromReplies [Gdouble α] (replies : List (Stage × Value α)) (mirror : Mirror α) : Prop :=
  ∃ inputs outputs, replies = [(.getInputs,.objects inputs),(.getOutputs,.objects outputs),(.getStats,.stats mirror.stats)] ∧
    applyResult inputs = some mirror.inputs ∧ applyResult outputs = some mirror.outputs

/-- The starts whose result is due. -/
def Frame.start : Frame → Option Nat
  | .cancelled => none
  | .statsApplied task _ => some task
  | .startStats call => some call

/-- The handshakes in flight. -/
def StClient.inFlight (self : StClient α) : List Nat :=
  self.operations.map Operation.task ++ self.frames.filterMap Frame.start

/-- What a handshake has done when it waits for an operation. -/
def Stage.before : Stage → List Mark
  | .connect => []
  | .getInputs => [.opened]
  | .getOutputs => [.opened,.inputs]
  | .getStats => [.opened,.inputs,.outputs]

def snapshots : List Mark := [.opened,.inputs,.outputs,.stats]

/-- What a handshake does that makes the client READY. -/
def handshake : List Mark :=
  snapshots ++ [.subscribed "InputChanged",.subscribed "OutputChanged",.subscribed "StatsChanged"]

/-- The last things done were these, by the start. -/
def LastDone (self : StClient α) (start : Nat) (marks : List Mark) : Prop :=
  ∃ before, self.log = before ++ marks.map (start,·)

/-- The connection that a handshake has when it waits for an operation. -/
def Stage.connection (start : Nat) : Stage → Option Nat
  | .connect => none
  | _ => some start

/-- Where a client is in its life. -/
inductive Phase (client : StClient α) : Prop
  | quiet (state : client.state = .idle ∨ client.state = .failed) (connection : client.connection = none)
      (operations : client.operations = []) (frames : client.frames = [])
  | waiting (op : Operation) (state : client.state = .pending) (connection : client.connection = op.stage.connection op.task)
      (operations : client.operations = [op]) (frames : client.frames = []) (done : LastDone client op.task op.stage.before)
  | handling (frame : Frame) (state : client.state = .pending) (operations : client.operations = [])
      (frames : client.frames = [frame])
      (done : ∀ start, frame.start = some start → client.connection = some start ∧ LastDone client start snapshots)
  | ready (start : Nat) (state : client.state = .ready) (connection : client.connection = some start)
      (operations : client.operations = []) (frames : client.frames = []) (done : LastDone client start handshake)
      (known : start < client.starts)

/-- Each start so far has its result, or is one of those that owe it. -/
def Accounted (self : StClient α) (owing : List Nat) : Prop :=
  ∀ start, (self.results.map Prod.fst).count start + owing.count start = if start < self.starts then 1 else 0

/-- What every step keeps. -/
structure Sound (client : StClient α) : Prop where
  phase : Phase client
  accounted : Accounted client client.inFlight
  success : ∀ result ∈ client.results, result.2 = true ↔ client.state = .ready ∧ client.connection = some result.1

/-- Code of the client runs for the start: nothing of the handshake is on its way. -/
structure Busy (client : StClient α) (start : Nat) : Prop where
  state : client.state = .pending
  operations : client.operations = []
  frames : client.frames = []
  accounted : Accounted client [start]
  failures : ∀ result ∈ client.results, result.2 = false

variable {self : StClient α} {start task : Nat} {cancellable : Cancellable} {stage : Stage} {marks : List Mark}
  {mark : Mark}

theorem lastDone_nil (self : StClient α) (start : Nat) : LastDone self start [] :=
  ⟨self.log,(List.append_nil _).symm⟩

theorem lastDone_marks (mark : Mark) (done : LastDone self start marks) :
    LastDone (self.marks start mark) start (marks ++ [mark]) := by
  obtain ⟨before,log⟩ := done
  exact ⟨before,by simp [StClient.marks,log]⟩

/-- A result settles what the start owes. -/
theorem accounted_returns (accounted : Accounted self [start]) (result : Bool) :
    Accounted (self.returns start result) [] := by
  intro other
  have before := accounted other
  simp only [StClient.returns,List.map_append,List.map_cons,List.map_nil,List.count_append,List.count_nil,Nat.add_zero]
  exact before

/-- A result that is due is the only one. -/
theorem owing_new (accounted : Accounted self [start]) {result : Nat × Bool} (member : result ∈ self.results) :
    result.1 ≠ start := by
  rintro rfl
  have once := accounted result.1
  have known : result.1 ∈ self.results.map Prod.fst := List.mem_map_of_mem member
  have there := List.count_pos_iff.mpr known
  rw [List.count_singleton_self] at once
  split at once <;> omega

/-- A failure leaves nothing but failures. -/
theorem failures_returns (start : Nat) (failures : ∀ result ∈ self.results, result.2 = false) :
    ∀ result ∈ (self.returns start false).results, result.2 = false := by
  intro result member
  rcases List.mem_append.mp member with old | new
  · exact failures result old
  · rw [List.mem_singleton.mp new]

theorem inFlight_eq {operations : List Operation} {frames : List Frame} (on_way : self.operations = operations)
    (inside : self.frames = frames) : self.inFlight = operations.map Operation.task ++ frames.filterMap Frame.start := by
  rw [StClient.inFlight,on_way,inside]

theorem success_failures (self : StClient α) (failures : ∀ result ∈ self.results, result.2 = false)
    (unready : self.state ≠ .ready) :
    ∀ result ∈ self.results, result.2 = true ↔ self.state = .ready ∧ self.connection = some result.1 := by
  intro result member
  rw [failures result member]
  exact iff_of_false Bool.false_ne_true fun both => unready both.1

namespace Busy

/-- The handshake fails, and the client is left without a connection. -/
theorem drops (busy : Busy self start) {next : StClient α} (state : next.state = .failed)
    (connection : next.connection = none) (operations : next.operations = self.operations) (frames : next.frames = self.frames)
    (starts : next.starts = self.starts) (results : next.results = (self.returns start false).results) : Sound next := by
  have accounted := accounted_returns busy.accounted false
  refine ⟨.quiet (.inr state) connection (operations.trans busy.operations) (frames.trans busy.frames),?_,?_⟩
  · intro other
    rw [starts,results,inFlight_eq (operations.trans busy.operations) (frames.trans busy.frames)]
    exact accounted other
  · have failures := failures_returns start busy.failures
    rw [← results] at failures
    exact success_failures next failures (by simp [state])

theorem fails (busy : Busy self start) : Sound (startAsyncFail self start) := busy.drops rfl rfl rfl rfl rfl rfl

/-- The handshake fails, and its user is told so in the state PENDING. -/
theorem cancels (busy : Busy self start) :
    Sound { self.returns start false with frames := .cancelled :: self.frames } := by
  refine ⟨.handling .cancelled busy.state busy.operations (by simp [busy.frames]) (by simp [Frame.start]),?_,?_⟩
  · intro other
    have empty : StClient.inFlight { self.returns start false with frames := .cancelled :: self.frames } = [] := by
      simp [StClient.inFlight,StClient.returns,busy.operations,busy.frames,Frame.start]
    rw [empty]
    exact accounted_returns busy.accounted false other
  · exact success_failures { self.returns start false with frames := .cancelled :: self.frames }
      (failures_returns start busy.failures) (by simp [StClient.returns,busy.state])

theorem calls (busy : Busy self start) (connection : self.connection = stage.connection start)
    (done : LastDone self start stage.before) : Sound (self.calls start cancellable stage) := by
  refine ⟨.waiting ⟨start,cancellable,stage⟩ busy.state connection ?_ busy.frames done,?_,?_⟩
  · simp [StClient.calls,busy.operations]
  · intro other
    simpa [StClient.inFlight,StClient.calls,busy.operations,busy.frames] using busy.accounted other
  · exact success_failures (self.calls start cancellable stage) busy.failures (by simp [StClient.calls,busy.state])

theorem handles (busy : Busy self start) {frame : Frame} (owes : frame.start = some start)
    (connection : self.connection = some start) (done : LastDone self start snapshots) :
    Sound { self with frames := frame :: self.frames } := by
  refine ⟨.handling frame busy.state busy.operations (by simp [busy.frames]) ?_,?_,?_⟩
  · rintro other due
    cases owes.symm.trans due
    exact ⟨connection,done⟩
  · intro other
    simpa [StClient.inFlight,busy.operations,busy.frames,owes] using busy.accounted other
  · exact success_failures { self with frames := frame :: self.frames } busy.failures (by simp [busy.state])

/-- The handshake has made the client READY. -/
theorem succeeds (busy : Busy self start) (connection : self.connection = some start) (done : LastDone self start snapshots)
    {next : StClient α} (state : next.state = .ready) (connection' : next.connection = self.connection)
    (operations : next.operations = self.operations) (frames : next.frames = self.frames)
    (starts : next.starts = self.starts) (results : next.results = (self.returns start true).results)
    (log : next.log = self.subscribeChangeSignals.log) : Sound next := by
  refine ⟨.ready start state (connection'.trans connection) (operations.trans busy.operations)
    (frames.trans busy.frames) ?_ ?_,?_,?_⟩
  · obtain ⟨before,done⟩ := done
    refine ⟨before,log.trans ?_⟩
    simp [StClient.subscribeChangeSignals,connection,done,handshake]
  · have once := busy.accounted start
    rw [List.count_singleton_self] at once
    rw [starts]
    split at once
    · assumption
    · omega
  · intro other
    rw [starts,results,inFlight_eq (operations.trans busy.operations) (frames.trans busy.frames)]
    exact accounted_returns busy.accounted true other
  · rw [results,state,connection',connection]
    intro result member
    rcases List.mem_append.mp member with old | new
    · rw [busy.failures result old]
      refine iff_of_false Bool.false_ne_true fun both => ?_
      exact owing_new busy.accounted old (Option.some.inj both.2).symm
    · rw [List.mem_singleton.mp new]
      simp

/-- A step of a handshake that a cancellation may end. -/
theorem goesOn (busy : Busy self start) {next : StClient α} (sound : Sound next) :
    Sound (unlessCancelled self start cancellable next) := by
  unfold unlessCancelled
  split
  · exact busy.cancels
  · exact sound

/-- What the code does besides does not touch what the start owes. -/
theorem same (busy : Busy self start) {next : StClient α} (state : next.state = self.state)
    (operations : next.operations = self.operations) (frames : next.frames = self.frames)
    (starts : next.starts = self.starts) (results : next.results = self.results) : Busy next start := by
  refine ⟨state.trans busy.state,operations.trans busy.operations,frames.trans busy.frames,?_,?_⟩
  · unfold Accounted
    rw [starts,results]
    exact busy.accounted
  · rw [results]
    exact busy.failures

end Busy

theorem failures_unready (sound : Sound self) (unready : self.state ≠ .ready) :
    ∀ result ∈ self.results, result.2 = false := by
  intro result member
  rw [Bool.eq_false_iff]
  exact fun success => unready ((sound.success result member).mp success).1

/-- A new start, where none is in flight and the client is not READY. -/
theorem busy_starts (sound : Sound self) (idle : ¬ (self.state = .pending ∨ self.state = .ready)) :
    Busy { self with state := .pending, starts := self.starts + 1 } self.starts ∧ self.connection = none := by
  have failures := failures_unready sound fun ready => idle (.inr ready)
  cases sound.phase with
  | quiet state connection operations frames =>
    refine ⟨⟨rfl,operations,frames,?_,failures⟩,connection⟩
    intro other
    have before := sound.accounted other
    rw [inFlight_eq operations frames] at before
    simp only [List.map_nil,List.filterMap_nil,List.append_nil,List.count_nil,Nat.add_zero] at before
    simp only [before,List.count_singleton,beq_iff_eq]
    split_ifs <;> omega
  | waiting op state => exact absurd (.inl state) idle
  | handling frame state => exact absurd (.inl state) idle
  | ready start state => exact absurd (.inr state) idle

/-- What the client is in does not depend on the rest. -/
theorem phase_same (phase : Phase self) {next : StClient α} (state : next.state = self.state)
    (connection : next.connection = self.connection) (operations : next.operations = self.operations)
    (frames : next.frames = self.frames) (log : next.log = self.log) (starts : self.starts ≤ next.starts) :
    Phase next := by
  cases phase with
  | quiet unstarted disconnected nothing outside =>
    exact .quiet (by rwa [state]) (connection.trans disconnected) (operations.trans nothing) (frames.trans outside)
  | waiting op pending connected one outside done =>
    refine .waiting op (state.trans pending) (connection.trans connected) (operations.trans one) (frames.trans outside) ?_
    rwa [LastDone,log]
  | handling frame pending nothing one done =>
    refine .handling frame (state.trans pending) (operations.trans nothing) (frames.trans one) ?_
    simpa only [LastDone,log,connection] using done
  | ready start made connected nothing outside done known =>
    refine .ready start (state.trans made) (connection.trans connected) (operations.trans nothing)
      (frames.trans outside) ?_ (known.trans_le starts)
    rwa [LastDone,log]

/-- A start that is refused. -/
theorem sound_refused (sound : Sound self) :
    Sound (StClient.returns { self with starts := self.starts + 1 } self.starts false) := by
  refine ⟨phase_same sound.phase rfl rfl rfl rfl rfl (Nat.le_succ _),?_,?_⟩
  · intro other
    have before := sound.accounted other
    have more : (if other < self.starts + 1 then 1 else 0) =
        (if other < self.starts then 1 else 0) + if self.starts = other then 1 else 0 := by
      split_ifs <;> omega
    simp only [StClient.returns,List.map_append,List.map_cons,List.map_nil,List.count_append,List.count_singleton,
      beq_iff_eq]
    change _ + _ + List.count other self.inFlight = if other < self.starts + 1 then 1 else 0
    rw [more]
    omega
  · rintro result member
    rcases List.mem_append.mp member with old | new
    · exact sound.success result old
    · rw [List.mem_singleton.mp new]
      refine iff_of_false Bool.false_ne_true ?_
      rintro ⟨ready,own⟩
      -- The start that has made the client READY is one of those before.
      cases sound.phase with
      | ready start state connection operations frames done known =>
        cases connection.symm.trans own
        exact lt_irrefl _ known
      | quiet state =>
        rcases state with idle | failed
        · cases idle.symm.trans ready
        · cases failed.symm.trans ready
      | waiting op state => cases state.symm.trans ready
      | handling frame state => cases state.symm.trans ready

/-- An operation comes back, and its callback runs. -/
theorem busy_completes (sound : Sound self) {index : Nat} {op : Operation} (there : self.operations[index]? = some op) :
    Busy { self with operations := self.operations.eraseIdx index } op.task ∧
      self.connection = op.stage.connection op.task ∧ LastDone self op.task op.stage.before := by
  cases sound.phase with
  | waiting only state connection operations frames done =>
    rw [operations] at there
    obtain ⟨rfl,rfl⟩ : index = 0 ∧ only = op := by
      cases index with
      | zero => exact ⟨rfl,Option.some.inj there⟩
      | succ index => simp at there
    refine ⟨⟨state,by simp [operations],frames,?_,?_⟩,connection,done⟩
    · have accounted := sound.accounted
      rwa [inFlight_eq operations frames] at accounted
    · have failures := failures_unready sound (by simp [state])
      exact failures
  | quiet state connection operations frames => simp [operations] at there
  | handling frame state operations frames done => simp [operations] at there
  | ready start state connection operations frames done => simp [operations] at there

/-- A handler of the user returns, and the code that has called it goes on. -/
theorem busy_returns (sound : Sound self) {frame : Frame} {frames : List Frame} (there : self.frames = frame :: frames)
    (due : frame.start = some start) :
    Busy { self with frames := frames } start ∧ self.connection = some start ∧ LastDone self start snapshots := by
  cases sound.phase with
  | handling only state operations single done =>
    rw [single] at there
    obtain ⟨rfl,rfl⟩ := List.cons.inj there
    refine ⟨⟨state,operations,rfl,?_,?_⟩,done start due⟩
    · have accounted := sound.accounted
      rw [inFlight_eq operations single] at accounted
      simpa [Accounted,due] using accounted
    · have failures := failures_unready sound (by simp [state])
      exact failures
  | quiet state connection operations frames => simp [frames] at there
  | waiting op state connection operations frames done => simp [frames] at there
  | ready start state connection operations frames done => simp [frames] at there

/-- A reply is applied, or its start fails. -/
theorem onStartAsyncReply_sound (busy : Busy self task) {applies : Mirror α → Value α → Option (Bool × Mirror α)}
    (connection : self.connection = some task) (done : LastDone self task marks) {goOn : StClient α → StClient α}
    {answer : Answer α} {next : StClient α}
    (goes : ∀ applied, Busy applied task → applied.connection = some task → LastDone applied task (marks ++ [mark]) →
      Sound (goOn applied))
    (stepped : onStartAsyncReply self task applies mark goOn answer = some next) : Sound next := by
  cases answer with
  | error =>
    cases stepped
    exact busy.fails
  | connected => cases stepped
  | result v =>
    obtain ⟨⟨applied,mirror⟩,_,rfl⟩ := Option.map_eq_some_iff.mp stepped
    cases applied with
    | true => exact goes _ (busy.same rfl rfl rfl rfl rfl) connection (lastDone_marks mark done)
    | false => exact busy.fails

theorem callMethod_busy (busy : Busy self start) {applies : Mirror α → Value α → Option (Bool × Mirror α)}
    {answer : Answer α} {applied : Bool} {next : StClient α}
    (made : callMethod self start applies mark answer = some (applied,next)) :
    Busy next start ∧ next.connection = self.connection ∧
      (applied = true → ∀ marks, LastDone self start marks → LastDone next start (marks ++ [mark])) := by
  cases answer with
  | error =>
    cases made
    exact ⟨busy,rfl,by simp⟩
  | connected => cases made
  | result v =>
    obtain ⟨⟨good,mirror⟩,_,ends⟩ := Option.map_eq_some_iff.mp made
    cases good with
    | true =>
      cases ends
      exact ⟨busy.same rfl rfl rfl rfl rfl,rfl,fun _ _ => lastDone_marks mark⟩
    | false =>
      cases ends
      exact ⟨busy,rfl,by simp⟩

/-- A call of `st_client_start`, and what follows it. -/
theorem andThen_sound (busy : Busy self start) {applies : Mirror α → Value α → Option (Bool × Mirror α)}
    (connection : self.connection = some start) (done : LastDone self start marks)
    {goOn : StClient α → Option (StClient α)} {answer : Answer α} {last : StClient α}
    (goes : ∀ next, Busy next start → next.connection = some start → LastDone next start (marks ++ [mark]) →
      goOn next = some last → Sound last)
    (stepped : andThen start (callMethod self start applies mark answer) goOn = some last) : Sound last := by
  obtain ⟨⟨applied,next⟩,made,rest⟩ := Option.bind_eq_some_iff.mp stepped
  obtain ⟨after,same,later⟩ := callMethod_busy busy made
  cases applied with
  | true => exact goes next after (same.trans connection) (later rfl marks done) rest
  | false =>
    cases rest
    exact after.drops rfl rfl rfl rfl rfl rfl

variable [Gdouble α] {next : StClient α}

theorem stClientStart_sound (sound : Sound self) {answers : Answers α}
    (stepped : stClientStart self answers = some next) : Sound next := by
  simp only [stClientStart] at stepped
  split at stepped
  · cases stepped
    exact sound_refused sound
  · rename_i idle
    obtain ⟨busy,_⟩ := busy_starts sound idle
    split at stepped
    · have opened : Busy (StClient.marks
          { self with starts := self.starts + 1, state := .pending, connection := some self.starts }
          self.starts .opened) self.starts := busy.same rfl rfl rfl rfl rfl
      refine andThen_sound opened rfl (lastDone_marks .opened (lastDone_nil _ _)) ?_ stepped
      intro withInputs busy connection done stepped
      refine andThen_sound busy connection done ?_ stepped
      intro withOutputs busy connection done stepped
      refine andThen_sound busy connection done ?_ stepped
      intro withStats busy connection done stepped
      cases stepped
      exact busy.handles rfl connection done
    · cases stepped
      exact busy.drops rfl rfl rfl rfl rfl rfl

omit [Gdouble α] in
theorem stClientStartAsync_sound (sound : Sound self) : Sound (stClientStartAsync self cancellable) := by
  simp only [stClientStartAsync]
  split
  · exact sound_refused sound
  · rename_i idle
    obtain ⟨busy,disconnected⟩ := busy_starts sound idle
    have pending : Busy { self with starts := self.starts + 1, state := .pending, startCancellable := some cancellable }
        self.starts := busy.same rfl rfl rfl rfl rfl
    exact pending.calls disconnected (lastDone_nil _ _)

/-- A callback of the handshake. -/
theorem completes_sound (sound : Sound self) {index : Nat} {answer : Answer α}
    (stepped : step self (.completes index answer) = some next) : Sound next := by
  obtain ⟨op,there,stepped⟩ := Option.bind_eq_some_iff.mp stepped
  obtain ⟨busy,connection,done⟩ := busy_completes sound there
  cases stage : op.stage with
  | connect =>
    rw [stage] at connection done
    simp only [stage] at stepped
    cases answer with
    | error =>
      cases stepped
      exact busy.drops rfl rfl rfl rfl rfl rfl
    | connected =>
      cases stepped
      have opened : Busy (StClient.marks
          { self with operations := self.operations.eraseIdx index, connection := some op.task }
          op.task .opened) op.task := busy.same rfl rfl rfl rfl rfl
      exact opened.goesOn (opened.calls rfl (lastDone_marks .opened done))
    | result v => cases stepped
  | getInputs =>
    rw [stage] at connection done
    simp only [stage] at stepped
    refine onStartAsyncReply_sound busy connection done (fun applied busy connection done => ?_) stepped
    exact busy.goesOn (busy.calls connection done)
  | getOutputs =>
    rw [stage] at connection done
    simp only [stage] at stepped
    refine onStartAsyncReply_sound busy connection done (fun applied busy connection done => ?_) stepped
    exact busy.goesOn (busy.calls connection done)
  | getStats =>
    rw [stage] at connection done
    simp only [stage] at stepped
    refine onStartAsyncReply_sound busy connection done (fun applied busy connection done => ?_) stepped
    exact busy.handles rfl connection done

omit [Gdouble α] in
/-- The exit that waited for the callback of its task. -/
theorem cancelled_returns (sound : Sound self) {frames : List Frame} (there : self.frames = .cancelled :: frames) :
    Sound (StClient.drop { self with frames := frames }) := by
  cases sound.phase with
  | handling only state operations single done =>
    rw [single] at there
    obtain ⟨rfl,rfl⟩ := List.cons.inj there
    have failures := failures_unready sound (by simp [state])
    refine ⟨.quiet (.inr rfl) rfl operations rfl,?_,?_⟩
    · have accounted := sound.accounted
      rw [inFlight_eq operations single] at accounted
      have empty : StClient.inFlight (StClient.drop { self with frames := [] }) = [] := by
        simp [StClient.inFlight,StClient.drop,operations]
      rw [empty]
      exact accounted
    · exact success_failures (StClient.drop { self with frames := [] }) failures (by simp [StClient.drop])
  | quiet state connection operations frames => simp [frames] at there
  | waiting op state connection operations frames done => simp [frames] at there
  | ready start state connection operations frames done => simp [frames] at there

theorem returns_sound (sound : Sound self) (stepped : step self .returns = some next) : Sound next := by
  simp only [step] at stepped
  split at stepped
  · cases stepped
  · rename_i frame frames there
    cases stepped
    cases frame with
    | cancelled => exact cancelled_returns sound there
    | statsApplied task cancellable =>
      obtain ⟨busy,connection,done⟩ := busy_returns sound there rfl
      simp only [Frame.resume,unlessCancelled]
      split
      · exact busy.cancels
      · rename_i active
        refine busy.succeeds connection done rfl rfl rfl rfl rfl ?_ rfl
        simp only [startAsyncCompleteReady,StClient.startFinish,StClient.returns,active]
        rfl
    | startStats call =>
      obtain ⟨busy,connection,done⟩ := busy_returns sound there rfl
      exact busy.succeeds connection done rfl rfl rfl rfl rfl rfl rfl

/-- Every step keeps it. -/
theorem step_sound (client : StClient α) (event : Event α) (next : StClient α) (sound : Sound client)
    (stepped : step client event = some next) : Sound next := by
  cases event with
  | start answers => exact stClientStart_sound sound stepped
  | startAsync cancellable =>
    cases stepped
    exact stClientStartAsync_sound sound
  | cancel cancellable =>
    cases stepped
    exact ⟨phase_same sound.phase rfl rfl rfl rfl rfl le_rfl,sound.accounted,sound.success⟩
  | completes index answer => exact completes_sound sound stepped
  | returns => exact returns_sound sound stepped
  | signal side obj =>
    simp only [step] at stepped
    split at stepped
    · cases stepped
      exact ⟨phase_same sound.phase rfl rfl rfl rfl rfl le_rfl,sound.accounted,sound.success⟩
    · cases stepped

/-- How many more answers and returns of its user a handshake can take. -/
def Stage.work : Stage → Nat
  | .connect => 6
  | .getInputs => 5
  | .getOutputs => 4
  | .getStats => 3

def Frame.work : Frame → Nat
  | .cancelled => 1
  | .statsApplied _ _ => 2
  | .startStats _ => 1

def StClient.work (self : StClient α) : Nat :=
  (self.operations.map (·.stage.work)).sum + (self.frames.map Frame.work).sum

/-- The events that handshakes wait for, and those that ask for one. -/
def Event.isAnswer : Event α → Bool
  | .completes _ _ => true
  | .returns => true
  | _ => false

def Event.isRequest : Event α → Bool
  | .start _ => true
  | .startAsync _ => true
  | _ => false

omit [Gdouble α] in
theorem unlessCancelled_work (busy : Busy self start) {bound : Nat} (more : 1 < bound) (below : next.work < bound) :
    (unlessCancelled self start cancellable next).work < bound := by
  unfold unlessCancelled
  split
  · simpa [StClient.work,StClient.returns,busy.operations,busy.frames,Frame.work] using more
  · exact below

omit [Gdouble α] in
theorem calls_work (busy : Busy self start) : (self.calls start cancellable stage).work = stage.work := by
  simp [StClient.work,StClient.calls,busy.operations,busy.frames]

omit [Gdouble α] in
theorem onStartAsyncReply_work (busy : Busy self task) {applies : Mirror α → Value α → Option (Bool × Mirror α)}
    {goOn : StClient α → StClient α} {answer : Answer α} {bound : Nat} (some_work : 0 < bound)
    (goes : ∀ applied, Busy applied task → (goOn applied).work < bound)
    (stepped : onStartAsyncReply self task applies mark goOn answer = some next) : next.work < bound := by
  have failed : (startAsyncFail self task).work < bound := by
    simpa [StClient.work,startAsyncFail,StClient.drop,StClient.returns,busy.operations,busy.frames] using some_work
  cases answer with
  | error =>
    cases stepped
    exact failed
  | connected => cases stepped
  | result v =>
    obtain ⟨⟨applied,mirror⟩,_,rfl⟩ := Option.map_eq_some_iff.mp stepped
    cases applied with
    | true => exact goes _ (busy.same rfl rfl rfl rfl rfl)
    | false => exact failed

theorem completes_work (sound : Sound self) {index : Nat} {answer : Answer α}
    (stepped : step self (.completes index answer) = some next) : next.work < self.work := by
  obtain ⟨op,there,stepped⟩ := Option.bind_eq_some_iff.mp stepped
  obtain ⟨busy,_,_⟩ := busy_completes sound there
  have whole : self.work = op.stage.work := by
    cases sound.phase with
    | waiting only state connection operations frames done =>
      rw [operations] at there
      have same := List.mem_singleton.mp (List.mem_of_getElem? there)
      simp [StClient.work,operations,frames,same]
    | quiet state connection operations frames => simp [operations] at there
    | handling frame state operations frames done => simp [operations] at there
    | ready start state connection operations frames done => simp [operations] at there
  rw [whole]
  cases stage : op.stage with
  | connect =>
    simp only [stage] at stepped
    cases answer with
    | error =>
      cases stepped
      simp [StClient.work,startAsyncFail,StClient.drop,StClient.returns,busy.operations,busy.frames,Stage.work]
    | connected =>
      cases stepped
      have opened : Busy (StClient.marks
          { self with operations := self.operations.eraseIdx index, connection := some op.task }
          op.task .opened) op.task := busy.same rfl rfl rfl rfl rfl
      refine unlessCancelled_work opened (by decide) ?_
      rw [calls_work opened]
      decide
    | result v => cases stepped
  | getInputs =>
    simp only [stage] at stepped
    refine onStartAsyncReply_work busy (by decide) (fun applied busy => ?_) stepped
    refine unlessCancelled_work busy (by decide) ?_
    rw [calls_work busy]
    decide
  | getOutputs =>
    simp only [stage] at stepped
    refine onStartAsyncReply_work busy (by decide) (fun applied busy => ?_) stepped
    refine unlessCancelled_work busy (by decide) ?_
    rw [calls_work busy]
    decide
  | getStats =>
    simp only [stage] at stepped
    refine onStartAsyncReply_work busy (by decide) (fun applied busy => ?_) stepped
    simp [StClient.work,busy.operations,busy.frames,Frame.work,Stage.work]

theorem returns_work (sound : Sound self) (stepped : step self .returns = some next) : next.work < self.work := by
  simp only [step] at stepped
  split at stepped
  · cases stepped
  · rename_i frame frames there
    cases stepped
    cases frame with
    | cancelled => simp [Frame.resume,StClient.drop,StClient.work,there,Frame.work]
    | statsApplied task cancellable =>
      obtain ⟨busy,_,_⟩ := busy_returns sound there rfl
      have nothing : self.operations = [] := busy.operations
      have outside : frames = [] := busy.frames
      have whole : self.work = 2 := by simp [StClient.work,nothing,there,outside,Frame.work]
      rw [whole]
      refine unlessCancelled_work busy (by decide) ?_
      simp [startAsyncCompleteReady,StClient.work,StClient.returns,StClient.subscribeChangeSignals,nothing,outside]
    | startStats call =>
      simp [Frame.resume,StClient.work,there,Frame.work,StClient.returns,StClient.subscribeChangeSignals]

/-! The replies, and what the mirror has of them. -/

/-- What has been asked for before the given operation, or all, has been replied to and is in the mirror. -/
def Partly (replies : List (Stage × Value α)) (mirror : Mirror α) : Option Stage → Prop
  | some .connect => replies = []
  | some .getInputs => replies = []
  | some .getOutputs => ∃ inputs, replies = [(.getInputs,.objects inputs)] ∧ applyResult inputs = some mirror.inputs
  | some .getStats =>
    ∃ inputs outputs, replies = [(.getInputs,.objects inputs),(.getOutputs,.objects outputs)] ∧
      applyResult inputs = some mirror.inputs ∧ applyResult outputs = some mirror.outputs
  | none => FromReplies replies mirror

def Stage.after : Stage → Option Stage
  | .connect => some .getInputs
  | .getInputs => some .getOutputs
  | .getOutputs => some .getStats
  | .getStats => none

/-- How a reply to the operation is applied. -/
def Stage.applies : Stage → Mirror α → Value α → Option (Bool × Mirror α)
  | .connect => fun _ _ => none
  | .getInputs => applyInputsFromResult
  | .getOutputs => applyOutputsFromResult
  | .getStats => applyStatsFromResult

theorem applies_read {v : Value α} {mirror mirror' : Mirror α} {good : Bool}
    (applied : stage.applies mirror v = some (good,mirror')) :
    good = (Answer.result v).read stage ∧ (good = false → mirror' = mirror) := by
  cases stage with
  | connect => cases applied
  | getInputs | getOutputs =>
    cases v with
    | objects entries =>
      obtain ⟨_,_,same⟩ := Option.map_eq_some_iff.mp applied
      cases same
      exact ⟨rfl,by simp⟩
    | name | version | result | stats =>
      cases applied
      exact ⟨rfl,fun _ => rfl⟩
  | getStats =>
    cases v <;> cases applied <;> exact ⟨rfl,by simp⟩

/-- A reply that is applied is in the mirror, beside those before it. -/
theorem partly_next {replies : List (Stage × Value α)} {mirror mirror' : Mirror α} {v : Value α}
    (partly : Partly replies mirror (some stage)) (applied : stage.applies mirror v = some (true,mirror')) :
    Partly (replies ++ [(stage,v)]) mirror' stage.after := by
  have good := (applies_read applied).1
  cases stage with
  | connect => cases applied
  | getInputs =>
    cases v with
    | objects entries =>
      obtain ⟨inputs,made,same⟩ := Option.map_eq_some_iff.mp applied
      cases same
      cases partly
      exact ⟨entries,rfl,made⟩
    | name | version | result | stats => cases good
  | getOutputs =>
    obtain ⟨ins,rfl,inputs⟩ := partly
    cases v with
    | objects entries =>
      obtain ⟨outputs,made,same⟩ := Option.map_eq_some_iff.mp applied
      cases same
      exact ⟨ins,entries,rfl,inputs,made⟩
    | name | version | result | stats => cases good
  | getStats =>
    obtain ⟨ins,outs,rfl,inputs,outputs⟩ := partly
    cases v with
    | stats stats =>
      cases applied
      exact ⟨ins,outs,rfl,inputs,outputs⟩
    | name | version | objects | result => cases good

variable {history : History α}

omit [Gdouble α] in
theorem of_reply (history : History α) (start other : Nat) (stage : Stage) (v : Value α) :
    (history.reply start (stage,.result v)).of other = history.of other ++ if start = other then [(stage,v)] else [] := by
  by_cases same : start = other <;> simp [History.of,History.reply,List.filterMap_append,same]

omit [Gdouble α] in
theorem of_fresh (fresh : ∀ reply ∈ history.replies, reply.1 < start) : history.of start = [] := by
  simp only [History.of,List.filterMap_eq_nil_iff,ite_eq_right_iff]
  intro reply member same
  exact absurd same (fresh reply member).ne

/-- No reply is to a start that is yet to come, and no signal has come. -/
structure Underway (client : StClient α) (history : History α) : Prop where
  fresh : ∀ reply ∈ history.replies, reply.1 < client.starts
  signals : history.signals = []
  unsubscribed : ∀ entry ∈ client.log, ∀ signal, entry.2 ≠ .subscribed signal

/-- What every step keeps of the history. -/
structure Recorded (client : StClient α) (history : History α) : Prop where
  fresh : ∀ reply ∈ history.replies, reply.1 < client.starts
  waiting : ∀ op ∈ client.operations, Partly (history.of op.task) client.mirror (some op.stage)
  handling : ∀ frame ∈ client.frames, ∀ start, frame.start = some start → FromReplies (history.of start) client.mirror
  ready : client.state = .ready → ∃ start, client.connection = some start ∧
    ∃ mirror, FromReplies (history.of start) mirror ∧ client.mirror = mirror.follows history.signals
  silent : client.state ≠ .ready → Underway client history

/-- Code of the client runs for the start, which has got the replies to what comes before the stage. -/
structure Reading (client : StClient α) (history : History α) (start : Nat) (stage : Option Stage) : Prop where
  busy : Busy client start
  under : Underway client history
  partly : Partly (history.of start) client.mirror stage

omit [Gdouble α] in
/-- The start that code runs for is one of those so far. -/
theorem Busy.known (busy : Busy self start) : start < self.starts := by
  have once := busy.accounted start
  rw [List.count_singleton_self] at once
  split at once
  · assumption
  · omega

namespace Underway

omit [Gdouble α] in
theorem same (under : Underway self history) (starts : self.starts ≤ next.starts) (log : next.log = self.log) :
    Underway next history :=
  ⟨fun reply member => (under.fresh reply member).trans_le starts,under.signals,log ▸ under.unsubscribed⟩

omit [Gdouble α] in
theorem marked (under : Underway self history) (plain : ∀ signal, mark ≠ .subscribed signal) :
    Underway (self.marks start mark) history := by
  refine ⟨under.fresh,under.signals,fun entry member => ?_⟩
  rcases List.mem_append.mp member with old | new
  · exact under.unsubscribed entry old
  · rw [List.mem_singleton.mp new]
    exact plain

omit [Gdouble α] in
theorem reply (under : Underway self history) (known : start < self.starts) (answer : Stage × Answer α) :
    Underway self (history.reply start answer) := by
  obtain ⟨stage,answer⟩ := answer
  cases answer with
  | error => exact under
  | connected => exact under
  | result v =>
    refine ⟨fun reply member => ?_,under.signals,under.unsubscribed⟩
    rcases List.mem_append.mp member with old | new
    · exact under.fresh reply old
    · rw [List.mem_singleton.mp new]
      exact known

/-- A start fails, or its user is told so. -/
theorem ends (under : Underway self history) (unready : self.state ≠ .ready) (operations : self.operations = [])
    (frames : ∀ frame ∈ self.frames, frame.start = none) : Recorded self history := by
  refine ⟨under.fresh,by simp [operations],?_,fun ready => absurd ready unready,fun _ => under⟩
  intro frame member start due
  cases (frames frame member).symm.trans due

end Underway

namespace Reading

/-- Nothing that the history depends on is touched. -/
theorem same {stage : Option Stage} (reading : Reading self history start stage) (state : next.state = self.state)
    (operations : next.operations = self.operations) (frames : next.frames = self.frames)
    (starts : next.starts = self.starts) (results : next.results = self.results) (log : next.log = self.log)
    (mirror : next.mirror = self.mirror) : Reading next history start stage := by
  refine ⟨reading.busy.same state operations frames starts results,reading.under.same starts.ge log,?_⟩
  rw [mirror]
  exact reading.partly

theorem marked {stage : Option Stage} (reading : Reading self history start stage)
    (plain : ∀ signal, mark ≠ .subscribed signal) : Reading (self.marks start mark) history start stage :=
  ⟨reading.busy.same rfl rfl rfl rfl rfl,reading.under.marked plain,reading.partly⟩

/-- A reply is applied. -/
theorem applied {v : Value α} {mirror : Mirror α} (reading : Reading self history start (some stage))
    (made : stage.applies self.mirror v = some (true,mirror)) :
    Reading { self with mirror := mirror } (history.reply start (stage,.result v)) start stage.after := by
  refine ⟨reading.busy.same rfl rfl rfl rfl rfl,(reading.under.reply reading.busy.known _).same le_rfl rfl,?_⟩
  rw [of_reply,if_pos rfl]
  exact partly_next reading.partly made

/-- The connection is there, and it has no reply yet. -/
theorem opens (reading : Reading self history start (some .connect)) :
    Reading (StClient.marks { self with connection := some start } start .opened) history start (some .getInputs) := by
  have connected : Underway { self with connection := some start } history := reading.under.same le_rfl rfl
  exact ⟨reading.busy.same rfl rfl rfl rfl rfl,connected.marked (by simp),reading.partly⟩

/-- The start fails. -/
theorem fails {stage : Option Stage} (reading : Reading self history start stage) (answer : Stage × Answer α)
    (unready : next.state ≠ .ready) (operations : next.operations = self.operations) (frames : next.frames = self.frames)
    (starts : next.starts = self.starts) (log : next.log = self.log) : Recorded next (history.reply start answer) := by
  refine ((reading.under.reply reading.busy.known answer).same starts.ge log).ends unready
    (operations.trans reading.busy.operations) ?_
  simp [frames,reading.busy.frames]

theorem calls (reading : Reading self history start (some stage)) : Recorded (self.calls start cancellable stage) history := by
  have unready : (self.calls start cancellable stage).state ≠ .ready := by
    simp [StClient.calls,reading.busy.state]
  refine ⟨reading.under.fresh,?_,?_,fun ready => absurd ready unready,fun _ => reading.under.same le_rfl rfl⟩
  · intro op member
    simp only [StClient.calls,reading.busy.operations,List.nil_append,List.mem_singleton] at member
    rw [member]
    exact reading.partly
  · simp [StClient.calls,reading.busy.frames]

theorem handles (reading : Reading self history start none) {frame : Frame} (owes : frame.start = some start) :
    Recorded { self with frames := frame :: self.frames } history := by
  have unready : self.state ≠ .ready := by simp [reading.busy.state]
  refine ⟨reading.under.fresh,by simp [reading.busy.operations],?_,fun ready => absurd ready unready,
    fun _ => reading.under.same le_rfl rfl⟩
  simp only [reading.busy.frames,List.mem_singleton]
  rintro _ rfl other due
  cases owes.symm.trans due
  exact reading.partly

/-- A step of a handshake that a cancellation may end. -/
theorem goesOn {stage : Option Stage} (reading : Reading self history start stage) (recorded : Recorded next history) :
    Recorded (unlessCancelled self start cancellable next) history := by
  unfold unlessCancelled
  split
  · have unready : self.state ≠ .ready := by simp [reading.busy.state]
    have told : Underway { self.returns start false with frames := .cancelled :: self.frames } history :=
      reading.under.same le_rfl rfl
    exact told.ends unready reading.busy.operations (by simp [reading.busy.frames,Frame.start])
  · exact recorded

end Reading

/-- The handshake has made the client READY. -/
theorem recorded_ready (under : Underway self history) (snapshot : FromReplies (history.of start) self.mirror)
    (state : next.state = .ready) (connection : next.connection = some start) (operations : next.operations = [])
    (frames : next.frames = []) (starts : next.starts = self.starts) (mirror : next.mirror = self.mirror) :
    Recorded next history := by
  refine ⟨by simpa only [starts] using under.fresh,by simp [operations],by simp [frames],?_,
    fun unready => absurd state unready⟩
  refine fun _ => ⟨start,connection,self.mirror,snapshot,?_⟩
  rw [under.signals,mirror]
  rfl

/-- What the client knows does not depend on the rest. -/
theorem recorded_same (recorded : Recorded self history) (state : next.state = self.state)
    (connection : next.connection = self.connection) (operations : next.operations = self.operations)
    (frames : next.frames = self.frames) (starts : self.starts ≤ next.starts) (log : next.log = self.log)
    (mirror : next.mirror = self.mirror) : Recorded next history := by
  refine ⟨fun reply member => (recorded.fresh reply member).trans_le starts,?_,?_,?_,?_⟩
  · simpa only [operations,mirror] using recorded.waiting
  · simpa only [frames,mirror] using recorded.handling
  · simpa only [state,connection,mirror] using recorded.ready
  · intro unready
    exact (recorded.silent (by rwa [← state])).same starts log

theorem onStartAsyncReply_recorded (reading : Reading self history task (some stage)) {goOn : StClient α → StClient α}
    {answer : Answer α} (plain : ∀ signal, mark ≠ .subscribed signal)
    (goes : ∀ applied replied, Reading applied replied task stage.after → Recorded (goOn applied) replied)
    (stepped : onStartAsyncReply self task stage.applies mark goOn answer = some next) :
    Recorded next (history.reply task (stage,answer)) := by
  cases answer with
  | error =>
    cases stepped
    exact reading.fails (stage,.error) (by simp [startAsyncFail,StClient.drop,StClient.returns]) rfl rfl rfl rfl
  | connected => cases stepped
  | result v =>
    obtain ⟨⟨applied,mirror⟩,made,rfl⟩ := Option.map_eq_some_iff.mp stepped
    cases applied with
    | true => exact goes _ _ ((reading.applied made).marked plain)
    | false => exact reading.fails _ (by simp [startAsyncFail,StClient.drop,StClient.returns]) rfl rfl rfl rfl

/-- A call of `st_client_start`, and what follows it. -/
theorem andThen_recorded (reading : Reading self history start (some stage)) {goOn : StClient α → Option (StClient α)}
    {answers : Answers α} {rest : List Stage} {last : StClient α} (plain : ∀ signal, mark ≠ .subscribed signal)
    (goes : ∀ applied replied, Reading applied replied start stage.after → goOn applied = some last →
      Recorded last ((answers.askedFrom rest).foldl (fun history asked => history.reply start asked) replied))
    (stepped : andThen start (callMethod self start stage.applies mark (answers.of stage)) goOn = some last) :
    Recorded last ((answers.askedFrom (stage :: rest)).foldl (fun history asked => history.reply start asked) history) := by
  obtain ⟨⟨applied,next⟩,made,after⟩ := Option.bind_eq_some_iff.mp stepped
  simp only [Answers.askedFrom,List.foldl_cons]
  cases answer : answers.of stage with
  | error =>
    rw [answer] at made
    cases made
    cases after
    have unread : (Answer.error : Answer α).read stage = false := by cases stage <;> rfl
    rw [unread]
    exact reading.fails (stage,.error) (by simp [startFails,StClient.returns]) rfl rfl rfl rfl
  | connected =>
    rw [answer] at made
    cases made
  | result v =>
    rw [answer] at made
    obtain ⟨⟨good,mirror⟩,applies,ends⟩ := Option.map_eq_some_iff.mp made
    have read := (applies_read applies).1
    rw [← read]
    cases good with
    | true =>
      cases ends
      exact goes _ _ ((reading.applied applies).marked plain) after
    | false =>
      cases ends
      cases after
      exact reading.fails _ (by simp [startFails,StClient.returns]) rfl rfl rfl rfl

/-- A new start, where none is in flight and the client is not READY. -/
theorem reading_starts (sound : Sound self) (recorded : Recorded self history)
    (idle : ¬ (self.state = .pending ∨ self.state = .ready)) :
    Reading { self with state := .pending, starts := self.starts + 1 } history self.starts (some .connect) := by
  have under := recorded.silent fun ready => idle (.inr ready)
  exact ⟨(busy_starts sound idle).1,under.same (Nat.le_succ _) rfl,of_fresh under.fresh⟩

theorem stClientStart_recorded (sound : Sound self) (recorded : Recorded self history) {answers : Answers α}
    (stepped : stClientStart self answers = some next) : Recorded next (history.after self (.start answers)) := by
  simp only [stClientStart] at stepped
  simp only [History.after]
  split at stepped
  · rename_i busy
    cases stepped
    rw [if_pos busy]
    exact recorded_same recorded rfl rfl rfl rfl (Nat.le_succ _) rfl rfl
  · rename_i idle
    rw [if_neg idle]
    have reading := reading_starts sound recorded idle
    split at stepped
    · rename_i connected
      have asked : answers.asked = (.connect,.connected) :: answers.askedFrom [.getInputs,.getOutputs,.getStats] := by
        simp [Answers.asked,Answers.askedFrom,Answers.of,connected,Answer.read]
      rw [asked]
      have opened := reading.opens
      refine andThen_recorded opened (by simp) ?_ stepped
      intro withInputs replied reading stepped
      refine andThen_recorded reading (by simp) ?_ stepped
      intro withOutputs replied reading stepped
      refine andThen_recorded reading (by simp) ?_ stepped
      intro withStats replied reading stepped
      cases stepped
      exact reading.handles rfl
    · rename_i unconnected
      cases stepped
      have asked : answers.asked = [(.connect,.error)] := by
        simp [Answers.asked,Answers.askedFrom,Answers.of,unconnected,Answer.read]
      rw [asked]
      exact reading.fails (.connect,.error) (by simp [startFails,StClient.returns]) rfl rfl rfl rfl

theorem stClientStartAsync_recorded (sound : Sound self) (recorded : Recorded self history) :
    Recorded (stClientStartAsync self cancellable) history := by
  simp only [stClientStartAsync]
  split
  · exact recorded_same recorded rfl rfl rfl rfl (Nat.le_succ _) rfl rfl
  · rename_i idle
    have reading : Reading { self with starts := self.starts + 1, state := .pending, startCancellable := some cancellable }
        history self.starts (some .connect) := (reading_starts sound recorded idle).same rfl rfl rfl rfl rfl rfl rfl
    exact reading.calls

/-- A callback of the handshake. -/
theorem completes_recorded (sound : Sound self) (recorded : Recorded self history) {index : Nat} {answer : Answer α}
    (stepped : step self (.completes index answer) = some next) :
    Recorded next (history.after self (.completes index answer)) := by
  obtain ⟨op,there,stepped⟩ := Option.bind_eq_some_iff.mp stepped
  have busy := (busy_completes sound there).1
  have under := recorded.silent (by
    have pending : self.state = .pending := busy.state
    simp [pending])
  have reading : Reading { self with operations := self.operations.eraseIdx index } history op.task (some op.stage) :=
    ⟨busy,under.same le_rfl rfl,recorded.waiting op (List.mem_of_getElem? there)⟩
  simp only [History.after,there]
  cases stage : op.stage with
  | connect =>
    rw [stage] at reading
    simp only [stage] at stepped
    cases answer with
    | error =>
      cases stepped
      exact reading.fails (.connect,.error) (by simp [startAsyncFail,StClient.drop,StClient.returns]) rfl rfl rfl rfl
    | connected =>
      cases stepped
      exact reading.opens.goesOn reading.opens.calls
    | result v => cases stepped
  | getInputs =>
    rw [stage] at reading
    simp only [stage] at stepped
    refine onStartAsyncReply_recorded reading (by simp) (fun applied replied reading => ?_) stepped
    exact reading.goesOn reading.calls
  | getOutputs =>
    rw [stage] at reading
    simp only [stage] at stepped
    refine onStartAsyncReply_recorded reading (by simp) (fun applied replied reading => ?_) stepped
    exact reading.goesOn reading.calls
  | getStats =>
    rw [stage] at reading
    simp only [stage] at stepped
    refine onStartAsyncReply_recorded reading (by simp) (fun applied replied reading => ?_) stepped
    exact reading.handles rfl

theorem returns_recorded (sound : Sound self) (recorded : Recorded self history)
    (stepped : step self .returns = some next) : Recorded next history := by
  simp only [step] at stepped
  split at stepped
  · cases stepped
  · rename_i frame frames there
    cases stepped
    have handling := recorded.handling frame (there ▸ List.mem_cons_self)
    cases frame with
    | cancelled =>
      cases sound.phase with
      | handling only state operations single done =>
        rw [single] at there
        obtain ⟨rfl,rfl⟩ := List.cons.inj there
        have under := recorded.silent (by simp [state])
        have dropped : Underway (StClient.drop { self with frames := [] }) history := under.same le_rfl rfl
        exact dropped.ends (by simp [StClient.drop]) operations (by simp [StClient.drop])
      | quiet state connection operations frames => simp [frames] at there
      | waiting op state connection operations frames done => simp [frames] at there
      | ready start state connection operations frames done => simp [frames] at there
    | statsApplied task cancellable =>
      obtain ⟨busy,connection,_⟩ := busy_returns sound there rfl
      have snapshot := handling task rfl
      have pending : self.state = .pending := busy.state
      have under := recorded.silent (by simp [pending])
      have reading : Reading { self with frames := frames } history task none := ⟨busy,under.same le_rfl rfl,snapshot⟩
      exact reading.goesOn (recorded_ready reading.under snapshot rfl connection busy.operations busy.frames rfl rfl)
    | startStats call =>
      obtain ⟨busy,connection,_⟩ := busy_returns sound there rfl
      have snapshot := handling call rfl
      have pending : self.state = .pending := busy.state
      have under := recorded.silent (by simp [pending])
      exact recorded_ready under snapshot rfl connection busy.operations busy.frames rfl rfl

/-- A signal is delivered to a client that is READY only. -/
theorem signal_recorded (sound : Sound self) (recorded : Recorded self history) {side : Core.Side} {obj : IoObject α}
    (stepped : step self (.signal side obj) = some next) : Recorded next (history.after self (.signal side obj)) := by
  simp only [step] at stepped
  split at stepped
  · rename_i subscribed
    cases stepped
    have ready : self.state = .ready := by
      by_contra unready
      obtain ⟨entry,member,same⟩ := List.any_eq_true.mp subscribed
      exact (recorded.silent unready).unsubscribed entry member _ (by simpa using same)
    obtain ⟨start,connection,mirror,snapshot,follows⟩ := recorded.ready ready
    cases sound.phase with
    | ready start' state connection' operations frames done =>
      refine ⟨recorded.fresh,by simp [operations],by simp [frames],?_,fun unready => absurd ready unready⟩
      refine fun _ => ⟨start,connection,mirror,snapshot,?_⟩
      simp only [Mirror.follows,History.after,List.foldl_append,List.foldl_cons,List.foldl_nil]
      rw [follows]
      rfl
    | quiet state =>
      rcases state with idle | failed
      · cases idle.symm.trans ready
      · cases failed.symm.trans ready
    | waiting op state => cases state.symm.trans ready
    | handling frame state => cases state.symm.trans ready
  · cases stepped

/-- Every step keeps it. -/
theorem step_recorded (sound : Sound self) (recorded : Recorded self history) {event : Event α}
    (stepped : step self event = some next) : Recorded next (history.after self event) := by
  cases event with
  | start answers => exact stClientStart_recorded sound recorded stepped
  | startAsync cancellable =>
    cases stepped
    exact stClientStartAsync_recorded sound recorded
  | cancel cancellable =>
    cases stepped
    exact recorded_same recorded rfl rfl rfl rfl le_rfl rfl rfl
  | completes index answer => exact completes_recorded sound recorded stepped
  | returns => exact returns_recorded sound recorded stepped
  | signal side obj => exact signal_recorded sound recorded stepped

/-- What holds of the handshakes of a client in every state. -/
structure Handshakes (client : StClient α) (history : History α) : Prop where
  alone : client.inFlight.length ≤ 1
  pending : client.frames = [] → (client.state = .pending ↔ client.inFlight ≠ [])
  /-- All three snapshots of one start have come and been applied, then the signals were subscribed to, and nothing else
  has changed the mirror since but the signals. -/
  ready : client.state = .ready → ∃ start, client.connection = some start ∧ LastDone client start handshake ∧
    ∃ mirror, FromReplies (history.of start) mirror ∧ client.mirror = mirror.follows history.signals
  /-- No signal is delivered before. -/
  silent : client.state ≠ .ready → history.signals = [] ∧ ∀ side, client.subscribedTo side = false
  disconnected : client.state = .idle ∨ client.state = .failed → client.connection = none
  once : ∀ start < client.starts, (client.results.map Prod.fst).count start = if start ∈ client.inFlight then 0 else 1
  success : ∀ result ∈ client.results, result.2 = true ↔ client.state = .ready ∧ client.connection = some result.1
  goesOn : client.inFlight ≠ [] → ∃ event next, event.isAnswer = true ∧ step client event = some next

/-- The start has failed: it has its result, and the client is left without a connection, with nothing in flight. -/
structure FailsWith (client : StClient α) (start : Nat) (next : StClient α) : Prop where
  state : next.state = .failed
  connection : next.connection = none
  inFlight : next.operations = [] ∧ next.frames = []
  results : next.results = client.results ++ [(start,false)]

/-- What holds of every step. -/
structure Moves (client : StClient α) (event : Event α) (next : StClient α) : Prop where
  /-- An error, or a reply of another type than the stage reads, fails the start and leaves the mirror as it is. -/
  malformed : ∀ index answer op, event = .completes index answer → client.operations[index]? = some op →
    answer.read op.stage = false → FailsWith client op.task next ∧ next.mirror = client.mirror
  /-- So it does in `st_client_start`, whichever of its calls it answers. -/
  malformedStart : ∀ answers, event = .start answers → ¬ (client.state = .pending ∨ client.state = .ready) →
    (∃ asked ∈ answers.asked, asked.2.read asked.1 = false) → FailsWith client client.starts next
  refused : event.isRequest = true → client.state = .pending ∨ client.state = .ready →
    next.state = client.state ∧ next.mirror = client.mirror ∧ next.results = client.results ++ [(client.starts,false)]
  ends : event.isAnswer = true → next.work < client.work
  stays : client.state = .ready → next.state = .ready ∧ next.connection = client.connection

theorem sound_handshakes (sound : Sound self) (recorded : Recorded self history) : Handshakes self history := by
  have once : ∀ start < self.starts,
      (self.results.map Prod.fst).count start + self.inFlight.count start = 1 := by
    intro start known
    rw [sound.accounted start,if_pos known]
  have settled : ∀ start < self.starts, self.inFlight.length ≤ 1 →
      (self.results.map Prod.fst).count start = if start ∈ self.inFlight then 0 else 1 := by
    intro start known alone
    have both := once start known
    split
    · rename_i due
      have positive := List.count_pos_iff.mpr due
      omega
    · rename_i settled
      rw [List.count_eq_zero_of_not_mem settled] at both
      exact both
  have silent : self.state ≠ .ready → history.signals = [] ∧ ∀ side, self.subscribedTo side = false := by
    intro unready
    have under := recorded.silent unready
    refine ⟨under.signals,fun side => ?_⟩
    simp only [StClient.subscribedTo,List.any_eq_false,beq_iff_eq]
    exact fun entry member => under.unsubscribed entry member _
  cases sound.phase with
  | quiet state connection operations frames =>
    have nothing : self.inFlight = [] := inFlight_eq operations frames
    have unstarted : self.state ≠ .pending ∧ self.state ≠ .ready := by
      rcases state with state | state <;> simp [state]
    refine ⟨by simp [nothing],fun _ => by simp [nothing,unstarted.1],fun ready => absurd ready unstarted.2,silent,
      fun _ => connection,fun start known => settled start known (by simp [nothing]),sound.success,
      fun due => absurd nothing due⟩
  | waiting op state connection operations frames done =>
    have one : self.inFlight = [op.task] := inFlight_eq operations frames
    refine ⟨by simp [one],fun _ => by simp [one,state],fun ready => by simp [state] at ready,silent,
      fun quiet => by simp [state] at quiet,fun start known => settled start known (by simp [one]),sound.success,fun _ => ?_⟩
    refine ⟨.completes 0 .error,?_⟩
    simp only [Event.isAnswer,step,operations,List.getElem?_cons_zero,Option.bind_some,true_and]
    cases op.stage <;> exact ⟨_,rfl⟩
  | handling frame state operations frames done =>
    have one : self.inFlight = [frame].filterMap Frame.start := inFlight_eq operations frames
    have alone : self.inFlight.length ≤ 1 := by
      rw [one]
      exact List.length_filterMap_le _ _
    refine ⟨alone,fun none => by simp [frames] at none,fun ready => by simp [state] at ready,silent,
      fun quiet => by simp [state] at quiet,fun start known => settled start known alone,sound.success,fun _ => ?_⟩
    exact ⟨.returns,frame.resume { self with frames := [] },rfl,by simp [step,frames]⟩
  | ready start state connection operations frames done =>
    have nothing : self.inFlight = [] := inFlight_eq operations frames
    obtain ⟨start',connection',mirror,snapshot,follows⟩ := recorded.ready state
    cases connection.symm.trans connection'
    refine ⟨by simp [nothing],fun _ => by simp [nothing,state],
      fun _ => ⟨start,connection,done,mirror,snapshot,follows⟩,silent,
      fun quiet => by simp [state] at quiet,fun start known => settled start known (by simp [nothing]),sound.success,
      fun due => absurd nothing due⟩

/-- A start that is refused gets its result, and that is all. -/
theorem refused_eq (event : Event α) (asks : event.isRequest = true) (busy : self.state = .pending ∨ self.state = .ready)
    (stepped : step self event = some next) :
    next = StClient.returns { self with starts := self.starts + 1 } self.starts false := by
  cases event with
  | start answers =>
    simp only [step,stClientStart,if_pos busy] at stepped
    exact (Option.some.inj stepped).symm
  | startAsync cancellable =>
    simp only [step,stClientStartAsync,if_pos busy] at stepped
    exact (Option.some.inj stepped).symm
  | cancel cancellable => cases asks
  | completes index answer => cases asks
  | returns => cases asks
  | signal side obj => cases asks

omit [Gdouble α] in
theorem startAsyncFail_failsWith (busy : Busy self task) : FailsWith self task (startAsyncFail self task) :=
  ⟨rfl,rfl,⟨busy.operations,busy.frames⟩,rfl⟩

/-- A reply that is not of the type fails the start. -/
theorem onStartAsyncReply_malformed (busy : Busy self task) {goOn : StClient α → StClient α} {answer : Answer α}
    (unread : answer.read stage = false)
    (stepped : onStartAsyncReply self task stage.applies mark goOn answer = some next) :
    FailsWith self task next ∧ next.mirror = self.mirror := by
  cases answer with
  | error =>
    cases stepped
    exact ⟨startAsyncFail_failsWith busy,rfl⟩
  | connected => cases stepped
  | result v =>
    obtain ⟨⟨applied,mirror⟩,made,rfl⟩ := Option.map_eq_some_iff.mp stepped
    rw [← (applies_read made).1] at unread
    cases unread
    exact ⟨startAsyncFail_failsWith busy,rfl⟩

theorem completes_malformed (sound : Sound self) {index : Nat} {answer : Answer α} {op : Operation}
    (there : self.operations[index]? = some op) (unread : answer.read op.stage = false)
    (stepped : step self (.completes index answer) = some next) :
    FailsWith self op.task next ∧ next.mirror = self.mirror := by
  have busy := (busy_completes sound there).1
  simp only [step,there,Option.bind_some] at stepped
  suffices ended : FailsWith { self with operations := self.operations.eraseIdx index } op.task next ∧
      next.mirror = self.mirror by
    exact ⟨⟨ended.1.state,ended.1.connection,ended.1.inFlight,ended.1.results⟩,ended.2⟩
  cases stage : op.stage with
  | connect =>
    rw [stage] at unread
    simp only [stage] at stepped
    cases answer with
    | error =>
      cases stepped
      exact ⟨⟨rfl,rfl,⟨busy.operations,busy.frames⟩,rfl⟩,rfl⟩
    | connected => cases unread
    | result v => cases stepped
  | getInputs =>
    rw [stage] at unread
    simp only [stage] at stepped
    exact onStartAsyncReply_malformed busy unread stepped
  | getOutputs =>
    rw [stage] at unread
    simp only [stage] at stepped
    exact onStartAsyncReply_malformed busy unread stepped
  | getStats =>
    rw [stage] at unread
    simp only [stage] at stepped
    exact onStartAsyncReply_malformed busy unread stepped

/-- One of the answers that `st_client_start` asks for is of another type. -/
theorem andThen_malformed {origin : StClient α} (busy : Busy self start) (same : self.results = origin.results)
    {goOn : StClient α → Option (StClient α)} {answers : Answers α} {rest : List Stage}
    (goes : ∀ applied, Busy applied start → applied.results = origin.results →
      (∃ asked ∈ answers.askedFrom rest, asked.2.read asked.1 = false) → goOn applied = some next →
        FailsWith origin start next)
    (malformed : ∃ asked ∈ answers.askedFrom (stage :: rest), asked.2.read asked.1 = false)
    (stepped : andThen start (callMethod self start stage.applies mark (answers.of stage)) goOn = some next) :
    FailsWith origin start next := by
  obtain ⟨⟨applied,called⟩,made,after⟩ := Option.bind_eq_some_iff.mp stepped
  have failed : FailsWith origin start (startFails self start) :=
    ⟨rfl,rfl,⟨busy.operations,busy.frames⟩,by simp [startFails,StClient.returns,same]⟩
  simp only [Answers.askedFrom] at malformed
  cases answer : answers.of stage with
  | error =>
    rw [answer] at made
    cases made
    cases after
    exact failed
  | connected =>
    rw [answer] at made
    cases made
  | result v =>
    rw [answer] at made malformed
    obtain ⟨⟨good,mirror⟩,applies,ends⟩ := Option.map_eq_some_iff.mp made
    have read := (applies_read applies).1
    cases good with
    | true =>
      cases ends
      have called : Busy (StClient.marks { self with mirror := mirror } start mark) start := busy.same rfl rfl rfl rfl rfl
      refine goes _ called same ?_ after
      rw [← read,if_pos rfl] at malformed
      obtain ⟨asked,member,unread⟩ := malformed
      rcases List.mem_cons.mp member with rfl | later
      · cases read.trans unread
      · exact ⟨asked,later,unread⟩
    | false =>
      cases ends
      cases after
      exact failed

theorem stClientStart_malformed (sound : Sound self) {answers : Answers α}
    (idle : ¬ (self.state = .pending ∨ self.state = .ready))
    (malformed : ∃ asked ∈ answers.asked, asked.2.read asked.1 = false) (stepped : stClientStart self answers = some next) :
    FailsWith self self.starts next := by
  have busy := (busy_starts sound idle).1
  simp only [stClientStart] at stepped
  rw [if_neg idle] at stepped
  split at stepped
  · rename_i connected
    have later : ∃ asked ∈ answers.askedFrom [.getInputs,.getOutputs,.getStats], asked.2.read asked.1 = false := by
      obtain ⟨asked,member,unread⟩ := malformed
      have first : answers.of .connect = .connected := by simp [Answers.of,connected]
      rw [Answers.asked,Answers.askedFrom,first] at member
      rcases List.mem_cons.mp member with rfl | member
      · cases unread
      · exact ⟨asked,member,unread⟩
    have opened : Busy (StClient.marks
        { self with starts := self.starts + 1, state := .pending, connection := some self.starts }
        self.starts .opened) self.starts := busy.same rfl rfl rfl rfl rfl
    refine andThen_malformed opened rfl ?_ later stepped
    intro withInputs busy same malformed stepped
    refine andThen_malformed busy same ?_ malformed stepped
    intro withOutputs busy same malformed stepped
    refine andThen_malformed busy same ?_ malformed stepped
    intro withStats busy same malformed
    obtain ⟨asked,member,_⟩ := malformed
    cases member
  · cases stepped
    exact ⟨rfl,rfl,⟨busy.operations,busy.frames⟩,rfl⟩

theorem step_moves (sound : Sound self) {event : Event α} (stepped : step self event = some next) :
    Moves self event next := by
  refine ⟨?_,?_,?_,?_,?_⟩
  · rintro index answer op rfl there unread
    exact completes_malformed sound there unread stepped
  · rintro answers rfl idle malformed
    exact stClientStart_malformed sound idle malformed stepped
  · intro asks busy
    rw [refused_eq event asks busy stepped]
    exact ⟨rfl,rfl,rfl⟩
  · intro answers
    cases event with
    | completes index answer => exact completes_work sound stepped
    | returns => exact returns_work sound stepped
    | start answers => cases answers
    | startAsync cancellable => cases answers
    | cancel cancellable => cases answers
    | signal side obj => cases answers
  · intro ready
    cases sound.phase with
    | ready start state connection operations frames done =>
      cases event with
      | start answers =>
        rw [refused_eq (.start answers) rfl (.inr ready) stepped]
        exact ⟨ready,rfl⟩
      | startAsync cancellable =>
        rw [refused_eq (.startAsync cancellable) rfl (.inr ready) stepped]
        exact ⟨ready,rfl⟩
      | cancel cancellable =>
        cases stepped
        exact ⟨ready,rfl⟩
      | completes index answer => simp [step,operations] at stepped
      | returns => simp [step,frames] at stepped
      | signal side obj =>
        simp only [step] at stepped
        split at stepped
        · cases stepped
          exact ⟨ready,rfl⟩
        · cases stepped
    | quiet state =>
      rcases state with idle | failed
      · cases idle.symm.trans ready
      · cases failed.symm.trans ready
    | waiting op state => cases state.symm.trans ready
    | handling frame state => cases state.symm.trans ready

omit [Gdouble α] in
theorem stClientNew_sound (stats : Stats α) : Sound (stClientNew stats) := by
  refine ⟨.quiet (.inl rfl) rfl rfl rfl,?_,?_⟩
  · intro start
    simp [stClientNew,StClient.inFlight]
  · simp [stClientNew]

theorem stClientNew_recorded (stats : Stats α) : Recorded (stClientNew stats) ⟨[],[]⟩ := by
  have under : Underway (stClientNew stats) ⟨[],[]⟩ := ⟨by simp,rfl,by simp [stClientNew]⟩
  exact under.ends (by simp [stClientNew]) rfl (by simp [stClientNew])

/-- The steps of the client, with the history beside it. -/
theorem recordedStep_keeps (before : StClient α × History α) (event : Event α) (after : StClient α × History α)
    (kept : Sound before.1 ∧ Recorded before.1 before.2) (stepped : recordedStep before event = some after) :
    Sound after.1 ∧ Recorded after.1 after.2 := by
  obtain ⟨next,moved,rfl⟩ := Option.map_eq_some_iff.mp stepped
  exact ⟨step_sound before.1 event next kept.1 moved,step_recorded kept.1 kept.2 moved⟩

/-- In every interleaving of starts, cancellations, answers and handlers of the user. -/
theorem run_handshakes {stats : Stats α} {events : List (Event α)} {last : StClient α × History α}
    (ran : run recordedStep (stClientNew stats,⟨[],[]⟩) events = some last) :
    Handshakes last.1 last.2 ∧ ∀ event next, step last.1 event = some next → Moves last.1 event next := by
  obtain ⟨sound,recorded⟩ := run_preserves recordedStep_keeps events _ _
    ⟨stClientNew_sound stats,stClientNew_recorded stats⟩ ran
  exact ⟨sound_handshakes sound recorded,fun event next stepped => step_moves sound stepped⟩

end

private def stillEntry : StatsEntry ℚ := ⟨0,0,0⟩

private def noStats (name : String) : Stats ℚ :=
  ⟨name,stillEntry,stillEntry,stillEntry,stillEntry,stillEntry,stillEntry,stillEntry,stillEntry,stillEntry⟩

private def door (val : ℚ) : IoObject ℚ := ⟨"door","",0,0,1,1,val,0⟩

private def lamp : IoObject ℚ := ⟨"lamp","",0,0,10,1,4,0⟩

private def snapshotOf (start : Nat) : List (Nat × Stage × Value ℚ) :=
  [(start,.getInputs,.objects [door 0]),(start,.getOutputs,.objects [lamp])]

/-- GetInputs is answered with statistics; then a handshake is cancelled between two replies, and
    while its user is told so asks in vain for another; a third gets statistics for GetOutputs. The
    next one makes the client READY, the door opens, and a last start is refused. -/
private def restarted : List (Event ℚ) :=
  [.startAsync none,.completes 0 .connected,.completes 0 (.result (.stats (noStats "peer"))),
    .startAsync (some 7),.completes 0 .connected,.completes 0 (.result (.objects [door 0])),.cancel 7,
    .completes 0 (.result (.objects [lamp])),.startAsync none,.returns,
    .start ⟨true,.result (.objects [door 0]),.result (.stats (noStats "peer")),.error⟩,
    .startAsync none,.completes 0 .connected,.completes 0 (.result (.objects [door 0])),
    .completes 0 (.result (.objects [lamp])),.completes 0 (.result (.stats (noStats "peer"))),.returns,
    .signal .input (door 1),.start ⟨true,.error,.error,.error⟩]

private def restartedClient : StClient ℚ where
  state := .ready
  connection := some 4
  startCancellable := none
  mirror := ⟨[door 1],[lamp],noStats "peer"⟩
  operations := []
  frames := []
  cancelled := [7]
  starts := 6
  results := [(0,false),(1,false),(2,false),(3,false),(4,true),(5,false)]
  log := [(0,.opened),(1,.opened),(1,.inputs),(1,.outputs),(3,.opened),(3,.inputs)] ++ handshake.map (4,·)

private def restartedHistory : History ℚ where
  replies := [(0,.getInputs,.stats (noStats "peer"))] ++ snapshotOf 1 ++
    [(3,.getInputs,.objects [door 0]),(3,.getOutputs,.stats (noStats "peer"))] ++
    snapshotOf 4 ++ [(4,.getStats,.stats (noStats "peer"))]
  signals := [(.input,door 1)]

theorem run_handshakes_restarted :
    Handshakes restartedClient restartedHistory ∧
      ∀ event next, step restartedClient event = some next → Moves restartedClient event next :=
  run_handshakes (show run recordedStep (stClientNew (noStats "noname"),⟨[],[]⟩) restarted =
    some (restartedClient,restartedHistory) by decide +kernel)

end Starter.Starts
