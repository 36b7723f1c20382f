import Mathlib.Data.List.Basic
import Starter.Lib.Tables
import Starter.Lib.Runs
import Starter.Peers

/-!
The Core (`src/main.c` and `src/mdns.c`) without the debug server: the tables of its
clients, of the starts that are pending and of all inputs and outputs, the handlers of
its events, and the handlers of the messages of its clients (`lib/client.c`). One event
is handled at a time; what it makes of the engine is part of its handling. The history
database is not modelled.
-/
namespace Starter.Core
open Objects Expressions Rules Peers Lib.Tables

variable {α W : Type}

/-- The arrays of `STClientPrivate`. -/
structure Client (α : Type) where
  inputs : List (IoObject α)
  outputs : List (IoObject α)
deriving DecidableEq

/-- `ClientInputMap` and `ClientOutputMap`. -/
structure ClientMap where
  client : Nat
  index : Nat
deriving DecidableEq

/-- `PendingClient`, but for what it keeps for the debug server. -/
structure PendingClient where
  name : String
  client : Nat
deriving DecidableEq

/-- A start whose completion has not been delivered: the client, the record that it will
    be given, and whether `pending_client_free` has freed that record meanwhile. -/
structure Attempt where
  client : Nat
  record : Nat
  removed : Bool
deriving DecidableEq

/-- What the Core has beside its engine. Clients and records are given by their
    addresses; `heap` has the records that are allocated. -/
structure Registry (α : Type) where
  objs : Nat → Client α
  clients : List (String × Nat)
  heap : Nat → Option PendingClient
  pendingClients : String → Option Nat
  attempts : List Attempt
  allInputs : String → Option ClientMap
  allOutputs : String → Option ClientMap

/-- The inputs and the outputs of a client, whose code is the same. -/
inductive Side
  | input
  | output
deriving DecidableEq

def Client.array (self : Client α) : Side → List (IoObject α)
  | .input => self.inputs
  | .output => self.outputs

def Client.withArray (self : Client α) (array : List (IoObject α)) : Side → Client α
  | .input => { self with inputs := array }
  | .output => { self with outputs := array }

/-- `all_inputs` or `all_outputs`. -/
def Registry.table (self : Registry α) : Side → String → Option ClientMap
  | .input => self.allInputs
  | .output => self.allOutputs

/-- The entries that `foreach_add_inputs` and `foreach_add_outputs` insert. -/
def foreachAdd (client : Nat) (array : List (IoObject α)) : List (String × ClientMap) :=
  array.zipIdx.map fun item => (item.1.name,⟨client,item.2⟩)

/-- `st_core_setup_inputs_hash_table` and `st_core_setup_outputs_hash_table`, on the
    clients in the order in which `g_hash_table_foreach` comes to them. -/
def setupHashTable (objs : Nat → Client α) (side : Side) (order : List (String × Nat)) : String → Option ClientMap :=
  order.foldl (fun table entry => insertAll table (foreachAdd entry.2 ((objs entry.2).array side))) fun _ => none

/-- The reads `pdata[cmap->index]` of the evaluator and of `assign_apply`. -/
def Registry.read (self : Registry α) (side : Side) (cmap : ClientMap) : Option (IoObject α) :=
  ((self.objs cmap.client).array side)[cmap.index]?

/-- The mirrored objects as the engine sees them. -/
def Registry.io (self : Registry α) : Io α :=
  ⟨fun id => (self.allInputs id).bind (self.read .input),fun id => (self.allOutputs id).bind (self.read .output)⟩

/-- The clients that the engine calls. -/
def Registry.routes (self : Registry α) : Routes :=
  ⟨fun id => (self.allInputs id).map ClientMap.client,fun id => (self.allOutputs id).map ClientMap.client⟩

/-- The orders in which the two tables are rebuilt. -/
structure Orders where
  inputs : List (String × Nat)
  outputs : List (String × Nat)

/-- Both tables made anew. -/
def Registry.rebuild (self : Registry α) (orders : Orders) : Registry α :=
  { self with
    allInputs := setupHashTable self.objs .input orders.inputs
    allOutputs := setupHashTable self.objs .output orders.outputs }

/-- The record is freed. -/
def Registry.free (self : Registry α) (record : Nat) : Registry α :=
  { self with
    heap := Function.update self.heap record none
    attempts := self.attempts.map fun attempt =>
      if attempt.record = record then { attempt with removed := true } else attempt }

/-- `g_hash_table_steal` on `pending_clients`. -/
def Registry.steal (self : Registry α) (name : String) : Registry α :=
  { self with pendingClients := Function.update self.pendingClients name none }

/-- `g_hash_table_remove` on `pending_clients`, which frees the record. -/
def Registry.removePending (self : Registry α) (name : String) : Registry α :=
  match self.pendingClients name with
  | none => self
  | some record => (self.steal name).free record

/-- `g_hash_table_contains` on `clients`. -/
def Registry.containsClient (self : Registry α) (name : String) : Bool := self.clients.any fun entry => entry.1 == name

/-- `g_hash_table_remove` on `clients`. -/
def Registry.removeClient (self : Registry α) (name : String) : Registry α :=
  { self with clients := self.clients.filter fun entry => entry.1 != name }

/-- `g_hash_table_insert` on `clients`. -/
def Registry.insertClient (self : Registry α) (name : String) (client : Nat) : Registry α :=
  { self with clients := (name,client) :: (self.removeClient name).clients }

/-- The order is one in which the clients can be visited. -/
def Registry.fits (self : Registry α) (orders : Orders) : Bool :=
  orders.inputs.isPerm self.clients && orders.outputs.isPerm self.clients

/-- A call of `engine_apply`: what it ran on, and the engine before it and after it. -/
structure Call (α W : Type) where
  registry : Registry α
  key : Option String
  before : EngineState α W
  after : EngineState α W

/-- The Core, with the calls of `engine_apply` that it has made; `hung` when one of them
    has not returned. -/
structure StCore (α W : Type) where
  registry : Registry α
  engine : EngineState α W
  calls : List (Call α W)
  hung : Bool

/-- What a Core is given: its rules, its connections, how deep expressions and calls of
    the engine may nest, and the pattern of the names of services. -/
structure Setup (α W : Type) where
  engine : Engine α
  bus : Routes → Bus α W
  depth : Nat
  nesting : Nat
  srvmatch : String → Bool

def StCore.withRegistry (self : StCore α W) (registry : Registry α) : StCore α W := { self with registry := registry }

/-- An object of a client gets other contents. -/
def StCore.write (self : StCore α W) (side : Side) (client index : Nat) (obj : IoObject α) : StCore α W :=
  let old := self.registry.objs client
  self.withRegistry { self.registry with
    objs := Function.update self.registry.objs client (old.withArray ((old.array side).set index obj) side) }

/-- What the engine of a Core runs on. -/
def Setup.env (setup : Setup α W) (registry : Registry α) : Env α W := ⟨registry.io,setup.bus registry.routes,setup.depth⟩

section
variable [Gdouble α] [DecidableEq α]

/-- The Core calls `engine_apply`. -/
def StCore.apply (setup : Setup α W) (key : Option String) (self : StCore α W) : StCore α W :=
  let result := engineApply (setup.env self.registry) setup.engine setup.nesting key self.engine
  { self with
    engine := result.state
    calls := self.calls ++ [⟨self.registry,key,self.engine,result.state⟩]
    hung := !result.returns }

/-- The handlers of the signals a setter raises, one after the other: of those that the
    Core connects to, "val-changed" alone is one of an object, and its handlers are
    `st_core_input_changed_callback` and `st_core_output_changed_callback`. -/
def StCore.raised (setup : Setup α W) (side : Side) (client index : Nat) :
    List (IoSignal × IoObject α) → StCore α W → StCore α W
  | [], self => self
  | (signal,seen) :: rest, self =>
    if self.hung then self
    else
      let self := self.write side client index seen
      StCore.raised setup side client index rest (if signal = .valChanged then self.apply setup (some seen.name) else self)

/-- A setter is called on an object of a client. -/
def StCore.set (setup : Setup α W) (side : Side) (client index : Nat) (setter : IoObject α → Update α)
    (self : StCore α W) : StCore α W :=
  if self.hung then self
  else
    match self.registry.read side ⟨client,index⟩ with
    | none => self
    | some obj =>
      let update := setter obj
      let self := self.raised setup side client index update.emitted
      if self.hung then self else self.write side client index update.obj

/-- The word that the errors of `st_input_set_step` and `st_output_set_step` start with. -/
def Side.word : Side → String
  | .input => "input"
  | .output => "output"

/-- The setters that the handlers of the messages call, in their order. -/
def setters (side : Side) (message : IoObject α) : List (IoObject α → Update α) :=
  [(ioSetDescription · message.descr),(ioSetUnit · message.unit),(ioSetMin · message.min),(ioSetMax · message.max),
    (ioSetStep side.word · message.step),(ioSetVal · message.val),(ioSetFlags · message.flags)]

/-- The place in the client's array that the handler of the message finds. -/
def place (registry : Registry α) (side : Side) (client : Nat) (message : IoObject α) : Option Nat :=
  ((registry.objs client).array side).findIdx? fun obj => message.name == obj.name

/-- The object after the setters. -/
def afterSetters (list : List (IoObject α → Update α)) (obj : IoObject α) : IoObject α :=
  list.foldl (fun obj setter => (setter obj).obj) obj

/-- `handle_input_changed_signal` and `handle_output_changed_signal`. -/
def StCore.handleChanged (setup : Setup α W) (side : Side) (client : Nat) (message : IoObject α)
    (self : StCore α W) : StCore α W :=
  match ((self.registry.objs client).array side).findIdx? fun obj => message.name == obj.name with
  | none => self
  | some index => (setters side message).foldl (fun self setter => self.set setup side client index setter) self

/-- `register_ready_client`. -/
def StCore.registerReadyClient (setup : Setup α W) (name : String) (client : Nat) (orders : Orders)
    (self : StCore α W) : Option (StCore α W) :=
  let registry := self.registry.insertClient name client
  if registry.fits orders then some ((self.withRegistry (registry.rebuild orders)).apply setup none) else none

/-- The arrays of a client as the snapshots of its start have filled them. -/
def Registry.load (self : Registry α) (client : Nat) (loaded : Client α) : Registry α :=
  { self with objs := Function.update self.objs client loaded }

/-- `on_client_start_finished` with the given record; `none` when it is not allocated,
    for reading it has no meaning then. -/
def StCore.onClientStartFinished (setup : Setup α W) (record : Nat) (success : Bool) (loaded : Client α) (orders : Orders)
    (self : StCore α W) : Option (StCore α W) :=
  match self.registry.heap record with
  | none => none
  | some pending =>
    if self.registry.pendingClients pending.name ≠ some record then some self
    else if success then
      let registry := (self.registry.steal pending.name).load pending.client loaded
      ((self.withRegistry registry).registerReadyClient setup pending.name pending.client orders).map fun self =>
        if self.hung then self else self.withRegistry (self.registry.free record)
    else some (self.withRegistry (self.registry.removePending pending.name))

/-- `on_mdns_service_removed`. -/
def StCore.onMdnsServiceRemoved (name : String) (orders : Orders) (self : StCore α W) : Option (StCore α W) :=
  let registry := self.registry.removePending name
  if registry.containsClient name then
    let registry := registry.removeClient name
    if registry.fits orders then some (self.withRegistry (registry.rebuild orders)) else none
  else some (self.withRegistry registry)

/-- `on_mdns_service_added`, which allocates a record and a client where there is none. -/
def StCore.onMdnsServiceAdded (setup : Setup α W) (name : String) (record client : Nat)
    (self : StCore α W) : Option (StCore α W) :=
  let registry := self.registry
  if setup.srvmatch name && !registry.containsClient name && (registry.pendingClients name).isNone then
    if (registry.heap record).isNone && registry.clients.all (fun entry => entry.2 != client) &&
        registry.attempts.all (fun attempt => attempt.client != client) then
      some (self.withRegistry { registry with
        objs := Function.update registry.objs client ⟨[],[]⟩
        heap := Function.update registry.heap record (some ⟨name,client⟩)
        pendingClients := Function.update registry.pendingClients name (some record)
        attempts := registry.attempts ++ [⟨client,record,false⟩] })
    else none
  else some self

/-- What the main loop of the Core dispatches. The completion of a start is given by its
    place among those to be delivered, with the answer of `st_client_start_finish` and
    with what the snapshots have put into the arrays of the client. -/
inductive Event (α W : Type)
  | serviceAdded (name : String) (record client : Nat)
  | serviceRemoved (name : String) (orders : Orders)
  | startFinished (place : Nat) (success : Bool) (loaded : Client α) (orders : Orders)
  | message (client : Nat) (message : Message α)
  /-- The peers do something of their own. -/
  | peersAct (peers : W)

/-- The completion at the place is on its way no more. -/
def Registry.complete (self : Registry α) (place : Nat) : Registry α :=
  { self with attempts := self.attempts.eraseIdx place }

/-- One event. The completion of an attempt whose record was freed is ignored. -/
def step (setup : Setup α W) (self : StCore α W) (event : Event α W) : Option (StCore α W) :=
  if self.hung then none
  else
    match event with
    | .serviceAdded name record client => self.onMdnsServiceAdded setup name record client
    | .serviceRemoved name orders => self.onMdnsServiceRemoved name orders
    | .startFinished place success loaded orders =>
      match self.registry.attempts[place]? with
      | none => none
      | some attempt =>
        let self := self.withRegistry (self.registry.complete place)
        if attempt.removed then some self
        else self.onClientStartFinished setup attempt.record success loaded orders
    | .message client (.inputChanged obj) =>
      if self.registry.clients.any (fun entry => entry.2 == client) then
        some (self.handleChanged setup .input client obj)
      else none
    | .message client (.outputChanged obj) =>
      if self.registry.clients.any (fun entry => entry.2 == client) then
        some (self.handleChanged setup .output client obj)
      else none
    | .peersAct peers => some { self with engine := { self.engine with peers := peers } }

end

/-- A Core that has just been started. -/
def start (engine : EngineState α W) : StCore α W :=
  ⟨⟨fun _ => ⟨[],[]⟩,[],fun _ => none,fun _ => none,[],fun _ => none,fun _ => none⟩,engine,[],false⟩

theorem withArray_array (self : Client α) (array : List (IoObject α)) (side other : Side) :
    (self.withArray array side).array other = if other = side then array else self.array other := by
  cases side <;> cases other <;> rfl

/-- The object at a place of a client's array is another one, and no other object is. -/
theorem write_read (core : StCore α W) (side other : Side) (client index : Nat) (obj : IoObject α) (cmap : ClientMap) :
    (core.write side client index obj).registry.read other cmap =
      if other = side ∧ cmap = ⟨client,index⟩ then (core.registry.read side cmap).map fun _ => obj
      else core.registry.read other cmap := by
  obtain ⟨owner,place⟩ := cmap
  simp only [Registry.read,StCore.write,StCore.withRegistry,ClientMap.mk.injEq]
  by_cases here : owner = client
  · subst here
    rw [Function.update_self,withArray_array]
    by_cases same : other = side
    · subst same
      by_cases at_index : place = index
      · subst at_index
        simp only [if_true,List.getElem?_set_self',and_self]
        rfl
      · simp [at_index,List.getElem?_set_ne (Ne.symm at_index)]
    · simp [same]
  · simp [here]

/-- The registries differ in what the objects of the clients hold. -/
def SameTables (registry later : Registry α) : Prop := ∃ objs, later = { registry with objs := objs }

theorem SameTables.trans {first second third : Registry α} (one : SameTables first second)
    (two : SameTables second third) : SameTables first third := by
  obtain ⟨_,rfl⟩ := one
  obtain ⟨objs,rfl⟩ := two
  exact ⟨objs,rfl⟩

section
variable [Gdouble α] [DecidableEq α] (setup : Setup α W) (side : Side) (client index : Nat)

private theorem raised_tables (raised : List (IoSignal × IoObject α)) (core : StCore α W) :
    SameTables core.registry (core.raised setup side client index raised).registry := by
  induction raised generalizing core with
  | nil => exact ⟨_,rfl⟩
  | cons first rest ih =>
    simp only [StCore.raised]
    split
    · exact ⟨_,rfl⟩
    · have written : SameTables core.registry (core.write side client index first.2).registry := ⟨_,rfl⟩
      split
      · exact written.trans (ih ((core.write side client index first.2).apply setup (some first.2.name)))
      · exact written.trans (ih _)

theorem set_tables (setter : IoObject α → Update α) (core : StCore α W) :
    SameTables core.registry (core.set setup side client index setter).registry := by
  unfold StCore.set
  split
  · exact ⟨_,rfl⟩
  · split
    · exact ⟨_,rfl⟩
    · rename_i obj _
      have raised := raised_tables setup side client index (setter obj).emitted core
      simp only
      split
      · exact raised
      · exact raised.trans ⟨_,rfl⟩

/-- A message leaves the tables. -/
theorem handleChanged_tables (message : IoObject α) (core : StCore α W) :
    SameTables core.registry (core.handleChanged setup side client message).registry := by
  unfold StCore.handleChanged
  split
  · exact ⟨_,rfl⟩
  · rename_i index found
    clear found
    generalize setters side message = list
    induction list generalizing core with
    | nil => exact ⟨_,rfl⟩
    | cons setter rest ih => exact (set_tables setup side client index setter core).trans (ih _)

end

end Starter.Core
