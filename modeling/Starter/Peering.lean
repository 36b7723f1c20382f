import Starter.Mdns
import Starter.Starts

/-!
How the Core finds its peers (`src/mdns.c`): a service that is announced is connected to, and
the debug server is told of each change. What the handlers make of the engine is in
`Starter.Core`; here are the addresses they connect to and the table of the debug server.
-/
namespace Starter.Peering
open Lib.Runs Mdns Starts

/-- `PendingClient`. Each has a client of its own. -/
structure PendingClient where
  name : String
  address : String
  port : UInt16
  client : Nat
deriving DecidableEq

/-- A start whose completion has not been delivered, with the record that it will be given,
    and whether `pending_client_free` has freed that record meanwhile. -/
structure Attempt where
  pending : PendingClient
  removed : Bool
deriving DecidableEq

/-- The address of a call of `st_client_start_async`. -/
structure Endpoint where
  address : String
  port : UInt16
deriving DecidableEq

/-- `DebugPeer`. -/
structure DebugPeer where
  address : String
  port : UInt16
  state : ClientState
deriving DecidableEq

/-- The signal `PeerChanged`. -/
structure PeerChanged where
  name : String
  address : String
  port : UInt16
  state : ClientState
  event : String
deriving DecidableEq

/-- `STCoreDebugPrivate`, as far as peers go. -/
structure CoreDebug where
  peers : String → Option DebugPeer
  sent : List PeerChanged

/-- `STCore`, as far as peers go. The calls of `st_client_start_async` are recorded in their
    order; clients are numbered by it. -/
structure StCore where
  pendingClients : String → Option PendingClient
  clients : String → Option Nat
  attempts : List Attempt
  started : List Endpoint
  debug : Option CoreDebug

/-- `peers_upsert`. -/
def peersUpsert (peers : String → Option DebugPeer) (name address : String) (port : UInt16) (state : ClientState) :
    String → Option DebugPeer :=
  Function.update peers name (some ⟨address,port,state⟩)

/-- The address and port that a removal without an address is announced with. -/
def knownEndpoint (peers : String → Option DebugPeer) (name address : String) (port : UInt16) : Endpoint :=
  match peers name with
  | some existing => if address = "" then ⟨existing.address,existing.port⟩ else ⟨address,port⟩
  | none => ⟨address,port⟩

/-- `st_core_debug_emit_peer_changed`. -/
def CoreDebug.emitPeerChanged (self : CoreDebug) (name address : String) (port : UInt16) (state : ClientState)
    (event : String) : CoreDebug :=
  if event = "removed" ∨ event = "failed" then
    { peers := Function.update self.peers name none
      sent := self.sent ++
        [⟨name,(knownEndpoint self.peers name address port).address,(knownEndpoint self.peers name address port).port,
          state,event⟩] }
  else
    { peers := peersUpsert self.peers name address port state
      sent := self.sent ++ [⟨name,address,port,state,event⟩] }

/-- `handle_list_peers`: what is reported of a name. -/
def CoreDebug.listPeers (self : CoreDebug) (name : String) : Option DebugPeer := self.peers name

/-- Where the Core has a debug server it is told. -/
def StCore.emitPeerChanged (self : StCore) (name address : String) (port : UInt16) (state : ClientState)
    (event : String) : StCore :=
  { self with debug := self.debug.map fun debug => debug.emitPeerChanged name address port state event }

/-- `g_hash_table_steal` on `pending_clients`. -/
def StCore.steal (self : StCore) (name : String) : StCore :=
  { self with pendingClients := Function.update self.pendingClients name none }

/-- `g_hash_table_remove` on `pending_clients`, which frees the record. -/
def StCore.removePending (self : StCore) (name : String) : StCore :=
  match self.pendingClients name with
  | none => self
  | some pending =>
    { self.steal name with
      attempts := self.attempts.map fun attempt =>
        if attempt.pending = pending then { attempt with removed := true } else attempt }

/-- `register_ready_client`. -/
def StCore.registerReadyClient (self : StCore) (name : String) (client : Nat) (address : String) (port : UInt16) :
    StCore :=
  StCore.emitPeerChanged { self with clients := Function.update self.clients name (some client) } name address port
    .ready "ready"

/-- `on_client_start_finished`. -/
def StCore.onClientStartFinished (self : StCore) (pending : PendingClient) (success : Bool) : StCore :=
  if self.pendingClients pending.name ≠ some pending then self
  else if success then
    (self.steal pending.name).registerReadyClient pending.name pending.client pending.address pending.port
  else
    (self.emitPeerChanged pending.name pending.address pending.port .failed "failed").removePending pending.name

/-- The first half of `on_mdns_service_removed`. -/
def StCore.dropPending (self : StCore) (name : String) : StCore :=
  match self.pendingClients name with
  | none => self
  | some pending => (self.emitPeerChanged name pending.address pending.port .failed "removed").removePending name

/-- The second half. -/
def StCore.dropClient (self : StCore) (name : String) : StCore :=
  match self.clients name with
  | none => self
  | some _ =>
    { self.emitPeerChanged name "" 0 .failed "removed" with clients := Function.update self.clients name none }

/-- `on_mdns_service_removed`. -/
def StCore.onMdnsServiceRemoved (self : StCore) (name : String) : StCore := (self.dropPending name).dropClient name

/-- The record that `on_mdns_service_added` makes. -/
def StCore.newPending (self : StCore) (service : Service) : PendingClient :=
  ⟨service.name,service.address,service.port,self.started.length⟩

/-- `on_mdns_service_added` with the pattern `srvmatch`. -/
def StCore.onMdnsServiceAdded (srvmatch : String → Bool) (self : StCore) (service : Service) : StCore :=
  if srvmatch service.name && (self.clients service.name).isNone && (self.pendingClients service.name).isNone then
    StCore.emitPeerChanged
      { self with
        pendingClients := Function.update self.pendingClients service.name (some (self.newPending service))
        attempts := self.attempts ++ [⟨self.newPending service,false⟩]
        started := self.started ++ [⟨service.address,service.port⟩] }
      service.name service.address service.port .pending "connecting"
  else self

/-- The signals of STMDNS, and the completion of a start, given by its place among those to be
    delivered, with the answer of `st_client_start_finish`. -/
inductive Event
  | serviceAdded (service : Service)
  | startFinished (place : Nat) (success : Bool)
  | serviceRemoved (name : String)
deriving DecidableEq

/-- One event. The completion of an attempt whose record was freed is ignored. -/
def step (srvmatch : String → Bool) (self : StCore) : Event → Option StCore
  | .serviceAdded service => some (self.onMdnsServiceAdded srvmatch service)
  | .startFinished place success =>
    (self.attempts[place]?).map fun attempt =>
      if attempt.removed then { self with attempts := self.attempts.eraseIdx place }
      else StCore.onClientStartFinished { self with attempts := self.attempts.eraseIdx place } attempt.pending success
  | .serviceRemoved name => some (self.onMdnsServiceRemoved name)

/-- A Core that has just been started, with the debug server or without. -/
def start (debug : Option CoreDebug) : StCore := ⟨fun _ => none,fun _ => none,[],[],debug⟩

def coreDebugNew : CoreDebug := ⟨fun _ => none,[]⟩

/-! ### What the handlers make of the tables -/

section
variable {srvmatch : String → Bool} {self next : StCore} {name : String} {pending : PendingClient}

/-- The entry of a name in the table of the debug server is made of what it is told last. -/
theorem emitPeerChanged_peers (debug : CoreDebug) (name address : String) (port : UInt16) (state : ClientState)
    (event : String) :
    (debug.emitPeerChanged name address port state event).peers = Function.update debug.peers name
      (if event = "removed" ∨ event = "failed" then none else some ⟨address,port,state⟩) := by
  unfold CoreDebug.emitPeerChanged
  split <;> rfl

theorem removePending_eq (self : StCore) (name : String) : ∃ attempts,
    self.removePending name =
      ⟨Function.update self.pendingClients name none,self.clients,attempts,self.started,self.debug⟩ := by
  unfold StCore.removePending
  split
  next absent =>
    have same : Function.update self.pendingClients name none = self.pendingClients :=
      Function.update_eq_self_iff.mpr absent.symm
    exact ⟨self.attempts,by rw [same]⟩
  next => exact ⟨_,rfl⟩

/-- A removal takes the name out of both tables, and out of that of the debug server where it
    was in one of them. -/
theorem onMdnsServiceRemoved_eq (self : StCore) (name : String) : ∃ attempts debug,
    self.onMdnsServiceRemoved name =
      ⟨Function.update self.pendingClients name none,Function.update self.clients name none,attempts,self.started,
        debug⟩ ∧
    ∀ before, self.debug = some before → ∃ after, debug = some after ∧
      (after.peers = Function.update before.peers name none ∨
        self.pendingClients name = none ∧ self.clients name = none ∧ after.peers = before.peers) := by
  have emitted : ∀ (debug : CoreDebug) (address : String) (port : UInt16),
      (debug.emitPeerChanged name address port .failed "removed").peers = Function.update debug.peers name none :=
    fun debug address port => by rw [emitPeerChanged_peers,if_pos (.inl rfl)]
  unfold StCore.onMdnsServiceRemoved StCore.dropPending
  cases pends : self.pendingClients name with
  | none =>
    have same : Function.update self.pendingClients name none = self.pendingClients :=
      Function.update_eq_self_iff.mpr pends.symm
    rw [same]
    unfold StCore.dropClient
    cases connected : self.clients name with
    | none =>
      have same : Function.update self.clients name none = self.clients := Function.update_eq_self_iff.mpr connected.symm
      exact ⟨self.attempts,self.debug,by simp only [same],fun before is => ⟨before,is,.inr ⟨rfl,rfl,rfl⟩⟩⟩
    | some client =>
      refine ⟨self.attempts,_,rfl,fun before is => ⟨_,by simp only [StCore.emitPeerChanged,is]; rfl,.inl ?_⟩⟩
      exact emitted before "" 0
  | some pending =>
    obtain ⟨attempts,removes⟩ :=
      removePending_eq (self.emitPeerChanged name pending.address pending.port .failed "removed") name
    simp only [removes]
    unfold StCore.dropClient
    cases connected : self.clients name with
    | none =>
      have same : Function.update self.clients name none = self.clients := Function.update_eq_self_iff.mpr connected.symm
      refine ⟨attempts,_,by simp only [StCore.emitPeerChanged,connected,same]; rfl,fun before is => ?_⟩
      refine ⟨_,by simp only [is]; rfl,.inl ?_⟩
      exact emitted before pending.address pending.port
    | some client =>
      refine ⟨attempts,_,by simp only [StCore.emitPeerChanged,connected]; rfl,fun before is => ?_⟩
      refine ⟨_,by simp only [is]; rfl,.inl ?_⟩
      rw [emitted,emitted,Function.update_idem]

/-- What an event makes of the tables and of the debug server. -/
inductive Moves (srvmatch : String → Bool) (self : StCore) : Event → StCore → Prop
  | known (service : Service)
      (known : srvmatch service.name = true →
        self.clients service.name ≠ none ∨ self.pendingClients service.name ≠ none) :
      Moves srvmatch self (.serviceAdded service) self
  | connects (service : Service) (attempts : List Attempt) (wanted : srvmatch service.name = true)
      (unconnected : self.clients service.name = none) (idle : self.pendingClients service.name = none) :
      Moves srvmatch self (.serviceAdded service)
        ⟨Function.update self.pendingClients service.name (some (self.newPending service)),self.clients,attempts,
          self.started ++ [⟨service.address,service.port⟩],
          self.debug.map fun debug =>
            debug.emitPeerChanged service.name service.address service.port .pending "connecting"⟩
  | late (place : Nat) (success : Bool) (attempts : List Attempt)
      (ignored : ∀ attempt, self.attempts[place]? = some attempt →
        attempt.removed = true ∨ self.pendingClients attempt.pending.name ≠ some attempt.pending) :
      Moves srvmatch self (.startFinished place success) { self with attempts := attempts }
  | ready (place : Nat) (attempts : List Attempt) (pending : PendingClient)
      (is : self.pendingClients pending.name = some pending) : Moves srvmatch self (.startFinished place true)
        ⟨Function.update self.pendingClients pending.name none,
          Function.update self.clients pending.name (some pending.client),attempts,self.started,
          self.debug.map fun debug => debug.emitPeerChanged pending.name pending.address pending.port .ready "ready"⟩
  | failed (place : Nat) (attempts : List Attempt) (pending : PendingClient)
      (there : self.attempts[place]? = some ⟨pending,false⟩) (is : self.pendingClients pending.name = some pending) :
      Moves srvmatch self (.startFinished place false)
        ⟨Function.update self.pendingClients pending.name none,self.clients,attempts,self.started,
          self.debug.map fun debug => debug.emitPeerChanged pending.name pending.address pending.port .failed "failed"⟩
  | removed (name : String) (attempts : List Attempt) (debug : Option CoreDebug)
      (drops : ∀ before, self.debug = some before → ∃ after, debug = some after ∧
        (after.peers = Function.update before.peers name none ∨
          self.pendingClients name = none ∧ self.clients name = none ∧ after.peers = before.peers)) :
      Moves srvmatch self (.serviceRemoved name)
        ⟨Function.update self.pendingClients name none,Function.update self.clients name none,attempts,self.started,
          debug⟩

theorem step_moves {event : Event} (stepped : step srvmatch self event = some next) : Moves srvmatch self event next := by
  cases event with
  | serviceAdded service =>
    cases stepped
    unfold StCore.onMdnsServiceAdded
    split
    next wanted =>
      simp only [Bool.and_eq_true,Option.isNone_iff_eq_none] at wanted
      exact .connects service _ wanted.1.1 wanted.1.2 wanted.2
    next unwanted =>
      refine .known service fun wanted => ?_
      simp only [wanted,Bool.true_and,Bool.and_eq_true,Option.isNone_iff_eq_none,not_and_or] at unwanted
      exact unwanted
  | startFinished place success =>
    simp only [step,Option.map_eq_some_iff] at stepped
    obtain ⟨⟨pending,removed⟩,there,rfl⟩ := stepped
    have only : ∀ attempt, self.attempts[place]? = some attempt → attempt = ⟨pending,removed⟩ :=
      fun attempt also => Option.some.inj (also.symm.trans there)
    cases removed with
    | true => exact .late place success _ fun attempt also => .inl (only attempt also ▸ rfl)
    | false =>
      simp only [Bool.false_eq_true,if_false]
      unfold StCore.onClientStartFinished
      split
      next changed => exact .late place success _ fun attempt also => .inr (only attempt also ▸ changed)
      next still =>
        have is : self.pendingClients pending.name = some pending := not_not.mp still
        cases success with
        | true => exact .ready place _ pending is
        | false =>
          obtain ⟨attempts,removes⟩ := removePending_eq (StCore.emitPeerChanged
            { self with attempts := self.attempts.eraseIdx place } pending.name pending.address pending.port .failed
            "failed") pending.name
          simp only [removes,Bool.false_eq_true,if_false]
          exact .failed place attempts pending there is
  | serviceRemoved name =>
    cases stepped
    obtain ⟨attempts,debug,removes,drops⟩ := onMdnsServiceRemoved_eq self name
    rw [removes]
    exact .removed name attempts debug drops

/-! ### The table of the debug server -/

/-- A pending start is under its own name, and a client that is connected has no other; both
    have been started with the address they are known by. -/
structure Sound (core : StCore) : Prop where
  own : ∀ name pending, core.pendingClients name = some pending →
    pending.name = name ∧ core.started[pending.client]? = some ⟨pending.address,pending.port⟩
  alone : ∀ name client, core.clients name = some client →
    core.pendingClients name = none ∧ ∃ endpoint, core.started[client]? = some endpoint

/-- What the tables of the Core say about a name. -/
def StCore.peer (self : StCore) (name : String) : Option DebugPeer :=
  match self.pendingClients name with
  | some pending => some ⟨pending.address,pending.port,.pending⟩
  | none => (self.clients name).bind fun client => self.started[client]?.map fun e => ⟨e.address,e.port,.ready⟩

/-- The debug server has the peers of the Core. -/
def Tabled (self : StCore) : Prop := ∃ debug, self.debug = some debug ∧ debug.peers = self.peer

theorem sound_step {event : Event} (sound : Sound self) (stepped : step srvmatch self event = some next) :
    Sound next := by
  cases step_moves stepped with
  | known service known => exact sound
  | late place success attempts ignored => exact ⟨sound.own,sound.alone⟩
  | connects service attempts wanted unconnected idle =>
    have older : ∀ {client : Nat} {endpoint : Endpoint}, self.started[client]? = some endpoint →
        (self.started ++ [⟨service.address,service.port⟩])[client]? = some endpoint := by
      intro client endpoint is
      obtain ⟨below,_⟩ := List.getElem?_eq_some_iff.mp is
      rwa [List.getElem?_append_left below]
    refine ⟨fun name pending is => ?_,fun name client is => ?_⟩
    · by_cases same : name = service.name
      · subst same
        simp only [Function.update_self,Option.some.injEq] at is
        subst is
        exact ⟨rfl,by simp [StCore.newPending]⟩
      · simp only [Function.update_of_ne same] at is
        exact ⟨(sound.own name pending is).1,older (sound.own name pending is).2⟩
    · have apart : name ≠ service.name := by
        rintro rfl
        exact nomatch unconnected.symm.trans is
      simp only [Function.update_of_ne apart]
      obtain ⟨free,endpoint,known⟩ := sound.alone name client is
      exact ⟨free,endpoint,older known⟩
  | ready place attempts pending is =>
    refine ⟨fun name other holds => ?_,fun name client holds => ?_⟩
    · by_cases same : name = pending.name
      · subst same
        simp at holds
      · simp only [Function.update_of_ne same] at holds
        exact sound.own name other holds
    · by_cases same : name = pending.name
      · subst same
        simp only [Function.update_self,Option.some.injEq] at holds ⊢
        subst holds
        exact ⟨trivial,_,(sound.own _ pending is).2⟩
      · simp only [Function.update_of_ne same] at holds ⊢
        exact sound.alone name client holds
  | failed place attempts pending there is =>
    refine ⟨fun name other holds => ?_,fun name client holds => ⟨?_,(sound.alone name client holds).2⟩⟩
    · by_cases same : name = pending.name
      · subst same
        simp at holds
      · simp only [Function.update_of_ne same] at holds
        exact sound.own name other holds
    · by_cases same : name = pending.name
      · subst same
        simp
      · simp only [Function.update_of_ne same]
        exact (sound.alone name client holds).1
  | removed gone attempts debug drops =>
    refine ⟨fun name other holds => ?_,fun name client holds => ?_⟩
    · by_cases same : name = gone
      · subst same
        simp at holds
      · simp only [Function.update_of_ne same] at holds
        exact sound.own name other holds
    · by_cases same : name = gone
      · subst same
        simp at holds
      · simp only [Function.update_of_ne same] at holds ⊢
        exact sound.alone name client holds

/-- The table of the debug server follows a change at one name. -/
theorem tabled_of {name : String} {entry : Option DebugPeer} {before : CoreDebug} (same : before.peers = self.peer)
    {after : CoreDebug} (known : next.debug = some after) (peers : after.peers = Function.update before.peers name entry)
    (here : next.peer name = entry) (others : ∀ other ≠ name, next.peer other = self.peer other) : Tabled next := by
  refine ⟨after,known,?_⟩
  rw [peers,same]
  funext other
  by_cases this : other = name
  · subst this
    rw [Function.update_self,here]
  · rw [Function.update_of_ne this,others other this]

theorem tabled_step {event : Event} (sound : Sound self) (tabled : Tabled self)
    (stepped : step srvmatch self event = some next) : Tabled next := by
  obtain ⟨debug,is,peers⟩ := tabled
  cases step_moves stepped with
  | known service known => exact ⟨debug,is,peers⟩
  | late place success attempts ignored => exact ⟨debug,is,peers⟩
  | connects service attempts wanted unconnected idle =>
    refine tabled_of peers (by simp only [is]; rfl) (emitPeerChanged_peers ..) ?_ fun other apart => ?_
    · simp [StCore.peer,StCore.newPending]
    · simp only [StCore.peer,Function.update_of_ne apart]
      cases self.pendingClients other with
      | some pending => rfl
      | none =>
        cases connected : self.clients other with
        | none => rfl
        | some client =>
          obtain ⟨_,endpoint,known⟩ := sound.alone other client connected
          obtain ⟨below,_⟩ := List.getElem?_eq_some_iff.mp known
          simp only [Option.bind_some,List.getElem?_append_left below]
  | ready place attempts pending holds =>
    refine tabled_of peers (by simp only [is]; rfl) (emitPeerChanged_peers ..) ?_ fun other apart => ?_
    · simp [StCore.peer,(sound.own _ pending holds).2]
    · simp only [StCore.peer,Function.update_of_ne apart]
  | failed place attempts pending there holds =>
    refine tabled_of peers (by simp only [is]; rfl) (emitPeerChanged_peers ..) ?_ fun other apart => ?_
    · have unconnected : self.clients pending.name = none := by
        rw [Option.eq_none_iff_forall_ne_some]
        intro client connected
        exact nomatch (sound.alone _ client connected).1.symm.trans holds
      simp [StCore.peer,unconnected]
    · simp only [StCore.peer,Function.update_of_ne apart]
  | removed name attempts debug' drops =>
    obtain ⟨later,known,removes⟩ := drops debug is
    have dropped : later.peers = Function.update debug.peers name none := by
      rcases removes with removes | ⟨idle,unconnected,kept⟩
      · exact removes
      · rw [kept]
        refine (Function.update_eq_self_iff.mpr ?_).symm
        simp [peers,StCore.peer,idle,unconnected]
    refine tabled_of peers known dropped ?_ fun other apart => ?_
    · simp [StCore.peer]
    · simp only [StCore.peer,Function.update_of_ne apart]

/-- `ListPeers` reports the names that are pending and those that are connected, with their
    states and with the address that each has been connected to. -/
def Reported (self : StCore) : Prop :=
  ∃ debug, self.debug = some debug ∧ ∀ name,
    (debug.listPeers name ≠ none ↔ self.pendingClients name ≠ none ∨ self.clients name ≠ none) ∧
    (∀ pending, self.pendingClients name = some pending → ∃ endpoint,
      self.started[pending.client]? = some endpoint ∧
        debug.listPeers name = some ⟨endpoint.address,endpoint.port,.pending⟩) ∧
    ∀ client, self.clients name = some client → ∃ endpoint,
      self.started[client]? = some endpoint ∧ debug.listPeers name = some ⟨endpoint.address,endpoint.port,.ready⟩

theorem tabled_reported (sound : Sound self) (tabled : Tabled self) : Reported self := by
  obtain ⟨debug,is,peers⟩ := tabled
  refine ⟨debug,is,fun name => ?_⟩
  simp only [CoreDebug.listPeers,peers,StCore.peer]
  cases pends : self.pendingClients name with
  | some pending =>
    refine ⟨by simp,fun other same => ?_,fun client connected => ?_⟩
    · cases same
      exact ⟨_,(sound.own name pending pends).2,rfl⟩
    · exact nomatch (sound.alone name client connected).1.symm.trans pends
  | none =>
    cases connected : self.clients name with
    | none => exact ⟨by simp,fun _ same => by simp at same,fun _ same => by simp at same⟩
    | some client =>
      obtain ⟨_,endpoint,known⟩ := sound.alone name client connected
      refine ⟨by simp [known],fun _ same => by simp at same,fun other same => ?_⟩
      cases same
      exact ⟨endpoint,known,by simp [known]⟩

theorem start_sound (debug : Option CoreDebug) : Sound (start debug) :=
  ⟨fun name pending is => by simp [start] at is,fun name client is => by simp [start] at is⟩

/-- The table of the debug server is right after every event. -/
theorem always_reported (srvmatch : String → Bool) (events : List Event) :
    Always (step srvmatch) Reported (start (some coreDebugNew)) events := by
  have begins : Sound (start (some coreDebugNew)) ∧ Tabled (start (some coreDebugNew)) :=
    ⟨start_sound _,coreDebugNew,rfl,rfl⟩
  have keeps : ∀ (self : StCore) (event : Event) (next : StCore), Sound self ∧ Tabled self →
      step srvmatch self event = some next → Sound next ∧ Tabled next :=
    fun self event next holds stepped => ⟨sound_step holds.1 stepped,tabled_step holds.1 holds.2 stepped⟩
  exact always_mono (fun self holds => tabled_reported holds.1 holds.2) (always_of_step keeps begins events)

/-! ### The addresses that are tried -/

/-- The Core with the history of the announcements: those whose service has not been removed
    since, and those that came while a start for their name was pending. -/
structure Watched where
  core : StCore
  announced : List Service
  missed : List Service

def Watched.announcedAfter (w : Watched) : Event → List Service
  | .serviceAdded service => service :: w.announced
  | .startFinished _ _ => w.announced
  | .serviceRemoved name => w.announced.filter fun service => service.name ≠ name

def Watched.missedAfter (w : Watched) : Event → List Service
  | .serviceAdded service =>
    if w.core.pendingClients service.name = none then w.missed.filter fun other => other.name ≠ service.name
    else service :: w.missed
  | .startFinished _ _ | .serviceRemoved _ => w.missed

def watch (srvmatch : String → Bool) (w : Watched) (event : Event) : Option Watched :=
  (step srvmatch w.core event).map fun core => ⟨core,w.announcedAfter event,w.missedAfter event⟩

def watchStart (debug : Option CoreDebug) : Watched := ⟨start debug,[],[]⟩

/-- A connection has been attempted to the address and port of the service. -/
def Tried (core : StCore) (service : Service) : Prop := ⟨service.address,service.port⟩ ∈ core.started

/-- A name of a peer that is announced is pending or connected, or each of its addresses has
    been tried. -/
def Attended (srvmatch : String → Bool) (w : Watched) (name : String) : Prop :=
  srvmatch name = true → (∃ service ∈ w.announced, service.name = name) →
    w.core.pendingClients name ≠ none ∨ w.core.clients name ≠ none ∨
      ∀ service ∈ w.announced, service.name = name → Tried w.core service

/-- No peer that is announced is left with an address that has not been tried. -/
def Unstranded (srvmatch : String → Bool) (w : Watched) : Prop := ∀ name, Attended srvmatch w name

/-- No start fails after an announcement of the same name with an address that has not been
    tried. -/
def NoneMissed (w : Watched) : Event → Prop
  | .startFinished place false => ∀ pending, w.core.attempts[place]? = some ⟨pending,false⟩ →
      w.core.pendingClients pending.name = some pending →
        ∀ service ∈ w.missed, service.name = pending.name → Tried w.core service
  | _ => True

/-- While a start is pending, what has been announced of its name has been tried or missed. -/
structure Kept (srvmatch : String → Bool) (w : Watched) : Prop where
  sound : Sound w.core
  wanted : ∀ name, w.core.pendingClients name ≠ none → srvmatch name = true
  known : ∀ service ∈ w.announced, w.core.pendingClients service.name ≠ none →
    Tried w.core service ∨ service ∈ w.missed
  missed : ∀ service ∈ w.missed, w.core.pendingClients service.name ≠ none → service ∈ w.announced

variable {w later : Watched}

theorem pending_of_drop {table : String → Option PendingClient} {gone name : String}
    (still : Function.update table gone none name ≠ none) : name ≠ gone ∧ table name ≠ none := by
  by_cases same : name = gone
  · subst same
    simp at still
  · rw [Function.update_of_ne same] at still
    exact ⟨same,still⟩

/-- A start that ends keeps what has been announced of the others. -/
theorem kept_drop (kept : Kept srvmatch w) {core : StCore} (sound : Sound core) {gone : String}
    (pendings : core.pendingClients = Function.update w.core.pendingClients gone none)
    (started : core.started = w.core.started) {announced : List Service}
    (same : ∀ service, service.name ≠ gone → (service ∈ announced ↔ service ∈ w.announced)) :
    Kept srvmatch ⟨core,announced,w.missed⟩ := by
  refine ⟨sound,fun name still => ?_,fun service member still => ?_,fun service member still => ?_⟩
  · rw [pendings] at still
    exact kept.wanted name (pending_of_drop still).2
  · rw [pendings] at still
    obtain ⟨apart,before⟩ := pending_of_drop still
    simp only [Tried,started]
    exact kept.known service ((same service apart).mp member) before
  · rw [pendings] at still
    obtain ⟨apart,before⟩ := pending_of_drop still
    exact (same service apart).mpr (kept.missed service member before)

/-- An announcement is missed exactly while a start of its name is pending. -/
theorem mem_missedAfter {service other : Service} :
    other ∈ w.missedAfter (.serviceAdded service) ↔
      w.core.pendingClients service.name ≠ none ∧ other = service ∨
        other ∈ w.missed ∧ (w.core.pendingClients service.name = none → other.name ≠ service.name) := by
  simp only [Watched.missedAfter]
  split
  next idle => simp [idle]
  next pends => simp [pends]

theorem mem_announcedAfter {service other : Service} (apart : other.name ≠ service.name) :
    other ∈ w.announcedAfter (.serviceAdded service) ↔ other ∈ w.announced := by
  simp only [Watched.announcedAfter,List.mem_cons,or_iff_right_iff_imp]
  rintro rfl
  exact absurd rfl apart

theorem mem_announcedAfter_removed {other : Service} {name : String} :
    other ∈ w.announcedAfter (.serviceRemoved name) ↔ other ∈ w.announced ∧ other.name ≠ name := by
  simp [Watched.announcedAfter]

theorem kept_step {event : Event} (kept : Kept srvmatch w) (unstranded : Unstranded srvmatch w)
    (stepped : watch srvmatch w event = some later) : Kept srvmatch later := by
  obtain ⟨core,moved,rfl⟩ := Option.map_eq_some_iff.mp stepped
  have sound := sound_step kept.sound moved
  cases step_moves moved with
  | known service known =>
    refine ⟨sound,kept.wanted,fun other member pends => ?_,fun other member pends => ?_⟩
    · rcases List.mem_cons.mp member with rfl | before
      · exact .inr (mem_missedAfter.mpr (.inl ⟨pends,rfl⟩))
      · refine (kept.known other before pends).imp_right fun missed => mem_missedAfter.mpr (.inr ⟨missed,?_⟩)
        rintro idle same
        exact pends (same ▸ idle)
    · rcases mem_missedAfter.mp member with ⟨_,rfl⟩ | ⟨before,_⟩
      · exact List.mem_cons_self
      · exact List.mem_cons_of_mem _ (kept.missed other before pends)
  | connects service attempts wanted unconnected idle =>
    have grows : ∀ other : Service, Tried w.core other →
        ⟨other.address,other.port⟩ ∈ w.core.started ++ [(⟨service.address,service.port⟩ : Endpoint)] :=
      fun other tried => List.mem_append_left _ tried
    refine ⟨sound,fun name still => ?_,fun other member still => ?_,fun other member still => ?_⟩
    · by_cases same : name = service.name
      · exact same ▸ wanted
      · simp only [Function.update_of_ne same] at still
        exact kept.wanted name still
    · by_cases same : other.name = service.name
      · refine .inl ?_
        rcases List.mem_cons.mp member with rfl | before
        · exact List.mem_append_right _ (List.mem_singleton_self _)
        · -- It was announced while nothing was pending: its address has been tried before.
          have tried := (unstranded service.name wanted ⟨other,before,same⟩).resolve_left (· idle)
          exact grows other (tried.resolve_left (· unconnected) other before same)
      · simp only [Function.update_of_ne same] at still
        have before : other ∈ w.announced := (mem_announcedAfter same).mp member
        refine (kept.known other before still).imp (grows other) fun missed => ?_
        exact mem_missedAfter.mpr (.inr ⟨missed,fun _ => same⟩)
    · rcases mem_missedAfter.mp member with ⟨pends,_⟩ | ⟨before,apart⟩
      · exact absurd idle pends
      · simp only [Function.update_of_ne (apart idle)] at still
        exact List.mem_cons_of_mem _ (kept.missed other before still)
  | late place success attempts ignored => exact ⟨sound,kept.wanted,kept.known,kept.missed⟩
  | ready place attempts pending is => exact kept_drop kept sound rfl rfl fun _ _ => Iff.rfl
  | failed place attempts pending there is => exact kept_drop kept sound rfl rfl fun _ _ => Iff.rfl
  | removed name attempts debug drops =>
    exact kept_drop kept sound rfl rfl fun _ apart => mem_announcedAfter_removed.trans (and_iff_left apart)

/-- What an event does not concern stays attended to. -/
theorem unstranded_one (unstranded : Unstranded srvmatch w) (name : String)
    (pendings : ∀ other ≠ name, later.core.pendingClients other = w.core.pendingClients other)
    (clients : ∀ other ≠ name, later.core.clients other = w.core.clients other)
    (announced : ∀ service, service.name ≠ name → (service ∈ later.announced ↔ service ∈ w.announced))
    (tried : ∀ service, Tried w.core service → Tried later.core service) :
    Unstranded srvmatch later ↔ Attended srvmatch later name := by
  refine ⟨fun all => all name,fun one other wanted => ?_⟩
  by_cases same : other = name
  · exact same ▸ one (same ▸ wanted)
  · rintro ⟨service,member,rfl⟩
    rw [pendings _ same,clients _ same]
    refine (unstranded _ wanted ⟨service,(announced service same).mp member,rfl⟩).imp_right (Or.imp_right ?_)
    intro all more also is
    exact tried more (all more ((announced more (is ▸ same)).mp also) is)

/-- An event leaves no peer stranded exactly where it is no failure after a missed announcement. -/
theorem unstranded_step {event : Event} (kept : Kept srvmatch w) (unstranded : Unstranded srvmatch w)
    (stepped : watch srvmatch w event = some later) : Unstranded srvmatch later ↔ NoneMissed w event := by
  obtain ⟨core,moved,rfl⟩ := Option.map_eq_some_iff.mp stepped
  cases step_moves moved with
  | known service known =>
    refine iff_of_true (Iff.mpr (unstranded_one unstranded service.name (fun _ _ => rfl) (fun _ _ => rfl)
      (fun _ apart => mem_announcedAfter apart)
      (fun _ tried => tried)) fun wanted _ => ?_) trivial
    rcases known wanted with connected | pends
    · exact .inr (.inl connected)
    · exact .inl pends
  | connects service attempts wanted unconnected idle =>
    refine iff_of_true (Iff.mpr (unstranded_one unstranded service.name
      (fun other apart => Function.update_of_ne apart ..) (fun _ _ => rfl) (fun _ apart => mem_announcedAfter apart)
      (fun _ tried => List.mem_append_left _ tried))
      fun _ _ => .inl ?_) trivial
    simp
  | late place success attempts ignored =>
    refine iff_of_true unstranded ?_
    cases success with
    | true => trivial
    | false =>
      intro pending there is
      rcases ignored _ there with removed | changed
      · cases removed
      · exact absurd is changed
  | ready place attempts pending is =>
    refine iff_of_true (Iff.mpr (unstranded_one unstranded pending.name
      (fun other apart => Function.update_of_ne apart ..)
      (fun other apart => Function.update_of_ne apart ..) (fun _ _ => Iff.rfl) (fun _ tried => tried))
      fun _ _ => .inr (.inl ?_)) trivial
    simp
  | failed place attempts pending there is =>
    have pends : w.core.pendingClients pending.name ≠ none := by simp [is]
    have unconnected : w.core.clients pending.name = none := by
      rw [Option.eq_none_iff_forall_ne_some]
      exact fun client connected => pends (kept.sound.alone _ client connected).1
    refine Iff.trans (unstranded_one unstranded pending.name (fun other apart => Function.update_of_ne apart ..)
      (fun _ _ => rfl) (fun _ _ => Iff.rfl) (fun _ tried => tried)) ?_
    constructor
    · intro attended other also _ service missed same
      cases there.symm.trans also
      have member := kept.missed service missed (same ▸ pends)
      have tried := attended (kept.wanted _ pends) ⟨service,member,same⟩
      simp only [Function.update_self,unconnected,ne_eq,not_true_eq_false,false_or] at tried
      exact tried service member same
    · intro none _ _
      refine .inr (.inr fun service member same => ?_)
      rcases kept.known service member (same ▸ pends) with tried | missed
      · exact tried
      · exact none pending there is service missed same
  | removed name attempts debug drops =>
    refine iff_of_true (Iff.mpr (unstranded_one unstranded name (fun other apart => Function.update_of_ne apart ..)
      (fun other apart => Function.update_of_ne apart ..)
      (fun _ apart => mem_announcedAfter_removed.trans (and_iff_left apart)) (fun _ tried => tried)) ?_) trivial
    rintro _ ⟨service,member,same⟩
    exact absurd same (mem_announcedAfter_removed.mp member).2

/-- In every run each announced peer is pending, connected, or tried at all its addresses,
    exactly where no start fails after a missed announcement of its name. -/
theorem run_unstranded_iff (srvmatch : String → Bool) (debug : Option CoreDebug) (events : List Event) :
    Always (watch srvmatch) (Unstranded srvmatch) (watchStart debug) events ↔
      Meets (watch srvmatch) NoneMissed (watchStart debug) events := by
  have kept : Kept srvmatch (watchStart debug) :=
    ⟨start_sound debug,fun name still => by simp [watchStart,start] at still,
      fun service member => by simp [watchStart] at member,fun service member => by simp [watchStart] at member⟩
  have unstranded : Unstranded srvmatch (watchStart debug) := by
    rintro name _ ⟨service,member,_⟩
    simp [watchStart] at member
  have both : Always (watch srvmatch) (fun w => Kept srvmatch w ∧ Unstranded srvmatch w) (watchStart debug) events ↔
      Meets (watch srvmatch) NoneMissed (watchStart debug) events := by
    refine always_iff_meets (fun w event _ stopped => ?_) (fun w event later holds stepped => ?_) ⟨kept,unstranded⟩ events
    · cases event with
      | serviceAdded service => trivial
      | serviceRemoved name => trivial
      | startFinished place success =>
        cases success with
        | true => trivial
        | false =>
          intro pending there
          simp [watch,step,there] at stopped
    · rw [(unstranded_step holds.1 holds.2 stepped).symm]
      exact and_iff_right (kept_step holds.1 holds.2 stepped)
  rw [← both]
  exact ⟨always_and (fun w event later kept unstranded stepped => kept_step kept unstranded stepped) kept,
    always_mono fun _ holds => holds.2⟩

private def hallAnnouncements : List Event :=
  [.serviceAdded ⟨"ST:hall","_starter._tcp","hall.local","169.254.1.7",5000,2,2⟩,
    .serviceAdded ⟨"ST:hall","_starter._tcp","hall.local","10.0.0.7",5000,2,3⟩,.startFinished 0 false]

/-- The second address of a peer is never tried when the start at the first fails after it was
    announced. -/
theorem second_address_untried :
    ¬ Always (watch fun _ => true) (Unstranded fun _ => true) (watchStart none) hallAnnouncements := by
  have ends : ∃ last, run (watch fun _ => true) (watchStart none) hallAnnouncements = some last ∧
      last.core.pendingClients "ST:hall" = none ∧ last.core.clients "ST:hall" = none ∧
      last.core.started = [⟨"169.254.1.7",5000⟩] ∧
      ⟨"ST:hall","_starter._tcp","hall.local","10.0.0.7",5000,2,3⟩ ∈ last.announced :=
    ⟨_,rfl,by decide +kernel,by decide +kernel,by decide +kernel,by decide +kernel⟩
  obtain ⟨last,done,idle,unconnected,started,announced⟩ := ends
  intro always
  rcases always_last always done "ST:hall" rfl ⟨_,announced,rfl⟩ with pends | connected | tried
  · exact pends idle
  · exact connected unconnected
  · have untried := tried _ announced rfl
    simp [Tried,started] at untried

end

end Starter.Peering
