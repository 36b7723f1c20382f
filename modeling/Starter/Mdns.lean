import Starter.Lib.Runs
import Mathlib.Logic.Function.Basic
import Mathlib.Data.List.Basic

/-!
The browser of services (`lib/mdns.c`): an Avahi browser reports instances of services, a
resolver answers each report with an address, and the list of services is what "service-added"
and "service-removed" are emitted from.
-/
namespace Starter.Mdns
open Lib.Runs

/-- `AvahiProtocol`. -/
inductive Protocol
  | inet
  | inet6
  | unspec
deriving DecidableEq

/-- `STMDNSServicePrivate`. Two services are equal when `st_mdns_service_compare` answers 0. -/
structure Service where
  name : String
  type : String
  host : String
  address : String
  port : UInt16
  proto : Int
  iface : Int
deriving DecidableEq

/-- What an Avahi browser reports: a service on an interface and a protocol. -/
structure Instance where
  name : String
  type : String
  interface : Int
  protocol : Protocol
deriving DecidableEq

inductive Signal
  | serviceAdded (service : Service)
  | serviceRemoved (name : String)
deriving DecidableEq

/-- `STMDNS`, with the resolvers that have not answered yet, the number of those that were
    asked for, and the signals it has emitted. -/
structure Stmdns where
  services : List Service
  resolvers : List (Nat × Instance)
  started : Nat
  signals : List Signal
deriving DecidableEq

/-- The events of Avahi. A resolver may not be created; one that is answers once. -/
inductive Event
  | browserNew (inst : Instance) (created : Bool)
  | browserRemove (inst : Instance)
  | resolverFound (id : Nat) (host address : String) (port : UInt16)
  | resolverFailure (id : Nat)
deriving DecidableEq

-- `avahi_proto_to_af` is Avahi's.
variable (af : Protocol → Int)

/-- The four comparisons of `remove_service_instance`. -/
def Matches (inst : Instance) (service : Service) : Prop :=
  inst.name = service.name ∧ inst.type = service.type ∧ service.iface = inst.interface ∧
    service.proto = af inst.protocol
deriving Decidable

/-- `count_services_by_name_and_type`. -/
def countServices (services : List Service) (name type : String) : Nat :=
  services.countP fun service => decide (name = service.name ∧ type = service.type)

/-- `remove_service_instance`: the loop starts again after each removal, until no service
    matches. -/
def removeServiceInstance (services : List Service) (inst : Instance) : List Service :=
  services.filter fun service => decide (¬ Matches af inst service)

/-- What a resolver of the instance reports. -/
def serviceOf (inst : Instance) (host address : String) (port : UInt16) : Service :=
  ⟨inst.name,inst.type,host,address,port,af inst.protocol,inst.interface⟩

/-- `resolve_cb` for `AVAHI_RESOLVER_FOUND`: a service that `lookup_service` finds is not
    added again. -/
def resolveFound (self : Stmdns) (p : Service) : Stmdns :=
  if p ∈ self.services then self
  else { self with services := self.services ++ [p], signals := self.signals ++ [.serviceAdded p] }

/-- `avahi_service_resolver_free`. -/
def freeResolver (self : Stmdns) (id : Nat) : Stmdns :=
  { self with resolvers := self.resolvers.filter fun r => r.1 ≠ id }

/-- `service_browser_cb` for `AVAHI_BROWSER_NEW`. -/
def browserNew (self : Stmdns) (inst : Instance) (created : Bool) : Stmdns :=
  { self with
    resolvers := if created then self.resolvers ++ [(self.started,inst)] else self.resolvers
    started := self.started + 1 }

/-- `service_browser_cb` for `AVAHI_BROWSER_REMOVE`. -/
def browserRemove (self : Stmdns) (inst : Instance) : Stmdns :=
  let services := removeServiceInstance af self.services inst
  let remaining := countServices services inst.name inst.type
  { self with
    services := services
    signals := if remaining = 0 then self.signals ++ [.serviceRemoved inst.name] else self.signals }

def step (self : Stmdns) : Event → Option Stmdns
  | .browserNew inst created => some (browserNew self inst created)
  | .browserRemove inst => some (browserRemove af self inst)
  | .resolverFound id host address port =>
    (self.resolvers.lookup id).map fun inst => resolveFound (freeResolver self id) (serviceOf af inst host address port)
  | .resolverFailure id => (self.resolvers.lookup id).map fun _ => freeResolver self id

/-- `st_mdns_new`. -/
def stMdnsNew : Stmdns := ⟨[],[],0,[]⟩

/-! ### The signal "service-removed" -/

/-- At a removal the signal is emitted exactly when the last service of the name goes. -/
def SignalsLast (self : Stmdns) : Event → Prop
  | .browserRemove inst =>
    (browserRemove af self inst).signals = self.signals ++ [.serviceRemoved inst.name] ↔
      (∃ service ∈ self.services, service.name = inst.name) ∧
        ∀ service ∈ (browserRemove af self inst).services, service.name ≠ inst.name
  | _ => True

/-- At a removal another instance of the name and the type stays, or the name is listed and
    with this type only. -/
def OneType (self : Stmdns) : Event → Prop
  | .browserRemove inst =>
    (∃ service ∈ self.services, service.name = inst.name ∧ service.type = inst.type ∧
      ¬ (service.iface = inst.interface ∧ service.proto = af inst.protocol)) ∨
    (∃ service ∈ self.services, service.name = inst.name) ∧
      ∀ service ∈ self.services, service.name = inst.name → service.type = inst.type
  | _ => True

instance decidableSignalsLast (self : Stmdns) : ∀ e, Decidable (SignalsLast af self e)
  | .browserRemove inst =>
    inferInstanceAs (Decidable
      ((browserRemove af self inst).signals = self.signals ++ [.serviceRemoved inst.name] ↔
        (∃ service ∈ self.services, service.name = inst.name) ∧
          ∀ service ∈ (browserRemove af self inst).services, service.name ≠ inst.name))
  | .browserNew _ _ | .resolverFound _ _ _ _ | .resolverFailure _ => .isTrue trivial

variable {af} {self : Stmdns} {inst : Instance}

theorem mem_removeServiceInstance {services : List Service} {service : Service} :
    service ∈ removeServiceInstance af services inst ↔ service ∈ services ∧ ¬ Matches af inst service := by
  simp [removeServiceInstance]

theorem countServices_eq_zero {services : List Service} {name type : String} :
    countServices services name type = 0 ↔ ∀ service ∈ services, service.name = name → service.type ≠ type := by
  simp only [countServices,List.countP_eq_zero,decide_eq_true_eq,not_and]
  exact forall₂_congr fun service _ => by simp only [eq_comm,ne_eq]

/-- What a removal emits. -/
theorem browserRemove_signals :
    (browserRemove af self inst).signals = self.signals ++ [.serviceRemoved inst.name] ↔
      ∀ service ∈ (browserRemove af self inst).services, service.name = inst.name → service.type ≠ inst.type := by
  rw [← countServices_eq_zero]
  simp [browserRemove]

/-- A removal signals rightly exactly where the name has the one type. -/
theorem signalsLast_iff (self : Stmdns) (e : Event) : SignalsLast af self e ↔ OneType af self e := by
  cases e with
  | browserNew inst created => rfl
  | resolverFound id host address port => rfl
  | resolverFailure id => rfl
  | browserRemove inst =>
    have mem : ∀ service, service ∈ (browserRemove af self inst).services ↔
        service ∈ self.services ∧ ¬ Matches af inst service := fun service => mem_removeServiceInstance
    simp only [SignalsLast,OneType,browserRemove_signals,mem]
    by_cases stays : ∃ service ∈ self.services, service.name = inst.name ∧ service.type = inst.type ∧
        ¬ (service.iface = inst.interface ∧ service.proto = af inst.protocol)
    · refine iff_of_true ?_ (.inl stays)
      obtain ⟨service,listed,name,type,other⟩ := stays
      have still : service ∈ self.services ∧ ¬ Matches af inst service := ⟨listed,fun same => other same.2.2⟩
      exact iff_of_false (fun none => none service still name type) (fun none => none.2 service still name)
    · have gone : ∀ service, service ∈ self.services ∧ ¬ Matches af inst service → service.name = inst.name →
          service.type ≠ inst.type := by
        rintro service ⟨listed,other⟩ name type
        exact stays ⟨service,listed,name,type,fun same => other ⟨name.symm,type.symm,same⟩⟩
      refine ⟨fun right => .inr ⟨(right.mp gone).1,?_⟩,fun one => ⟨fun _ => ?_,fun _ => gone⟩⟩
      · intro service listed name
        by_contra other
        exact (right.mp gone).2 service ⟨listed,fun same => other same.2.1.symm⟩ name
      · obtain ⟨named,only⟩ := one.resolve_left stays
        exact ⟨named,fun service still name => gone service still name (only service still.1 name)⟩

/-- In every sequence of events "service-removed" is emitted exactly when the last service of
    the name goes, exactly where each removal meets the one type of its name. -/
theorem run_signalsLast_iff (af : Protocol → Int) (events : List Event) :
    Meets (step af) (SignalsLast af) stMdnsNew events ↔ Meets (step af) (OneType af) stMdnsNew events :=
  meets_congr signalsLast_iff

/-- The constants of Linux. -/
def linuxAf : Protocol → Int
  | .inet => 2
  | .inet6 => 10
  | .unspec => 0

/-- A peer that is advertised under two types is reported as gone with the first of them, and
    one that was never resolved as if it had been there. -/
theorem two_types_and_unresolved :
    ¬ Meets (step linuxAf) (SignalsLast linuxAf) stMdnsNew
      [.browserNew ⟨"peer","_starter._tcp",2,.inet⟩ true,.browserNew ⟨"peer","_http._tcp",2,.inet⟩ true,
        .resolverFound 0 "peer.local" "10.0.0.7" 5000,.resolverFound 1 "peer.local" "10.0.0.7" 80,
        .browserRemove ⟨"peer","_http._tcp",2,.inet⟩] ∧
    ¬ Meets (step linuxAf) (SignalsLast linuxAf) stMdnsNew
      [.browserNew ⟨"peer","_starter._tcp",2,.inet⟩ true,.browserRemove ⟨"peer","_starter._tcp",2,.inet⟩] := by
  constructor <;> decide +kernel

/-! ### The list of services -/

/-- The browser with the history of its events: for each instance the resolver that the last
    NEW asked for, unless a REMOVE came after it, and the resolvers that answered FOUND. -/
structure Watched where
  self : Stmdns
  last : Instance → Option Nat
  found : List Nat

variable (af)

def watch (w : Watched) (e : Event) : Option Watched :=
  (step af w.self e).map fun next =>
    match e with
    | .browserNew inst _ => ⟨next,Function.update w.last inst (some w.self.started),w.found⟩
    | .browserRemove inst => ⟨next,Function.update w.last inst none,w.found⟩
    | .resolverFound id _ _ _ => ⟨next,w.last,id :: w.found⟩
    | .resolverFailure _ => ⟨next,w.last,w.found⟩

def watchNew : Watched := ⟨stMdnsNew,fun _ => none,[]⟩

def Watched.outstanding (w : Watched) : List Nat := w.self.resolvers.map Prod.fst

def Listed (services : List Service) (inst : Instance) : Prop := ∃ service ∈ services, Matches af inst service

/-- The last browser event of the instance was NEW, and its resolver answered FOUND. -/
def Watched.Current (w : Watched) (inst : Instance) : Prop := ∃ id, w.last inst = some id ∧ id ∈ w.found

/-- The list has the instances that are current, and no others. -/
def Mirrored (w : Watched) : Prop := ∀ inst, Listed af w.self.services inst ↔ w.Current inst

/-- The resolver of the last NEW of the instance has answered. -/
def Watched.Answered (w : Watched) (inst : Instance) : Prop := ∀ id, w.last inst = some id → id ∉ w.outstanding

/-- The list is right about each instance whose resolver has answered. -/
def Settled (w : Watched) : Prop := ∀ inst, w.Answered inst → (Listed af w.self.services inst ↔ w.Current inst)

/-- No resolver finds an instance that is removed by then or whose newer resolver has failed,
    and none fails for an instance that an older one has listed. -/
def InOrder (w : Watched) : Event → Prop
  | .browserNew inst created => created = false → ¬ Listed af w.self.services inst
  | .browserRemove _ => True
  | .resolverFound id _ _ _ => ∀ inst, w.self.resolvers.lookup id = some inst →
      ∃ current, w.last inst = some current ∧ (current = id ∨ current ∈ w.outstanding ∨ current ∈ w.found)
  | .resolverFailure id => ∀ inst, w.self.resolvers.lookup id = some inst → w.last inst = some id →
      ¬ Listed af w.self.services inst

instance decidableListed (services : List Service) (inst : Instance) : Decidable (Listed af services inst) :=
  inferInstanceAs (Decidable (∃ service ∈ services, Matches af inst service))

/-- On a given run it can be checked that the events are in order. -/
instance decidableInOrder (w : Watched) : ∀ e, Decidable (InOrder af w e)
  | .browserNew inst created => inferInstanceAs (Decidable (created = false → ¬ Listed af w.self.services inst))
  | .browserRemove _ => .isTrue trivial
  | .resolverFound id _ _ _ =>
    decidable_of_iff (∀ inst ∈ w.self.resolvers.lookup id,
      ∃ current ∈ w.last inst, current = id ∨ current ∈ w.outstanding ∨ current ∈ w.found) Iff.rfl
  | .resolverFailure id =>
    decidable_of_iff (∀ inst ∈ w.self.resolvers.lookup id, w.last inst = some id → ¬ Listed af w.self.services inst) Iff.rfl

/-- Resolvers have their own numbers, are asked for once and answer once. -/
structure Sound (w : Watched) : Prop where
  asked : ∀ id ∈ w.outstanding, id < w.self.started
  answered : ∀ id ∈ w.found, id < w.self.started ∧ id ∉ w.outstanding
  latest : ∀ inst id, w.last inst = some id → id < w.self.started
  own : ∀ inst id other, w.last inst = some id → (id,other) ∈ w.self.resolvers → other = inst

variable {af} {w next : Watched} {e : Event}

theorem listed_remove (injective : Function.Injective af) (services : List Service) (inst other : Instance) :
    Listed af (removeServiceInstance af services inst) other ↔ Listed af services other ∧ other ≠ inst := by
  simp only [Listed,mem_removeServiceInstance]
  constructor
  · rintro ⟨service,⟨listed,kept⟩,same⟩
    refine ⟨⟨service,listed,same⟩,?_⟩
    rintro rfl
    exact kept same
  · rintro ⟨⟨service,listed,same⟩,apart⟩
    refine ⟨service,⟨listed,fun also => apart ?_⟩,same⟩
    obtain ⟨name,type,iface,proto⟩ := same
    obtain ⟨name',type',iface',proto'⟩ := also
    cases other with
    | mk oname otype ointerface oprotocol =>
      cases inst with
      | mk iname itype iinterface iprotocol =>
        simp only [Instance.mk.injEq]
        exact ⟨name.trans name'.symm,type.trans type'.symm,iface.symm.trans iface',
          injective (proto.symm.trans proto')⟩

theorem listed_found (injective : Function.Injective af) (self : Stmdns) (inst other : Instance) (host address : String)
    (port : UInt16) :
    Listed af (resolveFound self (serviceOf af inst host address port)).services other ↔
      Listed af self.services other ∨ other = inst := by
  have matching : Matches af other (serviceOf af inst host address port) ↔ other = inst := by
    cases other
    cases inst
    simp only [Matches,serviceOf,Instance.mk.injEq,injective.eq_iff]
    tauto
  unfold resolveFound
  split
  next there =>
    refine ⟨.inl,?_⟩
    rintro (listed | rfl)
    · exact listed
    · exact ⟨_,there,matching.mpr rfl⟩
  next => simp [Listed,or_and_right,exists_or,matching]

theorem resolveFound_frame (self : Stmdns) (p : Service) :
    (resolveFound self p).resolvers = self.resolvers ∧ (resolveFound self p).started = self.started := by
  unfold resolveFound
  split <;> exact ⟨rfl,rfl⟩

theorem mem_freeResolver {self : Stmdns} {id : Nat} {r : Nat × Instance} :
    r ∈ (freeResolver self id).resolvers ↔ r ∈ self.resolvers ∧ r.1 ≠ id := by
  simp [freeResolver]

theorem mem_outstanding {id : Nat} : id ∈ w.outstanding ↔ ∃ inst, (id,inst) ∈ w.self.resolvers := by
  simp [Watched.outstanding]

theorem lookup_mem {resolvers : List (Nat × Instance)} {id : Nat} {inst : Instance}
    (found : resolvers.lookup id = some inst) : (id,inst) ∈ resolvers := by
  obtain ⟨before,after,split,_⟩ := List.lookup_eq_some_iff.mp found
  rw [split]
  exact List.mem_append_right before List.mem_cons_self

/-- What an event does. -/
inductive Moves (af : Protocol → Int) (w : Watched) : Event → Watched → Prop
  | new (inst : Instance) (created : Bool) : Moves af w (.browserNew inst created)
      ⟨browserNew w.self inst created,Function.update w.last inst (some w.self.started),w.found⟩
  | remove (inst : Instance) : Moves af w (.browserRemove inst)
      ⟨browserRemove af w.self inst,Function.update w.last inst none,w.found⟩
  | found (id : Nat) (inst : Instance) (host address : String) (port : UInt16)
      (there : w.self.resolvers.lookup id = some inst) : Moves af w (.resolverFound id host address port)
      ⟨resolveFound (freeResolver w.self id) (serviceOf af inst host address port),w.last,id :: w.found⟩
  | failure (id : Nat) (inst : Instance) (there : w.self.resolvers.lookup id = some inst) :
      Moves af w (.resolverFailure id) ⟨freeResolver w.self id,w.last,w.found⟩

theorem watch_moves (stepped : watch af w e = some next) : Moves af w e next := by
  cases e with
  | browserNew inst created =>
    cases stepped
    exact .new inst created
  | browserRemove inst =>
    cases stepped
    exact .remove inst
  | resolverFound id host address port =>
    simp only [watch,step,Option.map_map,Option.map_eq_some_iff] at stepped
    obtain ⟨inst,there,rfl⟩ := stepped
    exact .found id inst host address port there
  | resolverFailure id =>
    simp only [watch,step,Option.map_map,Option.map_eq_some_iff] at stepped
    obtain ⟨inst,there,rfl⟩ := stepped
    exact .failure id inst there

/-- A resolver that answers is no longer outstanding. -/
theorem outstanding_answered {self : Stmdns} {id : Nat} (resolvers : self.resolvers = (freeResolver w.self id).resolvers)
    (last : Instance → Option Nat) (found : List Nat) (one : Nat) :
    one ∈ Watched.outstanding ⟨self,last,found⟩ ↔ one ∈ w.outstanding ∧ one ≠ id := by
  simp only [mem_outstanding,resolvers,mem_freeResolver,exists_and_right]

theorem sound_answered (sound : Sound w) {id : Nat} (asked : id ∈ w.outstanding) {self : Stmdns} {found : List Nat}
    (resolvers : self.resolvers = (freeResolver w.self id).resolvers) (started : self.started = w.self.started)
    (more : ∀ one ∈ found, one = id ∨ one ∈ w.found) : Sound ⟨self,w.last,found⟩ := by
  have left := fun one => (outstanding_answered resolvers w.last found one).mp
  refine ⟨fun one member => ?_,fun one member => ?_,fun inst one is => ?_,fun inst one other is there => ?_⟩
  · rw [started]
    exact sound.asked one (left one member).1
  · rw [started]
    rcases more one member with rfl | before
    · exact ⟨sound.asked one asked,fun still => (left one still).2 rfl⟩
    · exact ⟨(sound.answered one before).1,fun still => (sound.answered one before).2 (left one still).1⟩
  · rw [started]
    exact sound.latest inst one is
  · rw [resolvers] at there
    exact sound.own inst one other is (mem_freeResolver.mp there).1

theorem sound_step (sound : Sound w) (stepped : watch af w e = some next) : Sound next := by
  cases watch_moves stepped with
  | new inst created =>
    have asked : ∀ r ∈ (browserNew w.self inst created).resolvers,
        r ∈ w.self.resolvers ∨ r = (w.self.started,inst) := by
      intro r member
      cases created with
      | false => exact .inl member
      | true => simpa [browserNew] using member
    have latest : ∀ {other : Instance} (id : Nat), Function.update w.last inst (some w.self.started) other = some id →
        other = inst ∧ id = w.self.started ∨ other ≠ inst ∧ w.last other = some id := by
      intro other id is
      by_cases same : other = inst
      · subst same
        simp only [Function.update_self,Option.some.injEq] at is
        exact .inl ⟨rfl,is.symm⟩
      · rw [Function.update_of_ne same] at is
        exact .inr ⟨same,is⟩
    refine ⟨fun id member => ?_,fun id member => ?_,fun other id is => ?_,fun other id one is there => ?_⟩
    · obtain ⟨one,there⟩ := mem_outstanding.mp member
      rcases asked _ there with before | this
      · exact Nat.lt_succ_of_lt (sound.asked id (mem_outstanding.mpr ⟨one,before⟩))
      · cases this
        exact Nat.lt_succ_self _
    · obtain ⟨below,gone⟩ := sound.answered id member
      refine ⟨Nat.lt_succ_of_lt below,fun still => ?_⟩
      obtain ⟨one,there⟩ := mem_outstanding.mp still
      rcases asked _ there with before | this
      · exact gone (mem_outstanding.mpr ⟨one,before⟩)
      · cases this
        exact Nat.lt_irrefl _ below
    · rcases latest id is with ⟨_,rfl⟩ | ⟨_,before⟩
      · exact Nat.lt_succ_self _
      · exact Nat.lt_succ_of_lt (sound.latest other id before)
    · rcases latest id is with ⟨rfl,rfl⟩ | ⟨_,before⟩
      · rcases asked _ there with earlier | this
        · exact absurd (sound.asked _ (mem_outstanding.mpr ⟨one,earlier⟩)) (Nat.lt_irrefl _)
        · exact congrArg Prod.snd this
      · rcases asked _ there with earlier | this
        · exact sound.own other id one before earlier
        · cases this
          exact absurd (sound.latest other _ before) (Nat.lt_irrefl _)
  | remove inst =>
    have before : ∀ other id, Function.update w.last inst none other = some id → w.last other = some id := by
      intro other id is
      by_cases same : other = inst
      · subst same
        simp at is
      · rwa [Function.update_of_ne same] at is
    exact ⟨sound.asked,sound.answered,fun other id is => sound.latest other id (before other id is),
      fun other id one is => sound.own other id one (before other id is)⟩
  | found id inst host address port there =>
    obtain ⟨resolvers,started⟩ := resolveFound_frame (freeResolver w.self id) (serviceOf af inst host address port)
    exact sound_answered sound (mem_outstanding.mpr ⟨inst,lookup_mem there⟩) resolvers started
      (fun one member => List.mem_cons.mp member)
  | failure id inst there =>
    exact sound_answered sound (mem_outstanding.mpr ⟨inst,lookup_mem there⟩) rfl rfl (fun one member => .inr member)

/-- What an event does not concern stays right. -/
theorem settled_one (settled : Settled af w) (inst : Instance)
    (listed : ∀ other ≠ inst, Listed af next.self.services other ↔ Listed af w.self.services other)
    (last : ∀ other ≠ inst, next.last other = w.last other)
    (same : ∀ other ≠ inst, ∀ id, w.last other = some id →
      (id ∉ next.outstanding → id ∉ w.outstanding) ∧ (id ∈ next.found ↔ id ∈ w.found)) :
    Settled af next ↔ (next.Answered inst → (Listed af next.self.services inst ↔ next.Current inst)) := by
  refine ⟨fun all => all inst,fun one other done => ?_⟩
  by_cases this : other = inst
  · subst this
    exact one done
  · have before : w.Answered other := by
      intro id is
      exact (same other this id is).1 (done id ((last other this).trans is))
    have current : next.Current other ↔ w.Current other := by
      simp only [Watched.Current,last other this]
      exact exists_congr fun id => and_congr_right fun is => (same other this id is).2
    rw [listed other this,current]
    exact settled other before

/-- A resolver that answers concerns its own instance only. -/
theorem settled_answered (sound : Sound w) (settled : Settled af w) {id : Nat} {inst : Instance}
    (there : w.self.resolvers.lookup id = some inst) {self : Stmdns} {found : List Nat}
    (resolvers : self.resolvers = (freeResolver w.self id).resolvers)
    (listed : ∀ other ≠ inst, Listed af self.services other ↔ Listed af w.self.services other)
    (more : ∀ one, one ≠ id → (one ∈ found ↔ one ∈ w.found)) :
    Settled af ⟨self,w.last,found⟩ ↔
      (Watched.Answered ⟨self,w.last,found⟩ inst →
        (Listed af self.services inst ↔ Watched.Current ⟨self,w.last,found⟩ inst)) := by
  refine settled_one settled inst listed (fun _ _ => rfl) fun other this one is => ?_
  have apart : one ≠ id := by
    rintro rfl
    exact this (sound.own other one inst is (lookup_mem there)).symm
  refine ⟨fun gone still => gone ?_,more one apart⟩
  exact (outstanding_answered resolvers w.last found one).mpr ⟨still,apart⟩

theorem settled_found (injective : Function.Injective af) (sound : Sound w) (settled : Settled af w) {id : Nat}
    {inst : Instance} (there : w.self.resolvers.lookup id = some inst) (host address : String) (port : UInt16) :
    Settled af ⟨resolveFound (freeResolver w.self id) (serviceOf af inst host address port),w.last,id :: w.found⟩ ↔
      InOrder af w (.resolverFound id host address port) := by
  have listed := fun other => listed_found injective (freeResolver w.self id) inst other host address port
  obtain ⟨resolvers,_⟩ := resolveFound_frame (freeResolver w.self id) (serviceOf af inst host address port)
  have left := outstanding_answered resolvers w.last (id :: w.found)
  rw [settled_answered sound settled there resolvers
    (fun other apart => (listed other).trans (or_iff_left apart)) (fun one apart => by simp [apart])]
  simp only [listed inst,or_true,true_iff]
  constructor
  · intro right other also
    cases there.symm.trans also
    cases last : w.last inst with
    | none =>
      obtain ⟨current,is,_⟩ := right fun one is => nomatch last.symm.trans is
      exact nomatch last.symm.trans is
    | some current =>
      refine ⟨current,rfl,?_⟩
      by_cases waiting : current ∈ w.outstanding
      · exact .inr (.inl waiting)
      · obtain ⟨one,is,answered⟩ := right fun one is => by
          cases last.symm.trans is
          exact fun still => waiting ((left _).mp still).1
        cases last.symm.trans is
        rcases List.mem_cons.mp answered with this | before
        · exact .inl this
        · exact .inr (.inr before)
  · intro order done
    obtain ⟨current,is,this | waiting | before⟩ := order inst there
    · exact ⟨current,is,this ▸ List.mem_cons_self⟩
    · by_cases this : current = id
      · exact ⟨current,is,this ▸ List.mem_cons_self⟩
      · exact absurd ((left current).mpr ⟨waiting,this⟩) (done current is)
    · exact ⟨current,is,List.mem_cons_of_mem _ before⟩

theorem settled_failure (sound : Sound w) (settled : Settled af w) {id : Nat} {inst : Instance}
    (there : w.self.resolvers.lookup id = some inst) :
    Settled af ⟨freeResolver w.self id,w.last,w.found⟩ ↔ InOrder af w (.resolverFailure id) := by
  have left : ∀ one, one ∈ Watched.outstanding ⟨freeResolver w.self id,w.last,w.found⟩ ↔
      one ∈ w.outstanding ∧ one ≠ id :=
    outstanding_answered rfl w.last w.found
  have fresh : id ∉ w.found := fun found => (sound.answered id found).2 (mem_outstanding.mpr ⟨inst,lookup_mem there⟩)
  rw [settled_answered sound settled there rfl (fun _ _ => Iff.rfl) (fun _ _ => Iff.rfl)]
  constructor
  · intro right other also last
    cases there.symm.trans also
    have done : Watched.Answered ⟨freeResolver w.self id,w.last,w.found⟩ inst := by
      intro one is still
      cases last.symm.trans is
      exact ((left id).mp still).2 rfl
    rintro still
    obtain ⟨one,is,found⟩ := (right done).mp still
    cases last.symm.trans is
    exact fresh found
  · intro order done
    by_cases last : w.last inst = some id
    · refine iff_of_false (order inst there last) ?_
      rintro ⟨one,is,found⟩
      cases last.symm.trans is
      exact fresh found
    · refine settled inst fun one is still => done one is ((left one).mpr ⟨still,?_⟩)
      rintro rfl
      exact last is

theorem settled_new (sound : Sound w) (settled : Settled af w) (inst : Instance) (created : Bool) :
    Settled af ⟨browserNew w.self inst created,Function.update w.last inst (some w.self.started),w.found⟩ ↔
      InOrder af w (.browserNew inst created) := by
  have kept : ∀ r ∈ w.self.resolvers, r ∈ (browserNew w.self inst created).resolvers := by
    intro r member
    cases created with
    | false => exact member
    | true => exact List.mem_append_left _ member
  refine Iff.trans (settled_one settled inst (fun _ _ => Iff.rfl) (fun other apart => Function.update_of_ne apart ..)
    (fun other apart id is => ⟨fun gone still => gone ?_,Iff.rfl⟩)) ?_
  · obtain ⟨one,there⟩ := mem_outstanding.mp still
    exact mem_outstanding.mpr ⟨one,kept _ there⟩
  · have fresh : w.self.started ∉ w.found := fun found => Nat.lt_irrefl _ (sound.answered _ found).1
    have unlisted : ¬ Watched.Current ⟨browserNew w.self inst created,Function.update w.last inst (some w.self.started),
        w.found⟩ inst := by
      rintro ⟨id,is,found⟩
      simp only [Function.update_self,Option.some.injEq] at is
      exact fresh (is ▸ found)
    simp only [unlisted,iff_false]
    refine imp_congr_left ⟨fun done => ?_,fun none id is => ?_⟩
    · cases created with
      | false => rfl
      | true =>
        refine absurd (mem_outstanding.mpr ⟨inst,?_⟩) (done w.self.started (Function.update_self ..))
        exact List.mem_append_right _ (List.mem_singleton_self _)
    · subst none
      simp only [Function.update_self,Option.some.injEq] at is
      subst is
      exact fun still => Nat.lt_irrefl _ (sound.asked _ still)

theorem settled_remove (injective : Function.Injective af) (settled : Settled af w) (inst : Instance) :
    Settled af ⟨browserRemove af w.self inst,Function.update w.last inst none,w.found⟩ := by
  have listed := fun other => listed_remove injective w.self.services inst other
  refine Iff.mpr (settled_one settled inst (fun other apart => (listed other).trans (and_iff_left apart))
    (fun other apart => Function.update_of_ne apart ..) (fun _ _ _ _ => ⟨fun gone => gone,Iff.rfl⟩)) fun _ => ?_
  refine iff_of_false (fun still => ((listed inst).mp still).2 rfl) ?_
  rintro ⟨id,is,_⟩
  simp at is

/-- An event in order keeps the list right about the instances whose resolvers have answered,
    and no other does. -/
theorem settled_step (injective : Function.Injective af) (sound : Sound w) (settled : Settled af w)
    (stepped : watch af w e = some next) : Settled af next ↔ InOrder af w e := by
  cases watch_moves stepped with
  | new inst created => exact settled_new sound settled inst created
  | remove inst => exact iff_of_true (settled_remove injective settled inst) trivial
  | found id inst host address port there => exact settled_found injective sound settled there host address port
  | failure id inst there => exact settled_failure sound settled there

/-- The list is right about every instance whose resolver has answered, all along a run,
    exactly where the events of the run are in order. -/
theorem run_settled_iff (injective : Function.Injective af) (events : List Event) :
    Always (watch af) (Settled af) watchNew events ↔ Meets (watch af) (InOrder af) watchNew events := by
  have sound : Sound watchNew :=
    ⟨fun id member => by simp [Watched.outstanding,watchNew,stMdnsNew] at member,
      fun id member => by simp [watchNew] at member,fun inst id is => by simp [watchNew] at is,
      fun inst id other is => by simp [watchNew] at is⟩
  have settled : Settled af watchNew := by
    refine fun inst _ => iff_of_false ?_ ?_
    · rintro ⟨service,listed,_⟩
      simp [watchNew,stMdnsNew] at listed
    · rintro ⟨id,is,_⟩
      simp [watchNew] at is
  have keeps : ∀ (w : Watched) (e : Event) (next : Watched), Sound w → Settled af w → watch af w e = some next →
      Sound next :=
    fun _ _ _ sound _ => sound_step sound
  have both : Always (watch af) (fun w => Sound w ∧ Settled af w) watchNew events ↔
      Meets (watch af) (InOrder af) watchNew events := by
    refine always_iff_meets (fun w e _ stopped => ?_) (fun w e next holds stepped => ?_) ⟨sound,settled⟩ events
    · cases e with
      | browserNew inst created => simp [watch,step] at stopped
      | browserRemove inst => trivial
      | resolverFound id host address port =>
        intro inst there
        simp [watch,step,there] at stopped
      | resolverFailure id =>
        intro inst there
        simp [watch,step,there] at stopped
    · rw [settled_step injective holds.1 holds.2 stepped |>.symm]
      exact and_iff_right (sound_step holds.1 stepped)
  rw [← both]
  exact ⟨always_and keeps sound,always_mono fun _ holds => holds.2⟩

/-- In every run whose events are in order the list has exactly the current instances whenever
    no resolver is outstanding. -/
theorem run_mirrored (injective : Function.Injective af) (events : List Event)
    (order : Meets (watch af) (InOrder af) watchNew events) :
    Always (watch af) (fun w => w.self.resolvers = [] → Mirrored af w) watchNew events := by
  refine always_mono (fun w settled quiet inst => ?_) ((run_settled_iff injective events).mpr order)
  refine settled inst fun id _ asked => ?_
  obtain ⟨other,there⟩ := mem_outstanding.mp asked
  simp [quiet] at there

/-- A peer is advertised on two interfaces and over both protocols of one of them, disappears from an interface while
a resolver for it on the other is outstanding, comes back there with another address, and goes for good. -/
theorem resolved_mirrored :
    Function.Injective linuxAf ∧
      Always (watch linuxAf) (fun w => w.self.resolvers = [] → Mirrored linuxAf w) watchNew
        [.browserNew ⟨"peer","_starter._tcp",2,.inet⟩ true,.browserNew ⟨"peer","_starter._tcp",2,.inet6⟩ true,
          .resolverFailure 1,.resolverFound 0 "peer.local" "10.0.0.7" 5000,
          .browserNew ⟨"peer","_starter._tcp",3,.inet⟩ true,.browserRemove ⟨"peer","_starter._tcp",2,.inet⟩,
          .resolverFound 2 "peer.local" "10.1.0.7" 5000,.browserNew ⟨"peer","_starter._tcp",2,.inet⟩ true,
          .resolverFound 3 "peer.local" "10.0.0.8" 5001,.browserRemove ⟨"peer","_starter._tcp",3,.inet⟩,
          .browserRemove ⟨"peer","_starter._tcp",2,.inet⟩] := by
  have injective : Function.Injective linuxAf := by
    intro one other same
    cases one <;> cases other <;> first | rfl | simp [linuxAf] at same
  exact ⟨injective,run_mirrored injective _ (by decide +kernel)⟩

/-- An answer that crosses the removal of its instance lists it for good. -/
theorem answer_after_removal :
    ¬ Always (watch linuxAf) (fun w => w.self.resolvers = [] → Mirrored linuxAf w) watchNew
      [.browserNew ⟨"peer","_starter._tcp",2,.inet⟩ true,.browserRemove ⟨"peer","_starter._tcp",2,.inet⟩,
        .resolverFound 0 "peer.local" "10.0.0.7" 5000] := by
  intro always
  have mirrored := always_last always rfl rfl ⟨"peer","_starter._tcp",2,.inet⟩
  obtain ⟨id,last,_⟩ := mirrored.mp ⟨⟨"peer","_starter._tcp","peer.local","10.0.0.7",5000,2,2⟩,by decide,by decide⟩
  simp at last

end Starter.Mdns
