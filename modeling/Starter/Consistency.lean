import Starter.Core

/-!
The tables of the Core are right whenever the engine runs: no service is both pending
and connected, every entry of `all_inputs` and `all_outputs` leads to an object of its
name at a connected client, and every object of a connected client has an entry.
-/
namespace Starter.Consistency
open Objects Expressions Rules Peers Starter.Core Lib.Tables Lib.Runs

variable {α W : Type}

/-- One of the tables leads to the objects of the connected clients. -/
structure Indexed (registry : Registry α) (side : Side) : Prop where
  connected : ∀ k cmap, registry.table side k = some cmap → ∃ name, (name,cmap.client) ∈ registry.clients
  inside : ∀ k cmap, registry.table side k = some cmap →
    cmap.index < ((registry.objs cmap.client).array side).length
  named : ∀ k cmap, registry.table side k = some cmap → ∃ obj, registry.read side cmap = some obj ∧ obj.name = k
  complete : ∀ entry ∈ registry.clients, ∀ obj ∈ (registry.objs entry.2).array side, registry.table side obj.name ≠ none

structure Consistent (registry : Registry α) : Prop where
  apart : ∀ name, registry.pendingClients name ≠ none → registry.containsClient name = false
  indexed : ∀ side, Indexed registry side

/-- The entries of a table, in the order in which they are inserted. -/
private def entries (objs : Nat → Client α) (side : Side) (order : List (String × Nat)) : List (String × ClientMap) :=
  order.flatMap fun entry => foreachAdd entry.2 ((objs entry.2).array side)

private theorem setupHashTable_eq (objs : Nat → Client α) (side : Side) (order : List (String × Nat)) :
    setupHashTable objs side order = insertAll (fun _ => none) (entries objs side order) :=
  insertAll_flatMap _ _ _

theorem mem_foreachAdd {client : Nat} {array : List (IoObject α)} {k : String} {cmap : ClientMap} :
    (k,cmap) ∈ foreachAdd client array ↔ cmap.client = client ∧ ∃ obj, array[cmap.index]? = some obj ∧ obj.name = k := by
  unfold foreachAdd
  constructor
  · intro member
    obtain ⟨⟨obj,i⟩,among,same⟩ := List.mem_map.mp member
    cases same
    exact ⟨rfl,obj,List.mem_zipIdx_iff_getElem?.mp among,rfl⟩
  · rintro ⟨rfl,obj,there,rfl⟩
    exact List.mem_map.mpr ⟨(obj,cmap.index),List.mem_zipIdx_iff_getElem?.mpr there,rfl⟩

/-- A table that has just been made is right, whatever the order of the clients was. -/
theorem setupHashTable_indexed {registry : Registry α} {side : Side} {order : List (String × Nat)}
    (all : order.Perm registry.clients) (made : registry.table side = setupHashTable registry.objs side order) :
    Indexed registry side := by
  have found : ∀ k cmap, registry.table side k = some cmap → (∃ name, (name,cmap.client) ∈ registry.clients) ∧
      ∃ obj, ((registry.objs cmap.client).array side)[cmap.index]? = some obj ∧ obj.name = k := by
    intro k cmap stored
    rw [made,setupHashTable_eq] at stored
    obtain ⟨⟨name,client⟩,visited,added⟩ := List.mem_flatMap.mp ((insertAll_some stored).resolve_right (by simp))
    obtain ⟨rfl,read⟩ := mem_foreachAdd.mp added
    exact ⟨⟨name,all.subset visited⟩,read⟩
  refine ⟨fun k cmap stored => (found k cmap stored).1,?_,fun k cmap stored => (found k cmap stored).2,?_⟩
  · intro k cmap stored
    obtain ⟨obj,there,_⟩ := (found k cmap stored).2
    exact (List.getElem?_eq_some_iff.mp there).1
  · intro entry connected obj member
    obtain ⟨i,there⟩ := List.mem_iff_getElem?.mp member
    rw [made,setupHashTable_eq]
    refine insertAll_mem (.inl ⟨⟨entry.2,i⟩,List.mem_flatMap.mpr ⟨entry,all.symm.subset connected,?_⟩⟩)
    exact mem_foreachAdd.mpr ⟨rfl,obj,there,rfl⟩

theorem rebuild_indexed {registry : Registry α} {orders : Orders} (fits : registry.fits orders = true) (side : Side) :
    Indexed (registry.rebuild orders) side := by
  simp only [Registry.fits,Bool.and_eq_true,List.isPerm_iff] at fits
  cases side with
  | input => exact setupHashTable_indexed fits.1 rfl
  | output => exact setupHashTable_indexed fits.2 rfl

/-- The registries differ in what the objects hold beside their names. -/
structure SameNames (registry later : Registry α) : Prop where
  clients : later.clients = registry.clients
  pending : later.pendingClients = registry.pendingClients
  table : ∀ side, later.table side = registry.table side
  read : ∀ side cmap, (later.read side cmap).map IoObject.name = (registry.read side cmap).map IoObject.name

theorem sameNames_consistent {registry later : Registry α} (same : SameNames registry later)
    (consistent : Consistent registry) : Consistent later := by
  have apart := consistent.apart
  refine ⟨?_,fun side => ?_⟩
  · simpa only [Registry.containsClient,same.clients,same.pending] using apart
  · have indexed := consistent.indexed side
    have named : ∀ k cmap, later.table side k = some cmap → ∃ obj, later.read side cmap = some obj ∧ obj.name = k := by
      intro k cmap stored
      obtain ⟨obj,there,rfl⟩ := indexed.named k cmap (same.table side ▸ stored)
      have kept := same.read side cmap
      rw [there] at kept
      exact Option.map_eq_some_iff.mp kept
    refine ⟨?_,?_,named,?_⟩
    · rw [same.table,same.clients]
      exact indexed.connected
    · intro k cmap stored
      obtain ⟨obj,there,_⟩ := named k cmap stored
      exact (List.getElem?_eq_some_iff.mp there).1
    · intro entry connected obj member
      obtain ⟨i,there⟩ := List.mem_iff_getElem?.mp member
      have kept := same.read side ⟨entry.2,i⟩
      have there : later.read side ⟨entry.2,i⟩ = some obj := there
      rw [there,Option.map_some] at kept
      obtain ⟨old,was,named⟩ := Option.map_eq_some_iff.mp kept.symm
      rw [same.table,← named]
      exact indexed.complete entry (same.clients ▸ connected) old (List.mem_of_getElem? was)

/-- The object at a place of a client's array has the name. -/
def NamedAt (registry : Registry α) (side : Side) (client index : Nat) (name : String) : Prop :=
  (registry.read side ⟨client,index⟩).map IoObject.name = some name

theorem write_sameNames {core : StCore α W} {side : Side} {client index : Nat} {obj : IoObject α}
    (named : NamedAt core.registry side client index obj.name) :
    SameNames core.registry (core.write side client index obj).registry := by
  refine ⟨rfl,rfl,by rintro ⟨_ | _⟩ <;> rfl,?_⟩
  intro other cmap
  rw [write_read]
  split
  · rename_i here
    obtain ⟨rfl,rfl⟩ := here
    obtain ⟨old,there,_⟩ := Option.map_eq_some_iff.mp named
    rw [named,there]
    rfl
  · rfl

/-- The tables are right, and were whenever the engine ran. -/
def Right (core : StCore α W) : Prop :=
  Consistent core.registry ∧ ∀ call ∈ core.calls, Consistent call.registry

theorem write_right {core : StCore α W} {side : Side} {client index : Nat} {obj : IoObject α}
    (named : NamedAt core.registry side client index obj.name) (right : Right core) :
    Right (core.write side client index obj) :=
  ⟨sameNames_consistent (write_sameNames named) right.1,right.2⟩

theorem write_named {core : StCore α W} {side : Side} {client index : Nat} {obj : IoObject α} {name : String}
    (same : obj.name = name) (named : NamedAt core.registry side client index name) :
    NamedAt (core.write side client index obj).registry side client index name := by
  subst same
  exact ((write_sameNames named).read side ⟨client,index⟩).trans named

/-- Removal of a pending start leaves the other tables. -/
theorem removePending_apart (registry : Registry α) (name : String) :
    (registry.removePending name).clients = registry.clients ∧
    (∀ side, (registry.removePending name).table side = registry.table side) ∧
    (registry.removePending name).objs = registry.objs ∧
    ∀ other, (registry.removePending name).pendingClients other ≠ none → registry.pendingClients other ≠ none := by
  unfold Registry.removePending
  split
  · exact ⟨rfl,fun _ => rfl,rfl,fun _ => id⟩
  · refine ⟨rfl,by rintro ⟨_ | _⟩ <;> rfl,rfl,?_⟩
    intro other there gone
    apply there
    by_cases same : other = name
    · simp [Registry.free,Registry.steal,same]
    · simp [Registry.free,Registry.steal,Function.update_of_ne same,gone]

theorem indexed_of_objs {registry later : Registry α} {side : Side} (indexed : Indexed registry side)
    (clients : later.clients = registry.clients) (table : later.table side = registry.table side)
    (objs : ∀ entry ∈ registry.clients, later.objs entry.2 = registry.objs entry.2) : Indexed later side := by
  have same : ∀ k cmap, later.table side k = some cmap → later.objs cmap.client = registry.objs cmap.client := by
    intro k cmap stored
    obtain ⟨name,connected⟩ := indexed.connected k cmap (table ▸ stored)
    exact objs _ connected
  refine ⟨?_,?_,?_,?_⟩
  · rw [table,clients]
    exact indexed.connected
  · intro k cmap stored
    rw [same k cmap stored]
    exact indexed.inside k cmap (table ▸ stored)
  · intro k cmap stored
    unfold Registry.read
    rw [same k cmap stored]
    exact indexed.named k cmap (table ▸ stored)
  · intro entry connected obj member
    rw [clients] at connected
    rw [objs entry connected] at member
    rw [table]
    exact indexed.complete entry connected obj member

theorem removePending_consistent {registry : Registry α} {name : String} (consistent : Consistent registry) :
    Consistent (registry.removePending name) := by
  obtain ⟨clients,table,objs,pending⟩ := removePending_apart registry name
  refine ⟨?_,fun side => indexed_of_objs (consistent.indexed side) clients (table side) fun _ _ => by rw [objs]⟩
  intro other still
  unfold Registry.containsClient
  rw [clients]
  exact consistent.apart other (pending other still)

variable [Gdouble α]

/-- No setter renames an object, nor does any handler of its signals see another name. -/
theorem setters_name {side : Side} {message : IoObject α} {setter : IoObject α → Update α}
    (among : setter ∈ setters side message) (obj : IoObject α) :
    (setter obj).obj.name = obj.name ∧ ∀ raised ∈ (setter obj).emitted, raised.2.name = obj.name := by
  simp only [setters,List.mem_cons,List.not_mem_nil,or_false] at among
  rcases among with rfl | rfl | rfl | rfl | rfl | rfl | rfl
  · simp only [ioSetDescription]
    split <;> simp
  · simp only [ioSetUnit]
    split <;> simp
  · simp only [ioSetMin]
    split <;> (try split) <;> simp
  · simp only [ioSetMax]
    split <;> (try split) <;> simp
  · exact ioSetStep_name _ obj _
  · simp only [ioSetVal]
    split <;> (try split) <;> simp
  · simp only [ioSetFlags]
    split <;> simp

variable [DecidableEq α] {setup : Setup α W} {core later : StCore α W}

theorem apply_right {key : Option String} (right : Right core) : Right (core.apply setup key) := by
  refine ⟨right.1,fun call member => ?_⟩
  simp only [StCore.apply,List.mem_append,List.mem_singleton] at member
  rcases member with before | rfl
  · exact right.2 call before
  · exact right.1

/-- What the handlers of a setter's signals keep. -/
private theorem raised_right (setup : Setup α W) {side : Side} {client index : Nat} {name : String} {raised : List (IoSignal × IoObject α)}
    (names : ∀ e ∈ raised, e.2.name = name) (named : NamedAt core.registry side client index name) (right : Right core) :
    NamedAt (core.raised setup side client index raised).registry side client index name ∧
      Right (core.raised setup side client index raised) := by
  induction raised generalizing core with
  | nil => exact ⟨named,right⟩
  | cons first rest ih =>
    obtain ⟨signal,seen⟩ := first
    have same : seen.name = name := names (signal,seen) List.mem_cons_self
    have names := fun e member => names e (List.mem_cons_of_mem _ member)
    simp only [StCore.raised]
    split
    · exact ⟨named,right⟩
    · have written := write_right (same.symm ▸ named) right
      split
      · exact ih names (write_named same named) (apply_right written)
      · exact ih names (write_named same named) written

private theorem set_right (setup : Setup α W) {side : Side} {client index : Nat} {name : String} {setter : IoObject α → Update α}
    (names : ∀ obj, (setter obj).obj.name = obj.name ∧ ∀ raised ∈ (setter obj).emitted, raised.2.name = obj.name)
    (named : NamedAt core.registry side client index name) (right : Right core) :
    NamedAt (core.set setup side client index setter).registry side client index name ∧
      Right (core.set setup side client index setter) := by
  unfold StCore.set
  split
  · exact ⟨named,right⟩
  · obtain ⟨obj,there,rfl⟩ := Option.map_eq_some_iff.mp named
    simp only [there]
    have after := raised_right setup (names obj).2 named right
    split
    · exact after
    · exact ⟨write_named (names obj).1 after.1,write_right ((names obj).1.symm ▸ after.1) after.2⟩

private theorem sets_right {side : Side} {client index : Nat} {name : String} {list : List (IoObject α → Update α)}
    (names : ∀ setter ∈ list, ∀ obj : IoObject α,
      (setter obj).obj.name = obj.name ∧ ∀ raised ∈ (setter obj).emitted, raised.2.name = obj.name)
    (named : NamedAt core.registry side client index name) (right : Right core) :
    Right (list.foldl (fun core setter => core.set setup side client index setter) core) := by
  induction list generalizing core with
  | nil => exact right
  | cons setter rest ih =>
    have after := set_right setup (names setter List.mem_cons_self) named right
    exact ih (fun setter among => names setter (List.mem_cons_of_mem _ among)) after.1 after.2

/-- A message changes what objects hold, and the engine runs on tables that are right. -/
theorem handleChanged_right {side : Side} {client : Nat} {message : IoObject α} (right : Right core) :
    Right (core.handleChanged setup side client message) := by
  unfold StCore.handleChanged
  split
  · exact right
  · rename_i index found
    obtain ⟨below,_⟩ := List.findIdx?_eq_some_iff_getElem.mp found
    have named : NamedAt core.registry side client index (((core.registry.objs client).array side)[index]).name := by
      simp only [NamedAt,Registry.read,List.getElem?_eq_getElem below,Option.map_some]
    exact sets_right (fun setter among => setters_name among) named right

theorem registerReadyClient_right {name : String} {client : Nat} {orders : Orders}
    (registered : core.registerReadyClient setup name client orders = some later)
    (calls : ∀ call ∈ core.calls, Consistent call.registry) (free : core.registry.pendingClients name = none)
    (apart : ∀ other, core.registry.pendingClients other ≠ none → core.registry.containsClient other = false) :
    Right later := by
  simp only [StCore.registerReadyClient] at registered
  split at registered
  · rename_i fits
    cases registered
    refine apply_right ⟨⟨?_,rebuild_indexed fits⟩,calls⟩
    intro other pending
    have different : name ≠ other := by
      rintro rfl
      exact pending free
    have before := apart other pending
    simp only [Registry.containsClient,List.any_eq_false,beq_iff_eq] at before
    simp only [StCore.withRegistry,Registry.rebuild,Registry.containsClient,Registry.insertClient,Registry.removeClient,
      List.any_cons,Bool.or_eq_false_iff,beq_eq_false_iff_ne,List.any_eq_false,beq_iff_eq,List.mem_filter]
    exact ⟨different,fun entry member => before entry member.1⟩
  · cases registered

theorem onClientStartFinished_right {record : Nat} {success : Bool} {loaded : Client α} {orders : Orders}
    (right : Right core) (finished : core.onClientStartFinished setup record success loaded orders = some later) :
    Right later := by
  unfold StCore.onClientStartFinished at finished
  split at finished
  · cases finished
  · rename_i pending allocated
    split at finished
    · cases finished
      exact right
    · split at finished
      · obtain ⟨middle,registered,rfl⟩ := Option.map_eq_some_iff.mp finished
        have stolen : ∀ other, (core.registry.steal pending.name).pendingClients other ≠ none →
            core.registry.containsClient other = false := by
          intro other still
          refine right.1.apart other fun gone => still ?_
          by_cases same : other = pending.name
          · simp [Registry.steal,same]
          · simp [Registry.steal,Function.update_of_ne same,gone]
        have after : Right middle :=
          registerReadyClient_right registered right.2 (by simp [StCore.withRegistry,Registry.load,Registry.steal]) stolen
        split
        · exact after
        · have same : SameNames middle.registry (middle.registry.free record) :=
            ⟨rfl,rfl,by rintro ⟨_ | _⟩ <;> rfl,fun _ _ => rfl⟩
          exact ⟨sameNames_consistent same after.1,after.2⟩
      · cases finished
        exact ⟨removePending_consistent right.1,right.2⟩

omit [Gdouble α] [DecidableEq α] in
theorem onMdnsServiceRemoved_right {name : String} {orders : Orders} (right : Right core)
    (removed : core.onMdnsServiceRemoved name orders = some later) : Right later := by
  have before : Consistent (core.registry.removePending name) := removePending_consistent right.1
  simp only [StCore.onMdnsServiceRemoved] at removed
  split at removed
  · split at removed
    · rename_i fits
      cases removed
      refine ⟨⟨?_,rebuild_indexed fits⟩,right.2⟩
      intro other pending
      have apart := before.apart other pending
      simp only [Registry.containsClient,List.any_eq_false,beq_iff_eq] at apart
      simp only [StCore.withRegistry,Registry.rebuild,Registry.containsClient,Registry.removeClient,List.any_eq_false,
        beq_iff_eq,List.mem_filter]
      exact fun entry member => apart entry member.1
    · cases removed
  · cases removed
    exact ⟨before,right.2⟩

omit [Gdouble α] [DecidableEq α] in
theorem onMdnsServiceAdded_right {name : String} {record client : Nat} (right : Right core)
    (added : core.onMdnsServiceAdded setup name record client = some later) : Right later := by
  simp only [StCore.onMdnsServiceAdded] at added
  split at added
  · rename_i wanted
    split at added
    · rename_i fresh
      cases added
      simp only [Bool.and_eq_true,Bool.not_eq_true',List.all_eq_true,bne_iff_ne] at wanted fresh
      refine ⟨⟨?_,fun side => ?_⟩,right.2⟩
      · intro other pending
        by_cases same : other = name
        · subst same
          exact wanted.1.2
        · simp only [StCore.withRegistry,Function.update_of_ne same] at pending
          exact right.1.apart other pending
      · -- The new client is none of those connected.
        refine indexed_of_objs (right.1.indexed side) rfl (by cases side <;> rfl) fun entry connected => ?_
        exact Function.update_of_ne (fresh.1.2 entry connected) _ _
    · cases added
  · cases added
    exact right

/-- Whatever event comes, the tables stay right. -/
theorem step_right {event : Event α W} (right : Right core) (stepped : step setup core event = some later) :
    Right later := by
  unfold step at stepped
  split at stepped
  · cases stepped
  · cases event with
    | serviceAdded name record client => exact onMdnsServiceAdded_right right stepped
    | serviceRemoved name orders => exact onMdnsServiceRemoved_right right stepped
    | startFinished place success loaded orders =>
      have same : SameNames core.registry (core.registry.complete place) :=
        ⟨rfl,rfl,by rintro ⟨_ | _⟩ <;> rfl,fun _ _ => rfl⟩
      have erased : Right (core.withRegistry (core.registry.complete place)) :=
        ⟨sameNames_consistent same right.1,right.2⟩
      simp only at stepped
      split at stepped
      · cases stepped
      · split at stepped
        · cases stepped
          exact erased
        · exact onClientStartFinished_right erased stepped
    | message client message =>
      cases message with
      | inputChanged obj =>
        simp only at stepped
        split at stepped
        · cases stepped
          exact handleChanged_right right
        · cases stepped
      | outputChanged obj =>
        simp only at stepped
        split at stepped
        · cases stepped
          exact handleChanged_right right
        · cases stepped
    | peersAct peers =>
      cases stepped
      exact right

/-- Whatever events come, the tables are right, and were at every call of `engine_apply`. -/
theorem run_consistent (setup : Setup α W) (engine : EngineState α W) (events : List (Event α W)) (last : StCore α W)
    (ran : run (step setup) (start engine) events = some last) :
    Consistent last.registry ∧ ∀ call ∈ last.calls, Consistent call.registry := by
  have initial : Right (start engine) := by
    refine ⟨⟨by simp [start],fun side => ?_⟩,by simp [start]⟩
    cases side <;> exact ⟨by simp [start,Registry.table],by simp [start,Registry.table],by simp [start,Registry.table],
      by simp [start]⟩
  exact run_preserves (fun core event next right stepped => step_right right stepped) events _ _ initial ran

private def bareSetup : Setup ℚ Unit :=
  ⟨⟨[],[]⟩,fun _ => ⟨fun w _ _ _ => (true,w),fun w _ _ _ => (true,w)⟩,1,1,fun _ => true⟩

/-- Two peers have an input `door`; the first of them goes. -/
private def doorEvents : List (Event ℚ Unit) :=
  [.serviceAdded "ST:hall" 0 0,
    .startFinished 0 true ⟨[⟨"door","",0,0,1,1,0,0⟩],[]⟩ ⟨[("ST:hall",0)],[("ST:hall",0)]⟩,
    .serviceAdded "ST:gate" 0 1,
    .startFinished 0 true ⟨[⟨"bell","",0,0,1,1,0,0⟩,⟨"door","",0,0,1,1,1,0⟩],[]⟩
      ⟨[("ST:hall",0),("ST:gate",1)],[("ST:gate",1),("ST:hall",0)]⟩,
    .serviceRemoved "ST:hall" ⟨[("ST:gate",1)],[("ST:gate",1)]⟩]

theorem run_consistent_doors : ∃ last : StCore ℚ Unit,
    run (step bareSetup) (start ⟨fun _ => none,freshMem,(),[]⟩) doorEvents = some last ∧ last.calls.length = 2 ∧
      Consistent last.registry ∧ ∀ call ∈ last.calls, Consistent call.registry :=
  ⟨_,rfl,rfl,run_consistent bareSetup _ doorEvents _ rfl⟩

end Starter.Consistency
