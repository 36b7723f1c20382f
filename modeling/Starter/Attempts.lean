import Starter.Core

/-!
The completions of the starts of clients, with what C makes of them: the handler is given
the address of a `PendingClient` and reads it, also when the record was freed and when
the address has been given to another record since. As long as no service is removed
while its start is pending, every completion finds its own record.
-/
namespace Starter.Attempts
open Objects Expressions Rules Peers Starter.Core Lib.Runs

variable {α W : Type}

section
variable [Gdouble α] [DecidableEq α]

/-- One event, where a completion runs the handler in any case. -/
def rawStep (setup : Setup α W) (self : StCore α W) (event : Event α W) : Option (StCore α W) :=
  match event with
  | .startFinished place success loaded orders =>
    if self.hung then none
    else
      match self.registry.attempts[place]? with
      | none => none
      | some attempt =>
        (self.withRegistry (self.registry.complete place)).onClientStartFinished setup attempt.record success loaded orders
  | event => step setup self event

/-- Every completion to be delivered refers to a record that has not been freed. -/
def Intact (core : StCore α W) : Prop :=
  ∀ attempt ∈ core.registry.attempts, attempt.removed = false ∧
    ∃ name, core.registry.heap attempt.record = some ⟨name,attempt.client⟩

/-- If the event is the completion of an attempt that was removed, no client is registered
    and no later attempt is removed or failed. -/
def Harmless (setup : Setup α W) (core : StCore α W) (event : Event α W) : Prop :=
  ∀ place success loaded orders attempt next, event = .startFinished place success loaded orders →
    core.registry.attempts[place]? = some attempt → attempt.removed = true → rawStep setup core event = some next →
      next.registry.clients = core.registry.clients ∧ next.registry.pendingClients = core.registry.pendingClients ∧
        next.registry.heap = core.registry.heap

/-- The event does not remove a service whose start is pending. -/
def KeepsPending (core : StCore α W) (event : Event α W) : Prop :=
  ∀ name orders, event = .serviceRemoved name orders → core.registry.pendingClients name = none

end

/-- Records, pending starts and completions to be delivered belong to each other. -/
structure Tracked (registry : Registry α) : Prop where
  distinct : (registry.attempts.map Attempt.record).Nodup
  live : ∀ attempt ∈ registry.attempts, attempt.removed = false ∧
    ∃ name, registry.heap attempt.record = some ⟨name,attempt.client⟩ ∧
      registry.pendingClients name = some attempt.record
  due : ∀ name record, registry.pendingClients name = some record →
    ∃ attempt ∈ registry.attempts, attempt.record = record ∧ registry.heap record = some ⟨name,attempt.client⟩

variable {registry later : Registry α}

theorem tracked_congr (tracked : Tracked registry) (attempts : later.attempts = registry.attempts)
    (heap : later.heap = registry.heap) (pending : later.pendingClients = registry.pendingClients) : Tracked later := by
  obtain ⟨distinct,live,due⟩ := tracked
  refine ⟨?_,?_,?_⟩
  · rwa [attempts]
  · rwa [attempts,heap,pending]
  · rwa [attempts,heap,pending]

/-- A completion takes its attempt out of those to be delivered, and its handler the name
    out of the table. -/
theorem complete_tracked (tracked : Tracked registry) {place : Nat} {attempt : Attempt} {name : String}
    (there : registry.attempts[place]? = some attempt)
    (own : registry.heap attempt.record = some ⟨name,attempt.client⟩)
    (pending : registry.pendingClients name = some attempt.record) :
    Tracked ((registry.complete place).steal name) ∧
      ∀ other ∈ (registry.complete place).attempts, other.record ≠ attempt.record := by
  obtain ⟨below,rfl⟩ := List.getElem?_eq_some_iff.mp there
  have perm := List.getElem_cons_eraseIdx_perm below
  have distinct := (perm.map Attempt.record).nodup_iff.mpr tracked.distinct
  rw [List.map_cons,List.nodup_cons] at distinct
  have others : ∀ other ∈ registry.attempts.eraseIdx place, other.record ≠ registry.attempts[place].record := by
    intro other member same
    exact distinct.1 (same ▸ List.mem_map_of_mem member)
  refine ⟨⟨distinct.2,?_,?_⟩,others⟩
  · intro other member
    obtain ⟨kept,otherName,allocated,stored⟩ := tracked.live other (perm.subset (List.mem_cons_of_mem _ member))
    refine ⟨kept,otherName,allocated,?_⟩
    have apart : otherName ≠ name := by
      rintro rfl
      exact others other member (Option.some.inj (stored.symm.trans pending))
    exact (Function.update_of_ne apart _ _).trans stored
  · intro otherName record stored
    by_cases same : otherName = name
    · subst same
      simp [Registry.steal] at stored
    · have stored : registry.pendingClients otherName = some record :=
        (Function.update_of_ne same _ _).symm.trans stored
      obtain ⟨other,member,rfl,allocated⟩ := tracked.due otherName record stored
      rcases List.mem_cons.mp (perm.symm.subset member) with rfl | rest
      · rw [own] at allocated
        cases allocated
        exact absurd rfl same
      · exact ⟨other,rest,rfl,allocated⟩

/-- A record that no completion refers to is freed. -/
theorem free_tracked (tracked : Tracked registry) {record : Nat}
    (unused : ∀ attempt ∈ registry.attempts, attempt.record ≠ record) : Tracked (registry.free record) := by
  have same : (registry.free record).attempts = registry.attempts := by
    refine (List.map_congr_left fun attempt member => ?_).trans (List.map_id _)
    simp [unused attempt member]
  refine ⟨?_,?_,?_⟩
  · rw [same]
    exact tracked.distinct
  · intro attempt member
    rw [same] at member
    obtain ⟨kept,name,allocated,stored⟩ := tracked.live attempt member
    exact ⟨kept,name,(Function.update_of_ne (unused attempt member) _ _).trans allocated,stored⟩
  · intro name other stored
    obtain ⟨attempt,member,rfl,allocated⟩ := tracked.due name other stored
    rw [same]
    exact ⟨attempt,member,rfl,(Function.update_of_ne (unused attempt member) _ _).trans allocated⟩

variable [Gdouble α] [DecidableEq α] {setup : Setup α W} {core next : StCore α W}

private theorem onClientStartFinished_tracked (tracked : Tracked core.registry) {place : Nat} {attempt : Attempt}
    {success : Bool} {loaded : Client α} {orders : Orders} (there : core.registry.attempts[place]? = some attempt)
    (finished : (core.withRegistry (core.registry.complete place)).onClientStartFinished setup attempt.record success
      loaded orders = some next) : Tracked next.registry := by
  obtain ⟨_,name,own,pending⟩ := tracked.live attempt (List.mem_of_getElem? there)
  obtain ⟨retired,unused⟩ := complete_tracked tracked there own pending
  have own : (core.registry.complete place).heap attempt.record = some ⟨name,attempt.client⟩ := own
  have pending : (core.registry.complete place).pendingClients name = some attempt.record := pending
  simp only [StCore.onClientStartFinished,StCore.withRegistry,own,pending,ne_eq,not_true_eq_false,if_false] at finished
  split at finished
  · obtain ⟨middle,registered,rfl⟩ := Option.map_eq_some_iff.mp finished
    simp only [StCore.registerReadyClient] at registered
    split at registered
    · cases registered
      split
      · exact tracked_congr retired rfl rfl rfl
      · exact tracked_congr (free_tracked retired unused) rfl rfl rfl
    · cases registered
  · cases finished
    simp only [Registry.removePending,pending]
    exact free_tracked retired unused

omit [Gdouble α] [DecidableEq α] in
private theorem onMdnsServiceAdded_tracked (tracked : Tracked core.registry) {name : String} {record client : Nat}
    (added : core.onMdnsServiceAdded setup name record client = some next) : Tracked next.registry := by
  simp only [StCore.onMdnsServiceAdded] at added
  split at added
  · rename_i wanted
    split at added
    · rename_i fresh
      cases added
      simp only [Bool.and_eq_true,Option.isNone_iff_eq_none] at wanted fresh
      -- Every other completion has a record that is allocated, and a name that is pending.
      have records : ∀ attempt ∈ core.registry.attempts, attempt.record ≠ record := by
        rintro attempt member rfl
        obtain ⟨_,_,allocated,_⟩ := tracked.live attempt member
        rw [fresh.1.1] at allocated
        cases allocated
      refine ⟨?_,?_,?_⟩
      · simp only [StCore.withRegistry,List.map_append,List.map_cons,List.map_nil]
        refine List.nodup_append.mpr ⟨tracked.distinct,by simp,?_⟩
        rintro _ member _ (_ | ⟨_,⟨⟩⟩)
        obtain ⟨attempt,among,rfl⟩ := List.mem_map.mp member
        exact records attempt among
      · intro attempt member
        simp only [StCore.withRegistry,List.mem_append,List.mem_singleton] at member
        rcases member with before | rfl
        · obtain ⟨kept,other,allocated,stored⟩ := tracked.live attempt before
          have apart : other ≠ name := by
            rintro rfl
            rw [wanted.2] at stored
            cases stored
          exact ⟨kept,other,(Function.update_of_ne (records attempt before) _ _).trans allocated,
            (Function.update_of_ne apart _ _).trans stored⟩
        · exact ⟨rfl,name,Function.update_self _ _ _,Function.update_self _ _ _⟩
      · intro other wantedRecord stored
        simp only [StCore.withRegistry] at stored ⊢
        by_cases same : other = name
        · subst same
          simp only [Function.update_self,Option.some.injEq] at stored
          subst stored
          exact ⟨⟨client,record,false⟩,by simp,rfl,Function.update_self _ _ _⟩
        · rw [Function.update_of_ne same] at stored
          obtain ⟨attempt,member,rfl,allocated⟩ := tracked.due other wantedRecord stored
          exact ⟨attempt,List.mem_append_left _ member,rfl,
            (Function.update_of_ne (records attempt member) _ _).trans allocated⟩
    · cases added
  · cases added
    exact tracked

omit [Gdouble α] [DecidableEq α] in
private theorem onMdnsServiceRemoved_tracked (tracked : Tracked core.registry) {name : String} {orders : Orders}
    (free : core.registry.pendingClients name = none)
    (removed : core.onMdnsServiceRemoved name orders = some next) : Tracked next.registry := by
  simp only [StCore.onMdnsServiceRemoved,Registry.removePending,free] at removed
  split at removed
  · split at removed
    · cases removed
      exact tracked_congr tracked rfl rfl rfl
    · cases removed
  · cases removed
    exact tracked

/-- An event that removes no pending start keeps records, starts and completions together. -/
theorem rawStep_tracked {event : Event α W} (tracked : Tracked core.registry) (keeps : KeepsPending core event)
    (stepped : rawStep setup core event = some next) : Tracked next.registry := by
  cases event with
  | startFinished place success loaded orders =>
    simp only [rawStep] at stepped
    split at stepped
    · cases stepped
    · split at stepped
      · cases stepped
      · rename_i attempt there
        exact onClientStartFinished_tracked tracked there stepped
  | serviceAdded name record client =>
    simp only [rawStep,step] at stepped
    split at stepped
    · cases stepped
    · exact onMdnsServiceAdded_tracked tracked stepped
  | serviceRemoved name orders =>
    simp only [rawStep,step] at stepped
    split at stepped
    · cases stepped
    · exact onMdnsServiceRemoved_tracked tracked (keeps name orders rfl) stepped
  | message client message =>
    have tables : SameTables core.registry next.registry := by
      cases message with
      | inputChanged obj =>
        simp only [rawStep,step] at stepped
        split at stepped
        · cases stepped
        · split at stepped
          · cases stepped
            exact handleChanged_tables setup .input client obj core
          · cases stepped
      | outputChanged obj =>
        simp only [rawStep,step] at stepped
        split at stepped
        · cases stepped
        · split at stepped
          · cases stepped
            exact handleChanged_tables setup .output client obj core
          · cases stepped
    obtain ⟨objs,same⟩ := tables
    rw [same]
    exact tracked_congr tracked rfl rfl rfl
  | peersAct peers =>
    simp only [rawStep,step] at stepped
    split at stepped
    · cases stepped
    · cases stepped
      exact tracked

/-- The removal of a service whose start is pending leaves a completion without a record. -/
theorem rawStep_removed {name : String} {orders : Orders} (tracked : Tracked core.registry)
    (pending : core.registry.pendingClients name ≠ none)
    (stepped : rawStep setup core (.serviceRemoved name orders) = some next) : ¬ Intact next := by
  obtain ⟨record,stored⟩ := Option.ne_none_iff_exists'.mp pending
  obtain ⟨attempt,member,rfl,_⟩ := tracked.due name record stored
  have stale : { attempt with removed := true } ∈ (core.registry.removePending name).attempts := by
    simp only [Registry.removePending,stored]
    exact List.mem_map.mpr ⟨attempt,member,by simp⟩
  have attempts : next.registry.attempts = (core.registry.removePending name).attempts := by
    simp only [rawStep,step,StCore.onMdnsServiceRemoved] at stepped
    split at stepped
    · cases stepped
    · split at stepped
      · split at stepped
        · cases stepped
          rfl
        · cases stepped
      · cases stepped
        rfl
  intro intact
  rw [← attempts] at stale
  cases (intact _ stale).1

/-- In a run every completion refers to a record that is not freed, and no completion of
    a removed attempt does anything, exactly when no service is removed while its start
    is pending. -/
theorem completions_safe_iff (setup : Setup α W) (engine : EngineState α W) (events : List (Event α W)) (last : StCore α W)
    (ran : run (rawStep setup) (start engine) events = some last) :
    (Always (rawStep setup) Intact (start engine) events ∧ Meets (rawStep setup) (Harmless setup) (start engine) events) ↔
      Meets (rawStep setup) KeepsPending (start engine) events := by
  have initial : Tracked (start engine).registry := ⟨by simp [start],by simp [start],by simp [start]⟩
  generalize start engine = core at ran initial
  have intact : ∀ {core : StCore α W}, Tracked core.registry → Intact core := by
    intro core tracked attempt member
    obtain ⟨kept,name,allocated,_⟩ := tracked.live attempt member
    exact ⟨kept,name,allocated⟩
  induction events generalizing core with
  | nil => exact ⟨fun _ => trivial,fun _ => ⟨intact initial,trivial⟩⟩
  | cons event rest ih =>
    obtain ⟨next,stepped,ran⟩ := run_cons.mp ran
    constructor
    · rintro ⟨always,harmless⟩
      have keeps : KeepsPending core event := by
        rintro name orders rfl
        by_contra pending
        exact rawStep_removed initial pending stepped (always_first (always.2 next stepped))
      refine ⟨keeps,fun other also => ?_⟩
      obtain rfl := Option.some.inj (stepped.symm.trans also)
      exact (ih next ran (rawStep_tracked initial keeps stepped)).mp ⟨always.2 next stepped,harmless.2 next stepped⟩
    · rintro ⟨keeps,later⟩
      have after := (ih next ran (rawStep_tracked initial keeps stepped)).mpr (later next stepped)
      refine ⟨⟨intact initial,fun other also => ?_⟩,?_,fun other also => ?_⟩
      · obtain rfl := Option.some.inj (stepped.symm.trans also)
        exact after.1
      · intro place success loaded orders attempt _ _ there removed
        rw [(initial.live attempt (List.mem_of_getElem? there)).1] at removed
        cases removed
      · obtain rfl := Option.some.inj (stepped.symm.trans also)
        exact after.2

private def idleSetup : Setup ℚ Unit :=
  ⟨⟨[],[]⟩,fun _ => ⟨fun w _ _ _ => (true,w),fun w _ _ _ => (true,w)⟩,1,1,fun _ => true⟩

private def idleEngine : EngineState ℚ Unit := ⟨fun _ => none,freshMem,(),[]⟩

private def hallEvents : List (Event ℚ Unit) :=
  [.serviceAdded "ST:hall" 0 0,.serviceAdded "ST:gate" 1 1,.startFinished 1 false ⟨[],[]⟩ ⟨[],[]⟩,
    .serviceRemoved "ST:gate" ⟨[],[]⟩,.startFinished 0 true ⟨[],[]⟩ ⟨[("ST:hall",0)],[("ST:hall",0)]⟩]

theorem completions_safe_iff_hall :
    (Always (rawStep idleSetup) Intact (start idleEngine) hallEvents ∧
      Meets (rawStep idleSetup) (Harmless idleSetup) (start idleEngine) hallEvents) ↔
      Meets (rawStep idleSetup) KeepsPending (start idleEngine) hallEvents :=
  completions_safe_iff idleSetup idleEngine hallEvents _ rfl

/-- A service is removed while its start is pending, and comes back before the completion
    of that start: the record is gone, and when the new attempt gets its address, the
    failure of the old one removes the new one. -/
theorem removed_start_dangles : ∃ removed again last : StCore ℚ Unit,
    run (rawStep idleSetup) (start idleEngine) [.serviceAdded "ST:hall" 0 0,.serviceRemoved "ST:hall" ⟨[],[]⟩] =
      some removed ∧
    removed.registry.attempts = [⟨0,0,true⟩] ∧ removed.registry.heap 0 = none ∧ ¬ Intact removed ∧
    rawStep idleSetup removed (.serviceAdded "ST:hall" 0 1) = some again ∧
    again.registry.attempts = [⟨0,0,true⟩,⟨1,0,false⟩] ∧ again.registry.pendingClients "ST:hall" = some 0 ∧
    rawStep idleSetup again (.startFinished 0 false ⟨[],[]⟩ ⟨[],[]⟩) = some last ∧
    last.registry.pendingClients "ST:hall" = none := by
  refine ⟨_,_,_,rfl,rfl,rfl,?_,rfl,rfl,rfl,rfl,rfl⟩
  intro intact
  cases (intact ⟨0,0,true⟩ List.mem_cons_self).1

end Starter.Attempts
