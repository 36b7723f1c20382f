import Starter.Core
import Starter.Cascade

/-!
Requests of the rules that cross with changes of the peers. A request carries a value
and a flags word, one of which the assignment is about; the other is taken from the
mirrored object, and the peer sets both. Messages reach the mirror between two calls of
`engine_apply` only, whatever the peers do in the meantime.
-/
namespace Starter.Crossing
open Gdouble Objects Expressions Rules Relevance Cascade Peers Starter.Core Lib.Runs

variable {α : Type}

/-- A call `SetOutput` or `SetInput`. -/
structure Request (α : Type) where
  side : Side
  id : String
  val : α
  flags : IoFlags
deriving DecidableEq

/-- The peers with the messages they have sent, and the Core with the mirror. -/
structure World (α : Type) where
  registry : Registry α
  network : Network α
  applying : Bool

def serverArray (self : Server α) : Side → List (IoObject α)
  | .input => self.inputs
  | .output => self.outputs

def withServerArray (self : Server α) (array : List (IoObject α)) : Side → Server α
  | .input => { self with inputs := array }
  | .output => { self with outputs := array }

/-- The message that announces a change. -/
def announce : Side → IoObject α → Message α
  | .input => .inputChanged
  | .output => .outputChanged

/-- A change that a peer makes to one of its objects. -/
inductive Change (α : Type)
  | val (v : α)
  | flags (word : IoFlags)

/-- What happens between the Core and its peers. The engine works off assignments, each
    with the value of its right-hand side. -/
inductive Event (α : Type)
  | applyStarts
  | applyReturns
  | assign (ass : Assign α) (v : α)
  | peerChanges (client : Nat) (side : Side) (index : Nat) (change : Change α)
  | deliver (client : Nat)

/-- The mirrored object of the name. -/
def mirrored (registry : Registry α) (id : String) : Side → Option (IoObject α)
  | .input => registry.io.inputs id
  | .output => registry.io.outputs id

/-- The object at the peer that a request for the name reaches. -/
def peerObject (world : World α) (side : Side) (id : String) : Option (IoObject α) :=
  match side with
  | .input => (world.registry.routes.inputs id).bind fun client => findNamed id (world.network client).server.inputs
  | .output => (world.registry.routes.outputs id).bind fun client => findNamed id (world.network client).server.outputs

section
variable [Gdouble α]

def Change.update (obj : IoObject α) : Change α → Update α
  | .val v => ioSetVal obj v
  | .flags word => ioSetFlags obj word

/-- The request that `assign_apply` makes when the right-hand side has the value. -/
def requestOf (registry : Registry α) (ass : Assign α) (v : α) : Option (Request α) :=
  if ass.flagBit = 0 then
    match mirrored registry ass.id .output with
    | none => none
    | some output =>
      if eq output.val v || hasFlag output.flags stIoFlagManualOverride then none
      else some ⟨.output,ass.id,v,output.flags⟩
  else if !stIoFlagBitIsUsr ass.flagBit then none
  else
    match mirrored registry ass.id .output with
    | some output =>
      let newFlags := writeFlag output.flags ass.flagBit (truth v)
      if newFlags = output.flags then none else some ⟨.output,ass.id,output.val,newFlags⟩
    | none =>
      match mirrored registry ass.id .input with
      | none => none
      | some input =>
        let newFlags := writeFlag input.flags ass.flagBit (truth v)
        if newFlags = input.flags then none else some ⟨.input,ass.id,input.val,newFlags⟩

/-- The peer processes the request. -/
def send (routes : Routes) (network : Network α) (request : Request α) : Network α :=
  match request.side with
  | .output => ((networkBus routes).setOutput network request.id request.val request.flags).2
  | .input => ((networkBus routes).setInput network request.id request.val request.flags).2

/-- The handler of a message sets the mirrored object. -/
def receive (registry : Registry α) (side : Side) (client : Nat) (message : IoObject α) : Registry α :=
  match place registry side client message with
  | none => registry
  | some index =>
    match registry.read side ⟨client,index⟩ with
    | none => registry
    | some obj =>
      let old := registry.objs client
      let obj := afterSetters (setters side message) obj
      { registry with
        objs := Function.update registry.objs client (old.withArray ((old.array side).set index obj) side) }

/-- The first of the messages of a peer reaches the mirror. -/
def World.deliver (world : World α) (client : Nat) : Option (World α) :=
  let peer := world.network client
  match peer.sent with
  | [] => none
  | message :: rest =>
    let network := Function.update world.network client { peer with sent := rest }
    match message with
    | .inputChanged obj => some ⟨receive world.registry .input client obj,network,world.applying⟩
    | .outputChanged obj => some ⟨receive world.registry .output client obj,network,world.applying⟩

/-- A peer changes an object of its own and announces it. -/
def World.change (world : World α) (client : Nat) (side : Side) (index : Nat) (change : Change α) : Option (World α) :=
  let peer := world.network client
  (serverArray peer.server side)[index]?.map fun obj =>
    let update := change.update obj
    let server := withServerArray peer.server ((serverArray peer.server side).set index update.obj) side
    { world with
      network := Function.update world.network client
        ⟨server,peer.sent ++ (Update.announced update).map (announce side)⟩ }

def step (world : World α) : Event α → Option (World α)
  | .applyStarts => if world.applying then none else some { world with applying := true }
  | .applyReturns => if world.applying then some { world with applying := false } else none
  | .assign ass v =>
    if world.applying then
      match requestOf world.registry ass v with
      | none => some world
      | some request => some { world with network := send world.registry.routes world.network request }
    else none
  | .peerChanges client side index change => world.change client side index change
  | .deliver client => if world.applying then none else world.deliver client

/-- The object has the flags word, but for the bit that the assignment is about; for an
    assignment of a value the whole word. -/
def SameFlags (ass : Assign α) (flags other : IoFlags) : Prop := flags &&& ~~~ass.flagBit = other &&& ~~~ass.flagBit

/-- If the event is an assignment that makes a request, the peer keeps the field that the
    assignment is not about: the flags word when it is of a value, the value and every
    other flag when it is of a flag. -/
def Targeted (world : World α) (event : Event α) : Prop :=
  ∀ ass v request old new next, event = .assign ass v → step world event = some next →
    requestOf world.registry ass v = some request → peerObject world request.side request.id = some old →
    peerObject next request.side request.id = some new →
    if ass.flagBit = 0 then new.flags = old.flags else new.val = old.val ∧ SameFlags ass new.flags old.flags

/-- If it is, the peer refuses the request, or its object has the field that the
    assignment is not about as the mirrored object has it. -/
def Current (world : World α) (event : Event α) : Prop :=
  ∀ ass v request mirror old, event = .assign ass v → world.applying = true →
    requestOf world.registry ass v = some request → mirrored world.registry request.id request.side = some mirror →
    peerObject world request.side request.id = some old →
    Accepts old request.val = false ∨
      if ass.flagBit = 0 then mirror.flags = old.flags
      else snapToStep mirror.val old.step = old.val ∧ SameFlags ass mirror.flags old.flags

/-- If the event is an assignment that makes a request for an output that is overridden
    at the peer, the output keeps its value and stays overridden. -/
def Held (world : World α) (event : Event α) : Prop :=
  ∀ ass v request old new next, event = .assign ass v → step world event = some next →
    requestOf world.registry ass v = some request → request.side = .output →
    peerObject world .output request.id = some old → hasFlag old.flags stIoFlagManualOverride = true →
    peerObject next .output request.id = some new →
    new.val = old.val ∧ hasFlag new.flags stIoFlagManualOverride = true

/-- If it is, the peer refuses the request, or the assignment is of a flag and the
    mirrored output is overridden too and has the value of the peer's. -/
def Aware (world : World α) (event : Event α) : Prop :=
  ∀ ass v request mirror old, event = .assign ass v → world.applying = true →
    requestOf world.registry ass v = some request → request.side = .output →
    mirrored world.registry request.id .output = some mirror → peerObject world .output request.id = some old →
    hasFlag old.flags stIoFlagManualOverride = true →
    Accepts old request.val = false ∨
      (ass.flagBit ≠ 0 ∧ hasFlag mirror.flags stIoFlagManualOverride = true ∧ snapToStep mirror.val old.step = old.val)

variable {registry : Registry α} {ass : Assign α} {v : α} {request : Request α} {world : World α}

omit [Gdouble α] in
theorem withServerArray_array (self : Server α) (array : List (IoObject α)) (side other : Side) :
    serverArray (withServerArray self array side) other = if other = side then array else serverArray self other := by
  cases side <;> cases other <;> rfl

/-- What a request carries. -/
theorem requestOf_some (made : requestOf registry ass v = some request) :
    request.id = ass.id ∧ ∃ mirror, mirrored registry ass.id request.side = some mirror ∧
      ((ass.flagBit = 0 ∧ request.side = .output ∧ request.val = v ∧ request.flags = mirror.flags ∧
          hasFlag mirror.flags stIoFlagManualOverride = false) ∨
        (stIoFlagBitIsUsr ass.flagBit = true ∧ request.val = mirror.val ∧
          request.flags = writeFlag mirror.flags ass.flagBit (truth v))) := by
  unfold requestOf at made
  split at made
  · rename_i value
    split at made
    · cases made
    · rename_i output shown
      split at made
      · cases made
      · rename_i differs
        cases made
        simp only [Bool.or_eq_true,not_or,Bool.not_eq_true] at differs
        exact ⟨rfl,output,shown,.inl ⟨value,rfl,rfl,rfl,differs.2⟩⟩
  · split at made
    · cases made
    · rename_i usr
      replace usr : stIoFlagBitIsUsr ass.flagBit = true := by simpa using usr
      split at made
      · rename_i output shown
        simp only at made
        split at made
        · cases made
        · cases made
          exact ⟨rfl,output,shown,.inr ⟨usr,rfl,rfl⟩⟩
      · split at made
        · cases made
        · rename_i input shown
          simp only at made
          split at made
          · cases made
          · cases made
            exact ⟨rfl,input,shown,.inr ⟨usr,rfl,rfl⟩⟩

/-- A request reaches the object of its name. -/
theorem send_object {old : IoObject α} (there : peerObject world request.side request.id = some old) :
    peerObject { world with network := send world.registry.routes world.network request } request.side request.id =
      some (setValFlags old request.val request.flags).obj := by
  obtain ⟨side,id,val,flags⟩ := request
  cases side with
  | input =>
    obtain ⟨client,route,found⟩ := Option.bind_eq_some_iff.mp there
    exact Option.bind_eq_some_iff.mpr ⟨client,route,networkBus_setInput val flags route found⟩
  | output =>
    obtain ⟨client,route,found⟩ := Option.bind_eq_some_iff.mp there
    exact Option.bind_eq_some_iff.mpr ⟨client,route,(networkBus_setOutput val flags route found).2⟩

/-- An assignment that makes a request ends in a state where the peer has processed it. -/
private theorem step_assign {next : World α} (made : requestOf world.registry ass v = some request)
    (stepped : step world (.assign ass v) = some next) :
    world.applying = true ∧ next = { world with network := send world.registry.routes world.network request } := by
  simp only [step,made] at stepped
  split at stepped
  · rename_i applying
    cases stepped
    exact ⟨applying,rfl⟩
  · cases stepped

private theorem assign_steps (made : requestOf world.registry ass v = some request) (applying : world.applying = true) :
    step world (.assign ass v) = some { world with network := send world.registry.routes world.network request } := by
  simp [step,made,applying]

/-- One request of a rule leaves the other field exactly when the peer refuses it or the
    mirror has that field as the peer does. -/
theorem targeted_iff (world : World α) (event : Event α) : Targeted world event ↔ Current world event := by
  constructor
  · intro targeted ass v request mirror old isAssign applying made shown there
    subst isAssign
    obtain ⟨named,mirror',shown',carried⟩ := requestOf_some made
    rw [named] at shown
    obtain rfl := Option.some.inj (shown.symm.trans shown')
    have kept := targeted ass v request old _ _ rfl (assign_steps made applying) made there (send_object there)
    cases accepted : Accepts old request.val with
    | false => exact .inl rfl
    | true =>
      refine .inr ?_
      rw [(setValFlags_accepted accepted).2] at kept
      rcases carried with ⟨value,_,_,flags,_⟩ | ⟨usr,val,flags⟩
      · simp only [value,if_true] at kept ⊢
        exact flags ▸ kept
      · have bit := stIoFlagBitIsUsr_ne_zero usr
        simp only [bit,if_false,SameFlags,val,flags,writeFlag_others] at kept ⊢
        exact kept
  · intro current ass v request old new next isAssign stepped made there after
    subst isAssign
    obtain ⟨applying,rfl⟩ := step_assign made stepped
    obtain rfl := Option.some.inj ((send_object there).symm.trans after)
    obtain ⟨named,mirror,shown,carried⟩ := requestOf_some made
    cases accepted : Accepts old request.val with
    | false =>
      rw [(setValFlags_rejected accepted).2]
      split
      · rfl
      · exact ⟨rfl,rfl⟩
    | true =>
      have same := (current ass v request mirror old rfl applying made (by rw [named]; exact shown) there).resolve_left
        (by simp [accepted])
      rw [(setValFlags_accepted accepted).2]
      rcases carried with ⟨value,_,_,flags,_⟩ | ⟨usr,val,flags⟩
      · simp only [value,if_true] at same ⊢
        exact flags.trans same
      · have bit := stIoFlagBitIsUsr_ne_zero usr
        simp only [bit,if_false,SameFlags,val,flags,writeFlag_others] at same ⊢
        exact same

/-- In any interleaving every assignment of a rule alters only the field it is about
    exactly when every request is refused or carries along what the peer has. -/
theorem run_targeted_iff (world : World α) (events : List (Event α)) :
    Meets step Targeted world events ↔ Meets step Current world events :=
  ⟨meets_mono fun world event => (targeted_iff world event).mp,meets_mono fun world event => (targeted_iff world event).mpr⟩

/-- Writing a user flag does not touch the override. -/
theorem writeFlag_override {bit : IoFlags} (usr : stIoFlagBitIsUsr bit = true) (flags : IoFlags) (on : Bool) :
    hasFlag (writeFlag flags bit on) stIoFlagManualOverride = hasFlag flags stIoFlagManualOverride := by
  have apart : bit &&& stIoFlagManualOverride = 0#64 := by
    simp only [stIoFlagBitIsUsr,Bool.and_eq_true,beq_iff_eq] at usr
    rw [← usr.1.2,BitVec.and_assoc,show stIoFlagUsrMask &&& stIoFlagManualOverride = 0#64 by decide,BitVec.and_zero]
  have inside : ~~~bit &&& stIoFlagManualOverride = stIoFlagManualOverride := by
    ext i below
    have at_i := congrArg (fun word : IoFlags => word[i]) apart
    simp only [BitVec.getElem_and,BitVec.getElem_not,BitVec.getElem_zero] at at_i ⊢
    cases bitAt : bit[i] with
    | false => simp
    | true => simpa [bitAt] using at_i
  have others := congrArg (· &&& stIoFlagManualOverride) (writeFlag_others flags bit on)
  simp only [BitVec.and_assoc,inside] at others
  unfold hasFlag
  rw [others]

/-- One request of a rule leaves an override alone exactly when the peer refuses it or
    the mirror shows the override and the value. -/
theorem held_iff (world : World α) (event : Event α) : Held world event ↔ Aware world event := by
  constructor
  · intro held ass v request mirror old isAssign applying made output shown there overridden
    subst isAssign
    obtain ⟨named,mirror',shown',carried⟩ := requestOf_some made
    rw [named] at shown
    rw [output] at shown'
    obtain rfl := Option.some.inj (shown.symm.trans shown')
    have after := send_object (by rw [output]; exact there)
    rw [output] at after
    have kept := held ass v request old _ _ rfl (assign_steps made applying) made output there overridden after
    cases accepted : Accepts old request.val with
    | false => exact .inl rfl
    | true =>
      refine .inr ?_
      rw [(setValFlags_accepted accepted).2] at kept
      rcases carried with ⟨value,_,_,flags,free⟩ | ⟨usr,val,flags⟩
      · simp only [flags,free] at kept
        cases kept.2
      · have bit := stIoFlagBitIsUsr_ne_zero usr
        simp only [val,flags,writeFlag_override usr] at kept
        exact ⟨bit,kept.2,kept.1⟩
  · intro aware ass v request old new next isAssign stepped made output there overridden after
    subst isAssign
    obtain ⟨applying,rfl⟩ := step_assign made stepped
    have sent := send_object (by rw [output]; exact there)
    rw [output] at sent
    obtain rfl := Option.some.inj (sent.symm.trans after)
    obtain ⟨named,mirror,shown,carried⟩ := requestOf_some made
    cases accepted : Accepts old request.val with
    | false =>
      rw [(setValFlags_rejected accepted).2]
      exact ⟨rfl,overridden⟩
    | true =>
      have same := (aware ass v request mirror old rfl applying made output (by rw [named,← output]; exact shown) there
        overridden).resolve_left (by simp [accepted])
      rw [(setValFlags_accepted accepted).2]
      rcases carried with ⟨value,_,_,_,_⟩ | ⟨usr,val,flags⟩
      · exact absurd value same.1
      · simp only [val,flags,writeFlag_override usr]
        exact ⟨same.2.2,same.2.1⟩

/-- In any interleaving no request of a rule changes the value of an output that is
    overridden at its peer, or ends the override, exactly when every such request is
    refused or writes a flag while the mirror shows the override and the value. -/
theorem run_held_iff (world : World α) (events : List (Event α)) :
    Meets step Held world events ↔ Meets step Aware world events :=
  ⟨meets_mono fun world event => (held_iff world event).mp,meets_mono fun world event => (held_iff world event).mpr⟩

/-- What the engine runs on in a world. -/
structure RunsIn (env : Env α (Network α)) (registry : Registry α) : Prop where
  io : env.io = registry.io
  bus : env.bus = networkBus registry.routes

variable {env : Env α (Network α)} {rules : List (Rule α)} {s t : EngineState α (Network α)} {j : Nat}

private theorem action_run (runsIn : RunsIn env registry) (action : Action env rules j s t) :
    ∃ events : List (Event α), (∀ event ∈ events, ∃ ass v, event = .assign ass v ∧ Assigns rules j ass) ∧
      run step ⟨registry,s.peers,true⟩ events = some ⟨registry,t.peers,true⟩ := by
  have sent : ∀ ass v request, Assigns rules j ass → requestOf registry ass v = some request →
      ∃ events : List (Event α), (∀ event ∈ events, ∃ ass v, event = .assign ass v ∧ Assigns rules j ass) ∧
        run step ⟨registry,s.peers,true⟩ events = some ⟨registry,send registry.routes s.peers request,true⟩ := by
    intro ass v request member made
    refine ⟨[.assign ass v],?_,by simp [run,step,made]⟩
    rintro event among
    exact ⟨ass,v,List.mem_singleton.mp among,member⟩
  cases action with
  | iterated => exact ⟨[],by simp,rfl⟩
  | evaluated => exact ⟨[],by simp,rfl⟩
  | remarked => exact ⟨[],by simp,rfl⟩
  | avoided => exact ⟨[],by simp,rfl⟩
  | @valueSet ass output v member value mirror differs free =>
    rw [runsIn.io] at mirror
    have made : requestOf registry ass v = some ⟨.output,ass.id,v,output.flags⟩ := by
      simp [requestOf,mirrored,value,mirror,differs,free]
    simpa [EngineState.send,runsIn.bus,send] using sent ass v _ member made
  | @outputFlagSet ass output v member usr mirror differs =>
    rw [runsIn.io] at mirror
    have made : requestOf registry ass v =
        some ⟨.output,ass.id,output.val,writeFlag output.flags ass.flagBit (truth v)⟩ := by
      rw [requestOf,if_neg (stIoFlagBitIsUsr_ne_zero usr)]
      simp [mirrored,usr,mirror,differs]
    simpa [EngineState.send,runsIn.bus,send] using sent ass v _ member made
  | @inputFlagSet ass input v member usr unshadowed mirror differs =>
    rw [runsIn.io] at mirror unshadowed
    have made : requestOf registry ass v =
        some ⟨.input,ass.id,input.val,writeFlag input.flags ass.flagBit (truth v)⟩ := by
      rw [requestOf,if_neg (stIoFlagBitIsUsr_ne_zero usr)]
      simp [mirrored,usr,unshadowed,mirror,differs]
    simpa [EngineState.send,runsIn.bus,send] using sent ass v _ member made

variable [DecidableEq α]

/-- What `engine_apply` does to the peers it does by assignments of its rules. -/
theorem steps_run (runsIn : RunsIn env registry) (steps : Steps env rules s t) :
    ∃ events : List (Event α), (∀ event ∈ events, ∃ j ass v, event = .assign ass v ∧ Assigns rules j ass) ∧
      run step ⟨registry,s.peers,true⟩ events = some ⟨registry,t.peers,true⟩ := by
  induction steps with
  | refl => exact ⟨[],by simp,rfl⟩
  | tail _ last ih =>
    obtain ⟨before,assigned,ran⟩ := ih
    cases last with
    | @action j _ _ action =>
      obtain ⟨after,more,went⟩ := action_run runsIn action
      refine ⟨before ++ after,?_,?_⟩
      · intro event member
        rcases List.mem_append.mp member with early | late
        · exact assigned event early
        · exact ⟨j,more event late⟩
      · rw [run_append,ran]
        exact went
    | store => exact ⟨before,assigned,ran⟩

/-- A call of `engine_apply` is a run of assignments. -/
theorem engineApply_run (runsIn : RunsIn env registry) (engine : Engine α) (n : Nat) (key : Option String)
    (s : EngineState α (Network α)) :
    ∃ events : List (Event α), (∀ event ∈ events, ∃ j ass v, event = .assign ass v ∧ Assigns engine.rules j ass) ∧
      run step ⟨registry,s.peers,true⟩ events = some ⟨registry,(engineApply env engine n key s).state.peers,true⟩ :=
  steps_run runsIn (engineApply_steps env engine n key s)

end

private def lamp (val : ℚ) (flags : IoFlags) : IoObject ℚ := ⟨"lamp","",0,0,10,1,val,flags⟩

/-- A peer with an output `lamp`, mirrored as it is. -/
private def lampWorld : World ℚ :=
  ⟨⟨fun _ => ⟨[],[lamp 0 0]⟩,[("ST:hall",0)],fun _ => none,fun _ => none,[],fun _ => none,
      fun id => if id = "lamp" then some ⟨0,0⟩ else none⟩,fun _ => ⟨⟨[],[lamp 0 0]⟩,[]⟩,false⟩

private def lampEnv : Env ℚ (Network ℚ) := ⟨lampWorld.registry.io,networkBus lampWorld.registry.routes,1⟩

private def lampState (network : Network ℚ) : EngineState ℚ (Network ℚ) := ⟨fun _ => none,freshMem,network,[]⟩

private def setLamp : Assign ℚ := ⟨"lamp",.literal 5,0⟩

private def flagLamp : Assign ℚ := ⟨"lamp",.literal 1,stIoFlagUsr1⟩

/-- `TRIGGER WHEN TRUE SET lamp = 5, lamp FLAG USR1 = TRUE;` the second request carries the
    value that the mirror has, and takes the 5 back. -/
theorem flag_takes_value_back :
    ¬ Meets step Targeted lampWorld [.applyStarts,.assign setLamp 5,.assign flagLamp 1] ∧
    (engineApply lampEnv ⟨[],[⟨.literal 1,[setLamp,flagLamp]⟩]⟩ 1 none (lampState lampWorld.network)).returns = true ∧
    findNamed "lamp" ((engineApply lampEnv ⟨[],[⟨.literal 1,[setLamp,flagLamp]⟩]⟩ 1 none
      (lampState lampWorld.network)).state.peers 0).server.outputs = some (lamp 0 stIoFlagUsr1) := by
  refine ⟨fun meets => ?_,by decide +kernel,by decide +kernel⟩
  have started := meets.2 _ rfl
  have assigned := started.2 _ rfl
  have kept := assigned.1 flagLamp 1 ⟨.output,"lamp",0,stIoFlagUsr1⟩ (lamp 5 0) (lamp 0 stIoFlagUsr1) _ rfl rfl
    (by decide +kernel) (by decide +kernel) (by decide +kernel)
  rw [if_neg (by decide)] at kept
  exact absurd kept.1 (by decide)

/-- The peer overrides its output; before the message arrives, a block sets it: the value
    changes and the override is gone. -/
theorem override_lost_in_flight : ∃ overridden,
    step lampWorld (.peerChanges 0 .output 0 (.flags stIoFlagManualOverride)) = some overridden ∧
    (overridden.network 0).sent = [.outputChanged (lamp 0 stIoFlagManualOverride)] ∧
    ¬ Meets step Held overridden [.applyStarts,.assign setLamp 5] ∧
    (engineApply lampEnv ⟨[⟨[⟨.literal 1,setLamp⟩]⟩],[]⟩ 1 none (lampState overridden.network)).returns = true ∧
    findNamed "lamp" ((engineApply lampEnv ⟨[⟨[⟨.literal 1,setLamp⟩]⟩],[]⟩ 1 none
      (lampState overridden.network)).state.peers 0).server.outputs = some (lamp 5 0) := by
  refine ⟨_,rfl,rfl,fun meets => ?_,by decide +kernel,by decide +kernel⟩
  have started := meets.2 _ rfl
  have kept := started.1 setLamp 5 ⟨.output,"lamp",5,0⟩ (lamp 0 stIoFlagManualOverride) (lamp 5 0) _ rfl rfl
    (by decide +kernel) rfl (by decide +kernel) (by decide) (by decide +kernel)
  exact absurd kept.1 (by decide)

end Starter.Crossing
