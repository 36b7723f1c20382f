import Starter.LastWrite
import Starter.Consistency

/-!
The value an output has at its peer once the messages that a call of `engine_apply` has
brought about are delivered, one after the other. Each delivery moves the mirrored object
and may run `engine_apply` again, where the mirrored output is one that was announced
before other values were sent.
-/
namespace Starter.Deliveries
open Gdouble Objects Expressions References Rules Coverage Settling Peers LastWrite Starter.Core Consistency Lib.Runs

section
variable {α : Type}

/-- The oldest of the messages of the client's peer is taken from its connection. -/
def takeMessage (core : StCore α (Network α)) (client : Nat) (rest : List (Message α)) : StCore α (Network α) :=
  { core with engine := { core.engine with
    peers := Function.update core.engine.peers client { core.engine.peers client with sent := rest } } }

/-- The rule at `p` was evaluated in the call. -/
def evaluatedIn (p : Nat) (call : Call α (Network α)) : Bool :=
  evaluations p call.before.log < evaluations p call.after.log

variable [Gdouble α]

/-- In the last of the calls that evaluated the block, its last evaluation avoided a call of `SetOutput` because the
value is that of the mirrored output, which the peer had not any more. -/
def Misled (o : String) (p c : Nat) (calls : List (Call α (Network α))) : Prop :=
  ∃ call m obj, calls.reverse.find? (evaluatedIn p) = some call ∧ lastAvoided o p call.after.log = true ∧
    call.registry.io.outputs o = some m ∧ findNamed o (call.after.peers c).server.outputs = some obj ∧
    eq m.val obj.val = false

/-- What the claim of the peer asks of a run: every call has returned, every `SetOutput` for the output was accepted,
and no call saw the mirrored output with MANUAL_OVERRIDE. -/
structure Undisturbed (o : String) (grid : α) (core : StCore α (Network α)) : Prop where
  returned : core.hung = false
  accepted : Accepted o grid core.engine.log
  free : ∀ call ∈ core.calls, ∀ m, call.registry.io.outputs o = some m → hasFlag m.flags stIoFlagManualOverride = false

variable [DecidableEq α]

/-- The Core handles the oldest message of a peer. -/
def deliver (setup : Setup α (Network α)) (core : StCore α (Network α)) (client : Nat) :
    Option (StCore α (Network α)) :=
  match (core.engine.peers client).sent with
  | [] => none
  | message :: rest => Core.step setup (takeMessage core client rest) (.message client message)

/-- A setter on an object that the rule at `p` refers to changes nothing that an expression sees of it, or raises
"val-changed". -/
def Tells (setup : Setup α (Network α)) (p : Nat) (side : Side) (client index : Nat) (core : StCore α (Network α))
    (setter : IoObject α → Update α) : Prop :=
  ∀ obj, core.registry.read side ⟨client,index⟩ = some obj → core.registry.table side obj.name = some ⟨client,index⟩ →
    Refers setup.engine.rules core.engine p obj.name →
      view (setter obj).obj = view obj ∨ ∃ seen, (.valChanged,seen) ∈ (setter obj).emitted

/-- All the setters do that the handler of the message calls. -/
def TellsAll (setup : Setup α (Network α)) (p : Nat) (side : Side) (client : Nat) (message : IoObject α)
    (core : StCore α (Network α)) : Prop :=
  ∀ index, place core.registry side client message = some index →
    Meets (fun core setter => some (core.set setup side client index setter)) (Tells setup p side client index) core
      (setters side message)

/-- What the delivery of the oldest message changes of the objects that the rule at `p` refers to, the engine is told. -/
def Heard (setup : Setup α (Network α)) (p : Nat) (core : StCore α (Network α)) (client : Nat) : Prop :=
  match (core.engine.peers client).sent with
  | [] => True
  | .inputChanged obj :: rest => TellsAll setup p .input client obj (takeMessage core client rest)
  | .outputChanged obj :: rest => TellsAll setup p .output client obj (takeMessage core client rest)

end

/-- The label block at position `p` alone assigns the output `o`, by value, and `all_outputs` leads to `o` at the
client `c`. -/
structure Governs {α : Type} (setup : Setup α (Network α)) (registry : Registry α) (o : String) (p c : Nat)
    (block : LabelBlock α) : Prop where
  at_p : setup.engine.rules[p]? = some (.label block)
  target : ∀ entry ∈ block.entries, entry.ass.id = o ∧ entry.ass.flagBit = 0
  sole : ∀ j ass, j ≠ p → Cascade.Assigns setup.engine.rules j ass → ass.id ≠ o
  route : (registry.allOutputs o).map ClientMap.client = some c

section
variable {α : Type} [Gdouble α]

/-- The peer has the value of the first true entry of the block, but where the block was misled. -/
def Delivered (o : String) (p c : Nat) (block : LabelBlock α) (core : StCore α (Network α)) : Prop :=
  ∀ entry v obj, FirstTrue core.registry.io core.engine.vars core.engine.mem block.entries entry →
    Evaluates core.registry.io core.engine.vars core.engine.mem entry.ass.rval v →
    findNamed o (core.engine.peers c).server.outputs = some obj → (eq obj.val v = true ↔ ¬ Misled o p c core.calls)

/-- What every step of a delivery keeps: `done` is what is known of the block. -/
structure Holds (setup : Setup α (Network α)) (o : String) (p c : Nat) (block : LabelBlock α) (grid : α)
    (done : StCore α (Network α) → Prop) (core : StCore α (Network α)) : Prop where
  consistent : Consistent core.registry
  governs : Governs setup core.registry o p c block
  plain : Undisturbed o grid core → PlainTable core.engine.vars ∧ Kept o c grid core.engine.peers ∧ done core

variable {setup : Setup α (Network α)} {o : String} {p c : Nat} {block : LabelBlock α} {grid : α}
  {core later : StCore α (Network α)} {done : StCore α (Network α) → Prop} {side : Side} {client index : Nat}
  {obj seen : IoObject α}

omit [Gdouble α] in
/-- The mirrored output is there. -/
theorem mirrored_output (consistent : Consistent core.registry) (governs : Governs setup core.registry o p c block) :
    ∃ m, core.registry.io.outputs o = some m := by
  obtain ⟨cmap,stored,_⟩ := Option.map_eq_some_iff.mp governs.route
  obtain ⟨m,read,_⟩ := (consistent.indexed .output).named o cmap stored
  exact ⟨m,by simp only [Registry.io,stored,Option.bind_some,read]⟩

omit [Gdouble α] in
/-- What the engine looks up under a name, before and after another object is written at a place. -/
theorem write_lookup (seen : IoObject α) (consistent : Consistent core.registry)
    (read : core.registry.read side ⟨client,index⟩ = some obj) (other : Side) (x : String) :
    ((core.registry.table other x).bind ((core.write side client index seen).registry.read other) =
      (core.registry.table other x).bind (core.registry.read other)) ∨
    (other = side ∧ x = obj.name ∧ core.registry.table side x = some ⟨client,index⟩ ∧
      (core.registry.table other x).bind (core.registry.read other) = some obj ∧
      (core.registry.table other x).bind ((core.write side client index seen).registry.read other) = some seen) := by
  cases stored : core.registry.table other x with
  | none => exact .inl rfl
  | some cmap =>
    simp only [Option.bind_some,write_read]
    by_cases here : other = side ∧ cmap = ⟨client,index⟩
    · obtain ⟨rfl,rfl⟩ := here
      obtain ⟨named,there,same⟩ := (consistent.indexed other).named x _ stored
      obtain rfl := Option.some.inj (there.symm.trans read)
      refine .inr ⟨rfl,same.symm,stored,read,?_⟩
      rw [if_pos ⟨rfl,rfl⟩,read]
      rfl
    · rw [if_neg here]
      exact .inl rfl

omit [Gdouble α] in
theorem write_agree (consistent : Consistent core.registry) (read : core.registry.read side ⟨client,index⟩ = some obj)
    (vars : Variables α) :
    AgreeOff (· = obj.name) (core.write side client index seen).registry.io core.registry.io vars vars := by
  refine ⟨fun x apart => ?_,fun x apart => ?_,fun _ _ => rfl⟩
  · rcases write_lookup seen consistent read .input x with same | ⟨_,here,_⟩
    · exact same
    · exact absurd here apart
  · rcases write_lookup seen consistent read .output x with same | ⟨_,here,_⟩
    · exact same
    · exact absurd here apart

omit [Gdouble α] in
theorem write_views (consistent : Consistent core.registry) (read : core.registry.read side ⟨client,index⟩ = some obj)
    (unseen : view seen = view obj ∨ core.registry.table side obj.name ≠ some ⟨client,index⟩) :
    SameViews (core.write side client index seen).registry.io core.registry.io := by
  have each : ∀ other x,
      ((core.registry.table other x).bind ((core.write side client index seen).registry.read other)).map view =
        ((core.registry.table other x).bind (core.registry.read other)).map view := by
    intro other x
    rcases write_lookup seen consistent read other x with same | ⟨_,rfl,mapped,before,after⟩
    · rw [same]
    · rw [before,after,Option.map_some,Option.map_some,unseen.resolve_right (absurd mapped)]
  exact ⟨each .input,each .output⟩

/-- The mirror differs in nothing that the block depends on. -/
theorem delivered_agree {rules : List (Rule α)} {id : String} (holds : Delivered o p c block core)
    (engine : later.engine = core.engine) (calls : later.calls = core.calls) (at_p : rules[p]? = some (.label block))
    (apart : ¬ Refers rules core.engine p id)
    (agree : AgreeOff (· = id) later.registry.io core.registry.io core.engine.vars core.engine.vars) :
    Delivered o p c block later := by
  unfold Delivered
  rw [engine,calls]
  intro entry v obj first value found
  refine holds entry v obj (firstTrue_agree agree (conds_free at_p apart) first) ?_ found
  exact (evaluates_agree agree (rvals_free at_p apart entry (firstTrue_mem first))).mp value

theorem delivered_views (holds : Delivered o p c block core) (engine : later.engine = core.engine)
    (calls : later.calls = core.calls) (same : SameViews later.registry.io core.registry.io) :
    Delivered o p c block later := by
  unfold Delivered
  rw [engine,calls]
  intro entry v obj first value found
  exact holds entry v obj (firstTrue_views same first) ((evaluates_views same).mp value) found

/-- The object at a place is another one of its name: the block does not depend on the difference, or is about to be
evaluated. -/
theorem write_holds (read : core.registry.read side ⟨client,index⟩ = some obj) (named : seen.name = obj.name)
    (holds : Holds setup o p c block grid (Delivered o p c block) core)
    (next : Delivered o p c block core → done (core.write side client index seen)) :
    Holds setup o p c block grid done (core.write side client index seen) := by
  have place : NamedAt core.registry side client index seen.name := by
    rw [NamedAt,read,Option.map_some,named]
  refine ⟨sameNames_consistent (write_sameNames place) holds.consistent,?_,fun undisturbed => ?_⟩
  · exact ⟨holds.governs.at_p,holds.governs.target,holds.governs.sole,holds.governs.route⟩
  · obtain ⟨table,kept,delivered⟩ := holds.plain ⟨undisturbed.returned,undisturbed.accepted,undisturbed.free⟩
    exact ⟨table,kept,next delivered⟩

/-- The change is none that the block depends on. -/
theorem write_unseen (read : core.registry.read side ⟨client,index⟩ = some obj) (named : seen.name = obj.name)
    (unseen : view seen = view obj ∨ core.registry.table side obj.name ≠ some ⟨client,index⟩ ∨
      ¬ Refers setup.engine.rules core.engine p obj.name)
    (holds : Holds setup o p c block grid (Delivered o p c block) core) :
    Holds setup o p c block grid (Delivered o p c block) (core.write side client index seen) := by
  refine write_holds read named holds fun delivered => ?_
  rcases or_assoc.mpr unseen with unseen | apart
  · exact delivered_views delivered rfl rfl (write_views holds.consistent read unseen)
  · exact delivered_agree delivered rfl rfl holds.governs.at_p apart (write_agree holds.consistent read _)

/-- The engine is about to be told of the change. -/
theorem write_told (read : core.registry.read side ⟨client,index⟩ = some obj) (named : seen.name = obj.name)
    (holds : Holds setup o p c block grid (Delivered o p c block) core) :
    Holds setup o p c block grid (fun core => Delivered o p c block core ∨ Refers setup.engine.rules core.engine p seen.name)
      (core.write side client index seen) := by
  refine write_holds read named holds fun delivered => ?_
  by_cases refers : Refers setup.engine.rules core.engine p obj.name
  · exact .inr (named ▸ refers)
  · exact .inl (delivered_agree delivered rfl rfl holds.governs.at_p refers (write_agree holds.consistent read _))

/-- One more call counts if it evaluated the block. -/
theorem misled_append {calls : List (Call α (Network α))} {call : Call α (Network α)} {m : IoObject α}
    (mirrored : call.registry.io.outputs o = some m) (found : findNamed o (call.after.peers c).server.outputs = some obj)
    (more : evaluations p call.before.log ≤ evaluations p call.after.log) :
    Misled o p c (calls ++ [call]) ↔ Stale o p m (evaluations p call.before.log) (Misled o p c calls) call.after.log obj := by
  unfold Misled Stale
  rw [List.reverse_append,List.reverse_singleton,List.singleton_append,List.find?_cons]
  by_cases same : evaluations p call.after.log = evaluations p call.before.log
  · have passed : evaluatedIn p call = false := by simp [evaluatedIn,same]
    rw [if_pos same,passed]
  · have evaluated : evaluatedIn p call = true := by
      simp only [evaluatedIn,decide_eq_true_eq]
      omega
    rw [if_neg same,evaluated]
    constructor
    · rintro ⟨_,m',obj',⟨⟩,avoided,mirrored',found',stale⟩
      cases mirrored.symm.trans mirrored'
      cases found.symm.trans found'
      exact ⟨avoided,stale⟩
    · rintro ⟨avoided,stale⟩
      exact ⟨call,m,obj,rfl,avoided,mirrored,found,stale⟩

variable [DecidableEq α]

/-- The engine runs, and the last of its calls is one more that may have evaluated the block. -/
theorem apply_holds [LawfulGdouble α] (bus : setup.bus = networkBus) (program : PlainRules setup.engine.rules) {id : String}
    (awake : core.hung = false)
    (holds : Holds setup o p c block grid (fun core => Delivered o p c block core ∨ Refers setup.engine.rules core.engine p id)
      core) : Holds setup o p c block grid (Delivered o p c block) (core.apply setup (some id)) := by
  refine ⟨holds.consistent,holds.governs,fun undisturbed => ?_⟩
  obtain ⟨t,called⟩ : ∃ t,
      engineApply (setup.env core.registry) setup.engine setup.nesting (some id) core.engine = .returned () t := by
    have returned := undisturbed.returned
    simp only [StCore.apply] at returned
    cases result : engineApply (setup.env core.registry) setup.engine setup.nesting (some id) core.engine with
    | returned _ t => exact ⟨t,rfl⟩
    | failed error t => simp [result,Res.returns] at returned
    | stopped t => simp [result,Res.returns] at returned
  have after : core.apply setup (some id) =
      { core with engine := t, calls := core.calls ++ [⟨core.registry,some id,core.engine,t⟩], hung := false } := by
    simp [StCore.apply,called,Res.state,Res.returns]
  rw [after] at undisturbed ⊢
  obtain ⟨m,mirrored⟩ := mirrored_output holds.consistent holds.governs
  have free : hasFlag m.flags stIoFlagManualOverride = false :=
    undisturbed.free ⟨core.registry,some id,core.engine,t⟩ (List.mem_append_right _ (List.mem_singleton.mpr rfl)) m mirrored
  have bus : (setup.env core.registry).bus = networkBus core.registry.routes := congrFun bus core.registry.routes
  have drives : Drives (setup.env core.registry).io setup.engine.rules o p block m :=
    ⟨holds.governs.at_p,holds.governs.target,holds.governs.sole,mirrored,free⟩
  have front : core.engine.log <+: t.log := by
    have steps := Cascade.engineApply_steps (setup.env core.registry) setup.engine setup.nesting (some id) core.engine
    rw [called] at steps
    exact Cascade.steps_log steps
  obtain ⟨table,kept,told⟩ := holds.plain ⟨awake,accepted_mono front undisturbed.accepted,
    fun call member => undisturbed.free call (List.mem_append_left _ member)⟩
  obtain ⟨table',kept',_⟩ := engineApply_keeps setup.nesting (some id) bus program table drives
    holds.governs.route kept
  rw [called] at table' kept'
  refine ⟨table',kept',?_⟩
  have wrote := engineApply_wrote (Misled o p c core.calls) bus program table drives holds.governs.route kept called
    (told.imp_left fun delivered _ entry v obj first value found => by
      rw [Stale,if_pos rfl]
      exact delivered entry v obj first value found)
  intro entry v obj first value found
  have more : evaluations p core.engine.log ≤ evaluations p t.log := front.sublist.countP_le
  have last : Misled o p c (core.calls ++ [⟨core.registry,some id,core.engine,t⟩]) ↔
      Stale o p m (evaluations p core.engine.log) (Misled o p c core.calls) t.log obj := misled_append mirrored found more
  exact (wrote undisturbed.accepted entry v obj first value found).trans (not_congr last.symm)

end

section
variable {α : Type}

/-- Whatever an expression sees of the object changes with a "val-changed": the handlers see the objects of the list,
one after the other, and `last` is what is left. -/
def Spoken (before : α × IoFlags) : List (IoSignal × IoObject α) → IoObject α → Prop
  | [], last => view last = before
  | (signal,seen) :: rest, last => (signal = .valChanged ∨ view seen = before) ∧ Spoken (view seen) rest last

variable [Gdouble α]

/-- A setter that raises "val-changed" raises it with the value, and changes nothing else that an expression sees. -/
theorem setters_spoken {side : Side} {message obj : IoObject α} {setter : IoObject α → Update α}
    (among : setter ∈ setters side message)
    (tells : view (setter obj).obj = view obj ∨ ∃ seen, (.valChanged,seen) ∈ (setter obj).emitted) :
    Spoken (view obj) (setter obj).emitted (setter obj).obj := by
  simp only [setters,List.mem_cons,List.not_mem_nil,or_false] at among
  rcases among with rfl | rfl | rfl | rfl | rfl | rfl | rfl
  · simp only [ioSetDescription]
    split <;> simp [Spoken,view]
  · simp only [ioSetUnit]
    split <;> simp [Spoken,view]
  · simp only [ioSetMin]
    split <;> (try split) <;> simp [Spoken,view]
  · simp only [ioSetMax]
    split <;> (try split) <;> simp [Spoken,view]
  · simp only [ioSetStep]
    split
    · rfl
    · split
      · cases nearlyEqual obj.min (snapToStep obj.min message.step) message.step <;>
          cases nearlyEqual obj.max (snapToStep obj.max message.step) message.step <;>
          cases nearlyEqual obj.val (snapToStep obj.val message.step) message.step <;>
          cases nearlyEqual obj.step message.step message.step <;> simp [Spoken,view]
      · rfl
  · simp only [ioSetVal] at tells ⊢
    by_cases within : (le obj.min (snapToStep message.val obj.step) && le (snapToStep message.val obj.step) obj.max) = true
    · rw [if_pos within] at tells ⊢
      cases near : nearlyEqual obj.val (snapToStep message.val obj.step) obj.step with
      | true => simpa [near,Spoken] using tells
      | false => simp [Spoken]
    · rw [if_neg within]
      rfl
  · simp only [ioSetFlags] at tells ⊢
    by_cases same : obj.flags = message.flags
    · simp [Spoken,view,same]
    · simpa [same,Spoken,view] using tells

variable [DecidableEq α] {setup : Setup α (Network α)} {o : String} {p c : Nat} {block : LabelBlock α} {grid : α}
  {core later : StCore α (Network α)} {side : Side} {client index : Nat} {obj last : IoObject α}
  {list : List (IoSignal × IoObject α)}

/-- The handlers of the signals, when these tell of all that an expression sees. -/
theorem raised_spoken [LawfulGdouble α] (bus : setup.bus = networkBus) (program : PlainRules setup.engine.rules)
    (names : ∀ e ∈ list, e.2.name = obj.name) (spoken : Spoken (view obj) list last)
    (read : core.registry.read side ⟨client,index⟩ = some obj)
    (holds : Holds setup o p c block grid (Delivered o p c block) core) :
    Holds setup o p c block grid (Delivered o p c block) (core.raised setup side client index list) ∧
      ((core.raised setup side client index list).hung = false →
        ∃ now, (core.raised setup side client index list).registry.read side ⟨client,index⟩ = some now ∧
          now.name = obj.name ∧ view last = view now) := by
  induction list generalizing core obj with
  | nil => exact ⟨holds,fun _ => ⟨obj,read,rfl,spoken⟩⟩
  | cons first rest ih =>
    obtain ⟨signal,seen⟩ := first
    have named : seen.name = obj.name := names (signal,seen) List.mem_cons_self
    obtain ⟨told,after⟩ := spoken
    simp only [StCore.raised]
    split
    · rename_i hung
      exact ⟨holds,fun awake => absurd hung (by simp [awake])⟩
    · rename_i awake
      rw [Bool.not_eq_true] at awake
      have written : (core.write side client index seen).registry.read side ⟨client,index⟩ = some seen := by
        rw [write_read,if_pos ⟨rfl,rfl⟩,read]
        rfl
      have names : ∀ e ∈ rest, e.2.name = seen.name := fun e member =>
        (names e (List.mem_cons_of_mem _ member)).trans named.symm
      rw [← named]
      split
      · exact ih names after written (apply_holds bus program awake (write_told read named holds))
      · rename_i other
        exact ih names after written (write_unseen read named (.inl (told.resolve_left other)) holds)

/-- The handlers of the signals, when none of these is "val-changed": the engine does not run. -/
theorem raised_unheard (names : ∀ e ∈ list, e.2.name = obj.name) (silent : ∀ e ∈ list, e.1 ≠ .valChanged)
    (unseen : core.registry.table side obj.name ≠ some ⟨client,index⟩ ∨ ¬ Refers setup.engine.rules core.engine p obj.name)
    (read : core.registry.read side ⟨client,index⟩ = some obj)
    (holds : Holds setup o p c block grid (Delivered o p c block) core) :
    ∃ now, (core.raised setup side client index list).registry.read side ⟨client,index⟩ = some now ∧ now.name = obj.name ∧
      ((core.raised setup side client index list).registry.table side now.name ≠ some ⟨client,index⟩ ∨
        ¬ Refers setup.engine.rules (core.raised setup side client index list).engine p now.name) ∧
      Holds setup o p c block grid (Delivered o p c block) (core.raised setup side client index list) := by
  induction list generalizing core obj with
  | nil => exact ⟨obj,read,rfl,unseen,holds⟩
  | cons first rest ih =>
    obtain ⟨signal,seen⟩ := first
    have named : seen.name = obj.name := names (signal,seen) List.mem_cons_self
    simp only [StCore.raised]
    split
    · exact ⟨obj,read,rfl,unseen,holds⟩
    · have written : (core.write side client index seen).registry.read side ⟨client,index⟩ = some seen := by
        rw [write_read,if_pos ⟨rfl,rfl⟩,read]
        rfl
      have kept : (core.write side client index seen).registry.table side seen.name ≠ some ⟨client,index⟩ ∨
          ¬ Refers setup.engine.rules (core.write side client index seen).engine p seen.name := by
        rw [named]
        cases side <;> exact unseen
      rw [if_neg (silent (signal,seen) List.mem_cons_self),← named]
      exact ih (fun e member => (names e (List.mem_cons_of_mem _ member)).trans named.symm)
        (fun e member => silent e (List.mem_cons_of_mem _ member)) kept written (write_unseen read named (.inr unseen) holds)

/-- A setter of a message. -/
theorem set_holds [LawfulGdouble α] (bus : setup.bus = networkBus) (program : PlainRules setup.engine.rules)
    {message : IoObject α} {setter : IoObject α → Update α} (among : setter ∈ setters side message)
    (tells : Tells setup p side client index core setter)
    (holds : Holds setup o p c block grid (Delivered o p c block) core) :
    Holds setup o p c block grid (Delivered o p c block) (core.set setup side client index setter) := by
  unfold StCore.set
  split
  · exact holds
  · split
    · exact holds
    · rename_i obj read
      obtain ⟨named,names⟩ := setters_name among obj
      simp only
      by_cases told : view (setter obj).obj = view obj ∨ ∃ seen, (.valChanged,seen) ∈ (setter obj).emitted
      · obtain ⟨after,left⟩ := raised_spoken bus program names (setters_spoken among told) read holds
        split
        · exact after
        · rename_i awake
          obtain ⟨now,there,same,seen⟩ := left (by simpa using awake)
          exact write_unseen there (named.trans same.symm) (.inl seen) after
      · -- Where the engine is not told, the block does not refer to the object.
        have unseen : core.registry.table side obj.name ≠ some ⟨client,index⟩ ∨
            ¬ Refers setup.engine.rules core.engine p obj.name := by
          by_contra both
          rw [not_or,not_not,not_not] at both
          exact told (tells obj read both.1 both.2)
        have silent : ∀ e ∈ (setter obj).emitted, e.1 ≠ .valChanged := by
          rintro ⟨signal,seen⟩ member rfl
          exact told (.inr ⟨seen,member⟩)
        obtain ⟨now,there,same,unseen,after⟩ := raised_unheard names silent unseen read holds
        split
        · exact after
        · exact write_unseen there (named.trans same.symm) (.inr unseen) after

private theorem sets_holds [LawfulGdouble α] (bus : setup.bus = networkBus) (program : PlainRules setup.engine.rules)
    {message : IoObject α} {list : List (IoObject α → Update α)} (among : ∀ setter ∈ list, setter ∈ setters side message)
    (tells : Meets (fun core setter => some (core.set setup side client index setter)) (Tells setup p side client index) core list)
    (holds : Holds setup o p c block grid (Delivered o p c block) core) :
    Holds setup o p c block grid (Delivered o p c block)
      (list.foldl (fun core setter => core.set setup side client index setter) core) := by
  induction list generalizing core with
  | nil => exact holds
  | cons setter rest ih =>
    have after := set_holds bus program (among setter List.mem_cons_self) tells.1 holds
    exact ih (fun other member => among other (List.mem_cons_of_mem _ member)) (tells.2 _ rfl) after

/-- All the setters of a message. -/
theorem handleChanged_holds [LawfulGdouble α] (bus : setup.bus = networkBus) (program : PlainRules setup.engine.rules)
    {message : IoObject α} (tells : TellsAll setup p side client message core)
    (holds : Holds setup o p c block grid (Delivered o p c block) core) :
    Holds setup o p c block grid (Delivered o p c block) (core.handleChanged setup side client message) := by
  unfold StCore.handleChanged
  split
  · exact holds
  · rename_i index found
    exact sets_holds bus program (fun _ member => member) (tells index found) holds

omit [DecidableEq α] in
/-- That a message was taken from its connection says nothing of the block. -/
theorem takeMessage_holds {rest : List (Message α)} (holds : Holds setup o p c block grid (Delivered o p c block) core) :
    Holds setup o p c block grid (Delivered o p c block) (takeMessage core client rest) := by
  have same : ((takeMessage core client rest).engine.peers c).server = (core.engine.peers c).server := by
    simp only [takeMessage,Function.update_apply]
    split
    · rename_i here
      rw [here]
    · rfl
  refine ⟨holds.consistent,holds.governs,fun undisturbed => ?_⟩
  obtain ⟨table,⟨obj,found,step⟩,delivered⟩ := holds.plain ⟨undisturbed.returned,undisturbed.accepted,undisturbed.free⟩
  refine ⟨table,⟨obj,?_,step⟩,fun entry v obj first value found => ?_⟩
  · rw [same]
    exact found
  · rw [same] at found
    exact delivered entry v obj first value found

/-- One delivery. -/
theorem deliver_holds [LawfulGdouble α] (bus : setup.bus = networkBus) (program : PlainRules setup.engine.rules)
    (holds : Holds setup o p c block grid (Delivered o p c block) core) (heard : Heard setup p core client)
    (delivery : deliver setup core client = some later) : Holds setup o p c block grid (Delivered o p c block) later := by
  unfold deliver at delivery
  unfold Heard at heard
  cases waiting : (core.engine.peers client).sent with
  | nil =>
    rw [waiting] at delivery
    cases delivery
  | cons message rest =>
    rw [waiting] at delivery heard
    have taken : Holds setup o p c block grid (Delivered o p c block) (takeMessage core client rest) :=
      takeMessage_holds holds
    simp only [Core.step] at delivery
    split at delivery
    · cases delivery
    · cases message with
      | inputChanged obj =>
        simp only [Option.ite_none_right_eq_some,Option.some.injEq] at delivery
        rw [← delivery.2]
        exact handleChanged_holds bus program heard taken
      | outputChanged obj =>
        simp only [Option.ite_none_right_eq_some,Option.some.injEq] at delivery
        rw [← delivery.2]
        exact handleChanged_holds bus program heard taken

/-- The Core, with nothing recorded of what it did before. -/
def afresh (core : StCore α (Network α)) : StCore α (Network α) :=
  { core with engine := { core.engine with log := [] }, calls := [] }

/-- A call of `engine_apply` for something that the block refers to, and then deliveries of messages, in any order: the
peer has the value of the first true entry of the block exactly if the block was not misled. -/
theorem run_delivered [LawfulGdouble α] {id : String} {clients : List Nat} {last : StCore α (Network α)}
    {entry : LabelEntry α} {v : α} (bus : setup.bus = networkBus) (program : PlainRules setup.engine.rules)
    (awake : core.hung = false) (consistent : Consistent core.registry) (table : PlainTable core.engine.vars)
    (governs : Governs setup core.registry o p c block) (kept : Kept o c grid core.engine.peers)
    (refers : Refers setup.engine.rules core.engine p id)
    (done : run (deliver setup) ((afresh core).apply setup (some id)) clients = some last)
    (heard : Meets (deliver setup) (Heard setup p) ((afresh core).apply setup (some id)) clients)
    (undisturbed : Undisturbed o grid last)
    (first : FirstTrue last.registry.io last.engine.vars last.engine.mem block.entries entry)
    (value : Evaluates last.registry.io last.engine.vars last.engine.mem entry.ass.rval v) :
    ∃ obj, findNamed o (last.engine.peers c).server.outputs = some obj ∧
      (eq obj.val v = true ↔ ¬ Misled o p c last.calls) := by
  have before : Holds setup o p c block grid
      (fun core => Delivered o p c block core ∨ Refers setup.engine.rules core.engine p id) (afresh core) :=
    ⟨consistent,⟨governs.at_p,governs.target,governs.sole,governs.route⟩,fun _ => ⟨table,kept,.inr refers⟩⟩
  have called : Holds setup o p c block grid (Delivered o p c block) ((afresh core).apply setup (some id)) :=
    apply_holds bus program awake before
  have ends : Holds setup o p c block grid (Delivered o p c block) last :=
    run_invariant (fun _ _ _ holds heard delivery => deliver_holds bus program holds heard delivery) clients _ last called
      heard done
  obtain ⟨_,⟨obj,found,_⟩,delivered⟩ := ends.plain undisturbed
  exact ⟨obj,found,delivered entry v obj first value found⟩

end

/-! A plant with the input `switch` and the output `valve`. -/

private def switchObject (val : ℚ) : IoObject ℚ := ⟨"switch","",0,0,1,1,val,0⟩

private def valveObject (val : ℚ) : IoObject ℚ := ⟨"valve","",0,0,10,1,val,0⟩

/-- The Core mirrors what the plant has; `vars` are its variables. -/
private def valveCore (switch valve : ℚ) (vars : Variables ℚ) : StCore ℚ (Network ℚ) :=
  ⟨⟨fun _ => ⟨[switchObject switch],[valveObject valve]⟩,[("plant",0)],fun _ => none,fun _ => none,[],
      fun id => if id = "switch" then some ⟨0,0⟩ else none,fun id => if id = "valve" then some ⟨0,0⟩ else none⟩,
    ⟨vars,freshMem,fun _ => ⟨⟨[switchObject switch],[valveObject valve]⟩,[]⟩,[]⟩,[],false⟩

private def valveSetup (engine : Engine ℚ) : Setup ℚ (Network ℚ) := ⟨engine,networkBus,3,5,fun _ => true⟩

private theorem valveCore_consistent (switch valve : ℚ) (vars : Variables ℚ) :
    Consistent (valveCore switch valve vars).registry := by
  refine ⟨fun name pending => absurd rfl pending,fun side => ?_⟩
  have only : ∀ k cmap, (valveCore switch valve vars).registry.table side k = some cmap → cmap = ⟨0,0⟩ ∧
      ∃ obj, (valveCore switch valve vars).registry.read side ⟨0,0⟩ = some obj ∧ obj.name = k := by
    intro k cmap stored
    cases side with
    | input =>
      simp only [Registry.table,valveCore,Option.ite_none_right_eq_some,Option.some.injEq] at stored
      exact ⟨stored.2.symm,switchObject switch,rfl,stored.1.symm⟩
    | output =>
      simp only [Registry.table,valveCore,Option.ite_none_right_eq_some,Option.some.injEq] at stored
      exact ⟨stored.2.symm,valveObject valve,rfl,stored.1.symm⟩
  refine ⟨?_,?_,?_,?_⟩
  · intro k cmap stored
    obtain ⟨rfl,_⟩ := only k cmap stored
    exact ⟨"plant",List.mem_singleton.mpr rfl⟩
  · intro k cmap stored
    obtain ⟨rfl,obj,there,_⟩ := only k cmap stored
    exact (List.getElem?_eq_some_iff.mp there).1
  · intro k cmap stored
    obtain ⟨rfl,obj,there,named⟩ := only k cmap stored
    exact ⟨obj,there,named⟩
  · intro entry _ obj member
    cases side with
    | input =>
      obtain rfl := List.mem_singleton.mp member
      simp [Registry.table,valveCore,switchObject]
    | output =>
      obtain rfl := List.mem_singleton.mp member
      simp [Registry.table,valveCore,valveObject]

private def isOne (x : String) : Expr ℚ := .op .eq (.ref x) (.literal 1)

/-- `valve { SET 0 WHEN seen == 1; SET 5 WHEN switch == 1; SET 0 WHEN TRUE; }`. -/
private def pulseBlock : LabelBlock ℚ :=
  ⟨[⟨isOne "seen",⟨"valve",.literal 0,0⟩⟩,⟨isOne "switch",⟨"valve",.literal 5,0⟩⟩,
    ⟨.literal 1,⟨"valve",.literal 0,0⟩⟩]⟩

/-- With it, `seen { SET 1 WHEN valve == 5; }`. -/
private def pulseEngine : Engine ℚ :=
  ⟨[pulseBlock,⟨[⟨.op .eq (.ref "valve") (.literal 5),⟨"seen",.literal 1,0⟩⟩]⟩],[]⟩

private def pulseCore : StCore ℚ (Network ℚ) := valveCore 1 0 fun id => if id = "seen" then some (.literal 0) else none

/-- `valve { SET 5 WHEN stage == 0 && switch == 1; SET 0 WHEN TRUE; }`. -/
private def valveBlock : LabelBlock ℚ :=
  ⟨[⟨.op .and (.op .eq (.ref "stage") (.literal 0)) (isOne "switch"),⟨"valve",.literal 5,0⟩⟩,
    ⟨.literal 1,⟨"valve",.literal 0,0⟩⟩]⟩

/-- With it, `stage { SET 1 WHEN switch == 1; SET 0 WHEN TRUE; }`. -/
private def valveEngine : Engine ℚ :=
  ⟨[valveBlock,⟨[⟨isOne "switch",⟨"stage",.literal 1,0⟩⟩,⟨.literal 1,⟨"stage",.literal 0,0⟩⟩]⟩],[]⟩

private def stageCore : StCore ℚ (Network ℚ) := valveCore 1 0 fun id => if id = "stage" then some (.literal 0) else none

private theorem valve_governs {block : LabelBlock ℚ} {entries : List (LabelEntry ℚ)} {core : StCore ℚ (Network ℚ)}
    (target : ∀ entry ∈ block.entries, entry.ass.id = "valve" ∧ entry.ass.flagBit = 0)
    (others : ∀ entry ∈ entries, entry.ass.id ≠ "valve")
    (route : (core.registry.allOutputs "valve").map ClientMap.client = some 0) :
    Governs (valveSetup ⟨[block,⟨entries⟩],[]⟩) core.registry "valve" 0 0 block := by
  refine ⟨rfl,target,?_,route⟩
  rintro j ass other ⟨rule,at_j,member⟩
  rcases j with _ | _ | j
  · exact absurd rfl other
  · cases at_j
    obtain ⟨entry,among,rfl⟩ := List.mem_map.mp member
    exact others entry among
  · simp [valveSetup,Engine.rules] at at_j

/-- A setter tells, whatever the block refers to. -/
private def tellsAnyway (side : Side) (client index : Nat) (core : StCore ℚ (Network ℚ))
    (setter : IoObject ℚ → Update ℚ) : Bool :=
  match core.registry.read side ⟨client,index⟩ with
  | none => true
  | some obj => view (setter obj).obj = view obj || (setter obj).emitted.any fun raised => raised.1 = .valChanged

private theorem tells_of_tellsAnyway {setup : Setup ℚ (Network ℚ)} {p : Nat} {side : Side} {client index : Nat}
    {core : StCore ℚ (Network ℚ)} {setter : IoObject ℚ → Update ℚ}
    (tells : tellsAnyway side client index core setter = true) :
    Tells setup p side client index core setter := by
  intro obj read _ _
  simp only [tellsAnyway,read,Bool.or_eq_true,decide_eq_true_eq,List.any_eq_true] at tells
  rcases tells with same | ⟨⟨signal,seen⟩,member,rfl⟩
  · exact .inl same
  · exact .inr ⟨seen,member⟩

/-- The oldest message of the peer tells, whatever the block refers to. -/
private def heardAnyway (setup : Setup ℚ (Network ℚ)) (core : StCore ℚ (Network ℚ)) (client : Nat) : Bool :=
  match (core.engine.peers client).sent with
  | .outputChanged obj :: rest =>
    match place (takeMessage core client rest).registry .output client obj with
    | none => true
    | some index =>
      decide (Meets (fun core setter => some (core.set setup .output client index setter))
        (fun core setter => tellsAnyway .output client index core setter = true) (takeMessage core client rest)
        (setters .output obj))
  | _ => false

private theorem heard_of_heardAnyway {setup : Setup ℚ (Network ℚ)} {p client : Nat} {core : StCore ℚ (Network ℚ)}
    (tells : heardAnyway setup core client = true) : Heard setup p core client := by
  unfold heardAnyway at tells
  unfold Heard
  split at tells
  · rename_i obj rest waiting
    rw [waiting]
    intro index found
    rw [found] at tells
    exact meets_mono (fun _ _ => tells_of_tellsAnyway) (of_decide_eq_true tells)
  · cases tells

/-- What `Undisturbed` says, on a given Core. -/
private def undisturbedAt (o : String) (grid : ℚ) (core : StCore ℚ (Network ℚ)) : Bool :=
  !core.hung && core.engine.log.all (acceptedBy o grid) &&
    core.calls.all fun call => (call.registry.io.outputs o).all fun m => !hasFlag m.flags stIoFlagManualOverride

private theorem undisturbed_of_at {o : String} {grid : ℚ} {core : StCore ℚ (Network ℚ)}
    (checked : undisturbedAt o grid core = true) : Undisturbed o grid core := by
  simp only [undisturbedAt,Bool.and_eq_true,Bool.not_eq_true',List.all_eq_true,Option.all_eq_true] at checked
  exact ⟨checked.1.1,checked.1.2,checked.2⟩

/-- The Core after `engine_apply` for `switch` and after the deliveries. -/
private def delivered (engine : Engine ℚ) (core : StCore ℚ (Network ℚ)) (clients : List Nat) :
    Option (StCore ℚ (Network ℚ)) :=
  run (deliver (valveSetup engine)) ((afresh core).apply (valveSetup engine) (some "switch")) clients

private theorem pulse_ends : (delivered pulseEngine pulseCore [0,0]).isSome = true := by decide +kernel

private def pulseLast : StCore ℚ (Network ℚ) := (delivered pulseEngine pulseCore [0,0]).get pulse_ends

private theorem stage_ends : (delivered valveEngine stageCore [0]).isSome = true := by decide +kernel

private def stageLast : StCore ℚ (Network ℚ) := (delivered valveEngine stageCore [0]).get stage_ends

/-- The first delivery makes the block select 0, and the second tells of it. -/
theorem run_delivered_pulse :
    (pulseLast.engine.peers 0).sent = [] ∧ ∃ obj, findNamed "valve" (pulseLast.engine.peers 0).server.outputs = some obj ∧
      (eq obj.val 0 = true ↔ ¬ Misled "valve" 0 0 pulseLast.calls) := by
  have plain : PlainRules (valveSetup pulseEngine).engine.rules := by
    unfold PlainRules
    decide
  have table : PlainTable pulseCore.engine.vars := by
    intro x e stored
    simp only [pulseCore,valveCore,Option.ite_none_right_eq_some,Option.some.injEq] at stored
    rw [← stored.2]
    rfl
  have heard : Meets (deliver (valveSetup pulseEngine))
      (fun core client => heardAnyway (valveSetup pulseEngine) core client = true)
      ((afresh pulseCore).apply (valveSetup pulseEngine) (some "switch")) [0,0] := by
    decide +kernel
  exact ⟨by decide +kernel,@run_delivered ℚ _ _ (valveSetup pulseEngine) "valve" 0 0 pulseBlock 1 pulseCore _ "switch"
    [0,0] pulseLast ⟨isOne "seen",⟨"valve",.literal 0,0⟩⟩ 0 rfl plain rfl (valveCore_consistent 1 0 _) table
    (valve_governs (by decide) (by decide) rfl) ⟨valveObject 0,rfl,rfl⟩
    ⟨_,rfl,_,List.mem_cons_of_mem _ (List.mem_cons_of_mem _ List.mem_cons_self),.left (.ref rfl)⟩
    (Option.some_get pulse_ends).symm (meets_mono (fun _ _ => heard_of_heardAnyway) heard)
    (undisturbed_of_at (by decide +kernel))
    (.here (v := 1) (evaluates_of_exprEval 3 (by decide +kernel)) (by decide)) (evaluates_of_exprEval 3 (by decide +kernel))⟩

/-- The event reports an error. -/
private def reportsError : Rules.Event ℚ → Bool
  | .assignFailed _ _ => true
  | .ruleFailed _ _ => true
  | _ => false

/-- `switch` turns to 1 while `stage` is 0 and `valve` is 0. The block of `valve` sends 5; then the change of `stage`
makes it select 0, which the mirrored object still has. The delivery of the message that tells of the 5 sends nothing
either. -/
theorem early_value_survives : ∃ last obj,
    PlainRules valveEngine.rules ∧ Consistent stageCore.registry ∧ PlainTable stageCore.engine.vars ∧
    Governs (valveSetup valveEngine) stageCore.registry "valve" 0 0 valveBlock ∧
    stageCore.registry.io.outputs "valve" = findNamed "valve" (stageCore.engine.peers 0).server.outputs ∧
    Refers valveEngine.rules stageCore.engine 0 "switch" ∧
    run (deliver (valveSetup valveEngine)) ((afresh stageCore).apply (valveSetup valveEngine) (some "switch")) [0] = some last ∧
    (∀ event ∈ last.engine.log, reportsError event = false) ∧ Undisturbed "valve" 1 last ∧
    (last.engine.peers 0).sent = [] ∧
    FirstTrue last.registry.io last.engine.vars last.engine.mem valveBlock.entries ⟨.literal 1,⟨"valve",.literal 0,0⟩⟩ ∧
    Evaluates last.registry.io last.engine.vars last.engine.mem (.literal 0) 0 ∧
    findNamed "valve" (last.engine.peers 0).server.outputs = some obj ∧ eq obj.val 0 = false := by
  have plain : PlainRules valveEngine.rules := by
    unfold PlainRules
    decide
  have table : PlainTable stageCore.engine.vars := by
    intro x e stored
    simp only [stageCore,valveCore,Option.ite_none_right_eq_some,Option.some.injEq] at stored
    rw [← stored.2]
    rfl
  refine ⟨stageLast,valveObject 5,plain,valveCore_consistent 1 0 _,table,valve_governs (by decide) (by decide) rfl,rfl,?_,
    (Option.some_get stage_ends).symm,by decide +kernel,undisturbed_of_at (by decide +kernel),by decide +kernel,?_,
    evaluates_of_exprEval 3 (by decide +kernel),by decide +kernel,by decide +kernel⟩
  · exact ⟨_,rfl,_,List.mem_cons_self,.right (.left (.ref rfl))⟩
  · exact .later (v := 0) (evaluates_of_exprEval 3 (by decide +kernel)) (by decide)
      (.here (v := 1) (evaluates_of_exprEval 3 (by decide +kernel)) (by decide))

end Starter.Deliveries
