import Starter.Consistency
import Starter.Coverage

/-!
The messages of a connected client and the rules that refer to the object they are about.
A handler calls seven setters, and the engine runs from inside those that raise
"val-changed", on the object as it is by then: the flags are set last, and
"flags-changed" runs nothing.
-/
namespace Starter.Messages
open Gdouble Objects Expressions Rules Relevance Coverage Peers Starter.Core Consistency Lib.Runs

variable {α W : Type}

/-- The object, with its side and its client, that a message is about. -/
def Event.about : Event α W → Option (Side × Nat × IoObject α)
  | .message client (.inputChanged obj) => some (.input,client,obj)
  | .message client (.outputChanged obj) => some (.output,client,obj)
  | _ => none

/-- What the handlers of "val-changed" see of an object in the course of one setter. -/
def seenIn (raised : List (IoSignal × IoObject α)) : List (IoObject α) :=
  raised.filterMap fun e => if e.1 = .valChanged then some e.2 else none

/-- What they see of it in the course of the setters. -/
def valSeen : List (IoObject α → Update α) → IoObject α → List (IoObject α)
  | [], _ => []
  | setter :: rest, obj => seenIn (setter obj).emitted ++ valSeen rest (setter obj).obj

/-- The object that the tables have for the name shows the value and the flags. -/
def Shows (registry : Registry α) (side : Side) (id : String) (val : α) (flags : IoFlags) : Prop :=
  ∃ cmap obj, registry.table side id = some cmap ∧ registry.read side cmap = some obj ∧ obj.val = val ∧ obj.flags = flags

/-- The call evaluated the rule at position `q`. -/
def Evaluated (call : Call α W) (q : Nat) : Prop :=
  ∃ key, .iterate q key ∈ call.after.log.drop call.before.log.length

section
variable [Gdouble α] [DecidableEq α]

/-- If the event is a message that changes the value or the flags of an object, every
    rule that refers to it when the message has been handled was evaluated in a call of
    `engine_apply` that saw the value and the flags of the message. -/
def Responded (setup : Setup α W) (core : StCore α W) (event : Event α W) : Prop :=
  ∀ next side client message index old new, step setup core event = some next → next.hung = false →
    Event.about event = some (side,client,message) → place core.registry side client message = some index →
    core.registry.read side ⟨client,index⟩ = some old → next.registry.read side ⟨client,index⟩ = some new →
    (new.val ≠ old.val ∨ new.flags ≠ old.flags) → ∀ q, Refers setup.engine.rules next.engine q message.name →
    ∃ call ∈ next.calls.drop core.calls.length,
      Shows call.registry side message.name message.val message.flags ∧ Evaluated call q

/-- If the event is a message, it changes neither the value nor the flags of its object,
    or no rule refers to the object, or the last "val-changed" that it raises is raised
    when the tables show the value and the flags of the message. -/
def Timely (setup : Setup α W) (core : StCore α W) (event : Event α W) : Prop :=
  ∀ side client message index old, Event.about event = some (side,client,message) →
    place core.registry side client message = some index → core.registry.read side ⟨client,index⟩ = some old →
    ((afterSetters (setters side message) old).val = old.val ∧ (afterSetters (setters side message) old).flags = old.flags) ∨
    (∀ q, ¬ Refers setup.engine.rules core.engine q message.name) ∨
    ∃ seen, (valSeen (setters side message) old).getLast? = some seen ∧
      Shows (core.write side client index seen).registry side message.name message.val message.flags

end

/-- The same tables lead to the same objects. -/
structure SameReads (registry later : Registry α) : Prop where
  table : ∀ side, later.table side = registry.table side
  read : ∀ side cmap, later.read side cmap = registry.read side cmap

theorem sameReads_shows {registry later : Registry α} (same : SameReads registry later) {side : Side} {id : String}
    {val : α} {flags : IoFlags} (shows : Shows registry side id val flags) : Shows later side id val flags := by
  obtain ⟨cmap,obj,stored,there,values⟩ := shows
  exact ⟨cmap,obj,by rw [same.table,stored],by rw [same.read,there],values⟩

/-- What is written last into an object stays. -/
theorem write_sameReads {start core : StCore α W} {side : Side} {client index : Nat} {old obj : IoObject α}
    (same : SameReads (start.write side client index old).registry core.registry) :
    SameReads (start.write side client index obj).registry (core.write side client index obj).registry := by
  refine ⟨fun other => ?_,fun other cmap => ?_⟩
  · have kept : ∀ core : StCore α W, (core.write side client index obj).registry.table other = core.registry.table other := by
      intro core
      cases other <;> rfl
    rw [kept,kept,same.table]
    cases other <;> rfl
  · have before := same.read other cmap
    rw [write_read] at before ⊢
    rw [write_read]
    split
    · rename_i here
      rw [if_pos here] at before
      obtain ⟨rfl,rfl⟩ := here
      rw [before,Option.map_map]
      rfl
    · rename_i elsewhere
      rw [if_neg elsewhere] at before
      exact before

variable [Gdouble α] [DecidableEq α] {setup : Setup α W} {start core : StCore α W} {side : Side} {client index : Nat}
  {id : String} {seen : List (IoObject α)} {obj : IoObject α}

/-- What has happened since `start`, when the handlers of "val-changed" have seen the
    objects `seen` and the object at the place is `obj` now. -/
structure Trail (setup : Setup α W) (start : StCore α W) (side : Side) (client index : Nat) (id : String)
    (seen : List (IoObject α)) (obj : IoObject α) (core : StCore α W) : Prop where
  running : core.hung = false
  reads : SameReads (start.write side client index obj).registry core.registry
  front : start.calls <+: core.calls
  quiet : seen = [] → core.engine = start.engine
  apart : (∀ q, ¬ Refers setup.engine.rules start.engine q id) → core.engine = start.engine
  last : ∀ last, seen.getLast? = some last → ∃ call ∈ core.calls.drop start.calls.length,
    SameReads (start.write side client index last).registry call.registry ∧ call.after = core.engine ∧
      engineApply (setup.env call.registry) setup.engine setup.nesting (some id) call.before = .returned () call.after

theorem trail_write (new : IoObject α) (trail : Trail setup start side client index id seen obj core) :
    Trail setup start side client index id seen new (core.write side client index new) :=
  ⟨trail.running,write_sameReads trail.reads,trail.front,trail.quiet,trail.apart,trail.last⟩

theorem trail_apply (trail : Trail setup start side client index id seen obj core)
    (running : (core.apply setup (some id)).hung = false) :
    Trail setup start side client index id (seen ++ [obj]) obj (core.apply setup (some id)) := by
  have called : ∃ after, engineApply (setup.env core.registry) setup.engine setup.nesting (some id) core.engine =
      .returned () after := by
    simp only [StCore.apply] at running
    cases result : engineApply (setup.env core.registry) setup.engine setup.nesting (some id) core.engine with
    | returned _ after => exact ⟨after,rfl⟩
    | failed => simp [result,Res.returns] at running
    | stopped => simp [result,Res.returns] at running
  obtain ⟨after,called⟩ := called
  have engine : (core.apply setup (some id)).engine = after := by simp [StCore.apply,called,Res.state]
  have calls : (core.apply setup (some id)).calls = core.calls ++ [⟨core.registry,some id,core.engine,after⟩] := by
    simp [StCore.apply,called,Res.state]
  refine ⟨running,trail.reads,?_,by simp,?_,?_⟩
  · rw [calls]
    exact trail.front.trans (List.prefix_append _ _)
  · intro none
    have before := trail.apart none
    rw [engine,← before]
    exact engineApply_apart (by rw [before]; exact none) called
  · intro last same
    simp only [List.getLast?_append,List.getLast?_singleton,Option.some_or,Option.some.injEq] at same
    subst same
    refine ⟨⟨core.registry,some id,core.engine,after⟩,?_,trail.reads,engine.symm,called⟩
    rw [calls,List.drop_append_of_le_length trail.front.length_le]
    exact List.mem_concat_self

omit [DecidableEq α] [Gdouble α] in
/-- A handler that hangs is the last. -/
private theorem raised_hung [Gdouble α] [DecidableEq α] (hung : core.hung = true) (raised : List (IoSignal × IoObject α)) :
    core.raised setup side client index raised = core := by
  cases raised with
  | nil => rfl
  | cons => simp [StCore.raised,hung]

private theorem trail_raised {raised : List (IoSignal × IoObject α)} (names : ∀ e ∈ raised, e.2.name = id)
    (trail : Trail setup start side client index id seen obj core)
    (running : (core.raised setup side client index raised).hung = false) :
    ∃ last, Trail setup start side client index id (seen ++ seenIn raised) last
      (core.raised setup side client index raised) := by
  induction raised generalizing core seen obj with
  | nil => exact ⟨obj,by simpa [seenIn,StCore.raised] using trail⟩
  | cons first rest ih =>
    obtain ⟨signal,shown⟩ := first
    have same : shown.name = id := names (signal,shown) List.mem_cons_self
    have names := fun e member => names e (List.mem_cons_of_mem _ member)
    have written := trail_write shown trail
    simp only [StCore.raised,trail.running] at running ⊢
    by_cases val : signal = .valChanged
    · simp only [val,if_true,same] at running ⊢
      have applied : ((core.write side client index shown).apply setup (some id)).hung = false := by
        by_contra hung
        rw [Bool.not_eq_false] at hung
        simp [raised_hung hung,hung] at running
      obtain ⟨last,after⟩ := ih names (trail_apply written applied) running
      exact ⟨last,by simpa [seenIn] using after⟩
    · simp only [val,if_false] at running ⊢
      obtain ⟨last,after⟩ := ih names written running
      exact ⟨last,by simpa [seenIn,val] using after⟩

private theorem trail_set {setter : IoObject α → Update α} {old : IoObject α}
    (there : start.registry.read side ⟨client,index⟩ = some old)
    (names : ∀ raised ∈ (setter obj).emitted, raised.2.name = id)
    (trail : Trail setup start side client index id seen obj core)
    (running : (core.set setup side client index setter).hung = false) :
    Trail setup start side client index id (seen ++ seenIn (setter obj).emitted) (setter obj).obj
      (core.set setup side client index setter) := by
  have now : core.registry.read side ⟨client,index⟩ = some obj := by
    rw [trail.reads.read,write_read,if_pos ⟨rfl,rfl⟩,there]
    rfl
  simp only [StCore.set,trail.running,now] at running ⊢
  by_cases hung : (core.raised setup side client index (setter obj).emitted).hung = true
  · simp [hung] at running
  · rw [Bool.not_eq_true] at hung
    obtain ⟨last,after⟩ := trail_raised names trail hung
    simp only [hung]
    exact trail_write _ after

private theorem sets_hung (hung : core.hung = true) (list : List (IoObject α → Update α)) :
    list.foldl (fun core setter => core.set setup side client index setter) core = core := by
  induction list with
  | nil => rfl
  | cons setter rest ih => simpa [StCore.set,hung] using ih

/-- The handler of a message leaves a trail of what its setters do. -/
theorem trail_sets {list : List (IoObject α → Update α)} {old : IoObject α}
    (there : start.registry.read side ⟨client,index⟩ = some old)
    (names : ∀ setter ∈ list, ∀ obj : IoObject α,
      (setter obj).obj.name = obj.name ∧ ∀ raised ∈ (setter obj).emitted, raised.2.name = obj.name)
    (named : obj.name = id) (trail : Trail setup start side client index id seen obj core)
    (running : (list.foldl (fun core setter => core.set setup side client index setter) core).hung = false) :
    Trail setup start side client index id (seen ++ valSeen list obj) (afterSetters list obj)
      (list.foldl (fun core setter => core.set setup side client index setter) core) := by
  induction list generalizing core seen obj with
  | nil => simpa [valSeen,afterSetters] using trail
  | cons setter rest ih =>
    rw [List.foldl_cons] at running ⊢
    have keeps := names setter List.mem_cons_self obj
    have once : (core.set setup side client index setter).hung = false := by
      by_contra hung
      rw [Bool.not_eq_false] at hung
      rw [sets_hung hung,hung] at running
      cases running
    have first := trail_set there (fun e member => (keeps.2 e member).trans named) trail once
    have all := ih (fun setter member => names setter (List.mem_cons_of_mem _ member)) (keeps.1.trans named) first running
    rwa [List.append_assoc] at all

/-- A message whose last "val-changed" comes when the tables show what it carries makes
    the engine evaluate, on that, every rule that refers to its object. -/
theorem timely_responded {event : Event α W} (timely : Timely setup core event) : Responded setup core event := by
  intro next side client message index old new stepped running about placed before after changed q refers
  have handled : next = core.handleChanged setup side client message := by
    simp only [step] at stepped
    split at stepped
    · cases stepped
    · cases event with
      | message c m =>
        cases m with
        | inputChanged obj =>
          cases about
          simp only at stepped
          split at stepped
          · cases stepped
            rfl
          · cases stepped
        | outputChanged obj =>
          cases about
          simp only at stepped
          split at stepped
          · cases stepped
            rfl
          · cases stepped
      | _ => cases about
  have idle : core.hung = false := by
    simp only [step] at stepped
    split at stepped
    · cases stepped
    · rename_i hung
      simpa using hung
  subst handled
  have named : old.name = message.name := by
    obtain ⟨below,found,_⟩ := List.findIdx?_eq_some_iff_getElem.mp placed
    have same : ((core.registry.objs client).array side)[index] = old :=
      Option.some.inj ((List.getElem?_eq_getElem below).symm.trans before)
    rw [same] at found
    exact (beq_iff_eq.mp found).symm
  have begun : Trail setup core side client index message.name [] old core := by
    refine ⟨idle,⟨fun _ => by cases side <;> rfl,fun other cmap => ?_⟩,List.prefix_rfl,fun _ => rfl,fun _ => rfl,by simp⟩
    rw [write_read]
    split
    · rename_i here
      obtain ⟨rfl,rfl⟩ := here
      rw [before]
      rfl
    · rfl
  unfold StCore.handleChanged at running after refers ⊢
  simp only [place] at placed
  simp only [placed] at running after refers ⊢
  have trail := trail_sets before (fun setter among => setters_name among) named begun running
  rw [List.nil_append] at trail
  rw [trail.reads.read,write_read,if_pos ⟨rfl,rfl⟩,before,Option.map_some,Option.some.injEq] at after
  subst after
  rcases timely side client message index old about placed before with ⟨val,flags⟩ | apart | ⟨seen,isLast,shows⟩
  · exact absurd changed (by simp [val,flags])
  · rw [trail.apart apart] at refers
    exact absurd refers (apart q)
  · obtain ⟨call,member,reads,engine,called⟩ := trail.last seen isLast
    refine ⟨call,member,sameReads_shows reads shows,?_⟩
    exact engineApply_evaluated called (engine ▸ refers)

/-- When every message of a run is timely, the rules respond to every message of it. -/
theorem run_responded (setup : Setup α W) (core : StCore α W) (events : List (Event α W))
    (timely : Meets (step setup) (Timely setup) core events) : Meets (step setup) (Responded setup) core events :=
  meets_mono (fun _ _ => timely_responded) timely

/-- `VAR lamp = 0;` and `lamp { SET 1 WHEN switch FLAG USR1 || switch == 1; SET 0 WHEN TRUE; }`. -/
private def lampSetup : Setup ℚ Unit :=
  ⟨⟨[⟨[⟨.op .or (.flag "switch" stIoFlagUsr1) (.op .eq (.ref "switch") (.literal 1)),⟨"lamp",.literal 1,0⟩⟩,
      ⟨.literal 1,⟨"lamp",.literal 0,0⟩⟩]⟩],[]⟩,
    fun _ => ⟨fun w _ _ _ => (true,w),fun w _ _ _ => (true,w)⟩,2,2,fun _ => true⟩

private def lampEngine : EngineState ℚ Unit :=
  ⟨fun id => if id = "lamp" then some (.literal 0) else none,freshMem,(),[]⟩

private def switch (val : ℚ) (flags : IoFlags) : IoObject ℚ := ⟨"switch","",0,0,1,1,val,flags⟩

private def hallReady : List (Event ℚ Unit) :=
  [.serviceAdded "ST:hall" 0 0,.startFinished 0 true ⟨[switch 0 0],[]⟩ ⟨[("ST:hall",0)],[("ST:hall",0)]⟩]

/-- The Core when the peer with the switch is connected. -/
private def hallCore : StCore ℚ Unit := (run (step lampSetup) (Core.start lampEngine) hallReady).getD (Core.start lampEngine)

theorem run_responded_switch : Meets (step lampSetup) (Responded lampSetup) hallCore [.message 0 (.inputChanged (switch 1 0))] := by
  refine run_responded lampSetup hallCore _ ⟨?_,fun _ _ => trivial⟩
  intro side client message index old about placed before
  cases about
  obtain rfl : 0 = index := Option.some.inj placed
  obtain rfl : switch 0 0 = old := Option.some.inj before
  exact .inr (.inr ⟨switch 1 0,by decide +kernel,⟨0,0⟩,switch 1 0,rfl,rfl,rfl,rfl⟩)

/-- A message that sets a flag of the switch makes no call of the engine. -/
theorem flag_message_unanswered :
    run (step lampSetup) (Core.start lampEngine) hallReady = some hallCore ∧
      hallCore.registry.containsClient "ST:hall" = true ∧
      ¬ Meets (step lampSetup) (Responded lampSetup) hallCore [.message 0 (.inputChanged (switch 0 stIoFlagUsr1))] := by
  refine ⟨rfl,rfl,fun meets => ?_⟩
  have handled : (step lampSetup hallCore (.message 0 (.inputChanged (switch 0 stIoFlagUsr1)))).map (fun next =>
      (next.hung,next.calls.length,next.registry.read .input ⟨0,0⟩)) = some (false,1,some (switch 0 stIoFlagUsr1)) := by
    decide +kernel
  obtain ⟨next,stepped,facts⟩ := Option.map_eq_some_iff.mp handled
  simp only [Prod.mk.injEq] at facts
  obtain ⟨running,calls,after⟩ := facts
  obtain ⟨call,member,_⟩ := meets.1 next .input 0 (switch 0 stIoFlagUsr1) 0 (switch 0 0) _ stepped running rfl rfl rfl after
    (.inr (by decide)) 0 ⟨_,rfl,_,List.mem_cons_self,.left (.flag rfl)⟩
  have none : next.calls.drop hallCore.calls.length = [] := List.drop_eq_nil_iff.mpr calls.le
  rw [none] at member
  cases member

end Starter.Messages
