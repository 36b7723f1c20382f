import Starter.Crossing
import Starter.Grid

/-!
The handshake of a client with its peer. `st_client_start` and `st_client_start_async`
make the same calls in the same order: the replies of `GetInputs` and of `GetOutputs` are
snapshots of the arrays, and the client subscribes to the signals after the reply of
`GetStats`. The connection keeps the order of what each side sends. The statistics are
left out.
-/
namespace Starter.Handshake
open Gdouble Objects Peers Starter.Core Grid Lib.Runs
open Crossing (serverArray withServerArray withServerArray_array Change)

variable {α : Type}

/-- The states of a client; `ST_CLIENT_STATE_PENDING` by the call whose reply is awaited. -/
inductive Stage
  | idle
  | objects (side : Side)
  | stats
  | ready
  | failed
deriving DecidableEq

/-- `GetInputs` and `GetOutputs`, and `GetStats`. -/
inductive Method
  | getObjects (side : Side)
  | getStats
deriving DecidableEq

inductive Reply (α : Type)
  | objects (side : Side) (snapshot : List (IoObject α))
  | stats
deriving DecidableEq

/-- What the peer sends. -/
inductive Packet (α : Type)
  | reply (reply : Reply α)
  | signal (side : Side) (obj : IoObject α)
deriving DecidableEq

/-- A peer and the client that starts: the calls and the packets on their way, the reply
    that has arrived but was not looked at, and the arrays of the client. `connected` when
    the peer has added the connection to those it announces changes to. -/
structure Session (α : Type) where
  server : Server α
  connected : Bool
  stage : Stage
  calls : List Method
  packets : List (Packet α)
  answer : Option (Reply α)
  mirror : Client α
deriving DecidableEq

inductive Event (α : Type)
  | starts
  /-- `on_new_connection`. -/
  | accepted
  /-- `handle_method_call`. -/
  | served
  | peerChanges (side : Side) (index : Nat) (change : Change α)
  | arrives
  /-- The client goes on with the reply. -/
  | resumes
  /-- `start_async_fail`, and the same of `st_client_start`. -/
  | fails

/-- The calls that are not answered. -/
def Stage.outstanding : Stage → List Method
  | .objects side => [.getObjects side]
  | .stats => [.getStats]
  | _ => []

/-- The call after the reply with the objects of a side. -/
def nextCall : Side → Method
  | .input => .getObjects .output
  | .output => .getStats

def nextStage : Side → Stage
  | .input => .objects .output
  | .output => .stats

def replyTo (server : Server α) : Method → Reply α
  | .getObjects side => .objects side (serverArray server side)
  | .getStats => .stats

section
variable [Gdouble α]

/-- `apply_inputs_from_result` and `apply_outputs_from_result`; `none` where an assertion
    of the constructor fails. -/
def applyResult (snapshot : List (IoObject α)) : Option (List (IoObject α)) :=
  snapshot.mapM fun obj => ioNew obj.name obj.descr obj.unit obj.min obj.max obj.step obj.val obj.flags

/-- The loop of `handle_input_changed_signal` and `handle_output_changed_signal`. -/
def handleOn (side : Side) (message : IoObject α) : List (IoObject α) → List (IoObject α)
  | [] => []
  | obj :: rest =>
    if message.name = obj.name then afterSetters (setters side message) obj :: rest
    else obj :: handleOn side message rest

/-- The arrival of a signal: without a subscription it is dropped. -/
def Session.signalled (self : Session α) (side : Side) (obj : IoObject α) : Client α :=
  if self.stage = .ready then self.mirror.withArray (handleOn side obj (self.mirror.array side)) side else self.mirror

def Session.resume (self : Session α) : Option (Session α) :=
  match self.stage,self.answer with
  | .objects side,some (.objects other snapshot) =>
    if side = other then
      (applyResult snapshot).map fun array =>
        { self with
          stage := nextStage side
          calls := self.calls ++ [nextCall side]
          answer := none
          mirror := self.mirror.withArray array side }
    else none
  | .stats,some .stats => some { self with stage := .ready, answer := none }
  | _,_ => none

def step (self : Session α) : Event α → Option (Session α)
  | .starts =>
    if self.stage = .idle ∨ self.stage = .failed then
      some { self with stage := .objects .input, calls := [.getObjects .input] }
    else none
  | .accepted => if self.stage.outstanding = [] then none else some { self with connected := true }
  | .served =>
    if self.connected then
      match self.calls with
      | [] => none
      | method :: rest =>
        some { self with calls := rest, packets := self.packets ++ [.reply (replyTo self.server method)] }
    else none
  | .peerChanges side index change =>
    (serverArray self.server side)[index]?.map fun obj =>
      let update := change.update obj
      { self with
        server := withServerArray self.server ((serverArray self.server side).set index update.obj) side
        packets := self.packets ++ if self.connected then (Update.announced update).map (.signal side) else [] }
  | .arrives =>
    match self.packets with
    | [] => none
    | .reply reply :: rest => some { self with packets := rest, answer := some reply }
    | .signal side obj :: rest => some { self with packets := rest, mirror := self.signalled side obj }
  | .resumes => self.resume
  | .fails =>
    if self.stage.outstanding = [] then none
    else some { self with connected := false, stage := .failed, calls := [], packets := [], answer := none }

end

/-- A client that has not been started. -/
def begin (server : Server α) : Session α := ⟨server,false,.idle,[],[],none,⟨[],[]⟩⟩

/-- The snapshot of the side is in the arrays of the client. -/
def Stage.applied : Stage → Side → Bool
  | .objects .output,.input => true
  | .stats,_ => true
  | .ready,_ => true
  | _,_ => false

/-- The snapshot of the side that the reply has. -/
def Reply.snapshotOf (side : Side) : Reply α → Option (List (IoObject α))
  | .objects other snapshot => if other = side then some snapshot else none
  | .stats => none

/-- What the client has been told of the side. -/
def known (self : Session α) (side : Side) : Option (List (IoObject α)) :=
  if self.stage.applied side then some (self.mirror.array side) else self.answer.bind (Reply.snapshotOf side)

/-- The packet is the reply with the snapshot of the side. -/
def Packet.answers (side : Side) : Packet α → Bool
  | .reply given => (given.snapshotOf side).isSome
  | .signal _ _ => false

/-- The peer has computed the snapshot of the side. -/
def taken (self : Session α) (side : Side) : Bool := (known self side).isSome || self.packets.any (Packet.answers side)

section
variable [Gdouble α] [DecidableEq α]

/-- A change leaves its object on the grid and, once the snapshot of the side is taken, is
    announced if it is one. No signal about a side arrives between its snapshot and the
    subscription. -/
def keeps (self : Session α) : Event α → Bool
  | .peerChanges side index change =>
    match (serverArray self.server side)[index]? with
    | none => true
    | some obj =>
      let update := change.update obj
      snapToStep update.obj.val obj.step == update.obj.val &&
        (!taken self side || !(Update.announced update).isEmpty || update.obj == obj)
  | .arrives =>
    match self.packets with
    | .signal side _ :: _ => self.stage == .ready || (known self side).isNone
    | _ => true
  | _ => true

omit [DecidableEq α]

/-- The peer tells its objects apart by their names, and they are on their grids. -/
structure Sound (array : List (IoObject α)) : Prop where
  names : (array.map IoObject.name).Nodup
  grid : ∀ obj ∈ array, OnGrid obj

/-- What the client has been told once it has looked at the packet too. -/
def told (side : Side) (known : Option (List (IoObject α))) : Packet α → Option (List (IoObject α))
  | .reply given => (given.snapshotOf side).or known
  | .signal other obj => if other = side then known.map (handleOn side obj) else known

/-- What it will have been told once everything on its way has arrived. -/
def view (self : Session α) (side : Side) : Option (List (IoObject α)) :=
  self.packets.foldl (told side) (known self side)

def Reply.method : Reply α → Method
  | .objects side _ => .getObjects side
  | .stats => .getStats

def Packet.method : Packet α → Option Method
  | .reply given => some given.method
  | .signal _ _ => none

/-- What every step keeps: one call or its reply is on its way while the client waits for
    it; a peer that has not added the connection has sent nothing; and what the client will
    have been told of a side is what the peer has. -/
structure Synced (session : Session α) : Prop where
  outstanding : session.calls ++ (session.packets.filterMap Packet.method ++ (session.answer.map Reply.method).toList) =
    session.stage.outstanding
  unconnected : session.connected = false → session.packets = [] ∧ ∀ side, known session side = none
  sound : ∀ side, Sound (serverArray session.server side)
  grids : ∀ side snapshot, session.answer = some (.objects side snapshot) ∨ .reply (.objects side snapshot) ∈ session.packets →
    ∀ obj ∈ snapshot, OnGrid obj
  agrees : ∀ side array, view session side = some array → array = serverArray session.server side

variable {side : Side} {array : List (IoObject α)} {obj next : IoObject α}

/-- The setters that a message calls make of an object what the message says, when the
    two differ in value and flags only. -/
theorem afterSetters_same (grid : OnGrid obj) (later : OnGrid next)
    (same : next = { obj with val := next.val, flags := next.flags }) :
    afterSetters (setters side next) obj = next := by
  obtain ⟨name,descr,unit,min,max,step,val,flags⟩ := next
  simp only [IoObject.mk.injEq,and_true] at same
  obtain ⟨rfl,rfl,rfl,rfl,rfl,rfl⟩ := same
  have descr : (ioSetDescription obj obj.descr).obj = obj := rfl
  have unit : (ioSetUnit obj obj.unit).obj = obj := rfl
  have exact : (ioSetVal obj val).obj = { obj with val := val } := ioSetVal_exact later.val later.above later.below
  simp only [afterSetters,setters,List.foldl_cons,List.foldl_nil,descr,unit,ioSetMin_same grid,ioSetMax_same grid,
    ioSetStep_same _ grid,exact,ioSetFlags_obj]

/-- A message changes the object of its name. -/
theorem handleOn_set (names : (array.map IoObject.name).Nodup) {index : Nat} (there : array[index]? = some obj)
    (named : next.name = obj.name) (same : afterSetters (setters side next) obj = next) :
    handleOn side next array = array.set index next := by
  induction array generalizing index with
  | nil => simp at there
  | cons first rest ih =>
    simp only [List.map_cons,List.nodup_cons] at names
    cases index with
    | zero =>
      cases there
      simp [handleOn,named,same]
    | succ index =>
      have apart : next.name ≠ first.name := by
        rw [named]
        intro equal
        exact names.1 (equal ▸ List.mem_map_of_mem (List.mem_of_getElem? there))
      simp [handleOn,apart,ih names.2 there]

/-- The object that a change leaves differs from the old one in value and flags only. -/
theorem update_same (change : Change α) (obj : IoObject α) :
    (change.update obj).obj =
      { obj with val := (change.update obj).obj.val, flags := (change.update obj).obj.flags } := by
  cases change with
  | flags word => rfl
  | val v =>
    simp only [Change.update]
    cases accepted : Accepts obj v with
    | true => rw [ioSetVal_accepted accepted]
    | false => rw [ioSetVal_rejected accepted]

theorem update_onGrid {change : Change α} (grid : OnGrid obj)
    (fixed : snapToStep (change.update obj).obj.val obj.step = (change.update obj).obj.val) :
    OnGrid (change.update obj).obj := by
  cases change with
  | flags word => exact ioSetFlags_onGrid grid word
  | val v => exact ioSetVal_onGrid grid fixed

/-- A change is announced as it is, or not at all. -/
theorem update_announced (change : Change α) (obj : IoObject α) :
    Update.announced (change.update obj) = [] ∨ Update.announced (change.update obj) = [(change.update obj).obj] := by
  cases change with
  | flags word =>
    simp only [Change.update,ioSetFlags,Update.announced]
    split
    · exact .inl rfl
    · exact .inr rfl
  | val v =>
    simp only [Change.update]
    cases accepted : Accepts obj v with
    | true =>
      rw [ioSetVal_accepted accepted]
      simp only [Update.announced]
      split
      · exact .inl rfl
      · exact .inr rfl
    | false =>
      rw [ioSetVal_rejected accepted]
      exact .inl rfl

/-- A change on a grid takes the place of its object where it is announced. -/
theorem announced_array {change : Change α} {index : Nat} (sound : Sound array) (there : array[index]? = some obj)
    (fixed : snapToStep (change.update obj).obj.val obj.step = (change.update obj).obj.val)
    (said : Update.announced (change.update obj) ≠ [] ∨ (change.update obj).obj = obj) :
    ((Update.announced (change.update obj)).map (.signal side)).foldl (told side) (some array) =
      some (array.set index (change.update obj).obj) := by
  have grid := sound.grid obj (List.mem_of_getElem? there)
  have named : (change.update obj).obj.name = obj.name := by rw [update_same]
  rcases update_announced change obj with silent | announced
  · have unchanged := said.resolve_left (fun loud => loud silent)
    obtain ⟨below,at_index⟩ := List.getElem?_eq_some_iff.mp there
    rw [silent,unchanged,← at_index,List.set_getElem_self]
    rfl
  · have same := @afterSetters_same α _ side obj _ grid (update_onGrid grid fixed) (update_same change obj)
    simp [announced,told,handleOn_set sound.names there named same]

/-- Signals do not make a side known. -/
theorem signals_unknown (other : Side) (objs : List (IoObject α)) :
    (objs.map (Packet.signal other)).foldl (told side) none = none := by
  induction objs with
  | nil => rfl
  | cons obj rest ih => simpa [told] using ih

theorem signals_others {other : Side} (apart : other ≠ side) (objs : List (IoObject α))
    (known : Option (List (IoObject α))) : (objs.map (Packet.signal other)).foldl (told side) known = known := by
  induction objs with
  | nil => rfl
  | cons obj rest ih => simpa [told,apart] using ih

/-- The client will know a side when it does, or when the reply is on its way. -/
theorem view_taken (self : Session α) (side : Side) : (view self side).isSome = taken self side := by
  unfold view taken
  generalize known self side = known
  generalize self.packets = packets
  induction packets generalizing known with
  | nil => simp
  | cons packet rest ih =>
    rw [List.foldl_cons,ih,List.any_cons,← Bool.or_assoc]
    congr 1
    cases packet with
    | reply given => simp [told,Packet.answers,Option.isSome_or,Bool.or_comm]
    | signal other obj =>
      simp only [told,Packet.answers,Bool.or_false]
      split
      · exact Option.isSome_map
      · rfl

/-- What is outstanding is one call at most. -/
private theorem outstanding_single {stage : Stage} {before after : List Method} {method : Method}
    (equal : before ++ method :: after = stage.outstanding) :
    before = [] ∧ after = [] ∧ stage.outstanding = [method] := by
  have length := congrArg List.length equal
  have single : stage.outstanding.length ≤ 1 := by cases stage <;> simp [Stage.outstanding]
  simp only [List.length_append,List.length_cons] at length
  have none_before : before = [] := List.eq_nil_of_length_eq_zero (by omega)
  have none_after : after = [] := List.eq_nil_of_length_eq_zero (by omega)
  subst none_before none_after
  exact ⟨rfl,rfl,equal.symm⟩

variable {self following : Session α}

theorem starts_synced (synced : Synced self) (stepped : step self .starts = some following) : Synced following := by
  simp only [step] at stepped
  split at stepped
  · rename_i fresh
    cases stepped
    have silent : self.stage.outstanding = [] ∧ ∀ side, self.stage.applied side = false := by
      rcases fresh with idle | failed
      · simp [idle,Stage.outstanding,Stage.applied]
      · simp [failed,Stage.outstanding,Stage.applied]
    have nothing := synced.outstanding
    rw [silent.1] at nothing
    simp only [List.append_eq_nil_iff] at nothing
    have unanswered : self.answer = none := by simpa using nothing.2.2
    have same : ∀ side, known { self with stage := .objects .input, calls := [.getObjects .input] } side =
        known self side := by
      intro side
      have first : (Stage.objects .input).applied side = false := by cases side <;> rfl
      simp [known,first,silent.2 side,unanswered]
    refine ⟨?_,?_,synced.sound,synced.grids,?_⟩
    · simp [Stage.outstanding,nothing.2.1,unanswered]
    · intro unconnected
      exact ⟨(synced.unconnected unconnected).1,fun side => (same side).trans ((synced.unconnected unconnected).2 side)⟩
    · intro side array told
      refine synced.agrees side array ?_
      unfold view at told ⊢
      rwa [same] at told
  · cases stepped

theorem accepted_synced (synced : Synced self) (stepped : step self .accepted = some following) : Synced following := by
  simp only [step] at stepped
  split at stepped
  · cases stepped
  · cases stepped
    exact ⟨synced.outstanding,fun unconnected => (Bool.noConfusion unconnected),synced.sound,synced.grids,synced.agrees⟩

theorem fails_synced (synced : Synced self) (stepped : step self .fails = some following) : Synced following := by
  simp only [step] at stepped
  split at stepped
  · cases stepped
  · cases stepped
    refine ⟨rfl,fun _ => ⟨rfl,fun _ => rfl⟩,synced.sound,by simp,?_⟩
    intro side array told
    cases told

theorem served_synced (synced : Synced self) (stepped : step self .served = some following) : Synced following := by
  simp only [step] at stepped
  split at stepped
  · rename_i connected
    split at stepped
    · cases stepped
    · rename_i method rest calls
      cases stepped
      have outstanding := synced.outstanding
      rw [calls,List.cons_append,← List.nil_append (_ :: _)] at outstanding
      obtain ⟨-,after,single⟩ := outstanding_single outstanding
      simp only [List.append_eq_nil_iff] at after
      refine ⟨?_,?_,synced.sound,?_,?_⟩
      · have method_same : (replyTo self.server method).method = method := by cases method <;> rfl
        simp [after.1,after.2.1,after.2.2,single,Packet.method,method_same]
      · intro unconnected
        exact absurd connected (by simp [show self.connected = false from unconnected])
      · intro side snapshot given obj member
        simp only [List.mem_append,List.mem_singleton,Packet.reply.injEq] at given
        rcases given with answered | before | now
        · exact synced.grids side snapshot (.inl answered) obj member
        · exact synced.grids side snapshot (.inr before) obj member
        · cases method with
          | getObjects other =>
            cases now
            exact (synced.sound side).grid obj member
          | getStats => cases now
      · intro side array viewed
        have same : ∀ side, known { self with calls := rest, packets := self.packets ++ [.reply (replyTo self.server method)] }
            side = known self side := fun _ => rfl
        simp only [view,same,List.foldl_append,List.foldl_cons,List.foldl_nil,told] at viewed
        cases method with
        | getStats => exact synced.agrees side array viewed
        | getObjects other =>
          by_cases here : other = side
          · subst here
            simpa [replyTo,Reply.snapshotOf,eq_comm] using viewed
          · simp only [replyTo,Reply.snapshotOf,here,if_false,Option.none_or] at viewed
            exact synced.agrees side array viewed
  · cases stepped

theorem sound_set {change : Change α} {index : Nat} (sound : Sound array) (there : array[index]? = some obj)
    (fixed : snapToStep (change.update obj).obj.val obj.step = (change.update obj).obj.val) :
    Sound (array.set index (change.update obj).obj) := by
  have grid := sound.grid obj (List.mem_of_getElem? there)
  constructor
  · have named : (change.update obj).obj.name = obj.name := by rw [update_same]
    obtain ⟨below,at_index⟩ := List.getElem?_eq_some_iff.mp there
    have within : index < (array.map IoObject.name).length := by simpa using below
    have at_name : (array.map IoObject.name)[index] = obj.name := by rw [List.getElem_map,at_index]
    have names : (array.set index (change.update obj).obj).map IoObject.name = array.map IoObject.name := by
      rw [List.map_set,named,← at_name,List.set_getElem_self]
    rw [names]
    exact sound.names
  · intro other member
    rcases List.mem_or_eq_of_mem_set member with before | now
    · exact sound.grid other before
    · exact now ▸ update_onGrid grid fixed

theorem peerChanges_synced [DecidableEq α] {index : Nat} {change : Change α} (synced : Synced self)
    (keep : keeps self (.peerChanges side index change) = true)
    (stepped : step self (.peerChanges side index change) = some following) : Synced following := by
  simp only [step,Option.map_eq_some_iff] at stepped
  obtain ⟨obj,there,rfl⟩ := stepped
  simp only [keeps,there,Bool.and_eq_true,beq_iff_eq,Bool.or_eq_true,Bool.not_eq_true',List.isEmpty_eq_false_iff] at keep
  obtain ⟨fixed,said⟩ := keep
  refine ⟨?_,?_,?_,?_,?_⟩
  · have silent : ∀ objs : List (IoObject α), (objs.map (Packet.signal side)).filterMap Packet.method = [] := by
      intro objs
      simp [List.filterMap_map,Packet.method,Function.comp_def]
    split <;> simp [silent,synced.outstanding]
  · intro unconnected
    obtain ⟨nothing,unknown⟩ := synced.unconnected unconnected
    refine ⟨?_,unknown⟩
    simp [nothing,show self.connected = false from unconnected]
  · intro other
    rw [withServerArray_array]
    split
    · exact sound_set (synced.sound side) there fixed
    · exact synced.sound other
  · intro other snapshot given
    refine synced.grids other snapshot ?_
    rcases given with answered | sent
    · exact .inl answered
    · refine .inr ?_
      split at sent <;> simpa using sent
  · intro other array viewed
    simp only [view,List.foldl_append] at viewed
    change List.foldl (told other) (view self other) _ = some array at viewed
    rw [withServerArray_array]
    cases connected : self.connected with
    | false =>
      obtain ⟨nothing,unknown⟩ := synced.unconnected connected
      simp [connected,view,nothing,unknown] at viewed
    | true =>
      simp only [connected,if_true] at viewed
      by_cases here : side = other
      · subst here
        rw [if_pos rfl]
        cases seen : view self side with
        | none =>
          rw [seen,signals_unknown] at viewed
          cases viewed
        | some old =>
          obtain rfl := synced.agrees side old seen
          have isTaken : taken self side = true := by rw [← view_taken,seen]; rfl
          have loud := said.imp_left fun either => either.resolve_left (by simp [isTaken])
          rw [seen,announced_array (synced.sound side) there fixed loud] at viewed
          exact (Option.some.inj viewed).symm
      · rw [if_neg (Ne.symm here)]
        rw [signals_others here] at viewed
        exact synced.agrees other array viewed

omit [Gdouble α] in
/-- The reply that is awaited is not of a side that has been applied. -/
theorem snapshotOf_applied {stage : Stage} {given : Reply α} (single : stage.outstanding = [given.method])
    (applied : stage.applied side = true) : given.snapshotOf side = none := by
  cases given with
  | stats => rfl
  | objects other snapshot =>
    cases stage with
    | objects awaited =>
      simp only [Stage.outstanding,Reply.method,List.cons.injEq,Method.getObjects.injEq,and_true] at single
      subst single
      cases awaited <;> cases side <;> first | rfl | cases applied
    | stats => cases single
    | ready => cases single
    | idle => cases single
    | failed => cases single

/-- A reply that has arrived is known from then on. -/
theorem known_answered {given : Reply α} {rest : List (Packet α)} (unanswered : self.answer = none)
    (single : self.stage.outstanding = [given.method]) (side : Side) :
    known { self with packets := rest, answer := some given } side = told side (known self side) (.reply given) := by
  simp only [known,told,unanswered]
  split
  · rename_i applied
    simp [snapshotOf_applied single applied]
  · simp

/-- A signal is not lost where nobody knows its side, or the client has subscribed. -/
theorem known_signalled {other : Side} {rest : List (Packet α)} (keep : self.stage = .ready ∨ known self other = none)
    (side : Side) :
    known { self with packets := rest, mirror := self.signalled other obj } side =
      told side (known self side) (.signal other obj) := by
  by_cases ready : self.stage = .ready
  · simp only [known,told,Session.signalled,ready,Stage.applied,if_true,withArray_array]
    by_cases here : other = side
    · subst here
      simp
    · simp [here,Ne.symm here]
  · have unknown := keep.resolve_left ready
    have dropped : known { self with packets := rest, mirror := self.signalled other obj } side = known self side := by
      simp only [known,Session.signalled,ready,if_false]
    rw [dropped]
    by_cases here : other = side
    · subst here
      simp [told,unknown]
    · simp [told,here]

theorem arrives_synced [DecidableEq α] (synced : Synced self) (keep : keeps self .arrives = true)
    (stepped : step self .arrives = some following) : Synced following := by
  have connected : self.packets ≠ [] → self.connected = true := by
    intro some_sent
    by_contra unconnected
    exact some_sent (synced.unconnected (by simpa using unconnected)).1
  simp only [step] at stepped
  split at stepped
  · cases stepped
  · rename_i given rest packets
    cases stepped
    have outstanding := synced.outstanding
    rw [packets,List.filterMap_cons] at outstanding
    simp only [Packet.method,List.cons_append] at outstanding
    obtain ⟨calls,after,single⟩ := outstanding_single outstanding
    simp only [List.append_eq_nil_iff] at after
    have unanswered : self.answer = none := by simpa using after.2
    refine ⟨?_,?_,synced.sound,?_,?_⟩
    · simp [calls,after.1,single]
    · intro unconnected
      exact absurd (connected (by simp [packets])) (by simp [show self.connected = false from unconnected])
    · intro side snapshot either
      refine synced.grids side snapshot (.inr ?_)
      rw [packets]
      rcases either with answered | sent
      · cases answered
        exact List.mem_cons_self
      · exact List.mem_cons_of_mem _ sent
    · intro side array viewed
      refine synced.agrees side array ?_
      rw [view,packets,List.foldl_cons,← known_answered unanswered single side]
      exact viewed
  · rename_i other obj rest packets
    cases stepped
    simp only [keeps,packets,Bool.or_eq_true,beq_iff_eq,Option.isNone_iff_eq_none] at keep
    refine ⟨?_,?_,synced.sound,?_,?_⟩
    · have outstanding := synced.outstanding
      rw [packets] at outstanding
      exact outstanding
    · intro unconnected
      exact absurd (connected (by simp [packets])) (by simp [show self.connected = false from unconnected])
    · intro side snapshot either
      refine synced.grids side snapshot ?_
      rw [packets]
      exact either.imp_right (List.mem_cons_of_mem _)
    · intro side array viewed
      refine synced.agrees side array ?_
      rw [view,packets,List.foldl_cons,← known_signalled keep side]
      exact viewed

/-- The client makes of a snapshot the objects that are in it. -/
theorem applyResult_same {snapshot : List (IoObject α)} (grids : ∀ obj ∈ snapshot, OnGrid obj) :
    applyResult snapshot = some snapshot := by
  induction snapshot with
  | nil => rfl
  | cons obj rest ih =>
    have made := ioNew_same (grids obj List.mem_cons_self)
    have others := ih fun other member => grids other (List.mem_cons_of_mem _ member)
    unfold applyResult at others ⊢
    simp [List.mapM_cons,made,others]

theorem resumes_synced (synced : Synced self) (stepped : step self .resumes = some following) : Synced following := by
  simp only [step,Session.resume] at stepped
  split at stepped
  · rename_i side other snapshot stage answer
    split at stepped
    · rename_i same
      subst same
      rw [applyResult_same (synced.grids side snapshot (.inl answer))] at stepped
      cases stepped
      have outstanding := synced.outstanding
      rw [answer,← List.append_assoc] at outstanding
      obtain ⟨nothing,-⟩ := outstanding_single outstanding
      simp only [List.append_eq_nil_iff] at nothing
      have same : ∀ other, known { self with
          stage := nextStage side, calls := self.calls ++ [nextCall side], answer := none,
          mirror := self.mirror.withArray snapshot side } other = known self other := by
        intro other
        cases side <;> cases other <;>
          simp [known,stage,answer,nextStage,Stage.applied,Reply.snapshotOf,withArray_array]
      refine ⟨?_,?_,synced.sound,?_,?_⟩
      · cases side <;> simp [nothing,nextStage,nextCall,Stage.outstanding]
      · exact fun unconnected => ⟨(synced.unconnected unconnected).1,fun other =>
          (same other).trans ((synced.unconnected unconnected).2 other)⟩
      · exact fun other snapshot either => synced.grids other snapshot (.inr (either.resolve_left (by simp)))
      · intro other array viewed
        refine synced.agrees other array ?_
        rwa [view,same] at viewed
    · cases stepped
  · rename_i stage answer
    cases stepped
    have outstanding := synced.outstanding
    rw [answer,← List.append_assoc] at outstanding
    obtain ⟨nothing,-⟩ := outstanding_single outstanding
    simp only [List.append_eq_nil_iff] at nothing
    have same : ∀ other, known { self with stage := .ready, answer := none } other = known self other := by
      intro other
      simp [known,stage,Stage.applied]
    refine ⟨?_,?_,synced.sound,?_,?_⟩
    · simp [nothing,Stage.outstanding]
    · exact fun unconnected => ⟨(synced.unconnected unconnected).1,fun other =>
        (same other).trans ((synced.unconnected unconnected).2 other)⟩
    · exact fun other snapshot either => synced.grids other snapshot (.inr (either.resolve_left (by simp)))
    · intro other array viewed
      refine synced.agrees other array ?_
      rwa [view,same] at viewed
  · cases stepped

/-- Every step that loses nothing keeps it. -/
theorem step_synced [DecidableEq α] (session : Session α) (event : Event α) (following : Session α)
    (synced : Synced session) (keep : keeps session event = true) (stepped : step session event = some following) :
    Synced following := by
  cases event with
  | starts => exact starts_synced synced stepped
  | accepted => exact accepted_synced synced stepped
  | served => exact served_synced synced stepped
  | peerChanges side index change => exact peerChanges_synced synced keep stepped
  | arrives => exact arrives_synced synced keep stepped
  | resumes => exact resumes_synced synced stepped
  | fails => exact fails_synced synced stepped

theorem begin_synced {server : Server α} (sound : ∀ side, Sound (serverArray server side)) : Synced (begin server) := by
  have unknown : ∀ side, known (begin server) side = none := fun side => by cases side <;> rfl
  refine ⟨rfl,fun _ => ⟨rfl,unknown⟩,sound,by simp [begin],?_⟩
  intro side array viewed
  have nothing : view (begin server) side = none := unknown side
  rw [nothing] at viewed
  cases viewed

/-- In every interleaving of the changes of a peer with a handshake in which every change
    that follows a snapshot is announced, and no announcement of it arrives before the
    subscription, a client that is ready has the values and flags of the peer once
    everything that was sent has arrived. -/
theorem run_synchronised [DecidableEq α] {server : Server α} (sound : ∀ side, Sound (serverArray server side))
    {events : List (Event α)} {last : Session α} (meets : Meets step (keeps · · = true) (begin server) events)
    (ran : run step (begin server) events = some last) (ready : last.stage = .ready) (delivered : last.packets = [])
    (side : Side) : last.mirror.array side = serverArray last.server side := by
  have synced : Synced last := run_invariant step_synced events _ _ (begin_synced sound) meets ran
  refine synced.agrees side _ ?_
  simp [view,known,ready,delivered,Stage.applied]

end

private def switch (val : ℚ) : IoObject ℚ := ⟨"switch","",0,0,10,1,val,0⟩

private def lamp (flags : IoFlags) : IoObject ℚ := ⟨"lamp","",0,0,10,1,0,flags⟩

private def hall : Server ℚ := ⟨[switch 0],[lamp 0]⟩

private theorem hall_sound (side : Side) : Sound (serverArray hall side) := by
  have switchGrid : OnGrid (switch 0) := ioNew_onGrid (show ioNew "switch" "" 0 0 10 1 0 0 = some (switch 0) by decide +kernel)
  have lampGrid : OnGrid (lamp 0) := ioNew_onGrid (show ioNew "lamp" "" 0 0 10 1 0 0 = some (lamp 0) by decide +kernel)
  cases side with
  | input => exact ⟨by decide,fun obj member => List.mem_singleton.mp member ▸ switchGrid⟩
  | output => exact ⟨by decide,fun obj member => List.mem_singleton.mp member ▸ lampGrid⟩

/-- The switch changes before its snapshot, the lamp after its own; the signal of the lamp
    arrives when the client has subscribed. -/
private def quiet : List (Event ℚ) :=
  [.starts,.accepted,.peerChanges .input 0 (.val 1),.served,.arrives,.arrives,.resumes,.served,.arrives,.resumes,.served,
    .arrives,.peerChanges .output 0 (.flags stIoFlagUsr1),.resumes,.arrives]

private def settled : Session ℚ :=
  ⟨⟨[switch 1],[lamp stIoFlagUsr1]⟩,true,.ready,[],[],none,⟨[switch 1],[lamp stIoFlagUsr1]⟩⟩

theorem run_synchronised_hall : settled.mirror.array .output = serverArray settled.server .output :=
  run_synchronised hall_sound (show Meets step (keeps · · = true) (begin hall) quiet by decide +kernel)
    (show run step (begin hall) quiet = some settled by decide +kernel) rfl rfl .output

/-- The switch changes once its snapshot is taken. The signal arrives before the client
    has subscribed, and the client is ready with the value that the switch had. -/
theorem change_after_snapshot_lost :
    run step (begin hall) [.starts,.accepted,.served,.peerChanges .input 0 (.val 1),.arrives,.resumes,.arrives,.served,
      .arrives,.resumes,.served,.arrives,.resumes] =
      some ⟨⟨[switch 1],[lamp 0]⟩,true,.ready,[],[],none,⟨[switch 0],[lamp 0]⟩⟩ ∧
    (switch 0).val ≠ (switch 1).val := by
  decide +kernel

end Starter.Handshake
