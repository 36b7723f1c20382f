import Starter.Cascade
import Starter.Lib.Runs

/-!
The debug server (`src/debug-server.c`) and what the callbacks of the Core
(`src/main.c`, `src/mdns.c`) do in its presence: breakpoints and watchpoints, the pause,
and the callbacks without the server to compare with. The mirrored objects are as the
event leaves them. What the server broadcasts and the history database are not modelled.
-/
namespace Starter.Debugger
open Gdouble Expressions Rules Cascade Lib.Runs

variable {α W : Type}

/-- `DebugPoint`. -/
structure DebugPoint where
  handle : UInt32
  id : String
deriving DecidableEq

/-- The fields of a stop, which mean something while `paused` is set. `since` is history:
    how long the log of the engine was when the Core stopped. -/
structure Stop (α : Type) where
  reason : String
  id : String
  value : α
  handle : UInt32
  since : Nat

/-- An evaluation by the debug server: the memory before it and what it gave. -/
structure Observation (α : Type) where
  before : Mem α
  result : Option (Outcome α × Mem α)

/-- `STCoreDebugPrivate`. The tables list their points in the order of an iterator over
    them; the Core is paused when there is a `stop`. What has been observed is history. -/
structure CoreDebug (α : Type) where
  breakpoints : List DebugPoint
  watchpoints : List DebugPoint
  nextHandle : UInt32
  stop : Option (Stop α)
  observed : List (Observation α)

/-- The server after `st_core_debug_init`. -/
def coreDebugInit : CoreDebug α := ⟨[],[],1,none,[]⟩

def findPointById (table : List DebugPoint) (id : String) : Option DebugPoint := table.find? fun point => point.id == id

def addPoint (table : List DebugPoint) (nextHandle : UInt32) (id : String) :
    Except String (UInt32 × List DebugPoint × UInt32) :=
  if id = "" then .error "empty breakpoint/watchpoint id"
  else
    let handle := if nextHandle = 0 then nextHandle+1 else nextHandle
    .ok (handle,⟨handle,id⟩ :: table.filter fun point => point.handle != handle,handle+1)

def removePoint (table : List DebugPoint) (handle : UInt32) : Except String (List DebugPoint) :=
  if handle = 0 ∨ table.all (fun point => point.handle != handle) then .error ("unknown handle " ++ toString handle)
  else .ok (table.filter fun point => point.handle != handle)

/-- The two tables of points, whose code is the same. -/
inductive Table
  | breakpoints
  | watchpoints
deriving DecidableEq

def CoreDebug.table (self : CoreDebug α) : Table → List DebugPoint
  | .breakpoints => self.breakpoints
  | .watchpoints => self.watchpoints

def CoreDebug.withTable (self : CoreDebug α) (points : List DebugPoint) : Table → CoreDebug α
  | .breakpoints => { self with breakpoints := points }
  | .watchpoints => { self with watchpoints := points }

def CoreDebug.add (table : Table) (self : CoreDebug α) (id : String) : Except String (UInt32 × CoreDebug α) :=
  (addPoint (self.table table) self.nextHandle id).map fun added =>
    (added.1,{ self.withTable added.2.1 table with nextHandle := added.2.2 })

def CoreDebug.remove (table : Table) (self : CoreDebug α) (handle : UInt32) : Except String (CoreDebug α) :=
  (removePoint (self.table table) handle).map fun points => self.withTable points table

/-- `st_core_debug_add_breakpoint`. -/
def CoreDebug.addBreakpoint : CoreDebug α → String → Except String (UInt32 × CoreDebug α) := CoreDebug.add .breakpoints

/-- `st_core_debug_remove_breakpoint`. -/
def CoreDebug.removeBreakpoint : CoreDebug α → UInt32 → Except String (CoreDebug α) := CoreDebug.remove .breakpoints

/-- `st_core_debug_add_watchpoint`. -/
def CoreDebug.addWatchpoint : CoreDebug α → String → Except String (UInt32 × CoreDebug α) := CoreDebug.add .watchpoints

/-- `st_core_debug_remove_watchpoint`. -/
def CoreDebug.removeWatchpoint : CoreDebug α → UInt32 → Except String (CoreDebug α) := CoreDebug.remove .watchpoints

def CoreDebug.enterStopped (self : CoreDebug α) (reason id : String) (value : α) (handle : UInt32) (now : Nat) :
    CoreDebug α := { self with stop := some ⟨reason,id,value,handle,now⟩ }

/-- `st_core_debug_continue`. -/
def CoreDebug.continue (self : CoreDebug α) : CoreDebug α := { self with stop := none }

/-- `st_core_debug_intercept_change`. -/
def CoreDebug.interceptChange (self : CoreDebug α) (id : String) (value : α) (now : Nat) : Bool × CoreDebug α :=
  if self.stop.isSome then (true,self)
  else
    match findPointById self.watchpoints id with
    | some watch => (true,self.enterStopped "watchpoint" id value watch.handle now)
    | none =>
      match findPointById self.breakpoints id with
      | some brk => (true,self.enterStopped "breakpoint" id value brk.handle now)
      | none => (false,self)

/-- `st_core_debug_intercept_apply`. -/
def CoreDebug.interceptApply [Gdouble α] (self : CoreDebug α) (id : Option String) (now : Nat) : Bool × CoreDebug α :=
  if self.stop.isSome then (true,self)
  else
    match id with
    | none => (false,self)
    | some id =>
      match findPointById self.breakpoints id with
      | some brk => (true,self.enterStopped "breakpoint" id zero brk.handle now)
      | none => (false,self)

/-- Some breakpoint or watchpoint has the identifier. -/
def CoreDebug.Watches (self : CoreDebug α) (id : String) : Prop :=
  ∃ point, (point ∈ self.watchpoints ∨ point ∈ self.breakpoints) ∧ point.id = id

/-- The state of an engine beside a debug server. -/
abbrev Debugged (α W : Type) := EngineState α (W × CoreDebug α)

def debug (s : Debugged α W) : CoreDebug α := s.peers.2

def withDebug (s : Debugged α W) (server : CoreDebug α) : Debugged α W := { s with peers := (s.peers.1,server) }

def withMem (s : Debugged α W) (m : Mem α) : Debugged α W := { s with mem := m }

/-- What the engine asks of the peers passes the debug server by. -/
def attach (bus : Bus α W) : Bus α (W × CoreDebug α) where
  setOutput w id val flags := ((bus.setOutput w.1 id val flags).1,((bus.setOutput w.1 id val flags).2,w.2))
  setInput w id val flags := ((bus.setInput w.1 id val flags).1,((bus.setInput w.1 id val flags).2,w.2))

section
variable [Gdouble α]

/-- The call `expr_eval` of `st_core_var_changed_callback`. -/
def observation (env : Env α (W × CoreDebug α)) (e : Expr α) (s : Debugged α W) : Observation α :=
  ⟨s.mem,exprEval env.depth env.io s.vars e s.mem⟩

/-- That call is made. -/
def observe (env : Env α (W × CoreDebug α)) (e : Expr α) (s : Debugged α W) : Debugged α W :=
  withDebug s { debug s with observed := (debug s).observed ++ [observation env e s] }

/-- The call `st_core_debug_intercept_change` of `st_core_var_changed_callback`, and what
    follows when it answers FALSE. -/
def intercept (apply : Changed α (W × CoreDebug α)) (name : String) (value : α) (s : Debugged α W) :
    Res (Debugged α W) Unit :=
  let answer := (debug s).interceptChange name value s.log.length
  if answer.1 then .returned () (withDebug s answer.2) else apply name (withDebug s answer.2)

/-- `st_core_var_changed_callback` with the debug server. The error of the evaluation is
    not looked at, and `v` stays 0 then. The variable always has an expression: it has just
    been given one. -/
def varChangedCallback (env : Env α (W × CoreDebug α)) (apply : Changed α (W × CoreDebug α)) :
    Changed α (W × CoreDebug α) := fun name s =>
  match s.vars name with
  | none => intercept apply name zero s
  | some e =>
    match (observation env e s).result with
    | some (.value v,m) => intercept apply name v (withMem (observe env e s) m)
    | some (.error _,m) => intercept apply name zero (withMem (observe env e s) m)
    | some (.undefined,_) => .stopped (observe env e s)
    | none => .stopped (observe env e s)

variable [DecidableEq α]

/-- `engine_apply` where the variables are handled by `varChangedCallback`. -/
def engineApplyDebug (env : Env α (W × CoreDebug α)) (engine : Engine α) : Nat → Option String → Debugged α W →
    Res (Debugged α W) Unit
  | 0, _, s => .stopped s
  | n+1, id, s =>
    iterateRules env (varChangedCallback env fun name => engineApplyDebug env engine n (some name)) id 0 engine.rules s

end

/-- What a Core runs: its rules, its connections, and how deep expressions and calls of
    the engine may nest. -/
structure Setup (α W : Type) where
  engine : Engine α
  bus : Bus α W
  depth : Nat
  nesting : Nat

def Setup.env (setup : Setup α W) (io : Io α) : Env α W := ⟨io,setup.bus,setup.depth⟩

def Setup.debugEnv (setup : Setup α W) (io : Io α) : Env α (W × CoreDebug α) := ⟨io,attach setup.bus,setup.depth⟩

/-- A Core between two events, or hung in a call of `engine_apply` that has not returned. -/
structure Session (α W : Type) where
  engine : EngineState α W
  hung : Bool

def ended (result : Res (EngineState α W) Unit) : Session α W := ⟨result.state,!result.returns⟩

/-- What happens to a Core. -/
inductive Change (α W : Type)
  | inputChanged (io : Io α) (name : String) (val : α)
  | outputChanged (io : Io α) (name : String) (val : α)
  | peerReady (io : Io α)
  /-- The peers do something of their own. -/
  | peersAct (act : W → W)

/-- What happens to a Core with a debug server. The tables of points are reordered as
    their iterators have it. -/
inductive DebugEvent (α W : Type)
  | core (change : Change α W)
  | addBreakpoint (id : String) (order : List DebugPoint)
  | removeBreakpoint (handle : UInt32) (order : List DebugPoint)
  | addWatchpoint (id : String) (order : List DebugPoint)
  | removeWatchpoint (handle : UInt32) (order : List DebugPoint)
  | continue

section
variable [Gdouble α] [DecidableEq α]

/-- A call of `engine_apply` by the Core. -/
def Session.apply (setup : Setup α W) (io : Io α) (id : Option String) (self : Session α W) : Session α W :=
  ended (engineApply (setup.env io) setup.engine setup.nesting id self.engine)

/-- The same with the debug server. -/
def Session.applyDebug (setup : Setup α W) (io : Io α) (id : Option String) (self : Session α (W × CoreDebug α)) :
    Session α (W × CoreDebug α) :=
  ended (engineApplyDebug (setup.debugEnv io) setup.engine setup.nesting id self.engine)

/-- The callbacks of inputs and outputs, whose code is the same. -/
def ioChangedCallback (setup : Setup α W) (io : Io α) (name : String) (val : α) (self : Session α (W × CoreDebug α)) :
    Session α (W × CoreDebug α) :=
  let answer := (debug self.engine).interceptChange name val self.engine.log.length
  let self := { self with engine := withDebug self.engine answer.2 }
  if answer.1 then self else self.applyDebug setup io (some name)

/-- `st_core_input_changed_callback`. -/
def inputChangedCallback (setup : Setup α W) : Io α → String → α → Session α (W × CoreDebug α) →
    Session α (W × CoreDebug α) := ioChangedCallback setup

/-- `st_core_output_changed_callback`. -/
def outputChangedCallback (setup : Setup α W) : Io α → String → α → Session α (W × CoreDebug α) →
    Session α (W × CoreDebug α) := ioChangedCallback setup

/-- The end of `register_ready_client`. -/
def registerReadyClient (setup : Setup α W) (io : Io α) (self : Session α (W × CoreDebug α)) :
    Session α (W × CoreDebug α) :=
  let answer := (debug self.engine).interceptApply none self.engine.log.length
  let self := { self with engine := withDebug self.engine answer.2 }
  if answer.1 then self else self.applyDebug setup io none

/-- The Core without the debug server. -/
def stepPlain (setup : Setup α W) (self : Session α W) (change : Change α W) : Option (Session α W) :=
  if self.hung then none
  else
    match change with
    | .inputChanged io name _ => some (self.apply setup io (some name))
    | .outputChanged io name _ => some (self.apply setup io (some name))
    | .peerReady io => some (self.apply setup io none)
    | .peersAct act => some { self with engine := { self.engine with peers := act self.engine.peers } }

/-- What happens to the Core itself, with the debug server. -/
def stepCore (setup : Setup α W) (self : Session α (W × CoreDebug α)) : Change α W → Session α (W × CoreDebug α)
  | .inputChanged io name val => inputChangedCallback setup io name val self
  | .outputChanged io name val => outputChangedCallback setup io name val self
  | .peerReady io => registerReadyClient setup io self
  | .peersAct act => { self with engine := { self.engine with peers := (act self.engine.peers.1,self.engine.peers.2) } }

/-- The debug server is now as given. -/
def Session.serve (self : Session α (W × CoreDebug α)) (server : CoreDebug α) : Session α (W × CoreDebug α) :=
  { self with engine := withDebug self.engine server }

/-- A table of points has been asked to change, and is now in the given order. -/
def Session.edit (self : Session α (W × CoreDebug α)) (table : Table) (order : List DebugPoint) :
    Except String (CoreDebug α) → Option (Session α (W × CoreDebug α))
  | .error _ => some self
  | .ok server => if order.isPerm (server.table table) then some (self.serve (server.withTable order table)) else none

/-- The Core with the debug server. -/
def stepDebug (setup : Setup α W) (self : Session α (W × CoreDebug α)) (event : DebugEvent α W) :
    Option (Session α (W × CoreDebug α)) :=
  if self.hung then none
  else
    match event with
    | .core change => some (stepCore setup self change)
    | .addBreakpoint id order => self.edit .breakpoints order (((debug self.engine).addBreakpoint id).map Prod.snd)
    | .removeBreakpoint handle order => self.edit .breakpoints order ((debug self.engine).removeBreakpoint handle)
    | .addWatchpoint id order => self.edit .watchpoints order (((debug self.engine).addWatchpoint id).map Prod.snd)
    | .removeWatchpoint handle order => self.edit .watchpoints order ((debug self.engine).removeWatchpoint handle)
    | .continue => some (self.serve (debug self.engine).continue)

end

@[simp] theorem withDebug_vars (s : Debugged α W) (server : CoreDebug α) : (withDebug s server).vars = s.vars := rfl
@[simp] theorem withDebug_mem (s : Debugged α W) (server : CoreDebug α) : (withDebug s server).mem = s.mem := rfl
@[simp] theorem withDebug_log (s : Debugged α W) (server : CoreDebug α) : (withDebug s server).log = s.log := rfl
@[simp] theorem withDebug_world (s : Debugged α W) (server : CoreDebug α) : (withDebug s server).peers.1 = s.peers.1 := rfl
@[simp] theorem debug_withDebug (s : Debugged α W) (server : CoreDebug α) : debug (withDebug s server) = server := rfl
@[simp] theorem debug_note (s : Debugged α W) (event : Event α) : debug (s.note event) = debug s := rfl
@[simp] theorem debug_store (s : Debugged α W) (id : String) (e : Expr α) : debug (s.store id e) = debug s := rfl
@[simp] theorem debug_withMem (s : Debugged α W) (m : Mem α) : debug (withMem s m) = debug s := rfl
@[simp] theorem withMem_vars (s : Debugged α W) (m : Mem α) : (withMem s m).vars = s.vars := rfl
@[simp] theorem withMem_mem (s : Debugged α W) (m : Mem α) : (withMem s m).mem = m := rfl
@[simp] theorem withMem_log (s : Debugged α W) (m : Mem α) : (withMem s m).log = s.log := rfl

/-- The steps of the rules leave the debug server alone. -/
theorem step_debug [Gdouble α] [DecidableEq α] {io : Io α} {setup : Setup α W} {rules : List (Rule α)} {s t : Debugged α W}
    (step : Step (setup.debugEnv io) rules s t) : debug t = debug s := by
  cases step with
  | action action => cases action <;> rfl
  | store => rfl

theorem watches_of_findPointById {table : List DebugPoint} {id : String} {point : DebugPoint}
    (found : findPointById table id = some point) : point ∈ table ∧ point.id = id := by
  have same := List.find?_some found
  exact ⟨List.mem_of_find?_eq_some found,beq_iff_eq.mp same⟩

theorem findPointById_none {table : List DebugPoint} {id : String} :
    findPointById table id = none ↔ ∀ point ∈ table, point.id ≠ id := by
  simp [findPointById]

/-- How `st_core_debug_intercept_change` ends: the Core is paused already, or it stops at
    a point, or no point has the identifier. -/
theorem interceptChange_cases (self : CoreDebug α) (id : String) (value : α) (now : Nat) :
    (self.stop ≠ none ∧ self.interceptChange id value now = (true,self)) ∨
    (self.stop = none ∧ self.Watches id ∧ ∃ reason handle,
      self.interceptChange id value now = (true,self.enterStopped reason id value handle now)) ∨
    (self.stop = none ∧ ¬ self.Watches id ∧ self.interceptChange id value now = (false,self)) := by
  unfold CoreDebug.interceptChange
  cases stopped : self.stop with
  | some stop => exact .inl ⟨by simp,by simp⟩
  | none =>
    right
    simp only [Option.isSome_none,Bool.false_eq_true,if_false,true_and]
    cases watch : findPointById self.watchpoints id with
    | some point =>
      obtain ⟨member,same⟩ := watches_of_findPointById watch
      exact .inl ⟨⟨point,.inl member,same⟩,_,_,rfl⟩
    | none =>
      cases brk : findPointById self.breakpoints id with
      | some point =>
        obtain ⟨member,same⟩ := watches_of_findPointById brk
        exact .inl ⟨⟨point,.inr member,same⟩,_,_,rfl⟩
      | none =>
        refine .inr ⟨?_,rfl⟩
        rintro ⟨point,member | member,same⟩
        · exact findPointById_none.mp watch point member same
        · exact findPointById_none.mp brk point member same

/-- `st_core_debug_intercept_change` answers TRUE. -/
def Caught (server : CoreDebug α) (name : String) : Prop := server.stop ≠ none ∨ server.Watches name

/-- The points are the same. -/
def SamePoints (server other : CoreDebug α) : Prop :=
  other.breakpoints = server.breakpoints ∧ other.watchpoints = server.watchpoints

theorem SamePoints.trans {first second third : CoreDebug α} (before : SamePoints first second) (after : SamePoints second third) :
    SamePoints first third := ⟨after.1.trans before.1,after.2.trans before.2⟩

theorem SamePoints.watches {server other : CoreDebug α} (same : SamePoints server other) (name : String) :
    other.Watches name ↔ server.Watches name := by
  simp only [CoreDebug.Watches,same.1,same.2]

/-! What `st_core_var_changed_callback` does. -/

section
variable [Gdouble α]

/-- Of which value, and in which state, `st_core_var_changed_callback` asks the debug server; `none` where the evaluation
before that does not end. -/
def asked (env : Env α (W × CoreDebug α)) (name : String) (s : Debugged α W) : Option (α × Debugged α W) :=
  match s.vars name with
  | none => some (zero,s)
  | some e =>
    match (observation env e s).result with
    | some (.value v,m) => some (v,withMem (observe env e s) m)
    | some (.error _,m) => some (zero,withMem (observe env e s) m)
    | some (.undefined,_) => none
    | none => none

/-- But for the memories of the nodes, and for what the debug server has looked at, nothing is another. -/
structure Looked (s t : Debugged α W) : Prop where
  vars : t.vars = s.vars
  world : t.peers.1 = s.peers.1
  log : t.log = s.log
  stop : (debug t).stop = (debug s).stop
  points : SamePoints (debug s) (debug t)

variable {s t : Debugged α W} {env : Env α (W × CoreDebug α)} {name : String} {value : α}

omit [Gdouble α] in
theorem caught_looked (looked : Looked s t) : Caught (debug t) name ↔ Caught (debug s) name := by
  rw [Caught,Caught,looked.stop,looked.points.watches]

theorem asked_looked (looks : asked env name s = some (value,t)) : Looked s t := by
  unfold asked at looks
  split at looks
  · cases looks
    exact ⟨rfl,rfl,rfl,rfl,⟨rfl,rfl⟩⟩
  · split at looks <;> cases looks <;> exact ⟨rfl,rfl,rfl,rfl,⟨rfl,rfl⟩⟩

theorem varChangedCallback_asked (looks : asked env name s = some (value,t)) (apply : Changed α (W × CoreDebug α)) :
    varChangedCallback env apply name s = intercept apply name value t := by
  cases stored : s.vars name with
  | none =>
    simp only [asked,stored,Option.some.injEq,Prod.mk.injEq] at looks
    obtain ⟨rfl,rfl⟩ := looks
    simp only [varChangedCallback,stored]
  | some e =>
    rcases answered : (observation env e s).result with _ | ⟨v | error | _,m⟩ <;>
      simp only [asked,stored,answered,Option.some.injEq,Prod.mk.injEq,reduceCtorEq] at looks <;>
      (obtain ⟨rfl,rfl⟩ := looks; simp only [varChangedCallback,stored,answered])

theorem varChangedCallback_hangs (looks : asked env name s = none) :
    ∃ t, Looked s t ∧ ∀ apply, varChangedCallback env apply name s = .stopped t := by
  cases stored : s.vars name with
  | none => simp [asked,stored] at looks
  | some e =>
    refine ⟨observe env e s,⟨rfl,rfl,rfl,rfl,⟨rfl,rfl⟩⟩,fun apply => ?_⟩
    rcases answered : (observation env e s).result with _ | ⟨v | error | _,m⟩
    · simp only [varChangedCallback,stored,answered]
    · simp [asked,stored,answered] at looks
    · simp [asked,stored,answered] at looks
    · simp only [varChangedCallback,stored,answered]

/-- `st_core_var_changed_callback` stops the Core, or finds it stopped, and returns; or it calls `engine_apply`. -/
theorem varChangedCallback_cases (looks : asked env name s = some (value,t)) :
    (Caught (debug s) name ∧ ∃ server, server.stop ≠ none ∧ SamePoints (debug t) server ∧
      ∀ apply, varChangedCallback env apply name s = .returned () (withDebug t server)) ∨
    (¬ Caught (debug s) name ∧ ∀ apply, varChangedCallback env apply name s = apply name t) := by
  rw [← caught_looked (asked_looked looks)]
  rcases interceptChange_cases (debug t) name value t.log.length with
    ⟨paused,same⟩ | ⟨_,watched,reason,handle,same⟩ | ⟨running,apart,same⟩
  · refine .inl ⟨.inl paused,debug t,paused,⟨rfl,rfl⟩,fun apply => ?_⟩
    rw [varChangedCallback_asked looks,intercept,same]
    rfl
  · refine .inl ⟨.inr watched,(debug t).enterStopped reason name value handle t.log.length,?_,⟨rfl,rfl⟩,fun apply => ?_⟩
    · simp [CoreDebug.enterStopped]
    · rw [varChangedCallback_asked looks,intercept,same]
      rfl
  · refine .inr ⟨not_or.mpr ⟨not_not.mpr running,apart⟩,fun apply => ?_⟩
    rw [varChangedCallback_asked looks,intercept,same]
    rfl

theorem varChangedCallback_points {apply : Changed α (W × CoreDebug α)}
    (calls : ∀ x u, SamePoints (debug u) (debug (apply x u).state)) (name : String) (s : Debugged α W) :
    SamePoints (debug s) (debug (varChangedCallback env apply name s).state) := by
  cases looks : asked env name s with
  | none =>
    obtain ⟨t,looked,hangs⟩ := varChangedCallback_hangs looks
    rw [hangs]
    exact looked.points
  | some found =>
    obtain ⟨value,t⟩ := found
    refine (asked_looked looks).points.trans ?_
    rcases varChangedCallback_cases looks with ⟨_,server,_,same,returns⟩ | ⟨_,applies⟩
    · rw [returns]
      exact same
    · rw [applies]
      exact calls name t

/-- With `n` calls nested, the handler of the variables. -/
def handlerDebug [DecidableEq α] (env : Env α (W × CoreDebug α)) (engine : Engine α) (n : Nat) : Changed α (W × CoreDebug α) :=
  varChangedCallback env fun name => engineApplyDebug env engine n (some name)

/-- Called for the variable, in the state `v`, the callback calls `engine_apply` in the state `w`. -/
def PassesOn (env : Env α (W × CoreDebug α)) (name : String) (v w : Debugged α W) : Prop :=
  ¬ Caught (debug v) name ∧ ∃ value, asked env name v = some (value,w)

end

@[simp] theorem withTable_stop (self : CoreDebug α) (points : List DebugPoint) (table : Table) :
    (self.withTable points table).stop = self.stop := by
  cases table <;> rfl

@[simp] theorem withTable_observed (self : CoreDebug α) (points : List DebugPoint) (table : Table) :
    (self.withTable points table).observed = self.observed := by
  cases table <;> rfl

/-- The debug server but for its points. -/
def SameRun (self other : CoreDebug α) : Prop := other.stop = self.stop ∧ other.observed = self.observed

theorem add_sameRun {self other : CoreDebug α} {table : Table} {id : String}
    (added : (self.add table id).map Prod.snd = .ok other) : SameRun self other := by
  unfold CoreDebug.add at added
  cases result : addPoint (self.table table) self.nextHandle id with
  | error => simp [result,Except.map] at added
  | ok =>
    simp only [result,Except.map,Except.ok.injEq] at added
    subst added
    exact ⟨withTable_stop _ _ _,withTable_observed _ _ _⟩

theorem remove_sameRun {self other : CoreDebug α} {table : Table} {handle : UInt32}
    (removed : self.remove table handle = .ok other) : SameRun self other := by
  unfold CoreDebug.remove at removed
  cases result : removePoint (self.table table) handle with
  | error => simp [result,Except.map] at removed
  | ok =>
    simp only [result,Except.map,Except.ok.injEq] at removed
    subst removed
    exact ⟨withTable_stop _ _ _,withTable_observed _ _ _⟩

section
variable {self next : Session α (W × CoreDebug α)}

private theorem edit_sameRun {table : Table} {order : List DebugPoint} {result : Except String (CoreDebug α)}
    (same : ∀ server, result = .ok server → SameRun (debug self.engine) server)
    (edited : self.edit table order result = some next) :
    ∃ server, next = self.serve server ∧ SameRun (debug self.engine) server := by
  cases result with
  | error =>
    cases edited
    exact ⟨debug self.engine,rfl,rfl,rfl⟩
  | ok server =>
    simp only [Session.edit,Option.ite_none_right_eq_some,Option.some.injEq] at edited
    obtain ⟨_,rfl⟩ := edited
    obtain ⟨stop,observed⟩ := same server rfl
    exact ⟨_,rfl,by rw [withTable_stop,stop],by rw [withTable_observed,observed]⟩

/-- An event is one of the Core itself, or the debug server has other points, or the Core
    goes on. -/
theorem stepDebug_cases [Gdouble α] [DecidableEq α] {setup : Setup α W} {event : DebugEvent α W}
    (stepped : stepDebug setup self event = some next) :
    (∃ change, event = .core change ∧ next = stepCore setup self change) ∨
    (event = .continue ∧ next = self.serve (debug self.engine).continue) ∨
    (∃ server, next = self.serve server ∧ SameRun (debug self.engine) server) := by
  unfold stepDebug at stepped
  split at stepped
  · cases stepped
  · cases event with
    | core change => exact .inl ⟨change,rfl,(Option.some.inj stepped).symm⟩
    | «continue» => exact .inr (.inl ⟨rfl,(Option.some.inj stepped).symm⟩)
    | addBreakpoint | addWatchpoint => exact .inr (.inr (edit_sameRun (fun _ => add_sameRun) stepped))
    | removeBreakpoint | removeWatchpoint => exact .inr (.inr (edit_sameRun (fun _ => remove_sameRun) stepped))

end

end Starter.Debugger
