import Starter.Coverage
import Starter.Debugger

/-!
What a pause does to the rules. A pause that the change of an input or output brings
about finds the engine at rest; one that the change of a variable brings about finds
loops of `engine_apply` under way, and they go on. What is intercepted is not made up
for later.
-/
namespace Starter.Pauses
open Gdouble Expressions References Relevance Rules Cascade Coverage Debugger Lib.Reentry Lib.Runs

variable {α W : Type}

/-- The engine has done nothing since the Core stopped. -/
def Frozen (self : Session α (W × CoreDebug α)) : Prop :=
  ∀ stop, (debug self.engine).stop = some stop → ∀ event ∈ self.engine.log.drop stop.since, acts event = false

/-- What the log has gained. -/
def fresh (before after : Session α W) : List (Event α) := after.engine.log.drop before.engine.log.length

/-- The call of `engine_apply` that a change brings about, and on which mirrors. -/
def call : Change α W → Option (Io α × Option String)
  | .inputChanged io name _ => some (io,some name)
  | .outputChanged io name _ => some (io,some name)
  | .peerReady io => some (io,none)
  | .peersAct _ => none

/-- The Core does not call `engine_apply` for the change. -/
def Intercepted (server : CoreDebug α) : Change α W → Prop
  | .inputChanged _ name _ => server.stop ≠ none ∨ server.Watches name
  | .outputChanged _ name _ => server.stop ≠ none ∨ server.Watches name
  | .peerReady _ => server.stop ≠ none
  | .peersAct _ => False

section
variable [Gdouble α] [DecidableEq α]

/-- In the course of a call of `engine_apply`, of those inside it too, `st_core_var_changed_callback` is called for the
variable `name`; `u` is the state by then, in which the variable has its new expression. -/
def Changes (env : Env α (W × CoreDebug α)) (engine : Engine α) (name : String) (u : Debugged α W) :
    Nat → Option String → Debugged α W → Prop :=
  Within env engine.rules (handlerDebug env engine) (PassesOn env) fun n key s =>
    Notified env (handlerDebug env engine n) key name u 0 engine.rules s

/-- It is called so in the handling of the event. -/
def Changing (setup : Setup α W) (self : Session α (W × CoreDebug α)) (event : DebugEvent α W) (name : String)
    (u : Debugged α W) : Prop :=
  self.hung = false ∧ ∃ change io key, event = .core change ∧ ¬ Intercepted (debug self.engine) change ∧
    call change = some (io,key) ∧ Changes (setup.debugEnv io) setup.engine name u setup.nesting key self.engine

/-- In the handling of the event, whenever a variable changes no point has its identifier by then. -/
def Unwatched (setup : Setup α W) (self : Session α (W × CoreDebug α)) (event : DebugEvent α W) : Prop :=
  ∀ name u, Changing setup self event name u → ¬ (debug u).Watches name

variable {setup : Setup α W} {self next : Session α (W × CoreDebug α)} {s t : Debugged α W} {name : String}

/-- A call of `engine_apply` that finds the Core running, and no point at a variable that it changes, leaves the Core
running. -/
theorem engineApplyDebug_running (io : Io α) {engine : Engine α} :
    ∀ n key (s : Debugged α W), (debug s).stop = none →
      (∀ name u, Changes (setup.debugEnv io) engine name u n key s → ¬ (debug u).Watches name) →
      (debug (engineApplyDebug (setup.debugEnv io) engine n key s).state).stop = none := by
  intro n
  induction n with
  | zero => exact fun _ _ running _ => running
  | succ n ih =>
    intro key s running unwatched
    refine iterateRules_keeps (I := fun u => (debug u).stop = none) (fun u v running step => ?_) key
      (fun j u name e running stores called => ?_) running
    · show (debug v).stop = none
      rw [step_debug step]
      exact running
    · have stored : (debug (u.store name e)).stop = none := running
      have apart := unwatched name _ (.own called)
      cases looks : asked (setup.debugEnv io) name (u.store name e) with
      | none =>
        obtain ⟨t,looked,hangs⟩ := varChangedCallback_hangs looks
        rw [hangs]
        exact looked.stop.trans stored
      | some found =>
        obtain ⟨value,w⟩ := found
        have looked := asked_looked looks
        rcases varChangedCallback_cases looks with ⟨stopped | watched,_⟩ | ⟨passes,applies⟩
        · exact absurd stored stopped
        · exact absurd watched apart
        · rw [applies]
          exact ih (some name) w (looked.stop.trans stored) fun x v changes =>
            unwatched x v (.nested called ⟨passes,value,looks⟩ changes)

private theorem applyDebug_frozen {io : Io α} {key : Option String} (running : (debug self.engine).stop = none)
    (unwatched : ∀ name u, Changes (setup.debugEnv io) setup.engine name u setup.nesting key self.engine →
      ¬ (debug u).Watches name) :
    Frozen (self.applyDebug setup io key) := by
  have still : (debug (self.applyDebug setup io key).engine).stop = none :=
    engineApplyDebug_running io _ key self.engine running unwatched
  intro stop stopped
  rw [still] at stopped
  cases stopped

private theorem ioChangedCallback_frozen {io : Io α} {val : α} (frozen : Frozen self)
    (unwatched : ¬ Caught (debug self.engine) name →
      ∀ x u, Changes (setup.debugEnv io) setup.engine x u setup.nesting (some name) self.engine → ¬ (debug u).Watches x) :
    Frozen (ioChangedCallback setup io name val self) := by
  unfold ioChangedCallback
  rcases interceptChange_cases (debug self.engine) name val self.engine.log.length with
    ⟨_,same⟩ | ⟨_,_,reason,handle,same⟩ | ⟨running,apart,same⟩
  · rw [same]
    exact frozen
  · rw [same]
    rintro stop ⟨⟩
    simp
  · rw [same]
    exact applyDebug_frozen running (unwatched (not_or.mpr ⟨not_not.mpr running,apart⟩))

private theorem stepCore_frozen {change : Change α W} (frozen : Frozen self)
    (unwatched : ∀ io key, call change = some (io,key) → ¬ Intercepted (debug self.engine) change →
      ∀ x u, Changes (setup.debugEnv io) setup.engine x u setup.nesting key self.engine → ¬ (debug u).Watches x) :
    Frozen (stepCore setup self change) := by
  cases change with
  | inputChanged | outputChanged => exact ioChangedCallback_frozen frozen (unwatched _ _ rfl)
  | peerReady io =>
    simp only [stepCore,registerReadyClient,CoreDebug.interceptApply]
    cases stopped : (debug self.engine).stop with
    | some stop =>
      simp only [Option.isSome_some,if_true]
      exact frozen
    | none =>
      simp only [Option.isSome_none,Bool.false_eq_true,if_false]
      exact applyDebug_frozen stopped (unwatched io none rfl (not_not.mpr stopped))
  | peersAct => exact frozen

/-- A Core that hangs handles nothing any more. -/
private theorem stepDebug_live {event : DebugEvent α W} (stepped : stepDebug setup self event = some next) :
    self.hung = false := by
  by_contra hung
  simp [stepDebug,hung] at stepped

omit [DecidableEq α] [Gdouble α] in
/-- A request of the debugger does not stop the Core. -/
private theorem serve_frozen {server : CoreDebug α} (still : server.stop = (debug self.engine).stop ∨ server.stop = none)
    (frozen : Frozen self) : Frozen (self.serve server) := by
  intro stop stopped
  change server.stop = some stop at stopped
  rcases still with same | none
  · exact frozen stop (same ▸ stopped)
  · rw [none] at stopped
    cases stopped

/-- While the Core is paused no variable changes and nothing is sent, in a run in which
    no point has the identifier of a variable when it changes. -/
theorem run_frozen {events : List (DebugEvent α W)} (frozen : Frozen self)
    (meets : Meets (stepDebug setup) (Unwatched setup) self events) : Always (stepDebug setup) Frozen self events := by
  induction events generalizing self with
  | nil => exact frozen
  | cons event events ih =>
    refine ⟨frozen,fun next stepped => ih ?_ (meets.2 next stepped)⟩
    rcases stepDebug_cases stepped with ⟨change,rfl,rfl⟩ | ⟨_,rfl⟩ | ⟨server,rfl,same,_⟩
    · exact stepCore_frozen frozen fun io key calls free x u changes =>
        meets.1 x u ⟨stepDebug_live stepped,change,io,key,rfl,free,calls,changes⟩
    · exact serve_frozen (.inr rfl) frozen
    · exact serve_frozen (.inl same) frozen

/-! Where no point is on a variable that the rules assign, none is at a variable that changes. -/

/-- Calls of `engine_apply` leave the points alone. -/
theorem engineApplyDebug_points (io : Io α) {engine : Engine α} :
    ∀ n key (s : Debugged α W), SamePoints (debug s) (debug (engineApplyDebug (setup.debugEnv io) engine n key s).state) := by
  intro n
  induction n with
  | zero => exact fun _ _ => ⟨rfl,rfl⟩
  | succ n ih =>
    intro key s
    refine iterateRules_keeps (I := fun u => SamePoints (debug s) (debug u)) (fun u v same step => ?_) key
      (fun j u name e same _ _ => ?_) ⟨rfl,rfl⟩
    · show SamePoints (debug s) (debug v)
      rw [step_debug step]
      exact same
    · exact same.trans (varChangedCallback_points (fun x => ih (some x)) name (u.store name e))

/-- The points are the same when a variable changes, and it is one that a rule assigns an expression to. -/
theorem changes_assigned {io : Io α} {engine : Engine α} {u : Debugged α W} {n : Nat} {key : Option String}
    (changes : Changes (setup.debugEnv io) engine name u n key s) :
    SamePoints (debug s) (debug u) ∧ ∃ j ass, Assigns engine.rules j ass ∧ ass.flagBit = 0 ∧ ass.id = name := by
  have reaches : ∀ {n key s x v}, Notified (setup.debugEnv io) (handlerDebug (setup.debugEnv io) engine n) key x v 0
      engine.rules s → SamePoints (debug s) (debug v) ∧ ∃ j ass, Assigns engine.rules j ass ∧ ass.flagBit = 0 ∧ ass.id = x := by
    intro n key s x v called
    obtain ⟨j,w,e,path,stores,rfl⟩ := notified_along (M := fun s t => SamePoints (debug s) (debug t))
      (fun {s t} step => by rw [step_debug step]; exact ⟨rfl,rfl⟩)
      (fun j u name e _ _ =>
        .single (varChangedCallback_points (fun x => engineApplyDebug_points io n (some x)) name (u.store name e))) called
    obtain ⟨ass,assigned,named,-,value,-⟩ := stores
    refine ⟨?_,j,ass,assigned,value,named⟩
    show SamePoints (debug s) (debug w)
    clear called assigned
    induction path with
    | refl => exact ⟨rfl,rfl⟩
    | tail _ last ih => exact ih.trans last
  induction changes with
  | own called => exact reaches called
  | nested called applies _ ih =>
    obtain ⟨_,value,looks⟩ := applies
    exact ⟨((reaches called).1.trans (asked_looked looks).points).trans ih.1,ih.2⟩

/-- No point has the identifier of a variable that the rules assign an expression to. -/
def Clear (setup : Setup α W) (server : CoreDebug α) : Prop :=
  ∀ j ass, Assigns setup.engine.rules j ass → ass.flagBit = 0 → ¬ server.Watches ass.id

theorem unwatched_of_clear {event : DebugEvent α W} (clear : Clear setup (debug self.engine)) : Unwatched setup self event := by
  rintro name u ⟨_,change,io,key,_,_,_,changes⟩
  obtain ⟨same,j,ass,assigned,value,rfl⟩ := changes_assigned changes
  rw [same.watches]
  exact clear j ass assigned value

/-- The identifier of the point that the event adds. -/
def adds : DebugEvent α W → Option String
  | .addBreakpoint id _ => some id
  | .addWatchpoint id _ => some id
  | _ => none

private theorem stepCore_points {change : Change α W} :
    SamePoints (debug self.engine) (debug (stepCore setup self change).engine) := by
  have io : ∀ (io : Io α) name val, SamePoints (debug self.engine) (debug (ioChangedCallback setup io name val self).engine) := by
    intro io name val
    unfold ioChangedCallback
    rcases interceptChange_cases (debug self.engine) name val self.engine.log.length with
      ⟨_,same⟩ | ⟨_,_,reason,handle,same⟩ | ⟨_,_,same⟩ <;> rw [same]
    · exact ⟨rfl,rfl⟩
    · exact ⟨rfl,rfl⟩
    · exact engineApplyDebug_points io _ _ self.engine
  cases change with
  | inputChanged | outputChanged => exact io _ _ _
  | peerReady mirrors =>
    simp only [stepCore,registerReadyClient,CoreDebug.interceptApply]
    cases stopped : (debug self.engine).stop with
    | some stop => exact ⟨rfl,rfl⟩
    | none => exact engineApplyDebug_points mirrors _ _ self.engine
  | peersAct => exact ⟨rfl,rfl⟩

omit [Gdouble α] [DecidableEq α] in
private theorem edit_watches {table : Table} {order : List DebugPoint} {result : Except String (CoreDebug α)} {x : String}
    {known : Prop} (old : (debug self.engine).Watches x → known) (new : ∀ server, result = .ok server → server.Watches x → known)
    (edited : self.edit table order result = some next) (watched : (debug next.engine).Watches x) : known := by
  cases result with
  | error =>
    cases edited
    exact old watched
  | ok server =>
    simp only [Session.edit,Option.ite_none_right_eq_some,Option.some.injEq] at edited
    obtain ⟨permuted,rfl⟩ := edited
    have among : ∀ point, point ∈ order ↔ point ∈ server.table table := fun point => (List.isPerm_iff.mp permuted).mem_iff
    obtain ⟨point,member,named⟩ := watched
    refine new server rfl ⟨point,?_,named⟩
    cases table with
    | breakpoints => exact member.imp_right (among point).mp
    | watchpoints => exact member.imp_left (among point).mp

omit [Gdouble α] [DecidableEq α] in
private theorem add_watches {server other : CoreDebug α} {table : Table} {id x : String}
    (added : (server.add table id).map Prod.snd = .ok other) (watched : other.Watches x) : server.Watches x ∨ id = x := by
  unfold CoreDebug.add addPoint at added
  split at added
  · cases added
  · cases added
    obtain ⟨point,member,named⟩ := watched
    have parts : ∀ {points : List DebugPoint} {handle : UInt32},
        point ∈ ⟨handle,id⟩ :: points.filter (fun point => point.handle != handle) → point ∈ points ∨ id = x := by
      intro points handle member
      rcases List.mem_cons.mp member with rfl | kept
      · exact .inr named
      · exact .inl (List.mem_filter.mp kept).1
    cases table with
    | breakpoints =>
      rcases member with other | own
      · exact .inl ⟨point,.inl other,named⟩
      · exact (parts own).imp_left fun member => ⟨point,.inr member,named⟩
    | watchpoints =>
      rcases member with own | other
      · exact (parts own).imp_left fun member => ⟨point,.inl member,named⟩
      · exact .inl ⟨point,.inr other,named⟩

omit [Gdouble α] [DecidableEq α] in
private theorem remove_watches {server other : CoreDebug α} {table : Table} {handle : UInt32} {x : String}
    (removed : server.remove table handle = .ok other) (watched : other.Watches x) : server.Watches x := by
  unfold CoreDebug.remove removePoint at removed
  split at removed
  · cases removed
  · cases removed
    obtain ⟨point,member,named⟩ := watched
    refine ⟨point,?_,named⟩
    cases table with
    | breakpoints => exact member.imp_right fun kept => (List.mem_filter.mp kept).1
    | watchpoints => exact member.imp_left fun kept => (List.mem_filter.mp kept).1

/-- Only the debugger adds points. -/
theorem stepDebug_watches {event : DebugEvent α W} {x : String} (stepped : stepDebug setup self event = some next)
    (watched : (debug next.engine).Watches x) : (debug self.engine).Watches x ∨ adds event = some x := by
  have live : self.hung = false := stepDebug_live stepped
  simp only [stepDebug,live,Bool.false_eq_true,if_false] at stepped
  cases event with
  | core change =>
    cases stepped
    exact .inl ((stepCore_points.watches x).mp watched)
  | «continue» =>
    cases stepped
    exact .inl watched
  | addBreakpoint id | addWatchpoint id =>
    exact edit_watches .inl (fun server added watched => (add_watches added watched).imp_right (congrArg some)) stepped watched
  | removeBreakpoint | removeWatchpoint =>
    exact .inl (edit_watches (fun old => old) (fun server removed => remove_watches removed) stepped watched)

/-- Where neither the server has nor an event adds a point on a variable that the rules assign, no variable is watched
when it changes. -/
theorem meets_of_clear {events : List (DebugEvent α W)} (clear : Clear setup (debug self.engine))
    (apart : ∀ event ∈ events, ∀ j ass, Assigns setup.engine.rules j ass → ass.flagBit = 0 → adds event ≠ some ass.id) :
    Meets (stepDebug setup) (Unwatched setup) self events := by
  induction events generalizing self with
  | nil => trivial
  | cons event events ih =>
    refine ⟨unwatched_of_clear clear,fun next stepped => ih ?_ fun e member => apart e (List.mem_cons_of_mem _ member)⟩
    intro j ass assigned value watched
    rcases stepDebug_watches stepped watched with old | new
    · exact clear j ass assigned value old
    · exact apart event List.mem_cons_self j ass assigned value new

/-! ### What is intercepted, and what is not -/

/-- The rule at position `q` refers to what changes. -/
def Concerns (rules : List (Rule α)) (s : Debugged α W) : Change α W → Nat → Prop
  | .inputChanged _ name _, q => Refers rules s q name
  | .outputChanged _ name _, q => Refers rules s q name
  | .peerReady _, q => q < rules.length
  | .peersAct _, _ => False

/-- But for the debug server nothing is another. -/
def Untouched (s t : Debugged α W) : Prop := t.vars = s.vars ∧ t.mem = s.mem ∧ t.peers.1 = s.peers.1 ∧ t.log = s.log

/-- The rule at position `q` has been evaluated. -/
def Evaluated (before after : Session α (W × CoreDebug α)) (q : Nat) : Prop := ∃ key, .iterate q key ∈ fresh before after

/-- What becomes of the change of the variable `name` in the course of a call of `engine_apply`; `u` is the state that
`st_core_var_changed_callback` is called in, and `w` that in which it asks the debug server, after it has evaluated the new
expression. -/
structure VariableTreated (setup : Setup α W) (io : Io α) (name : String) (u : Debugged α W) : Prop where
  /-- Where the evaluation does not end the Core hangs. -/
  hangs : asked (setup.debugEnv io) name u = none →
    ∃ t, Looked u t ∧ ∀ apply, varChangedCallback (setup.debugEnv io) apply name u = .stopped t
  /-- The evaluation may change the memories of the nodes, and nothing else. -/
  looks : ∀ value w, asked (setup.debugEnv io) name u = some (value,w) → Looked u w
  /-- A change that is intercepted evaluates no rule: the callback returns, whatever `engine_apply` would do, and the
  assignment that it comes from has succeeded; so the loops under way go on. -/
  intercepted : ∀ value w, asked (setup.debugEnv io) name u = some (value,w) → Caught (debug u) name →
    ∃ t, Untouched w t ∧ (debug t).stop ≠ none ∧
      ∀ apply, varChangedCallback (setup.debugEnv io) apply name u = .returned () t
  /-- For any other one `engine_apply` is called, and when it returns the rules that refer to the variable have been
  evaluated, where the Core has not stopped at a variable meanwhile. -/
  evaluated : ∀ value w, asked (setup.debugEnv io) name u = some (value,w) → ¬ Caught (debug u) name →
    (∀ apply, varChangedCallback (setup.debugEnv io) apply name u = apply name w) ∧
    ∀ n t, engineApplyDebug (setup.debugEnv io) setup.engine n (some name) w = .returned () t →
      (debug t).stop ≠ none ∨
        ∀ q, Refers setup.engine.rules u q name → ∃ key, .iterate q key ∈ t.log.drop w.log.length

/-- What becomes of a change: one that is intercepted leaves the rules unevaluated, now
    and when the Core goes on; for any other one the rules that refer to it have been
    evaluated in the end, where the Core has not hung or stopped at a variable meanwhile,
    and the variables that change in the course of that are treated as they should. -/
def Treated (setup : Setup α W) (self next : Session α (W × CoreDebug α)) : DebugEvent α W → Prop
  | .core change =>
    (Intercepted (debug self.engine) change →
      Untouched self.engine next.engine ∧ (debug next.engine).stop ≠ none ∧ next.hung = false) ∧
    (¬ Intercepted (debug self.engine) change →
      next.hung = true ∨ (debug next.engine).stop ≠ none ∨
        ∀ q, Concerns setup.engine.rules self.engine change q → Evaluated self next q) ∧
    (¬ Intercepted (debug self.engine) change → ∀ io key, call change = some (io,key) → ∀ name u,
      Changes (setup.debugEnv io) setup.engine name u setup.nesting key self.engine → VariableTreated setup io name u)
  | .continue => Untouched self.engine next.engine ∧ (debug next.engine).stop = none
  | _ => Untouched self.engine next.engine ∧ (debug next.engine).stop = (debug self.engine).stop

/-- The Core has stopped, or the rule is one that has been evaluated since `first`. -/
private def Met (first : Debugged α W) (concerned : Nat → Prop) (q : Nat) (u : Debugged α W) : Prop :=
  concerned q → (debug u).stop ≠ none ∨ ∃ key, .iterate q key ∈ u.log.drop first.log.length

omit [Gdouble α] [DecidableEq α] in
private theorem met_mono {first : Debugged α W} {concerned : Nat → Prop} {q : Nat} (front : s.log <+: t.log)
    (same : debug t = debug s) (met : Met first concerned q s) : Met first concerned q t := by
  intro concern
  rw [same]
  refine (met concern).imp_right ?_
  rintro ⟨key,member⟩
  exact ⟨key,(front.drop _).subset member⟩

omit [Gdouble α] [DecidableEq α] in
private theorem met_begun {first : Debugged α W} {concerned : Nat → Prop} {j : Nat} {key : Option String}
    (front : first.log <+: s.log) : Met first concerned j (s.note (.iterate j key)) := by
  refine fun _ => .inr ⟨key,?_⟩
  rw [note_log,List.drop_append_of_le_length front.length_le]
  exact List.mem_concat_self

private theorem actions_debug {io : Io α} {rules : List (Rule α)} {j : Nat}
    (actions : Actions (setup.debugEnv io) rules j s t) : debug t = debug s := by
  induction actions with
  | refl => rfl
  | tail _ last ih => exact (step_debug (.action last)).trans ih

private theorem met_established (io : Io α) (rules : List (Rule α)) (first : Debugged α W) (concerned : Nat → Prop) :
    Established (setup.debugEnv io) rules (fun u => first.log <+: u.log) (Met first concerned) := by
  refine ⟨fun u v step front => front.trans (step_log step),?_,?_,?_,?_,?_⟩
  · intro j q u v _ _ action met
    exact met_mono (action_log action) (step_debug (.action action)) met
  · intro j q u x e _ _ stores met
    exact .inl (met_mono (List.prefix_append _ _) rfl met)
  · intro q u event _ _ met
    exact met_mono (List.prefix_append _ _) rfl met
  · intro j trigger u key front _
    exact met_begun front
  · intro j block u key front at_j
    have ends : BlockEnds (setup.debugEnv io) rules j (u.note (.iterate j key))
        (labelBlockStore (setup.debugEnv io) block (u.note (.iterate j key))) := labelBlockStore_ends at_j
    have after : ∀ v, Actions (setup.debugEnv io) rules j (u.note (.iterate j key)) v → Met first concerned j v :=
      fun v actions => met_mono (actions_log actions) (actions_debug actions) (met_begun front)
    cases stored : labelBlockStore (setup.debugEnv io) block (u.note (.iterate j key)) with
    | stopped => trivial
    | failed error v =>
      rw [stored] at ends
      exact after v ends
    | returned result v =>
      rw [stored] at ends
      rcases result with _ | ⟨_,_ | x⟩
      · exact after v ends
      · exact after v ends
      · obtain ⟨w,e,actions,_,rfl⟩ := ends
        exact .inl (met_mono (List.prefix_append _ _) rfl (after w actions))

omit [DecidableEq α] in
/-- What the debug server looks at before it answers changes no reference. -/
private theorem asked_refers {env : Env α (W × CoreDebug α)} {rules : List (Rule α)} {name : String} {value : α}
    (looks : asked env name s = some (value,t)) {q : Nat} {id : String} : Refers rules t q id ↔ Refers rules s q id := by
  have remembers : t.mem.captured = s.mem.captured := by
    unfold asked at looks
    split at looks
    · cases looks
      rfl
    · split at looks <;> rename_i answered <;> cases looks <;> exact exprEval_captured answered (by simp)
  exact refers_alike ⟨(asked_looked looks).vars,remembers⟩

variable {rules : List (Rule α)} {first : Debugged α W} {concerned : Nat → Prop}

omit [DecidableEq α] in
private theorem varChangedCallback_closes {env : Env α (W × CoreDebug α)} {apply : Changed α (W × CoreDebug α)}
    (closes : Closes rules (fun u => first.log <+: u.log) (Met first concerned) apply) :
    Closes rules (fun u => first.log <+: u.log) (Met first concerned) (varChangedCallback env apply) := by
  constructor
  · intro name u t frames called now
    cases looks : asked env name u with
    | none =>
      obtain ⟨v,_,hangs⟩ := varChangedCallback_hangs looks
      rw [hangs] at called
      cases called
    | some found =>
      obtain ⟨value,w⟩ := found
      have looked := asked_looked looks
      rcases varChangedCallback_cases looks with ⟨_,server,stopped,_,returns⟩ | ⟨_,applies⟩
      · rw [returns] at called
        cases called
        have front : first.log <+: w.log := looked.log ▸ now.1
        exact ⟨front,fun q _ => .inl fun _ => .inl stopped⟩
      · rw [applies] at called
        have front : first.log <+: w.log := looked.log ▸ now.1
        refine closes.close name w t frames called ⟨front,?_⟩
        refine settling_quiet (fun q met => ?_) (fun q id => (asked_refers looks).mpr) now.2
        intro concern
        rw [looked.stop,looked.log]
        exact met concern
  · intro name u error t called
    cases looks : asked env name u with
    | none =>
      obtain ⟨v,_,hangs⟩ := varChangedCallback_hangs looks
      rw [hangs] at called
      cases called
    | some found =>
      obtain ⟨value,w⟩ := found
      rcases varChangedCallback_cases looks with ⟨_,server,_,_,returns⟩ | ⟨_,applies⟩
      · rw [returns] at called
        cases called
      · rw [applies] at called
        exact closes.true name w error t called

private theorem engineApplyDebug_closes (io : Io α) (engine : Engine α) :
    ∀ n key s t frames, engineApplyDebug (setup.debugEnv io) engine n key s = .returned () t →
      At engine.rules (fun u => first.log <+: u.log) (Met first concerned) s (⟨key,0⟩ :: frames) →
      At engine.rules (fun u => first.log <+: u.log) (Met first concerned) t frames := by
  intro n
  induction n with
  | zero =>
    intro key s t frames called
    cases called
  | succ n ih =>
    intro key s t frames called now
    have true : ∀ id (u : Debugged α W) error t, engineApplyDebug (setup.debugEnv io) engine n (some id) u ≠ .failed error t := by
      intro id u error t
      cases n with
      | zero => simp [engineApplyDebug]
      | succ n => exact iterateRules_true error t
    have closes : Closes engine.rules (fun u => first.log <+: u.log) (Met first concerned)
        fun name => engineApplyDebug (setup.debugEnv io) engine n (some name) :=
      ⟨fun id u t frames => ih (some id) u t frames,true⟩
    exact iterateRules_at (met_established io engine.rules first concerned) (varChangedCallback_closes closes) rfl now called

/-- When `engine_apply` returns from a change, the Core has stopped meanwhile or the rules
    that referred to what changed have been evaluated. -/
theorem engineApplyDebug_evaluated {io : Io α} {engine : Engine α} {n : Nat} {key : Option String}
    (called : engineApplyDebug (setup.debugEnv io) engine n key s = .returned () t) {q : Nat} (below : q < engine.rules.length)
    (concerned : ∀ id, key = some id → Refers engine.rules s q id) :
    (debug t).stop ≠ none ∨ ∃ key, .iterate q key ∈ t.log.drop s.log.length := by
  have start : At engine.rules (fun u => s.log <+: u.log) (Met s fun q => ∀ id, key = some id → Refers engine.rules s q id) s
      [⟨key,0⟩] := by
    refine ⟨List.prefix_rfl,fun q _ => ?_⟩
    by_cases refers : ∀ id, key = some id → Refers engine.rules s q id
    · exact .inr ⟨_,List.mem_cons_self,Nat.zero_le q,refers⟩
    · exact .inl fun concern => absurd concern refers
  exact settled (engineApplyDebug_closes io engine n key s t [] called start).2 q below concerned

private theorem applyDebug_treated {io : Io α} {key : Option String} {concerned : Nat → Prop}
    (below : ∀ q, concerned q → q < setup.engine.rules.length)
    (refers : ∀ q, concerned q → ∀ id, key = some id → Refers setup.engine.rules self.engine q id) :
    (self.applyDebug setup io key).hung = true ∨ (debug (self.applyDebug setup io key).engine).stop ≠ none ∨
      ∀ q, concerned q → Evaluated self (self.applyDebug setup io key) q := by
  unfold Session.applyDebug Evaluated fresh
  cases called : engineApplyDebug (setup.debugEnv io) setup.engine setup.nesting key self.engine with
  | failed | stopped => exact .inl rfl
  | returned _ t =>
    by_cases stopped : (debug t).stop ≠ none
    · exact .inr (.inl stopped)
    · refine .inr (.inr fun q concern => ?_)
      exact (engineApplyDebug_evaluated called (below q concern) (refers q concern)).resolve_left stopped

private theorem ioChanged_treated {io : Io α} {name : String} {val : α} (live : self.hung = false) :
    ((debug self.engine).stop ≠ none ∨ (debug self.engine).Watches name →
      Untouched self.engine (ioChangedCallback setup io name val self).engine ∧
        (debug (ioChangedCallback setup io name val self).engine).stop ≠ none ∧
        (ioChangedCallback setup io name val self).hung = false) ∧
    (¬ ((debug self.engine).stop ≠ none ∨ (debug self.engine).Watches name) →
      (ioChangedCallback setup io name val self).hung = true ∨
        (debug (ioChangedCallback setup io name val self).engine).stop ≠ none ∨
        ∀ q, Refers setup.engine.rules self.engine q name → Evaluated self (ioChangedCallback setup io name val self) q) := by
  unfold ioChangedCallback
  rcases interceptChange_cases (debug self.engine) name val self.engine.log.length with
    ⟨paused,same⟩ | ⟨_,watched,reason,handle,same⟩ | ⟨running,apart,same⟩
  · rw [same]
    exact ⟨fun _ => ⟨⟨rfl,rfl,rfl,rfl⟩,paused,live⟩,fun free => absurd (.inl paused) free⟩
  · rw [same]
    exact ⟨fun _ => ⟨⟨rfl,rfl,rfl,rfl⟩,by simp [CoreDebug.enterStopped],live⟩,fun free => absurd (.inr watched) free⟩
  · rw [same]
    refine ⟨?_,fun _ => ?_⟩
    · rintro (paused | watched)
      · exact absurd running paused
      · exact absurd watched apart
    · refine applyDebug_treated (fun q refers => ?_) ?_
      · obtain ⟨_,at_q,_⟩ := refers
        exact (List.getElem?_eq_some_iff.mp at_q).1
      · rintro q refers _ ⟨⟩
        exact refers

private theorem peerReady_treated {io : Io α} (live : self.hung = false) :
    ((debug self.engine).stop ≠ none → Untouched self.engine (registerReadyClient setup io self).engine ∧
      (debug (registerReadyClient setup io self).engine).stop ≠ none ∧ (registerReadyClient setup io self).hung = false) ∧
    (¬ (debug self.engine).stop ≠ none → (registerReadyClient setup io self).hung = true ∨
      (debug (registerReadyClient setup io self).engine).stop ≠ none ∨
      ∀ q, q < setup.engine.rules.length → Evaluated self (registerReadyClient setup io self) q) := by
  unfold registerReadyClient CoreDebug.interceptApply
  cases paused : (debug self.engine).stop with
  | some stop =>
    simp only [Option.isSome_some,if_true]
    refine ⟨fun _ => ⟨⟨rfl,rfl,rfl,rfl⟩,?_,live⟩,fun running => absurd (by simp) running⟩
    simp [paused]
  | none =>
    refine ⟨fun stopped => absurd rfl stopped,fun _ => ?_⟩
    simp only [Option.isSome_none,Bool.false_eq_true,if_false]
    exact applyDebug_treated (fun q below => below) (by simp)

/-- Whatever the state is in which it is called. -/
theorem varChangedCallback_treated (setup : Setup α W) (io : Io α) (name : String) (u : Debugged α W) :
    VariableTreated setup io name u := by
  refine ⟨varChangedCallback_hangs,fun value w => asked_looked,fun value w looks caught => ?_,fun value w looks free => ?_⟩
  · rcases varChangedCallback_cases looks with ⟨_,server,stopped,_,returns⟩ | ⟨free,_⟩
    · exact ⟨withDebug w server,⟨rfl,rfl,rfl,rfl⟩,stopped,returns⟩
    · exact absurd caught free
  · rcases varChangedCallback_cases looks with ⟨caught,_⟩ | ⟨_,applies⟩
    · exact absurd caught free
    · refine ⟨applies,fun n t called => or_iff_not_imp_left.mpr fun running q refers => ?_⟩
      have now : Refers setup.engine.rules w q name := (asked_refers looks).mpr refers
      obtain ⟨_,at_q,_⟩ := now
      have below : q < setup.engine.rules.length := (List.getElem?_eq_some_iff.mp at_q).1
      refine (engineApplyDebug_evaluated called below ?_).resolve_left running
      rintro _ ⟨⟩
      exact (asked_refers looks).mpr refers

private theorem stepDebug_treated {event : DebugEvent α W} (stepped : stepDebug setup self event = some next) :
    Treated setup self next event := by
  have live : self.hung = false := stepDebug_live stepped
  cases event with
  | core change =>
    simp only [stepDebug,live,Bool.false_eq_true,if_false,Option.some.injEq] at stepped
    subst stepped
    have treated : ¬ Intercepted (debug self.engine) change → ∀ io key, call change = some (io,key) → ∀ name u,
        Changes (setup.debugEnv io) setup.engine name u setup.nesting key self.engine → VariableTreated setup io name u :=
      fun _ io _ _ name u _ => varChangedCallback_treated setup io name u
    rw [Treated,← and_assoc]
    refine ⟨?_,treated⟩
    cases change with
    | inputChanged | outputChanged => exact ioChanged_treated live
    | peerReady => exact peerReady_treated live
    | peersAct => exact ⟨False.elim,fun _ => .inr (.inr fun _ => False.elim)⟩
  | «continue» =>
    simp only [stepDebug,live,Bool.false_eq_true,if_false,Option.some.injEq] at stepped
    subst stepped
    exact ⟨⟨rfl,rfl,rfl,rfl⟩,rfl⟩
  | addBreakpoint | removeBreakpoint | addWatchpoint | removeWatchpoint =>
    rcases stepDebug_cases stepped with ⟨_,⟨⟩,_⟩ | ⟨⟨⟩,_⟩ | ⟨server,rfl,same,_⟩
    exact ⟨⟨rfl,rfl,rfl,rfl⟩,same⟩

/-- In every run, nothing that is intercepted is evaluated, nor made up for when the Core
    goes on, and nothing else is lost. -/
theorem run_treated (setup : Setup α W) (self : Session α (W × CoreDebug α)) (events : List (DebugEvent α W)) :
    Meets (stepDebug setup) (fun self event => ∀ next, stepDebug setup self event = some next → Treated setup self next event)
      self events := by
  induction events generalizing self with
  | nil => trivial
  | cons event events ih => exact ⟨fun _ => stepDebug_treated,fun next _ => ih next⟩

end

private def acceptAll : Bus ℚ Unit := ⟨fun w _ _ _ => (true,w),fun w _ _ _ => (true,w)⟩

/-- The mirrored objects: the input `door` and the output `lamp`. -/
private def doorIo (door lamp : ℚ) : Io ℚ :=
  ⟨fun id => if id = "door" then some ⟨"door","",0,0,1,1,door,0⟩ else none,
    fun id => if id = "lamp" then some ⟨"lamp","",0,0,1,1,lamp,0⟩ else none⟩

/-- `VAR seen; TRIGGER WHEN door SET seen = 1, lamp = 1;`. -/
private def doorSetup : Setup ℚ Unit :=
  ⟨⟨[],[⟨.ref "door",[⟨"seen",.literal 1,0⟩,⟨"lamp",.literal 1,0⟩]⟩]⟩,acceptAll,2,3⟩

private def doorStart : Session ℚ (Unit × CoreDebug ℚ) :=
  ⟨⟨fun id => if id = "seen" then some (.literal 0) else none,freshMem,((),coreDebugInit),[]⟩,false⟩

/-- The same with an input `gate`. -/
private def gateIo (door gate lamp : ℚ) : Io ℚ :=
  ⟨fun id => if id = "gate" then some ⟨"gate","",0,0,1,1,gate,0⟩ else (doorIo door lamp).inputs id,(doorIo door lamp).outputs⟩

/-- The door opens, and `seen` changes unwatched; the gate, which is watched, opens, and the Core stops; the door shuts
meanwhile; the Core goes on, and the door opens again. -/
private def gateEvents : List (DebugEvent ℚ Unit) :=
  [.addWatchpoint "gate" [⟨1,"gate"⟩],.core (.inputChanged (gateIo 1 0 0) "door" 1),.core (.outputChanged (gateIo 1 0 1) "lamp" 1),
    .core (.inputChanged (gateIo 1 1 1) "gate" 1),.core (.inputChanged (gateIo 0 1 1) "door" 0),.continue,
    .core (.inputChanged (gateIo 1 1 1) "door" 1)]

theorem run_frozen_door :
    Always (stepDebug doorSetup) Frozen doorStart gateEvents ∧
      ((run (stepDebug doorSetup) doorStart (gateEvents.take 2)).map fun last => last.engine.log.countP acts) = some 2 ∧
      ((run (stepDebug doorSetup) doorStart (gateEvents.take 5)).map fun last => (debug last.engine).stop.isSome) = some true ∧
      ((run (stepDebug doorSetup) doorStart gateEvents).map fun last => (debug last.engine).stop.isSome) = some false := by
  have assigned : ∀ j ass, Assigns doorSetup.engine.rules j ass → ass.id = "seen" ∨ ass.id = "lamp" := by
    rintro j ass ⟨rule,at_j,member⟩
    have only : rule ∈ doorSetup.engine.rules := List.mem_of_getElem? at_j
    simp only [doorSetup,Engine.rules,List.map_nil,List.map_cons,List.nil_append,List.mem_singleton] at only
    subst only
    simp only [assigns,List.mem_cons,List.not_mem_nil,or_false] at member
    rcases member with rfl | rfl
    · exact .inl rfl
    · exact .inr rfl
  have clear : Clear doorSetup (debug doorStart.engine) := by
    rintro j ass _ _ ⟨point,member,_⟩
    simp [doorStart,debug,coreDebugInit] at member
  have apart : ∀ event ∈ gateEvents, ∀ j ass, Assigns doorSetup.engine.rules j ass → ass.flagBit = 0 →
      adds event ≠ some ass.id := by
    intro event member j ass assigns _
    simp only [gateEvents,List.mem_cons,List.not_mem_nil,or_false] at member
    rcases assigned j ass assigns with same | same <;> rw [same] <;>
      rcases member with rfl | rfl | rfl | rfl | rfl | rfl | rfl <;> simp [adds]
  exact ⟨run_frozen (by rintro _ ⟨⟩) (meets_of_clear clear apart),by decide +kernel,by decide +kernel,by decide +kernel⟩

/-- A watchpoint on a variable stops the Core in the middle of a trigger, which goes on to
    set the lamp. -/
theorem watched_variable_goes_on : ¬ Always (stepDebug doorSetup) Frozen doorStart
    [.addWatchpoint "seen" [⟨1,"seen"⟩],.core (.inputChanged (doorIo 1 0) "door" 1)] := by
  intro always
  have ends : ∃ last stop, run (stepDebug doorSetup) doorStart
      [.addWatchpoint "seen" [⟨1,"seen"⟩],.core (.inputChanged (doorIo 1 0) "door" 1)] = some last ∧
      (debug last.engine).stop = some stop ∧ (last.engine.log.drop stop.since).any acts = true :=
    ⟨_,_,rfl,rfl,rfl⟩
  obtain ⟨last,stop,done,stopped,acted⟩ := ends
  obtain ⟨event,member,act⟩ := List.any_eq_true.mp acted
  rw [always_last always done stop stopped event member] at act
  cases act

/-- `lamp { SET door WHEN 1; }`. -/
private def lampSetup : Setup ℚ Unit := ⟨⟨[⟨[⟨.literal 1,⟨"lamp",.ref "door",0⟩⟩]⟩],[]⟩,acceptAll,1,1⟩

/-- The Core stops at the change of the door and goes on: the rule that refers to the door
    has not been evaluated. -/
theorem intercepted_change_lost : ∃ last,
    run (stepDebug lampSetup) doorStart
      [.addBreakpoint "door" [⟨1,"door"⟩],.core (.inputChanged (doorIo 1 0) "door" 1),.continue] = some last ∧
    Refers lampSetup.engine.rules last.engine 0 "door" ∧ (debug last.engine).stop.isNone = true ∧ last.engine.log = [] :=
  ⟨_,rfl,⟨_,rfl,.ref "door",by simp [exprs],.ref rfl⟩,rfl,rfl⟩

end Starter.Pauses
