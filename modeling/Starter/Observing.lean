import Starter.Debugger
import Starter.Twins

/-!
A debug server without points. The Core beside it does what the Core without it does, as
long as the server's own evaluations of the expressions of variables leave the memory of
the nodes alone.
-/
namespace Starter.Observing
open Gdouble Expressions Rules Cascade Debugger Twins Lib.Runs

variable {α W : Type}

/-- The evaluation ends, with a value or an error, and nothing is remembered by it. -/
def Quiet (o : Observation α) : Prop := ∃ out, out ≠ .undefined ∧ o.result = some (out,o.before)

/-- No breakpoint, no watchpoint and no pause. -/
structure Idle (server : CoreDebug α) : Prop where
  breakpoints : server.breakpoints = []
  watchpoints : server.watchpoints = []
  running : server.stop = none

/-- The engine without what is beside it. -/
def forget (s : Debugged α W) : EngineState α W := ⟨s.vars,s.mem,s.peers.1,s.log⟩

def Session.forget (self : Session α (W × CoreDebug α)) : Session α W := ⟨Observing.forget self.engine,self.hung⟩

/-- A state with an idle debug server, which has made at least `n` evaluations, and the
    same without it. -/
structure Beside (n : Nat) (s : Debugged α W) (s' : EngineState α W) : Prop where
  idle : Idle (debug s)
  made : n ≤ (debug s).observed.length
  same : s' = forget s

/-- Some evaluation by the debug server after the first `n` has not been quiet. -/
def Disturbed (n : Nat) (s : Debugged α W) : Prop := ∃ o ∈ (debug s).observed.drop n, ¬ Quiet o

/-- The Core with the debug server, and the Core without it. -/
def watching (n : Nat) : Tie α (W × CoreDebug α) W := ⟨Beside n,Disturbed n,fun _ => True,False,False⟩

theorem disturbed_mono {n : Nat} {s t : Debugged α W} (front : (debug s).observed <+: (debug t).observed)
    (disturbed : Disturbed n s) : Disturbed n t := by
  obtain ⟨o,member,loud⟩ := disturbed
  exact ⟨o,(front.drop n).subset member,loud⟩

theorem interceptChange_idle {server : CoreDebug α} (idle : Idle server) (name : String) (value : α) (now : Nat) :
    server.interceptChange name value now = (false,server) := by
  rcases interceptChange_cases server name value now with ⟨paused,_⟩ | ⟨_,⟨_,member,_⟩,_⟩ | ⟨_,_,same⟩
  · exact absurd idle.running paused
  · simp [idle.breakpoints,idle.watchpoints] at member
  · exact same

theorem intercept_idle {apply : Changed α (W × CoreDebug α)} {s : Debugged α W} (idle : Idle (debug s)) (name : String)
    (value : α) : intercept apply name value s = apply name s := by
  unfold intercept
  rw [interceptChange_idle idle]
  rfl

section
variable [Gdouble α] {setup : Setup α W} {n : Nat} {s : Debugged α W} {s' : EngineState α W}

omit [Gdouble α] in
private theorem keeps (setup : Setup α W) (io : Io α) (n : Nat) :
    Keeps (setup.debugEnv io) (setup.env io) (watching n) := by
  constructor
  case io | depth => rfl
  case vars | mem =>
    rintro s _ ⟨_,_,rfl⟩
    rfl
  case remember =>
    rintro s _ _ ⟨idle,made,rfl⟩
    exact ⟨idle,made,rfl⟩
  case note =>
    rintro s _ _ _ ⟨idle,made,rfl⟩
    exact ⟨idle,made,rfl⟩
  case remarkLeft | remarkRight =>
    rintro s s' event deaf
    exact deaf.elim
  case store =>
    rintro s _ id e _ ⟨idle,made,rfl⟩
    exact ⟨idle,made,rfl⟩
  case setOutput | setInput =>
    rintro s _ id v flags ⟨idle,made,rfl⟩
    exact ⟨.inr rfl,idle,made,rfl⟩
  case lostRemember | lostStore | lostOutput | lostInput | lostNote => intros; assumption

omit [Gdouble α] in
private theorem loops (n : Nat) (key : Option String) (pos : Nat) : Loops (watching n : Tie α (W × CoreDebug α) W) key pos pos := by
  constructor
  · rintro s _ ⟨idle,made,rfl⟩
    exact ⟨idle,made,rfl⟩
  · rintro s _ _ ⟨idle,made,rfl⟩
    exact ⟨idle,made,rfl⟩
  · exact fun _ lost => lost

omit [Gdouble α] in
private theorem intercept_disturbed {apply : Changed α (W × CoreDebug α)} {name : String}
    (lasting : ∀ u, Disturbed n u → Disturbed n (apply name u).state) (value : α) (disturbed : Disturbed n s) :
    Disturbed n (intercept apply name value s).state := by
  unfold intercept
  rcases interceptChange_cases (debug s) name value s.log.length with ⟨_,same⟩ | ⟨_,_,_,_,same⟩ | ⟨_,_,same⟩
  · rw [same]
    exact disturbed
  · rw [same]
    exact disturbed
  · rw [same]
    exact lasting s disturbed

private theorem callback_disturbed {env : Env α (W × CoreDebug α)} {apply : Changed α (W × CoreDebug α)} {name : String}
    {e : Expr α} (stored : s.vars name = some e) (lasting : ∀ u, Disturbed n u → Disturbed n (apply name u).state)
    (disturbed : Disturbed n (observe env e s)) : Disturbed n (varChangedCallback env apply name s).state := by
  unfold varChangedCallback
  rw [stored]
  simp only
  rcases (observation env e s).result with _ | ⟨v | error | _,m⟩
  · exact disturbed
  · exact intercept_disturbed lasting v (s := withMem (observe env e s) m) disturbed
  · exact intercept_disturbed lasting zero (s := withMem (observe env e s) m) disturbed
  · exact disturbed

private theorem tied_callback (env : Env α (W × CoreDebug α)) (apply : Changed α (W × CoreDebug α)) (apply' : Changed α W)
    {name : String} (calls : Tied (watching n) (apply name) (apply' name)) :
    Tied (watching n) (varChangedCallback env apply name) (apply' name) := by
  constructor
  · intro s s' beside
    cases stored : s.vars name with
    | none =>
      have goes : varChangedCallback env apply name s = apply name s := by
        simp only [varChangedCallback,stored]
        exact intercept_idle beside.idle name zero
      rw [goes]
      exact calls.matched s s' beside
    | some e =>
      by_cases quiet : Quiet (observation env e s)
      · obtain ⟨out,defined,answered⟩ := quiet
        have looked : Beside n (withMem (observe env e s) s.mem) s' :=
          ⟨⟨beside.idle.breakpoints,beside.idle.watchpoints,beside.idle.running⟩,beside.made.trans (by simp [observe]),
            beside.same⟩
        have goes : varChangedCallback env apply name s = apply name (withMem (observe env e s) s.mem) := by
          simp only [varChangedCallback,stored,answered]
          cases out with
          | value v => exact intercept_idle looked.idle name v
          | error => exact intercept_idle looked.idle name zero
          | undefined => exact absurd rfl defined
        rw [goes]
        exact calls.matched _ s' looked
      · refine .lost (callback_disturbed stored calls.lasting ⟨_,?_,quiet⟩)
        simp only [observe,debug_withDebug]
        rw [List.drop_append_of_le_length beside.made]
        exact List.mem_concat_self
  · intro s lost
    cases stored : s.vars name with
    | none =>
      simp only [varChangedCallback,stored]
      exact intercept_disturbed calls.lasting zero lost
    | some e => exact callback_disturbed stored calls.lasting (disturbed_mono (by simp [observe]) lost)

variable [DecidableEq α]

theorem engineApplyDebug_tied (setup : Setup α W) (io : Io α) (engine : Engine α) (n : Nat) :
    ∀ nesting key, Tied (watching n) (engineApplyDebug (setup.debugEnv io) engine nesting key)
      (engineApply (setup.env io) engine nesting key) := by
  intro nesting
  induction nesting with
  | zero => exact fun _ => ⟨fun _ _ => .stopped,fun _ lost => lost⟩
  | succ nesting ih =>
    intro key
    have calls := fun name => tied_callback (setup.debugEnv io)
      (fun name => engineApplyDebug (setup.debugEnv io) engine nesting (some name))
      (fun name => engineApply (setup.env io) engine nesting (some name)) (ih (some name))
    exact tied_iterateRules (keeps setup io n) calls (fun pos => loops n key pos) (fun _ _ _ _ => trivial) 0

/-- The evaluations of the debug server in the handling of the event are quiet. -/
def Undisturbed (setup : Setup α W) (self : Session α (W × CoreDebug α)) (event : DebugEvent α W) : Prop :=
  ∀ next, stepDebug setup self event = some next →
    ∀ o ∈ (debug next.engine).observed.drop (debug self.engine).observed.length, Quiet o

variable {self : Session α (W × CoreDebug α)}

private theorem applyDebug_forget {io : Io α} {key : Option String} (idle : Idle (debug self.engine))
    (quiet : ∀ o ∈ (debug (self.applyDebug setup io key).engine).observed.drop (debug self.engine).observed.length, Quiet o) :
    Session.forget (self.applyDebug setup io key) = (Session.forget self).apply setup io key ∧
      Idle (debug (self.applyDebug setup io key).engine) := by
  have ends := (engineApplyDebug_tied setup io setup.engine (debug self.engine).observed.length setup.nesting key).matched
    self.engine (forget self.engine) ⟨idle,le_rfl,rfl⟩
  unfold Session.applyDebug at quiet ⊢
  unfold Session.apply
  change Matched _ _ (engineApply (setup.env io) setup.engine setup.nesting key (Session.forget self).engine) at ends
  generalize engineApplyDebug (setup.debugEnv io) setup.engine setup.nesting key self.engine = r at ends quiet ⊢
  generalize engineApply (setup.env io) setup.engine setup.nesting key (Session.forget self).engine = r' at ends ⊢
  cases ends with
  | returned _ beside | failed _ beside | stopped beside =>
    obtain ⟨idle,_,rfl⟩ := beside
    exact ⟨rfl,idle⟩
  | loose never | deaf never => exact never.elim
  | lost lost =>
    obtain ⟨o,member,loud⟩ := lost
    exact absurd (quiet o member) loud

/-- What `engine_apply` is called for, if it is. -/
private def keyOf : Change α W → Option (Io α × Option String)
  | .inputChanged io name _ => some (io,some name)
  | .outputChanged io name _ => some (io,some name)
  | .peerReady io => some (io,none)
  | .peersAct _ => none

private theorem stepCore_idle {change : Change α W} {io : Io α} {key : Option String} (idle : Idle (debug self.engine))
    (called : keyOf change = some (io,key)) : stepCore setup self change = self.applyDebug setup io key := by
  have changed : ∀ name val, ioChangedCallback setup io name val self = self.applyDebug setup io (some name) := by
    intro name val
    unfold ioChangedCallback
    rw [interceptChange_idle idle]
    rfl
  cases change with
  | inputChanged io name val | outputChanged io name val =>
    cases called
    exact changed name val
  | peerReady io =>
    cases called
    simp only [stepCore,registerReadyClient,CoreDebug.interceptApply,idle.running]
    rfl
  | peersAct => cases called

private theorem stepPlain_called {self : Session α W} {change : Change α W} {io : Io α} {key : Option String}
    (live : self.hung = false) (called : keyOf change = some (io,key)) :
    stepPlain setup self change = some (self.apply setup io key) := by
  cases change <;> cases called <;> simp [stepPlain,live]

private theorem step_forget {change : Change α W} (idle : Idle (debug self.engine))
    (quiet : Undisturbed setup self (.core change)) :
    stepPlain setup (Session.forget self) change = (stepDebug setup self (.core change)).map Session.forget ∧
      ∀ next, stepDebug setup self (.core change) = some next → Idle (debug next.engine) := by
  by_cases hung : self.hung = true
  · exact ⟨by simp [stepPlain,stepDebug,Session.forget,hung],by simp [stepDebug,hung]⟩
  · have live : self.hung = false := Bool.eq_false_iff.mpr hung
    have stepped : stepDebug setup self (.core change) = some (stepCore setup self change) := by simp [stepDebug,live]
    rw [stepped]
    cases called : keyOf change with
    | some call =>
      have applied : stepCore setup self change = self.applyDebug setup call.1 call.2 := stepCore_idle idle called
      have left := quiet _ stepped
      rw [applied] at left ⊢
      obtain ⟨same,still⟩ := applyDebug_forget idle left
      refine ⟨?_,by rintro _ ⟨⟩; exact still⟩
      rw [Option.map_some,same]
      exact stepPlain_called live called
    | none =>
      cases change with
      | inputChanged | outputChanged | peerReady => cases called
      | peersAct act =>
        refine ⟨by simp [stepPlain,stepCore,Session.forget,live]; rfl,?_⟩
        rintro _ ⟨⟩
        exact idle

/-- A Core with a debug server that has no points does what a Core without one does, in a
    run in which the evaluations of the server are quiet. -/
theorem run_forget {changes : List (Change α W)} (idle : Idle (debug self.engine))
    (meets : Meets (stepDebug setup) (Undisturbed setup) self (changes.map .core)) :
    run (stepPlain setup) (Session.forget self) changes = (run (stepDebug setup) self (changes.map .core)).map Session.forget := by
  induction changes generalizing self with
  | nil => rfl
  | cons change changes ih =>
    obtain ⟨same,still⟩ := step_forget idle meets.1
    simp only [run,List.map_cons,same]
    cases stepped : stepDebug setup self (.core change) with
    | none => rfl
    | some next => exact ih (still next stepped) (meets.2 next stepped)

end

private def acceptAll : Bus ℚ Unit := ⟨fun w _ _ _ => (true,w),fun w _ _ _ => (true,w)⟩

/-- The mirrored objects: the input `door` and the output `lamp`. -/
private def doorIo (door : ℚ) : Io ℚ :=
  ⟨fun id => if id = "door" then some ⟨"door","",0,0,9,1,door,0⟩ else none,
    fun id => if id = "lamp" then some ⟨"lamp","",0,0,1,1,0,0⟩ else none⟩

/-- `VAR moved; moved { SET e WHEN 1; } TRIGGER WHEN moved SET lamp = 1;`. -/
private def movedSetup (e : Expr ℚ) : Setup ℚ Unit :=
  ⟨⟨[⟨[⟨.literal 1,⟨"moved",e,0⟩⟩]⟩],[⟨.ref "moved",[⟨"lamp",.literal 1,0⟩]⟩]⟩,acceptAll,3,3⟩

private def movedStart : Session ℚ (Unit × CoreDebug ℚ) :=
  ⟨⟨fun id => if id = "moved" then some (.literal 0) else none,freshMem,((),coreDebugInit),[]⟩,false⟩

private theorem init_idle : Idle (debug movedStart.engine) := ⟨rfl,rfl,rfl⟩

theorem run_forget_door :
    run (stepPlain (movedSetup (.ref "door"))) (Session.forget movedStart) [.inputChanged (doorIo 5) "door" 5] =
      (run (stepDebug (movedSetup (.ref "door"))) movedStart [.core (.inputChanged (doorIo 5) "door" 5)]).map
        Session.forget := by
  have seen : ∀ next, stepDebug (movedSetup (.ref "door")) movedStart (.core (.inputChanged (doorIo 5) "door" 5)) = some next →
      (debug next.engine).observed.drop 0 = [⟨freshMem,some (.value 5,freshMem)⟩] := by
    rintro _ ⟨⟩
    rfl
  refine run_forget init_idle ⟨fun next stepped o member => ?_,fun _ _ => trivial⟩
  have only : o ∈ (debug next.engine).observed.drop 0 := member
  rw [seen next stepped] at only
  rw [List.mem_singleton.mp only]
  exact ⟨.value 5,by simp,rfl⟩

/-- The server has looked at a `CHANGED` before the trigger does: beside the server the
    lamp is not set. -/
theorem changed_seen_by_server : ∃ plain beside,
    run (stepPlain (movedSetup (.func 0 .changed [.ref "door"]))) (Session.forget movedStart)
      [.inputChanged (doorIo 5) "door" 5] = some plain ∧
    run (stepDebug (movedSetup (.func 0 .changed [.ref "door"]))) movedStart
      [.core (.inputChanged (doorIo 5) "door" 5)] = some beside ∧
    (plain.engine.log.filter acts).length = 2 ∧ (beside.engine.log.filter acts).length = 1 := by
  refine ⟨_,_,rfl,rfl,?_,?_⟩
  · decide +kernel
  · decide +kernel

end Starter.Observing
