import Starter.Cascade

/-!
Two engines side by side. A relation between their states that single evaluations,
reports, stores and requests respect is respected by whole rules, unless the first engine
has got lost on the way, in a sense that nothing it does later undoes.
-/
namespace Starter.Twins
open Gdouble Objects Expressions Rules Relevance Cascade

/-- How two engines are to stay together: which states are related, when the first engine
    is lost, which expressions rules may store, whether a call of the first engine that
    does not end goes with every call of the second, and whether it is all the same if a
    call returned TRUE or FALSE. -/
structure Tie (α W W' : Type) where
  related : EngineState α W → EngineState α W' → Prop
  lost : EngineState α W → Prop
  fit : Expr α → Prop
  loose : Prop
  deaf : Prop

variable {α W W' β γ : Type} {tie : Tie α W W'}

/-- The same, where it may matter what a call returned. -/
def Tie.hearing (tie : Tie α W W') (deaf : Prop) : Tie α W W' := { tie with deaf := deaf }

/-- The call concluded. -/
inductive Over {σ : Type} : Res σ β → Prop
  | returned (b : β) (s : σ) : Over (.returned b s)
  | failed (error : StError) (s : σ) : Over (.failed error s)

/-- The two calls end alike, or the first one has got lost. -/
inductive Matched (tie : Tie α W W') : Res (EngineState α W) β → Res (EngineState α W') β → Prop
  | returned {s : EngineState α W} {s' : EngineState α W'} (b : β) (related : tie.related s s') :
      Matched tie (.returned b s) (.returned b s')
  | failed {s : EngineState α W} {s' : EngineState α W'} (error : StError) (related : tie.related s s') :
      Matched tie (.failed error s) (.failed error s')
  | stopped {s : EngineState α W} {s' : EngineState α W'} (related : tie.related s s') :
      Matched tie (.stopped s) (.stopped s')
  | loose {s : EngineState α W} {r' : Res (EngineState α W') β} (loose : tie.loose) : Matched tie (.stopped s) r'
  | lost {r : Res (EngineState α W) β} {r' : Res (EngineState α W') β} (lost : tie.lost r.state) : Matched tie r r'
  | deaf {r : Res (EngineState α W) β} {r' : Res (EngineState α W') β} (deaf : tie.deaf) (ended : Over r) (ended' : Over r')
      (related : tie.related r.state r'.state) : Matched tie r r'

/-- The two computations end alike from related states, and the first never finds its way
    back. -/
structure Tied (tie : Tie α W W') (f : EngineState α W → Res (EngineState α W) β)
    (f' : EngineState α W' → Res (EngineState α W') β) : Prop where
  matched : ∀ s s', tie.related s s' → Matched tie (f s) (f' s')
  lasting : ∀ s, tie.lost s → tie.lost (f s).state

theorem tied_returned (b : β) : Tied tie (.returned b) (.returned b) := ⟨fun _ _ => .returned b,fun _ lost => lost⟩

theorem tied_failed (error : StError) :
    Tied tie (.failed error : EngineState α W → Res (EngineState α W) β) (.failed error) :=
  ⟨fun _ _ => .failed error,fun _ lost => lost⟩

/-- Goes on whether the call returned TRUE or FALSE. -/
def handle {σ : Type} (x : Res σ β) (f : β → σ → Res σ γ) (g : StError → σ → Res σ γ) : Res σ γ :=
  match x with
  | .returned b s => f b s
  | .failed error s => g error s
  | .stopped s => .stopped s

theorem andThen_eq_handle {σ : Type} (x : Res σ β) (k : β → σ → Res σ γ) : x.andThen k = handle x k .failed := by
  cases x <;> rfl

theorem andThen_assoc {σ δ : Type} (x : Res σ β) (f : β → σ → Res σ γ) (k : γ → σ → Res σ δ) :
    (x.andThen f).andThen k = x.andThen fun b s => (f b s).andThen k := by
  cases x <;> rfl

section
variable {f : EngineState α W → Res (EngineState α W) β} {f' : EngineState α W' → Res (EngineState α W') β}
  {g : β → EngineState α W → Res (EngineState α W) γ} {g' : β → EngineState α W' → Res (EngineState α W') γ}

/-- Sequences, where the results of the first part are known to have a property. -/
theorem tied_handle {h : StError → EngineState α W → Res (EngineState α W) γ}
    {h' : StError → EngineState α W' → Res (EngineState α W') γ} {P : β → Prop} {d : Prop}
    (first : Tied (tie.hearing d) f f')
    (cross : d → ∀ r r', Over r → Over r' → tie.related r.state r'.state → Matched tie (handle r g h) (handle r' g' h'))
    (results : ∀ s b t, f s = .returned b t → P b) (second : ∀ b, P b → Tied tie (g b) (g' b))
    (otherwise : ∀ error, Tied tie (h error) (h' error)) :
    Tied tie (fun s => handle (f s) g h) (fun s' => handle (f' s') g' h') := by
  have onward : ∀ s, tie.lost (f s).state → tie.lost (handle (f s) g h).state := by
    intro s lost
    cases called : f s with
    | returned b t =>
      rw [called] at lost
      exact (second b (results s b t called)).lasting t lost
    | failed error t =>
      rw [called] at lost
      exact (otherwise error).lasting t lost
    | stopped t =>
      rw [called] at lost
      exact lost
  refine ⟨fun s s' related => ?_,fun s lost => onward s (first.lasting s lost)⟩
  have ends := first.matched s s' related
  have astray := onward s
  have result := results s
  generalize f s = r at ends astray result ⊢
  generalize f' s' = r' at ends ⊢
  cases ends with
  | returned b after => exact (second b (result b _ rfl)).matched _ _ after
  | failed error after => exact (otherwise error).matched _ _ after
  | stopped after => exact .stopped after
  | loose loose => exact .loose loose
  | lost lost => exact .lost (astray lost)
  | deaf deaf ended ended' after => exact cross deaf r r' ended ended' after

/-- Sequences whose first part ends alike even in what it returns. -/
theorem tied_andThen (first : Tied (tie.hearing False) f f') (second : ∀ b, Tied tie (g b) (g' b)) :
    Tied tie (fun s => (f s).andThen g) (fun s' => (f' s').andThen g') := by
  simp only [andThen_eq_handle]
  exact tied_handle first (fun never => never.elim) (fun _ _ _ _ => trivial) (fun b _ => second b) tied_failed

end

/-- What single steps of the two engines keep. -/
structure Keeps (env : Env α W) (env' : Env α W') (tie : Tie α W W') : Prop where
  io : env'.io = env.io
  depth : env'.depth = env.depth
  vars : ∀ {s s'}, tie.related s s' → s'.vars = s.vars
  mem : ∀ {s s'}, tie.related s s' → s'.mem = s.mem
  remember : ∀ {s s'} m, tie.related s s' → tie.related { s with mem := m } { s' with mem := m }
  note : ∀ {s s'} event, (∀ pos error, event ≠ .ruleFailed pos error) → tie.related s s' →
    tie.related (s.note event) (s'.note event)
  remarkLeft : ∀ {s s'} event, tie.deaf → Remark event → tie.related s s' → tie.related (s.note event) s'
  remarkRight : ∀ {s s'} event, tie.deaf → Remark event → tie.related s s' → tie.related s (s'.note event)
  store : ∀ {s s'} id e, tie.fit e → tie.related s s' → tie.related (s.store id e) (s'.store id e)
  setOutput : ∀ {s s'} id v flags, tie.related s s' →
    (tie.deaf ∨ (env'.bus.setOutput s'.peers id v flags).1 = (env.bus.setOutput s.peers id v flags).1) ∧
    tie.related (s.send env.bus.setOutput .setOutput id v flags) (s'.send env'.bus.setOutput .setOutput id v flags)
  setInput : ∀ {s s'} id v flags, tie.related s s' →
    (tie.deaf ∨ (env'.bus.setInput s'.peers id v flags).1 = (env.bus.setInput s.peers id v flags).1) ∧
    tie.related (s.send env.bus.setInput .setInput id v flags) (s'.send env'.bus.setInput .setInput id v flags)
  lostRemember : ∀ {s} m, tie.lost s → tie.lost { s with mem := m }
  lostNote : ∀ {s} event, (∀ pos error, event ≠ .ruleFailed pos error) → tie.lost s → tie.lost (s.note event)
  lostStore : ∀ {s} id e, tie.lost s → tie.lost (s.store id e)
  lostOutput : ∀ {s} id v flags, tie.lost s → tie.lost (s.send env.bus.setOutput .setOutput id v flags)
  lostInput : ∀ {s} id v flags, tie.lost s → tie.lost (s.send env.bus.setInput .setInput id v flags)

variable {env : Env α W} {env' : Env α W'}

theorem tied_note (keeps : Keeps env env' tie) {d : Prop} (event : Event α) (plain : ∀ pos error, event ≠ .ruleFailed pos error)
    (b : β) : Tied (tie.hearing d) (fun s => .returned b (s.note event)) (fun s' => .returned b (s'.note event)) :=
  ⟨fun _ _ related => .returned b (keeps.note event plain related),fun _ lost => keeps.lostNote event plain lost⟩

theorem concerned_eq (keeps : Keeps env env' tie) {s : EngineState α W} {s' : EngineState α W'} (related : tie.related s s')
    (rule : Rule α) (key : Option String) : rule.concerned env' key s' = rule.concerned env key s := by
  cases key with
  | none => rfl
  | some id => simp only [Rule.concerned,keeps.depth,keeps.vars related,keeps.mem related]

/-- A hook is called or not, which for deaf engines need not be the same. -/
theorem related_hook (keeps : Keeps env env' tie) {s : EngineState α W} {s' : EngineState α W'} {event : Event α}
    (deaf : tie.deaf) (remark : Remark event) (x x' : Bool) (related : tie.related s s') :
    tie.related (if x then s.note event else s) (if x' then s'.note event else s') := by
  have left : tie.related (if x then s.note event else s) s' := by
    cases x with
    | true => exact keeps.remarkLeft event deaf remark related
    | false => exact related
  cases x' with
  | true => exact keeps.remarkRight event deaf remark left
  | false => exact left

private theorem tied_hook (keeps : Keeps env env' tie) (event : Event α) (plain : ∀ pos error, event ≠ .ruleFailed pos error)
    {d : Prop} (didApply : Bool) (b : β) :
    Tied (tie.hearing d) (fun s => .returned b (if didApply then s.note event else s))
      (fun s' => .returned b (if didApply then s'.note event else s')) := by
  cases didApply with
  | true => exact tied_note keeps event plain b
  | false => exact tied_returned b

section
variable [Gdouble α]

theorem tied_evaluate (keeps : Keeps env env' tie) {d : Prop} (e : Expr α) :
    Tied (tie.hearing d) (evaluate env e) (evaluate env' e) := by
  constructor
  · intro s s' related
    have same : exprEval env'.depth env'.io s'.vars e s'.mem = exprEval env.depth env.io s.vars e s.mem := by
      rw [keeps.io,keeps.depth,keeps.vars related,keeps.mem related]
    unfold evaluate
    rw [same]
    rcases exprEval env.depth env.io s.vars e s.mem with _ | ⟨_ | _ | _,m⟩
    · exact .stopped related
    · exact .returned _ (keeps.remember m related)
    · exact .failed _ (keeps.remember m related)
    · exact .stopped related
  · intro s lost
    unfold evaluate
    rcases exprEval env.depth env.io s.vars e s.mem with _ | ⟨_ | _ | _,m⟩
    · exact lost
    · exact keeps.lostRemember m lost
    · exact keeps.lostRemember m lost
    · exact lost

theorem tied_labelBlockSelect (keeps : Keeps env env' tie) {d : Prop} (entries : List (LabelEntry α)) :
    Tied (tie.hearing d) (labelBlockSelect env entries) (labelBlockSelect env' entries) := by
  induction entries with
  | nil => exact tied_returned none
  | cons entry rest ih =>
    simp only [labelBlockSelect]
    refine tied_andThen (tied_evaluate keeps entry.cond) fun v => ?_
    split
    · exact tied_returned _
    · exact ih

variable [DecidableEq α]

/-- `assign_apply` after what `assignStore` models. -/
def finish (changed : Changed α W) : Stored → EngineState α W → Res (EngineState α W) Bool
  | .quiet didApply, s => .returned didApply s
  | .changed id, s => (changed id s).andThen fun _ s => .returned true s

omit [Gdouble α] [DecidableEq α] in
private theorem tied_request {changed : Changed α W} {changed' : Changed α W'} {call : W → String → α → IoFlags → Bool × W}
    {call' : W' → String → α → IoFlags → Bool × W'} {event : String → α → IoFlags → Bool → Event α} {id : String} {val : α}
    {flags : IoFlags}
    (alike : ∀ {s s'}, tie.related s s' → (tie.deaf ∨ (call' s'.peers id val flags).1 = (call s.peers id val flags).1) ∧
      tie.related (s.send call event id val flags) (s'.send call' event id val flags))
    (lasts : ∀ {s}, tie.lost s → tie.lost (s.send call event id val flags)) (error : String) :
    Tied tie (fun s => (request call event error id val flags s).andThen (finish changed))
      (fun s' => (request call' event error id val flags s').andThen (finish changed')) := by
  constructor
  · intro s s' related
    obtain ⟨answer,after⟩ := alike related
    rcases answer with deaf | same
    · unfold request
      split
      · split
        · exact .returned _ after
        · exact .deaf deaf (.returned _ _) (.failed _ _) after
      · split
        · exact .deaf deaf (.failed _ _) (.returned _ _) after
        · exact .failed _ after
    · simp only [request,same]
      split
      · exact .returned _ after
      · exact .failed _ after
  · intro s lost
    unfold request
    split
    · exact lasts lost
    · exact lasts lost

variable {changed : Changed α W} {changed' : Changed α W'}

omit [DecidableEq α] in
private theorem tied_assignApplyFlag (keeps : Keeps env env' tie) (ass : Assign α) :
    Tied tie (fun s => (assignApplyFlag env ass s).andThen (finish changed))
      (fun s' => (assignApplyFlag env' ass s').andThen (finish changed')) := by
  unfold assignApplyFlag
  rw [keeps.io]
  split
  · exact tied_note keeps _ (by simp) _
  · simp only [andThen_assoc]
    refine tied_andThen (tied_evaluate keeps ass.rval) fun v => ?_
    cases env.io.outputs ass.id with
    | some out =>
      simp only [assignFlagOf]
      split
      · exact tied_note keeps _ (by simp) _
      · exact tied_request (keeps.setOutput _ _ _) (keeps.lostOutput _ _ _) _
    | none =>
      cases env.io.inputs ass.id with
      | some input =>
        simp only [assignFlagOf]
        split
        · exact tied_note keeps _ (by simp) _
        · exact tied_request (keeps.setInput _ _ _) (keeps.lostInput _ _ _) _
      | none => exact tied_failed _

omit [DecidableEq α] in
private theorem tied_assignOutput (keeps : Keeps env env' tie) (ass : Assign α) (output : IoObject α) :
    Tied tie (fun s => (assignOutput env ass output s).andThen (finish changed))
      (fun s' => (assignOutput env' ass output s').andThen (finish changed')) := by
  unfold assignOutput
  simp only [andThen_assoc]
  refine tied_andThen (tied_evaluate keeps ass.rval) fun v => ?_
  split
  · exact tied_note keeps _ (by simp) _
  · split
    · exact tied_note keeps _ (by simp) _
    · exact tied_request (keeps.setOutput _ _ _) (keeps.lostOutput _ _ _) _

theorem assignApply_eq (changed : Changed α W) (ass : Assign α) (s : EngineState α W) :
    assignApply env changed ass s = (assignStore env ass s).andThen (finish changed) := by
  unfold assignApply
  cases assignStore env ass s with
  | returned stored => cases stored <;> rfl
  | failed | stopped => rfl

omit [Gdouble α] [DecidableEq α] in
/-- The signal of a variable, and what `assign_apply` makes of it. -/
private theorem tied_finish (calls : ∀ id, Tied tie (changed id) (changed' id)) (stored : Stored) :
    Tied tie (finish changed stored) (finish changed' stored) := by
  cases stored with
  | quiet didApply => exact tied_returned didApply
  | changed id =>
    have goes : ∀ {V : Type} (handler : Changed α V) (s : EngineState α V),
        finish handler (.changed id) s = handle (handler id s) (fun _ s => .returned true s) .failed :=
      fun handler s => andThen_eq_handle _ _
    rw [funext (goes changed),funext (goes changed')]
    refine tied_handle (d := tie.deaf) (calls id) (fun deaf r r' ended ended' related => ?_) (fun _ _ _ _ => trivial)
      (fun _ _ => tied_returned true) tied_failed
    cases ended <;> cases ended' <;> exact .deaf deaf (by constructor) (by constructor) related

theorem tied_assignApply (keeps : Keeps env env' tie) (calls : ∀ id, Tied tie (changed id) (changed' id))
    {ass : Assign α} (fit : tie.fit ass.rval) : Tied tie (assignApply env changed ass) (assignApply env' changed' ass) := by
  rw [funext (assignApply_eq changed ass),funext (assignApply_eq changed' ass)]
  unfold assignStore
  rw [keeps.io]
  split
  · exact tied_assignApplyFlag keeps ass
  · cases env.io.outputs ass.id with
    | some output => exact tied_assignOutput keeps ass output
    | none =>
      constructor
      · intro s s' related
        simp only [keeps.vars related,keeps.mem related]
        cases s.vars ass.id with
        | none => exact .failed _ related
        | some value =>
          simp only
          split
          · exact .returned _ (keeps.note _ (by simp) related)
          · exact (tied_finish calls (.changed ass.id)).matched _ _ (keeps.store _ _ fit related)
      · intro s lost
        simp only
        cases s.vars ass.id with
        | none => exact lost
        | some value =>
          simp only
          split
          · exact keeps.lostNote _ (by simp) lost
          · exact (tied_finish calls (.changed ass.id)).lasting _ (keeps.lostStore _ _ lost)

theorem tied_labelBlockApply (keeps : Keeps env env' tie) (calls : ∀ id, Tied tie (changed id) (changed' id))
    {block : LabelBlock α} (fits : ∀ entry ∈ block.entries, tie.fit entry.ass.rval) :
    Tied tie (labelBlockApply env changed block) (labelBlockApply env' changed' block) := by
  have members : ∀ s selected t, labelBlockSelect env block.entries s = .returned selected t →
      ∀ entry, selected = some entry → entry ∈ block.entries := by
    rintro s _ t selects entry rfl
    exact labelBlockSelect_mem selects
  unfold labelBlockApply
  simp only [andThen_eq_handle]
  refine tied_handle (d := False) (tied_labelBlockSelect keeps block.entries) (fun never => never.elim) members (fun selected member => ?_)
    tied_failed
  cases selected with
  | none => exact tied_returned ()
  | some entry =>
    have applied := tied_assignApply keeps calls (fits entry (member entry rfl))
    refine tied_handle (d := tie.deaf) applied (fun deaf r r' ended ended' related => ?_) (fun _ _ _ _ => trivial)
      (fun didApply _ => tied_hook keeps _ (by simp) didApply ()) tied_failed
    cases ended with
    | returned x t =>
      cases ended' with
      | returned x' t' => exact .deaf deaf (.returned _ _) (.returned _ _) (related_hook keeps deaf (.ruleTriggered _) x x' related)
      | failed _ t' => exact .deaf deaf (.returned _ _) (.failed _ _) (related_hook keeps deaf (.ruleTriggered _) x false related)
    | failed _ t =>
      cases ended' with
      | returned x' t' => exact .deaf deaf (.failed _ _) (.returned _ _) (related_hook keeps deaf (.ruleTriggered _) false x' related)
      | failed _ t' => exact .deaf deaf (.failed _ _) (.failed _ _) related

theorem triggerAssigns_cons (env : Env α W) (changed : Changed α W) (ass : Assign α) (rest : List (Assign α))
    (first : Option StError) (s : EngineState α W) :
    triggerAssigns env changed (ass :: rest) first s = handle (assignApply env changed ass s)
      (fun didApply s => triggerAssigns env changed rest first (if didApply then s.note (.triggerTriggered ass.id) else s))
      fun error s => triggerAssigns env changed rest (first.or (some error)) (s.note (.assignFailed ass.id error)) := by
  rw [triggerAssigns]
  cases assignApply env changed ass s <;> rfl

theorem tied_triggerAssigns (keeps : Keeps env env' tie) (calls : ∀ id, Tied tie (changed id) (changed' id))
    {asss : List (Assign α)} (fits : ∀ ass ∈ asss, tie.fit ass.rval) (first first' : Option StError)
    (alike : tie.deaf ∨ first' = first) :
    Tied tie (triggerAssigns env changed asss first) (triggerAssigns env' changed' asss first') := by
  induction asss generalizing first first' with
  | nil =>
    rcases alike with deaf | rfl
    · exact ⟨fun _ _ related => .deaf deaf (.returned _ _) (.returned _ _) related,fun _ lost => lost⟩
    · exact tied_returned first'
  | cons ass rest ih =>
    have onward := ih fun other member => fits other (List.mem_cons_of_mem ass member)
    rw [funext (triggerAssigns_cons env changed ass rest first),funext (triggerAssigns_cons env' changed' ass rest first')]
    refine tied_handle (d := tie.deaf) (tied_assignApply keeps calls (fits ass List.mem_cons_self))
      (fun deaf r r' ended ended' related => ?_) (fun _ _ _ _ => trivial) (fun didApply _ => ?_) fun error => ?_
    · cases ended with
      | returned x t =>
        cases ended' with
        | returned x' t' => exact (onward _ _ (.inl deaf)).matched _ _ (related_hook keeps deaf (.triggerTriggered _) x x' related)
        | failed _ t' =>
          have hooked : tie.related (if x then t.note (.triggerTriggered ass.id) else t) t' :=
            related_hook keeps deaf (.triggerTriggered _) x false related
          exact (onward _ _ (.inl deaf)).matched _ _ (keeps.remarkRight _ deaf (.assignFailed _ _) hooked)
      | failed error t =>
        have left : tie.related (t.note (.assignFailed ass.id error)) r'.state :=
          keeps.remarkLeft _ deaf (.assignFailed _ _) related
        cases ended' with
        | returned x' t' => exact (onward _ _ (.inl deaf)).matched _ _ (related_hook keeps deaf (.triggerTriggered _) false x' left)
        | failed _ t' => exact (onward _ _ (.inl deaf)).matched _ _ (keeps.remarkRight _ deaf (.assignFailed _ _) left)
    · exact tied_andThen (tied_hook keeps (.triggerTriggered ass.id) (by simp) didApply ()) fun _ => onward first first' alike
    · have later := onward (first.or (some error)) (first'.or (some error)) (alike.imp_right fun same => by rw [same])
      exact tied_andThen (tied_note keeps (.assignFailed ass.id error) (by simp) ()) fun _ => later

/-- What `trigger_apply` returns. -/
def conclude {σ : Type} : Option StError → σ → Res σ Unit
  | none, s => .returned () s
  | some error, s => .failed error s

omit [DecidableEq α] [Gdouble α] in
theorem over_conclude {σ : Type} {r : Res σ (Option StError)} (ended : Over r) :
    Over (handle r conclude .failed) ∧ (handle r conclude .failed).state = r.state := by
  cases ended with
  | returned first s => cases first <;> exact ⟨by constructor,rfl⟩
  | failed => exact ⟨.failed _ _,rfl⟩

theorem triggerApply_eq (env : Env α W) (changed : Changed α W) (trigger : Trigger α) (s : EngineState α W) :
    triggerApply env changed trigger s = (evaluate env trigger.cond s).andThen fun condRes s =>
      if truth condRes then handle (triggerAssigns env changed trigger.ass none s) conclude .failed else .returned () s := by
  unfold triggerApply
  cases evaluate env trigger.cond s with
  | failed | stopped => rfl
  | returned v t =>
    simp only [Res.andThen]
    cases triggerAssigns env changed trigger.ass none t with
    | failed | stopped => rfl
    | returned first u => cases first <;> rfl

theorem tied_triggerApply (keeps : Keeps env env' tie) (calls : ∀ id, Tied tie (changed id) (changed' id))
    {trigger : Trigger α} (fits : ∀ ass ∈ trigger.ass, tie.fit ass.rval) :
    Tied tie (triggerApply env changed trigger) (triggerApply env' changed' trigger) := by
  rw [funext (triggerApply_eq env changed trigger),funext (triggerApply_eq env' changed' trigger)]
  refine tied_andThen (tied_evaluate keeps trigger.cond) fun v => ?_
  split
  · refine tied_handle (d := tie.deaf) (tied_triggerAssigns keeps calls fits none none (.inr rfl))
      (fun deaf r r' ended ended' related => ?_) (fun _ _ _ _ => trivial) (fun first _ => ?_) tied_failed
    · obtain ⟨concluded,state⟩ := over_conclude ended
      obtain ⟨concluded',state'⟩ := over_conclude ended'
      exact .deaf deaf concluded concluded' (by rwa [state,state'])
    · cases first with
      | none => exact tied_returned ()
      | some error => exact tied_failed error
  · exact tied_returned ()

/-- One rule, if the handlers of the variables are tied. -/
theorem tied_ruleApply (keeps : Keeps env env' tie) (calls : ∀ id, Tied tie (changed id) (changed' id))
    {rule : Rule α} (fits : ∀ ass ∈ assigns rule, tie.fit ass.rval) :
    Tied tie (rule.apply env changed) (rule.apply env' changed') := by
  cases rule with
  | label block => exact tied_labelBlockApply keeps calls fun entry member => fits _ (List.mem_map_of_mem member)
  | trigger trigger => exact tied_triggerApply keeps calls fits

theorem iterateRules_cons (env : Env α W) (changed : Changed α W) (key : Option String) (pos : Nat) (rule : Rule α)
    (rest : List (Rule α)) (s : EngineState α W) :
    iterateRules env changed key pos (rule :: rest) s =
      match rule.concerned env key s with
      | none => .stopped s
      | some false => iterateRules env changed key (pos+1) rest s
      | some true => handle (rule.apply env changed (s.note (.iterate pos key)))
        (fun _ s => iterateRules env changed key (pos+1) rest s)
        fun error s => iterateRules env changed key (pos+1) rest (s.note (.ruleFailed pos error)) := by
  rw [iterateRules]
  cases rule.apply env changed (s.note (.iterate pos key)) <;> rfl

/-- What two loops at the same rule have to keep; the rule need not have the same position. -/
structure Loops (tie : Tie α W W') (key : Option String) (pos pos' : Nat) : Prop where
  begun : ∀ {s s'}, tie.related s s' → tie.related (s.note (.iterate pos key)) (s'.note (.iterate pos' key))
  failing : ∀ {s s'} error, tie.related s s' → tie.related (s.note (.ruleFailed pos error)) (s'.note (.ruleFailed pos' error))
  lost : ∀ {s} error, tie.lost s → tie.lost (s.note (.ruleFailed pos error))

theorem tied_iterateRules_cons (keeps : Keeps env env' tie) (calls : ∀ id, Tied tie (changed id) (changed' id))
    {key : Option String} {pos pos' : Nat} (loops : Loops tie key pos pos') {rule : Rule α} {rest rest' : List (Rule α)}
    (fits : ∀ ass ∈ assigns rule, tie.fit ass.rval)
    (after : Tied tie (iterateRules env changed key (pos+1) rest) (iterateRules env' changed' key (pos'+1) rest')) :
    Tied tie (iterateRules env changed key pos (rule :: rest)) (iterateRules env' changed' key pos' (rule :: rest')) := by
  have started : Tied (tie.hearing False) (fun s => Res.returned () (s.note (.iterate pos key)))
      (fun s' => .returned () (s'.note (.iterate pos' key))) :=
    ⟨fun _ _ related => .returned () (loops.begun related),fun _ lost => keeps.lostNote _ (by simp) lost⟩
  have applied : Tied tie (fun s : EngineState α W => rule.apply env changed (s.note (.iterate pos key)))
      (fun s' : EngineState α W' => rule.apply env' changed' (s'.note (.iterate pos' key))) :=
    tied_andThen started fun _ => tied_ruleApply keeps calls fits
  have failed (error : StError) : Tied (tie.hearing False) (fun s => Res.returned () (s.note (.ruleFailed pos error)))
      (fun s' => .returned () (s'.note (.ruleFailed pos' error))) :=
    ⟨fun _ _ related => .returned () (loops.failing error related),fun _ => loops.lost error⟩
  have iterated : Tied tie
      (fun s => handle (rule.apply env changed (s.note (.iterate pos key)))
        (fun _ s => iterateRules env changed key (pos+1) rest s)
        fun error s => iterateRules env changed key (pos+1) rest (s.note (.ruleFailed pos error)))
      (fun s' => handle (rule.apply env' changed' (s'.note (.iterate pos' key)))
        (fun _ s' => iterateRules env' changed' key (pos'+1) rest' s')
        fun error s' => iterateRules env' changed' key (pos'+1) rest' (s'.note (.ruleFailed pos' error))) := by
    refine tied_handle (d := tie.deaf) applied (fun deaf r r' ended ended' related => ?_) (fun _ _ _ _ => trivial)
      (fun _ _ => after) fun error => tied_andThen (failed error) fun _ => after
    cases ended with
    | returned _ t =>
      cases ended' with
      | returned _ t' => exact after.matched _ _ related
      | failed _ t' => exact after.matched _ _ (keeps.remarkRight _ deaf (.ruleFailed _ _) related)
    | failed error t =>
      have left : tie.related (t.note (.ruleFailed pos error)) r'.state := keeps.remarkLeft _ deaf (.ruleFailed _ _) related
      cases ended' with
      | returned _ t' => exact after.matched _ _ left
      | failed _ t' => exact after.matched _ _ (keeps.remarkRight _ deaf (.ruleFailed _ _) left)
  constructor
  · intro s s' related
    rw [iterateRules_cons,iterateRules_cons,concerned_eq keeps related]
    cases rule.concerned env key s with
    | none => exact .stopped related
    | some concerned =>
      cases concerned with
      | false => exact after.matched s s' related
      | true => exact iterated.matched s s' related
  · intro s lost
    rw [iterateRules_cons]
    cases rule.concerned env key s with
    | none => exact lost
    | some concerned =>
      cases concerned with
      | false => exact after.lasting s lost
      | true => exact iterated.lasting s lost

/-- The loops over the same rules. -/
theorem tied_iterateRules (keeps : Keeps env env' tie) (calls : ∀ id, Tied tie (changed id) (changed' id)) {key : Option String}
    (loops : ∀ pos, Loops tie key pos pos) {rules : List (Rule α)}
    (fits : ∀ rule ∈ rules, ∀ ass ∈ assigns rule, tie.fit ass.rval) (pos : Nat) :
    Tied tie (iterateRules env changed key pos rules) (iterateRules env' changed' key pos rules) := by
  induction rules generalizing pos with
  | nil => exact tied_returned ()
  | cons rule rest ih =>
    exact tied_iterateRules_cons keeps calls (loops pos) (fits rule List.mem_cons_self)
      (ih (fun other member => fits other (List.mem_cons_of_mem rule member)) (pos+1))

end

end Starter.Twins
