import Starter.Peers
import Starter.Settling

/-!
The value an output has at its peer when `engine_apply` returns. The block of the output
may be evaluated several times in one call; each time it compares the value it wants
with the mirrored object, which does not move before the call is over. A value that
equals the mirrored one is not sent, also when another one was sent before.
-/
namespace Starter.LastWrite
open Gdouble Objects Expressions References Rules Relevance Cascade Coverage Settling Peers

variable {α W : Type}

/-- Whether the last evaluation of the rule at `p` avoided a call, after one more event. -/
def avoidedBy (o : String) (p : Nat) (avoided : Bool) : Event α → Bool
  | .iterate q _ => if q = p then false else avoided
  | .unchanged id => if id = o then true else avoided
  | _ => avoided

/-- The last evaluation of the rule at `p` avoided the call `SetOutput` because the value
    was that of the mirrored output. -/
def lastAvoided (o : String) (p : Nat) (log : List (Event α)) : Bool := log.foldl (avoidedBy o p) false

/-- The event is the evaluation of the rule at `p`. -/
def isEvaluation (p : Nat) : Event α → Bool
  | .iterate q _ => q = p
  | _ => false

/-- How often the rule at `p` was evaluated. -/
def evaluations (p : Nat) (log : List (Event α)) : Nat := log.countP (isEvaluation p)

@[simp] theorem evaluations_append (p : Nat) (log events : List (Event α)) :
    evaluations p (log ++ events) = evaluations p log + events.countP (isEvaluation p) := List.countP_append

@[simp] theorem lastAvoided_append (o : String) (p : Nat) (log events : List (Event α)) :
    lastAvoided o p (log ++ events) = events.foldl (avoidedBy o p) (lastAvoided o p log) := List.foldl_append

variable [Gdouble α]

/-- The event is no call `SetOutput` for the output that was rejected or whose value is
    off the grid. -/
def acceptedBy (o : String) (step : α) : Event α → Bool
  | .setOutput id v _ ok => id != o || (ok && eq (snapToStep v step) v)
  | _ => true

/-- Every call `SetOutput` for the output was accepted, with a value on the grid. -/
def Accepted (o : String) (step : α) (log : List (Event α)) : Prop := ∀ event ∈ log, acceptedBy o step event = true

theorem accepted_mono {o : String} {step : α} {log later : List (Event α)} (front : log <+: later)
    (accepted : Accepted o step later) : Accepted o step log :=
  fun event member => accepted event (front.subset member)

theorem accepted_sent {o : String} {step v : α} {flags : IoFlags} {ok : Bool} {log : List (Event α)}
    (accepted : Accepted o step (log ++ [.setOutput o v flags ok])) :
    ok = true ∧ eq (snapToStep v step) v = true := by
  have taken := accepted _ List.mem_concat_self
  simpa [acceptedBy] using taken

/-- The label block at position `p` alone assigns the output `o`, by value; `m` is the
    mirrored object. -/
structure Drives (io : Io α) (rules : List (Rule α)) (o : String) (p : Nat) (block : LabelBlock α)
    (m : IoObject α) : Prop where
  at_p : rules[p]? = some (.label block)
  target : ∀ entry ∈ block.entries, entry.ass.id = o ∧ entry.ass.flagBit = 0
  sole : ∀ j ass, j ≠ p → Assigns rules j ass → ass.id ≠ o
  mirrored : io.outputs o = some m
  free : hasFlag m.flags stIoFlagManualOverride = false

/-- The peer has the output, with that step. -/
def Kept (o : String) (c : Nat) (grid : α) (network : Network α) : Prop :=
  ∃ obj, findNamed o (network c).server.outputs = some obj ∧ obj.step = grid

/-- The last of the evaluations of the block avoided a call although the peer had not the value of the mirrored output;
`base` says whether it was so where there were no more than `k` evaluations. -/
def Stale (o : String) (p : Nat) (m : IoObject α) (k : Nat) (base : Prop) (log : List (Event α)) (obj : IoObject α) : Prop :=
  if evaluations p log = k then base else lastAvoided o p log = true ∧ eq m.val obj.val = false

/-- The peer's output has the value of the selected right-hand side, but where that was avoided by mistake. -/
def Wrote (io : Io α) (o : String) (p c : Nat) (block : LabelBlock α) (m : IoObject α) (grid : α) (k : Nat) (base : Prop)
    (s : EngineState α (Network α)) : Prop :=
  Accepted o grid s.log → ∀ entry v obj, FirstTrue io s.vars s.mem block.entries entry →
    Evaluates io s.vars s.mem entry.ass.rval v → findNamed o (s.peers c).server.outputs = some obj →
    (eq obj.val v = true ↔ ¬ Stale o p m k base s.log obj)

variable {env : Env α (Network α)} {routes : Routes} {rules : List (Rule α)} {o : String} {p c j : Nat}
  {block : LabelBlock α} {m : IoObject α} {grid : α} {k : Nat} {base : Prop} {s t : EngineState α (Network α)}

/-- What an action does to the output `o` at the peer and to what the log says of its block. -/
inductive Effect (env : Env α (Network α)) (o : String) (m : IoObject α) (p c j : Nat)
    (s t : EngineState α (Network α)) : Prop
  | quiet (same : findNamed o (t.peers c).server.outputs = findNamed o (s.peers c).server.outputs)
      (avoided : j ≠ p → lastAvoided o p t.log = lastAvoided o p s.log)
      (evaluated : j ≠ p → evaluations p t.log = evaluations p s.log)
  | write (v : α) (own : j = p) (result : t = s.send env.bus.setOutput .setOutput o v m.flags)

theorem action_effect (bus : env.bus = networkBus routes) (drives : Drives env.io rules o p block m)
    (action : Action env rules j s t) : Effect env o m p c j s t := by
  have own : ∀ ass, Assigns rules j ass → j = p → ass.id = o ∧ ass.flagBit = 0 := by
    rintro ass ⟨rule,at_j,member⟩ rfl
    rw [drives.at_p] at at_j
    cases at_j
    obtain ⟨entry,inBlock,rfl⟩ := List.mem_map.mp member
    exact drives.target entry inBlock
  have usr : ∀ ass, Assigns rules j ass → stIoFlagBitIsUsr ass.flagBit = true → ass.id ≠ o := by
    intro ass member isUsr
    by_cases here : j = p
    · rw [(own ass member here).2] at isUsr
      exact absurd isUsr (by decide)
    · exact drives.sole j ass here member
  cases action with
  | iterated key =>
    exact .quiet rfl (fun other => by simp [avoidedBy,other]) fun other => by simp [isEvaluation,other]
  | evaluated => exact .quiet rfl (fun _ => rfl) fun _ => rfl
  | remarked remark =>
    cases remark <;> exact .quiet rfl (fun _ => by simp [avoidedBy]) fun _ => by simp [isEvaluation]
  | @avoided ass event member avoids =>
    have apart := fun other => drives.sole j ass other member
    cases avoids with
    | unchanged => exact .quiet rfl (fun other => by simp [avoidedBy,apart other]) fun _ => by simp [isEvaluation]
    | _ => exact .quiet rfl (fun _ => by simp [avoidedBy]) fun _ => by simp [isEvaluation]
  | @valueSet ass output v member value mirrored differs free =>
    by_cases here : j = p
    · rw [(own ass member here).1] at mirrored ⊢
      obtain rfl : m = output := Option.some.inj (drives.mirrored.symm.trans mirrored)
      exact .write v here rfl
    · have apart := drives.sole j ass here member
      refine .quiet ?_ (fun _ => by simp [EngineState.send,avoidedBy]) fun _ => by simp [EngineState.send,isEvaluation]
      simp only [EngineState.send,note_peers,bus]
      exact networkBus_setOutput_others apart.symm
  | @outputFlagSet ass output v member isUsr mirrored differs =>
    have apart := usr ass member isUsr
    refine .quiet ?_ (fun _ => by simp [EngineState.send,avoidedBy]) fun _ => by simp [EngineState.send,isEvaluation]
    simp only [EngineState.send,note_peers,bus]
    exact networkBus_setOutput_others apart.symm
  | inputFlagSet =>
    refine .quiet ?_ (fun _ => by simp [EngineState.send,avoidedBy]) fun _ => by simp [EngineState.send,isEvaluation]
    simp only [EngineState.send,note_peers,bus]
    rw [networkBus_setInput_outputs]

/-- No request gives the output another step. -/
theorem action_kept (bus : env.bus = networkBus routes) (drives : Drives env.io rules o p block m)
    (route : routes.outputs o = some c) (action : Action env rules j s t) (kept : Kept o c grid s.peers) :
    Kept o c grid t.peers := by
  obtain ⟨obj,found,same⟩ := kept
  cases action_effect (c := c) bus drives action with
  | quiet still => exact ⟨obj,still.trans found,same⟩
  | write v own result =>
    subst result
    obtain ⟨_,after⟩ := networkBus_setOutput v m.flags route found
    rw [← bus] at after
    exact ⟨_,after,(setValFlags_step obj v m.flags).trans same⟩

variable [DecidableEq α]

private theorem step_kept (bus : env.bus = networkBus routes) (drives : Drives env.io rules o p block m)
    (route : routes.outputs o = some c) (step : Step env rules s t) (kept : Kept o c grid s.peers) :
    Kept o c grid t.peers := by
  cases step with
  | action action => exact action_kept bus drives route action kept
  | store => exact kept

/-- What the evaluation of the block that drives the output leaves behind. -/
private theorem block_wrote [LawfulGdouble α] (bus : env.bus = networkBus routes) (program : PlainRules rules)
    (table : PlainTable s.vars) (drives : Drives env.io rules o p block m) (route : routes.outputs o = some c)
    (kept : Kept o c grid s.peers) (more : k ≤ evaluations p s.log) (base : Prop) (key : Option String) :
    match labelBlockStore env block (s.note (.iterate p key)) with
    | .returned (some (_,.changed _)) _ => False
    | .returned _ t => Wrote env.io o p c block m grid k base t
    | .failed _ t => Wrote env.io o p c block m grid k base t
    | .stopped _ => True := by
  have free : ∀ entry ∈ block.entries, plain entry.cond = true ∧ plain entry.ass.rval = true := fun entry member =>
    ⟨program _ (List.mem_of_getElem? drives.at_p) _ (cond_mem_exprs member),
      program _ (List.mem_of_getElem? drives.at_p) _ (rval_mem_exprs member)⟩
  -- With a first true entry the block avoids the call or makes it.
  have selects : ∀ entry v, FirstTrue env.io s.vars s.mem block.entries entry →
      Evaluates env.io s.vars s.mem entry.ass.rval v →
      (∃ u, labelBlockStore env block (s.note (.iterate p key)) = .stopped u) ∨
      (eq m.val v = true ∧ labelBlockStore env block (s.note (.iterate p key)) =
        .returned (some (entry,.quiet false)) ((s.note (.iterate p key)).note (.unchanged o))) ∨
      (labelBlockStore env block (s.note (.iterate p key))).state =
        (s.note (.iterate p key)).send env.bus.setOutput .setOutput o v m.flags := by
    intro entry v first value
    have member := firstTrue_mem first
    obtain ⟨named,byValue⟩ := drives.target entry member
    unfold labelBlockStore
    rcases labelBlockSelect_firstTrue (s := s.note (.iterate p key)) table (fun entry member => (free entry member).1) first
      with select | ⟨u,select⟩
    · rw [select]
      simp only [Res.andThen,assignStore,byValue,ne_eq,not_true_eq_false,if_false,named,drives.mirrored,assignOutput]
      obtain ⟨returned,failed⟩ := evaluate_plain (s := s.note (.iterate p key)) env table (free entry member).2
      cases read : evaluate env entry.ass.rval (s.note (.iterate p key)) with
      | stopped u => exact .inl ⟨u,rfl⟩
      | failed error u => exact absurd value ((failed error u read).2 v)
      | returned w u =>
        obtain ⟨rfl,same⟩ := returned w u read
        obtain rfl := evaluates_unique value same
        refine .inr ?_
        by_cases equal : eq m.val v = true
        · simp only [if_pos equal]
          exact .inl ⟨equal,trivial⟩
        · simp only [Bool.not_eq_true] at equal
          refine .inr ?_
          cases answer : (env.bus.setOutput s.peers o v m.flags).1 with
          | true => simp [equal,drives.free,request,answer,Res.state]
          | false => simp [equal,drives.free,request,answer,Res.state]
    · rw [select]
      exact .inl ⟨u,rfl⟩
  have wrote : ∀ t, Actions env rules p (s.note (.iterate p key)) t →
      (labelBlockStore env block (s.note (.iterate p key))).state = t →
      (∀ u, labelBlockStore env block (s.note (.iterate p key)) ≠ .stopped u) → Wrote env.io o p c block m grid k base t := by
    intro t actions reached ends accepted entry v obj first value has
    obtain ⟨sameVars,sameMem⟩ : t.vars = s.vars ∧ t.mem = s.mem :=
      actions_plain (s := s.note (.iterate p key)) program table actions
    rw [sameVars,sameMem] at first value
    have again : evaluations p s.log + 1 ≠ k := by omega
    rcases selects entry v first value with ⟨u,other⟩ | ⟨equal,called⟩ | sends
    · exact absurd other (ends u)
    · rw [called] at reached
      subst reached
      -- The value is that of the mirrored output, so the peer has it if it has the mirrored value.
      have either : eq obj.val v = true ↔ eq m.val obj.val = true :=
        ⟨fun same => LawfulGdouble.eq_trans _ _ _ equal (LawfulGdouble.eq_symm _ _ same),
          fun same => LawfulGdouble.eq_trans _ _ _ (LawfulGdouble.eq_symm _ _ same) equal⟩
      simp [Res.state,Stale,isEvaluation,avoidedBy,again,either]
    · rw [sends] at reached
      subst reached
      obtain ⟨old,found,grid_eq⟩ := kept
      have log : ((s.note (.iterate p key)).send env.bus.setOutput .setOutput o v m.flags).log = (s.log ++ [.iterate p key]) ++
          [.setOutput o v m.flags (env.bus.setOutput s.peers o v m.flags).1] := rfl
      rw [log] at accepted ⊢
      obtain ⟨taken,onGrid⟩ := accepted_sent accepted
      obtain ⟨answer,after⟩ := networkBus_setOutput v m.flags route found
      rw [← bus] at answer after
      rw [answer] at taken
      rw [(setValFlags_accepted taken).2] at after
      obtain rfl := Option.some.inj (after.symm.trans has)
      simp only [grid_eq,onGrid,true_iff]
      simp [Stale,isEvaluation,avoidedBy,again]
  have ends : BlockEnds env rules p (s.note (.iterate p key)) (labelBlockStore env block (s.note (.iterate p key))) :=
    labelBlockStore_ends drives.at_p
  cases called : labelBlockStore env block (s.note (.iterate p key)) with
  | stopped => trivial
  | failed error t =>
    rw [called] at ends wrote
    exact wrote t ends rfl (by simp)
  | returned result t =>
    rw [called] at ends wrote
    rcases result with _ | ⟨chosen,_ | id⟩
    · exact wrote t ends rfl (by simp)
    · exact wrote t ends rfl (by simp)
    · obtain ⟨u,e,_,⟨ass,⟨rule,at_j,inRule⟩,rfl,_,_,unshadowed,_⟩,_⟩ := ends
      rw [drives.at_p] at at_j
      cases at_j
      obtain ⟨entry,member,rfl⟩ := List.mem_map.mp inRule
      rw [(drives.target entry member).1,drives.mirrored] at unshadowed
      cases unshadowed

private theorem drives_established [LawfulGdouble α] (bus : env.bus = networkBus routes) (program : PlainRules rules)
    (drives : Drives env.io rules o p block m) (route : routes.outputs o = some c) (grid : α) (k : Nat) (base : Prop) :
    Established env rules
      (fun s => PlainTable s.vars ∧ Kept o c grid s.peers ∧ k ≤ evaluations p s.log)
      (fun q s => q = p → Wrote env.io o p c block m grid k base s) := by
  have other : ∀ j, Bystander rules j p → j ≠ p := by
    rintro j (apart | ⟨trigger,at_j⟩) rfl
    · exact apart rfl
    · rw [drives.at_p] at at_j
      cases at_j
  refine ⟨?_,?_,?_,?_,?_,?_⟩
  · rintro s t step ⟨table,kept,more⟩
    refine ⟨?_,step_kept bus drives route step kept,more.trans ((step_log step).sublist.countP_le)⟩
    cases step with
    | action action => exact (action_alike action).1 ▸ table
    | store stores => exact store_plain program table stores
  · rintro j q s t ⟨table,_⟩ bystander action done rfl accepted entry v obj first value has
    obtain ⟨sameVars,sameMem⟩ := action_plain program table action
    rw [sameVars,sameMem] at first value
    cases action_effect (c := c) bus drives action with
    | quiet same avoided evaluated =>
      have wrote := done rfl (accepted_mono (action_log action) accepted) entry v obj first value (same.symm.trans has)
      unfold Stale at wrote ⊢
      rwa [avoided (other j bystander),evaluated (other j bystander)]
    | write _ own => exact absurd own (other j bystander)
  · rintro j q s id e _ bystander stores done
    by_cases refers : Refers rules (s.store id e) q id
    · exact .inr refers
    · refine .inl ?_
      rintro rfl accepted entry v obj first value has
      have agree := vars_agree env.io s id e
      have member := firstTrue_mem first
      have before := firstTrue_agree agree (conds_free drives.at_p refers) first
      have reads := (evaluates_agree agree (rvals_free drives.at_p refers entry member)).mp value
      have wrote := done rfl (accepted_mono (by simp) accepted) entry v obj before reads has
      simpa [Stale,isEvaluation,avoidedBy] using wrote
  · rintro q s event _ remark done same accepted entry v obj first value has
    have wrote := done same (accepted_mono (by simp) accepted) entry v obj first value has
    cases remark <;> simpa [Stale,isEvaluation,avoidedBy] using wrote
  · rintro j trigger s key _ at_j rfl
    rw [drives.at_p] at at_j
    cases at_j
  · rintro j b s key ⟨table,kept,more⟩ at_j
    by_cases here : j = p
    · subst here
      rw [drives.at_p] at at_j
      cases at_j
      have result := block_wrote bus program table drives route kept more base key
      cases called : labelBlockStore env block (s.note (.iterate j key)) with
      | stopped => trivial
      | failed =>
        rw [called] at result
        exact fun _ => result
      | returned outcome t =>
        rw [called] at result
        rcases outcome with _ | ⟨_,_ | id⟩
        · exact fun _ => result
        · exact fun _ => result
        · exact result.elim
    · rcases labelBlockStore env b (s.note (.iterate j key)) with ⟨_ | ⟨_,_ | id⟩,_⟩ | _ | _
      · exact fun same => absurd same here
      · exact fun same => absurd same here
      · exact .inl fun same => absurd same here
      · exact fun same => absurd same here
      · trivial

/-- When `engine_apply` returns, the output has at its peer the value that the block selects, but where the last
evaluation of the block avoided the call and the peer had another value than the mirrored output. -/
theorem engineApply_wrote [LawfulGdouble α] {engine : Engine α} {n : Nat} {id : String} (base : Prop)
    (bus : env.bus = networkBus routes) (program : PlainRules engine.rules) (table : PlainTable s.vars)
    (drives : Drives env.io engine.rules o p block m) (route : routes.outputs o = some c) (kept : Kept o c grid s.peers)
    (called : engineApply env engine n (some id) s = .returned () t)
    (undone : Wrote env.io o p c block m grid (evaluations p s.log) base s ∨ Refers engine.rules s p id) :
    Wrote env.io o p c block m grid (evaluations p s.log) base t := by
  have est := drives_established bus program drives route grid (evaluations p s.log) base
  have below : p < engine.rules.length := (List.getElem?_eq_some_iff.mp drives.at_p).1
  refine engineApply_established est called ⟨table,kept,le_rfl⟩ (fun q _ => ?_) p below rfl
  by_cases same : q = p
  · subst same
    exact undone.imp_left fun wrote _ => wrote
  · exact .inl fun here => absurd here same

/-- It leaves no table with `CHANGED` or `EVAL`, the output its step, and the log what it had. -/
theorem engineApply_keeps {engine : Engine α} (n : Nat) (key : Option String) (bus : env.bus = networkBus routes)
    (program : PlainRules engine.rules) (table : PlainTable s.vars) (drives : Drives env.io engine.rules o p block m)
    (route : routes.outputs o = some c) (kept : Kept o c grid s.peers) :
    PlainTable (engineApply env engine n key s).state.vars ∧ Kept o c grid (engineApply env engine n key s).state.peers ∧
      s.log <+: (engineApply env engine n key s).state.log := by
  have steps : Steps env engine.rules s (engineApply env engine n key s).state := engineApply_steps env engine n key s
  generalize (engineApply env engine n key s).state = t at steps
  induction steps with
  | refl => exact ⟨table,kept,List.prefix_rfl⟩
  | tail _ last ih =>
    obtain ⟨table,kept,front⟩ := ih
    refine ⟨?_,step_kept bus drives route last kept,front.trans (step_log last)⟩
    cases last with
    | action action => exact (action_alike action).1 ▸ table
    | store stores => exact store_plain program table stores

end Starter.LastWrite
