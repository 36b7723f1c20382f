import Starter.Lib.Reentry
import Starter.Cascade

/-!
What holds of every rule when `engine_apply` returns: whatever a rule establishes when
it is evaluated, and whatever stays until something that the rule refers to changes.
The loops of `engine_apply` that are under way, one inside the other, are the frames of
a re-entrant notification whose observers are the rules.
-/
namespace Starter.Coverage
open Gdouble Objects Expressions References Rules Relevance Cascade Lib.Reentry

variable {α W : Type}

/-- The rule at position `q` refers to `id`. -/
def Refers (rules : List (Rule α)) (s : EngineState α W) (q : Nat) (id : String) : Prop :=
  ∃ rule, rules[q]? = some rule ∧ RuleRefersTo s.vars s.mem.captured id rule

theorem refers_alike {rules : List (Rule α)} {s t : EngineState α W} (alike : Alike s t) {q : Nat} {id : String} :
    Refers rules t q id ↔ Refers rules s q id := by
  unfold Refers RuleRefersTo RuleReaches
  rw [alike.1,alike.2]

/-- A rule keeps its references when a variable changes, unless it refers to the variable. -/
theorem refers_store {rules : List (Rule α)} {s : EngineState α W} {q : Nat} {id w : String} {e : Expr α}
    (refers : Refers rules s q id) : Refers rules (s.store w e) q id ∨ Refers rules (s.store w e) q w := by
  obtain ⟨rule,at_q,inner,member,reaches⟩ := refers
  have rest : ∀ x, x ≠ w → (s.store w e).vars x = s.vars x := by
    intro x apart
    simp [Function.update_of_ne apart]
  rcases refersTo_update rest reaches with kept | turned
  · exact .inl ⟨rule,at_q,inner,member,kept⟩
  · exact .inr ⟨rule,at_q,inner,member,turned⟩

/-- Where it refers to `id` after the change of a variable, it did before or it refers to
    the variable. -/
theorem refers_of_store {rules : List (Rule α)} {s : EngineState α W} {q : Nat} {id w : String} {e : Expr α}
    (refers : Refers rules (s.store w e) q id) : Refers rules s q id ∨ Refers rules (s.store w e) q w := by
  obtain ⟨rule,at_q,inner,member,reaches⟩ := refers
  have rest : ∀ x, x ≠ w → s.vars x = (s.store w e).vars x := by
    intro x apart
    simp [Function.update_of_ne apart]
  rcases refersTo_update rest reaches with kept | turned
  · exact .inl ⟨rule,at_q,inner,member,kept⟩
  · have still := (refersTo_update (fun x apart => (rest x apart).symm) turned)
    rw [or_self] at still
    exact .inr ⟨rule,at_q,inner,member,still⟩

/-- The rule at `q` is not the label block that is being evaluated. -/
def Bystander (rules : List (Rule α)) (j q : Nat) : Prop := q ≠ j ∨ ∃ trigger, rules[j]? = some (.trigger trigger)

variable [Gdouble α] [DecidableEq α]

/-- In states that meet an invariant, the property is one that evaluation of a rule
    establishes and that only a change of something the rule refers to takes away. -/
structure Established (env : Env α W) (rules : List (Rule α)) (inv : EngineState α W → Prop)
    (done : Nat → EngineState α W → Prop) : Prop where
  keeps : ∀ s t, Step env rules s t → inv s → inv t
  action : ∀ j q s t, inv s → Bystander rules j q → Action env rules j s t → done q s → done q t
  store : ∀ j q s id e, inv s → Bystander rules j q → Stores env rules j s id e → done q s →
    done q (s.store id e) ∨ Refers rules (s.store id e) q id
  remark : ∀ q (s : EngineState α W) event, inv s → Remark event → done q s → done q (s.note event)
  trigger : ∀ j trigger (s : EngineState α W) key, inv s → rules[j]? = some (.trigger trigger) → done j (s.note (.iterate j key))
  label : ∀ j block (s : EngineState α W) key, inv s → rules[j]? = some (.label block) →
    match labelBlockStore env block (s.note (.iterate j key)) with
    | .returned (some (_,.changed id)) t => done j t ∨ Refers rules t j id
    | .returned _ t => done j t
    | .failed _ t => done j t
    | .stopped _ => True

variable {env : Env α W} {rules : List (Rule α)} {inv : EngineState α W → Prop} {done : Nat → EngineState α W → Prop}
  {s t : EngineState α W} {frames : List (Frame String)} {j : Nat}

/-- Every rule has the property or is still ahead of one of the loops under way. -/
def At (rules : List (Rule α)) (inv : EngineState α W → Prop) (done : Nat → EngineState α W → Prop)
    (s : EngineState α W) (frames : List (Frame String)) : Prop :=
  inv s ∧ Settling rules.length (fun q => done q s) (Refers rules s) frames

/-- The same, but that nothing is asked of the rule at position `j`. -/
def AtBut (rules : List (Rule α)) (inv : EngineState α W → Prop) (done : Nat → EngineState α W → Prop) (j : Nat)
    (s : EngineState α W) (frames : List (Frame String)) : Prop :=
  inv s ∧ Settling rules.length (fun q => q = j ∨ done q s) (Refers rules s) frames

private theorem inv_actions (est : Established env rules inv done) (actions : Actions env rules j s t)
    (holds : inv s) : inv t := by
  induction actions with
  | refl => exact holds
  | tail _ last ih => exact est.keeps _ _ (.action last) ih

private theorem done_actions (est : Established env rules inv done) {q : Nat} (other : Bystander rules j q)
    (actions : Actions env rules j s t) (holds : inv s) (finished : done q s) : done q t := by
  induction actions with
  | refl => exact finished
  | tail before last ih => exact est.action j q _ _ (inv_actions est before holds) other last ih

private theorem at_actions (est : Established env rules inv done) (others : ∀ q, Bystander rules j q)
    (actions : Actions env rules j s t) (now : At rules inv done s frames) : At rules inv done t frames :=
  ⟨inv_actions est actions now.1,
    settling_quiet (fun q => done_actions est (others q) actions now.1)
      (fun _ _ => (refers_alike (actions_alike actions)).mpr) now.2⟩

private theorem atBut_actions (est : Established env rules inv done) (actions : Actions env rules j s t)
    (now : AtBut rules inv done j s frames) : AtBut rules inv done j t frames := by
  refine ⟨inv_actions est actions now.1,?_⟩
  refine settling_quiet ?_ (fun _ _ => (refers_alike (actions_alike actions)).mpr) now.2
  intro q finished
  by_cases here : q = j
  · exact .inl here
  · exact .inr (done_actions est (.inl here) actions now.1 (finished.resolve_left here))

private theorem at_remark (est : Established env rules inv done) {event : Event α} (remark : Remark event)
    (now : At rules inv done s frames) : At rules inv done (s.note event) frames :=
  ⟨est.keeps _ _ (.action (j := 0) (.remarked remark)) now.1,
    settling_quiet (fun q => est.remark q s event now.1 remark) (fun _ _ refers => refers) now.2⟩

/-- What a nested call of `engine_apply` has to do: return TRUE, if it returns, with its
    loop at an end. -/
structure Closes (rules : List (Rule α)) (inv : EngineState α W → Prop) (done : Nat → EngineState α W → Prop)
    (changed : Changed α W) : Prop where
  close : ∀ id u t frames, changed id u = .returned () t → At rules inv done u (⟨some id,0⟩ :: frames) →
    At rules inv done t frames
  true : ∀ id u error t, changed id u ≠ .failed error t

variable {changed : Changed α W}

private theorem labelBlockApply_at (est : Established env rules inv done) (closes : Closes rules inv done changed)
    {block : LabelBlock α} {key : Option String} (at_j : rules[j]? = some (.label block))
    (now : At rules inv done s (⟨key,j⟩ :: frames)) :
    (∀ t, labelBlockApply env changed block (s.note (.iterate j key)) = .returned () t →
      At rules inv done t (⟨key,j+1⟩ :: frames)) ∧
    (∀ error t, labelBlockApply env changed block (s.note (.iterate j key)) = .failed error t →
      At rules inv done t (⟨key,j+1⟩ :: frames)) := by
  have exempt : AtBut rules inv done j s (⟨key,j+1⟩ :: frames) :=
    ⟨now.1,settling_next (.inl (.inl rfl)) (settling_quiet (fun _ => .inr) (fun _ _ refers => refers) now.2)⟩
  have begun : AtBut rules inv done j (s.note (.iterate j key)) (⟨key,j+1⟩ :: frames) :=
    atBut_actions est (.single (.iterated key)) exempt
  have finish : ∀ t, Actions env rules j (s.note (.iterate j key)) t → done j t →
      At rules inv done t (⟨key,j+1⟩ :: frames) := by
    intro t actions finished
    have before := atBut_actions est actions begun
    refine ⟨before.1,settling_quiet ?_ (fun _ _ refers => refers) before.2⟩
    rintro q (rfl | other)
    · exact finished
    · exact other
  have ends : BlockEnds env rules j (s.note (.iterate j key)) (labelBlockStore env block (s.note (.iterate j key))) :=
    labelBlockStore_ends at_j
  have result := est.label j block s key now.1 at_j
  rw [labelBlockApply_eq]
  cases stored : labelBlockStore env block (s.note (.iterate j key)) with
  | stopped => simp [Res.andThen]
  | failed error u =>
    rw [stored] at ends result
    simp only [Res.andThen]
    exact ⟨by simp,by rintro _ _ ⟨⟩; exact finish u ends result⟩
  | returned outcome u =>
    rw [stored] at ends result
    simp only [Res.andThen]
    rcases outcome with _ | ⟨entry,didApply | id⟩
    · exact ⟨by rintro _ ⟨⟩; exact finish u ends result,by simp⟩
    · refine ⟨?_,by simp⟩
      rintro _ ⟨⟩
      have settled := finish u ends result
      cases didApply with
      | false => exact settled
      | true => exact at_remark est (.ruleTriggered _) settled
    · obtain ⟨v,e,actions,stores,rfl⟩ := ends
      -- The store starts a loop for the variable; the block itself is done or ahead of it.
      have nested : At rules inv done (v.store id e) (⟨some id,0⟩ :: ⟨key,j+1⟩ :: frames) := by
        have before := atBut_actions est actions begun
        refine ⟨est.keeps _ _ (.store stores) before.1,settling_change ?_ (fun q x => refers_store) before.2⟩
        rintro q (rfl | other)
        · exact result
        · by_cases here : q = j
          · exact here ▸ result
          · exact est.store j q v id e before.1 (.inl here) stores other
      have whole : ∀ t, changed id (v.store id e) = .returned () t →
          At rules inv done (t.note (.ruleTriggered entry.ass.id)) (⟨key,j+1⟩ :: frames) :=
        fun t called => at_remark est (.ruleTriggered _) (closes.close id _ t _ called nested)
      simp only
      cases called : changed id (v.store id e) with
      | stopped => simp
      | failed error t => exact absurd called (closes.true id _ error t)
      | returned _ t => exact ⟨by rintro _ ⟨⟩; exact whole t called,by simp⟩

private theorem assignApply_at (est : Established env rules inv done) (closes : Closes rules inv done changed)
    {ass : Assign α} (member : Assigns rules j ass) (others : ∀ q, Bystander rules j q) (now : At rules inv done s frames) :
    (∀ didApply t, assignApply env changed ass s = .returned didApply t → At rules inv done t frames) ∧
    (∀ error t, assignApply env changed ass s = .failed error t → At rules inv done t frames) := by
  have ends : AssignEnds env rules j s (assignStore env ass s) := assignStore_ends member
  unfold assignApply
  cases stored : assignStore env ass s with
  | stopped => simp [Res.andThen]
  | failed error u =>
    rw [stored] at ends
    exact ⟨by simp [Res.andThen],by rintro _ _ ⟨⟩; exact at_actions est others ends now⟩
  | returned outcome u =>
    rw [stored] at ends
    cases outcome with
    | quiet didApply => exact ⟨by rintro _ _ ⟨⟩; exact at_actions est others ends now,by simp [Res.andThen]⟩
    | changed id =>
      obtain ⟨v,e,actions,stores,rfl⟩ := ends
      have before := at_actions est others actions now
      have nested : At rules inv done (v.store id e) (⟨some id,0⟩ :: frames) :=
        ⟨est.keeps _ _ (.store stores) before.1,
          settling_change (fun q finished => est.store j q v id e before.1 (others q) stores finished)
            (fun q x => refers_store) before.2⟩
      simp only [Res.andThen]
      cases called : changed id (v.store id e) with
      | stopped => simp
      | failed error t => exact absurd called (closes.true id _ error t)
      | returned _ t => exact ⟨by rintro _ _ ⟨⟩; exact closes.close id _ t _ called nested,by simp⟩

private theorem triggerAssigns_at (est : Established env rules inv done) (closes : Closes rules inv done changed)
    {asss : List (Assign α)} (members : ∀ ass ∈ asss, Assigns rules j ass) (others : ∀ q, Bystander rules j q)
    {first result : Option StError} (now : At rules inv done s frames)
    (looped : triggerAssigns env changed asss first s = .returned result t) : At rules inv done t frames := by
  induction asss generalizing s first with
  | nil =>
    cases looped
    exact now
  | cons ass rest ih =>
    have applied := assignApply_at est closes (members ass List.mem_cons_self) others now
    have members := fun a member => members a (List.mem_cons_of_mem ass member)
    simp only [triggerAssigns] at looped
    cases called : assignApply env changed ass s with
    | stopped => simp [called] at looped
    | failed error u =>
      rw [called] at looped
      exact ih members (at_remark est (.assignFailed _ _) (applied.2 error u called)) looped
    | returned didApply u =>
      rw [called] at looped
      have after := applied.1 didApply u called
      cases didApply with
      | false => exact ih members after looped
      | true => exact ih members (at_remark est (.triggerTriggered _) after) looped

/-- The loop over the assignments of a trigger does not fail itself. -/
theorem triggerAssigns_true {asss : List (Assign α)} {first : Option StError} (error : StError) (t : EngineState α W) :
    triggerAssigns env changed asss first s ≠ .failed error t := by
  induction asss generalizing s first with
  | nil => simp [triggerAssigns]
  | cons ass rest ih =>
    simp only [triggerAssigns]
    cases assignApply env changed ass s with
    | stopped => simp
    | failed => exact ih
    | returned => exact ih

private theorem triggerApply_at (est : Established env rules inv done) (closes : Closes rules inv done changed)
    {trigger : Trigger α} (at_j : rules[j]? = some (.trigger trigger)) (now : At rules inv done s frames) :
    (∀ t, triggerApply env changed trigger s = .returned () t → At rules inv done t frames) ∧
    (∀ error t, triggerApply env changed trigger s = .failed error t → At rules inv done t frames) := by
  have others : ∀ q, Bystander rules j q := fun q => .inr ⟨trigger,at_j⟩
  have evaluation : Actions env rules j s (evaluate env trigger.cond s).state :=
    evaluate_actions at_j List.mem_cons_self
  unfold triggerApply
  cases evaluated : evaluate env trigger.cond s with
  | stopped => simp [Res.andThen]
  | failed error u =>
    rw [evaluated] at evaluation
    exact ⟨by simp [Res.andThen],by rintro _ _ ⟨⟩; exact at_actions est others evaluation now⟩
  | returned v u =>
    rw [evaluated] at evaluation
    have before : At rules inv done u frames := at_actions est others evaluation now
    simp only [Res.andThen]
    split
    · cases looped : triggerAssigns env changed trigger.ass none u with
      | stopped => simp
      | failed error t => exact absurd looped (triggerAssigns_true error t)
      | returned first t =>
        have after := triggerAssigns_at est closes (fun ass member => ⟨_,at_j,member⟩) others before looped
        cases first with
        | none => exact ⟨by rintro _ ⟨⟩; exact after,by simp⟩
        | some error => exact ⟨by simp,by rintro _ _ ⟨⟩; exact after⟩
    · exact ⟨by rintro _ ⟨⟩; exact before,by simp⟩

private theorem ruleApply_at (est : Established env rules inv done) (closes : Closes rules inv done changed)
    {rule : Rule α} {key : Option String} (at_j : rules[j]? = some rule) (now : At rules inv done s (⟨key,j⟩ :: frames)) :
    (∀ t, rule.apply env changed (s.note (.iterate j key)) = .returned () t →
      At rules inv done t (⟨key,j+1⟩ :: frames)) ∧
    (∀ error t, rule.apply env changed (s.note (.iterate j key)) = .failed error t →
      At rules inv done t (⟨key,j+1⟩ :: frames)) := by
  cases rule with
  | label block => exact labelBlockApply_at est closes at_j now
  | trigger trigger =>
    have others : ∀ q, Bystander rules j q := fun q => .inr ⟨trigger,at_j⟩
    have begun : At rules inv done (s.note (.iterate j key)) (⟨key,j⟩ :: frames) :=
      at_actions est others (.single (.iterated key)) now
    exact triggerApply_at est closes at_j ⟨begun.1,settling_next (.inl (est.trigger j trigger s key now.1 at_j)) begun.2⟩

theorem iterateRules_at (est : Established env rules inv done) (closes : Closes rules inv done changed)
    {key : Option String} {rest : List (Rule α)} {pos : Nat} (suffix : rules.drop pos = rest)
    (now : At rules inv done s (⟨key,pos⟩ :: frames)) (looped : iterateRules env changed key pos rest s = .returned () t) :
    At rules inv done t frames := by
  induction rest generalizing s pos with
  | nil =>
    cases looped
    exact ⟨now.1,settling_over (List.drop_eq_nil_iff.mp suffix) now.2⟩
  | cons rule rest ih =>
    have at_pos : rules[pos]? = some rule := by
      rw [← List.head?_drop,suffix,List.head?_cons]
    have suffix' : rules.drop (pos+1) = rest := by
      rw [← List.tail_drop,suffix,List.tail_cons]
    simp only [iterateRules] at looped
    cases concerned : rule.concerned env key s with
    | none => simp [concerned] at looped
    | some answer =>
      cases answer with
      | false =>
        rw [concerned] at looped
        obtain ⟨id,same,apart⟩ := concerned_false concerned
        refine ih suffix' ⟨now.1,settling_next (.inr ⟨id,same,?_⟩) now.2⟩ looped
        rintro ⟨other,at_other,refers⟩
        rw [at_pos] at at_other
        cases at_other
        exact apart refers
      | true =>
        rw [concerned] at looped
        have applied := ruleApply_at est closes at_pos now
        simp only at looped
        cases called : rule.apply env changed (s.note (.iterate pos key)) with
        | stopped => simp [called] at looped
        | returned _ u =>
          rw [called] at looped
          exact ih suffix' (applied.1 u called) looped
        | failed error u =>
          rw [called] at looped
          exact ih suffix' (at_remark est (.ruleFailed _ _) (applied.2 error u called)) looped

theorem iterateRules_true {key : Option String} {rest : List (Rule α)} {pos : Nat}
    (error : StError) (t : EngineState α W) : iterateRules env changed key pos rest s ≠ .failed error t := by
  induction rest generalizing s pos with
  | nil => simp [iterateRules]
  | cons rule rest ih =>
    simp only [iterateRules]
    cases rule.concerned env key s with
    | none => simp
    | some answer =>
      cases answer with
      | false => exact ih
      | true =>
        simp only
        cases rule.apply env changed (s.note (.iterate pos key)) with
        | stopped => simp
        | returned => exact ih
        | failed => exact ih

/-- `engine_apply` never returns FALSE. -/
theorem engineApply_true (env : Env α W) (engine : Engine α) (n : Nat) (key : Option String) (s : EngineState α W)
    (error : StError) (t : EngineState α W) : engineApply env engine n key s ≠ .failed error t := by
  cases n with
  | zero => simp [engineApply]
  | succ n => exact iterateRules_true error t

private theorem engineApply_closes {engine : Engine α} (est : Established env engine.rules inv done) :
    ∀ n key s t frames, engineApply env engine n key s = .returned () t →
      At engine.rules inv done s (⟨key,0⟩ :: frames) → At engine.rules inv done t frames := by
  intro n
  induction n with
  | zero =>
    intro key s t frames called
    simp [engineApply] at called
  | succ n ih =>
    intro key s t frames called now
    have closes : Closes engine.rules inv done fun name => engineApply env engine n (some name) :=
      ⟨fun id u t frames => ih (some id) u t frames,fun id u error t => engineApply_true env engine n (some id) u error t⟩
    exact iterateRules_at est closes rfl now called

/-- When `engine_apply` returns from a change of `id`, every rule has the property, if all
    those that lacked it referred to `id`. -/
theorem engineApply_established {engine : Engine α} (est : Established env engine.rules inv done) {n : Nat} {id : String}
    (called : engineApply env engine n (some id) s = .returned () t) (holds : inv s)
    (undone : ∀ q < engine.rules.length, done q s ∨ Refers engine.rules s q id) :
    ∀ q < engine.rules.length, done q t :=
  settled (engineApply_closes est n (some id) s t [] called ⟨holds,settling_start undone⟩).2

/-- When `engine_apply` returns from an event that concerns all rules, every rule has the
    property. -/
theorem engineApply_established_all {engine : Engine α} (est : Established env engine.rules inv done) {n : Nat}
    (called : engineApply env engine n none s = .returned () t) (holds : inv s) : ∀ q < engine.rules.length, done q t :=
  settled (engineApply_closes est n none s t [] called ⟨holds,settling_start_all⟩).2

omit [Gdouble α] [DecidableEq α] in
private theorem mem_drop_mono {log later : List (Event α)} {n : Nat} {event : Event α} (front : log <+: later)
    (member : event ∈ log.drop n) : event ∈ later.drop n :=
  (front.drop n).subset member

/-- Whatever rule refers to `id` when `engine_apply` returns from a change of `id` was
    evaluated in the call. -/
theorem engineApply_evaluated {engine : Engine α} {n : Nat} {id : String}
    (called : engineApply env engine n (some id) s = .returned () t) {q : Nat} (refers : Refers engine.rules t q id) :
    ∃ key, .iterate q key ∈ t.log.drop s.log.length := by
  have below : q < engine.rules.length := by
    obtain ⟨_,at_q,_⟩ := refers
    exact (List.getElem?_eq_some_iff.mp at_q).1
  have est : Established env engine.rules (fun u => s.log <+: u.log) fun q u =>
      Refers engine.rules u q id → ∃ key, .iterate q key ∈ u.log.drop s.log.length := by
    have begun : ∀ (u : EngineState α W) j key, s.log <+: u.log →
        .iterate j key ∈ (u.note (.iterate j key)).log.drop s.log.length := by
      intro u j key front
      rw [note_log,List.drop_append_of_le_length front.length_le]
      exact List.mem_concat_self
    refine ⟨fun u v step front => front.trans (step_log step),?_,?_,?_,?_,?_⟩
    · intro j q u v _ _ action done refers
      obtain ⟨key,member⟩ := done ((refers_alike (action_alike action)).mp refers)
      exact ⟨key,mem_drop_mono (action_log action) member⟩
    · intro j q u x e _ _ stores done
      by_cases changed : Refers engine.rules (u.store x e) q x
      · exact .inr changed
      · refine .inl fun refers => ?_
        obtain ⟨key,member⟩ := done ((refers_of_store refers).resolve_right changed)
        exact ⟨key,mem_drop_mono (List.prefix_append _ _) member⟩
    · intro q u event _ _ done refers
      obtain ⟨key,member⟩ := done refers
      exact ⟨key,mem_drop_mono (List.prefix_append _ _) member⟩
    · intro j trigger u key front _ _
      exact ⟨key,begun u j key front⟩
    · intro j block u key front at_j
      have ends : BlockEnds env engine.rules j (u.note (.iterate j key)) (labelBlockStore env block (u.note (.iterate j key))) :=
        labelBlockStore_ends at_j
      have after : ∀ v, Actions env engine.rules j (u.note (.iterate j key)) v → Refers engine.rules v j id →
          ∃ key, .iterate j key ∈ v.log.drop s.log.length :=
        fun v actions _ => ⟨key,mem_drop_mono (actions_log actions) (begun u j key front)⟩
      cases stored : labelBlockStore env block (u.note (.iterate j key)) with
      | stopped => trivial
      | failed error v =>
        rw [stored] at ends
        exact after v ends
      | returned result v =>
        rw [stored] at ends
        rcases result with _ | ⟨_,_ | x⟩
        · exact after v ends
        · exact after v ends
        · obtain ⟨w,e,actions,_,rfl⟩ := ends
          refine .inl fun _ => ⟨key,?_⟩
          exact mem_drop_mono ((actions_log actions).trans (List.prefix_append _ _)) (begun u j key front)
  refine engineApply_established est called List.prefix_rfl (fun q _ => ?_) q below refers
  by_cases before : Refers engine.rules s q id
  · exact .inr before
  · exact .inl fun refers => absurd refers before

private theorem iterateRules_apart {id : String} {rest : List (Rule α)} (apart : ∀ rule ∈ rest, ¬ RuleRefersTo s.vars
    s.mem.captured id rule) {pos : Nat} (looped : iterateRules env changed (some id) pos rest s = .returned () t) : t = s := by
  induction rest generalizing pos with
  | nil =>
    cases looped
    rfl
  | cons rule rest ih =>
    simp only [iterateRules] at looped
    cases concerned : rule.concerned env (some id) s with
    | none => simp [concerned] at looped
    | some answer =>
      cases answer with
      | false =>
        rw [concerned] at looped
        exact ih (fun rule member => apart rule (List.mem_cons_of_mem _ member)) looped
      | true => exact absurd (haveRefTo_true concerned) (apart rule List.mem_cons_self)

/-- `engine_apply` leaves everything as it is when no rule refers to what changed. -/
theorem engineApply_apart {engine : Engine α} {n : Nat} {id : String} (apart : ∀ q, ¬ Refers engine.rules s q id)
    (called : engineApply env engine n (some id) s = .returned () t) : t = s := by
  cases n with
  | zero => simp [engineApply] at called
  | succ n =>
    refine iterateRules_apart (fun rule member refers => ?_) called
    obtain ⟨q,at_q⟩ := List.mem_iff_getElem?.mp member
    exact apart q ⟨rule,at_q,refers⟩

end Starter.Coverage
