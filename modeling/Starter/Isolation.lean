import Starter.Settling
import Starter.Twins

/-!
Errors stay where they happen. A label block that only ever fails for an undefined
identifier might as well not be there, and a failing assignment of a trigger leaves the
other ones of the trigger alone.
-/
namespace Starter.Isolation
open Gdouble Objects Expressions References Rules Relevance Cascade Coverage Settling Twins

variable {α W : Type}

/-! ### A label block that always fails -/

/-- The engine with the label block at position `b` removed. -/
def without (engine : Engine α) (b : Nat) : Engine α := { engine with labels := engine.labels.eraseIdx b }

/-- The rule at position `b` is evaluated. -/
def evaluates (b : Nat) : Event α → Bool
  | .iterate pos _ => pos == b
  | _ => false

/-- Its evaluation fails because of an undefined identifier. -/
def failsUndefined (b : Nat) : Event α → Bool
  | .ruleFailed pos error => pos == b && decide (error.code = .undefinedIdentifier)
  | _ => false

/-- Every evaluation of the rule at position `b` fails because of an undefined identifier. -/
def AlwaysFails (b : Nat) (log : List (Event α)) : Prop := log.countP (failsUndefined b) = log.countP (evaluates b)

instance (b : Nat) (log : List (Event α)) : Decidable (AlwaysFails b log) := inferInstanceAs (Decidable (_ = _))

/-- How many evaluations have not failed in this way, or not yet. -/
def unfailed (b : Nat) (log : List (Event α)) : Int := (log.countP (evaluates b) : Int) - log.countP (failsUndefined b)

theorem unfailed_append (b : Nat) (log events : List (Event α)) :
    unfailed b (log ++ events) = unfailed b log + unfailed b events := by
  simp only [unfailed,List.countP_append]
  omega

theorem unfailed_note {b : Nat} {event : Event α} (plain : ∀ pos error, event ≠ .ruleFailed pos error) (log : List (Event α)) :
    unfailed b log ≤ unfailed b (log ++ [event]) := by
  have none : failsUndefined b event = false := by
    cases event with
    | ruleFailed pos error => exact absurd rfl (plain pos error)
    | _ => rfl
  rw [unfailed_append]
  simp only [unfailed,List.countP_singleton,none,Bool.false_eq_true,if_false]
  omega

theorem unfailed_ruleFailed {b pos : Nat} {error : StError} (counts : pos ≠ b ∨ error.code ≠ .undefinedIdentifier)
    (log : List (Event α)) : unfailed b (log ++ [.ruleFailed pos error]) = unfailed b log := by
  have none : failsUndefined (α := α) b (.ruleFailed pos error) = false := by
    rcases counts with apart | other
    · simp [failsUndefined,apart]
    · simp [failsUndefined,other]
  rw [unfailed_append]
  simp [unfailed,none,evaluates]

/-- Without the block the same happens. -/
structure Alongside (b : Nat) (d : Int) (s s' : EngineState α W) : Prop where
  vars : s'.vars = s.vars
  mem : s'.mem = s.mem
  peers : s'.peers = s.peers
  acts : s'.log.filter acts = s.log.filter acts
  table : PlainTable s.vars
  least : d ≤ unfailed b s.log

/-- The engine and the engine without the block, as long as the block only fails. -/
def removing (b : Nat) (d : Int) : Tie α W W := ⟨Alongside b d,fun s => d < unfailed b s.log,fun e => plain e = true,True,False⟩

variable {b : Nat} {d : Int} {s s' t : EngineState α W}

private theorem alongside_note {event event' : Event α} (same : [event'].filter acts = [event].filter acts)
    (least : d ≤ unfailed b (s.log ++ [event])) (beside : Alongside b d s s') :
    Alongside b d (s.note event) (s'.note event') := by
  refine ⟨beside.vars,beside.mem,beside.peers,?_,beside.table,least⟩
  rw [note_log,note_log,List.filter_append,List.filter_append,beside.acts,same]

private theorem plainTable_update {vars : Variables α} {id : String} {e : Expr α} (free : plain e = true)
    (table : PlainTable vars) : PlainTable (Function.update vars id (some e)) := by
  intro x f stored
  by_cases same : x = id
  · subst same
    rw [Function.update_self] at stored
    cases stored
    exact free
  · rw [Function.update_of_ne same] at stored
    exact table x f stored

private theorem keeps (env : Env α W) (b : Nat) (d : Int) : Keeps env env (removing b d) := by
  have mono : ∀ {s t : EngineState α W} {event : Event α}, (∀ pos error, event ≠ .ruleFailed pos error) →
      t.log = s.log ++ [event] → d < unfailed b s.log → d < unfailed b t.log := by
    intro s t event plain log lost
    have := unfailed_note (b := b) plain s.log
    rw [log]
    omega
  constructor
  case io | depth => rfl
  case vars => exact fun related => related.vars
  case mem => exact fun related => related.mem
  case remember =>
    exact fun m related => ⟨related.vars,rfl,related.peers,related.acts,related.table,related.least⟩
  case note =>
    exact fun event plain related => alongside_note rfl (related.least.trans (unfailed_note plain _)) related
  case remarkLeft | remarkRight => exact fun event deaf => deaf.elim
  case store =>
    intro s s' id e free related
    have noted : Alongside b d (s.note (.varChanged id e)) (s'.note (.varChanged id e)) :=
      alongside_note rfl (related.least.trans (unfailed_note (by simp) _)) related
    refine ⟨?_,noted.mem,noted.peers,noted.acts,plainTable_update free related.table,noted.least⟩
    rw [store_vars,store_vars,related.vars]
  case setOutput | setInput =>
    intro s s' id v flags related
    refine ⟨.inr (by rw [related.peers]),related.vars,related.mem,?_,?_,related.table,?_⟩
    · simp only [EngineState.send,note_peers,related.peers]
    · simp only [EngineState.send,note_log,List.filter_append,related.acts,related.peers]
    · exact related.least.trans (unfailed_note (by simp) _)
  case lostRemember => exact fun _ lost => lost
  case lostNote => exact fun event plain lost => mono plain rfl lost
  case lostStore | lostOutput | lostInput =>
    intros
    rename_i lost
    exact mono (by simp) rfl lost

private theorem loops {b : Nat} (d : Int) (key : Option String) {pos pos' : Nat} (apart : pos ≠ b) :
    Loops (removing b d : Tie α W W) key pos pos' := by
  constructor
  · exact fun related => alongside_note rfl (related.least.trans (unfailed_note (by simp) _)) related
  · exact fun error related => alongside_note rfl (by rw [unfailed_ruleFailed (.inl apart)]; exact related.least) related
  · intro s error lost
    change d < unfailed b (s.log ++ [.ruleFailed pos error])
    rw [unfailed_ruleFailed (.inl apart)]
    exact lost

section
variable [Gdouble α] [DecidableEq α] {env : Env α W} {changed changed' : Changed α W}

/-- A request that was answered FALSE. -/
inductive Refused (env : Env α W) (s : EngineState α W) : EngineState α W → Prop
  | setOutput (id : String) (v : α) (flags : IoFlags) (refused : (env.bus.setOutput s.peers id v flags).1 = false) :
      Refused env s (s.send env.bus.setOutput .setOutput id v flags)
  | setInput (id : String) (v : α) (flags : IoFlags) (refused : (env.bus.setInput s.peers id v flags).1 = false) :
      Refused env s (s.send env.bus.setInput .setInput id v flags)

omit [DecidableEq α] in
/-- Where no expression has `CHANGED` or `EVAL`, looking for an entry leaves everything as
    it was, also when it fails. -/
private theorem labelBlockSelect_plain {entries : List (LabelEntry α)} (free : ∀ entry ∈ entries, plain entry.cond = true)
    (table : PlainTable s.vars) :
    (∀ selected t, labelBlockSelect env entries s = .returned selected t → t = s) ∧
    (∀ error t, labelBlockSelect env entries s = .failed error t → t = s) := by
  induction entries with
  | nil => exact ⟨by rintro _ _ ⟨⟩; rfl,by rintro _ _ ⟨⟩⟩
  | cons entry rest ih =>
    obtain ⟨returns,fails⟩ := evaluate_plain env table (free entry List.mem_cons_self)
    simp only [labelBlockSelect]
    cases called : evaluate env entry.cond s with
    | stopped => exact ⟨by rintro _ _ ⟨⟩,by rintro _ _ ⟨⟩⟩
    | failed error u =>
      refine ⟨by rintro _ _ ⟨⟩,?_⟩
      rintro _ _ ⟨⟩
      exact (fails _ _ called).1
    | returned v u =>
      obtain ⟨rfl,_⟩ := returns v u called
      simp only [Res.andThen]
      split
      · exact ⟨by rintro _ _ ⟨⟩; rfl,by rintro _ _ ⟨⟩⟩
      · exact ih fun other member => free other (List.mem_cons_of_mem entry member)

omit [DecidableEq α] [Gdouble α] in
private theorem returned_andThen {σ β γ : Type} (b : β) (s : σ) (k : β → σ → Res σ γ) :
    (Res.returned b s).andThen k = k b s := rfl

omit [DecidableEq α] [Gdouble α] in
private theorem request_failed {call : W → String → α → IoFlags → Bool × W} {event : String → α → IoFlags → Bool → Event α}
    {text id : String} {val : α} {flags : IoFlags} {error : StError}
    (failed : (request call event text id val flags s).andThen (finish changed) = .failed error t) :
    error.code = .invalidValue ∧ t = s.send call event id val flags ∧ (call s.peers id val flags).1 = false := by
  unfold request at failed
  split at failed
  · cases failed
  · rename_i refused
    cases failed
    exact ⟨rfl,rfl,by simpa using refused⟩

/-- An assignment that fails has done nothing before, or it was a request that was refused. -/
theorem assignApply_failed (never : ∀ id u error t, changed id u ≠ .failed error t) {ass : Assign α} {error : StError}
    (free : plain ass.rval = true) (table : PlainTable s.vars) (failed : assignApply env changed ass s = .failed error t) :
    t = s ∨ (error.code = .invalidValue ∧ Refused env s t) := by
  obtain ⟨returns,fails⟩ := evaluate_plain env table free
  have output : ∀ (id : String) (v : α) (flags : IoFlags) (text : String),
      (request env.bus.setOutput .setOutput text id v flags s).andThen (finish changed) = .failed error t →
        t = s ∨ (error.code = .invalidValue ∧ Refused env s t) := by
    intro id v flags text failed
    obtain ⟨code,rfl,refused⟩ := request_failed failed
    exact .inr ⟨code,.setOutput id v flags refused⟩
  have input : ∀ (id : String) (v : α) (flags : IoFlags) (text : String),
      (request env.bus.setInput .setInput text id v flags s).andThen (finish changed) = .failed error t →
        t = s ∨ (error.code = .invalidValue ∧ Refused env s t) := by
    intro id v flags text failed
    obtain ⟨code,rfl,refused⟩ := request_failed failed
    exact .inr ⟨code,.setInput id v flags refused⟩
  rw [assignApply_eq] at failed
  unfold assignStore at failed
  split at failed
  · unfold assignApplyFlag at failed
    split at failed
    · cases failed
    · rw [andThen_assoc] at failed
      cases called : evaluate env ass.rval s with
      | stopped => simp [called,Res.andThen] at failed
      | failed e u =>
        rw [called] at failed
        cases failed
        exact .inl (fails _ _ called).1
      | returned v u =>
        obtain ⟨rfl,_⟩ := returns v u called
        rw [called,returned_andThen] at failed
        split at failed
        · unfold assignFlagOf at failed
          simp only at failed
          split at failed
          · cases failed
          · exact output _ _ _ _ failed
        · split at failed
          · unfold assignFlagOf at failed
            simp only at failed
            split at failed
            · cases failed
            · exact input _ _ _ _ failed
          · cases failed
            exact .inl rfl
  · split at failed
    · unfold assignOutput at failed
      rw [andThen_assoc] at failed
      cases called : evaluate env ass.rval s with
      | stopped => simp [called,Res.andThen] at failed
      | failed e u =>
        rw [called] at failed
        cases failed
        exact .inl (fails _ _ called).1
      | returned v u =>
        obtain ⟨rfl,_⟩ := returns v u called
        rw [called,returned_andThen] at failed
        split at failed
        · cases failed
        · split at failed
          · cases failed
          · exact output _ _ _ _ failed
    · split at failed
      · split at failed
        · cases failed
        · simp only [Res.andThen,finish] at failed
          split at failed
          · cases failed
          · rename_i called
            exact absurd called (never _ _ _ _)
          · cases failed
      · cases failed
        exact .inl rfl

theorem labelBlockApply_failed (never : ∀ id u error t, changed id u ≠ .failed error t) {block : LabelBlock α} {error : StError}
    (free : ∀ e ∈ exprs (.label block), plain e = true) (table : PlainTable s.vars)
    (failed : labelBlockApply env changed block s = .failed error t) :
    t = s ∨ (error.code = .invalidValue ∧ Refused env s t) := by
  obtain ⟨returns,fails⟩ := labelBlockSelect_plain (fun entry member => free _ (cond_mem_exprs member)) table
  unfold labelBlockApply at failed
  cases selected : labelBlockSelect env block.entries s with
  | stopped => simp [selected,Res.andThen] at failed
  | failed e u =>
    rw [selected] at failed
    cases failed
    exact .inl (fails _ _ selected)
  | returned entry u =>
    obtain rfl := returns entry u selected
    cases entry with
    | none => simp [selected,Res.andThen] at failed
    | some entry =>
      rw [selected] at failed
      simp only [Res.andThen] at failed
      cases applied : assignApply env changed entry.ass u with
      | returned => simp [applied] at failed
      | stopped => simp [applied] at failed
      | failed e v =>
        rw [applied] at failed
        cases failed
        exact assignApply_failed never (free _ (rval_mem_exprs (labelBlockSelect_mem selected))) table applied

/-- The loop that comes to the block and the loop without it. -/
private theorem tied_removed (calls : ∀ d id, Tied (removing b d) (changed id) (changed' id))
    (never : ∀ id u error t, changed id u ≠ .failed error t) {block : LabelBlock α}
    (free : ∀ e ∈ exprs (.label block), plain e = true) {key : Option String} {rest : List (Rule α)}
    (after : ∀ d, Tied (removing b d) (iterateRules env changed key (b+1) rest) (iterateRules env changed' key b rest)) (d : Int) :
    Tied (removing b d) (iterateRules env changed key b (.label block :: rest)) (iterateRules env changed' key b rest) := by
  have fits : ∀ ass ∈ assigns (.label block), plain ass.rval = true := fun ass member => free _ (rval_of_assigns member)
  have grows : ∀ s : EngineState α W,
      unfailed b s.log < unfailed b (labelBlockApply env changed block (s.note (.iterate b key))).state.log := by
    intro s
    have applied : Tied (removing b (unfailed b s.log)) (labelBlockApply env changed block) (labelBlockApply env changed' block) :=
      tied_ruleApply (keeps env b _) (calls _) fits
    refine applied.lasting _ ?_
    change unfailed b s.log < unfailed b (s.log ++ [.iterate b key])
    rw [unfailed_append]
    simp [unfailed,evaluates,failsUndefined]
  have shrinks : ∀ (error : StError) (log : List (Event α)), unfailed b log - 1 ≤ unfailed b (log ++ [.ruleFailed b error]) := by
    intro error log
    rw [unfailed_append]
    simp only [unfailed,List.countP_singleton]
    split <;> split <;> omega
  have failure : ∀ (error : StError) {s t : EngineState α W},
      labelBlockApply env changed block (s.note (.iterate b key)) = .failed error t →
      unfailed b s.log ≤ unfailed b (t.note (.ruleFailed b error)).log := by
    intro error s t called
    have more := grows s
    have less := shrinks error t.log
    rw [called] at more
    change unfailed b s.log < unfailed b t.log at more
    change unfailed b s.log ≤ unfailed b (t.log ++ [.ruleFailed b error])
    omega
  constructor
  · intro s s' related
    rw [iterateRules_cons]
    cases Rule.concerned env key s (.label block) with
    | none => exact .loose trivial
    | some concerned =>
      cases concerned with
      | false => exact (after d).matched s s' related
      | true =>
        have more := grows s
        simp only [Rule.apply]
        cases called : labelBlockApply env changed block (s.note (.iterate b key)) with
        | stopped => exact .loose trivial
        | returned _ t =>
          rw [called] at more
          exact .lost ((after d).lasting t (related.least.trans_lt more))
        | failed error t =>
          rw [called] at more
          by_cases undefined : error.code = .undefinedIdentifier
          · have table : PlainTable (s.note (.iterate b key)).vars := related.table
            rcases labelBlockApply_failed never free table called with rfl | ⟨invalid,_⟩
            · refine (after d).matched _ s' ⟨related.vars,related.mem,related.peers,?_,related.table,?_⟩
              · simp [related.acts,acts]
              · exact related.least.trans (failure error called)
            · rw [undefined] at invalid
              cases invalid
          · refine .lost ((after d).lasting _ ?_)
            change d < unfailed b (t.log ++ [.ruleFailed b error])
            rw [unfailed_ruleFailed (.inr undefined)]
            exact related.least.trans_lt more
  · intro s lost
    rw [iterateRules_cons]
    cases Rule.concerned env key s (.label block) with
    | none => exact lost
    | some concerned =>
      cases concerned with
      | false => exact (after d).lasting s lost
      | true =>
        have more := grows s
        simp only [Rule.apply]
        cases called : labelBlockApply env changed block (s.note (.iterate b key)) with
        | stopped t =>
          rw [called] at more
          exact lt_trans lost more
        | returned _ t =>
          rw [called] at more
          exact (after d).lasting t (lt_trans lost more)
        | failed error t => exact (after d).lasting _ (lt_of_lt_of_le lost (failure error called))

/-- The loops behind the block. -/
private theorem tied_behind (calls : ∀ d id, Tied (removing b d) (changed id) (changed' id)) {key : Option String} {back : List (Rule α)}
    (free : PlainRules back) (pos : Nat) (behind : b ≤ pos) (d : Int) :
    Tied (removing b d) (iterateRules env changed key (pos+1) back) (iterateRules env changed' key pos back) := by
  induction back generalizing pos with
  | nil => exact tied_returned ()
  | cons rule rest ih =>
    have fits : ∀ ass ∈ assigns rule, plain ass.rval = true :=
      fun ass member => free rule List.mem_cons_self _ (rval_of_assigns member)
    have after := ih (fun other member => free other (List.mem_cons_of_mem rule member)) (pos+1) (by omega)
    exact tied_iterateRules_cons (keeps env b d) (calls d) (loops d key (by omega)) fits after

/-- The loops from before the block on. -/
private theorem tied_front (calls : ∀ d id, Tied (removing b d) (changed id) (changed' id))
    (never : ∀ id u error t, changed id u ≠ .failed error t) {block : LabelBlock α} {key : Option String}
    {front back : List (Rule α)} (free : PlainRules (front ++ .label block :: back)) (pos : Nat) (here : pos + front.length = b)
    (d : Int) :
    Tied (removing b d) (iterateRules env changed key pos (front ++ .label block :: back))
      (iterateRules env changed' key pos (front ++ back)) := by
  induction front generalizing pos with
  | nil =>
    obtain rfl : pos = b := here
    have rest : PlainRules back := fun rule member => free rule (List.mem_cons_of_mem _ member)
    exact tied_removed calls never (free _ List.mem_cons_self) (tied_behind calls rest pos le_rfl) d
  | cons rule front ih =>
    have fits : ∀ ass ∈ assigns rule, plain ass.rval = true :=
      fun ass member => free rule List.mem_cons_self _ (rval_of_assigns member)
    simp only [List.length_cons] at here
    have after := ih (fun other member => free other (List.mem_cons_of_mem rule member)) (pos+1) (by omega)
    exact tied_iterateRules_cons (keeps env b d) (calls d) (loops d key (by omega)) fits after

omit [Gdouble α] [DecidableEq α] in
/-- The rules before and behind the label block at position `b`. -/
private theorem rules_split (engine : Engine α) {block : LabelBlock α} (at_b : engine.labels[b]? = some block) :
    ∃ front back, front.length = b ∧ engine.rules = front ++ .label block :: back ∧ (without engine b).rules = front ++ back := by
  obtain ⟨below,rfl⟩ := List.getElem?_eq_some_iff.mp at_b
  refine ⟨(engine.labels.take b).map .label,(engine.labels.drop (b+1)).map .label ++ engine.triggers.map .trigger,?_,?_,?_⟩
  · simp only [List.length_map,List.length_take]
    omega
  · have split : engine.labels = engine.labels.take b ++ engine.labels[b] :: engine.labels.drop (b+1) := by
      rw [List.cons_getElem_drop_succ,List.take_append_drop]
    unfold Engine.rules
    conv_lhs => rw [split]
    rw [List.map_append,List.map_cons,List.append_assoc,List.cons_append]
  · simp [Engine.rules,without,List.eraseIdx_eq_take_drop_succ]

private theorem engineApply_removing {engine : Engine α} {block : LabelBlock α} (program : PlainRules engine.rules)
    (at_b : engine.labels[b]? = some block) (env : Env α W) :
    ∀ n key d, Tied (removing b d) (engineApply env engine n key) (engineApply env (without engine b) n key) := by
  obtain ⟨front,back,here,all,others⟩ := rules_split engine at_b
  intro n
  induction n with
  | zero => exact fun _ _ => ⟨fun _ _ => .stopped,fun _ lost => lost⟩
  | succ n ih =>
    intro key d
    have calls : ∀ d id, Tied (removing b d) (engineApply env engine n (some id))
        (engineApply env (without engine b) n (some id)) := fun d id => ih (some id) d
    have never : ∀ id u error t, engineApply env engine n (some id) u ≠ .failed error t :=
      fun id u error t => engineApply_true env engine n (some id) u error t
    have free : PlainRules (front ++ .label block :: back) := all ▸ program
    have loop : Tied (removing b d) (iterateRules env (fun id => engineApply env engine n (some id)) key 0
        (front ++ .label block :: back))
        (iterateRules env (fun id => engineApply env (without engine b) n (some id)) key 0 (front ++ back)) :=
      tied_front calls never free 0 (by omega) d
    rw [← all,← others] at loop
    exact loop

omit [Gdouble α] [DecidableEq α] in
private theorem unfailed_alwaysFails {log : List (Event α)} (fails : AlwaysFails b log) : unfailed b log = 0 := by
  unfold AlwaysFails at fails
  simp [unfailed,fails]

private theorem without_unnoticed {engine : Engine α} {block : LabelBlock α} (program : PlainRules engine.rules)
    (table : PlainTable s.vars) (at_b : engine.labels[b]? = some block) {n : Nat} {key : Option String}
    (called : engineApply env engine n key s = .returned () t) (fails : AlwaysFails b (t.log.drop s.log.length)) :
    ∃ t', engineApply env (without engine b) n key s = .returned () t' ∧ t'.vars = t.vars ∧ t'.mem = t.mem ∧
      t'.peers = t.peers ∧ t'.log.filter acts = t.log.filter acts := by
  have ends := (engineApply_removing program at_b env n key (unfailed b s.log)).matched s s ⟨rfl,rfl,rfl,rfl,table,le_rfl⟩
  rw [called] at ends
  generalize engineApply env (without engine b) n key s = r' at ends ⊢
  have log : t.log = s.log ++ t.log.drop s.log.length := by
    have steps := engineApply_steps env engine n key s
    rw [called] at steps
    obtain ⟨later,same⟩ := steps_log steps
    change s.log ++ later = t.log at same
    rw [← same,List.drop_left]
  cases ends with
  | returned _ beside => exact ⟨_,rfl,beside.vars,beside.mem,beside.peers,beside.acts⟩
  | deaf never => exact never.elim
  | lost lost =>
    change unfailed b s.log < unfailed b t.log at lost
    rw [log,unfailed_append,unfailed_alwaysFails fails] at lost
    omega

end

/-! ### A failing assignment of a trigger -/

/-- The event as if every request had been answered TRUE. -/
def unanswered : Event α → Event α
  | .setOutput id v flags _ => .setOutput id v flags true
  | .setInput id v flags _ => .setInput id v flags true
  | event => event

/-- Since their logs were `base` and `base'` the two have acted alike: they have changed the
    same variables and made the same requests, and unless `d` they got the same answers. -/
structure Apart (d : Prop) (base base' : List (Event α)) (s s' : EngineState α W) : Prop where
  vars : s'.vars = s.vars
  mem : s'.mem = s.mem
  peers : d ∨ s'.peers = s.peers
  acted : ∃ later later', s.log = base ++ later ∧ s'.log = base' ++ later' ∧
    (later'.filter acts).map unanswered = (later.filter acts).map unanswered ∧
    (d ∨ later'.filter acts = later.filter acts)

/-- Two calls of the same engine that need not return the same. -/
def apart (d : Prop) (base base' : List (Event α)) : Tie α W W :=
  ⟨Apart d base base',fun _ => False,fun _ => True,False,True⟩

variable {base base' : List (Event α)} {answers : Prop}

private theorem apart_peers (w w' : W) (events events' : List (Event α)) (beside : Apart answers base base' s s')
    (same : (events'.filter acts).map unanswered = (events.filter acts).map unanswered)
    (heard : answers ∨ w' = w ∧ events'.filter acts = events.filter acts) :
    Apart answers base base' { s with peers := w, log := s.log ++ events } { s' with peers := w', log := s'.log ++ events' } := by
  obtain ⟨later,later',log,log',acted,exactly⟩ := beside.acted
  refine ⟨beside.vars,beside.mem,heard.imp_right And.left,later ++ events,later' ++ events',?_,?_,?_,?_⟩
  · simp only [log,List.append_assoc]
  · simp only [log',List.append_assoc]
  · rw [List.filter_append,List.filter_append,List.map_append,List.map_append,acted,same]
  · rcases exactly with deaf | exactly
    · exact .inl deaf
    · exact heard.imp_right fun ⟨_,same⟩ => by rw [List.filter_append,List.filter_append,exactly,same]

private theorem apart_note (events events' : List (Event α)) (beside : Apart answers base base' s s')
    (same : events'.filter acts = events.filter acts) :
    Apart answers base base' { s with log := s.log ++ events } { s' with log := s'.log ++ events' } :=
  apart_peers _ _ _ _ beside (by rw [same]) (beside.peers.imp_right fun peers => ⟨peers,same⟩)

private theorem apart_send {call : W → String → α → IoFlags → Bool × W} {event : String → α → IoFlags → Bool → Event α}
    (id : String) (v : α) (flags : IoFlags) (act : ∀ answer, acts (event id v flags answer) = true)
    (erased : ∀ answer, unanswered (event id v flags answer) = event id v flags true) (beside : Apart answers base base' s s') :
    Apart answers base base' (s.send call event id v flags) (s'.send call event id v flags) := by
  have sent := apart_peers (call s.peers id v flags).2 (call s'.peers id v flags).2
    [event id v flags (call s.peers id v flags).1] [event id v flags (call s'.peers id v flags).1] beside
  refine sent ?_ ?_
  · simp [act,erased]
  · exact beside.peers.imp_right fun peers => by rw [peers]; exact ⟨rfl,rfl⟩

private theorem remark_acts {event : Event α} (remark : Remark event) : acts event = false := by
  cases remark <;> rfl

private theorem keeps_apart (env : Env α W) : Keeps env env (apart answers base base') := by
  constructor
  case io | depth => rfl
  case vars => exact fun related => related.vars
  case mem => exact fun related => related.mem
  case remember => exact fun m related => ⟨related.vars,rfl,related.peers,related.acted⟩
  case note => exact fun event _ related => apart_note _ _ related rfl
  case remarkLeft =>
    intro s s' event _ remark related
    have noted := apart_note [event] [] related (by simp [remark_acts remark])
    rwa [List.append_nil] at noted
  case remarkRight =>
    intro s s' event _ remark related
    have noted := apart_note [] [event] related (by simp [remark_acts remark])
    rwa [List.append_nil] at noted
  case store =>
    intro s s' id e _ related
    have noted := apart_note [.varChanged id e] [.varChanged id e] related rfl
    refine ⟨?_,noted.mem,noted.peers,noted.acted⟩
    rw [store_vars,store_vars,related.vars]
  case setOutput => exact fun id v flags related => ⟨.inl trivial,apart_send id v flags (fun _ => rfl) (fun _ => rfl) related⟩
  case setInput => exact fun id v flags related => ⟨.inl trivial,apart_send id v flags (fun _ => rfl) (fun _ => rfl) related⟩
  case lostRemember | lostNote | lostStore | lostOutput | lostInput => intros; rename_i lost; exact lost

private theorem matched_over {r r' : Res (EngineState α W) (Option StError)} (ended : Over r)
    (ends : Matched (apart answers base base') r r') : Over r' ∧ Apart answers base base' r.state r'.state := by
  cases ends with
  | returned _ related => exact ⟨.returned _ _,related⟩
  | failed _ related => exact ⟨.failed _ _,related⟩
  | stopped => cases ended
  | loose loose => exact loose.elim
  | lost lost => exact lost.elim
  | deaf _ _ ended related => exact ⟨ended,related⟩

/-- Where the assignment has failed, the one engine has reported it and the other has not
    come to it. -/
private theorem failed_apart {env : Env α W} {ass : Assign α} {u failed : EngineState α W} {error : StError}
    (undone : failed = u ∨ error.code = .invalidValue ∧ Refused env u failed) :
    Apart (failed.peers ≠ u.peers) failed.log u.log (failed.note (.assignFailed ass.id error)) u := by
  have nowhere : u.vars = failed.vars ∧ u.mem = failed.mem := by
    rcases undone with rfl | ⟨_,refused⟩
    · exact ⟨rfl,rfl⟩
    · cases refused <;> exact ⟨rfl,rfl⟩
  refine ⟨nowhere.1,nowhere.2,?_,[.assignFailed ass.id error],[],rfl,by simp,by simp [acts],.inr (by simp [acts])⟩
  by_cases same : failed.peers = u.peers
  · exact .inr same.symm
  · exact .inl same

section
variable [Gdouble α] [DecidableEq α]

private theorem engineApply_apart (env : Env α W) (engine : Engine α) :
    ∀ n key, Tied (apart answers base base') (engineApply env engine n key) (engineApply env engine n key) := by
  intro n
  induction n with
  | zero => exact fun key => ⟨fun _ _ related => .stopped related,fun _ lost => lost⟩
  | succ n ih =>
    intro key
    refine tied_iterateRules (keeps_apart env) (fun id => ih (some id)) (fun pos => ⟨?_,?_,?_⟩) (fun _ _ _ _ => trivial) 0
    · exact fun related => apart_note _ _ related rfl
    · exact fun error related => apart_note _ _ related rfl
    · exact fun error lost => lost

/-- The handler of the variables, with `n` nested calls left. -/
def varChanged (env : Env α W) (engine : Engine α) (n : Nat) : Changed α W := fun id => engineApply env engine n (some id)

/-- The condition of the trigger is true, and behind the assignments `pre`, of which `first`
    is the first error, the assignment `ass` fails. -/
structure Failing (env : Env α W) (changed : Changed α W) (cond : Expr α) (pre : List (Assign α)) (ass : Assign α)
    (s : EngineState α W) (first : Option StError) (u : EngineState α W) (error : StError) (failed : EngineState α W) : Prop where
  holds : ∃ v t, evaluate env cond s = .returned v t ∧ truth v = true ∧ triggerAssigns env changed pre none t = .returned first u
  fails : assignApply env changed ass u = .failed error failed

variable {env : Env α W} {engine : Engine α} {changed : Changed α W} {cond : Expr α} {pre post : List (Assign α)} {ass : Assign α}
  {first : Option StError} {u failed : EngineState α W} {error : StError}

private theorem triggerAssigns_append (first : Option StError) :
    triggerAssigns env changed (pre ++ post) first s =
      (triggerAssigns env changed pre first s).andThen fun first t => triggerAssigns env changed post first t := by
  induction pre generalizing first s with
  | nil => rfl
  | cons ass rest ih =>
    simp only [List.cons_append,triggerAssigns]
    cases assignApply env changed ass s with
    | stopped => rfl
    | failed => exact ih _
    | returned => exact ih _

/-- The first error stays the first one. -/
private theorem triggerAssigns_keeps {asss : List (Assign α)} {result : Option StError}
    (returned : triggerAssigns env changed asss (some error) s = .returned result t) : result = some error := by
  induction asss generalizing s with
  | nil =>
    cases returned
    rfl
  | cons ass rest ih =>
    simp only [triggerAssigns] at returned
    cases called : assignApply env changed ass s with
    | stopped => simp [called] at returned
    | failed => exact ih (by simpa [called] using returned)
    | returned => exact ih (by simpa [called] using returned)

private theorem steps_plain (program : PlainRules engine.rules) (table : PlainTable s.vars) (steps : Steps env engine.rules s t) :
    PlainTable t.vars := by
  induction steps with
  | refl => exact table
  | tail _ last ih =>
    cases last with
    | action action => exact (action_plain program ih action).1 ▸ ih
    | store stores => exact store_plain program ih stores

/-- The trigger with the failing assignment and the one without it. -/
private theorem assignment_unnoticed {n j : Nat} (program : PlainRules engine.rules) (table : PlainTable s.vars)
    (at_j : engine.rules[j]? = some (.trigger ⟨cond,pre ++ ass :: post⟩))
    (failing : Failing env (varChanged env engine n) cond pre ass s first u error failed)
    (ended : Over (triggerApply env (varChanged env engine n) ⟨cond,pre ++ ass :: post⟩ s)) :
    (failed = u ∨ error.code = .invalidValue ∧ Refused env u failed) ∧ ∃ t r,
      triggerApply env (varChanged env engine n) ⟨cond,pre ++ ass :: post⟩ s = .failed (first.getD error) t ∧
      triggerApply env (varChanged env engine n) ⟨cond,pre ++ post⟩ s = r ∧ Over r ∧
      Apart (failed.peers ≠ u.peers) failed.log u.log t r.state := by
  obtain ⟨v,t,evaluated,truth,before⟩ := failing.holds
  have free := program _ (List.mem_of_getElem? at_j)
  have members : ∀ a ∈ pre ++ ass :: post, Assigns engine.rules j a := fun a member => ⟨_,at_j,member⟩
  obtain ⟨rfl,_⟩ := (evaluate_plain env table (free cond List.mem_cons_self)).1 v t evaluated
  have reached : Steps env engine.rules t (triggerAssigns env (varChanged env engine n) pre none t).state :=
    triggerAssigns_along id (fun j s id e stores _ => .head (.store stores) (engineApply_steps env engine n (some id) _))
      (fun a member => members a (List.mem_append_left _ member)) none
  rw [before] at reached
  have undone : failed = u ∨ error.code = .invalidValue ∧ Refused env u failed :=
    assignApply_failed (fun id u error t => engineApply_true env engine n (some id) u error t)
      (free _ (List.mem_cons_of_mem _ (List.mem_map_of_mem (by simp)))) (steps_plain program table reached) failing.fails
  refine ⟨undone,?_⟩
  have related : Apart (failed.peers ≠ u.peers) failed.log u.log (failed.note (.assignFailed ass.id error)) u :=
    failed_apart undone
  have handlers : ∀ id, Tied (apart (failed.peers ≠ u.peers) failed.log u.log) (varChanged env engine n id)
      (varChanged env engine n id) := fun id => engineApply_apart env engine n (some id)
  have fits : ∀ a ∈ post, (apart (W := W) (failed.peers ≠ u.peers) failed.log u.log).fit a.rval := fun _ _ => trivial
  have rest := (tied_triggerAssigns (keeps_apart env) handlers fits (first.or (some error)) first (.inl trivial)).matched
    _ _ related
  have full : triggerApply env (varChanged env engine n) ⟨cond,pre ++ ass :: post⟩ t = handle
      (triggerAssigns env (varChanged env engine n) post (first.or (some error)) (failed.note (.assignFailed ass.id error)))
      conclude .failed := by
    simp only [triggerApply_eq,evaluated,Res.andThen,truth,if_true,triggerAssigns_append,before,triggerAssigns,failing.fails]
  have skipped : triggerApply env (varChanged env engine n) ⟨cond,pre ++ post⟩ t =
      handle (triggerAssigns env (varChanged env engine n) post first u) conclude .failed := by
    simp only [triggerApply_eq,evaluated,Res.andThen,truth,if_true,triggerAssigns_append,before]
  have start : first.or (some error) = some (first.getD error) := by
    cases first <;> rfl
  rw [full] at ended
  rw [full,skipped]
  rw [start] at rest ended ⊢
  cases called : triggerAssigns env (varChanged env engine n) post (some (first.getD error))
      (failed.note (.assignFailed ass.id error)) with
  | stopped =>
    rw [called] at ended
    cases ended
  | failed => exact absurd called (triggerAssigns_true _ _)
  | returned result last =>
    obtain rfl := triggerAssigns_keeps called
    rw [called] at rest
    obtain ⟨ended,same⟩ := matched_over (.returned _ _) rest
    refine ⟨last,_,rfl,rfl,(over_conclude ended).1,?_⟩
    rw [(over_conclude ended).2]
    exact same

/-- A label block all of whose evaluations in a call fail for an undefined identifier might
    as well not be there. A failing assignment of a trigger has no effect, apart from the
    request that was refused, and the others have the effects that they have without it;
    the trigger fails with the first of the errors. -/
theorem errors_isolated (env : Env α W) (program : PlainRules engine.rules) (table : PlainTable s.vars) (n : Nat) :
    (∀ (b : Nat) block key t, engine.labels[b]? = some block → engineApply env engine n key s = .returned () t →
      AlwaysFails b (t.log.drop s.log.length) →
      ∃ t', engineApply env (without engine b) n key s = .returned () t' ∧ t'.vars = t.vars ∧ t'.mem = t.mem ∧
        t'.peers = t.peers ∧ t'.log.filter acts = t.log.filter acts) ∧
    (∀ (j : Nat) cond pre ass post first u error failed, engine.rules[j]? = some (Rule.trigger ⟨cond,pre ++ ass :: post⟩) →
      Failing env (varChanged env engine n) cond pre ass s first u error failed →
      Over (triggerApply env (varChanged env engine n) ⟨cond,pre ++ ass :: post⟩ s) →
      (failed = u ∨ error.code = .invalidValue ∧ Refused env u failed) ∧ ∃ t r,
        triggerApply env (varChanged env engine n) ⟨cond,pre ++ ass :: post⟩ s = .failed (first.getD error) t ∧
        triggerApply env (varChanged env engine n) ⟨cond,pre ++ post⟩ s = r ∧ Over r ∧
        Apart (failed.peers ≠ u.peers) failed.log u.log t r.state) :=
  ⟨fun _ _ _ _ at_b called fails => without_unnoticed program table at_b called fails,
    fun _ _ _ _ _ _ _ _ _ at_j failing ended => assignment_unnoticed program table at_j failing ended⟩

end

private def acceptAll : Bus ℚ Unit := ⟨fun w _ _ _ => (true,w),fun w _ _ _ => (true,w)⟩

/-- The mirrored objects: the output `lamp`. -/
private def lampEnv : Env ℚ Unit :=
  ⟨⟨fun _ => none,fun id => if id = "lamp" then some ⟨"lamp","",0,0,1,1,0,0⟩ else none⟩,acceptAll,1⟩

/-- `lamp { SET 1 WHEN ghost; } TRIGGER WHEN 1 SET nowhere = 1, seen = 1, lamp = 1;`. -/
private def ghostEngine : Engine ℚ :=
  ⟨[⟨[⟨.ref "ghost",⟨"lamp",.literal 1,0⟩⟩]⟩],
    [⟨.literal 1,[⟨"nowhere",.literal 1,0⟩,⟨"seen",.literal 1,0⟩,⟨"lamp",.literal 1,0⟩]⟩]⟩

/-- `VAR seen;`. -/
private def ghostStart : EngineState ℚ Unit :=
  ⟨fun id => if id = "seen" then some (.literal 0) else none,freshMem,(),[]⟩

/-- The block refers to nothing that exists and is never missed; the assignment to
    something that does not exist fails, and `seen` and `lamp` are set all the same. -/
theorem errors_isolated_ghost :
    (∃ t t', engineApply lampEnv ghostEngine 3 none ghostStart = .returned () t ∧ (t.log.filter acts).length = 2 ∧
      engineApply lampEnv (without ghostEngine 0) 3 none ghostStart = .returned () t' ∧
      t'.log.filter acts = t.log.filter acts) ∧
    ∃ error t, triggerApply lampEnv (varChanged lampEnv ghostEngine 3)
        ⟨.literal 1,[⟨"nowhere",.literal 1,0⟩,⟨"seen",.literal 1,0⟩,⟨"lamp",.literal 1,0⟩]⟩ ghostStart = .failed error t ∧
      error.code = .undefinedIdentifier := by
  have program : PlainRules ghostEngine.rules := by
    unfold PlainRules
    decide
  have table : PlainTable ghostStart.vars := by
    intro x e stored
    simp only [ghostStart] at stored
    split at stored
    · cases stored
      rfl
    · cases stored
  obtain ⟨block,assignment⟩ := errors_isolated lampEnv program table 3
  constructor
  · have fails : ∃ t, engineApply lampEnv ghostEngine 3 none ghostStart = .returned () t ∧ AlwaysFails 0 t.log ∧
        (t.log.filter acts).length = 2 := by
      refine ⟨_,rfl,?_,?_⟩
      · decide +kernel
      · decide +kernel
    obtain ⟨t,called,fails,two⟩ := fails
    obtain ⟨t',called',_,_,_,same⟩ := block 0 _ none t rfl called fails
    exact ⟨t,t',called,two,called',same⟩
  · have ended : Over (triggerApply lampEnv (varChanged lampEnv ghostEngine 3)
        ⟨.literal 1,[⟨"nowhere",.literal 1,0⟩,⟨"seen",.literal 1,0⟩,⟨"lamp",.literal 1,0⟩]⟩ ghostStart) := by
      exact .failed _ _
    have failing : Failing lampEnv (varChanged lampEnv ghostEngine 3) (.literal 1) [] ⟨"nowhere",.literal 1,0⟩ ghostStart none
        ghostStart ⟨.undefinedIdentifier,"cannot lookup identifier nowhere"⟩ ghostStart :=
      ⟨⟨1,ghostStart,rfl,by decide +kernel,rfl⟩,rfl⟩
    obtain ⟨_,t,_,failed,_⟩ := assignment 1 _ [] _ _ _ _ _ _ rfl failing ended
    exact ⟨_,t,failed,rfl⟩

end Starter.Isolation
