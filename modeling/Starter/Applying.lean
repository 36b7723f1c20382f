import Starter.Machine
import Starter.Loading

/-!
`engine_apply` on memory does what it does on trees, in whatever state of the variables and
of the nodes; it touches no cell that is not allocated, and every counter stays the number
of the pointers to its cell.
-/
namespace Starter.Applying
open Gdouble Objects Pointers Layout Building Loading Lib.Counting
open Expressions (Expr Mem Func Op Variables Outcome anyRef)
open Rules (Env Res Stored)
open Machine (either anyOf argsHaveRefTo haveRefWithin exprHaveRefTo funcHaveRefTo opHaveRefTo refHaveRefTo)

variable {α β γ W : Type} [Gdouble α] {t : Plan α} {m : Mem α} {h : Memory α} {owners rest : List Addr} {a : Addr}

/-! ### References to a name -/

/-- How a search in memory ends, by the answer of the one in the trees. -/
def told (h : Memory α) : Option Bool → Ends α Bool
  | some found => .done (.value found) h
  | none => .deeper

omit [Gdouble α] in
theorem either_told {x y : Run α Bool} {p : Option Bool} {ps : List (Option Bool)} (first : x h = told h p)
    (later : y h = told h (anyRef ps)) : either x y h = told h (anyRef (p :: ps)) := by
  simp only [either,Run.andThen,first]
  rcases p with _ | _ | _
  · rfl
  · exact later
  · rfl

omit [Gdouble α] in
theorem anyOf_told {xs : List (Run α Bool)} {ps : List (Option Bool)} (each : List.Forall₂ (fun p x => x h = told h p) ps xs) :
    anyOf xs h = told h (anyRef ps) := by
  induction each with
  | nil => rfl
  | cons first _ ih => exact either_told first ih

theorem anyRef_single (p : Option Bool) : anyRef [p] = p := by
  rcases p with _ | _ | _ <;> rfl

theorem anyRef_false (ps : List (Option Bool)) : anyRef (ps ++ [some false]) = anyRef ps := by
  induction ps with
  | nil => rfl
  | cons p ps ih => rcases p with _ | _ | _ <;> simp [anyRef,ih]

/-- The answer for a cell of the role. -/
def answer (f : Expr α → Option Bool) : Role α → Option Bool
  | .tree e => f e
  | .slot _ _ | .kept _ _ => some false

/-- A literal that a function node has of its own has no reference. -/
theorem answer_args {f : Expr α → Option Bool} (literal : ∀ v, f (.literal v) = some false) (k : Nat) (func : Func)
    (args : List (Expr α)) : anyRef ((argRoles m k func args).map (answer f)) =
      anyRef ((References.liveArgs m.captured k func args).map f) := by
  have trees : ∀ es : List (Expr α), (es.map Role.tree).map (answer f) = es.map f := fun es => List.map_map
  cases func with
  | eval =>
    cases captured : m.captured k with
    | none => simp only [argRoles,captured,trees,References.liveArgs,Option.isSome_none,Bool.false_eq_true,and_false,if_false]
    | some v =>
      simp only [argRoles,captured,List.map_cons,trees,References.liveArgs,Option.isSome_some,and_self,if_true]
      rfl
  | changed =>
    have same : (argRoles m k .changed args).map (answer f) = args.map f ++ [some false] := by
      rcases args with _ | ⟨e,_ | ⟨e',es⟩⟩
      · rfl
      · rfl
      · cases e' with
        | literal v =>
          simp only [argRoles,Parallel.initial,List.map_cons,List.cons_append,List.set_cons_succ,List.set_cons_zero,List.map_append,
            List.map_nil,trees,literal]
          rfl
        | _ => simp [argRoles,Parallel.initial,answer,trees]
    simp only [same,anyRef_false,References.liveArgs,reduceCtorEq,false_and,if_false]
  | min | max | round | limit =>
    simp only [argRoles,trees,References.liveArgs,reduceCtorEq,false_and,if_false]

omit [Gdouble α] in
/-- The calls for the arguments answer as those on the trees. -/
theorem args_told {k : Addr → Run α Bool} {f : Expr α → Option Bool} {as : List Addr} {func : Func} {cell : Cell (Node α)}
    (is : h.cells a = some cell) (content : cell.node = ⟨.func func as,none,none⟩)
    (each : ∀ b ∈ as, k b h = told h (answer f (t.role b))) : ∀ left i, as.length = i + left →
      argsHaveRefTo k a left i h = told h (anyRef (((as.drop i).map t.role).map (answer f))) := by
  intro left
  induction left with
  | zero =>
    intro i all
    rw [List.drop_of_length_le (by omega)]
    rfl
  | succ left ih =>
    intro i all
    have below : i < as.length := by omega
    rw [List.drop_eq_getElem_cons below,List.map_cons,List.map_cons]
    refine either_told ?_ (ih (i+1) (by omega))
    rw [pdata_eq is content,List.getElem?_eq_getElem below]
    exact each _ (List.getElem_mem below)

variable {vars : String → Option Addr} {trees : Variables α}

/-- `expr_have_ref_to` in one tree. -/
theorem haveRefWithin_told {k : Addr → Run α Bool} {k' : Expr α → Option Bool} (id : String) (world : World t m h owners)
    (table : Table t owners vars trees) (each : ∀ b e, b ∈ owners → t.role b = .tree e → k b h = told h (k' e)) :
    ∀ n b, t.rank b < n → Live h b →
      haveRefWithin k vars id n b h = told h (answer (Expressions.haveRefWith k' trees m.captured id) (t.role b)) := by
  intro n
  induction n with
  | zero => exact fun b deep => absurd deep (Nat.not_lt_zero _)
  | succ n ih =>
    rintro b deep ⟨cell,is⟩
    have fits := world.fits b cell is
    have inside : ∀ c ∈ children cell.node, haveRefWithin k vars id n c h =
        told h (answer (Expressions.haveRefWith k' trees m.captured id) (t.role c)) := by
      intro c child
      obtain ⟨live,lower⟩ := child_of world is child
      exact ih c (by omega) live
    rw [haveRefWithin,deref_eq is]
    cases role : t.role b with
    | slot k init =>
      rw [role] at fits
      rw [fits.2]
      rfl
    | kept k v =>
      rw [role] at fits
      rw [show cell.node = _ from fits]
      rfl
    | tree e =>
      rw [role] at fits
      cases e with
      | literal v =>
        rw [show cell.node = _ from fits]
        rfl
      | flag ref bit =>
        rw [show cell.node = _ from fits]
        rfl
      | ref ref =>
        rw [show cell.node = _ from fits]
        simp only [refHaveRefTo,answer,Expressions.haveRefWith,Expressions.refExprHaveRefTo]
        by_cases same : ref = id
        · rw [if_pos same,if_pos same]
          rfl
        · rw [if_neg same,if_neg same]
          cases known : vars ref with
          | none =>
            rw [table.absent ref known]
            rfl
          | some value =>
            obtain ⟨owner,e,stored,role'⟩ := table.stored ref value known
            rw [stored]
            exact each value e owner role'
      | op o l r =>
        obtain ⟨x,y,content,left,right⟩ := fits
        rw [content] at inside ⊢
        have first := inside x (by simp [children,Data.args])
        have second := inside y (by simp [children,Data.args])
        rw [left] at first
        rw [right] at second
        simp only [opHaveRefTo,answer,Expressions.haveRefWith]
        refine either_told ?_ ((?_ : _ = told h _).trans (congrArg (told h) (anyRef_single _).symm))
        · rw [deref_eq is,content]
          exact first
        · rw [deref_eq is,content]
          exact second
      | func node func args =>
        obtain ⟨place,blank,as,content,roles⟩ := fits
        rw [content] at inside ⊢
        have loop := args_told is content (fun b member => inside b (List.mem_append_left _ member)) as.length 0 (by simp)
        rw [List.drop_zero,roles,answer_args fun v => rfl] at loop
        simp only [answer,References.haveRefWith_func]
        rw [← loop]
        simp only [funcHaveRefTo]
        rw [deref_eq is,content]
        rfl

/-- `expr_have_ref_to` on memory answers as on the trees. -/
theorem exprHaveRefTo_told {id : String} (world : World t m h owners) (table : Table t owners vars trees) :
    ∀ (depth : Nat) (b : Addr) (e : Expr α), b ∈ owners → t.role b = .tree e →
      exprHaveRefTo vars id depth b h = told h (Expressions.exprHaveRefTo depth trees m.captured id e) := by
  intro depth
  induction depth with
  | zero => exact fun _ _ _ _ => rfl
  | succ depth ih =>
    intro b e owner role
    obtain ⟨cell,is⟩ := owner_live world.balanced owner
    have deep : t.rank b < h.fresh := (world.ranked b cell is).1.trans_lt (world.balanced.below b cell is)
    have within := haveRefWithin_told id world table ih h.fresh b deep ⟨cell,is⟩
    rw [role] at within
    exact within

/-! ### Setting a variable -/

/-- Memory in which only counts have been changed, and cells freed, is as planned. -/
theorem world_within {h' : Memory α} {owners' : List Addr} (world : World t m h owners) (within : Within h' h)
    (balanced : Balanced children h' owners') : World t m h' owners' := by
  refine ⟨balanced,ranked_within world.ranked within,fun a cell is => ?_⟩
  obtain ⟨cell',is',same⟩ := within.2 a cell is
  rw [← same]
  exact world.fits a cell' is'

/-- `st_var_set_value` compares the expressions, and passes its reference on to the new one. -/
theorem stVarSetValue_eq [DecidableEq α] {self value : Addr} {e e' : Expr α} {others : List Addr}
    (world : World t m h (self :: others)) (member : value ∈ others) (old : t.role self = .tree e) (new : t.role value = .tree e')
    (number : selfEqual e = true) (number' : selfEqual e' = true) :
    if Expressions.exprEqual m e e' then stVarSetValue self value h = some ((self,false),h)
    else ∃ h', stVarSetValue self value h = some ((value,true),h') ∧ World t m h' (value :: others) := by
  have equal := exprEqual_eq world (owner_live world.balanced List.mem_cons_self)
    (owner_live world.balanced (List.mem_cons_of_mem self member)) old new number number'
  rw [stVarSetValue,equal,Option.bind_some]
  split
  · rfl
  · obtain ⟨cell,is⟩ := owner_live world.balanced List.mem_cons_self
    have deep : t.rank self < h.fresh := (world.ranked self cell is).1.trans_lt (world.balanced.below self cell is)
    obtain ⟨h₁,released,balanced,within⟩ := release_balanced h.fresh self h others world.ranked world.balanced deep
    have world₁ := world_within world within balanced
    obtain ⟨cell',is'⟩ := owner_live balanced member
    obtain ⟨retained,balanced'⟩ := retain_balanced balanced is'
    have within' : Within (h₁.set value (some { cell' with nref := cell'.nref + 1 })) h₁ := by
      refine ⟨rfl,fun b other there => ?_⟩
      by_cases same : b = value
      · subst same
        rw [set_self] at there
        obtain rfl := Option.some.inj there
        exact ⟨cell',is',rfl⟩
      · rw [set_other same] at there
        exact ⟨other,there,rfl⟩
    refine ⟨_,?_,world_within world₁ within' balanced'⟩
    rw [exprUnref,exprUnrefWithin_eq,released,Option.bind_some,exprRef,retained,Option.map_some]

/-! ### The engine -/

/-- A report on memory and the one on trees. -/
inductive Tells (t : Plan α) : Rules.Event α → Machine.Event α → Prop
  | told (event : Rules.Event α) : Tells t event (.told event)
  | varChanged {id : String} {e : Expr α} {a : Addr} (role : t.role a = .tree e) : Tells t (.varChanged id e) (.varChanged id a)

/-- The engine on memory is where the one on trees is; `rest` are the pointers of the rules, and
    those that are lost. -/
structure Shows (t : Plan α) (rest : List Addr) (s : Rules.EngineState α W) (s' : Machine.EngineState α W) : Prop where
  world : World t s.mem s'.memory (s'.vars.map Prod.snd ++ rest)
  vars : ∀ x, Option.Rel (fun e a => t.role a = .tree e) (s.vars x) (s'.vars.lookup x)
  keys : (s'.vars.map Prod.fst).Nodup
  numbers : ∀ a ∈ s'.vars.map Prod.snd ++ rest, ∀ e, t.role a = .tree e → selfEqual e = true
  peers : s'.peers = s.peers
  log : List.Forall₂ (Tells t) s.log s'.log
  sound : s'.fault = false

/-- The calls end alike. -/
inductive Agree {σ σ' : Type} (R : σ → σ' → Prop) (Q : β → γ → Prop) : Res σ β → Res σ' γ → Prop
  | returned {b : β} {c : γ} {s : σ} {s' : σ'} (result : Q b c) (state : R s s') : Agree R Q (.returned b s) (.returned c s')
  | failed (e : StError) {s : σ} {s' : σ'} (state : R s s') : Agree R Q (.failed e s) (.failed e s')
  | stopped {s : σ} {s' : σ'} (state : R s s') : Agree R Q (.stopped s) (.stopped s')

theorem agree_andThen {σ σ' β' γ' : Type} {R : σ → σ' → Prop} {Q : β → γ → Prop} {Q' : β' → γ' → Prop} {x : Res σ β} {y : Res σ' γ}
    {f : β → σ → Res σ β'} {g : γ → σ' → Res σ' γ'} (first : Agree R Q x y)
    (later : ∀ b c s s', Q b c → R s s' → Agree R Q' (f b s) (g c s')) : Agree R Q' (x.andThen f) (y.andThen g) := by
  cases first with
  | returned result state => exact later _ _ _ _ result state
  | failed e state => exact .failed e state
  | stopped state => exact .stopped state

variable {s : Rules.EngineState α W} {s' : Machine.EngineState α W}

theorem shows_note (shows : Shows t rest s s') (event : Rules.Event α) : Shows t rest (s.note event) (s'.note event) :=
  ⟨shows.world,shows.vars,shows.keys,shows.numbers,shows.peers,List.rel_append shows.log (.cons (.told event) .nil),shows.sound⟩

theorem shows_table (shows : Shows t rest s s') : Table t (s'.vars.map Prod.snd ++ rest) (s'.vars.lookup ·) s.vars := by
  refine ⟨fun x a known => ?_,fun x unknown => ?_⟩
  · have rel := shows.vars x
    rw [known] at rel
    generalize s.vars x = stored at rel
    cases rel with
    | some role => exact ⟨List.mem_append_left _ (lookup_owner known),_,rfl,role⟩
  · have rel := shows.vars x
    rw [unknown] at rel
    generalize s.vars x = stored at rel
    cases rel
    rfl

/-- The pointer is one of a rule, to its expression. -/
def Given (t : Plan α) (rest : List Addr) (e : Expr α) (a : Addr) : Prop := a ∈ rest ∧ t.role a = .tree e

theorem evaluate_agrees {env : Env α W} {e : Expr α} (shows : Shows t rest s s') (given : Given t rest e a) :
    Agree (Shows t rest) Eq (Rules.evaluate env e s) (Machine.evaluate env a s') := by
  have alike : Alike t _ s'.memory (exprEval env.io _ env.depth a s'.memory) _ :=
    refines_exprEval (shows_table shows) env.depth a e given.2 s.mem s'.memory shows.world
      fun b same => same ▸ owner_live shows.world.balanced (List.mem_append_right _ given.1)
  simp only [Rules.evaluate,Machine.evaluate,Machine.onMemory]
  generalize exprEval env.io (s'.vars.lookup ·) env.depth a s'.memory = ended at alike
  generalize Expressions.exprEval env.depth env.io s.vars e s.mem = answered at alike
  cases alike with
  | deeper => exact .stopped shows
  | undefined => exact .stopped shows
  | @defined out h' m' isDefined world keeps =>
    have after : Shows t rest { s with mem := m' } { s' with memory := h' } :=
      ⟨world,shows.vars,shows.keys,shows.numbers,shows.peers,shows.log,shows.sound⟩
    cases out with
    | value v => exact .returned rfl after
    | error e => exact .failed e after
    | undefined => exact absurd rfl isDefined

/-- An assignment of a rule. -/
structure AssignGiven (t : Plan α) (rest : List Addr) (ass : Rules.Assign α) (ass' : Assign) : Prop where
  stands : AssignStands t ass ass'
  member : ass'.rval ∈ rest

omit [Gdouble α] in
theorem assign_given {ass : Rules.Assign α} {ass' : Assign} (given : AssignGiven t rest ass ass') : Given t rest ass.rval ass'.rval :=
  ⟨given.member,given.stands.rval⟩

theorem send_shows {call : W → String → α → IoFlags → Bool × W} {event : String → α → IoFlags → Bool → Rules.Event α} {id : String}
    {val : α} {flags : IoFlags} (shows : Shows t rest s s') : Shows t rest (s.send call event id val flags) (s'.send call event id val flags) := by
  simp only [Rules.EngineState.send,Machine.EngineState.send,shows.peers]
  have shows' : Shows t rest { s with peers := (call s.peers id val flags).2 } { s' with peers := (call s.peers id val flags).2 } :=
    ⟨shows.world,shows.vars,shows.keys,shows.numbers,rfl,shows.log,shows.sound⟩
  exact shows_note shows' _

theorem request_agrees {call : W → String → α → IoFlags → Bool × W} {event : String → α → IoFlags → Bool → Rules.Event α}
    {error id : String} {val : α} {flags : IoFlags} (shows : Shows t rest s s') :
    Agree (Shows t rest) Eq (Rules.request call event error id val flags s) (Machine.request call event error id val flags s') := by
  simp only [Rules.request,Machine.request,shows.peers]
  split
  · exact .returned rfl (send_shows shows)
  · exact .failed _ (send_shows shows)

theorem assignFlagOf_agrees {call : W → String → α → IoFlags → Bool × W} {event : String → α → IoFlags → Bool → Rules.Event α}
    {error : String} {ass : Rules.Assign α} {ass' : Assign} {obj : IoObject α} {exprRes : α} (stands : AssignStands t ass ass')
    (shows : Shows t rest s s') :
    Agree (Shows t rest) Eq (Rules.assignFlagOf call event error ass obj exprRes s)
      (Machine.assignFlagOf call event error ass' obj exprRes s') := by
  simp only [Rules.assignFlagOf,Machine.assignFlagOf,stands.id,stands.flagBit]
  split
  · exact .returned rfl (shows_note shows _)
  · exact request_agrees shows

theorem assignApplyFlag_agrees {env : Env α W} {ass : Rules.Assign α} {ass' : Assign} (given : AssignGiven t rest ass ass')
    (shows : Shows t rest s s') :
    Agree (Shows t rest) Eq (Rules.assignApplyFlag env ass s) (Machine.assignApplyFlag env ass' s') := by
  simp only [Rules.assignApplyFlag,Machine.assignApplyFlag,given.stands.id,given.stands.flagBit]
  split
  · exact .returned rfl (shows_note shows _)
  · refine agree_andThen (evaluate_agrees shows (assign_given given)) fun v v' s s' same shows => ?_
    subst same
    cases env.io.outputs ass.id with
    | some out => exact assignFlagOf_agrees given.stands shows
    | none =>
      cases env.io.inputs ass.id with
      | some input => exact assignFlagOf_agrees given.stands shows
      | none => exact .failed _ shows

theorem assignOutput_agrees {env : Env α W} {ass : Rules.Assign α} {ass' : Assign} {output : IoObject α}
    (given : AssignGiven t rest ass ass') (shows : Shows t rest s s') :
    Agree (Shows t rest) Eq (Rules.assignOutput env ass output s) (Machine.assignOutput env ass' output s') := by
  refine agree_andThen (evaluate_agrees shows (assign_given given)) fun v v' s s' same shows => ?_
  subst same
  simp only [given.stands.id]
  split
  · exact .returned rfl (shows_note shows _)
  · split
    · exact .returned rfl (shows_note shows _)
    · exact request_agrees shows

/-- A variable is set. -/
theorem store_shows {id : String} {old value : Addr} {e : Expr α} {h : Memory α} {others : List Addr} (shows : Shows t rest s s')
    (known : s'.vars.lookup id = some old) (given : Given t rest e value) (before : (s'.vars.map Prod.snd).Perm (old :: others))
    (values : ((Lib.Tables.replace s'.vars id value).map Prod.snd).Perm (value :: others))
    (world : World t s.mem h (value :: (others ++ rest))) : Shows t rest (s.store id e) (s'.store id value h) := by
  refine ⟨⟨balanced_perm world.balanced (values.symm.append_right rest),world.ranked,world.fits⟩,fun x => ?_,?_,fun a member e' role => ?_,
    shows.peers,List.rel_append shows.log (.cons (.varChanged given.2) .nil),shows.sound⟩
  · simp only [Rules.store_vars,Machine.EngineState.store,Lib.Tables.lookup_replace]
    by_cases same : x = id
    · subst same
      simp only [Function.update_self,known,Option.map_some,if_true]
      exact .some given.2
    · simp only [Function.update_of_ne same,if_neg same,Option.map_id']
      exact shows.vars x
  · simp only [Machine.EngineState.store,Lib.Tables.keys_replace]
    exact shows.keys
  · refine shows.numbers a ?_ e' role
    rcases List.mem_append.mp member with stored | member
    · rcases List.mem_cons.mp (values.mem_iff.mp stored) with rfl | other
      · exact List.mem_append_right _ given.1
      · exact List.mem_append_left _ (before.mem_iff.mpr (List.mem_cons_of_mem old other))
    · exact List.mem_append_right _ member

variable [DecidableEq α]

theorem assignVar_agrees {ass : Rules.Assign α} {ass' : Assign} {old : Addr} {value : Expr α} (given : AssignGiven t rest ass ass')
    (shows : Shows t rest s s') (known : s'.vars.lookup ass.id = some old) (role : t.role old = .tree value) :
    Agree (Shows t rest) Eq
      (if Expressions.exprEqual s.mem value ass.rval then .returned (.quiet false) (s.note (.varUnchanged ass.id))
        else .returned (.changed ass.id) (s.store ass.id ass.rval))
      (Machine.assignVar ass' old s') := by
  obtain ⟨others,before,after⟩ := Lib.Tables.values_replace shows.keys known ass'.rval
  have world : World t s.mem s'.memory (old :: (others ++ rest)) :=
    ⟨balanced_perm shows.world.balanced (before.append_right rest),shows.world.ranked,shows.world.fits⟩
  have set := stVarSetValue_eq world (List.mem_append_right _ given.member) role given.stands.rval
    (shows.numbers old (List.mem_append_left _ (lookup_owner known)) value role)
    (shows.numbers ass'.rval (List.mem_append_right _ given.member) ass.rval given.stands.rval)
  simp only [Machine.assignVar]
  split at set
  next equal =>
    rw [if_pos equal,set,given.stands.id]
    exact .returned rfl (shows_note shows _)
  next different =>
    obtain ⟨h',done,world'⟩ := set
    rw [if_neg different,done,given.stands.id]
    exact .returned rfl (store_shows shows known (assign_given given) before after world')

theorem assignStore_agrees {env : Env α W} {ass : Rules.Assign α} {ass' : Assign} (given : AssignGiven t rest ass ass')
    (shows : Shows t rest s s') : Agree (Shows t rest) Eq (Rules.assignStore env ass s) (Machine.assignStore env ass' s') := by
  simp only [Rules.assignStore,Machine.assignStore,given.stands.flagBit,given.stands.id]
  split
  · exact assignApplyFlag_agrees given shows
  · cases env.io.outputs ass.id with
    | some output => exact assignOutput_agrees given shows
    | none =>
      have rel := shows.vars ass.id
      cases known : s'.vars.lookup ass.id with
      | none =>
        rw [known] at rel
        cases stored : s.vars ass.id with
        | none => exact .failed _ shows
        | some value =>
          rw [stored] at rel
          cases rel
      | some old =>
        rw [known] at rel
        cases stored : s.vars ass.id with
        | none =>
          rw [stored] at rel
          cases rel
        | some value =>
          rw [stored] at rel
          cases rel with
          | some role => exact assignVar_agrees given shows known role

/-- The handlers of the variables do alike. -/
def Handles (t : Plan α) (rest : List Addr) (changed : Rules.Changed α W) (changed' : Machine.Changed α W) : Prop :=
  ∀ id s s', Shows t rest s s' → Agree (Shows t rest) Eq (changed id s) (changed' id s')

variable {env : Env α W} {changed : Rules.Changed α W} {changed' : Machine.Changed α W}

theorem assignApply_agrees {ass : Rules.Assign α} {ass' : Assign} (handles : Handles t rest changed changed')
    (given : AssignGiven t rest ass ass') (shows : Shows t rest s s') :
    Agree (Shows t rest) Eq (Rules.assignApply env changed ass s) (Machine.assignApply env changed' ass' s') := by
  refine agree_andThen (assignStore_agrees given shows) fun stored stored' s s' same shows => ?_
  subst same
  cases stored with
  | quiet didApply => exact .returned rfl shows
  | changed id => exact agree_andThen (handles id s s' shows) fun _ _ s s' _ shows => .returned rfl shows

structure EntryGiven (t : Plan α) (rest : List Addr) (entry : Rules.LabelEntry α) (entry' : LabelEntry) : Prop where
  cond : Given t rest entry.cond entry'.cond
  ass : AssignGiven t rest entry.ass entry'.ass

omit [DecidableEq α] in
theorem labelBlockSelect_agrees {entries : List (Rules.LabelEntry α)} {entries' : List LabelEntry}
    (given : List.Forall₂ (EntryGiven t rest) entries entries') (shows : Shows t rest s s') :
    Agree (Shows t rest) (Option.Rel (EntryGiven t rest)) (Rules.labelBlockSelect env entries s)
      (Machine.labelBlockSelect env entries' s') := by
  induction given generalizing s s' with
  | nil => exact .returned .none shows
  | @cons entry entry' entries entries' first _ ih =>
    refine agree_andThen (evaluate_agrees shows first.cond) fun v v' s s' same shows => ?_
    subst same
    split
    · exact .returned (.some first) shows
    · exact ih shows

theorem labelBlockApply_agrees {block : Rules.LabelBlock α} {block' : LabelBlock} (handles : Handles t rest changed changed')
    (given : List.Forall₂ (EntryGiven t rest) block.entries block'.entries) (shows : Shows t rest s s') :
    Agree (Shows t rest) Eq (Rules.labelBlockApply env changed block s) (Machine.labelBlockApply env changed' block' s') := by
  refine agree_andThen (labelBlockSelect_agrees given shows) fun selected selected' s s' related shows => ?_
  cases related with
  | none => exact .returned rfl shows
  | @some entry entry' first =>
    refine agree_andThen (assignApply_agrees handles first.ass shows) fun didApply didApply' s s' same shows => ?_
    subst same
    rw [first.ass.stands.id]
    refine .returned rfl ?_
    split
    · exact shows_note shows _
    · exact shows

theorem triggerAssigns_agrees {as : List (Rules.Assign α)} {as' : List Assign} (handles : Handles t rest changed changed')
    (given : List.Forall₂ (AssignGiven t rest) as as') : ∀ (firstError : Option StError) (s : Rules.EngineState α W)
      (s' : Machine.EngineState α W), Shows t rest s s' →
        Agree (Shows t rest) Eq (Rules.triggerAssigns env changed as firstError s) (Machine.triggerAssigns env changed' as' firstError s') := by
  induction given with
  | nil => exact fun firstError s s' shows => .returned rfl shows
  | @cons ass ass' as as' first _ ih =>
    intro firstError s s' shows
    have applied : Agree (Shows t rest) Eq (Rules.assignApply env changed ass s) _ := assignApply_agrees handles first shows
    simp only [Rules.triggerAssigns,Machine.triggerAssigns,first.stands.id]
    generalize Rules.assignApply env changed ass s = done at applied
    generalize Machine.assignApply env changed' ass' s' = done' at applied
    cases applied with
    | @returned didApply didApply' s s' same shows =>
      subst same
      refine ih _ _ _ ?_
      split
      · exact shows_note shows _
      · exact shows
    | failed error shows => exact ih _ _ _ (shows_note shows _)
    | stopped shows => exact .stopped shows

structure TriggerGiven (t : Plan α) (rest : List Addr) (trigger : Rules.Trigger α) (trigger' : Trigger) : Prop where
  cond : Given t rest trigger.cond trigger'.cond
  ass : List.Forall₂ (AssignGiven t rest) trigger.ass trigger'.ass

theorem triggerApply_agrees {trigger : Rules.Trigger α} {trigger' : Trigger} (handles : Handles t rest changed changed')
    (given : TriggerGiven t rest trigger trigger') (shows : Shows t rest s s') :
    Agree (Shows t rest) Eq (Rules.triggerApply env changed trigger s) (Machine.triggerApply env changed' trigger' s') := by
  refine agree_andThen (evaluate_agrees shows given.cond) fun v v' s s' same shows => ?_
  subst same
  split
  · refine agree_andThen (triggerAssigns_agrees handles given.ass none s s' shows) fun firstError firstError' s s' same shows => ?_
    subst same
    cases firstError with
    | none => exact .returned rfl shows
    | some error => exact .failed error shows
  · exact .returned rfl shows

/-- A rule in memory and the one that it is. -/
inductive RuleGiven (t : Plan α) (rest : List Addr) : Rules.Rule α → Machine.Rule → Prop
  | label {block : Rules.LabelBlock α} {block' : LabelBlock} (given : List.Forall₂ (EntryGiven t rest) block.entries block'.entries) :
    RuleGiven t rest (.label block) (.label block')
  | trigger {trigger : Rules.Trigger α} {trigger' : Trigger} (given : TriggerGiven t rest trigger trigger') :
    RuleGiven t rest (.trigger trigger) (.trigger trigger')

variable {rule : Rules.Rule α} {rule' : Machine.Rule}

theorem ruleApply_agrees (handles : Handles t rest changed changed') (given : RuleGiven t rest rule rule') (shows : Shows t rest s s') :
    Agree (Shows t rest) Eq (rule.apply env changed s) (rule'.apply env changed' s') := by
  cases given with
  | label given => exact labelBlockApply_agrees handles given shows
  | trigger given => exact triggerApply_agrees handles given shows

omit [DecidableEq α] in
theorem haveRefTo_told (id : String) (given : RuleGiven t rest rule rule') (shows : Shows t rest s s') :
    rule'.haveRefTo (exprHaveRefTo (s'.vars.lookup ·) id env.depth) s'.memory =
      told s'.memory (rule.haveRefTo env.depth s.vars s.mem.captured id) := by
  have each : ∀ {a e}, Given t rest e a → exprHaveRefTo (s'.vars.lookup ·) id env.depth a s'.memory =
      told s'.memory (Expressions.exprHaveRefTo env.depth s.vars s.mem.captured id e) := by
    intro a e given
    exact exprHaveRefTo_told shows.world (shows_table shows) env.depth a e (List.mem_append_right _ given.1) given.2
  cases given with
  | label given =>
    refine anyOf_told (List.forall₂_map_left_iff.mpr (List.forall₂_map_right_iff.mpr (given.imp fun entry entry' given => ?_)))
    exact either_told (each given.cond) ((each (assign_given given.ass)).trans (congrArg _ (anyRef_single _).symm))
  | trigger given =>
    refine either_told (each given.cond) (anyOf_told ?_)
    exact List.forall₂_map_left_iff.mpr (List.forall₂_map_right_iff.mpr (given.ass.imp fun ass ass' given => each (assign_given given)))

omit [DecidableEq α] in
theorem concerned_cases (id : Option String) (given : RuleGiven t rest rule rule') (shows : Shows t rest s s') :
    rule.concerned env id s = none ∧ rule'.concerned env id s' = .stopped s' ∨
      ∃ yes, rule.concerned env id s = some yes ∧ rule'.concerned env id s' = .returned yes s' := by
  cases id with
  | none => exact .inr ⟨true,rfl,rfl⟩
  | some id =>
    have refers : rule'.haveRefTo (exprHaveRefTo (s'.vars.lookup ·) id env.depth) s'.memory = _ := haveRefTo_told id given shows
    simp only [Rules.Rule.concerned,Machine.Rule.concerned,Machine.onMemory,refers]
    cases rule.haveRefTo env.depth s.vars s.mem.captured id with
    | none => exact .inl ⟨rfl,rfl⟩
    | some yes => exact .inr ⟨yes,rfl,rfl⟩

theorem iterateRules_agrees {rules : List (Rules.Rule α)} {rules' : List Machine.Rule} (handles : Handles t rest changed changed')
    (given : List.Forall₂ (RuleGiven t rest) rules rules') : ∀ (id : Option String) (pos : Nat) (s : Rules.EngineState α W)
      (s' : Machine.EngineState α W), Shows t rest s s' →
        Agree (Shows t rest) Eq (Rules.iterateRules env changed id pos rules s) (Machine.iterateRules env changed' id pos rules' s') := by
  induction given with
  | nil => exact fun id pos s s' shows => .returned rfl shows
  | @cons rule rule' rules rules' first _ ih =>
    intro id pos s s' shows
    simp only [Rules.iterateRules,Machine.iterateRules]
    rcases concerned_cases id first shows with ⟨deep,stops⟩ | ⟨yes,known,answers⟩
    · rw [deep,stops]
      exact .stopped shows
    · rw [known,answers]
      cases yes with
      | false => exact ih _ _ _ _ shows
      | true =>
        simp only [Res.andThen,if_true]
        have applied : Agree (Shows t rest) Eq (rule.apply env changed _) _ := ruleApply_agrees handles first (shows_note shows (.iterate pos id))
        generalize rule.apply env changed (s.note (.iterate pos id)) = done at applied ⊢
        generalize rule'.apply env changed' (s'.note (.iterate pos id)) = done' at applied ⊢
        cases applied with
        | returned _ shows => exact ih _ _ _ _ shows
        | failed error shows => exact ih _ _ _ _ (shows_note shows _)
        | stopped shows => exact .stopped shows

/-- `engine_apply` on memory does what it does on trees. -/
theorem engineApply_agrees {engine : Rules.Engine α} {engine' : Machine.Engine} (given : List.Forall₂ (RuleGiven t rest) engine.rules engine'.rules) :
    ∀ (n : Nat) (id : Option String) (s : Rules.EngineState α W) (s' : Machine.EngineState α W), Shows t rest s s' →
      Agree (Shows t rest) Eq (Rules.engineApply env engine n id s) (Machine.engineApply env engine' n id s') := by
  intro n
  induction n with
  | zero => exact fun id s s' shows => .stopped shows
  | succ n ih => exact fun id s s' shows => iterateRules_agrees (fun name s s' shows => ih (some name) s s' shows) given id 0 s s' shows

end Starter.Applying
