import Starter.Applying

/-!
The memory of the engine from the rules file to any later time. The parser and the engine
work on it as on trees; no cell is touched that has been freed, every counter is the number
of the pointers to its cell, and what is allocated is what some pointer leads to.
-/
namespace Starter.Ownership
open Gdouble Objects Pointers Layout Building Loading Applying Lib.Counting Lexer
open Expressions (Expr Mem freshMem)
open Rules (Env Res)

variable {α W : Type}

/-- A call of `engine_apply`: what it runs on, how deep it is called again from inside itself,
    the name it is called for, and what has become of the peers before it. -/
structure Call (α W : Type) where
  env : Env α W
  nest : Nat
  key : Option String
  peers : W

/-- The engine that the parser leaves, and its pointers. -/
def loadedEngine (s : Build α) : Machine.Engine := ⟨s.labels,s.triggers⟩

def loaded (s : Build α) (peers : W) : Machine.EngineState α W := ⟨s.vars,s.memory,peers,[],false⟩

def ruleOwners (engine : Machine.Engine) : List Addr := engine.labels.flatMap LabelBlock.owners ++ engine.triggers.flatMap Trigger.owners

/-- The engine of the trees before it is called. -/
def start (p : Rules.Program α) (peers : W) : Rules.EngineState α W := ⟨Rules.initialTable p.decls,freshMem,peers,[]⟩

section
variable [Gdouble α]

/-- The calls one after the other, as long as they end. -/
def serveInMemory (engine : Machine.Engine) : List (Call α W) → Machine.EngineState α W → Res (Machine.EngineState α W) Unit
  | [], s => .returned () s
  | c :: rest, s =>
    match Machine.engineApply c.env engine c.nest c.key { s with peers := c.peers } with
    | .returned _ s => serveInMemory engine rest s
    | .failed _ s => serveInMemory engine rest s
    | .stopped s => .stopped s

/-- The state of the engine's memory is in order: nothing that is not allocated has been
    touched, counters are numbers of pointers, and what is allocated can be reached from a
    variable, a rule or what is lost. -/
structure Sound (engine : Machine.Engine) (lost : List Addr) (s : Machine.EngineState α W) : Prop where
  sound : s.fault = false
  counted : ∀ a, s.memory.nref a = (s.vars.map Prod.snd ++ (ruleOwners engine ++ lost)).count a + edges children s.memory a
  live : ∀ a, Live s.memory a ↔ Reachable children s.memory (s.vars.map Prod.snd ++ (ruleOwners engine ++ lost)) a

/-- The literals of a text are no NaN. -/
theorem lex_numbers (numeric : Numeric α) {text : List Char} : ∀ v : α, .value v ∈ lex text → eq v v = true := by
  intro v member
  obtain ⟨t,_,same⟩ := List.mem_map.mp member
  cases t with
  | value literal =>
    cases same
    cases literal with
    | number word => exact numeric _
    | truth b => cases b <;> exact numeric _
  | _ => cases same

variable {t : Plan α} {rest : List Addr} {s : Actions.Build α} {s' : Build α}

omit [Gdouble α] in
theorem assigns_given {as : List (Rules.Assign α)} {as' : List Assign} (stands : List.Forall₂ (AssignStands t) as as')
    (inside : ∀ b ∈ as'.map Assign.rval, b ∈ rest) : List.Forall₂ (AssignGiven t rest) as as' := by
  rw [List.map_eq_flatMap] at inside
  exact forall₂_owners stands inside fun _ _ stands inside => ⟨stands,inside _ List.mem_cons_self⟩

omit [Gdouble α] in
theorem entries_given {es : List (Rules.LabelEntry α)} {es' : List LabelEntry} (stands : List.Forall₂ (EntryStands t) es es')
    (inside : ∀ b ∈ es'.flatMap LabelEntry.owners, b ∈ rest) : List.Forall₂ (EntryGiven t rest) es es' :=
  forall₂_owners stands inside fun _ _ stands inside =>
    ⟨⟨inside _ List.mem_cons_self,stands.cond⟩,stands.ass,inside _ (List.mem_cons_of_mem _ List.mem_cons_self)⟩

omit [Gdouble α] in
/-- The rules that the parser has built. -/
theorem rules_given (engine : Engine t s s') (inside : ∀ b ∈ ruleOwners (loadedEngine s'), b ∈ rest) :
    List.Forall₂ (RuleGiven t rest) s.program.engine.rules (loadedEngine s').rules := by
  rw [ruleOwners,List.forall_mem_append] at inside
  refine List.rel_append (List.forall₂_map_left_iff.mpr (List.forall₂_map_right_iff.mpr ?_))
    (List.forall₂_map_left_iff.mpr (List.forall₂_map_right_iff.mpr ?_))
  · exact forall₂_owners engine.labels inside.1 fun _ _ stands inside => .label (entries_given stands inside)
  · exact forall₂_owners engine.triggers inside.2 fun _ _ stands inside =>
      .trigger ⟨⟨inside _ List.mem_cons_self,stands.cond⟩,assigns_given stands.ass fun b member => inside b (List.mem_cons_of_mem _ member)⟩

/-- What the engine starts with in memory. -/
theorem loaded_shows (grown : Grown t s.nodes s'.memory (buildOwners s')) (engine : Engine t s s') (peers : W) :
    Shows t (ruleOwners (loadedEngine s') ++ s'.lost) (start s.program peers) (loaded s' peers) := by
  have perm : (buildOwners s').Perm (s'.vars.map Prod.snd ++ (ruleOwners (loadedEngine s') ++ s'.lost)) := by
    refine List.perm_iff_count.mpr fun a => ?_
    simp only [buildOwners,ruleOwners,loadedEngine,List.count_append]
    omega
  have grown' := grown_perm grown perm
  refine ⟨grown'.world,engine.vars,engine.keys,fun a member e role => ?_,rfl,.nil,rfl⟩
  obtain ⟨cell,is⟩ := grown_owner grown' member
  exact grown'.numbers a cell e is role

/-- What the engine leaves in memory is in order. -/
theorem shows_sound {engine : Machine.Engine} {lost : List Addr} {s : Rules.EngineState α W} {s' : Machine.EngineState α W}
    (shows : Shows t (ruleOwners engine ++ lost) s s') : Sound engine lost s' :=
  ⟨shows.sound,shows.world.balanced.counted,fun _ => live_iff_reachable shows.world.ranked shows.world.balanced⟩

variable [DecidableEq α]

/-- The calls one after the other on trees. -/
def serve (engine : Rules.Engine α) : List (Call α W) → Rules.EngineState α W → Res (Rules.EngineState α W) Unit
  | [], s => .returned () s
  | c :: rest, s =>
    match Rules.engineApply c.env engine c.nest c.key { s with peers := c.peers } with
    | .returned _ s => serve engine rest s
    | .failed _ s => serve engine rest s
    | .stopped s => .stopped s

theorem serve_agrees {engine : Rules.Engine α} {engine' : Machine.Engine} (given : List.Forall₂ (RuleGiven t rest) engine.rules engine'.rules)
    (calls : List (Call α W)) : ∀ (s : Rules.EngineState α W) (s' : Machine.EngineState α W), Shows t rest s s' →
      Agree (Shows t rest) Eq (serve engine calls s) (serveInMemory engine' calls s') := by
  induction calls with
  | nil => exact fun s s' shows => .returned rfl shows
  | cons c calls ih =>
    intro s s' shows
    have shows' : Shows t rest { s with peers := c.peers } { s' with peers := c.peers } :=
      ⟨shows.world,shows.vars,shows.keys,shows.numbers,rfl,shows.log,shows.sound⟩
    have applied : Agree (Shows t rest) Eq (Rules.engineApply c.env engine c.nest c.key _) _ := engineApply_agrees given c.nest c.key _ _ shows'
    simp only [serve,serveInMemory]
    generalize Rules.engineApply c.env engine c.nest c.key { s with peers := c.peers } = done at applied
    generalize Machine.engineApply c.env engine' c.nest c.key { s' with peers := c.peers } = done' at applied
    cases applied with
    | returned _ shows => exact ih _ _ shows
    | failed _ shows => exact ih _ _ shows
    | stopped shows => exact .stopped shows

omit [Gdouble α] [DecidableEq α] in
theorem agree_state {R : Rules.EngineState α W → Machine.EngineState α W → Prop} {Q : Unit → Unit → Prop}
    {x : Res (Rules.EngineState α W) Unit} {y : Res (Machine.EngineState α W) Unit} (agree : Agree R Q x y) : R x.state y.state := by
  cases agree with
  | returned _ state => exact state
  | failed _ state => exact state
  | stopped state => exact state

theorem numeric_rat : Numeric ℚ := fun _ => decide_eq_true rfl

/-- A variable that is declared twice, the second time with a function that has memory. -/
def twiceProgram : Syntax.Instructions ℚ :=
  .more (.more (.one (.var "v" none)) (.var "v" (some (.leaf (.call "CHANGED" (.one (.leaf (.value (ofRat (atof ['1']))))))))))
    (.trigger (.leaf (.ref "v")) (.one ⟨"v",none,.leaf (.value (ofRat (atof ['2'])))⟩))

def twiceText : List Char := "VAR v; VAR v = CHANGED(1); TRIGGER WHEN v SET v = 2;".toList

theorem twice_parses : Operators.Parses (lex twiceText) (Actions.instructionsBuild twiceProgram Actions.emptyBuild) := by
  have words : lexWords twiceText = [.keyVar,.identifier "v",.semicolon,.keyVar,.identifier "v",.assign,.identifier "CHANGED",.parenOpen,
      .value (.number ['1']),.parenClose,.semicolon,.keyTrigger,.keyWhen,.identifier "v",.keySet,.identifier "v",.assign,
      .value (.number ['2']),.semicolon] := by decide +kernel
  refine Calls.parses_program ⟨⟨trivial,trivial⟩,trivial,trivial⟩ ?_ (by decide)
  rw [lex,words]
  rfl

theorem twice_produced : (Actions.instructionsBuild twiceProgram Actions.emptyBuild).undefined = false := rfl

omit [DecidableEq α] in
/-- The parser leaves the program in memory as it does on trees: no action touches a cell that
    is not there, and every cell has one pointer, from the engine, another cell or what is lost. -/
theorem parser_in_memory (numeric : Numeric α) {text : List Char} {after : Actions.Build α}
    (parses : Operators.Parses (lex text) after) (produced : after.undefined = false) :
    ∃ after' t, Loading.Parses (lex text) after' ∧ after'.undefined = false ∧ after'.fault = false ∧ Engine t after after' ∧
      World t freshMem after'.memory (buildOwners after') ∧ ∀ a cell, after'.memory.cells a = some cell → cell.nref = 1 := by
  obtain ⟨after',t,loads,grown,engine⟩ := parses_loads numeric (lex_numbers numeric) parses produced
  exact ⟨after',t,loads,engine.defined,engine.sound,engine,grown.world,grown.single⟩

theorem parser_in_memory_twice : ∃ after' t, Loading.Parses (lex twiceText) after' ∧ after'.undefined = false ∧ after'.fault = false ∧
    Engine t (Actions.instructionsBuild twiceProgram Actions.emptyBuild) after' ∧ World t freshMem after'.memory (buildOwners after') ∧
      ∀ a cell, after'.memory.cells a = some cell → cell.nref = 1 :=
  parser_in_memory numeric_rat twice_parses twice_produced

omit [Gdouble α] [DecidableEq α] in
/-- A name is in the table that the declarations fill if one of them is its own. -/
theorem declared_iff (decls : List (String × Expr α)) (x : String) : Rules.initialTable decls x ≠ none ↔ x ∈ decls.map Prod.fst := by
  constructor
  · intro declared
    obtain ⟨e,stored⟩ := Option.ne_none_iff_exists'.mp declared
    exact List.mem_map_of_mem (Rules.initialTable_entry decls stored)
  · intro member
    obtain ⟨⟨_,e⟩,inside,rfl⟩ := List.mem_map.mp member
    exact Lib.Tables.insertAll_mem (.inl ⟨e,inside⟩)

omit [Gdouble α] [DecidableEq α] in
/-- Nothing is lost if no variable is declared twice. -/
theorem lost_nil_iff (engine : Engine t s s') (known : "Unknown function" ∉ s.messages) :
    s'.lost = [] ↔ (s.decls.map Prod.fst).Nodup := by
  have keys : (s'.vars.map Prod.fst).Perm (s.decls.map Prod.fst).dedup := by
    refine (List.perm_ext_iff_of_nodup engine.keys (List.nodup_dedup _)).mpr fun x => ?_
    rw [List.mem_dedup,← declared_iff]
    have rel := engine.vars x
    have absent : s'.vars.lookup x = none ↔ x ∉ s'.vars.map Prod.fst := by
      rw [List.lookup_eq_none_iff]
      constructor
      · intro all member
        obtain ⟨entry,inside,rfl⟩ := List.mem_map.mp member
        simpa using all entry inside
      · intro off entry inside
        exact bne_iff_ne.mpr fun same => off (same ▸ List.mem_map_of_mem inside)
    generalize Rules.initialTable s.decls x = stored at rel ⊢
    cases found : s'.vars.lookup x with
    | none =>
      rw [found] at rel
      cases rel
      exact iff_of_false (absent.mp found) (by simp)
    | some a =>
      rw [found] at rel
      cases rel with
      | some _ => exact iff_of_true (by_contra fun off => by simp [absent.mpr off] at found) (by simp)
  have lost := engine.lost known
  have length := keys.length_eq
  rw [List.length_map] at length
  have all : (s.decls.map Prod.fst).length = s.decls.length := List.length_map ..
  constructor
  · intro none
    rw [none,List.length_nil] at lost
    rw [← List.dedup_eq_self]
    exact (List.dedup_sublist _).eq_of_length (by omega)
  · intro nodup
    rw [List.dedup_eq_self.mpr nodup] at length
    exact List.eq_nil_of_length_eq_zero (by omega)

end

end Starter.Ownership
