import Starter.Building
import Starter.Calls

/-!
The parser on memory and the parser on trees do the same. What lies on the stack of the one
stands for what lies on the stack of the other, and so do the engines that they fill.
-/
namespace Starter.Loading
open Gdouble Objects Grammar Pointers Layout Building Lib.Counting Lib.Lr
open Expressions (Expr Mem Func Op freshMem)

variable {α β γ : Type}

/-! ### What stands for what -/

/-- An assignment in memory and the one that it is. -/
structure AssignStands (t : Plan α) (a : Rules.Assign α) (a' : Assign) : Prop where
  id : a'.id = a.id
  rval : t.role a'.rval = .tree a.rval
  flagBit : a'.flagBit = a.flagBit

structure EntryStands (t : Plan α) (e : Rules.LabelEntry α) (e' : LabelEntry) : Prop where
  cond : t.role e'.cond = .tree e.cond
  ass : AssignStands t e.ass e'.ass

def BlockStands (t : Plan α) (b : Rules.LabelBlock α) (b' : LabelBlock) : Prop :=
  List.Forall₂ (EntryStands t) b.entries b'.entries

structure TriggerStands (t : Plan α) (r : Rules.Trigger α) (r' : Trigger) : Prop where
  cond : t.role r'.cond = .tree r.cond
  ass : List.Forall₂ (AssignStands t) r.ass r'.ass

/-- A semantic value in memory and the one that it is; a block or trigger that has been put
    into the engine is on the stack no more. -/
inductive Stands [Gdouble α] (t : Plan α) : Actions.Val α → Val α → Prop
  | unset : Stands t .unset .unset
  | movedBlock (b : Rules.LabelBlock α) : Stands t (.block b) .unset
  | movedTrigger (r : Rules.Trigger α) : Stands t (.trigger r) .unset
  | dval (v : α) (number : eq v v = true) : Stands t (.dval v) (.dval v)
  | sval (id : String) : Stands t (.sval id) (.sval id)
  | uval (bit : IoFlags) : Stands t (.uval bit) (.uval bit)
  | expr {e : Expr α} {a : Addr} (role : t.role a = .tree e) : Stands t (.expr e) (.expr a)
  | args {es : List (Expr α)} {as : List Addr} (roles : as.map t.role = es.map .tree) : Stands t (.args es) (.args as)
  | assign {a : Rules.Assign α} {a' : Assign} (stands : AssignStands t a a') : Stands t (.assign a) (.assign a')
  | assigns {as : List (Rules.Assign α)} {as' : List Assign} (each : List.Forall₂ (AssignStands t) as as') :
    Stands t (.assigns as) (.assigns as')
  | entry {e : Rules.LabelEntry α} {e' : LabelEntry} (stands : EntryStands t e e') : Stands t (.entry e) (.entry e')
  | entries {es : List (Rules.LabelEntry α)} {es' : List LabelEntry} (each : List.Forall₂ (EntryStands t) es es') :
    Stands t (.entries es) (.entries es')
  | block {b : Rules.LabelBlock α} {b' : LabelBlock} (stands : BlockStands t b b') : Stands t (.block b) (.block b')
  | trigger {r : Rules.Trigger α} {r' : Trigger} (stands : TriggerStands t r r') : Stands t (.trigger r) (.trigger r')

/-- The engine in memory and the one of the trees. -/
structure Engine (t : Plan α) (s : Actions.Build α) (s' : Build α) : Prop where
  labels : List.Forall₂ (BlockStands t) s.labels s'.labels
  triggers : List.Forall₂ (TriggerStands t) s.triggers s'.triggers
  vars : ∀ x, Option.Rel (fun e a => t.role a = .tree e) (Rules.initialTable s.decls x) (s'.vars.lookup x)
  keys : (s'.vars.map Prod.fst).Nodup
  defined : s'.undefined = false
  sound : s'.fault = false
  /-- Lost are what variables had that are declared again, and the arguments of unknown functions. -/
  lost : "Unknown function" ∉ s.messages → s'.lost.length + s'.vars.length = s.decls.length

variable {t t' : Plan α}

/-- The plans are one as to the addresses. -/
def Same (t t' : Plan α) (as : List Addr) : Prop := ∀ b ∈ as, t'.role b = t.role b

theorem same_left {as bs : List Addr} (same : Same t t' (as ++ bs)) : Same t t' as :=
  fun b member => same b (List.mem_append_left bs member)

theorem same_right {as bs : List Addr} (same : Same t t' (as ++ bs)) : Same t t' bs :=
  fun b member => same b (List.mem_append_right as member)

theorem forall₂_owners {R R' : β → γ → Prop} {owners : γ → List Addr} {P : Addr → Prop} {xs : List β} {ys : List γ}
    (all : List.Forall₂ R xs ys) (holds : ∀ b ∈ ys.flatMap owners, P b)
    (each : ∀ x y, R x y → (∀ b ∈ owners y, P b) → R' x y) : List.Forall₂ R' xs ys := by
  induction all with
  | nil => exact .nil
  | cons one _ ih =>
    rw [List.flatMap_cons,List.forall_mem_append] at holds
    exact .cons (each _ _ one holds.1) (ih holds.2)

theorem assign_same {a : Rules.Assign α} {a' : Assign} (stands : AssignStands t a a') (same : Same t t' [a'.rval]) :
    AssignStands t' a a' := ⟨stands.id,(same _ List.mem_cons_self).trans stands.rval,stands.flagBit⟩

theorem assigns_same {as : List (Rules.Assign α)} {as' : List Assign} (each : List.Forall₂ (AssignStands t) as as')
    (same : Same t t' (as'.map Assign.rval)) : List.Forall₂ (AssignStands t') as as' := by
  rw [List.map_eq_flatMap] at same
  exact forall₂_owners each same fun _ _ one same => assign_same one same

theorem entry_same {e : Rules.LabelEntry α} {e' : LabelEntry} (stands : EntryStands t e e')
    (same : Same t t' (LabelEntry.owners e')) : EntryStands t' e e' :=
  ⟨(same _ List.mem_cons_self).trans stands.cond,assign_same stands.ass fun b member => same b (List.mem_cons_of_mem _ member)⟩

theorem entries_same {es : List (Rules.LabelEntry α)} {es' : List LabelEntry} (each : List.Forall₂ (EntryStands t) es es')
    (same : Same t t' (es'.flatMap LabelEntry.owners)) : List.Forall₂ (EntryStands t') es es' :=
  forall₂_owners each same fun _ _ one same => entry_same one same

theorem trigger_same {r : Rules.Trigger α} {r' : Trigger} (stands : TriggerStands t r r')
    (same : Same t t' (Trigger.owners r')) : TriggerStands t' r r' :=
  ⟨(same _ List.mem_cons_self).trans stands.cond,assigns_same stands.ass fun b member => same b (List.mem_cons_of_mem _ member)⟩

theorem stands_same [Gdouble α] {v : Actions.Val α} {v' : Val α} (stands : Stands t v v') (same : Same t t' (valOwners v')) : Stands t' v v' := by
  cases stands with
  | unset => exact .unset
  | movedBlock b => exact .movedBlock b
  | movedTrigger r => exact .movedTrigger r
  | dval v number => exact .dval v number
  | sval id => exact .sval id
  | uval bit => exact .uval bit
  | expr role => exact .expr ((same _ List.mem_cons_self).trans role)
  | args roles => exact .args ((List.map_congr_left same).trans roles)
  | assign stands => exact .assign (assign_same stands same)
  | assigns each => exact .assigns (assigns_same each same)
  | entry stands => exact .entry (entry_same stands same)
  | entries each => exact .entries (entries_same each same)
  | block stands => exact .block (entries_same stands same)
  | trigger stands => exact .trigger (trigger_same stands same)

theorem lookup_owner {vars : List (String × Addr)} {x : String} {a : Addr} (found : vars.lookup x = some a) : a ∈ vars.map Prod.snd := by
  obtain ⟨before,after,rfl,_⟩ := List.lookup_eq_some_iff.mp found
  simp

theorem engine_same {s : Actions.Build α} {s' : Build α} (engine : Engine t s s') (same : Same t t' (buildOwners s')) : Engine t' s s' where
  labels := forall₂_owners engine.labels (same_left same) fun _ _ one same => entries_same one same
  triggers := forall₂_owners engine.triggers (same_left (same_right same)) fun _ _ one same => trigger_same one same
  vars x := by
    have rel := engine.vars x
    generalize Rules.initialTable s.decls x = stored at rel ⊢
    cases found : s'.vars.lookup x with
    | none =>
      rw [found] at rel
      cases rel
      exact .none
    | some a =>
      rw [found] at rel
      cases rel with
      | some role => exact .some ((same_left (same_right (same_right same)) a (lookup_owner found)).trans role)
  keys := engine.keys
  defined := engine.defined
  sound := engine.sound
  lost := engine.lost

/-! ### The stack of the parser -/

/-- The values that the stack can have for a symbol: no token refers to memory, and a block or
    trigger has not been put into the engine yet. -/
def Proper : Terminal ⊕ Nonterminal → Val α → Prop
  | .inl _, v => valOwners v = []
  | .inr .accept, v | .inr .program, v | .inr .instructionList, v | .inr .instruction, v | .inr .declaration, v => valOwners v = []
  | .inr .labelBlock, v | .inr .triggerStatement, v => v ≠ .unset
  | .inr .argumentList, v => v = .unset ∨ ∃ as, v = .args as
  | .inr _, _ => True

/-- The references from the stack. -/
def stackOwners (stack : List (Actions.Val α × Val α)) : List Addr := stack.flatMap fun x => valOwners x.2

theorem stackOwners_cons (v : Actions.Val α) (v' : Val α) (stack : List (Actions.Val α × Val α)) :
    stackOwners ((v,v') :: stack) = valOwners v' ++ stackOwners stack := rfl

theorem valOwners_expr (a : Addr) : valOwners (.expr a : Val α) = [a] := rfl

section
variable [Gdouble α]

/-- The parser on memory is where the one on trees is. -/
structure Holds (t : Plan α) (stack : List (Actions.Val α × Val α)) (s : Actions.Build α) (s' : Build α) : Prop where
  grown : Grown t s.nodes s'.memory (stackOwners stack ++ buildOwners s')
  stands : ∀ x ∈ stack, Stands t x.1 x.2
  engine : Engine t s s'

/-- The action on trees of a rule for the symbol reads what none has made, or the one on memory
    follows it. -/
def Follows (x : Nonterminal) (stack : List (Actions.Val α × Val α)) (done : Actions.Val α × Actions.Build α)
    (done' : Val α × Build α) : Prop :=
  done.2.undefined = true ∨ (∃ t, Holds t ((done.1,done'.1) :: stack) done.2 done'.2) ∧ Proper (.inr x) done'.1

variable {stack : List (Actions.Val α × Val α)} {s : Actions.Build α} {s' : Build α}

theorem taken_grown (taken : List (Actions.Val α × Val α)) {as : List Addr} (holds : Holds t (taken ++ stack) s s')
    (owners : (stackOwners taken).Perm as) : Grown t s.nodes s'.memory (as ++ (stackOwners stack ++ buildOwners s')) := by
  refine grown_perm holds.grown ?_
  rw [stackOwners,List.flatMap_append,List.append_assoc]
  exact owners.append_right _

theorem stack_same (stands : ∀ x ∈ stack, Stands t x.1 x.2) (same : Same t t' (stackOwners stack)) : ∀ x ∈ stack, Stands t' x.1 x.2 :=
  fun x member => stands_same (stands x member) fun b inside => same b (List.mem_flatMap.mpr ⟨x,member,inside⟩)

/-- An action that makes an expression of owners that it takes. -/
theorem expr_follows (taken : List (Actions.Val α × Val α)) {e : Expr α} {after : Actions.Build α} {h : Memory α} {a : Addr}
    (holds : Holds t (taken ++ stack) s s')
    (built : ∃ t', Grown t' after.nodes h (a :: (stackOwners stack ++ buildOwners s')) ∧ t'.role a = .tree e ∧
      ∀ b ∈ stackOwners stack ++ buildOwners s', t'.role b = t.role b)
    (labels : after.labels = s.labels) (triggers : after.triggers = s.triggers) (decls : after.decls = s.decls)
    (messages : s.messages ⊆ after.messages) :
    Follows .expr stack (.expr e,after) (.expr a,{ s' with memory := h }) := by
  obtain ⟨t',grown,role,same⟩ := built
  have engine := engine_same holds.engine (same_right same)
  refine .inr ⟨⟨t',grown,fun x member => ?_,⟨labels ▸ engine.labels,triggers ▸ engine.triggers,decls ▸ engine.vars,engine.keys,
    engine.defined,engine.sound,fun known => decls ▸ engine.lost fun inside => known (messages inside)⟩⟩,trivial⟩
  rcases List.mem_cons.mp member with rfl | member
  · exact .expr role
  · exact stack_same (fun x member => holds.stands x (List.mem_append_right taken member)) (same_left same) x member

/-- An action that leaves memory and the engine alone. -/
theorem keep_follows (taken : List (Actions.Val α × Val α)) {v : Actions.Val α} {v' : Val α} (holds : Holds t (taken ++ stack) s s')
    (owners : (stackOwners taken).Perm (valOwners v')) (stands : Stands t v v') {x : Nonterminal} (proper : Proper (.inr x) v') :
    Follows x stack (v,s) (v',s') := by
  refine .inr ⟨⟨t,?_,?_,holds.engine⟩,proper⟩
  · rw [stackOwners_cons,List.append_assoc]
    exact taken_grown taken holds owners
  · intro x member
    rcases List.mem_cons.mp member with rfl | member
    · exact stands
    · exact holds.stands x (List.mem_append_right taken member)

variable {v v₁ v₂ v₃ v₄ v₅ v₆ : Actions.Val α} {v' v₁' v₂' v₃' v₄' v₅' v₆' : Val α}

omit [Gdouble α] in
/-- What an action makes of memory. -/
theorem onMemory_done {β : Type} {f : Memory α → Option (β × Memory α)} {k : β → Build α → Val α × Build α} {b : β} {h : Memory α}
    (made : f s'.memory = some (b,h)) : s'.onMemory f k = k b { s' with memory := h } := by
  rw [Build.onMemory,made]

/-- What the constructor of an operator makes, when its caller has given up the operands. -/
theorem exprNewOp_eq {n : Nat} {h : Memory α} {l r : Addr} {rest : List Addr} (o : Op) (grown : Grown t n h (l :: r :: rest)) :
    thenUnref [l,r] (exprNewOp o l r h) = some (h.fresh,h.allocate ⟨.op o,some l,some r⟩) := by
  obtain ⟨celll,isl⟩ := grown_owner grown List.mem_cons_self
  obtain ⟨cellr,isr⟩ := grown_owner grown (List.mem_cons_of_mem l List.mem_cons_self)
  have apart : l ≠ r := by
    have nodup := grown_nodup grown
    rintro rfl
    simp at nodup
  have both := refs_unref grown (fun h => h.allocate ⟨.op o,some l,some r⟩) (.inr ⟨_,rfl⟩)
  have isr' : (h.set l (some { celll with nref := celll.nref + 1 })).cells r = some cellr := by rw [set_other apart.symm,isr]
  rw [exprRef_eq isl,Option.bind_some,exprRef_eq isr',Option.bind_some] at both
  rw [exprNewOp,exprRef_eq isl,Option.bind_some,exprRef_eq isr',Option.map_some,thenUnref,Option.bind_some,both,Option.map_some]
  rfl

theorem binary_follows {o : Op} (holds : Holds t ((v₃,v₃') :: (v₂,v₂') :: (v₁,v₁') :: stack) s s') (token : valOwners v₂' = []) :
    Follows .expr stack (Actions.act (.binary o) [v₁,v₂,v₃] s) (act (.binary o) [v₁',v₂',v₃'] s') := by
  have stands₁ := holds.stands (v₁,v₁') (by simp)
  have stands₃ := holds.stands (v₃,v₃') (by simp)
  cases stands₁ with
  | expr left =>
    cases stands₃ with
    | expr right =>
      rename_i l x r y
      have grown : Grown t s.nodes s'.memory ([x,y] ++ _) := taken_grown [_,_,_] holds (by
        simp only [stackOwners_cons,valOwners_expr,token,List.cons_append,List.nil_append]
        exact .swap ..)
      have made : act (.binary o) [.expr x,v₂',.expr y] s' = (.expr s'.memory.fresh,{ s' with memory := s'.memory.allocate ⟨.op o,some x,some y⟩ }) :=
        onMemory_done (f := fun h => thenUnref [x,y] (exprNewOp o x y h)) (k := fun a s => (.expr a,s)) (exprNewOp_eq o grown)
      rw [made]
      exact expr_follows [_,_,_] holds (op_built o grown left right) rfl rfl rfl (List.Subset.refl _)
    | _ => exact .inl rfl
  | _ => exact .inl rfl

/-- An action that makes an expression without operands. -/
theorem leaf_follows (taken : List (Actions.Val α × Val α)) {node : Node α} {e : Expr α} (holds : Holds t (taken ++ stack) s s')
    (owners : stackOwners taken = []) (leaf : children node = []) (number : selfEqual e = true)
    (fits : ∀ t' a, Fits t' freshMem a node (.tree e))
    (plain : nodeOf (.tree e) = none) :
    Follows .expr stack (.expr e,s) (.expr s'.memory.fresh,{ s' with memory := s'.memory.allocate node }) := by
  exact expr_follows taken holds (leaf_built node e (taken_grown taken holds (.of_eq owners)) leaf number fits plain) rfl rfl rfl
    (List.Subset.refl _)

theorem value_follows (holds : Holds t ((v₁,v₁') :: stack) s s') : Follows .expr stack (Actions.act .value [v₁] s) (act .value [v₁'] s') := by
  cases holds.stands (v₁,v₁') (by simp) with
  | dval v number => exact leaf_follows [_] holds rfl rfl number (fun _ _ => rfl) rfl
  | _ => exact .inl rfl

theorem identifier_follows (holds : Holds t ((v₁,v₁') :: stack) s s') :
    Follows .expr stack (Actions.act .identifier [v₁] s) (act .identifier [v₁'] s') := by
  cases holds.stands (v₁,v₁') (by simp) with
  | sval id => exact leaf_follows [_] holds rfl rfl rfl (fun _ _ => rfl) rfl
  | _ => exact .inl rfl

theorem flag_follows (holds : Holds t ((v₃,v₃') :: (v₂,v₂') :: (v₁,v₁') :: stack) s s') (token : valOwners v₂' = []) :
    Follows .expr stack (Actions.act .flag [v₁,v₂,v₃] s) (act .flag [v₁',v₂',v₃'] s') := by
  have stands₁ := holds.stands (v₁,v₁') (by simp)
  have stands₃ := holds.stands (v₃,v₃') (by simp)
  cases stands₁ with
  | sval id =>
    cases stands₃ with
    | uval bit => exact leaf_follows [_,_,_] holds (by simp only [stackOwners_cons,token]; rfl) rfl rfl (fun _ _ => rfl) rfl
    | _ => exact .inl rfl
  | _ => exact .inl rfl

theorem parentheses_follows (holds : Holds t ((v₃,v₃') :: (v₂,v₂') :: (v₁,v₁') :: stack) s s') (token₁ : valOwners v₁' = [])
    (token₃ : valOwners v₃' = []) : Follows .expr stack (Actions.act .parentheses [v₁,v₂,v₃] s) (act .parentheses [v₁',v₂',v₃'] s') := by
  refine keep_follows [_,_,_] holds (.of_eq ?_) (holds.stands (v₂,v₂') (by simp)) trivial
  simp only [stackOwners_cons,token₁,token₃,List.nil_append]
  exact List.append_nil _

theorem minus_follows (numeric : Numeric α) (holds : Holds t ((v₂,v₂') :: (v₁,v₁') :: stack) s s') (token : valOwners v₁' = []) :
    Follows .expr stack (Actions.act .minus [v₁,v₂] s) (act .minus [v₁',v₂'] s') := by
  cases holds.stands (v₂,v₂') (by simp) with
  | expr right =>
    rename_i e y
    have grown : Grown t s.nodes s'.memory (y :: (stackOwners stack ++ buildOwners s')) :=
      taken_grown [_,_] holds (.of_eq (by rw [stackOwners_cons,stackOwners_cons,token]))
    obtain ⟨t₁,grown₁,role₁,same₁⟩ := leaf_built ⟨.literal (ofRat (-1)),none,none⟩ (.literal (ofRat (-1))) grown rfl (numeric _) (fun _ _ => rfl) rfl
    obtain ⟨t₂,grown₂,role₂,same₂⟩ := op_built .mul grown₁ role₁ ((same₁ y List.mem_cons_self).trans right)
    have made : act .minus [v₁',.expr y] s' = (.expr (s'.memory.allocate ⟨.literal (ofRat (-1)),none,none⟩).fresh,{ s' with
        memory := (s'.memory.allocate ⟨.literal (ofRat (-1)),none,none⟩).allocate ⟨.op .mul,some s'.memory.fresh,some y⟩ }) :=
      onMemory_done (f := fun h => thenUnref [h.fresh,y] (exprNewOp .mul h.fresh y (h.allocate ⟨.literal (ofRat (-1)),none,none⟩)))
        (k := fun a s => (.expr a,s)) (exprNewOp_eq .mul grown₁)
    rw [made]
    exact expr_follows [_,_] holds
      ⟨t₂,grown₂,role₂,fun b member => (same₂ b member).trans (same₁ b (List.mem_cons_of_mem y member))⟩ rfl rfl rfl (List.Subset.refl _)
  | _ => exact .inl rfl

/-- A message changes nothing. -/
theorem yyerror_holds (message : String) (holds : Holds t stack s s') : Holds t stack (s.yyerror message) s' :=
  ⟨holds.grown,holds.stands,⟨holds.engine.labels,holds.engine.triggers,holds.engine.vars,holds.engine.keys,holds.engine.defined,
    holds.engine.sound,fun known => holds.engine.lost fun inside => known (List.mem_append_left _ inside)⟩⟩

/-- An action that leaves its owners behind. -/
theorem left_follows (taken : List (Actions.Val α × Val α)) {as : List Addr} (holds : Holds t (taken ++ stack) s s')
    (owners : stackOwners taken = as)
    (unknown : "Unknown function" ∈ s.messages) : Follows .expr stack (.unset,s) (.unset,{ s' with lost := s'.lost ++ as }) := by
  have grown := taken_grown taken holds (.of_eq owners)
  refine .inr ⟨⟨t,grown_perm grown (List.perm_iff_count.mpr fun a => ?_),?_,?_⟩,trivial⟩
  · simp only [stackOwners_cons,buildOwners,List.count_append]
    simp only [valOwners,List.count_nil]
    omega
  · intro x member
    rcases List.mem_cons.mp member with rfl | member
    · exact .unset
    · exact holds.stands x (List.mem_append_right taken member)
  · exact ⟨holds.engine.labels,holds.engine.triggers,holds.engine.vars,holds.engine.keys,holds.engine.defined,holds.engine.sound,
      fun known => absurd unknown known⟩

theorem call_follows (numeric : Numeric α) (holds : Holds t ((v₄,v₄') :: (v₃,v₃') :: (v₂,v₂') :: (v₁,v₁') :: stack) s s') (token₂ : valOwners v₂' = [])
    (token₄ : valOwners v₄' = []) (list : v₃' = .unset ∨ ∃ as, v₃' = .args as) :
    Follows .expr stack (Actions.act .call [v₁,v₂,v₃,v₄] s) (act .call [v₁',v₂',v₃',v₄'] s') := by
  have stands₃ := holds.stands (v₃,v₃') (by simp)
  cases holds.stands (v₁,v₁') (by simp) with
  | sval id =>
    have owners : stackOwners [(v₄,v₄'),(v₃,v₃'),(v₂,v₂'),(.sval id,.sval id)] = valOwners v₃' := by
      simp only [stackOwners_cons,token₂,token₄,List.nil_append]
      exact List.append_nil _
    have tree : Actions.act .call [.sval id,v₂,v₃,v₄] s = Actions.call id v₃ s := rfl
    have made : act .call [.sval id,v₂',v₃',v₄'] s' = call id v₃' s' := rfl
    rw [tree,made]
    unfold Actions.call call
    cases known : Actions.funcOf id with
    | none =>
      have holds := yyerror_holds "Unknown function" holds
      rcases list with rfl | ⟨as,rfl⟩
      · exact keep_follows [_,_,_,_] holds (.of_eq owners) .unset trivial
      · -- Nobody has the array any more.
        exact left_follows [_,_,_,_] holds owners (List.mem_append_right _ List.mem_cons_self)
    | some func =>
      cases stands₃ with
      | args roles =>
        rename_i es as
        have grown := taken_grown [_,_,_,_] holds (.of_eq owners)
        refine expr_follows [_,_,_,_] holds ?_ ?_ ?_ ?_ ?_
        · exact func_built numeric grown roles
        · dsimp only
          split <;> rfl
        · dsimp only
          split <;> rfl
        · dsimp only
          split <;> rfl
        · dsimp only
          split
          · exact List.Subset.refl _
          · exact List.subset_append_left _ _
      | _ => exact .inl rfl
  | _ => exact .inl rfl

theorem argumentsOne_follows (holds : Holds t ((v₁,v₁') :: stack) s s') :
    Follows .argumentList stack (Actions.act .argumentsOne [v₁] s) (act .argumentsOne [v₁'] s') := by
  cases holds.stands (v₁,v₁') (by simp) with
  | expr role =>
    refine keep_follows [_] holds (.refl _) (.args ?_) (.inr ⟨_,rfl⟩)
    exact congrArg (fun r => [r]) role
  | _ => exact .inl rfl

theorem argumentsMore_follows (holds : Holds t ((v₃,v₃') :: (v₂,v₂') :: (v₁,v₁') :: stack) s s') (token : valOwners v₂' = []) :
    Follows .argumentList stack (Actions.act .argumentsMore [v₁,v₂,v₃] s) (act .argumentsMore [v₁',v₂',v₃'] s') := by
  have stands₃ := holds.stands (v₃,v₃') (by simp)
  cases holds.stands (v₁,v₁') (by simp) with
  | args roles =>
    rename_i es as
    cases stands₃ with
    | expr role =>
      rename_i e a
      refine keep_follows [_,_,_] holds ?_ (.args ?_) (.inr ⟨_,rfl⟩)
      · simp only [stackOwners_cons,valOwners_expr,token,List.nil_append]
        exact (List.append_nil as).symm ▸ List.perm_append_comm
      · rw [List.map_append,List.map_append,roles,List.map_singleton,role,List.map_singleton]
    | _ => exact .inl rfl
  | _ => exact .inl rfl

theorem entriesOne_follows (holds : Holds t ((v₁,v₁') :: stack) s s') :
    Follows .labelEntries stack (Actions.act .entriesOne [v₁] s) (act .entriesOne [v₁'] s') := by
  cases holds.stands (v₁,v₁') (by simp) with
  | entry stands => exact keep_follows [_] holds (.refl _) (.entries (.cons stands .nil)) trivial
  | _ => exact .inl rfl

theorem entriesMore_follows (holds : Holds t ((v₂,v₂') :: (v₁,v₁') :: stack) s s') :
    Follows .labelEntries stack (Actions.act .entriesMore [v₁,v₂] s) (act .entriesMore [v₁',v₂'] s') := by
  have stands₂ := holds.stands (v₂,v₂') (by simp)
  cases holds.stands (v₁,v₁') (by simp) with
  | entries each =>
    rename_i es es'
    cases stands₂ with
    | entry stands =>
      rename_i e e'
      refine keep_follows [_,_] holds ?_ (.entries (List.rel_append each (.cons stands .nil))) trivial
      have all : valOwners (.entries (es' ++ [e']) : Val α) = es'.flatMap LabelEntry.owners ++ LabelEntry.owners e' := by simp [valOwners]
      rw [all]
      exact (List.append_nil (es'.flatMap LabelEntry.owners)).symm ▸ List.perm_append_comm
    | _ => exact .inl rfl
  | _ => exact .inl rfl

theorem assignmentsOne_follows (holds : Holds t ((v₁,v₁') :: stack) s s') :
    Follows .assignmentList stack (Actions.act .assignmentsOne [v₁] s) (act .assignmentsOne [v₁'] s') := by
  cases holds.stands (v₁,v₁') (by simp) with
  | assign stands => exact keep_follows [_] holds (.refl _) (.assigns (.cons stands .nil)) trivial
  | _ => exact .inl rfl

theorem assignmentsMore_follows (holds : Holds t ((v₃,v₃') :: (v₂,v₂') :: (v₁,v₁') :: stack) s s') (token : valOwners v₂' = []) :
    Follows .assignmentList stack (Actions.act .assignmentsMore [v₁,v₂,v₃] s) (act .assignmentsMore [v₁',v₂',v₃'] s') := by
  have stands₃ := holds.stands (v₃,v₃') (by simp)
  cases holds.stands (v₁,v₁') (by simp) with
  | assigns each =>
    rename_i as as'
    cases stands₃ with
    | assign stands =>
      rename_i a a'
      refine keep_follows [_,_,_] holds ?_ (.assigns (List.rel_append each (.cons stands .nil))) trivial
      have all : valOwners (.assigns (as' ++ [a']) : Val α) = as'.map Assign.rval ++ [a'.rval] := List.map_append
      simp only [stackOwners_cons,token,all,List.nil_append]
      exact (List.append_nil (as'.map Assign.rval)).symm ▸ List.perm_append_comm
    | _ => exact .inl rfl
  | _ => exact .inl rfl

omit [Gdouble α] in
/-- The name and the flag of a label block are put into entries that refer to what they did. -/
theorem labelBlockNew_stands (id : String) (bit : IoFlags) {es : List (Rules.LabelEntry α)} {es' : List LabelEntry}
    (each : List.Forall₂ (EntryStands t) es es') :
    BlockStands t (Actions.labelBlockNew id bit es) (labelBlockNew id bit es') ∧
      valOwners (.block (labelBlockNew id bit es') : Val α) = es'.flatMap LabelEntry.owners := by
  constructor
  · refine List.forall₂_map_left_iff.mpr (List.forall₂_map_right_iff.mpr (each.imp fun e e' stands => ?_))
    exact ⟨stands.cond,rfl,stands.ass.rval,rfl⟩
  · simp only [valOwners,LabelBlock.owners,labelBlockNew,List.flatMap_map]
    rfl

theorem block_follows (holds : Holds t ((v₄,v₄') :: (v₃,v₃') :: (v₂,v₂') :: (v₁,v₁') :: stack) s s') (token₂ : valOwners v₂' = [])
    (token₄ : valOwners v₄' = []) : Follows .labelBlock stack (Actions.act .block [v₁,v₂,v₃,v₄] s) (act .block [v₁',v₂',v₃',v₄'] s') := by
  have stands₃ := holds.stands (v₃,v₃') (by simp)
  cases holds.stands (v₁,v₁') (by simp) with
  | sval id =>
    cases stands₃ with
    | entries each =>
      obtain ⟨stands,owners⟩ := labelBlockNew_stands id 0 each
      refine keep_follows [_,_,_,_] holds (.of_eq ?_) (.block stands) nofun
      simp only [stackOwners_cons,token₂,token₄,owners,List.nil_append]
      exact List.append_nil _
    | _ => exact .inl rfl
  | _ => exact .inl rfl

theorem flagBlock_follows (holds : Holds t ((v₆,v₆') :: (v₅,v₅') :: (v₄,v₄') :: (v₃,v₃') :: (v₂,v₂') :: (v₁,v₁') :: stack) s s')
    (token₂ : valOwners v₂' = []) (token₄ : valOwners v₄' = []) (token₆ : valOwners v₆' = []) :
    Follows .labelBlock stack (Actions.act .flagBlock [v₁,v₂,v₃,v₄,v₅,v₆] s) (act .flagBlock [v₁',v₂',v₃',v₄',v₅',v₆'] s') := by
  have stands₃ := holds.stands (v₃,v₃') (by simp)
  have stands₅ := holds.stands (v₅,v₅') (by simp)
  cases holds.stands (v₁,v₁') (by simp) with
  | sval id =>
    cases stands₃ with
    | uval bit =>
      cases stands₅ with
      | entries each =>
        obtain ⟨stands,owners⟩ := labelBlockNew_stands id bit each
        refine keep_follows [_,_,_,_,_,_] holds (.of_eq ?_) (.block stands) nofun
        simp only [stackOwners_cons,token₂,token₄,token₆,owners,List.nil_append]
        exact List.append_nil _
      | _ => exact .inl rfl
    | _ => exact .inl rfl
  | _ => exact .inl rfl

/-- An assignment counts its expression, which its maker gives up. -/
theorem assign_made {n : Nat} {h : Memory α} {owners : List Addr} {a : Addr} (grown : Grown t n h owners) (member : a ∈ owners)
    (id : String) (bit : IoFlags) : thenUnref [a] (assignNew id bit a h) = some (⟨id,a,bit⟩,h) := ref_unref grown member _

theorem assignment_follows (holds : Holds t ((v₃,v₃') :: (v₂,v₂') :: (v₁,v₁') :: stack) s s') (token : valOwners v₂' = []) :
    Follows .assignment stack (Actions.act .assignment [v₁,v₂,v₃] s) (act .assignment [v₁',v₂',v₃'] s') := by
  have stands₃ := holds.stands (v₃,v₃') (by simp)
  cases holds.stands (v₁,v₁') (by simp) with
  | sval id =>
    cases stands₃ with
    | expr role =>
      rename_i e a
      have member : a ∈ stackOwners ((.expr e,.expr a) :: (v₂,v₂') :: (.sval id,.sval id) :: stack) ++ buildOwners s' :=
        List.mem_append_left _ (List.mem_append_left _ List.mem_cons_self)
      have made : act .assignment [.sval id,v₂',.expr a] s' = (.assign ⟨id,a,0⟩,s') :=
        onMemory_done (f := fun h => thenUnref [a] (assignNew id 0 a h)) (k := fun a s => (.assign a,s)) (assign_made holds.grown member id 0)
      rw [made]
      refine keep_follows [_,_,_] holds (.of_eq ?_) (.assign ⟨rfl,role,rfl⟩) trivial
      simp only [stackOwners_cons,token,List.nil_append]
      rfl
    | _ => exact .inl rfl
  | _ => exact .inl rfl

theorem flagAssignment_follows (holds : Holds t ((v₅,v₅') :: (v₄,v₄') :: (v₃,v₃') :: (v₂,v₂') :: (v₁,v₁') :: stack) s s')
    (token₂ : valOwners v₂' = []) (token₄ : valOwners v₄' = []) :
    Follows .assignment stack (Actions.act .flagAssignment [v₁,v₂,v₃,v₄,v₅] s) (act .flagAssignment [v₁',v₂',v₃',v₄',v₅'] s') := by
  have stands₃ := holds.stands (v₃,v₃') (by simp)
  have stands₅ := holds.stands (v₅,v₅') (by simp)
  cases holds.stands (v₁,v₁') (by simp) with
  | sval id =>
    cases stands₃ with
    | uval bit =>
      cases stands₅ with
      | expr role =>
        rename_i e a
        have member : a ∈ stackOwners ((.expr e,.expr a) :: (v₄,v₄') :: (.uval bit,.uval bit) :: (v₂,v₂') :: (.sval id,.sval id) :: stack) ++
            buildOwners s' := List.mem_append_left _ (List.mem_append_left _ List.mem_cons_self)
        have made : act .flagAssignment [.sval id,v₂',.uval bit,v₄',.expr a] s' = (.assign ⟨id,a,bit⟩,s') :=
          onMemory_done (f := fun h => thenUnref [a] (assignNew id bit a h)) (k := fun a s => (.assign a,s)) (assign_made holds.grown member id bit)
        rw [made]
        refine keep_follows [_,_,_,_,_] holds (.of_eq ?_) (.assign ⟨rfl,role,rfl⟩) trivial
        simp only [stackOwners_cons,token₂,token₄,List.nil_append]
        rfl
      | _ => exact .inl rfl
    | _ => exact .inl rfl
  | _ => exact .inl rfl

theorem entry_follows (holds : Holds t ((v₅,v₅') :: (v₄,v₄') :: (v₃,v₃') :: (v₂,v₂') :: (v₁,v₁') :: stack) s s')
    (token₁ : valOwners v₁' = []) (token₃ : valOwners v₃' = []) (token₅ : valOwners v₅' = []) :
    Follows .labelEntry stack (Actions.act .entry [v₁,v₂,v₃,v₄,v₅] s) (act .entry [v₁',v₂',v₃',v₄',v₅'] s') := by
  have stands₄ := holds.stands (v₄,v₄') (by simp)
  cases holds.stands (v₂,v₂') (by simp) with
  | expr rval =>
    rename_i e a
    cases stands₄ with
    | expr cond =>
      rename_i c b
      have owners : (stackOwners [(v₅,v₅'),(.expr c,.expr b),(v₃,v₃'),(.expr e,.expr a),(v₁,v₁')]).Perm [b,a] := by
        simp only [stackOwners_cons,valOwners_expr,token₁,token₃,token₅,List.cons_append,List.nil_append]
        exact .refl _
      have grown := taken_grown [_,_,_,_,_] holds (owners.trans (.swap ..))
      have both := refs_unref grown id (.inl rfl)
      have made : act .entry [v₁',.expr a,v₃',.expr b,v₅'] s' = (.entry ⟨b,⟨"",a,0⟩⟩,s') := by
        obtain ⟨cella,isa⟩ := grown_owner grown List.mem_cons_self
        rw [exprRef_eq isa,Option.bind_some] at both
        obtain ⟨h,counted,released⟩ := Option.bind_eq_some_iff.mp both
        refine onMemory_done (f := fun h => thenUnref [a,b] ((assignNew "" 0 a h).bind fun r => labelEntryNew b r.1 r.2))
          (k := fun e s => (.entry e,s)) ?_
        rw [assignNew,exprRef_eq isa,Option.map_some,Option.bind_some,labelEntryNew,counted,Option.map_some,thenUnref,Option.bind_some]
        simp only [id] at released
        rw [released]
        rfl
      rw [made]
      refine keep_follows [_,_,_,_,_] holds ?_ (.entry ⟨cond,rfl,rval,rfl⟩) trivial
      exact owners
    | _ => exact .inl rfl
  | _ => exact .inl rfl

theorem trigger_follows (holds : Holds t ((v₆,v₆') :: (v₅,v₅') :: (v₄,v₄') :: (v₃,v₃') :: (v₂,v₂') :: (v₁,v₁') :: stack) s s')
    (token₁ : valOwners v₁' = []) (token₂ : valOwners v₂' = []) (token₄ : valOwners v₄' = []) (token₆ : valOwners v₆' = []) :
    Follows .triggerStatement stack (Actions.act .trigger [v₁,v₂,v₃,v₄,v₅,v₆] s) (act .trigger [v₁',v₂',v₃',v₄',v₅',v₆'] s') := by
  have stands₅ := holds.stands (v₅,v₅') (by simp)
  cases holds.stands (v₃,v₃') (by simp) with
  | expr cond =>
    rename_i c a
    cases stands₅ with
    | assigns each =>
      rename_i as as'
      have owners : (stackOwners [(v₆,v₆'),(.assigns as,.assigns as'),(v₄,v₄'),(.expr c,.expr a),(v₂,v₂'),(v₁,v₁')]).Perm
          (a :: as'.map Assign.rval) := by
        simp only [stackOwners_cons,valOwners_expr,token₁,token₂,token₄,token₆,List.nil_append]
        exact List.perm_append_singleton a _
      have made : act .trigger [v₁',v₂',.expr a,v₄',.assigns as',v₆'] s' = (.trigger ⟨a,as'⟩,s') := by
        have grown := taken_grown [_,_,_,_,_,_] holds owners
        have kept : thenUnref [a] (triggerNew a as' s'.memory) = some (⟨a,as'⟩,s'.memory) :=
          ref_unref grown (List.mem_append_left _ List.mem_cons_self) _
        exact onMemory_done (f := fun h => thenUnref [a] (triggerNew a as' h)) (k := fun t s => (.trigger t,s)) kept
      rw [made]
      refine keep_follows [_,_,_,_,_,_] holds ?_ (.trigger ⟨cond,each⟩) nofun
      exact owners
    | _ => exact .inl rfl
  | _ => exact .inl rfl

theorem labelBlock_follows (holds : Holds t ((v₁,v₁') :: stack) s s') (there : v₁' ≠ .unset) :
    Follows .instruction stack (Actions.act .labelBlock [v₁] s) (act .labelBlock [v₁'] s') := by
  have engine := holds.engine
  cases holds.stands (v₁,v₁') (by simp) with
  | block stands =>
    rename_i b b'
    have made : act .labelBlock [.block b'] s' = (.unset,{ s' with labels := s'.labels ++ [b'] }) := rfl
    rw [made]
    refine .inr ⟨⟨t,grown_perm holds.grown (List.perm_iff_count.mpr fun a => ?_),fun x member => ?_,
      ⟨List.rel_append engine.labels (.cons stands .nil),engine.triggers,engine.vars,engine.keys,engine.defined,engine.sound,
        engine.lost⟩⟩,rfl⟩
    · simp only [stackOwners_cons,buildOwners,valOwners,List.flatMap_append,List.flatMap_cons,List.flatMap_nil,List.count_append,
        List.count_nil]
      omega
    · rcases List.mem_cons.mp member with rfl | member
      · exact .movedBlock b
      · exact holds.stands x (List.mem_cons_of_mem _ member)
  | movedBlock b => exact absurd rfl there
  | _ => exact .inl rfl

theorem triggerStatement_follows (holds : Holds t ((v₁,v₁') :: stack) s s') (there : v₁' ≠ .unset) :
    Follows .instruction stack (Actions.act .triggerStatement [v₁] s) (act .triggerStatement [v₁'] s') := by
  have engine := holds.engine
  cases holds.stands (v₁,v₁') (by simp) with
  | trigger stands =>
    rename_i r r'
    have made : act .triggerStatement [.trigger r'] s' = (.unset,{ s' with triggers := s'.triggers ++ [r'] }) := rfl
    rw [made]
    refine .inr ⟨⟨t,grown_perm holds.grown (List.perm_iff_count.mpr fun a => ?_),fun x member => ?_,
      ⟨engine.labels,List.rel_append engine.triggers (.cons stands .nil),engine.vars,engine.keys,engine.defined,engine.sound,
        engine.lost⟩⟩,rfl⟩
    · simp only [stackOwners_cons,buildOwners,valOwners,List.flatMap_append,List.flatMap_cons,List.flatMap_nil,List.count_append,
        List.count_nil]
      omega
    · rcases List.mem_cons.mp member with rfl | member
      · exact .movedTrigger r
      · exact holds.stands x (List.mem_cons_of_mem _ member)
  | movedTrigger r => exact absurd rfl there
  | _ => exact .inl rfl

/-- A variable is declared, with an expression that is counted already. -/
theorem insert_follows {h : Memory α} {a : Addr} {e : Expr α} (id : String) (stands : ∀ x ∈ stack, Stands t x.1 x.2)
    (engine : Engine t s s') (grown : Grown t s.nodes h (a :: (stackOwners stack ++ buildOwners s'))) (role : t.role a = .tree e) :
    Follows .declaration stack (.unset,{ s with decls := s.decls ++ [(id,e)] }) (.unset,Build.insert { s' with memory := h } id a) := by
  have values := Lib.Tables.values_without s'.vars id engine.keys
  refine .inr ⟨⟨t,grown_perm grown (List.perm_iff_count.mpr fun b => ?_),fun x member => ?_,
    ⟨engine.labels,engine.triggers,fun x => ?_,?_,engine.defined,engine.sound,fun known => ?_⟩⟩,rfl⟩
  · have counts := List.perm_iff_count.mp values b
    simp only [stackOwners_cons,buildOwners,Build.insert,valOwners,List.map_append,List.map_cons,List.map_nil,List.count_append,
      List.count_cons,List.count_nil] at counts ⊢
    omega
  · rcases List.mem_cons.mp member with rfl | member
    · exact .unset
    · exact stands x member
  · have table : Rules.initialTable (s.decls ++ [(id,e)]) = Function.update (Rules.initialTable s.decls) id (some e) :=
      List.foldl_append
    simp only [Build.insert,List.lookup_append,Lib.Tables.lookup_without,table]
    by_cases same : x = id
    · subst same
      simpa using role
    · rw [Function.update_of_ne same,if_neg same,List.lookup_cons,beq_false_of_ne same,List.lookup_nil,Option.or_none]
      exact engine.vars x
  · simp only [Build.insert,List.map_append,List.map_cons,List.map_nil]
    refine List.nodup_append.mpr ⟨(List.filter_sublist.map Prod.fst).nodup engine.keys,List.nodup_singleton id,fun x member y here => ?_⟩
    obtain ⟨entry,kept,rfl⟩ := List.mem_map.mp member
    rw [List.mem_singleton.mp here]
    simpa using List.of_mem_filter kept
  · have length := values.length_eq
    have before := engine.lost known
    simp only [Build.insert,List.length_map,List.length_append,List.length_cons,List.length_nil] at length before ⊢
    omega

theorem varDeclaration_follows (numeric : Numeric α) (holds : Holds t ((v₃,v₃') :: (v₂,v₂') :: (v₁,v₁') :: stack) s s') (token₁ : valOwners v₁' = [])
    (token₃ : valOwners v₃' = []) :
    Follows .declaration stack (Actions.act .varDeclaration [v₁,v₂,v₃] s) (act .varDeclaration [v₁',v₂',v₃'] s') := by
  cases holds.stands (v₂,v₂') (by simp) with
  | sval id =>
    have owners : stackOwners [(v₃,v₃'),(.sval id,.sval id),(v₁,v₁')] = [] := by
      simp only [stackOwners_cons,token₁,token₃]
      rfl
    obtain ⟨t₁,grown₁,role₁,same₁⟩ := leaf_built ⟨.literal zero,none,none⟩ (.literal zero) (taken_grown [_,_,_] holds (.of_eq owners)) rfl
      (numeric _) (fun _ _ => rfl) rfl
    have kept : thenUnref [s'.memory.fresh] ((exprRef s'.memory.fresh (s'.memory.allocate ⟨.literal zero,none,none⟩)).map
        fun h => (s'.memory.fresh,h)) = some (s'.memory.fresh,s'.memory.allocate ⟨.literal zero,none,none⟩) :=
      ref_unref grown₁ List.mem_cons_self _
    have made : act .varDeclaration [v₁',.sval id,v₃'] s' =
        (.unset,Build.insert { s' with memory := s'.memory.allocate ⟨.literal zero,none,none⟩ } id s'.memory.fresh) :=
      onMemory_done (f := fun h => thenUnref [h.fresh] ((exprRef h.fresh (h.allocate ⟨.literal zero,none,none⟩)).map fun g => (h.fresh,g)))
        (k := fun v s => (.unset,s.insert id v)) kept
    rw [made]
    exact insert_follows id (stack_same (fun x member => holds.stands x (by simp [member])) (same_left same₁))
      (engine_same holds.engine (same_right same₁)) grown₁ role₁
  | _ => exact .inl rfl

theorem varInitialized_follows (holds : Holds t ((v₅,v₅') :: (v₄,v₄') :: (v₃,v₃') :: (v₂,v₂') :: (v₁,v₁') :: stack) s s')
    (token₁ : valOwners v₁' = []) (token₃ : valOwners v₃' = []) (token₅ : valOwners v₅' = []) :
    Follows .declaration stack (Actions.act .varInitialized [v₁,v₂,v₃,v₄,v₅] s) (act .varInitialized [v₁',v₂',v₃',v₄',v₅'] s') := by
  have stands₄ := holds.stands (v₄,v₄') (by simp)
  cases holds.stands (v₂,v₂') (by simp) with
  | sval id =>
    cases stands₄ with
    | expr role =>
      rename_i e a
      have grown : Grown t s.nodes s'.memory (a :: (stackOwners stack ++ buildOwners s')) :=
        taken_grown [_,_,_,_,_] holds (.of_eq (by
          simp only [stackOwners_cons,valOwners_expr,token₁,token₃,token₅,List.nil_append]
          rfl))
      have kept : thenUnref [a] ((exprRef a s'.memory).map fun h => (a,h)) = some (a,s'.memory) :=
        ref_unref grown List.mem_cons_self _
      have made : act .varInitialized [v₁',.sval id,v₃',.expr a,v₅'] s' = (.unset,Build.insert s' id a) :=
        onMemory_done (f := fun h => thenUnref [a] ((exprRef a h).map fun h => (a,h))) (k := fun v s => (.unset,s.insert id v)) kept
      rw [made]
      exact insert_follows id (fun x member => holds.stands x (by simp [member])) holds.engine grown role
    | _ => exact .inl rfl
  | _ => exact .inl rfl

/-- An action that passes nothing on. -/
theorem nothing_follows (taken : List (Actions.Val α × Val α)) (holds : Holds t (taken ++ stack) s s') (owners : stackOwners taken = [])
    {x : Nonterminal} (proper : Proper (.inr x) (.unset : Val α)) : Follows x stack (.unset,s) (.unset,s') := by
  refine keep_follows taken holds ?_ .unset proper
  exact .of_eq owners

omit [Gdouble α] in
theorem owners_nil (token : valOwners v' = []) (rest : stackOwners stack = []) : stackOwners ((v,v') :: stack) = [] := by
  rw [stackOwners_cons,token,rest,List.append_nil]

/-- Proper values for the symbols, one after the other. -/
def Along : List (Terminal ⊕ Nonterminal) → List ((Terminal ⊕ Nonterminal) × Actions.Val α × Val α) → Prop
  | [], popped => popped = []
  | x :: xs, popped => ∃ v v' rest, popped = (x,v,v') :: rest ∧ Proper x v' ∧ Along xs rest

omit [Gdouble α] in
theorem popped_along {xs : List (Terminal ⊕ Nonterminal)} : ∀ {popped : List ((Terminal ⊕ Nonterminal) × Actions.Val α × Val α)},
    (∀ x ∈ popped, Proper x.1 x.2.2) → popped.map Prod.fst = xs → Along xs popped := by
  induction xs with
  | nil => exact fun _ symbols => List.map_eq_nil_iff.mp symbols
  | cons x xs ih =>
    intro popped proper symbols
    obtain ⟨⟨y,v,v'⟩,rest,rfl,rfl,later⟩ := List.map_eq_cons_iff.mp symbols
    obtain ⟨first,others⟩ := List.forall_mem_cons.mp proper
    exact ⟨v,v',rest,rfl,first,ih others later⟩

/-- What the automaton pops for a rule, and what the rule makes of it. -/
theorem rule_follows (numeric : Numeric α) (r : Rule) (popped : List ((Terminal ⊕ Nonterminal) × Actions.Val α × Val α)) (symbols : popped.map Prod.fst = r.rhs)
    (proper : ∀ x ∈ popped, Proper x.1 x.2.2) (holds : Holds t (popped.reverse.map Prod.snd ++ stack) s s') :
    Follows r.lhs stack (Actions.act r (popped.map (·.2.1)) s) (act r (popped.map (·.2.2)) s') := by
  cases r with
  | accept =>
    obtain ⟨_,_,_,rfl,p₁,_,_,_,rfl,p₂,rfl⟩ := popped_along proper symbols
    exact nothing_follows [_,_] holds (owners_nil p₂ (owners_nil p₁ rfl)) rfl
  | program =>
    obtain ⟨_,_,_,rfl,p₁,rfl⟩ := popped_along proper symbols
    exact nothing_follows [_] holds (owners_nil p₁ rfl) rfl
  | instructionsOne =>
    obtain ⟨_,_,_,rfl,p₁,rfl⟩ := popped_along proper symbols
    exact nothing_follows [_] holds (owners_nil p₁ rfl) rfl
  | instructionsMore =>
    obtain ⟨_,_,_,rfl,p₁,_,_,_,rfl,p₂,rfl⟩ := popped_along proper symbols
    exact nothing_follows [_,_] holds (owners_nil p₂ (owners_nil p₁ rfl)) rfl
  | labelBlock =>
    obtain ⟨_,_,_,rfl,p₁,rfl⟩ := popped_along proper symbols
    exact labelBlock_follows holds p₁
  | triggerStatement =>
    obtain ⟨_,_,_,rfl,p₁,rfl⟩ := popped_along proper symbols
    exact triggerStatement_follows holds p₁
  | declaration =>
    obtain ⟨_,_,_,rfl,p₁,rfl⟩ := popped_along proper symbols
    exact nothing_follows [_] holds (owners_nil p₁ rfl) rfl
  | block =>
    obtain ⟨_,_,_,rfl,_,_,_,_,rfl,p₂,_,_,_,rfl,_,_,_,_,rfl,p₄,rfl⟩ := popped_along proper symbols
    exact block_follows holds p₂ p₄
  | flagBlock =>
    obtain ⟨_,_,_,rfl,_,_,_,_,rfl,p₂,_,_,_,rfl,_,_,_,_,rfl,p₄,_,_,_,rfl,_,_,_,_,rfl,p₆,rfl⟩ := popped_along proper symbols
    exact flagBlock_follows holds p₂ p₄ p₆
  | entriesOne =>
    obtain ⟨_,_,_,rfl,_,rfl⟩ := popped_along proper symbols
    exact entriesOne_follows holds
  | entriesMore =>
    obtain ⟨_,_,_,rfl,_,_,_,_,rfl,_,rfl⟩ := popped_along proper symbols
    exact entriesMore_follows holds
  | entry =>
    obtain ⟨_,_,_,rfl,p₁,_,_,_,rfl,_,_,_,_,rfl,p₃,_,_,_,rfl,_,_,_,_,rfl,p₅,rfl⟩ := popped_along proper symbols
    exact entry_follows holds p₁ p₃ p₅
  | trigger =>
    obtain ⟨_,_,_,rfl,p₁,_,_,_,rfl,p₂,_,_,_,rfl,_,_,_,_,rfl,p₄,_,_,_,rfl,_,_,_,_,rfl,p₆,rfl⟩ := popped_along proper symbols
    exact trigger_follows holds p₁ p₂ p₄ p₆
  | assignmentsOne =>
    obtain ⟨_,_,_,rfl,_,rfl⟩ := popped_along proper symbols
    exact assignmentsOne_follows holds
  | assignmentsMore =>
    obtain ⟨_,_,_,rfl,_,_,_,_,rfl,p₂,_,_,_,rfl,_,rfl⟩ := popped_along proper symbols
    exact assignmentsMore_follows holds p₂
  | assignment =>
    obtain ⟨_,_,_,rfl,_,_,_,_,rfl,p₂,_,_,_,rfl,_,rfl⟩ := popped_along proper symbols
    exact assignment_follows holds p₂
  | flagAssignment =>
    obtain ⟨_,_,_,rfl,_,_,_,_,rfl,p₂,_,_,_,rfl,_,_,_,_,rfl,p₄,_,_,_,rfl,_,rfl⟩ := popped_along proper symbols
    exact flagAssignment_follows holds p₂ p₄
  | varDeclaration =>
    obtain ⟨_,_,_,rfl,p₁,_,_,_,rfl,_,_,_,_,rfl,p₃,rfl⟩ := popped_along proper symbols
    exact varDeclaration_follows numeric holds p₁ p₃
  | varInitialized =>
    obtain ⟨_,_,_,rfl,p₁,_,_,_,rfl,_,_,_,_,rfl,p₃,_,_,_,rfl,_,_,_,_,rfl,p₅,rfl⟩ := popped_along proper symbols
    exact varInitialized_follows holds p₁ p₃ p₅
  | value =>
    obtain ⟨_,_,_,rfl,_,rfl⟩ := popped_along proper symbols
    exact value_follows holds
  | identifier =>
    obtain ⟨_,_,_,rfl,_,rfl⟩ := popped_along proper symbols
    exact identifier_follows holds
  | flag =>
    obtain ⟨_,_,_,rfl,_,_,_,_,rfl,p₂,_,_,_,rfl,_,rfl⟩ := popped_along proper symbols
    exact flag_follows holds p₂
  | binary o =>
    obtain ⟨_,_,_,rfl,_,_,_,_,rfl,p₂,_,_,_,rfl,_,rfl⟩ := popped_along proper symbols
    exact binary_follows holds p₂
  | parentheses =>
    obtain ⟨_,_,_,rfl,p₁,_,_,_,rfl,_,_,_,_,rfl,p₃,rfl⟩ := popped_along proper symbols
    exact parentheses_follows holds p₁ p₃
  | minus =>
    obtain ⟨_,_,_,rfl,p₁,_,_,_,rfl,_,rfl⟩ := popped_along proper symbols
    exact minus_follows numeric holds p₁
  | call =>
    obtain ⟨_,_,_,rfl,_,_,_,_,rfl,p₂,_,_,_,rfl,p₃,_,_,_,rfl,p₄,rfl⟩ := popped_along proper symbols
    exact call_follows numeric holds p₂ p₄ p₃
  | argumentsNone =>
    obtain rfl := popped_along proper symbols
    exact nothing_follows [] holds rfl (.inl rfl)
  | argumentsOne =>
    obtain ⟨_,_,_,rfl,_,rfl⟩ := popped_along proper symbols
    exact argumentsOne_follows holds
  | argumentsMore =>
    obtain ⟨_,_,_,rfl,_,_,_,_,rfl,p₂,_,_,_,rfl,_,rfl⟩ := popped_along proper symbols
    exact argumentsMore_follows holds p₂

/-! ### Runs of the parser -/

/-- `yyparse` with the actions on memory accepts the tokens. -/
def Parses (tokens : List (Syntax.Token α)) (after : Build α) : Prop :=
  yyparse.Accepts semantics Parsing.stackRoom (tokens ++ [.eof]) emptyBuild after

/-- The parsers are at one point of a run, unless an action has read what none has made. -/
def Lockstep (stack : List ((Terminal ⊕ Nonterminal) × Actions.Val α × Val α)) (s : Actions.Build α) (s' : Build α) : Prop :=
  s.undefined = true ∨ (∃ t, Holds t (stack.map Prod.snd) s s') ∧ ∀ x ∈ stack, Proper x.1 x.2.2

theorem lockstep_start : Lockstep [] (Actions.emptyBuild : Actions.Build α) emptyBuild := by
  let t : Plan α := ⟨fun _ => .tree (.literal zero),fun _ => 0,fun _ => none,fun _ => 0⟩
  have nowhere : ∀ a cell, ¬ (emptyBuild : Build α).memory.cells a = some cell := fun _ _ => nofun
  have grown : Grown t 0 (emptyBuild : Build α).memory [] := by
    refine ⟨⟨⟨fun a cell is => (nowhere a cell is).elim,fun a => ?_,fun a cell is => (nowhere a cell is).elim⟩,
      fun a cell is => (nowhere a cell is).elim,fun a cell is => (nowhere a cell is).elim⟩,
      fun a cell is => (nowhere a cell is).elim,fun a cell k is => (nowhere a cell is).elim,fun a cell e is => (nowhere a cell is).elim⟩
    rfl
  exact .inr ⟨⟨t,grown,by simp,⟨.nil,.nil,fun x => .none,List.nodup_nil,rfl,rfl,fun _ => rfl⟩⟩,by simp⟩

theorem lockstep_token (stack : List ((Terminal ⊕ Nonterminal) × Actions.Val α × Val α)) (s : Actions.Build α) (s' : Build α)
    (k : Syntax.Token α) (number : ∀ v, k = .value v → eq v v = true) (lockstep : Lockstep stack s s') :
    Lockstep ((.inl (Actions.semantics.kind k),Actions.semantics.value k,semantics.value k) :: stack) s s' := by
  rcases lockstep with undefined | ⟨⟨t,holds⟩,proper⟩
  · exact .inl undefined
  · have token : Stands t (Actions.semantics.value k) (semantics.value k) ∧ valOwners (semantics.value k) = [] := by
      cases k with
      | value v => exact ⟨.dval v (number v rfl),rfl⟩
      | identifier id => exact ⟨.sval id,rfl⟩
      | flagName bit => exact ⟨.uval bit,rfl⟩
      | _ => exact ⟨.unset,rfl⟩
    refine .inr ⟨⟨t,?_,?_,holds.engine⟩,List.forall_mem_cons.mpr ⟨token.2,proper⟩⟩
    · rw [List.map_cons,stackOwners_cons,token.2]
      exact holds.grown
    · exact List.forall_mem_cons.mpr ⟨token.1,holds.stands⟩

theorem lockstep_rule (numeric : Numeric α) (r : Rule) (popped stack : List ((Terminal ⊕ Nonterminal) × Actions.Val α × Val α)) (s : Actions.Build α)
    (s' : Build α) (symbols : popped.map Prod.fst = r.rhs) (lockstep : Lockstep (popped.reverse ++ stack) s s') :
    Lockstep ((.inr r.lhs,(Actions.act r (popped.map (·.2.1)) s).1,(act r (popped.map (·.2.2)) s').1) :: stack)
      (Actions.act r (popped.map (·.2.1)) s).2 (act r (popped.map (·.2.2)) s').2 := by
  rcases lockstep with undefined | ⟨⟨t,holds⟩,proper⟩
  · exact .inl (Calls.act_mono r _ s undefined)
  · rw [List.map_append] at holds
    rcases rule_follows numeric r popped symbols (fun x member => proper x (by simp [member])) holds with undefined | ⟨⟨t',holds'⟩,proper'⟩
    · exact .inl undefined
    · exact .inr ⟨⟨t',holds'⟩,List.forall_mem_cons.mpr ⟨proper',fun x member => proper x (List.mem_append_right _ member)⟩⟩

/-- What the parser builds in memory when it builds a program. -/
theorem parses_loads {tokens : List (Syntax.Token α)} {after : Actions.Build α} (numeric : Numeric α)
    (numbers : ∀ v, .value v ∈ tokens → eq v v = true) (parses : Operators.Parses tokens after) (produced : after.undefined = false) :
    ∃ after' t, Parses tokens after' ∧ Grown t after.nodes after'.memory (buildOwners after') ∧ Engine t after after' := by
  have token : ∀ stack s s', ∀ k ∈ tokens ++ [.eof], Lockstep stack s s' →
      Lockstep ((.inl (Actions.semantics.kind k),Actions.semantics.value k,semantics.value k) :: stack) s s' := by
    intro stack s s' k member
    refine lockstep_token stack s s' k fun v same => numbers v ?_
    subst same
    simpa using member
  obtain ⟨after',w,w',v,v',accepts,lockstep⟩ := accepts_lockstep yyparse_certified
    (show (semantics : Semantics Terminal Rule (Syntax.Token α) (Val α) (Build α)).kind = (Actions.semantics (α := α)).kind from rfl)
    Lockstep lockstep_start token (lockstep_rule numeric) parses
  rcases lockstep with undefined | ⟨⟨t,holds⟩,proper⟩
  · rw [produced] at undefined
    cases undefined
  · have eof : valOwners w' = [] := proper _ List.mem_cons_self
    have whole : valOwners v' = [] := proper (.inr .program,v,v') (by simp [yyparse])
    refine ⟨after',t,accepts,?_,holds.engine⟩
    have grown := holds.grown
    rwa [List.map_cons,List.map_cons,List.map_nil,owners_nil eof (owners_nil whole rfl)] at grown

end

end Starter.Loading
