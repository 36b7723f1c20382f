import Starter.Evaluation

/-!
What an expression refers to, and what the answer of `expr_have_ref_to` is worth: names
that an expression does not refer to have no part in its value, its errors and what its
evaluation writes.
-/
namespace Starter.References
open Gdouble Expressions Evaluation Lib.Approx

variable {α : Type}

/-- The arguments of a function node that are still expressions of the rules: the first
    argument of an `EVAL` that has been captured is a literal. -/
def liveArgs (captured : Nat → Option α) (node : Nat) (func : Func) (args : List (Expr α)) : List (Expr α) :=
  if func = .eval ∧ (captured node).isSome then args.tail else args

/-- A name of the set occurs in the expression, or in the stored expression of a variable
    that the expression reaches. -/
inductive Reaches (vars : Variables α) (captured : Nat → Option α) (names : String → Prop) : Expr α → Prop
  | ref {id : String} (named : names id) : Reaches vars captured names (.ref id)
  | flag {id : String} {bit : IoFlags} (named : names id) : Reaches vars captured names (.flag id bit)
  | var {id : String} {e : Expr α} (stored : vars id = some e) (inside : Reaches vars captured names e) :
      Reaches vars captured names (.ref id)
  | left {o : Op} {l r : Expr α} (inside : Reaches vars captured names l) : Reaches vars captured names (.op o l r)
  | right {o : Op} {l r : Expr α} (inside : Reaches vars captured names r) : Reaches vars captured names (.op o l r)
  | arg {node : Nat} {func : Func} {args : List (Expr α)} {e : Expr α} (live : e ∈ liveArgs captured node func args)
      (inside : Reaches vars captured names e) : Reaches vars captured names (.func node func args)

/-- The expression refers to `id`, by value or by flag, itself or through variables. -/
abbrev RefersTo (vars : Variables α) (captured : Nat → Option α) (id : String) : Expr α → Prop :=
  Reaches vars captured (· = id)

theorem haveRefArgs_eq_map (k : Expr α → Option Bool) (vars : Variables α) (captured : Nat → Option α) (id : String)
    (args : List (Expr α)) : haveRefArgs k vars captured id args = args.map (haveRefWith k vars captured id) := by
  induction args with
  | nil => rfl
  | cons e es ih => rw [haveRefArgs,ih,List.map_cons]

theorem haveRefWith_func (k : Expr α → Option Bool) (vars : Variables α) (captured : Nat → Option α) (id : String)
    (node : Nat) (func : Func) (args : List (Expr α)) :
    haveRefWith k vars captured id (.func node func args) =
      anyRef ((liveArgs captured node func args).map (haveRefWith k vars captured id)) := by
  simp only [haveRefWith,haveRefArgs_eq_map,liveArgs]
  cases func <;> cases captured node <;> simp [List.map_tail]

theorem anyRef_true {answers : List (Option Bool)} (found : anyRef answers = some true) : some true ∈ answers := by
  induction answers with
  | nil => simp [anyRef] at found
  | cons a rest ih =>
    rcases a with _ | _ | _
    · simp [anyRef] at found
    · exact List.mem_cons_of_mem _ (ih (by simpa [anyRef] using found))
    · exact List.mem_cons_self

theorem anyRef_false {answers : List (Option Bool)} (none : anyRef answers = some false) :
    ∀ a ∈ answers, a = some false := by
  induction answers with
  | nil => simp
  | cons a rest ih =>
    rcases a with _ | _ | _
    · simp [anyRef] at none
    · intro b member
      rcases List.mem_cons.mp member with rfl | member
      · rfl
      · exact ih (by simpa [anyRef] using none) b member
    · simp [anyRef] at none

/-- The test answers FALSE only of names that the expression does not refer to. -/
theorem exprHaveRefTo_false {vars : Variables α} {captured : Nat → Option α} {id : String} {e : Expr α}
    (refers : RefersTo vars captured id e) (depth : Nat) : exprHaveRefTo depth vars captured id e ≠ some false := by
  induction refers generalizing depth with
  | ref named =>
    cases depth with
    | zero => simp [exprHaveRefTo,approx]
    | succ depth => simp [exprHaveRefTo_succ,haveRefWith,refExprHaveRefTo,named]
  | flag named =>
    cases depth with
    | zero => simp [exprHaveRefTo,approx]
    | succ depth => simp [exprHaveRefTo_succ,haveRefWith,named]
  | @var ref e stored _ ih =>
    cases depth with
    | zero => simp [exprHaveRefTo,approx]
    | succ depth =>
      rw [exprHaveRefTo_succ,haveRefWith,refExprHaveRefTo,stored]
      split
      · simp
      · exact ih depth
  | left _ ih =>
    cases depth with
    | zero => simp [exprHaveRefTo,approx]
    | succ depth =>
      rw [exprHaveRefTo_succ,haveRefWith]
      intro answered
      exact ih (depth+1) (anyRef_false answered _ (by simp [exprHaveRefTo_succ]))
  | right _ ih =>
    cases depth with
    | zero => simp [exprHaveRefTo,approx]
    | succ depth =>
      rw [exprHaveRefTo_succ,haveRefWith]
      intro answered
      exact ih (depth+1) (anyRef_false answered _ (by simp [exprHaveRefTo_succ]))
  | arg live _ ih =>
    cases depth with
    | zero => simp [exprHaveRefTo,approx]
    | succ depth =>
      rw [exprHaveRefTo_succ,haveRefWith_func]
      intro answered
      exact ih (depth+1) (anyRef_false answered _ (List.mem_map_of_mem live))

theorem liveArgs_subset {captured : Nat → Option α} {node : Nat} {func : Func} {args : List (Expr α)} {e : Expr α}
    (live : e ∈ liveArgs captured node func args) : e ∈ args := by
  unfold liveArgs at live
  split at live
  · exact List.mem_of_mem_tail live
  · exact live

mutual
private theorem haveRefWith_true {k : Expr α → Option Bool} {vars : Variables α} {captured : Nat → Option α}
    {id : String} (calls : ∀ e, k e = some true → RefersTo vars captured id e) :
    ∀ e : Expr α, haveRefWith k vars captured id e = some true → RefersTo vars captured id e
  | .literal _ => by simp [haveRefWith]
  | .op _ left right => by
    intro found
    rw [haveRefWith] at found
    have either := anyRef_true found
    simp only [List.mem_cons,List.not_mem_nil,or_false] at either
    rcases either with one | two
    · exact .left (haveRefWith_true calls left one.symm)
    · exact .right (haveRefWith_true calls right two.symm)
  | .ref ref => by
    intro found
    rw [haveRefWith,refExprHaveRefTo] at found
    split at found
    · rename_i same
      exact .ref same
    · split at found
      · rename_i stored
        exact .var stored (calls _ found)
      · simp at found
  | .func node func args => by
    intro found
    rw [haveRefWith_func] at found
    obtain ⟨e,live,answered⟩ := List.mem_map.mp (anyRef_true found)
    exact .arg live (haveRefArgs_true calls args e (liveArgs_subset live) answered)
  | .flag ref bit => by
    intro found
    rw [haveRefWith] at found
    exact .flag (by simpa using found)

private theorem haveRefArgs_true {k : Expr α → Option Bool} {vars : Variables α} {captured : Nat → Option α}
    {id : String} (calls : ∀ e, k e = some true → RefersTo vars captured id e) :
    ∀ args : List (Expr α), ∀ e ∈ args, haveRefWith k vars captured id e = some true → RefersTo vars captured id e
  | [] => by simp
  | first :: rest => by
    intro e member found
    rcases List.mem_cons.mp member with same | member
    · rw [same] at found ⊢
      exact haveRefWith_true calls first found
    · exact haveRefArgs_true calls rest e member found
end

/-- The test answers TRUE only of names that the expression refers to. -/
theorem exprHaveRefTo_true {vars : Variables α} {captured : Nat → Option α} {id : String} {e : Expr α} {depth : Nat}
    (found : exprHaveRefTo depth vars captured id e = some true) : RefersTo vars captured id e := by
  refine approx_induct (fun e answer => answer = true → RefersTo vars captured id e) ?_ depth e true found rfl
  rintro k calls e _ answered rfl
  exact haveRefWith_true (fun e found => calls e true found rfl) e answered

/-- Storing another expression in `changed` takes nothing away from what reaches it or
    what reaches a name without it. -/
theorem refersTo_update {vars later : Variables α} {captured : Nat → Option α} {id changed : String} {e : Expr α}
    (rest : ∀ x, x ≠ changed → later x = vars x) (refers : RefersTo vars captured id e) :
    RefersTo later captured id e ∨ RefersTo later captured changed e := by
  induction refers with
  | ref named => exact .inl (.ref named)
  | flag named => exact .inl (.flag named)
  | @var x e stored _ ih =>
    by_cases same : x = changed
    · exact .inr (.ref same)
    · rw [← rest x same] at stored
      exact ih.imp (.var stored) (.var stored)
  | left _ ih => exact ih.imp .left .left
  | right _ ih => exact ih.imp .right .right
  | arg live _ ih => exact ih.imp (.arg live) (.arg live)

/-- From memories that meet `P`, whatever the first computation answers the second answers
    too, and a value or an error leaves a memory that meets `P`. -/
def Simulates (P : Mem α → Prop) (x y : Eval α α) : Prop :=
  ∀ m r, P m → x m = some r → y m = some r ∧ (r.1 ≠ .undefined → P r.2)

theorem simulates_congruent (P : Mem α → Prop) : Congruent (Simulates P) := by
  refine ⟨?_,?_,?_,?_⟩
  · rintro v m _ start ⟨⟩
    exact ⟨rfl,fun _ => start⟩
  · rintro e m _ start ⟨⟩
    exact ⟨rfl,fun _ => start⟩
  · rintro m _ start ⟨⟩
    exact ⟨rfl,by simp⟩
  · intro x y f g first next m r start answered
    cases called : x m with
    | none => simp [andThen,called] at answered
    | some r₁ =>
      obtain ⟨out,m₁⟩ := r₁
      obtain ⟨same,kept⟩ := first m _ start called
      cases out with
      | value v =>
        simp only [andThen,called] at answered
        simp only [andThen,same]
        exact next v m₁ r (kept (by simp)) answered
      | error e =>
        simp only [andThen,called,Option.some.injEq] at answered
        subst answered
        exact ⟨by simp only [andThen,same],fun _ => kept (by simp)⟩
      | undefined =>
        simp only [andThen,called,Option.some.injEq] at answered
        subst answered
        simp [andThen,same]

variable {P : Mem α → Prop} {captured : Nat → Option α} {names : String → Prop} {io io' : Io α}
  {vars vars' : Variables α}

theorem not_reaches_empty (e : Expr α) : ¬ Reaches vars captured (fun _ => False) e := by
  intro reaches
  induction reaches with
  | ref named => exact named
  | flag named => exact named
  | var _ _ ih => exact ih
  | left _ ih => exact ih
  | right _ ih => exact ih
  | arg _ _ ih => exact ih

/-- What reaches none of the names in one of the states reaches none in the other. -/
theorem not_reaches_agree (agree : ∀ x, ¬ names x → vars x = vars' x) {e : Expr α}
    (free : ¬ Reaches vars captured names e) : ¬ Reaches vars' captured names e := by
  intro reaches
  apply free
  clear free
  induction reaches with
  | ref named => exact .ref named
  | flag named => exact .flag named
  | @var x e stored _ ih =>
    by_cases named : names x
    · exact .ref named
    · exact .var (by rw [agree x named,stored]) ih
  | left _ ih => exact .left ih
  | right _ ih => exact .right ih
  | arg live _ ih => exact .arg live ih

/-- What `P` may say: nothing of the literals that `CHANGED` nodes remember, and enough of
    the captured ones that every argument of a node that is not captured counts. -/
structure Fits (P : Mem α → Prop) (vars : Variables α) (captured : Nat → Option α) (names : String → Prop) : Prop where
  seen : ∀ m seen, P m → P { m with seen := seen }
  live : ∀ m node args e, P m → m.captured node = none → e ∈ args → Reaches vars captured names e →
    Reaches vars captured names (.func node .eval args)

private theorem fits_captured (vars : Variables α) (captured : Nat → Option α) (names : String → Prop) :
    Fits (fun m => m.captured = captured) vars captured names := by
  constructor
  · exact fun _ _ start => start
  · rintro m node args e rfl uncaptured member inside
    exact .arg (by simpa [liveArgs,uncaptured] using member) inside

/-- The two states give every name outside the set the same object or expression. -/
structure AgreeOff (names : String → Prop) (io io' : Io α) (vars vars' : Variables α) : Prop where
  inputs : ∀ x, ¬ names x → io.inputs x = io'.inputs x
  outputs : ∀ x, ¬ names x → io.outputs x = io'.outputs x
  vars : ∀ x, ¬ names x → vars x = vars' x

theorem AgreeOff.refl (names : String → Prop) (io : Io α) (vars : Variables α) : AgreeOff names io io vars vars :=
  ⟨fun _ _ => rfl,fun _ _ => rfl,fun _ _ => rfl⟩

/-- An `EVAL` node that has been captured does not look at its argument; one that has
    not yields no value. -/
private theorem simulates_eval {node : Nat} (args : List (Expr α)) {xs ys : List (Eval α α)}
    (same : xs.length = ys.length)
    (each : ∀ m, P m → m.captured node = none → List.Forall₂ (Simulates P) xs ys) :
    Simulates P (evalFuncExprEval node args xs) (evalFuncExprEval node args ys) := by
  have cong := simulates_congruent P
  rcases args with _ | ⟨arg,_⟩
  · simp only [evalFuncExprEval]
    exact cong.stuck
  rcases xs with _ | ⟨x,_⟩ <;> rcases ys with _ | ⟨y,_⟩
  · simp only [evalFuncExprEval]
    exact cong.stuck
  · simp at same
  · simp at same
  · rintro m r start answered
    simp only [evalFuncExprEval] at answered ⊢
    cases found : m.captured node with
    | some v =>
      simp only [found,Option.some.injEq] at answered ⊢
      subst answered
      exact ⟨rfl,fun _ => start⟩
    | none =>
      have head : Simulates P x y := by
        cases each m start found with
        | cons head _ => exact head
      simp only [found] at answered ⊢
      cases arg with
      | literal v =>
        simp only [Option.some.injEq] at answered ⊢
        subst answered
        exact ⟨rfl,fun _ => start⟩
      | op | ref | func | flag =>
        simp only at answered ⊢
        refine cong.andThen head (fun v => ?_) m r start answered
        rintro _ _ _ ⟨⟩
        exact ⟨rfl,by simp⟩

section
variable [Gdouble α] {k k' : Expr α → Eval α α}

private theorem simulates_related (fits : Fits P vars captured names) (agree : AgreeOff names io io' vars vars')
    (calls : ∀ e, ¬ Reaches vars captured names e → Simulates P (k e) (k' e)) :
    Related (Simulates P) (fun e => ¬ Reaches vars captured names e) k k' io io' vars vars' := by
  have cong := simulates_congruent P
  refine ⟨cong,?_,?_,?_,?_,?_⟩
  · exact fun _ _ _ free => ⟨fun inside => free (.left inside),fun inside => free (.right inside)⟩
  · intro node func args notEval _ free e member inside
    exact free (.arg (by simpa [liveArgs,notEval] using member) inside)
  · intro id free
    have outside : ¬ names id := fun named => free (.ref named)
    refine related_ref cong k k' (agree.inputs id outside) (agree.outputs id outside) (agree.vars id outside) fun e stored => ?_
    exact calls e fun inside => free (.var stored inside)
  · intro id bit free
    have outside : ¬ names id := fun named => free (.flag named)
    exact related_flag cong bit (agree.inputs id outside) (agree.outputs id outside)
  · rintro node func args (rfl | rfl) free each
    · refine simulates_eval args (by simp [evalArgs_eq_map]) fun m start uncaptured => forall₂_evalArgs ?_
      exact fun e member => each e member fun inside => free (fits.live m node args e start uncaptured member inside)
    · refine related_changed cong ?_ args (forall₂_evalArgs fun e member => each e member fun inside => ?_)
      · rintro init v m _ start ⟨⟩
        exact ⟨rfl,fun _ => fits.seen m _ start⟩
      · exact free (.arg (by simpa [liveArgs] using member) inside)

/-- More depth never changes what an evaluation answers. -/
theorem evalStep_monotone (io : Io α) (vars : Variables α) : Monotone (evalStep io vars) := by
  rintro f g below ⟨e,m⟩ r answered
  have fits : Fits (fun _ : Mem α => True) vars (fun _ => none) (fun _ => False) :=
    ⟨fun _ _ _ => trivial,fun _ _ _ e _ _ _ inside => absurd inside (not_reaches_empty e)⟩
  have simulates : Simulates (fun _ => True) (evalWith (fun e m => f (e,m)) io vars e)
      (evalWith (fun e m => g (e,m)) io vars e) :=
    evalWith_related (simulates_related fits (AgreeOff.refl _ io vars)
      fun e _ m r _ called => ⟨below (e,m) r called,fun _ => trivial⟩) e (not_reaches_empty e)
  exact (simulates m r trivial answered).1

theorem exprEval_unique {io : Io α} {vars : Variables α} {e : Expr α} {m : Mem α} {d d' : Nat}
    {r r' : Outcome α × Mem α} (first : exprEval d io vars e m = some r) (second : exprEval d' io vars e m = some r') :
    r = r' := approx_unique (evalStep_monotone io vars) first second

/-- Whatever the evaluation of an expression answers it also answers in a state that
    differs only in names that the expression does not reach, and the captured literals
    stay as they are. -/
theorem exprEval_simulates (agree : AgreeOff names io io' vars vars') (depth : Nat) :
    ∀ e, ¬ Reaches vars captured names e →
      Simulates (fun m => m.captured = captured) (exprEval depth io vars e) (exprEval depth io' vars' e) := by
  refine exprEval_related ?_ (fun k k' => simulates_related (fits_captured vars captured names) agree) depth
  intro e _ m r _ answered
  simp [exprEval,approx] at answered

/-- Evaluation captures nothing unless it ends undefined. -/
theorem exprEval_captured {e : Expr α} {m m' : Mem α} {out : Outcome α} {depth : Nat}
    (answered : exprEval depth io vars e m = some (out,m')) (defined : out ≠ .undefined) :
    m'.captured = m.captured :=
  (exprEval_simulates (AgreeOff.refl _ io vars) depth e (not_reaches_empty e) m _ rfl answered).2 defined

/-- An expression evaluates alike in two states that differ only in names that it does
    not reach. -/
theorem exprEval_agree (agree : AgreeOff names io io' vars vars') {e : Expr α} {m : Mem α}
    (free : ¬ Reaches vars m.captured names e) (depth : Nat) :
    exprEval depth io vars e m = exprEval depth io' vars' e m := by
  have back : AgreeOff names io' io vars' vars :=
    ⟨fun x out => (agree.inputs x out).symm,fun x out => (agree.outputs x out).symm,
      fun x out => (agree.vars x out).symm⟩
  apply Option.ext
  intro r
  constructor
  · exact fun answered => (exprEval_simulates agree depth e free m r rfl answered).1
  · exact fun answered =>
      (exprEval_simulates back depth e (not_reaches_agree agree.vars free) m r rfl answered).1

end

/-- What an expression sees of an object. -/
def view (obj : Objects.IoObject α) : α × IoFlags := (obj.val,obj.flags)

/-- The objects differ in nothing that an expression sees. -/
structure SameViews (io io' : Io α) : Prop where
  inputs : ∀ x, (io.inputs x).map view = (io'.inputs x).map view
  outputs : ∀ x, (io.outputs x).map view = (io'.outputs x).map view

theorem SameViews.symm {io io' : Io α} (same : SameViews io io') : SameViews io' io :=
  ⟨fun x => (same.inputs x).symm,fun x => (same.outputs x).symm⟩

section
variable [Gdouble α] {io io' : Io α} {vars : Variables α}

private theorem ref_views (same : SameViews io io') (k : Expr α → Eval α α) (vars : Variables α) (id : String) :
    refExprEval k io vars id = refExprEval k io' vars id ∧ ∀ bit, flagExprEval io id bit = flagExprEval io' id bit := by
  have inputs := same.inputs id
  have outputs := same.outputs id
  unfold refExprEval flagExprEval
  cases input : io.inputs id with
  | some obj =>
    rw [input] at inputs
    obtain ⟨obj',there,alike⟩ := Option.map_eq_some_iff.mp inputs.symm
    obtain ⟨val,flags⟩ := Prod.mk.inj alike
    rw [there]
    exact ⟨by simp only [val],fun bit => by simp only [flags]⟩
  | none =>
    rw [input] at inputs
    rw [Option.map_eq_none_iff.mp inputs.symm]
    cases output : io.outputs id with
    | some obj =>
      rw [output] at outputs
      obtain ⟨obj',there,alike⟩ := Option.map_eq_some_iff.mp outputs.symm
      obtain ⟨val,flags⟩ := Prod.mk.inj alike
      rw [there]
      exact ⟨by simp only [val],fun bit => by simp only [flags]⟩
    | none =>
      rw [output] at outputs
      rw [Option.map_eq_none_iff.mp outputs.symm]
      exact ⟨rfl,fun _ => rfl⟩

mutual
private theorem evalWith_views (same : SameViews io io') (k : Expr α → Eval α α) :
    ∀ e : Expr α, evalWith k io vars e = evalWith k io' vars e
  | .literal _ => rfl
  | .op o left right => by simp only [evalWith,evalWith_views same k left,evalWith_views same k right]
  | .ref id => (ref_views same k vars id).1
  | .func node func args => by simp only [evalWith,evalArgs_views same k args]
  | .flag id bit => (ref_views same k vars id).2 bit

private theorem evalArgs_views (same : SameViews io io') (k : Expr α → Eval α α) :
    ∀ args : List (Expr α), evalArgs k io vars args = evalArgs k io' vars args
  | [] => rfl
  | e :: es => by simp only [evalArgs,evalWith_views same k e,evalArgs_views same k es]
end

/-- Then an expression evaluates alike. -/
theorem exprEval_views (same : SameViews io io') (depth : Nat) (e : Expr α) (m : Mem α) :
    exprEval depth io vars e m = exprEval depth io' vars e m := by
  have step : evalStep io vars = evalStep io' vars := by
    funext f call
    exact congrFun (evalWith_views same _ call.1) call.2
  rw [exprEval,exprEval,step]

end

mutual
/-- The expression has no `CHANGED` and no `EVAL`. -/
def plain : Expr α → Bool
  | .literal _ => true
  | .op _ left right => plain left && plain right
  | .ref _ => true
  | .func _ func args => func != .eval && func != .changed && plainArgs args
  | .flag _ _ => true

def plainArgs : List (Expr α) → Bool
  | [] => true
  | e :: es => plain e && plainArgs es
end

theorem plainArgs_mem {args : List (Expr α)} (all : plainArgs args = true) : ∀ e ∈ args, plain e = true := by
  induction args with
  | nil => simp
  | cons first rest ih =>
    obtain ⟨one,others⟩ := Bool.and_eq_true_iff.mp all
    intro e member
    rcases List.mem_cons.mp member with rfl | member
    · exact one
    · exact ih others e member

/-- The computation leaves the memory of the nodes as it is. -/
def Still (x : Eval α α) : Prop := ∀ m r, x m = some r → r.2 = m

theorem still_congruent : Congruent fun x _ : Eval α α => Still x := by
  refine ⟨?_,?_,?_,?_⟩
  · rintro v m _ ⟨⟩
    rfl
  · rintro e m _ ⟨⟩
    rfl
  · rintro m _ ⟨⟩
    rfl
  · intro x _ f _ first next m r answered
    cases called : x m with
    | none => simp [andThen,called] at answered
    | some r₁ =>
      obtain ⟨out,m₁⟩ := r₁
      obtain rfl : m₁ = m := first m _ called
      cases out with
      | value v =>
        simp only [andThen,called] at answered
        exact next v m₁ r answered
      | error e =>
        simp only [andThen,called,Option.some.injEq] at answered
        exact answered ▸ rfl
      | undefined =>
        simp only [andThen,called,Option.some.injEq] at answered
        exact answered ▸ rfl

/-- Expressions without `CHANGED` and `EVAL` write nothing, over a table of such. -/
theorem exprEval_plain [Gdouble α] (table : ∀ x e, vars x = some e → plain e = true) (depth : Nat) :
    ∀ e, plain e = true → Still (exprEval depth io vars e) := by
  refine @exprEval_related α _ (fun x _ => Still x) (fun e => plain e = true) io io vars vars ?_ ?_ depth
  · intro e _ m r answered
    simp [exprEval,approx] at answered
  intro k k' calls
  refine ⟨still_congruent,?_,?_,?_,?_,?_⟩
  · exact fun _ l r free => Bool.and_eq_true_iff.mp (by simpa only [plain] using free)
  · intro node func args _ _ free
    simp only [plain,Bool.and_eq_true] at free
    exact plainArgs_mem free.2
  · exact fun id _ => related_ref still_congruent k k' rfl rfl rfl fun e stored => calls e (table id e stored)
  · exact fun _ bit _ => related_flag still_congruent bit rfl rfl
  · rintro node func args (rfl | rfl) free
    · simp [plain] at free
    · simp [plain] at free

end Starter.References
