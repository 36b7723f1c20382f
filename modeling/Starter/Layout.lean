import Starter.Parallel
import Starter.Pointers
import Starter.References

/-!
Which expression lies at which address. Beside memory stands a layout that says of every
cell what it is to hold: an expression, or the literal that a `CHANGED` node overwrites. A
cell agrees with it as far as its own fields go; so what is written into one cell has to be
looked at there only. On such memory the functions of `src/expr.c` do what their models do
on the trees, and every counter is the number of owners.
-/
namespace Starter.Layout
open Gdouble Objects Pointers Lib.Counting Lib.Approx
open Expressions (Expr Mem Variables Eval Outcome Func Op Io)

variable {α β γ : Type}

/-- What a cell is there for: an expression as it was written, or a literal of a function node,
    the one, `init` at first, that a `CHANGED` node writes over, or one that stays as it is. -/
inductive Role (α : Type)
  | tree (e : Expr α)
  | slot (node : Nat) (init : α)
  | kept (node : Nat) (v : α)

/-- The roles of the cells, where the function nodes are, and the literals of those `CHANGED`
    nodes that have one to write over, and a number that falls along every pointer. -/
structure Plan (α : Type) where
  role : Addr → Role α
  place : Nat → Addr
  slot : Nat → Option Addr
  rank : Addr → Nat

section
variable [Gdouble α]

/-- The roles of the arguments of a function node in memory. -/
def argRoles (m : Mem α) (node : Nat) (func : Func) (args : List (Expr α)) : List (Role α) :=
  match func with
  | .eval =>
    match m.captured node with
    | some v => .kept node v :: args.tail.map .tree
    | none => args.map .tree
  | .changed =>
    match Parallel.initial args with
    | some init => (args.map Role.tree ++ [Role.kept node dblMin]).set 1 (.slot node init)
    | none => args.map Role.tree ++ [Role.kept node dblMin]
  | _ => args.map .tree

/-- A node that has nothing to write has written nothing. -/
structure Blank (t : Plan α) (m : Mem α) (k : Nat) (func : Func) (args : List (Expr α)) : Prop where
  eval : func = .eval → args = [] → m.captured k = none
  changed : func = .changed → Parallel.initial args = none → t.slot k = none ∧ m.seen k = none

/-- The cell at the address has what its role asks for. -/
def Fits (t : Plan α) (m : Mem α) (a : Addr) (node : Node α) : Role α → Prop
  | .tree (.literal v) => node = ⟨.literal v,none,none⟩
  | .tree (.op o l r) => ∃ x y, node = ⟨.op o,some x,some y⟩ ∧ t.role x = .tree l ∧ t.role y = .tree r
  | .tree (.ref id) => node = ⟨.ref id,none,none⟩
  | .tree (.func k func args) => t.place k = a ∧ Blank t m k func args ∧
      ∃ as, node = ⟨.func func as,none,none⟩ ∧ as.map t.role = argRoles m k func args
  | .tree (.flag id bit) => node = ⟨.flag id bit,none,none⟩
  | .slot k init => t.slot k = some a ∧ node = ⟨.literal ((m.seen k).getD init),none,none⟩
  | .kept _ v => node = ⟨.literal v,none,none⟩

/-- Memory is as planned, with the trees in the state `m`, and counted for the owners. -/
structure World (t : Plan α) (m : Mem α) (h : Memory α) (owners : List Addr) : Prop where
  balanced : Balanced children h owners
  ranked : Ranked children t.rank h
  fits : ∀ a cell, h.cells a = some cell → Fits t m a cell.node (t.role a)

end

def Live (h : Memory α) (a : Addr) : Prop := ∃ cell, h.cells a = some cell

/-- No cell has been allocated or freed, and no pointer been changed. -/
def Keeps (h h' : Memory α) : Prop :=
  h'.fresh = h.fresh ∧ ∀ a cell, h.cells a = some cell → ∃ cell', h'.cells a = some cell' ∧ children cell'.node = children cell.node

/-- The two plans are one as to the cells that there are. -/
def Extends (h : Memory α) (t t' : Plan α) : Prop := ∀ a < h.fresh, t'.role a = t.role a

theorem keeps_refl (h : Memory α) : Keeps h h := ⟨rfl,fun _ cell is => ⟨cell,is,rfl⟩⟩

theorem keeps_trans {h h' h'' : Memory α} (first : Keeps h h') (later : Keeps h' h'') : Keeps h h'' := by
  refine ⟨later.1.trans first.1,fun a cell is => ?_⟩
  obtain ⟨cell',is',same⟩ := first.2 a cell is
  obtain ⟨cell'',is'',same'⟩ := later.2 a cell' is'
  exact ⟨cell'',is'',same'.trans same⟩

theorem keeps_live {h h' : Memory α} {a : Addr} (keeps : Keeps h h') (live : Live h a) : Live h' a := by
  obtain ⟨cell,is⟩ := live
  obtain ⟨cell',is',_⟩ := keeps.2 a cell is
  exact ⟨cell',is'⟩

section
variable [Gdouble α] {t t' : Plan α} {m m' : Mem α} {h h' : Memory α} {owners : List Addr} {a : Addr}

/-- The two calls end alike: on memory as on the trees. -/
inductive Alike (t : Plan α) (owners : List Addr) (h : Memory α) : Ends α β → Option (Outcome β × Mem α) → Prop
  | deeper : Alike t owners h .deeper none
  | defined {out : Outcome β} {h' : Memory α} {m' : Mem α} (isDefined : out ≠ .undefined) (world : World t m' h' owners)
      (keeps : Keeps h h') : Alike t owners h (.done out h') (some (out,m'))
  | undefined {h' : Memory α} {m' : Mem α} (t' : Plan α) (extended : Extends h t t') (fresh : h.fresh ≤ h'.fresh)
      (world : World t' m' h' owners) : Alike t owners h (.done .undefined h') (some (.undefined,m'))

/-- Where the cells of `needs` are there the computation on memory ends as the one on the trees. -/
def Refines (t : Plan α) (owners : List Addr) (needs : Addr → Prop) (x : Run α β) (y : Eval α β) : Prop :=
  ∀ m h, World t m h owners → (∀ a, needs a → Live h a) → Alike t owners h (x h) (y m)

variable {needs more : Addr → Prop} {x : Run α β} {y : Eval α β}

theorem alike_later {e : Ends α β} {r : Option (Outcome β × Mem α)} (keeps : Keeps h h') (alike : Alike t owners h' e r) :
    Alike t owners h e r := by
  cases alike with
  | deeper => exact .deeper
  | defined isDefined world keeps' => exact .defined isDefined world (keeps_trans keeps keeps')
  | undefined t' extended fresh world =>
    exact .undefined t' (fun a below => extended a (keeps.1 ▸ below)) (keeps.1 ▸ fresh) world

theorem refines_more (refines : Refines t owners needs x y) (sub : ∀ a, needs a → more a) : Refines t owners more x y :=
  fun m h world live => refines m h world fun a need => live a (sub a need)

theorem refines_ret (v : β) : Refines t owners needs (.ret v) (Expressions.ret v) :=
  fun _ h world _ => .defined nofun world (keeps_refl h)

theorem refines_fail (e : StError) : Refines t owners needs (.fail e : Run α β) (Expressions.fail e) :=
  fun _ h world _ => .defined nofun world (keeps_refl h)

theorem refines_stuck : Refines t owners needs (.stuck : Run α β) Expressions.stuck :=
  fun _ _ world _ => .undefined t (fun _ _ => rfl) le_rfl world

theorem refines_andThen {f : β → Run α γ} {g : β → Eval α γ} (first : Refines t owners needs x y)
    (rest : ∀ v, Refines t owners needs (f v) (g v)) : Refines t owners needs (x.andThen f) (Expressions.andThen y g) := by
  intro m h world live
  have alike := first m h world live
  simp only [Run.andThen,Expressions.andThen]
  generalize x h = e at alike
  generalize y m = r at alike
  cases alike with
  | deeper => exact .deeper
  | undefined t' extended fresh world' => exact .undefined t' extended fresh world'
  | @defined out h' m' isDefined world' keeps =>
    cases out with
    | value v => exact alike_later keeps (rest v m' h' world' fun a need => keeps_live keeps (live a need))
    | error e => exact .defined (by simp) world' keeps
    | undefined => exact absurd rfl isDefined

omit [Gdouble α] in
/-- `expr_unref` releases what a node owns in its order. -/
theorem exprUnrefWithin_eq (n : Nat) : ∀ (a : Addr) (h : Memory α), exprUnrefWithin n a h = release children n a h := by
  induction n with
  | zero => exact fun _ _ => rfl
  | succ n ih =>
    have each : (exprUnrefWithin n : Addr → Memory α → Option (Memory α)) = release children n := by
      funext a h
      exact ih a h
    have some_eq : ∀ (p : Option Addr) (h : Memory α), unrefSome (release children n) p h = releaseAll (release children n) p.toList h := by
      rintro (_ | a) h
      · rfl
      · simp only [unrefSome,Option.toList_some,releaseAll]
        exact (Option.bind_fun_some _).symm
    intro a h
    simp only [exprUnrefWithin,release,each,children,releaseAll_append,some_eq,Option.bind_assoc]

/-! ### Reading -/

/-- What a pointer in a cell leads to is there, and lower. -/
theorem child_of (world : World t m h owners) {cell : Cell (Node α)} (is : h.cells a = some cell) {b : Addr}
    (child : b ∈ children cell.node) : Live h b ∧ t.rank b < t.rank a :=
  ⟨child_live world.balanced is child,(world.ranked a cell is).2 b child⟩

omit [Gdouble α] in
theorem deref_eq {cell : Cell (Node α)} (is : h.cells a = some cell) (f : Node α → Run α β) :
    ((deref a).andThen f) h = f cell.node h := by
  simp [Run.andThen,deref,is]

/-- The cell of a function node. -/
theorem func_cell {node : Nat} {func : Func} {args : List (Expr α)} (world : World t m h owners) (live : Live h a)
    (role : t.role a = .tree (.func node func args)) :
    ∃ cell as, h.cells a = some cell ∧ cell.node = ⟨.func func as,none,none⟩ ∧ t.place node = a ∧
      Blank t m node func args ∧ as.map t.role = argRoles m node func args ∧ ∀ b ∈ as, Live h b ∧ t.rank b < t.rank a := by
  obtain ⟨cell,is⟩ := live
  have fits := world.fits a cell is
  rw [role] at fits
  obtain ⟨place,blank,as,content,roles⟩ := fits
  refine ⟨cell,as,is,content,place,blank,roles,fun b member => child_of world is ?_⟩
  rw [content]
  exact List.mem_append_left _ member

omit [Gdouble α] in
/-- An argument of a function node is read. -/
theorem pdata_eq {as : List Addr} {func : Func} {cell : Cell (Node α)} (is : h.cells a = some cell)
    (content : cell.node = ⟨.func func as,none,none⟩) (i : Nat) (f : Addr → Run α β) :
    ((pdata a i).andThen f) h = match as[i]? with
      | some b => f b h
      | none => .done .undefined h := by
  simp only [Run.andThen,pdata,deref,is,content,Data.args]
  cases as[i]? with
  | none => rfl
  | some b => rfl

variable {io : Io α} {vars : String → Option Addr} {trees : Variables α}

/-- The table of the variables has the trees. -/
structure Table (t : Plan α) (owners : List Addr) (vars : String → Option Addr) (trees : Variables α) : Prop where
  stored : ∀ x a, vars x = some a → a ∈ owners ∧ ∃ e, trees x = some e ∧ t.role a = .tree e
  absent : ∀ x, vars x = none → trees x = none

/-- The literal that a function node has of its own. -/
def Role.own (m : Mem α) : Role α → Option α
  | .tree _ => none
  | .slot k init => some ((m.seen k).getD init)
  | .kept _ v => some v

theorem own_fits {node : Node α} {role : Role α} {v : α} (fits : Fits t m a node role) (own : role.own m = some v) :
    node = ⟨.literal v,none,none⟩ := by
  cases role with
  | tree e => simp [Role.own] at own
  | slot k init =>
    cases own
    exact fits.2
  | kept k w =>
    cases own
    exact fits

/-- The calls on the lower cells do what those on their trees do. -/
structure Calls (t : Plan α) (owners : List Addr) (top : Addr) (k : Addr → Run α α) (k' : Expr α → Eval α α) : Prop where
  tree : ∀ b e, t.rank b < t.rank top → t.role b = .tree e → Refines t owners (· = b) (k b) (k' e)
  own : ∀ m h b v, World t m h owners → Live h b → t.rank b < t.rank top → (t.role b).own m = some v →
    k b h = .done (.value v) h
  literal : ∀ v, k' (.literal v) = Expressions.ret v
  captured : ∀ e m out m', k' e m = some (out,m') → out ≠ .undefined → m'.captured = m.captured

variable {self : Addr} {k : Addr → Run α α} {k' : Expr α → Eval α α}

theorem refines_op {o : Op} {l r : Expr α} (calls : Calls t owners self k k') (role : t.role self = .tree (.op o l r)) :
    Refines t owners (· = self) (opExprEval k self o)
      (Expressions.andThen (k' l) fun lval => Expressions.andThen (k' r) fun rval =>
        Expressions.ret (Expressions.opApply o lval rval)) := by
  have cell_of : ∀ m h, World t m h owners → Live h self → ∃ cell x y, h.cells self = some cell ∧
      cell.node = ⟨.op o,some x,some y⟩ ∧ t.role x = .tree l ∧ t.role y = .tree r ∧
      (Live h x ∧ t.rank x < t.rank self) ∧ Live h y ∧ t.rank y < t.rank self := by
    rintro m h world ⟨cell,is⟩
    have fits := world.fits self cell is
    rw [role] at fits
    obtain ⟨x,y,content,left,right⟩ := fits
    refine ⟨cell,x,y,is,content,left,right,child_of world is ?_,child_of world is ?_⟩ <;> simp [content,children,Data.args]
  intro m h world live
  obtain ⟨cell,x,y,is,content,left,_,⟨there,lower⟩,_⟩ := cell_of m h world (live self rfl)
  rw [opExprEval,deref_eq is,content]
  -- The right operand is looked up when the left one has been evaluated.
  refine refines_andThen (refines_more (calls.tree x l lower left) fun a same => .inr same)
    (show ∀ v, Refines t owners (fun a => a = self ∨ a = x) _ _ from fun lval m h world live => ?_) m h world ?_
  · obtain ⟨cell,_,y,is,content,_,right,_,there,lower⟩ := cell_of m h world (live self (.inl rfl))
    rw [deref_eq is,content]
    exact refines_andThen (calls.tree y r lower right) (fun rval => refines_ret _) m h world fun a same => same ▸ there
  · rintro a (rfl | rfl)
    · exact live a rfl
    · exact there

/-- The arguments of a function without memory of its own. -/
theorem refines_pdata {node : Nat} {func : Func} {args : List (Expr α)} (role : t.role self = .tree (.func node func args))
    (plain : ∀ m : Mem α, argRoles m node func args = args.map .tree) (i : Nat) {f : Addr → Run α β} {y : Eval α β}
    (present : ∀ b e, args[i]? = some e → t.role b = .tree e → t.rank b < t.rank self →
      Refines t owners (fun a => a = self ∨ a = b) (f b) y)
    (absent : args[i]? = none → y = Expressions.stuck) : Refines t owners (· = self) ((pdata self i).andThen f) y := by
  intro m h world live
  obtain ⟨cell,as,is,content,_,_,roles,below⟩ := func_cell world (live self rfl) role
  rw [pdata_eq is content]
  have same := congrArg (·[i]?) (roles.trans (plain m))
  simp only [List.getElem?_map] at same
  cases read : as[i]? with
  | none =>
    simp only [read,Option.map_none] at same
    rw [absent (Option.map_eq_none_iff.mp same.symm)]
    exact refines_stuck m h world live
  | some b =>
    simp only [read,Option.map_some] at same
    obtain ⟨e,is',same⟩ := Option.map_eq_some_iff.mp same.symm
    obtain ⟨there,lower⟩ := below b (List.mem_of_getElem? read)
    refine present b e is' same.symm lower m h world ?_
    rintro a (rfl | rfl)
    · exact live a rfl
    · exact there

theorem refines_loop {node : Nat} {func : Func} {args : List (Expr α)} (calls : Calls t owners self k k')
    (role : t.role self = .tree (.func node func args)) (plain : ∀ m : Mem α, argRoles m node func args = args.map .tree)
    {better : α → α → Bool} {loop : List (Eval α α) → α → Eval α α} (nil : ∀ r, loop [] r = Expressions.ret r)
    (cons : ∀ x xs r, loop (x :: xs) r = Expressions.andThen x fun val => loop xs (if better val r then val else r)) :
    ∀ rest i r, args.drop i = rest → Refines t owners (· = self) (argsLoop k better self rest.length i r) (loop (rest.map k') r) := by
  intro rest
  induction rest with
  | nil =>
    intro i r _
    rw [List.map_nil,nil]
    exact refines_ret r
  | cons first rest ih =>
    intro i r left
    have read : args[i]? = some first := by rw [← List.head?_drop,left,List.head?_cons]
    have next : args.drop (i+1) = rest := by rw [← List.tail_drop,left,List.tail_cons]
    rw [List.map_cons,cons]
    refine refines_pdata role plain i (fun b e is roleb lower => ?_) fun absent => by simp [read] at absent
    cases read.symm.trans is
    refine refines_andThen (refines_more (calls.tree b first lower roleb) fun a same => .inr same) fun val => ?_
    exact refines_more (ih (i+1) _ next) fun a same => .inl same

theorem refines_min {node : Nat} {args : List (Expr α)} (calls : Calls t owners self k k')
    (role : t.role self = .tree (.func node .min args)) :
    Refines t owners (· = self) (minFuncExprEval k self) (Expressions.minFuncExprEval (args.map k') dblMax) := by
  intro m h world live
  obtain ⟨cell,as,is,content,_,_,roles,_⟩ := func_cell world (live self rfl) role
  have count : as.length = args.length := by simpa [argRoles] using congrArg List.length roles
  rw [minFuncExprEval,deref_eq is,content,Data.args,count]
  exact refines_loop calls role (fun _ => rfl) (fun _ => rfl) (fun _ _ _ => rfl) args 0 dblMax rfl m h world live

theorem refines_max {node : Nat} {args : List (Expr α)} (calls : Calls t owners self k k')
    (role : t.role self = .tree (.func node .max args)) :
    Refines t owners (· = self) (maxFuncExprEval k self) (Expressions.maxFuncExprEval (args.map k') dblMin) := by
  intro m h world live
  obtain ⟨cell,as,is,content,_,_,roles,_⟩ := func_cell world (live self rfl) role
  have count : as.length = args.length := by simpa [argRoles] using congrArg List.length roles
  rw [maxFuncExprEval,deref_eq is,content,Data.args,count]
  exact refines_loop calls role (fun _ => rfl) (fun _ => rfl) (fun _ _ _ => rfl) args 0 dblMin rfl m h world live

theorem refines_round {node : Nat} {args : List (Expr α)} (calls : Calls t owners self k k')
    (role : t.role self = .tree (.func node .round args)) :
    Refines t owners (· = self) (roundFuncExprEval k self) (Expressions.roundFuncExprEval (args.map k')) := by
  refine refines_pdata role (fun _ => rfl) 0 (fun b e is roleb lower => ?_) fun absent => ?_
  · obtain ⟨rest,rfl⟩ : ∃ rest, args = e :: rest := by
      cases args with
      | nil => simp at is
      | cons first rest => exact ⟨rest,by simpa using is⟩
    exact refines_andThen (refines_more (calls.tree b e lower roleb) fun a same => .inr same) fun val => refines_ret _
  · cases args with
    | nil => rfl
    | cons first rest => simp at absent

theorem refines_limit {node : Nat} {args : List (Expr α)} (calls : Calls t owners self k k')
    (role : t.role self = .tree (.func node .limit args)) :
    Refines t owners (· = self) (limitFuncExprEval k self) (Expressions.limitFuncExprEval (args.map k')) := by
  have arg : ∀ {b e} {x : α → Run α α} {y : α → Eval α α}, t.role b = .tree e → t.rank b < t.rank self →
      (∀ val, Refines t owners (· = self) (x val) (y val)) →
      Refines t owners (fun a => a = self ∨ a = b) ((k b).andThen x) (Expressions.andThen (k' e) y) :=
    fun roleb lower rest => refines_andThen (refines_more (calls.tree _ _ lower roleb) fun a same => .inr same)
      fun val => refines_more (rest val) fun a same => .inl same
  rcases args with _ | ⟨first,_ | ⟨second,_ | ⟨third,rest⟩⟩⟩
  · exact refines_pdata role (fun _ => rfl) 0 (fun b e is _ _ => by simp at is) fun _ => rfl
  · refine refines_pdata role (fun _ => rfl) 0 (fun b e is roleb lower => ?_) fun absent => by simp at absent
    cases is
    refine arg roleb lower fun val => ?_
    exact refines_pdata role (fun _ => rfl) 1 (fun b e is _ _ => by simp at is) fun _ => rfl
  · refine refines_pdata role (fun _ => rfl) 0 (fun b e is roleb lower => ?_) fun absent => by simp at absent
    cases is
    refine arg roleb lower fun val => ?_
    refine refines_pdata role (fun _ => rfl) 1 (fun b e is roleb lower => ?_) fun absent => by simp at absent
    cases is
    refine arg roleb lower fun min => ?_
    exact refines_pdata role (fun _ => rfl) 2 (fun b e is _ _ => by simp at is) fun _ => rfl
  · refine refines_pdata role (fun _ => rfl) 0 (fun b e is roleb lower => ?_) fun absent => by simp at absent
    cases is
    refine arg roleb lower fun val => ?_
    refine refines_pdata role (fun _ => rfl) 1 (fun b e is roleb lower => ?_) fun absent => by simp at absent
    cases is
    refine arg roleb lower fun min => ?_
    refine refines_pdata role (fun _ => rfl) 2 (fun b e is roleb lower => ?_) fun absent => by simp at absent
    cases is
    exact arg roleb lower fun max => refines_ret _

/-! ### Writing -/

/-- What a cell has to agree with, in another plan and another state of the trees. -/
theorem fits_congr {node : Node α} {role : Role α} (fits : Fits t m a node role) (below : ∀ b ∈ children node, t'.role b = t.role b)
    (tree : ∀ k func args, role = .tree (.func k func args) → t'.place k = t.place k ∧ (func = .eval → m'.captured k = m.captured k) ∧
      (func = .changed → Parallel.initial args = none → t'.slot k = t.slot k ∧ m'.seen k = m.seen k))
    (slot : ∀ k init, role = .slot k init → t'.slot k = t.slot k ∧ m'.seen k = m.seen k) : Fits t' m' a node role := by
  cases role with
  | slot k init =>
    obtain ⟨place,content⟩ := fits
    obtain ⟨place',seen⟩ := slot k init rfl
    exact ⟨place'.trans place,by rw [seen]; exact content⟩
  | kept k v => exact fits
  | tree e =>
    cases e with
    | literal v => exact fits
    | ref id => exact fits
    | flag id bit => exact fits
    | op o l r =>
      obtain ⟨x,y,content,left,right⟩ := fits
      subst content
      refine ⟨x,y,rfl,(below x ?_).trans left,(below y ?_).trans right⟩ <;> simp [children,Data.args]
    | func k func args =>
      obtain ⟨place,blank,as,content,roles⟩ := fits
      subst content
      obtain ⟨place',captured,unwritten⟩ := tree k func args rfl
      refine ⟨place'.trans place,⟨fun eval none => ?_,fun changed none => ?_⟩,as,rfl,?_⟩
      · rw [captured eval]
        exact blank.eval eval none
      · obtain ⟨slot',seen'⟩ := unwritten changed none
        rw [slot',seen']
        exact blank.changed changed none
      · have same : as.map t'.role = as.map t.role :=
          List.map_congr_left fun b member => below b (List.mem_append_left _ member)
        rw [same,roles]
        cases func with
        | eval => simp only [argRoles,captured rfl]
        | min | max | round | limit | changed => rfl

/-- A `CHANGED` node remembers a value. -/
theorem store_world {b : Addr} {node : Nat} {init v : α} (world : World t m h owners) (live : Live h b)
    (role : t.role b = .slot node init) : ∃ h', storeLiteral b v h = .done (.value ()) h' ∧ Keeps h h' ∧
      World t { m with seen := Function.update m.seen node (some v) } h' owners := by
  obtain ⟨cell,is⟩ := live
  have fits := world.fits b cell is
  rw [role] at fits
  obtain ⟨place,content⟩ := fits
  obtain ⟨written,balanced⟩ : h.write b ⟨.literal v,none,none⟩ = some _ ∧ Balanced children _ owners := write_balanced world.balanced is
    (by simp [content,children,Data.args])
  refine ⟨h.set b (some { cell with node := ⟨.literal v,none,none⟩ }),
    by simp only [storeLiteral,Run.andThen,deref,is,content,Data.isLiteral,if_true,written],⟨rfl,fun a held is' => ?_⟩,balanced,?_,fun a held is' => ?_⟩
  · by_cases same : a = b
    · subst same
      cases is.symm.trans is'
      exact ⟨_,set_self ..,by simp [content,children,Data.args]⟩
    · exact ⟨held,by rw [set_other same,is'],rfl⟩
  · refine ranked_set world.ranked fun held is' => ?_
    cases is'
    exact ⟨(world.ranked b cell is).1,fun c child => by simp [children,Data.args] at child⟩
  · by_cases same : a = b
    · subst same
      rw [set_self] at is'
      cases is'
      rw [role]
      exact ⟨place,by simp⟩
    · rw [set_other same] at is'
      -- No other cell depends on what the node remembers.
      have apart : ∀ k, t.slot k = some a ∨ t.slot k = none → k ≠ node := by
        rintro k other rfl
        rcases other with other | other
        · exact same (Option.some.inj (other.symm.trans place))
        · exact nomatch other.symm.trans place
      have fits := world.fits a held is'
      refine fits_congr fits (fun _ _ => rfl) (fun k func args roleEq => ⟨rfl,fun _ => rfl,fun changed none => ⟨rfl,?_⟩⟩)
        fun k init roleEq => ⟨rfl,?_⟩
      · rw [roleEq] at fits
        exact Function.update_of_ne (apart k (.inr (fits.2.1.changed changed none).1)) ..
      · rw [roleEq] at fits
        exact Function.update_of_ne (apart k (.inl fits.1)) ..

/-- An `EVAL` node captures a value: its argument is given up, and nothing that is owned otherwise. -/
theorem capture_world {node : Nat} {e : Expr α} {rest : List (Expr α)} {arg : Addr} {as : List Addr} {v : α}
    {cell : Cell (Node α)} (world : World t m h owners) (is : h.cells self = some cell)
    (content : cell.node = ⟨.func .eval (arg :: as),none,none⟩) (role : t.role self = .tree (.func node .eval (e :: rest)))
    (open' : m.captured node = none) : ∃ h' t', capture self arg v h = some h' ∧ Extends h t t' ∧ h.fresh ≤ h'.fresh ∧
      World t' { m with captured := Function.update m.captured node (some v) } h' owners := by
  have fits := world.fits self cell is
  rw [role] at fits
  obtain ⟨place,_,as',content',roles⟩ := fits
  cases content'.symm.trans content
  simp only [argRoles,open',List.map_cons,List.cons.injEq] at roles
  have selfBelow := world.balanced.below self cell is
  have argChild : arg ∈ children cell.node := by simp [content,children,Data.args]
  have argLower := (world.ranked self cell is).2 arg argChild
  -- The new literal.
  have leaf : Balanced children h (children (⟨.literal v,none,none⟩ : Node α) ++ owners) := world.balanced
  have balanced₁ := allocate_balanced leaf
  have ranked₁ := allocate_ranked (r := 0) world.ranked leaf (Nat.zero_le _) (by simp [children,Data.args])
  have is₁ : (h.allocate ⟨.literal v,none,none⟩).cells self = some cell := by
    simp only [Heap.allocate,Function.update_of_ne selfBelow.ne,is]
  -- It takes the place of the argument, which the function now owns.
  have perm : (children (⟨.func .eval (h.fresh :: as),none,none⟩ : Node α) ++ (arg :: owners)).Perm
      (children cell.node ++ (h.fresh :: owners)) := by
    simp only [content,children,Data.args,Option.toList_none,List.append_nil,List.cons_append]
    refine List.perm_iff_count.mpr fun b => ?_
    simp only [List.count_cons,List.count_append]
    omega
  obtain ⟨written,balanced₂⟩ := write_balanced balanced₁ is₁ perm
  have ranked₂ : Ranked children (Function.update t.rank h.fresh 0) ((h.allocate ⟨.literal v,none,none⟩).set self
      (some { cell with node := ⟨.func .eval (h.fresh :: as),none,none⟩ })) := by
    refine ranked_set ranked₁ fun held same => ?_
    cases same
    refine ⟨(ranked₁ self cell is₁).1,fun b child => ?_⟩
    simp only [children,Data.args,Option.toList_none,List.append_nil,List.mem_cons] at child
    rcases child with rfl | child
    · rw [Function.update_self,Function.update_of_ne selfBelow.ne]
      exact (Nat.zero_le _).trans_lt argLower
    · exact (ranked₁ self cell is₁).2 b (by simp [content,children,Data.args,child])
  -- Then it gives it up.
  have argBelow : Function.update t.rank h.fresh 0 arg < h.fresh + 1 := by
    obtain ⟨held,there⟩ := child_live world.balanced is argChild
    have below := world.balanced.below arg held there
    rw [Function.update_of_ne below.ne]
    exact ((world.ranked arg held there).1.trans_lt below).trans (Nat.lt_succ_self _)
  obtain ⟨h',released,balanced₃,within⟩ := release_balanced (h.fresh + 1) arg _ owners ranked₂ balanced₂ argBelow
  let t' : Plan α := { t with role := Function.update t.role h.fresh (.kept node v), rank := Function.update t.rank h.fresh 0 }
  have extended : Extends h t t' := fun a below => Function.update_of_ne below.ne ..
  refine ⟨h',t',?_,extended,within.1 ▸ Nat.le_succ _,balanced₃,ranked_within ranked₂ within,fun a held is' => ?_⟩
  · simp only [capture,exprNewLiteral,is₁,Option.bind_some,content,List.set_cons_zero,written,exprUnref,exprUnrefWithin_eq]
    exact released
  · obtain ⟨old,there,same⟩ := within.2 a held is'
    rw [← same]
    by_cases new : a = h.fresh
    · subst new
      rw [set_other selfBelow.ne'] at there
      simp only [Heap.allocate,Function.update_self,Option.some.injEq] at there
      subst there
      simp [t',Fits]
    · have role' : t'.role a = t.role a := Function.update_of_ne new ..
      rw [role']
      by_cases here : a = self
      · subst here
        rw [set_self] at there
        cases there
        rw [role]
        refine ⟨place,⟨nofun,nofun⟩,h.fresh :: as,rfl,?_⟩
        have rest' : as.map t'.role = as.map t.role := by
          refine List.map_congr_left fun b member => ?_
          obtain ⟨held,there⟩ := child_live (b := b) world.balanced is (by simp [content,children,Data.args,member])
          exact extended b (world.balanced.below b held there)
        simp only [argRoles,Function.update_self,List.map_cons,rest',roles.2]
        simp [t']
      · rw [set_other here] at there
        simp only [Heap.allocate,Function.update_of_ne new] at there
        have fits := world.fits a old there
        refine fits_congr fits (fun b child => ?_) (fun k func args roleEq => ⟨rfl,fun _ => ?_,fun _ _ => ⟨rfl,rfl⟩⟩)
          fun k init _ => ⟨rfl,rfl⟩
        · obtain ⟨held,there⟩ := child_live world.balanced there child
          exact extended b (world.balanced.below b held there)
        · -- Another node is at another place.
          rw [roleEq] at fits
          refine Function.update_of_ne ?_ ..
          rintro rfl
          exact here (fits.1.symm.trans place)

/-- The argument of a function is a literal in memory where it is one in the tree. -/
theorem isLiteral_of_fits {node : Node α} {e : Expr α} (fits : Fits t m a node (.tree e)) :
    node.data.isLiteral = true ↔ ∃ v, e = .literal v := by
  cases e with
  | literal v => rw [show node = _ from fits]; simp [Data.isLiteral]
  | op o l r =>
    obtain ⟨x,y,is,_,_⟩ := fits
    simp [is,Data.isLiteral]
  | ref id => rw [show node = _ from fits]; simp [Data.isLiteral]
  | func k func args =>
    obtain ⟨_,_,as,is,_⟩ := fits
    simp [is,Data.isLiteral]
  | flag id bit => rw [show node = _ from fits]; simp [Data.isLiteral]

/-- Where no pointer is changed a function node keeps its arguments. -/
theorem func_keeps {node : Nat} {func : Func} {args : List (Expr α)} {as : List Addr} {cell : Cell (Node α)}
    (world : World t m' h' owners) (keeps : Keeps h h') (is : h.cells self = some cell)
    (content : cell.node = ⟨.func func as,none,none⟩) (role : t.role self = .tree (.func node func args)) :
    ∃ cell', h'.cells self = some cell' ∧ cell'.node = ⟨.func func as,none,none⟩ := by
  obtain ⟨cell',is',same⟩ := keeps.2 self cell is
  obtain ⟨_,as',there,content',_⟩ := func_cell world ⟨cell',is'⟩ role
  cases is'.symm.trans there
  simp only [content,content',children,Data.args,Option.toList_none,List.append_nil] at same
  exact ⟨cell',is',same ▸ content'⟩

/-- The function `EVAL`. -/
theorem refines_eval {node : Nat} {args : List (Expr α)} (calls : Calls t owners self k k')
    (role : t.role self = .tree (.func node .eval args)) :
    Refines t owners (· = self) (evalFuncExprEval k self) (Expressions.evalFuncExprEval node args (args.map k')) := by
  intro m h world live
  obtain ⟨cell,as,is,content,place,blank,roles,below⟩ := func_cell world (live self rfl) role
  rw [evalFuncExprEval,pdata_eq is content]
  cases args with
  | nil =>
    have none : as = [] := by simpa [argRoles,blank.eval rfl rfl] using roles
    subst none
    exact .undefined t (fun _ _ => rfl) le_rfl world
  | cons e rest =>
    obtain ⟨arg,as,rfl⟩ : ∃ arg as', as = arg :: as' := by
      cases as with
      | nil => cases captured : m.captured node <;> simp [argRoles,captured] at roles
      | cons arg as => exact ⟨arg,as,rfl⟩
    obtain ⟨⟨held,there⟩,lower⟩ := below arg List.mem_cons_self
    have needed : ∀ a, a = arg → Live h a := fun a same => same ▸ ⟨held,there⟩
    have fits := world.fits arg held there
    simp only [List.getElem?_cons_zero,deref_eq there]
    cases captured : m.captured node with
    | some v =>
      simp only [argRoles,captured,List.map_cons,List.cons.injEq] at roles
      have own : (t.role arg).own m = some v := by rw [roles.1]; rfl
      rw [own_fits fits own,Data.isLiteral,if_pos rfl,calls.own m h arg v world ⟨held,there⟩ lower own]
      simp only [Expressions.evalFuncExprEval,List.map_cons,captured]
      exact .defined (by simp) world (keeps_refl h)
    | none =>
      simp only [argRoles,captured,List.map_cons,List.cons.injEq] at roles
      rw [roles.1] at fits
      by_cases written : ∃ v, e = .literal v
      · have alike := calls.tree arg e lower roles.1 m h world needed
        rw [if_pos ((isLiteral_of_fits fits).mpr written)]
        obtain ⟨v,rfl⟩ := written
        simp only [Expressions.evalFuncExprEval,List.map_cons,captured]
        rwa [calls.literal] at alike
      · have tree : Expressions.evalFuncExprEval node (e :: rest) ((e :: rest).map k') m =
            Expressions.andThen (k' e) (fun x m => some (.undefined,{ m with captured := Function.update m.captured node (some x) })) m := by
          simp only [Expressions.evalFuncExprEval,List.map_cons,captured]
          cases e with
          | literal v => exact absurd ⟨v,rfl⟩ written
          | op | ref | func | flag => rfl
        rw [if_neg fun literal => written ((isLiteral_of_fits fits).mp literal),tree]
        have alike := calls.tree arg e lower roles.1 m h world needed
        have kept := calls.captured e m
        simp only [Run.andThen,Expressions.andThen]
        generalize k arg h = ended at alike
        generalize k' e m = answered at alike kept
        cases alike with
        | deeper => exact .deeper
        | undefined t' extended fresh world' => exact .undefined t' extended fresh world'
        | @defined out h' m' isDefined world' keeps =>
          cases out with
          | undefined => exact absurd rfl isDefined
          | error e => exact .defined (by simp) world' keeps
          | value x =>
            obtain ⟨cell',is',content'⟩ := func_keeps world' keeps is content role
            obtain ⟨h'',t'',done,extended,fresh,world''⟩ := capture_world (v := x) world' is' content' role
              (by rw [kept _ _ rfl isDefined,captured])
            simp only [done]
            exact .undefined t'' (fun a low => extended a (keeps.1 ▸ low)) (keeps.1 ▸ fresh) world''

/-- The function `CHANGED`. -/
theorem refines_changed {node : Nat} {args : List (Expr α)} (calls : Calls t owners self k k')
    (role : t.role self = .tree (.func node .changed args)) :
    Refines t owners (· = self) (changedFuncExprEval k self) (Expressions.changedFuncExprEval node args (args.map k')) := by
  intro m h world live
  obtain ⟨cell,as,is,content,_,_,roles,below⟩ := func_cell world (live self rfl) role
  rw [changedFuncExprEval,pdata_eq is content]
  cases args with
  | nil =>
    simp only [argRoles,Parallel.initial,List.map_nil,List.nil_append] at roles
    obtain ⟨arg0,rfl,_⟩ := List.map_eq_singleton_iff.mp roles
    simp only [List.getElem?_cons_zero,pdata_eq is content]
    exact .undefined t (fun _ _ => rfl) le_rfl world
  | cons e rest =>
    have at0 := congrArg (·[0]?) roles
    have at1 := congrArg (·[1]?) roles
    have count : (e :: rest).length = (k' e :: rest.map k').length := by simp
    simp only [List.getElem?_map] at at0 at1
    cases remembered : Parallel.initial (e :: rest) with
    | some init =>
      simp only [argRoles,remembered,List.map_cons,List.cons_append,List.set_cons_succ,List.getElem?_cons_zero] at at0 at1
      obtain ⟨arg0,read0,role0⟩ := Option.map_eq_some_iff.mp at0
      obtain ⟨arg1,read1,role1⟩ := Option.map_eq_some_iff.mp (at1.trans (show _ = some (Role.slot node init) by
        cases rest <;> simp))
      obtain ⟨there0,lower0⟩ := below arg0 (List.mem_of_getElem? read0)
      obtain ⟨there1,lower1⟩ := below arg1 (List.mem_of_getElem? read1)
      rw [List.map_cons,Parallel.changedFuncExprEval_initial remembered count]
      simp only [read0,pdata_eq is content,read1]
      refine refines_andThen (refines_more (calls.tree arg0 e lower0 role0) fun a same => .inl same)
        (show ∀ v, Refines t owners (fun a => a = arg0 ∨ a = arg1) _ _ from fun val0 m h world live => ?_) m h world ?_
      · have is1 := calls.own m h arg1 ((m.seen node).getD init) world (live arg1 (.inr rfl)) lower1 (by rw [role1]; rfl)
        obtain ⟨h',stored,keeps,world'⟩ := store_world (v := val0) world (live arg1 (.inr rfl)) role1
        simp only [Run.andThen,is1,stored,Run.ret,Expressions.changedStore]
        exact .defined (by simp) world' keeps
      · rintro a (rfl | rfl)
        · exact there0
        · exact there1
    | none =>
      obtain ⟨second,rest,rfl,other⟩ : ∃ second rest', rest = second :: rest' ∧ ∀ v, second ≠ .literal v := by
        cases rest with
        | nil => simp [Parallel.initial] at remembered
        | cons second rest =>
          refine ⟨second,rest,rfl,?_⟩
          rintro v rfl
          simp [Parallel.initial] at remembered
      simp only [argRoles,remembered,List.map_cons,List.cons_append,List.getElem?_cons_zero,List.getElem?_cons_succ] at at0 at1
      obtain ⟨arg0,read0,role0⟩ := Option.map_eq_some_iff.mp at0
      obtain ⟨arg1,read1,role1⟩ := Option.map_eq_some_iff.mp at1
      obtain ⟨there0,lower0⟩ := below arg0 (List.mem_of_getElem? read0)
      obtain ⟨there1,lower1⟩ := below arg1 (List.mem_of_getElem? read1)
      obtain ⟨y,ys,same,tree⟩ := Parallel.changedFuncExprEval_none node remembered count
      cases same
      rw [List.map_cons,tree]
      simp only [read0,pdata_eq is content,read1]
      refine refines_andThen (refines_more (calls.tree arg0 e lower0 role0) fun a same => .inl same)
        (show ∀ v, Refines t owners (fun a => a = arg0 ∨ a = arg1) _ _ from fun val0 => ?_) m h world ?_
      · refine refines_andThen (refines_more (calls.tree arg1 second lower1 role1) fun a same => .inr same) fun val1 => ?_
        intro m h world live
        obtain ⟨held,there⟩ := live arg1 (.inr rfl)
        have fits := world.fits arg1 held there
        rw [role1] at fits
        have unliteral : ¬ held.node.data.isLiteral = true := by
          intro literal
          obtain ⟨v,is⟩ := (isLiteral_of_fits fits).mp literal
          exact other v is
        simp only [storeLiteral,Run.andThen,deref,there,if_neg unliteral]
        exact .undefined t (fun _ _ => rfl) le_rfl world
      · rintro a (rfl | rfl)
        · exact there0
        · exact there1

/-! ### Evaluation -/

theorem refines_ref {id : String} (table : Table t owners vars trees)
    (each : ∀ a e, t.role a = .tree e → Refines t owners (· = a) (k a) (k' e)) :
    Refines t owners needs (refExprEval k io vars id) (Expressions.refExprEval k' io trees id) := by
  unfold refExprEval Expressions.refExprEval
  cases io.inputs id with
  | some input => exact refines_ret _
  | none =>
    cases io.outputs id with
    | some output => exact refines_ret _
    | none =>
      cases known : vars id with
      | none =>
        rw [table.absent id known]
        exact refines_fail _
      | some a =>
        obtain ⟨owner,e,stored,role⟩ := table.stored id a known
        rw [stored]
        exact fun m h world _ => each a e role m h world fun b same => same ▸ owner_live world.balanced owner

theorem refines_flag (id : String) (bit : IoFlags) :
    Refines t owners needs (flagExprEval io id bit) (Expressions.flagExprEval io id bit) := by
  unfold flagExprEval Expressions.flagExprEval
  cases io.inputs id with
  | some input => exact refines_ret _
  | none =>
    cases io.outputs id with
    | some output => exact refines_ret _
    | none => exact refines_fail _

theorem own_eval {n : Nat} {v : α} (world : World t m h owners) (live : Live h self) (own : (t.role self).own m = some v)
    (deep : t.rank self < n) : evalWithin k io vars n self h = .done (.value v) h := by
  obtain ⟨n,rfl⟩ := Nat.exists_eq_succ_of_ne_zero (Nat.ne_zero_of_lt deep)
  obtain ⟨cell,is⟩ := live
  rw [evalWithin,deref_eq is,own_fits (world.fits self cell is) own]
  rfl

/-- One tree, with the variables at the depth `depth`. -/
theorem refines_evalWithin {depth : Nat} (table : Table t owners vars trees)
    (each : ∀ a e, t.role a = .tree e → Refines t owners (· = a) (exprEval io vars depth a) (Expressions.exprEval depth io trees e)) :
    ∀ n self e, t.role self = .tree e → t.rank self < n → Refines t owners (· = self)
      (evalWithin (exprEval io vars depth) io vars n self) (Expressions.exprEval (depth+1) io trees e) := by
  intro n
  induction n with
  | zero => exact fun _ _ _ deep => absurd deep (Nat.not_lt_zero _)
  | succ n ih =>
    intro self e role deep
    have calls : Calls t owners self (evalWithin (exprEval io vars depth) io vars n) (Expressions.exprEval (depth+1) io trees) := by
      refine ⟨fun b e lower roleb => ih b e roleb (by omega),fun m h b v world live lower own => ?_,fun v => rfl,?_⟩
      · exact own_eval world live own (by omega)
      · exact fun e m out m' answered isDefined => References.exprEval_captured answered isDefined
    have evaluated : ∀ args, Expressions.evalArgs (Expressions.exprEval depth io trees) io trees args =
        args.map (Expressions.exprEval (depth+1) io trees) := Evaluation.evalArgs_eq_map _ io trees
    have unfolds : ∀ {x : Run α α} {y : Eval α α}, Refines t owners (· = self) x y →
        (∀ m h cell, World t m h owners → h.cells self = some cell →
          evalWithin (exprEval io vars depth) io vars (n+1) self h = x h) →
        Refines t owners (· = self) (evalWithin (exprEval io vars depth) io vars (n+1) self) y := by
      intro x y refines same m h world live
      obtain ⟨cell,is⟩ := live self rfl
      rw [same m h cell world is]
      exact refines m h world live
    rw [Expressions.exprEval_succ]
    cases e with
    | literal v =>
      refine unfolds (refines_ret v) fun m h cell world is => ?_
      have fits := world.fits self cell is
      rw [role] at fits
      rw [evalWithin,deref_eq is,show cell.node = _ from fits]
    | ref id =>
      refine unfolds (refines_ref table each) fun m h cell world is => ?_
      have fits := world.fits self cell is
      rw [role] at fits
      rw [evalWithin,deref_eq is,show cell.node = _ from fits]
    | flag id bit =>
      refine unfolds (refines_flag id bit) fun m h cell world is => ?_
      have fits := world.fits self cell is
      rw [role] at fits
      rw [evalWithin,deref_eq is,show cell.node = _ from fits]
    | op o l r =>
      refine unfolds (refines_op calls role) fun m h cell world is => ?_
      have fits := world.fits self cell is
      rw [role] at fits
      obtain ⟨x,y,content,_⟩ := fits
      rw [evalWithin,deref_eq is,content]
    | func node func args =>
      have content : ∀ m h cell, World t m h owners → h.cells self = some cell →
          evalWithin (exprEval io vars depth) io vars (n+1) self h =
            funcExprEval (evalWithin (exprEval io vars depth) io vars n) self func h := by
        intro m h cell world is
        obtain ⟨held,as,there,content,_⟩ := func_cell world ⟨cell,is⟩ role
        rw [evalWithin,deref_eq there,content]
      refine unfolds ?_ content
      rw [Expressions.evalWith,evaluated]
      cases func with
      | min => exact refines_min calls role
      | max => exact refines_max calls role
      | round => exact refines_round calls role
      | limit => exact refines_limit calls role
      | eval => exact refines_eval calls role
      | changed => exact refines_changed calls role

/-- `expr_eval` on memory does what its model does on the tree. -/
theorem refines_exprEval (table : Table t owners vars trees) : ∀ (depth : Nat) (self : Addr) (e : Expr α),
    t.role self = .tree e → Refines t owners (· = self) (exprEval io vars depth self) (Expressions.exprEval depth io trees e) := by
  intro depth
  induction depth with
  | zero => exact fun self e role m h _ _ => .deeper
  | succ depth ih =>
    intro self e role m h world live
    obtain ⟨cell,is⟩ := live self rfl
    have deep : t.rank self < h.fresh := (world.ranked self cell is).1.trans_lt (world.balanced.below self cell is)
    exact refines_evalWithin table ih h.fresh self e role deep m h world live

/-! ### Comparison -/

/-- What lies at a cell of the role. -/
def Role.now (m : Mem α) : Role α → Expr α
  | .tree e => Expressions.current m e
  | .slot k init => .literal ((m.seen k).getD init)
  | .kept _ v => .literal v

mutual
/-- The literals of the expression are numbers, equal to themselves. -/
def selfEqual : Expr α → Bool
  | .literal v => eq v v
  | .op _ left right => selfEqual left && selfEqual right
  | .ref _ => true
  | .func _ _ args => selfEqualArgs args
  | .flag _ _ => true

def selfEqualArgs : List (Expr α) → Bool
  | [] => true
  | e :: es => selfEqual e && selfEqualArgs es
end

theorem selfEqualArgs_mem {args : List (Expr α)} (all : selfEqualArgs args = true) : ∀ e ∈ args, selfEqual e = true := by
  induction args with
  | nil => simp
  | cons e es ih =>
    simp only [selfEqualArgs,Bool.and_eq_true] at all
    simpa using ⟨all.1,fun e member => ih all.2 e member⟩

/-- A tree is equal to itself as it lies in memory. -/
theorem sameTree_self (m : Mem α) : ∀ e : Expr α, selfEqual e = true →
    Expressions.sameTree (Expressions.current m e) (Expressions.current m e) = true
  | .literal v, self => by simpa [Expressions.current,Expressions.sameTree,selfEqual] using self
  | .op o l r, self => by
    simp only [selfEqual,Bool.and_eq_true] at self
    simp [Expressions.current,Expressions.sameTree,sameTree_self m l self.1,sameTree_self m r self.2]
  | .ref id, _ => by simp [Expressions.current,Expressions.sameTree]
  | .func k func args, _ => by
    simp only [Expressions.current]
    split <;> simp [Expressions.sameTree]
  | .flag id bit, _ => by simp [Expressions.current,Expressions.sameTree]

theorem currentArgs_eq_map (m : Mem α) (args : List (Expr α)) :
    Expressions.currentArgs m args = args.map (Expressions.current m) := by
  induction args with
  | nil => rfl
  | cons e es ih => rw [Expressions.currentArgs,ih,List.map_cons]

/-- A function node in memory has the arguments that the plan gives it. -/
theorem current_func {k : Nat} {func : Func} {args : List (Expr α)} (blank : Blank t m k func args) :
    Expressions.current m (.func k func args) = .func k func ((argRoles m k func args).map (Role.now m)) := by
  have trees : (args.map Role.tree).map (Role.now m) = Expressions.currentArgs m args := by
    rw [currentArgs_eq_map,List.map_map]
    rfl
  cases func with
  | min | max | round | limit => simp [Expressions.current,argRoles,trees]
  | eval =>
    cases captured : m.captured k with
    | none => simp [Expressions.current,argRoles,captured,trees]
    | some v =>
      cases args with
      | nil => exact nomatch captured.symm.trans (blank.eval rfl rfl)
      | cons e rest =>
        simp only [List.map_cons,Expressions.currentArgs,List.cons.injEq] at trees
        simp only [Expressions.current,argRoles,captured,List.map_cons,List.tail_cons,Expressions.currentArgs,trees.2]
        rfl
  | changed =>
    have last : Role.now m (.kept k dblMin) = .literal dblMin := rfl
    cases remembered : Parallel.initial args with
    | none =>
      have unseen := (blank.changed rfl remembered).2
      simp only [Expressions.current,argRoles,remembered,unseen,List.map_append,trees,List.map_cons,List.map_nil,last]
    | some init =>
      simp only [argRoles,remembered,List.map_set,List.map_append,trees,List.map_cons,List.map_nil,last]
      have slot : Role.now m (.slot k init) = .literal ((m.seen k).getD init) := rfl
      cases seen : m.seen k with
      | some v => simp only [Expressions.current,seen,slot,Option.getD_some]
      | none =>
        -- The literal is still the one that was there first.
        rcases args with _ | ⟨first,_ | ⟨second,rest⟩⟩
        · simp [Parallel.initial] at remembered
        · simp only [Parallel.initial,Option.some.injEq] at remembered
          simp [Expressions.current,Expressions.currentArgs,seen,slot,remembered]
        · cases second with
          | literal v =>
            simp only [Parallel.initial,Option.some.injEq] at remembered
            simp [Expressions.current,Expressions.currentArgs,seen,slot,remembered]
          | op | ref | func | flag => simp [Parallel.initial] at remembered

theorem sameTrees_length : ∀ xs ys : List (Expr α), Expressions.sameTrees xs ys = true → xs.length = ys.length
  | [], [] => fun _ => rfl
  | [], _ :: _ => fun same => by simp [Expressions.sameTrees] at same
  | _ :: _, [] => fun same => by simp [Expressions.sameTrees] at same
  | x :: xs, y :: ys => fun same => by
    simp only [Expressions.sameTrees,Bool.and_eq_true] at same
    simp [sameTrees_length xs ys same.2]

/-- Two arrays are compared like what they hold, if their elements are. -/
theorem equalAll_eq {n : Nat} {f : Addr → Expr α} : ∀ as bs : List Addr, as.length = bs.length →
    (∀ (i : Nat) a b, as[i]? = some a → bs[i]? = some b →
      exprEqualWithin h n a b = some (Expressions.sameTree (f a) (f b))) →
    equalAll (exprEqualWithin h n) as bs = some (Expressions.sameTrees (as.map f) (bs.map f)) := by
  intro as
  induction as with
  | nil =>
    intro bs same _
    cases bs with
    | nil => rfl
    | cons b bs => simp at same
  | cons a as ih =>
    intro bs same each
    cases bs with
    | nil => simp at same
    | cons b bs =>
      simp only [equalAll,each 0 a b rfl rfl,Option.bind_some,List.map_cons,Expressions.sameTrees]
      cases Expressions.sameTree (f a) (f b) with
      | false => rfl
      | true => exact ih bs (by simpa using same) fun i a b isa isb => each (i+1) a b isa isb

/-- What a cell shows of the tree at it. -/
inductive Shows (t : Plan α) (m : Mem α) (a : Addr) : Node α → Expr α → Prop
  | literal (v : α) : Shows t m a ⟨.literal v,none,none⟩ (.literal v)
  | op (o : Op) (x y : Addr) : Shows t m a ⟨.op o,some x,some y⟩ (.op o ((t.role x).now m) ((t.role y).now m))
  | ref (id : String) : Shows t m a ⟨.ref id,none,none⟩ (.ref id)
  | func (k : Nat) (func : Func) (as : List Addr) (place : t.place k = a) :
    Shows t m a ⟨.func func as,none,none⟩ (.func k func (as.map fun b => (t.role b).now m))
  | flag (id : String) (bit : IoFlags) : Shows t m a ⟨.flag id bit,none,none⟩ (.flag id bit)

theorem shows_of_fits {node : Node α} {role : Role α} (fits : Fits t m a node role) : Shows t m a node (role.now m) := by
  cases role with
  | slot k init => rw [fits.2]; exact .literal _
  | kept k v => rw [show node = _ from fits]; exact .literal v
  | tree e =>
    cases e with
    | literal v => rw [show node = _ from fits]; exact .literal v
    | ref id => rw [show node = _ from fits]; exact .ref id
    | flag id bit => rw [show node = _ from fits]; exact .flag id bit
    | op o l r =>
      obtain ⟨x,y,is,left,right⟩ := fits
      have shows := Shows.op (t := t) (m := m) (a := a) o x y
      rw [left,right] at shows
      rw [is]
      exact shows
    | func k func args =>
      obtain ⟨place,blank,as,is,roles⟩ := fits
      rw [is,Role.now,current_func blank,← roles,List.map_map]
      exact .func k func as place

/-- The literals that are written in the tree at the cell are numbers. -/
def Numbers : Role α → Prop
  | .tree e => selfEqual e = true
  | .slot _ _ | .kept _ _ => True

/-- The argument of a function is an argument that was written, or a literal of this node. -/
theorem mem_argRoles {k : Nat} {func : Func} {args : List (Expr α)} {role : Role α} (member : role ∈ argRoles m k func args) :
    (∃ e ∈ args, role = .tree e) ∨ (∃ init, role = .slot k init) ∨ ∃ v, role = .kept k v := by
  have tree : ∀ (es : List (Expr α)), role ∈ es.map Role.tree → ∃ e ∈ es, role = .tree e := by
    intro es inside
    obtain ⟨e,among,same⟩ := List.mem_map.mp inside
    exact ⟨e,among,same.symm⟩
  have last : role ∈ args.map Role.tree ++ [.kept k dblMin] → (∃ e ∈ args, role = .tree e) ∨ ∃ v, role = .kept k v := by
    intro inside
    rcases List.mem_append.mp inside with inside | inside
    · exact .inl (tree args inside)
    · exact .inr ⟨_,List.mem_singleton.mp inside⟩
  cases func with
  | min | max | round | limit => exact .inl (tree args member)
  | eval =>
    cases captured : m.captured k with
    | none =>
      simp only [argRoles,captured] at member
      exact .inl (tree args member)
    | some v =>
      simp only [argRoles,captured,List.mem_cons] at member
      rcases member with rfl | member
      · exact .inr (.inr ⟨v,rfl⟩)
      · obtain ⟨e,inside,rfl⟩ := tree args.tail member
        exact .inl ⟨e,List.mem_of_mem_tail inside,rfl⟩
  | changed =>
    cases remembered : Parallel.initial args with
    | none =>
      simp only [argRoles,remembered] at member
      exact (last member).imp_right .inr
    | some init =>
      simp only [argRoles,remembered] at member
      rcases List.mem_or_eq_of_mem_set member with member | rfl
      · exact (last member).imp_right .inr
      · exact .inr (.inl ⟨init,rfl⟩)

/-- The function node whose literal it is. -/
def Role.holder : Role α → Option Nat
  | .tree _ => none
  | .slot k _ => some k
  | .kept k _ => some k

theorem child_numbers {node : Node α} {role : Role α} (fits : Fits t m a node role) (numbers : Numbers role) {b : Addr}
    (child : b ∈ children node) : Numbers (t.role b) ∧ ((t.role b).own m ≠ none → ∃ k, (t.role b).holder = some k ∧ t.place k = a) := by
  cases role with
  | slot k init => simp [fits.2,children,Data.args] at child
  | kept k v => simp [show node = _ from fits,children,Data.args] at child
  | tree e =>
    cases e with
    | literal v => simp [show node = _ from fits,children,Data.args] at child
    | ref id => simp [show node = _ from fits,children,Data.args] at child
    | flag id bit => simp [show node = _ from fits,children,Data.args] at child
    | op o l r =>
      obtain ⟨x,y,is,left,right⟩ := fits
      simp only [Numbers,selfEqual,Bool.and_eq_true] at numbers
      simp only [is,children,Data.args,List.nil_append,Option.toList_some,List.singleton_append,List.mem_cons,
        List.not_mem_nil,or_false] at child
      rcases child with rfl | rfl
      · rw [left]
        exact ⟨numbers.1,fun own => absurd rfl own⟩
      · rw [right]
        exact ⟨numbers.2,fun own => absurd rfl own⟩
    | func k func args =>
      obtain ⟨place,_,as,is,roles⟩ := fits
      simp only [is,children,Data.args,Option.toList_none,List.append_nil] at child
      have member : t.role b ∈ argRoles m k func args := roles ▸ List.mem_map_of_mem child
      rcases mem_argRoles member with ⟨e,inside,same⟩ | ⟨init,same⟩ | ⟨v,same⟩
      · rw [same]
        refine ⟨?_,fun own => absurd rfl own⟩
        simp only [Numbers,selfEqual] at numbers
        exact selfEqualArgs_mem numbers e inside
      · rw [same]
        exact ⟨trivial,fun _ => ⟨k,rfl,place⟩⟩
      · rw [same]
        exact ⟨trivial,fun _ => ⟨k,rfl,place⟩⟩

/-- The comparison of two cells, that are not one literal of a function node. -/
theorem exprEqualWithin_eq (world : World t m h owners) : ∀ n a b, Live h a → Live h b → t.rank a < n →
    Numbers (t.role a) → Numbers (t.role b) → ((t.role a).own m ≠ none → a ≠ b) →
    exprEqualWithin h n a b = some (Expressions.sameTree ((t.role a).now m) ((t.role b).now m)) := by
  intro n
  induction n with
  | zero => exact fun a b _ _ deep => absurd deep (Nat.not_lt_zero _)
  | succ n ih =>
    intro a b livea liveb deep numbersa numbersb apart
    unfold exprEqualWithin
    by_cases same : a = b
    · subst same
      rw [if_pos rfl]
      cases role : t.role a with
      | slot k init => exact absurd rfl (apart (by simp [role,Role.own]))
      | kept k v => exact absurd rfl (apart (by simp [role,Role.own]))
      | tree e =>
        rw [role] at numbersa
        rw [Role.now,sameTree_self m e numbersa]
    · obtain ⟨x,isx⟩ := livea
      obtain ⟨y,isy⟩ := liveb
      have fitsx := world.fits a x isx
      have fitsy := world.fits b y isy
      -- A literal of one function node is none of another.
      have each : ∀ c ∈ children x.node, ∀ d ∈ children y.node,
          exprEqualWithin h n c d = some (Expressions.sameTree ((t.role c).now m) ((t.role d).now m)) := by
        intro c childc d childd
        obtain ⟨numbersc,ownc⟩ := child_numbers fitsx numbersa childc
        obtain ⟨numbersd,ownd⟩ := child_numbers fitsy numbersb childd
        obtain ⟨livec,lower⟩ := child_of world isx childc
        refine ih c d livec (child_of world isy childd).1 (by omega) numbersc numbersd fun own shared => ?_
        obtain ⟨k,holds,place⟩ := ownc own
        obtain ⟨k',holds',place'⟩ := ownd (shared ▸ own)
        rw [← shared,holds,Option.some.injEq] at holds'
        exact same (place.symm.trans (holds' ▸ place'))
      have showsx := shows_of_fits fitsx
      have showsy := shows_of_fits fitsy
      rw [if_neg same,isx,isy,Option.bind_some,Option.bind_some]
      generalize x.node = contentx at showsx each
      generalize y.node = contenty at showsy each
      generalize (t.role a).now m = nowa at showsx
      generalize (t.role b).now m = nowb at showsy
      cases showsx with
      | literal v => cases showsy <;> rfl
      | ref id => cases showsy <;> rfl
      | flag id bit => cases showsy <;> rfl
      | op o l r =>
        cases showsy with
        | op o' l' r' =>
          by_cases sameOp : o = o'
          · simp only [sameOp,if_true,equalSome,each l (by simp [children]) l' (by simp [children]),
              each r (by simp [children]) r' (by simp [children]),Option.bind_some,Expressions.sameTree,decide_true,Bool.true_and]
            cases Expressions.sameTree ((t.role l).now m) ((t.role l').now m) <;> rfl
          · simp [sameOp,Expressions.sameTree]
        | literal | ref | func | flag => rfl
      | func k func as place =>
        cases showsy with
        | func k' func' bs place' =>
          have otherNode : k ≠ k' := fun node => same (place.symm.trans (node ▸ place'))
          simp only [Expressions.sameTree,otherNode,decide_false,Bool.false_or]
          by_cases alike : func = func' ∧ as.length = bs.length
          · rw [if_pos alike,decide_eq_true alike.1,Bool.true_and]
            exact equalAll_eq as bs alike.2 fun i c d isc isd => each c (List.mem_append_left _ (List.mem_of_getElem? isc)) d
              (List.mem_append_left _ (List.mem_of_getElem? isd))
          · rw [if_neg alike,Option.some.injEq,eq_comm,Bool.and_eq_false_iff]
            by_cases sameFunc : func = func'
            · refine .inr (Bool.eq_false_iff.mpr fun found => alike ⟨sameFunc,?_⟩)
              simpa using sameTrees_length _ _ found
            · exact .inl (decide_eq_false sameFunc)
        | literal | ref | op | flag => rfl

/-- `expr_equal` on memory answers as its model does on the trees. -/
theorem exprEqual_eq [DecidableEq α] {a b : Addr} {e e' : Expr α} (world : World t m h owners) (livea : Live h a) (liveb : Live h b)
    (rolea : t.role a = .tree e) (roleb : t.role b = .tree e') (numbers : selfEqual e = true) (numbers' : selfEqual e' = true) :
    exprEqual a b h = some (Expressions.exprEqual m e e') := by
  obtain ⟨cell,is⟩ := livea
  have deep : t.rank a < h.fresh := (world.ranked a cell is).1.trans_lt (world.balanced.below a cell is)
  rw [exprEqual,exprEqualWithin_eq world h.fresh a b ⟨cell,is⟩ liveb deep (rolea ▸ numbers) (roleb ▸ numbers')
    (fun own => absurd (rolea ▸ rfl) own),rolea,roleb,Role.now,Role.now,Expressions.exprEqual]
  by_cases same : e = e'
  · subst same
    rw [sameTree_self m e numbers,Bool.or_true]
  · have different : Expressions.identical e e' = false :=
      Bool.eq_false_iff.mpr fun identical => same ((Expressions.identical_iff e e').mp identical)
    rw [different,Bool.false_or]

end

end Starter.Layout
