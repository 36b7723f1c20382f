import Starter.Layout
import Starter.Parsing

/-!
What the parser builds in memory. While it is at work every cell has one owner: another
cell, a value on the stack of the parser, the engine, or nobody any more.
-/
namespace Starter.Building
open Gdouble Objects Grammar Pointers Layout Lib.Counting Lib.Lr
open Expressions (Expr Mem Func Op freshMem)

variable {α : Type}

/-! ### Owners -/

def LabelEntry.owners (self : LabelEntry) : List Addr := [self.cond,self.ass.rval]

def LabelBlock.owners (self : LabelBlock) : List Addr := self.entries.flatMap LabelEntry.owners

def Trigger.owners (self : Trigger) : List Addr := self.cond :: self.ass.map Assign.rval

/-- The references of a semantic value. -/
def valOwners : Val α → List Addr
  | .unset | .dval _ | .sval _ | .uval _ => []
  | .expr a => [a]
  | .args as => as
  | .assign a => [a.rval]
  | .assigns as => as.map Assign.rval
  | .entry e => LabelEntry.owners e
  | .entries es => es.flatMap LabelEntry.owners
  | .block b => LabelBlock.owners b
  | .trigger t => Trigger.owners t

/-- The references of the engine, and those that nobody gives up any more. -/
def buildOwners (s : Build α) : List Addr :=
  s.labels.flatMap LabelBlock.owners ++ (s.triggers.flatMap Trigger.owners ++ (s.vars.map Prod.snd ++ s.lost))

/-! ### Memory while it is built -/

/-- The function node that the cell is or belongs to. -/
def nodeOf : Role α → Option Nat
  | .tree (.func k _ _) => some k
  | .tree _ => none
  | .slot k _ => some k
  | .kept k _ => some k

section
variable [Gdouble α]

/-- What C guarantees of a numeric literal: it is no NaN. -/
def Numeric (α : Type) [Gdouble α] : Prop := ∀ q : ℚ, eq (ofRat q : α) (ofRat q) = true

/-- Memory is as planned for trees with `n` function nodes, and nothing is shared. The literals
    are equal to themselves. -/
structure Grown (t : Plan α) (n : Nat) (h : Memory α) (owners : List Addr) : Prop where
  world : World t freshMem h owners
  single : ∀ a cell, h.cells a = some cell → cell.nref = 1
  nodes : ∀ a cell k, h.cells a = some cell → nodeOf (t.role a) = some k → k < n
  numbers : ∀ a cell e, h.cells a = some cell → t.role a = .tree e → selfEqual e = true

variable {t t' : Plan α} {n : Nat} {h : Memory α} {owners rest : List Addr} {a b : Addr}

theorem grown_perm (grown : Grown t n h owners) (perm : owners.Perm rest) : Grown t n h rest :=
  ⟨⟨balanced_perm grown.world.balanced perm,grown.world.ranked,grown.world.fits⟩,grown.single,grown.nodes,grown.numbers⟩

theorem grown_owner (grown : Grown t n h owners) (member : a ∈ owners) : Live h a := owner_live grown.world.balanced member

theorem live_below (grown : Grown t n h owners) (live : Live h a) : a < h.fresh := by
  obtain ⟨cell,is⟩ := live
  exact grown.world.balanced.below a cell is

/-- Nobody owns twice, nor is what somebody owns a child of another cell. -/
theorem grown_alone (grown : Grown t n h owners) (member : a ∈ owners) : owners.count a = 1 ∧ edges children h a = 0 := by
  obtain ⟨cell,is⟩ := grown_owner grown member
  have counted := grown.world.balanced.counted a
  rw [nref_of is,grown.single a cell is] at counted
  have some := List.count_pos_iff.mpr member
  omega

theorem grown_nodup (grown : Grown t n h owners) : owners.Nodup := by
  refine List.nodup_iff_count_le_one.mpr fun a => ?_
  by_cases member : a ∈ owners
  · exact (grown_alone grown member).1.le
  · exact (List.count_eq_zero.mpr member).trans_le (Nat.zero_le 1)

theorem grown_child (grown : Grown t n h owners) (member : a ∈ owners) {cell : Cell (Node α)} (is : h.cells b = some cell) :
    a ∉ children cell.node := by
  intro child
  have pointed : 0 < edges children h a :=
    edges_pos.mpr ⟨b,grown.world.balanced.below b cell is,by simpa [out,is] using child⟩
  exact absurd (grown_alone grown member).2 pointed.ne'

/-- A new cell that takes its children from the owners. The plan may say something new of these. -/
theorem grown_allocate (t' : Plan α) {node : Node α} (grown : Grown t n h (children node ++ rest)) {n' : Nat} (more : n ≤ n')
    (rank : t'.rank = Function.update t.rank h.fresh h.fresh) (same : ∀ b, Live h b → b ∉ children node → t'.role b = t.role b)
    (place : ∀ k < n, t'.place k = t.place k ∧ t'.slot k = t.slot k)
    (new : Fits t' freshMem h.fresh node (t'.role h.fresh)) (bound : ∀ k, nodeOf (t'.role h.fresh) = some k → k < n')
    (number : ∀ e, t'.role h.fresh = .tree e → selfEqual e = true)
    (given : ∀ b ∈ children node, ∀ cell, h.cells b = some cell → Fits t' freshMem b cell.node (t'.role b) ∧
      (∀ k, nodeOf (t'.role b) = some k → k < n') ∧ ∀ e, t'.role b = .tree e → selfEqual e = true) :
    Grown t' n' (h.allocate node) (h.fresh :: rest) ∧ ∀ b ∈ rest, t'.role b = t.role b := by
  have apart : ∀ b ∈ rest, b ∉ children node := fun b later child =>
    List.disjoint_of_nodup_append (grown_nodup grown) child later
  have ranked := allocate_ranked (r := h.fresh) grown.world.ranked grown.world.balanced le_rfl fun b child => by
    obtain ⟨cell,is⟩ := grown_owner grown (List.mem_append_left rest child)
    exact ((grown.world.ranked b cell is).1).trans_lt (grown.world.balanced.below b cell is)
  have cells : ∀ b cell, (h.allocate node).cells b = some cell →
      (b = h.fresh ∧ cell = ⟨node,1⟩) ∨ (b ≠ h.fresh ∧ h.cells b = some cell) := by
    intro b cell is
    by_cases fresh : b = h.fresh
    · subst fresh
      simp only [Heap.allocate,Function.update_self,Option.some.injEq] at is
      exact .inl ⟨rfl,is.symm⟩
    · simp only [Heap.allocate,Function.update_of_ne fresh] at is
      exact .inr ⟨fresh,is⟩
  have old : ∀ b cell, h.cells b = some cell → Fits t' freshMem b cell.node (t'.role b) ∧
      (∀ k, nodeOf (t'.role b) = some k → k < n') ∧ ∀ e, t'.role b = .tree e → selfEqual e = true := by
    intro b cell is
    by_cases child : b ∈ children node
    · exact given b child cell is
    · have fits := grown.world.fits b cell is
      have nodes := grown.nodes b cell
      rw [same b ⟨cell,is⟩ child]
      refine ⟨fits_congr fits (fun c below => ?_) (fun k func args roleEq => ?_) fun k init roleEq => ?_,
        fun k holds => (nodes k is holds).trans_le more,fun e => grown.numbers b cell e is⟩
      · refine same c (child_live grown.world.balanced is below) fun given => ?_
        exact grown_child grown (List.mem_append_left rest given) is below
      · obtain ⟨place',slot'⟩ := place k (nodes k is (by rw [roleEq]; rfl))
        exact ⟨place',fun _ => rfl,fun _ _ => ⟨slot',rfl⟩⟩
      · exact ⟨(place k (nodes k is (by rw [roleEq]; rfl))).2,rfl⟩
  refine ⟨⟨⟨allocate_balanced grown.world.balanced,rank ▸ ranked,fun b cell is => ?_⟩,fun b cell is => ?_,fun b cell k is => ?_,
    fun b cell e is => ?_⟩,
    fun b later => same b (grown_owner grown (List.mem_append_right _ later)) (apart b later)⟩
  · rcases cells b cell is with ⟨rfl,rfl⟩ | ⟨_,is⟩
    · exact new
    · exact (old b cell is).1
  · rcases cells b cell is with ⟨rfl,rfl⟩ | ⟨_,is⟩
    · rfl
    · exact grown.single b cell is
  · rcases cells b cell is with ⟨rfl,rfl⟩ | ⟨_,is⟩
    · exact bound k
    · exact (old b cell is).2.1 k
  · rcases cells b cell is with ⟨rfl,rfl⟩ | ⟨_,is⟩
    · exact number e
    · exact (old b cell is).2.2 e

/-- The plan with another cell. -/
def extend (t : Plan α) (a : Addr) (role : Role α) : Plan α :=
  { t with role := Function.update t.role a role, rank := Function.update t.rank a a }

theorem leaf_built (node : Node α) (e : Expr α) (grown : Grown t n h owners) (leaf : children node = [])
    (number : selfEqual e = true) (fits : ∀ t' a, Fits t' freshMem a node (.tree e)) (plain : nodeOf (.tree e) = none) :
    ∃ t', Grown t' n (h.allocate node) (h.fresh :: owners) ∧ t'.role h.fresh = .tree e ∧ ∀ b ∈ owners, t'.role b = t.role b := by
  have role : (extend t h.fresh (.tree e)).role h.fresh = .tree e := Function.update_self ..
  have grown' : Grown t n h (children node ++ owners) := by rwa [leaf]
  obtain ⟨built,same⟩ := grown_allocate (extend t h.fresh (.tree e)) grown' le_rfl rfl
    (fun b live _ => Function.update_of_ne (live_below grown live).ne ..) (fun k _ => ⟨rfl,rfl⟩)
    (by rw [role]; exact fits _ _)
    (fun k holds => by rw [role,plain] at holds; cases holds) (fun e' holds => by rw [role] at holds; cases holds; exact number)
    (fun b child => by simp [leaf] at child)
  exact ⟨_,built,role,same⟩

theorem op_built (o : Op) {l r : Expr α} {x y : Addr} (grown : Grown t n h (x :: y :: rest)) (left : t.role x = .tree l)
    (right : t.role y = .tree r) : ∃ t', Grown t' n (h.allocate ⟨.op o,some x,some y⟩) (h.fresh :: rest) ∧
      t'.role h.fresh = .tree (.op o l r) ∧ ∀ b ∈ rest, t'.role b = t.role b := by
  have kept : ∀ b, Live h b → (extend t h.fresh (.tree (.op o l r))).role b = t.role b :=
    fun b live => Function.update_of_ne (live_below grown live).ne ..
  have role : (extend t h.fresh (.tree (.op o l r))).role h.fresh = .tree (.op o l r) := Function.update_self ..
  have livex := grown_owner grown (List.mem_cons_self ..)
  have livey := grown_owner grown (List.mem_cons_of_mem x List.mem_cons_self)
  have grown' : Grown t n h (children (⟨.op o,some x,some y⟩ : Node α) ++ rest) := grown
  obtain ⟨built,same⟩ := grown_allocate (extend t h.fresh (.tree (.op o l r))) grown' le_rfl rfl (fun b live _ => kept b live) (fun k _ => ⟨rfl,rfl⟩)
    (by rw [role]; exact ⟨x,y,rfl,(kept x livex).trans left,(kept y livey).trans right⟩) (fun k holds => by rw [role] at holds; cases holds)
    (fun e holds => by
      rw [role] at holds
      cases holds
      obtain ⟨cellx,isx⟩ := livex
      obtain ⟨celly,isy⟩ := livey
      simp [selfEqual,grown.numbers x cellx l isx left,grown.numbers y celly r isy right])
    (fun b child cell is => by
      have fits := grown.world.fits b cell is
      rw [kept b ⟨cell,is⟩]
      refine ⟨fits_congr fits (fun c below => kept c (child_live grown.world.balanced is below)) (fun k func args _ =>
        ⟨rfl,fun _ => rfl,fun _ _ => ⟨rfl,rfl⟩⟩) fun k init _ => ⟨rfl,rfl⟩,fun k holds => grown.nodes b cell k is holds,
        fun e => grown.numbers b cell e is⟩)
  exact ⟨_,built,role,same⟩

/-! ### References that are counted and given up again -/

omit [Gdouble α] in
theorem exprRef_eq {cell : Cell (Node α)} (is : h.cells a = some cell) :
    exprRef a h = some (h.set a (some { cell with nref := cell.nref + 1 })) := by
  simp [exprRef,Heap.retain,is]

omit [Gdouble α] in
theorem exprUnref_eq {cell : Cell (Node α)} (is : h.cells a = some cell) (shared : 1 < cell.nref) (some : 0 < h.fresh) :
    exprUnref a h = .some (h.set a (.some { cell with nref := cell.nref - 1 })) := by
  obtain ⟨n,room⟩ := Nat.exists_eq_succ_of_ne_zero some.ne'
  simp only [exprUnref,room,exprUnrefWithin,is,Option.bind_some,if_pos shared]

omit [Gdouble α] in
theorem set_allocate (old : a ≠ h.fresh) (cell : Option (Cell (Node α))) (node : Node α) :
    (h.set a cell).allocate node = (h.allocate node).set a cell := by
  simp only [Heap.allocate,Heap.set]
  rw [Function.update_comm old]

/-- A reference that is counted and given up leaves memory as it was. -/
theorem ref_unref {β : Type} (grown : Grown t n h owners) (member : a ∈ owners) (made : β) :
    thenUnref [a] ((exprRef a h).map fun h => (made,h)) = some (made,h) := by
  obtain ⟨cell,is⟩ := grown_owner grown member
  have single := grown.single a cell is
  have room := Nat.zero_lt_of_lt (live_below grown ⟨cell,is⟩)
  simp only [thenUnref,exprRef_eq is,Option.map_some,Option.bind_some,releaseAll]
  rw [exprUnref_eq (set_self ..) (by simp [single]) room]
  simp [set_eq_self is]

/-- So does a pair of them, with a cell allocated between. -/
theorem refs_unref (grown : Grown t n h (a :: b :: rest)) (g : Memory α → Memory α)
    (each : (g = id) ∨ ∃ node, g = fun h => h.allocate node) :
    ((exprRef a h).bind fun h => (exprRef b h).bind fun h => releaseAll exprUnref [a,b] (g h)) = some (g h) := by
  obtain ⟨cella,isa⟩ := grown_owner grown List.mem_cons_self
  obtain ⟨cellb,isb⟩ := grown_owner grown (List.mem_cons_of_mem a List.mem_cons_self)
  have apart : a ≠ b := by
    have nodup := grown_nodup grown
    rintro rfl
    simp at nodup
  have belowa := live_below grown ⟨cella,isa⟩
  have belowb := live_below grown ⟨cellb,isb⟩
  have singlea := grown.single a cella isa
  have singleb := grown.single b cellb isb
  have moved : ∀ ca cb, g ((h.set a ca).set b cb) = ((g h).set a ca).set b cb := by
    intro ca cb
    rcases each with rfl | ⟨node,rfl⟩
    · rfl
    · exact (set_allocate (h := h.set a ca) belowb.ne cb node).trans (by rw [set_allocate belowa.ne])
  have kepta : (g h).cells a = some cella := by
    rcases each with rfl | ⟨node,rfl⟩
    · exact isa
    · simp only [Heap.allocate,Function.update_of_ne belowa.ne,isa]
  have keptb : (g h).cells b = some cellb := by
    rcases each with rfl | ⟨node,rfl⟩
    · exact isb
    · simp only [Heap.allocate,Function.update_of_ne belowb.ne,isb]
  have room : 0 < (g h).fresh := by
    rcases each with rfl | ⟨node,rfl⟩
    · exact Nat.zero_lt_of_lt belowa
    · exact Nat.succ_pos _
  have isb' : (h.set a (some { cella with nref := cella.nref + 1 })).cells b = some cellb := by rw [set_other apart.symm,isb]
  rw [exprRef_eq isa,Option.bind_some,exprRef_eq isb',Option.bind_some,moved]
  have isa' : (((g h).set a (some { cella with nref := cella.nref + 1 })).set b (some { cellb with nref := cellb.nref + 1 })).cells a =
      some { cella with nref := cella.nref + 1 } := by rw [set_other apart,set_self]
  simp only [releaseAll]
  rw [exprUnref_eq isa' (by simp [singlea]) room,Option.bind_some,set_comm apart.symm,set_set]
  simp only [Nat.add_sub_cancel]
  rw [set_eq_self kepta,exprUnref_eq (set_self ..) (by simp [singleb]) room,Option.bind_some]
  simp only [Nat.add_sub_cancel,set_set]
  rw [set_eq_self keptb]

/-! ### Function nodes -/

omit [Gdouble α] in
theorem lookup_zip_none {new : List (Role α)} : ∀ {as : List Addr}, b ∉ as → (as.zip new).lookup b = none := by
  intro as absent
  refine List.lookup_eq_none_iff.mpr fun entry member => ?_
  refine bne_iff_ne.mpr fun same => absent ?_
  rw [same]
  exact (List.of_mem_zip member).1

omit [Gdouble α] in
theorem lookup_zip {R : Addr → Role α → Prop} {as : List Addr} {new : List (Role α)} (nodup : as.Nodup)
    (each : List.Forall₂ R as new) : ∀ b ∈ as, ∃ r, (as.zip new).lookup b = some r ∧ R b r := by
  induction each with
  | nil => simp
  | @cons a r as new here _ ih =>
    obtain ⟨off,nodup'⟩ := List.nodup_cons.mp nodup
    intro b member
    rw [List.zip_cons_cons,List.lookup_cons]
    by_cases same : b = a
    · subst same
      simp only [beq_self_eq_true]
      exact ⟨r,rfl,here⟩
    · simp only [beq_false_of_ne same]
      exact ih nodup' b ((List.mem_cons.mp member).resolve_left same)

omit [Gdouble α] in
theorem map_lookup_zip (role : Addr → Role α) : ∀ {as : List Addr} {new : List (Role α)}, as.Nodup → as.length = new.length →
    as.map (fun b => ((as.zip new).lookup b).getD (role b)) = new := by
  intro as
  induction as with
  | nil =>
    intro new _ same
    rw [List.length_nil] at same
    rw [List.eq_nil_of_length_eq_zero same.symm,List.map_nil]
  | cons a as ih =>
    intro new nodup same
    cases new with
    | nil => simp at same
    | cons r new =>
      obtain ⟨off,nodup'⟩ := List.nodup_cons.mp nodup
      rw [List.map_cons,List.zip_cons_cons,List.lookup_cons_self,Option.getD_some]
      have later : as.map (fun b => ((as.zip new).lookup b).getD (role b)) = new := ih nodup' (by simpa using same)
      refine congrArg (r :: ·) (Eq.trans (List.map_congr_left fun b member => ?_) later)
      have apart : b ≠ a := by
        rintro rfl
        exact off member
      rw [List.lookup_cons,beq_false_of_ne apart]

/-- A literal among the arguments may become one of the node's own. -/
inductive Becomes (n : Nat) (slot : Option Addr) (a : Addr) : Role α → Role α → Prop
  | same (role : Role α) (plain : ∀ init, role ≠ .slot n init) : Becomes n slot a role role
  | kept (v : α) : Becomes n slot a (.tree (.literal v)) (.kept n v)
  | slot (v : α) (is : slot = some a) : Becomes n slot a (.tree (.literal v)) (.slot n v)

theorem node_built (func : Func) {as : List Addr} {es : List (Expr α)} (grown : Grown t n h (as ++ rest)) (numbers : selfEqualArgs es = true)
    (slot : Option Addr) (unslotted : func = .changed → Parallel.initial es = none → slot = none)
    (each : List.Forall₂ (fun a r => Becomes n slot a (t.role a) r) as (argRoles freshMem n func es)) :
    ∃ t', Grown t' (n+1) (exprNewFunc func as h).2 ((exprNewFunc func as h).1 :: rest) ∧
      t'.role (exprNewFunc func as h).1 = .tree (.func n func es) ∧ ∀ b ∈ rest, t'.role b = t.role b := by
  have nodup : as.Nodup := (grown_nodup grown).of_append_left
  let t' : Plan α :=
    { role := fun b => if b = h.fresh then .tree (.func n func es)
        else ((as.zip (argRoles freshMem n func es)).lookup b).getD (t.role b)
      place := Function.update t.place n h.fresh
      slot := Function.update t.slot n slot
      rank := Function.update t.rank h.fresh h.fresh }
  have others : ∀ b, Live h b → b ∉ as → t'.role b = t.role b := by
    intro b live off
    simp only [t',if_neg (live_below grown live).ne,lookup_zip_none off,Option.getD_none]
  have places : ∀ k < n, t'.place k = t.place k ∧ t'.slot k = t.slot k :=
    fun k below => ⟨Function.update_of_ne below.ne ..,Function.update_of_ne below.ne ..⟩
  have node_eq : children (⟨.func func as,none,none⟩ : Node α) = as := by simp [children,Data.args]
  have role : t'.role h.fresh = .tree (.func n func es) := if_pos rfl
  have now : as.map t'.role = argRoles freshMem n func es := by
    rw [← map_lookup_zip t.role nodup each.length_eq]
    refine List.map_congr_left fun b member => ?_
    have old := (live_below grown (grown_owner grown (List.mem_append_left rest member))).ne
    simp only [t',if_neg old]
  have grown' : Grown t n h (children (⟨.func func as,none,none⟩ : Node α) ++ rest) := by rwa [node_eq]
  obtain ⟨built,same⟩ := grown_allocate t' grown' (Nat.le_succ n) rfl (fun b live off => others b live (node_eq ▸ off)) places
    (by
      rw [role]
      refine ⟨Function.update_self ..,⟨fun _ _ => rfl,fun changed none => ⟨?_,rfl⟩⟩,as,rfl,now⟩
      simp only [t',Function.update_self]
      exact unslotted changed none)
    (fun k holds => by
      rw [role] at holds
      cases holds
      exact Nat.lt_succ_self _)
    (fun e holds => by
      rw [role] at holds
      cases holds
      exact numbers)
    (fun b child cell is => by
      rw [node_eq] at child
      obtain ⟨r,found,becomes⟩ := lookup_zip nodup each b child
      have old := (live_below grown ⟨cell,is⟩).ne
      have role : t'.role b = r := by simp only [t',if_neg old,found,Option.getD_some]
      have fits := grown.world.fits b cell is
      have nodes := grown.nodes b cell
      have number := fun e => grown.numbers b cell e is
      rw [role]
      generalize t.role b = r' at becomes fits nodes number
      cases becomes with
      | kept v => exact ⟨fits,fun k holds => by cases holds; exact Nat.lt_succ_self _,fun e is => by cases is⟩
      | slot v same =>
        refine ⟨⟨?_,fits⟩,fun k holds => by cases holds; exact Nat.lt_succ_self _,fun e is => by cases is⟩
        simp only [t',Function.update_self]
        exact same
      | same role _ =>
        refine ⟨fits_congr fits (fun c below => ?_) (fun k func args roleEq => ?_) fun k init roleEq => ?_,
          fun k holds => (nodes k is holds).trans (Nat.lt_succ_self n),number⟩
        · refine others c (child_live grown.world.balanced is below) fun given => ?_
          exact grown_child grown (List.mem_append_left rest given) is below
        · obtain ⟨place,slot⟩ := places k (nodes k is (by rw [roleEq]; rfl))
          exact ⟨place,fun _ => rfl,fun _ _ => ⟨slot,rfl⟩⟩
        · exact ⟨(places k (nodes k is (by rw [roleEq]; rfl))).2,rfl⟩)
  exact ⟨t',built,role,same⟩

theorem selfEqualArgs_of_mem {es : List (Expr α)} (all : ∀ e ∈ es, selfEqual e = true) : selfEqualArgs es = true := by
  induction es with
  | nil => rfl
  | cons e es ih =>
    rw [List.forall_mem_cons] at all
    simp [selfEqualArgs,all.1,ih all.2]

/-- The constructor of a call builds the node of the tree. -/
theorem func_built (numeric : Numeric α) {func : Func} {as : List Addr} {es : List (Expr α)} (grown : Grown t n h (as ++ rest))
    (roles : as.map t.role = es.map .tree) : ∃ t', Grown t' (n+1) (newFunc func as h).2 ((newFunc func as h).1 :: rest) ∧
      t'.role (newFunc func as h).1 = .tree (.func n func es) ∧ ∀ b ∈ rest, t'.role b = t.role b := by
  have first : ∀ {t : Plan α} {slot : Option Addr} {a : Addr} {e : Expr α}, t.role a = .tree e →
      Becomes n slot a (t.role a) (.tree e) := by
    intro t slot a e role
    rw [role]
    exact .same _ nofun
  have plain : ∀ {t : Plan α} {slot : Option Addr} {as : List Addr} {es : List (Expr α)}, as.map t.role = es.map .tree →
      List.Forall₂ (fun a r => Becomes n slot a (t.role a) r) as (es.map .tree) := by
    intro t slot as es roles
    rw [← roles,List.forall₂_map_right_iff,List.forall₂_same]
    intro a member
    obtain ⟨e,_,is⟩ := List.mem_map.mp (roles ▸ List.mem_map_of_mem member : t.role a ∈ es.map .tree)
    rw [← is]
    exact .same _ nofun
  have numbers : selfEqualArgs es = true := by
    refine selfEqualArgs_of_mem fun e member => ?_
    obtain ⟨a,inside,role⟩ := List.mem_map.mp (roles ▸ List.mem_map_of_mem member : Role.tree e ∈ as.map t.role)
    obtain ⟨cell,is⟩ := grown_owner grown (List.mem_append_left rest inside)
    exact grown.numbers a cell e is role
  by_cases changed : func = .changed
  · subst changed
    obtain ⟨t₁,grown₁,role₁,same₁⟩ := leaf_built ⟨.literal dblMin,none,none⟩ (.literal dblMin) grown rfl (numeric _) (fun _ _ => rfl) rfl
    have roles₁ : as.map t₁.role = es.map .tree :=
      (List.map_congr_left fun b member => same₁ b (List.mem_append_left rest member)).trans roles
    have grown₂ : Grown t₁ n (h.allocate ⟨.literal dblMin,none,none⟩) ((as ++ [h.fresh]) ++ rest) :=
      grown_perm grown₁ (by rw [List.append_assoc]; exact List.perm_middle.symm)
    obtain ⟨t₂,grown₃,role₂,same₂⟩ := node_built .changed grown₂ numbers
      ((Parallel.initial es).bind fun _ => (as ++ [h.fresh])[1]?) (fun _ none => by rw [none,Option.bind_none]) (by
        cases remembered : Parallel.initial es with
        | none =>
          simp only [argRoles,remembered]
          exact List.rel_append (plain roles₁) (.cons (role₁ ▸ .kept dblMin) .nil)
        | some init =>
          simp only [argRoles,remembered]
          rcases es with _ | ⟨e,_ | ⟨e',es⟩⟩
          · simp [Parallel.initial] at remembered
          · obtain ⟨a,rfl⟩ : ∃ a, as = [a] := List.length_eq_one_iff.mp (by simpa using congrArg List.length roles)
            obtain rfl : dblMin = init := Option.some.inj remembered
            exact .cons (first (List.cons.inj roles₁).1) (.cons (role₁ ▸ .slot dblMin rfl) .nil)
          · cases e' with
            | literal v =>
              obtain rfl : v = init := Option.some.inj remembered
              obtain ⟨a,b,as,rfl⟩ : ∃ a b as', as = a :: b :: as' := by
                rcases as with _ | ⟨a,_ | ⟨b,as⟩⟩
                · simp at roles
                · simp at roles
                · exact ⟨a,b,as,rfl⟩
              obtain ⟨rolea,roles'⟩ := List.cons.inj roles₁
              obtain ⟨roleb,later⟩ := List.cons.inj roles'
              exact .cons (first rolea) (.cons (roleb ▸ .slot v rfl) (List.rel_append (plain later) (.cons (role₁ ▸ .kept dblMin) .nil)))
            | _ => simp [Parallel.initial] at remembered)
    refine ⟨t₂,grown₃,role₂,fun b later => (same₂ b later).trans (same₁ b (List.mem_append_right as later))⟩
  · have same : newFunc func as h = exprNewFunc func as h := by
      cases func with
      | changed => exact absurd rfl changed
      | min | max | round | limit | eval => rfl
    have args : argRoles freshMem n func es = es.map .tree := by
      cases func with
      | changed => exact absurd rfl changed
      | min | max | round | limit | eval => rfl
    rw [same]
    exact node_built func grown numbers none (fun is => absurd is changed) (args ▸ plain roles)

end

end Starter.Building
