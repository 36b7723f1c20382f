import Starter.Debugger

/-!
The handles of breakpoints and watchpoints. Both tables take theirs from one counter of
32 bits that skips zero, and a table forgets a point whose handle is given out again; so the
handles name the points as long as no live point has the one that comes next.
-/
namespace Starter.Handles
open Debugger Lib.Runs

variable {α : Type}

/-- The calls that add and remove points, of either table. -/
inductive Call
  | add (table : Table) (id : String)
  | remove (table : Table) (handle : UInt32)

/-- The server after a call; one that fails leaves it alone. -/
def step (self : CoreDebug α) : Call → Option (CoreDebug α)
  | .add table id =>
    match self.add table id with
    | .ok added => some added.2
    | .error _ => some self
  | .remove table handle =>
    match self.remove table handle with
    | .ok next => some next
    | .error _ => some self

def Table.other : Table → Table
  | .breakpoints => .watchpoints
  | .watchpoints => .breakpoints

/-- A point of either table has the handle. -/
def Live (self : CoreDebug α) (handle : UInt32) : Prop := ∃ table, ∃ point ∈ self.table table, point.handle = handle

/-- The handle that the next point gets. -/
def upcoming (self : CoreDebug α) : UInt32 := if self.nextHandle = 0 then self.nextHandle+1 else self.nextHandle

/-- What a call does to the points: one that adds names a new point by a handle of its own, and one that removes takes the
point with the handle. -/
def Law (self : CoreDebug α) : Call → Prop
  | .add table id => ∀ handle next, self.add table id = .ok (handle,next) → handle ≠ 0 ∧ ¬ Live self handle ∧
      (next.table table).Perm (⟨handle,id⟩ :: self.table table) ∧ next.table (Table.other table) = self.table (Table.other table)
  | .remove table handle => ((∃ next, self.remove table handle = .ok next) ↔ ∃ point ∈ self.table table, point.handle = handle) ∧
      ∀ next, self.remove table handle = .ok next → next.table (Table.other table) = self.table (Table.other table) ∧
        ∃ point, point.handle = handle ∧ (self.table table).Perm (point :: next.table table)

/-- No live point has the handle that an added point gets. -/
def Fresh (self : CoreDebug α) : Call → Prop
  | .add _ id => id ≠ "" → ¬ Live self (upcoming self)
  | .remove _ _ => True

/-- Handles are not zero, and no two points of a table have the same. -/
structure Named (self : CoreDebug α) : Prop where
  nonzero : ∀ table, ∀ point ∈ self.table table, point.handle ≠ 0
  distinct : ∀ table, ((self.table table).map DebugPoint.handle).Nodup

variable {self next : CoreDebug α} {table : Table} {id : String} {handle : UInt32}

theorem table_withTable (self : CoreDebug α) (points : List DebugPoint) (table : Table) :
    (self.withTable points table).table table = points ∧
      (self.withTable points table).table (Table.other table) = self.table (Table.other table) := by
  cases table <;> exact ⟨rfl,rfl⟩

theorem table_cases {P : Table → Prop} (table : Table) (this : P table) (other : P (Table.other table)) : ∀ t, P t := by
  intro t
  cases table <;> cases t
  · exact this
  · exact other
  · exact other
  · exact this

theorem other_ne (table : Table) : Table.other table ≠ table := by cases table <;> decide

theorem upcoming_ne_zero (self : CoreDebug α) : upcoming self ≠ 0 := by
  unfold upcoming
  split
  case isTrue zero =>
    rw [zero]
    decide
  case isFalse nonzero => exact nonzero

/-- A call that adds fails for an empty identifier, and else stores the point under the upcoming handle. -/
theorem add_cases (self : CoreDebug α) (table : Table) (id : String) :
    (id = "" ∧ ∃ message, self.add table id = .error message) ∨
    (id ≠ "" ∧ ∃ next, self.add table id = .ok (upcoming self,next) ∧ next.nextHandle = upcoming self + 1 ∧
      next.table table = ⟨upcoming self,id⟩ :: (self.table table).filter (fun point => point.handle != upcoming self) ∧
      next.table (Table.other table) = self.table (Table.other table)) := by
  by_cases empty : id = ""
  · refine .inl ⟨empty,"empty breakpoint/watchpoint id",?_⟩
    rw [CoreDebug.add,addPoint,if_pos empty]
    rfl
  · let points := ⟨upcoming self,id⟩ :: (self.table table).filter fun point => point.handle != upcoming self
    refine .inr ⟨empty,{ self.withTable points table with nextHandle := upcoming self + 1 },?_,rfl,?_,?_⟩
    · rw [CoreDebug.add,addPoint,if_neg empty]
      rfl
    · cases table <;> rfl
    · cases table <;> rfl

theorem remove_cases (self : CoreDebug α) (table : Table) (handle : UInt32) :
    ((handle = 0 ∨ ∀ point ∈ self.table table, point.handle ≠ handle) ∧ ∃ message, self.remove table handle = .error message) ∨
    (handle ≠ 0 ∧ (∃ point ∈ self.table table, point.handle = handle) ∧
      ∃ next, self.remove table handle = .ok next ∧ next.nextHandle = self.nextHandle ∧
        next.table table = (self.table table).filter (fun point => point.handle != handle) ∧
        next.table (Table.other table) = self.table (Table.other table)) := by
  have absent : (self.table table).all (fun point => point.handle != handle) = true ↔
      ∀ point ∈ self.table table, point.handle ≠ handle := by
    simp
  by_cases fails : handle = 0 ∨ (self.table table).all (fun point => point.handle != handle) = true
  · refine .inl ⟨by rwa [absent] at fails,"unknown handle " ++ toString handle,?_⟩
    rw [CoreDebug.remove,removePoint,if_pos fails]
    rfl
  · obtain ⟨nonzero,some⟩ := not_or.mp fails
    rw [absent] at some
    push Not at some
    refine .inr ⟨nonzero,some,self.withTable _ table,?_,?_,(table_withTable _ _ _).1,(table_withTable _ _ _).2⟩
    · rw [CoreDebug.remove,removePoint,if_neg fails]
      rfl
    · cases table <;> rfl

/-- The handles that are left where the points with a handle are taken out. -/
theorem handle_left {points : List DebugPoint} {without : UInt32} : (∃ point ∈ points.filter (fun point => point.handle != without),
    point.handle = handle) ↔ handle ≠ without ∧ ∃ point ∈ points, point.handle = handle := by
  constructor
  · rintro ⟨point,left,rfl⟩
    obtain ⟨member,differs⟩ := List.mem_filter.mp left
    exact ⟨by simpa using differs,point,member,rfl⟩
  · rintro ⟨differs,point,member,rfl⟩
    exact ⟨point,List.mem_filter.mpr ⟨member,by simpa using differs⟩,rfl⟩

theorem named_filter {points : List DebugPoint} (distinct : (points.map DebugPoint.handle).Nodup) (keep : DebugPoint → Bool) :
    ((points.filter keep).map DebugPoint.handle).Nodup :=
  distinct.sublist (List.filter_sublist.map _)

theorem step_named (self : CoreDebug α) (call : Call) (next : CoreDebug α) (named : Named self) (stepped : step self call = some next) :
    Named next := by
  obtain ⟨nonzero,distinct⟩ := named
  cases call with
  | add table id =>
    rcases add_cases self table id with ⟨_,message,failed⟩ | ⟨_,added,ok,_,this,other⟩
    · simp only [step,failed,Option.some.injEq] at stepped
      exact stepped ▸ ⟨nonzero,distinct⟩
    · simp only [step,ok,Option.some.injEq] at stepped
      subst stepped
      refine ⟨table_cases table ?_ ?_,table_cases table ?_ ?_⟩
      · rw [this,List.forall_mem_cons]
        exact ⟨upcoming_ne_zero self,fun point member => nonzero table point (List.mem_of_mem_filter member)⟩
      · rw [other]
        exact nonzero _
      · rw [this,List.map_cons,List.nodup_cons]
        refine ⟨?_,named_filter (distinct table) _⟩
        intro member
        obtain ⟨point,kept,same⟩ := List.mem_map.mp member
        have differs := (List.mem_filter.mp kept).2
        simp only [bne_iff_ne] at differs
        exact differs same
      · rw [other]
        exact distinct _
  | remove table handle =>
    rcases remove_cases self table handle with ⟨_,message,failed⟩ | ⟨_,_,removed,ok,_,this,other⟩
    · simp only [step,failed,Option.some.injEq] at stepped
      exact stepped ▸ ⟨nonzero,distinct⟩
    · simp only [step,ok,Option.some.injEq] at stepped
      subst stepped
      refine ⟨table_cases table ?_ ?_,table_cases table ?_ ?_⟩
      · rw [this]
        exact fun point member => nonzero table point (List.mem_of_mem_filter member)
      · rw [other]
        exact nonzero _
      · rw [this]
        exact named_filter (distinct table) _
      · rw [other]
        exact distinct _

/-- Of the points of a table all but one have another handle than that one. -/
theorem perm_of_handle {points : List DebugPoint} (distinct : (points.map DebugPoint.handle).Nodup) {point : DebugPoint}
    (member : point ∈ points) : points.Perm (point :: points.filter fun other => other.handle != point.handle) := by
  induction points with
  | nil => cases member
  | cons first rest ih =>
    rw [List.map_cons,List.nodup_cons] at distinct
    obtain ⟨alone,later⟩ := distinct
    rcases List.mem_cons.mp member with rfl | inRest
    · have others : rest.filter (fun other => other.handle != point.handle) = rest := by
        refine List.filter_eq_self.mpr fun other among => ?_
        simp only [bne_iff_ne]
        exact fun same => alone (same ▸ List.mem_map_of_mem among)
      rw [List.filter_cons_of_neg (by simp),others]
    · have differs : first.handle ≠ point.handle := fun same => alone (same ▸ List.mem_map_of_mem inRest)
      rw [List.filter_cons_of_pos (by simpa using differs)]
      exact ((ih later inRest).cons first).trans (.swap _ _ _)

/-- A call does what it should exactly if it gives out no handle of a live point. -/
theorem law_iff_fresh (self : CoreDebug α) (call : Call) (named : Named self) : Law self call ↔ Fresh self call := by
  obtain ⟨nonzero,distinct⟩ := named
  cases call with
  | add table id =>
    rcases add_cases self table id with ⟨empty,message,failed⟩ | ⟨some,added,ok,_,this,other⟩
    · refine ⟨fun _ some => absurd empty some,fun _ handle next done => ?_⟩
      rw [failed] at done
      cases done
    · constructor
      · exact fun law _ => (law _ _ ok).2.1
      · intro fresh handle next done
        rw [ok] at done
        cases done
        have free := fresh some
        refine ⟨upcoming_ne_zero self,free,?_,other⟩
        have others : (self.table table).filter (fun point => point.handle != upcoming self) = self.table table := by
          refine List.filter_eq_self.mpr fun point among => ?_
          simp only [bne_iff_ne]
          exact fun same => free ⟨table,point,among,same⟩
        rw [this,others]
  | remove table handle =>
    refine iff_of_true ?_ trivial
    rcases remove_cases self table handle with ⟨fails,message,failed⟩ | ⟨_,some,removed,ok,_,this,other⟩
    · refine ⟨⟨?_,?_⟩,?_⟩
      · rintro ⟨next,done⟩
        rw [failed] at done
        cases done
      · rintro ⟨point,among,same⟩
        rcases fails with rfl | none
        · exact absurd same (nonzero table point among)
        · exact absurd same (none point among)
      · intro next done
        rw [failed] at done
        cases done
    · refine ⟨iff_of_true ⟨removed,ok⟩ some,?_⟩
      intro next done
      rw [ok] at done
      cases done
      obtain ⟨point,among,rfl⟩ := some
      refine ⟨other,point,rfl,?_⟩
      rw [this]
      exact perm_of_handle (distinct table) among

theorem init_named : Named (coreDebugInit : CoreDebug α) where
  nonzero table point member := by cases table <;> cases member
  distinct table := by cases table <;> exact List.nodup_nil

/-! What the calls alone say of the handles: the points are numbered as they are added, and every number has the handle of
those that differ from it by turns of the counter. -/

/-- The handles in one turn of the counter. -/
abbrev turn : Nat := 2 ^ 32 - 1

def handleOf (serial : Nat) : UInt32 := UInt32.ofNat (serial % turn + 1)

/-- How many points were added, and the numbers of those that are live. -/
structure Ledger where
  given : Nat
  live : List (Table × Nat)

def Ledger.step (ledger : Ledger) : Call → Option Ledger
  | .add table id => some (if id = "" then ledger else ⟨ledger.given+1,(table,ledger.given) :: ledger.live⟩)
  | .remove table handle => some { ledger with live := ledger.live.filter fun point => point.1 ≠ table ∨ handleOf point.2 ≠ handle }

/-- No live point was added whole turns of the counter before the one that is added. -/
def Spaced (ledger : Ledger) : Call → Prop
  | .add _ id => id ≠ "" → ∀ point ∈ ledger.live, point.2 % turn ≠ ledger.given % turn
  | .remove _ _ => True

/-- The ledger knows the handles of the points of each table. -/
structure Kept (self : CoreDebug α) (ledger : Ledger) : Prop where
  upcoming_eq : upcoming self = handleOf ledger.given
  handles : ∀ table handle, (∃ point ∈ self.table table, point.handle = handle) ↔
    ∃ serial, (table,serial) ∈ ledger.live ∧ handleOf serial = handle

theorem handleOf_toNat (serial : Nat) : (handleOf serial).toNat = serial % turn + 1 := by
  have below : serial % turn < turn := Nat.mod_lt _ (by decide)
  have size : UInt32.size = turn + 1 := rfl
  exact UInt32.toNat_ofNat_of_lt' (by omega)

theorem handleOf_ne_zero (serial : Nat) : handleOf serial ≠ 0 := by
  intro zero
  have given := handleOf_toNat serial
  rw [zero] at given
  exact Nat.succ_ne_zero _ given.symm

theorem handleOf_eq_iff {first second : Nat} : handleOf first = handleOf second ↔ first % turn = second % turn := by
  rw [← UInt32.toNat_inj,handleOf_toNat,handleOf_toNat,Nat.add_right_cancel_iff]

/-- After the last handle of a turn comes the first one. -/
theorem handleOf_succ (serial : Nat) :
    (if handleOf serial + 1 = 0 then handleOf serial + 1 + 1 else handleOf serial + 1) = handleOf (serial+1) := by
  have below : serial % turn < turn := Nat.mod_lt _ (by decide)
  have given := handleOf_toNat serial
  have sum : (handleOf serial + 1).toNat = (serial % turn + 1 + 1) % 2 ^ 32 := by
    rw [UInt32.toNat_add,given]
    rfl
  simp only [turn] at below given sum
  rw [← UInt32.toNat_inj,handleOf_toNat]
  simp only [turn]
  split
  case isTrue zero =>
    rw [zero] at sum ⊢
    have last : serial % (2 ^ 32 - 1) + 1 + 1 = 2 ^ 32 := by
      simp only [UInt32.toNat_zero] at sum
      omega
    have first : (serial + 1) % (2 ^ 32 - 1) = 0 := by omega
    rw [first]
    rfl
  case isFalse nonzero =>
    have inside : serial % (2 ^ 32 - 1) + 1 + 1 ≠ 2 ^ 32 := by
      intro last
      rw [last] at sum
      exact nonzero (UInt32.toNat_inj.mp sum)
    rw [sum]
    omega

theorem fresh_iff_spaced {self : CoreDebug α} {ledger : Ledger} (kept : Kept self ledger) (call : Call) :
    Fresh self call ↔ Spaced ledger call := by
  obtain ⟨next,handles⟩ := kept
  cases call with
  | remove => exact Iff.rfl
  | add table id =>
    refine imp_congr_right fun _ => ?_
    rw [next]
    constructor
    · intro free point among same
      exact free ⟨point.1,(handles _ _).mpr ⟨point.2,among,handleOf_eq_iff.mpr same⟩⟩
    · rintro spaced ⟨table,some⟩
      obtain ⟨serial,among,same⟩ := (handles table _).mp some
      exact spaced _ among (handleOf_eq_iff.mp same)

/-- Every call takes a server and its ledger to a server and its ledger. -/
theorem kept_step {self next : CoreDebug α} {ledger : Ledger} (kept : Kept self ledger) (call : Call)
    (stepped : step self call = some next) : ∃ after, ledger.step call = some after ∧ Kept next after := by
  have same := kept
  obtain ⟨upcoming_eq,handles⟩ := kept
  cases call with
  | add table id =>
    rcases add_cases self table id with ⟨empty,message,failed⟩ | ⟨some,added,ok,advanced,this,other⟩
    · simp only [step,failed,Option.some.injEq] at stepped
      subst stepped
      exact ⟨ledger,by rw [Ledger.step,if_pos empty],same⟩
    · simp only [step,ok,Option.some.injEq] at stepped
      subst stepped
      refine ⟨_,by rw [Ledger.step,if_neg some],?_,table_cases table ?_ ?_⟩
      · rw [upcoming,advanced,upcoming_eq]
        exact handleOf_succ _
      · intro handle
        rw [this,List.exists_mem_cons_iff,handle_left,handles,upcoming_eq]
        constructor
        · rintro (rfl | ⟨_,serial,among,rfl⟩)
          · exact ⟨ledger.given,List.mem_cons_self,rfl⟩
          · exact ⟨serial,List.mem_cons_of_mem _ among,rfl⟩
        · rintro ⟨serial,member,rfl⟩
          by_cases again : handleOf serial = handleOf ledger.given
          · exact .inl again.symm
          · rcases List.mem_cons.mp member with same | among
            · cases same
              exact absurd rfl again
            · exact .inr ⟨again,serial,among,rfl⟩
      · intro handle
        rw [other,handles]
        refine exists_congr fun serial => and_congr_left fun _ => ?_
        rw [List.mem_cons,or_iff_right]
        exact fun same => other_ne table (congrArg Prod.fst same)
  | remove table handle =>
    refine ⟨_,rfl,?_⟩
    rcases remove_cases self table handle with ⟨fails,message,failed⟩ | ⟨_,_,removed,ok,advanced,this,other⟩
    · simp only [step,failed,Option.some.injEq] at stepped
      subst stepped
      have all : ledger.live.filter (fun point => point.1 ≠ table ∨ handleOf point.2 ≠ handle) = ledger.live := by
        refine List.filter_eq_self.mpr fun ⟨owner,serial⟩ among => ?_
        simp only [decide_eq_true_eq,← not_and_or]
        rintro ⟨rfl,rfl⟩
        obtain ⟨point,member,given⟩ := (handles owner _).mpr ⟨serial,among,rfl⟩
        rcases fails with zero | absent
        · exact handleOf_ne_zero serial zero
        · exact absent point member given
      rw [all]
      exact same
    · simp only [step,ok,Option.some.injEq] at stepped
      subst stepped
      have live : ∀ owner serial, (owner,serial) ∈ ledger.live.filter (fun point => point.1 ≠ table ∨ handleOf point.2 ≠ handle) ↔
          (owner,serial) ∈ ledger.live ∧ (owner ≠ table ∨ handleOf serial ≠ handle) := by
        intro owner serial
        rw [List.mem_filter,decide_eq_true_eq]
      refine ⟨?_,table_cases table ?_ ?_⟩
      · rw [upcoming,advanced]
        exact upcoming_eq
      · intro given
        rw [this,handle_left,handles]
        constructor
        · rintro ⟨differs,serial,among,rfl⟩
          exact ⟨serial,(live _ _).mpr ⟨among,.inr differs⟩,rfl⟩
        · rintro ⟨serial,left,rfl⟩
          obtain ⟨among,differs⟩ := (live _ _).mp left
          exact ⟨differs.resolve_left (absurd rfl),serial,among,rfl⟩
      · intro given
        rw [other,handles]
        refine exists_congr fun serial => and_congr_left fun _ => ?_
        rw [live,and_iff_left]
        exact .inl (other_ne table)

theorem law_iff_spaced {self : CoreDebug α} {ledger : Ledger} (named : Named self) (kept : Kept self ledger) (calls : List Call) :
    Meets step Law self calls ↔ Meets Ledger.step Spaced ledger calls := by
  induction calls generalizing self ledger with
  | nil => exact Iff.rfl
  | cons call calls ih =>
    refine and_congr ((law_iff_fresh self call named).trans (fresh_iff_spaced kept call)) ?_
    have total : ∃ next, step self call = some next := by
      cases call <;> simp only [step] <;> split <;> exact ⟨_,rfl⟩
    obtain ⟨next,stepped⟩ := total
    obtain ⟨after,entered,still⟩ := kept_step kept call stepped
    have same := ih (step_named self call next named stepped) still
    simp only [stepped,entered,Option.some.injEq,forall_eq',same]

theorem init_kept : Kept (coreDebugInit : CoreDebug α) ⟨0,[]⟩ where
  upcoming_eq := rfl
  handles table handle := by
    refine iff_of_false ?_ ?_
    · rintro ⟨point,member,_⟩
      cases table <;> cases member
    · rintro ⟨serial,member,_⟩
      cases member

/-- In a run of calls every one names, adds and removes the points as it should, exactly if no point stays while the
counter comes round to it. -/
theorem handles_iff (calls : List Call) :
    Meets step Law (coreDebugInit : CoreDebug α) calls ↔ Meets Ledger.step Spaced ⟨0,[]⟩ calls :=
  law_iff_spaced init_named init_kept calls

def Call.adds : Call → Bool
  | .add _ _ => true
  | .remove _ _ => false

/-- Runs that add no more points than there are handles. -/
theorem law_of_few (calls : List Call) (few : calls.countP Call.adds ≤ turn) :
    Meets step Law (coreDebugInit : CoreDebug α) calls := by
  refine (law_iff_spaced init_named init_kept calls).mpr ?_
  have bounded : ∀ (ledger : Ledger), (∀ point ∈ ledger.live, point.2 < ledger.given) →
      ledger.given + calls.countP Call.adds ≤ turn → Meets Ledger.step Spaced ledger calls := by
    clear few
    induction calls with
    | nil => exact fun _ _ _ => trivial
    | cons call calls ih =>
      intro ledger older room
      cases call with
      | add table id =>
        rw [List.countP_cons_of_pos rfl] at room
        refine ⟨?_,fun next stepped => ?_⟩
        · intro _ point among same
          have before := older point among
          rw [Nat.mod_eq_of_lt (by omega),Nat.mod_eq_of_lt (by omega)] at same
          omega
        · cases stepped
          split
          · exact ih ledger older (by omega)
          · refine ih _ ?_ (by simp only; omega)
            rw [List.forall_mem_cons]
            exact ⟨Nat.lt_succ_self _,fun point among => Nat.lt_succ_of_lt (older point among)⟩
      | remove table handle =>
        rw [List.countP_cons_of_neg (by simp [Call.adds])] at room
        refine ⟨trivial,fun next stepped => ?_⟩
        cases stepped
        exact ih _ (fun point left => older point (List.mem_of_mem_filter left)) room
  exact bounded ⟨0,[]⟩ (fun _ member => nomatch member) (by simpa using few)

theorem law_of_few_mixed : Meets step Law (coreDebugInit : CoreDebug ℚ)
    [.add .breakpoints "a",.add .watchpoints "",.add .watchpoints "b",.remove .breakpoints 1,.remove .breakpoints 2,
      .add .breakpoints "c",.remove .watchpoints 2] :=
  law_of_few _ (by decide)

/-- Watchpoints come and go, each with the handle that it is given where one point is there already. -/
def comeAndGo (count : Nat) : List Call :=
  (List.range count).flatMap fun i => [.add .watchpoints "b",.remove .watchpoints (UInt32.ofNat (i + 2))]

private theorem run_comeAndGo (count : Nat) (few : count < turn) :
    run Ledger.step ⟨1,[(.breakpoints,0)]⟩ (comeAndGo count) = some ⟨1 + count,[(.breakpoints,0)]⟩ := by
  induction count with
  | zero => rfl
  | succ count ih =>
    have own : handleOf (1 + count) = UInt32.ofNat (count + 2) := by
      rw [handleOf,Nat.mod_eq_of_lt (by omega),Nat.add_comm 1 count]
    have pairs : comeAndGo (count + 1) =
        comeAndGo count ++ [.add .watchpoints "b",.remove .watchpoints (UInt32.ofNat (count + 2))] := by
      simp [comeAndGo,List.range_succ]
    rw [pairs,run_append,ih (by omega)]
    simp [run,Ledger.step,own,Nat.add_assoc]

private theorem not_law_of_whole {count : Nat} (whole : 1 + count = turn) : ¬ Meets step Law (coreDebugInit : CoreDebug ℚ)
    (.add .breakpoints "a" :: (comeAndGo count ++ [.add .breakpoints "c"])) := by
  intro meets
  have spaced := (law_iff_spaced init_named init_kept _).mp meets
  have last := meets_at (spaced.2 _ rfl) (run_comeAndGo count (by omega))
  refine last (by decide) _ List.mem_cons_self ?_
  change 0 % turn = (1 + count) % turn
  rw [whole,Nat.mod_self,Nat.zero_mod]

/-- A breakpoint stays while watchpoints come and go until the counter has come round. The next breakpoint gets the handle
of the first one and takes its place. -/
theorem adds_wrap : ¬ Meets step Law (coreDebugInit : CoreDebug ℚ)
    (.add .breakpoints "a" :: (comeAndGo (2 ^ 32 - 2) ++ [.add .breakpoints "c"])) :=
  not_law_of_whole (by norm_num [turn])

end Starter.Handles
