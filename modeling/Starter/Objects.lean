import Starter.Defs
import Starter.Gdouble

/-!
The I/O objects of the library. `lib/input.c` and `lib/output.c` are the same code under
two names; it is modelled once, and `stInput...` and `stOutput...` name its two copies.
A setter yields the object it leaves, the signals it raises, each with the object a
handler of the signal sees, and the error it reports.
-/
namespace Starter.Objects
open Gdouble

/-- The fields of `STInputPrivate` and of `STOutputPrivate`; also the contents of an
    `InputChanged` or `OutputChanged` message and of an entry of `GetInputs` and
    `GetOutputs`. -/
structure IoObject (α : Type) where
  name : String
  descr : String
  unit : Int
  min : α
  max : α
  step : α
  val : α
  flags : IoFlags
deriving DecidableEq

inductive IoSignal
  | changed
  | descrChanged
  | unitChanged
  | valChanged
  | minChanged
  | maxChanged
  | stepChanged
  | flagsChanged
deriving DecidableEq, Repr

/-- What a call of a setter does. -/
structure Update (α : Type) where
  obj : IoObject α
  emitted : List (IoSignal × IoObject α)
  error : Option StError

/-- The setter returned TRUE. -/
def Update.ok {α : Type} (u : Update α) : Bool := u.error.isNone

variable {α : Type} [Gdouble α]

/-- `round_to_step`. -/
def roundToStep (value step : α) : α :=
  if le (abs step) dblMin then value else mul (round (div value step)) step

/-- `nearly_equal`. -/
def nearlyEqual (a b step : α) : Bool :=
  let tol := mul (mul dblEpsilon (add (add (ofRat 1) (abs a)) (abs b))) (ofRat 8)
  let tol := if lt dblMin (abs step) then Gdouble.max tol (mul (abs step) (ofRat (1 / 10 ^ 9))) else tol
  le (abs (sub a b)) tol

/-- `snap_to_step`; its warning is not modelled. -/
def snapToStep (requested step : α) : α := roundToStep requested step

/-- `st_input_new` and `st_output_new`; `none` where an assertion of theirs fails. -/
def ioNew (name descr : String) (unit : Int) (min max step val : α) (flags : IoFlags) : Option (IoObject α) :=
  if lt dblMin (abs step) then
    let min := snapToStep min step
    let max := snapToStep max step
    let val := snapToStep val step
    if le min val && le val max then some ⟨name,descr,unit,min,max,step,val,flags⟩ else none
  else none

/-- `st_input_set_description` and `st_output_set_description`. -/
def ioSetDescription (self : IoObject α) (descr : String) : Update α :=
  let next := { self with descr := descr }
  ⟨next, if self.descr = descr then [] else [(.descrChanged,next),(.changed,next)], none⟩

/-- `st_input_set_unit` and `st_output_set_unit`. -/
def ioSetUnit (self : IoObject α) (unit : Int) : Update α :=
  let next := { self with unit := unit }
  ⟨next, if self.unit = unit then [] else [(.unitChanged,next),(.changed,next)], none⟩

/-- `st_input_set_min` and `st_output_set_min`. -/
def ioSetMin (self : IoObject α) (min : α) : Update α :=
  let min := snapToStep min self.step
  if le min self.val then
    let next := { self with min := min }
    ⟨next, if nearlyEqual self.min min self.step then [] else [(.minChanged,next),(.changed,next)], none⟩
  else ⟨self, [], some ⟨.invalidValue,"minimum value is not compatible with val"⟩⟩

/-- `st_input_set_max` and `st_output_set_max`. -/
def ioSetMax (self : IoObject α) (max : α) : Update α :=
  let max := snapToStep max self.step
  if le self.val max then
    let next := { self with max := max }
    ⟨next, if nearlyEqual self.max max self.step then [] else [(.maxChanged,next),(.changed,next)], none⟩
  else ⟨self, [], some ⟨.invalidValue,"maximum value is not compatible with val"⟩⟩

/-- `st_input_set_step` and `st_output_set_step`; `what` is the word their error starts
    with. Each of min, max and val is stored, and its signal raised, only where the new
    grid moves it by more than the tolerance; `step` itself is stored last. -/
def ioSetStep (what : String) (self : IoObject α) (step : α) : Update α :=
  if le (abs step) dblMin then ⟨self, [], some ⟨.invalidValue,"step must be non-zero"⟩⟩
  else
    let min := snapToStep self.min step
    let max := snapToStep self.max step
    let val := snapToStep self.val step
    if le min val && le val max then
      let chgMin := !nearlyEqual self.min min step
      let chgMax := !nearlyEqual self.max max step
      let chgVal := !nearlyEqual self.val val step
      let withMin := if chgMin then { self with min := min } else self
      let withMax := if chgMax then { withMin with max := max } else withMin
      let withVal := if chgVal then { withMax with val := val } else withMax
      let next := { withVal with step := step }
      let chg := !nearlyEqual self.step step step || chgMin || chgMax || chgVal
      ⟨next,
        (if chgMin then [(.minChanged,withMin)] else []) ++ (if chgMax then [(.maxChanged,withMax)] else []) ++
          (if chgVal then [(.valChanged,withVal)] else []) ++
          (if chg then [(.stepChanged,next),(.changed,next)] else []), none⟩
    else ⟨self, [], some ⟨.invalidValue,what ++ " min/max/val not compatible with step after rounding"⟩⟩

/-- `st_input_set_val` and `st_output_set_val`. -/
def ioSetVal (self : IoObject α) (val : α) : Update α :=
  let val := snapToStep val self.step
  if le self.min val && le val self.max then
    let next := { self with val := val }
    ⟨next, if nearlyEqual self.val val self.step then [] else [(.valChanged,next),(.changed,next)], none⟩
  else ⟨self, [], some ⟨.invalidValue,"val is not compatible with min/max"⟩⟩

/-- `st_input_set_flags` and `st_output_set_flags`. -/
def ioSetFlags (self : IoObject α) (flags : IoFlags) : Update α :=
  let next := { self with flags := flags }
  ⟨next, if self.flags = flags then [] else [(.flagsChanged,next),(.changed,next)], none⟩

def stInputNew := @ioNew α
def stInputSetDescription := @ioSetDescription α
def stInputSetUnit := @ioSetUnit α
def stInputSetMin := @ioSetMin α _
def stInputSetMax := @ioSetMax α _
def stInputSetStep := @ioSetStep α _ "input"
def stInputSetVal := @ioSetVal α _
def stInputSetFlags := @ioSetFlags α

def stOutputNew := @ioNew α
def stOutputSetDescription := @ioSetDescription α
def stOutputSetUnit := @ioSetUnit α
def stOutputSetMin := @ioSetMin α _
def stOutputSetMax := @ioSetMax α _
def stOutputSetStep := @ioSetStep α _ "output"
def stOutputSetVal := @ioSetVal α _
def stOutputSetFlags := @ioSetFlags α

/-- The value a call of the value setter stores, when it accepts it. -/
def Accepts (self : IoObject α) (val : α) : Bool :=
  le self.min (snapToStep val self.step) && le (snapToStep val self.step) self.max

theorem ioSetVal_accepted {self : IoObject α} {val : α} (accepted : Accepts self val = true) :
    ioSetVal self val = ⟨{ self with val := snapToStep val self.step },
      if nearlyEqual self.val (snapToStep val self.step) self.step then [] else
        [(.valChanged,{ self with val := snapToStep val self.step }),
          (.changed,{ self with val := snapToStep val self.step })], none⟩ := by
  unfold Accepts at accepted
  simp only [ioSetVal,accepted,if_true]

theorem ioSetVal_rejected {self : IoObject α} {val : α} (rejected : Accepts self val = false) :
    ioSetVal self val = ⟨self,[],some ⟨.invalidValue,"val is not compatible with min/max"⟩⟩ := by
  unfold Accepts at rejected
  simp [ioSetVal,rejected]

theorem ioSetVal_ok (self : IoObject α) (val : α) : (ioSetVal self val).ok = Accepts self val := by
  cases accepted : Accepts self val with
  | true => simp [ioSetVal_accepted accepted,Update.ok]
  | false => simp [ioSetVal_rejected accepted,Update.ok]

omit [Gdouble α] in
@[simp] theorem ioSetFlags_obj (self : IoObject α) (flags : IoFlags) :
    (ioSetFlags self flags).obj = { self with flags := flags } := rfl

omit [Gdouble α] in
@[simp] theorem ioSetFlags_ok (self : IoObject α) (flags : IoFlags) : (ioSetFlags self flags).ok = true := rfl

theorem ioSetStep_name (what : String) (self : IoObject α) (step : α) :
    (ioSetStep what self step).obj.name = self.name ∧
      ∀ raised ∈ (ioSetStep what self step).emitted, raised.2.name = self.name := by
  unfold ioSetStep
  split
  · exact ⟨rfl,by simp⟩
  · simp only
    split
    · -- Each of the three values may be moved or not; the name is that of `self` throughout.
      have moved : ∀ (c : Bool) (f : IoObject α → IoObject α) (obj : IoObject α), (∀ obj, (f obj).name = obj.name) →
          (if c = true then f obj else obj).name = obj.name := by
        intro c f obj keeps
        cases c
        · rfl
        · exact keeps obj
      have one := fun c => moved c (fun obj => { obj with min := snapToStep self.min step }) self fun _ => rfl
      have two := fun c obj => moved c (fun obj => { obj with max := snapToStep self.max step }) obj fun _ => rfl
      have three := fun c obj => moved c (fun obj => { obj with val := snapToStep self.val step }) obj fun _ => rfl
      refine ⟨(three _ _).trans ((two _ _).trans (one _)),?_⟩
      rintro raised member
      simp only [List.mem_append,List.mem_ite_nil_right,List.mem_cons,List.not_mem_nil,or_false] at member
      rcases member with ((⟨_,rfl⟩ | ⟨_,rfl⟩) | ⟨_,rfl⟩) | ⟨_,rfl | rfl⟩
      · exact one _
      · exact (two _ _).trans (one _)
      · exact (three _ _).trans ((two _ _).trans (one _))
      · exact (three _ _).trans ((two _ _).trans (one _))
      · exact (three _ _).trans ((two _ _).trans (one _))
    · exact ⟨rfl,by simp⟩

end Starter.Objects
