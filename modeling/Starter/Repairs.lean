import Starter.Handshake
import Starter.Setters

/-!
A message that carries the whole state of an object. Its handler calls the setters one after
the other, each of which tests its value against fields that are still those of the mirror;
when the mirror is behind, the setters of the bounds may refuse.
-/
namespace Starter.Repairs
open Gdouble Objects Peers Starter.Core Grid Setters Handshake

section
variable {α : Type} [Gdouble α]

/-- The setter of the step makes the bound of `x`. -/
def Recovers (x bound step : α) : Prop :=
  x = bound ∨ (snapToStep x step = bound ∧ nearlyEqual x bound step = false)

/-- The old value, rounded to the new step, is within the new bounds, and each new bound,
    rounded to the old step, is on its side of the old value and comes back on the new step;
    or it is not, and the old bound is rounded to it. -/
def Overwrites (obj message : IoObject α) : Prop :=
  (le (abs message.step) dblMin = false ∨ obj.step = message.step) ∧
  le message.min (snapToStep obj.val message.step) = true ∧ le (snapToStep obj.val message.step) message.max = true ∧
  Recovers (if le (snapToStep message.min obj.step) obj.val then snapToStep message.min obj.step else obj.min)
    message.min message.step ∧
  Recovers (if le obj.val (snapToStep message.max obj.step) then snapToStep message.max obj.step else obj.max)
    message.max message.step

variable {obj message : IoObject α} {side : Side}

theorem ioSetMin_obj (obj : IoObject α) (v : α) :
    (ioSetMin obj v).obj =
      { obj with min := if le (snapToStep v obj.step) obj.val then snapToStep v obj.step else obj.min } := by
  simp only [ioSetMin]
  split <;> rfl

theorem ioSetMax_obj (obj : IoObject α) (v : α) :
    (ioSetMax obj v).obj =
      { obj with max := if le obj.val (snapToStep v obj.step) then snapToStep v obj.step else obj.max } := by
  simp only [ioSetMax]
  split <;> rfl

/-- The mirror after the setters of the description, of the unit and of the bounds. -/
def bounded (obj message : IoObject α) : IoObject α :=
  { obj with
    descr := message.descr
    unit := message.unit
    min := if le (snapToStep message.min obj.step) obj.val then snapToStep message.min obj.step else obj.min
    max := if le obj.val (snapToStep message.max obj.step) then snapToStep message.max obj.step else obj.max }

theorem afterSetters_eq (obj message : IoObject α) :
    afterSetters (setters side message) obj =
      { (ioSetVal (ioSetStep side.word (bounded obj message) message.step).obj message.val).obj with
        flags := message.flags } := by
  simp only [afterSetters,setters,List.foldl_cons,List.foldl_nil,ioSetMin_obj,ioSetMax_obj,ioSetFlags_obj]
  rfl

theorem afterSetters_name (obj message : IoObject α) : (afterSetters (setters side message) obj).name = obj.name := by
  have stepped := (ioSetStep_name side.word (bounded obj message) message.step).1
  rw [afterSetters_eq]
  cases accepted : Accepts (ioSetStep side.word (bounded obj message) message.step).obj message.val with
  | true => rw [ioSetVal_accepted accepted]; exact stepped
  | false => rw [ioSetVal_rejected accepted]; exact stepped

/-- The handler of the message changes the object of its name. -/
theorem handleOn_named {array : List (IoObject α)} (found : findNamed message.name array = some obj) :
    findNamed message.name (handleOn side message array) = some (afterSetters (setters side message) obj) := by
  induction array with
  | nil => simp [findNamed] at found
  | cons first rest ih =>
    by_cases same : first.name = message.name
    · simp only [findNamed,List.find?_cons,same,beq_self_eq_true,Option.some.injEq] at found
      subst found
      have named : ((afterSetters (setters side message) first).name == message.name) = true :=
        beq_iff_eq.mpr ((afterSetters_name first message).trans same)
      simp only [handleOn,same,if_true,findNamed,List.find?_cons,named]
    · have apart : (first.name == message.name) = false := beq_eq_false_iff_ne.mpr same
      simp only [findNamed,List.find?_cons,apart] at found
      simp only [handleOn,Ne.symm same,if_false,findNamed,List.find?_cons,apart]
      exact ih found

/-- What the setter of the step stores for a value that it rounds to the bound is the bound. -/
theorem stored_eq_iff {x bound step : α} (fixed : snapToStep bound step = bound) :
    stored x step = bound ↔ Recovers x bound step := by
  unfold stored Recovers
  cases near : nearlyEqual x (snapToStep x step) step with
  | true =>
    refine ⟨fun same => .inl same,?_⟩
    rintro (same | ⟨snapped,far⟩)
    · exact same
    · rw [snapped,far] at near
      cases near
  | false =>
    constructor
    · intro snapped
      exact .inr ⟨snapped,snapped ▸ near⟩
    · rintro (rfl | ⟨snapped,_⟩)
      · exact fixed
      · exact snapped

theorem snap_recovers {x bound step : α} (fixed : snapToStep bound step = bound) (recovers : Recovers x bound step) :
    snapToStep x step = bound := by
  rcases recovers with rfl | ⟨snapped,_⟩
  · exact fixed
  · exact snapped

end

/-! ### In exact arithmetic -/

variable {obj message : IoObject ℚ} {side : Side}

/-- A step that is too small rounds nothing. -/
theorem snapToStep_small {step : ℚ} (small : le (Gdouble.abs step) (dblMin : ℚ) = true) (x : ℚ) :
    snapToStep x step = x := by
  simp only [snapToStep,roundToStep,small,if_true]

theorem snapToStep_multiple {x step : ℚ} (multiple : ∃ k : ℤ, x = k * step) : snapToStep x step = x := by
  cases small : le (Gdouble.abs step) (dblMin : ℚ) with
  | true => exact snapToStep_small small x
  | false => exact (snapToStep_fixed small).mpr multiple

theorem bounded_around (regular : Regular obj) (message : IoObject ℚ) :
    (bounded obj message).min ≤ obj.val ∧ obj.val ≤ (bounded obj message).max := by
  simp only [bounded]
  constructor
  · split
    next above => simpa [le] using above
    next => exact regular.above
  · split
    next below => simpa [le] using below
    next => exact regular.below

/-- The value and the flags are those of the message once the bounds and the step are. -/
theorem last_setters_iff (also : Regular message) {before : IoObject ℚ} (name : before.name = message.name)
    (descr : before.descr = message.descr) (unit : before.unit = message.unit) :
    { (ioSetVal before message.val).obj with flags := message.flags } = message ↔
      before.min = message.min ∧ before.max = message.max ∧ before.step = message.step := by
  obtain ⟨_,_,_,min,max,step,val,flags⟩ := before
  obtain ⟨_,_,_,newMin,newMax,newStep,newVal,newFlags⟩ := message
  cases name
  cases descr
  cases unit
  constructor
  · intro same
    simp only [ioSetVal] at same
    split at same <;> simp only [IoObject.mk.injEq] at same
    · exact ⟨same.2.2.2.1,same.2.2.2.2.1,same.2.2.2.2.2.1⟩
    · exact ⟨same.2.2.2.1,same.2.2.2.2.1,same.2.2.2.2.2.1⟩
  · rintro ⟨rfl,rfl,rfl⟩
    have fixed : snapToStep newVal step = newVal := snapToStep_multiple also.val
    have above : le min newVal = true := by simpa [le] using also.above
    have below : le newVal max = true := by simpa [le] using also.below
    simp only [ioSetVal,fixed,above,below,Bool.and_self,if_true]

/-- The setter of the step accepts where the old value, on the new step, is between the new
    bounds. -/
theorem acceptsStep_iff (usable : le (Gdouble.abs message.step) (dblMin : ℚ) = false)
    (min : snapToStep (bounded obj message).min message.step = message.min)
    (max : snapToStep (bounded obj message).max message.step = message.max) :
    AcceptsStep (bounded obj message) message.step ↔
      le message.min (snapToStep obj.val message.step) = true ∧
        le (snapToStep obj.val message.step) message.max = true := by
  simp only [AcceptsStep,usable,min,max,true_and]
  rfl

/-- A message makes the mirror what it says exactly when the mirror is not too far behind. -/
theorem afterSetters_iff (regular : Regular obj) (also : Regular message) (named : message.name = obj.name) :
    afterSetters (setters side message) obj = message ↔ Overwrites obj message := by
  have min := snapToStep_multiple also.min
  have max := snapToStep_multiple also.max
  obtain ⟨low,high⟩ := bounded_around regular message
  rw [afterSetters_eq]
  by_cases accepts : AcceptsStep (bounded obj message) message.step
  · rw [ioSetStep_accepted _ accepts]
    refine Iff.trans (last_setters_iff also named.symm rfl rfl) ?_
    simp only [stored_eq_iff min,stored_eq_iff max,and_true]
    constructor
    · rintro ⟨lower,upper⟩
      have within := (acceptsStep_iff accepts.1 (snap_recovers min lower) (snap_recovers max upper)).mp accepts
      exact ⟨.inl accepts.1,within.1,within.2,lower,upper⟩
    · rintro ⟨_,_,_,lower,upper⟩
      exact ⟨lower,upper⟩
  · rw [ioSetStep_refused _ accepts]
    refine Iff.trans (last_setters_iff also named.symm rfl rfl) ?_
    cases small : le (Gdouble.abs message.step) (dblMin : ℚ) with
    | true =>
      -- The step is refused for being too small, and rounds nothing: it has to be the old one.
      have still := snapToStep_small small
      constructor
      · rintro ⟨lower,upper,same⟩
        refine ⟨.inr same,?_,?_,.inl lower,.inl upper⟩
        · rw [still,← lower]
          simpa [le] using low
        · rw [still,← upper]
          simpa [le] using high
      · rintro ⟨usable | same,_,_,lower,upper⟩
        · rw [small] at usable
          cases usable
        · have same : (bounded obj message).step = message.step := same
          exact ⟨(still _).symm.trans (snap_recovers min lower),(still _).symm.trans (snap_recovers max upper),same⟩
    | false =>
      -- A step that is not too small is refused only where the message is not taken.
      refine iff_of_false ?_ ?_
      · rintro ⟨lower,upper,same⟩
        have same : obj.step = message.step := same
        have value : snapToStep obj.val message.step = obj.val := same ▸ snapToStep_multiple regular.val
        refine accepts ((acceptsStep_iff small ((congrArg (snapToStep · message.step) lower).trans min)
          ((congrArg (snapToStep · message.step) upper).trans max)).mpr ?_)
        rw [value,← lower,← upper]
        exact ⟨by simpa [le] using low,by simpa [le] using high⟩
      · rintro ⟨_,above,below,lower,upper⟩
        exact accepts ((acceptsStep_iff small (snap_recovers min lower) (snap_recovers max upper)).mpr ⟨above,below⟩)

/-- After the handler of a message the object of its name is what the message says, exactly
    when the mirror was not too far behind. -/
theorem handleOn_overwrites_iff (side : Side) {array : List (IoObject ℚ)}
    (found : findNamed message.name array = some obj) (regular : Regular obj) (also : Regular message) :
    findNamed message.name (handleOn side message array) = some message ↔ Overwrites obj message := by
  have same := List.find?_some found
  have named : message.name = obj.name := (beq_iff_eq.mp same).symm
  rw [handleOn_named found,Option.some.injEq]
  exact afterSetters_iff regular also named

private def blind : IoObject ℚ := ⟨"blind","",0,0,10,1,5,0⟩

private def raisedBlind : IoObject ℚ := ⟨"blind","",0,4,30,2,6,0⟩

private def movedBlind : IoObject ℚ := ⟨"blind","",0,20,30,1,25,0⟩

private theorem blind_regular : Regular blind :=
  ⟨by decide +kernel,by decide +kernel,by decide +kernel,⟨0,by decide +kernel⟩,⟨10,by decide +kernel⟩,
    ⟨5,by decide +kernel⟩⟩

private theorem raisedBlind_regular : Regular raisedBlind :=
  ⟨by decide +kernel,by decide +kernel,by decide +kernel,⟨2,by decide +kernel⟩,⟨15,by decide +kernel⟩,
    ⟨3,by decide +kernel⟩⟩

private theorem movedBlind_regular : Regular movedBlind :=
  ⟨by decide +kernel,by decide +kernel,by decide +kernel,⟨20,by decide +kernel⟩,⟨30,by decide +kernel⟩,
    ⟨25,by decide +kernel⟩⟩

private theorem blind_found : findNamed raisedBlind.name [blind] = some blind := by decide +kernel

theorem handleOn_overwrites_iff_blind :
    findNamed "blind" (handleOn .input raisedBlind [blind]) = some raisedBlind ↔ Overwrites blind raisedBlind :=
  handleOn_overwrites_iff .input blind_found blind_regular raisedBlind_regular

/-- A range that has moved above the old value leaves the old lower bound in the mirror. -/
theorem moved_range_half_taken :
    Regular blind ∧ Regular movedBlind ∧
      findNamed "blind" (handleOn .input movedBlind [blind]) = some { movedBlind with min := 0 } ∧
      findNamed "blind" (handleOn .input movedBlind [blind]) ≠ some movedBlind :=
  ⟨blind_regular,movedBlind_regular,by decide +kernel,by decide +kernel⟩

end Starter.Repairs
