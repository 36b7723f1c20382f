import Starter.Setters

/-!
What the signals of an object tell. A setter that stores one field raises the signal of the
field and `changed` where the new value is not nearly equal to the old one, but stores the
new value in any case. The setter of the step stores four fields, one after the other, and
raises a signal after each of them, while the fields that come later are still the old
ones.
-/
namespace Starter.Signals
open Gdouble Objects Grid Setters

section
variable {α : Type}

/-- The call raised the signal. -/
def Raises (u : Update α) (signal : IoSignal) : Prop := ∃ seen, (signal,seen) ∈ u.emitted

/-- What the signal is about has become another. -/
def Moved (obj next : IoObject α) : IoSignal → Prop
  | .changed => next ≠ obj
  | .descrChanged => next.descr ≠ obj.descr
  | .unitChanged => next.unit ≠ obj.unit
  | .valChanged => next.val ≠ obj.val
  | .minChanged => next.min ≠ obj.min
  | .maxChanged => next.max ≠ obj.max
  | .stepChanged => next.step ≠ obj.step
  | .flagsChanged => next.flags ≠ obj.flags

/-- The call raised the signals of what it changed, and no others. -/
def Announced (obj : IoObject α) (u : Update α) : Prop := ∀ signal, Raises u signal ↔ Moved obj u.obj signal

variable {obj : IoObject α} {u : Update α}

/-- A call that raises nothing has to leave the object as it is. -/
theorem announced_quiet (quiet : u.emitted = []) : Announced obj u ↔ u.obj = obj := by
  constructor
  · intro announced
    by_contra changed
    obtain ⟨seen,member⟩ := (announced .changed).mpr changed
    simp [quiet] at member
  · intro same signal
    cases signal <;> simp [Raises,Moved,quiet,same]

theorem ne_of_moved {next : IoObject α} {signal : IoSignal} (moved : Moved obj next signal) : next ≠ obj := by
  rintro rfl
  cases signal <;> exact moved rfl

/-- A call that raises the signal of a field and `changed` has to change this field and no other. -/
theorem announced_loud (signal : IoSignal) (raised : u.emitted = [(signal,u.obj),(.changed,u.obj)])
    (moved : Moved obj u.obj signal) (rest : ∀ other, other ≠ signal → other ≠ .changed → ¬ Moved obj u.obj other) :
    Announced obj u := by
  intro other
  by_cases own : other = signal
  · subst own
    exact iff_of_true ⟨u.obj,by simp [raised]⟩ moved
  · by_cases any : other = .changed
    · subst any
      exact iff_of_true ⟨u.obj,by simp [raised]⟩ (ne_of_moved moved)
    · exact iff_of_false (by simp [Raises,raised,own,any]) (rest other own any)

variable [Gdouble α]

/-- The two are the same, or not nearly equal. -/
def Apart (old new step : α) : Prop := new = old ∨ nearlyEqual old new step = false

/-- Rounding to the new step moves the value by more than the tolerance. -/
def moves (value step : α) : Bool := !nearlyEqual value (snapToStep value step) step

theorem stored_moves (value step : α) : stored value step = if moves value step then snapToStep value step else value := by
  unfold stored moves
  cases nearlyEqual value (snapToStep value step) step <;> rfl

/-- The signals of the setter of the step, each with the object as it is by then. -/
theorem ioSetStep_emitted (what : String) {v : α} (accepts : AcceptsStep obj v) :
    (ioSetStep what obj v).emitted =
      (if moves obj.min v then [(.minChanged,{ obj with min := stored obj.min v })] else []) ++
      (if moves obj.max v then [(.maxChanged,{ obj with min := stored obj.min v, max := stored obj.max v })] else []) ++
      (if moves obj.val v then
        [(.valChanged,{ obj with min := stored obj.min v, max := stored obj.max v, val := stored obj.val v })] else []) ++
      (if !nearlyEqual obj.step v v || moves obj.min v || moves obj.max v || moves obj.val v then
        [(.stepChanged,(ioSetStep what obj v).obj),(.changed,(ioSetStep what obj v).obj)] else []) := by
  rw [ioSetStep_accepted what accepts]
  obtain ⟨usable,above,below⟩ := accepts
  simp only [ioSetStep,usable,above,below,Bool.and_self,if_true,Bool.false_eq_true,if_false]
  cases nearMin : nearlyEqual obj.min (snapToStep obj.min v) v <;>
    cases nearMax : nearlyEqual obj.max (snapToStep obj.max v) v <;>
    cases nearVal : nearlyEqual obj.val (snapToStep obj.val v) v <;> simp [stored,moves,nearMin,nearMax,nearVal]

theorem ioSetStep_silent (what : String) {v : α} (refuses : ¬ AcceptsStep obj v) : (ioSetStep what obj v).emitted = [] := by
  simp only [ioSetStep]
  split
  · rfl
  · rename_i usable
    split
    · rename_i within
      simp only [Bool.and_eq_true] at within
      exact absurd ⟨by simpa using usable,within⟩ refuses
    · rfl

/-- The setter of the step says that something changed. -/
def Stirs (obj : IoObject α) (v : α) : Prop :=
  nearlyEqual obj.step v v = false ∨ moves obj.min v = true ∨ moves obj.max v = true ∨ moves obj.val v = true

/-- Which signals the setter of the step raises. -/
theorem ioSetStep_raises (what : String) {v : α} (accepts : AcceptsStep obj v) (signal : IoSignal) :
    Raises (ioSetStep what obj v) signal ↔
      (signal = .minChanged ∧ moves obj.min v = true) ∨ (signal = .maxChanged ∧ moves obj.max v = true) ∨
        (signal = .valChanged ∧ moves obj.val v = true) ∨ ((signal = .stepChanged ∨ signal = .changed) ∧ Stirs obj v) := by
  unfold Raises Stirs
  rw [ioSetStep_emitted what accepts]
  cases moves obj.min v <;> cases moves obj.max v <;> cases moves obj.val v <;> cases nearlyEqual obj.step v v <;>
    simp [exists_or]

/-- The condition under which a call tells what it does: a call of the setter of min, max or val that is accepted stores
the old value or one that is not nearly equal to it; one of the setter of the step that is accepted stores the old step or
one that is not nearly equal to it, or else moves one of the three values. -/
def Told (obj : IoObject α) : Call α → Prop
  | .min v => le (snapToStep v obj.step) obj.val = true → Apart obj.min (snapToStep v obj.step) obj.step
  | .max v => le obj.val (snapToStep v obj.step) = true → Apart obj.max (snapToStep v obj.step) obj.step
  | .val v => Accepts obj v = true → Apart obj.val (snapToStep v obj.step) obj.step
  | .step v => AcceptsStep obj v →
    Apart obj.step v v ∨ moves obj.min v = true ∨ moves obj.max v = true ∨ moves obj.val v = true
  | .flags _ => True

end

/-! No silent change, in exact arithmetic. -/

section
variable {obj : IoObject ℚ}

private theorem abs_eq_rat (x : ℚ) : Gdouble.abs x = |x| := by
  unfold Gdouble.abs
  split
  · rename_i negative
    exact (abs_of_neg (of_decide_eq_true negative)).symm
  · rename_i positive
    exact (abs_of_nonneg (not_lt.mp fun negative => positive (decide_eq_true negative))).symm

private theorem abs_nonneg_rat (x : ℚ) : 0 ≤ Gdouble.abs x := abs_eq_rat x ▸ abs_nonneg x

/-- The tolerance is not negative. -/
theorem nearlyEqual_self (x step : ℚ) : nearlyEqual x x step = true := by
  have size := abs_nonneg_rat x
  have small : (0 : ℚ) ≤ mul (mul dblEpsilon (add (add (ofRat 1) (Gdouble.abs x)) (Gdouble.abs x))) (ofRat 8) := by
    simp only [mul,add,dblEpsilon,ofRat]
    positivity
  have none : Gdouble.abs (sub x x) = 0 := by simp [Gdouble.abs,sub,lt,zero,ofRat]
  have coarse : (0 : ℚ) ≤ mul (Gdouble.abs step) (ofRat (1 / 10 ^ 9)) :=
    mul_nonneg (abs_nonneg_rat step) (by simp only [ofRat]; positivity)
  simp only [nearlyEqual,none,le,decide_eq_true_eq,Gdouble.max]
  split
  · split
    · exact small
    · exact coarse
  · exact small

theorem moves_iff (value step : ℚ) : moves value step = true ↔ stored value step ≠ value := by
  rw [stored_moves]
  cases moved : moves value step with
  | false => simp
  | true =>
    simp only [if_true,true_iff]
    intro same
    rw [moves,same,nearlyEqual_self] at moved
    cases moved

/-- A new value that is not nearly equal to the old one is another. -/
private theorem ne_of_far {old new step : ℚ} (far : nearlyEqual old new step = false) : new ≠ old := by
  rintro rfl
  rw [nearlyEqual_self] at far
  cases far

/-- A setter that stores one field, and raises its signal where the new value is not nearly equal to the old one. -/
private theorem announced_field {u : Update ℚ} {old new step : ℚ} (signal : IoSignal)
    (raised : u.emitted = if nearlyEqual old new step then [] else [(signal,u.obj),(.changed,u.obj)])
    (own : Moved obj u.obj signal ↔ new ≠ old) (same : new = old → u.obj = obj)
    (rest : ∀ other, other ≠ signal → other ≠ .changed → ¬ Moved obj u.obj other) :
    Announced obj u ↔ Apart old new step := by
  cases near : nearlyEqual old new step with
  | true =>
    simp only [near,if_true] at raised
    have apart : Apart old new step ↔ new = old := by simp [Apart,near]
    rw [apart,announced_quiet raised]
    refine ⟨fun kept => ?_,same⟩
    by_contra other
    exact ne_of_moved (own.mpr other) kept
  | false =>
    simp only [near,Bool.false_eq_true,if_false] at raised
    exact iff_of_true (announced_loud signal raised (own.mpr (ne_of_far near)) rest) (.inr near)

theorem ioSetMin_announced (v : ℚ) : Announced obj (ioSetMin obj v) ↔ Told obj (.min v) := by
  simp only [ioSetMin,Told]
  split
  · rename_i accepted
    simp only [accepted,forall_const]
    refine announced_field .minChanged rfl Iff.rfl (fun same => by rw [same]) fun other own any => ?_
    cases other <;> simp [Moved] at own any ⊢
  · rename_i rejected
    exact iff_of_true ((announced_quiet rfl).mpr rfl) fun accepted => absurd accepted rejected

theorem ioSetMax_announced (v : ℚ) : Announced obj (ioSetMax obj v) ↔ Told obj (.max v) := by
  simp only [ioSetMax,Told]
  split
  · rename_i accepted
    simp only [accepted,forall_const]
    refine announced_field .maxChanged rfl Iff.rfl (fun same => by rw [same]) fun other own any => ?_
    cases other <;> simp [Moved] at own any ⊢
  · rename_i rejected
    exact iff_of_true ((announced_quiet rfl).mpr rfl) fun accepted => absurd accepted rejected

theorem ioSetVal_announced (v : ℚ) : Announced obj (ioSetVal obj v) ↔ Told obj (.val v) := by
  rw [Told]
  cases accepted : Accepts obj v with
  | true =>
    rw [ioSetVal_accepted accepted]
    simp only [forall_const]
    refine announced_field .valChanged rfl Iff.rfl (fun same => by rw [same]) fun other own any => ?_
    cases other <;> simp [Moved] at own any ⊢
  | false =>
    rw [ioSetVal_rejected accepted]
    exact iff_of_true ((announced_quiet rfl).mpr rfl) (by simp)

theorem ioSetFlags_announced (flags : IoFlags) : Announced obj (ioSetFlags obj flags) := by
  by_cases same : obj.flags = flags
  · refine (announced_quiet (by simp [ioSetFlags,same])).mpr ?_
    rw [ioSetFlags_obj,← same]
  · refine announced_loud .flagsChanged (by simp [ioSetFlags,same]) (Ne.symm same) fun other own any => ?_
    cases other <;> simp [Moved] at own any ⊢

/-- The three values are announced as they are moved; the step, and that anything changed, only if one of them is moved
or the new step is not nearly equal to the old one. -/
theorem ioSetStep_announced (what : String) (regular : Regular obj) (v : ℚ) :
    Announced obj (ioSetStep what obj v) ↔ Told obj (.step v) := by
  rw [Told]
  by_cases accepts : AcceptsStep obj v
  · simp only [accepts,forall_const]
    have raises := ioSetStep_raises what accepts
    have stores := ioSetStep_accepted what accepts
    have still : v = obj.step → ¬ Stirs obj v := by
      rintro rfl
      have fixed : ∀ x : ℚ, (∃ k : ℤ, x = k * obj.step) → moves x obj.step = false := by
        intro x multiple
        rw [moves,(snapToStep_fixed accepts.1).mpr multiple,nearlyEqual_self]
        rfl
      simp [Stirs,nearlyEqual_self,fixed _ regular.min,fixed _ regular.max,fixed _ regular.val]
    have told : (Apart obj.step v v ∨ moves obj.min v = true ∨ moves obj.max v = true ∨ moves obj.val v = true) ↔
        v = obj.step ∨ Stirs obj v := by
      unfold Apart Stirs
      tauto
    rw [told]
    constructor
    · intro announced
      by_contra silent
      obtain ⟨differs,quiet⟩ := not_or.mp silent
      have raised := (announced .stepChanged).mpr (by rw [Moved,stores]; exact differs)
      exact quiet (by simpa using (raises _).mp raised)
    · intro loud
      have stirs : Stirs obj v ↔ v ≠ obj.step :=
        ⟨fun stirs same => still same stirs,fun differs => loud.resolve_left differs⟩
      intro signal
      rw [raises]
      cases signal with
      | changed =>
        simp only [reduceCtorEq,false_and,or_true,true_and,false_or]
        refine ⟨fun stirred => ?_,fun changed => ?_⟩
        · have moved : Moved obj (ioSetStep what obj v).obj .stepChanged := by
            rw [Moved,stores]
            exact stirs.mp stirred
          exact ne_of_moved moved
        · by_contra quiet
          obtain ⟨_,least,greatest,value⟩ : nearlyEqual obj.step v v ≠ false ∧ moves obj.min v ≠ true ∧
              moves obj.max v ≠ true ∧ moves obj.val v ≠ true := by simpa [Stirs,not_or] using quiet
          apply changed
          rw [stores,stored_moves,stored_moves,stored_moves,if_neg least,if_neg greatest,if_neg value,
            loud.resolve_right quiet]
      | stepChanged => simp [Moved,stores,stirs]
      | minChanged => simp [Moved,stores,moves_iff]
      | maxChanged => simp [Moved,stores,moves_iff]
      | valChanged => simp [Moved,stores,moves_iff]
      | descrChanged => simp [Moved,stores]
      | unitChanged => simp [Moved,stores]
      | flagsChanged => simp [Moved,stores]
  · rw [announced_quiet (ioSetStep_silent what accepts)]
    exact iff_of_true (ioSetStep_refused what accepts) fun accepted => absurd accepted accepts

/-- For every object and every call of a setter: the signals that the call raises are those of the fields that it changes,
exactly if it stores nothing that is nearly equal to what was there and yet another. -/
theorem announced_iff (what : String) (regular : Regular obj) (call : Call ℚ) :
    Announced obj (call.update what obj) ↔ Told obj call := by
  cases call with
  | min v => exact ioSetMin_announced v
  | max v => exact ioSetMax_announced v
  | step v => exact ioSetStep_announced what regular v
  | val v => exact ioSetVal_announced v
  | flags word => exact iff_of_true (ioSetFlags_announced word) trivial

end

private def counter : IoObject ℚ := ⟨"counter","",0,0,2 ^ 51,1,2 ^ 50,0⟩

private theorem counter_regular : Regular counter := by
  refine ⟨?_,?_,?_,⟨0,?_⟩,⟨2 ^ 51,?_⟩,⟨2 ^ 50,?_⟩⟩ <;> norm_num [counter]

theorem announced_iff_counter :
    Announced counter (Call.update "input" counter (.val 7)) ↔ Told counter (.val 7) := announced_iff "input" counter_regular _

/-- At this size the next number is nearly equal: it is stored, and nobody is told. -/
theorem next_value_untold :
    Regular counter ∧ (ioSetVal counter (2 ^ 50 + 1)).obj = { counter with val := 2 ^ 50 + 1 } ∧
      ¬ Announced counter (ioSetVal counter (2 ^ 50 + 1)) := by
  have stored : (ioSetVal counter (2 ^ 50 + 1)).obj = { counter with val := 2 ^ 50 + 1 } := by decide +kernel
  have silent : (ioSetVal counter (2 ^ 50 + 1)).emitted = [] := by decide +kernel
  refine ⟨counter_regular,stored,fun announced => ?_⟩
  obtain ⟨seen,member⟩ := (announced .valChanged).mpr (by rw [Moved,stored]; decide +kernel)
  rw [silent] at member
  cases member

/-! What the handlers see. -/

section
variable {α : Type} [Gdouble α]

/-- min ≤ val ≤ max. -/
structure Within (obj : IoObject α) : Prop where
  above : le obj.min obj.val = true
  below : le obj.val obj.max = true

/-- Neither infinite nor a NaN: only from such a number is 0 left when it is taken from itself. -/
def Finite (x : α) : Prop := eq (sub x x) zero = true

/-- A multiple of the step, up to the tolerance of `nearly_equal`. What `round` yields is an integer, or infinite, or a NaN;
the last two are no multipliers, since their products are not finite. -/
def Multiple (val step : α) : Prop :=
  ∃ x, (Finite val → Finite (mul (Gdouble.round x) step)) ∧
    (val = mul (Gdouble.round x) step ∨ nearlyEqual val (mul (Gdouble.round x) step) step = true)

/-- What the handler of a signal sees is consistent. -/
def Consistent (raised : IoSignal × IoObject α) : Prop :=
  Within raised.2 ∧ (raised.1 = .valChanged → Multiple raised.2.val raised.2.step)

/-- The condition for that: where the setter of the step moves min or max, the rounded one is not beyond the old val; where
it moves val, the rounded one is a multiple of the old step and within what has been stored for min and max. -/
def Steady (obj : IoObject α) : Call α → Prop
  | .step v => AcceptsStep obj v →
    (moves obj.min v = true → le (snapToStep obj.min v) obj.val = true) ∧
    (moves obj.max v = true → le obj.val (snapToStep obj.max v) = true) ∧
    (moves obj.val v = true → le (stored obj.min v) (snapToStep obj.val v) = true ∧
      le (snapToStep obj.val v) (stored obj.max v) = true ∧ Multiple (snapToStep obj.val v) obj.step)
  | _ => True

variable {obj : IoObject α}

theorem multiple_snapToStep {step : α} (usable : le (Gdouble.abs step) dblMin = false) (x : α) :
    Multiple (snapToStep x step) step := by
  have product : snapToStep x step = mul (Gdouble.round (div x step)) step := by
    simp only [snapToStep,roundToStep,usable,Bool.false_eq_true,if_false]
  exact ⟨div x step,fun finite => product ▸ finite,.inl product⟩

theorem ioSetMin_consistent (within : Within obj) (v : α) : ∀ raised ∈ (ioSetMin obj v).emitted, Consistent raised := by
  intro raised member
  simp only [ioSetMin] at member
  split at member
  · rename_i accepted
    split at member
    · simp at member
    · simp only [List.mem_cons,List.not_mem_nil,or_false] at member
      rcases member with rfl | rfl
      · exact ⟨⟨accepted,within.below⟩,by simp⟩
      · exact ⟨⟨accepted,within.below⟩,by simp⟩
  · simp at member

theorem ioSetMax_consistent (within : Within obj) (v : α) : ∀ raised ∈ (ioSetMax obj v).emitted, Consistent raised := by
  intro raised member
  simp only [ioSetMax] at member
  split at member
  · rename_i accepted
    split at member
    · simp at member
    · simp only [List.mem_cons,List.not_mem_nil,or_false] at member
      rcases member with rfl | rfl
      · exact ⟨⟨within.above,accepted⟩,by simp⟩
      · exact ⟨⟨within.above,accepted⟩,by simp⟩
  · simp at member

theorem ioSetVal_consistent (usable : le (Gdouble.abs obj.step) dblMin = false) (v : α) :
    ∀ raised ∈ (ioSetVal obj v).emitted, Consistent raised := by
  intro raised member
  cases accepted : Accepts obj v with
  | false => simp [ioSetVal_rejected accepted] at member
  | true =>
    rw [ioSetVal_accepted accepted] at member
    simp only [Accepts,Bool.and_eq_true] at accepted
    simp only at member
    split at member
    · simp at member
    · simp only [List.mem_cons,List.not_mem_nil,or_false] at member
      rcases member with rfl | rfl
      · exact ⟨⟨accepted.1,accepted.2⟩,fun _ => multiple_snapToStep usable v⟩
      · exact ⟨⟨accepted.1,accepted.2⟩,fun _ => multiple_snapToStep usable v⟩

theorem ioSetFlags_consistent (within : Within obj) (flags : IoFlags) :
    ∀ raised ∈ (ioSetFlags obj flags).emitted, Consistent raised := by
  intro raised member
  simp only [ioSetFlags] at member
  split at member
  · simp at member
  · simp only [List.mem_cons,List.not_mem_nil,or_false] at member
    rcases member with rfl | rfl
    · exact ⟨⟨within.above,within.below⟩,by simp⟩
    · exact ⟨⟨within.above,within.below⟩,by simp⟩

/-- What is stored of an accepted step. -/
private theorem stored_of (value step : α) :
    (moves value step = true ∧ stored value step = snapToStep value step) ∨
      (moves value step = false ∧ stored value step = value) := by
  rw [stored_moves]
  cases moves value step <;> simp

theorem ioSetStep_consistent (what : String) (within : Within obj) (v : α) :
    (∀ raised ∈ (ioSetStep what obj v).emitted, Consistent raised) ↔ Steady obj (.step v) := by
  rw [Steady]
  by_cases accepts : AcceptsStep obj v
  · simp only [accepts,forall_const]
    rw [ioSetStep_emitted what accepts,ioSetStep_accepted what accepts]
    have value : moves obj.val v = true → stored obj.val v = snapToStep obj.val v := by
      intro moved
      rw [stored_moves,if_pos moved]
    constructor
    · intro consistent
      refine ⟨fun moved => ?_,fun moved => ?_,fun moved => ?_⟩
      · have seen := consistent (.minChanged,{ obj with min := stored obj.min v }) (by simp [moved])
        simpa [stored_moves,moved] using seen.1.above
      · have seen := consistent (.maxChanged,{ obj with min := stored obj.min v, max := stored obj.max v }) (by simp [moved])
        simpa [stored_moves,moved] using seen.1.below
      · have seen := consistent
          (.valChanged,{ obj with min := stored obj.min v, max := stored obj.max v, val := stored obj.val v }) (by simp [moved])
        rw [← value moved]
        exact ⟨seen.1.above,seen.1.below,seen.2 rfl⟩
    · rintro ⟨least,greatest,kept⟩
      have lower : le (stored obj.min v) obj.val = true := by
        rcases stored_of obj.min v with ⟨moved,same⟩ | ⟨_,same⟩
        · rw [same]
          exact least moved
        · rw [same]
          exact within.above
      have upper : le obj.val (stored obj.max v) = true := by
        rcases stored_of obj.max v with ⟨moved,same⟩ | ⟨_,same⟩
        · rw [same]
          exact greatest moved
        · rw [same]
          exact within.below
      have last : le (stored obj.min v) (stored obj.val v) = true ∧ le (stored obj.val v) (stored obj.max v) = true := by
        rcases stored_of obj.val v with ⟨moved,same⟩ | ⟨_,same⟩
        · rw [same]
          exact ⟨(kept moved).1,(kept moved).2.1⟩
        · rw [same]
          exact ⟨lower,upper⟩
      intro raised member
      simp only [List.mem_append,List.mem_ite_nil_right,List.mem_cons,List.not_mem_nil,or_false] at member
      rcases member with ((⟨_,rfl⟩ | ⟨_,rfl⟩) | ⟨moved,rfl⟩) | ⟨_,rfl | rfl⟩
      · exact ⟨⟨lower,within.below⟩,by simp⟩
      · exact ⟨⟨lower,upper⟩,by simp⟩
      · refine ⟨⟨last.1,last.2⟩,fun _ => ?_⟩
        simp only [value moved]
        exact (kept moved).2.2
      · exact ⟨⟨last.1,last.2⟩,by simp⟩
      · exact ⟨⟨last.1,last.2⟩,by simp⟩
  · rw [ioSetStep_silent what accepts]
    simp [accepts]

/-- For every object with min ≤ val ≤ max and every call of a setter: all that the handlers see is consistent, exactly
under the condition. -/
theorem consistent_iff (what : String) (within : Within obj) (usable : le (Gdouble.abs obj.step) dblMin = false)
    (call : Call α) : (∀ raised ∈ (call.update what obj).emitted, Consistent raised) ↔ Steady obj call := by
  cases call with
  | min v => exact iff_of_true (ioSetMin_consistent within v) trivial
  | max v => exact iff_of_true (ioSetMax_consistent within v) trivial
  | step v => exact ioSetStep_consistent what within v
  | val v => exact iff_of_true (ioSetVal_consistent usable v) trivial
  | flags word => exact iff_of_true (ioSetFlags_consistent within word) trivial

end

private def knob : IoObject ℚ := ⟨"knob","",0,5,10,5,5,0⟩

theorem consistent_iff_knob :
    (∀ raised ∈ (Call.update "input" knob (.step 2)).emitted, Consistent raised) ↔ Steady knob (.step 2) :=
  consistent_iff "input" ⟨by decide +kernel,by decide +kernel⟩ (by decide +kernel) _

/-- No multiple of 5 is nearly equal to 6: the nearest are 1 away, and the tolerance grows far slower than the distance. -/
private theorem six_no_multiple : ¬ Multiple (6 : ℚ) 5 := by
  rintro ⟨x,-,alike⟩
  obtain ⟨k,rounded⟩ := roundAway_whole x
  have product : mul (Gdouble.round x) 5 = ((k * 5 : ℤ) : ℚ) := by
    simp only [mul,Gdouble.round,rounded]
    push_cast
    ring
  rw [product] at alike
  have away : (1 : ℚ) ≤ |6 - ((k * 5 : ℤ) : ℚ)| := by
    have whole : (1 : ℤ) ≤ |6 - k * 5| := Int.one_le_abs (by omega)
    exact_mod_cast whole
  rcases alike with same | near
  · rw [← same,sub_self,abs_zero] at away
    linarith
  · have size : |((k * 5 : ℤ) : ℚ)| ≤ |6 - ((k * 5 : ℤ) : ℚ)| + 6 := by
      have parts := abs_sub_abs_le_abs_sub ((k * 5 : ℤ) : ℚ) 6
      rw [abs_sub_comm] at parts
      norm_num at parts ⊢
      linarith
    have far : nearlyEqual (6 : ℚ) ((k * 5 : ℤ) : ℚ) 5 = false := by
      generalize ((k * 5 : ℤ) : ℚ) = y at away size
      simp only [nearlyEqual,abs_eq_rat,le,lt,mul,add,sub,ofRat,dblEpsilon,dblMin,Gdouble.max,decide_eq_false_iff_not,not_le]
      norm_num at away size ⊢
      split
      · split <;> linarith
      · linarith
    rw [far] at near
    cases near

private def dial : IoObject ℚ := ⟨"dial","",0,0,15,5,5,0⟩

/-- The step of either object becomes 3. That of `knob` moves min to 6, and its signal is raised, while val is still 5;
that of `dial` moves val to 6, and its signal is raised, while the step is still 5. -/
theorem min_above_value :
    (Within knob ∧ (ioSetStep "input" knob 3).error = none ∧
      ¬ ∀ raised ∈ (ioSetStep "input" knob 3).emitted, Consistent raised) ∧
    Within dial ∧ (ioSetStep "input" dial 3).error = none ∧
      ¬ ∀ raised ∈ (ioSetStep "input" dial 3).emitted, Consistent raised := by
  constructor
  · have raised : (.minChanged,{ knob with min := 6 }) ∈ (ioSetStep "input" knob 3).emitted := by decide +kernel
    refine ⟨⟨by decide +kernel,by decide +kernel⟩,by decide +kernel,fun consistent => ?_⟩
    exact absurd (consistent _ raised).1.above (by decide +kernel)
  · have raised : (.valChanged,{ dial with val := 6 }) ∈ (ioSetStep "input" dial 3).emitted := by decide +kernel
    refine ⟨⟨by decide +kernel,by decide +kernel⟩,by decide +kernel,fun consistent => ?_⟩
    exact six_no_multiple ((consistent _ raised).2 rfl)

end Starter.Signals
