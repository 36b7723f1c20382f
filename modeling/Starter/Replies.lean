import Starter.Starts

/-!
The replies of `GetInputs` and `GetOutputs` as they come from the network. Only their type
is checked before objects are made of their entries, and the constructors assert what a
peer need not keep to.
-/
namespace Starter.Replies
open Gdouble Objects Handshake Methods Starts

section
variable {α : Type} [Gdouble α]

/-- The error of `apply_inputs_from_result` and `apply_outputs_from_result`. -/
def resultError (result : Value α) : Option StError :=
  if result.type = "(a{s(siddddt)})" then none else some ⟨.invalidResponse,"bad response signature: " ++ result.type⟩

def applyFromResult : Core.Side → Mirror α → Value α → Option (Bool × Mirror α)
  | .input => applyInputsFromResult
  | .output => applyOutputsFromResult

def onStartAsyncGet : Core.Side → StClient α → Nat → Cancellable → Answer α → Option (StClient α)
  | .input => onStartAsyncGetInputs
  | .output => onStartAsyncGetOutputs

def applied : Core.Side → Mark
  | .input => .inputs
  | .output => .outputs

/-- The entry passes the assertions of `st_input_new` and `st_output_new`. -/
def Admitted (entry : IoObject α) : Prop :=
  lt dblMin (abs entry.step) = true ∧
    le (snapToStep entry.min entry.step) (snapToStep entry.val entry.step) = true ∧
    le (snapToStep entry.val entry.step) (snapToStep entry.max entry.step) = true

/-- The reply is taken without an abort: it is applied, or it is refused with an error and either way of starting
the client ends in FAILED. -/
def Handled (self : StClient α) (side : Core.Side) (result : Value α) : Prop :=
  ∃ taken mirror, applyFromResult side self.mirror result = some (taken,mirror) ∧ taken = (resultError result).isNone ∧
    (taken = false → ∀ start cancellable goOn,
      (∃ next, onStartAsyncGet side self start cancellable (.result result) = some next ∧ next.state = .failed) ∧
      (∃ next, andThen start (callMethod self start (applyFromResult side) (applied side) (.result result)) goOn = some next ∧
        next.state = .failed))

theorem ioNew_isSome (entry : IoObject α) :
    (ioNew entry.name entry.descr entry.unit entry.min entry.max entry.step entry.val entry.flags).isSome ↔ Admitted entry := by
  unfold ioNew Admitted
  split
  case isTrue step =>
    simp only [step,true_and,← Bool.and_eq_true]
    split
    case isTrue inside => simp [inside]
    case isFalse outside => simp [outside]
  case isFalse step => simp [step]

theorem applyResult_isSome (entries : List (IoObject α)) : (applyResult entries).isSome ↔ ∀ entry ∈ entries, Admitted entry := by
  unfold applyResult
  induction entries with
  | nil => simp
  | cons entry rest ih =>
    rw [List.forall_mem_cons,← ioNew_isSome,← ih,List.mapM_cons]
    simp only [Option.pure_def,Option.bind_eq_bind,Option.isSome_bind]
    cases ioNew entry.name entry.descr entry.unit entry.min entry.max entry.step entry.val entry.flags with
    | none => simp
    | some obj => simp

theorem applyFromResult_objects (side : Core.Side) (mirror : Mirror α) (entries : List (IoObject α)) :
    (applyFromResult side mirror (.objects entries)).map Prod.fst = (applyResult entries).map fun _ => true := by
  cases side <;> cases made : applyResult entries <;> simp [applyFromResult,applyInputsFromResult,applyOutputsFromResult,made]

theorem refused {result : Value α} {error : StError} (refuses : resultError result = some error) (side : Core.Side)
    (mirror : Mirror α) : applyFromResult side mirror result = some (false,mirror) := by
  cases result with
  | objects entries => cases refuses
  | _ => cases side <;> rfl

/-- A reply is taken without an abort exactly if every entry in it passes the assertions of the constructor. -/
theorem handled_iff (self : StClient α) (side : Core.Side) (result : Value α) :
    Handled self side result ↔ ∀ entries, result = .objects entries → ∀ entry ∈ entries, Admitted entry := by
  cases refuses : resultError result with
  | some error =>
    refine iff_of_true ⟨false,self.mirror,refused refuses side _,by simp [refuses],?_⟩ ?_
    · intro _ start cancellable goOn
      have same := refused refuses side self.mirror
      refine ⟨⟨startAsyncFail self start,?_,rfl⟩,startFails self start,?_,rfl⟩
      · cases side <;> simp only [applyFromResult] at same <;>
          simp [onStartAsyncGet,onStartAsyncGetInputs,onStartAsyncGetOutputs,onStartAsyncReply,same]
      · simp [callMethod,andThen,same]
    · rintro entries rfl
      cases refuses
  | none =>
    obtain ⟨entries,rfl⟩ : ∃ entries, result = .objects entries := by
      cases result with
      | objects entries => exact ⟨entries,rfl⟩
      | _ => exact absurd refuses (by simp [resultError,Value.type])
    have made := applyFromResult_objects side self.mirror entries
    rw [show (∀ others, Value.objects entries = .objects others → ∀ entry ∈ others, Admitted entry) ↔
      ∀ entry ∈ entries, Admitted entry from ⟨fun all => all entries rfl,fun all _ same => by cases same; exact all⟩,
      ← applyResult_isSome]
    constructor
    · rintro ⟨taken,mirror,done,-⟩
      rw [done] at made
      cases result : applyResult entries with
      | none => simp [result] at made
      | some objs => rfl
    · intro some
      obtain ⟨objs,result⟩ := Option.isSome_iff_exists.mp some
      rw [result] at made
      obtain ⟨⟨taken,mirror⟩,done,same⟩ := Option.map_eq_some_iff.mp made
      simp only at same
      subst same
      exact ⟨true,mirror,done,by simp [refuses],fun no => absurd no (by decide)⟩

private def newClient : StClient ℚ :=
  let none : StatsEntry ℚ := ⟨0,0,0⟩
  stClientNew ⟨"noname",none,none,none,none,none,none,none,none,none⟩

/-- A step of zero is enough to abort the program of the client. -/
theorem zero_step_aborts : ¬ Handled newClient .input
    (.objects [⟨"lamp","",0,0,10,0,5,stIoFlagNull⟩]) := by
  rintro ⟨taken,mirror,done,-⟩
  have aborts : (applyFromResult .input newClient.mirror
      (.objects [⟨"lamp","",0,0,10,0,5,stIoFlagNull⟩])).isNone := by decide +kernel
  rw [done] at aborts
  cases aborts

end

/-! In exact arithmetic the three values of an entry stay in order where they are. -/

theorem roundAway_mono {x y : ℚ} (below : x ≤ y) : roundAway x ≤ roundAway y := by
  unfold roundAway
  split
  case isTrue positive =>
    rw [if_pos (positive.trans below)]
    exact_mod_cast Int.floor_mono (by linarith)
  case isFalse negative =>
    have none : ⌈x - 1 / 2⌉ ≤ 0 := Int.ceil_le.mpr (by push_cast; linarith)
    split
    case isTrue positive =>
      have least : 0 ≤ ⌊y + 1 / 2⌋ := Int.floor_nonneg.mpr (by linarith)
      exact_mod_cast none.trans least
    case isFalse => exact_mod_cast Int.ceil_mono (by linarith)

theorem snapToStep_mono {x y : ℚ} (below : x ≤ y) (step : ℚ) : snapToStep x step ≤ snapToStep y step := by
  unfold snapToStep roundToStep
  split
  · exact below
  · rcases le_or_gt 0 step with positive | negative
    · exact mul_le_mul_of_nonneg_right (roundAway_mono (div_le_div_of_nonneg_right below positive)) positive
    · exact mul_le_mul_of_nonpos_right (roundAway_mono (div_le_div_of_nonpos_of_le negative.le below)) negative.le

/-- A reply in which the values of each entry are in order, with a step that counts, passes the assertions of the
constructor. -/
theorem admitted_of_ordered {entry : IoObject ℚ} (step : lt dblMin (Gdouble.abs entry.step) = true) (above : entry.min ≤ entry.val)
    (below : entry.val ≤ entry.max) : Admitted entry :=
  ⟨step,by simpa [le] using snapToStep_mono above _,by simpa [le] using snapToStep_mono below _⟩

/-- Of 0, 5 and 10 the grid of 3 makes 0, 6 and 9. -/
theorem admitted_of_ordered_lamp : Admitted (⟨"lamp","",0,0,10,3,5,stIoFlagNull⟩ : IoObject ℚ) :=
  admitted_of_ordered (by decide +kernel) (by decide +kernel) (by decide +kernel)

end Starter.Replies
