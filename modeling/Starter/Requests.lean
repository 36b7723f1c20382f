import Starter.Grid
import Starter.Peers

/-!
The requests `SetInput` and `SetOutput` at a peer, in exact arithmetic: what they ask of an
object, what they leave, and which of them are refused.
-/
namespace Starter.Requests
open Gdouble Objects Peers Grid

/-- The multiple of the step that is nearest to the value; of two of them the one farther from zero. -/
def Nearest (value step m : ℚ) : Prop :=
  ∃ k : ℤ, m = k * step ∧ ∀ j : ℤ, |m - value| < |j * step - value| ∨ (|m - value| = |j * step - value| ∧ |j * step| ≤ |m|)

private theorem nearest_of_nonneg {x : ℚ} (positive : 0 ≤ x) (j : ℤ) :
    |(⌊x + 1 / 2⌋ : ℚ) - x| ≤ 1 / 2 ∧ (|(⌊x + 1 / 2⌋ : ℚ) - x| < |j - x| ∨
      (|(⌊x + 1 / 2⌋ : ℚ) - x| = |j - x| ∧ |(j : ℚ)| ≤ |(⌊x + 1 / 2⌋ : ℚ)|)) := by
  have low := Int.floor_le (x + 1 / 2)
  have high := Int.lt_floor_add_one (x + 1 / 2)
  have whole : 0 ≤ ⌊x + 1 / 2⌋ := Int.floor_nonneg.mpr (by linarith)
  generalize ⌊x + 1 / 2⌋ = n at low high whole
  have near : |(n : ℚ) - x| ≤ 1 / 2 := abs_le.mpr ⟨by linarith,by linarith⟩
  refine ⟨near,?_⟩
  rcases lt_trichotomy j n with less | rfl | more
  · have gap : (j : ℚ) ≤ n - 1 := by exact_mod_cast Int.le_sub_one_of_lt less
    have far : |(j : ℚ) - x| = x - j := by rw [abs_of_nonpos (by linarith)]; ring
    rw [far]
    rcases lt_or_ge |(n : ℚ) - x| (x - j) with closer | tie
    · exact .inl closer
    · -- Both are at 1/2, and `n` is the larger one.
      have both : (j : ℚ) = n - 1 ∧ x = n - 1 / 2 := ⟨by linarith,by linarith⟩
      have one : (1 : ℤ) ≤ n := by
        by_contra below
        have zero : n = 0 := by omega
        subst zero
        linarith [both.2]
      have one' : (1 : ℚ) ≤ n := by exact_mod_cast one
      refine .inr ⟨le_antisymm (by linarith) tie,?_⟩
      rw [both.1,abs_of_nonneg (by linarith),abs_of_nonneg (by linarith)]
      linarith
  · exact .inr ⟨rfl,le_rfl⟩
  · have gap : (n : ℚ) + 1 ≤ j := by exact_mod_cast Int.add_one_le_of_lt more
    have far : |(j : ℚ) - x| = j - x := abs_of_nonneg (by linarith)
    rw [far]
    exact .inl (by linarith)

/-- `round` goes to the nearest integer, and of two to the one farther from zero. -/
theorem roundAway_nearest (x : ℚ) : ∃ n : ℤ, roundAway x = n ∧ |n - x| ≤ 1 / 2 ∧
    ∀ j : ℤ, |n - x| < |j - x| ∨ (|n - x| = |j - x| ∧ |(j : ℚ)| ≤ |(n : ℚ)|) := by
  by_cases positive : 0 ≤ x
  · exact ⟨⌊x + 1 / 2⌋,by simp [roundAway,positive],(nearest_of_nonneg positive 0).1,fun j => (nearest_of_nonneg positive j).2⟩
  · have mirror : 0 ≤ -x := by linarith
    have ceil : ⌈x - 1 / 2⌉ = -⌊-x + 1 / 2⌋ := by
      rw [← Int.ceil_neg]
      congr 1
      ring
    have flip : ∀ a : ℚ, |-a - x| = |a - -x| := by
      intro a
      rw [← abs_neg]
      congr 1
      ring
    refine ⟨-⌊-x + 1 / 2⌋,by rw [roundAway,if_neg positive,ceil],?_,fun j => ?_⟩
    · rw [Int.cast_neg,flip]
      exact (nearest_of_nonneg mirror 0).1
    · have back : |-(j : ℚ) - -x| = |j - x| := by
        rw [← abs_neg]
        congr 1
        ring
      have other := (nearest_of_nonneg mirror (-j)).2
      rw [Int.cast_neg,back,abs_neg] at other
      rw [Int.cast_neg,flip,abs_neg]
      exact other

/-- The step is not zero, as the code tests it: the constructors assert it and the setter of the step refuses another. -/
def NonZero (step : ℚ) : Prop := le (Gdouble.abs step) (dblMin : ℚ) = false

theorem snapToStep_nearest {step : ℚ} (nonzero : NonZero step) (value : ℚ) :
    Nearest value step (snapToStep value step) ∧ |snapToStep value step - value| ≤ |step| / 2 := by
  have divides : step ≠ 0 := by
    rintro rfl
    exact absurd nonzero (by unfold NonZero; decide +kernel)
  obtain ⟨n,rounded,near,least⟩ := roundAway_nearest (value / step)
  have snapped : snapToStep value step = n * step := by
    have usable : le (Gdouble.abs step) (dblMin : ℚ) = false := nonzero
    rw [← rounded]
    simp only [snapToStep,roundToStep,usable,Bool.false_eq_true,if_false]
    rfl
  -- Distances from the value are those of the quotient, `|step|` times.
  have scaled : ∀ k : ℤ, |k * step - value| = |k - value / step| * |step| := by
    intro k
    rw [← abs_mul,sub_mul,div_mul_cancel₀ _ divides]
  have size : 0 < |step| := abs_pos.mpr divides
  rw [snapped]
  refine ⟨⟨n,rfl,fun j => ?_⟩,?_⟩
  · rw [scaled,scaled,abs_mul,abs_mul]
    rcases least j with closer | ⟨tie,larger⟩
    · exact .inl (mul_lt_mul_of_pos_right closer size)
    · exact .inr ⟨by rw [tie],mul_le_mul_of_nonneg_right larger size.le⟩
  · rw [scaled]
    linarith [mul_le_mul_of_nonneg_right near size.le]

/-- There is one nearest multiple. -/
theorem nearest_unique {value step m m' : ℚ} (first : Nearest value step m) (second : Nearest value step m') : m = m' := by
  obtain ⟨k,rfl,least⟩ := first
  obtain ⟨k',rfl,least'⟩ := second
  have apart : |k * step - value| = |k' * step - value| ∧ |(k : ℚ) * step| = |k' * step| := by
    rcases least k' with closer | ⟨tie,larger⟩
    · rcases least' k with closer' | ⟨tie',_⟩
      · exact absurd closer (lt_asymm closer')
      · exact absurd tie'.symm closer.ne
    · rcases least' k with closer' | ⟨_,larger'⟩
      · exact absurd tie.symm closer'.ne
      · exact ⟨tie,le_antisymm larger' larger⟩
  rcases abs_eq_abs.mp apart.2 with same | opposite
  · exact same
  · -- Two multiples on either side of zero are equally far from the value only if one of them is zero, or the value.
    have mirror : |k * step - value| = |k * step + value| := by
      rw [apart.1,← abs_neg (k * step + value)]
      congr 1
      linarith
    have product : (k * step) * value = 0 := by
      rcases abs_eq_abs.mp mirror with same | flipped
      · have none : value = 0 := by linarith
        rw [none,mul_zero]
      · have none : k * step = 0 := by linarith
        rw [none,zero_mul]
    have none : (k : ℚ) * step = 0 := by
      rcases mul_eq_zero.mp product with none | origin
      · exact none
      · have nearer := least 0
        simp only [origin,Int.cast_zero,zero_mul,sub_zero,abs_zero] at nearer
        rcases nearer with closer | ⟨equal,_⟩
        · exact absurd closer (not_lt.mpr (abs_nonneg _))
        · exact abs_eq_zero.mp equal
    linarith

section
variable {α : Type} [Gdouble α]

/-- The signals that the objects raise while the handler runs `setNamed`. -/
def raised (name : String) (value : α) (flags : IoFlags) : List (IoObject α) → List (IoSignal × IoObject α)
  | [] => []
  | obj :: rest => if obj.name = name then (setValFlags obj value flags).emitted else raised name value flags rest

/-- Those of `changed` are what the peer announces. -/
theorem raised_announced (name : String) (value : α) (flags : IoFlags) (objs : List (IoObject α)) :
    (setNamed name value flags objs).announced =
      (raised name value flags objs).filterMap fun e => if e.1 = .changed then some e.2 else none := by
  induction objs with
  | nil => rfl
  | cons obj rest ih =>
    simp only [setNamed,raised]
    split
    · rfl
    · exact ih

/-- What the loop does to a list of objects: nothing, or it sets the first object of the name. -/
theorem setNamed_cases (name : String) (value : α) (flags : IoFlags) (objs : List (IoObject α)) :
    (findNamed name objs = none ∧ setNamed name value flags objs = ⟨false,objs,[]⟩ ∧ raised name value flags objs = []) ∨
    ∃ front obj rest, objs = front ++ obj :: rest ∧ (∀ x ∈ front, x.name ≠ name) ∧ obj.name = name ∧
      findNamed name objs = some obj ∧
      setNamed name value flags objs = ⟨(setValFlags obj value flags).ok,
        front ++ (setValFlags obj value flags).obj :: rest,Update.announced (setValFlags obj value flags)⟩ ∧
      raised name value flags objs = (setValFlags obj value flags).emitted := by
  induction objs with
  | nil => exact .inl ⟨rfl,rfl,rfl⟩
  | cons obj rest ih =>
    by_cases same : obj.name = name
    · exact .inr ⟨[],obj,rest,rfl,by simp,same,by simp [findNamed,same],by simp [setNamed,same],by simp [raised,same]⟩
    · rcases ih with ⟨none,left,quiet⟩ | ⟨front,first,later,rfl,others,named,found,set,signals⟩
      · exact .inl ⟨by simpa [findNamed,same] using none,by simp [setNamed,same,left],by simp [raised,same,quiet]⟩
      · refine .inr ⟨obj :: front,first,later,rfl,?_,named,?_,by simp [setNamed,same,set],by simp [raised,same,signals]⟩
        · intro x member
          rcases List.mem_cons.mp member with rfl | member
          · exact same
          · exact others x member
        · simpa [findNamed,same] using found

/-- A refused request raises nothing. -/
theorem setValFlags_silent {obj : IoObject α} {value : α} (flags : IoFlags) (rejected : Accepts obj value = false) :
    (setValFlags obj value flags).emitted = [] := by
  have failed : (ioSetVal obj value).ok = false := (ioSetVal_ok obj value).trans rejected
  simp only [setValFlags,failed,Bool.false_eq_true,if_false]
  rw [ioSetVal_rejected rejected]

end

/-- All or nothing, of a request for the objects: the first object of the name takes the nearest multiple of its step and
the flags, if that is between its min and its max; otherwise, and where there is none of the name, nothing happens. -/
structure AllOrNothing (name : String) (value : ℚ) (flags : IoFlags) (objs : List (IoObject ℚ)) (res : Bool)
    (after : List (IoObject ℚ)) (signals : List (IoSignal × IoObject ℚ)) : Prop where
  taken : res = true → ∃ (front : List (IoObject ℚ)) (obj : IoObject ℚ) (rest : List (IoObject ℚ)) (val : ℚ),
    objs = front ++ obj :: rest ∧ (∀ x ∈ front, x.name ≠ name) ∧ obj.name = name ∧
    after = front ++ { obj with val := val, flags := flags } :: rest ∧ (∃ k : ℤ, val = k * obj.step) ∧
    |val - value| ≤ |obj.step| / 2 ∧ obj.min ≤ val ∧ val ≤ obj.max
  refused : res = false → after = objs ∧ signals = []
  exactly : res = false ↔ (∀ obj ∈ objs, obj.name ≠ name) ∨
    ∃ (obj : IoObject ℚ) (m : ℚ), findNamed name objs = some obj ∧ Nearest value obj.step m ∧ ¬ (obj.min ≤ m ∧ m ≤ obj.max)

private theorem accepts_iff (obj : IoObject ℚ) (value : ℚ) :
    Accepts obj value = true ↔ obj.min ≤ snapToStep value obj.step ∧ snapToStep value obj.step ≤ obj.max := by
  simp [Accepts,le]

theorem setNamed_allOrNothing (name : String) (value : ℚ) (flags : IoFlags) {objs : List (IoObject ℚ)}
    (nonzero : ∀ obj ∈ objs, NonZero obj.step) :
    AllOrNothing name value flags objs (setNamed name value flags objs).res (setNamed name value flags objs).objs
      (raised name value flags objs) := by
  rcases setNamed_cases name value flags objs with ⟨none,left,quiet⟩ | ⟨front,obj,rest,split,others,named,found,set,signals⟩
  · rw [left,quiet]
    have absent : ∀ obj ∈ objs, obj.name ≠ name := by simpa [findNamed] using none
    exact ⟨by simp,fun _ => ⟨rfl,rfl⟩,iff_of_true rfl (.inl absent)⟩
  · rw [set,signals]
    have member : obj ∈ objs := by simp [split]
    obtain ⟨nearest,close⟩ := snapToStep_nearest (nonzero obj member) value
    have present : ¬ ∀ obj ∈ objs, obj.name ≠ name := fun absent => absent obj member named
    cases accepted : Accepts obj value with
    | true =>
      obtain ⟨ok,left⟩ : (setValFlags obj value flags).ok = true ∧ (setValFlags obj value flags).obj =
          { obj with val := snapToStep value obj.step, flags := flags } := setValFlags_accepted accepted
      have within := (accepts_iff obj value).mp accepted
      rw [ok,left]
      refine ⟨fun _ => ?_,by simp,iff_of_false (by simp) ?_⟩
      · obtain ⟨k,multiple,_⟩ := nearest
        exact ⟨front,obj,rest,snapToStep value obj.step,split,others,named,rfl,⟨k,multiple⟩,close,within⟩
      · rintro (absent | ⟨obj',m,found',nearest',outside⟩)
        · exact present absent
        · cases found.symm.trans found'
          rw [nearest_unique nearest' nearest] at outside
          exact outside within
    | false =>
      obtain ⟨ok,left⟩ : (setValFlags obj value flags).ok = false ∧ (setValFlags obj value flags).obj = obj :=
        setValFlags_rejected accepted
      rw [ok,left,setValFlags_silent flags accepted]
      refine ⟨by simp,fun _ => ⟨split.symm,rfl⟩,iff_of_true rfl (.inr ⟨obj,_,found,nearest,fun within => ?_⟩)⟩
      rw [(accepts_iff obj value).mpr within] at accepted
      cases accepted

/-- Both requests are all or nothing, for every server of objects whose steps are not zero: what happens happens to the
outputs, or to the inputs, and a refused request sends no message. -/
theorem requests_allOrNothing (self : Peer ℚ) (name : String) (value : ℚ) (flags : IoFlags)
    (nonzero : ∀ obj ∈ self.server.inputs ++ self.server.outputs, NonZero obj.step) :
    (∃ outputs sent, (handleSetOutput self name value flags).2 = ⟨{ self.server with outputs := outputs },self.sent ++ sent⟩ ∧
      AllOrNothing name value flags self.server.outputs (handleSetOutput self name value flags).1 outputs
        (raised name value flags self.server.outputs) ∧
      ((handleSetOutput self name value flags).1 = false → (handleSetOutput self name value flags).2 = self)) ∧
    (∃ inputs sent, (handleSetInput self name value flags).2 = ⟨{ self.server with inputs := inputs },self.sent ++ sent⟩ ∧
      AllOrNothing name value flags self.server.inputs (handleSetInput self name value flags).1 inputs
        (raised name value flags self.server.inputs) ∧
      ((handleSetInput self name value flags).1 = false → (handleSetInput self name value flags).2 = self)) := by
  have outputs := setNamed_allOrNothing name value flags fun obj member => nonzero obj (List.mem_append_right _ member)
  have inputs := setNamed_allOrNothing name value flags fun obj member => nonzero obj (List.mem_append_left _ member)
  refine ⟨⟨_,_,rfl,outputs,fun failed => ?_⟩,⟨_,_,rfl,inputs,fun failed => ?_⟩⟩
  · obtain ⟨kept,quiet⟩ := outputs.refused failed
    simp only [handleSetOutput,kept,raised_announced,quiet,List.filterMap_nil,List.map_nil,List.append_nil]
  · obtain ⟨kept,quiet⟩ := inputs.refused failed
    simp only [handleSetInput,kept,raised_announced,quiet,List.filterMap_nil,List.map_nil,List.append_nil]

private def lamp : IoObject ℚ := ⟨"lamp","",0,0,10,-2,4,0⟩

/-- A lamp with the step −2 is asked for 5: it takes 6. -/
theorem requests_allOrNothing_lamp :
    (handleSetOutput ⟨⟨[],[lamp]⟩,[]⟩ "lamp" 5 0).1 = true ∧
      ∃ outputs sent, (handleSetOutput ⟨⟨[],[lamp]⟩,[]⟩ "lamp" 5 0).2 = ⟨⟨[],outputs⟩,[] ++ sent⟩ ∧
        AllOrNothing "lamp" 5 0 [lamp] (handleSetOutput ⟨⟨[],[lamp]⟩,[]⟩ "lamp" 5 0).1 outputs (raised "lamp" 5 0 [lamp]) := by
  have nonzero : ∀ obj ∈ [] ++ [lamp], NonZero obj.step := by
    intro obj member
    rw [List.mem_singleton.mp member]
    unfold NonZero
    decide +kernel
  obtain ⟨outputs,sent,left,whole,_⟩ := (requests_allOrNothing ⟨⟨[],[lamp]⟩,[]⟩ "lamp" 5 0 nonzero).1
  exact ⟨by decide +kernel,outputs,sent,left,whole⟩

end Starter.Requests
