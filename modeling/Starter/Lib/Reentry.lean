import Mathlib.Data.List.Basic

/-!
Re-entrant notification. A loop visits the observers `0 … count-1` in order, those that
refer to a changed key, or all of them when there is no key. A visit may change another
key, and then a loop for that key runs to its end before the visit goes on. The frames
are the loops under way, innermost first. What the design rests on is that an observer
that is not done is still ahead of one of these loops.
-/
namespace Starter.Lib.Reentry
universe u
variable {K : Type u} {count : Nat} {done done' : Nat → Prop} {refers refers' : Nat → K → Prop}


/-- A loop under way: its key, if it has one, and the observer that comes next. -/
structure Frame (K : Type u) where
  key : Option K
  next : Nat

/-- The loop will come to the observer and visit it, as things stand. -/
def WillVisit (refers : Nat → K → Prop) (frame : Frame K) (q : Nat) : Prop :=
  frame.next ≤ q ∧ ∀ k, frame.key = some k → refers q k

/-- Every observer is done or will be visited by a loop under way. -/
def Settling (count : Nat) (done : Nat → Prop) (refers : Nat → K → Prop) (frames : List (Frame K)) : Prop :=
  ∀ q < count, done q ∨ ∃ frame ∈ frames, WillVisit refers frame q

variable {frames : List (Frame K)} {j : Nat}

theorem settling_start_all : Settling count done refers [⟨none,0⟩] := by
  intro q _
  exact .inr ⟨_,List.mem_cons_self,Nat.zero_le q,by simp⟩

theorem settling_start {k : K} (undone : ∀ q < count, done q ∨ refers q k) :
    Settling count done refers [⟨some k,0⟩] := by
  intro q below
  refine (undone q below).imp_right fun refer => ⟨_,List.mem_cons_self,Nat.zero_le q,?_⟩
  rintro _ ⟨⟩
  exact refer

/-- Where nothing that was done comes undone and no reference is lost. -/
theorem settling_quiet (stays : ∀ q, done q → done' q) (keeps : ∀ q k, refers q k → refers' q k)
    (settling : Settling count done refers frames) : Settling count done' refers' frames := by
  intro q below
  rcases settling q below with finished | ⟨frame,member,ahead,refer⟩
  · exact .inl (stays q finished)
  · exact .inr ⟨frame,member,ahead,fun k key => keeps q k (refer k key)⟩

/-- A change of the key `w` starts a loop for it. What comes undone, and what loses a
    reference, refers to `w`. -/
theorem settling_change {w : K} (stays : ∀ q, done q → done' q ∨ refers' q w)
    (keeps : ∀ q k, refers q k → refers' q k ∨ refers' q w)
    (settling : Settling count done refers frames) : Settling count done' refers' (⟨some w,0⟩ :: frames) := by
  have fresh : ∀ q, refers' q w → ∃ frame ∈ ⟨some w,0⟩ :: frames, WillVisit refers' frame q := by
    intro q refer
    refine ⟨_,List.mem_cons_self,Nat.zero_le q,?_⟩
    rintro _ ⟨⟩
    exact refer
  intro q below
  rcases settling q below with finished | ⟨frame,member,ahead,refer⟩
  · exact (stays q finished).imp_right (fresh q)
  · cases keyed : frame.key with
    | none => exact .inr ⟨frame,List.mem_cons_of_mem _ member,ahead,by simp [keyed]⟩
    | some k =>
      rcases keeps q k (refer k keyed) with kept | turned
      · refine .inr ⟨frame,List.mem_cons_of_mem _ member,ahead,?_⟩
        rw [keyed]
        rintro _ ⟨⟩
        exact kept
      · exact .inr (fresh q turned)

/-- The innermost loop goes past an observer that is done or does not refer to its key. -/
theorem settling_next {key : Option K} (passed : done j ∨ ∃ k, key = some k ∧ ¬ refers j k)
    (settling : Settling count done refers (⟨key,j⟩ :: frames)) :
    Settling count done refers (⟨key,j+1⟩ :: frames) := by
  intro q below
  rcases settling q below with finished | ⟨frame,member,ahead,refer⟩
  · exact .inl finished
  · rcases List.mem_cons.mp member with rfl | member
    · by_cases here : q = j
      · subst here
        rcases passed with finished | ⟨k,same,apart⟩
        · exact .inl finished
        · exact absurd (refer k same) apart
      · exact .inr ⟨_,List.mem_cons_self,by simp only at ahead ⊢; omega,refer⟩
    · exact .inr ⟨frame,List.mem_cons_of_mem _ member,ahead,refer⟩

/-- A loop that is past the last observer is over. -/
theorem settling_over {key : Option K} (past : count ≤ j) (settling : Settling count done refers (⟨key,j⟩ :: frames)) :
    Settling count done refers frames := by
  intro q below
  refine (settling q below).imp_right ?_
  rintro ⟨frame,member,ahead,refer⟩
  rcases List.mem_cons.mp member with rfl | member
  · simp only at ahead
    omega
  · exact ⟨frame,member,ahead,refer⟩

/-- When no loop is under way, every observer is done. -/
theorem settled (settling : Settling count done refers ([] : List (Frame K))) : ∀ q < count, done q := by
  intro q below
  rcases settling q below with finished | ⟨_,member,_⟩
  · exact finished
  · exact absurd member List.not_mem_nil

end Starter.Lib.Reentry
