import Mathlib.Order.Basic

/-!
Bounded recursion. A recursive program is the functional `F` that turns the answers of
its recursive calls into its own; `approx F n` runs it with calls nested at most `n`
deep and answers `none` where that depth does not suffice. For a monotone functional
more depth never changes an answer, so all depths together are one partial function.
-/
namespace Starter.Lib.Approx
universe u v
variable {A : Type u} {B : Type v}

/-- Every answer of `f` is an answer of `g`. -/
def Below (f g : A → Option B) : Prop := ∀ a b, f a = some b → g a = some b

/-- More answered calls never lose an answer. -/
def Monotone (F : (A → Option B) → A → Option B) : Prop := ∀ f g, Below f g → Below (F f) (F g)

/-- The program with its calls nested at most `n` deep. -/
def approx (F : (A → Option B) → A → Option B) : Nat → A → Option B
  | 0 => fun _ => none
  | n+1 => F (approx F n)

/-- The program answers `b` at some depth. -/
def Answers (F : (A → Option B) → A → Option B) (a : A) (b : B) : Prop := ∃ n, approx F n a = some b

theorem approx_succ (F : (A → Option B) → A → Option B) (n : Nat) (a : A) :
    approx F (n+1) a = F (approx F n) a := rfl

theorem approx_next {F : (A → Option B) → A → Option B} (mono : Monotone F) :
    ∀ n, Below (approx F n) (approx F (n+1)) := by
  intro n
  induction n with
  | zero => intro a b answered; simp [approx] at answered
  | succ n ih => exact mono _ _ ih

/-- An answer stays when the calls may nest deeper. -/
theorem approx_mono {F : (A → Option B) → A → Option B} (mono : Monotone F) {m n : Nat} (le : m ≤ n) :
    Below (approx F m) (approx F n) := by
  induction le with
  | refl => exact fun _ _ answered => answered
  | step _ ih => exact fun a b answered => approx_next mono _ a b (ih a b answered)

/-- Two depths never give different answers. -/
theorem approx_unique {F : (A → Option B) → A → Option B} (mono : Monotone F) {m n : Nat} {a : A} {b c : B}
    (first : approx F m a = some b) (second : approx F n a = some c) : b = c := by
  have one := approx_mono mono (Nat.le_max_left m n) a b first
  have two := approx_mono mono (Nat.le_max_right m n) a c second
  exact Option.some.inj (one.symm.trans two)

/-- The rule of recursion: what the body establishes whenever its calls do holds of
    every answer. -/
theorem approx_induct {F : (A → Option B) → A → Option B} (P : A → B → Prop)
    (body : ∀ f : A → Option B, (∀ a b, f a = some b → P a b) → ∀ a b, F f a = some b → P a b) :
    ∀ n a b, approx F n a = some b → P a b := by
  intro n
  induction n with
  | zero => intro a b answered; simp [approx] at answered
  | succ n ih => exact body _ ih

end Starter.Lib.Approx
