import Mathlib.Data.Rat.Floor
import Mathlib.Tactic.Linarith
import Mathlib.Tactic.NormNum
import Mathlib.Tactic.Push

/-!
Numbers of a binary format that are printed as decimals with a fixed number of digits. A
rational is rounded to a number of the format; what is asked of that rounding is what
rounding to the nearest one gives. Then a decimal that is not longer than the printed one
is rounded to a number that its own print is rounded to again.
-/
namespace Starter.Lib.Decimals
universe u
variable {α : Type u}

/-- The nearest integer, of two that are equally near the even one. -/
def nearestEven (x : ℚ) : ℤ :=
  if x - ⌊x⌋ < 1 / 2 then ⌊x⌋
  else if 1 / 2 < x - ⌊x⌋ then ⌊x⌋ + 1
  else if ⌊x⌋ % 2 = 0 then ⌊x⌋
  else ⌊x⌋ + 1

theorem nearestEven_floor (x : ℚ) : nearestEven x = ⌊x⌋ ∧ x - ⌊x⌋ ≤ 1 / 2 ∨ nearestEven x = ⌊x⌋ + 1 ∧ 1 / 2 ≤ x - ⌊x⌋ := by
  unfold nearestEven
  split_ifs with below above even
  · exact .inl ⟨rfl,below.le⟩
  · exact .inr ⟨rfl,above.le⟩
  · exact .inl ⟨rfl,not_lt.mp above⟩
  · exact .inr ⟨rfl,not_lt.mp below⟩

theorem nearestEven_error (x : ℚ) : |x - nearestEven x| ≤ 1 / 2 := by
  have low := Int.floor_le x
  have high := Int.lt_floor_add_one x
  rcases nearestEven_floor x with ⟨same,half⟩ | ⟨same,half⟩
  · rw [same,abs_le]
    constructor <;> linarith
  · rw [same,abs_le]
    push_cast
    constructor <;> linarith

/-- No integer is nearer. -/
theorem nearestEven_nearest (x : ℚ) (k : ℤ) : |x - nearestEven x| ≤ |x - k| := by
  by_cases same : nearestEven x = k
  · rw [same]
  · have apart : (1 : ℚ) ≤ |(nearestEven x : ℚ) - k| := by
      have positive : 0 < |nearestEven x - k| := abs_pos.mpr (sub_ne_zero.mpr same)
      exact_mod_cast positive
    have half := nearestEven_error x
    have triangle := abs_sub_le (nearestEven x : ℚ) x k
    rw [abs_sub_comm] at half
    rw [abs_sub_comm x (nearestEven x : ℚ)]
    linarith

@[simp] theorem nearestEven_int (k : ℤ) : nearestEven k = k := by simp [nearestEven]

theorem nearestEven_nonneg {x : ℚ} (nonneg : 0 ≤ x) : 0 ≤ nearestEven x := by
  have floor : 0 ≤ ⌊x⌋ := Int.floor_nonneg.mpr nonneg
  rcases nearestEven_floor x with ⟨same,_⟩ | ⟨same,_⟩ <;> omega

theorem nearestEven_nonpos {x : ℚ} (negative : x < 0) : nearestEven x ≤ 0 := by
  have floor : ⌊x⌋ < 0 := Int.floor_lt.mpr (by exact_mod_cast negative)
  rcases nearestEven_floor x with ⟨same,_⟩ | ⟨same,_⟩ <;> omega

/-- The nearest decimal with so many digits after the point. -/
def nearestDecimal (digits : ℕ) (x : ℚ) : ℚ := nearestEven (x * 10 ^ digits) / 10 ^ digits

theorem nearestDecimal_nearest (digits : ℕ) (x : ℚ) (n : ℤ) :
    |x - nearestDecimal digits x| ≤ |x - n / 10 ^ digits| := by
  have scale : (0 : ℚ) < 10 ^ digits := by positivity
  have scaled : ∀ y : ℚ, |x - y / 10 ^ digits| = |x * 10 ^ digits - y| / 10 ^ digits := by
    intro y
    rw [← abs_of_pos scale,← abs_div,abs_of_pos scale]
    congr 1
    field_simp
  rw [nearestDecimal,scaled,scaled]
  exact div_le_div_of_nonneg_right (nearestEven_nearest _ n) scale.le

/-- Rounding stays within bounds that are decimals themselves. -/
theorem nearestDecimal_abs_le {digits : ℕ} {x : ℚ} {n : ℤ} (small : |x| ≤ n / 10 ^ digits) : |nearestDecimal digits x| ≤ n / 10 ^ digits := by
  obtain ⟨low,high⟩ := abs_le.mp small
  have above := nearestDecimal_nearest digits x n
  have below := nearestDecimal_nearest digits x (-n)
  push_cast at below
  rw [neg_div,sub_neg_eq_add] at below
  rw [abs_of_nonpos (by linarith : x - n / 10 ^ digits ≤ 0)] at above
  rw [abs_of_nonneg (by linarith : 0 ≤ x + n / 10 ^ digits)] at below
  have one := neg_abs_le (x - nearestDecimal digits x)
  have two := le_abs_self (x - nearestDecimal digits x)
  rw [abs_le]
  constructor <;> linarith

/-- Rounding to a binary format whose numbers have 53 digits, or fewer if they are among the smallest ones. The rationals
that are rounded to a number lie around it, on both sides alike unless the next smaller number is nearer than the next
larger one; and they lie close to it. -/
structure Rounds (round : ℚ → α) (value : α → ℚ) (Finite : α → Prop) : Prop where
  between : ∀ a b c, round a = round c → a ≤ b → b ≤ c → round b = round a
  exact : ∀ q, Finite (round q) → value (round q) ≠ 0 → round (value (round q)) = round q
  mirror : ∀ q, Finite (round q) → value (round q) ≠ 0 → (∀ k : ℤ, |value (round q)| ≠ 2 ^ k) →
    round (2 * value (round q) - q) = round q
  error : ∀ q, Finite (round q) → |value (round q) - q| ≤ |q| / 2 ^ 53 + 1 / 2 ^ 1075

variable {round : ℚ → α} {value : α → ℚ} {Finite : α → Prop}

/-- The rationals of no interval between two are left out, whichever of them is the larger one. -/
theorem Rounds.within (rounds : Rounds round value Finite) {a b c : ℚ} (same : round a = round c)
    (inside : a ≤ b ∧ b ≤ c ∨ c ≤ b ∧ b ≤ a) : round b = round a := by
  rcases inside with ⟨low,high⟩ | ⟨low,high⟩
  · exact rounds.between a b c same low high
  · exact (rounds.between c b a same.symm low high).trans same.symm

/-- To a small number no decimal is rounded but the nearest one. -/
private theorem small_nearest (rounds : Rounds round value Finite) {n : ℤ} (finite : Finite (round (n / 10 ^ 6)))
    (small : |value (round (n / 10 ^ 6))| ≤ 1) :
    nearestDecimal 6 (value (round (n / 10 ^ 6))) = n / 10 ^ 6 := by
  have error := rounds.error _ finite
  have near := nearestDecimal_nearest 6 (value (round (n / 10 ^ 6))) n
  generalize value (round (n / 10 ^ 6)) = v at error near small ⊢
  have tiny : (1 : ℚ) / 2 ^ 1075 ≤ 1 / 2 ^ 53 := one_div_le_one_div_of_le (by positivity) (pow_le_pow_right₀ (by norm_num) (by norm_num))
  have size : |(n : ℚ) / 10 ^ 6| ≤ |v| + |v - n / 10 ^ 6| := by
    have triangle := abs_sub_abs_le_abs_sub ((n : ℚ) / 10 ^ 6) v
    rw [abs_sub_comm] at triangle
    linarith
  have close : |v - n / 10 ^ 6| < 1 / (2 * 10 ^ 6) := by
    generalize (1 : ℚ) / 2 ^ 1075 = least at error tiny
    norm_num at error tiny ⊢
    linarith
  by_contra other
  have apart : (1 : ℚ) ≤ |(nearestEven (v * 10 ^ 6) : ℚ) - n| := by
    have differs : nearestEven (v * 10 ^ 6) ≠ n := by
      intro same
      exact other (by rw [nearestDecimal,same])
    have positive : 0 < |nearestEven (v * 10 ^ 6) - n| := abs_pos.mpr (sub_ne_zero.mpr differs)
    exact_mod_cast positive
  have gap : (1 : ℚ) / 10 ^ 6 ≤ |nearestDecimal 6 v - n / 10 ^ 6| := by
    rw [nearestDecimal,← sub_div,abs_div,abs_of_pos (show (0 : ℚ) < 10 ^ 6 by positivity)]
    exact div_le_div_of_nonneg_right apart (by positivity)
  have triangle := abs_sub_le (nearestDecimal 6 v) v ((n : ℚ) / 10 ^ 6)
  rw [abs_sub_comm (nearestDecimal 6 v) v] at triangle
  norm_num at close gap triangle near
  linarith

/-- A power of two from 1 on is a decimal. -/
private theorem power_nearest {v : ℚ} {k : ℕ} (power : |v| = 2 ^ k) : nearestDecimal 6 v = v := by
  obtain ⟨z,rfl⟩ : ∃ z : ℤ, v = z := by
    rcases abs_choice v with same | same
    · exact ⟨2 ^ k,by push_cast; rw [← power,same]⟩
    · exact ⟨-2 ^ k,by push_cast; rw [← power,same,neg_neg]⟩
  have scaled : (z : ℚ) * 10 ^ 6 = ((z * 10 ^ 6 : ℤ) : ℚ) := by push_cast; rfl
  rw [nearestDecimal,scaled,nearestEven_int,← scaled]
  exact mul_div_cancel_right₀ _ (by positivity)

/-- What is as near to `v` as `q` lies between `v` and `q`, or between `v` and the mirror image of `q`. -/
private theorem sides_of_near {v d q : ℚ} (near : |v - d| ≤ |v - q|) :
    (v ≤ d ∧ d ≤ q ∨ q ≤ d ∧ d ≤ v) ∨ (v ≤ d ∧ d ≤ 2 * v - q ∨ 2 * v - q ≤ d ∧ d ≤ v) := by
  rcases le_total v d with above | below
  · rw [abs_of_nonpos (by linarith : v - d ≤ 0)] at near
    rcases le_total v q with right | left
    · rw [abs_of_nonpos (by linarith)] at near
      exact .inl (.inl ⟨above,by linarith⟩)
    · rw [abs_of_nonneg (by linarith)] at near
      exact .inr (.inl ⟨above,by linarith⟩)
  · rw [abs_of_nonneg (by linarith : 0 ≤ v - d)] at near
    rcases le_total v q with right | left
    · rw [abs_of_nonpos (by linarith)] at near
      exact .inr (.inr ⟨by linarith,below⟩)
    · rw [abs_of_nonneg (by linarith)] at near
      exact .inl (.inr ⟨by linarith,below⟩)

/-- A decimal is rounded to a number, the number is printed with as many digits, and what is printed is rounded to the
number again. -/
theorem Rounds.reads (rounds : Rounds round value Finite) (n : ℤ) (finite : Finite (round (n / 10 ^ 6))) :
    round (nearestDecimal 6 (value (round (n / 10 ^ 6)))) = round (n / 10 ^ 6) := by
  have exact := rounds.exact _ finite
  have mirror := rounds.mirror _ finite
  have near := nearestDecimal_nearest 6 (value (round (n / 10 ^ 6))) n
  by_cases small : |value (round (n / 10 ^ 6))| ≤ 1
  · rw [small_nearest rounds finite small]
  generalize isValue : value (round (n / 10 ^ 6)) = v at exact mirror near small ⊢
  have nonzero : v ≠ 0 := by
    rintro rfl
    simp at small
  by_cases power : ∃ k : ℤ, |v| = 2 ^ k
  · obtain ⟨k,power⟩ := power
    have large : 0 ≤ k := by
      by_contra negative
      have le : (2 : ℚ) ^ k ≤ 2 ^ (0 : ℤ) := zpow_le_zpow_right₀ (by norm_num) (by omega)
      rw [← power,zpow_zero] at le
      exact small le
    obtain ⟨k,rfl⟩ := Int.eq_ofNat_of_zero_le large
    rw [zpow_natCast] at power
    rw [power_nearest power,exact nonzero]
  · push Not at power
    have back := mirror nonzero power
    rcases sides_of_near near with inside | inside
    · exact (rounds.within (exact nonzero) inside).trans (exact nonzero)
    · exact (rounds.within ((exact nonzero).trans back.symm) inside).trans (exact nonzero)

/-- The rationals themselves, which no rounding changes. -/
theorem rounds_exact (Finite : ℚ → Prop) : Rounds (fun q => q) (fun q => q) Finite where
  between a b c same low high := le_antisymm (high.trans same.ge) low
  exact _ _ _ := rfl
  mirror q _ _ _ := by ring
  error q _ := by
    rw [sub_self,abs_zero]
    positivity

end Starter.Lib.Decimals
