import Mathlib.Algebra.Order.Floor.Semiring
import Mathlib.Data.Rat.Floor
import Mathlib.Tactic.Linarith
import Mathlib.Tactic.NormNum
import Mathlib.Tactic.Positivity

/-! Rounding to a floating-point format with 53 bits.

    A rounding is any map that keeps the small natural numbers and moves a normal number by at most
    half a unit in the last place. What a program computes with rounded numbers is then shown for
    every such map. -/

namespace Schemes

structure Rounding where
  fl : ℚ → ℚ
  exact_of_le : ∀ n : ℕ, n ≤ 2 ^ 53 → fl n = n
  error_le : ∀ x : ℚ, 1 / 2 ^ 1022 ≤ x → x ≤ 2 ^ 1023 → |fl x - x| ≤ x / 2 ^ 53

namespace Rounding
variable {x y n : ℚ}

/-- The map that rounds nothing. -/
def exact : Rounding where
  fl := id
  exact_of_le _ _ := rfl
  error_le x hx _ := by
    have hpos : 0 ≤ x := (by positivity : (0 : ℚ) ≤ 1 / 2 ^ 1022).trans hx
    rw [id, sub_self, abs_zero]
    positivity

/-- Far away from the ends of the format, the error is relative. -/
theorem fl_bounds (R : Rounding) (hlow : 1 / 2 ^ 64 ≤ x) (hhigh : x ≤ 2 ^ 64) :
    x - x / 2 ^ 53 ≤ R.fl x ∧ R.fl x ≤ x + x / 2 ^ 53 := by
  have hmin : (1 : ℚ) / 2 ^ 1022 ≤ 1 / 2 ^ 64 :=
    one_div_le_one_div_of_le (by positivity) (pow_le_pow_right₀ (by norm_num) (by norm_num))
  have hmax : (2 : ℚ) ^ 64 ≤ 2 ^ 1023 := pow_le_pow_right₀ (by norm_num) (by norm_num)
  have herror := abs_le.mp (R.error_le x (hmin.trans hlow) (hhigh.trans hmax))
  constructor <;> linarith [herror.1, herror.2]

/-- A quotient below one that is rounded and scaled, with the product rounded too. -/
theorem fl_mul_bounds (R : Rounding) (hlow : 1 / 2 ^ 32 ≤ x) (hone : x ≤ 1) (hn : 1 ≤ n)
    (hmax : n ≤ 2 ^ 53) :
    x * n - x * n / 2 ^ 51 ≤ R.fl (R.fl x * n) ∧ R.fl (R.fl x * n) ≤ x * n + x * n / 2 ^ 51 := by
  obtain ⟨hge, hle⟩ := R.fl_bounds (x := x) (by linarith) (by linarith)
  have hxn : x ≤ x * n := le_mul_of_one_le_right (by linarith) hn
  have hxn' : x * n ≤ 2 ^ 53 := (mul_le_of_le_one_left (by linarith) hone).trans hmax
  have hge' := mul_le_mul_of_nonneg_right hge (by linarith : 0 ≤ n)
  have hle' := mul_le_mul_of_nonneg_right hle (by linarith : 0 ≤ n)
  rw [sub_mul, div_mul_eq_mul_div] at hge'
  rw [add_mul, div_mul_eq_mul_div] at hle'
  obtain ⟨hge₂, hle₂⟩ := R.fl_bounds (x := R.fl x * n) (by linarith) (by linarith)
  constructor <;> linarith

/-- The rounding does not take a scaled quotient across an integer from which it is a `d`-th
    away. -/
theorem floor_fl_mul (R : Rounding) {i : ℕ} {d : ℚ} (hlow : 1 / 2 ^ 32 ≤ x) (hone : x ≤ 1)
    (hn : 1 ≤ n) (hmax : n ≤ 2 ^ 20) (hd : 1 / 2 ^ 31 < d) (hi : i + d ≤ x * n)
    (hi' : x * n ≤ i + 1 - d) :
    ⌊R.fl (R.fl x * n)⌋₊ = i := by
  obtain ⟨hge, hle⟩ := R.fl_mul_bounds hlow hone hn (by linarith)
  have hxn : x * n ≤ 2 ^ 20 := (mul_le_of_le_one_left (by linarith) hone).trans hmax
  have hi₀ : (0 : ℚ) ≤ i := Nat.cast_nonneg i
  rw [Nat.floor_eq_iff (by linarith)]
  constructor <;> linarith

/-! ### In the unit interval

    Of a rounding that keeps the order; very small numbers need not be rounded with a relative
    error. -/

theorem fl_zero (R : Rounding) : R.fl 0 = 0 := by
  simpa using R.exact_of_le 0 (by norm_num)

theorem fl_one (R : Rounding) : R.fl 1 = 1 := by
  simpa using R.exact_of_le 1 (by norm_num)

theorem fl_unit {R : Rounding} (hmono : Monotone R.fl) (h0 : 0 ≤ x) (h1 : x ≤ 1) :
    0 ≤ R.fl x ∧ R.fl x ≤ 1 ∧ |R.fl x - x| ≤ 1 / 2 ^ 53 := by
  have hlow : 0 ≤ R.fl x := R.fl_zero ▸ hmono h0
  refine ⟨hlow, R.fl_one ▸ hmono h1, ?_⟩
  rw [abs_le]
  rcases le_total (1 / 2 ^ 64) x with hx | hx
  · obtain ⟨hge, hle⟩ := R.fl_bounds hx (by linarith)
    constructor <;> linarith
  · obtain ⟨-, htiny⟩ := R.fl_bounds (x := 1 / 2 ^ 64) le_rfl (by norm_num)
    have hle := hmono hx
    constructor <;> linarith

/-- A part that is computed as the rest of the rest. -/
theorem fl_rest_of_rest {R : Rounding} (hmono : Monotone R.fl) (h0 : 0 ≤ x) (h1 : x ≤ 1) :
    |R.fl (1 - R.fl (1 - R.fl x)) - x| ≤ 3 / 2 ^ 53 := by
  obtain ⟨hlow₁, hhigh₁, herr₁⟩ := fl_unit hmono h0 h1
  obtain ⟨hlow₂, hhigh₂, herr₂⟩ := fl_unit hmono (x := 1 - R.fl x) (by linarith) (by linarith)
  obtain ⟨-, -, herr₃⟩ := fl_unit hmono (x := 1 - R.fl (1 - R.fl x)) (by linarith) (by linarith)
  rw [abs_le] at *
  constructor <;> linarith [herr₁.1, herr₁.2, herr₂.1, herr₂.2, herr₃.1, herr₃.2]

end Rounding
end Schemes
