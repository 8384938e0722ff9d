import Mathlib.Algebra.Group.Int.Defs
import Mathlib.Algebra.Group.Nat.Defs

/-! Arithmetic on `size_t`, `int` and `long`. -/

namespace FrozenHot

/-- `x--` on a `size_t`. -/
def sizeDec (x : ℕ) : ℕ := if x = 0 then 2 ^ 64 - 1 else x - 1

theorem sizeDec_succ (x : ℕ) : sizeDec (x + 1) = x := by simp [sizeDec]

/-- `x + 1` on `size_t`. -/
def sizeInc (x : ℕ) : ℕ := (x + 1) % 2 ^ 64

theorem sizeInc_of_lt {x : ℕ} (h : x + 1 < 2 ^ 64) : sizeInc x = x + 1 := Nat.mod_eq_of_lt h

/-- `a - b` on `size_t`. -/
def sizeSub (a b : ℕ) : ℕ := if b ≤ a then a - b else a + 2 ^ 64 - b

/-- The conversion of a wider integer to `int`: the last 32 bits, with a sign. -/
def toInt (x : ℤ) : ℤ := if x % 2 ^ 32 < 2 ^ 31 then x % 2 ^ 32 else x % 2 ^ 32 - 2 ^ 32

theorem toInt_of_lt {x : ℤ} (h0 : 0 ≤ x) (h : x < 2 ^ 31) : toInt x = x := by
  unfold toInt
  rw [Int.emod_eq_of_lt h0 (by omega), if_pos h]

theorem toInt_lt (x : ℤ) : toInt x < 2 ^ 31 := by
  unfold toInt
  split <;> omega

theorem neg_le_toInt (x : ℤ) : -2 ^ 31 ≤ toInt x := by
  unfold toInt
  split <;> omega

theorem toInt_eq {x : ℤ} (h0 : -2 ^ 31 ≤ x) (h : x < 2 ^ 31) : toInt x = x := by
  unfold toInt
  split <;> omega

/-- A sum of two `long`s: the last 64 bits, with a sign. -/
def toLong (x : ℤ) : ℤ := if x % 2 ^ 64 < 2 ^ 63 then x % 2 ^ 64 else x % 2 ^ 64 - 2 ^ 64

theorem toLong_eq {x : ℤ} (h0 : -2 ^ 63 ≤ x) (h : x < 2 ^ 63) : toLong x = x := by
  unfold toLong
  split <;> omega

end FrozenHot
