import Mathlib.FieldTheory.Finite.Basic
import Mathlib.GroupTheory.OrderOfElement

/-! Multiplicative generators modulo a prime.

    From a start that is not zero, multiplying by a primitive root again and again visits every
    residue but zero once before it returns. So over a period the products meet an interval as often
    as it has elements. -/

namespace Schemes.FullPeriod

variable {p a x : ℕ} [Fact p.Prime]

theorem cast_ne_zero (hx : x % p ≠ 0) : (x : ZMod p) ≠ 0 := by
  rw [Ne, ZMod.natCast_eq_zero_iff]
  exact fun h => hx (Nat.mod_eq_zero_of_dvd h)

theorem root_ne_zero (ha : orderOf (a : ZMod p) = p - 1) : (a : ZMod p) ≠ 0 := by
  intro h
  have hp : 2 ≤ p := (Fact.out : p.Prime).two_le
  rw [h, orderOf_zero] at ha
  omega

/-- No product with a power of the root is zero. -/
theorem mul_pow_mod_ne_zero (ha : orderOf (a : ZMod p) = p - 1) (hx : x % p ≠ 0) (n : ℕ) :
    x * a ^ n % p ≠ 0 := by
  intro h
  have hz : ((x * a ^ n : ℕ) : ZMod p) = 0 :=
    (ZMod.natCast_eq_zero_iff _ _).mpr (Nat.dvd_of_mod_eq_zero h)
  rw [Nat.cast_mul, Nat.cast_pow] at hz
  exact mul_ne_zero (cast_ne_zero hx) (pow_ne_zero n (root_ne_zero ha)) hz

/-- Two of the first `p - 1` products from any point on are different. -/
theorem mul_pow_mod_inj (ha : orderOf (a : ZMod p) = p - 1) (hx : x % p ≠ 0) {k i j : ℕ}
    (hi : i < p - 1) (hj : j < p - 1) (h : x * a ^ (k + i) % p = x * a ^ (k + j) % p) : i = j := by
  have hcast : ((x * a ^ (k + i) : ℕ) : ZMod p) = (x * a ^ (k + j) : ℕ) :=
    (ZMod.natCast_eq_natCast_iff' _ _ _).mpr h
  push_cast at hcast
  have hpow := mul_left_cancel₀ (cast_ne_zero hx) hcast
  rw [pow_add, pow_add] at hpow
  have hroot := mul_left_cancel₀ (pow_ne_zero k (root_ne_zero ha)) hpow
  refine pow_injOn_Iio_orderOf ?_ ?_ hroot
  · rw [ha]
    exact hi
  · rw [ha]
    exact hj

/-- The products of a period are the residues that are not zero, each of them once. -/
theorem perm_of_period (ha : orderOf (a : ZMod p) = p - 1) (hx : x % p ≠ 0) (k : ℕ) :
    ((List.range (p - 1)).map fun i => x * a ^ (k + i) % p).Perm (List.range' 1 (p - 1)) := by
  have hnodup : ((List.range (p - 1)).map fun i => x * a ^ (k + i) % p).Nodup := by
    refine List.Nodup.map_on ?_ List.nodup_range
    intro i hi j hj hij
    exact mul_pow_mod_inj ha hx (List.mem_range.mp hi) (List.mem_range.mp hj) hij
  have hsub : ((List.range (p - 1)).map fun i => x * a ^ (k + i) % p) ⊆ List.range' 1 (p - 1) := by
    intro y hy
    obtain ⟨i, -, rfl⟩ := List.mem_map.mp hy
    have hpos := mul_pow_mod_ne_zero ha hx (k + i)
    have hlt := Nat.mod_lt (x * a ^ (k + i)) (Fact.out : p.Prime).pos
    rw [List.mem_range'_1]
    omega
  refine (List.subperm_of_subset hnodup hsub).perm_of_length_le ?_
  rw [List.length_range', List.length_map, List.length_range]

theorem countP_range'_eq {P : ℕ → Bool} {b c n : ℕ} (hb : 1 ≤ b) (hbc : b ≤ c) (hcn : c ≤ n + 1)
    (hP : ∀ v, 1 ≤ v → v ≤ n → (P v = true ↔ b ≤ v ∧ v < c)) :
    (List.range' 1 n).countP P = c - b := by
  have hsplit : List.range' 1 n =
      List.range' 1 (b - 1) ++ (List.range' b (c - b) ++ List.range' c (n + 1 - c)) := by
    have hright := List.range'_append_1 (s := b) (m := c - b) (n := n + 1 - c)
    have hleft := List.range'_append_1 (s := 1) (m := b - 1) (n := c - b + (n + 1 - c))
    rw [Nat.add_sub_cancel' hbc] at hright
    rw [Nat.add_sub_cancel' hb] at hleft
    rw [hright, hleft]
    congr 1
    omega
  have hbelow : (List.range' 1 (b - 1)).countP P = 0 := by
    rw [List.countP_eq_zero]
    intro v hv
    rw [List.mem_range'_1] at hv
    rw [hP v hv.1 (by omega)]
    omega
  have hinside : (List.range' b (c - b)).countP P = (List.range' b (c - b)).length := by
    rw [List.countP_eq_length]
    intro v hv
    rw [List.mem_range'_1] at hv
    exact (hP v (by omega) (by omega)).mpr (by omega)
  have habove : (List.range' c (n + 1 - c)).countP P = 0 := by
    rw [List.countP_eq_zero]
    intro v hv
    rw [List.mem_range'_1] at hv
    rw [hP v (by omega) (by omega)]
    omega
  rw [hsplit, List.countP_append, List.countP_append, hbelow, hinside, habove, List.length_range',
    Nat.zero_add, Nat.add_zero]

/-- How many products of a period lie in the interval. -/
theorem countP_of_period (ha : orderOf (a : ZMod p) = p - 1) (hx : x % p ≠ 0) (k : ℕ) {P : ℕ → Bool}
    {b c : ℕ} (hb : 1 ≤ b) (hbc : b ≤ c) (hcp : c ≤ p)
    (hP : ∀ v, 1 ≤ v → v < p → (P v = true ↔ b ≤ v ∧ v < c)) :
    (List.range (p - 1)).countP (fun i => P (x * a ^ (k + i) % p)) = c - b := by
  have hcount := (perm_of_period ha hx k).countP_eq P
  rw [List.countP_map, countP_range'_eq hb hbc (by omega) fun v hv hn => hP v hv (by omega)]
    at hcount
  exact hcount

end Schemes.FullPeriod
