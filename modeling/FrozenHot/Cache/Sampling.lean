import FrozenHot.Schemes.FullPeriod
import FrozenHot.Schemes.Rounding
import FrozenHot.Cache.RandomizedSet
import Mathlib.NumberTheory.LucasPrimality
import Mathlib.Tactic.NormNum.Prime
import Mathlib.Tactic.ReduceModChar
import Mathlib.Data.Rat.Floor
import Mathlib.Algebra.Order.Floor.Div

/-! The random numbers of a thread (`ssdlogging::random::Random`, `util.h`), and what the caches
    draw with them: which requests `sample_generator` (`FHCache.h`) counts, and which element
    `RandomizedSet::getRandom` (`redis_lru.h`) takes.

    A thread seeds its generator with a hash of its identity. `GoodSeed` keeps the seed from zero,
    but not from `M`, the other value the multiplication cannot leave. Quotients and products are
    `double`s in the source; here they are rounded by any map a `double` allows. -/

namespace FrozenHot
open Schemes

structure Random where
  seed_ : UInt32

namespace Random

def M : UInt32 := 2147483647

def A : UInt64 := 16807

def GoodSeed (s : UInt32) : UInt32 := if s &&& M ≠ 0 then s &&& M else 1

/-- The constructor. -/
def seeded (s : UInt32) : Random := ⟨GoodSeed s⟩

def Next (r : Random) : UInt32 × Random :=
  let product : UInt64 := r.seed_.toUInt64 * A
  -- The first reduction may overflow by one bit.
  let seed_ := ((product >>> 31) + (product &&& M.toUInt64)).toUInt32
  let seed_ := if seed_ > M then seed_ - M else seed_
  (seed_, ⟨seed_⟩)

/-- The generator after `n` draws. -/
def after (r : Random) : ℕ → Random
  | 0 => r
  | n + 1 => (r.after n).Next.2

/-- The `n`-th draw of a generator. -/
def draw (r : Random) (n : ℕ) : ℕ := (r.after n).Next.1.toNat

/-! ### The multiplier is a primitive root -/

theorem primes_of_period {q : ℕ} (hq : q.Prime) (hdvd : q ∣ 2147483647 - 1) :
    q = 2 ∨ q = 3 ∨ q = 7 ∨ q = 11 ∨ q = 31 ∨ q = 151 ∨ q = 331 := by
  have hfactors : 2147483647 - 1 = 2 * 3 ^ 2 * 7 * 11 * 31 * 151 * 331 := by norm_num
  rw [hfactors] at hdvd
  simp only [hq.dvd_mul] at hdvd
  rcases hdvd with (((((hdvd | hdvd) | hdvd) | hdvd) | hdvd) | hdvd) | hdvd
  · exact Or.inl ((Nat.prime_dvd_prime_iff_eq hq (by norm_num)).mp hdvd)
  · have hthree := hq.dvd_of_dvd_pow hdvd
    exact Or.inr (Or.inl ((Nat.prime_dvd_prime_iff_eq hq (by norm_num)).mp hthree))
  all_goals
    rw [Nat.prime_dvd_prime_iff_eq hq (by norm_num)] at hdvd
    simp [hdvd]

theorem pow_period : (16807 : ZMod 2147483647) ^ (2147483647 - 1) = 1 := by
  norm_num only
  reduce_mod_char

theorem pow_part_ne_one {q : ℕ} (hq : q.Prime) (hdvd : q ∣ 2147483647 - 1) :
    (16807 : ZMod 2147483647) ^ ((2147483647 - 1) / q) ≠ 1 := by
  rcases primes_of_period hq hdvd with rfl | rfl | rfl | rfl | rfl | rfl | rfl <;> norm_num only <;>
    reduce_mod_char <;>
    decide

instance : Fact (Nat.Prime 2147483647) :=
  ⟨lucas_primality _ 16807 pow_period fun _ => pow_part_ne_one⟩

theorem orderOf_A : orderOf ((16807 : ℕ) : ZMod 2147483647) = 2147483647 - 1 := by
  rw [Nat.cast_ofNat]
  exact orderOf_eq_of_pow_and_pow_div_prime (by norm_num) pow_period fun _ => pow_part_ne_one

/-! ### A draw multiplies modulo `M` -/

theorem product_toNat (x : UInt32) : (x.toUInt64 * A).toNat = x.toNat * 16807 := by
  have hx := x.toNat_lt
  have hA : A.toNat = 16807 := rfl
  rw [UInt64.toNat_mul, UInt32.toNat_toUInt64, hA, Nat.mod_eq_of_lt (by omega)]

theorem shifted_toNat (y : UInt64) : (y >>> 31).toNat = y.toNat / 2 ^ 31 := by
  rw [UInt64.toNat_shiftRight, Nat.shiftRight_eq_div_pow]
  rfl

theorem masked_toNat (y : UInt64) : (y &&& M.toUInt64).toNat = y.toNat % 2 ^ 31 := by
  have hM : M.toUInt64.toNat = 2 ^ 31 - 1 := rfl
  rw [UInt64.toNat_and, hM, Nat.and_two_pow_sub_one_eq_mod]

/-- The sum of the two parts of the product fits in 32 bits. -/
theorem parts_toNat (x : UInt32) (hx : x.toNat < 2147483648) :
    (((x.toUInt64 * A) >>> 31) + ((x.toUInt64 * A) &&& M.toUInt64)).toUInt32.toNat =
      x.toNat * 16807 / 2 ^ 31 + x.toNat * 16807 % 2 ^ 31 := by
  rw [UInt64.toNat_toUInt32, UInt64.toNat_add, shifted_toNat, masked_toNat, product_toNat]
  omega

/-- The seed is neither of the two values that multiplication cannot leave. -/
def Good (r : Random) : Prop := 0 < r.seed_.toNat ∧ r.seed_.toNat < 2147483647

theorem Good.mod_ne_zero {r : Random} (hr : r.Good) : r.seed_.toNat % 2147483647 ≠ 0 := by
  rw [Nat.mod_eq_of_lt hr.2]
  exact Nat.ne_of_gt hr.1

theorem Good.next_toNat {r : Random} (hr : r.Good) :
    r.Next.2.seed_.toNat = r.seed_.toNat * 16807 % 2147483647 := by
  obtain ⟨hpos, hlt⟩ := hr
  have hparts := parts_toNat r.seed_ (by omega)
  -- `M` is prime, so the sum is not `M` and one correction is enough.
  have hne := FullPeriod.mul_pow_mod_ne_zero orderOf_A (Good.mod_ne_zero ⟨hpos, hlt⟩) 1
  rw [pow_one] at hne
  have hM : M.toNat = 2147483647 := rfl
  simp only [Next]
  split
  · next h =>
    have hgt : M.toNat < _ := UInt32.lt_iff_toNat_lt.mp h
    rw [UInt32.toNat_sub_of_le _ _ (UInt32.le_iff_toNat_le.mpr hgt.le), hparts, hM]
    rw [hparts, hM] at hgt
    omega
  · next h =>
    have hle : ¬ M.toNat < _ := fun hlt => h (UInt32.lt_iff_toNat_lt.mpr hlt)
    rw [hparts, hM] at hle
    rw [hparts]
    omega

theorem Good.next {r : Random} (hr : r.Good) : r.Next.2.Good := by
  have hne := FullPeriod.mul_pow_mod_ne_zero orderOf_A hr.mod_ne_zero 1
  rw [pow_one, ← hr.next_toNat] at hne
  refine ⟨Nat.pos_of_ne_zero hne, ?_⟩
  rw [hr.next_toNat]
  exact Nat.mod_lt _ (by norm_num)

theorem Good.after {r : Random} (hr : r.Good) (n : ℕ) : (r.after n).Good := by
  induction n with
  | zero => exact hr
  | succ n ih => exact ih.next

theorem Good.after_toNat {r : Random} (hr : r.Good) (n : ℕ) :
    (r.after n).seed_.toNat = r.seed_.toNat * 16807 ^ n % 2147483647 := by
  induction n with
  | zero => rw [pow_zero, mul_one, Nat.mod_eq_of_lt hr.2, Random.after]
  | succ n ih =>
    have hnext := (hr.after n).next_toNat
    rw [ih, Nat.mod_mul_mod, mul_assoc, ← pow_succ] at hnext
    exact hnext

theorem draw_eq (r : Random) (n : ℕ) : r.draw n = (r.after (n + 1)).seed_.toNat := rfl

/-- How many draws of a period lie in the interval, from wherever the period starts. -/
theorem Good.countP_draws {r : Random} (hr : r.Good) (k : ℕ) {P : ℕ → Bool} {b c : ℕ} (hb : 1 ≤ b)
    (hbc : b ≤ c) (hcM : c ≤ 2147483647)
    (hP : ∀ v, 1 ≤ v → v < 2147483647 → (P v = true ↔ b ≤ v ∧ v < c)) :
    (List.range 2147483646).countP (fun i => P (r.draw (k + i))) = c - b := by
  have hcount := FullPeriod.countP_of_period orderOf_A hr.mod_ne_zero (k + 1) hb hbc hcM hP
  have hdraw : ∀ i, r.draw (k + i) = r.seed_.toNat * 16807 ^ (k + 1 + i) % 2147483647 := by
    intro i
    rw [draw_eq, hr.after_toNat, Nat.add_right_comm]
  simp only [hdraw]
  exact hcount

/-! ### The seeds -/

theorem seeded_eq_M {s : UInt32} (hs : s &&& M = M) : seeded s = ⟨M⟩ := by
  rw [seeded, GoodSeed, hs, if_pos (by decide)]

/-- A generator that is seeded with `M` draws nothing else. -/
theorem after_M (n : ℕ) : (⟨M⟩ : Random).after n = ⟨M⟩ := by
  induction n with
  | zero => rfl
  | succ n ih =>
    rw [after, ih]
    rfl

theorem seeded_good {s : UInt32} (hs : s &&& M ≠ M) : (seeded s).Good := by
  have hM : M.toNat = 2147483647 := rfl
  have hle : (s &&& M).toNat ≤ M.toNat := by
    rw [UInt32.toNat_and]
    exact Nat.and_le_right
  have hne : (s &&& M).toNat ≠ M.toNat := fun h => hs (UInt32.toNat_inj.mp h)
  rw [Good, seeded, GoodSeed]
  split
  · next h =>
    have hpos : (s &&& M).toNat ≠ 0 := fun h0 => h (UInt32.toNat_inj.mp h0)
    exact ⟨Nat.pos_of_ne_zero hpos, hM ▸ lt_of_le_of_ne hle hne⟩
  · exact ⟨by decide, by decide⟩

theorem draw_of_eq_M {s : UInt32} (hs : s &&& M = M) (n : ℕ) : (seeded s).draw n = 2147483647 := by
  rw [draw_eq, seeded_eq_M hs, after_M]
  rfl

theorem draw_lt {s : UInt32} (hs : s &&& M ≠ M) (n : ℕ) : (seeded s).draw n < 2147483647 :=
  ((seeded_good hs).after (n + 1)).2

theorem one_le_draw (s : UInt32) (n : ℕ) : 1 ≤ (seeded s).draw n := by
  by_cases hs : s &&& M = M
  · rw [draw_of_eq_M hs]
    norm_num
  · exact ((seeded_good hs).after (n + 1)).1

theorem draw_le (s : UInt32) (n : ℕ) : (seeded s).draw n ≤ 2147483647 := by
  by_cases hs : s &&& M = M
  · rw [draw_of_eq_M hs]
  · exact (draw_lt hs n).le

end Random

/-! ### Which requests are counted -/

/-- The C library's. -/
def RAND_MAX : ℕ := 2147483647

section Sampled
variable (R : Rounding)

def sample_percentage : ℚ := R.fl (1 / 100)

def sample_generator (sample_flag : Bool) (r : Random) : Bool × Random :=
  if !sample_flag then (true, r)
  else
    let (v, r) := r.Next
    (decide (R.fl ((v.toNat : ℚ) / RAND_MAX) < sample_percentage R), r)

/-- What a thread's calls answer, each of them under the flag of its time. -/
def sampleAnswers : List Bool → Random → List Bool
  | [], _ => []
  | sample_flag :: rest, r =>
    (sample_generator R sample_flag r).1 :: sampleAnswers rest (sample_generator R sample_flag r).2

/-- How many of the calls with the flag on were answered `true`. -/
def sampled (flags : List Bool) (r : Random) : ℕ :=
  (flags.zip (sampleAnswers R flags r)).countP fun x => x.1 && x.2

open FrozenHot.Random

theorem length_sampleAnswers (flags : List Bool) (r : Random) :
    (sampleAnswers R flags r).length = flags.length := by
  induction flags generalizing r with
  | nil => rfl
  | cons f flags ih => rw [sampleAnswers, List.length_cons, List.length_cons, ih]

/-- No draw is close enough to the bound for the rounding to matter. -/
theorem fl_quotient_lt_iff {v : ℕ} (hv : 1 ≤ v) (hmax : v ≤ 2147483647) :
    R.fl ((v : ℚ) / RAND_MAX) < sample_percentage R ↔ 100 * v < 2147483647 := by
  have hv' : (1 : ℚ) ≤ v := by exact_mod_cast hv
  have hmax' : (v : ℚ) ≤ 2147483647 := by exact_mod_cast hmax
  have hbound := R.fl_bounds (x := 1 / 100) (by norm_num) (by norm_num)
  have hdraw := R.fl_bounds (x := (v : ℚ) / 2147483647) (by linarith) (by linarith)
  rw [RAND_MAX, sample_percentage, Nat.cast_ofNat]
  constructor
  · intro h
    by_contra hge
    have hv₁ : (21474837 : ℚ) ≤ v := by exact_mod_cast (by omega : 21474837 ≤ v)
    linarith [hbound.2, hdraw.1]
  · intro h
    have hv₁ : (v : ℚ) ≤ 21474836 := by exact_mod_cast (by omega : v ≤ 21474836)
    linarith [hbound.1, hdraw.2]

theorem sample_generator_on (s : UInt32) (n : ℕ) : sample_generator R true ((seeded s).after n) =
    (decide (100 * (seeded s).draw n < 2147483647), (seeded s).after (n + 1)) :=
  Prod.ext (decide_eq_decide.mpr (fl_quotient_lt_iff R (one_le_draw s n) (draw_le s n))) rfl

/-- Only the calls with the flag on take a draw. -/
theorem sampleAnswers_append (before flags : List Bool) (s : UInt32) (k : ℕ) :
    sampleAnswers R (before ++ flags) ((seeded s).after k) =
      sampleAnswers R before ((seeded s).after k) ++ sampleAnswers R flags
      ((seeded s).after (k + before.count true)) := by
  induction before generalizing k with
  | nil => rfl
  | cons f before ih =>
    cases f with
    | false =>
      rw [List.cons_append, sampleAnswers, sampleAnswers, List.count_cons_of_ne (by decide)]
      exact congrArg _ (ih k)
    | true =>
      rw [List.cons_append, sampleAnswers, sampleAnswers, List.count_cons_self, sample_generator_on]
      rw [ih (k + 1), List.cons_append, Nat.add_right_comm, Nat.add_assoc]

/-- The calls with the flag on that count are those with a low draw. -/
theorem sampled_eq (flags : List Bool) (s : UInt32) (k : ℕ) : sampled R flags ((seeded s).after k) =
    (List.range (flags.count true)).countP fun i =>
    decide (100 * (seeded s).draw (k + i) < 2147483647) := by
  induction flags generalizing k with
  | nil => rfl
  | cons f flags ih =>
    cases f with
    | false =>
      rw [List.count_cons_of_ne (by decide), ← ih k]
      rfl
    | true =>
      have htail := ih (k + 1)
      rw [List.count_cons_self, List.range_succ_eq_map, List.countP_cons, List.countP_map]
      rw [sampled] at htail ⊢
      rw [sampleAnswers, sample_generator_on, List.zip_cons_cons, List.countP_cons, htail]
      have hshift : ∀ i, k + 1 + i = k + (i + 1) := fun i => by omega
      simp only [hshift, Function.comp_def, Nat.succ_eq_add_one, Bool.true_and, Nat.add_zero]

theorem sampled_append (before flags : List Bool) (s : UInt32) :
    sampled R (before ++ flags) (seeded s) =
    sampled R before (seeded s) + sampled R flags ((seeded s).after (before.count true)) := by
  have happ := sampleAnswers_append R before flags s 0
  rw [Nat.zero_add] at happ
  rw [sampled, sampled, sampled, show seeded s = (seeded s).after 0 from rfl, happ,
    List.zip_append (length_sampleAnswers R _ _).symm, List.countP_append]
  rfl

/-- Whatever a thread has asked before and however its calls with the flag off lie between, a period
    of calls with the flag on counts one request in a hundred. A thread whose seed is `M` counts
    none of its calls with the flag on. -/
theorem sampled_over_period (s : UInt32) (before flags : List Bool)
    (hlen : flags.count true = 2147483646) :
    sampled R (before ++ flags) (seeded s) =
      sampled R before (seeded s) + if s &&& M = M then 0 else 21474836 := by
  rw [sampled_append, sampled_eq, hlen, Nat.add_right_inj]
  split
  · next hs =>
    rw [List.countP_eq_zero]
    intro i _
    rw [draw_of_eq_M hs]
    decide
  · next hs =>
    refine (seeded_good hs).countP_draws _ (P := fun v => decide (100 * v < 2147483647)) (b := 1)
      (c := 21474837)
      (by norm_num) (by norm_num) (by norm_num) ?_
    intro v hv _
    rw [decide_eq_true_iff]
    omega

end Sampled

open FrozenHot.Random

theorem sampled_over_period_five :
    sampled .exact ([false, true] ++ List.replicate 2147483646 true) (seeded 5) =
      sampled .exact [false, true] (seeded 5) + 21474836 := by
  rw [sampled_over_period .exact 5 [false, true] _ List.count_replicate_self, if_neg (by decide)]

/-! ### Which element is taken -/

namespace RandomizedSet
variable {K : Type}

section Taken
variable (R : Rounding)

/-- `getRandom`'s index. -/
def randomIndex (v size : ℕ) : ℕ := ⌊R.fl (R.fl ((v : ℚ) / RAND_MAX) * size)⌋₊

/-- `getRandom` with the generator of its thread. -/
def getRandomBy (rs : RandomizedSet K) (r : Random) : Except Fault K × Random :=
  let (v, r) := r.Next
  (at' rs.vec (randomIndex R v.toNat rs.vec.length : ℕ), r)

theorem randomIndex_lt {v size : ℕ} (hv : 1 ≤ v) (hmax : v < 2147483647) (hsize : 0 < size)
    (hfit : size ≤ 2 ^ 53) :
    randomIndex R v size < size := by
  have hv₁ : (1 : ℚ) ≤ v := by exact_mod_cast hv
  have hv₂ : (v : ℚ) ≤ 2147483646 := by exact_mod_cast (by omega : v ≤ 2147483646)
  have hsize' : (1 : ℚ) ≤ size := by exact_mod_cast hsize
  have hle := mul_le_mul_of_nonneg_right
    (by linarith : (v : ℚ) / 2147483647 ≤ 2147483646 / 2147483647)
    (by linarith : (0 : ℚ) ≤ size)
  have hge : 0 ≤ (v : ℚ) / 2147483647 * size := by positivity
  have hfl := R.fl_mul_bounds (x := (v : ℚ) / 2147483647) (n := size) (by linarith)
    (by linarith) hsize'
    (by exact_mod_cast hfit)
  rw [randomIndex, RAND_MAX, Nat.cast_ofNat, Nat.floor_lt (by linarith [hfl.1])]
  linarith [hfl.2]

/-- The greatest draw gives the index behind the last one. -/
theorem randomIndex_RAND_MAX {size : ℕ} (hfit : size ≤ 2 ^ 53) :
    randomIndex R RAND_MAX size = size := by
  have hone : (RAND_MAX : ℚ) / RAND_MAX = (1 : ℕ) := by norm_num [RAND_MAX]
  rw [randomIndex, hone, R.exact_of_le 1 (by norm_num), Nat.cast_one, one_mul,
    R.exact_of_le size hfit, Nat.floor_natCast]

theorem getRandomBy_after (rs : RandomizedSet K) (r : Random) (n : ℕ) :
    (rs.getRandomBy R (r.after n)).1 = at' rs.vec (randomIndex R (r.draw n) rs.vec.length : ℕ) :=
    rfl

/-- A thread takes an element of the set with every draw, as long as the set has one. With the seed
    `M` it reads past the end of the vector every time. -/
theorem getRandom_in_bounds (rs : RandomizedSet K) (hne : rs.vec ≠ [])
    (hfit : rs.vec.length ≤ 2 ^ 53) (s : UInt32) (n : ℕ) :
    (s &&& M = M → (rs.getRandomBy R ((seeded s).after n)).1 = .error .deref) ∧
      (s &&& M ≠ M → ∃ random, (rs.getRandomBy R ((seeded s).after n)).1 = rs.getRandom
        random) := by
  have hpos : 0 < rs.vec.length := List.length_pos_iff.mpr hne
  rw [getRandomBy_after]
  constructor
  · intro hs
    have hindex : randomIndex R ((seeded s).draw n) rs.vec.length = rs.vec.length := by
      rw [draw_of_eq_M hs]
      exact randomIndex_RAND_MAX R hfit
    rw [hindex, at', if_pos (Int.natCast_nonneg _), Int.toNat_natCast, List.getElem?_eq_none le_rfl]
    rfl
  · intro hs
    refine ⟨randomIndex R ((seeded s).draw n) rs.vec.length, ?_⟩
    rw [getRandom, Nat.mod_eq_of_lt (randomIndex_lt R (one_le_draw s n) (draw_lt hs n) hpos hfit)]

end Taken

theorem getRandom_in_bounds_two : ∃ rs : RandomizedSet ℕ, rs.vec = [3, 4] ∧
    (rs.getRandomBy .exact ((seeded 4294967295).after 7)).1 = .error .deref ∧
    ∃ random, (rs.getRandomBy .exact ((seeded 5).after 7)).1 = rs.getRandom random := by
  refine ⟨((RandomizedSet.empty.insert 3).2.insert 4).2, rfl, ?_, ?_⟩
  · exact (getRandom_in_bounds .exact _ (by decide) (by decide) 4294967295 7).1 (by decide)
  · exact (getRandom_in_bounds .exact _ (by decide) (by decide) 5 7).2 (by decide)

/-! ### Every element is taken as often as another -/

theorem toOption_at (vec : List K) (i : ℕ) : (at' vec i).toOption = vec[i]? := by
  rw [at', if_pos (Int.natCast_nonneg i), Int.toNat_natCast]
  cases vec[i]? <;> rfl

/-- The first of `range` draws with an index; the draws from here up to the next one's have it. -/
def firstDraw (range size i : ℕ) : ℕ := (i * range) ⌈/⌉ size

section FirstDraw
variable {range size : ℕ} (hsize : 0 < size)
include hsize

theorem firstDraw_le_iff {i v : ℕ} : firstDraw range size i ≤ v ↔ i * range ≤ v * size := by
  rw [firstDraw, ceilDiv_le_iff_le_mul hsize, Nat.mul_comm size]

/-- The first draws of two neighbours are a share of the range apart. -/
theorem firstDraw_succ_le (i : ℕ) :
    firstDraw range size (i + 1) ≤ firstDraw range size i + (range / size + 1) := by
  have hi : i * range ≤ firstDraw range size i * size := (firstDraw_le_iff hsize).mp le_rfl
  have hshare : range < (range / size + 1) * size := by
    rw [Nat.mul_comm]
    exact Nat.lt_mul_div_succ _ hsize
  rw [firstDraw_le_iff hsize, Nat.add_mul, Nat.one_mul, Nat.add_mul]
  exact Nat.add_le_add hi hshare.le

theorem share_le_firstDraw (i : ℕ) : range / size ≤ firstDraw range size (i + 1) := by
  have hi : (i + 1) * range ≤ firstDraw range size (i + 1) * size :=
    (firstDraw_le_iff hsize).mp le_rfl
  refine Nat.le_of_mul_le_mul_right ?_ hsize
  calc range / size * size
    _ ≤ range := Nat.div_mul_le_self _ _
    _ ≤ (i + 1) * range := Nat.le_mul_of_pos_left _ (Nat.succ_pos i)
    _ ≤ firstDraw range size (i + 1) * size := hi

theorem firstDraw_add_le (i : ℕ) :
    firstDraw range size i + range / size ≤ firstDraw range size (i + 1) := by
  have hi : (i + 1) * range ≤ firstDraw range size (i + 1) * size :=
    (firstDraw_le_iff hsize).mp le_rfl
  have hshare : range / size * size ≤ range := Nat.div_mul_le_self _ _
  refine Nat.add_le_of_le_sub (share_le_firstDraw hsize i) ?_
  rw [firstDraw_le_iff hsize, Nat.sub_mul]
  rw [Nat.add_mul, Nat.one_mul] at hi
  omega

theorem firstDraw_pos (hrange : 0 < range) (i : ℕ) : 1 ≤ firstDraw range size (i + 1) := by
  by_contra h
  have hzero := (firstDraw_le_iff hsize).mp (Nat.lt_one_iff.mp (not_le.mp h)).le
  rw [Nat.zero_mul] at hzero
  exact absurd hzero (Nat.not_le_of_gt (Nat.mul_pos (Nat.succ_pos i) hrange))

end FirstDraw

section Fair
variable (R : Rounding)

/-- `M` is prime, so no draw lies on the border of two indices, and the rounding does not take it
    across one. -/
theorem randomIndex_eq {v size i : ℕ} (hv : 1 ≤ v) (hmax : v < 2147483647) (hsize : 0 < size)
    (hfit : size ≤ 2 ^ 20) (hi : i * 2147483647 ≤ v * size)
    (hi' : v * size < (i + 1) * 2147483647) : randomIndex R v size = i := by
  have hne : v * size ≠ i * 2147483647 := by
    intro h
    have hdvd : 2147483647 ∣ v * size := ⟨i, by rw [h, Nat.mul_comm]⟩
    rcases (Nat.Prime.dvd_mul Fact.out).mp hdvd with h | h
    · exact absurd (Nat.le_of_dvd hv h) (by omega)
    · exact absurd (Nat.le_of_dvd hsize h) (by omega)
  have hv₁ : (1 : ℚ) ≤ v := by exact_mod_cast hv
  have hv₂ : (v : ℚ) ≤ 2147483646 := by exact_mod_cast (by omega : v ≤ 2147483646)
  have hlow : (i : ℚ) * 2147483647 + 1 ≤ v * size := by
    exact_mod_cast lt_of_le_of_ne hi hne.symm
  have hhigh : (v : ℚ) * size + 1 ≤ (i + 1) * 2147483647 := by
    exact_mod_cast Nat.succ_le_of_lt hi'
  rw [randomIndex, RAND_MAX, Nat.cast_ofNat]
  refine R.floor_fl_mul (d := 1 / 2147483647) (by linarith) (by linarith) (by exact_mod_cast hsize)
    (by exact_mod_cast hfit) (by norm_num) ?_ ?_
  · rw [div_mul_eq_mul_div]
    linarith
  · rw [div_mul_eq_mul_div]
    linarith

theorem randomIndex_eq_iff {v size i : ℕ} (hv : 1 ≤ v) (hmax : v < 2147483647) (hsize : 0 < size)
    (hfit : size ≤ 2 ^ 20) :
    randomIndex R v size = i ↔ firstDraw RAND_MAX size i ≤ v ∧
    v < firstDraw RAND_MAX size (i + 1) := by
  have hle : v * size / RAND_MAX * 2147483647 ≤ v * size := Nat.div_mul_le_self _ _
  have hlt : v * size < (v * size / RAND_MAX + 1) * 2147483647 := by
    rw [Nat.mul_comm (_ + 1)]
    exact Nat.lt_mul_div_succ _ (by norm_num)
  have hnext : v < firstDraw RAND_MAX size (i + 1) ↔ v * size < (i + 1) * RAND_MAX :=
    lt_iff_lt_of_le_iff_le (firstDraw_le_iff hsize)
  rw [randomIndex_eq R hv hmax hsize hfit hle hlt, firstDraw_le_iff hsize,
    hnext, ← Nat.le_div_iff_mul_le (by decide), ← Nat.div_lt_iff_lt_mul (by decide),
    Nat.lt_succ_iff, le_antisymm_iff, and_comm]

variable [DecidableEq K]

/-- How often an element was taken over a period, after `j` draws. -/
def taken (rs : RandomizedSet K) (r : Random) (j : ℕ) (k : K) : ℕ :=
  (List.range 2147483646).countP fun i =>
    decide ((rs.getRandomBy R (r.after (j + i))).1.toOption = some k)

theorem taken_eq {rs : RandomizedSet K} {r : Random} {k : K} {i : ℕ} (hi : rs.Inverse)
    (hk : rs.vec[i]? = some k) (hfit : rs.vec.length ≤ 2 ^ 20) (hr : r.Good) (j : ℕ) :
    rs.taken R r j k = firstDraw RAND_MAX rs.vec.length (i + 1) - max
    (firstDraw RAND_MAX rs.vec.length i) 1 := by
  have hlt : i < rs.vec.length := (List.getElem?_eq_some_iff.mp hk).1
  have hpos : 0 < rs.vec.length := Nat.zero_lt_of_lt hlt
  have hmono : firstDraw RAND_MAX rs.vec.length i ≤ firstDraw RAND_MAX rs.vec.length (i + 1) :=
    (Nat.le_add_right _ _).trans (firstDraw_add_le hpos i)
  refine hr.countP_draws j
    (P := fun v => decide ((at' rs.vec (randomIndex R v rs.vec.length : ℕ)).toOption = some k))
    (le_max_right _ _) (max_le hmono (firstDraw_pos hpos (by decide) i)) ?_ ?_
  · rw [firstDraw_le_iff hpos, RAND_MAX, Nat.mul_comm]
    exact Nat.mul_le_mul_left _ hlt
  · intro v hv hmax
    -- No other index holds the element.
    have hindex : rs.vec[randomIndex R v rs.vec.length]? = some k ↔
        randomIndex R v rs.vec.length = i := by
      constructor
      · intro h
        exact hi.place_unique h hk
      · intro h
        rw [h, hk]
    rw [decide_eq_true_iff, toOption_at, hindex, randomIndex_eq_iff R hv hmax hpos hfit, max_le_iff]
    exact and_congr_left fun _ => (and_iff_left hv).symm

/-- Eviction samples are fair: over a period of draws a thread takes each element of the set as
    often as any other, up to one more and one less than its share. In larger sets the rounding can
    give a draw to a neighbour. -/
theorem getRandom_fair (rs : RandomizedSet K) (hi : rs.Inverse) (hfit : rs.vec.length ≤ 2 ^ 20)
    {k : K} (hk : k ∈ rs.vec) {s : UInt32} (hs : s &&& M ≠ M) (j : ℕ) :
    RAND_MAX / rs.vec.length ≤ rs.taken R (seeded s) j k + 1 ∧
      rs.taken R (seeded s) j k ≤ RAND_MAX / rs.vec.length + 1 := by
  obtain ⟨i, hki⟩ := List.mem_iff_getElem?.mp hk
  have hpos : 0 < rs.vec.length := Nat.zero_lt_of_lt (List.getElem?_eq_some_iff.mp hki).1
  have hle : firstDraw RAND_MAX _ _ ≤ _ := firstDraw_succ_le hpos i
  have hge : firstDraw RAND_MAX _ _ + _ ≤ _ := firstDraw_add_le hpos i
  have hshare : RAND_MAX / _ ≤ _ := share_le_firstDraw hpos i
  rw [taken_eq R hi hki hfit (seeded_good hs) j]
  generalize RAND_MAX / rs.vec.length = share at *
  omega

end Fair

theorem getRandom_fair_two : ∃ rs : RandomizedSet ℕ, rs.vec = [3, 4] ∧
    1073741822 ≤ rs.taken .exact (seeded 5) 7 4 ∧ rs.taken .exact (seeded 5) 7 4 ≤ 1073741824 := by
  have hi : ((RandomizedSet.empty.insert 3).2.insert 4).2.Inverse :=
    ((Inverse.empty.insert (by decide) (by decide)).1.insert (by decide) (by decide)).1
  obtain ⟨hge, hle⟩ := getRandom_fair .exact _ hi (by decide) (k := 4) (by decide) (s := 5)
    (by decide) 7
  have hshare : RAND_MAX / ((RandomizedSet.empty.insert 3).2.insert 4).2.vec.length =
    1073741823 := by decide
  rw [hshare] at hge hle
  exact ⟨((RandomizedSet.empty.insert 3).2.insert 4).2, rfl, by omega, hle⟩

end RandomizedSet
end FrozenHot
