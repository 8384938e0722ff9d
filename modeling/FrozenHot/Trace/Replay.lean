import FrozenHot.Trace.Loader
import Mathlib.Data.Multiset.Bind
import Mathlib.Data.Multiset.Range
import Mathlib.Data.Int.CardIntervalMod
import Mathlib.Tactic.Ring

/-! The worker threads replay the trace (`client.h`).

    Worker `i` of `W` runs on a core of its own and fetches the requests `offset + j * W`, where it
    finds its offset from the number of its core. The index of a request has 64 bits and the
    parameter of `GetRequest` has 32. -/

namespace FrozenHot.Client

/-- The core of worker `i` (`warmup`, with the default numbering). -/
def coreid (i : ℕ) : ℤ := if i > 39 then toInt (i + 40) else i

/-- The offset of the worker on a core (`worker_thread`). -/
def offset (coreid : ℤ) : ℤ := if coreid > 40 then coreid - 40 else coreid

/-- The index of request `j` of a worker, as a 64-bit number. -/
def index (W : ℕ) (offset : ℤ) (j : ℕ) : ℕ := ((offset + j * W) % 2 ^ 64).toNat

/-- The places of the trace that `W` workers fetch when `N` requests are asked for. -/
def fetched (W N Q : ℕ) : Multiset ℕ :=
  (Multiset.range W).bind fun i => (Multiset.range (N / W)).map fun j =>
    TraceLoader.position Q (index W (offset (coreid i)) j)

/-- The places that `M` requests one after the other would fetch. -/
def residues (Q M : ℕ) : Multiset ℕ := (Multiset.range M).map (· % Q)

variable {W N Q M i j a b c n r : ℕ}

/-- The numbering of the cores is undone. -/
theorem offset_coreid (h : i + 40 < 2 ^ 31) : offset (coreid i) = i := by
  unfold offset coreid
  split_ifs with h1 h2 h2
  · rw [toInt_of_lt (by omega) (by omega)]
    omega
  · rw [toInt_of_lt (by omega) (by omega)] at h2
    omega
  · omega
  · rfl

theorem index_mod (W i j : ℕ) : index W i j % 2 ^ 32 = (i + j * W) % 2 ^ 32 := by
  have h : ((i : ℤ) + j * W) % 2 ^ 64 = ((i + j * W) % 2 ^ 64 : ℕ) := by push_cast; rfl
  rw [index, h, Int.toNat_natCast]
  omega

/-- The workers together go through the indices below `W * n`. -/
theorem bind_range {α : Type} (f : ℕ → α) (W n : ℕ) :
    ((Multiset.range W).bind fun i => (Multiset.range n).map fun j => f (i + j * W)) =
      (Multiset.range (W * n)).map f := by
  induction n with
  | zero => simp
  | succ n ih =>
    simp only [Multiset.range_succ, Multiset.map_cons]
    rw [Multiset.bind_cons, ih, Nat.mul_succ, Multiset.range_add, Multiset.map_add, add_comm]
    congr 1
    rw [Multiset.map_map]
    refine Multiset.map_congr rfl fun i _ => ?_
    rw [Function.comp_apply, Nat.mul_comm, Nat.add_comm]

theorem fetched_eq (hW : W + 40 ≤ 2 ^ 31) (N Q : ℕ) :
    fetched W N Q = (Multiset.range (W * (N / W))).map fun p => p % 2 ^ 32 % Q := by
  rw [← bind_range, fetched]
  refine Multiset.bind_congr fun i hi => Multiset.map_congr rfl fun j _ => ?_
  have := Multiset.mem_range.mp hi
  rw [offset_coreid (by omega), TraceLoader.position, index_mod]

/-! ### How often a place is fetched -/

theorem count_residues (hQ : 0 < Q) (hr : r < Q) (M : ℕ) :
    (residues Q M).count r = M / Q + if r < M % Q then 1 else 0 := by
  have h : (residues Q M).count r = M.count (· ≡ r [MOD Q]) := by
    rw [residues, Multiset.count_map, Nat.count_eq_card_filter_range]
    simp only [Nat.ModEq, Nat.mod_eq_of_lt hr, Finset.card_def, Finset.filter_val, Finset.range_val,
      eq_comm]
  rw [h, Nat.count_modEq_card M hQ, Nat.mod_eq_of_lt hr]

theorem residues_add (hc : Q ∣ c) (M : ℕ) : residues Q (c + M) = residues Q c + residues Q M := by
  rw [residues, Multiset.range_add, Multiset.map_add, Multiset.map_map]
  congr 1
  refine Multiset.map_congr rfl fun p _ => ?_
  obtain ⟨k, rfl⟩ := hc
  rw [Function.comp_apply, Nat.mul_add_mod]

/-- The places fetched when the index wraps at `c`: all below `c` again and again, and then the
    rest. -/
theorem wrapped_eq (hb : b < c) (Q a : ℕ) :
    (Multiset.range (a * c + b)).map (fun p => p % c % Q) = a • residues Q c + residues Q b := by
  induction a with
  | zero =>
    simp only [Nat.zero_mul, zero_nsmul, zero_add, residues]
    refine Multiset.map_congr rfl fun p hp => ?_
    have hp := (Multiset.mem_range.mp hp).trans hb
    rw [Nat.mod_eq_of_lt hp]
  | succ a ih =>
    rw [show (a + 1) * c + b = c + (a * c + b) by ring, Multiset.range_add, Multiset.map_add,
      Multiset.map_map, succ_nsmul', add_assoc, ← ih]
    congr 1
    · exact Multiset.map_congr rfl fun p hp => by
        rw [Nat.mod_eq_of_lt (Multiset.mem_range.mp hp)]
    · exact Multiset.map_congr rfl fun p _ => by
        rw [Function.comp_apply, Nat.add_mod_left]

/-- Wrapping the index changes nothing exactly if the places come out even: the wrap is at a
    multiple of the number of places, or never reached, or passed once by a multiple of the number
    of places. -/
theorem wrapped_eq_residues_iff (hQ : 0 < Q) (a b c : ℕ) :
    a • residues Q c + residues Q b = residues Q (a * c + b) ↔ Q ∣ c ∨ a = 0 ∨ a = 1 ∧ Q ∣ b := by
  constructor
  · intro h
    have hcount : ∀ r < Q, a * (c / Q + if r < c % Q then 1 else 0) +
        (b / Q + if r < b % Q then 1 else 0) =
        (a * c + b) / Q + if r < (a * c + b) % Q then 1 else 0 := by
      intro r hr
      have := congrArg (Multiset.count r) h
      rwa [Multiset.count_add, Multiset.count_nsmul, count_residues hQ hr, count_residues hQ hr,
        count_residues hQ hr] at this
    -- what is left of `a * c + b` after whole rounds
    have hdiv : (a * c + b) / Q = a * (c / Q) + b / Q + (a * (c % Q) + b % Q) / Q := by
      have : a * c + b = Q * (a * (c / Q) + b / Q) + (a * (c % Q) + b % Q) := by
        conv_lhs => rw [← Nat.div_add_mod c Q, ← Nat.div_add_mod b Q]
        ring
      rw [this, Nat.mul_add_div hQ]
    have hc := Nat.mod_lt c hQ
    have hbQ := Nat.mod_lt b hQ
    have hM := Nat.mod_lt (a * c + b) hQ
    have hlast := hcount (Q - 1) (by omega)
    rw [if_neg (by omega), if_neg (by omega), if_neg (by omega), hdiv, Nat.add_zero] at hlast
    have hsmall : a * (c % Q) + b % Q < Q := by
      have : (a * (c % Q) + b % Q) / Q = 0 := by omega
      exact (Nat.div_eq_zero_iff_lt hQ).mp this
    have hfirst := hcount 0 hQ
    rw [hdiv, Nat.div_eq_of_lt hsmall, mul_add] at hfirst
    by_cases hs : c % Q = 0
    · exact Or.inl (Nat.dvd_of_mod_eq_zero hs)
    · refine Or.inr ?_
      rw [if_pos (by omega), mul_one] at hfirst
      have hle : (if 0 < (a * c + b) % Q then 1 else 0) ≤ 1 := by split_ifs <;> omega
      by_cases ht : b % Q = 0
      · rw [if_neg (by omega)] at hfirst
        have : a = 0 ∨ a = 1 := by omega
        exact this.imp_right fun h => ⟨h, Nat.dvd_of_mod_eq_zero ht⟩
      · rw [if_pos (by omega)] at hfirst
        exact Or.inl (by omega)
  · rintro (hc | rfl | ⟨rfl, hb⟩)
    · induction a with
      | zero => simp
      | succ a ih =>
        rw [show (a + 1) * c + b = c + (a * c + b) by ring, residues_add hc, ← ih, succ_nsmul',
          add_assoc]
    · simp
    · rw [one_nsmul, one_mul, Nat.add_comm, residues_add hb, add_comm]

/-- The 32-bit index does no harm to `M` requests over a trace of `Q`. -/
def Harmless (Q M : ℕ) : Prop := Q ∣ 2 ^ 32 ∨ M ≤ 2 ^ 32 ∨ M < 2 ^ 33 ∧ Q ∣ M - 2 ^ 32

instance (Q M : ℕ) : Decidable (Harmless Q M) := inferInstanceAs (Decidable (_ ∨ _ ∨ _))

/-- The workers fetch what one thread would exactly if the 32-bit index does no harm. -/
theorem replayed_once_iff (N : ℕ) (hW : W + 40 ≤ 2 ^ 31) (hQ : 0 < Q) :
    fetched W N Q = residues Q (W * (N / W)) ↔ Harmless Q (W * (N / W)) := by
  rw [fetched_eq hW]
  generalize W * (N / W) = M
  obtain ⟨a, b, hb, rfl⟩ : ∃ a b, b < 2 ^ 32 ∧ M = a * 2 ^ 32 + b :=
    ⟨M / 2 ^ 32, M % 2 ^ 32, by omega, by omega⟩
  rw [wrapped_eq hb, wrapped_eq_residues_iff hQ, Harmless]
  refine or_congr_right ?_
  constructor
  · rintro (rfl | ⟨rfl, hd⟩)
    · rw [Nat.zero_mul, Nat.zero_add]
      exact Or.inl hb.le
    · exact Or.inr ⟨by omega, by rwa [one_mul, Nat.add_sub_cancel_left]⟩
  · rintro (h | ⟨h, hd⟩)
    · rcases Nat.eq_zero_or_pos a with rfl | ha
      · exact Or.inl rfl
      · exact Or.inr ⟨by omega, by rw [show b = 0 by omega]; exact dvd_zero Q⟩
    · rcases Nat.eq_zero_or_pos a with rfl | ha
      · exact Or.inl rfl
      · obtain rfl : a = 1 := by omega
        rw [one_mul, Nat.add_sub_cancel_left] at hd
        exact Or.inr ⟨rfl, hd⟩

/-- Sixty-four workers, on two groups of cores, over a trace of ten requests. -/
theorem replayed_once_iff_small : fetched 64 1000 10 = residues 10 960 :=
  (replayed_once_iff 1000 (by decide) (by decide)).mpr (by decide)

/-- One worker and a trace of three requests, `2 ^ 32 + 2` of them asked for: the index starts again
    in the middle of the trace. -/
theorem index_wraps_in_the_trace : fetched 1 (2 ^ 32 + 2) 3 ≠ residues 3 (2 ^ 32 + 2) := by
  have h := wrapped_eq_residues_iff (Q := 3) (by omega) 1 2 (2 ^ 32)
  rw [fetched_eq (by omega), Nat.div_one, one_mul, show 2 ^ 32 + 2 = 1 * 2 ^ 32 + 2 by omega,
    wrapped_eq (by omega)]
  exact fun heq => absurd (h.mp heq) (by decide)

end FrozenHot.Client
