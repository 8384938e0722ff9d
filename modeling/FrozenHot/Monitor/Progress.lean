import FrozenHot.Monitor.Effects

/-! The controller makes progress: once it is asked to stop it returns after a few steps, a frozen
    phase is refreshed after as many samples as the configuration allows, and the size that it goes
    for is the best that it has measured. -/

namespace FrozenHot
open Schemes

namespace FastHashMonitor
variable {S D : Type} {σ σ' : FastHashMonitor S D} {c : MonitorConfig}

/-! ### Stopping -/

section
variable [Zero S] [One S] [Sub S] [Neg S] [OfScientific S] [LinearOrder S]
variable [Zero D] [One D] [Add D] [Sub D] [Mul D] [Div D] [NatCast D] [OfScientific D]
variable [LT D] [LE D] [DecidableLT D] [DecidableLE D]

theorem step_go {r : Reading S D} (h : go c r σ = .ok σ') :
    FastHashMonitor.step c σ (.go r) = .ok ((), σ') := by
  rw [FastHashMonitor.step, h]
  rfl

omit [Zero S] [One S] [Sub S] [Neg S] [OfScientific S] [LinearOrder S] [One D] [OfScientific D] in
/-- After a sample the phase is over, or its steps are counted and still within the limit. -/
theorem weigh_cases (c : MonitorConfig) (r : Reading S D) (σ : FastHashMonitor S D) :
    (weigh c r σ).pc = .CONSTRUCT ∨ (weigh c r σ).pc = .DECONSTRUCT ∨
    (weigh c r σ).pc = .frozen ∧ (weigh c r σ).should_stop = σ.should_stop ∧
      (weigh c r σ).construct_step = σ.construct_step ∧
      (weigh c r σ).total_step = (σ.total_step + r.steps) % 2 ^ 64 ∧
      (σ.total_step + r.steps) % 2 ^ 64 ≤ σ.construct_step * c.FROZEN_THRESHOLD % 2 ^ 64 := by
  unfold FastHashMonitor.weigh
  dsimp only
  generalize (if σ.first_flag then r.steps else σ.baseline_step) = baseline_step
  generalize (if σ.SLEEP_THRESHOLD ≥ 2 then σ.SLEEP_THRESHOLD / 2 else σ.SLEEP_THRESHOLD) = seconds
  split_ifs with _ hover
  · exact Or.inr (Or.inl rfl)
  · exact Or.inl rfl
  · exact Or.inr (Or.inr ⟨rfl, rfl, rfl, rfl, not_lt.mp hover⟩)
  · exact Or.inl rfl
  · exact Or.inr (Or.inr ⟨rfl, rfl, rfl, rfl, not_lt.mp hover⟩)

/-- The phase is over after some of the readings. -/
def Ends (c : MonitorConfig) (σ : FastHashMonitor S D) (rs : List (Reading S D)) : Prop :=
  ∃ n os σ', exec (FastHashMonitor.step c) σ ((rs.take n).map .go) = .ok (os, σ') ∧
    (σ'.pc = .CONSTRUCT ∨ σ'.pc = .DECONSTRUCT)

theorem ends_cons {r : Reading S D} {rs : List (Reading S D)} (h : go c r σ = .ok σ')
    (hend : Ends c σ' rs) :
    Ends c σ (r :: rs) := by
  obtain ⟨n, os, σ'', hexec, hpc⟩ := hend
  refine ⟨n + 1, () :: os, σ'', ?_, hpc⟩
  simp only [List.take_succ_cons, List.map_cons, exec, step_go h, hexec, ok_bind, pure_eq_ok]

theorem ends_first {r : Reading S D} {rs : List (Reading S D)} (h : go c r σ = .ok σ')
    (hpc : σ'.pc = .CONSTRUCT ∨ σ'.pc = .DECONSTRUCT) : Ends c σ (r :: rs) :=
  ends_cons h ⟨0, [], σ', rfl, hpc⟩

/-- Of the readings with enough requests every other one at least is a sample; `k` samples of at
    least `m` steps are more than the limit leaves. -/
theorem phase_ends {m L : ℕ} : ∀ (rs : List (Reading S D)) (k : ℕ) (σ : FastHashMonitor S D),
    σ.pc = .frozen ∨ σ.pc = .sample → σ.should_stop = false →
    σ.construct_step * c.FROZEN_THRESHOLD = L →
    σ.total_step ≤ L → L < σ.total_step + m * k →
    (∀ r ∈ rs, 50 ≤ r.pending → m ≤ r.steps ∧ L + r.steps < 2 ^ 64) →
    2 * k ≤ rs.countP (50 ≤ ·.pending) + (if σ.pc = .sample then 1 else 0) → Ends c σ rs
  | [], k, σ, _, _, _, hle, hlt, _, hlen => by
    have hk : k = 0 := by
      simp only [List.countP_nil] at hlen
      split at hlen <;> omega
    rw [hk] at hlt
    omega
  | r :: rs, k, σ, hpc, hstop, hL, hle, hlt, hread, hlen => by
    have hrest := fun r' hr' => hread r' (List.mem_cons_of_mem _ hr')
    rw [List.countP_cons] at hlen
    rcases hpc with hpc | hpc
    · -- the reading is not looked at
      have hgo : go c r σ = .ok { σ with pc := .sample } := by simp [FastHashMonitor.go, hpc, hstop]
      refine ends_cons hgo (phase_ends rs k _ (Or.inr rfl) hstop hL hle hlt hrest ?_)
      simp only [hpc, reduceCtorEq, if_false, if_true] at hlen ⊢
      split at hlen <;> omega
    · rw [if_pos hpc] at hlen
      by_cases hpending : 50 ≤ r.pending
      · -- a sample
        have hgo : go c r σ = .ok (weigh c r σ) := by
          simp [FastHashMonitor.go, hpc, not_lt.mpr hpending]
        rw [if_pos (by simpa using hpending)] at hlen
        obtain ⟨hm, hwrap⟩ := hread r (by simp) hpending
        rcases weigh_cases c r σ with hc | hd | ⟨hpc', hstop', hcon, htotal, hlimit⟩
        · exact ends_first hgo (Or.inl hc)
        · exact ends_first hgo (Or.inr hd)
        · rw [hL, Nat.mod_eq_of_lt (by omega), Nat.mod_eq_of_lt (by omega)] at hlimit
          rw [Nat.mod_eq_of_lt (by omega)] at htotal
          obtain ⟨k, rfl⟩ : ∃ k', k = k' + 1 :=
            Nat.exists_eq_add_one_of_ne_zero (by rintro rfl; omega)
          rw [Nat.mul_succ] at hlt
          refine ends_cons hgo (phase_ends rs k _ (Or.inl hpc') (hstop'.trans hstop)
            (by rw [hcon, hL])
            (by omega) (by omega) hrest ?_)
          omega
      · -- too few requests: the controller waits
        have hgo : go c r σ = .ok σ := by
          simp [FastHashMonitor.go, hpc, hstop, not_le.mp hpending]
        refine ends_cons hgo (phase_ends rs k σ (Or.inr hpc) hstop hL hle hlt hrest ?_)
        rw [if_neg (by simpa using hpending)] at hlen
        rw [if_pos hpc]
        omega

/-- A frozen phase ends: if each reading with enough requests for a sample counts at least `m` steps
    and no counter wraps, the controller thaws the shards, to construct again or to rest, after at
    most `construct_step * FROZEN_THRESHOLD / m + 1` samples, however long it waits for requests in
    between. Up to every other reading with enough requests may come where none is looked at. -/
theorem frozen_phase_ends {m : ℕ} {rs : List (Reading S D)} (hpc : σ.pc = .constructed)
    (hstop : σ.should_stop = false) (hfrozen : σ.fail_list.card ≠ c.m_numShards) (hm : 0 < m)
    (hread : ∀ r ∈ rs, 50 ≤ r.pending →
      m ≤ r.steps ∧ σ.construct_step * c.FROZEN_THRESHOLD + r.steps < 2 ^ 64)
    (hlen : 2 * (σ.construct_step * c.FROZEN_THRESHOLD / m + 1) < rs.countP (50 ≤ ·.pending)) :
    ∃ n os σ', exec (FastHashMonitor.step c) σ ((rs.take n).map .go) = .ok (os, σ') ∧
      (σ'.pc = .CONSTRUCT ∨ σ'.pc = .DECONSTRUCT) := by
  cases rs with
  | nil => simp at hlen
  | cons r rs =>
    have hstart : go c r σ = .ok { σ with
        performance_depletion := ((COUNT_THRESHOLD : ℕ) : D), first_flag := true, total_step := 0
        current_step := 0, pc := .frozen } := by
      rw [FastHashMonitor.go, hpc]
      dsimp only
      rw [if_neg (by simp [hfrozen])]
      rfl
    refine ends_cons hstart (phase_ends rs (σ.construct_step * c.FROZEN_THRESHOLD / m + 1)
      _ (Or.inl rfl)
      hstop rfl (Nat.zero_le _) ?_ (fun r' hr' => hread r' (List.mem_cons_of_mem _ hr')) ?_)
    · rw [Nat.zero_add]
      exact Nat.lt_mul_div_succ _ hm
    · rw [List.countP_cons] at hlen
      split at hlen <;> omega

/-- A poll at which too few requests have come in. -/
def waiting : Reading ℚ ℚ := { improving with pending := 10 }

/-- Two shards have been constructed in 200 steps; three samples of 100 are enough, with polls in
    between. -/
theorem frozen_phase_ends_three : ∃ (σ : FastHashMonitor ℚ ℚ) (os : List Unit),
    exec (FastHashMonitor.step ⟨2, 1, by decide⟩) init (List.replicate 11 (.go improving)) =
    .ok (os, σ) ∧
    σ.pc = .constructed ∧ ∃ n os' σ', exec (FastHashMonitor.step ⟨2, 1, by decide⟩) σ
      (((List.replicate 7 [waiting, improving]).flatten.take n).map .go) = .ok (os', σ') ∧
      (σ'.pc = .CONSTRUCT ∨ σ'.pc = .DECONSTRUCT) := by
  have heval : (exec (FastHashMonitor.step ⟨2, 1, by decide⟩) (init : FastHashMonitor ℚ ℚ)
      (List.replicate 11 (.go improving))).toOption.map (fun r => (r.2.pc, r.2.should_stop,
        r.2.fail_list.card, r.2.construct_step)) = some (.constructed, false, 0, 200) := by
    decide +kernel
  cases hex : exec (FastHashMonitor.step ⟨2, 1, by decide⟩) (init : FastHashMonitor ℚ ℚ)
      (List.replicate 11 (.go improving)) with
  | error e =>
    rw [hex] at heval
    cases heval
  | ok r =>
    rw [hex] at heval
    simp only [Except.toOption, Option.map_some, Option.some.injEq, Prod.mk.injEq] at heval
    obtain ⟨hpc, hstop, hfail, hstep⟩ := heval
    refine ⟨r.2, r.1, rfl, hpc, frozen_phase_ends (m := 100) hpc hstop (by rw [hfail]; decide)
      (by decide) ?_ ?_⟩
    · intro x hx hp
      rw [hstep]
      obtain ⟨l, hl, hx⟩ := List.mem_flatten.mp hx
      rw [List.eq_of_mem_replicate hl, List.mem_pair] at hx
      rcases hx with rfl | rfl <;> revert hp <;> decide
    · rw [hstep]
      decide

end

/-! ### The search -/

section
variable [Zero S] [One S] [OfScientific S] [LinearOrder S]
variable [One D] [Add D] [Sub D] [Mul D] [Div D] [NatCast D] [OfScientific D] [LinearOrder D]

/-- One of the candidates, and none is better. -/
def Best (candidates : List (D × S)) (x : D × S) : Prop :=
  x ∈ candidates ∧ ∀ y ∈ candidates, x.1 ≤ y.1

omit [Zero S] [One S] [OfScientific S] [LinearOrder S] in
omit [One D] [Add D] [Sub D] [Mul D] [Div D] [NatCast D] [OfScientific D] in
/-- A candidate that is compared with the best so far. -/
theorem Best.step {l : List (D × S)} {x y z : D × S}
    (hz : Best ((if x.1 < y.1 then x else y) :: l) z) :
    Best (y :: x :: l) z := by
  obtain ⟨hmem, hle⟩ := hz
  split at hmem
  · rename_i hlt
    rw [if_pos hlt] at hle
    refine ⟨by simpa [or_assoc] using Or.inr (List.mem_cons.mp hmem), fun w hw => ?_⟩
    rcases List.mem_cons.mp hw with rfl | hw
    · exact (hle x (by simp)).trans hlt.le
    · exact hle w hw
  · rename_i hge
    rw [if_neg hge] at hle
    refine ⟨?_, fun w hw => ?_⟩
    · rcases List.mem_cons.mp hmem with rfl | hmem <;> simp [*]
    · rcases List.mem_cons.mp hw with rfl | hw
      · exact hle w (by simp)
      · rcases List.mem_cons.mp hw with rfl | hw
        · exact (hle y (by simp)).trans (not_lt.mp hge)
        · exact hle w (by simp [hw])

end

section
variable [One S] [Sub S] [Neg S] [OfScientific S] [LinearOrder S]
variable [One D] [Add D] [Div D] [OfScientific D] [LT D] [DecidableLT D]

omit [One D] [Add D] [Div D] [OfScientific D] [LT D] [DecidableLT D] in
theorem freezeLoop_pc : ∀ {k : ℕ} {σ : FastHashMonitor S D}, freezeLoop k σ = .ok σ' → σ'.pc = σ.pc
  | 0, σ, h => by
    cases h
    rfl
  | k + 1, σ, h => by
    rw [freezeLoop] at h
    obtain ⟨i, -, h⟩ := bind_eq_ok.mp h
    dsimp only at h
    refine (freezeLoop_pc h).trans ?_
    dsimp only
    split <;> rfl

omit [One S] [Sub S] [Neg S] [OfScientific S] [LinearOrder S] in
theorem checkLoop_pc {r : Reading S D} :
    ∀ {k : ℕ} {σ : FastHashMonitor S D}, checkLoop r k σ = .ok σ' → σ'.pc = σ.pc
  | 0, σ, h => by
    cases h
    rfl
  | k + 1, σ, h => by
    rw [checkLoop] at h
    obtain ⟨i, -, h⟩ := bind_eq_ok.mp h
    dsimp only at h
    split at h
    · exact (checkLoop_pc h).trans rfl
    · exact (checkLoop_pc h).trans rfl

theorem pass_pc {r : Reading S D} (hpc : σ.pc = .pass) (h : pass r σ = .ok σ') :
    σ'.pc = .pass ∨ σ'.pc = .constructed := by
  rw [FastHashMonitor.pass] at h
  split at h
  · dsimp only at h
    obtain ⟨q, -, h⟩ := bind_eq_ok.mp h
    split at h
    · cases h
      exact Or.inr rfl
    · obtain ⟨σ₁, hfreeze, h⟩ := bind_eq_ok.mp h
      obtain ⟨q', -, h⟩ := bind_eq_ok.mp h
      obtain ⟨σ₂, hcheck, h⟩ := bind_eq_ok.mp h
      cases h
      have hfreeze := freezeLoop_pc hfreeze
      have hcheck := checkLoop_pc hcheck
      exact Or.inl (hcheck.trans (hfreeze.trans hpc))
  · cases h
    exact Or.inr rfl

end

section
variable [Zero S] [One S] [Sub S] [Neg S] [OfScientific S] [LinearOrder S]
variable [Zero D] [One D] [Add D] [Sub D] [Mul D] [Div D] [NatCast D] [OfScientific D]
    [LinearOrder D]

/-- The choice follows a search. -/
theorem go_choice {r : Reading S D} (h : go c r σ = .ok σ') (hpc' : σ'.pc = .choice) :
    σ' = search c r σ := by
  rw [FastHashMonitor.go] at h
  cases hpc : σ.pc <;> rw [hpc] at h <;> dsimp only at h
  case observe =>
    cases h
    unfold FastHashMonitor.observe at hpc'
    dsimp only at hpc'
    split_ifs at hpc' <;> simp_all
  case search =>
    split at h <;> obtain ⟨σ₁, -, h⟩ := bind_eq_ok.mp h <;> cases h <;> cases hpc'
  case baseline =>
    split at h
    · cases h
      rw [hpc] at hpc'
      cases hpc'
    · cases h
      rfl
  case CONSTRUCT =>
    obtain ⟨-, -, h⟩ := bind_eq_ok.mp h
    cases h
    cases hpc'
  case pass => rcases pass_pc hpc h with h | h <;> rw [h] at hpc' <;> cases hpc'
  case sample =>
    split at h
    · cases h
      rw [hpc] at hpc'
      cases hpc'
    · cases h
      rcases weigh_cases c r σ with h | h | ⟨h, -⟩ <;> rw [h] at hpc' <;> cases hpc'
  case DECONSTRUCT =>
    cases h
    dsimp only at hpc'
    split at hpc' <;> cases hpc'
  case choice | doze | settle | constructed | rest => split at h <;> cases h <;> simp_all
  case WAIT_STABLE | done =>
    cases h
    simp_all
  case dozed | frozen | last =>
    cases h
    dsimp only at hpc'
    split at hpc' <;> cases hpc'

end

end FastHashMonitor
end FrozenHot
