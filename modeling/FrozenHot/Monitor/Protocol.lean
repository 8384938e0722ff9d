import FrozenHot.Monitor.Controller
import Mathlib.Tactic.Linarith

/-! The controller keeps the protocol of the shards: it freezes only thawed shards, profiles only a
    thawed shard, its queue is empty when it starts to construct, and it thaws everything before it
    returns.

    `Phase` is the invariant, place by place. The flag `should_stop` is in it as a way out: a
    construction that was stopped leaves ids in the queue, but from then on the controller only goes
    to its end. -/

namespace FrozenHot
open Schemes

/-- What the shards expect of a call. -/
def ShardEvent.Lawful {S : Type} [OfScientific S] [LE S] (e : ShardEvent S) : Prop :=
  match e.call with
  | .get_curve => e.shard = 0 ∧ e.frozen = false ∧ e.points = 0
  | .construct_tier => e.frozen = false
  | .construct_ratio FC_ratio => e.frozen = false ∧ 0.05 ≤ FC_ratio
  | .deconstruct => True

/-- Every id is in the queue, among the failed or among the frozen shards, and in one of them
    only. -/
structure Split (N : ℕ) (queue : List ℕ) (failed frozen : Finset ℕ) : Prop where
  nodup : queue.Nodup
  cover : ∀ i, i < N ↔ i ∈ queue ∨ i ∈ failed ∨ i ∈ frozen
  queue_failed : ∀ i ∈ queue, i ∉ failed
  queue_frozen : ∀ i ∈ queue, i ∉ frozen
  failed_frozen : ∀ i ∈ failed, i ∉ frozen

namespace Split
variable {N : ℕ} {Q F : List ℕ} {E T : Finset ℕ}

theorem start (N : ℕ) : Split N (List.range N) ∅ ∅ :=
  ⟨List.nodup_range, by simp, by simp, by simp, by simp⟩

/-- The queue given up. -/
theorem fail (hs : Split N Q E T) : Split N [] (E ∪ Q.toFinset) T := by
  refine ⟨List.nodup_nil, fun i => ?_, by simp, by simp, fun i hi => ?_⟩
  · rw [hs.cover]
    simp
    tauto
  · rcases Finset.mem_union.mp hi with hi | hi
    · exact hs.failed_frozen i hi
    · exact hs.queue_frozen i (List.mem_toFinset.mp hi)

/-- A pass: all of the queue was frozen, and the part `F` thawed again. -/
theorem pass (hs : Split N Q E T) (hF : F.Sublist Q) :
    Split N F E ((T ∪ Q.toFinset) \ F.toFinset) := by
  have hsub := hF.subset
  refine ⟨hs.nodup.sublist hF, fun i => ?_, fun i hi => hs.queue_failed i (hsub hi), fun i hi => ?_,
    fun i hi => ?_⟩
  · have hfail := hs.queue_failed i
    have hfrozen := hs.queue_frozen i
    have := @hsub i
    rw [hs.cover]
    simp
    tauto
  · simp [hi]
  · have hfail := hs.queue_failed i
    have := hs.failed_frozen i hi
    simp
    tauto

theorem subset (hs : Split N Q E T) : T ⊆ Finset.range N := fun i hi =>
  Finset.mem_range.mpr ((hs.cover i).mpr (Or.inr (Or.inr hi)))

/-- With nothing left in the queue, the frozen shards are those that did not fail. -/
theorem frozen_iff (hs : Split N [] E T) {i : ℕ} (hi : i < N) : i ∈ T ↔ i ∉ E := by
  have := (hs.cover i).mp hi
  have := hs.failed_frozen i
  simp at *
  tauto

theorem frozen_nonempty (hs : Split N [] E T) (hcard : E.card ≠ N) : T.Nonempty := by
  by_contra hT
  rw [Finset.not_nonempty_iff_eq_empty] at hT
  subst hT
  refine hcard ?_
  have : E = Finset.range N := by
    ext i
    rw [Finset.mem_range, hs.cover]
    simp
  rw [this, Finset.card_range]

theorem frozen_empty (hs : Split N Q E T) (hcard : E.card = N) : T = ∅ := by
  have hE : E = Finset.range N := Finset.eq_of_subset_of_card_le
    (fun i hi => Finset.mem_range.mpr ((hs.cover i).mpr (Or.inr (Or.inl hi))))
      (by rw [Finset.card_range, hcard])
  refine Finset.eq_empty_of_forall_notMem fun i hi => hs.failed_frozen i ?_ hi
  rw [hE]
  exact hs.subset hi

end Split

namespace FastHashMonitor
variable {S D : Type} [OfScientific S] [LinearOrder S] {σ σ' : FastHashMonitor S D}

def Lawful (calls : List (ShardEvent S)) : Prop := ∀ e ∈ calls, e.Lawful

theorem Lawful.add {calls : List (ShardEvent S)} {e : ShardEvent S} (hl : Lawful calls)
    (he : e.Lawful) :
    Lawful (calls ++ [e]) := by
  intro e' he'
  rcases List.mem_append.mp he' with h | h
  · exact hl e' h
  · rw [List.mem_singleton.mp h]
    exact he

/-! ### The loops over the shards -/

/-- Freezing shards that are thawed. -/
theorem construct_tier_loop :
    ∀ (l : List ℕ) (σ : FastHashMonitor S D), l.Nodup → (∀ i ∈ l, i ∉ σ.frozen) → Lawful σ.calls →
    ∃ calls, l.foldl construct_tier σ = { σ with frozen := σ.frozen ∪ l.toFinset, calls := calls } ∧
    Lawful calls
  | [], σ, _, _, hl => ⟨σ.calls, by simp, hl⟩
  | i :: l, σ, hnd, hthawed, hl => by
    rw [List.nodup_cons] at hnd
    obtain ⟨calls, heq, hl'⟩ := construct_tier_loop l (σ.construct_tier i) hnd.2 (fun j hj => by
      simp only [construct_tier, Finset.mem_insert, not_or]
      exact ⟨fun h => hnd.1 (h ▸ hj), hthawed j (by simp [hj])⟩)
      (hl.add (by simp [ShardEvent.Lawful, hthawed i]))
    refine ⟨calls, ?_, hl'⟩
    have hset : insert i σ.frozen ∪ l.toFinset = σ.frozen ∪ (i :: l).toFinset := by simp
    rw [List.foldl_cons, heq, ← hset]
    rfl

/-- Thawing shards. -/
theorem deconstruct_loop : ∀ (l : List ℕ) (σ : FastHashMonitor S D), Lawful σ.calls →
    ∃ calls, l.foldl deconstruct σ = { σ with frozen := σ.frozen \ l.toFinset, calls := calls } ∧
    Lawful calls
  | [], σ, hl => ⟨σ.calls, by simp, hl⟩
  | i :: l, σ, hl => by
    obtain ⟨calls, heq, hl'⟩ := deconstruct_loop l (σ.deconstruct i) (hl.add trivial)
    refine ⟨calls, ?_, hl'⟩
    have hset : σ.frozen.erase i \ l.toFinset = σ.frozen \ (i :: l).toFinset := by
      ext j
      simp
      tauto
    rw [List.foldl_cons, heq, ← hset]
    rfl

theorem deconstructAll_eq (c : MonitorConfig) (hsub : σ.frozen ⊆ Finset.range c.m_numShards)
    (hl : Lawful σ.calls) :
    ∃ calls, deconstructAll c σ = { σ with frozen := ∅, calls := calls } ∧ Lawful calls := by
  obtain ⟨calls, heq, hl'⟩ := deconstruct_loop (List.range c.m_numShards) σ hl
  refine ⟨calls, ?_, hl'⟩
  have hset : σ.frozen \ (List.range c.m_numShards).toFinset = ∅ := by
    rw [Finset.sdiff_eq_empty_iff_subset]
    intro i hi
    simpa using hsub hi
  rw [deconstructAll, heq, hset]

/-! ### The loops over the queue -/

theorem turn_eq : ∀ (B A : List ℕ), turn B.length (B ++ A) = .ok (A ++ B)
  | [], A => by simp [turn]
  | i :: B, A => by
    have := turn_eq B (A ++ [i])
    simpa [turn, front] using this

theorem turn_all (q : List ℕ) : turn q.length q = .ok q := by simpa using turn_eq q []

theorem freezeLoop_eq [One S] [Sub S] [Neg S] :
    ∀ (B A : List ℕ) (σ : FastHashMonitor S D), σ.construct_container = B ++ A → B.Nodup →
    (∀ i ∈ B, i ∉ σ.frozen) → 0.05 ≤ σ.best_size → Lawful σ.calls →
    ∃ calls, freezeLoop B.length σ = .ok { σ with
      construct_container := A ++ B, frozen := σ.frozen ∪ B.toFinset, calls := calls } ∧
        Lawful calls
  | [], A, σ, hq, _, _, _, hl => by
    obtain rfl : A = σ.construct_container := by simpa using hq.symm
    exact ⟨σ.calls, by simp [freezeLoop], hl⟩
  | i :: B, A, σ, hq, hnd, hthawed, hsize, hl => by
    rw [List.nodup_cons] at hnd
    have hi : i ∉ σ.frozen := hthawed i (by simp)
    -- the call that freezes shard `i`, whichever it is
    obtain ⟨calls₁, hcall, hl₁⟩ : ∃ calls,
        (if double_is_equal σ.best_size 1 then σ.construct_tier i else σ.construct_ratio i) =
          { σ with frozen := insert i σ.frozen, calls := calls } ∧ Lawful calls := by
      split
      · exact ⟨_, rfl, hl.add (by simp [ShardEvent.Lawful, hi])⟩
      · exact ⟨_, rfl, hl.add (by simp [ShardEvent.Lawful, hi, hsize])⟩
    obtain ⟨calls, heq, hl'⟩ := freezeLoop_eq B (A ++ [i])
      { σ with
        frozen := insert i σ.frozen, calls := calls₁, construct_container :=
          B ++ (A ++ [i]) } rfl hnd.2
      (fun j hj => by
        simp only [Finset.mem_insert, not_or]
        exact ⟨fun h => hnd.1 (h ▸ hj), hthawed j (by simp [hj])⟩) hsize hl₁
    have hset : insert i σ.frozen ∪ B.toFinset = σ.frozen ∪ (i :: B).toFinset := by simp
    refine ⟨calls, ?_, hl'⟩
    rw [List.length_cons, freezeLoop, hq, List.cons_append, front]
    simp only [pure_eq_ok, ok_bind, hcall, hq, List.cons_append, List.tail_cons, List.append_assoc]
    rw [heq, hset]
    simp

section
variable [One D] [Add D] [Div D] [OfScientific D] [LT D] [DecidableLT D]

theorem checkLoop_eq (r : Reading S D) :
    ∀ (B A : List ℕ) (σ : FastHashMonitor S D), σ.construct_container = B ++ A →
    Lawful σ.calls → ∃ (calls : List (ShardEvent S)) (F : List ℕ) (metrics : ℕ → D),
    checkLoop r B.length σ = .ok { σ with
      construct_container := A ++ F
      frozen := σ.frozen \ F.toFinset
      calls := calls
      baseline_metrics := metrics } ∧ F.Sublist B ∧ Lawful calls
  | [], A, σ, hq, hl => by
    obtain rfl : A = σ.construct_container := by simpa using hq.symm
    exact ⟨σ.calls, [], σ.baseline_metrics, by simp [checkLoop], List.Sublist.refl _, hl⟩
  | i :: B, A, σ, hq, hl => by
    rw [List.length_cons, checkLoop, hq, List.cons_append, front]
    simp only [pure_eq_ok, ok_bind, List.tail_cons]
    split
    · obtain ⟨calls, F, metrics, heq, hF, hl'⟩ := checkLoop_eq r B (A ++ [i]) { σ.deconstruct i with
        construct_container := B ++ A ++ [i]
        baseline_metrics := Function.update σ.baseline_metrics i (r.updated i) } (by simp)
          (hl.add trivial)
      refine ⟨calls, i :: F, metrics, ?_, hF.cons_cons i, hl'⟩
      have hset : σ.frozen.erase i \ F.toFinset = σ.frozen \ (i :: F).toFinset := by
        ext j
        simp
        tauto
      rw [heq, ← hset]
      simp [deconstruct, note]
    · obtain ⟨calls, F, metrics, heq, hF, hl'⟩ :=
        checkLoop_eq r B A { σ with construct_container := B ++ A } rfl hl
      exact ⟨calls, F, metrics, heq, hF.cons i, hl'⟩

end

/-! ### The invariant -/

/-- What holds at each place. -/
def Phase (N : ℕ) (σ : FastHashMonitor S D) : Prop :=
  match σ.pc with
  | .WAIT_STABLE | .observe | .search | .choice | .doze _ | .dozed =>
    σ.frozen = ∅ ∧ σ.curve_container = [] ∧ σ.construct_container = []
  | .baseline => σ.frozen = ∅ ∧ σ.construct_container = []
  | .CONSTRUCT => σ.frozen = ∅ ∧ σ.curve_container = [] ∧ σ.construct_container = [] ∧
      (σ.should_stop = true ∨ 0.05 ≤ σ.best_size)
  | .settle => σ.frozen = ∅ ∧ σ.curve_container = [] ∧ σ.construct_container = [] ∧
      σ.fail_list = ∅ ∧
      (σ.should_stop = true ∨ 0.05 ≤ σ.best_size)
  | .pass => σ.curve_container = [] ∧ Split N σ.construct_container σ.fail_list σ.frozen ∧
      (σ.should_stop = true ∨ 0.05 ≤ σ.best_size)
  | .constructed => σ.curve_container = [] ∧ Split N σ.construct_container σ.fail_list σ.frozen ∧
      (σ.should_stop = true ∨ σ.construct_container = [] ∧ 0.05 ≤ σ.best_size)
  | .frozen => σ.curve_container = [] ∧ Split N σ.construct_container σ.fail_list σ.frozen ∧
      (σ.should_stop = true ∨ σ.construct_container = [] ∧ 0.05 ≤ σ.best_size ∧
        σ.fail_list.card ≠ N)
  | .sample => σ.curve_container = [] ∧ Split N σ.construct_container σ.fail_list σ.frozen ∧
      σ.construct_container = [] ∧ 0.05 ≤ σ.best_size ∧ σ.fail_list.card ≠ N
  | .DECONSTRUCT => σ.curve_container = [] ∧ σ.frozen ⊆ Finset.range N ∧
      (σ.should_stop = true ∨ σ.construct_container = [])
  | .rest _ | .last => σ.frozen = ∅ ∧ σ.curve_container = [] ∧
      (σ.should_stop = true ∨ σ.construct_container = [])
  | .done => σ.frozen = ∅

/-- The protocol was kept so far. -/
structure Inv (c : MonitorConfig) (σ : FastHashMonitor S D) : Prop where
  phase : Phase c.m_numShards σ
  lawful : Lawful σ.calls

variable {c : MonitorConfig}

/-- The flag may be raised anywhere. -/
theorem Inv.stop (hi : Inv c σ) : Inv c { σ with should_stop := true } := by
  refine ⟨?_, hi.lawful⟩
  have hphase := hi.phase
  unfold Phase at hphase ⊢
  dsimp only
  cases hpc : σ.pc <;> simp only [hpc, true_or, and_true] at hphase ⊢ <;> tauto

theorem inv_init [Zero S] [Zero D] (c : MonitorConfig) : Inv c (init : FastHashMonitor S D) :=
  ⟨⟨rfl, rfl, rfl⟩, by simp [Lawful, init]⟩

/-! ### The steps -/

theorem Inv.observe [LE D] [DecidableLE D] (hi : Inv c σ) (hpc : σ.pc = .observe)
    (r : Reading S D) :
    Inv c (observe r σ) := by
  have hphase := hi.phase
  simp only [Phase, hpc] at hphase
  unfold FastHashMonitor.observe
  dsimp only
  split_ifs
  all_goals first
    | exact ⟨hphase, hi.lawful⟩
    | exact ⟨hi.phase, hi.lawful⟩

theorem Inv.get_curve (hi : Inv c σ) (hpc : σ.pc = .search) (points : List (CurvePoint S D)) :
    ∃ σ', σ.get_curve points = .ok σ' ∧ σ'.frozen = ∅ ∧ σ'.construct_container = [] ∧
    Lawful σ'.calls := by
  obtain ⟨hphase, hl⟩ := hi
  simp only [Phase, hpc] at hphase
  obtain ⟨hF, hC, hQ⟩ := hphase
  rw [FastHashMonitor.get_curve, hC]
  exact ⟨_, rfl, hF, hQ, hl.add ⟨rfl, by simp [hF], by simp [hC]⟩⟩

theorem Inv.search [Zero S] [One S] [One D] [Add D] [Sub D] [Mul D] [Div D] [NatCast D]
    [OfScientific D] [LT D] [DecidableLT D] (hi : Inv c σ) (hpc : σ.pc = .baseline)
    (r : Reading S D) : Inv c (search c r σ) := by
  obtain ⟨hphase, hl⟩ := hi
  simp only [Phase, hpc] at hphase
  obtain ⟨hF, hQ⟩ := hphase
  obtain ⟨calls₁, heq₁, hl₁⟩ := construct_tier_loop (List.range c.m_numShards) σ List.nodup_range
    (by simp [hF]) hl
  obtain ⟨calls₂, heq₂, hl₂⟩ := deconstructAll_eq c
    (σ := { σ with frozen := σ.frozen ∪ (List.range c.m_numShards).toFinset, calls := calls₁ })
    (by intro i; simp [hF]) hl₁
  rw [FastHashMonitor.search, heq₁, heq₂]
  exact ⟨⟨rfl, rfl, hQ⟩, hl₂⟩

theorem foldl_insert (Q : List ℕ) (E : Finset ℕ) :
    Q.foldl (fun f i => insert i f) E = E ∪ Q.toFinset := by
  induction Q generalizing E with
  | nil => simp
  | cons i Q ih => simp [ih]

/-- A pass freezes what is in the queue and thaws what did not improve; after the last pass the
    queue is given up. -/
theorem Inv.pass [One S] [Sub S] [Neg S] [One D] [Add D] [Div D] [OfScientific D] [LT D]
    [DecidableLT D] (hi : Inv c σ) (hpc : σ.pc = .pass) (r : Reading S D) :
    ∃ σ', pass r σ = .ok σ' ∧ Inv c σ' := by
  obtain ⟨hphase, hl⟩ := hi
  simp only [Phase, hpc] at hphase
  obtain ⟨hC, hsplit, hsize⟩ := hphase
  rw [FastHashMonitor.pass]
  by_cases hgo : ¬ σ.should_stop ∧ ¬ σ.construct_container.isEmpty
  · rw [if_pos hgo]
    dsimp only
    rw [turn_all, ok_bind]
    have hsize : 0.05 ≤ σ.best_size := hsize.resolve_left hgo.1
    split_ifs
    · refine ⟨_, rfl, ⟨hC, ?_, Or.inr ⟨rfl, hsize⟩⟩, hl⟩
      dsimp only
      rw [foldl_insert]
      exact hsplit.fail
    · obtain ⟨calls₁, heq₁, hl₁⟩ :=
        freezeLoop_eq σ.construct_container [] σ (by simp) hsplit.nodup hsplit.queue_frozen
        hsize hl
      obtain ⟨calls₂, F, metrics, heq₂, hF, hl₂⟩ := checkLoop_eq r σ.construct_container []
        { σ with frozen := σ.frozen ∪ σ.construct_container.toFinset, calls := calls₁ }
          (by simp) hl₁
      rw [List.nil_append] at heq₁ heq₂
      rw [heq₁]
      simp only [ok_bind, turn_all, heq₂]
      refine ⟨_, rfl, ?_, hl₂⟩
      simp only [Phase, hpc]
      exact ⟨hC, hsplit.pass hF, Or.inr hsize⟩
  · rw [if_neg hgo]
    refine ⟨_, rfl, ⟨hC, hsplit, ?_⟩, hl⟩
    by_cases hstop : σ.should_stop = true
    · exact Or.inl hstop
    · refine Or.inr ⟨?_, hsize.resolve_left hstop⟩
      simpa [hstop] using hgo

/-- Thawing everything in the middle of the frozen phase. -/
theorem Inv.refresh (hi : Inv c σ) (hpc : σ.pc = .sample) : Inv c (refresh c σ) := by
  obtain ⟨hphase, hl⟩ := hi
  simp only [Phase, hpc] at hphase
  obtain ⟨hC, hsplit, hQ, hsize, -⟩ := hphase
  obtain ⟨calls, heq, hl'⟩ := deconstructAll_eq c hsplit.subset hl
  rw [FastHashMonitor.refresh, heq]
  exact ⟨⟨rfl, hC, hQ, Or.inr hsize⟩, hl'⟩

theorem Inv.weigh [Zero D] [Add D] [Sub D] [Mul D] [Div D] [NatCast D] [LT D] [LE D] [DecidableLT D]
    [DecidableLE D] (hi : Inv c σ) (hpc : σ.pc = .sample) (r : Reading S D) :
    Inv c (weigh c r σ) := by
  have hphase := hi.phase
  simp only [Phase, hpc] at hphase
  obtain ⟨hC, hsplit, hQ, hsize, hcard⟩ := hphase
  unfold FastHashMonitor.weigh
  dsimp only
  generalize (if σ.first_flag then r.steps else σ.baseline_step) = baseline_step
  generalize (if σ.SLEEP_THRESHOLD ≥ 2 then σ.SLEEP_THRESHOLD / 2 else σ.SLEEP_THRESHOLD) = seconds
  split_ifs
  · exact ⟨⟨hC, hsplit.subset, Or.inr hQ⟩, hi.lawful⟩
  · exact Inv.refresh ⟨hi.phase, hi.lawful⟩ hpc
  · exact ⟨⟨hC, hsplit, Or.inr ⟨hQ, hsize, hcard⟩⟩, hi.lawful⟩
  · exact Inv.refresh ⟨hi.phase, hi.lawful⟩ hpc
  · exact ⟨⟨hC, hsplit, Or.inr ⟨hQ, hsize, hcard⟩⟩, hi.lawful⟩

section
variable [Zero S] [One S] [Sub S] [Neg S]
variable [Zero D] [One D] [Add D] [Sub D] [Mul D] [Div D] [NatCast D] [OfScientific D]
variable [LT D] [LE D] [DecidableLT D] [DecidableLE D]

theorem Inv.go_search (hi : Inv c σ) (hpc : σ.pc = .search) (r : Reading S D) :
    ∃ σ', go c r σ = .ok σ' ∧ Inv c σ' := by
  have hphase := hi.phase
  simp only [Phase, hpc] at hphase
  rw [FastHashMonitor.go, hpc]
  dsimp only
  split
  · obtain ⟨σ', heq, hF, hQ, hl'⟩ := hi.get_curve hpc r.points
    rw [heq]
    exact ⟨_, rfl, ⟨hF, hQ⟩, hl'⟩
  · exact ⟨_, rfl, ⟨hphase.1, hphase.2.2⟩, hi.lawful⟩

/-- Whoever does not sleep goes for a size that is worth it, or stops. -/
theorem Inv.go_choice (hi : Inv c σ) (hpc : σ.pc = .choice) (r : Reading S D) :
    ∃ σ', go c r σ = .ok σ' ∧ Inv c σ' := by
  have hphase := hi.phase
  simp only [Phase, hpc] at hphase
  rw [FastHashMonitor.go, hpc]
  dsimp only
  split
  · exact ⟨_, rfl, hphase, hi.lawful⟩
  · rename_i h
    refine ⟨_, rfl, ⟨hphase.1, hphase.2.1, hphase.2.2, ?_⟩, hi.lawful⟩
    by_cases hstop : σ.should_stop = true
    · exact Or.inl hstop
    · exact Or.inr (not_lt.mp fun hlt => h ⟨hstop, hlt⟩)

theorem Inv.go_dozed (hi : Inv c σ) (hpc : σ.pc = .dozed) (r : Reading S D) :
    ∃ σ', go c r σ = .ok σ' ∧ Inv c σ' := by
  have hphase := hi.phase
  simp only [Phase, hpc] at hphase
  rw [FastHashMonitor.go, hpc]
  dsimp only
  cases hstop : σ.should_stop with
  | true => exact ⟨_, rfl, ⟨hphase.1, hphase.2.1, hphase.2.2, Or.inl rfl⟩, hi.lawful⟩
  | false => exact ⟨_, rfl, hphase, hi.lawful⟩

/-- The assertion at `CONSTRUCT` holds. -/
theorem Inv.go_CONSTRUCT (hi : Inv c σ) (hpc : σ.pc = .CONSTRUCT) (r : Reading S D) :
    ∃ σ', go c r σ = .ok σ' ∧ Inv c σ' := by
  have hphase := hi.phase
  simp only [Phase, hpc] at hphase
  obtain ⟨hF, hC, hQ, hsize⟩ := hphase
  rw [FastHashMonitor.go, hpc]
  dsimp only
  rw [hQ]
  exact ⟨_, rfl, ⟨hF, hC, rfl, rfl, hsize⟩, hi.lawful⟩

/-- All ids enter the queue. -/
theorem Inv.go_settle (hi : Inv c σ) (hpc : σ.pc = .settle) (r : Reading S D) :
    ∃ σ', go c r σ = .ok σ' ∧ Inv c σ' := by
  have hphase := hi.phase
  simp only [Phase, hpc] at hphase
  obtain ⟨hF, hC, hQ, hE, hsize⟩ := hphase
  rw [FastHashMonitor.go, hpc]
  dsimp only
  split
  · exact ⟨_, rfl, hi⟩
  · refine ⟨_, rfl, ⟨hC, ?_, hsize⟩, hi.lawful⟩
    dsimp only
    rw [hQ, hE, hF]
    exact Split.start _

/-- The frozen phase is entered with a frozen shard, unless everything failed. -/
theorem Inv.go_constructed (hi : Inv c σ) (hpc : σ.pc = .constructed) (r : Reading S D) :
    ∃ σ', go c r σ = .ok σ' ∧ Inv c σ' := by
  have hphase := hi.phase
  simp only [Phase, hpc] at hphase
  obtain ⟨hC, hsplit, hsize⟩ := hphase
  rw [FastHashMonitor.go, hpc]
  dsimp only
  split
  · rename_i h
    have hQ := (hsize.resolve_left h.1).1
    exact ⟨_, rfl, ⟨hsplit.frozen_empty h.2, hC, hQ⟩, hi.lawful⟩
  · rename_i h
    refine ⟨_, rfl, ⟨hC, hsplit, ?_⟩, hi.lawful⟩
    by_cases hstop : σ.should_stop = true
    · exact Or.inl hstop
    · obtain ⟨hQ, hsize⟩ := hsize.resolve_left hstop
      exact Or.inr ⟨hQ, hsize, fun hcard => h ⟨hstop, hcard⟩⟩

theorem Inv.go_frozen (hi : Inv c σ) (hpc : σ.pc = .frozen) (r : Reading S D) :
    ∃ σ', go c r σ = .ok σ' ∧ Inv c σ' := by
  have hphase := hi.phase
  simp only [Phase, hpc] at hphase
  obtain ⟨hC, hsplit, hsize⟩ := hphase
  rw [FastHashMonitor.go, hpc]
  dsimp only
  cases hstop : σ.should_stop with
  | true => exact ⟨_, rfl, ⟨hC, hsplit.subset, Or.inl rfl⟩, hi.lawful⟩
  | false => exact ⟨_, rfl, ⟨hC, hsplit, hsize.resolve_left (by simp [hstop])⟩, hi.lawful⟩

/-- Everything is thawed. -/
theorem Inv.go_DECONSTRUCT (hi : Inv c σ) (hpc : σ.pc = .DECONSTRUCT) (r : Reading S D) :
    ∃ σ', go c r σ = .ok σ' ∧ Inv c σ' := by
  have hphase := hi.phase
  simp only [Phase, hpc] at hphase
  obtain ⟨hC, hsub, hQ⟩ := hphase
  obtain ⟨calls, heq, hl'⟩ := deconstructAll_eq c hsub hi.lawful
  rw [FastHashMonitor.go, hpc]
  dsimp only
  rw [heq]
  dsimp only
  cases hstop : σ.should_stop with
  | true => exact ⟨_, rfl, ⟨rfl, hC, Or.inl rfl⟩, hl'⟩
  | false => exact ⟨_, rfl, ⟨rfl, hC, Or.inr (hQ.resolve_left (by simp [hstop]))⟩, hl'⟩

theorem Inv.go_last (hi : Inv c σ) (hpc : σ.pc = .last) (r : Reading S D) :
    ∃ σ', go c r σ = .ok σ' ∧ Inv c σ' := by
  have hphase := hi.phase
  simp only [Phase, hpc] at hphase
  obtain ⟨hF, hC, hQ⟩ := hphase
  rw [FastHashMonitor.go, hpc]
  dsimp only
  cases hstop : σ.should_stop with
  | true => exact ⟨_, rfl, hF, hi.lawful⟩
  | false => exact ⟨_, rfl, ⟨hF, hC, hQ.resolve_left (by simp [hstop])⟩, hi.lawful⟩

/-- A place that the controller waits at goes on to one where the same holds. -/
theorem Inv.go_wait (hi : Inv c σ)
    (hpc : σ.pc = .WAIT_STABLE ∨ (∃ i, σ.pc = .doze i) ∨ ∃ i, σ.pc = .rest i) (r : Reading S D) :
    ∃ σ', go c r σ = .ok σ' ∧ Inv c σ' := by
  have hphase := hi.phase
  rw [FastHashMonitor.go]
  rcases hpc with hpc | ⟨i, hpc⟩ | ⟨i, hpc⟩ <;> simp only [Phase, hpc] at hphase ⊢
  · exact ⟨_, rfl, hphase, hi.lawful⟩
  · split <;> exact ⟨_, rfl, hphase, hi.lawful⟩
  · split <;> exact ⟨_, rfl, hphase, hi.lawful⟩

theorem Inv.go (hi : Inv c σ) (r : Reading S D) : ∃ σ', go c r σ = .ok σ' ∧ Inv c σ' := by
  cases hpc : σ.pc with
  | WAIT_STABLE => exact hi.go_wait (Or.inl hpc) r
  | observe => exact ⟨_, by rw [FastHashMonitor.go, hpc]; rfl, hi.observe hpc r⟩
  | search => exact hi.go_search hpc r
  | baseline =>
    rw [FastHashMonitor.go, hpc]
    dsimp only
    split
    · exact ⟨_, rfl, hi⟩
    · exact ⟨_, rfl, hi.search hpc r⟩
  | choice => exact hi.go_choice hpc r
  | doze i => exact hi.go_wait (Or.inr (Or.inl ⟨i, hpc⟩)) r
  | dozed => exact hi.go_dozed hpc r
  | CONSTRUCT => exact hi.go_CONSTRUCT hpc r
  | settle => exact hi.go_settle hpc r
  | pass =>
    rw [FastHashMonitor.go, hpc]
    exact hi.pass hpc r
  | constructed => exact hi.go_constructed hpc r
  | frozen => exact hi.go_frozen hpc r
  | sample =>
    rw [FastHashMonitor.go, hpc]
    dsimp only
    split
    · exact ⟨_, rfl, hi⟩
    · exact ⟨_, rfl, hi.weigh hpc r⟩
  | DECONSTRUCT => exact hi.go_DECONSTRUCT hpc r
  | rest i => exact hi.go_wait (Or.inr (Or.inr ⟨i, hpc⟩)) r
  | last => exact hi.go_last hpc r
  | done => exact ⟨_, by rw [FastHashMonitor.go, hpc]; rfl, hi⟩

theorem Inv.step (hi : Inv c σ) (s : Signal S D) : ∃ σ', step c σ s = .ok ((), σ') ∧ Inv c σ' := by
  cases s with
  | stop => exact ⟨_, rfl, hi.stop⟩
  | go r =>
    obtain ⟨σ', heq, hi'⟩ := hi.go r
    refine ⟨σ', ?_, hi'⟩
    rw [FastHashMonitor.step, heq]
    rfl

/-- In every run of the controller, with any measurements and a flag raised at any moment: every
    step returns, so that no assertion fails, and every call on a shard is lawful; between the
    passes of the construct loop each shard is in the queue, failed or frozen, and only one of
    these; the frozen phase has a frozen shard, and exactly the failed shards are not frozen; and at
    the end all shards are thawed. -/
theorem monitor_keeps_protocol {H : List (Signal S D × Unit)}
    (hrun : Run (FastHashMonitor.step c) (fun _ _ => True) init H σ) :
    (∀ s, ∃ σ', FastHashMonitor.step c σ s = .ok ((), σ')) ∧
    (∀ e ∈ σ.calls, e.Lawful) ∧
    (σ.pc = .CONSTRUCT → σ.construct_container = []) ∧
    (σ.pc = .pass → Split c.m_numShards σ.construct_container σ.fail_list σ.frozen) ∧
    (σ.pc = .sample → σ.frozen.Nonempty ∧ ∀ i < c.m_numShards, i ∈ σ.frozen ↔ i ∉ σ.fail_list) ∧
    (σ.pc = .done → σ.frozen = ∅) := by
  have hi : Inv c σ := hrun.invariant (Inv c) (inv_init c) fun σ₁ s o σ₂ hi _ _ hs => by
    obtain ⟨σ', heq, hi'⟩ := hi.step s
    cases heq.symm.trans hs
    exact hi'
  have hphase := hi.phase
  refine ⟨fun s => ?_, hi.lawful, fun hpc => ?_, fun hpc => ?_, fun hpc => ?_, fun hpc => ?_⟩
  · obtain ⟨σ', heq, -⟩ := hi.step s
    exact ⟨σ', heq⟩
  all_goals simp only [Phase, hpc] at hphase
  · exact hphase.2.2.1
  · exact hphase.2.1
  · obtain ⟨-, hsplit, hQ, -, hcard⟩ := hphase
    rw [hQ] at hsplit
    exact ⟨hsplit.frozen_nonempty hcard, fun i hi => hsplit.frozen_iff hi⟩
  · exact hphase

end

/-- Measurements that show an improvement when everything is frozen. -/
def improving : Reading ℚ ℚ where
  miss_ratio := 2
  size := 8
  points := [⟨0.5, 0.5, 0.1⟩]
  pending := 100
  DC_hit_lat := 4
  miss_lat := 9
  FC_lat := 1
  Frozen_Avg := 1
  performance := 1
  steps := 100
  tail := fun _ => 0
  updated := fun _ => 0

/-- Two shards are observed, profiled and frozen. -/
theorem monitor_keeps_protocol_two :
    ∃ σ : FastHashMonitor ℚ ℚ, σ.pc = .sample ∧ σ.calls.length = 7 ∧
    (∀ e ∈ σ.calls, e.Lawful) ∧ σ.frozen.Nonempty ∧ ∀ i < 2, i ∈ σ.frozen ↔ i ∉ σ.fail_list := by
  have heval : (exec (FastHashMonitor.step ⟨2, 1, by decide⟩) (init : FastHashMonitor ℚ ℚ)
      (List.replicate 13 (.go improving))).toOption.map (fun r => (r.2.pc, r.2.calls.length)) =
      some (.sample, 7) := by
    decide +kernel
  cases hex : exec (FastHashMonitor.step ⟨2, 1, by decide⟩) (init : FastHashMonitor ℚ ℚ)
      (List.replicate 13 (.go improving)) with
  | error e =>
    rw [hex] at heval
    cases heval
  | ok r =>
    rw [hex] at heval
    obtain ⟨hpc, hlen⟩ := Prod.mk.inj (Option.some.inj heval)
    have hkeeps := monitor_keeps_protocol (Run.of_exec hex)
    exact ⟨r.2, hpc, hlen, hkeeps.2.1, hkeeps.2.2.2.2.1 hpc⟩

end FastHashMonitor
end FrozenHot
