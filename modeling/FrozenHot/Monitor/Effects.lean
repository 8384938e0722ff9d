import FrozenHot.Monitor.Protocol

/-! What a step of the controller asks of the shards: the calls that it adds, one after the other,
    lead from the shards that were frozen before the step to those that are frozen after it. -/

namespace FrozenHot
open Schemes

variable {S : Type}

/-- The frozen shards after a call on shard `i`. -/
def ShardCall.after (i : ℕ) (T : Finset ℕ) : ShardCall S → Finset ℕ
  | .get_curve => T
  | .construct_tier | .construct_ratio _ => insert i T
  | .deconstruct => T.erase i

/-- The calls lead from the frozen shards `T` to `T'`, and each is recorded with the shard as it
    found it. -/
def Leads (N : ℕ) : Finset ℕ → List (ShardEvent S) → Finset ℕ → Prop
  | T, [], T' => T = T'
  | T, e :: E, T' => e.shard < N ∧ e.frozen = decide (e.shard ∈ T) ∧
      Leads N (e.call.after e.shard T) E T'

theorem Leads.append {N : ℕ} {E F : List (ShardEvent S)} {T T' T'' : Finset ℕ} (hE : Leads N T E T')
    (hF : Leads N T' F T'') :
    Leads N T (E ++ F) T'' := by
  induction E generalizing T with
  | nil =>
    cases hE
    exact hF
  | cons e E ih => exact ⟨hE.1, hE.2.1, ih hE.2.2⟩

namespace FastHashMonitor
variable {D : Type} {σ σ' σ'' : FastHashMonitor S D} {N i : ℕ} {l : List ℕ}

/-- The calls between two states of the controller account for the shards that are frozen. -/
def Effect (N : ℕ) (σ σ' : FastHashMonitor S D) : Prop :=
  ∃ E, σ'.calls = σ.calls ++ E ∧ Leads N σ.frozen E σ'.frozen

theorem Effect.of_eq (hcalls : σ'.calls = σ.calls) (hfrozen : σ'.frozen = σ.frozen) :
    Effect N σ σ' :=
  ⟨[], by rw [hcalls, List.append_nil], hfrozen.symm⟩

theorem Effect.trans (h : Effect N σ σ') (h' : Effect N σ' σ'') : Effect N σ σ'' := by
  obtain ⟨E, hE, hl⟩ := h
  obtain ⟨F, hF, hl'⟩ := h'
  exact ⟨E ++ F, by rw [hF, hE, List.append_assoc], hl.append hl'⟩

/-- The calls and the frozen shards are all that matters of the later state. -/
theorem Effect.congr (h : Effect N σ σ') (hcalls : σ''.calls = σ'.calls)
    (hfrozen : σ''.frozen = σ'.frozen) : Effect N σ σ'' :=
  h.trans (.of_eq hcalls hfrozen)

theorem Effect.construct_tier (σ : FastHashMonitor S D) (hi : i < N) :
    Effect N σ (σ.construct_tier i) :=
  ⟨[_], rfl, hi, rfl, rfl⟩

theorem Effect.construct_ratio (σ : FastHashMonitor S D) (hi : i < N) :
    Effect N σ (σ.construct_ratio i) :=
  ⟨[_], rfl, hi, rfl, rfl⟩

theorem Effect.deconstruct (σ : FastHashMonitor S D) (hi : i < N) : Effect N σ (σ.deconstruct i) :=
  ⟨[_], rfl, hi, rfl, rfl⟩

theorem Effect.get_curve {points : List (CurvePoint S D)} (hN : 0 < N)
    (h : σ.get_curve points = .ok σ') : Effect N σ σ' := by
  obtain ⟨-, -, h⟩ := bind_eq_ok.mp h
  cases h
  exact ⟨[_], rfl, hN, rfl, rfl⟩

/-! ### The loops -/

theorem Effect.foldl {f : FastHashMonitor S D → ℕ → FastHashMonitor S D}
    (hf : ∀ σ, ∀ i < N, Effect N σ (f σ i)) :
    ∀ (l : List ℕ) (σ : FastHashMonitor S D), (∀ i ∈ l, i < N) → Effect N σ (l.foldl f σ)
  | [], _, _ => .of_eq rfl rfl
  | i :: l, σ, hl => (hf σ i (hl i (by simp))).trans (Effect.foldl hf l (f σ i) fun j hj =>
      hl j (by simp [hj]))

theorem Effect.deconstructAll (c : MonitorConfig) (σ : FastHashMonitor S D) :
    Effect c.m_numShards σ (deconstructAll c σ) :=
  Effect.foldl (fun σ _ hi => .deconstruct σ hi) _ σ fun _ hi => List.mem_range.mp hi

/-- Going through the queue brings no id into it. -/
theorem mem_of_turn : ∀ {k : ℕ} {q q' : List ℕ}, turn k q = .ok q' → ∀ i ∈ q', i ∈ q
  | 0, _, _, h => by
    cases h
    exact fun _ hi => hi
  | _ + 1, [], _, h => by cases h
  | k + 1, j :: q, _, h => by
    intro i hi
    have := mem_of_turn (k := k) (q := q ++ [j]) h i hi
    simpa [or_comm] using this

theorem Effect.freezeLoop [One S] [Sub S] [Neg S] [OfScientific S] [LinearOrder S] :
    ∀ (k : ℕ) (σ : FastHashMonitor S D), (∀ i ∈ σ.construct_container, i < N) →
    FastHashMonitor.freezeLoop k σ = .ok σ' → Effect N σ σ' ∧ ∀ i ∈ σ'.construct_container, i < N
  | 0, σ, hq, h => by
    cases h
    exact ⟨.of_eq rfl rfl, hq⟩
  | k + 1, σ, hq, h => by
    rw [FastHashMonitor.freezeLoop] at h
    obtain ⟨i, hfront, h⟩ := bind_eq_ok.mp h
    cases hc : σ.construct_container with
    | nil =>
      rw [hc] at hfront
      cases hfront
    | cons j q =>
      rw [hc] at hfront hq
      cases hfront
      have hi : i < N := hq i (by simp)
      -- whichever call freezes the shard, the rest of the queue is the same
      obtain ⟨σ₁, hcall, heff, hq₁⟩ : ∃ σ₁,
          (if double_is_equal σ.best_size 1 then σ.construct_tier i else σ.construct_ratio i) = σ₁ ∧
            Effect N σ σ₁ ∧ σ₁.construct_container = σ.construct_container := by
        split
        · exact ⟨_, rfl, .construct_tier σ hi, rfl⟩
        · exact ⟨_, rfl, .construct_ratio σ hi, rfl⟩
      rw [hcall] at h
      dsimp only at h
      rw [hq₁, hc, List.tail_cons] at h
      have hnext : ∀ a ∈ q ++ [i], a < N := fun a ha => hq a (by simpa [or_comm] using ha)
      obtain ⟨heff', hq'⟩ := Effect.freezeLoop k _ (by exact hnext) h
      exact ⟨(heff.congr rfl rfl).trans heff', hq'⟩

section
variable [One D] [Add D] [Div D] [OfScientific D] [LT D] [DecidableLT D]

theorem Effect.checkLoop (r : Reading S D) :
    ∀ (k : ℕ) (σ : FastHashMonitor S D), (∀ i ∈ σ.construct_container, i < N) →
    FastHashMonitor.checkLoop r k σ = .ok σ' → Effect N σ σ'
  | 0, σ, _, h => by
    cases h
    exact .of_eq rfl rfl
  | k + 1, σ, hq, h => by
    rw [FastHashMonitor.checkLoop] at h
    obtain ⟨i, hfront, h⟩ := bind_eq_ok.mp h
    cases hc : σ.construct_container with
    | nil =>
      rw [hc] at hfront
      cases hfront
    | cons j q =>
      rw [hc] at hfront hq
      cases hfront
      rw [hc, List.tail_cons] at h
      dsimp only at h
      split at h
      · have hq' : ∀ a ∈ q ++ [i], a < N := fun a ha => hq a (by simpa [or_comm] using ha)
        have heff := Effect.checkLoop r k _ (by exact hq') h
        exact (Effect.deconstruct σ (hq i (by simp))).trans ((Effect.of_eq rfl rfl).trans heff)
      · have hq' : ∀ a ∈ q, a < N := fun a ha => hq a (List.mem_cons_of_mem _ ha)
        have heff := Effect.checkLoop r k _ (by exact hq') h
        exact (Effect.of_eq rfl rfl).trans heff

theorem Effect.pass [One S] [Sub S] [Neg S] [OfScientific S] [LinearOrder S] {r : Reading S D}
    (hq : ∀ i ∈ σ.construct_container, i < N) (h : FastHashMonitor.pass r σ = .ok σ') :
    Effect N σ σ' := by
  rw [FastHashMonitor.pass] at h
  split at h
  · dsimp only at h
    rw [turn_all, ok_bind] at h
    split at h
    · cases h
      exact .of_eq rfl rfl
    · obtain ⟨σ₁, hfreeze, h⟩ := bind_eq_ok.mp h
      obtain ⟨q, hturn, h⟩ := bind_eq_ok.mp h
      obtain ⟨σ₂, hcheck, h⟩ := bind_eq_ok.mp h
      cases h
      obtain ⟨heff₁, hq₁⟩ := Effect.freezeLoop _ _ hq hfreeze
      exact (heff₁.congr rfl rfl).trans
        ((Effect.checkLoop r _ _ (fun i hi => hq₁ i (mem_of_turn hturn i hi)) hcheck).congr rfl rfl)
  · cases h
    exact .of_eq rfl rfl

end

/-! ### A step -/

variable {c : MonitorConfig}

theorem Effect.observe [LE D] [DecidableLE D] (r : Reading S D) (σ : FastHashMonitor S D) :
    Effect N σ (FastHashMonitor.observe r σ) := by
  unfold FastHashMonitor.observe
  dsimp only
  split_ifs <;> exact .of_eq rfl rfl

theorem Effect.search [Zero S] [One S] [OfScientific S] [LinearOrder S] [One D] [Add D] [Sub D]
    [Mul D] [Div D] [NatCast D] [OfScientific D] [LT D] [DecidableLT D] (r : Reading S D)
    (σ : FastHashMonitor S D) : Effect c.m_numShards σ (FastHashMonitor.search c r σ) := by
  have hfreeze : Effect c.m_numShards σ
    ((List.range c.m_numShards).foldl FastHashMonitor.construct_tier σ) :=
    Effect.foldl (fun σ _ hi => .construct_tier σ hi) _ σ fun _ hi => List.mem_range.mp hi
  exact (hfreeze.trans (.deconstructAll c _)).congr rfl rfl

theorem Effect.refresh (hcalls : σ'.calls = σ.calls) (hfrozen : σ'.frozen = σ.frozen) :
    Effect c.m_numShards σ (FastHashMonitor.refresh c σ') :=
  (Effect.of_eq hcalls hfrozen).trans ((Effect.deconstructAll c σ').congr rfl rfl)

theorem Effect.weigh [Zero D] [Add D] [Sub D] [Mul D] [Div D] [NatCast D] [LT D] [LE D]
    [DecidableLT D] [DecidableLE D] (r : Reading S D) (σ : FastHashMonitor S D) :
    Effect c.m_numShards σ (FastHashMonitor.weigh c r σ) := by
  unfold FastHashMonitor.weigh
  dsimp only
  split_ifs
  all_goals first
    | exact .of_eq rfl rfl
    | exact .refresh rfl rfl

/-- A step of the controller. -/
theorem Effect.go [Zero S] [One S] [Sub S] [Neg S] [OfScientific S] [LinearOrder S] [Zero D] [One D]
    [Add D] [Sub D] [Mul D] [Div D] [NatCast D] [OfScientific D] [LT D] [LE D] [DecidableLT D]
    [DecidableLE D] {r : Reading S D} (hi : Inv c σ) (hN : 0 < c.m_numShards)
    (h : FastHashMonitor.go c r σ = .ok σ') :
    Effect c.m_numShards σ σ' := by
  have hphase := hi.phase
  rw [FastHashMonitor.go] at h
  cases hpc : σ.pc <;> rw [hpc] at h <;> dsimp only at h
  case observe =>
    cases h
    exact .observe r σ
  case search =>
    split at h
    · obtain ⟨σ₁, hcurve, h⟩ := bind_eq_ok.mp h
      cases h
      exact (Effect.get_curve hN hcurve).congr rfl rfl
    · cases h
      exact .of_eq rfl rfl
  case baseline =>
    split at h
    · cases h
      exact .of_eq rfl rfl
    · cases h
      exact .search r σ
  case CONSTRUCT =>
    obtain ⟨-, -, h⟩ := bind_eq_ok.mp h
    cases h
    exact .of_eq rfl rfl
  case pass =>
    simp only [Phase, hpc] at hphase
    exact .pass (fun i hi => (hphase.2.1.cover i).mpr (Or.inl hi)) h
  case sample =>
    split at h
    · cases h
      exact .of_eq rfl rfl
    · cases h
      exact .weigh r σ
  case DECONSTRUCT =>
    cases h
    exact (Effect.deconstructAll c σ).congr rfl rfl
  case choice | doze | settle | constructed | rest =>
    split at h <;> cases h <;> exact .of_eq rfl rfl
  case WAIT_STABLE | dozed | frozen | last | done =>
    cases h
    exact .of_eq rfl rfl

end FastHashMonitor
end FrozenHot
