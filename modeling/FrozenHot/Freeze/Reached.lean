import FrozenHot.Freeze.Modes
import FrozenHot.Freeze.Ends

/-! What holds of every shard that calls with valid keys can reach: it is what its lists say,
    nothing is left of a freeze once it is thawed, and its heap has proper ends and no stamp from
    the future. -/

namespace FrozenHot
open Schemes ListShard

variable {α : Type}

namespace ListShard
variable {τ τ' : ListShard α} {k : ℕ}

/-! ### Thawed shards, whatever was done to them -/

theorem Thawed.congr (ht : Thawed τ) (h1 : τ'.tier_ready = τ.tier_ready)
    (h2 : τ'.fast_hash_ready = τ.fast_hash_ready) (hF : τ.frozen = [] → τ'.frozen = [])
    (hf : τ'.m_fasthash = τ.m_fasthash) : Thawed τ' := by
  intro ht' hr'
  obtain ⟨h3, h4⟩ := ht (h1 ▸ ht') (h2 ▸ hr')
  exact ⟨hF h3, hf.trans h4⟩

theorem Thawed.find (ht : Thawed τ) (lock : Bool) (k : ℕ) : Thawed (τ.find lock k).2 := by
  have hc := find_core τ lock k
  have hF : τ.frozen = [] → (τ.find lock k).2.frozen = [] := by
    intro hF
    rcases find_moves τ lock k with h | ⟨e, x, -, -, -, h⟩
    · rw [h]; exact hF
    · rw [h]; simp [hF, ListShard.detach]
  exact ht.congr (by rw [hc]) (by rw [hc]) hF (by rw [hc])

/-- An eviction touches the main list only. -/
theorem evict_keeps {held : Option ℕ} {r : Bool × ListShard α} (h : τ.evict held = some r) :
    r.2.frozen = τ.frozen ∧ r.2.m_fasthash = τ.m_fasthash ∧ r.2.tier_ready = τ.tier_ready ∧
      r.2.fast_hash_ready = τ.fast_hash_ready ∧ r.2.clock = τ.clock ∧
      r.2.movement_counter = τ.movement_counter := by
  rcases evict_cases h with ⟨-, rfl⟩ | ⟨A, x, -, -, -, rfl⟩ | ⟨A, x, -, -, rfl⟩ <;>
    exact ⟨rfl, rfl, rfl, rfl, rfl, rfl⟩

theorem Thawed.evict {held : Option ℕ} {r : Bool × ListShard α} (ht : Thawed τ)
    (h : τ.evict held = some r) :
    Thawed r.2 := by
  obtain ⟨hF, hf, h1, h2, -⟩ := evict_keeps h
  exact ht.congr h1 h2 hF.trans hf

theorem Thawed.correct {s : ℕ} (ht : Thawed τ) (h : τ.correct s = some τ') : Thawed τ' := by
  unfold ListShard.correct at h
  split at h
  · obtain ⟨r, hr, rfl⟩ := Option.map_eq_some_iff.mp h
    have := ht.evict hr
    split <;> exact this
  · cases h
    exact ht

theorem Thawed.settle {s : ℕ} {d : Bool} (ht : Thawed τ) (h : τ.settle s d = some τ') :
    Thawed τ' := by
  refine Thawed.correct ?_ h
  unfold count
  split <;> exact ht

theorem Thawed.insert {v : Option α} {r : Bool × ListShard α} (ht : Thawed τ)
    (h : τ.insert k v = some r) :
    Thawed r.2 := by
  unfold ListShard.insert at h
  split at h
  · cases h; exact ht
  · split at h
    · cases h; exact ht
    · obtain ⟨e, he, h⟩ := Option.bind_eq_some_iff.mp h
      obtain ⟨τ₁, h1, h⟩ := Option.bind_eq_some_iff.mp h
      cases h
      have hroom : Thawed e.2 := by
        unfold makeRoom at he
        split at he
        · exact Thawed.evict (τ := τ.place k v) ht he
        · cases he; exact ht
      refine Thawed.settle ?_ h1
      exact hroom

theorem Thawed.delete_key (ht : Thawed τ) (k : ℕ) : Thawed (τ.delete_key k) := by
  unfold ListShard.delete_key
  split
  · exact ht
  · dsimp only
    split_ifs
    · exact ht.congr rfl rfl (fun hF => by simp [hF, ListShard.bury]) rfl
    · exact ht.congr rfl rfl (fun hF => by simp [hF, ListShard.detach]) rfl
    · exact ht

/-- Every call keeps it. -/
theorem Thawed.call {c : Bool × FHCall α} {o : FHResp α} (ht : Thawed τ)
    (h : τ.call c = some (o, τ')) : Thawed τ' := by
  obtain ⟨lock, c⟩ := c
  cases c with
  | find k => cases h; exact ht.find lock k
  | insert k v =>
    obtain ⟨r, hr, h⟩ := Option.map_eq_some_iff.mp h
    cases h
    exact ht.insert hr
  | get k v =>
    obtain ⟨r, hr, h⟩ := Option.map_eq_some_iff.mp h
    cases h
    unfold ListShard.get at hr
    split at hr
    · cases hr; exact ht.find lock k
    · obtain ⟨i, hi, rfl⟩ := Option.map_eq_some_iff.mp hr
      exact (ht.find lock k).insert hi
  | delete_key k => cases h; exact ht.delete_key k
  | construct_tier =>
    obtain ⟨τ₁, h1, h⟩ := Option.map_eq_some_iff.mp h
    cases h
    unfold construct_tier at h1
    split at h1
    · cases h1
      intro h
      cases h
    · cases h1
  | construct_ratio FC_size =>
    obtain ⟨τ₁, h1, h⟩ := Option.map_eq_some_iff.mp h
    cases h
    unfold construct_ratio at h1
    split at h1
    · cases h1
    · split at h1
      · obtain ⟨r, -, rfl⟩ := Option.map_eq_some_iff.mp h1
        intro _ h
        cases h
      · cases h1
  | deconstruct =>
    cases h
    unfold deconstruct
    split
    · exact ht
    · exact fun _ _ => ⟨rfl, rfl⟩

/-! ### The clock and the counter of a curve -/

theorem settle_counters {s : ℕ} {d : Bool} (h : τ.settle s d = some τ') :
    τ'.clock = τ.clock ∧ τ'.movement_counter = τ.movement_counter := by
  have hcount : (τ.count d).clock = τ.clock ∧ (τ.count d).movement_counter =
      τ.movement_counter := by
    unfold count
    split <;> exact ⟨rfl, rfl⟩
  rw [settle, correct] at h
  by_cases hover : (if d = true then s else τ.m_size) > (τ.count d).m_maxSize
  · rw [if_pos hover] at h
    obtain ⟨r, hr, rfl⟩ := Option.map_eq_some_iff.mp h
    obtain ⟨-, -, -, -, hclock, hmoved⟩ := evict_keeps hr
    split <;> exact ⟨hclock.trans hcount.1, hmoved.trans hcount.2⟩
  · rw [if_neg hover] at h
    cases h
    exact hcount

/-- An insertion that is not refused reads the clock. -/
theorem insert_counters {v : Option α} {r : Bool × ListShard α} (h : τ.insert k v = some r) :
    r.2.clock = (if τ.tier_no_insert then τ.clock else τ.clock + 1) ∧
    r.2.movement_counter = τ.movement_counter := by
  unfold ListShard.insert at h
  split at h
  · rename_i ht
    cases h
    exact ⟨(if_pos ht).symm, rfl⟩
  · rename_i ht
    rw [if_neg ht]
    split at h
    · cases h; exact ⟨rfl, rfl⟩
    · obtain ⟨e, he, h⟩ := Option.bind_eq_some_iff.mp h
      obtain ⟨τ₁, h1, h⟩ := Option.bind_eq_some_iff.mp h
      cases h
      have hroom : e.2.clock = τ.clock + 1 ∧ e.2.movement_counter = τ.movement_counter := by
        unfold makeRoom at he
        split at he
        · exact (evict_keeps he).2.2.2.2
        · cases he; exact ⟨rfl, rfl⟩
      obtain ⟨hclock, hmoved⟩ := settle_counters h1
      exact ⟨hclock.trans hroom.1, hmoved.trans hroom.2⟩

/-- No call turns the clock back, or counts a movement. -/
theorem call_counters {c : Bool × FHCall α} {o : FHResp α} (h : τ.call c = some (o, τ')) :
    τ.clock ≤ τ'.clock ∧ τ'.movement_counter = τ.movement_counter := by
  obtain ⟨lock, c⟩ := c
  have hfind : ∀ k, (τ.find lock k).2.toCore = τ.toCore := fun k => find_core τ lock k
  have hinsert : ∀ {τ : ListShard α} {k v r}, τ.insert k v = some r →
      τ.clock ≤ r.2.clock ∧ r.2.movement_counter = τ.movement_counter := by
    intro τ k v r hr
    obtain ⟨hclock, hmoved⟩ := insert_counters hr
    refine ⟨?_, hmoved⟩
    rw [hclock]
    split <;> omega
  cases c with
  | find k => cases h; rw [hfind]; exact ⟨le_rfl, rfl⟩
  | insert k v =>
    obtain ⟨r, hr, h⟩ := Option.map_eq_some_iff.mp h
    cases h
    exact hinsert hr
  | get k v =>
    obtain ⟨r, hr, h⟩ := Option.map_eq_some_iff.mp h
    cases h
    unfold ListShard.get at hr
    split at hr
    · cases hr; rw [hfind]; exact ⟨le_rfl, rfl⟩
    · obtain ⟨i, hi, rfl⟩ := Option.map_eq_some_iff.mp hr
      have := hinsert hi
      rwa [hfind] at this
  | delete_key k =>
    cases h
    unfold ListShard.delete_key
    split
    · exact ⟨le_rfl, rfl⟩
    · dsimp only
      split_ifs <;> exact ⟨le_rfl, rfl⟩
  | construct_tier =>
    obtain ⟨τ₁, h1, h⟩ := Option.map_eq_some_iff.mp h
    cases h
    unfold construct_tier at h1
    split at h1 <;> cases h1
    exact ⟨le_rfl, rfl⟩
  | construct_ratio FC_size =>
    obtain ⟨τ₁, h1, h⟩ := Option.map_eq_some_iff.mp h
    cases h
    unfold construct_ratio at h1
    split at h1
    · cases h1
    · split at h1
      · obtain ⟨r, -, rfl⟩ := Option.map_eq_some_iff.mp h1
        exact ⟨le_rfl, rfl⟩
      · cases h1
  | deconstruct =>
    cases h
    unfold deconstruct
    split <;> exact ⟨le_rfl, rfl⟩

end ListShard

namespace Shard
variable {σ σ' : Shard α} {τ : ListShard α}

/-! ### Reachable shards -/

/-- Every call keeps the ends, and stamps new nodes by the clock. -/
theorem Ends.call {κ : FHList} {c : Bool × FHCall α} {o : FHResp α}
    (he : Ends (Before σ.clock) σ.heap) (hr : Rep none σ τ) (hvalid : c.2.Valid)
    (hs : κ.call σ c = .ok (o, σ')) : Ends (Before σ'.clock) σ'.heap := by
  obtain ⟨τ', hτ, hr'⟩ := hr.call_ok hvalid hs
  have hcore := hr.core
  have hcur : σ.curve_flag = false := (congrArg Core.curve_flag hcore).trans hr.no_curve
  have hnode : ∀ k e, σ.m_map.lookup k = some e → e.m_listNode.IsNode := by
    intro k e hl
    rw [congrArg Core.m_map hcore] at hl
    exact (hr.holds.entry k e hl).node
  have hclock : σ.clock ≤ σ'.clock := by
    rw [hcore, hr'.core]
    exact (call_counters hτ).1
  have he' := he.later hclock
  rw [κ.call_eq] at hs
  obtain ⟨lock, c⟩ := c
  cases c with
  | find k =>
    obtain ⟨r, h1, hs⟩ := bind_eq_ok.mp hs
    cases hs
    exact he'.find hcur hnode h1
  | insert k v =>
    obtain ⟨r, h1, hs⟩ := bind_eq_ok.mp hs
    cases hs
    refine he'.insert hcur (fun hno _ => ?_) h1
    obtain ⟨i, hi, h⟩ := Option.map_eq_some_iff.mp hτ
    obtain rfl : i.2 = τ' := congrArg Prod.snd h
    rw [hr'.core, (insert_counters hi).1, ← hcore, hno]
    exact Nat.lt_succ_self _
  | get k v =>
    obtain ⟨r, h1, hs⟩ := bind_eq_ok.mp hs
    cases hs
    unfold Client.get at h1
    obtain ⟨f, h2, h1⟩ := bind_eq_ok.mp h1
    have he₁ := he'.find hcur hnode h2
    obtain ⟨σ₁, hf, hr₁⟩ := hr.find (κ.promotes lock) k
    obtain rfl := Except.ok.inj (h2.symm.trans hf)
    -- the insertion of a miss finds no curve being taken either
    have hcur₁ : σ₁.curve_flag = false := (congrArg Core.curve_flag hr₁.core).trans hr₁.no_curve
    split at h1
    · cases h1
      exact he₁
    · rename_i hmiss
      obtain ⟨i, h3, h1⟩ := bind_eq_ok.mp h1
      cases h1
      refine he₁.insert hcur₁ (fun hno _ => ?_) h3
      obtain ⟨g, hg, h⟩ := Option.map_eq_some_iff.mp hτ
      obtain rfl : g.2 = τ' := congrArg Prod.snd h
      unfold ListShard.get at hg
      rw [show (ListShard.find (κ.promotes lock) τ k).1 = none from hmiss] at hg
      obtain ⟨j, hj, rfl⟩ := Option.map_eq_some_iff.mp hg
      rw [hr'.core, (insert_counters hj).1, ← hr₁.core, hno]
      exact Nat.lt_succ_self _
  | delete_key k =>
    obtain ⟨r, h1, hs⟩ := bind_eq_ok.mp hs
    cases hs
    exact he'.delete_key h1
  | construct_tier =>
    obtain ⟨r, h1, hs⟩ := bind_eq_ok.mp hs
    cases hs
    exact he'.construct_tier h1
  | construct_ratio FC_size =>
    obtain ⟨r, h1, hs⟩ := bind_eq_ok.mp hs
    cases hs
    exact he'.construct_ratio h1
  | deconstruct =>
    obtain ⟨r, h1, hs⟩ := bind_eq_ok.mp hs
    cases hs
    exact he'.deconstruct h1

/-- A shard reached by calls with valid keys. -/
theorem reached {κ : FHList} {maxSize : ℕ} {hist : List ((Bool × FHCall α) × FHResp α)}
    (hrun : Run κ.call (fun _ c => c.2.Valid) (Shard.init maxSize) hist σ) :
    ∃ τ, Rep none σ τ ∧ Thawed τ ∧ Ends (Before σ.clock) σ.heap := by
  refine hrun.invariant (fun σ => ∃ τ, Rep none σ τ ∧ Thawed τ ∧ Ends (Before σ.clock) σ.heap)
    ⟨_, rep_init maxSize, fun _ _ => ⟨rfl, rfl⟩, .init maxSize⟩ ?_
  rintro σ₁ c o σ₂ ⟨τ, hr, ht, he⟩ hvalid - hs
  obtain ⟨τ', hτ, hr'⟩ := hr.call_ok hvalid hs
  exact ⟨τ', hr', ht.call hτ, he.call hr hvalid hs⟩

end Shard
end FrozenHot
