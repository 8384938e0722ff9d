import FrozenHot.Freeze.Marker
import FrozenHot.Freeze.Thaw

/-! A shard of `LRU_FHCache` at work: read requests, deletions of keys that the fast hash does not
    answer for, freezes, thaws and curves, in any order that the controller may choose.

    What the parts before show of such calls one by one is put together here: between two calls the
    shard serves exactly what its map holds, its flags say whether it is frozen, and a thawed shard
    can be frozen or profiled. -/

namespace FrozenHot
open Schemes ListShard

variable {α : Type}

namespace ListShard
variable {τ τ' : ListShard α} {k : ℕ}

/-- The answer to a read request: the entry, or the outcome of the insertion. -/
def served (m : Finmap fun _ : ℕ => HashMapValue (Option α)) (refuse : Bool) (k : ℕ) :
    Got (Option α) :=
  match m.lookup k with
  | some e => ⟨some e.m_value, none⟩
  | none => ⟨none, some (!refuse)⟩

/-- The flags of a freeze. -/
def isFrozen (τ : ListShard α) : Bool := τ.tier_ready || τ.fast_hash_ready

/-- Between calls: nodes and entries belong together, and the fast hash answers for frozen keys,
    with what the map holds. -/
structure Serving (τ : ListShard α) : Prop where
  wired : Wired τ
  filled : Filled τ
  keeps : Keeps τ
  agrees : ∀ k v, ValidKey k → τ.m_fasthash.get k = some v →
    (τ.m_map.lookup k).map HashMapValue.m_value = some (some v)

/-- A thawed shard whose nodes and entries belong together. -/
theorem serving_of_wired (hw : Wired τ)
    (hthawed : τ.tier_ready = false ∧ τ.fast_hash_ready = false) : Serving τ := by
  obtain ⟨hF, hfast⟩ := hw.thawed hthawed.1 hthawed.2
  refine ⟨hw, ⟨hw.sound, hw.thawed, fun k e he => ?_, by simp [hF], by simp [hthawed], hw.tier, ?_⟩,
    ⟨hw.sound, hw.thawed, fun k _ hk => ?_⟩, fun k v _ hk => ?_⟩
  · have hmem := ((hw.sound.listed.keys k).mp (Finmap.mem_iff.mpr ⟨e, he⟩)).resolve_right (by simp)
    obtain ⟨x, hx, rfl⟩ := List.mem_map.mp hmem
    obtain ⟨v, hv⟩ := hw.linked x hx
    rw [he] at hv
    cases hv
    rfl
  · rw [hthawed.1]
    exact fun h => absurd h Bool.false_ne_true
  · simp [hfast] at hk
  · simp [hfast] at hk

theorem serving_init (maxSize : ℕ) :
    Serving (init maxSize : ListShard α) := serving_of_wired (wired_init maxSize) ⟨rfl, rfl⟩

/-- The map holds no key that a complete fast hash does not answer for. -/
theorem Serving.total (hs : Serving τ) (htier : τ.tier_ready = true)
    (hnone : τ.m_fasthash.get k = none) : k ∉ τ.m_map := by
  intro hm
  have hmem := ((hs.wired.sound.listed.keys k).mp hm).resolve_right (by simp)
  obtain ⟨x, hx, rfl⟩ := List.mem_map.mp hmem
  obtain ⟨hx, htomb⟩ := mem_alive.mp hx
  rw [items, hs.filled.tier_main htier, List.append_nil] at hx
  have := hs.filled.filled x hx htomb
  rw [hnone] at this
  cases this

/-- `find` answers with what the map holds. -/
theorem Serving.find_eq (hs : Serving τ) (hk : ValidKey k) (lock : Bool) :
    (τ.find lock k).1 = (τ.m_map.lookup k).map HashMapValue.m_value := by
  have hslow := findSlow_fst τ lock k
  unfold find
  split
  · split
    · rename_i v hv
      exact (hs.agrees k v hk hv).symm
    · rename_i hnone
      split
      · -- frozen as a whole: the fast hash answers for every key
        rename_i htier
        rw [eq_comm, Option.map_eq_none_iff, Finmap.lookup_eq_none]
        exact hs.total htier hnone
      · exact hslow
  · exact hslow

theorem Serving.find (hs : Serving τ) (ho : Own τ) (lock : Bool) (k : ℕ) :
    Serving (τ.find lock k).2 := by
  refine ⟨hs.wired.find ho lock k, hs.filled.find ho lock k, hs.keeps.find ho lock k, ?_⟩
  rw [find_core]
  exact hs.agrees

/-- `insert` of a key that is not there. -/
theorem Serving.insert {v : α} (hs : Serving τ) (hk : ValidKey k) (hm : k ∉ τ.m_map) :
    ∃ τ', τ.insert k (some v) = some (!τ.tier_no_insert, τ') ∧ Serving τ' ∧
    τ'.isFrozen = τ.isFrozen := by
  rcases hs.wired.sound.insert_cases hk (some v)
    with ⟨hno, h⟩ | ⟨-, hm', -⟩ | ⟨hno, -, τ', h, hsh, hsound⟩
  · exact ⟨τ, by rw [h, hno]; rfl, hs, rfl⟩
  · exact absurd hm' hm
  · refine ⟨τ', by rw [h, hno]; rfl, ⟨hs.wired.insert hk (Or.inr hm) h, hs.filled.insert hk rfl h,
      hs.keeps.insert hk h, fun k' w hk' hw => ?_⟩, ?_⟩
    · -- what the fast hash answers for is frozen, so that no eviction took it
      rw [hsh.fasthash] at hw
      have hold := hs.agrees k' w hk' hw
      have hF : k' ∈ τ.frozen.map Item.key := hs.keeps.covered k' hk' (by
        have : τ.m_fasthash.get k' = some w := hw
        rw [this]; rfl)
      obtain ⟨x, hx, rfl⟩ := List.mem_map.mp hF
      have hmem : x.key ∈ τ'.m_map := by
        refine hsound.listed.mem (mem_alive.mpr ⟨List.mem_append_left _ ?_, hk'.ne_tomb⟩)
        rw [hsh.frozen]
        exact hx
      obtain ⟨e, he⟩ := Finmap.mem_iff.mp hmem
      have hne : x.key ≠ k := fun heq => by
        rw [heq, Finmap.lookup_eq_none.mpr hm] at hold
        cases hold
      have he' := hsh.sub he
      rw [show (τ.linked k (some v)).m_map.lookup x.key = τ.m_map.lookup x.key
        from Finmap.lookup_insert_of_ne _ hne] at he'
      rw [he, ← hold, he']
    · rw [isFrozen, isFrozen, hsh.modes.1, hsh.modes.2.2]
      rfl

/-- A read request is answered with what the map holds. -/
theorem Serving.get (hs : Serving τ) (ho : Own τ) (hk : ValidKey k) (lock : Bool) (v : α) :
    ∃ τ', τ.get lock k (some v) = some (served τ.m_map τ.tier_no_insert k, τ') ∧ Serving τ' ∧
    τ'.isFrozen = τ.isFrozen := by
  have hfind := hs.find_eq hk lock
  have hcore := find_core τ lock k
  unfold ListShard.get served
  cases hl : τ.m_map.lookup k with
  | some e =>
    rw [hl, Option.map_some] at hfind
    rw [hfind]
    exact ⟨_, rfl, hs.find ho lock k, by rw [isFrozen, isFrozen, hcore]⟩
  | none =>
    rw [hl, Option.map_none] at hfind
    have hm : k ∉ (τ.find lock k).2.m_map := by
      rw [hcore]
      exact Finmap.lookup_eq_none.mp hl
    obtain ⟨τ', hins, hs', hfr⟩ := (hs.find ho lock k).insert (v := v) hk hm
    rw [hfind]
    refine ⟨τ', ?_, hs', ?_⟩
    · dsimp only
      rw [hins, hcore]
      rfl
    · rw [hfr, isFrozen, isFrozen, hcore]

theorem Serving.delete_key (hs : Serving τ) (ho : Own τ)
    (hf : k ∈ τ.m_map → τ.frozenHit k = false) :
    Serving (τ.delete_key k) ∧ (τ.delete_key k).isFrozen = τ.isFrozen := by
  have hw := hs.wired.delete_key ho k
  have hkeeps := hs.keeps.delete_key ho hf
  have hfilled : Filled (τ.delete_key k) := hs.filled.delete_key ho fun h e he => by
    rw [hf (Finmap.mem_iff.mpr ⟨e, he⟩)] at h
    cases h
  rcases ListShard.delete_cases hs.wired.sound.idle k with ⟨h, -⟩ | ⟨e, he, ⟨h, -⟩ | ⟨hf', -, h⟩⟩
  · rw [h]
    exact ⟨hs, rfl⟩
  · rw [hf (Finmap.mem_iff.mpr ⟨e, he⟩)] at h
    cases h
  · rw [h] at hw hkeeps hfilled ⊢
    refine ⟨⟨hw, hfilled, hkeeps, fun k' w hk' hw' => ?_⟩, rfl⟩
    have hne : k' ≠ k := by
      rintro rfl
      have hnone := hs.keeps.thawed.get_none hf'
      rw [show τ.m_fasthash.get k' = some w from hw'] at hnone
      cases hnone
    show ((τ.m_map.erase k).lookup k').map _ = _
    rw [Finmap.lookup_erase_ne hne]
    exact hs.agrees k' w hk' hw'

/-- The fast hash after a freeze holds entries of the map. -/
theorem Serving.agrees_copy (hs : Serving τ) (hfast : τ.m_fasthash = ∅) {K : List Item}
    (hK : ∀ x ∈ K, x ∈ τ.items) {v : α} (hk : ValidKey k)
    (hv : (copy τ.m_map τ.m_fasthash (alive K)).get k = some v) :
    (τ.m_map.lookup k).map HashMapValue.m_value = some (some v) := by
  rw [FastHash.get_valid hk, ListShard.lookup_copy (hs.wired.sound.copied hK), hfast,
    Finmap.lookup_empty, Option.none_or] at hv
  split at hv
  · cases hl : τ.m_map.lookup k with
    | none => simp [hl] at hv
    | some e =>
      rw [hl, Option.map_some, Option.join_some] at hv
      rw [Option.map_some, hv]
  · cases hv

/-- A thawed shard that holds a key is frozen as a whole. -/
theorem Serving.construct_tier (hs : Serving τ) (hfr : τ.isFrozen = false) (hm : τ.m_map ≠ ∅) :
    ∃ τ', τ.construct_tier = some τ' ∧ Serving τ' ∧ τ'.isFrozen = true := by
  obtain ⟨htier, hready⟩ := Bool.or_eq_false_iff.mp hfr
  obtain ⟨hF, hfast⟩ := hs.wired.thawed htier hready
  have heq := hs.wired.sound.construct_tier_eq hF
  refine ⟨_, heq, ⟨?_, hs.filled.construct_tier hm heq, hs.keeps.construct_tier heq,
    fun k v hk hv => ?_⟩, rfl⟩
  · refine ⟨hs.wired.sound.construct_tier heq, (fun h => by cases h),
      fun x hx => hs.wired.linked x ?_, rfl⟩
    simpa [items, hF, alive_alive] using hx
  · exact hs.agrees_copy hfast (fun x hx => List.mem_append_right _ hx) hk hv

/-- A freeze of a part that returns. -/
theorem Serving.construct_ratio {FC_size : ℕ} (hs : Serving τ)
    (h : τ.construct_ratio FC_size = some τ') :
    Serving τ' ∧ τ'.isFrozen = true := by
  have hkeeps := hs.keeps.construct_ratio h
  have hfilled := hs.filled.construct_ratio h
  obtain ⟨P, B, hF, hP, -, -, -, rfl⟩ := hs.wired.sound.construct_ratio_cases h
  obtain ⟨-, -, hfast⟩ := hs.filled.thawed_of_nil hF
  refine ⟨⟨⟨hkeeps.sound, hkeeps.thawed, fun x hx => hs.wired.linked x ?_, hs.wired.tier⟩, hfilled,
    hkeeps, fun k v hk hv => hs.agrees_copy hfast (fun x hx => ?_) hk hv⟩, Bool.or_true _⟩
  · simpa [items, hF, hP, alive_alive] using hx
  · rw [items, hP]
    simp [hx]

theorem Serving.deconstruct (hs : Serving τ) :
    Serving τ.deconstruct ∧ τ.deconstruct.isFrozen = false := by
  by_cases hF : τ.frozen = []
  · obtain ⟨htier, hready, -⟩ := hs.filled.thawed_of_nil hF
    rw [ListShard.deconstruct, if_pos hF]
    exact ⟨hs, by rw [isFrozen, htier, hready]; rfl⟩
  · have hkeeps := hs.keeps.deconstruct
    have heq : τ.deconstruct.tier_ready = false ∧ τ.deconstruct.fast_hash_ready = false := by
      rw [ListShard.deconstruct, if_neg hF]
      exact ⟨rfl, rfl⟩
    refine ⟨serving_of_wired ⟨hkeeps.sound, hkeeps.thawed, fun x hx => ?_,
      ?_⟩ heq, by rw [isFrozen, heq.1, heq.2]; rfl⟩
    · rw [ListShard.deconstruct, if_neg hF] at hx ⊢
      exact hs.wired.linked x (by simpa [items] using hx)
    · rw [hs.filled.deconstruct.tier]

end ListShard

namespace Shard
variable {σ σ' : Shard α} {k : ℕ}

/-- The flags of a freeze. -/
def isFrozen (σ : Shard α) : Bool := σ.tier_ready || σ.fast_hash_ready

/-- Between calls, with no curve being taken. -/
structure Resting (σ : Shard α) : Prop where
  serving : ∃ τ, Rep none σ τ ∧ Serving τ
  ends : Ends (Before σ.clock) σ.heap
  still : σ.movement_counter = 0

theorem resting_init (maxSize : ℕ) : Resting (init maxSize : Shard α) :=
  ⟨⟨_, rep_init maxSize, serving_init maxSize⟩, Ends.init maxSize, rfl⟩

theorem Resting.idle (hr : Resting σ) : Idle σ := by
  obtain ⟨τ, hrep, hs⟩ := hr.serving
  exact ⟨⟨τ, hrep, hs.wired⟩, hr.ends, hr.still⟩

theorem Rep.isFrozen {τ : ListShard α} {s : Option Ptr} (hr : Rep s σ τ) :
    σ.isFrozen = τ.isFrozen := by
  rw [Shard.isFrozen, hr.core]
  rfl

/-- A call that is known over the lists. -/
theorem Resting.call {τ τ' : ListShard α} {c : Bool × FHCall α} {o : FHResp α} (hr : Resting σ)
    (hrep : Rep none σ τ) (hvalid : c.2.Valid) (h : τ.call c = some (o, τ')) (hs : Serving τ') :
    ∃ σ', LRU_FHCache.call σ c = .ok (o, σ') ∧ Resting σ' ∧ σ'.isFrozen = τ'.isFrozen := by
  obtain ⟨σ', hcall, hrep'⟩ := hrep.call hvalid h
  refine ⟨σ', hcall, ⟨⟨τ', hrep', hs⟩, hr.ends.call (κ := .LRU_FH) hrep hvalid hcall, ?_⟩,
    hrep'.isFrozen⟩
  rw [hrep'.core, (call_counters h).2, ← hrep.core]
  exact hr.still

theorem Resting.get (hr : Resting σ) (hk : ValidKey k) (lock : Bool) (v : α) :
    ∃ σ', LRU_FHCache.call σ (lock, .get k v) = .ok (.got (served σ.m_map σ.tier_no_insert k), σ') ∧
      Resting σ' ∧
      σ'.isFrozen = σ.isFrozen := by
  obtain ⟨τ, hrep, hs⟩ := hr.serving
  obtain ⟨τ', hget, hs', hfr⟩ := hs.get (own_of_rep hrep) hk lock v
  obtain ⟨σ', hcall, hr', hfr'⟩ :=
    hr.call (c := (lock, .get k v)) hrep hk (by simp only [ListShard.call, hget]; rfl) hs'
  exact ⟨σ', by rw [hcall, hrep.core], hr', by rw [hfr', hfr, hrep.isFrozen]⟩

theorem Resting.delete_key (hr : Resting σ) (hk : ValidKey k)
    (hf : k ∈ σ.m_map → σ.frozenHit k = false) (lock : Bool) :
    ∃ σ', LRU_FHCache.call σ (lock, .delete_key k) = .ok (.done, σ') ∧ Resting σ' ∧
    σ'.isFrozen = σ.isFrozen := by
  obtain ⟨τ, hrep, hs⟩ := hr.serving
  rw [hrep.core] at hf
  obtain ⟨hs', hfr⟩ := hs.delete_key (own_of_rep hrep) hf
  obtain ⟨σ', hcall, hr', hfr'⟩ := hr.call (c := (lock, .delete_key k)) hrep hk rfl hs'
  exact ⟨σ', hcall, hr', by rw [hfr', hfr, hrep.isFrozen]⟩

theorem Resting.construct_tier (hr : Resting σ) (hfr : σ.isFrozen = false) (hm : σ.m_map ≠ ∅)
    (lock : Bool) :
    ∃ σ', LRU_FHCache.call σ (lock, .construct_tier) = .ok (.done, σ') ∧ Resting σ' ∧
    σ'.isFrozen = true := by
  obtain ⟨τ, hrep, hs⟩ := hr.serving
  rw [hrep.isFrozen] at hfr
  rw [hrep.core] at hm
  obtain ⟨τ', heq, hs', hfr'⟩ := hs.construct_tier hfr hm
  obtain ⟨σ', hcall, hr', h⟩ := hr.call (c := (lock, .construct_tier)) hrep trivial
    (by simp only [ListShard.call, heq]; rfl) hs'
  exact ⟨σ', hcall, hr', h.trans hfr'⟩

theorem Resting.construct_ratio {FC_size : ℕ} {o : FHResp α} {lock : Bool} (hr : Resting σ)
    (hcall : LRU_FHCache.call σ (lock, .construct_ratio FC_size) = .ok (o, σ')) :
    Resting σ' ∧ σ'.isFrozen = true := by
  obtain ⟨τ, hrep, hs⟩ := hr.serving
  obtain ⟨τ', hτ, hrep'⟩ := hrep.call_ok (κ := .LRU_FH) (c := (lock, .construct_ratio FC_size))
    trivial hcall
  obtain ⟨τ₁, heq, h⟩ := Option.map_eq_some_iff.mp hτ
  cases h
  obtain ⟨hs', hfr⟩ := hs.construct_ratio heq
  obtain ⟨σ₁, hcall', hr', hfr'⟩ :=
    hr.call (c := (lock, .construct_ratio FC_size)) hrep trivial hτ hs'
  obtain ⟨-, rfl⟩ := Prod.mk.inj (Except.ok.inj (hcall.symm.trans hcall'))
  exact ⟨hr', hfr'.trans hfr⟩

theorem Resting.deconstruct (hr : Resting σ) (lock : Bool) :
    ∃ σ', LRU_FHCache.call σ (lock, .deconstruct) = .ok (.done, σ') ∧ Resting σ' ∧
    σ'.isFrozen = false := by
  obtain ⟨τ, hrep, hs⟩ := hr.serving
  obtain ⟨hs', hfr⟩ := hs.deconstruct
  obtain ⟨σ', hcall, hr', h⟩ := hr.call (c := (lock, .deconstruct)) hrep trivial rfl hs'
  exact ⟨σ', hcall, hr', h.trans hfr⟩

/-! ### Curves -/

/-- A curve is being taken. -/
def Measuring (σ : Shard α) : Prop := ∃ τ A B, Profiled σ τ A B

theorem Measuring.curve_flag (hm : Measuring σ) : σ.curve_flag = true := by
  obtain ⟨_, _, _, hp⟩ := hm
  exact hp.curve

theorem Measuring.isFrozen (hm : Measuring σ) : σ.isFrozen = false := by
  obtain ⟨τ, A, B, hp⟩ := hm
  obtain ⟨h1, h2, -⟩ := hp.curved.flat.flags
  rw [Shard.isFrozen, hp.rep.field Core.tier_ready fun _ _ => rfl,
    hp.rep.field Core.fast_hash_ready fun _ _ => rfl, h1, h2]
  rfl

theorem Resting.begin (hr : Resting σ) (hfr : σ.isFrozen = false) :
    ∃ σ', σ.beginCurve = .ok σ' ∧ Measuring σ' := by
  obtain ⟨σ', τ', L, hb, hp, -⟩ := hr.idle.begin (Bool.or_eq_false_iff.mp hfr)
  exact ⟨σ', hb, τ', [], L, hp⟩

/-- A read request during a curve is answered in the same way. -/
theorem Measuring.get (hm : Measuring σ) (hk : ValidKey k) (lock : Bool) (v : α)
    (hspare : SparesMarker σ (.call (lock, .get k v))) :
    ∃ σ', LRU_FHCache.call σ (lock, .get k v) = .ok (.got (served σ.m_map σ.tier_no_insert k), σ') ∧
    Measuring σ' := by
  obtain ⟨τ, A, B, hp⟩ := hm
  have hno : σ.tier_no_insert = false :=
    (hp.rep.field Core.tier_no_insert fun _ _ => rfl).trans hp.curved.flat.flags.2.2.1
  unfold served
  cases hl : σ.m_map.lookup k with
  | some e =>
    obtain ⟨w, σ', τ', A', B', hcall, hp', -⟩ := hp.get_hit lock (Finmap.mem_iff.mpr ⟨e, hl⟩) v
    refine ⟨σ', ?_, τ', A', B', hp'⟩
    -- the value is that of the entry
    have hfind := hp.find_eq lock k
    rw [hl] at hfind
    simp only [LRU_FHCache.call, Client.get, LRU_FHCache.find, hfind] at hcall ⊢
    cases hc : findCurve σ e.m_listNode with
    | error f =>
      rw [hc] at hcall
      cases hcall
    | ok σ₁ =>
      rw [hc] at hcall
      cases hcall
      rfl
  | none =>
    have hm := Finmap.lookup_eq_none.mp hl
    obtain ⟨σ', τ', B', hcall, hp', -⟩ := hp.get_miss lock hk hm v fun hfull =>
      hp.spares_iff.mp (hspare hp.curve hm hfull)
    exact ⟨σ', by rw [hcall, hno]; rfl, τ', A, B', hp'⟩

theorem Measuring.finish (hm : Measuring σ) :
    ∃ σ', σ.endCurve = .ok σ' ∧ Resting σ' ∧ σ'.isFrozen = false := by
  have hfr := hm.isFrozen
  obtain ⟨τ, A, B, hp⟩ := hm
  obtain ⟨σ', hend, hidle, -⟩ := hp.finish
  have hflags : σ'.isFrozen = false := by
    obtain ⟨h, hdel, heq⟩ := bind_eq_ok.mp hend
    cases heq
    exact hfr
  obtain ⟨τ', hrep, hw⟩ := hidle.wired
  rw [hrep.isFrozen] at hflags
  exact ⟨σ', hend, ⟨⟨τ', hrep, serving_of_wired hw (Bool.or_eq_false_iff.mp hflags)⟩, hidle.ends,
    hidle.still⟩, hrep.isFrozen.trans hflags⟩

end Shard
end FrozenHot
