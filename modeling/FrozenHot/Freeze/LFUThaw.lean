import FrozenHot.Freeze.LFUModes
import FrozenHot.Freeze.Thaw

/-! Thawing undoes a freeze of the whole shard, for `LFU_FHCache` and for all three caches.

    While everything is frozen a shard of `LFU_FHCache` does not change at all, and `deconstruct`
    puts the classes back. As with the list caches this needs a frozen class: on an empty shard
    `deconstruct` returns early and leaves the flags of the freeze set. -/

namespace FrozenHot
open Schemes

variable {α : Type}

namespace LFUShard
variable {σ σ' : LFUShard α} {F L L' : List FreClass} {c : LFUCore (Option α)}

/-- The flags tell what is frozen. -/
structure Flagged (σ : LFUShard α) (F L : List FreClass) : Prop extends Inv σ F L where
  tier : σ.tier_no_insert = σ.tier_ready
  ready : σ.tier_ready = true → σ.FH_ready = true
  flagged : σ.FH_ready = true ↔ F ≠ []
  thawed : σ.FH_ready = false → σ.m_fasthash = ∅

theorem init_flagged (capacity : ℕ) : Flagged (init capacity : LFUShard α) [] [] :=
  ⟨init_inv capacity, rfl, nofun, by simp [init], fun _ => rfl⟩

theorem Flagged.withCore (hf : Flagged σ F L) (hi : Inv { σ with toLFUCore := c } F L') :
    Flagged { σ with toLFUCore := c } F L' :=
  ⟨hi, hf.tier, hf.ready, hf.flagged, hf.thawed⟩

/-- A shard with an entry has a class. -/
theorem Inv.main_ne (hi : Inv σ [] L) (hm : σ.m_map ≠ ∅) : L ≠ [] := by
  rintro rfl
  refine hm (Finmap.ext_lookup fun k => ?_)
  rw [Finmap.lookup_empty, Finmap.lookup_eq_none, hi.mem_iff]
  simp

theorem Flagged.construct_tier (hf : Flagged σ F L) (hm : σ.m_map ≠ ∅)
    (h : σ.construct_tier = .ok σ') :
    Flagged σ' L [] := by
  obtain ⟨rfl, hi⟩ := hf.toInv.construct_tier h
  obtain ⟨h', -, hok⟩ := construct_tier_ok hf.rep
  rw [hok] at h
  cases h
  exact ⟨hi, rfl, fun _ => rfl, iff_of_true rfl (hf.main_ne hm), nofun⟩

theorem Flagged.construct_ratio {FC_size : ℕ} (hf : Flagged σ F L) (hpos : 0 < FC_size)
    (h : σ.construct_ratio FC_size = .ok σ') : ∃ C D, Flagged σ' C D := by
  obtain ⟨rfl, -, -, -, -⟩ := hf.toInv.construct_ratio h
  rcases construct_ratio_cases hf.rep FC_size with ⟨C, D, h', rfl, hC, hr', hok⟩ | ⟨e, -, -, herr⟩
  · rw [hok] at h
    cases h
    exact ⟨C, D, hf.toInv.ratio hr', hf.tier, fun _ => rfl, iff_of_true rfl (hC.ne_nil hpos), nofun⟩
  · rw [herr] at h
    cases h

theorem Flagged.deconstruct (hf : Flagged σ F L) (hlen : F.length < 2 ^ 31)
    (h : σ.deconstruct = .ok σ') :
    ∃ G, G.map (fun c => (c.node, c.ring)) = F.map (fun c => (c.node, c.ring)) ∧
    Flagged σ' [] (G ++ L) := by
  obtain ⟨σ₁, G, hok, hG, hi⟩ := hf.toInv.deconstruct hlen
  obtain rfl : σ₁ = σ' := by rw [hok] at h; exact Except.ok.inj h
  refine ⟨G, hG, ?_⟩
  by_cases hF : F = []
  · subst hF
    rw [deconstruct_nil hf.rep] at h
    cases h
    exact ⟨hi, hf.tier, hf.ready, hf.flagged, hf.thawed⟩
  · obtain ⟨h', -, hok'⟩ := deconstruct_ok hf.rep hF hlen
    rw [hok'] at h
    cases h
    refine ⟨hi, ?_, nofun, by simp, fun _ => rfl⟩
    cases ht : σ.tier_ready
    · simpa [ht] using hf.tier
    · rfl

/-- While everything is frozen `find` changes nothing. -/
theorem find_tier (h1 : σ.FH_ready = true) (h2 : σ.tier_ready = true) (h3 : σ.curve_flag = false)
    (k : ℕ) :
    σ.find k = .ok (σ.answer k, σ) := by
  rw [find_eq_of_idle h3, if_pos h1, answer, if_pos h1]
  cases σ.m_fasthash.get k with
  | some v => rfl
  | none => simp only [h2, if_true]

/-- The classes can be counted in an `int`. -/
def FewClasses (σ : LFUShard α) : Prop :=
  ∀ F L, LFUCore.Rep true σ.toLFUCore F L → (F ++ L).length < 2 ^ 31

/-- `σ` is thawed, and what `σ₀` was but for the frequencies of the classes. -/
structure Undone (σ₀ σ : LFUShard α) : Prop where
  flags : σ.tier_ready = false ∧ σ.tier_no_insert = false ∧ σ.FH_ready = false ∧
    σ.FH_construct = false
  lists : ∃ L₀ L, LFUCore.Rep true σ₀.toLFUCore [] L₀ ∧ LFUCore.Rep true σ.toLFUCore [] L ∧
    L.map (fun c => (c.node, c.ring)) = L₀.map fun c => (c.node, c.ring)
  fasthash : σ.m_fasthash = ∅
  map : σ.m_map = σ₀.m_map
  size : σ.s = σ₀.s
  accepts : ∀ k v, k ∉ σ.m_map → ∃ σ', σ.insert k v = .ok (true, σ')

end LFUShard

/-! ### Runs -/

namespace LFU_FHCache
open LFUShard

variable {σ σ' : LFUShard α} {F L : List FreClass}

/-- The calls of runs in which a thaw undoes a freeze: no null values, no freeze of nothing. -/
def Thawable (σ : LFUShard α) (c : FHCall α) : Prop :=
  c.Basic ∧ match c with
    | .insert _ v => v.isSome = true
    | .construct_tier => σ.m_map ≠ ∅
    | .construct_ratio FC_size => 0 < FC_size
    | .deconstruct => σ.FewClasses
    | _ => True

/-- One call keeps the flags right. -/
theorem flagged_call {c : FHCall α} {o : FHResp α} (hf : Flagged σ F L) (hc : Thawable σ c)
    (h : LFU_FHCache.call σ c = .ok (o, σ')) : ∃ F' L', Flagged σ' F' L' := by
  obtain ⟨hbasic, hc⟩ := hc
  cases c with
  | find k =>
    obtain ⟨r, hfind, h⟩ := bind_eq_ok.mp h
    cases h
    obtain ⟨c, L', rfl, -, hi'⟩ := hf.toInv.found hfind
    exact ⟨F, L', hf.withCore hi'⟩
  | insert k v =>
    obtain ⟨b, c, L', hins, hi'⟩ := hf.toInv.inserted k hc
    obtain ⟨r, hr, h⟩ := bind_eq_ok.mp h
    rw [hins] at hr
    cases hr
    cases h
    exact ⟨F, L', hf.withCore hi'⟩
  | get k v => exact hbasic.elim
  | delete_key k =>
    cases h
    exact ⟨F, L, hf⟩
  | construct_tier =>
    obtain ⟨τ, ht, h⟩ := bind_eq_ok.mp h
    cases h
    exact ⟨L, [], hf.construct_tier hc ht⟩
  | construct_ratio FC_size =>
    obtain ⟨τ, ht, h⟩ := bind_eq_ok.mp h
    cases h
    exact hf.construct_ratio hc ht
  | deconstruct =>
    obtain ⟨τ, ht, h⟩ := bind_eq_ok.mp h
    cases h
    have hlen := hc F L hf.rep
    rw [List.length_append] at hlen
    obtain ⟨G, -, hf'⟩ := hf.deconstruct (by omega) ht
    exact ⟨[], G ++ L, hf'⟩

theorem flagged_run {n : ℕ} {H : List (FHCall α × FHResp α)}
    (hrun : Run LFU_FHCache.call Thawable (LFUShard.init n) H σ) :
    ∃ F L, Flagged σ F L :=
  hrun.invariant (fun σ => ∃ F L, Flagged σ F L) ⟨[], [], init_flagged n⟩
      fun _ _ _ _ hi hP _ hs => by
    obtain ⟨F, L, hf⟩ := hi
    exact flagged_call hf hP hs

/-- Calls on a shard that is frozen as a whole leave it as it is. -/
theorem frozen_run {H : List (FHCall α × FHResp α)}
    (hrun : Run LFU_FHCache.call (fun _ c => c.Plain) σ H σ') (h1 : σ.FH_ready = true)
    (h2 : σ.tier_ready = true) (h3 : σ.tier_no_insert = true) (h4 : σ.curve_flag = false) :
    σ' = σ :=
  hrun.invariant (fun σ' => σ' = σ) rfl fun _ c _ _ hi hP _ hs => by
    subst hi
    cases c with
    | find k =>
      simp only [LFU_FHCache.call, find_tier h1 h2 h4, ok_bind, pure_eq_ok] at hs
      cases hs
      rfl
    | insert k v =>
      simp only [LFU_FHCache.call, insert_refused h3, ok_bind, pure_eq_ok] at hs
      cases hs
      rfl
    | delete_key k =>
      cases hs
      rfl
    | get k v => exact hP.elim
    | construct_tier => exact hP.elim
    | construct_ratio FC_size => exact hP.elim
    | deconstruct => exact hP.elim

/-- In such runs a freeze of a whole shard returns, and the next thaw undoes it. -/
theorem thaw_undoes {n : ℕ} {H₀ : List (FHCall α × FHResp α)} {σ₀ : LFUShard α}
    (h₀ : Run LFU_FHCache.call Thawable (LFUShard.init n) H₀ σ₀) (hthawed : σ₀.FH_ready = false)
    (hne : σ₀.m_map ≠ ∅) (hfew : σ₀.FewClasses) :
    ∃ σ₁, σ₀.construct_tier = .ok σ₁ ∧ ∀ H σ₂, Run LFU_FHCache.call (fun _ c => c.Plain) σ₁ H σ₂ →
      ∃ σ₃, σ₂.deconstruct = .ok σ₃ ∧ LFUShard.Undone σ₀ σ₃ := by
  obtain ⟨F, L, hf₀⟩ := flagged_run h₀
  have hF : F = [] := by
    by_contra hF
    rw [hf₀.flagged.mpr hF] at hthawed
    cases hthawed
  subst hF
  obtain ⟨h', -, hok⟩ := construct_tier_ok hf₀.rep
  have hf₁ := hf₀.construct_tier hne hok
  refine ⟨_, hok, fun H σ₂ hrun => ?_⟩
  rw [frozen_run hrun rfl rfl rfl hf₀.idle.2]
  have hlen : L.length < 2 ^ 31 := hfew [] L hf₀.rep
  obtain ⟨h'', -, hok₃⟩ := deconstruct_ok hf₁.rep (hf₀.main_ne hne) hlen
  obtain ⟨G, hG, hf₃⟩ := hf₁.deconstruct hlen hok₃
  refine ⟨_, hok₃, ⟨rfl, rfl, rfl, rfl⟩, ⟨L, G ++ [], hf₀.rep, hf₃.rep, by rwa [List.append_nil]⟩,
    rfl, rfl, rfl, fun k v hk => ?_⟩
  obtain ⟨c, L', hins, -⟩ := hf₃.toInv.insert rfl k v
  rw [decide_eq_true hk] at hins
  exact ⟨_, hins⟩

end LFU_FHCache

/-- In every run of a cache over values that are never null, that freezes no empty shard and (for
    the list caches) deletes no frozen key that was inserted again meanwhile, or (for `LFU_FHCache`)
    has fewer than `2 ^ 31` classes: a freeze of a whole shard that holds an entry returns, and
    whatever is called until then, the next thaw returns and undoes it. -/
theorem thaw_undoes_freeze :
    (∀ (κ : FHList) (maxSize : ℕ) (hist₀ : List ((Bool × FHCall α) × FHResp α)) (σ₀ : Shard α),
      Run κ.call Thawable (Shard.init maxSize) hist₀ σ₀ → σ₀.tier_ready = false ∧
      σ₀.fast_hash_ready = false →
      σ₀.m_map ≠ ∅ → ∃ σ₁, σ₀.construct_tier = .ok σ₁ ∧ ∀ hist σ₂,
        Run κ.call (fun σ c => Thawable σ c ∧ c.2.Plain) σ₁ hist σ₂ →
        ∃ σ₃, σ₂.deconstruct = .ok σ₃ ∧ Undone σ₀ (deletedKeys hist) σ₃) ∧
    ∀ (n : ℕ) (H₀ : List (FHCall α × FHResp α)) (σ₀ : LFUShard α),
      Run LFU_FHCache.call LFU_FHCache.Thawable (LFUShard.init n) H₀ σ₀ → σ₀.FH_ready = false →
      σ₀.m_map ≠ ∅ → σ₀.FewClasses → ∃ σ₁, σ₀.construct_tier = .ok σ₁ ∧ ∀ H σ₂,
        Run LFU_FHCache.call (fun _ c => c.Plain) σ₁ H σ₂ →
        ∃ σ₃, σ₂.deconstruct = .ok σ₃ ∧ LFUShard.Undone σ₀ σ₃ :=
  ⟨fun _ _ _ _ h₀ hthawed hne => list_thaw_undoes h₀ hthawed hne,
    fun _ _ _ h₀ hthawed hne hfew => LFU_FHCache.thaw_undoes h₀ hthawed hne hfew⟩

/-- One entry, and an insertion that is refused in between. -/
theorem thaw_undoes_freeze_one :
    (∃ σ₀ σ₁ σ₃ : Shard ℕ, σ₀.m_map.keys = {3} ∧ σ₀.construct_tier = .ok σ₁ ∧
      σ₁.deconstruct = .ok σ₃ ∧ Undone σ₀ [] σ₃) ∧
    ∃ σ₀ σ₁ σ₃ : LFUShard ℕ, σ₀.m_map.keys = {3} ∧ σ₀.construct_tier = .ok σ₁ ∧
      σ₁.deconstruct = .ok σ₃ ∧
      LFUShard.Undone σ₀ σ₃ := by
  constructor
  · have hrun : Run FHList.LRU_FH.call Thawable (Shard.init 2 : Shard ℕ)
      [((true, .insert 3 (some 7)), .inserted true)] _ :=
      .cons ⟨trivial, by decide, rfl⟩ rfl .nil
    obtain ⟨σ₁, h1, h⟩ := thaw_undoes_freeze.1 FHList.LRU_FH 2 _ _ hrun ⟨rfl, rfl⟩
      (fun h => by cases congrArg (·.lookup 3) h)
    have hrun' : Run FHList.LRU_FH.call (fun σ c => Thawable σ c ∧ c.2.Plain) σ₁
        [((true, .insert 4 (some 8)), .inserted false)] σ₁ := by
      cases h1
      exact .cons ⟨⟨trivial, by decide, rfl⟩, trivial⟩ rfl .nil
    obtain ⟨σ₃, h3, hu⟩ := h _ _ hrun'
    exact ⟨_, σ₁, σ₃, by decide, h1, h3, hu⟩
  · have hrun : Run LFU_FHCache.call LFU_FHCache.Thawable (LFUShard.init 2 : LFUShard ℕ)
        [(.insert 3 (some 7), .inserted true)] _ :=
      .cons ⟨trivial, rfl⟩ rfl .nil
    obtain ⟨σ₁, h1, h⟩ := thaw_undoes_freeze.2 2 _ _ hrun rfl
      (fun h => by cases congrArg (·.lookup 3) h)
      fun F L hr => lt_of_le_of_lt hr.length_le (by decide)
    have hrun' : Run LFU_FHCache.call (fun _ c => c.Plain) σ₁
        [(.insert 4 (some 8), .inserted false)] σ₁ := by
      cases h1
      exact .cons trivial rfl .nil
    obtain ⟨σ₃, h3, hu⟩ := h _ _ hrun'
    exact ⟨_, σ₁, σ₃, by decide, h1, h3, hu⟩

/-- On an empty shard `deconstruct` finds nothing to put back and returns before it resets the
    flags, and from then on the shard refuses every insertion. -/
theorem freeze_of_empty_shard_stays :
    (∃ σ₁ : Shard ℕ, (Shard.init 2 : Shard ℕ).construct_tier = .ok σ₁ ∧ σ₁.deconstruct = .ok σ₁ ∧
      σ₁.tier_ready = true ∧
      σ₁.tier_no_insert = true ∧ σ₁.m_map = ∅ ∧ σ₁.insert 3 (some 7) = .ok (false, σ₁)) ∧
    ∃ σ₁ : LFUShard ℕ, (LFUShard.init 2 : LFUShard ℕ).construct_tier = .ok σ₁ ∧
      σ₁.deconstruct = .ok σ₁ ∧
      σ₁.FH_ready = true ∧ σ₁.tier_ready = true ∧ σ₁.tier_no_insert = true ∧ σ₁.m_map = ∅ ∧
      σ₁.insert 3 (some 7) = .ok (false, σ₁) :=
  ⟨⟨_, rfl, rfl, rfl, rfl, rfl, rfl⟩, ⟨_, rfl, rfl, rfl, rfl, rfl, rfl, rfl⟩⟩

end FrozenHot
