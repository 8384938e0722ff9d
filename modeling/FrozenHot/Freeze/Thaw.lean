import FrozenHot.Freeze.Transparent

/-! Thawing undoes a freeze of the whole shard.

    With values that are never null the fast hash answers for every frozen key, so nothing leaves
    the frozen list but by deletion, and as long as something is frozen `deconstruct` puts it
    back. -/

namespace FrozenHot
open Schemes

variable {α : Type}

namespace ListShard
variable {τ τ' τ₀ : ListShard α} {x : Item} {k : ℕ} {e : HashMapValue (Option α)} {D : List ℕ}

/-- The invariant of runs with values that are never null. -/
structure Filled (τ : ListShard α) : Prop where
  sound : Sound τ
  thawed : Thawed τ
  values : ∀ k e, τ.m_map.lookup k = some e → e.m_value.isSome = true
  filled : ∀ x ∈ τ.frozen, x.key ≠ TOMB_KEY → (τ.m_fasthash.get x.key).isSome = true
  flagged : (τ.tier_ready || τ.fast_hash_ready) = true → τ.frozen ≠ []
  tier : τ.tier_no_insert = τ.tier_ready
  tier_main : τ.tier_ready = true → τ.main = []

theorem filled_init (maxSize : ℕ) : Filled (init maxSize : ListShard α) := by
  refine ⟨sound_init maxSize, fun _ _ => ⟨rfl, rfl⟩, ?_, ?_, ?_, rfl, fun h => by cases h⟩ <;>
    simp [init, Core.init]

theorem Filled.flag (hi : Filled τ) (hx : x ∈ τ.frozen) :
    (τ.tier_ready || τ.fast_hash_ready) = true := by
  by_contra hno
  simp only [Bool.or_eq_true, not_or, Bool.not_eq_true] at hno
  rw [(hi.thawed hno.1 hno.2).1] at hx
  cases hx

/-- The fast hash answers for a frozen key. -/
theorem Filled.hit (hi : Filled τ) (hx : x ∈ τ.frozen) (hk : x.key ≠ TOMB_KEY) :
    τ.frozenHit x.key = true := by
  simp [Core.frozenHit, hi.flag hx, hi.filled x hx hk]

/-- A key the fast hash does not answer for has its node on the main list. -/
theorem Filled.detach_frozen (hi : Filled τ) (ho : Own τ) (he : τ.m_map.lookup k = some e)
    (hf : τ.frozenHit k = false) : detach e.m_listNode τ.frozen = τ.frozen := by
  refine detach_none fun hn => ?_
  obtain ⟨x, hx, hxn⟩ := List.mem_map.mp hn
  have hxk := ho.key k e he x (List.mem_append_left _ hx) hxn
  have := hi.hit hx (by rw [hxk]; exact hi.sound.ne_tomb (Finmap.mem_iff.mpr ⟨e, he⟩))
  rw [hxk, hf] at this
  cases this

theorem Filled.find (hi : Filled τ) (ho : Own τ) (lock : Bool) (k : ℕ) :
    Filled (τ.find lock k).2 := by
  have hs := hi.sound.find ho lock k
  rcases find_moves τ lock k with h | ⟨e, x, he, ht, hr, h⟩
  · rw [h]; exact hi
  · have hf : τ.frozenHit k = false := by
      cases hr' : τ.fast_hash_ready <;> simp [Core.frozenHit, ht, hr', hr]
    rw [h, hi.detach_frozen ho he hf] at hs ⊢
    exact ⟨hs, hi.thawed, hi.values, hi.filled, hi.flagged, hi.tier,
      fun h => by rw [ht] at h; cases h⟩

theorem Filled.insert {v : Option α} {r : Bool × ListShard α} (hi : Filled τ) (hk : ValidKey k)
    (hv : v.isSome = true) (h : τ.insert k v = some r) : Filled r.2 := by
  have hplace : ∀ k' e, (τ.m_map.insert k ⟨v, .node τ.fresh⟩).lookup k' = some e →
      e.m_value.isSome = true := fun k' e he => by
    by_cases hkk : k' = k
    · subst hkk
      rw [Finmap.lookup_insert] at he
      cases he; exact hv
    · rw [Finmap.lookup_insert_of_ne _ hkk] at he
      exact hi.values k' e he
  rcases hi.sound.insert_cases hk v with ⟨-, h'⟩ | ⟨-, hm, h'⟩ | ⟨hno, -, τ', h', hsh, hs⟩ <;>
    rw [h'] at h <;> cases h
  · exact hi
  · exact ⟨hi.sound.place hm v, hi.thawed, hplace, hi.filled, hi.flagged, hi.tier, hi.tier_main⟩
  · refine ⟨hs, hsh.thawed hi.thawed, fun k' e he => hplace k' e (hsh.sub he), ?_, ?_, ?_,
      fun ht => ?_⟩
    · rw [hsh.frozen, hsh.fasthash]; exact hi.filled
    · rw [hsh.frozen, hsh.modes.1, hsh.modes.2.2]; exact hi.flagged
    · rw [hsh.modes.1, hsh.modes.2.1]; exact hi.tier
    · rw [hsh.modes.1] at ht
      have : τ.tier_no_insert = true := hi.tier.trans ht
      rw [hno] at this; cases this

theorem Filled.delete_key (hi : Filled τ) (ho : Own τ)
    (hlink : τ.frozenHit k = true → τ.LinkedKey k) :
    Filled (τ.delete_key k) := by
  have hs := hi.sound.delete_key ho hlink
  have hval : ∀ k' e, (τ.m_map.erase k).lookup k' = some e → e.m_value.isSome = true :=
      fun k' e he =>
    hi.values k' e (Shard.lookup_erase_cases he).1
  rcases ListShard.delete_cases hi.sound.idle k with ⟨h, -⟩ | ⟨e, he, ⟨-, h⟩ | ⟨hf, -, h⟩⟩ <;>
    rw [h] at hs ⊢
  · exact hi
  · -- a tombstone
    refine ⟨hs, fun h1 h2 => ?_, hval, fun x hx hx' => ?_, fun hf => ?_, hi.tier, fun ht => ?_⟩
    · obtain ⟨h3, h4⟩ := hi.thawed h1 h2
      exact ⟨by simp [h3, bury], h4⟩
    · obtain ⟨y, hy, rfl⟩ := List.mem_map.mp hx
      by_cases hyn : y.node = e.m_listNode
      · rw [if_pos hyn] at hx'; exact (hx' rfl).elim
      · rw [if_neg hyn] at hx' ⊢; exact hi.filled y hy hx'
    · simpa [bury] using hi.flagged hf
    · simp [hi.tier_main ht, bury]
  · rw [hi.detach_frozen ho he hf] at hs ⊢
    exact ⟨hs, hi.thawed, hval, hi.filled, hi.flagged, hi.tier, fun ht => by
      simp [hi.tier_main ht, detach]⟩

/-- The fast hash after a freeze answers for what is frozen. -/
theorem Filled.copy (hi : Filled τ) {K : List Item} (hK : ∀ x ∈ K, x ∈ τ.items)
    (hx : x ∈ alive K) : ((ListShard.copy τ.m_map ∅ (alive K)).get x.key).isSome = true := by
  have hK' := hi.sound.copied hK
  obtain ⟨hv, hm⟩ := hK' x hx
  obtain ⟨e, he⟩ := Finmap.mem_iff.mp hm
  obtain ⟨v, hv'⟩ := Option.isSome_iff_exists.mp (hi.values _ _ he)
  rw [FastHash.get_valid hv, lookup_copy hK', if_pos (List.mem_map_of_mem hx), he]
  simp [hv']

/-- A shard with an empty frozen list is thawed. -/
theorem Filled.thawed_of_nil (hi : Filled τ) (hF : τ.frozen = []) :
    τ.tier_ready = false ∧ τ.fast_hash_ready = false ∧ τ.m_fasthash = ∅ := by
  have hno : ¬ (τ.tier_ready || τ.fast_hash_ready) = true := fun h => hi.flagged h hF
  simp only [Bool.or_eq_true, not_or, Bool.not_eq_true] at hno
  exact ⟨hno.1, hno.2, (hi.thawed hno.1 hno.2).2⟩

/-- A key in the map is on a list. -/
theorem Sound.alive_ne_nil (hs : Sound τ) (hF : τ.frozen = []) (hm : τ.m_map ≠ ∅) :
    alive τ.main ≠ [] := by
  intro hnil
  apply hm
  refine Finmap.ext_lookup fun k => ?_
  rw [Finmap.lookup_empty, Finmap.lookup_eq_none, hs.listed.keys, items, hF, List.nil_append, hnil]
  simp

theorem Filled.construct_tier (hi : Filled τ) (hm : τ.m_map ≠ ∅) (h : τ.construct_tier = some τ') :
    Filled τ' := by
  have hs := hi.sound.construct_tier h
  have hF := construct_tier_thawed h
  obtain ⟨-, -, hfast⟩ := hi.thawed_of_nil hF
  rw [hi.sound.construct_tier_eq hF, hfast] at h
  cases h
  exact ⟨hs, (fun h => by cases h), hi.values,
    fun x hx _ => hi.copy (fun y hy => List.mem_append_right _ hy) hx,
    fun _ => hi.sound.alive_ne_nil hF hm, rfl, fun _ => rfl⟩

theorem Filled.construct_ratio {FC_size : ℕ} (hi : Filled τ)
    (h : τ.construct_ratio FC_size = some τ') :
    Filled τ' := by
  have hs := hi.sound.construct_ratio h
  obtain ⟨P, B, hF, hP, hne, -, -, rfl⟩ := hi.sound.construct_ratio_cases h
  obtain ⟨ht, -, hfast⟩ := hi.thawed_of_nil hF
  rw [hfast] at hs ⊢
  refine ⟨hs, (fun _ h => by cases h), hi.values, fun x hx _ => hi.copy (fun y hy => ?_) hx,
    fun _ => hne, hi.tier, fun h => ?_⟩
  · rw [items, hP]; simp [hy]
  · have : τ.tier_ready = true := h
    rw [ht] at this; cases this

theorem Filled.deconstruct (hi : Filled τ) : Filled τ.deconstruct := by
  have hs := hi.sound.deconstruct
  unfold ListShard.deconstruct at hs ⊢
  split
  · exact hi
  · rename_i hF
    rw [if_neg hF] at hs
    refine ⟨hs, fun _ _ => ⟨rfl, rfl⟩, hi.values, by simp, by simp, ?_, fun h => by cases h⟩
    show (if τ.tier_ready then false else τ.tier_no_insert) = false
    rw [hi.tier]; cases τ.tier_ready <;> rfl

/-! ### From the freeze to the thaw -/

/-- The shard was frozen as a whole when it was `τ₀`, and the keys `D` were deleted since. -/
structure Since (τ₀ : ListShard α) (D : List ℕ) (τ : ListShard α) : Prop where
  filled : Filled τ
  tier : τ.tier_ready = true
  map : ∀ k, τ.m_map.lookup k = if k ∈ D then none else τ₀.m_map.lookup k
  items : alive τ.frozen = (alive τ₀.main).filter (·.key ∉ D)

/-- Only which keys were deleted matters. -/
theorem Since.congr {D' : List ℕ} (hp : Since τ₀ D τ) (hD : ∀ k, k ∈ D ↔ k ∈ D') : Since τ₀ D' τ :=
  ⟨hp.filled, hp.tier, fun k => by rw [hp.map]; simp only [hD], by rw [hp.items]; simp only [hD]⟩

theorem since_construct_tier (hi : Filled τ₀) (hm : τ₀.m_map ≠ ∅) (h : τ₀.construct_tier = some τ) :
    Since τ₀ [] τ := by
  have hi' := hi.construct_tier hm h
  rw [hi.sound.construct_tier_eq (construct_tier_thawed h)] at h
  cases h
  exact ⟨hi', rfl, by simp, by simp [alive_alive]⟩

theorem Since.find (hp : Since τ₀ D τ) (lock : Bool) (k : ℕ) : (τ.find lock k).2 = τ := by
  rcases find_cases τ lock k with h | ⟨e, -, ht, -⟩
  · exact h
  · rw [hp.tier] at ht; cases ht

theorem Since.insert (hp : Since τ₀ D τ) (k : ℕ) (v : Option α) : τ.insert k v = some (false, τ) :=
  insert_refused (hp.filled.tier.trans hp.tier) k v

/-- The items that are not tombstones when the shard is frozen as a whole. -/
theorem Since.alive_items (hp : Since τ₀ D τ) : alive τ.items = alive τ.frozen := by
  rw [ListShard.items, hp.filled.tier_main hp.tier, List.append_nil]

/-- Every key of the map is answered by the fast hash, so a deletion takes effect. -/
theorem Since.delete_key (hp : Since τ₀ D τ) (ho : Own τ)
    (hlink : τ.frozenHit k = true → τ.LinkedKey k) :
    Since τ₀ (k :: D) (τ.delete_key k) := by
  have hi := hp.filled.delete_key ho hlink
  have hs := hp.filled.sound
  rcases ListShard.delete_cases hs.idle k with ⟨h, hno⟩ | ⟨e, he, hcase⟩
  · -- the key is absent
    have hm : k ∉ τ.m_map := fun hm => by
      obtain ⟨e, he⟩ := Finmap.mem_iff.mp hm
      obtain ⟨x, hx, rfl⟩ := List.mem_map.mp (((hs.listed.keys k).mp hm).resolve_right (by simp))
      rw [hp.alive_items] at hx
      obtain ⟨hxF, hxk⟩ := mem_alive.mp hx
      have := hp.filled.hit hxF hxk
      rw [(hno e he).1] at this; cases this
    rw [h]
    refine ⟨hp.filled, hp.tier, fun k' => ?_, ?_⟩
    · rw [hp.map k']
      by_cases hkk : k' = k
      · subst hkk
        have := Finmap.lookup_eq_none.mpr hm
        rw [hp.map k'] at this
        rw [this, if_pos (by simp)]
      · simp [hkk]
    · rw [hp.items]
      refine List.filter_congr fun x hx => ?_
      by_cases hxk : x.key = k
      · -- were the key still on the list, it would be in the map
        have hxD : x.key ∈ D := by
          by_contra hxD
          have hxI : x ∈ alive τ.items := by
            rw [hp.alive_items, hp.items]; exact List.mem_filter.mpr ⟨hx, by simpa using hxD⟩
          exact hm (hxk ▸ hs.listed.mem hxI)
        simp [hxD]
      · simp [hxk]
  · have hm : k ∈ τ.m_map := Finmap.mem_iff.mpr ⟨e, he⟩
    have hk := hs.ne_tomb hm
    have hn : e.m_listNode ∈ τ.items.map Item.node := by
      rcases hcase with ⟨hf, -⟩ | ⟨-, hn, -⟩
      · exact hlink hf e he
      · exact hn
    obtain ⟨A, x, B, h1, rfl, h2, h3⟩ := ho.delete_removes he hn hk
    have hmain := hp.filled.tier_main hp.tier
    rw [hp.alive_items, hp.items] at h1
    -- exactly the item of the key leaves the frozen list
    have hAB : A ++ B = (alive τ₀.main).filter (·.key ∉ x.key :: D) := by
      have hnd : ((A ++ x :: B).map Item.key).Nodup := by
        have := hs.listed.nodup
        rwa [hp.alive_items, hp.items, h1] at this
      have hxAB : x.key ∉ (A ++ B).map Item.key := by
        rw [List.map_append, List.map_cons] at hnd
        rw [List.map_append]; exact (List.nodup_middle.mp hnd).notMem
      have hfil : (A ++ x :: B).filter (·.key ≠ x.key) = A ++ B := by
        rw [List.filter_append, List.filter_cons_of_neg (by simp), ← List.filter_append,
          List.filter_eq_self]
        intro y hy
        simp only [ne_eq, decide_eq_true_eq]
        exact fun h => hxAB (h ▸ List.mem_map_of_mem hy)
      rw [← hfil, ← h1, List.filter_filter]
      refine List.filter_congr fun y _ => ?_
      simp only [List.mem_cons, not_or, Bool.decide_and]
    have hmap : ∀ k', (τ.m_map.erase x.key).lookup k' =
        if k' ∈ x.key :: D then none else τ₀.m_map.lookup k' := fun k' => by
      by_cases hkk : k' = x.key
      · subst hkk; rw [Finmap.lookup_erase, if_pos (by simp)]
      · rw [Finmap.lookup_erase_ne hkk, hp.map k']; simp [hkk]
    rcases hcase with ⟨-, h⟩ | ⟨-, -, h⟩ <;> rw [h] at hi ⊢
    · refine ⟨hi, hp.tier, hmap, ?_⟩
      rw [← hAB, ← h2, hmain]; simp [bury]
    · refine ⟨hi, hp.tier, hmap, ?_⟩
      rw [← hAB, ← h3, hmain]; simp [detach]

/-- The thaw puts back what is left. -/
theorem Since.deconstruct (hp : Since τ₀ D τ) : τ.deconstruct = { τ with
    frozen := [], main := τ.frozen, m_fasthash := ∅
    tier_no_insert := false, tier_ready := false, fast_hash_ready := false } := by
  have hne := hp.filled.flagged (by rw [hp.tier]; rfl)
  simp [ListShard.deconstruct, hne, hp.tier, hp.filled.tier_main hp.tier]

/-- The counter goes down by the number of keys deleted. -/
theorem Since.size (hp : Since τ₀ D τ) (hs₀ : Sound τ₀) (hF : τ₀.frozen = []) :
    τ.m_size + (D.toFinset ∩ τ₀.m_map.keys).card = τ₀.m_size := by
  have hl := hs₀.listed
  rw [ListShard.items, hF, List.nil_append] at hl
  have hkeys : D.toFinset ∩ τ₀.m_map.keys =
      (((alive τ₀.main).filter (·.key ∈ D)).map Item.key).toFinset := by
    ext k
    simp only [Finset.mem_inter, List.mem_toFinset, Finmap.mem_keys, hl.keys, List.mem_map,
      List.mem_filter]
    constructor
    · rintro ⟨h1, ⟨x, hx, rfl⟩ | h⟩
      · exact ⟨x, ⟨hx, by simpa using h1⟩, rfl⟩
      · cases h
    · rintro ⟨x, ⟨hx, h1⟩, rfl⟩
      exact ⟨by simpa using h1, Or.inl ⟨x, hx, rfl⟩⟩
  have hnd : (((alive τ₀.main).filter (·.key ∈ D)).map Item.key).Nodup :=
    hl.nodup.sublist (List.filter_sublist.map _)
  rw [hkeys, List.toFinset_card_of_nodup hnd, List.length_map, hp.filled.sound.size, hp.alive_items,
    hp.items, hs₀.size, ListShard.items, hF, List.nil_append]
  have := List.length_eq_length_filter_add (l := alive τ₀.main) (fun x => decide (x.key ∈ D))
  simp only [decide_not] at this ⊢
  omega

end ListShard

open ListShard

/-! ### Runs -/

/-- The calls of runs in which a thaw undoes a freeze: no null values, no freeze of an empty shard,
    and no deletion of a frozen key that was inserted again and so has an unlinked node. -/
def Thawable (σ : Shard α) (c : Bool × FHCall α) : Prop :=
  c.2.Basic ∧ c.2.Valid ∧ match c.2 with
    | .insert _ v => v.isSome = true
    | .delete_key k => σ.frozenHit k = true → ∀ e, σ.m_map.lookup k = some e →
        isInList σ.heap e.m_listNode = .ok true
    | .construct_tier => σ.m_map ≠ ∅
    | _ => True

/-- The calls that neither freeze nor thaw. -/
def FHCall.Plain : FHCall α → Prop
  | .find _ | .insert _ _ | .delete_key _ => True
  | _ => False

/-- The keys a history deletes. -/
def deletedKeys (hist : List ((Bool × FHCall α) × FHResp α)) : List ℕ :=
  hist.filterMap fun h => match h.1.2 with
    | .delete_key k => some k
    | _ => none

variable {σ σ' : Shard α} {τ τ' : ListShard α} {k : ℕ}

/-- A linked node is on one of the lists. -/
theorem linkedKey_of_isInList (hr : Shard.Rep none σ τ)
    (h : ∀ e, σ.m_map.lookup k = some e → isInList σ.heap e.m_listNode = .ok true) :
    τ.LinkedKey k := by
  intro e he
  by_contra hn
  have hout := (hr.holds.entry k e he).place.resolve_left hn
  have hin := h e (by rw [hr.core]; exact he)
  rw [isInList_unlinked hout] at hin
  cases hin

/-- One call keeps the invariant. -/
theorem Filled.step {κ : FHList} {c : Bool × FHCall α} {o : FHResp α} (hr : Shard.Rep none σ τ)
    (hi : Filled τ) (hc : Thawable σ c) (h : κ.call σ c = .ok (o, σ')) :
    ∃ τ', τ.call (κ.promotes c.1, c.2) = some (o, τ') ∧ Shard.Rep none σ' τ' ∧ Filled τ' := by
  obtain ⟨hbasic, hvalid, hcond⟩ := hc
  obtain ⟨τ', hτ, hr'⟩ := hr.call_ok hvalid h
  have ho := own_of_rep hr
  refine ⟨τ', hτ, hr', ?_⟩
  obtain ⟨lock, c⟩ := c
  cases c with
  | find k => cases hτ; exact hi.find ho _ k
  | insert k v =>
    obtain ⟨r, hins, he⟩ := Option.map_eq_some_iff.mp hτ
    cases he
    exact hi.insert hvalid hcond hins
  | get k v => exact hbasic.elim
  | delete_key k =>
    cases hτ
    refine hi.delete_key ho fun hf => linkedKey_of_isInList hr (hcond ?_)
    rw [hr.core]; exact hf
  | construct_tier =>
    obtain ⟨τ₁, ht, he⟩ := Option.map_eq_some_iff.mp hτ
    cases he
    refine hi.construct_tier (fun hm => hcond ?_) ht
    rw [hr.core]; exact hm
  | construct_ratio FC_size =>
    obtain ⟨τ₁, ht, he⟩ := Option.map_eq_some_iff.mp hτ
    cases he
    exact hi.construct_ratio ht
  | deconstruct => cases hτ; exact hi.deconstruct

theorem Filled.run {κ : FHList} {maxSize : ℕ} {hist : List ((Bool × FHCall α) × FHResp α)}
    (hrun : Run κ.call Thawable (Shard.init maxSize) hist σ) : ∃ τ, Shard.Rep none σ τ ∧ Filled τ :=
  hrun.invariant (fun σ => ∃ τ, Shard.Rep none σ τ ∧ Filled τ)
    ⟨_, Shard.rep_init maxSize, filled_init maxSize⟩ fun _ _ _ _ hi hP _ hs => by
      obtain ⟨τ, hr, hi⟩ := hi
      obtain ⟨τ', -, hr', hi'⟩ := Filled.step hr hi hP hs
      exact ⟨τ', hr', hi'⟩

/-- The calls between a freeze of the whole shard and the thaw. -/
theorem Since.run {κ : FHList} {τ₀ : ListShard α} {hist : List ((Bool × FHCall α) × FHResp α)}
    (hr : Shard.Rep none σ τ) (hp : Since τ₀ [] τ)
    (hrun : Run κ.call (fun σ c => Thawable σ c ∧ c.2.Plain) σ hist σ') :
    ∃ τ', Shard.Rep none σ' τ' ∧ Since τ₀ (deletedKeys hist) τ' := by
  induction hrun with
  | nil => exact ⟨τ, hr, hp⟩
  | @snoc hist s₁ s₂ c o _ hP hs ih =>
    obtain ⟨τ₁, hr₁, hp₁⟩ := ih
    obtain ⟨⟨-, hvalid, hcond⟩, hplain⟩ := hP
    obtain ⟨τ₂, hτ, hr₂⟩ := hr₁.call_ok hvalid hs
    obtain ⟨lock, c⟩ := c
    cases c with
    | find k =>
      cases hτ
      rw [hp₁.find] at hr₂
      exact ⟨τ₁, hr₂, by simpa [deletedKeys] using hp₁⟩
    | insert k v =>
      simp only [ListShard.call, hp₁.insert, Option.map_some, Option.some.injEq, Prod.mk.injEq]
        at hτ
      rw [← hτ.2] at hr₂
      exact ⟨τ₁, hr₂, by simpa [deletedKeys] using hp₁⟩
    | delete_key k =>
      cases hτ
      have hp₂ := hp₁.delete_key (k := k) (own_of_rep hr₁) fun hf =>
        linkedKey_of_isInList hr₁ (hcond (by rw [hr₁.core]; exact hf))
      refine ⟨_, hr₂, hp₂.congr fun k' => ?_⟩
      have hd : deletedKeys (hist ++ [((lock, .delete_key k), FHResp.done)]) =
          deletedKeys hist ++ [k] := by
        simp [deletedKeys]
      rw [hd, List.mem_cons, List.mem_append, List.mem_singleton]
      exact or_comm
    | get k v => exact hplain.elim
    | construct_tier => exact hplain.elim
    | construct_ratio FC_size => exact hplain.elim
    | deconstruct => exact hplain.elim

/-- `σ` is thawed, and what `σ₀` was but for the deleted keys `D`. -/
structure Undone (σ₀ : Shard α) (D : List ℕ) (σ : Shard α) : Prop where
  flags : σ.tier_ready = false ∧ σ.tier_no_insert = false ∧ σ.fast_hash_ready = false ∧
    σ.fast_hash_construct = false
  lists : ∃ L₀ L, Shard.Lists σ₀.heap none [] L₀ ∧ Shard.Lists σ.heap none [] L ∧
    L.filter (·.key ∈ σ.m_map) = (L₀.filter (·.key ∈ σ₀.m_map)).filter (·.key ∉ D)
  fasthash : σ.m_fasthash = ∅
  map : ∀ k, σ.m_map.lookup k = if k ∈ D then none else σ₀.m_map.lookup k
  size : σ.m_size + (D.toFinset ∩ σ₀.m_map.keys).card = σ₀.m_size
  accepts : ∀ k v, ValidKey k → k ∉ σ.m_map → ∃ σ', σ.insert k v = .ok (true, σ')

theorem ListShard.Sound.filter_main (hs : Sound τ) :
    τ.main.filter (·.key ∈ τ.m_map) = alive τ.main := by
  refine List.filter_congr fun x hx => ?_
  simp only [hs.mem_iff (x := x) (List.mem_append_right _ hx)]

/-- In such runs a freeze of a whole shard returns, and the next thaw undoes it. -/
theorem list_thaw_undoes {κ : FHList} {maxSize : ℕ} {hist₀ : List ((Bool × FHCall α) × FHResp α)}
    {σ₀ : Shard α} (h₀ : Run κ.call Thawable (Shard.init maxSize) hist₀ σ₀)
    (hthawed : σ₀.tier_ready = false ∧ σ₀.fast_hash_ready = false) (hne : σ₀.m_map ≠ ∅) :
    ∃ σ₁, σ₀.construct_tier = .ok σ₁ ∧ ∀ hist σ₂,
      Run κ.call (fun σ c => Thawable σ c ∧ c.2.Plain) σ₁ hist σ₂ →
      ∃ σ₃, σ₂.deconstruct = .ok σ₃ ∧ Undone σ₀ (deletedKeys hist) σ₃ := by
  obtain ⟨τ₀, hr₀, hi₀⟩ := Filled.run h₀
  have hne₀ : τ₀.m_map ≠ ∅ := fun h => hne (by rw [hr₀.core]; exact h)
  rw [hr₀.core] at hthawed
  have hF := (hi₀.thawed hthawed.1 hthawed.2).1
  have ht := hi₀.sound.construct_tier_eq hF
  obtain ⟨σ₁, h1, hr₁⟩ := hr₀.construct_tier ht
  refine ⟨σ₁, h1, fun hist σ₂ h2 => ?_⟩
  obtain ⟨τ₂, hr₂, hp⟩ := Since.run hr₁ (since_construct_tier hi₀ hne₀ ht) h2
  obtain ⟨σ₃, h3, hr₃⟩ := hr₂.deconstruct
  have hs₃ := hp.filled.sound.deconstruct
  rw [hp.deconstruct] at hr₃ hs₃
  have hl₀ : Shard.Lists σ₀.heap none [] τ₀.main := hF ▸ hr₀.holds.lists
  have hmain₀ : τ₀.main.filter (·.key ∈ σ₀.m_map) = alive τ₀.main := by
    rw [hr₀.core]; exact hi₀.sound.filter_main
  have hmain₃ : τ₂.frozen.filter (·.key ∈ σ₃.m_map) = alive τ₂.frozen := by
    rw [hr₃.core]; exact hs₃.filter_main
  refine ⟨σ₃, h3, ⟨?_, ⟨τ₀.main, τ₂.frozen, hl₀, hr₃.holds.lists, ?_⟩, ?_, ?_, ?_, ?_⟩⟩
  · rw [hr₃.core]; exact ⟨rfl, rfl, rfl, hs₃.idle⟩
  · rw [hmain₀, hmain₃, hp.items]
  · rw [hr₃.core]
  · rw [hr₃.core, hr₀.core]; exact hp.map
  · rw [hr₃.core, hr₀.core]; exact hp.size hi₀.sound hF
  · intro k v hk hm
    rw [hr₃.core] at hm
    obtain ⟨τ₄, h4, -⟩ := hs₃.insert_new hk rfl hm v
    obtain ⟨σ₄, h5, -⟩ := hr₃.insert hk h4
    exact ⟨σ₄, h5⟩

end FrozenHot
