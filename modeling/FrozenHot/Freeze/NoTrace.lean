import FrozenHot.Freeze.Erase
import FrozenHot.Freeze.Sound

/-! An `insert` that a freeze turns away leaves no trace, unless it has evicted an entry before.

    A crowd shows its keys: every step of the code is the step over keys, as the node of an entry
    that a call holds is on no list and the entry stays in the map until the call is done with it.
    So the refused call can be left out of the run. A call that has evicted an entry when the splice
    comes does leave one: the victim is gone and still counted. -/

namespace FrozenHot
open Schemes ListShard Shard

variable {α : Type} {τ τ' : ListShard α} {σ σ' : Shard α} {p A B : Pool (InsertAt α Ptr)} {i k : ℕ}
variable {c d : InsertAt α Ptr} {n : Ptr}

/-- The keys of a shard over lists. -/
def ListShard.tally (τ : ListShard α) : Tally α where
  frozen := τ.frozen.map Item.key
  main := τ.main.map Item.key
  m_map := fun k => (τ.m_map.lookup k).map HashMapValue.m_value
  m_size := τ.m_size
  m_maxSize := τ.m_maxSize
  tier_ready := τ.tier_ready
  tier_no_insert := τ.tier_no_insert
  fast_hash_construct := τ.fast_hash_construct

/-- What a call holds is in the map, with its node on no list. -/
def Holding (τ : ListShard α) (c : InsertAt α Ptr) : Prop :=
  ∀ k n, c.entry = some (k, n) → (∃ v, τ.m_map.lookup k = some ⟨v, n⟩) ∧ n ∉ τ.items.map Item.node

/-- The keys of a crowd with the places of its calls. -/
def Crowd.Shows (s : Crowd α) (a : KeyCrowd α) : Prop :=
  ∃ τ, Rep none s.shared τ ∧ (∀ x ∈ s.calls, Holding τ x.2) ∧
    a = ⟨τ.tally, s.calls.mapPlaces InsertAt.forget⟩

/-! ### The map over keys -/

theorem lookup_erase_update (m : Finmap fun _ : ℕ => HashMapValue (Option α)) (k : ℕ) :
    (fun k' => ((m.erase k).lookup k').map HashMapValue.m_value) =
      Function.update (fun k' => (m.lookup k').map HashMapValue.m_value) k none := by
  funext k'
  by_cases hk : k' = k
  · subst hk; simp
  · simp [Finmap.lookup_erase_ne hk, hk]

theorem lookup_insert_update (m : Finmap fun _ : ℕ => HashMapValue (Option α)) (k : ℕ)
    (e : HashMapValue (Option α)) :
    (fun k' => ((m.insert k e).lookup k').map HashMapValue.m_value) =
      Function.update (fun k' => (m.lookup k').map HashMapValue.m_value) k (some e.m_value) := by
  funext k'
  by_cases hk : k' = k
  · subst hk; simp
  · simp [Finmap.lookup_insert_of_ne _ hk, hk]

theorem tally_map_none : τ.tally.m_map k = none ↔ k ∉ τ.m_map := by
  simp [ListShard.tally, Finmap.lookup_eq_none]

theorem tally_map_isSome : (τ.tally.m_map k).isSome = true ↔ k ∈ τ.m_map := by
  rw [Option.isSome_iff_ne_none, ne_eq, tally_map_none, not_not]

/-- What an eviction does, if no key on the main list is a tombstone, absent or held. -/
theorem evict_tally {held : Option ℕ}
    (hmain : ∀ x ∈ τ.main, x.key ≠ TOMB_KEY ∧ x.key ∈ τ.m_map ∧ held ≠ some x.key) :
    ∃ τ', τ.evict held = some (τ.tally.evict.1, τ') ∧ τ'.tally = τ.tally.evict.2 ∧
      τ'.items.Sublist τ.items ∧
      ∀ k ∉ τ.items.map Item.key, τ'.m_map.lookup k = τ.m_map.lookup k := by
  have htrim := trim_self fun x hx => (hmain x hx).1
  rcases List.eq_nil_or_concat τ.main with hm | ⟨M, x, hm⟩
  · rw [hm] at htrim
    refine ⟨τ, ?_, by simp [Tally.evict, ListShard.tally, hm], List.Sublist.refl _, fun _ _ => rfl⟩
    have : ({ τ with main := [] } : ListShard α) = τ := by rw [← hm]
    simp [ListShard.evict, htrim, hm, Tally.evict, ListShard.tally, this]
  · rw [List.concat_eq_append] at hm
    rw [hm] at htrim
    have hx : x ∈ τ.main := by simp [hm]
    obtain ⟨-, hin, hheld⟩ := hmain x hx
    refine ⟨{ τ with main := M, m_map := τ.m_map.erase x.key }, ?_, ?_, ?_, fun k hk => ?_⟩
    · simp [ListShard.evict, htrim, hm, hin, hheld, Tally.evict, ListShard.tally]
    · simp [Tally.evict, ListShard.tally, hm, lookup_erase_update]
    · simp [items, hm]
    · refine Finmap.lookup_erase_ne fun h => hk ?_
      rw [h]
      exact List.mem_map_of_mem (List.mem_append_right _ hx)

theorem makeRoom_tally
    (hmain : ∀ x ∈ τ.main, x.key ≠ TOMB_KEY ∧ x.key ∈ τ.m_map ∧ some k ≠ some x.key) :
    ∃ τ', τ.makeRoom k = some ((τ.tally.evictIf (τ.m_size ≥ τ.m_maxSize)).1, τ') ∧
      τ'.tally = (τ.tally.evictIf (τ.m_size ≥ τ.m_maxSize)).2 ∧ τ'.items.Sublist τ.items ∧
      ∀ k ∉ τ.items.map Item.key, τ'.m_map.lookup k = τ.m_map.lookup k := by
  unfold makeRoom Tally.evictIf
  split
  · exact evict_tally hmain
  · exact ⟨τ, rfl, rfl, List.Sublist.refl _, fun _ _ => rfl⟩

theorem correct_tally (hmain : ∀ x ∈ τ.main, x.key ≠ TOMB_KEY ∧ x.key ∈ τ.m_map) (s : ℕ) :
    ∃ τ', τ.correct s = some τ' ∧ τ'.tally = (τ.tally.act (.counted s)).2.2 ∧
      τ'.items.Sublist τ.items ∧
      ∀ k ∉ τ.items.map Item.key, τ'.m_map.lookup k = τ.m_map.lookup k := by
  by_cases hover : s > τ.m_maxSize
  · have hfree : ∀ x ∈ τ.main, x.key ≠ TOMB_KEY ∧ x.key ∈ τ.m_map ∧ none ≠ some x.key :=
      fun x hx => ⟨(hmain x hx).1, (hmain x hx).2, nofun⟩
    obtain ⟨τ', he, ht, hsub, hlk⟩ := evict_tally hfree
    have hsize : τ.tally.m_size = τ'.m_size := by
      have := congrArg Tally.m_size ht.symm
      rcases Tally.evict_cases τ.tally with ⟨-, h⟩ | ⟨_, _, -, h⟩ <;> rw [h] at this <;> exact this
    have hover' : s > τ.tally.m_maxSize := hover
    rw [ListShard.correct, if_pos hover, he]
    simp only [Tally.act, Tally.evictIf, if_pos hover', Option.map_some, ← ht]
    cases τ.tally.evict.1 with
    | false => exact ⟨τ', rfl, by rw [hsize]; rfl, hsub, hlk⟩
    | true => exact ⟨_, rfl, by rw [hsize]; rfl, hsub, hlk⟩
  · have hover' : ¬ s > τ.tally.m_maxSize := hover
    exact ⟨τ, if_neg hover, by simp [Tally.act, Tally.evictIf, hover'], List.Sublist.refl _,
      fun _ _ => rfl⟩

/-! ### The steps of a call -/

/-- What the keys say about the nodes of the main list and the other calls. -/
structure NoClash (τ : ListShard α) (c : InsertAt α Ptr) (p : Pool (InsertAt α Ptr)) : Prop where
  main : ∀ x ∈ τ.main, x.key ≠ TOMB_KEY ∧ x.key ∈ τ.m_map
  own : ∀ k, c.held = some k → k ∉ τ.items.map Item.key
  other : ∀ x ∈ p, ∀ k, x.2.held = some k → k ∉ τ.items.map Item.key ∧ c.held ≠ some k

theorem NoClash.of_apart (h : Tally.Apart c.forget (p.mapPlaces InsertAt.forget) τ.tally) :
    NoClash τ c p := by
  have hk := h.keyed
  rw [InsertAt.held_forget] at hk
  obtain ⟨-, hnd, hdis⟩ := List.nodup_append'.mp hk.nodup
  obtain ⟨-, -, hdis'⟩ := List.nodup_append'.mp hnd
  have hitems : τ.tally.frozen ++ τ.tally.main = τ.items.map Item.key := by
    simp [ListShard.tally, items]
  rw [hitems] at hk hdis hdis'
  refine ⟨fun x hx => ?_, fun k hc hmem => hdis (by simp [hc]) (List.mem_append_left _ hmem),
    fun x hx k hheld => ?_⟩
  · have hx' : x.key ∈ τ.items.map Item.key := List.mem_map_of_mem (List.mem_append_right _ hx)
    have hmem := List.mem_append_right c.held.toList
      (List.mem_append_left (Tally.held (p.mapPlaces InsertAt.forget)) hx')
    exact ⟨(hk.valid _ hmem).ne_tomb, tally_map_isSome.mp ((hk.mem _).mpr hmem)⟩
  · have hx' : k ∈ Tally.held (p.mapPlaces InsertAt.forget) :=
      List.mem_filterMap.mpr ⟨(x.1, x.2.forget),
        List.mem_map.mpr ⟨x, hx, rfl⟩, by simpa using hheld⟩
    exact ⟨fun hc => hdis' hc hx', fun hc => hdis (by simp [hc]) (List.mem_append_right _ hx')⟩

/-- What the other calls hold is untouched by a step that leaves their entries and nodes alone. -/
theorem Holding.kept (hh : Holding τ d)
    (hlk : ∀ k, d.held = some k → τ'.m_map.lookup k = τ.m_map.lookup k)
    (hit : ∀ k n, d.entry = some (k, n) → n ∈ τ'.items.map Item.node → n ∈ τ.items.map Item.node) :
    Holding τ' d := by
  intro k n he
  obtain ⟨⟨v, hv⟩, hoff⟩ := hh k n he
  exact ⟨⟨v, (hlk k (by simp [InsertAt.held, he])).trans hv⟩, fun hc => hoff (hit k n he hc)⟩

theorem Holding.sublist (hh : Holding τ d)
    (hlk : ∀ k, d.held = some k → τ'.m_map.lookup k = τ.m_map.lookup k)
    (hsub : τ'.items.Sublist τ.items) :
    Holding τ' d := hh.kept hlk fun _ _ _ hn => (hsub.map Item.node).mem hn

/-- The step of a call at `c` next to the calls `p`: what it does to the keys, and what is held
    then. -/
def Moves (σ : Shard α) (τ : ListShard α) (c : InsertAt α Ptr) (p : Pool (InsertAt α Ptr)) : Prop :=
  ∃ d σ' τ', Crowd.act σ c = .ok ((τ.tally.act c.forget).1, d, σ') ∧ Rep none σ' τ' ∧
    (τ.tally.act c.forget).2 = (d.map InsertAt.forget, τ'.tally) ∧
    (∀ x ∈ p, Holding τ' x.2) ∧ ∀ x ∈ d, Holding τ' x

theorem moves_entered {value : Option α} (hr : Rep none σ τ) (hk : ValidKey k)
    (hp : ∀ x ∈ p, Holding τ x.2) (hfree : ∀ x ∈ p, x.2.held ≠ some k) :
    Moves σ τ (.entered k value) p := by
  obtain ⟨σ₀, hmap, hr₀⟩ := hr.insertMap hk value
  have hfr : σ.fresh = τ.fresh := congrArg Core.fresh hr.core
  rw [← hfr] at hmap
  have htally : (τ.place k value).tally =
      { τ.tally with m_map := Function.update τ.tally.m_map k (some value) } := by
    simp [ListShard.tally, place, lookup_insert_update]
  have hothers : ∀ x ∈ p, Holding (τ.place k value) x.2 := fun x hx =>
    (hp x hx).sublist (fun k' hk' => Finmap.lookup_insert_of_ne _ fun h => hfree x hx (h ▸ hk'))
      (List.Sublist.refl _)
  by_cases hm : k ∈ τ.m_map
  · have hm' : τ.tally.m_map k ≠ none := fun h => tally_map_none.mp h hm
    refine ⟨none, σ₀, τ.place k value, ?_, hr₀, ?_, hothers, by simp⟩
    · simp [Crowd.act, hmap, hm, InsertAt.forget, Tally.act, hm']
    · simp [InsertAt.forget, Tally.act, hm', htally]
  · have hm' : τ.tally.m_map k = none := tally_map_none.mpr hm
    refine ⟨some (.mapped k (.node σ.fresh)), σ₀, τ.place k value, ?_, hr₀, ?_, hothers, ?_⟩
    · simp [Crowd.act, hmap, hm, InsertAt.forget, Tally.act, hm']
    · simp [InsertAt.forget, Tally.act, hm', htally]
    · rintro x hx k' n he
      cases hx
      cases he
      rw [hfr]
      exact ⟨⟨value, Finmap.lookup_insert _⟩, hr.holds.fresh_notMem⟩

theorem moves_mapped (hr : Rep none σ τ) (hc : NoClash τ (.mapped k n) p)
    (hp : ∀ x ∈ p, Holding τ x.2) (hn : Holding τ (.mapped k n)) : Moves σ τ (.mapped k n) p := by
  have hown : k ∉ τ.items.map Item.key := hc.own k rfl
  obtain ⟨τ', he, ht, hsub, hlk⟩ := makeRoom_tally (k := k) fun x hx =>
    ⟨(hc.main x hx).1, (hc.main x hx).2,
      fun h => hown (Option.some.inj h ▸ List.mem_map_of_mem (List.mem_append_right _ hx))⟩
  obtain ⟨σ', hσ, hr'⟩ := hr.insertEvict he
  refine ⟨some (.evicted k n τ.m_size (τ.tally.evictIf (τ.m_size ≥ τ.m_maxSize)).1), σ', τ', ?_,
    hr', ?_, fun x hx => (hp x hx).sublist (fun k' hk' => hlk k' (hc.other x hx k' hk').1) hsub, ?_⟩
  · simp only [Crowd.act, hσ, ok_bind]; rfl
  · rw [ht]; rfl
  · rintro x hx
    cases hx
    have hn' : Holding τ (.evicted k n τ.m_size (τ.tally.evictIf (τ.m_size ≥ τ.m_maxSize)).1) := hn
    exact hn'.sublist (fun k' hk' => by cases hk'; exact hlk k hown) hsub

theorem moves_evicted {s : ℕ} {done : Bool} (hr : Rep none σ τ)
    (hc : NoClash τ (.evicted k n s done) p) (hp : ∀ x ∈ p, Holding τ x.2)
    (hn : Holding τ (.evicted k n s done)) : Moves σ τ (.evicted k n s done) p := by
  obtain ⟨⟨v, hv⟩, hoff⟩ := hn k n rfl
  have hother : ∀ x ∈ p, ∀ k', x.2.held = some k' → k' ≠ k := fun x hx k' hk' h =>
    (hc.other x hx k' hk').2 (by rw [h]; rfl)
  cases ht : τ.tier_no_insert with
  | true =>
    obtain ⟨σ', hσ, hr'⟩ := hr.insertRefused ht hv hoff
    have ht' : τ.tally.tier_no_insert = true := ht
    refine ⟨none, σ', _, ?_, hr', ?_, fun x hx => ?_, nofun⟩
    · simp [Crowd.act, hσ, InsertAt.forget, Tally.act, ht']
    · simp [InsertAt.forget, Tally.act, ListShard.tally, ht, lookup_erase_update]
    · exact (hp x hx).sublist (fun k' hk' => Finmap.lookup_erase_ne (hother x hx k' hk'))
        (List.Sublist.refl _)
  | false =>
    have hE := hr.holds.entry k _ hv
    obtain ⟨σ', hσ, hr'⟩ := hr.insertLink ht hE.key hE.node hoff
    have ht' : τ.tally.tier_no_insert = false := ht
    refine ⟨some (.linked s done), σ', _, ?_, hr', ?_, fun x hx => ?_, ?_⟩
    · simp [Crowd.act, hσ, InsertAt.forget, Tally.act, ht']
    · simp [InsertAt.forget, Tally.act, ListShard.tally, ht]
    · refine (hp x hx).kept (fun _ _ => rfl) fun k' n' he hmem => ?_
      obtain ⟨⟨v', hv'⟩, -⟩ := hp x hx k' n' he
      have hne : n' ≠ n := (hr.holds.entry k' _ hv').ne_of_key hE.key
        (hother x hx k' (by simp [InsertAt.held, he]))
      simp only [items, List.map_append, List.map_cons, List.mem_append, List.mem_cons, hne,
        false_or] at hmem ⊢
      exact hmem
    · rintro x hx k' n' he
      cases hx
      cases he

theorem moves_counted {s : ℕ} (hr : Rep none σ τ) (hc : NoClash τ (.counted s) p)
    (hp : ∀ x ∈ p, Holding τ x.2) : Moves σ τ (.counted s) p := by
  obtain ⟨τ', he, ht, hsub, hlk⟩ := correct_tally hc.main s
  obtain ⟨σ', hσ, hr'⟩ := hr.correct he
  refine ⟨none, σ', τ', ?_, hr', ?_,
    fun x hx => (hp x hx).sublist (fun k' hk' => hlk k' (hc.other x hx k' hk').1) hsub, nofun⟩
  · simp only [Crowd.act, hσ, ok_bind]; rfl
  · rw [ht]; rfl

theorem moves_linked {s : ℕ} {done : Bool} (hr : Rep none σ τ) (hp : ∀ x ∈ p, Holding τ x.2) :
    Moves σ τ (.linked s done) p := by
  have hsize : σ.m_size = τ.m_size := congrArg Core.m_size hr.core
  refine ⟨some (.counted (if done then s else τ.m_size)), σ.count done, τ.count done, ?_,
    hr.count done, ?_, fun x hx => ?_, ?_⟩
  · simp only [Crowd.act, hsize]; rfl
  · cases done <;> rfl
  · cases done <;> exact hp x hx
  · rintro x hx k' n' he
    cases hx
    cases he

/-- Every step of a call is the step over keys. -/
theorem moves (hr : Rep none σ τ) (ha : Tally.Apart c.forget (p.mapPlaces InsertAt.forget) τ.tally)
    (hp : ∀ x ∈ p, Holding τ x.2) (hn : Holding τ c)
    (hfree : ∀ key value, c = .entered key value → ∀ x ∈ p, x.2.held ≠ some key) :
    Moves σ τ c p := by
  have hc := NoClash.of_apart ha
  cases c with
  | entered key value => exact moves_entered hr (ha.entered key value rfl) hp (hfree key value rfl)
  | mapped key node => exact moves_mapped hr hc hp hn
  | evicted key node s done => exact moves_evicted hr hc hp hn
  | linked s done => exact moves_linked hr hp
  | counted s => exact moves_counted hr hc hp

/-! ### The steps of the crowd -/

variable {s s' : Crowd α} {a a' : KeyCrowd α} {e : CrowdStep α} {o : Outcome}

theorem Crowd.Shows.go (hs : s.Shows a) (hst : a.shared.Steady a.calls) (hg : a.Gentle (.go i))
    (h : a.step (.go i) = .ok (o, a')) : ∃ s', s.step (.go i) = .ok (o, s') ∧ s'.Shows a' := by
  obtain ⟨τ, hr, hn, rfl⟩ := hs
  simp only [KeyCrowd.step, Busy.go, Pool.get_mapPlaces] at h
  cases hc : s.calls.get i with
  | none => simp [hc] at h
  | some c =>
    rw [hc] at h
    cases h
    have hd : s.calls.Distinct := by simpa [Pool.Distinct] using hst.distinct
    obtain ⟨A, B, hp, hi, hsome, hnone⟩ := Pool.split hd hc
    have hst' := hst
    simp only [hp, Pool.mapPlaces, List.map_append, List.map_cons] at hst'
    have ha := hst'.apart
    rw [← List.map_append] at ha
    have hsub : ∀ x ∈ A ++ B, x ∈ s.calls := fun x hx => by
      rw [hp]; simp only [List.mem_append, List.mem_cons] at hx ⊢; tauto
    have hfree : ∀ key value, c = .entered key value → ∀ x ∈ A ++ B, x.2.held ≠ some key := by
      rintro key value rfl x hx
      have := hg.1 key value (by simp [Pool.get_mapPlaces, hc, InsertAt.forget]) (x.1, x.2.forget)
        (List.mem_map.mpr ⟨x, hsub x hx, rfl⟩)
      simpa using this
    obtain ⟨d, σ', τ', hact, hr', hkeys, hothers, hown⟩ :=
      moves hr ha (fun x hx => hn x (hsub x hx))
      (hn _ (Pool.mem_of_get hc)) hfree
    refine ⟨⟨σ', s.calls.after i d⟩, by simp [Crowd.step, Busy.go, hc, hact], τ', hr', ?_, ?_⟩
    · cases d with
      | none => rw [hnone]; exact hothers
      | some d =>
        rw [hsome d]
        intro x hx
        rcases List.mem_cons.mp (List.perm_middle.mem_iff.mp hx) with rfl | hx
        · exact hown d rfl
        · exact hothers x hx
    · have h1 := congrArg Prod.fst hkeys
      have h2 := congrArg Prod.snd hkeys
      simp only at h1 h2
      simp only [h1, h2, Pool.after_mapPlaces]

/-- All keys on the frozen list are in the map: the freeze drops none. -/
theorem frozen_live (hst : τ.tally.Steady (p.mapPlaces InsertAt.forget)) :
    τ.frozen.filter (Live τ.m_map) = τ.frozen := by
  rw [List.filter_eq_self]
  intro x hx
  have hmem : x.key ∈ τ.tally.frozen ++ τ.tally.main ++ Tally.held (p.mapPlaces InsertAt.forget) :=
    List.mem_append_left _ (List.mem_append_left _ (List.mem_map_of_mem hx))
  exact decide_eq_true ⟨(hst.keyed.valid _ hmem).ne_tomb,
    tally_map_isSome.mp ((hst.keyed.mem _).mpr hmem)⟩

/-- Every step of the crowd is the step over keys. -/
theorem Crowd.Shows.step (hs : s.Shows a) (hst : a.shared.Steady a.calls) (hg : a.Gentle e)
    (h : a.step e = .ok (o, a')) : ∃ s', s.step e = .ok (o, s') ∧ s'.Shows a' := by
  cases e with
  | go i => exact hs.go hst hg h
  | enter i key value =>
    obtain ⟨τ, hr, hn, rfl⟩ := hs
    have ht : s.shared.tier_no_insert = τ.tally.tier_no_insert :=
      congrArg Core.tier_no_insert hr.core
    simp only [KeyCrowd.step] at h
    simp only [Crowd.step, ht]
    split at h <;> rename_i hno <;> cases h
    · rw [if_pos hno]
      exact ⟨s, rfl, τ, hr, hn, rfl⟩
    · rw [if_neg hno]
      refine ⟨_, rfl, τ, hr, fun x hx => ?_, rfl⟩
      rcases List.mem_cons.mp hx with rfl | hx
      · rintro k n he
        cases he
      · exact hn x hx
  | splice =>
    obtain ⟨τ, hr, hn, rfl⟩ := hs
    simp only [KeyCrowd.step] at h
    split at h <;> rename_i hF <;> cases h
    have hF' : τ.frozen = [] := by simpa [ListShard.tally] using hF
    obtain ⟨σ', hσ, hr'⟩ := hr.tierSplice hF'
    refine ⟨⟨σ', s.calls⟩, by simp [Crowd.step, hσ], _, hr',
      fun x hx => ?_, by simp [ListShard.tally]⟩
    exact (hn x hx).sublist (fun _ _ => rfl) (by simp [items, hF'])
  | rest =>
    obtain ⟨τ, hr, hn, rfl⟩ := hs
    cases h
    have hL : τ.main = [] := by simpa [ListShard.tally] using (hst.tier (hst.constructing hg.1)).1
    obtain ⟨σ', hσ, hr'⟩ := hr.tierRest hL
    rw [frozen_live hst] at hr'
    exact ⟨⟨σ', s.calls⟩, by simp [Crowd.step, hσ], _, hr',
      fun x hx => (hn x hx).sublist (fun _ _ => rfl) (List.Sublist.refl _), by
        simp [ListShard.tally]⟩
  | deconstruct =>
    obtain ⟨τ, hr, hn, rfl⟩ := hs
    obtain ⟨σ', hσ, hr'⟩ := hr.deconstruct
    have hF : τ.tally.frozen = [] ↔ τ.frozen = [] := by simp [ListShard.tally]
    simp only [KeyCrowd.step, hF] at h
    refine ⟨⟨σ', s.calls⟩, ?_, τ.deconstruct, hr', ?_, ?_⟩ <;> by_cases hf : τ.frozen = [] <;>
      simp only [hf, if_true, if_false] at h <;> cases h
    · simp [Crowd.step, hσ]
    · simp [Crowd.step, hσ]
    · simpa [ListShard.deconstruct, hf] using hn
    · refine fun x hx => (hn x hx).sublist (fun _ _ => ?_) ?_ <;>
        simp [ListShard.deconstruct, hf, items]
    · simp [ListShard.deconstruct, hf]
    · cases ht : τ.tier_ready <;> simp [ListShard.deconstruct, hf, ListShard.tally, ht]

/-- Where there is no step over keys, the code has none. -/
theorem Crowd.Shows.step_fails {f : Fault} (hs : s.Shows a) (h : a.step e = .error f) :
    ∃ g, s.step e = .error g := by
  obtain ⟨τ, hr, hn, rfl⟩ := hs
  cases e with
  | enter i key value => simp only [KeyCrowd.step] at h; split at h <;> cases h
  | go i =>
    simp only [KeyCrowd.step, Busy.go, Pool.get_mapPlaces] at h
    cases hc : s.calls.get i with
    | none => exact ⟨.diverge, by simp [Crowd.step, Busy.go, hc]⟩
    | some c => simp [hc] at h
  | splice =>
    simp only [KeyCrowd.step] at h
    split at h <;> rename_i hF <;> cases h
    have hF' : τ.frozen ≠ [] := by simpa [ListShard.tally] using hF
    exact ⟨.assertion, by simp [Crowd.step, Shard.tierSplice,
      assertThawed_fails hr.holds.lists.frozen (by simpa using hF')]⟩
  | rest => cases h
  | deconstruct => simp only [KeyCrowd.step] at h; split at h <;> cases h

theorem Crowd.Shows.gentle (hs : s.Shows a) : a.Gentle e ↔ s.Gentle e := by
  obtain ⟨τ, hr, -, rfl⟩ := hs
  have hfc : s.shared.fast_hash_construct = τ.tally.fast_hash_construct :=
    congrArg Core.fast_hash_construct hr.core
  have hdebt : (∀ x ∈ s.calls.mapPlaces InsertAt.forget, x.2.inDebt = false) ↔
      ∀ x ∈ s.calls, x.2.inDebt = false :=
    (Pool.forall_mapPlaces (P := fun c : InsertAt α Unit => c.inDebt = false)).trans (by simp)
  have hheld : ∀ k, (∀ x ∈ s.calls.mapPlaces InsertAt.forget, x.2.held ≠ some k) ↔
      ∀ x ∈ s.calls, x.2.held ≠ some k := fun k =>
    (Pool.forall_mapPlaces (P := fun c : InsertAt α Unit => c.held ≠ some k)).trans (by simp)
  simp only [KeyCrowd.Gentle, Crowd.Gentle, Crowd.Enabled, hfc, hdebt]
  refine and_congr_left fun _ => ?_
  cases e with
  | enter i key value => simp [CrowdStep.Enabled]
  | go i =>
    simp only [CrowdStep.Enabled, Pool.get_mapPlaces, hheld]
    cases hc : s.calls.get i with
    | none => simp
    | some c => cases c <;> simp [InsertAt.forget]
  | splice => exact Iff.rfl
  | rest => exact Iff.rfl
  | deconstruct => exact Iff.rfl

/-! ### Whole runs -/

theorem shows_init (maxSize : ℕ) : (Crowd.init maxSize : Crowd α).Shows (KeyCrowd.init maxSize) :=
  ⟨ListShard.init maxSize, rep_init maxSize,
    nofun, by simp [ListShard.tally, ListShard.init, Core.init, KeyCrowd.init, Tally.init,
      Crowd.init, Pool.mapPlaces]⟩

/-- A run of the code is a run over keys, -/
theorem Crowd.Shows.run {H : List (CrowdStep α × Outcome)} (hs : s.Shows a)
    (hst : a.shared.Steady a.calls) (hrun : Run Crowd.step Crowd.Gentle s H s') :
    ∃ a', Run KeyCrowd.step KeyCrowd.Gentle a H a' ∧ s'.Shows a' ∧ a'.shared.Steady a'.calls := by
  have hsim : ∀ (s : Crowd α) (a : KeyCrowd α) e o s', (s.Shows a ∧ a.shared.Steady a.calls) →
      s.Gentle e →
      s.step e = .ok (o, s') → a.Gentle e ∧ ∃ a', a.step e = .ok (o, a') ∧
        (s'.Shows a' ∧ a'.shared.Steady a'.calls) := by
    rintro s a e o s' ⟨hs, hst⟩ hg h
    have hg' := hs.gentle.mpr hg
    refine ⟨hg', ?_⟩
    cases ha : a.step e with
    | error f =>
      obtain ⟨g, hg⟩ := hs.step_fails ha
      rw [hg] at h
      cases h
    | ok r =>
      obtain ⟨s₁, h1, hs₁⟩ := hs.step hst hg' ha
      rw [h1] at h
      cases h
      exact ⟨r.2, rfl, hs₁, hst.step hg' ha⟩
  exact hrun.transfer hsim ⟨hs, hst⟩

/-- and a run over keys is a run of the code. -/
theorem Crowd.Shows.run_of_keys {H : List (CrowdStep α × Outcome)} (hs : s.Shows a)
    (hst : a.shared.Steady a.calls) (hrun : Run KeyCrowd.step KeyCrowd.Gentle a H a') :
    ∃ s', Run Crowd.step Crowd.Gentle s H s' ∧ s'.Shows a' := by
  have hsim : ∀ (a : KeyCrowd α) (s : Crowd α) e o a', (s.Shows a ∧ a.shared.Steady a.calls) →
      a.Gentle e →
      a.step e = .ok (o, a') → s.Gentle e ∧ ∃ s', s.step e = .ok (o, s') ∧
        (s'.Shows a' ∧ a'.shared.Steady a'.calls) := by
    rintro a s e o a' ⟨hs, hst⟩ hg h
    obtain ⟨s₁, h1, hs₁⟩ := hs.step hst hg h
    exact ⟨hs.gentle.mp hg, s₁, h1, hs₁, hst.step hg h⟩
  obtain ⟨s', h1, h2, -⟩ := hrun.transfer hsim ⟨hs, hst⟩
  exact ⟨s', h1, h2⟩

/-- With no call in flight, `m_size` counts the entries. -/
theorem Crowd.Shows.size (hs : s.Shows a) (hst : a.shared.Steady a.calls) (hc : s.calls = []) :
    s.shared.m_size = s.shared.m_map.keys.card := by
  obtain ⟨τ, hr, -, rfl⟩ := hs
  rw [hc] at hst
  have hk : Keyed τ.tally.m_map (τ.tally.frozen ++ τ.tally.main) := by
    have := hst.keyed
    simpa [Pool.mapPlaces, Tally.held] using this
  have hkeys : τ.m_map.keys = (τ.tally.frozen ++ τ.tally.main).toFinset := by
    ext k
    rw [Finmap.mem_keys, List.mem_toFinset, ← hk.mem, tally_map_isSome]
  have hsize := hst.size
  simp only [Pool.mapPlaces, List.map_nil, Pool.total_nil, add_zero] at hsize
  have hlen := hk.length_le
  have hsmall := hst.small
  rw [hr.core, hkeys, List.toFinset_card_of_nodup hk.nodup]
  have := Int.ModEq.eq hsize
  rw [Int.emod_eq_of_lt (by omega) (by exact_mod_cast hsmall),
    Int.emod_eq_of_lt (by omega) (by omega)] at this
  exact_mod_cast this

/-- A call in flight whose key no other holds does its next step. -/
theorem Crowd.Shows.goes (hs : s.Shows a) (hst : a.shared.Steady a.calls)
    (hi : i ∈ s.calls.map Prod.fst) (hg : s.Gentle (.go i)) : ∃ r, s.step (.go i) = .ok r := by
  have hg' := hs.gentle.mpr hg
  cases ha : a.step (.go i) with
  | ok r =>
    obtain ⟨s₁, h1, -⟩ := hs.step hst hg' ha
    exact ⟨_, h1⟩
  | error f =>
    obtain ⟨τ, hr, -, rfl⟩ := hs
    obtain ⟨x, hx, rfl⟩ := List.mem_map.mp hi
    obtain ⟨A, B, hp⟩ := List.append_of_mem hx
    have hd : s.calls.Distinct := by simpa [Pool.Distinct] using hst.distinct
    rw [hp] at hd
    have hget := Pool.get_middle (Pool.distinct_middle.mp hd).1 x.2
    rw [← hp] at hget
    simp [KeyCrowd.step, Busy.go, Pool.get_mapPlaces, hget] at ha

/-- As long as no splice comes while a call in flight has evicted an entry and not linked its own:
    a refused `insert` leaves the lists, the map, `m_size` and the other calls as if it had not been
    made, and with no call in flight `m_size` is the number of entries. -/
theorem refused_insert_leaves_no_trace {maxSize : ℕ} {H : List (CrowdStep α × Outcome)}
    (hrun : Run Crowd.step Crowd.Gentle (Crowd.init maxSize) H s') :
    (∀ H₁ i key value, H = H₁ ++ [(.enter i key value, .refused)] →
      Run Crowd.step Crowd.Gentle (Crowd.init maxSize) H₁ s') ∧
    (∀ H₁ H₂ i key value, H = H₁ ++ (.enter i key value, .running) :: (H₂ ++ [(.go i, .refused)]) →
      (∀ x ∈ H₂, ∀ key value, x.1 ≠ .enter i key value) →
      ∃ s'' a, Run Crowd.step Crowd.Gentle (Crowd.init maxSize)
        (H₁ ++ H₂.filter (·.1.call ≠ some i)) s'' ∧
        s'.Shows a ∧ s''.Shows a) ∧
    (∀ i ∈ s'.calls.map Prod.fst, s'.Gentle (.go i) → ∃ r, s'.step (.go i) = .ok r) ∧
    (s'.calls = [] → s'.shared.m_size = s'.shared.m_map.keys.card) := by
  have h0 := shows_init (α := α) maxSize
  have hst0 := Tally.steady_init (α := α) maxSize
  obtain ⟨a', hkeys, hs', hst'⟩ := h0.run hst0 hrun
  refine ⟨?_, ?_, fun i hi hg => hs'.goes hst' hi hg, hs'.size hst'⟩
  · rintro H₁ i key value rfl
    obtain ⟨s₁, hrun₁, hlast⟩ := hrun.split
    obtain ⟨-, hstep⟩ := hlast.single
    simp only [Crowd.step] at hstep
    split at hstep <;> cases hstep
    exact hrun₁
  · rintro H₁ H₂ i key value rfl hno
    obtain ⟨s'', hrun'', hs''⟩ := h0.run_of_keys hst0 (Tally.refused_run hst0 hkeys hno)
    exact ⟨s'', a', hrun'', hs', hs''⟩

/-- A call that is the only one in flight waits for nobody. -/
theorem enabled_alone (i : ℕ) (c : InsertAt α Ptr) (b : Bool) :
    CrowdStep.Enabled [(i, c)] b (.go i : CrowdStep α) := by
  intro key value h x hx
  obtain rfl : c = .entered key value := by simpa [Pool.get] using h
  obtain rfl := List.mem_singleton.mp hx
  exact (Option.some_ne_none key).symm

/-- An insertion that the splice overtakes before it evicts: the key is not in the map
    afterwards. -/
theorem refused_insert_leaves_no_trace_four : ∃ s' s'' : Crowd ℕ, ∃ a,
    Run Crowd.step Crowd.Gentle (Crowd.init 2) ([] ++ (.enter 0 4 (some 8), .running) ::
      ([(.go 0, .running), (.go 0, .running), (.splice, .running)] ++ [(.go 0, .refused)])) s' ∧
    Run Crowd.step Crowd.Gentle (Crowd.init 2) [(.splice, .running)] s'' ∧ s'.Shows a ∧
    s''.Shows a := by
  have hrun : ∃ s' : Crowd ℕ, Run Crowd.step Crowd.Gentle (Crowd.init 2)
      ([] ++ (.enter 0 4 (some 8), .running) ::
        ([(.go 0, .running), (.go 0, .running), (.splice, .running)] ++ [(.go 0, .refused)])) s' :=
    ⟨_, .cons ⟨⟨by simp [Crowd.init], by decide⟩, nofun⟩ rfl (.cons ⟨enabled_alone _ _ _, nofun⟩ rfl
      (.cons ⟨enabled_alone _ _ _, nofun⟩ rfl (.cons ⟨rfl, fun _ => by decide⟩ rfl
      (.cons ⟨enabled_alone _ _ _, nofun⟩ rfl .nil))))⟩
  obtain ⟨s', hrun⟩ := hrun
  obtain ⟨s'', a, h1, h2, h3⟩ :=
    (refused_insert_leaves_no_trace hrun).2.1 [] _ 0 4 (some 8) rfl (by simp)
  exact ⟨s', s'', a, hrun, h1, h2, h3⟩

/-- A splice between the eviction and the locked section: the refused insertion has thrown key 3 out
    of the map, which the shard keeps without it, and `m_size` still counts it. -/
theorem refused_insert_loses_victim : ∃ s' s'' : Crowd ℕ,
    Run Crowd.step Crowd.Enabled (Crowd.init 1) [(.enter 0 3 (some 7), .running), (.go 0, .running),
      (.go 0, .running), (.go 0, .running), (.go 0, .running), (.go 0, .inserted),
      (.enter 1 4 (some 8), .running), (.go 1, .running), (.go 1, .running), (.splice, .running),
      (.go 1, .refused)] s' ∧
    Run Crowd.step Crowd.Enabled (Crowd.init 1) [(.enter 0 3 (some 7), .running), (.go 0, .running),
      (.go 0, .running), (.go 0, .running), (.go 0, .running), (.go 0, .inserted),
      (.splice, .running)] s'' ∧
    3 ∉ s'.shared.m_map ∧ 3 ∈ s''.shared.m_map ∧
    s'.calls = [] ∧ s'.shared.m_size = 1 ∧ s'.shared.m_map.keys.card = 0 := by
  refine ⟨_, _, .cons ⟨by simp [Crowd.init], by decide⟩ rfl (.cons (enabled_alone _ _ _) rfl
    (.cons (enabled_alone _ _ _) rfl
      (.cons (enabled_alone _ _ _) rfl (.cons (enabled_alone _ _ _) rfl
    (.cons (enabled_alone _ _ _) rfl
      (.cons ⟨by decide, by decide⟩ rfl (.cons (enabled_alone _ _ _) rfl
    (.cons (enabled_alone _ _ _) rfl (.cons rfl rfl (.cons (enabled_alone _ _ _) rfl .nil)))))))))),
    .cons ⟨by simp [Crowd.init], by decide⟩ rfl (.cons (enabled_alone _ _ _) rfl
    (.cons (enabled_alone _ _ _) rfl
      (.cons (enabled_alone _ _ _) rfl (.cons (enabled_alone _ _ _) rfl
    (.cons (enabled_alone _ _ _) rfl (.cons rfl rfl .nil)))))), ?_, ?_, rfl, rfl, ?_⟩
  · decide
  · decide
  · decide

end FrozenHot
