import FrozenHot.Freeze.Tombstones

/-! Shards whose clients insert on a miss only.

    The node of each key is then on a list, and it is the node of the entry of the key; freezing,
    thawing and deleting keep that, the deletions of a frozen shard with tombstones. -/

namespace FrozenHot
open Schemes ListShard

variable {α : Type}

namespace ListShard
variable {τ τ' : ListShard α} {k : ℕ}

/-- The item of each key is the node of its entry, and nothing is frozen in a thawed shard. -/
structure Wired (τ : ListShard α) : Prop where
  sound : Sound τ
  thawed : Thawed τ
  linked : ∀ x ∈ alive τ.items, ∃ v, τ.m_map.lookup x.key = some ⟨some v, x.node⟩
  tier : τ.tier_no_insert = τ.tier_ready

/-- Entries that were there before keep their items. -/
theorem linked_of_sub {m : Finmap fun _ : ℕ => HashMapValue (Option α)} (hs : Sound τ')
    (hlinked : ∀ x ∈ alive τ'.items, ∃ v, m.lookup x.key = some ⟨some v, x.node⟩)
    (hsub : ∀ k e, τ'.m_map.lookup k = some e → m.lookup k = some e) :
    ∀ x ∈ alive τ'.items, ∃ v, τ'.m_map.lookup x.key = some ⟨some v, x.node⟩ := by
  intro x hx
  obtain ⟨e, he⟩ := Finmap.mem_iff.mp (hs.listed.mem hx)
  obtain ⟨v, hv⟩ := hlinked x hx
  exact ⟨v, by rw [he, ← hsub _ _ he, hv]⟩

theorem wired_init (maxSize : ℕ) : Wired (init maxSize : ListShard α) :=
  ⟨sound_init maxSize, fun _ _ => ⟨rfl, rfl⟩, by simp [items, init], rfl⟩

theorem Wired.linkedKey (hw : Wired τ) (hk : k ∈ τ.m_map) : τ.LinkedKey k := by
  intro e he
  obtain ⟨x, hx, rfl⟩ := List.mem_map.mp (((hw.sound.listed.keys k).mp hk).resolve_right (by simp))
  obtain ⟨v, hv⟩ := hw.linked x hx
  obtain rfl := Option.some.inj (he.symm.trans hv)
  exact List.mem_map_of_mem (mem_alive.mp hx).1

theorem Wired.find (hw : Wired τ) (ho : Own τ) (lock : Bool) (k : ℕ) : Wired (τ.find lock k).2 := by
  have hcore := find_core τ lock k
  have hperm := ho.find_perm lock k
  refine ⟨hw.sound.find ho lock k, hw.thawed.find lock k, fun x hx => ?_, ?_⟩
  · rw [hcore]
    exact hw.linked x ((hperm.filter _).mem_iff.mp hx)
  · rw [hcore]
    exact hw.tier

/-- A key that is not found is not there, or the shard takes no new keys. -/
theorem Wired.find_none (hw : Wired τ) {lock : Bool} (hf : (τ.find lock k).1 = none) :
    τ.tier_no_insert = true ∨ k ∉ τ.m_map := by
  have hslow : (findSlow lock τ k).1 = none → k ∉ τ.m_map := by
    unfold findSlow
    split
    · rename_i h
      exact fun _ => Finmap.lookup_eq_none.mp h
    · exact nofun
  rw [hw.tier]
  unfold ListShard.find at hf
  split at hf
  · split at hf
    · cases hf
    · split at hf
      · rename_i h
        exact Or.inl h
      · exact Or.inr (hslow hf)
  · exact Or.inr (hslow hf)

theorem Wired.insert {r : Bool × ListShard α} {v : α} (hw : Wired τ) (hk : ValidKey k)
    (hm : τ.tier_no_insert = true ∨ k ∉ τ.m_map) (h : τ.insert k (some v) = some r) :
    Wired r.2 := by
  have ht := hw.thawed.insert h
  rcases hw.sound.insert_cases hk (some v) with ⟨-, h'⟩ | ⟨hno, hm', -⟩ | ⟨-, hm', τ', h', hsh, hs⟩
  · obtain rfl := Option.some.inj (h'.symm.trans h)
    exact hw
  · rcases hm with hm | hm
    · exact absurd (hno.symm.trans hm) Bool.false_ne_true
    · exact absurd hm' hm
  · obtain rfl := Option.some.inj (h'.symm.trans h)
    refine ⟨hs, ht, linked_of_sub (m := (τ.linked k (some v)).m_map) hs (fun x hx => ?_)
      fun _ _ => hsh.sub, ?_⟩
    · obtain ⟨hx, htomb⟩ := mem_alive.mp hx
      rw [items, hsh.frozen] at hx
      have hx' : x = ⟨.node τ.fresh, k⟩ ∨ x ∈ τ.items := by
        rcases List.mem_append.mp hx with hx | hx
        · exact Or.inr (List.mem_append_left _ hx)
        · rcases List.mem_cons.mp (hsh.main.subset hx) with hx | hx
          · exact Or.inl hx
          · exact Or.inr (List.mem_append_right _ hx)
      rcases hx' with rfl | hx
      · exact ⟨v, Finmap.lookup_insert _⟩
      · have hx := mem_alive.mpr ⟨hx, htomb⟩
        obtain ⟨w, hw'⟩ := hw.linked x hx
        have hne : x.key ≠ k := fun h => hm' (h ▸ hw.sound.listed.mem hx)
        exact ⟨w, (Finmap.lookup_insert_of_ne _ hne).trans hw'⟩
    · rw [hsh.modes.1, hsh.modes.2.1]
      exact hw.tier

theorem Wired.delete_key (hw : Wired τ) (ho : Own τ) (k : ℕ) : Wired (τ.delete_key k) := by
  by_cases hk : k ∈ τ.m_map
  · have hlink : τ.frozenHit k = true → τ.LinkedKey k := fun _ => hw.linkedKey hk
    have hs := hw.sound.delete_key ho hlink
    have ht := hw.thawed.delete_key k
    rcases hw.sound.delete_cases ho hlink with ⟨h, -⟩ | ⟨A, x, B, F, M, hI, rfl, hI', h⟩
    · rw [h]
      exact hw
    · rw [h] at hs ht ⊢
      refine ⟨hs, ht, linked_of_sub (m := τ.m_map) hs (fun y hy => ?_) fun _ _ he =>
        (Shard.lookup_erase_cases he).1, hw.tier⟩
      have hy' : y ∈ A ++ B := hI' ▸ hy
      refine hw.linked y ?_
      rw [hI]
      rcases List.mem_append.mp hy' with hy | hy <;> simp [hy]
  · have : τ.delete_key k = τ := by rw [ListShard.delete_key, Finmap.lookup_eq_none.mpr hk]
    rw [this]
    exact hw

/-- Every call but a bare `insert` keeps it. -/
theorem Wired.call {c : Bool × FHCall α} {o : FHResp α} (hw : Wired τ) (ho : Own τ)
    (hvalid : c.2.Valid) (hc : ∀ k v, c.2 ≠ .insert k v) (h : τ.call c = some (o, τ')) :
    Wired τ' := by
  have ht := hw.thawed.call h
  obtain ⟨lock, c⟩ := c
  cases c with
  | find k => cases h; exact hw.find ho lock k
  | insert k v => exact absurd rfl (hc k v)
  | get k v =>
    obtain ⟨r, hr, h⟩ := Option.map_eq_some_iff.mp h
    cases h
    unfold ListShard.get at hr
    split at hr
    · cases hr; exact hw.find ho lock k
    · rename_i hnone
      obtain ⟨i, hi, rfl⟩ := Option.map_eq_some_iff.mp hr
      have hm := hw.find_none hnone
      rw [← find_core τ lock k] at hm
      exact (hw.find ho lock k).insert hvalid hm hi
  | delete_key k => cases h; exact hw.delete_key ho k
  | construct_tier =>
    obtain ⟨τ₁, h1, h⟩ := Option.map_eq_some_iff.mp h
    cases h
    have hs := hw.sound.construct_tier h1
    have hF := construct_tier_thawed h1
    rw [hw.sound.construct_tier_eq hF] at h1
    cases h1
    refine ⟨hs, ht, fun x hx => hw.linked x ?_, rfl⟩
    simpa [items, hF, alive_alive] using hx
  | construct_ratio FC_size =>
    obtain ⟨τ₁, h1, h⟩ := Option.map_eq_some_iff.mp h
    cases h
    have hs := hw.sound.construct_ratio h1
    obtain ⟨P, B, hF, hP, -, -, -, rfl⟩ := hw.sound.construct_ratio_cases h1
    refine ⟨hs, ht, fun x hx => hw.linked x ?_, hw.tier⟩
    simpa [items, hF, hP, alive_alive] using hx
  | deconstruct =>
    cases h
    have hs := hw.sound.deconstruct
    unfold ListShard.deconstruct at hs ht ⊢
    split at hs
    · rename_i hF
      rw [if_pos hF]
      exact hw
    · rename_i hF
      rw [if_neg hF] at ht ⊢
      refine ⟨hs, ht, fun x hx => hw.linked x (by simpa [items] using hx), ?_⟩
      show (if τ.tier_ready = true then false else τ.tier_no_insert) = false
      rw [hw.tier]
      cases τ.tier_ready <;> rfl

end ListShard
end FrozenHot
