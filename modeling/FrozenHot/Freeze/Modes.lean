import FrozenHot.Freeze.Sound

/-! The fast hash in the modes of a shard. -/

namespace FrozenHot

namespace FastHash
variable {α : Type} {t : FastHash α} {k k' : ℕ} {v : Option α}

theorem get_valid (hk : ValidKey k) : t.get k = (t.lookup k).join := by
  rw [get, Nat.mod_eq_of_lt hk.2]

@[simp] theorem get_empty : (∅ : FastHash α).get k = none := by simp [get]

theorem lookup_put (hk : ValidKey k) :
    (t.put k v).lookup k' = if k' = k then (t.lookup k).or (some v) else t.lookup k' := by
  rw [put, Nat.mod_eq_of_lt hk.2]
  by_cases hm : k ∈ t
  · obtain ⟨w, hw⟩ := Finmap.mem_iff.mp hm
    rw [if_pos hm, hw]
    split
    · rename_i h; rw [h, hw]; rfl
    · rfl
  · rw [if_neg hm, Finmap.lookup_eq_none.mpr hm]
    split
    · rename_i h; rw [h, Finmap.lookup_insert]; rfl
    · rename_i h; rw [Finmap.lookup_insert_of_ne _ h]

theorem mem_put (hk : ValidKey k) : k' ∈ t.put k v ↔ k' ∈ t ∨ k' = k := by
  have hmem : ∀ {t : FastHash α}, k' ∈ t ↔ (t.lookup k').isSome = true := fun {t} => by
    rw [Option.isSome_iff_exists, Finmap.mem_iff]
  rw [hmem, hmem, lookup_put hk]
  by_cases h : k' = k
  · subst h; simp
  · simp [h]

end FastHash

namespace ListShard
variable {α : Type} {τ τ' : ListShard α} {l : List Item} {x : Item} {k : ℕ} {t : FastHash α}
variable {m : Finmap fun _ : ℕ => HashMapValue (Option α)}

/-- Copying adds the entries of the items to what the table had. -/
theorem lookup_copy (hl : ∀ x ∈ l, ValidKey x.key ∧ x.key ∈ m) : (copy m t l).lookup k =
    (t.lookup k).or (if k ∈ l.map Item.key then (m.lookup k).map HashMapValue.m_value
      else none) := by
  induction l generalizing t with
  | nil => simp [copy]
  | cons x l ih =>
    obtain ⟨hx, hm⟩ := hl x (by simp)
    obtain ⟨e, he⟩ := Finmap.mem_iff.mp hm
    have hc : copy m t (x :: l) = copy m (t.put x.key e.m_value) l := by
      simp [copy, he]
    rw [hc, ih fun y hy => hl y (by simp [hy]), FastHash.lookup_put hx]
    by_cases hk : k = x.key
    · subst hk; simp [he]
    · simp [hk]

/-- A thawed shard has nothing frozen. -/
def Thawed (τ : ListShard α) : Prop :=
  τ.tier_ready = false → τ.fast_hash_ready = false → τ.frozen = [] ∧ τ.m_fasthash = ∅

/-- The fast hash answers for frozen keys only. -/
def Covered (τ : ListShard α) : Prop :=
  ∀ k, ValidKey k → (τ.m_fasthash.get k).isSome = true → k ∈ τ.frozen.map Item.key

/-- On a shard that is thawed or not asked for `k`, nothing is known of `k`. -/
theorem Thawed.get_none (ht : Thawed τ) (hf : τ.frozenHit k = false) :
    τ.m_fasthash.get k = none := by
  simp only [Core.frozenHit, Bool.and_eq_false_iff, Bool.or_eq_false_iff] at hf
  rcases hf with ⟨h1, h2⟩ | h
  · rw [(ht h1 h2).2]; simp
  · simpa using h

/-- Taking the node of a key off the frozen list leaves the other frozen keys. -/
theorem Own.detach_frozen {e : HashMapValue (Option α)} (ho : Own τ)
    (he : τ.m_map.lookup k = some e) (hc : Covered τ) (hk : τ.m_fasthash.get k = none) :
    ∀ k', ValidKey k' → (τ.m_fasthash.get k').isSome = true →
      k' ∈ (detach e.m_listNode τ.frozen).map Item.key := by
  intro k' hv hk'
  obtain ⟨x, hx, rfl⟩ := List.mem_map.mp (hc k' hv hk')
  refine List.mem_map_of_mem (Shard.mem_detach.mpr ⟨hx, fun hn => ?_⟩)
  rw [ho.key k e he x (List.mem_append_left _ hx) hn, hk] at hk'
  cases hk'

theorem Thawed.detach (ht : Thawed τ) (n : Ptr) : τ.tier_ready = false → τ.fast_hash_ready = false →
    ListShard.detach n τ.frozen = [] ∧ τ.m_fasthash = ∅ := fun h1 h2 => by
  obtain ⟨h3, h4⟩ := ht h1 h2
  exact ⟨by simp [h3, ListShard.detach], h4⟩

theorem Shrunk.thawed (h : Shrunk τ τ') (ht : Thawed τ) : Thawed τ' := by
  obtain ⟨_, _, _, rfl, _⟩ := h; exact ht

theorem Shrunk.covered (h : Shrunk τ τ') (hc : Covered τ) : Covered τ' := by
  obtain ⟨_, _, _, rfl, _⟩ := h; exact hc

/-- The items a freeze copies are entries under valid keys. -/
theorem Sound.copied (hs : Sound τ) {A : List Item} (hA : ∀ x ∈ A, x ∈ τ.items) :
    ∀ x ∈ alive A, ValidKey x.key ∧ x.key ∈ τ.m_map := fun x hx => by
  obtain ⟨h1, h2⟩ := mem_alive.mp hx
  have hm := (hs.mem_iff (hA x h1)).mpr h2
  exact ⟨hs.listed.valid _ hm, hm⟩

/-- What a freeze of a shard with nothing frozen copies is what it freezes. -/
theorem Covered.copy (hc : Covered τ) (hF : τ.frozen = []) {K : List Item}
    (hK : ∀ x ∈ K, ValidKey x.key ∧ x.key ∈ τ.m_map) (hv : ValidKey k)
    (hk : ((ListShard.copy τ.m_map τ.m_fasthash K).get k).isSome = true) : k ∈ K.map Item.key := by
  by_contra hno
  rw [FastHash.get_valid hv, lookup_copy hK, if_neg hno, Option.or_none, ← FastHash.get_valid hv]
    at hk
  have := hc k hv hk
  simp [hF] at this

end ListShard
end FrozenHot
