import FrozenHot.Freeze.Modes

/-! Deleted keys.

    A `delete_key` of a key that the fast hash answers for erases the entry of the map and leaves
    the one of the fast hash, and one of a key that was inserted twice erases nothing. Where neither
    happens a deleted key stays away until it is inserted again. -/

namespace FrozenHot
open Schemes ListShard

variable {α : Type} {τ τ' : ListShard α} {σ : Shard α} {k : ℕ}

namespace ListShard

/-- The invariant: one item for each key, and the fast hash answers for frozen keys only. -/
structure Keeps (τ : ListShard α) : Prop where
  sound : Sound τ
  thawed : Thawed τ
  covered : Covered τ

theorem keeps_init (maxSize : ℕ) : Keeps (init maxSize : ListShard α) :=
  ⟨sound_init maxSize, fun _ _ => ⟨rfl, rfl⟩, fun k _ hk => by simp [init, Core.init] at hk⟩

theorem Keeps.find (hi : Keeps τ) (ho : Own τ) (lock : Bool) (k : ℕ) : Keeps (τ.find lock k).2 := by
  have hs := hi.sound.find ho lock k
  rcases find_moves τ lock k with h | ⟨e, x, he, ht, hr, h⟩
  · rw [h]; exact hi
  · rw [h] at hs ⊢
    refine ⟨hs, hi.thawed.detach _, ho.detach_frozen he hi.covered ?_⟩
    cases hr' : τ.fast_hash_ready with
    | true => exact hr hr'
    | false => rw [(hi.thawed ht hr').2]; simp

theorem Keeps.insert {v : Option α} {r : Bool × ListShard α} (hi : Keeps τ) (hk : ValidKey k)
    (h : τ.insert k v = some r) : Keeps r.2 := by
  rcases hi.sound.insert_cases hk v with ⟨-, h'⟩ | ⟨-, hm, h'⟩ | ⟨-, -, τ', h', hsh, hs⟩ <;>
    rw [h'] at h <;> cases h
  · exact hi
  · exact ⟨hi.sound.place hm v, hi.thawed, hi.covered⟩
  · exact ⟨hs, hsh.thawed hi.thawed, hsh.covered hi.covered⟩

theorem Keeps.delete_key (hi : Keeps τ) (ho : Own τ) (hf : k ∈ τ.m_map → τ.frozenHit k = false) :
    Keeps (τ.delete_key k) := by
  have hs : Sound (τ.delete_key k) := hi.sound.delete_key ho fun h e he => by
    rw [hf (Finmap.mem_iff.mpr ⟨e, he⟩)] at h; cases h
  rcases ListShard.delete_cases hi.sound.idle k with ⟨h, -⟩ | ⟨e, he, ⟨h, -⟩ | ⟨hf', -, h⟩⟩
  · rw [h]; exact hi
  · rw [hf (Finmap.mem_iff.mpr ⟨e, he⟩)] at h; cases h
  · rw [h] at hs ⊢
    exact ⟨hs, hi.thawed.detach _, ho.detach_frozen he hi.covered (hi.thawed.get_none hf')⟩

theorem Keeps.construct_tier (hi : Keeps τ) (h : τ.construct_tier = some τ') : Keeps τ' := by
  have hs := hi.sound.construct_tier h
  have hF := construct_tier_thawed h
  rw [hi.sound.construct_tier_eq hF] at h
  cases h
  exact ⟨hs, (fun h => by cases h), fun k hv hk =>
    hi.covered.copy hF (hi.sound.copied fun x hx => List.mem_append_right _ hx) hv hk⟩

theorem Keeps.construct_ratio {FC_size : ℕ} (hi : Keeps τ)
    (h : τ.construct_ratio FC_size = some τ') : Keeps τ' := by
  have hs := hi.sound.construct_ratio h
  obtain ⟨P, B, hF, hP, -, -, -, rfl⟩ := hi.sound.construct_ratio_cases h
  refine ⟨hs, (fun _ h => by cases h), fun k hv hk => ?_⟩
  refine hi.covered.copy hF (hi.sound.copied fun x hx => ?_) hv hk
  rw [items, hP]; simp [hx]

theorem Keeps.deconstruct (hi : Keeps τ) : Keeps τ.deconstruct := by
  have hs := hi.sound.deconstruct
  unfold ListShard.deconstruct at hs ⊢
  split
  · exact hi
  · rename_i hF
    rw [if_neg hF] at hs
    exact ⟨hs, fun _ _ => ⟨rfl, rfl⟩, fun k _ hk => by simp at hk⟩

/-- A key that `find` finds is in the map. -/
theorem Keeps.find_none (hi : Keeps τ) (hk : ValidKey k) (hm : k ∉ τ.m_map) (lock : Bool) :
    (τ.find lock k).1 = none := by
  have hg : τ.m_fasthash.get k = none := by
    by_contra hg
    obtain ⟨x, hx, rfl⟩ := List.mem_map.mp (hi.covered k hk (Option.ne_none_iff_isSome.mp hg))
    exact hm ((hi.sound.mem_iff (List.mem_append_left _ hx)).mpr hk.ne_tomb)
  have hslow : (findSlow lock τ k).1 = none := by
    simp [findSlow, Finmap.lookup_eq_none.mpr hm]
  unfold ListShard.find
  split
  · rw [hg]
    dsimp only
    split
    · rfl
    · exact hslow
  · exact hslow

/-- Only a successful insertion of a key brings it into the map. -/
theorem Keeps.insert_notMem {k' : ℕ} {v : Option α} {r : Bool × ListShard α} (hi : Keeps τ)
    (hk : ValidKey k') (h : τ.insert k' v = some r) (hm : k ∉ τ.m_map) (hne : k' = k → r.1 ≠ true) :
    k ∉ r.2.m_map := by
  rcases hi.sound.insert_cases hk v with ⟨-, h'⟩ | ⟨-, hm', h'⟩ | ⟨-, -, τ', h', hsh, hs⟩ <;>
    rw [h'] at h <;> cases h
  · exact hm
  · simp only [place, Finmap.mem_insert, not_or]
    exact ⟨fun h => hm (h ▸ hm'), hm⟩
  · intro hc
    obtain ⟨e, he⟩ := Finmap.mem_iff.mp hc
    obtain ⟨m, s, M, rfl, -, hsub⟩ := hsh
    have hmem : k ∈ (τ.linked k' v).m_map := Finmap.mem_iff.mpr ⟨e, hsub k e he⟩
    simp only [linked, place, Finmap.mem_insert] at hmem
    exact hmem.elim (fun h => hne h.symm rfl) hm

theorem delete_subset (hc : τ.fast_hash_construct = false) {k' : ℕ} (hm : k ∉ τ.m_map) :
    k ∉ (τ.delete_key k').m_map := by
  rcases ListShard.delete_cases hc k' with ⟨h, -⟩ | ⟨e, he, ⟨-, h⟩ | ⟨-, -, h⟩⟩ <;> rw [h]
  · exact hm
  · exact fun h => hm (Finmap.mem_erase.mp h).2
  · exact fun h => hm (Finmap.mem_erase.mp h).2

end ListShard

/-! ### Runs -/

/-- The calls other than the client's read request. -/
def FHCall.Basic : FHCall α → Prop
  | .get _ _ => False
  | _ => True

/-- A key whose deletion is complete: it is absent, or its node is linked and the fast hash does not
    answer for it. -/
def Deletable (σ : Shard α) (k : ℕ) : Prop :=
  ∀ e, σ.m_map.lookup k = some e → isInList σ.heap e.m_listNode = .ok true ∧ σ.frozenHit k = false

/-- The calls of a run in which deletions are complete. -/
def DeletesWell (σ : Shard α) (c : Bool × FHCall α) : Prop :=
  c.2.Basic ∧ c.2.Valid ∧ ∀ k, c.2 = .delete_key k → Deletable σ k

/-- A shard whose view over lists keeps deleted keys away. -/
def Keeping (σ : Shard α) : Prop := ∃ τ, Shard.Rep none σ τ ∧ Keeps τ

theorem Deletable.frozenHit (hd : Deletable σ k) (hr : Shard.Rep none σ τ) (hm : k ∈ τ.m_map) :
    τ.frozenHit k = false := by
  obtain ⟨e, he⟩ := Finmap.mem_iff.mp hm
  have := hd e (by rw [hr.core]; exact he)
  rw [hr.core] at this
  exact this.2

/-- One call: it keeps the invariant, and only an insertion brings an absent key in. -/
theorem Keeping.step {κ : FHList} {c : Bool × FHCall α} {o : FHResp α} {σ' : Shard α}
    (hi : Keeping σ) (hc : DeletesWell σ c) (h : κ.call σ c = .ok (o, σ')) :
    Keeping σ' ∧ (k ∉ σ.m_map → (∀ v, c.2 = .insert k v → o ≠ .inserted true) → k ∉ σ'.m_map) := by
  obtain ⟨τ, hr, hi⟩ := hi
  obtain ⟨hbasic, hvalid, hdel⟩ := hc
  obtain ⟨τ', hτ, hr'⟩ := hr.call_ok hvalid h
  have ho := own_of_rep hr
  rw [hr.core, hr'.core]
  obtain ⟨lock, c⟩ := c
  cases c with
  | find k' =>
    cases hτ
    exact ⟨⟨_, hr', hi.find ho _ k'⟩, fun hm _ => by rw [find_core]; exact hm⟩
  | insert k' v =>
    obtain ⟨r, hins, he⟩ := Option.map_eq_some_iff.mp hτ
    cases he
    refine ⟨⟨_, hr', hi.insert hvalid hins⟩, fun hm hno => hi.insert_notMem hvalid hins hm ?_⟩
    rintro rfl hb
    exact hno v rfl (by rw [hb])
  | get k' v => exact hbasic.elim
  | delete_key k' =>
    cases hτ
    have hd := hdel k' rfl
    exact ⟨⟨_, hr', hi.delete_key ho (hd.frozenHit hr)⟩, fun hm _ => delete_subset hi.sound.idle hm⟩
  | construct_tier =>
    obtain ⟨τ₁, ht, he⟩ := Option.map_eq_some_iff.mp hτ
    cases he
    refine ⟨⟨_, hr', hi.construct_tier ht⟩, fun hm _ => ?_⟩
    rw [hi.sound.construct_tier_eq (construct_tier_thawed ht)] at ht
    cases ht; exact hm
  | construct_ratio FC_size =>
    obtain ⟨τ₁, ht, he⟩ := Option.map_eq_some_iff.mp hτ
    cases he
    refine ⟨⟨_, hr', hi.construct_ratio ht⟩, fun hm _ => ?_⟩
    obtain ⟨P, B, -, -, -, -, -, rfl⟩ := hi.sound.construct_ratio_cases ht
    exact hm
  | deconstruct =>
    cases hτ
    refine ⟨⟨_, hr', hi.deconstruct⟩, fun hm _ => ?_⟩
    unfold ListShard.deconstruct
    split <;> exact hm

/-- A complete deletion removes the key from the map. -/
theorem Keeping.deleted {κ : FHList} {lock : Bool} {o : FHResp α} {σ' : Shard α} (hi : Keeping σ)
    (hk : ValidKey k) (hd : Deletable σ k) (h : κ.call σ (lock, .delete_key k) = .ok (o, σ')) :
    k ∉ σ'.m_map := by
  obtain ⟨τ, hr, hi⟩ := hi
  obtain ⟨τ', hτ, hr'⟩ := hr.call_ok (c := (lock, .delete_key k)) hk h
  cases hτ
  rw [hr'.core]
  rcases ListShard.delete_cases hi.sound.idle k with ⟨h, hno⟩ | ⟨e, he, ⟨-, h⟩ | ⟨-, -, h⟩⟩ <;>
    rw [h]
  · -- the node is linked, so the deletion is not a no-op
    intro hm
    obtain ⟨e, he⟩ := Finmap.mem_iff.mp hm
    have hout := (hr.holds.entry k e he).place.resolve_left (hno e he).2
    have hin := (hd e (by rw [hr.core]; exact he)).1
    rw [isInList_unlinked hout] at hin
    cases hin
  · exact fun h => (Finmap.mem_erase.mp h).1 rfl
  · exact fun h => (Finmap.mem_erase.mp h).1 rfl

theorem keeping_init (maxSize : ℕ) : Keeping (Shard.init maxSize : Shard α) :=
  ⟨_, Shard.rep_init maxSize, keeps_init maxSize⟩

/-- In a run in which deletions are complete, a deleted key is not found again until it is inserted
    again, whatever freezes and thaws come in between. -/
theorem deleted_keys_stay_away (κ : FHList) {maxSize k : ℕ} {σ : Shard α} {lock lock' : Bool}
    {r o : FHResp α} {A B C : List ((Bool × FHCall α) × FHResp α)} (hk : ValidKey k)
    (hrun : Run κ.call DeletesWell (Shard.init maxSize)
      (A ++ ((lock, .delete_key k), r) :: B ++ ((lock', .find k), o) :: C) σ)
    (hno : ∀ lock v, ((lock, FHCall.insert k v), FHResp.inserted true) ∉ B) : o = .found none := by
  have hsplit : A ++ ((lock, FHCall.delete_key k), r) :: B ++ ((lock', .find k), o) :: C =
      A ++ ([((lock, .delete_key k), r)] ++ (B ++ ([((lock', .find k), o)] ++ C))) := by simp
  rw [hsplit] at hrun
  obtain ⟨σ₁, h1, hrun⟩ := hrun.split
  obtain ⟨σ₂, h2, hrun⟩ := hrun.split
  obtain ⟨σ₃, h3, hrun⟩ := hrun.split
  obtain ⟨σ₄, h4, -⟩ := hrun.split
  have hi₁ : Keeping σ₁ := h1.invariant Keeping (keeping_init maxSize)
    fun _ _ _ _ hi hP _ hs => (hi.step (k := k) hP hs).1
  obtain ⟨hP₂, hs₂⟩ := h2.single
  have hi₂ := (hi₁.step (k := k) hP₂ hs₂).1
  have hm₂ := hi₁.deleted hk (hP₂.2.2 k rfl) hs₂
  -- between the deletion and the lookup the key stays out of the map
  have hi₃ : Keeping σ₃ ∧ k ∉ σ₃.m_map := h3.invariant (fun σ => Keeping σ ∧ k ∉ σ.m_map) ⟨hi₂, hm₂⟩
    fun s c o s' hi hP hmem hs => by
      obtain ⟨h1, h2⟩ := hi.1.step (k := k) hP hs
      refine ⟨h1, h2 hi.2 fun v hv ho => ?_⟩
      obtain ⟨lock, c⟩ := c
      subst hv ho
      exact hno lock v hmem
  obtain ⟨⟨τ, hr, hi⟩, hm⟩ := hi₃
  obtain ⟨hP₄, hs₄⟩ := h4.single
  obtain ⟨τ', hτ, -⟩ := hr.call_ok hP₄.2.1 hs₄
  cases hτ
  rw [hr.core] at hm
  rw [hi.find_none hk hm]

/-- A key deleted in plain mode is not found in the frozen shard. -/
theorem deleted_keys_stay_away_three :
    ∃ o σ, Run FHList.LRU_FH.call DeletesWell (Shard.init 10 : Shard ℕ)
    ([((true, .insert 3 (some 7)), .inserted true)] ++ ((true, .delete_key 3), .done) ::
      [((true, .construct_tier), .done)] ++ ((true, .find 3), o) :: []) σ ∧ o = .found none := by
  have hrun : ∃ σ, Run FHList.LRU_FH.call DeletesWell (Shard.init 10 : Shard ℕ)
      ([((true, .insert 3 (some 7)), .inserted true)] ++ ((true, .delete_key 3), .done) ::
        [((true, .construct_tier), .done)] ++ ((true, .find 3), .found none) :: []) σ := by
    refine ⟨_, .cons ⟨trivial, by decide, by simp⟩ rfl (.cons ⟨trivial, by decide, ?_⟩ rfl
      (.cons ⟨trivial, trivial, by simp⟩ rfl (.cons ⟨trivial, by decide, by simp⟩ rfl .nil)))⟩
    rintro k ⟨⟩ e he
    obtain rfl := Option.some.inj (he.symm.trans rfl)
    exact ⟨rfl, rfl⟩
  obtain ⟨σ, hrun⟩ := hrun
  exact ⟨_, σ, hrun, deleted_keys_stay_away .LRU_FH (by decide) hrun (by simp)⟩

/-- A key deleted while the shard is frozen is found afterwards. -/
theorem frozen_delete_forgotten : ∃ σ, Run FHList.LRU_FH.call (fun _ c => c.2.Basic ∧ c.2.Valid)
    (Shard.init 10 : Shard ℕ)
    [((true, .insert 3 (some 7)), .inserted true), ((true, .construct_tier), .done),
      ((true, .delete_key 3), .done), ((true, .find 3), .found (some (some 7)))] σ :=
  ⟨_, .cons ⟨trivial, by decide⟩ rfl (.cons ⟨trivial, trivial⟩ rfl (.cons ⟨trivial, by decide⟩ rfl
    (.cons ⟨trivial, by decide⟩ rfl .nil)))⟩

end FrozenHot
