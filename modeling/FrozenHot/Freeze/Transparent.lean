import FrozenHot.Freeze.Deletes

/-! Freezing is transparent to the lookups of a client.

    A client finds before it inserts and never deletes, so every entry's node stays linked, nothing
    becomes a tombstone, and the fast hash holds the entries of the frozen list, no more and no
    less. -/

namespace FrozenHot
open Schemes

variable {α : Type}

/-- A client's requests, and the freezes and thaws between them. -/
def FHCall.Client : FHCall α → Prop
  | .get _ _ | .construct_tier | .construct_ratio _ | .deconstruct => True
  | _ => False

namespace ListShard
variable {τ τ' : ListShard α} {x : Item} {k : ℕ} {e : HashMapValue (Option α)}

/-- Every item is the node of its entry, and the fast hash holds the entries of the frozen items. -/
structure Tidy (τ : ListShard α) : Prop where
  keeps : Keeps τ
  linked : ∀ x ∈ τ.items, ∃ e, τ.m_map.lookup x.key = some e ∧ e.m_listNode = x.node
  filled : ∀ k ∈ τ.frozen.map Item.key,
    τ.m_fasthash.lookup k = (τ.m_map.lookup k).map HashMapValue.m_value
  only : ∀ k ∉ τ.frozen.map Item.key, τ.m_fasthash.lookup k = none
  tier : τ.tier_no_insert = τ.tier_ready
  tier_main : τ.tier_ready = true → τ.main = []

/-- The invariant of such runs: moreover no value is null. -/
structure Clear (τ : ListShard α) : Prop extends Tidy τ where
  values : ∀ k e, τ.m_map.lookup k = some e → e.m_value.isSome = true

theorem clear_init (maxSize : ℕ) : Clear (init maxSize : ListShard α) := by
  refine ⟨⟨keeps_init maxSize, ?_, ?_, ?_, rfl, fun h => by cases h⟩, ?_⟩ <;>
    simp [init, Core.init, items]

theorem Tidy.alive_eq (hc : Tidy τ) {A : List Item} (hA : ∀ x ∈ A, x ∈ τ.items) : alive A = A := by
  rw [alive, List.filter_eq_self]
  intro x hx
  obtain ⟨e, he, -⟩ := hc.linked x (hA x hx)
  simpa using hc.keeps.sound.ne_tomb (Finmap.mem_iff.mpr ⟨e, he⟩)

theorem Tidy.mem_iff (hc : Tidy τ) : k ∈ τ.m_map ↔ k ∈ τ.items.map Item.key := by
  have := hc.keeps.sound.listed.keys k
  rw [hc.alive_eq fun _ h => h] at this
  simpa using this

theorem Tidy.valid (hc : Tidy τ) (hx : x ∈ τ.items) : ValidKey x.key :=
  hc.keeps.sound.listed.valid _ (hc.mem_iff.mpr (List.mem_map_of_mem hx))

theorem Tidy.nodup (hc : Tidy τ) : (τ.items.map Item.key).Nodup := by
  have := hc.keeps.sound.listed.nodup
  rwa [hc.alive_eq fun _ h => h] at this

theorem Tidy.entry (hc : Tidy τ) (hx : x ∈ τ.items) :
    ∃ v, τ.m_map.lookup x.key = some ⟨v, x.node⟩ := by
  obtain ⟨⟨v, n⟩, he, rfl⟩ := hc.linked x hx
  exact ⟨v, he⟩

theorem Clear.lookup (hc : Clear τ) (hx : x ∈ τ.items) :
    ∃ v, τ.m_map.lookup x.key = some ⟨some v, x.node⟩ := by
  obtain ⟨w, he⟩ := hc.entry hx
  obtain ⟨v, rfl⟩ := Option.isSome_iff_exists.mp (hc.values _ _ he)
  exact ⟨v, he⟩

/-- The fast hash answers for exactly the frozen keys. -/
theorem Tidy.get (hc : Tidy τ) (hk : ValidKey k) : τ.m_fasthash.get k =
    if k ∈ τ.frozen.map Item.key then ((τ.m_map.lookup k).map HashMapValue.m_value).join
    else none := by
  rw [FastHash.get_valid hk]
  split
  · rename_i h; rw [hc.filled k h]
  · rename_i h; rw [hc.only k h]; rfl

theorem findSlow_fst (τ : ListShard α) (lock : Bool) (k : ℕ) :
    (findSlow lock τ k).1 = (τ.m_map.lookup k).map HashMapValue.m_value := by
  unfold findSlow; split <;> simp_all

/-- `find` answers for a key that is not frozen from the map, whatever mode the shard is in. -/
theorem Tidy.find_eq (hc : Tidy τ) (hk : ValidKey k) (hF : k ∉ τ.frozen.map Item.key)
    (lock : Bool) :
    (τ.find lock k).1 = (τ.m_map.lookup k).map HashMapValue.m_value := by
  have hslow := findSlow_fst τ lock k
  unfold find
  split
  · rw [hc.get hk, if_neg hF]
    dsimp only
    split
    · -- frozen as a whole: there are no other keys
      rename_i ht
      have hm : k ∉ τ.m_map := by
        rw [hc.mem_iff, items, hc.tier_main ht, List.append_nil]; exact hF
      simp [Finmap.lookup_eq_none.mpr hm]
    · exact hslow
  · exact hslow

/-- If no value is null, the same holds for every key. -/
theorem Clear.find_eq (hc : Clear τ) (hk : ValidKey k) (lock : Bool) :
    (τ.find lock k).1 = (τ.m_map.lookup k).map HashMapValue.m_value := by
  by_cases hF : k ∈ τ.frozen.map Item.key
  · obtain ⟨x, hx, rfl⟩ := List.mem_map.mp hF
    obtain ⟨v, hv⟩ := hc.lookup (List.mem_append_left _ hx)
    have hslow := findSlow_fst τ lock x.key
    unfold find
    split
    · rw [hc.get hk]; simp [hF, hv]
    · exact hslow
  · exact hc.toTidy.find_eq hk hF lock

/-! ### `find`, by where the key is -/

theorem Tidy.find_absent (hc : Tidy τ) (hk : ValidKey k) (hm : k ∉ τ.m_map) (lock : Bool) :
    τ.find lock k = (none, τ) := by
  refine Prod.ext (hc.keeps.find_none hk hm lock) ?_
  rcases find_cases τ lock k with h | ⟨e, he, -⟩
  · exact h
  · exact (hm (Finmap.mem_iff.mpr ⟨e, he⟩)).elim

/-- A frozen key is answered by the fast hash. -/
theorem Clear.find_frozen (hc : Clear τ) (hx : x ∈ τ.frozen) (lock : Bool) :
    (τ.find lock x.key).2 = τ := by
  have hxI : x ∈ τ.items := List.mem_append_left _ hx
  obtain ⟨v, hv⟩ := hc.lookup hxI
  have hg := hc.get (hc.valid hxI)
  rw [if_pos (List.mem_map_of_mem hx), hv] at hg
  have hflag : (τ.tier_ready || τ.fast_hash_ready) = true := by
    by_contra hno
    simp only [Bool.or_eq_true, not_or, Bool.not_eq_true] at hno
    rw [(hc.keeps.thawed hno.1 hno.2).1] at hx
    cases hx
  have hg' : τ.m_fasthash.get x.key = some v := hg
  simp [ListShard.find, hflag, hg']

/-- A key of the main list moves to its front if the lock is taken. -/
theorem Tidy.find_main {A B : List Item} (hc : Tidy τ) (ho : Own τ) (hm : τ.main = A ++ x :: B)
    (lock : Bool) :
    (τ.find lock x.key).2 = if lock then { τ with main := x :: (A ++ B) } else τ := by
  have hxm : x ∈ τ.main := by simp [hm]
  have hxI : x ∈ τ.items := List.mem_append_right _ hxm
  obtain ⟨v, hv⟩ := hc.entry hxI
  have hnF : x.key ∉ τ.frozen.map Item.key := by
    have := hc.nodup
    rw [items, List.map_append] at this
    exact fun h => (List.nodup_append'.mp this).2.2 h (List.mem_map_of_mem hxm)
  have hg := hc.get (hc.valid hxI)
  rw [if_neg hnF] at hg
  have ht : τ.tier_ready = false := by
    cases ht : τ.tier_ready with
    | false => rfl
    | true => rw [hc.tier_main ht] at hxm; cases hxm
  have hfind : (τ.find lock x.key).2 = (findSlow lock τ x.key).2 := by
    cases hr : τ.fast_hash_ready <;> simp [ListShard.find, ht, hr, hg]
  have hidle := hc.keeps.sound.idle
  rw [hfind, findSlow, hv]
  cases lock
  · simp
  · obtain ⟨y, hy, hf, hyn⟩ := Shard.find?_node (List.mem_map_of_mem (f := Item.node) hxI)
    have hyx : y = x := (List.nodup_map_iff_inj_on (List.Nodup.of_map _ ho.nodup)).mp ho.nodup
      y hy x hxI hyn
    subst hyx
    have hnd := ho.nodup
    rw [items, hm, List.map_append] at hnd
    obtain ⟨-, hnM, hdj⟩ := List.nodup_append'.mp hnd
    rw [List.map_append, List.map_cons] at hnM
    have hdF : detach y.node τ.frozen = τ.frozen := detach_none fun h => hdj h (by simp)
    have hdM : detach y.node τ.main = A ++ B := by
      rw [hm];
        exact detach_middle (by rw [List.map_append]; exact (List.nodup_middle.mp hnM).notMem)
    simp [hidle, promote, hf, hdF, hdM]

/-- A key is absent, frozen, or on the main list. -/
theorem Tidy.where_is (hc : Tidy τ) (k : ℕ) : k ∉ τ.m_map ∨ (∃ x ∈ τ.frozen, x.key = k) ∨
    ∃ A x B, τ.main = A ++ x :: B ∧ x.key = k := by
  by_cases hm : k ∈ τ.m_map
  · right
    obtain ⟨x, hx, rfl⟩ := List.mem_map.mp (hc.mem_iff.mp hm)
    rcases List.mem_append.mp hx with hx | hx
    · exact Or.inl ⟨x, hx, rfl⟩
    · obtain ⟨A, B, h⟩ := List.append_of_mem hx
      exact Or.inr ⟨A, x, B, h, rfl⟩
  · exact Or.inl hm

/-! ### The requests keep the invariant -/

/-- Finding a key that is not frozen. -/
theorem Tidy.find (hc : Tidy τ) (ho : Own τ) (hk : ValidKey k) (hF : k ∉ τ.frozen.map Item.key)
    (lock : Bool) : Tidy (τ.find lock k).2 ∧ (τ.find lock k).2.frozen = τ.frozen := by
  have hkeeps := hc.keeps.find ho lock k
  rcases hc.where_is k with hm | ⟨x, hx, rfl⟩ | ⟨A, x, B, hm, rfl⟩
  · rw [hc.find_absent hk hm]; exact ⟨hc, rfl⟩
  · exact (hF (List.mem_map_of_mem hx)).elim
  · rw [hc.find_main ho hm] at hkeeps ⊢
    cases lock
    · exact ⟨hc, rfl⟩
    · refine ⟨⟨hkeeps, fun y hy => hc.linked y ?_, hc.filled, hc.only, hc.tier, fun ht => ?_⟩, rfl⟩
      · simp only [items, if_true, List.mem_append, List.mem_cons, hm] at hy ⊢
        tauto
      · have := hc.tier_main ht
        rw [hm] at this; simp at this

theorem Clear.find (hc : Clear τ) (ho : Own τ) (hk : ValidKey k) (lock : Bool) :
    Clear (τ.find lock k).2 ∧ (τ.find lock k).2.frozen = τ.frozen := by
  by_cases hF : k ∈ τ.frozen.map Item.key
  · obtain ⟨x, hx, rfl⟩ := List.mem_map.mp hF
    rw [hc.find_frozen hx]; exact ⟨hc, rfl⟩
  · obtain ⟨h1, h2⟩ := hc.toTidy.find ho hk hF lock
    exact ⟨⟨h1, by rw [find_core]; exact hc.values⟩, h2⟩

/-- Inserting an absent key. -/
theorem Tidy.insert (hc : Tidy τ) (hk : ValidKey k) (hm : k ∉ τ.m_map) (v : Option α) :
    ∃ b τ', τ.insert k v = some (b, τ') ∧ Tidy τ' ∧
      ∀ k' e, τ'.m_map.lookup k' = some e → e.m_value = v ∨ τ.m_map.lookup k' = some e := by
  rcases hc.keeps.sound.insert_cases hk v with ⟨-, h⟩ | ⟨-, hm', -⟩ | ⟨hno, -, τ', h, hsh, hs⟩
  · exact ⟨_, _, h, hc, fun k' e he => Or.inr he⟩
  · exact (hm hm').elim
  · have hkeeps : Keeps τ' := hc.keeps.insert hk h
    have hF : τ'.frozen = τ.frozen := hsh.frozen
    have hsubI : ∀ x ∈ τ'.items, x = ⟨.node τ.fresh, k⟩ ∨ x ∈ τ.items := fun x hx => by
      rcases List.mem_append.mp hx with hx | hx
      · exact Or.inr (List.mem_append_left _ (hF ▸ hx))
      · exact (List.mem_cons.mp (hsh.main.subset hx)).imp id (List.mem_append_right _)
    -- an entry that is left is the new one or was there before
    have hlook : ∀ k' e, τ'.m_map.lookup k' = some e → (k' = k ∧ e = ⟨v, .node τ.fresh⟩) ∨
        (k' ≠ k ∧ τ.m_map.lookup k' = some e) := fun k' e he => by
      have := hsh.sub he
      by_cases hkk : k' = k
      · subst hkk
        simp only [ListShard.linked, place, Finmap.lookup_insert, Option.some.injEq] at this
        exact Or.inl ⟨rfl, this.symm⟩
      · simp only [ListShard.linked, place, Finmap.lookup_insert_of_ne _ hkk] at this
        exact Or.inr ⟨hkk, this⟩
    have hold : ∀ x ∈ τ.items, x.key ≠ k := fun x hx hxk =>
      hm (hxk ▸ hc.mem_iff.mpr (List.mem_map_of_mem hx))
    have hent : ∀ x ∈ τ'.items, ∃ e, τ'.m_map.lookup x.key = some e := fun x hx => by
      refine Finmap.mem_iff.mp ((hs.mem_iff hx).mpr ?_)
      rcases hsubI x hx with rfl | hx
      · exact hk.ne_tomb
      · exact (hc.valid hx).ne_tomb
    refine ⟨_, τ', h, ⟨hkeeps, fun x hx => ?_, fun k' hk' => ?_, ?_, ?_, fun ht => ?_⟩,
      fun k' e he => ?_⟩
    · obtain ⟨e, he⟩ := hent x hx
      refine ⟨e, he, ?_⟩
      rcases hlook _ e he with ⟨hkk, rfl⟩ | ⟨hkk, he'⟩
      · rcases hsubI x hx with rfl | hx'
        · rfl
        · exact (hold x hx' hkk).elim
      · rcases hsubI x hx with rfl | hx'
        · exact (hkk rfl).elim
        · obtain ⟨e', he'', hn⟩ := hc.linked x hx'
          rw [he'] at he''
          cases he''; exact hn
    · obtain ⟨x, hx, rfl⟩ := List.mem_map.mp hk'
      obtain ⟨e, he⟩ := hent x (List.mem_append_left _ hx)
      rw [hF] at hx hk'
      rw [hsh.fasthash, he]
      rcases hlook _ e he with ⟨hkk, -⟩ | ⟨-, he'⟩
      · exact (hold x (List.mem_append_left _ hx) hkk).elim
      · exact (hc.filled _ hk').trans (by rw [he'])
    · rw [hF, hsh.fasthash]; exact hc.only
    · rw [hsh.modes.1, hsh.modes.2.1]; exact hc.tier
    · rw [hsh.modes.1] at ht
      have : τ.tier_no_insert = true := hc.tier.trans ht
      rw [hno] at this; cases this
    · rcases hlook k' e he with ⟨-, rfl⟩ | ⟨-, he'⟩
      · exact Or.inl rfl
      · exact Or.inr he'

theorem Clear.insert (hc : Clear τ) (hk : ValidKey k) (hm : k ∉ τ.m_map) (v : α) :
    ∃ b τ', τ.insert k (some v) = some (b, τ') ∧ Clear τ' := by
  obtain ⟨b, τ', h, ht, hv⟩ := hc.toTidy.insert hk hm (some v)
  refine ⟨b, τ', h, ht, fun k' e he => ?_⟩
  rcases hv k' e he with h1 | h1
  · rw [h1]; rfl
  · exact hc.values k' e h1

/-- A read request returns. -/
theorem Clear.request (hc : Clear τ) (ho : Own τ) (hk : ValidKey k) (lock : Bool) (v : α) :
    ∃ g τ', τ.get lock k (some v) = some (g, τ') ∧ Clear τ' := by
  unfold ListShard.get
  cases hf : (τ.find lock k).1 with
  | some w => exact ⟨_, _, rfl, (hc.find ho hk lock).1⟩
  | none =>
    rw [hc.find_eq hk, Option.map_eq_none_iff] at hf
    have hm := Finmap.lookup_eq_none.mp hf
    rw [hc.find_absent hk hm]
    obtain ⟨b, τ', h1, h2⟩ := hc.insert hk hm v
    exact ⟨⟨none, some b⟩, τ', by simp [h1], h2⟩

/-- Freezing a list of items copies their entries to a fast hash that knew nothing. -/
theorem Tidy.lookup_copy (hc : Tidy τ) (hF : τ.frozen = []) {K : List Item}
    (hK : ∀ x ∈ K, x ∈ τ.items) :
    (copy τ.m_map τ.m_fasthash K).lookup k =
      if k ∈ K.map Item.key then (τ.m_map.lookup k).map HashMapValue.m_value else none := by
  rw [ListShard.lookup_copy, hc.only k (by simp [hF]), Option.none_or]
  exact fun x hx => ⟨hc.valid (hK x hx), hc.mem_iff.mpr (List.mem_map_of_mem (hK x hx))⟩

theorem Clear.construct_tier (hc : Clear τ) (h : τ.construct_tier = some τ') : Clear τ' := by
  have hkeeps := hc.keeps.construct_tier h
  have hF := construct_tier_thawed h
  have hM : ∀ x ∈ τ.main, x ∈ τ.items := fun x hx => List.mem_append_right _ hx
  rw [hc.keeps.sound.construct_tier_eq hF, hc.alive_eq hM] at h
  cases h
  refine ⟨⟨hkeeps, fun x hx => hc.linked x ?_, fun k hk => ?_, fun k hk => ?_, rfl, fun _ => rfl⟩,
    hc.values⟩
  · simpa [items] using Or.inr hx
  · exact (hc.lookup_copy hF hM).trans (if_pos hk)
  · exact (hc.lookup_copy hF hM).trans (if_neg hk)

theorem Clear.construct_ratio {FC_size : ℕ} (hc : Clear τ)
    (h : τ.construct_ratio FC_size = some τ') :
    Clear τ' := by
  have hkeeps := hc.keeps.construct_ratio h
  obtain ⟨P, B, hF, hP, hne, -, -, rfl⟩ := hc.keeps.sound.construct_ratio_cases h
  have hK : ∀ x ∈ P, x ∈ τ.items := fun x hx => by rw [items, hP]; simp [hx]
  rw [hc.alive_eq hK] at hkeeps hne ⊢
  refine ⟨⟨hkeeps, fun x hx => hc.linked x ?_, fun k hk => ?_, fun k hk => ?_, hc.tier,
    fun ht => ?_⟩, hc.values⟩
  · rw [items, hF, hP]; simpa [items] using hx
  · exact (hc.lookup_copy hF hK).trans (if_pos hk)
  · exact (hc.lookup_copy hF hK).trans (if_neg hk)
  · have := hc.tier_main ht
    rw [hP, List.append_eq_nil_iff] at this
    exact (hne this.1).elim

theorem Clear.deconstruct (hc : Clear τ) : Clear τ.deconstruct := by
  have hkeeps := hc.keeps.deconstruct
  unfold ListShard.deconstruct at hkeeps ⊢
  split
  · exact hc
  · rename_i hF
    rw [if_neg hF] at hkeeps
    refine ⟨⟨hkeeps, fun x hx => hc.linked x (by simpa [items] using hx), by simp, by simp, ?_,
      fun h => by cases h⟩, hc.values⟩
    show (if τ.tier_ready then false else τ.tier_no_insert) = false
    rw [hc.tier]; cases τ.tier_ready <;> rfl

/-- Every call of such a run keeps the invariant. -/
theorem Clear.call {lock : Bool} {c : FHCall α} {o : FHResp α} (hc : Clear τ) (ho : Own τ)
    (hcl : c.Client) (hv : c.Valid) (h : τ.call (lock, c) = some (o, τ')) : Clear τ' := by
  cases c with
  | find k => exact hcl.elim
  | insert k v => exact hcl.elim
  | get k v =>
    obtain ⟨g, τ₁, h1, h2⟩ := hc.request ho hv lock v
    simp only [ListShard.call, h1, Option.map_some, Option.some.injEq, Prod.mk.injEq] at h
    exact h.2 ▸ h2
  | delete_key k => exact hcl.elim
  | construct_tier =>
    obtain ⟨τ₁, ht, he⟩ := Option.map_eq_some_iff.mp h
    cases he
    exact hc.construct_tier ht
  | construct_ratio FC_size =>
    obtain ⟨τ₁, ht, he⟩ := Option.map_eq_some_iff.mp h
    cases he
    exact hc.construct_ratio ht
  | deconstruct => cases h; exact hc.deconstruct

end ListShard

open ListShard

/-- A shard whose view over lists is clear. -/
def Clean (σ : Shard α) : Prop := ∃ τ, Shard.Rep none σ τ ∧ Clear τ

theorem Clean.run {κ : FHList} {maxSize : ℕ} {σ : Shard α}
    {hist : List ((Bool × FHCall α) × FHResp α)}
    (hrun : Run κ.call (fun _ c => c.2.Client ∧ c.2.Valid) (Shard.init maxSize) hist σ) : Clean σ :=
  hrun.invariant Clean ⟨_, Shard.rep_init maxSize, clear_init maxSize⟩ fun s c o s' hi hP _ hs => by
    obtain ⟨τ, hr, hc⟩ := hi
    obtain ⟨τ', hτ, hr'⟩ := hr.call_ok hP.2 hs
    exact ⟨τ', hr', hc.call (own_of_rep hr) hP.1 hP.2 hτ⟩

/-- A read request to a clean shard returns. -/
theorem Clean.get_ok {σ : Shard α} (hc : Clean σ) (κ : FHList) (lock : Bool) {k : ℕ}
    (hk : ValidKey k) (v : α) : ∃ o σ', κ.call σ (lock, .get k v) = .ok (o, σ') := by
  obtain ⟨τ, hr, hc⟩ := hc
  obtain ⟨g, τ', h, -⟩ := hc.request (own_of_rep hr) hk (κ.promotes lock) v
  obtain ⟨σ', h1, -⟩ := hr.call (c := (κ.promotes lock, .get k v)) hk
    (r := (.got g, τ')) (by simp [ListShard.call, h])
  exact ⟨_, σ', by rw [κ.call_eq]; exact h1⟩

/-- `find` on a clean shard returns what the map holds. -/
theorem Clean.find_ok {σ : Shard α} (hc : Clean σ) (κ : FHList) (lock : Bool) {k : ℕ}
    (hk : ValidKey k) :
    ∃ σ', κ.call σ (lock, .find k) =
      .ok (.found ((σ.m_map.lookup k).map HashMapValue.m_value), σ') := by
  obtain ⟨τ, hr, hc⟩ := hc
  obtain ⟨σ', h1, -⟩ := hr.call (c := (κ.promotes lock, .find k)) hk (r := (_, _)) rfl
  refine ⟨σ', ?_⟩
  rw [κ.call_eq, h1, hc.find_eq hk, hr.core]

/-- The two tables and the two lists of a clean shard. -/
theorem Clean.tables {σ : Shard α} (hc : Clean σ) : ∃ F L, Shard.Lists σ.heap none F L ∧
    ((F ++ L).map Item.key).Nodup ∧ (∀ k, k ∈ σ.m_map ↔ k ∈ (F ++ L).map Item.key) ∧
    (∀ k v, σ.m_fasthash.lookup k = some v ↔
      ∃ e, σ.m_map.lookup k = some e ∧ e.m_value = v ∧ e.m_listNode ∈ F.map Item.node) := by
  obtain ⟨τ, hr, hc⟩ := hc
  refine ⟨τ.frozen, τ.main, hr.holds.lists, hc.nodup, fun k => by rw [hr.core]; exact hc.mem_iff,
    fun k v => ?_⟩
  rw [hr.core]
  by_cases hk : k ∈ τ.frozen.map Item.key
  · obtain ⟨x, hx, rfl⟩ := List.mem_map.mp hk
    obtain ⟨w, hw⟩ := hc.lookup (List.mem_append_left _ hx)
    rw [hc.filled _ hk, hw]
    simp only [Option.map_some, Option.some.injEq, exists_eq_left']
    exact ⟨fun h => ⟨h, List.mem_map_of_mem hx⟩, fun h => h.1⟩
  · rw [hc.only k hk]
    refine ⟨fun h => (by cases h), fun ⟨e, he, _, hn⟩ => (hk ?_).elim⟩
    obtain ⟨x, hx, hxn⟩ := List.mem_map.mp hn
    have := (own_of_rep hr).key k e he x (List.mem_append_left _ hx) hxn
    exact List.mem_map.mpr ⟨x, hx, this⟩

end FrozenHot
