import FrozenHot.Freeze.Transparent
import FrozenHot.Cache.Requests

/-! The main list of a shard is a reference cache.

    Frozen entries count against `m_maxSize` and are never evicted, so what is not frozen behaves as
    a reference cache of capacity `m_maxSize` less the number of frozen entries. -/

namespace FrozenHot
open Schemes

variable {α : Type}

namespace ListShard
variable {τ τ' : ListShard α} {x : Item} {k : ℕ} {A B L : List Item}
variable {m m' : Finmap fun _ : ℕ => HashMapValue (Option α)}

/-- The key and the value of an item. -/
def pair (m : Finmap fun _ : ℕ => HashMapValue (Option α)) (x : Item) : ℕ × Option α :=
  (x.key, (m.lookup x.key).bind HashMapValue.m_value)

/-- The keys and values on the main list, in order. -/
def content (τ : ListShard α) : List (ℕ × Option α) := τ.main.map (pair τ.m_map)

@[simp] theorem keys_content (τ : ListShard α) : τ.content.map Prod.fst = τ.main.map Item.key := by
  simp [content, pair]

theorem pair_congr (h : ∀ x ∈ L, m'.lookup x.key = m.lookup x.key) :
    L.map (pair m') = L.map (pair m) :=
  List.map_congr_left fun x hx => by rw [pair, pair, h x hx]

/-- The invariant of runs in which the frozen entries leave room. -/
structure Roomy (τ : ListShard α) : Prop where
  tidy : Tidy τ
  tier : τ.tier_ready = false
  fits : τ.m_size ≤ τ.m_maxSize
  room : τ.frozen.length < τ.m_maxSize

theorem Roomy.size (hr : Roomy τ) : τ.m_size = τ.frozen.length + τ.main.length := by
  rw [hr.tidy.keeps.sound.size, hr.tidy.alive_eq fun _ h => h, items, List.length_append]

/-- What stays as it is while a shard is partly frozen. -/
structure Same (τ τ' : ListShard α) : Prop where
  frozen : τ'.frozen = τ.frozen
  fasthash : τ'.m_fasthash = τ.m_fasthash
  maxSize : τ'.m_maxSize = τ.m_maxSize
  ready : τ'.fast_hash_ready = τ.fast_hash_ready

/-- The places that are not taken by frozen entries. -/
def capacity (τ : ListShard α) : ℕ := τ.m_maxSize - τ.frozen.length

/-- `find` of a key that is not frozen answers as the reference cache, and has its effect. -/
theorem Roomy.find (hr : Roomy τ) (ho : Own τ) (hk : ValidKey k) (hF : k ∉ τ.frozen.map Item.key)
    (lock : Bool) : (τ.find lock k).1 = (Policy.find lock τ.content k).1 ∧
      (τ.find lock k).2.content = (Policy.find lock τ.content k).2 := by
  have hc := hr.tidy
  rcases hc.where_is k with hm | ⟨x, hx, rfl⟩ | ⟨A, x, B, hm, rfl⟩
  · have hno : k ∉ τ.content.map Prod.fst := by
      rw [keys_content]
      exact fun h =>
        hm (hc.mem_iff.mpr (by rw [items, List.map_append]; exact List.mem_append_right _ h))
    rw [hc.find_absent hk hm, Policy.find_none hno]
    exact ⟨rfl, rfl⟩
  · exact (hF (List.mem_map_of_mem hx)).elim
  · obtain ⟨v, hv⟩ := hc.entry (x := x) (List.mem_append_right _ (by simp [hm]))
    have hcont : τ.content = A.map (pair τ.m_map) ++ (x.key, v) :: B.map (pair τ.m_map) := by
      rw [content, hm, List.map_append, List.map_cons, pair, hv]; rfl
    have hno : x.key ∉ (A.map (pair τ.m_map) ++ B.map (pair τ.m_map)).map Prod.fst := by
      have := hc.nodup
      rw [items, hm, List.map_append] at this
      have := (List.nodup_append'.mp this).2.1
      rw [List.map_append, List.map_cons] at this
      simpa [pair] using (List.nodup_middle.mp this).notMem
    rw [hc.find_eq hk hF, hv, hcont, Policy.find_middle hno, hc.find_main ho hm]
    refine ⟨rfl, ?_⟩
    cases lock
    · exact hcont
    · show (x :: (A ++ B)).map (pair τ.m_map) = _
      simp [pair, hv]

theorem Tidy.trim_main (hc : Tidy τ) : trim τ.main = τ.main :=
  trim_self fun _ hx => (hc.valid (List.mem_append_right τ.frozen hx)).ne_tomb

/-- `insert` of an absent key while there is room. -/
theorem insert_room (hno : τ.tier_no_insert = false) (hm : k ∉ τ.m_map)
    (hroom : τ.m_size < τ.m_maxSize) (v : Option α) :
    τ.insert k v = some (true, { τ.linked k v with m_size := sizeInc τ.m_size }) := by
  have h1 : ¬ τ.m_maxSize ≤ τ.m_size := by omega
  have h2 : ¬ τ.m_maxSize < τ.m_size := by omega
  simp [insert, hno, hm, makeRoom, settle, correct, count, linked, place, h1, h2]

/-- What `insert` of an absent key does. -/
theorem Roomy.insert_eq (hr : Roomy τ) (hk : ValidKey k) (hm : k ∉ τ.m_map) (v : Option α) :
    ∃ τ', τ.insert k v = some (true, τ') ∧ Roomy τ' ∧ Same τ τ' ∧
      τ'.content = (k, v) ::
        if τ.m_size < τ.m_maxSize then τ.content else τ.content.dropLast := by
  have hc := hr.tidy
  have hno : τ.tier_no_insert = false := hc.tier.trans hr.tier
  have hold : ∀ x ∈ τ.main, x.key ≠ k := fun x hx h =>
    hm (h ▸ hc.mem_iff.mpr (List.mem_map_of_mem (List.mem_append_right _ hx)))
  obtain ⟨b, τ', h, hc', -⟩ := hc.insert hk hm v
  by_cases hroom : τ.m_size < τ.m_maxSize
  · have he := insert_room hno hm hroom v
    rw [h] at he
    cases he
    refine ⟨_, h, ⟨hc', hr.tier, (Nat.mod_le _ _).trans hroom, hr.room⟩, ⟨rfl, rfl, rfl, rfl⟩, ?_⟩
    rw [if_pos hroom]
    simp only [content, linked, place, List.map_cons]
    congr 1
    · simp [pair]
    · exact pair_congr fun x hx => Finmap.lookup_insert_of_ne _ (hold x hx)
  · have hfull : τ.m_size = τ.m_maxSize := by have := hr.fits; omega
    have hne : τ.main ≠ [] := fun h0 => by
      have := hr.size
      have := hr.room
      rw [h0, List.length_nil] at *
      omega
    obtain ⟨A, x, hmain⟩ := List.eq_nil_or_concat τ.main |>.resolve_left hne
    rw [List.concat_eq_append] at hmain
    have he := insert_full hno hm hfull (hc.trim_main.trans hmain)
      (hc.mem_iff.mpr (List.mem_map_of_mem (List.mem_append_right _ (by simp [hmain])))) v
    rw [h] at he
    cases he
    refine ⟨_, h, ⟨hc', hr.tier, hr.fits, hr.room⟩, ⟨rfl, rfl, rfl, rfl⟩, ?_⟩
    rw [if_neg hroom]
    have hxk : x.key ≠ k := hold x (by simp [hmain])
    have hdrop : τ.content.dropLast = A.map (pair τ.m_map) := by simp [content, hmain]
    have hlook : ∀ y ∈ A, ((τ.m_map.insert k ⟨v, .node τ.fresh⟩).erase x.key).lookup y.key =
        τ.m_map.lookup y.key := fun y hy => by
      have hyx : y.key ≠ x.key := by
        have := hc.nodup
        rw [items, hmain, List.map_append] at this
        have := (List.nodup_append'.mp this).2.1
        rw [List.map_append] at this
        exact fun h => (List.nodup_append'.mp this).2.2 (List.mem_map_of_mem hy) (by simp [h])
      rw [Finmap.lookup_erase_ne hyx, Finmap.lookup_insert_of_ne _ (hold y (by simp [hmain, hy]))]
    rw [hdrop]
    simp only [content, List.map_cons]
    congr 1
    · simp [pair, Finmap.lookup_erase_ne hxk.symm]
    · exact pair_congr hlook

/-- `find` of a key that is not frozen leaves a partly frozen shard so. -/
theorem Roomy.find_roomy (hr : Roomy τ) (ho : Own τ) (hk : ValidKey k)
    (hF : k ∉ τ.frozen.map Item.key) (lock : Bool) :
    Roomy (τ.find lock k).2 ∧ Same τ (τ.find lock k).2 := by
  obtain ⟨hc, hF'⟩ := hr.tidy.find ho hk hF lock
  have hcore := find_core τ lock k
  refine ⟨⟨hc, ?_, ?_, ?_⟩, ⟨hF', by rw [hcore], by rw [hcore], by rw [hcore]⟩⟩
  · rw [hcore]; exact hr.tier
  · rw [hcore]; exact hr.fits
  · rw [hF', hcore]; exact hr.room

/-- A read request for a key that is not frozen answers as a reference cache of the free places. -/
theorem Roomy.read (hr : Roomy τ) (ho : Own τ) (hk : ValidKey k) (hF : k ∉ τ.frozen.map Item.key)
    (lock : Bool) (v : Option α) :
    ∃ τ', τ.get lock k v = some ((Reference.read τ.capacity lock τ.content k v).1, τ') ∧
      Roomy τ' ∧ Same τ τ' ∧ τ'.content = (Reference.read τ.capacity lock τ.content k v).2 := by
  obtain ⟨h1, h2⟩ := hr.find ho hk hF lock
  obtain ⟨hr₁, hs₁⟩ := hr.find_roomy ho hk hF lock
  cases hf : (Policy.find lock τ.content k).1 with
  | some w =>
    rw [hf] at h1
    exact ⟨_, by simp [ListShard.get, h1, Reference.read, hf], hr₁,
      hs₁, by rw [h2, Reference.read, hf]⟩
  | none =>
    rw [hf] at h1
    have hm : k ∉ τ.m_map := by
      rw [hr.tidy.find_eq hk hF, Option.map_eq_none_iff] at h1
      exact Finmap.lookup_eq_none.mp h1
    have hno : k ∉ τ.content.map Prod.fst := by
      rw [keys_content]
      exact fun h => hm (hr.tidy.mem_iff.mpr
        (by rw [items, List.map_append]; exact List.mem_append_right _ h))
    have hfind : τ.find lock k = (none, τ) := hr.tidy.find_absent hk hm lock
    obtain ⟨τ', hi, hr', hs', hc'⟩ := hr.insert_eq hk hm v
    -- the counter of the shard against the length of the reference
    have hlen : τ.content.length = τ.main.length := by simp [content]
    have hsize := hr.size
    have hroom := hr.room
    have hfits := hr.fits
    have hcap : 1 ≤ τ.capacity := by unfold capacity; omega
    have hle : τ.content.length ≤ τ.capacity := by unfold capacity; omega
    have hins := Policy.insert_absent (v := v) hno hcap hle
    have hiff : τ.content.length < τ.capacity ↔ τ.m_size < τ.m_maxSize := by unfold capacity; omega
    simp only [hiff] at hins
    refine ⟨τ', ?_, hr', hs', ?_⟩
    · simp [ListShard.get, hfind, hi, Reference.read, Policy.find_none hno, hins]
    · rw [hc', Reference.read, hf, Policy.find_none hno, hins]

/-- A read request for a frozen key hits, and changes nothing. -/
theorem Clear.read_frozen (hc : Clear τ) (hx : x ∈ τ.frozen) (lock : Bool) (v : Option α) :
    τ.get lock x.key v = some (⟨some (pair τ.m_map x).2, none⟩, τ) := by
  have hxI : x ∈ τ.items := List.mem_append_left _ hx
  obtain ⟨w, hw⟩ := hc.lookup hxI
  have h1 := hc.find_eq (hc.valid hxI) lock
  rw [hw] at h1
  have h2 := hc.find_frozen hx lock
  simp only [Option.map_some] at h1
  simp [ListShard.get, h1, h2, pair, hw]

/-! ### A shard that is never frozen -/

/-- What `delete_key` of a key on the main list does in plain mode. -/
theorem Tidy.delete_eq (hc : Tidy τ) (ho : Own τ) (hf : τ.frozenHit x.key = false)
    (hm : τ.main = A ++ x :: B) : τ.delete_key x.key = { τ with
      m_map := τ.m_map.erase x.key, m_size := sizeDec τ.m_size, main := A ++ B } := by
  have hxI : x ∈ τ.items := List.mem_append_right _ (by simp [hm])
  obtain ⟨v, hv⟩ := hc.entry hxI
  have hnd := ho.nodup
  rw [items, hm, List.map_append] at hnd
  obtain ⟨-, hnM, hdj⟩ := List.nodup_append'.mp hnd
  rw [List.map_append, List.map_cons] at hnM
  have hdF : detach x.node τ.frozen = τ.frozen := detach_none fun h => hdj h (by simp)
  have hdM : detach x.node τ.main = A ++ B := by
    rw [hm]; exact detach_middle (by rw [List.map_append]; exact (List.nodup_middle.mp hnM).notMem)
  rcases ListShard.delete_cases hc.keeps.sound.idle x.key
    with ⟨-, hno⟩ | ⟨e, he, ⟨hf', -⟩ | ⟨-, -, h⟩⟩
  · exact ((hno _ hv).2 (List.mem_map_of_mem hxI)).elim
  · rw [hf] at hf'; cases hf'
  · rw [hv] at he
    cases he
    rw [h, hdF, hdM]

/-- `delete_key` of a shard with nothing frozen drops the key from the reference cache. -/
theorem Roomy.delete_plain (hr : Roomy τ) (ho : Own τ) (k : ℕ)
    (hready : τ.fast_hash_ready = false) :
    Roomy (τ.delete_key k) ∧ Same τ (τ.delete_key k) ∧
      (τ.delete_key k).content = Policy.drop τ.content k := by
  have hc := hr.tidy
  obtain ⟨hF, hfast⟩ := hc.keeps.thawed hr.tier hready
  have hf : τ.frozenHit k = false := by simp [Core.frozenHit, hr.tier, hready]
  rcases hc.where_is k with hm | ⟨x, hx, rfl⟩ | ⟨A, x, B, hm, rfl⟩
  · have h : τ.delete_key k = τ := by simp [delete_key, Finmap.lookup_eq_none.mpr hm]
    have hno : k ∉ τ.content.map Prod.fst := by
      rw [keys_content]
      exact fun h =>
        hm (hc.mem_iff.mpr (by rw [items, List.map_append]; exact List.mem_append_right _ h))
    rw [h, Policy.drop_none hno]
    exact ⟨hr, ⟨rfl, rfl, rfl, rfl⟩, rfl⟩
  · rw [hF] at hx; cases hx
  · have hkeeps := hc.keeps.delete_key (k := x.key) ho fun _ => hf
    have hnd := hc.nodup
    rw [items, hm, List.map_append] at hnd
    have hnd := (List.nodup_append'.mp hnd).2.1
    rw [List.map_append, List.map_cons] at hnd
    have hno := (List.nodup_middle.mp hnd).notMem
    rw [← List.map_append] at hno
    have hlook : ∀ y ∈ A ++ B, (τ.m_map.erase x.key).lookup y.key = τ.m_map.lookup y.key :=
        fun y hy =>
      Finmap.lookup_erase_ne fun h => hno (h ▸ List.mem_map_of_mem hy)
    rw [hc.delete_eq ho hf hm] at hkeeps ⊢
    refine ⟨⟨⟨hkeeps, fun y hy => ?_, ?_, hc.only, hc.tier, fun ht => ?_⟩, hr.tier, ?_, hr.room⟩,
      ⟨rfl, rfl, rfl, rfl⟩, ?_⟩
    · simp only [items, hF, List.nil_append] at hy
      rw [hlook y hy]
      refine hc.linked y (List.mem_append_right _ ?_)
      rw [hm]
      simp only [List.mem_append, List.mem_cons] at hy ⊢; tauto
    · simp [hF]
    · exact absurd ht (by simp [hr.tier])
    · have := hr.fits
      show sizeDec τ.m_size ≤ _
      have hpos : τ.m_size ≠ 0 := by rw [hr.size, hm]; simp
      rw [sizeDec, if_neg hpos]; exact (Nat.sub_le _ _).trans this
    · have hcont : τ.content = A.map (pair τ.m_map) ++ (x.key, (pair τ.m_map x).2) :: B.map
          (pair τ.m_map) := by
        rw [content, hm]; simp [pair]
      rw [hcont, Policy.drop_middle (by simpa [pair] using hno), ← List.map_append]
      exact pair_congr hlook

/-- The plain mode of a shard of capacity `N`. -/
structure PlainMode (N : ℕ) (σ : Shard α) (τ : ListShard α) : Prop where
  rep : Shard.Rep none σ τ
  roomy : Roomy τ
  frozen : τ.frozen = []
  ready : τ.fast_hash_ready = false
  maxSize : τ.m_maxSize = N

variable {N : ℕ} {σ : Shard α}

theorem plainMode_init (hpos : 1 ≤ N) : PlainMode N (Shard.init N : Shard α) (init N) :=
  ⟨Shard.rep_init N, ⟨(clear_init N).toTidy, rfl, Nat.zero_le _, hpos⟩, rfl, rfl, rfl⟩

theorem PlainMode.size (h : PlainMode N σ τ) : σ.m_size = τ.content.length := by
  rw [h.rep.core, h.roomy.size, h.frozen]; simp [content]

/-- A read request in plain mode answers as a reference cache of capacity `N`. -/
theorem PlainMode.get (h : PlainMode N σ τ) (hk : ValidKey k) (lock : Bool) (v : Option α) :
    ∃ τ', τ.get lock k v = some ((Reference.read N lock τ.content k v).1, τ') ∧
      (∀ σ' : Shard α, Shard.Rep none σ' τ' → PlainMode N σ' τ') ∧
      τ'.content = (Reference.read N lock τ.content k v).2 := by
  obtain ⟨τ', h1, hroom, hsame, hcont⟩ :=
    h.roomy.read (own_of_rep h.rep) hk (by simp [h.frozen]) lock v
  have hcap : τ.capacity = N := by rw [capacity, h.frozen, h.maxSize]; rfl
  rw [hcap] at h1 hcont
  exact ⟨τ', h1, fun σ' hr => ⟨hr, hroom, hsame.frozen.trans h.frozen, hsame.ready.trans h.ready,
    hsame.maxSize.trans h.maxSize⟩, hcont⟩

/-- `delete_key` in plain mode drops the key from the reference cache. -/
theorem PlainMode.delete_key (h : PlainMode N σ τ) (k : ℕ) :
    ∃ σ' τ', σ.delete_key k = .ok σ' ∧ PlainMode N σ' τ' ∧
    τ'.content = Policy.drop τ.content k := by
  obtain ⟨σ', h1, hr⟩ := h.rep.delete_key k
  obtain ⟨hroom, hsame, hcont⟩ := h.roomy.delete_plain (own_of_rep h.rep) k h.ready
  exact ⟨σ', _, h1, ⟨hr, hroom, hsame.frozen.trans h.frozen, hsame.ready.trans h.ready,
    hsame.maxSize.trans h.maxSize⟩, hcont⟩

end ListShard
end FrozenHot
