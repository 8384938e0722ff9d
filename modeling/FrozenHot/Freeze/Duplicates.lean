import FrozenHot.Freeze.Shard

/-! `insert` of a present key.

    The comment on `insert` says that the present entry is not updated. The code returns `false` as
    it says, but has overwritten the entry by then: the new value, and a new node that nothing
    links. The old node stays on the list without an entry. -/

namespace FrozenHot.Shard
open Schemes

variable {α : Type} {σ : Shard α} {k : ℕ} {v : Option α}

/-- Nothing is frozen or being frozen, and no curve is taken. -/
structure Plain (σ : Shard α) : Prop where
  tier_ready : σ.tier_ready = false
  fast_hash_ready : σ.fast_hash_ready = false
  fast_hash_construct : σ.fast_hash_construct = false
  tier_no_insert : σ.tier_no_insert = false
  curve_flag : σ.curve_flag = false

/-- What a caller of `insert` relies on after `false`: the old value is found, the entry has a
    linked node that carries the key, `find` moves that node to the front, and `delete_key` removes
    the key. -/
structure Untouched (σ σ' : Shard α) (k : ℕ) : Prop where
  found : ∀ e, σ.m_map.lookup k = some e → ∀ lock, ∃ τ, σ'.findWith lock k = .ok (some e.m_value, τ)
  linked : ∃ e, σ'.m_map.lookup k = some e ∧ isInList σ'.heap e.m_listNode = .ok true ∧
    keyOf σ'.heap e.m_listNode = .ok k
  moves : ∃ e τ, σ'.m_map.lookup k = some e ∧ LRU_FHCache.find true σ' k = .ok (some e.m_value, τ) ∧
    τ.heap.next .m_head = some e.m_listNode
  deleted : ∃ τ, σ'.delete_key k = .ok τ ∧ k ∉ τ.m_map

/-- The shard that `insert` of a present key leaves. -/
def overwritten (σ : Shard α) (key : ℕ) (value : Option α) : Shard α :=
  { σ.newNode key with m_map := σ.m_map.insert key ⟨value, .node σ.fresh⟩ }

theorem insert_present (hp : Plain σ) (hk : k ∈ σ.m_map) (v : Option α) :
    σ.insert k v = .ok (false, σ.overwritten k v) := by
  obtain ⟨e, he⟩ := Finmap.mem_iff.mp hk
  have he' : (σ.newNode k).m_map.lookup k = some e := he
  have hm : insertMap (σ.newNode k) k v (.node σ.fresh) = (false, σ.overwritten k v) := by
    simp only [insertMap, he']
    rfl
  simp [insert, hp.tier_no_insert, hm]

theorem plain_overwritten (hp : Plain σ) : Plain (σ.overwritten k v) :=
  ⟨hp.1, hp.2, hp.3, hp.4, hp.5⟩

theorem lookup_overwritten (σ : Shard α) (k : ℕ) (v : Option α) :
    (σ.overwritten k v).m_map.lookup k = some ⟨v, .node σ.fresh⟩ := Finmap.lookup_insert _

theorem isInList_overwritten (σ : Shard α) (k : ℕ) (v : Option α) :
    isInList (σ.overwritten k v).heap (.node σ.fresh) = .ok false := by
  simp [overwritten, newNode, isInList, Heap.getPrev, Heap.read, Heap.put]

/-- `find` answers with the new value and promotes nothing. -/
theorem find_overwritten (hp : Plain σ) (lock : Bool) :
    (σ.overwritten k v).findWith lock k = .ok (some v, σ.overwritten k v) := by
  have hpromote : promote (σ.overwritten k v).heap (.node σ.fresh) =
      .ok (σ.overwritten k v).heap := by
    simp [promote, isInList_overwritten]
  obtain ⟨h1, h2, h3, -, h5⟩ := plain_overwritten (k := k) (v := v) hp
  cases lock <;> simp [findWith, findSlow, assert, h1, h2, h3, h5, lookup_overwritten, hpromote]

/-- `delete_key` deletes nothing. -/
theorem delete_overwritten (hp : Plain σ) :
    (σ.overwritten k v).delete_key k = .ok (σ.overwritten k v) := by
  obtain ⟨h1, h2, h3, -, -⟩ := plain_overwritten (k := k) (v := v) hp
  simp [delete_key, h1, h2, h3, lookup_overwritten, isInList_overwritten]

/-- In plain mode, an `insert` of a present key returns `false` and never leaves the key as it was:
    the new value is found, nothing is promoted any more and `delete_key` has no effect. -/
theorem duplicate_insert_overwrites (hp : Plain σ) (k : ℕ) (v : Option α) :
    ((k ∈ σ.m_map → ∃ σ', σ.insert k v = .ok (false, σ') ∧ Untouched σ σ' k) ↔ k ∉ σ.m_map) ∧
    (k ∈ σ.m_map → ∃ σ', σ.insert k v = .ok (false, σ') ∧
      (∀ lock, σ'.findWith lock k = .ok (some v, σ')) ∧ σ'.delete_key k = .ok σ') := by
  refine ⟨⟨fun h hk => ?_, fun h hk => absurd hk h⟩, fun hk => ?_⟩
  · obtain ⟨σ', hi, hu⟩ := h hk
    rw [insert_present hp hk] at hi
    cases hi
    obtain ⟨e, he, hin, -⟩ := hu.linked
    rw [lookup_overwritten] at he
    cases he
    rw [isInList_overwritten] at hin
    cases hin
  · exact ⟨_, insert_present hp hk v, fun lock => find_overwritten hp lock, delete_overwritten hp⟩

/-- The shard as constructed, with one key. -/
theorem duplicate_insert_overwrites_three :
    ∃ σ : Shard ℕ, (init 10).insert 3 (some 7) = .ok (true, σ) ∧
    ∃ σ', σ.insert 3 (some 8) = .ok (false, σ') ∧ σ'.delete_key 3 = .ok σ' := by
  have hfirst : ∃ σ : Shard ℕ, (init 10).insert 3 (some 7) = .ok (true, σ) ∧ Plain σ ∧
      ∃ e, σ.m_map.lookup 3 = some e := ⟨_, rfl, ⟨rfl, rfl, rfl, rfl, rfl⟩, _, rfl⟩
  obtain ⟨σ, hi, hp, he⟩ := hfirst
  obtain ⟨σ', hi', -, hd⟩ := (duplicate_insert_overwrites hp 3 (some 8)).2 (Finmap.mem_iff.mpr he)
  exact ⟨σ, hi, σ', hi', hd⟩

/-- After `insert(3, 7)` and the rejected `insert(3, 8)`, 8 is found, the entry's node is not
    linked, and 8 is still found after `delete_key(3)`. -/
theorem rejected_insert_updates :
    ∃ σ σ' σ'' : Shard ℕ, (init 10).insert 3 (some 7) = .ok (true, σ) ∧
    σ.insert 3 (some 8) = .ok (false, σ') ∧ (∃ τ, σ'.findWith true 3 = .ok (some (some 8), τ)) ∧
    (∃ e, σ'.m_map.lookup 3 = some e ∧ isInList σ'.heap e.m_listNode = .ok false) ∧
    σ'.delete_key 3 = .ok σ'' ∧ ∃ τ, σ''.findWith true 3 = .ok (some (some 8), τ) :=
  ⟨_, _, _, rfl, rfl, ⟨_, rfl⟩, ⟨_, rfl, rfl⟩, rfl, _, rfl⟩

end FrozenHot.Shard
