import FrozenHot.Cache.ListNode
import Mathlib.Data.Finmap

/-! Rows: the list nodes of a cache with their keys and the values stored under them.

    The map of a list cache and its lists hold the same rows. `MapRows m R` says so, and its lemmas
    say what the map operations of the caches do to the rows. -/

namespace FrozenHot

/-- Nodes without repetition below `fresh` are no more than `fresh`. -/
theorem length_le_of_node {L : List Ptr} {fresh : ℕ} (hd : L.Nodup) (hn : ∀ p ∈ L, p.IsNode)
    (hfr : ∀ i, .node i ∈ L → i < fresh) : L.length ≤ fresh := by
  have hsub : L.toFinset ⊆ (Finset.range fresh).image Ptr.node := by
    intro p hp
    have hp := List.mem_toFinset.mp hp
    have hn := hn p hp
    cases p with
    | node i => simpa using hfr i hp
    | _ => exact hn.elim
  have hc := Finset.card_le_card hsub
  rw [List.toFinset_card_of_nodup hd] at hc
  exact hc.trans (Finset.card_image_le.trans (by simp))

/-- A list node with its key and the value stored under that key. -/
structure Row (K V : Type) where
  node : Ptr
  key : K
  value : V

variable {K V : Type} [DecidableEq K]

/-- The map holds exactly the rows `R`. -/
def MapRows (m : Finmap fun _ : K => HashMapValue V) (R : List (Row K V)) : Prop :=
  ∀ k e, m.lookup k = some e ↔ ⟨e.m_listNode, k, e.m_value⟩ ∈ R

variable {m : Finmap fun _ : K => HashMapValue V} {R R' A B : List (Row K V)} {r : Row K V}
variable {k : K} {v : V} {n : Ptr}

theorem MapRows.empty : MapRows (∅ : Finmap fun _ : K => HashMapValue V) [] := by
  intro k e; simp

theorem MapRows.lookup (hm : MapRows m R) (hr : r ∈ R) : m.lookup r.key = some ⟨r.value, r.node⟩ :=
  (hm r.key ⟨r.value, r.node⟩).mpr hr

theorem MapRows.lookup_none (hm : MapRows m R) : m.lookup k = none ↔ k ∉ R.map Row.key := by
  constructor
  · intro hn hk
    obtain ⟨r, hr, rfl⟩ := List.mem_map.mp hk
    rw [hm.lookup hr] at hn; cases hn
  · intro hk
    cases he : m.lookup k with
    | none => rfl
    | some e => exact absurd (List.mem_map_of_mem ((hm k e).mp he)) hk

theorem MapRows.mem_keys (hm : MapRows m R) : k ∈ m.keys ↔ k ∈ R.map Row.key := by
  rw [Finmap.mem_keys, ← not_iff_not, ← Finmap.lookup_eq_none]
  exact hm.lookup_none

/-- The number of entries is the number of rows. -/
theorem MapRows.card (hm : MapRows m R) (hd : (R.map Row.key).Nodup) : m.keys.card = R.length := by
  have : m.keys = (R.map Row.key).toFinset := by
    ext k; rw [List.mem_toFinset]; exact hm.mem_keys
  rw [this, List.toFinset_card_of_nodup hd, List.length_map]

theorem MapRows.perm (hm : MapRows m R) (hp : R.Perm R') : MapRows m R' := fun k e => by
  rw [hm k e]; exact hp.mem_iff

/-- Inserting under a new key adds a row. -/
theorem MapRows.insert (hm : MapRows m R) (hk : k ∉ R.map Row.key) (v : V) (n : Ptr) :
    MapRows (m.insert k ⟨v, n⟩) (⟨n, k, v⟩ :: R) := by
  intro k' e
  rw [List.mem_cons]
  by_cases hkk : k' = k
  · subst hkk
    rw [Finmap.lookup_insert]
    constructor
    · intro he; left; cases he; rfl
    · rintro (he | he)
      · cases e; simp only [Row.mk.injEq] at he; obtain ⟨rfl, -, rfl⟩ := he; rfl
      · exact absurd (List.mem_map_of_mem he) hk
  · rw [Finmap.lookup_insert_of_ne _ hkk, hm]
    constructor
    · exact Or.inr
    · rintro (he | he)
      · exact absurd (congrArg Row.key he) hkk
      · exact he

/-- Erasing a key removes its row. -/
theorem MapRows.erase (hm : MapRows m (A ++ r :: B)) (hd : ((A ++ r :: B).map Row.key).Nodup) :
    MapRows (m.erase r.key) (A ++ B) := by
  have hr : r.key ∉ (A ++ B).map Row.key := by
    rw [List.map_append, List.map_cons] at hd
    rw [List.map_append]; exact (List.nodup_middle.mp hd).notMem
  intro k' e
  by_cases hkr : k' = r.key
  · subst hkr
    rw [Finmap.lookup_erase]
    exact iff_of_false (by simp) (fun hc => hr (List.mem_map.mpr ⟨_, hc, rfl⟩))
  · rw [Finmap.lookup_erase_ne hkr, hm, List.perm_middle.mem_iff, List.mem_cons]
    constructor
    · rintro (he | he)
      · exact absurd (congrArg Row.key he) hkr
      · exact he
    · exact Or.inr

end FrozenHot
