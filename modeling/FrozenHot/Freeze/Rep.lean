import FrozenHot.Freeze.Splice

/-! The code of the list caches does what the shard over lists does.

    `Rep s σ τ` ties a shard to its view over lists: the same fields, the two linked lists in the
    heap, and for every map entry a node that carries its key and is on a list or marked as being on
    none. No curve is being taken. Each call has one lemma: it returns what the call over lists
    returns, and the results are tied again. -/

namespace FrozenHot
open Schemes ListShard

/-- The keys a client may use: 0, 1 and 2 are reserved and the fast hash has 32-bit keys. -/
def ValidKey (k : ℕ) : Prop := 3 ≤ k ∧ k < 2 ^ 32

instance (k : ℕ) : Decidable (ValidKey k) := inferInstanceAs (Decidable (_ ∧ _))

theorem keys_eq_empty {β : ℕ → Type} {m : Finmap β} : m.keys = ∅ ↔ m = ∅ := by
  refine ⟨fun h => Finmap.ext_lookup fun k => ?_, fun h => by rw [h, Finmap.keys_empty]⟩
  rw [Finmap.lookup_empty, Finmap.lookup_eq_none, ← Finmap.mem_keys, h]
  simp

instance decidableEqEmpty {β : ℕ → Type} (m : Finmap β) : Decidable (m = ∅) :=
  decidable_of_iff _ keys_eq_empty

theorem ValidKey.ne_tomb {k : ℕ} (hk : ValidKey k) : k ≠ TOMB_KEY := by
  have := hk.1; unfold TOMB_KEY; omega

variable {α : Type}

namespace Shard

/-- The node of a map entry: it carries the key, and it is on a list or marked. -/
structure Entry (h : Heap Ptr NodeData) (I : List Item) (k : ℕ) (e : HashMapValue (Option α)) :
    Prop where
  valid : ValidKey k
  node : e.m_listNode.IsNode
  key : keyAt h e.m_listNode = some k
  place : e.m_listNode ∈ I.map Item.node ∨ h.prev e.m_listNode = some .OutOfListMarker

/-- The heap holds the lists `F` and `L` and the nodes of the map. -/
structure Holds (h : Heap Ptr NodeData) (c : Core α) (s : Option Ptr) (F L : List Item) : Prop where
  lists : Lists h s F L
  entry : ∀ k e, c.m_map.lookup k = some e → Entry h (F ++ L) k e
  fresh : ∀ i, h.Live (.node i) → i < c.fresh

/-- The shard and its view over lists. -/
structure Rep (s : Option Ptr) (σ : Shard α) (τ : ListShard α) : Prop where
  core : σ.toCore = τ.toCore
  holds : Holds σ.heap τ.toCore s τ.frozen τ.main
  no_curve : τ.curve_flag = false

variable {h h' : Heap Ptr NodeData} {F L I I' F' L' : List Item} {x : Item} {n p : Ptr} {k : ℕ}
variable {e : HashMapValue (Option α)} {c c' : Core α} {σ : Shard α} {τ : ListShard α}
    {s : Option Ptr}

theorem Entry.kept {S : List Ptr} (he : Entry h I k e) (hk : Kept S h h')
    (hI : ∀ p ∈ I.map Item.node, p ∈ S)
    (hS : ∀ p ∈ S, p ∈ I'.map Item.node ∨ h'.prev p = some .OutOfListMarker) : Entry h' I' k e := by
  refine ⟨he.valid, he.node, (hk.key _).trans he.key, ?_⟩
  by_cases hm : e.m_listNode ∈ S
  · exact hS _ hm
  · rcases he.place with hp | hp
    · exact (hm (hI _ hp)).elim
    · exact Or.inr ((hk.prev _ he.node hm).trans hp)

theorem Entry.put (he : Entry h I k e) (hne : e.m_listNode ≠ n) (c : Option (Cell Ptr NodeData)) :
    Entry (h.put n c) I k e := by
  refine ⟨he.valid, he.node, ?_, ?_⟩
  · rw [keyAt, Heap.val_put, if_neg hne]; exact he.key
  · rw [Heap.prev_put, if_neg hne]; exact he.place

/-- An entry survives whatever happens to a node with another key. -/
theorem Entry.ne_of_key {k' : ℕ} (he : Entry h I k e) (hk : keyAt h n = some k') (hne : k ≠ k') :
    e.m_listNode ≠ n := by
  rintro rfl; exact hne (Option.some.inj (he.key.symm.trans hk))

theorem Holds.live_node (hh : Holds h c s F L) (hn : n ∈ (F ++ L).map Item.node) : h.Live n := by
  obtain ⟨x, hx, rfl⟩ := List.mem_map.mp hn
  exact live_of_key (hh.lists.key x hx)

/-- The node that `new` returns next is on no list and in no entry. -/
theorem Holds.fresh_notMem (hh : Holds h c s F L) : .node c.fresh ∉ (F ++ L).map Item.node :=
  fun hc => lt_irrefl _ (hh.fresh _ (hh.live_node hc))

/-- There are no more items than nodes were made. -/
theorem Holds.length_le (hh : Holds h c s F L) : (F ++ L).length ≤ c.fresh := by
  have hlen : ((F ++ L).map Item.node).length ≤ c.fresh := by
    refine length_le_of_addresses (f := Ptr.node) hh.lists.nodup fun p hp => ?_
    obtain ⟨i, rfl⟩ := isNode_iff.mp (hh.lists.isNode hp)
    exact ⟨i, hh.fresh i (hh.live_node hp), rfl⟩
  rwa [List.length_map] at hlen

/-- Surgery that moves nodes between lists, or off them with the mark. -/
theorem Holds.moved {s' : Option Ptr} (hh : Holds h c s F L) (hl : Lists h' s' F' L')
    (hk : Kept ((F ++ L).map Item.node) h h')
    (hS : ∀ p ∈ (F ++ L).map Item.node,
      p ∈ (F' ++ L').map Item.node ∨ h'.prev p = some .OutOfListMarker) : Holds h' c s' F' L' :=
  ⟨hl, fun k e he => (hh.entry k e he).kept hk (fun _ hp => hp) hS,
    fun i hi => hh.fresh i (hk.live.mp hi)⟩

theorem mem_detach {l : List Item} : x ∈ detach n l ↔ x ∈ l ∧ x.node ≠ n := by
  simp [detach, List.mem_filter]

theorem notMem_detach (n : Ptr) (F L : List Item) :
    n ∉ (detach n F ++ detach n L).map Item.node := by
  intro hc
  obtain ⟨y, hy, he⟩ := List.mem_map.mp hc
  rw [List.mem_append] at hy
  exact hy.elim (fun h => (mem_detach.mp h).2 he) (fun h => (mem_detach.mp h).2 he)

/-- `delink` of a node on a list. -/
theorem Holds.delink (hh : Holds h c s F L) (hx : x ∈ F ++ L) :
    ∃ h', delinkChecked h x.node = .ok h' ∧ Holds h' c s (detach x.node F) (detach x.node L) ∧
      (∀ p, h'.val p = h.val p) ∧ h'.prev x.node = some .OutOfListMarker := by
  obtain ⟨h', he, hl, hout, hk⟩ := hh.lists.delink hx
  refine ⟨h', he, hh.moved hl hk (fun p hp => ?_), hk.val, hout⟩
  by_cases hpx : p = x.node
  · exact Or.inr (hpx ▸ hout)
  · obtain ⟨y, hy, rfl⟩ := List.mem_map.mp hp
    refine Or.inl (List.mem_map.mpr ⟨y, ?_, rfl⟩)
    rw [List.mem_append] at hy ⊢
    exact hy.imp (fun h => mem_detach.mpr ⟨h, hpx⟩) (fun h => mem_detach.mpr ⟨h, hpx⟩)

/-- `pushFront` of a node off the lists. -/
theorem Holds.pushFront (hh : Holds h c s F L) (hk : keyAt h n = some k) (hn : n.IsNode)
    (hoff : n ∉ (F ++ L).map Item.node) :
    ∃ h', pushFront h n = .ok h' ∧ Holds h' c s F (⟨n, k⟩ :: L) := by
  obtain ⟨h', he, hl, hkept⟩ := hh.lists.pushFront hk hn hoff
  refine ⟨h', he, hl, fun k e he => (hh.entry k e he).kept hkept ?_ ?_,
    fun i hi => hh.fresh i (hkept.live.mp hi)⟩
  · intro p hp; exact List.mem_cons_of_mem _ hp
  · intro p hp
    simp only [List.mem_cons, List.map_append, List.mem_append, List.map_cons] at hp ⊢
    tauto

/-- Releasing a node that is on no list and in no entry. -/
theorem Holds.free (hh : Holds h c s F L) (hn : n.IsNode) (hoff : n ∉ (F ++ L).map Item.node)
    (hent : ∀ k e, c.m_map.lookup k = some e → e.m_listNode ≠ n) : Holds (h.free n) c s F L :=
  ⟨hh.lists.put hn hoff none, fun k e he => (hh.entry k e he).put (hent k e he) none,
    fun i hi => hh.fresh i (Heap.live_free.mp hi).2⟩

/-! ### `find` -/

theorem find?_node {l : List Item} (hn : n ∈ l.map Item.node) :
    ∃ y ∈ l, l.find? (·.node = n) = some y ∧ y.node = n := by
  obtain ⟨x, hx, rfl⟩ := List.mem_map.mp hn
  cases hf : l.find? (·.node = x.node) with
  | none => exact absurd (List.find?_eq_none.mp hf x hx) (by simp)
  | some y => exact ⟨y, List.mem_of_find?_eq_some hf, rfl, by simpa using List.find?_some hf⟩

theorem find?_node_none {l : List Item} (hn : n ∉ l.map Item.node) :
    l.find? (·.node = n) = none := by
  rw [List.find?_eq_none]
  intro y hy
  simp only [decide_eq_true_eq]
  rintro rfl
  exact hn (List.mem_map_of_mem hy)

/-- Promotion moves the node to the front of the main list if it is on a list. -/
theorem Rep.promote (hr : Rep s σ τ) (he : Entry σ.heap τ.items k e) :
    ∃ h', Shard.promote σ.heap e.m_listNode = .ok h' ∧
      Rep s { σ with heap := h' } (τ.promote e.m_listNode) := by
  by_cases hm : e.m_listNode ∈ τ.items.map Item.node
  · obtain ⟨x, hx, hfind, hnode⟩ := find?_node hm
    obtain ⟨h₁, hd, hh₁, hv₁, -⟩ := hr.holds.delink hx
    have hoff : x.node ∉ (detach x.node τ.frozen ++ detach x.node τ.main).map Item.node :=
      notMem_detach _ _ _
    have hkey : keyAt h₁ x.node = some x.key := by
      rw [keyAt, hv₁]; exact hr.holds.lists.key x hx
    obtain ⟨h₂, hp, hh₂⟩ := hh₁.pushFront hkey (hr.holds.lists.node hx) hoff
    rw [← hnode] at hm ⊢
    refine ⟨h₂, ?_, ?_⟩
    · simp [Shard.promote, hr.holds.lists.isInList hm, hd, hp]
    · have hτ : τ.promote x.node =
          { τ with frozen := detach x.node τ.frozen, main := x :: detach x.node τ.main } := by
        rw [hnode]; simp [ListShard.promote, hfind]
      rw [hτ]
      exact ⟨hr.core, hh₂, hr.no_curve⟩
  · have hout := he.place.resolve_left hm
    have hτ : τ.promote e.m_listNode = τ := by simp [ListShard.promote, find?_node_none hm]
    rw [hτ]
    exact ⟨σ.heap, by simp [Shard.promote, isInList_unlinked hout], hr⟩

theorem Rep.findSlow (hr : Rep s σ τ) (lock : Bool) (k : ℕ) :
    ∃ σ', σ.findSlow lock k = .ok ((τ.findSlow lock k).1, σ') ∧ Rep s σ' (τ.findSlow lock k).2 := by
  have hmap : σ.m_map = τ.m_map := congrArg Core.m_map hr.core
  have hcon : σ.fast_hash_construct = τ.fast_hash_construct :=
    congrArg Core.fast_hash_construct hr.core
  have hcur : σ.curve_flag = false := (congrArg Core.curve_flag hr.core).trans hr.no_curve
  cases hl : τ.m_map.lookup k with
  | none => exact ⟨σ, by simp [Shard.findSlow, ListShard.findSlow, hmap, hl],
      by simpa [ListShard.findSlow, hl] using hr⟩
  | some e =>
    by_cases hp : (lock && !τ.fast_hash_construct) = true
    · obtain ⟨rfl, hc⟩ : lock = true ∧ τ.fast_hash_construct = false := by simpa using hp
      obtain ⟨h', hp, hr'⟩ := hr.promote (hr.holds.entry k e hl)
      exact ⟨{ σ with heap := h' },
        by simp [Shard.findSlow, ListShard.findSlow, hmap, hl, hcon, hc, hcur, hp],
        by simpa [ListShard.findSlow, hl, hc] using hr'⟩
    · rw [Bool.not_eq_true] at hp
      refine ⟨σ, ?_, by simpa [ListShard.findSlow, hl, hp] using hr⟩
      cases hc : τ.fast_hash_construct
      · have hlock : lock = false := by simpa [hc] using hp
        simp [Shard.findSlow, ListShard.findSlow, hmap, hl, hcon, hc, hcur, hlock]
      · simp [Shard.findSlow, ListShard.findSlow, hmap, hl, hcon, hc]

/-- `find` answers as the shard over lists does. -/
theorem Rep.find (hr : Rep s σ τ) (lock : Bool) (k : ℕ) :
    ∃ σ', σ.findWith lock k = .ok ((τ.find lock k).1, σ') ∧ Rep s σ' (τ.find lock k).2 := by
  have hfast : σ.m_fasthash = τ.m_fasthash := congrArg Core.m_fasthash hr.core
  have htier : σ.tier_ready = τ.tier_ready := congrArg Core.tier_ready hr.core
  have hready : σ.fast_hash_ready = τ.fast_hash_ready := congrArg Core.fast_hash_ready hr.core
  have hcur : σ.curve_flag = false := (congrArg Core.curve_flag hr.core).trans hr.no_curve
  obtain ⟨σ', h1, h2⟩ := hr.findSlow lock k
  by_cases hf : (τ.tier_ready || τ.fast_hash_ready) = true
  · cases hg : τ.m_fasthash.get k with
    | some v =>
        exact ⟨σ, by simp [findWith, ListShard.find, htier, hready, hfast, hf, hg, hcur, assert],
        by simpa [ListShard.find, hf, hg] using hr⟩
    | none =>
      cases ht : τ.tier_ready with
      | true =>
          exact ⟨σ, by simp [findWith, ListShard.find, htier, hready, hfast, hg, ht, hcur, assert],
          by simpa [ListShard.find, hg, ht] using hr⟩
      | false =>
        rw [ht, Bool.false_or] at hf
        exact ⟨σ', by simp [findWith, ListShard.find, htier, hready, hfast, hg, ht, hf, hcur,
          assert, h1], by simpa [ListShard.find, hg, ht, hf] using h2⟩
  · rw [Bool.not_eq_true] at hf
    refine ⟨σ', ?_, by simpa [ListShard.find, hf] using h2⟩
    simp [findWith, ListShard.find, htier, hready, hf, hcur, assert, h1]

end Shard
end FrozenHot
