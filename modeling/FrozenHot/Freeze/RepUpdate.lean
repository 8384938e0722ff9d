import FrozenHot.Freeze.Rep

/-! `evict`, `insert` and `delete_key` do what they do over lists. -/

namespace FrozenHot.Shard
open Schemes ListShard

variable {α : Type} {h h' : Heap Ptr NodeData} {F L : List Item} {x : Item} {n : Ptr} {k : ℕ}
variable {c : Core α} {σ : Shard α} {τ : ListShard α} {held : Option ℕ} {s : Option Ptr}

/-! ### `evict` -/

/-- The entries of the other keys outlive a deleted key. -/
theorem lookup_erase_cases {m : Finmap fun _ : ℕ => HashMapValue (Option α)} {k' : ℕ}
    {e : HashMapValue (Option α)} (he : (m.erase k).lookup k' = some e) :
    m.lookup k' = some e ∧ k' ≠ k := by
  by_cases hk : k' = k
  · rw [hk, Finmap.lookup_erase] at he; cases he
  · rw [Finmap.lookup_erase_ne hk] at he; exact ⟨he, hk⟩

/-- The loop of `evict` discards the tombstones at the tail of the main list. -/
theorem Holds.dropTombs {f : ℕ} (hh : Holds h c s F L) (hf : L.length < f) :
    ∃ h', dropTombs f h = .ok (((trim L).map Item.node).getLastD .m_head, h') ∧
      Holds h' c s F (trim L) := by
  induction L using List.reverseRecOn generalizing h f with
  | nil =>
    obtain ⟨g, rfl⟩ : ∃ g, f = g + 1 := ⟨f - 1, by simp at hf; omega⟩
    have hp := hh.lists.main.seg.prev_last
    refine ⟨h, ?_, hh⟩
    have hk := keyOf_eq hh.lists.head
    simp only [List.map_nil, List.getLastD_nil] at hp
    simp [Shard.dropTombs, Heap.getPrev_eq hp, hk, SPECIAL_KEY, TOMB_KEY, trim]
  | append_singleton L x ih =>
    obtain ⟨g, rfl⟩ : ∃ g, f = g + 1 := ⟨f - 1, by simp at hf; omega⟩
    have hp : h.prev .m_tail = some x.node := by simpa using hh.lists.main.seg.prev_last
    have hxm : x ∈ F ++ (L ++ [x]) := by simp
    have hkey := hh.lists.key x hxm
    by_cases hx : x.key = TOMB_KEY
    · obtain ⟨h₁, hd, hh₁, hv₁, -⟩ := hh.delink hxm
      obtain ⟨hdF, hdL⟩ := hh.lists.detach_main (B := [])
      rw [hdF, hdL, List.append_nil] at hh₁
      have hoff : x.node ∉ (F ++ L).map Item.node := by
        have := hh.lists.nodup
        rw [← List.append_assoc, List.map_append] at this
        exact fun hc => (List.nodup_append'.mp this).2.2 hc (by simp)
      -- no entry points to a tombstone
      have hent : ∀ k e, c.m_map.lookup k = some e → e.m_listNode ≠ x.node := fun k e he =>
        (hh.entry k e he).ne_of_key hkey (by rw [hx]; exact (hh.entry k e he).valid.ne_tomb)
      obtain ⟨h', he, hh'⟩ := ih (f := g) (hh₁.free (hh.lists.node hxm) hoff hent)
        (by simp at hf; omega)
      have ht : trim (L ++ [x]) = trim L := List.rdropWhile_concat_pos _ _ _ (by simpa using hx)
      rw [ht]
      refine ⟨h', ?_, hh'⟩
      simp [Shard.dropTombs, Heap.getPrev_eq hp, keyOf_eq hkey, hx, hd, he]
    · have ht : trim (L ++ [x]) = L ++ [x] := List.rdropWhile_concat_neg _ _ _ (by simpa using hx)
      rw [ht]
      refine ⟨h, ?_, hh⟩
      simp [Shard.dropTombs, Heap.getPrev_eq hp, keyOf_eq hkey, hx]

/-- There are fewer items than the loop may take steps. -/
theorem Holds.dropTombs_fresh (hh : Holds h c s F L) :
    ∃ h', Shard.dropTombs (c.fresh + 1) h = .ok (((trim L).map Item.node).getLastD .m_head, h') ∧
    Holds h' c s F (trim L) := by
  refine hh.dropTombs ?_
  have hlen := hh.length_le
  rw [List.length_append] at hlen
  omega

/-- `evict` does what it does over lists. -/
theorem Rep.evict {r : Bool × ListShard α} (hr : Rep s σ τ) (he : τ.evict held = some r) :
    ∃ σ', σ.evict held = .ok (r.1, σ') ∧ Rep s σ' r.2 := by
  obtain ⟨c, h⟩ := σ
  obtain ⟨c', F, L⟩ := τ
  obtain rfl : c = c' := hr.core
  obtain ⟨h₁, hd, hh₁⟩ := hr.holds.dropTombs_fresh
  rcases evict_cases he with ⟨ht, rfl⟩ | ⟨A, x, ht, hx, hheld, rfl⟩ | ⟨A, x, ht, hx, rfl⟩
  · simp only at ht
    rw [ht] at hd hh₁
    refine ⟨⟨c, h₁⟩, ?_, rfl, hh₁, hr.no_curve⟩
    simp only [List.map_nil, List.getLastD_nil] at hd
    simp [Shard.evict, hd]
  all_goals
    simp only at ht hx
    rw [ht] at hd hh₁
    have hxm : x ∈ F ++ (A ++ [x]) := by simp
    have hnode := hh₁.lists.node hxm
    have hkey := hh₁.lists.key x hxm
    obtain ⟨h₂, hdel, hh₂, hv₂, -⟩ := hh₁.delink hxm
    obtain ⟨hdF, hdL⟩ := hh₁.lists.detach_main (B := [])
    rw [hdF, hdL, List.append_nil] at hh₂
    have hne : x.node ≠ .m_head := hnode.ne_of_not id
    have hkey₂ : keyAt h₂ x.node = some x.key := by rw [keyAt, hv₂]; exact hkey
    simp only [List.map_append, List.map_cons, List.map_nil, getLastD_append, List.getLastD_cons,
      List.getLastD_nil] at hd
  · obtain ⟨e, hlk⟩ := Finmap.mem_iff.mp hx
    have hoff : x.node ∉ (F ++ A).map Item.node := by
      have := hh₁.lists.nodup
      rw [← List.append_assoc, List.map_append] at this
      exact fun hc => (List.nodup_append'.mp this).2.2 hc (by simp)
    refine ⟨⟨{ c with m_map := c.m_map.erase x.key }, h₂.free x.node⟩, ?_, rfl, ?_, hr.no_curve⟩
    · simp [Shard.evict, hd, hne, hdel, keyOf_eq hkey₂, hlk, hheld]
    · -- the entries left have other keys, so none of them points to the victim
      refine ⟨hh₂.lists.put hnode hoff none, fun k e he => ?_, fun i hi => ?_⟩
      · obtain ⟨hl', hne'⟩ := lookup_erase_cases he
        have hE := hh₂.entry k e hl'
        exact hE.put (hE.ne_of_key hkey₂ hne') none
      · exact hh₂.fresh i (Heap.live_free.mp hi).2
  · have hlk := Finmap.lookup_eq_none.mpr hx
    refine ⟨⟨{ c with unreachable_counter := c.unreachable_counter + 1 }, h₂⟩, ?_, rfl,
      ⟨hh₂.lists, hh₂.entry, hh₂.fresh⟩, hr.no_curve⟩
    simp [Shard.evict, hd, hne, hdel, keyOf_eq hkey₂, hlk]

/-- Where the victim is the key whose accessor the caller holds, `evict` waits forever. -/
theorem Rep.evict_fails (hr : Rep s σ τ) (he : τ.evict held = none) :
    σ.evict held = .error .diverge := by
  obtain ⟨A, x, ht, hx, rfl⟩ := evict_eq_none he
  obtain ⟨c, h⟩ := σ
  obtain ⟨c', F, L⟩ := τ
  obtain rfl : c = c' := hr.core
  obtain ⟨h₁, hd, hh₁⟩ := hr.holds.dropTombs_fresh
  simp only at ht hx
  rw [ht] at hd hh₁
  have hxm : x ∈ F ++ (A ++ [x]) := by simp
  obtain ⟨h₂, hdel, -, hv₂, -⟩ := hh₁.delink hxm
  have hne : x.node ≠ .m_head := (hh₁.lists.node hxm).ne_of_not id
  have hkey₂ : keyAt h₂ x.node = some x.key := by rw [keyAt, hv₂]; exact hh₁.lists.key x hxm
  obtain ⟨e, hlk⟩ := Finmap.mem_iff.mp hx
  simp only [List.map_append, List.map_cons, List.map_nil, getLastD_append, List.getLastD_cons,
    List.getLastD_nil] at hd
  simp [Shard.evict, hd, hne, hdel, keyOf_eq hkey₂, hlk]

/-! ### `insert` -/

/-- A new node is on no list yet. -/
theorem Rep.newNode (hr : Rep s σ τ) (k : ℕ) :
    Rep s (σ.newNode k) { τ with fresh := τ.fresh + 1, clock := τ.clock + 1 } ∧
      keyAt (σ.newNode k).heap (.node σ.fresh) = some k := by
  obtain ⟨c, h⟩ := σ
  obtain ⟨c', F, L⟩ := τ
  obtain rfl : c = c' := hr.core
  have hh := hr.holds
  have hnode : (Ptr.node c.fresh).IsNode := trivial
  refine ⟨⟨rfl, ⟨hh.lists.put hnode hh.fresh_notMem _, fun k' e he => ?_, fun i hi => ?_⟩,
    hr.no_curve⟩, ?_⟩
  · have hE := hh.entry k' e he
    refine hE.put (fun e => ?_) _
    exact lt_irrefl _ (hh.fresh c.fresh (e ▸ live_of_key hE.key))
  · change (h.put (.node c.fresh) (some ⟨.OutOfListMarker, .null, k, c.clock⟩)).Live (.node i) at hi
    rw [Heap.live_put] at hi
    show i < c.fresh + 1
    split at hi
    · rename_i heq; cases heq; exact Nat.lt_succ_self _
    · exact Nat.lt_succ_of_lt (hh.fresh i hi)
  · simp [keyAt, Shard.newNode]

/-- A new node, entered in the map and on no list yet. -/
theorem Rep.insertMap (hr : Rep s σ τ) (hk : ValidKey k) (v : Option α) :
    ∃ σ₀, insertMap (Shard.newNode σ k) k v (.node τ.fresh) = (decide (k ∉ τ.m_map), σ₀) ∧
      Rep s σ₀ (τ.place k v) := by
  obtain ⟨hr₁, hkey⟩ := hr.newNode k
  obtain ⟨c, h⟩ := σ
  obtain ⟨c', F, L⟩ := τ
  obtain rfl : c = c' := hr.core
  have hh := hr₁.holds
  refine ⟨⟨(ListShard.place ⟨c, F, L⟩ k v).toCore, (Shard.newNode ⟨c, h⟩ k).heap⟩, ?_, rfl,
    ⟨hh.lists, fun k' e he => ?_, hh.fresh⟩, hr.no_curve⟩
  · by_cases hm : k ∈ c.m_map
    · obtain ⟨e, hlk⟩ := Finmap.mem_iff.mp hm
      simp [Shard.insertMap, Shard.newNode, ListShard.place, hlk, hm]
    · have hlk := Finmap.lookup_eq_none.mpr hm
      cases hcon : c.fast_hash_construct <;>
        simp [Shard.insertMap, Shard.newNode, ListShard.place, hlk, hm, hcon]
  · by_cases hkk : k' = k
    · subst hkk
      simp only [ListShard.place, Finmap.lookup_insert, Option.some.injEq] at he
      subst he
      exact ⟨hk, trivial, hkey, Or.inr (by simp [Shard.newNode])⟩
    · simp only [ListShard.place, Finmap.lookup_insert_of_ne _ hkk] at he
      exact hh.entry k' e he

/-- `insertEvict` makes room. -/
theorem Rep.insertEvict {r : Bool × ListShard α} (hr : Rep s σ τ) (he : τ.makeRoom k = some r) :
    ∃ σ', σ.insertEvict k = .ok ((τ.m_size, r.1), σ') ∧ Rep s σ' r.2 := by
  have hsize : σ.m_size = τ.m_size := congrArg Core.m_size hr.core
  have hmax : σ.m_maxSize = τ.m_maxSize := congrArg Core.m_maxSize hr.core
  unfold makeRoom at he
  split at he
  · rename_i hfull
    obtain ⟨σ', h1, h2⟩ := hr.evict he
    exact ⟨σ', by simp [Shard.insertEvict, hsize, hmax, hfull, h1], h2⟩
  · rename_i hfull
    cases he
    exact ⟨σ, by simp [Shard.insertEvict, hsize, hmax, hfull], hr⟩

/-- The locked section links the new node when no freeze came in between. -/
theorem Rep.insertLink (hr : Rep s σ τ) (hno : τ.tier_no_insert = false)
    (hk : keyAt σ.heap n = some k) (hn : n.IsNode) (hoff : n ∉ τ.items.map Item.node) :
    ∃ σ', σ.insertLink k n = .ok (true, σ') ∧ Rep s σ' { τ with main := ⟨n, k⟩ :: τ.main } := by
  have hno' : σ.tier_no_insert = false := (congrArg Core.tier_no_insert hr.core).trans hno
  have hcur : σ.curve_flag = false := (congrArg Core.curve_flag hr.core).trans hr.no_curve
  obtain ⟨h', hp, hh'⟩ := hr.holds.pushFront hk hn hoff
  refine ⟨{ σ with heap := h' }, by simp [Shard.insertLink, hno', hcur, hp], hr.core, hh',
    hr.no_curve⟩

/-- After a freeze the locked section takes the entry out again. -/
theorem Rep.insertRefused {e : HashMapValue (Option α)} (hr : Rep s σ τ)
    (hno : τ.tier_no_insert = true) (he : τ.m_map.lookup k = some e)
    (hoff : e.m_listNode ∉ τ.items.map Item.node) :
    ∃ σ', σ.insertLink k e.m_listNode = .ok (false, σ') ∧
    Rep s σ' { τ with m_map := τ.m_map.erase k } := by
  obtain ⟨c, h⟩ := σ
  obtain ⟨c', F, L⟩ := τ
  obtain rfl : c = c' := hr.core
  have hE := hr.holds.entry k e he
  refine ⟨⟨{ c with m_map := c.m_map.erase k }, h.free e.m_listNode⟩, ?_, rfl, ?_, hr.no_curve⟩
  · have hno' : c.tier_no_insert = true := hno
    simp [Shard.insertLink, hno']
  · have hh : Holds h { c with m_map := c.m_map.erase k } s F L :=
      ⟨hr.holds.lists, fun k' e' he' => hr.holds.entry k' e' (lookup_erase_cases he').1,
        hr.holds.fresh⟩
    refine hh.free hE.node hoff fun k' e' he' => ?_
    obtain ⟨h1, h2⟩ := lookup_erase_cases he'
    exact (hr.holds.entry k' e' h1).ne_of_key hE.key h2

theorem Rep.withSize (hr : Rep s σ τ) (n : ℕ) :
    Rep s { σ with m_size := n } { τ with m_size := n } := by
  obtain ⟨c, h⟩ := σ
  obtain ⟨c', F, L⟩ := τ
  obtain rfl : c = c' := hr.core
  exact ⟨rfl, ⟨hr.holds.lists, hr.holds.entry, hr.holds.fresh⟩, hr.no_curve⟩

theorem Rep.count (hr : Rep s σ τ) (d : Bool) : Rep s (σ.count d) (τ.count d) := by
  have hsize : σ.m_size = τ.m_size := congrArg Core.m_size hr.core
  cases d
  · simpa [Shard.count, ListShard.count, hsize] using hr.withSize (sizeInc τ.m_size)
  · simpa [Shard.count, ListShard.count] using hr

/-- The correction of an overfill. -/
theorem Rep.correct {n : ℕ} {τ' : ListShard α} (hr : Rep s σ τ) (he : τ.correct n = some τ') :
    ∃ σ', σ.correct n = .ok σ' ∧ Rep s σ' τ' := by
  have hmax : σ.m_maxSize = τ.m_maxSize := congrArg Core.m_maxSize hr.core
  unfold Shard.correct
  rw [hmax]
  by_cases hover : n > τ.m_maxSize
  · rw [ListShard.correct, if_pos hover] at he
    rw [if_pos hover]
    obtain ⟨r, hev, rfl⟩ := Option.map_eq_some_iff.mp he
    obtain ⟨σ', h1, h2⟩ := hr.evict hev
    have hs' : σ'.m_size = r.2.m_size := congrArg Core.m_size h2.core
    rw [h1]
    refine ⟨_, rfl, ?_⟩
    cases r.1
    · simpa using h2
    · simpa [hs'] using h2.withSize (sizeDec r.2.m_size)
  · rw [ListShard.correct, if_neg hover] at he
    rw [if_neg hover]
    cases he
    exact ⟨_, rfl, hr⟩

/-- Counting the new entry, with the correction of an overfill. -/
theorem Rep.insertSettle {n : ℕ} {d : Bool} {τ' : ListShard α} (hr : Rep s σ τ)
    (he : τ.settle n d = some τ') : ∃ σ', σ.insertSettle n d = .ok σ' ∧ Rep s σ' τ' := by
  have hsize : σ.m_size = τ.m_size := congrArg Core.m_size hr.core
  rw [Shard.insertSettle, hsize]
  exact (hr.count d).correct he

/-- `insert` answers as the shard over lists does. -/
theorem Rep.insert {v : Option α} {r : Bool × ListShard α} (hr : Rep s σ τ) (hk : ValidKey k)
    (he : τ.insert k v = some r) : ∃ σ', σ.insert k v = .ok (r.1, σ') ∧ Rep s σ' r.2 := by
  have hno : σ.tier_no_insert = τ.tier_no_insert := congrArg Core.tier_no_insert hr.core
  have hfr : σ.fresh = τ.fresh := congrArg Core.fresh hr.core
  obtain ⟨σ₀, hmapped, hr₀⟩ := hr.insertMap hk v
  rw [← hfr] at hmapped
  unfold ListShard.insert at he
  split at he
  · -- refused at once
    rename_i ht
    cases he
    exact ⟨σ, by simp [Shard.insert, hno, ht], hr⟩
  · rename_i ht
    rw [Bool.not_eq_true] at ht
    split at he
    · -- the key is present
      rename_i hmem
      cases he
      exact ⟨σ₀, by simp [Shard.insert, hno, ht, hmapped, hmem], hr₀⟩
    · rename_i hmem
      obtain ⟨r₁, hroom, he⟩ := Option.bind_eq_some_iff.mp he
      obtain ⟨τ', hset, he⟩ := Option.bind_eq_some_iff.mp he
      cases he
      obtain ⟨σ₁, h1, hr₁⟩ := hr₀.insertEvict hroom
      obtain ⟨hF, hL, hlook, hno₁⟩ := makeRoom_keeps hroom
      -- the new entry is still there, and its node is on no list
      have hE := hr₁.holds.entry k ⟨v, .node τ.fresh⟩ (by rw [hlook]; simp [ListShard.place])
      have hoff : Ptr.node τ.fresh ∉ r₁.2.items.map Item.node := by
        intro hc
        refine hr.holds.fresh_notMem ?_
        rw [items, hF] at hc
        rw [List.map_append, List.mem_append] at hc ⊢
        exact hc.imp_right (fun h => (hL.sublist.map Item.node).subset h)
      obtain ⟨σ₂, h2, hr₂⟩ := hr₁.insertLink (hno₁.trans ht) hE.key hE.node hoff
      obtain ⟨σ₃, h3, hr₃⟩ := hr₂.insertSettle hset
      rw [← hfr] at h2
      have hs : (τ.place k v).m_size = τ.m_size := rfl
      rw [hs] at h1
      exact ⟨σ₃, by simp [Shard.insert, hno, ht, hmapped, hmem, h1, h2, h3], hr₃⟩

/-- `insert` does not return when it would evict the key it inserts. -/
theorem Rep.insert_fails {v : Option α} (hr : Rep s σ τ) (hk : ValidKey k)
    (he : τ.insert k v = none) :
    σ.insert k v = .error .diverge := by
  obtain ⟨hno, hmem, hroom⟩ : τ.tier_no_insert = false ∧ k ∉ τ.m_map ∧
      makeRoom (τ.place k v) k = none := by
    unfold ListShard.insert at he
    split at he
    · cases he
    · rename_i ht
      split at he
      · cases he
      · rename_i hmem
        refine ⟨by simpa using ht, hmem, ?_⟩
        cases hroom : makeRoom (τ.place k v) k with
        | none => rfl
        | some r =>
          obtain ⟨τ', hs⟩ := settle_some { r.2 with main := ⟨.node τ.fresh, k⟩ :: r.2.main }
            τ.m_size r.1
          simp [hroom, hs] at he
  obtain ⟨σ₀, hmapped, hr₀⟩ := hr.insertMap hk v
  have hno' : σ.tier_no_insert = false := (congrArg Core.tier_no_insert hr.core).trans hno
  have hfr : σ.fresh = τ.fresh := congrArg Core.fresh hr.core
  have hsize : σ₀.m_size = (τ.place k v).m_size := congrArg Core.m_size hr₀.core
  have hmax : σ₀.m_maxSize = (τ.place k v).m_maxSize := congrArg Core.m_maxSize hr₀.core
  rw [← hfr] at hmapped
  unfold makeRoom at hroom
  split at hroom
  · rename_i hfull
    rw [← hsize, ← hmax] at hfull
    simp [Shard.insert, hno', hmapped, hmem, Shard.insertEvict, hfull, hr₀.evict_fails hroom]
  · cases hroom

/-! ### `delete_key` -/

/-- `delete_key` does what it does over lists. -/
theorem Rep.delete_key (hr : Rep s σ τ) (k : ℕ) :
    ∃ σ', σ.delete_key k = .ok σ' ∧ Rep s σ' (τ.delete_key k) := by
  obtain ⟨c, h⟩ := σ
  obtain ⟨c', F, L⟩ := τ
  obtain rfl : c = c' := hr.core
  have hh : Holds h c s F L := hr.holds
  cases hlk : c.m_map.lookup k with
  | none =>
    exact ⟨⟨c, h⟩, by simp [Shard.delete_key, hlk], by simpa [ListShard.delete_key, hlk] using hr⟩
  | some e =>
    have hE := hh.entry k e hlk
    have hlive := live_of_key hE.key
    by_cases hfast : (c.fast_hash_construct ||
        ((c.tier_ready || c.fast_hash_ready) && (c.m_fasthash.get k).isSome)) = true
    · -- the key is frozen: its node becomes a tombstone
      obtain ⟨d, hd⟩ := hlive.val
      have hτ : ListShard.delete_key ⟨c, F, L⟩ k =
          ⟨{ c with m_map := c.m_map.erase k, m_size := sizeDec c.m_size }, bury e.m_listNode F,
            bury e.m_listNode L⟩ := by
        simp only [ListShard.delete_key, hlk, hfast, if_true]
      rw [hτ]
      refine ⟨⟨{ c with m_map := c.m_map.erase k, m_size := sizeDec c.m_size },
        h.withVal e.m_listNode ⟨TOMB_KEY, d.m_time⟩⟩, ?_, rfl,
        ⟨hh.lists.bury hE.node hlive d.m_time, fun k' e' he' => ?_, fun i hi => ?_⟩, hr.no_curve⟩
      · rcases Bool.or_eq_true_iff.mp hfast with hc | hc
        · simp only [Shard.delete_key, hlk, hc, if_true, setTomb, Heap.getVal_eq hd,
            Heap.setVal_eq hlive, ok_bind, pure_eq_ok]
        · cases hcon : c.fast_hash_construct <;>
            simp only [Shard.delete_key, hlk, hcon, hc, if_true, if_false, setTomb,
              Heap.getVal_eq hd, Heap.setVal_eq hlive, ok_bind, pure_eq_ok, Bool.false_eq_true]
      · obtain ⟨hl', hne⟩ := lookup_erase_cases he'
        have hE' := hh.entry k' e' hl'
        have hnn := hE'.ne_of_key hE.key hne
        refine ⟨hE'.valid, hE'.node, ?_, ?_⟩
        · rw [keyAt, Heap.val_withVal hlive, if_neg hnn]; exact hE'.key
        · rw [Heap.prev_withVal, List.map_append, node_bury, node_bury, ← List.map_append]
          exact hE'.place
      · exact hh.fresh i (by simpa using hi)
    · rw [Bool.not_eq_true] at hfast
      obtain ⟨hcon, hfast'⟩ := Bool.or_eq_false_iff.mp hfast
      by_cases hin : e.m_listNode ∈ (F ++ L).map Item.node
      · -- unlinked and deleted
        obtain ⟨x, hx, hnode⟩ := List.mem_map.mp hin
        have hτ : ListShard.delete_key ⟨c, F, L⟩ k =
            ⟨{ c with m_map := c.m_map.erase k, m_size := sizeDec c.m_size }, detach e.m_listNode F,
              detach e.m_listNode L⟩ := by
          simp only [ListShard.delete_key, hlk, hfast, items, hin, if_true, if_false,
            Bool.false_eq_true]
        rw [hτ]
        have hisin := hh.lists.isInList hin
        obtain ⟨h₁, hdel, hh₁, hv₁, -⟩ := hh.delink hx
        rw [hnode] at hdel hh₁
        have hoff : e.m_listNode ∉ (detach e.m_listNode F ++ detach e.m_listNode L).map Item.node :=
          notMem_detach _ _ _
        refine ⟨⟨{ c with m_map := c.m_map.erase k, m_size := sizeDec c.m_size },
          h₁.free e.m_listNode⟩, ?_, rfl, ⟨hh₁.lists.put hE.node hoff none, fun k' e' he' => ?_,
          fun i hi => ?_⟩, hr.no_curve⟩
        · simp only [Shard.delete_key, hlk, hcon, hfast', hisin, hdel, ok_bind, if_true]
          rfl
        · obtain ⟨hl', hne⟩ := lookup_erase_cases he'
          exact (hh₁.entry k' e' hl').put ((hh.entry k' e' hl').ne_of_key hE.key hne) none
        · exact hh₁.fresh i (Heap.live_free.mp hi).2
      · have hτ : ListShard.delete_key ⟨c, F, L⟩ k = ⟨c, F, L⟩ := by
          simp only [ListShard.delete_key, hlk, hfast, items, hin, if_false, Bool.false_eq_true]
        rw [hτ]
        have hout := isInList_unlinked (hE.place.resolve_left hin)
        refine ⟨⟨c, h⟩, ?_, hr⟩
        simp only [Shard.delete_key, hlk, hcon, hfast', hout, ok_bind]
        rfl

end FrozenHot.Shard
