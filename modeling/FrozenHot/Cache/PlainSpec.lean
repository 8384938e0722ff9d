import FrozenHot.Cache.Plain

/-! What the calls of a plain cache do, in terms of the rows of its list.

    `Rows h R` ties the rows to the linked list in the heap, `Inv σ R` ties list, map and counter
    together, and each call has one lemma that says how it changes `R`. -/

namespace FrozenHot.PlainCache
open Schemes

variable {K V : Type}

/-- The rows are the linked list of the heap, with distinct keys. -/
structure Rows (h : Heap Ptr (Option K)) (R : List (Row K V)) : Prop where
  list : IsList h .m_head (R.map Row.node) .m_tail
  key : ∀ r ∈ R, h.val r.node = some (some r.key)
  nodup : (R.map Row.key).Nodup

variable {h : Heap Ptr (Option K)} {R A B : List (Row K V)} {r : Row K V} {n : Ptr} {k : K} {v : V}

theorem Rows.node_notMem (hr : Rows h (A ++ r :: B)) : r.node ∉ (A ++ B).map Row.node := by
  have hd := hr.list.nodup
  rw [List.map_append, List.map_cons] at hd
  rw [List.map_append]; exact (List.nodup_middle.mp hd).notMem

theorem Rows.key_notMem (hr : Rows h (A ++ r :: B)) : r.key ∉ (A ++ B).map Row.key := by
  have hd := hr.nodup
  rw [List.map_append, List.map_cons] at hd
  rw [List.map_append]; exact (List.nodup_middle.mp hd).notMem

/-- `delink` removes the row of a node. -/
theorem Rows.delink (hr : Rows h (A ++ r :: B)) :
    ∃ h', delink h r.node = .ok h' ∧ Rows h' (A ++ B) ∧ ∀ x, h'.val x = h.val x := by
  have hl := hr.list
  have hd := hr.nodup
  rw [List.map_append, List.map_cons] at hl hd
  obtain ⟨h', he, hl', hf, -⟩ := hl.delink
  refine ⟨h', he, ⟨by rwa [List.map_append], ?_, ?_⟩, hf.val⟩
  · intro x hx
    rw [hf.val]
    exact hr.key x (by simp at hx ⊢; tauto)
  · rw [List.map_append]
    exact (List.nodup_cons.mp (List.nodup_middle.mp hd)).2

/-- `pushFront` of a live node with a new key adds its row in front. -/
theorem Rows.pushFront (hr : Rows h R) (hn : h.val n = some (some k)) (hnode : n.IsNode)
    (hnR : n ∉ R.map Row.node) (hk : k ∉ R.map Row.key) (v : V) :
    ∃ h', pushFront h n = .ok h' ∧ Rows h' (⟨n, k, v⟩ :: R) := by
  obtain ⟨h', he, hl', hf⟩ := hr.list.pushFront (Heap.live_of_val hn) hnode hnR
  refine ⟨h', he, hl', ?_, List.nodup_cons.mpr ⟨hk, hr.nodup⟩⟩
  intro x hx
  rw [hf.val]
  rcases List.mem_cons.mp hx with rfl | hx
  · exact hn
  · exact hr.key x hx

/-- Allocating or releasing a node off the list changes no row. -/
theorem Rows.put (hr : Rows h R) (hnode : n.IsNode) (hnR : n ∉ R.map Row.node)
    (c : Option (Cell Ptr (Option K))) : Rows (h.put n c) R := by
  refine ⟨hr.list.put hnode hnR c, ?_, hr.nodup⟩
  intro x hx
  rw [Heap.val_put, if_neg]
  · exact hr.key x hx
  · rintro rfl; exact hnR (List.mem_map_of_mem hx)

theorem keyOf_eq (hn : h.val n = some (some k)) : keyOf h n = .ok k := by
  simp [keyOf, Heap.getVal_eq hn]

/-- The loop of `snapshotKeys` collects the keys of the rows in order. -/
theorem walk_eq : ∀ {R : List (Row K V)} {a : Ptr} {f : ℕ},
    h.Seg a (R.map Row.node) .m_tail → (∀ r ∈ R, h.val r.node = some (some r.key)) →
    (∀ r ∈ R, r.node.IsNode) → R.length < f →
    walk h f ((R.map Row.node).headD .m_tail) = .ok (R.map Row.key)
  | [], _, f + 1, _, _, _, _ => by simp [walk]
  | r :: R, a, f + 1, hs, hk, hn, hf => by
    have h1 : r.node ≠ .m_tail := (hn r (by simp)).ne_of_not id
    have h2 : h.next r.node = some ((R.map Row.node).headD .m_tail) := hs.tail.next_first
    have ih := walk_eq (f := f) hs.tail (fun x hx => hk x (by simp [hx]))
      (fun x hx => hn x (by simp [hx])) (by simpa using hf)
    rw [List.map_cons, List.headD_cons, walk, if_neg h1, keyOf_eq (hk r (by simp)),
      Heap.getNext_eq h2]
    simp only [ok_bind, ih, pure_eq_ok, List.map_cons]

variable [DecidableEq K]

/-- List, map and counter agree on the rows `R`. -/
structure Inv (σ : PlainCache K V) (R : List (Row K V)) : Prop where
  rows : Rows σ.heap R
  map : MapRows σ.m_map R
  fresh : ∀ i, .node i ∈ R.map Row.node → i < σ.fresh
  size : σ.m_size = R.length

variable {σ : PlainCache K V} {maxSize : ℕ}

theorem inv_init : Inv (init maxSize : PlainCache K V) [] := by
  refine ⟨⟨⟨?_, by simp, by simp, id, id⟩, by simp, by simp⟩, MapRows.empty, by simp, rfl⟩
  exact List.isChain_pair.mpr ⟨by simp [init], by simp [init]⟩

theorem Inv.node (hi : Inv σ R) (hr : r ∈ R) : r.node.IsNode :=
  hi.rows.list.node _ (List.mem_map_of_mem hr)

theorem Inv.fresh_notMem (hi : Inv σ R) : .node σ.fresh ∉ R.map Row.node :=
  fun hm => lt_irrefl _ (hi.fresh _ hm)

theorem Inv.length_le (hi : Inv σ R) : R.length ≤ σ.fresh := by
  simpa using length_le_of_node hi.rows.list.nodup hi.rows.list.node hi.fresh

/-- `find` on an absent key. -/
theorem Inv.find_miss (hi : Inv σ R) (lock : Bool) (hk : k ∉ R.map Row.key) :
    σ.findWith lock k = .ok (none, σ) := by
  simp [findWith, hi.map.lookup_none.mpr hk]

/-- `find` on a present key returns its value and, with the lock, moves its row to the front. -/
theorem Inv.find_hit (hi : Inv σ (A ++ r :: B)) (lock : Bool) :
    ∃ σ', σ.findWith lock r.key = .ok (some r.value, σ') ∧ σ'.m_maxSize = σ.m_maxSize ∧
      Inv σ' (if lock then r :: (A ++ B) else A ++ r :: B) := by
  have hr : r ∈ A ++ r :: B := by simp
  cases lock with
  | false => exact ⟨σ, by simp [findWith, hi.map.lookup hr], rfl, hi⟩
  | true =>
    have hin := hi.rows.list.isInList (by simp) (List.mem_map_of_mem hr)
    obtain ⟨h₁, hdel, hrows, hval⟩ := hi.rows.delink
    obtain ⟨h₂, hpush, hrows'⟩ := hrows.pushFront ((hval _).trans (hi.rows.key r hr)) (hi.node hr)
      hi.rows.node_notMem hi.rows.key_notMem r.value
    refine ⟨{ σ with heap := h₂ }, ?_, rfl, hrows', hi.map.perm List.perm_middle, ?_, ?_⟩
    · simp [findWith, hi.map.lookup hr, hin, hdel, hpush]
    · intro i hm
      exact hi.fresh i ((List.perm_middle.map Row.node).mem_iff.mpr hm)
    · show σ.m_size = _
      rw [hi.size]; exact List.perm_middle.length_eq

/-- `evict` with the rows of the list in order, whatever else the map holds. -/
theorem evict_eq (hr : Rows σ.heap (R ++ [r])) (hm : (σ.m_map.lookup r.key).isSome)
    (hk : r.key ≠ k) :
    ∃ h', σ.evict k = .ok { σ with heap := h', m_map := σ.m_map.erase r.key } ∧ Rows h' R ∧
      (∀ x, x ≠ r.node → h'.val x = σ.heap.val x) := by
  obtain ⟨e, he⟩ := Option.isSome_iff_exists.mp hm
  have hprev : σ.heap.prev .m_tail = some r.node := by simpa using hr.list.seg.prev_last
  have hnode : r.node.IsNode := hr.list.node _ (by simp)
  have hne : r.node ≠ .m_head := hnode.ne_of_not id
  have hnR := hr.node_notMem
  obtain ⟨h₁, hdel, hrows, hval⟩ := hr.delink
  rw [List.append_nil] at hrows hnR
  refine ⟨h₁.free r.node, ?_, hrows.put hnode hnR none, ?_⟩
  · have hkey := keyOf_eq ((hval r.node).trans (hr.key r (by simp)))
    simp [evict, Heap.getPrev_eq hprev, hne, hdel, hkey, he, hk]
  · intro x hx
    rw [Heap.val_free, if_neg hx, hval]

/-- `insert` of a present key changes nothing. -/
theorem Inv.insert_present (hi : Inv σ R) (hk : k ∈ R.map Row.key) (v : V) :
    ∃ σ', σ.insert k v = .ok (false, σ') ∧ σ'.m_maxSize = σ.m_maxSize ∧ Inv σ' R := by
  obtain ⟨r, hr, rfl⟩ := List.mem_map.mp hk
  have hlk : (σ.newNode r.key).m_map.lookup r.key = some ⟨r.value, r.node⟩ := hi.map.lookup hr
  refine ⟨{ σ.newNode r.key with heap := (σ.newNode r.key).heap.free (.node σ.fresh) },
    by simp [insert, hlk], rfl, ?_⟩
  have hnode : (Ptr.node σ.fresh).IsNode := trivial
  exact ⟨(hi.rows.put hnode hi.fresh_notMem _).put hnode hi.fresh_notMem none, hi.map,
    fun i hm => Nat.lt_succ_of_lt (hi.fresh i hm), hi.size⟩

/-- The second half of `insert`, from a state where the new key is in the map and its node is not
    linked yet: the last row goes if the cache is full, then the new row is linked and counted. -/
theorem link_spec (hr : Rows σ.heap R) (hm : MapRows σ.m_map (⟨n, k, v⟩ :: R))
    (hn : σ.heap.val n = some (some k)) (hnode : n.IsNode) (hnR : n ∉ R.map Row.node)
    (hk : k ∉ R.map Row.key) (hfr : ∀ i, .node i ∈ n :: R.map Row.node → i < σ.fresh)
    (hs : σ.m_size = R.length) (hcap : R.length ≤ σ.m_maxSize) (hpos : 1 ≤ σ.m_maxSize) :
    ∃ σ', σ.link k n = .ok σ' ∧ σ'.m_maxSize = σ.m_maxSize ∧
      Inv σ' (⟨n, k, v⟩ :: if R.length < σ.m_maxSize then R else R.dropLast) := by
  by_cases hlt : R.length < σ.m_maxSize
  · -- room left: link, then count
    rw [if_pos hlt]
    have h1 : ¬ σ.m_maxSize ≤ σ.m_size := by omega
    obtain ⟨h₁, hpush, hrows⟩ := hr.pushFront hn hnode hnR hk v
    refine ⟨{ σ with heap := h₁, m_size := σ.m_size + 1 }, ?_, rfl, hrows, hm, by simpa using hfr,
      by simp [hs]⟩
    simp [link, settle, h1, hpush]
  · -- full: the last row goes first
    rw [if_neg hlt]
    obtain ⟨R', r, rfl⟩ : ∃ R' r, R = R' ++ [r] := by
      rcases R.eq_nil_or_concat with rfl | ⟨R', r, rfl⟩
      · simp at hlt; omega
      · exact ⟨R', r, List.concat_eq_append⟩
    rw [List.dropLast_concat]
    have h1 : σ.m_maxSize ≤ σ.m_size := by omega
    have h2 : ¬ σ.m_maxSize < σ.m_size := by omega
    have hrk : r.key ≠ k := fun e => hk (by simp [e])
    obtain ⟨h', hev, hrows', hval'⟩ := evict_eq hr (by rw [hm.lookup (r := r) (by simp)]; rfl) hrk
    have hn' : h'.val n = some (some k) := by
      rw [hval' _ (fun hc => hnR (by simp [hc]))]; exact hn
    rw [List.map_append] at hnR hk hfr
    obtain ⟨h₂, hpush, hrows⟩ := hrows'.pushFront hn' hnode
      (fun hc => hnR (List.mem_append_left _ hc))
      (fun hc => hk (List.mem_append_left _ hc)) v
    refine ⟨{ σ with heap := h₂, m_map := σ.m_map.erase r.key }, ?_, rfl, hrows, ?_,
      ?_, by simp [hs]⟩
    · simp [link, settle, h1, h2, hev, hpush]
    · have hd : ((⟨n, k, v⟩ :: R' ++ [r]).map Row.key).Nodup := by
        simpa using ⟨by simpa using hk, by simpa using hr.nodup⟩
      simpa using MapRows.erase (A := ⟨n, k, v⟩ :: R') (B := []) hm hd
    · intro i hi
      refine hfr i ?_
      rcases List.mem_cons.mp hi with hi | hi
      · exact List.mem_cons.mpr (Or.inl hi)
      · exact List.mem_cons_of_mem _ (List.mem_append_left _ hi)

/-- `insert` of an absent key drops the last row if the cache is full and adds the new row. -/
theorem Inv.insert_absent (hi : Inv σ R) (hcap : R.length ≤ σ.m_maxSize) (hpos : 1 ≤ σ.m_maxSize)
    (hk : k ∉ R.map Row.key) (v : V) :
    ∃ σ', σ.insert k v = .ok (true, σ') ∧ σ'.m_maxSize = σ.m_maxSize ∧
      Inv σ' (⟨.node σ.fresh, k, v⟩ :: if R.length < σ.m_maxSize then R else R.dropLast) := by
  have hlk : (σ.newNode k).m_map.lookup k = none := hi.map.lookup_none.mpr hk
  have hnode : (Ptr.node σ.fresh).IsNode := trivial
  have hfr : ∀ i, Ptr.node i ∈ Ptr.node σ.fresh :: R.map Row.node → i < σ.fresh + 1 := by
    intro i hm
    rcases List.mem_cons.mp hm with hm | hm
    · cases hm; exact Nat.lt_succ_self _
    · exact Nat.lt_succ_of_lt (hi.fresh i hm)
  obtain ⟨σ', h1, h2, h3⟩ := link_spec (v := v)
    (σ := { σ.newNode k with m_map := (σ.newNode k).m_map.insert k ⟨v, .node σ.fresh⟩ })
    (hi.rows.put hnode hi.fresh_notMem _) (hi.map.insert hk v _) (by simp [newNode]) hnode
    hi.fresh_notMem hk hfr hi.size hcap hpos
  refine ⟨σ', ?_, h2, h3⟩
  simp only [insert, hlk, h1, ok_bind, pure_eq_ok]

/-- `delete_key` of an absent key. -/
theorem Inv.delete_absent (hi : Inv σ R) (hk : k ∉ R.map Row.key) : σ.delete_key k = .ok σ := by
  simp [delete_key, hi.map.lookup_none.mpr hk]

/-- `delete_key` of a present key removes its row. -/
theorem Inv.delete_present (hi : Inv σ (A ++ r :: B)) :
    ∃ σ', σ.delete_key r.key = .ok σ' ∧ σ'.m_maxSize = σ.m_maxSize ∧ Inv σ' (A ++ B) := by
  have hr : r ∈ A ++ r :: B := by simp
  have hin := hi.rows.list.isInList (by simp) (List.mem_map_of_mem hr)
  obtain ⟨h₁, hdel, hrows, -⟩ := hi.rows.delink
  refine ⟨{ σ with
    heap := h₁.free r.node, m_map := σ.m_map.erase r.key, m_size := sizeDec σ.m_size },
    ?_, rfl, hrows.put (hi.node hr) hi.rows.node_notMem none, hi.map.erase hi.rows.nodup, ?_, ?_⟩
  · simp [delete_key, hi.map.lookup hr, hin, hdel]
  · intro i hm
    exact hi.fresh i ((List.perm_middle.map Row.node).mem_iff.mpr (List.mem_cons_of_mem _ hm))
  · have : σ.m_size = (A ++ B).length + 1 := by rw [hi.size, List.perm_middle.length_eq]; rfl
    show sizeDec σ.m_size = _
    rw [this, sizeDec_succ]

/-- `snapshotKeys` returns the keys in list order. -/
theorem Inv.snapshot (hi : Inv σ R) : σ.snapshotKeys = .ok (R.map Row.key) := by
  rw [snapshotKeys, Heap.getNext_eq hi.rows.list.seg.next_first, ok_bind]
  exact walk_eq hi.rows.list.seg hi.rows.key (fun r hr => hi.node hr)
    (Nat.lt_succ_of_le hi.length_le)

end FrozenHot.PlainCache
