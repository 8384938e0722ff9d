import FrozenHot.Cache.Threads

/-! The map, the list and the nodes off the list of `LRUCache` while calls are in flight.

    The entries of the map are the nodes on the list and the nodes that calls in flight have off it:
    new ones not linked yet, victims and deleted ones not erased yet. `Store` says so, and each
    access of the calls to the heap and the map has one lemma. -/

namespace FrozenHot.Threads
open Schemes

variable {K V : Type} [DecidableEq K] {σ : PlainCache K V} {R A B O O' : List Ptr}
    {n m : Ptr} {k : K}

/-! ### The map and the nodes -/

/-- The entries of the map are the nodes `R` of the list and the nodes `O` off it. -/
structure Store (σ : PlainCache K V) (R O : List Ptr) : Prop where
  list : IsList σ.heap .m_head R .m_tail
  nodup : (R ++ O).Nodup
  entry : ∀ n ∈ R ++ O, ∃ k v, σ.heap.val n = some (some k) ∧ σ.m_map.lookup k = some ⟨v, n⟩
  mem : ∀ k e, σ.m_map.lookup k = some e → e.m_listNode ∈ R ++ O ∧
    σ.heap.val e.m_listNode = some (some k)
  off : ∀ n ∈ O, n.IsNode ∧ σ.heap.prev n = some .OutOfListMarker
  fresh : ∀ i, σ.heap.Live (.node i) → i < σ.fresh

theorem store_init (maxSize : ℕ) : Store (PlainCache.init maxSize : PlainCache K V) [] [] := by
  have hinit : PlainCache.Inv (PlainCache.init maxSize : PlainCache K V) [] := PlainCache.inv_init
  refine ⟨hinit.rows.list, by simp, by simp,
    by simp [PlainCache.init], by simp, fun i hi => ?_⟩
  simp [PlainCache.init, Heap.Live, Heap.put, Heap.empty] at hi

theorem Store.perm (hs : Store σ R O) (hp : O.Perm O') : Store σ R O' := by
  have hp' : (R ++ O).Perm (R ++ O') := hp.append_left R
  exact ⟨hs.list, hp'.nodup_iff.mp hs.nodup, fun n hn => hs.entry n (hp'.mem_iff.mpr hn),
    fun k e he => ⟨hp'.mem_iff.mp (hs.mem k e he).1, (hs.mem k e he).2⟩,
    fun n hn => hs.off n (hp.mem_iff.mpr hn), hs.fresh⟩

theorem Store.withSize (hs : Store σ R O) (s : ℕ) : Store { σ with m_size := s } R O :=
  ⟨hs.list, hs.nodup, hs.entry, hs.mem, hs.off, hs.fresh⟩

theorem Store.isNode (hs : Store σ R O) (hn : n ∈ R ++ O) : n.IsNode :=
  (List.mem_append.mp hn).elim (hs.list.node n) fun h => (hs.off n h).1

theorem Store.fresh_notMem (hs : Store σ R O) : .node σ.fresh ∉ R ++ O := fun hn => by
  obtain ⟨k, v, hv, -⟩ := hs.entry _ hn
  exact lt_irrefl _ (hs.fresh _ (Heap.live_of_val hv))

/-- Nodes with the same key are the same. -/
theorem Store.node_eq (hs : Store σ R O) (hn : n ∈ R ++ O) (hm : m ∈ R ++ O)
    (hk : σ.heap.val n = σ.heap.val m) : n = m := by
  obtain ⟨k, v, h1, h2⟩ := hs.entry n hn
  obtain ⟨k', v', h1', h2'⟩ := hs.entry m hm
  obtain rfl : k = k' := by simpa using h1.symm.trans (hk.trans h1')
  have := h2.symm.trans h2'
  simp only [Option.some.injEq, HashMapValue.mk.injEq] at this
  exact this.2

/-- Surgery on the list that moves nodes between `R` and `O`. -/
theorem Store.moved {h' : Heap Ptr (Option K)} {R' : List Ptr} (hs : Store σ R O)
    (hl : IsList h' .m_head R' .m_tail) (hp : (R ++ O).Perm (R' ++ O'))
    (hv : ∀ x, h'.val x = σ.heap.val x) (hoff : ∀ n ∈ O', h'.prev n = some .OutOfListMarker) :
    Store { σ with heap := h' } R' O' := by
  refine ⟨hl, hp.nodup_iff.mp hs.nodup, fun n hn => ?_, fun k e he => ?_, fun n hn => ?_,
    fun i hi => ?_⟩
  · obtain ⟨k, v, h1, h2⟩ := hs.entry n (hp.mem_iff.mpr hn)
    exact ⟨k, v, (hv n).trans h1, h2⟩
  · exact ⟨hp.mem_iff.mp (hs.mem k e he).1, (hv _).trans (hs.mem k e he).2⟩
  · exact ⟨hs.isNode (hp.mem_iff.mpr (List.mem_append_right _ hn)), hoff n hn⟩
  · rw [Heap.live_iff_val, hv, ← Heap.live_iff_val] at hi
    exact hs.fresh i hi

/-- A change at the list leaves the links of a node off it alone. -/
theorem Store.prev_frame {h' : Heap Ptr (Option K)} (hs : Store σ R O)
    (hf : Heap.Frame A B σ.heap h') (hB : ∀ x ∈ B, x ∈ R ∨ ¬ x.IsNode) (hn : n ∈ O) :
    h'.prev n = some .OutOfListMarker := by
  have hnB : n ∉ B := fun hc => by
    rcases hB n hc with hR | hN
    · exact (List.nodup_append'.mp hs.nodup).2.2 hR hn
    · exact hN (hs.off n hn).1
  rw [hf.prev n hnB]
  exact (hs.off n hn).2

/-- A node that is neither on the list nor off it may be made and deleted. -/
theorem Store.put (hs : Store σ R O) (hn : n.IsNode) (hnot : n ∉ R ++ O)
    (hfr : ∀ i, n = .node i → i < σ.fresh) (c : Option (Cell Ptr (Option K))) :
    Store { σ with heap := σ.heap.put n c } R O := by
  have hval : ∀ x ∈ R ++ O, (σ.heap.put n c).val x = σ.heap.val x := fun x hx => by
    rw [Heap.val_put, if_neg]; rintro rfl; exact hnot hx
  refine ⟨hs.list.put hn (fun h => hnot (List.mem_append_left _ h)) c, hs.nodup, fun x hx => ?_,
    fun k e he => ?_, fun x hx => ⟨(hs.off x hx).1, ?_⟩, fun i hi => ?_⟩
  · obtain ⟨k, v, h1, h2⟩ := hs.entry x hx
    exact ⟨k, v, (hval x hx).trans h1, h2⟩
  · obtain ⟨h1, h2⟩ := hs.mem k e he
    exact ⟨h1, (hval _ h1).trans h2⟩
  · rw [Heap.prev_put, if_neg]
    · exact (hs.off x hx).2
    · rintro rfl; exact hnot (List.mem_append_right _ hx)
  · by_cases hin : Ptr.node i = n
    · exact hfr i hin.symm
    · rw [Heap.live_put, if_neg hin] at hi
      exact hs.fresh i hi

theorem Store.bump (hs : Store σ R O) : Store { σ with fresh := σ.fresh + 1 } R O :=
  ⟨hs.list, hs.nodup, hs.entry, hs.mem, hs.off, fun i hi => Nat.lt_succ_of_lt (hs.fresh i hi)⟩

theorem Store.newNode (hs : Store σ R O) (k : K) : Store (σ.newNode k) R O :=
  hs.bump.put (n := .node σ.fresh) trivial hs.fresh_notMem
    (fun i hi => by cases hi; exact Nat.lt_succ_self _) _

/-- A new key gets into the map, its node being off the list. -/
theorem Store.add (hs : Store σ R O) (hn : n.IsNode) (hnot : n ∉ R ++ O)
    (hval : σ.heap.val n = some (some k)) (hprev : σ.heap.prev n = some .OutOfListMarker)
    (hk : σ.m_map.lookup k = none) (v : V) :
    Store { σ with m_map := σ.m_map.insert k ⟨v, n⟩ } R (n :: O) := by
  refine ⟨hs.list, List.nodup_middle.mpr (List.nodup_cons.mpr ⟨hnot, hs.nodup⟩), fun x hx => ?_,
    fun k' e he => ?_, fun x hx => ?_, hs.fresh⟩
  · rcases List.mem_cons.mp (List.perm_middle.mem_iff.mp hx) with rfl | hx
    · exact ⟨k, v, hval, Finmap.lookup_insert _⟩
    · obtain ⟨k', v', h1, h2⟩ := hs.entry x hx
      have hne : k' ≠ k := by rintro rfl; rw [hk] at h2; cases h2
      exact ⟨k', v', h1, (Finmap.lookup_insert_of_ne _ hne).trans h2⟩
  · by_cases hkk : k' = k
    · subst hkk
      simp only [Finmap.lookup_insert, Option.some.injEq] at he
      subst he
      exact ⟨by simp, hval⟩
    · simp only [Finmap.lookup_insert_of_ne _ hkk] at he
      obtain ⟨h1, h2⟩ := hs.mem k' e he
      exact ⟨List.perm_middle.mem_iff.mpr (List.mem_cons_of_mem _ h1), h2⟩
  · rcases List.mem_cons.mp hx with rfl | hx
    · exact ⟨hn, hprev⟩
    · exact hs.off x hx

/-- The first step of `insert`. -/
theorem Store.insert_new (hs : Store σ R O) (hk : σ.m_map.lookup k = none) (v : V) :
    Store { σ.newNode k with m_map := (σ.newNode k).m_map.insert k ⟨v, .node σ.fresh⟩ } R
    (.node σ.fresh :: O) :=
  (hs.newNode k).add (n := .node σ.fresh) trivial hs.fresh_notMem (by simp [PlainCache.newNode])
    (by simp [PlainCache.newNode]) hk v

theorem Store.insert_present (hs : Store σ R O) (k : K) :
    Store { σ.newNode k with heap := (σ.newNode k).heap.free (.node σ.fresh) } R O :=
  (hs.newNode k).put (n := .node σ.fresh) trivial hs.fresh_notMem
    (fun i hi => by cases hi; exact Nat.lt_succ_self _) none

/-- A node is taken off the list. -/
theorem Store.delink (hs : Store σ (A ++ n :: B) O) : ∃ h', delink σ.heap n = .ok h' ∧
    (∀ x, h'.val x = σ.heap.val x) ∧ Store { σ with heap := h' } (A ++ B) (n :: O) := by
  have hp : (A ++ n :: B ++ O).Perm (A ++ B ++ n :: O) := by
    rw [List.append_assoc, List.cons_append]
    exact List.perm_middle.trans (by rw [← List.append_assoc]; exact List.perm_middle.symm)
  obtain ⟨h', hd, hl, hf, hout⟩ := hs.list.delink
  refine ⟨h', hd, hf.val, hs.moved hl hp hf.val fun x hx => ?_⟩
  rcases List.mem_cons.mp hx with rfl | hx
  · exact hout
  · refine hs.prev_frame hf (fun y hy => ?_) hx
    rcases List.mem_append.mp hy with hy | hy
    · exact Or.inl hy
    · rw [List.mem_singleton.mp hy]; exact Or.inr id

/-- The last node of the list. -/
theorem Store.last (hs : Store σ (R ++ [m]) O) : σ.heap.prev .m_tail = some m ∧ m ≠ .m_head :=
  ⟨by simpa using hs.list.seg.prev_last, (hs.list.node m (by simp)).ne_of_not id⟩

/-- The locked section of `evict`. -/
theorem Store.delinkTail (hs : Store σ (R ++ [m]) O) :
    ∃ h', delinkTail σ.heap = .ok (some (m, h')) ∧
    (∀ x, h'.val x = σ.heap.val x) ∧ Store { σ with heap := h' } R (m :: O) := by
  obtain ⟨h', hd, hv, hs'⟩ := hs.delink
  rw [List.append_nil] at hs'
  exact ⟨h', by simp [Threads.delinkTail, Heap.getPrev_eq hs.last.1, hs.last.2, hd], hv, hs'⟩

/-- The list is empty exactly if the tail sentinel points to the head sentinel. -/
theorem Store.prev_tail (hs : Store σ R O) : σ.heap.prev .m_tail = some .m_head ↔ R = [] := by
  rcases List.eq_nil_or_concat R with rfl | ⟨R', m, rfl⟩
  · simpa using hs.list.seg.prev_last
  · rw [List.concat_eq_append] at *
    simp [hs.last.1, hs.last.2]

theorem Store.delinkTail_nil (hs : Store σ [] O) : Threads.delinkTail σ.heap = .ok none := by
  simp [Threads.delinkTail, Heap.getPrev_eq (hs.prev_tail.mpr rfl)]

/-- The key of a node off the list is erased and the node deleted. -/
theorem Store.erase (hs : Store σ R (m :: O)) (hval : σ.heap.val m = some (some k)) :
    Store { σ with heap := σ.heap.free m, m_map := σ.m_map.erase k } R O := by
  obtain ⟨hnot, hnd⟩ := List.nodup_cons.mp (List.nodup_middle.mp hs.nodup)
  have hsub : ∀ x ∈ R ++ O, x ∈ R ++ m :: O := fun x hx =>
    List.perm_middle.mem_iff.mpr (List.mem_cons_of_mem _ hx)
  have hs' : Store { σ with m_map := σ.m_map.erase k } R O := by
    refine ⟨hs.list, hnd, fun x hx => ?_, fun k' e he => ?_, fun x hx => hs.off x (by simp [hx]),
      hs.fresh⟩
    · obtain ⟨k', v', h1, h2⟩ := hs.entry x (hsub x hx)
      have hne : k' ≠ k := by
        rintro rfl
        have := hs.node_eq (hsub x hx) (by simp) (h1.trans hval.symm)
        exact hnot (this ▸ hx)
      exact ⟨k', v', h1, (Finmap.lookup_erase_ne hne).trans h2⟩
    · by_cases hkk : k' = k
      · subst hkk; simp at he
      · simp only [Finmap.lookup_erase_ne hkk] at he
        obtain ⟨h1, h2⟩ := hs.mem k' e he
        refine ⟨?_, h2⟩
        rcases List.mem_cons.mp (List.perm_middle.mem_iff.mp h1) with h | h
        · rw [h, hval] at h2
          exact (hkk (by simpa using h2.symm)).elim
        · exact h
  exact hs'.put (hs.off m (by simp)).1 hnot (fun i hi => hs.fresh i (hi ▸ Heap.live_of_val hval))
    none

/-- The rest of `evict`: the key of the victim is found. -/
theorem Store.eraseKey (hs : Store σ R (m :: O)) :
    ∃ k, PlainCache.keyOf σ.heap m = .ok k ∧ σ.heap.val m = some (some k) ∧
      eraseKey σ m = .ok (true, { σ with heap := σ.heap.free m, m_map := σ.m_map.erase k }) ∧
      Store { σ with heap := σ.heap.free m, m_map := σ.m_map.erase k } R O := by
  obtain ⟨k, v, hval, hlk⟩ := hs.entry m (by simp)
  have hkey := PlainCache.keyOf_eq hval
  exact ⟨k, hkey, hval, by simp [Threads.eraseKey, hkey, hlk], hs.erase hval⟩

/-- The node of `insert` is linked. -/
theorem Store.push (hs : Store σ R (n :: O)) : ∃ h', pushFront σ.heap n = .ok h' ∧
    (∀ x, h'.val x = σ.heap.val x) ∧ Store { σ with heap := h' } (n :: R) O := by
  obtain ⟨hnot, -⟩ := List.nodup_cons.mp (List.nodup_middle.mp hs.nodup)
  obtain ⟨k, v, hval, -⟩ := hs.entry n (by simp)
  have hnO : n ∉ O := fun h => hnot (List.mem_append_right _ h)
  obtain ⟨h', hp, hl, hf⟩ := hs.list.pushFront (Heap.live_of_val hval) (hs.off n (by simp)).1
    (fun h => hnot (List.mem_append_left _ h))
  refine ⟨h', hp, hf.val, hs.moved hl List.perm_middle hf.val fun x hx => ?_⟩
  have hxn : x ∈ n :: O := List.mem_cons_of_mem _ hx
  rw [hf.prev x, (hs.off x hxn).2]
  simp only [List.cons_append, List.mem_cons, List.mem_append, List.not_mem_nil, or_false, not_or]
  refine ⟨fun h => hnO (h ▸ hx), fun h => ?_, fun h => ?_⟩
  · exact (List.nodup_append'.mp hs.nodup).2.2 h hxn
  · exact ((hs.off x hxn).1.ne_of_not (by rw [h] at *; exact id)) rfl

/-- A promotion moves the node to the front, if it is on the list. -/
theorem Store.promote (hs : Store σ (A ++ n :: B) O) : ∃ h', promote σ.heap n = .ok h' ∧
    (∀ x, h'.val x = σ.heap.val x) ∧ Store { σ with heap := h' } (n :: (A ++ B)) O := by
  have hin := hs.list.isInList (n := n) (by simp) (by simp)
  obtain ⟨h₁, hd, hv₁, hs₁⟩ := hs.delink
  obtain ⟨h₂, hpush, hv₂, hs₂⟩ := hs₁.push
  exact ⟨h₂, by simp [Threads.promote, hin, hd, hpush], fun x => (hv₂ x).trans (hv₁ x), hs₂⟩

theorem Store.promote_off (hs : Store σ R O) (hn : n ∈ O) :
    Threads.promote σ.heap n = .ok σ.heap := by
  simp [Threads.promote, isInList_unlinked (hs.off n hn).2]

omit [DecidableEq K] in
theorem exists_rows {P : Row K V → Prop} (h : ∀ n ∈ R, ∃ r, Row.node r = n ∧ P r) :
    ∃ rows : List (Row K V), rows.map Row.node = R ∧ ∀ r ∈ rows, P r := by
  induction R with
  | nil => exact ⟨[], rfl, by simp⟩
  | cons n R ih =>
    obtain ⟨r, rfl, hr⟩ := h n (by simp)
    obtain ⟨rows, rfl, hrows⟩ := ih fun n hn => h n (by simp [hn])
    exact ⟨r :: rows, rfl, by simpa using ⟨hr, hrows⟩⟩

/-- The nodes on the list with their keys and values. -/
theorem Store.rows (hs : Store σ R O) : ∃ rows : List (Row K V), rows.map Row.node = R ∧ ∀ r ∈ rows,
    σ.heap.val r.node = some (some r.key) ∧ σ.m_map.lookup r.key = some ⟨r.value, r.node⟩ := by
  refine exists_rows fun n hn => ?_
  obtain ⟨k, v, h1, h2⟩ := hs.entry n (List.mem_append_left _ hn)
  exact ⟨⟨n, k, v⟩, rfl, h1, h2⟩

/-- `snapshotKeys` with calls in flight: the keys of the nodes on the list. -/
theorem Store.snapshot (hs : Store σ R O) : ∃ ks, σ.snapshotKeys = .ok ks ∧
    ∀ k, k ∈ ks ↔ ∃ n ∈ R, σ.heap.val n = some (some k) := by
  have hlen : R.length ≤ σ.fresh := length_le_of_node hs.list.nodup hs.list.node fun i hi =>
    hs.fresh i (hs.list.live hi)
  obtain ⟨rows, rfl, hrows⟩ := hs.rows
  refine ⟨rows.map Row.key, ?_, fun k => ⟨fun hk => ?_, ?_⟩⟩
  · rw [PlainCache.snapshotKeys, Heap.getNext_eq hs.list.seg.next_first, ok_bind]
    exact PlainCache.walk_eq hs.list.seg (fun r hr => (hrows r hr).1)
      (fun r hr => hs.list.node _ (List.mem_map_of_mem hr)) (by simpa using Nat.lt_succ_of_le hlen)
  · obtain ⟨r, hr, rfl⟩ := List.mem_map.mp hk
    exact ⟨r.node, List.mem_map_of_mem hr, (hrows r hr).1⟩
  · rintro ⟨n, hn, hk⟩
    obtain ⟨r, hr, rfl⟩ := List.mem_map.mp hn
    rw [(hrows r hr).1] at hk
    cases hk
    exact List.mem_map_of_mem hr

/-- The nodes on the list and off it are entries of the map. -/
theorem Store.length_le_card (hs : Store σ R O) : (R ++ O).length ≤ σ.m_map.keys.card := by
  have hsub : ((R ++ O).toFinset.image fun n => (σ.heap.val n).join) ⊆ σ.m_map.keys.image some := by
    intro x hx
    obtain ⟨n, hn, rfl⟩ := Finset.mem_image.mp hx
    obtain ⟨k, v, h1, h2⟩ := hs.entry n (List.mem_toFinset.mp hn)
    rw [h1, Option.join_some]
    exact Finset.mem_image_of_mem some (Finmap.mem_keys.mpr (Finmap.mem_of_lookup_eq_some h2))
  have hinj : Set.InjOn (fun n => (σ.heap.val n).join) ((R ++ O).toFinset : Set Ptr) := by
    intro n hn m hm h
    have hn := List.mem_toFinset.mp (Finset.mem_coe.mp hn)
    have hm := List.mem_toFinset.mp (Finset.mem_coe.mp hm)
    obtain ⟨k, v, h1, -⟩ := hs.entry n hn
    obtain ⟨k', v', h1', -⟩ := hs.entry m hm
    simp only [h1, h1', Option.join_some, Option.some.injEq] at h
    exact hs.node_eq hn hm (by rw [h1, h1', h])
  have hcard := Finset.card_le_card hsub
  rw [Finset.card_image_of_injOn hinj, List.toFinset_card_of_nodup hs.nodup] at hcard
  exact hcard.trans Finset.card_image_le

/-- With no node off the list, the cache is as a call by call run leaves it. -/
theorem Store.inv (hs : Store σ R []) (hsize : σ.m_size = R.length) :
    ∃ rows, PlainCache.Inv σ rows := by
  obtain ⟨rows, rfl, hrows⟩ := hs.rows
  have hnd : (rows.map Row.key).Nodup := by
    refine List.Nodup.map_on (fun x hx y hy hxy => ?_) (List.Nodup.of_map _ hs.list.nodup)
    have h1 := (hrows x hx).2
    rw [hxy, (hrows y hy).2] at h1
    obtain ⟨nx, kx, vx⟩ := x
    obtain ⟨ny, ky, vy⟩ := y
    simp_all
  refine ⟨rows, ⟨hs.list, fun r hr => (hrows r hr).1, hnd⟩, fun k e => ⟨fun he => ?_, fun he => ?_⟩,
    fun i hi => ?_, by simpa using hsize⟩
  · obtain ⟨h1, h2⟩ := hs.mem k e he
    obtain ⟨r, hr, hre⟩ := List.mem_map.mp (List.append_nil _ ▸ h1)
    obtain ⟨h3, h4⟩ := hrows r hr
    obtain rfl : r.key = k := by rw [hre, h2] at h3; simpa using h3.symm
    rw [he] at h4
    obtain rfl := Option.some.inj h4
    exact hr
  · exact (hrows _ he).2
  · obtain ⟨r, hr, hri⟩ := List.mem_map.mp hi
    exact hs.fresh i (Heap.live_of_val (hri ▸ (hrows r hr).1))

end FrozenHot.Threads
