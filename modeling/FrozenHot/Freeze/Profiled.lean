import FrozenHot.Freeze.Marked

/-! Requests while `get_curve` of `LRU_FHCache` takes a curve.

    A node hit for the first time moves to the front and is counted, a new node goes right behind
    the marker, and evictions take the last node as always. The stamps tell whether a node was hit:
    at a hit it is stamped later than the marker, at its insertion like the marker. -/

namespace FrozenHot
open Schemes ListShard

variable {α : Type}

namespace Shard
variable {σ σ' : Shard α} {τ : ListShard α} {h h' : Heap Ptr NodeData}
    {A B P Q : List Item} {x : Item}
variable {n m : Ptr} {k t : ℕ} {v : α}

/-- `get_curve` up to its passes: the marker is linked in, and the curve begins. -/
def beginCurve (σ : Shard α) : Except Fault (Shard α) := do
  assert (σ.tier_no_insert = false)
  let σ' := σ.newNode MARKER_KEY
  let h ← pushFront σ'.heap (.node σ.fresh)
  return { σ' with heap := h, m_marker := .node σ.fresh, curve_flag := true }

/-- `get_curve` after its passes: the marker is taken out. -/
def endCurve (σ : Shard α) : Except Fault (Shard α) := do
  let h ← delinkChecked σ.heap σ.m_marker
  return { σ with
    heap := h.free σ.m_marker, m_marker := .null, curve_flag := false, movement_counter := 0 }

/-! ### Pieces of `insert` while the curve is taken -/

theorem insertMap_unflag (σ : Shard α) (k : ℕ) (v : Option α) (n : Ptr) :
    insertMap (newNode σ.unflag k) k v n = ((insertMap (newNode σ k) k v n).1,
      (insertMap (newNode σ k) k v n).2.unflag) := by
  unfold insertMap newNode unflag
  dsimp only
  split
  · rfl
  · split <;> rfl

theorem insertEvict_unflag (σ : Shard α) (k : ℕ) :
    σ.unflag.insertEvict k = (σ.insertEvict k).map fun r => (r.1, r.2.unflag) := by
  unfold Shard.insertEvict
  rw [evict_unflag, show σ.unflag.m_maxSize = σ.m_maxSize from rfl,
    show σ.unflag.m_size = σ.m_size from rfl]
  split
  · cases σ.evict (some k) <;> rfl
  · rfl

/-- The locked section links the node behind the marker. -/
theorem Rep.insertLink_curve (hr : Rep none σ.unflag τ) (hcurve : σ.curve_flag = true)
    (hno : τ.tier_no_insert = false) (hm : τ.main = A ++ ⟨τ.m_marker, MARKER_KEY⟩ :: B)
    (hk : keyAt σ.heap n = some k) (hn : n.IsNode) (hoff : n ∉ τ.items.map Item.node)
    (ht : timeAt σ.heap τ.m_marker = some t) :
    ∃ h₁ h', σ.heap.setVal n ⟨k, t⟩ = .ok h₁ ∧ FrozenHot.pushAfter h₁ τ.m_marker n = .ok h' ∧
      σ.insertLink k n = .ok (true, { σ with heap := h' }) ∧
      Rep none { σ with heap := h' }.unflag { τ with
        main := A ++ ⟨τ.m_marker, MARKER_KEY⟩ :: ⟨n, k⟩ :: B } := by
  have hno' : σ.tier_no_insert = false := (hr.field Core.tier_no_insert fun _ _ => rfl).trans hno
  have hmark := hr.field Core.m_marker fun _ _ => rfl
  have hr₁ := Rep.restamp (n := n) hr hk t
  have hk₁ : keyAt (σ.heap.withVal n ⟨k, t⟩) n = some k := by
    rw [keyAt, Heap.val_withVal (live_of_key hk), if_pos rfl]
    rfl
  obtain ⟨h', hpush, hr₂⟩ := hr₁.pushAfter hm hk₁ hn hoff
  change FrozenHot.pushAfter (σ.heap.withVal n ⟨k, t⟩) τ.m_marker n = .ok h' at hpush
  have hset : σ.heap.setVal n ⟨k, t⟩ = .ok (σ.heap.withVal n ⟨k, t⟩) :=
    Heap.setVal_eq (live_of_key hk)
  obtain ⟨d, hd, htd⟩ := Option.map_eq_some_iff.mp ht
  refine ⟨_, h', hset, hpush, ?_, hr₂⟩
  rw [Shard.insertLink, hno', hcurve]
  simp only [Bool.false_eq_true, if_false, if_true, hmark, Heap.getVal_eq hd, keyOf_eq hk, ok_bind,
    htd, hset, hpush, pure_eq_ok]

/-! ### The invariant of a curve -/

/-- No curve is being taken. -/
structure Idle (σ : Shard α) : Prop where
  wired : ∃ τ, Rep none σ τ ∧ Wired τ
  ends : Ends (Before σ.clock) σ.heap
  still : σ.movement_counter = 0

/-- A curve is being taken: the nodes `A` in front of the marker are stamped later than the marker,
    the nodes `B` behind it are not. -/
structure Profiled (σ : Shard α) (τ : ListShard α) (A B : List Item) : Prop where
  rep : Rep none σ.unflag τ
  curved : Curved none τ A B
  size : τ.m_size = (A ++ alive B).length
  curve : σ.curve_flag = true
  ends : Ends (Before σ.clock) σ.heap
  stamps : ∃ t, timeAt σ.heap τ.m_marker = some t ∧
    (∀ x ∈ A, ∀ u, timeAt σ.heap x.node = some u → t < u) ∧
    ∀ x ∈ B, ∀ u, timeAt σ.heap x.node = some u → u ≤ t

theorem time_of_key (hk : keyAt h n = some k) : ∃ u, timeAt h n = some u := by
  obtain ⟨d, hd, -⟩ := Option.map_eq_some_iff.mp hk
  exact ⟨d.m_time, by rw [timeAt, hd]; rfl⟩

/-- The node `n` is stamped `t`, the others keep their stamps: all stamps stay in the past. -/
theorem Ends.tick {c : ℕ} (he : Ends (Before c) h) (ht : t ≤ c)
    (hends : Ends (fun q u => if q = n then u = t else timeAt h q = some u) h') :
    Ends (Before (c + 1)) h' := by
  refine hends.mono fun q u hu hq => ?_
  show u < c + 1
  split at hu
  · omega
  · exact Nat.lt_succ_of_lt (he.stamp q u hu hq)

/-- And they tell `A` from `B` as before, if `n` is put on the right side of the marker `m`. -/
theorem stamps_step {c : ℕ} {A' B' : List Item}
    (hs : timeAt h m = some t ∧ (∀ y ∈ A, ∀ u, timeAt h y.node = some u → t < u) ∧ ∀ y ∈ B, ∀ u,
      timeAt h y.node = some u → u ≤ t)
    (hends : Ends (fun q u => if q = n then u = c else timeAt h q = some u) h') (hm : m ≠ n)
    (hk : keyAt h' m = some k) (hA : ∀ y ∈ A', y.node = n ∧ t < c ∨ y.node ≠ n ∧ y ∈ A)
    (hB : ∀ y ∈ B', y.node = n ∧ c ≤ t ∨ y.node ≠ n ∧ y ∈ B) :
    timeAt h' m = some t ∧ (∀ y ∈ A', ∀ u, timeAt h' y.node = some u → t < u) ∧
      ∀ y ∈ B', ∀ u, timeAt h' y.node = some u → u ≤ t := by
  obtain ⟨hmark, hfront, hback⟩ := hs
  have hold : ∀ {q u}, q ≠ n → timeAt h' q = some u → timeAt h q = some u := by
    intro q u hq hu
    have := hends.stamp q u hu
    rwa [if_neg hq] at this
  have hnew : ∀ {u}, timeAt h' n = some u → u = c := by
    intro u hu
    have := hends.stamp n u hu
    rwa [if_pos rfl] at this
  refine ⟨?_, fun y hy u hu => ?_, fun y hy u hu => ?_⟩
  · obtain ⟨w, hw⟩ := time_of_key hk
    obtain rfl := Option.some.inj ((hold hm hw).symm.trans hmark)
    exact hw
  · rcases hA y hy with ⟨rfl, hlt⟩ | ⟨hne, hy⟩
    · exact hnew hu ▸ hlt
    · exact hfront y hy u (hold hne hu)
  · rcases hB y hy with ⟨rfl, hle⟩ | ⟨hne, hy⟩
    · exact hnew hu ▸ hle
    · exact hback y hy u (hold hne hu)

/-- The curve begins with all nodes behind the marker. -/
theorem Idle.begin (hi : Idle σ) (hthawed : σ.tier_ready = false ∧ σ.fast_hash_ready = false) :
    ∃ σ' τ' L, σ.beginCurve = .ok σ' ∧ Profiled σ' τ' [] L ∧ σ'.m_maxSize = σ.m_maxSize := by
  obtain ⟨τ, hr, hw⟩ := hi.wired
  have hcore := hr.core
  obtain ⟨hF, hflat, hsize⟩ := flat_of_wired hw (by rw [← hcore]; exact hthawed)
  obtain ⟨hr₁, hkey⟩ := hr.newNode MARKER_KEY
  have hfresh : σ.fresh = τ.fresh := congrArg Core.fresh hcore
  have hoff : Ptr.node σ.fresh ∉ (τ.frozen ++ τ.main).map Item.node :=
    hfresh ▸ hr.holds.fresh_notMem
  have hnode : (Ptr.node σ.fresh).IsNode := trivial
  obtain ⟨h', hpush, hh'⟩ := hr₁.holds.pushFront hkey hnode hoff
  have hno : σ.tier_no_insert = false := by rw [hcore]; exact hflat.flags.2.2.1
  -- the marker is stamped now, all other nodes earlier
  have hends : Ends (fun q u => if q = .node σ.fresh then u = σ.clock else timeAt σ.heap q = some u)
      h' := by
    refine (hi.ends.own.newNode (fun q u hq hu => ?_) ?_ MARKER_KEY).pushFront hnode hpush
    · rw [if_neg hq]; exact hu
    · rw [if_pos rfl]
  refine ⟨{ σ.newNode MARKER_KEY with heap := h', m_marker := .node σ.fresh, curve_flag := true },
    { τ with fresh := τ.fresh + 1, clock := τ.clock + 1, m_marker := .node σ.fresh,
             main := ⟨.node σ.fresh, MARKER_KEY⟩ :: τ.main }, τ.main, ?_,
               ⟨?_, ⟨hF, rfl, ?_, ?_⟩, hsize, rfl, ?_, ?_⟩, rfl⟩
  · rw [beginCurve, assert_of hno, ok_bind]
    simp only [hpush, ok_bind, pure_eq_ok]
  · refine ⟨?_, hh'.congr rfl rfl, hr.no_curve⟩
    show ({ (σ.newNode MARKER_KEY).toCore with m_marker := .node σ.fresh, curve_flag := false } :
      Core α) = _
    have hcur : τ.curve_flag = false := hr.no_curve
    simp only [Shard.newNode, hcore, ← hcur]
  · exact ⟨hflat.listed, hflat.linked, hflat.flags, hflat.fasthash⟩
  · show τ.movement_counter = 0
    rw [← hi.still, hcore]
  · exact hi.ends.tick le_rfl hends
  · refine ⟨σ.clock, ?_, by simp, fun x hx u hu => ?_⟩
    · obtain ⟨u, hu⟩ := time_of_key (hh'.lists.key ⟨.node σ.fresh, MARKER_KEY⟩ (by simp))
      have := hends.stamp _ u hu
      rw [if_pos rfl] at this
      exact this ▸ hu
    · have hne : x.node ≠ .node σ.fresh := by
        rintro h
        exact hoff (h ▸ List.mem_map_of_mem (List.mem_append_right _ hx))
      have := hends.stamp _ u hu
      rw [if_neg hne] at this
      exact (hi.ends.stamp _ u this (hr.holds.lists.node (List.mem_append_right _ hx))).le

/-! ### A hit -/

/-- Promotion within the main list of a thawed shard. -/
theorem promote_middle (hF : τ.frozen = []) (hm : τ.main = P ++ x :: Q)
    (hnd : (τ.main.map Item.node).Nodup) :
    τ.promote x.node = { τ with main := x :: (P ++ Q) } := by
  have hoff : x.node ∉ (P ++ Q).map Item.node := by
    rw [hm, List.map_append, List.map_cons] at hnd
    rw [List.map_append]
    exact (List.nodup_middle.mp hnd).notMem
  have hfind : τ.items.find? (·.node = x.node) = some x := by
    obtain ⟨y, hy, hf, hyx⟩ := find?_node (n := x.node) (l := τ.items) (by rw [items, hF, hm]; simp)
    rw [items, hF, List.nil_append] at hy
    rw [hf, List.inj_on_of_nodup_map hnd hy (by rw [hm]; simp) hyx]
  have hd : ListShard.detach x.node τ.main = P ++ Q := by
    rw [hm]; exact ListShard.detach_middle hoff
  rw [ListShard.promote, hfind]
  simp only [hF, hd]
  rfl

theorem Profiled.marker (hp : Profiled σ τ A B) : σ.m_marker = τ.m_marker :=
  hp.rep.field Core.m_marker fun _ _ => rfl

theorem Profiled.lists (hp : Profiled σ τ A B) :
    Lists σ.heap none [] (A ++ ⟨τ.m_marker, MARKER_KEY⟩ :: B) := by
  have : Lists σ.heap none τ.frozen τ.main := hp.rep.holds.lists
  rwa [hp.curved.frozen, hp.curved.main] at this

theorem Profiled.marker_isNode (hp : Profiled σ τ A B) : τ.m_marker.IsNode :=
  hp.lists.node (x := ⟨τ.m_marker, MARKER_KEY⟩) (by simp)

/-- `find` while the curve is taken. -/
theorem Profiled.find_eq (hp : Profiled σ τ A B) (lock : Bool) (k : ℕ) : σ.findWith lock k =
    match σ.m_map.lookup k with
    | none => .ok (none, σ)
    | some e => (findCurve σ e.m_listNode).map fun σ' => (some e.m_value, σ') := by
  have hflags : σ.tier_ready = false ∧ σ.fast_hash_ready = false ∧
      σ.fast_hash_construct = false := by
    have hcore := hp.rep.core
    obtain ⟨h1, h2, -, h4⟩ := hp.curved.flat.flags
    exact ⟨(congrArg Core.tier_ready hcore).trans h1,
      (congrArg Core.fast_hash_ready hcore).trans h2,
      (congrArg Core.fast_hash_construct hcore).trans h4⟩
  rw [findWith, hflags.1, hflags.2.1]
  simp only [Bool.or_false, Bool.false_eq_true, not_false_eq_true, true_or, assert_of, ok_bind,
    if_false]
  rw [findSlow, hflags.2.2, hp.curve]
  cases σ.m_map.lookup k with
  | none => rfl
  | some e =>
    simp only [Bool.false_eq_true, if_false, if_true]
    cases findCurve σ e.m_listNode <;> rfl

/-- A node in front of the marker stays where it is. -/
theorem Profiled.hit_front (hp : Profiled σ τ A B) (hx : x ∈ A) : findCurve σ x.node = .ok σ := by
  obtain ⟨t, ht, hA, -⟩ := hp.stamps
  obtain ⟨u, hu⟩ := time_of_key (hp.lists.key x (by simp [hx]))
  have hlt := hA x hx u hu
  obtain ⟨d, hd, rfl⟩ := Option.map_eq_some_iff.mp hu
  obtain ⟨e, he, rfl⟩ := Option.map_eq_some_iff.mp ht
  rw [findCurve, Heap.getVal_eq hd, ok_bind, hp.marker, if_neg hp.marker_isNode.ne_null,
    Heap.getVal_eq he, ok_bind, if_neg (by omega)]
  rfl

/-- What `findCurve` does to the heap for a node behind the marker. -/
theorem Profiled.findCurve_back (hp : Profiled σ τ A (P ++ x :: Q)) (htomb : x.key ≠ TOMB_KEY) :
    ∃ h', findCurve σ x.node = .ok { σ with
      heap := h', movement_counter := σ.movement_counter + 1, clock := σ.clock + 1 } ∧
      Holds h' τ.toCore none τ.frozen (x :: A ++ ⟨τ.m_marker, MARKER_KEY⟩ :: (P ++ Q)) ∧
      Ends (fun q u => if q = x.node then u = σ.clock else timeAt σ.heap q = some u) h' := by
  obtain ⟨t, ht, -, hB⟩ := hp.stamps
  have hl := hp.lists
  have hx : x ∈ [] ++ (A ++ ⟨τ.m_marker, MARKER_KEY⟩ :: (P ++ x :: Q)) := by simp
  have hkey := hl.key x hx
  -- the new stamp, then the promotion
  have hr₁ := Rep.restamp (n := x.node) hp.rep hkey σ.clock
  have hmain : τ.main = (A ++ ⟨τ.m_marker, MARKER_KEY⟩ :: P) ++ x :: Q := by
    rw [hp.curved.main]; simp
  obtain ⟨v, hlook⟩ := hp.curved.flat.linked x (by simp [alive_cons htomb])
  obtain ⟨h', hprom, hr₂⟩ := hr₁.promote (hr₁.holds.entry x.key _ hlook)
  have hnd : (τ.main.map Item.node).Nodup := by
    have := hl.nodup
    rwa [List.nil_append, ← hp.curved.main] at this
  rw [promote_middle hp.curved.frozen hmain hnd] at hr₂
  change promote (σ.heap.withVal x.node ⟨x.key, σ.clock⟩) x.node = .ok h' at hprom
  have hset : σ.heap.setVal x.node ⟨x.key, σ.clock⟩ =
    .ok (σ.heap.withVal x.node ⟨x.key, σ.clock⟩) :=
    Heap.setVal_eq (live_of_key hkey)
  obtain ⟨u, hu⟩ := time_of_key hkey
  have hle := hB x (by simp) u hu
  obtain ⟨d, hd, hdu⟩ := Option.map_eq_some_iff.mp hu
  obtain ⟨e, he, het⟩ := Option.map_eq_some_iff.mp ht
  refine ⟨h', ?_, ?_, ?_⟩
  · rw [findCurve, Heap.getVal_eq hd, ok_bind, hp.marker, if_neg hp.marker_isNode.ne_null,
      Heap.getVal_eq he, ok_bind, if_pos (by omega), keyOf_eq hkey, ok_bind, hset, ok_bind, hprom,
      ok_bind]
    rfl
  · have hmain' : x :: (A ++ ⟨τ.m_marker, MARKER_KEY⟩ :: P ++ Q) =
      x :: A ++ ⟨τ.m_marker, MARKER_KEY⟩ :: (P ++ Q) := by simp
    have hh := hr₂.holds
    dsimp only at hh
    rwa [hmain'] at hh
  · refine (hp.ends.own.setVal (fun q u hq hu => ?_) ?_ hset).promote (hl.node hx) hprom
    · rw [if_neg hq]; exact hu
    · rw [if_pos rfl]

/-- A node behind the marker is stamped, counted and moved to the front. -/
theorem Profiled.hit_back (hp : Profiled σ τ A (P ++ x :: Q)) (htomb : x.key ≠ TOMB_KEY) :
    ∃ σ' τ', findCurve σ x.node = .ok σ' ∧ Profiled σ' τ' (x :: A) (P ++ Q) ∧
    σ'.m_maxSize = σ.m_maxSize := by
  obtain ⟨t, hstamps⟩ := hp.stamps
  obtain ⟨h', hfind, hh, hends⟩ := hp.findCurve_back htomb
  have hoff : ∀ y ∈ A ++ ⟨τ.m_marker, MARKER_KEY⟩ :: (P ++ Q), y.node ≠ x.node := by
    have hnd := hh.lists.nodup
    rw [hp.curved.frozen, List.nil_append, List.cons_append, List.map_cons, List.nodup_cons] at hnd
    exact fun y hy h => hnd.1 (h ▸ List.mem_map_of_mem hy)
  refine ⟨_, { τ with
      main := x :: A ++ ⟨τ.m_marker, MARKER_KEY⟩ :: (P ++ Q), movement_counter :=
        τ.movement_counter + 1
      clock := τ.clock + 1 }, hfind, ⟨⟨?_, hh.congr rfl rfl, hp.rep.no_curve⟩,
        ⟨hp.curved.frozen, rfl, ?_, ?_⟩, ?_,
    hp.curve, hp.ends.tick le_rfl hends, t, ?_⟩, rfl⟩
  · rw [(hp.rep.field Core.movement_counter fun _ _ => rfl),
      (hp.rep.field Core.clock fun _ _ => rfl)]
    show ({ σ.unflag.toCore with
      movement_counter := τ.movement_counter + 1, clock := τ.clock + 1 } : Core α) = _
    rw [hp.rep.core]
  · have hperm : (A ++ alive (P ++ x :: Q)).Perm (x :: A ++ alive (P ++ Q)) := by
      rw [alive_append, alive_append, alive_cons htomb, ← List.append_assoc,
        List.cons_append, ← List.append_assoc]
      exact List.perm_middle
    obtain ⟨h1, h2, h3, h4⟩ := hp.curved.flat.perm hperm
    exact ⟨h1, h2, h3, h4⟩
  · show τ.movement_counter + 1 = _
    rw [hp.curved.count, List.length_cons]
  · show τ.m_size = _
    rw [hp.size]
    simp [alive_cons htomb]
    omega
  · refine stamps_step hstamps hends (hoff ⟨τ.m_marker, MARKER_KEY⟩ (by simp))
      (hh.lists.key ⟨τ.m_marker, MARKER_KEY⟩ (by simp)) (fun y hy => ?_) fun y hy => ?_
    · rcases List.mem_cons.mp hy with rfl | hy
      · exact Or.inl ⟨rfl, hp.ends.stamp _ t hstamps.1 hp.marker_isNode⟩
      · exact Or.inr ⟨hoff y (by simp [hy]), hy⟩
    · refine Or.inr ⟨hoff y (List.mem_append_right _ (List.mem_cons_of_mem _ hy)), ?_⟩
      rcases List.mem_append.mp hy with hy | hy <;> simp [hy]

/-! ### A miss -/

/-- The entry of a new key, whose node is on no list yet. -/
structure Pending (h : Heap Ptr NodeData) (n : Ptr) (k : ℕ) (v : α) (σ : Shard α) (τ : ListShard α)
    (A B : List Item) :
    Prop where
  rep : Rep none σ.unflag τ
  curved : Curved (some k) τ A B
  entry : τ.m_map.lookup k = some ⟨some v, n⟩
  off : n ∉ (A ++ ⟨τ.m_marker, MARKER_KEY⟩ :: B).map Item.node
  curve : σ.curve_flag = true
  ends : Ends (fun q u => q ≠ n → timeAt h q = some u) σ.heap

/-- The new key in the map. -/
theorem Profiled.insertMap (hp : Profiled σ τ A B) (hk : ValidKey k) (hm : k ∉ τ.m_map) (v : α) :
    (Shard.insertMap (Shard.newNode σ k) k (some v) (.node σ.fresh)).1 = true ∧
    Pending σ.heap (.node σ.fresh) k v (Shard.insertMap (Shard.newNode σ k) k (some v)
      (.node σ.fresh)).2
      (τ.place k (some v)) A B := by
  have hfresh := hp.rep.field Core.fresh fun _ _ => rfl
  obtain ⟨σ₀, hmapped, hr₀⟩ := hp.rep.insertMap hk (some v)
  obtain ⟨hheap, hflag⟩ := insertMap_keeps (Shard.newNode σ k) k (some v) (.node σ.fresh)
  rw [← hfresh, insertMap_unflag, Prod.mk.injEq, decide_eq_true hm] at hmapped
  obtain ⟨hnew, rfl⟩ := hmapped
  refine ⟨hnew, hr₀, hp.curved.place hk hm v, ?_, ?_, hflag.trans hp.curve, ?_⟩
  · rw [hfresh]
    exact Finmap.lookup_insert _
  · have := hp.rep.holds.fresh_notMem
    rw [hp.curved.frozen, hp.curved.main] at this
    rw [hfresh]
    exact this
  · rw [hheap]
    apply hp.ends.own.newNode
    · exact fun q u _ hu _ => hu
    · exact fun h => absurd rfl h

/-- Room for it. -/
theorem Pending.insertEvict (hp : Pending h n k v σ τ A B)
    (hroom : τ.m_maxSize ≤ τ.m_size → alive B ≠ []) :
    ∃ d σ' τ' B', σ.insertEvict k = .ok ((τ.m_size, d), σ') ∧ Pending h n k v σ' τ' A B' ∧
      τ'.m_marker = τ.m_marker ∧
      τ'.m_size = τ.m_size ∧ τ'.m_maxSize = τ.m_maxSize ∧ τ'.clock = τ.clock ∧ B' <+: B ∧
      (d = true ∧ (alive B).length = (alive B').length + 1 ∨
        d = false ∧ τ.m_size < τ.m_maxSize ∧ (alive B).length = (alive B').length) := by
  obtain ⟨d, B', m, hmake, hc, hpre, hlook, hcase⟩ := hp.curved.makeRoom hroom
  obtain ⟨σ₁, he, hr⟩ := hp.rep.insertEvict hmake
  rw [insertEvict_unflag] at he
  obtain ⟨⟨⟨i, d'⟩, σ'⟩, hevict, he⟩ := map_eq_ok he
  simp only [Prod.mk.injEq] at he
  obtain ⟨⟨rfl, rfl⟩, rfl⟩ := he
  obtain ⟨hends, hcurve⟩ := hp.ends.insertEvict hevict
  refine ⟨d', σ', _, B', hevict, ⟨hr, hc, hlook.trans hp.entry, fun h => hp.off ?_,
    hcurve.trans hp.curve, hends⟩, rfl, rfl, rfl, rfl, hpre, ?_⟩
  · exact (List.Sublist.map _ ((List.Sublist.refl _).append (hpre.sublist.cons_cons _))).subset h
  · rcases hcase with ⟨h1, -, h2⟩ | h
    · exact Or.inl ⟨h1, h2⟩
    · exact Or.inr h

/-- Its node is linked behind the marker. -/
theorem Pending.insertLink (hp : Pending h n k v σ τ A B) (ht : timeAt h τ.m_marker = some t) :
    ∃ h', σ.insertLink k n = .ok (true, { σ with heap := h' }) ∧
      Rep none { σ with heap := h' }.unflag { τ with
        main := A ++ ⟨τ.m_marker, MARKER_KEY⟩ :: ⟨n, k⟩ :: B } ∧
      Curved none { τ with main := A ++ ⟨τ.m_marker, MARKER_KEY⟩ :: ⟨n, k⟩ :: B } A (⟨n, k⟩ :: B) ∧
      Ends (fun q u => if q = n then u = t else timeAt h q = some u) h' := by
  have hl : Lists σ.heap none [] (A ++ ⟨τ.m_marker, MARKER_KEY⟩ :: B) := by
    have : Lists σ.heap none τ.frozen τ.main := hp.rep.holds.lists
    rwa [hp.curved.frozen, hp.curved.main] at this
  have hE := hp.rep.holds.entry k _ hp.entry
  have hmark : τ.m_marker.IsNode := hl.node (x := ⟨τ.m_marker, MARKER_KEY⟩) (by simp)
  have ht' : timeAt σ.heap τ.m_marker = some t := by
    obtain ⟨w, hw⟩ := time_of_key (hl.key ⟨τ.m_marker, MARKER_KEY⟩ (by simp))
    have hne : τ.m_marker ≠ n := by
      rintro rfl
      exact hp.off (by simp)
    obtain rfl := Option.some.inj ((hp.ends.stamp _ w hw hne).symm.trans ht)
    exact hw
  have hoff : n ∉ τ.items.map Item.node := by
    rw [items, hp.curved.frozen, hp.curved.main]
    exact hp.off
  obtain ⟨h₁, h', hset, hpush, hlink, hr⟩ :=
    hp.rep.insertLink_curve hp.curve hp.curved.flat.flags.2.2.1 hp.curved.main hE.key
    hE.node hoff ht'
  refine ⟨h', hlink, hr, hp.curved.link hE.valid.ne_tomb hp.entry, ?_⟩
  refine (hp.ends.setVal (fun q u hq hu => ?_) ?_ hset).pushAfter hmark hE.node hpush
  · rw [if_neg hq]; exact hu hq
  · rw [if_pos rfl]

/-- `insert` of a key that is not there, from its steps. -/
theorem Profiled.insert_eq {σ₁ σ₂ σ₃ : Shard α} {i : ℕ} {d : Bool} (hp : Profiled σ τ A B)
    (hnew : (Shard.insertMap (Shard.newNode σ k) k (some v) (.node σ.fresh)).1 = true)
    (hevict : (Shard.insertMap (Shard.newNode σ k) k (some v) (.node σ.fresh)).2.insertEvict k = .ok
      ((i, d), σ₁))
    (hlink : σ₁.insertLink k (.node σ.fresh) = .ok (true, σ₂))
    (hset : σ₂.insertSettle i d = .ok σ₃) :
    σ.insert k (some v) = .ok (true, σ₃) := by
  rw [Shard.insert, (hp.rep.field Core.tier_no_insert fun _ _ => rfl).trans
    hp.curved.flat.flags.2.2.1]
  simp only [Bool.false_eq_true, if_false, hnew, not_true_eq_false, hevict, hlink, hset, ok_bind]
  rfl

/-- A new node goes behind the marker, as long as no eviction can take the marker. -/
theorem Profiled.insert (hp : Profiled σ τ A B) (hk : ValidKey k) (hm : k ∉ τ.m_map) (v : α)
    (hroom : τ.m_maxSize ≤ τ.m_size → alive B ≠ []) :
    ∃ σ' τ' B', σ.insert k (some v) = .ok (true, σ') ∧ Profiled σ' τ' A B' ∧
    σ'.m_maxSize = σ.m_maxSize := by
  obtain ⟨t, hstamps⟩ := hp.stamps
  obtain ⟨hnew, hp₀⟩ := hp.insertMap hk hm v
  obtain ⟨d, σ₁, τ₁, B₁, hevict, hp₁, hmark₁, hsize₁, hmax₁, hclock₁, hpre₁, hcase⟩ :=
    hp₀.insertEvict hroom
  obtain ⟨h₂, hlink, hr₂, hc₂, hends₂⟩ := hp₁.insertLink (t := t) (by rw [hmark₁]; exact hstamps.1)
  have hlen := hp.size
  rw [List.length_append] at hlen
  have hcons : alive (⟨.node σ.fresh, k⟩ :: B₁) = ⟨.node σ.fresh, k⟩ :: alive B₁ :=
    alive_cons hk.ne_tomb
  -- what `m_size` says before the new node is counted
  have hcounted : d = true ∧ τ₁.m_size = (A ++ alive (⟨.node σ.fresh, k⟩ :: B₁)).length ∨
      d = false ∧ τ₁.m_size < τ₁.m_maxSize ∧
        τ₁.m_size + 1 = (A ++ alive (⟨.node σ.fresh, k⟩ :: B₁)).length := by
    rw [hcons, hsize₁, hmax₁, List.length_append, List.length_cons]
    dsimp only [ListShard.place] at hcase ⊢
    rcases hcase with ⟨rfl, h⟩ | ⟨rfl, hlt, h⟩
    · exact Or.inl ⟨rfl, by omega⟩
    · exact Or.inr ⟨rfl, hlt, by omega⟩
  obtain ⟨τ₃, B₃, hsettle, hc₃, hpre₃, hsize₃, hmark₃, hmax₃⟩ :=
    hc₂.settle (i := τ.m_size) (d := d) (by simp [hcons]) hcounted
  obtain ⟨σ₃', he, hr₃⟩ := hr₂.insertSettle hsettle
  rw [insertSettle_unflag] at he
  obtain ⟨σ₃, hset₃, rfl⟩ := map_eq_ok he
  obtain ⟨hends₃, hcurve₃⟩ := Ends.insertSettle (σ := { σ₁ with heap := h₂ }) hends₂ hset₃
  have hclock₃ : σ₃.clock = σ.clock + 1 := by
    rw [(hr₃.field Core.clock fun _ _ => rfl), (settle_counters hsettle).1,
      (hp.rep.field Core.clock fun _ _ => rfl)]
    exact hclock₁
  have hmark : τ₃.m_marker = τ.m_marker := hmark₃.trans hmark₁
  have hoff : ∀ y ∈ A ++ ⟨τ.m_marker, MARKER_KEY⟩ :: B₁, y.node ≠ .node σ.fresh := by
    intro y hy h
    refine hp₁.off (h ▸ List.mem_map_of_mem ?_)
    rw [hmark₁]
    exact hy
  have hmax : σ₃.m_maxSize = σ.m_maxSize := by
    rw [hr₃.field Core.m_maxSize fun _ _ => rfl, hmax₃, hp.rep.field Core.m_maxSize fun _ _ => rfl]
    exact hmax₁
  refine ⟨σ₃, τ₃, B₃, hp.insert_eq hnew hevict hlink hset₃,
    ⟨hr₃, hc₃, hsize₃, hcurve₃.trans hp₁.curve, ?_, t, ?_⟩, hmax⟩
  · rw [hclock₃]
    exact hp.ends.tick (hp.ends.stamp _ t hstamps.1 hp.marker_isNode).le hends₃
  · have hl : Lists σ₃.heap none τ₃.frozen τ₃.main := hr₃.holds.lists
    rw [hc₃.main, hmark] at hl
    rw [hmark]
    refine stamps_step hstamps hends₃ (hoff ⟨τ.m_marker, MARKER_KEY⟩ (by simp))
      (hl.key ⟨τ.m_marker, MARKER_KEY⟩ (by simp)) (fun y hy => ?_) fun y hy => ?_
    · exact Or.inr ⟨hoff y (by simp [hy]), hy⟩
    · rcases List.mem_cons.mp (hpre₃.subset hy) with rfl | hy
      · exact Or.inl ⟨rfl, le_rfl⟩
      · exact Or.inr ⟨hoff y (by simp [hy]), hpre₁.subset hy⟩

/-- The keys of the map are those of the nodes before and behind the marker. -/
theorem Profiled.mem_map (hp : Profiled σ τ A B) :
    k ∈ σ.m_map ↔ k ∈ A.map Item.key ∨ k ∈ (alive B).map Item.key := by
  have hmap := hp.rep.field Core.m_map fun _ _ => rfl
  rw [hmap, hp.curved.flat.listed.keys, List.map_append, List.mem_append]
  simp

/-- A request that finds its key. -/
theorem Profiled.get_hit (hp : Profiled σ τ A B) (lock : Bool) (hk : k ∈ σ.m_map) (v : α) :
    ∃ w σ' τ' A' B', LRU_FHCache.call σ (lock, .get k v) = .ok (.got ⟨some w, none⟩, σ') ∧
      Profiled σ' τ' A' B' ∧
      σ'.m_maxSize = σ.m_maxSize ∧ ∀ j, j ∈ A'.map Item.key ↔ j ∈ A.map Item.key ∨ j = k := by
  have hmap := hp.rep.field Core.m_map fun _ _ => rfl
  have hcall : ∀ {e : HashMapValue (Option α)} {σ'}, σ.m_map.lookup k = some e →
      findCurve σ e.m_listNode = .ok σ' →
      LRU_FHCache.call σ (lock, .get k v) = .ok (.got ⟨some e.m_value, none⟩, σ') := by
    intro e σ' he hfind
    have : LRU_FHCache.find lock σ k = .ok (some e.m_value, σ') := by
      rw [LRU_FHCache.find, hp.find_eq, he]
      dsimp only
      rw [hfind]
      rfl
    simp only [LRU_FHCache.call, Client.get, this, ok_bind, pure_eq_ok]
  rcases hp.mem_map.mp hk with hA | hB
  · obtain ⟨x, hx, rfl⟩ := List.mem_map.mp hA
    obtain ⟨w, he⟩ := hp.curved.flat.linked x (by simp [hx])
    refine ⟨some w, σ, τ, A, B, hcall (by rw [hmap]; exact he) (hp.hit_front hx), hp, rfl,
      fun j => ?_⟩
    exact ⟨Or.inl, fun h => h.elim id fun h => h ▸ hA⟩
  · obtain ⟨x, hx, rfl⟩ := List.mem_map.mp hB
    obtain ⟨w, he⟩ := hp.curved.flat.linked x (by simp [hx])
    obtain ⟨hxB, htomb⟩ := mem_alive.mp hx
    obtain ⟨P, Q, rfl⟩ := List.append_of_mem hxB
    obtain ⟨σ', τ', hfind, hp', hmax⟩ := hp.hit_back htomb
    refine ⟨some w, σ', τ', _, _, hcall (by rw [hmap]; exact he) hfind, hp', hmax, fun j => ?_⟩
    rw [List.map_cons, List.mem_cons, or_comm]

/-- A request that does not find its key inserts it. -/
theorem Profiled.get_absent (hp : Profiled σ τ A B) (lock : Bool) (hk : k ∉ σ.m_map)
    (hins : σ.insert k (some v) = .ok (true, σ')) :
    LRU_FHCache.call σ (lock, .get k v) = .ok (.got ⟨none, some true⟩, σ') := by
  have hfind : LRU_FHCache.find lock σ k = .ok (none, σ) := by
    rw [LRU_FHCache.find, hp.find_eq, Finmap.lookup_eq_none.mpr hk]
  simp only [LRU_FHCache.call, Client.get, hfind, hins, ok_bind, pure_eq_ok]

/-- With room, or the node of a key behind the marker, the marker stays. -/
theorem Profiled.get_miss (hp : Profiled σ τ A B) (lock : Bool) (hvalid : ValidKey k)
    (hk : k ∉ σ.m_map) (v : α) (hroom : σ.m_maxSize ≤ σ.m_size → alive B ≠ []) :
    ∃ σ' τ' B', LRU_FHCache.call σ (lock, .get k v) = .ok (.got ⟨none, some true⟩, σ') ∧
      Profiled σ' τ' A B' ∧
      σ'.m_maxSize = σ.m_maxSize := by
  rw [(hp.rep.field Core.m_size fun _ _ => rfl), (hp.rep.field Core.m_maxSize fun _ _ => rfl)]
    at hroom
  have hmap : σ.m_map = τ.m_map := hp.rep.field Core.m_map fun _ _ => rfl
  obtain ⟨σ', τ', B', hins, hp', hmax⟩ := hp.insert hvalid (hmap ▸ hk) v hroom
  exact ⟨σ', τ', B', hp.get_absent lock hk hins, hp', hmax⟩

end Shard
end FrozenHot
