import FrozenHot.Freeze.Profiled

/-! The marker that `get_curve` of `LRU_FHCache` puts in the main list: what it measures over a run,
    and what happens if an eviction takes it. -/

namespace FrozenHot
open Schemes ListShard

variable {α : Type}

namespace Shard
variable {σ σ' : Shard α} {τ : ListShard α} {h : Heap Ptr NodeData} {A B L : List Item} {n : Ptr}
    {k : ℕ} {v : α}
variable {held : Option ℕ}

/-! ### The marker at the tail

    With nothing but tombstones behind the marker, an eviction takes the marker: its key is in no
    map, so that it stays allocated, but it is out of the list, and the new node goes behind a node
    that no list reaches. -/

/-- `evict` takes the node before the tail, once the tombstones are gone. -/
theorem evict_last {q : Ptr} (hdrop : dropTombs (σ.fresh + 1) σ.heap = .ok (n, h))
    (hnode : n.IsNode) (hk : keyAt h n = some k) (hprev : h.prev n = some q)
    (hnext : h.next n = some .m_tail) (hq : h.Live q) (hq0 : q ≠ .null) (htail : h.Live .m_tail) :
    σ.evict held =
      match σ.m_map.lookup k with
      | none => .ok (false, { σ with
          heap := unlinked h q n .m_tail, unreachable_counter := σ.unreachable_counter + 1 })
      | some _ => if held = some k then .error .diverge else
          .ok (true,
              { σ with heap := (unlinked h q n .m_tail).free n, m_map := σ.m_map.erase k }) := by
  have hdel := delinkChecked_eq hprev hnext hq htail hnode.ne_null hq0 nofun
  have hk' : keyAt (unlinked h q n .m_tail) n = some k := by rw [keyAt, val_unlinked]; exact hk
  rw [Shard.evict, hdrop, ok_bind]
  dsimp only
  rw [if_neg (hnode.ne_of_not id : n ≠ .m_head), hdel, ok_bind, keyOf_eq hk', ok_bind]
  cases σ.m_map.lookup k with
  | none => rfl
  | some e => rfl

/-- The marker is out of the list, and still in front of the tail. -/
structure Stray (h : Heap Ptr NodeData) (m : Ptr) : Prop where
  node : m.IsNode
  out : h.prev m = some .OutOfListMarker
  next : h.next m = some .m_tail
  tail : h.Live .m_tail
  time : ∃ t, timeAt h m = some t

theorem Pending.insertEvict_marker (hp : Pending h n k v σ τ A B) (hB : alive B = [])
    (hfull : τ.m_maxSize ≤ τ.m_size) :
    ∃ h', σ.insertEvict k = .ok ((σ.m_size, false),
      { σ with heap := h', unreachable_counter := σ.unreachable_counter + 1 }) ∧
      Stray h' σ.m_marker ∧ keyAt h' n = some k := by
  have hmark := hp.rep.field Core.m_marker fun _ _ => rfl
  have hfull' : σ.m_size ≥ σ.m_maxSize := by
    rw [(hp.rep.field Core.m_size fun _ _ => rfl), (hp.rep.field Core.m_maxSize fun _ _ => rfl)]
    exact hfull
  -- the tombstones behind the marker go first
  obtain ⟨h₀, hdrop, hh₀⟩ := hp.rep.holds.dropTombs_fresh
  rw [← (hp.rep.field Core.fresh fun _ _ => rfl)] at hdrop
  have htrim : trim τ.main = A ++ [⟨σ.m_marker, MARKER_KEY⟩] := by
    rw [hp.curved.main, trim_tombs hB (show MARKER_KEY ≠ TOMB_KEY by decide), hmark]
  rw [hp.curved.frozen, htrim] at hh₀
  rw [htrim, List.map_append, getLastD_append] at hdrop
  have hL : IsList h₀ .m_head (A.map Item.node ++ σ.m_marker :: []) .m_tail := by
    simpa using hh₀.lists.main
  have hnode : σ.m_marker.IsNode := hL.node _ (by simp)
  have hkey : keyAt h₀ σ.m_marker = some MARKER_KEY :=
    hh₀.lists.key ⟨σ.m_marker, MARKER_KEY⟩ (by simp)
  have hmiss : σ.m_map.lookup MARKER_KEY = none := by
    rw [(hp.rep.field Core.m_map fun _ _ => rfl)]
    exact Finmap.lookup_eq_none.mpr fun h => absurd (hp.curved.flat.listed.valid _ h).1 (by decide)
  have hne : σ.m_marker ≠ (A.map Item.node).getLastD .m_head := by
    have hd : (.m_head :: A.map Item.node ++ σ.m_marker :: []).Nodup := hL.nodup_left
    exact ne_getLastD fun h => (List.nodup_middle.mp hd).notMem (by rwa [List.append_nil])
  refine ⟨unlinked h₀ ((A.map Item.node).getLastD .m_head) σ.m_marker .m_tail, ?_,
    ⟨hnode, hL.unlinked.2.2, ?_, by rw [live_unlinked]; exact hL.live_right, ?_⟩, ?_⟩
  · rw [Shard.insertEvict, if_pos hfull',
      evict_last hdrop hnode hkey hL.seg.prev_mid hL.seg.next_mid hL.seg.live_getLastD
      (hL.last_ne (by decide) id) hL.live_right, hmiss]
    rfl
  · rw [next_unlinked_ne hne]
    exact hL.seg.next_mid
  · rw [timeAt, val_unlinked]
    exact time_of_key hkey
  · rw [keyAt, val_unlinked]
    exact (hh₀.entry k _ hp.entry).key

/-- A node that only the marker and the tail know of. -/
structure Behind (h : Heap Ptr NodeData) (m n : Ptr) (k : ℕ) : Prop where
  out : h.prev m = some .OutOfListMarker
  tail : h.prev .m_tail = some n
  prev : h.prev n = some m
  next : h.next n = some .m_tail
  key : keyAt h n = some k

/-- The new node goes behind the marker all the same. -/
theorem Stray.insertLink (hs : Stray σ.heap σ.m_marker) (hno : σ.tier_no_insert = false)
    (hcurve : σ.curve_flag = true) (hk : keyAt σ.heap n = some k) (hn : n.IsNode)
    (hne : n ≠ σ.m_marker) :
    ∃ h', σ.insertLink k n = .ok (true, { σ with heap := h' }) ∧ Behind h' σ.m_marker n k := by
  obtain ⟨t, ht⟩ := hs.time
  obtain ⟨d, hd, rfl⟩ := Option.map_eq_some_iff.mp ht
  have hlive := live_of_key hk
  have hpush := pushAfter_eq (h := σ.heap.withVal n ⟨k, d.m_time⟩) (n := n)
    (by rw [Heap.next_withVal]; exact hs.next)
    (by simpa using hs.tail) (by simpa using hlive) hne hn.ne_null hs.node.ne_null
  have htail : n ≠ .m_tail := hn.ne_of_not id
  have hmt : σ.m_marker ≠ .m_tail := hs.node.ne_of_not id
  refine ⟨linkedIn (σ.heap.withVal n ⟨k, d.m_time⟩) σ.m_marker n .m_tail, ?_, ?_, ?_, ?_, ?_, ?_⟩
  · rw [Shard.insertLink, hno, hcurve]
    simp only [Bool.false_eq_true, if_false, if_true, Heap.getVal_eq hd, keyOf_eq hk, ok_bind,
      Heap.setVal_eq hlive, hpush, pure_eq_ok]
  · rw [linkedIn, Heap.prev_relink_ne hmt, Heap.prev_relink_ne hne.symm, Heap.prev_withVal]
    exact hs.out
  · rw [linkedIn, Heap.prev_relink (by simpa using hs.tail), if_pos rfl]
  · rw [linkedIn, Heap.prev_relink_ne htail, Heap.prev_relink (by simpa using hlive), if_pos rfl]
  · rw [linkedIn, Heap.next_relink (by simpa using hlive), if_pos rfl]
  · simp [linkedIn, keyAt, Heap.val_withVal hlive]

/-- And the end of `insert` can only take the new node. -/
theorem Behind.insertSettle {i : ℕ} (hb : Behind σ.heap σ.m_marker n k) (hmark : σ.m_marker.IsNode)
    (hn : n.IsNode) (hne : n ≠ σ.m_marker) (hk : ValidKey k) (hmem : k ∈ σ.m_map) :
    ∃ σ', σ.insertSettle i false = .ok σ' ∧ σ'.heap.prev σ'.m_marker = some .OutOfListMarker := by
  by_cases hover : σ.m_size > σ.m_maxSize
  · obtain ⟨e, he⟩ := Option.isSome_iff_exists.mp (Finmap.lookup_isSome.mpr hmem)
    have hdrop : dropTombs ((σ.count false).fresh + 1) (σ.count false).heap = .ok (n, σ.heap) := by
      simp only [dropTombs, show (σ.count false).heap = σ.heap from rfl, Heap.getPrev_eq hb.tail,
        keyOf_eq hb.key, ok_bind, hk.ne_tomb, if_false, pure_eq_ok]
    have hevict : (σ.count false).evict none = _ :=
      evict_last hdrop hn hb.key hb.prev hb.next (Heap.live_of_prev hb.out)
      hmark.ne_null (Heap.live_of_prev hb.tail)
    rw [show (σ.count false).m_map = σ.m_map from rfl, he] at hevict
    refine ⟨_, (if_pos hover).trans (by rw [hevict]; rfl), ?_⟩
    show ((unlinked σ.heap σ.m_marker n .m_tail).free n).prev σ.m_marker = _
    rw [Heap.prev_free, if_neg hne.symm, prev_unlinked_ne hne.symm (hmark.ne_of_not id)]
    exact hb.out
  · exact ⟨σ.count false, if_neg hover, hb.out⟩

theorem Pending.loses (hp : Pending h n k v σ τ A B) (hB : alive B = []) (hn : n.IsNode)
    (hk : ValidKey k) (hfull : τ.m_maxSize ≤ τ.m_size) :
    ∃ σ₁ σ₂ σ₃, σ.insertEvict k = .ok ((σ.m_size, false), σ₁) ∧
      σ₁.insertLink k n = .ok (true, σ₂) ∧ σ₂.insertSettle σ.m_size false = .ok σ₃ ∧
      σ₃.heap.prev σ₃.m_marker = some .OutOfListMarker := by
  have hno : σ.tier_no_insert = false :=
    (hp.rep.field Core.tier_no_insert fun _ _ => rfl).trans hp.curved.flat.flags.2.2.1
  have hmap := hp.rep.field Core.m_map fun _ _ => rfl
  have hmark := hp.rep.field Core.m_marker fun _ _ => rfl
  have hmem : k ∈ σ.m_map := hmap ▸ (hp.curved.flat.listed.keys k).mpr (Or.inr rfl)
  have hne : n ≠ σ.m_marker := by
    intro h
    exact hp.off (by simp [h, hmark])
  obtain ⟨h₁, hevict, hs₁, hk₁⟩ := hp.insertEvict_marker hB hfull
  obtain ⟨h₂, hlink, hb₂⟩ := Stray.insertLink
    (σ := { σ with heap := h₁, unreachable_counter := σ.unreachable_counter + 1 }) hs₁ hno
      hp.curve hk₁ hn hne
  obtain ⟨σ₃, hset, hout⟩ := Behind.insertSettle (i := σ.m_size)
    (σ := { σ with heap := h₂, unreachable_counter := σ.unreachable_counter + 1 }) hb₂ hs₁.node
      hn hne hk hmem
  exact ⟨_, _, σ₃, hevict, hlink, hset, hout⟩

/-- A miss of a full shard with nothing but tombstones behind the marker loses the marker. -/
theorem Profiled.get_loses (hp : Profiled σ τ A B) (hB : alive B = []) (lock : Bool)
    (hvalid : ValidKey k) (hk : k ∉ σ.m_map) (v : α) (hfull : σ.m_maxSize ≤ σ.m_size) :
    ∃ o σ', LRU_FHCache.call σ (lock, .get k v) = .ok (o, σ') ∧
      σ'.heap.prev σ'.m_marker = some .OutOfListMarker := by
  rw [(hp.rep.field Core.m_size fun _ _ => rfl), (hp.rep.field Core.m_maxSize fun _ _ => rfl)]
    at hfull
  obtain ⟨hnew, hp₀⟩ := hp.insertMap hvalid ((hp.rep.field Core.m_map fun _ _ => rfl) ▸ hk) v
  obtain ⟨σ₁, σ₂, σ₃, hevict, hlink, hset, hout⟩ := hp₀.loses hB trivial hvalid hfull
  exact ⟨_, σ₃, hp.get_absent lock hk (hp.insert_eq hnew hevict hlink hset), hout⟩

/-! ### The end of a curve, and the calls between curves -/

theorem Profiled.alive_front (hp : Profiled σ τ A B) : alive A = A := by
  rw [alive, List.filter_eq_self]
  intro x hx
  simpa using hp.curved.flat.ne_tomb (List.mem_append_left _ hx)

/-- Without the marker the main list is one node for each key, and tombstones. -/
theorem Profiled.finish (hp : Profiled σ τ A B) :
    ∃ σ', σ.endCurve = .ok σ' ∧ Idle σ' ∧ Lists σ'.heap none [] (A ++ B) ∧
    ((A ++ alive B).map Item.key).Nodup ∧ ∀ k, k ∈ σ'.m_map ↔ k ∈ (A ++ alive B).map Item.key := by
  have hcore := hp.rep.core
  have hmap := hp.rep.field Core.m_map fun _ _ => rfl
  have hh : Holds σ.heap τ.toCore none [] (A ++ ⟨τ.m_marker, MARKER_KEY⟩ :: B) := by
    have : Holds σ.heap τ.toCore none τ.frozen τ.main := hp.rep.holds
    rwa [hp.curved.frozen, hp.curved.main] at this
  obtain ⟨h₁, hdel, hh₁, -, -⟩ := hh.delink (x := ⟨τ.m_marker, MARKER_KEY⟩) (by simp)
  obtain ⟨-, hmain⟩ := hh.lists.detach_main
  rw [hmain] at hh₁
  have hoff : τ.m_marker ∉ ([] ++ (A ++ B)).map Item.node := by
    have := hh.lists.nodup
    rw [List.nil_append, List.map_append, List.map_cons] at this
    rw [List.nil_append, List.map_append]
    exact (List.nodup_middle.mp this).notMem
  have hent : ∀ k e, τ.m_map.lookup k = some e → e.m_listNode ≠ τ.m_marker := by
    intro k e he
    have hE := hh.entry k e he
    refine hE.ne_of_key (hh.lists.key ⟨τ.m_marker, MARKER_KEY⟩ (by simp)) ?_
    have hvalid := hE.valid.1
    dsimp only [MARKER_KEY]
    omega
  have hh₂ : Holds (h₁.free τ.m_marker) τ.toCore none [] (A ++ B) :=
    hh₁.free hp.marker_isNode hoff hent
  have hflat : Flat none { σ.toCore with
      m_marker := .null, curve_flag := false, movement_counter := 0 } (alive (A ++ B)) := by
    obtain ⟨h1, h2, h3, h4⟩ := hp.curved.flat
    rw [← hcore] at h1 h2 h3 h4
    rw [alive_append, hp.alive_front]
    exact ⟨h1, h2, h3, h4⟩
  refine ⟨{ σ with
    heap := h₁.free τ.m_marker, m_marker := .null, curve_flag := false, movement_counter := 0 }, ?_,
    ⟨⟨⟨_, [], A ++ B⟩, ⟨rfl, ?_, rfl⟩, hflat.wired ?_⟩, ?_, rfl⟩, hh₂.lists,
    hp.curved.flat.listed.nodup, fun k => ?_⟩
  · rw [endCurve, hp.marker, hdel, ok_bind]
    rfl
  · have : Holds (h₁.free τ.m_marker) σ.unflag.toCore none [] (A ++ B) := hcore ▸ hh₂
    exact this.congr rfl rfl
  · rw [alive_append, hp.alive_front]
    exact (hp.rep.field Core.m_size fun _ _ => rfl).trans hp.size
  · exact (hp.ends.delinkChecked hdel).free _
  · show k ∈ σ.m_map ↔ _
    rw [hmap, hp.curved.flat.listed.keys]
    simp

/-- The calls while no curve is taken: all but a bare `insert`, since a client inserts on a miss
    only. -/
def Orderly (c : FHCall α) : Prop := ∀ k v, c ≠ .insert k v

theorem Idle.call {c : Bool × FHCall α} {o : FHResp α} (hi : Idle σ) (hvalid : c.2.Valid)
    (hc : Orderly c.2) (hs : LRU_FHCache.call σ c = .ok (o, σ')) : Idle σ' := by
  obtain ⟨τ, hr, hw⟩ := hi.wired
  obtain ⟨τ', hτ, hr'⟩ := hr.call_ok (κ := .LRU_FH) hvalid hs
  refine ⟨⟨τ', hr', hw.call (own_of_rep hr) hvalid hc hτ⟩, hi.ends.call (κ := .LRU_FH) hr hvalid hs,
    ?_⟩
  rw [hr'.core, (call_counters hτ).2, ← hr.core]
  exact hi.still

/-! ### Runs with curves -/

/-- The calls on a shard, and the two ends of `get_curve`. -/
inductive CurveCall (α : Type) where
  | call (c : Bool × FHCall α)
  | beginCurve
  | endCurve

/-- One of them. -/
def curveCall (σ : Shard α) : CurveCall α → Except Fault (FHResp α × Shard α)
  | .call c => LRU_FHCache.call σ c
  | .beginCurve => do let σ ← σ.beginCurve; return (.done, σ)
  | .endCurve => do let σ ← σ.endCurve; return (.done, σ)

/-- Curves are taken of a thawed shard, one after the other, and only read requests come
    meanwhile. -/
def Allowed (σ : Shard α) : CurveCall α → Prop
  | .call c => c.2.Valid ∧ if σ.curve_flag then ∃ k v, c.2 = .get k v else Orderly c.2
  | .beginCurve => σ.curve_flag = false ∧ σ.tier_ready = false ∧ σ.fast_hash_ready = false
  | .endCurve => σ.curve_flag = true

/-- A request that makes a full shard evict finds a node behind the marker that is not a
    tombstone. -/
def SparesMarker (σ : Shard α) : CurveCall α → Prop
  | .call (_, .get k _) => σ.curve_flag = true → k ∉ σ.m_map → σ.m_maxSize ≤ σ.m_size →
      ∃ A B : List Item, Lists σ.heap none [] (A ++ ⟨σ.m_marker, MARKER_KEY⟩ :: B) ∧ alive B ≠ []
  | _ => True

/-- The keys that the requests found. -/
def hits (H : List (CurveCall α × FHResp α)) : List ℕ :=
  H.filterMap fun
    | (.call (_, .get k _), .got ⟨some _, _⟩) => some k
    | _ => none

/-- What the marker measures after the requests `H` of a curve. -/
def Measures (H : List (CurveCall α × FHResp α)) (σ : Shard α) : Prop :=
  ∃ A B : List Item, Lists σ.heap none [] (A ++ ⟨σ.m_marker, MARKER_KEY⟩ :: B) ∧
    (∀ k, k ∈ A.map Item.key ↔ k ∈ hits H) ∧ σ.movement_counter = A.length ∧
    (∀ k, k ∈ (alive B).map Item.key ↔ k ∈ σ.m_map ∧ k ∉ hits H) ∧
    ∃ σ', σ.endCurve = .ok σ' ∧ Lists σ'.heap none [] (A ++ B) ∧
      ((A ++ alive B).map Item.key).Nodup ∧
      ∀ k, k ∈ σ'.m_map ↔ k ∈ (A ++ alive B).map Item.key

/-- What is behind the marker is determined by the heap. -/
theorem Profiled.spares_iff (hp : Profiled σ τ A B) :
    (∃ P Q : List Item, Lists σ.heap none [] (P ++ ⟨σ.m_marker, MARKER_KEY⟩ :: Q) ∧ alive Q ≠ []) ↔
    alive B ≠ [] := by
  refine ⟨fun ⟨P, Q, hl, hQ⟩ => ?_, fun hB => ⟨A, B, hp.marker ▸ hp.lists, hB⟩⟩
  have heq := hl.main_unique hp.lists
  rw [hp.marker] at heq hl
  have hnd := hl.nodup
  rw [List.nil_append, List.map_append, List.map_cons] at hnd
  have hoff := (List.nodup_middle.mp hnd).notMem
  rw [← List.map_append] at hoff
  have hoff' : (⟨τ.m_marker, MARKER_KEY⟩ : Item) ∉ P ++ Q := fun h => hoff (List.mem_map_of_mem h)
  rw [List.mem_append, not_or] at hoff'
  obtain ⟨-, -, rfl⟩ := (List.append_cons_inj_of_notMem hoff'.1 hoff'.2).mp heq
  exact hQ

theorem Profiled.measures {H : List (CurveCall α × FHResp α)} (hp : Profiled σ τ A B)
    (hA : ∀ k, k ∈ A.map Item.key ↔ k ∈ hits H) : Measures H σ := by
  obtain ⟨σ', hend, -, hl, hnd, hkeys⟩ := hp.finish
  refine ⟨A, B, hp.marker ▸ hp.lists, hA, ?_, fun k => ?_, σ', hend, hl, hnd, hkeys⟩
  · exact (hp.rep.field Core.movement_counter fun _ _ => rfl).trans hp.curved.count
  · rw [List.map_append] at hnd
    have hdisj := List.disjoint_of_nodup_append hnd
    rw [← hA k, hp.mem_map]
    exact ⟨fun h => ⟨Or.inr h, fun h' => hdisj h' h⟩, fun h => h.1.resolve_left h.2⟩

/-- A request of a curve: what is found for the first time goes in front of the marker. -/
theorem Profiled.step {c : Bool × FHCall α} (hp : Profiled σ τ A B) (hc : Allowed σ (.call c))
    (hspare : SparesMarker σ (.call c)) :
    ∃ o σ' τ' A' B', LRU_FHCache.call σ c = .ok (o, σ') ∧ Profiled σ' τ' A' B' ∧
      ∀ j, j ∈ A'.map Item.key ↔ j ∈ A.map Item.key ∨ j ∈ hits [(.call c, o)] := by
  obtain ⟨lock, c⟩ := c
  obtain ⟨hvalid, hget⟩ := hc
  rw [hp.curve, if_pos rfl] at hget
  obtain ⟨k, v, rfl⟩ := hget
  by_cases hk : k ∈ σ.m_map
  · obtain ⟨w, σ', τ', A', B', hcall, hp', -, hA'⟩ := hp.get_hit lock hk v
    refine ⟨_, σ', τ', A', B', hcall, hp', fun j => ?_⟩
    rw [hA']
    simp [hits]
  · obtain ⟨σ', τ', B', hcall, hp', -⟩ := hp.get_miss lock hvalid hk v fun hfull =>
      hp.spares_iff.mp (hspare hp.curve hk hfull)
    refine ⟨_, σ', τ', A, B', hcall, hp', fun j => ?_⟩
    simp [hits]

/-- The requests of a curve. -/
theorem Profiled.run {H : List (CurveCall α × FHResp α)} (hp : Profiled σ τ [] L)
    (hrun : Run curveCall (fun σ c => Allowed σ c ∧ SparesMarker σ c) σ H σ')
    (hopen : ∀ x ∈ H, x.1 ≠ .endCurve) :
    ∃ τ' A B, Profiled σ' τ' A B ∧ ∀ k, k ∈ A.map Item.key ↔ k ∈ hits H := by
  induction hrun with
  | nil => exact ⟨τ, [], L, hp, fun k => by simp [hits]⟩
  | @snoc H σ₁ σ₂ c o _ hP hs ih =>
    obtain ⟨τ₁, A₁, B₁, hp₁, hA₁⟩ := ih fun x hx => hopen x (by simp [hx])
    cases c with
    | call c =>
      obtain ⟨o', σ', τ', A', B', hcall, hp', hA'⟩ := hp₁.step hP.1 hP.2
      obtain ⟨rfl, rfl⟩ := Prod.mk.inj (Except.ok.inj (hs.symm.trans hcall))
      refine ⟨τ', A', B', hp', fun k => ?_⟩
      rw [hA', hA₁, hits, hits, hits, List.filterMap_append, List.mem_append]
    | beginCurve => exact absurd (hp₁.curve.symm.trans hP.1.1) Bool.false_ne_true.symm
    | endCurve => exact absurd rfl (hopen (.endCurve, o) (by simp))

/-- Between curves and during them. -/
def Reached (σ : Shard α) : Prop := Idle σ ∨ ∃ τ A B, Profiled σ τ A B

theorem Idle.curve_flag (hi : Idle σ) : σ.curve_flag = false := by
  obtain ⟨τ, hr, -⟩ := hi.wired
  rw [hr.core]
  exact hr.no_curve

theorem Reached.step {c : CurveCall α} {o : FHResp α} (hi : Reached σ) (hc : Allowed σ c)
    (hspare : SparesMarker σ c) (hs : curveCall σ c = .ok (o, σ')) : Reached σ' := by
  rcases hi with hi | ⟨τ, A, B, hp⟩
  · have hoff := hi.curve_flag
    cases c with
    | call c =>
      obtain ⟨hvalid, hc⟩ := hc
      rw [hoff, if_neg Bool.false_ne_true] at hc
      exact Or.inl (hi.call hvalid hc hs)
    | beginCurve =>
      obtain ⟨σ₁, τ', L, hbegin, hp, -⟩ := hi.begin hc.2
      simp only [curveCall, hbegin, ok_bind, pure_eq_ok] at hs
      cases hs
      exact Or.inr ⟨τ', [], L, hp⟩
    | endCurve => exact absurd (hoff.symm.trans hc) Bool.false_ne_true
  · cases c with
    | call c =>
      obtain ⟨o', σ₁, τ', A', B', hcall, hp', -⟩ := hp.step hc hspare
      obtain ⟨rfl, rfl⟩ := Prod.mk.inj (Except.ok.inj (hs.symm.trans hcall))
      exact Or.inr ⟨τ', A', B', hp'⟩
    | beginCurve => exact absurd (hp.curve.symm.trans hc.1) Bool.false_ne_true.symm
    | endCurve =>
      obtain ⟨σ₁, hend, hi, -⟩ := hp.finish
      simp only [curveCall, hend, ok_bind, pure_eq_ok] at hs
      cases hs
      exact Or.inl hi

theorem reached_init (maxSize : ℕ) : Reached (init maxSize : Shard α) :=
  Or.inl ⟨⟨_, rep_init maxSize, wired_init maxSize⟩, Ends.init maxSize, rfl⟩

/-- A marker that is out of the list measures nothing. -/
theorem not_measures {H : List (CurveCall α × FHResp α)}
    (hout : σ.heap.prev σ.m_marker = some .OutOfListMarker) :
    ¬ Measures H σ := by
  rintro ⟨A, B, hl, -⟩
  have hL : IsList σ.heap .m_head (A.map Item.node ++ σ.m_marker :: B.map Item.node) .m_tail := by
    simpa using hl.main
  have hprev := hL.seg.prev_mid
  rw [hout] at hprev
  exact hL.last_ne (p := .OutOfListMarker) nofun id (Option.some.inj hprev).symm

/-- A request of a curve keeps the measure exactly if it spares the marker. -/
theorem Profiled.step_iff {H : List (CurveCall α × FHResp α)} {c : Bool × FHCall α}
    (hp : Profiled σ τ A B) (hA : ∀ k, k ∈ A.map Item.key ↔ k ∈ hits H) (hc : Allowed σ (.call c)) :
    (∃ o σ', LRU_FHCache.call σ c = .ok (o, σ') ∧ Measures (H ++ [(.call c, o)]) σ') ↔
    SparesMarker σ (.call c) := by
  refine ⟨fun ⟨o, σ', hcall, hm⟩ => ?_, fun hspare => ?_⟩
  · obtain ⟨lock, c⟩ := c
    obtain ⟨hvalid, hget⟩ := hc
    rw [hp.curve, if_pos rfl] at hget
    obtain ⟨k, v, rfl⟩ := hget
    intro _ hk hfull
    refine hp.spares_iff.mpr fun hB => ?_
    obtain ⟨o', σ₁, hcall', hout⟩ := hp.get_loses hB lock hvalid hk v hfull
    obtain ⟨rfl, rfl⟩ := Prod.mk.inj (Except.ok.inj (hcall.symm.trans hcall'))
    exact not_measures hout hm
  · obtain ⟨o, σ', τ', A', B', hcall, hp', hA'⟩ := hp.step hc hspare
    refine ⟨o, σ', hcall, hp'.measures fun k => ?_⟩
    rw [hA', hA, hits, hits, hits, List.filterMap_append, List.mem_append]

/-- In a run in which no request makes a full shard evict the marker, the marker measures the keys
    found since the curve began; and the next request keeps that up exactly if it does not evict the
    marker either. -/
theorem marker_measures_hits {maxSize : ℕ} {H₀ H : List (CurveCall α × FHResp α)} {o : FHResp α}
    (hrun : Run curveCall (fun σ c => Allowed σ c ∧ SparesMarker σ c) (init maxSize)
      (H₀ ++ (.beginCurve, o) :: H) σ)
    (hopen : ∀ x ∈ H, x.1 ≠ .endCurve) :
    Measures H σ ∧ ∀ c, Allowed σ (.call c) →
      ((∃ o' σ', LRU_FHCache.call σ c = .ok (o', σ') ∧ Measures (H ++ [(.call c, o')]) σ') ↔
        SparesMarker σ (.call c)) := by
  obtain ⟨σ₀, hrun₀, hrun⟩ := hrun.split
  obtain ⟨σ₁, hbegin, hrun₁⟩ := Run.split (A := [(CurveCall.beginCurve, o)]) hrun
  obtain ⟨⟨hc, -⟩, hs⟩ := hbegin.single
  have hreached : Reached σ₀ := hrun₀.invariant Reached (reached_init maxSize)
    fun _ _ _ _ hi hP _ hs => hi.step hP.1 hP.2 hs
  have hidle : Idle σ₀ := hreached.resolve_right fun ⟨_, _, _, hp⟩ =>
    absurd (hp.curve.symm.trans hc.1) Bool.false_ne_true.symm
  obtain ⟨σ₁', τ, L, hb, hp, -⟩ := hidle.begin hc.2
  simp only [curveCall, hb, ok_bind, pure_eq_ok] at hs
  cases hs
  obtain ⟨τ', A, B, hp', hA⟩ := hp.run hrun₁ hopen
  exact ⟨hp'.measures hA, fun c hc => hp'.step_iff hA hc⟩

/-- A key is found and another inserted while the curve is taken; the tombstone of a third is behind
    the marker. -/
theorem marker_measures_hits_one : ∃ σ : Shard ℕ, σ.movement_counter = 1 ∧ σ.m_map.keys = {3, 5} ∧
    Measures [(.call (true, .get 3 7), .got ⟨some (some 7), none⟩),
      (.call (true, .get 5 9), .got ⟨none, some true⟩)] σ := by
  have hrun : Run curveCall (fun σ c => Allowed σ c ∧ SparesMarker σ c) (init 5 : Shard ℕ)
      ([(.call (true, .get 3 7), .got ⟨none, some true⟩),
        (.call (true, .get 4 8), .got ⟨none, some true⟩), (.call (true, .construct_tier), .done),
        (.call (true, .delete_key 4), .done), (.call (true, .deconstruct), .done)] ++
        (.beginCurve, .done) :: [(.call (true, .get 3 7), .got ⟨some (some 7), none⟩),
          (.call (true, .get 5 9), .got ⟨none, some true⟩)]) _ :=
    .cons ⟨⟨by decide, nofun⟩, nofun⟩ rfl (.cons ⟨⟨by decide, nofun⟩, nofun⟩ rfl
      (.cons ⟨⟨trivial, nofun⟩, trivial⟩ rfl (.cons ⟨⟨by decide, nofun⟩, trivial⟩ rfl
        (.cons ⟨⟨trivial, nofun⟩, trivial⟩ rfl
        (.cons ⟨⟨rfl, rfl, rfl⟩, trivial⟩ rfl
          (.cons ⟨⟨by decide, 3, 7, rfl⟩, fun _ h => absurd (by decide) h⟩ rfl
          (.cons ⟨⟨by decide, 5, 9, rfl⟩, fun _ _ h => absurd h (by decide)⟩ rfl .nil)))))))
  exact ⟨_, rfl, by decide, (marker_measures_hits hrun (by simp)).1⟩

/-- Both keys of a full shard are found while the curve is taken. The next key evicts the marker,
    and the removal of the marker goes through `OutOfListMarker`. -/
theorem marker_evicted : ∃ σ : Shard ℕ, Run curveCall Allowed (init 2)
      ([(.call (true, .get 3 7), .got ⟨none, some true⟩),
        (.call (true, .get 4 8), .got ⟨none, some true⟩)] ++
        (.beginCurve, .done) :: [(.call (true, .get 3 7), .got ⟨some (some 7), none⟩),
          (.call (true, .get 4 8), .got ⟨some (some 8), none⟩),
          (.call (true, .get 5 9), .got ⟨none, some true⟩)]) σ ∧
    σ.heap.prev σ.m_marker = some .OutOfListMarker ∧ (∃ e, σ.endCurve = .error e) ∧
    ∀ H, ¬ Measures H σ := by
  have hrun : Run curveCall Allowed (init 2 : Shard ℕ)
      ([(.call (true, .get 3 7), .got ⟨none, some true⟩),
        (.call (true, .get 4 8), .got ⟨none, some true⟩)] ++
        (.beginCurve, .done) :: [(.call (true, .get 3 7), .got ⟨some (some 7), none⟩),
          (.call (true, .get 4 8), .got ⟨some (some 8), none⟩),
          (.call (true, .get 5 9), .got ⟨none, some true⟩)]) _ :=
    .cons ⟨by decide, nofun⟩ rfl (.cons ⟨by decide, nofun⟩ rfl (.cons ⟨rfl, rfl, rfl⟩ rfl
      (.cons ⟨by decide, 3, 7, rfl⟩ rfl
        (.cons ⟨by decide, 4, 8, rfl⟩ rfl (.cons ⟨by decide, 5, 9, rfl⟩ rfl .nil)))))
  exact ⟨_, hrun, rfl, ⟨.deref, rfl⟩, fun H => not_measures rfl⟩

end Shard
end FrozenHot
