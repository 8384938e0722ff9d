import FrozenHot.Freeze.RepFreeze

/-! `construct_ratio` with no call interleaved does what it does over lists.

    The scan walks the main list from the head: the items `C` are copied, the items `R` are still to
    come, and `m_fast_head` points to the first item that stays. -/

namespace FrozenHot.Shard
open Schemes ListShard

variable {α : Type} {h h' : Heap Ptr NodeData} {F L A B C K R : List Item} {x : Item} {n p : Ptr}
variable {c c' : Core α} {σ : Shard α} {τ τ' : ListShard α} {s : Option Ptr} {l : Scan}
variable {FC_size DC_size : ℕ}

/-! ### One iteration of the scan -/

/-- A dead node is deleted. -/
theorem Holds.scan_dead (FC_size DC_size : ℕ) (hh : Holds h c s F L) (hx : x ∈ F ++ L)
    (ht : l.temp_node = x.node) (hn : h.next x.node = some n) (hdead : x.key ∉ c.m_map) :
    ∃ h', scanStep FC_size DC_size ⟨c, h⟩ l =
      .ok (⟨c, h'⟩, { l with temp_node := n, count := l.count + 1 }) ∧
      Holds h' c s (detach x.node F) (detach x.node L) ∧
      (∀ p, h'.Live p → p ≠ x.node ∧ h.Live p) := by
  obtain ⟨h₁, -, hdis, hh₁, hlive⟩ := hh.discard hx (fun hl => hdead hl.2)
  refine ⟨_, ?_, hh₁, hlive⟩
  simp only [scanStep, ht, keyOf_eq (hh.lists.key x hx), Heap.getNext_eq hn, ok_bind,
    Finmap.lookup_eq_none.mpr hdead, hdis, pure_eq_ok]

/-- A node whose key is in the map is copied; then one of the cuts is made, or none. -/
theorem Holds.scan_live {e : HashMapValue (Option α)} (FC_size DC_size : ℕ) (hh : Holds h c s F L)
    (hx : x ∈ F ++ L) (ht : l.temp_node = x.node) (hn : h.next x.node = some n)
    (he : c.m_map.lookup x.key = some e) :
    scanStep FC_size DC_size ⟨c, h⟩ l =
      if l.count + 1 > sizeSub FC_size FC_RELAXATION ∧ l.first_pass_flag then
        (cutCount h n).map fun h' => (⟨{ c with m_fasthash := c.m_fasthash.put x.key e.m_value },
          h'⟩, { l with temp_node := n, count := l.count + 1, stop := true })
      else if c.eviction_counter > sizeSub DC_size FC_RELAXATION ∧ l.first_pass_flag then
        (cutEvictions h).map fun h' =>
          (⟨{ c with m_fasthash := c.m_fasthash.put x.key e.m_value }, h'⟩,
            { l with temp_node := n, count := l.count + 1, first_pass_flag := false })
      else .ok (⟨{ c with m_fasthash := c.m_fasthash.put x.key e.m_value }, h⟩,
        { l with temp_node := n, count := l.count + 1 }) := by
  simp only [scanStep, ht, keyOf_eq (hh.lists.key x hx), Heap.getNext_eq hn, ok_bind, he]
  split_ifs
  · cases Shard.cutCount h n <;> rfl
  · cases Shard.cutEvictions h <;> rfl
  · rfl

/-- The tail sentinel is taken for a dead node, and deleting it aborts. -/
theorem Holds.scan_tail (hh : Holds h c s F L) (ht : l.temp_node = .m_tail) :
    scanStep FC_size DC_size ⟨c, h⟩ l = .error .assertion := by
  have hlk : c.m_map.lookup SPECIAL_KEY = none := by
    cases hc : c.m_map.lookup SPECIAL_KEY with
    | none => rfl
    | some e => exact absurd (hh.entry _ e hc).valid.1 (by simp [SPECIAL_KEY])
  have hm : IsList h .m_head (L.map Item.node ++ []) .m_tail := by simpa using hh.lists.main
  have hprev := hh.lists.main.seg.prev_last
  have hlive := hm.seg.live_getLastD
  have h1 := hm.last_ne (p := .OutOfListMarker) (by simp) id
  have h2 := hm.last_ne (p := .null) (by simp) id
  generalize (L.map Item.node).getLastD .m_head = last at hprev hlive h1 h2
  simp [scanStep, ht, keyOf_eq hh.lists.tail, Heap.getNext_eq hh.lists.tailNext, hlk, Shard.discard,
    isInList, Heap.getPrev_eq hprev, h1, h2, delinkChecked, assert, Heap.setNext_eq hlive]

/-! ### The scan -/

/-- The node after the item the scan is at. -/
theorem Holds.scan_next (hh : Holds h c s F (A ++ x :: R)) :
    h.next x.node = some ((R.map Item.node).headD .m_tail) := hh.lists.main.seg.next_map

/-- The cut by count freezes what was copied. -/
theorem Holds.cutCount
    (hh : Holds h c (some ((C.map Item.node).headD .m_fast_tail)) [] (A ++ C ++ R))
    (hC : C ≠ []) :
    ∃ h', Shard.cutCount h ((R.map Item.node).headD .m_tail) = .ok h' ∧
      Holds h' c none C (A ++ R) := by
  obtain ⟨h', hcut, hl, hkept⟩ := hh.lists.cutCount hC
  refine ⟨h', hcut, hh.moved hl hkept fun q hq => Or.inl ?_⟩
  rw [List.nil_append, List.append_assoc] at hq
  exact ((List.perm_append_comm_assoc C A R).map Item.node).mem_iff.mpr hq

/-- The cut by evictions freezes everything from the first copied item on. -/
theorem Holds.cutEvictions
    (hh : Holds h c (some ((C.map Item.node).headD .m_fast_tail)) [] (A ++ C))
    (hC : C ≠ []) :
    ∃ h', Shard.cutEvictions h = .ok h' ∧ Holds h' c none C A := by
  obtain ⟨h', hcut, hl, hkept⟩ := hh.lists.cutEvictions hC
  refine ⟨h', hcut, hh.moved hl hkept fun q hq => Or.inl ?_⟩
  exact (List.perm_append_comm.map Item.node).mem_iff.mp hq

/-- A scan that finds its cut freezes the items up to it. -/
theorem Holds.scan {f n : ℕ} (DC_size : ℕ) (hh : Holds h c (some p) [] (C ++ R))
    (hev : c.eviction_counter = 0)
    (hp : ((C ++ R.filter (·.key ∈ c.m_map)).map Item.node).headD .m_fast_tail = p)
    (hs : split c.m_map (sizeSub FC_size FC_RELAXATION) n R = some (K, B)) (hf : R.length + 1 < f) :
    ∃ h', Shard.scan FC_size DC_size f ⟨c, h⟩ ⟨(R.map Item.node).headD .m_tail, n, true, false⟩ =
      .ok ⟨{ c with m_fasthash := copy c.m_map c.m_fasthash K }, h'⟩ ∧
      Holds h' c none (C ++ K) B := by
  induction R generalizing h c C K f n with
  | nil => simp [split] at hs
  | cons x R ih =>
    obtain ⟨g, rfl⟩ : ∃ g, f = g + 2 := ⟨f - 2, by simp at hf; omega⟩
    have hx : x ∈ [] ++ (C ++ x :: R) := by simp
    have hne : x.node ≠ .m_fast_tail := (hh.lists.node hx).ne_of_not id
    have hnext := hh.scan_next
    have hlen : R.length + 1 < g + 1 := by simp at hf; omega
    by_cases hm : x.key ∈ c.m_map
    · obtain ⟨e, he⟩ := Finmap.mem_iff.mp hm
      have hstep := hh.scan_live (l := ⟨x.node, n, true, false⟩) FC_size DC_size hx rfl hnext he
      rw [List.filter_cons_of_pos (by simpa using hm)] at hp
      by_cases hcut : n + 1 > sizeSub FC_size FC_RELAXATION
      · -- the cut: one more item is copied and the loop breaks
        obtain ⟨rfl, rfl⟩ : [x] = K ∧ R = B := by simpa [split, hm, hcut] using hs
        have hfirst : ((C ++ [x]).map Item.node).headD .m_fast_tail = p := by
          rw [← hp]; cases C <;> simp
        have hcopied : Holds h c (some (((C ++ [x]).map Item.node).headD .m_fast_tail)) []
            ([] ++ (C ++ [x]) ++ R) := by
          rw [hfirst]; simpa using hh
        obtain ⟨h', hc, hh'⟩ := hcopied.cutCount (by simp)
        rw [hc] at hstep
        refine ⟨h', ?_, hh'⟩
        rw [if_pos ⟨hcut, rfl⟩] at hstep
        simp [Shard.scan, hne, hstep, Except.map, copy, he]
      · obtain ⟨K', hs', rfl⟩ : ∃ K', split c.m_map (sizeSub FC_size FC_RELAXATION) (n + 1) R =
            some (K', B) ∧ x :: K' = K := by
          simpa [split, hm, hcut] using hs
        have hh' : Holds h { c with m_fasthash := c.m_fasthash.put x.key e.m_value } (some p) []
            (C ++ [x] ++ R) := by
          rw [List.append_assoc]; exact hh.congr rfl rfl
        obtain ⟨h', hc, hh''⟩ := ih hh' hev (by simpa using hp) hs' hlen
        rw [if_neg (fun hc => hcut hc.1), if_neg (by simp [hev])] at hstep
        refine ⟨h', ?_, by simpa using (hh''.congr rfl rfl : Holds h' c none _ _)⟩
        rw [Shard.scan, List.map_cons, List.headD_cons, if_neg (by simp [hne]), hstep]
        simp only [ok_bind, hc, copy, List.foldl_cons, he]
    · -- a dead node is deleted
      obtain ⟨h₁, hstep, hh₁, -⟩ := hh.scan_dead (l := ⟨x.node, n, true, false⟩) FC_size DC_size
        hx rfl hnext hm
      rw [hh.lists.detach_main.1, hh.lists.detach_main.2] at hh₁
      rw [List.filter_cons_of_neg (by simpa using hm)] at hp
      have hs' : split c.m_map (sizeSub FC_size FC_RELAXATION) (n + 1) R = some (K, B) := by
        simpa [split, hm] using hs
      obtain ⟨h', hc, hh'⟩ := ih hh₁ hev hp hs' hlen
      refine ⟨h', ?_, hh'⟩
      rw [Shard.scan, List.map_cons, List.headD_cons, if_neg (by simp [hne]), hstep]
      exact hc

/-- A scan that runs off the list, or whose first node was deleted, aborts. -/
theorem Holds.scan_fails {f n : ℕ} (FC_size DC_size : ℕ) (hh : Holds h c (some p) [] (C ++ R))
    (hev : c.eviction_counter = 0)
    (hbad : split c.m_map (sizeSub FC_size FC_RELAXATION) n R = none ∨ ¬ h.Live p) :
    ∃ e, Shard.scan FC_size DC_size f ⟨c, h⟩ ⟨(R.map Item.node).headD .m_tail, n, true, false⟩ =
    .error e := by
  induction R generalizing h c C f n with
  | nil =>
    cases f with
    | zero => exact ⟨_, rfl⟩
    | succ g =>
      exact ⟨.assertion, by simp [Shard.scan, hh.scan_tail (l := ⟨.m_tail, n, true, false⟩) rfl]⟩
  | cons x R ih =>
    cases f with
    | zero => exact ⟨_, rfl⟩
    | succ g =>
      have hx : x ∈ [] ++ (C ++ x :: R) := by simp
      have hne : x.node ≠ .m_fast_tail := (hh.lists.node hx).ne_of_not id
      have hnext := hh.scan_next
      rw [Shard.scan, List.map_cons, List.headD_cons, if_neg (by simp [hne])]
      by_cases hm : x.key ∈ c.m_map
      · obtain ⟨e, he⟩ := Finmap.mem_iff.mp hm
        rw [hh.scan_live (l := ⟨x.node, n, true, false⟩) FC_size DC_size hx rfl hnext he]
        by_cases hcut : n + 1 > sizeSub FC_size FC_RELAXATION
        · -- the cut reads the first node
          have hp : ¬ h.Live p := hbad.resolve_left (by simp [split, hm, hcut])
          have hfast := hh.lists.frozen.2.1
          have hpp : h.prev p = none := Option.eq_none_iff_forall_ne_some.mpr
            (fun q hq => hp (Heap.live_of_prev hq))
          exact ⟨.deref, by simp [hcut, Shard.cutCount, Heap.getNext_eq hfast, Heap.getPrev_def,
            hpp, Except.map]⟩
        · rw [if_neg (fun hc => hcut hc.1), if_neg (by simp [hev])]
          have hh' : Holds h { c with m_fasthash := c.m_fasthash.put x.key e.m_value } (some p) []
              (C ++ [x] ++ R) := by
            rw [List.append_assoc]; exact hh.congr rfl rfl
          exact ih hh' hev (hbad.imp_left (fun hb => by simpa [split, hm, hcut] using hb))
      · obtain ⟨h₁, hstep, hh₁, hlive⟩ := hh.scan_dead (l := ⟨x.node, n, true, false⟩)
          FC_size DC_size hx rfl hnext hm
        rw [hh.lists.detach_main.1, hh.lists.detach_main.2] at hh₁
        rw [hstep]
        exact ih hh₁ hev (hbad.imp (fun hb => by simpa [split, hm] using hb)
          (fun hb hc => hb (hlive p hc).2))

/-! ### The whole call -/

/-- The start of `construct_ratio`: the scan begins at the head of the main list. -/
theorem Holds.ratioBegin (hh : Holds h c none [] L) (hFC : FC_size ≤ c.m_maxSize) :
    ∃ h', Shard.ratioBegin FC_size ⟨c, h⟩ =
      .ok (⟨{ c with eviction_counter := 0, fast_hash_construct := true }, h'⟩,
        ⟨(L.map Item.node).headD .m_tail, 0, true, false⟩) ∧
      Holds h' { c with eviction_counter := 0, fast_hash_construct := true }
        (some ((L.map Item.node).headD .m_tail)) [] L := by
  have hf : IsList h .m_fast_head [] .m_fast_tail := hh.lists.frozen
  have hFH := hf.live_left
  have hn := hh.lists.main.seg.next_first
  have hfr : Heap.Frame [.m_fast_head] [] h
    (h.withNext .m_fast_head ((L.map Item.node).headD .m_tail)) :=
    ⟨fun p => by simp, fun p hp => by rw [Heap.next_withNext hFH, if_neg (by simpa using hp)],
      fun p _ => by simp⟩
  have hk : Kept ([] ++ L |>.map Item.node) h
    (h.withNext .m_fast_head ((L.map Item.node).headD .m_tail)) :=
    kept_of_frame hfr (by simp)
  have hoff : (Ptr.m_head :: (L.map Item.node ++ [Ptr.m_tail])).Disjoint [Ptr.m_fast_head] := by
    intro q h1 h2
    rw [List.mem_singleton.mp h2] at h1
    simp only [List.mem_cons, List.mem_append, reduceCtorEq, List.not_mem_nil, or_false, false_or]
      at h1
    exact hh.lists.main.node _ h1
  have hl : Lists (h.withNext .m_fast_head ((L.map Item.node).headD .m_tail))
      (some ((L.map Item.node).headD .m_tail)) [] L := by
    refine ⟨⟨rfl, by simp [Heap.next_withNext hFH], hfr.live.mpr hf.live_right⟩,
      hh.lists.main.congr (hfr.linked hh.lists.main.seg hoff (by simp)), hh.lists.nodup, ?_, ?_, ?_,
      ?_⟩
    · intro x hx
      exact (hk.key _).trans (hh.lists.key x hx)
    · exact (hk.key _).trans hh.lists.head
    · exact (hk.key _).trans hh.lists.tail
    · rw [hfr.next _ (by simp)]; exact hh.lists.tailNext
  refine ⟨h.withNext .m_fast_head ((L.map Item.node).headD .m_tail), ?_, ?_⟩
  · simp [Shard.ratioBegin, assert, hFC, assertThawed_ok hh.lists.frozen, Heap.getNext_eq hn,
      Heap.setNext_eq hFH, Heap.getNext_def, Heap.next_withNext hFH]
  · exact (hh.moved hl hk (fun q hq => Or.inl hq)).congr rfl rfl

/-- `construct_ratio` does what it does over lists. -/
theorem Rep.construct_ratio (hr : Rep none σ τ) (he : τ.construct_ratio FC_size = some τ') :
    ∃ σ', σ.construct_ratio FC_size = .ok σ' ∧ Rep none σ' τ' := by
  obtain ⟨c, h⟩ := σ
  obtain ⟨c', F, L⟩ := τ
  obtain rfl : c = c' := hr.core
  cases L with
  | nil => simp [ListShard.construct_ratio] at he
  | cons x R =>
    by_cases hok : FC_size ≤ c.m_maxSize ∧ F = [] ∧ x.key ∈ c.m_map
    · obtain ⟨K, B, hs, rfl⟩ : ∃ K B, split c.m_map (sizeSub FC_size FC_RELAXATION) 0 (x :: R) =
          some (K, B) ∧ ListShard.mk { c with
            m_fasthash := copy c.m_map c.m_fasthash K, fast_hash_ready := true
            fast_hash_construct := false, eviction_counter := 0 } K B = τ' := by
        simpa [ListShard.construct_ratio, hok] using he
      obtain ⟨hFC, rfl, hx⟩ := hok
      obtain ⟨h₁, hb, hh₁⟩ := hr.holds.ratioBegin hFC
      have hlen : (x :: R).length + 1 < c.fresh + 2 := by
        have := hr.holds.length_le; simp at this ⊢; omega
      obtain ⟨h₂, hsc, hh₂⟩ := Holds.scan (C := []) (R := x :: R)
        (sizeSub c.m_maxSize FC_size) hh₁ rfl (by simp [hx]) hs hlen
      refine ⟨⟨_, h₂⟩, ?_, rfl, hh₂.congr rfl rfl, hr.no_curve⟩
      simp only [Shard.construct_ratio, hb, ok_bind, hsc, ratioEnd, pure_eq_ok]
    · simp [ListShard.construct_ratio, hok] at he

/-- Where it is not defined over lists, `construct_ratio` aborts. -/
theorem Rep.construct_ratio_fails (hr : Rep none σ τ) (he : τ.construct_ratio FC_size = none) :
    ∃ e, σ.construct_ratio FC_size = .error e := by
  obtain ⟨c, h⟩ := σ
  obtain ⟨c', F, L⟩ := τ
  obtain rfl : c = c' := hr.core
  by_cases hFC : FC_size ≤ c.m_maxSize
  swap
  · exact ⟨.assertion, by simp [Shard.construct_ratio, Shard.ratioBegin, assert, hFC]⟩
  by_cases hF : F = []
  swap
  · refine ⟨.assertion, ?_⟩
    simp [Shard.construct_ratio, Shard.ratioBegin, assert, hFC,
      assertThawed_fails hr.holds.lists.frozen (by simpa using hF)]
  subst hF
  have hh : Holds h c none [] L := hr.holds
  obtain ⟨h₁, hb, hh₁⟩ := hh.ratioBegin hFC
  have hfail : ∀ e, Shard.scan FC_size (sizeSub c.m_maxSize FC_size) (c.fresh + 2)
      ⟨{ c with eviction_counter := 0, fast_hash_construct := true }, h₁⟩
      ⟨(L.map Item.node).headD .m_tail, 0, true, false⟩ = .error e →
      ∃ e, Shard.construct_ratio FC_size ⟨c, h⟩ = .error e := by
    intro e he
    exact ⟨e, by simp only [Shard.construct_ratio, hb, ok_bind, he, error_bind]⟩
  by_cases hs : split c.m_map (sizeSub FC_size FC_RELAXATION) 0 L = none
  · obtain ⟨e, hsc⟩ := Holds.scan_fails (C := []) FC_size (sizeSub c.m_maxSize FC_size) hh₁
      rfl (Or.inl hs)
    exact hfail e hsc
  · -- the head is dead, and the scan deletes it first
    obtain ⟨x, R, rfl⟩ : ∃ x R, L = x :: R := by
      cases L with
      | nil => simp [split] at hs
      | cons x R => exact ⟨x, R, rfl⟩
    have hx : x.key ∉ c.m_map := by
      intro hx
      apply hs
      simpa [ListShard.construct_ratio, hFC, hx] using he
    have hmem : x ∈ [] ++ ([] ++ x :: R) := by simp
    have hne : x.node ≠ .m_fast_tail := (hh₁.lists.node hmem).ne_of_not id
    obtain ⟨h₂, hstep, hh₂, hlive⟩ := hh₁.scan_dead (l := ⟨x.node, 0, true, false⟩) FC_size
      (sizeSub c.m_maxSize FC_size) hmem rfl (hh₁.scan_next (A := [])) hx
    have hdet : detach x.node (x :: R) = R := (hh₁.lists.detach_main (A := [])).2
    rw [hdet] at hh₂
    obtain ⟨e, hsc⟩ := Holds.scan_fails (C := []) (n := 1) (f := c.fresh + 1) FC_size
      (sizeSub c.m_maxSize FC_size) hh₂ rfl (Or.inr (fun hc => (hlive _ hc).1 rfl))
    refine hfail e ?_
    rw [Shard.scan, List.map_cons, List.headD_cons, if_neg (by simp [hne]), hstep]
    exact hsc

end FrozenHot.Shard
