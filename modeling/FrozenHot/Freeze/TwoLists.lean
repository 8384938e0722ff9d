import FrozenHot.Freeze.Lists

/-! The two linked lists of a shard in its heap.

    `Lists h s F L`: the frozen list holds the items `F` and the main list the items `L`. While
    `construct_ratio` scans there is no frozen list yet, only a pointer from `m_fast_head` into the
    main list; then `s` is that pointer, and `none` otherwise. Each piece of pointer surgery of the
    code has one lemma that says which lists it leaves behind. -/

namespace FrozenHot
open Schemes ListShard

variable {h h' : Heap Ptr NodeData} {F L A B : List Item} {x : Item} {n p : Ptr} {k : ℕ}
variable {s : Option Ptr}

/-- Disjoint lists between different sentinels share no pointer. -/
theorem IsList.disjoint {D : Type} {h h' : Heap Ptr D} {a b c d : Ptr} {L M : List Ptr}
    (hl : IsList h a L b) (hm : IsList h' c M d) (hac : a ≠ c) (had : a ≠ d) (hbc : b ≠ c)
    (hbd : b ≠ d) (hd : L.Disjoint M) : (a :: (L ++ [b])).Disjoint (c :: (M ++ [d])) := by
  intro z h1 h2
  simp only [List.mem_cons, List.mem_append, List.not_mem_nil, or_false] at h1 h2
  rcases h1 with rfl | h1 | rfl
  · rcases h2 with h2 | h2 | h2
    · exact hac h2
    · exact hl.left (hm.node _ h2)
    · exact had h2
  · rcases h2 with rfl | h2 | rfl
    · exact hm.left (hl.node _ h1)
    · exact hd h1 h2
    · exact hm.right (hl.node _ h1)
  · rcases h2 with h2 | h2 | h2
    · exact hbc h2
    · exact hl.right (hm.node _ h2)
    · exact hbd h2

namespace Shard

/-- The key of the node at a pointer. -/
def keyAt (h : Heap Ptr NodeData) (p : Ptr) : Option ℕ := (h.val p).map NodeData.m_key

theorem keyOf_eq (hk : keyAt h p = some k) : keyOf h p = .ok k := by
  obtain ⟨d, hd, rfl⟩ := Option.map_eq_some_iff.mp hk
  simp [keyOf, Heap.getVal_eq hd]

theorem live_of_key (hk : keyAt h p = some k) : h.Live p := by
  obtain ⟨d, hd, -⟩ := Option.map_eq_some_iff.mp hk
  exact Heap.live_of_val hd

/-- What stands between `m_fast_head` and `m_fast_tail`. -/
def Between (h : Heap Ptr NodeData) : Option Ptr → List Item → Prop
  | none, F => IsList h .m_fast_head (F.map Item.node) .m_fast_tail
  | some p, F => F = [] ∧ h.next .m_fast_head = some p ∧ h.Live .m_fast_tail

theorem Between.list (hb : Between h s F) (hx : x ∈ F) :
    s = none ∧ IsList h .m_fast_head (F.map Item.node) .m_fast_tail := by
  cases s with
  | none => exact ⟨rfl, hb⟩
  | some p => rw [hb.1] at hx; cases hx

/-- Surgery on the main list leaves it alone. -/
theorem Between.frame {M : List Ptr} {h'' : Heap Ptr NodeData} (hb : Between h s F)
    (hm : IsList h'' .m_head M .m_tail) (hf : Heap.Frame (.m_head :: M) (M ++ [.m_tail]) h h')
    (hd : (F.map Item.node).Disjoint M) : Between h' s F := by
  cases s with
  | none => exact IsList.frame hb hf (IsList.disjoint hb hm (by simp) (by simp) (by simp)
      (by simp) hd)
  | some p =>
    refine ⟨hb.1, ?_, hf.live.mpr hb.2.2⟩
    rw [hf.next]
    · exact hb.2.1
    · exact fun hc => (List.mem_cons.mp hc).elim (by simp) (fun hc => hm.node _ hc)

theorem Between.put (hb : Between h s F) (hn : n.IsNode) (hoff : n ∉ F.map Item.node)
    (c : Option (Cell Ptr NodeData)) : Between (h.put n c) s F := by
  cases s with
  | none => exact IsList.put hb hn hoff c
  | some p =>
    refine ⟨hb.1, ?_, ?_⟩
    · rw [Heap.next_put, if_neg (hn.ne_of_not id).symm]; exact hb.2.1
    · rw [Heap.live_put, if_neg (hn.ne_of_not id).symm]; exact hb.2.2

theorem Between.bury (hb : Between h s F) (d : NodeData) :
    Between (h.withVal n d) s (bury n F) := by
  cases s with
  | none =>
    have hl : IsList h .m_fast_head (F.map Item.node) .m_fast_tail := hb
    show IsList _ _ _ _
    rw [node_bury]; exact hl.congr (Heap.Linked.withVal hl.seg _)
  | some p =>
    obtain ⟨rfl, h1, h2⟩ := hb
    exact ⟨rfl, by rwa [Heap.next_withVal], by simpa using h2⟩

/-- The frozen and the main list of a heap. -/
structure Lists (h : Heap Ptr NodeData) (s : Option Ptr) (F L : List Item) : Prop where
  frozen : Between h s F
  main : IsList h .m_head (L.map Item.node) .m_tail
  nodup : ((F ++ L).map Item.node).Nodup
  key : ∀ x ∈ F ++ L, keyAt h x.node = some x.key
  head : keyAt h .m_head = some SPECIAL_KEY
  tail : keyAt h .m_tail = some SPECIAL_KEY
  tailNext : h.next .m_tail = some .null

/-- `h'` has the node contents of `h`, and the same `prev` at nodes outside `S`. -/
structure Kept (S : List Ptr) (h h' : Heap Ptr NodeData) : Prop where
  val : ∀ p, h'.val p = h.val p
  prev : ∀ p, p.IsNode → p ∉ S → h'.prev p = h.prev p

theorem Kept.key {S : List Ptr} (hk : Kept S h h') (p : Ptr) : keyAt h' p = keyAt h p := by
  rw [keyAt, keyAt, hk.val]

theorem Kept.live {S : List Ptr} (hk : Kept S h h') : h'.Live p ↔ h.Live p := by
  rw [Heap.live_iff_val, Heap.live_iff_val, hk.val]

theorem kept_of_frame {N Q S : List Ptr} (hf : Heap.Frame N Q h h')
    (hQ : ∀ p ∈ Q, p.IsNode → p ∈ S) :
    Kept S h h' :=
  ⟨hf.val, fun p hp hS => hf.prev p (fun hq => hS (hQ p hq hp))⟩

theorem Lists.disjoint (hl : Lists h s F L) : (F.map Item.node).Disjoint (L.map Item.node) := by
  have := hl.nodup
  rw [List.map_append] at this
  exact (List.nodup_append'.mp this).2.2

theorem Lists.node (hl : Lists h s F L) (hx : x ∈ F ++ L) : x.node.IsNode := by
  rcases List.mem_append.mp hx with hx | hx
  · exact (hl.frozen.list hx).2.node _ (List.mem_map_of_mem hx)
  · exact hl.main.node _ (List.mem_map_of_mem hx)

theorem Lists.isNode (hl : Lists h s F L) (hn : n ∈ (F ++ L).map Item.node) : n.IsNode := by
  obtain ⟨x, hx, rfl⟩ := List.mem_map.mp hn
  exact hl.node hx

theorem Lists.isInList (hl : Lists h s F L) (hn : n ∈ (F ++ L).map Item.node) :
    isInList h n = .ok true := by
  rw [List.map_append, List.mem_append] at hn
  rcases hn with hn | hn
  · obtain ⟨x, hx, rfl⟩ := List.mem_map.mp hn
    exact (hl.frozen.list hx).2.isInList (by simp) hn
  · exact hl.main.isInList (by simp) hn

theorem Lists.detach_main (hl : Lists h s F (A ++ x :: B)) :
    detach x.node F = F ∧ detach x.node (A ++ x :: B) = A ++ B := by
  refine ⟨detach_none (hl.disjoint.symm (by simp)), detach_middle ?_⟩
  have := hl.main.nodup
  rw [List.map_append, List.map_cons] at this
  rw [List.map_append]; exact (List.nodup_middle.mp this).notMem

theorem Lists.detach_frozen (hl : Lists h s (A ++ x :: B) L) :
    detach x.node (A ++ x :: B) = A ++ B ∧ detach x.node L = L := by
  refine ⟨detach_middle ?_, detach_none (hl.disjoint (by simp))⟩
  have := (hl.frozen.list (x := x) (by simp)).2.nodup
  rw [List.map_append, List.map_cons] at this
  rw [List.map_append]; exact (List.nodup_middle.mp this).notMem

/-- `delink` takes a node off the list it is on. -/
theorem Lists.delink (hl : Lists h s F L) (hx : x ∈ F ++ L) :
    ∃ h', delinkChecked h x.node = .ok h' ∧ Lists h' s (detach x.node F) (detach x.node L) ∧
      h'.prev x.node = some .OutOfListMarker ∧ Kept ((F ++ L).map Item.node) h h' := by
  have hkey : ∀ {h'}, (∀ p, h'.val p = h.val p) → ∀ y ∈ detach x.node F ++ detach x.node L,
      keyAt h' y.node = some y.key := by
    intro h' hv y hy
    rw [keyAt, hv]
    rw [detach, detach, ← List.filter_append] at hy
    exact hl.key y (List.mem_filter.mp hy).1
  have hnd : ((detach x.node F ++ detach x.node L).map Item.node).Nodup := by
    rw [detach, detach, ← List.filter_append]
    exact hl.nodup.sublist (List.filter_sublist.map _)
  rcases List.mem_append.mp hx with hx | hx
  · -- on the frozen list
    have hoff : x.node ∉ L.map Item.node := hl.disjoint (List.mem_map_of_mem hx)
    obtain ⟨A, B, rfl⟩ := List.append_of_mem hx
    obtain ⟨rfl, hf⟩ := hl.frozen.list (x := x) (by simp)
    rw [List.map_append, List.map_cons] at hf
    have hmid : x.node ∉ (A ++ B).map Item.node := by
      rw [List.map_append]; exact (List.nodup_middle.mp hf.nodup).notMem
    obtain ⟨h', he, hf', hfr, hprev⟩ := hf.delinkChecked (by simp) (by simp)
    have hdj : (Ptr.m_head :: (L.map Item.node ++ [.m_tail])).Disjoint
        (Ptr.m_fast_head :: (A.map Item.node ++ x.node :: B.map Item.node ++ [.m_fast_tail])) :=
      hl.main.disjoint hf (by simp) (by simp) (by simp) (by simp)
        (by have := hl.disjoint.symm; rwa [List.map_append, List.map_cons] at this)
    refine ⟨h', he, ⟨?_, ?_, hnd, hkey hfr.val, ?_, ?_, ?_⟩, hprev, ?_⟩
    · show IsList _ _ _ _
      rw [detach_middle hmid, List.map_append]; exact hf'
    · rw [detach_none hoff]
      exact hl.main.frame hfr hdj
    · rw [keyAt, hfr.val]; exact hl.head
    · rw [keyAt, hfr.val]; exact hl.tail
    · rw [hfr.next _ (fun hc => @hdj .m_tail (by simp) (by simp at hc ⊢; tauto))]; exact hl.tailNext
    · refine kept_of_frame hfr (fun p hp hpn => ?_)
      simp only [List.mem_append, List.mem_cons, List.not_mem_nil, or_false] at hp
      have : p ≠ .m_fast_tail := hpn.ne_of_not id
      simp only [List.map_append, List.map_cons, List.mem_append, List.mem_cons]; tauto
  · -- on the main list
    have hoff : x.node ∉ F.map Item.node := hl.disjoint.symm (List.mem_map_of_mem hx)
    obtain ⟨A, B, rfl⟩ := List.append_of_mem hx
    have hm := hl.main
    rw [List.map_append, List.map_cons] at hm
    have hmid : x.node ∉ (A ++ B).map Item.node := by
      rw [List.map_append]; exact (List.nodup_middle.mp hm.nodup).notMem
    obtain ⟨h', he, hm', hfr, hprev⟩ := hm.delinkChecked (by simp) (by simp)
    refine ⟨h', he, ⟨?_, ?_, hnd, hkey hfr.val, ?_, ?_, ?_⟩, hprev, ?_⟩
    · rw [detach_none hoff]
      exact hl.frozen.frame hm hfr
        (by have := hl.disjoint; rwa [List.map_append, List.map_cons] at this)
    · rw [detach_middle hmid, List.map_append]; exact hm'
    · rw [keyAt, hfr.val]; exact hl.head
    · rw [keyAt, hfr.val]; exact hl.tail
    · have : Ptr.m_tail ∉ Ptr.m_head :: (A.map Item.node ++ x.node :: B.map Item.node) :=
        fun hc => (List.mem_cons.mp hc).elim (by simp) (fun hc => hm.right (hm.node _ hc))
      rw [hfr.next _ this]; exact hl.tailNext
    · refine kept_of_frame hfr (fun p hp hpn => ?_)
      simp only [List.mem_append, List.mem_cons, List.not_mem_nil, or_false] at hp
      have : p ≠ .m_tail := hpn.ne_of_not id
      simp only [List.map_append, List.map_cons, List.mem_append, List.mem_cons]; tauto

/-- Linking a node off the lists into the main list. -/
theorem Lists.linkIn (hl : Lists h s F (A ++ B)) (hk : keyAt h n = some k) (hn : n.IsNode)
    (hoff : n ∉ (F ++ (A ++ B)).map Item.node)
    (hm : IsList h' .m_head (A.map Item.node ++ n :: B.map Item.node) .m_tail)
    (hfr : Heap.Frame (.m_head :: (A.map Item.node ++ n :: B.map Item.node))
      (A.map Item.node ++ n :: B.map Item.node ++ [.m_tail]) h h') :
    Lists h' s F (A ++ ⟨n, k⟩ :: B) ∧ Kept (n :: (F ++ (A ++ B)).map Item.node) h h' := by
  have hoff' := hoff
  rw [List.map_append, List.mem_append, not_or] at hoff'
  have hmem : ∀ z, z ∈ A.map Item.node ++ n :: B.map Item.node ↔ z = n ∨
      z ∈ (A ++ B).map Item.node := by
    intro z
    rw [List.perm_middle.mem_iff, List.mem_cons, List.map_append]
  have hdF : (F.map Item.node).Disjoint (A.map Item.node ++ n :: B.map Item.node) := by
    intro z h1 h2
    rcases (hmem z).mp h2 with rfl | h2
    · exact hoff'.1 h1
    · exact hl.disjoint h1 h2
  have hperm : (F ++ (A ++ ⟨n, k⟩ :: B)).Perm (⟨n, k⟩ :: (F ++ (A ++ B))) :=
    (List.Perm.append_left F List.perm_middle).trans List.perm_middle
  refine ⟨⟨hl.frozen.frame hm hfr hdF, by rw [List.map_append, List.map_cons]; exact hm, ?_, ?_, ?_,
    ?_, ?_⟩, ?_⟩
  · rw [(hperm.map Item.node).nodup_iff, List.map_cons]
    exact List.nodup_cons.mpr ⟨hoff, hl.nodup⟩
  · intro y hy
    rw [keyAt, hfr.val]
    rcases List.mem_cons.mp (hperm.mem_iff.mp hy) with rfl | hy
    · exact hk
    · exact hl.key y hy
  · rw [keyAt, hfr.val]; exact hl.head
  · rw [keyAt, hfr.val]; exact hl.tail
  · have : Ptr.m_tail ∉ Ptr.m_head :: (A.map Item.node ++ n :: B.map Item.node) := by
      rw [List.mem_cons, hmem, not_or, not_or]
      exact ⟨by simp, (hn.ne_of_not id).symm, hl.main.right_notMem⟩
    rw [hfr.next _ this]; exact hl.tailNext
  · refine kept_of_frame hfr (fun q hq hqn => ?_)
    have hne : q ≠ .m_tail := hqn.ne_of_not id
    rcases List.mem_append.mp hq with hq | hq
    · rw [List.mem_cons, List.map_append, List.mem_append]
      rcases (hmem q).mp hq with rfl | hq
      · exact Or.inl rfl
      · exact Or.inr (Or.inr hq)
    · exact absurd (List.mem_singleton.mp hq) hne

/-- `pushFront` puts a node off the lists at the head of the main list. -/
theorem Lists.pushFront (hl : Lists h s F L) (hk : keyAt h n = some k) (hn : n.IsNode)
    (hoff : n ∉ (F ++ L).map Item.node) :
    ∃ h', pushFront h n = .ok h' ∧ Lists h' s F (⟨n, k⟩ :: L) ∧
      Kept (n :: (F ++ L).map Item.node) h h' := by
  have hoff' := hoff
  rw [List.map_append, List.mem_append, not_or] at hoff'
  obtain ⟨h', he, hm', hfr⟩ := hl.main.pushFront (live_of_key hk) hn hoff'.2
  exact ⟨h', he, Lists.linkIn (A := []) hl hk hn hoff hm' hfr⟩

/-- `pushAfter` puts a node off the lists behind a node of the main list. -/
theorem Lists.pushAfter (hl : Lists h s F (A ++ x :: B)) (hk : keyAt h n = some k) (hn : n.IsNode)
    (hoff : n ∉ (F ++ (A ++ x :: B)).map Item.node) :
    ∃ h', pushAfter h x.node n = .ok h' ∧ Lists h' s F (A ++ x :: ⟨n, k⟩ :: B) ∧
      Kept (n :: (F ++ (A ++ x :: B)).map Item.node) h h' := by
  have hoff' := hoff
  rw [List.map_append, List.mem_append, not_or] at hoff'
  have hm := hl.main
  rw [List.map_append, List.map_cons] at hm hoff'
  obtain ⟨h', he, hm', hfr⟩ := hm.pushAfter (live_of_key hk) hn hoff'.2
  have hsplit : A ++ x :: B = A ++ [x] ++ B := by simp
  rw [hsplit] at hl hoff
  have hm₁ : IsList h' .m_head ((A ++ [x]).map Item.node ++ n :: B.map Item.node) .m_tail := by
    simpa using hm'
  have := hl.linkIn hk hn hoff hm₁ (by simpa using hfr)
  exact ⟨h', he, by simpa using this⟩

/-- Allocating or releasing a node off the lists leaves the lists alone. -/
theorem Lists.put (hl : Lists h s F L) (hn : n.IsNode) (hoff : n ∉ (F ++ L).map Item.node)
    (c : Option (Cell Ptr NodeData)) : Lists (h.put n c) s F L := by
  have hoff' := hoff
  rw [List.map_append, List.mem_append, not_or] at hoff'
  have hne : ∀ {p : Ptr}, ¬ p.IsNode → p ≠ n := fun hp => (hn.ne_of_not hp).symm
  refine ⟨hl.frozen.put hn hoff'.1 c, hl.main.put hn hoff'.2 c, hl.nodup, ?_, ?_, ?_, ?_⟩
  · intro y hy
    rw [keyAt, Heap.val_put, if_neg]
    · exact hl.key y hy
    · rintro rfl; exact hoff (List.mem_map_of_mem hy)
  · rw [keyAt, Heap.val_put, if_neg (hne id)]; exact hl.head
  · rw [keyAt, Heap.val_put, if_neg (hne id)]; exact hl.tail
  · rw [Heap.next_put, if_neg (hne id)]; exact hl.tailNext

/-- Writing `TOMB_KEY` to a node turns its item into a tombstone. -/
theorem Lists.bury (hl : Lists h s F L) (hn : n.IsNode) (hlive : h.Live n) (t : ℕ) :
    Lists (h.withVal n ⟨TOMB_KEY, t⟩) s (bury n F) (bury n L) := by
  have hne : ∀ {p : Ptr}, ¬ p.IsNode → p ≠ n := fun hp => (hn.ne_of_not hp).symm
  refine ⟨hl.frozen.bury _, ?_, ?_, ?_, ?_, ?_, ?_⟩
  · rw [node_bury]; exact hl.main.congr (Heap.Linked.withVal hl.main.seg _)
  · rw [List.map_append, node_bury, node_bury, ← List.map_append]; exact hl.nodup
  · intro y hy
    rw [ListShard.bury, ListShard.bury, ← List.map_append] at hy
    obtain ⟨z, hz, rfl⟩ := List.mem_map.mp hy
    by_cases hzn : z.node = n
    · simp [keyAt, Heap.val_withVal hlive, hzn]
    · simp only [if_neg hzn, keyAt, Heap.val_withVal hlive]
      exact hl.key z hz
  · rw [keyAt, Heap.val_withVal hlive, if_neg (hne id)]; exact hl.head
  · rw [keyAt, Heap.val_withVal hlive, if_neg (hne id)]; exact hl.tail
  · rw [Heap.next_withVal]; exact hl.tailNext

end Shard
end FrozenHot
