import FrozenHot.Freeze.TwoLists

/-! The splices of `construct_tier`, `construct_ratio` and `deconstruct`.

    Each is a handful of pointer writes; what is shown of it is which neighbours it makes and that
    it touches nothing else, and the lists follow by carving and grafting. -/

namespace FrozenHot.Shard
open Schemes ListShard

section Pointers
variable {D : Type} {h h' : Heap Ptr D} {N M A B C : List Ptr} {n : Ptr}

theorem isNode_iff : n.IsNode ↔ ∃ i, n = .node i := by cases n <;> simp [Ptr.IsNode]

/-- The ends of a non-empty list are nodes. -/
theorem ends_node (hn : ∀ p ∈ N, p.IsNode) (hN : N ≠ []) : ∃ i j, (∀ b, N.headD b = .node i) ∧
    (∀ a, N.getLastD a = .node j) ∧ .node i ∈ N ∧ .node j ∈ N := by
  obtain ⟨x, M, rfl⟩ := List.exists_cons_of_ne_nil hN
  have hl : M.getLastD x ∈ x :: M := List.getLastD_mem_cons (l := M) (a := x)
  obtain ⟨i, hi⟩ := isNode_iff.mp (hn x (by simp))
  obtain ⟨j, hj⟩ := isNode_iff.mp (hn _ hl)
  exact ⟨i, j, fun _ => hi, fun _ => List.getLastD_cons.trans hj, by simp [hi], hj ▸ hl⟩

theorem assertThawed_ok (hf : IsList h .m_fast_head [] .m_fast_tail) : assertThawed h = .ok () := by
  have h1 := hf.seg.next_first
  have h2 := hf.seg.prev_last
  simp only [List.headD_nil, List.getLastD_nil] at h1 h2
  simp [assertThawed, Heap.getNext_eq h1, Heap.getPrev_eq h2, assert]

/-- The assertion fails on a frozen shard. -/
theorem assertThawed_fails (hf : IsList h .m_fast_head N .m_fast_tail) (hN : N ≠ []) :
    assertThawed h = .error .assertion := by
  obtain ⟨i, j, hi, -, -, -⟩ := ends_node hf.node hN
  have h1 := hf.seg.next_first
  rw [hi] at h1
  simp [assertThawed, Heap.getNext_eq h1, assert]

/-- Moving the nodes `C` out of the main list to an empty frozen list. -/
theorem carve {i j : ℕ} {p q : Ptr} (hm : IsList h .m_head (A ++ C ++ B) .m_tail)
    (hi : C.headD .m_fast_tail = .node i) (hj : C.getLastD .m_fast_head = .node j)
    (hiC : .node i ∈ C) (hjC : .node j ∈ C) (hp : A.getLastD .m_head = p) (hq : B.headD .m_tail = q)
    (hn' : ∀ x, h'.next x = if x = p then some q else if x = .node j then some .m_fast_tail
      else if x = .m_fast_head then some (.node i) else h.next x)
    (hp' : ∀ x, h'.prev x = if x = q then some p else if x = .m_fast_tail then some (.node j)
      else if x = .node i then some .m_fast_head else h.prev x) :
    IsList h' .m_fast_head C .m_fast_tail ∧ IsList h' .m_head (A ++ B) .m_tail := by
  have hpA : p ∈ Ptr.m_head :: A := hp ▸ List.getLastD_mem_cons (l := _) (a := _)
  have hqB : q ∈ B ++ [Ptr.m_tail] := hq ▸ headD_mem _ _
  have hnode : ∀ x ∈ A ++ C ++ B, x.IsNode := hm.node
  have hsent : ∀ {x : Ptr}, ¬ x.IsNode → x ∉ A ++ C ++ B := fun hx hc => hx (hnode _ hc)
  have hd : ((Ptr.m_head :: A) ++ (C ++ (B ++ [Ptr.m_tail]))).Nodup := by
    have :=
      List.nodup_cons.mpr
        ⟨(by simpa using hsent (x := .m_head) id : Ptr.m_head ∉ A ++ C ++ B ++ [.m_tail]),
      hm.nodup_right⟩
    simpa using this
  obtain ⟨-, hdCB, hdA⟩ := List.nodup_append'.mp hd
  obtain ⟨-, -, hdC⟩ := List.nodup_append'.mp hdCB
  have h1 := hsent (x := .m_fast_head) id
  have h2 := hsent (x := .m_fast_tail) id
  simp only [List.mem_append, not_or] at h1 h2
  -- the pointers involved are pairwise different where it matters
  have e1 : Ptr.m_fast_head ≠ p := by rintro rfl; simp at hpA; exact h1.1.1 hpA
  have e2 : Ptr.node i ≠ q := by rintro rfl; exact hdC hiC hqB
  have e3 : Ptr.node j ≠ p := by rintro rfl; exact hdA hpA (List.mem_append_left _ hjC)
  have e4 : Ptr.m_fast_tail ≠ q := by rintro rfl; simp at hqB; exact h2.2 hqB
  obtain ⟨hC', hM'⟩ : h'.Seg .m_fast_head C .m_fast_tail ∧ h'.Seg .m_head (A ++ B) .m_tail := by
    refine hm.seg.carve hd h1.1.2 ?_ h2.1.2 ?_ ?_ ?_ ?_ ?_ ?_
    · simp only [List.mem_cons, List.mem_append, not_or]; exact ⟨by simp, h1.1.1, h1.2⟩
    · simp only [List.mem_append, List.mem_singleton, not_or]; exact ⟨⟨h2.1.1, h2.2⟩, by simp⟩
    · exact ⟨by rw [hn', if_neg e1, hi]; simp, by rw [hi, hp', if_neg e2]; simp⟩
    · exact ⟨by rw [hj, hn', if_neg e3]; simp, by rw [hp', if_neg e4, hj]; simp⟩
    · exact ⟨by rw [hp, hq, hn', if_pos rfl], by rw [hp, hq, hp', if_pos rfl]⟩
    · intro x x1 x2 x3
      rw [hj] at x2; rw [hp] at x3; rw [hn', if_neg x3, if_neg x2, if_neg x1]
    · intro x x1 x2 x3
      rw [hi] at x2; rw [hq] at x3; rw [hp', if_neg x3, if_neg x1, if_neg x2]
  have hdn := hm.nodup
  refine ⟨⟨hC', ?_, fun x hx => hnode x (by simp [hx]), id, id⟩,
    ⟨hM', ?_, fun x hx => hnode x (by simp at hx ⊢; tauto), id, id⟩⟩
  · exact (List.nodup_append.mp (List.nodup_append.mp hdn).1).2.1
  · rw [List.append_assoc] at hdn
    exact hdn.sublist (List.Sublist.append_left (List.sublist_append_right _ _) _)

/-- The pointers at the seams of a main list whose part `C` the scan has copied. -/
structure Seams (h : Heap Ptr D) (A C B : List Ptr) (p q : Ptr) (i j : ℕ) : Prop where
  first_eq : C.headD .m_fast_tail = .node i
  last_eq : C.getLastD .m_fast_head = .node j
  mem_first : .node i ∈ C
  mem_last : .node j ∈ C
  before : A.getLastD .m_head = p
  after : B.headD .m_tail = q
  live_before : h.Live p
  live_after : h.Live q
  prev_first : h.prev (.node i) = some p
  prev_after : h.prev q = some (.node j)
  after_ne : q ≠ .m_fast_tail
  before_ne : p ≠ .m_fast_head

theorem seams (hm : IsList h .m_head (A ++ C ++ B) .m_tail) (hC : C ≠ []) :
    ∃ p q i j, Seams h A C B p q i j := by
  obtain ⟨i, j, hi, hj, hiC, hjC⟩ := ends_node (fun p hp => hm.node p (by simp [hp])) hC
  have h1 : h.Link (A.getLastD .m_head) ((C ++ B).headD .m_tail) :=
    Heap.Seg.link_of_append (by simpa using hm.seg)
  have h2 := hm.seg.link_of_append
  obtain ⟨x, D, rfl⟩ := List.exists_cons_of_ne_nil hC
  rw [getLastD_append] at h2
  have hlast : (x :: D).getLastD (A.getLastD .m_head) = .node j := hj _
  have hfirst : (x :: D ++ B).headD .m_tail = .node i := hi .m_tail
  rw [hfirst] at h1
  rw [hlast] at h2
  refine ⟨_, _, i, j, hi _, hj _, hiC, hjC, rfl, rfl, Heap.live_of_next h1.1,
    Heap.live_of_prev h2.2, h1.2, h2.2, hm.first_ne (by simp) id, ?_⟩
  exact IsList.last_ne (A := A) (B := x :: D ++ B) (by simpa using hm) (by simp) id

/-- The splice of `construct_tier`, on the pointers. -/
theorem spliceAll_spec (hm : IsList h .m_head N .m_tail)
    (hf : IsList h .m_fast_head [] .m_fast_tail) :
    ∃ h', spliceAll h = .ok h' ∧ IsList h' .m_fast_head N .m_fast_tail ∧
      IsList h' .m_head [] .m_tail ∧
      Heap.Frame (.m_head :: .m_fast_head :: N) (.m_tail :: .m_fast_tail :: N) h h' := by
  have hFH := hf.live_left
  have hFT := hf.live_right
  have hMH := hm.live_left
  have hMT := hm.live_right
  have hnext := hm.seg.next_first
  have hprev := hm.seg.prev_last
  by_cases hN : N = []
  · subst hN
    have hn0 := hf.seg.next_first
    have hp0 := hf.seg.prev_last
    obtain ⟨h', he, hn', hp', hv'⟩ : ∃ h', spliceAll h = .ok h' ∧
        (∀ x, h'.next x = if x = .m_head then some .m_tail else if x = .m_fast_head then
          some .m_fast_tail else h.next x) ∧
        (∀ x, h'.prev x = if x = .m_tail then some .m_head else if x = .m_fast_tail then
          some .m_fast_head else h.prev x) ∧ (∀ x, h'.val x = h.val x) := by
      simp [spliceAll, Heap.getNext_def, Heap.getPrev_def, Heap.setNext_eq, Heap.setPrev_eq,
        Heap.next_withNext, Heap.prev_withPrev, hnext, hFH, hFT, hMH, hMT]
      exact ⟨fun x => by split_ifs <;> rfl, fun x => by split_ifs <;> rfl⟩
    obtain rfl : h' = h := Heap.eq_of_same_links hnext hn0 hprev hp0 hn' hp' hv'
    exact ⟨_, he, hf, hm, ⟨fun _ => rfl, fun _ _ => rfl, fun _ _ => rfl⟩⟩
  · obtain ⟨i, j, hi, hj, hiN, hjN⟩ := ends_node hm.node hN
    have hil := hm.live hiN
    have hjl := hm.live hjN
    rw [hi] at hnext
    rw [hj] at hprev
    obtain ⟨h', he, hn', hp', hv'⟩ : ∃ h', spliceAll h = .ok h' ∧
        (∀ x, h'.next x = if x = .m_head then some .m_tail else if x = .node j then
          some .m_fast_tail
          else if x = .m_fast_head then some (.node i) else h.next x) ∧
        (∀ x, h'.prev x = if x = .m_tail then some .m_head else if x = .m_fast_tail then
          some (.node j)
          else if x = .node i then some .m_fast_head else h.prev x) ∧
          (∀ x, h'.val x = h.val x) := by
      simp [spliceAll, Heap.getNext_def, Heap.getPrev_def, Heap.setNext_eq, Heap.setPrev_eq,
        Heap.next_withNext, Heap.prev_withPrev, hnext, hprev, hFH, hFT, hMH, hMT, hil, hjl]
    obtain ⟨hF', hM'⟩ := carve (A := []) (B := []) (C := N) (by simpa using hm) (hi _) (hj _)
      hiN hjN rfl rfl
      hn' hp'
    refine ⟨h', he, hF', hM', ⟨hv', fun x hx => ?_, fun x hx => ?_⟩⟩
    · simp only [List.mem_cons, not_or] at hx
      rw [hn', if_neg hx.1, if_neg (fun e : x = .node j => hx.2.2 (e ▸ hjN)), if_neg hx.2.1]
    · simp only [List.mem_cons, not_or] at hx
      rw [hp', if_neg hx.1, if_neg hx.2.1, if_neg (fun e : x = .node i => hx.2.2 (e ▸ hiN))]

/-- The splice of `deconstruct`, on the pointers. -/
theorem thawSplice_spec (hf : IsList h .m_fast_head N .m_fast_tail)
    (hm : IsList h .m_head M .m_tail) (hd : N.Disjoint M) (hne : N ≠ []) :
    ∃ h', thawSplice h = .ok h' ∧ IsList h' .m_fast_head [] .m_fast_tail ∧
      IsList h' .m_head (N ++ M) .m_tail ∧
      Heap.Frame (.m_head :: .m_fast_head :: N) (M.headD .m_tail :: .m_fast_tail :: N) h h' := by
  have hFH := hf.live_left
  have hFT := hf.live_right
  have hMH := hm.live_left
  obtain ⟨i, j, hi, hj, hiN, hjN⟩ := ends_node hf.node hne
  have hfn := hf.seg.next_first
  have hfp := hf.seg.prev_last
  have hmn := hm.seg.next_first
  have hil := hf.live hiN
  have hjl := hf.live hjN
  have hql : h.Live (M.headD .m_tail) := Heap.Seg.live_headD (A := []) hm.seg
  rw [hi] at hfn
  rw [hj] at hfp
  have hqi : M.headD .m_tail ≠ .node i := by
    have hiM : Ptr.node i ∉ M := fun hc => hd hiN hc
    exact (ne_headD (by simpa using hiM)).symm
  have hqt : M.headD .m_tail ≠ .m_fast_tail := IsList.first_ne (A := []) hm (by decide) id
  generalize hq : M.headD .m_tail = q at *
  obtain ⟨h', he, hn', hp', hv'⟩ : ∃ h', thawSplice h = .ok h' ∧
      (∀ x, h'.next x = if x = .m_fast_head then some .m_fast_tail else if x = .m_head then
        some (.node i)
        else if x = .node j then some q else h.next x) ∧
      (∀ x, h'.prev x = if x = .m_fast_tail then some .m_fast_head else if x = q then some (.node j)
        else if x = .node i then some .m_head else h.prev x) ∧ (∀ x, h'.val x = h.val x) := by
    simp [thawSplice, Heap.getNext_def, Heap.getPrev_def, Heap.setNext_eq, Heap.setPrev_eq,
      Heap.next_withNext, Heap.prev_withPrev, hfn, hfp, hmn, hFH, hFT, hMH, hil, hjl, hql]
  have hnode : ∀ x ∈ N ++ M, x.IsNode :=
    fun x hx => (List.mem_append.mp hx).elim (hf.node x) (hm.node x)
  have hsent : ∀ {x : Ptr}, ¬ x.IsNode → x ∉ N ++ M := fun hx hc => hx (hnode _ hc)
  have hdn : (N ++ M).Nodup := List.nodup_append'.mpr ⟨hf.nodup, hm.nodup, hd⟩
  have hdj : (N ++ (M ++ [Ptr.m_tail])).Nodup := by
    rw [← List.append_assoc]
    exact List.nodup_append.mpr ⟨hdn, by simp, fun x hx y hy => by
      rw [List.mem_singleton.mp hy]; exact (hnode x hx).ne_of_not id⟩
  have hseg : h'.Seg .m_head (N ++ M) .m_tail := by
    refine Heap.Seg.graft hf.seg hm.seg hne hdj (hsent id) (hsent id) ?_ ⟨?_, ?_⟩ ⟨?_, ?_⟩ ?_ ?_
    · rw [← List.append_assoc, List.mem_append, not_or]; exact ⟨hsent id, by simp⟩
    · rw [hi, hn']; simp
    · rw [hi, hp', if_neg (by simp), if_neg (Ne.symm hqi), if_pos rfl]
    · rw [hj, hq, hn']; simp
    · rw [hj, hq, hp', if_neg hqt, if_pos rfl]
    · intro x x1 x2 x3
      rw [hj] at x2
      rw [hn', if_neg x3, if_neg x1, if_neg x2]
    · intro x x1 x2 x3
      rw [hi] at x1; rw [hq] at x2
      rw [hp', if_neg x3, if_neg x2, if_neg x1]
  refine ⟨h', he, ⟨?_, by simp, by simp, id, id⟩, ⟨hseg, hdn, hnode, id, id⟩, hv', fun x hx => ?_,
    fun x hx => ?_⟩
  · exact List.isChain_pair.mpr ⟨by rw [hn']; simp, by rw [hp']; simp⟩
  · simp only [List.mem_cons, not_or] at hx
    rw [hn', if_neg hx.2.1, if_neg hx.1, if_neg (fun e : x = .node j => hx.2.2 (e ▸ hjN))]
  · simp only [List.mem_cons, not_or] at hx
    rw [hp', if_neg hx.2.1, if_neg hx.1, if_neg (fun e : x = .node i => hx.2.2 (e ▸ hiN))]

end Pointers

variable {h h' : Heap Ptr NodeData} {F L F' L' : List Item} {N A B C Q : List Ptr} {n p : Ptr}
    {s : Option Ptr}

/-- Lists that a splice made of the items of `F` and `L`. -/
theorem Lists.respliced (F' L' : List Item) (hl : Lists h s F L)
    (hF : IsList h' .m_fast_head (F'.map Item.node) .m_fast_tail)
    (hL : IsList h' .m_head (L'.map Item.node) .m_tail) (hp : (F' ++ L').Perm (F ++ L))
    (hfr : Heap.Frame N Q h h') (hN : .m_tail ∉ N)
    (hQ : ∀ p ∈ Q, p.IsNode → p ∈ (F ++ L).map Item.node) :
    Lists h' none F' L' ∧ Kept ((F ++ L).map Item.node) h h' := by
  refine ⟨⟨hF, hL, (hp.map Item.node).nodup_iff.mpr hl.nodup, ?_, ?_, ?_, ?_⟩, kept_of_frame hfr hQ⟩
  · intro x hx
    rw [keyAt, hfr.val]; exact hl.key x (hp.mem_iff.mp hx)
  · rw [keyAt, hfr.val]; exact hl.head
  · rw [keyAt, hfr.val]; exact hl.tail
  · rw [hfr.next _ hN]; exact hl.tailNext

/-- Lists after a cut that makes `C` the frozen list. -/
theorem Lists.cut {C A B : List Item} {p q : Ptr} {i j : ℕ} (hl : Lists h s [] (A ++ C ++ B))
    (hs : Seams h (A.map Item.node) (C.map Item.node) (B.map Item.node) p q i j)
    (hn' : ∀ x, h'.next x = if x = p then some q else if x = .node j then some .m_fast_tail
      else if x = .m_fast_head then some (.node i) else h.next x)
    (hp' : ∀ x, h'.prev x = if x = q then some p else if x = .m_fast_tail then some (.node j)
      else if x = .node i then some .m_fast_head else h.prev x) (hv' : ∀ x, h'.val x = h.val x) :
    Lists h' none C (A ++ B) ∧ Kept ((A ++ C ++ B).map Item.node) h h' := by
  have hm := hl.main
  have hm' := hm
  rw [List.map_append, List.map_append] at hm
  obtain ⟨hF, hM⟩ := carve hm hs.first_eq hs.last_eq hs.mem_first hs.mem_last hs.before
    hs.after hn' hp'
  have hp := List.getLastD_mem_cons (l := (A.map Item.node)) (a := .m_head)
  have hq := headD_mem (B.map Item.node) .m_tail
  rw [hs.before] at hp
  rw [hs.after] at hq
  have hfr : Heap.Frame (p :: .m_fast_head :: C.map Item.node)
      (q :: .m_fast_tail :: C.map Item.node) h h' := by
    refine ⟨hv', fun x hx => ?_, fun x hx => ?_⟩ <;> simp only [List.mem_cons, not_or] at hx
    · rw [hn', if_neg hx.1, if_neg (fun e : x = .node j => hx.2.2 (e ▸ hs.mem_last)), if_neg hx.2.1]
    · rw [hp', if_neg hx.1, if_neg hx.2.1,
        if_neg (fun e : x = .node i => hx.2.2 (e ▸ hs.mem_first))]
  refine hl.respliced C (A ++ B) hF (by rwa [List.map_append]) ?_ hfr ?_ ?_
  · rw [List.nil_append, List.append_assoc]
    exact (List.perm_append_comm_assoc C A B)
  · have h1 : Ptr.m_tail ∉ A.map Item.node ++ C.map Item.node ++ B.map Item.node :=
      fun hc => hm.node _ hc
    simp only [List.mem_append, not_or] at h1
    simp only [List.mem_cons, not_or]
    refine ⟨?_, by simp, h1.1.2⟩
    rintro rfl
    simp only [List.mem_cons, reduceCtorEq, false_or] at hp
    exact h1.1.1 hp
  · intro x hx hxn
    have h1 : x ≠ .m_tail := hxn.ne_of_not id
    have h2 : x ≠ .m_fast_tail := hxn.ne_of_not id
    simp only [List.mem_cons, h2, false_or] at hx
    simp only [List.nil_append, List.map_append, List.mem_append]
    rcases hx with rfl | hx
    · exact Or.inr (by simpa [h1] using hq)
    · exact Or.inl (Or.inr hx)

/-- The cut by count: the frozen list is what was copied. -/
theorem Lists.cutCount {C A B : List Item} (hC : C ≠ [])
    (hl : Lists h (some ((C.map Item.node).headD .m_fast_tail)) [] (A ++ C ++ B)) :
    ∃ h', Shard.cutCount h ((B.map Item.node).headD .m_tail) = .ok h' ∧ Lists h' none C (A ++ B) ∧
      Kept ((A ++ C ++ B).map Item.node) h h' := by
  have hm := hl.main
  rw [List.map_append, List.map_append] at hm
  obtain ⟨p, q, i, j, hs⟩ := seams hm (by simpa using hC)
  obtain ⟨-, hFn, hFT⟩ := hl.frozen
  rw [hs.first_eq] at hFn
  have hil := hm.live (List.mem_append_left _ (List.mem_append_right _ hs.mem_first))
  have hjl := hm.live (List.mem_append_left _ (List.mem_append_right _ hs.mem_last))
  obtain ⟨h', he, hn', hp', hv'⟩ : ∃ h', Shard.cutCount h q = .ok h' ∧
      (∀ x, h'.next x = if x = p then some q else if x = .node j then some .m_fast_tail
        else if x = .m_fast_head then some (.node i) else h.next x) ∧
      (∀ x, h'.prev x = if x = q then some p else if x = .m_fast_tail then some (.node j)
        else if x = .node i then some .m_fast_head else h.prev x) ∧ (∀ x, h'.val x = h.val x) := by
    simp [Shard.cutCount, Heap.getNext_def, Heap.getPrev_def, Heap.setNext_eq, Heap.setPrev_eq,
      Heap.next_withNext, Heap.prev_withPrev, hFn, hFT, hil, hjl, hs.live_before, hs.live_after,
      hs.after_ne, hs.prev_first, hs.prev_after]
    exact ⟨fun x => by split_ifs <;> simp_all, fun x => by split_ifs <;> simp_all⟩
  exact ⟨h', hs.after ▸ he, hl.cut hs hn' hp' hv'⟩

/-- The cut by evictions: the frozen list takes everything from the first copied node on. -/
theorem Lists.cutEvictions {C A : List Item} (hC : C ≠ [])
    (hl : Lists h (some ((C.map Item.node).headD .m_fast_tail)) [] (A ++ C)) :
    ∃ h', Shard.cutEvictions h = .ok h' ∧ Lists h' none C A ∧
    Kept ((A ++ C).map Item.node) h h' := by
  have hl' : Lists h (some ((C.map Item.node).headD .m_fast_tail)) [] (A ++ C ++ []) := by
    simpa using hl
  have hm := hl'.main
  rw [List.map_append, List.map_append] at hm
  obtain ⟨p, q, i, j, hs⟩ := seams hm (by simpa using hC)
  obtain rfl : Ptr.m_tail = q := hs.after
  obtain ⟨-, hFn, hFT⟩ := hl.frozen
  rw [hs.first_eq] at hFn
  have hil := hm.live (List.mem_append_left _ (List.mem_append_right _ hs.mem_first))
  have hjl := hm.live (List.mem_append_left _ (List.mem_append_right _ hs.mem_last))
  obtain ⟨h', he, hn', hp', hv'⟩ : ∃ h', Shard.cutEvictions h = .ok h' ∧
      (∀ x, h'.next x = if x = p then some .m_tail else if x = .node j then some .m_fast_tail
        else if x = .m_fast_head then some (.node i) else h.next x) ∧
      (∀ x, h'.prev x = if x = .m_tail then some p else if x = .m_fast_tail then some (.node j)
        else if x = .node i then some .m_fast_head else h.prev x) ∧ (∀ x, h'.val x = h.val x) := by
    simp [Shard.cutEvictions, Heap.getNext_def, Heap.getPrev_def, Heap.setNext_eq, Heap.setPrev_eq,
      Heap.next_withNext, Heap.prev_withPrev, hFn, hFT, hil, hjl, hs.live_before, hs.live_after,
      hs.prev_first, hs.prev_after]
    exact ⟨fun x => by split_ifs <;> simp_all, fun x => by split_ifs <;> simp_all⟩
  have := hl'.cut hs hn' hp' hv'
  simp only [List.append_nil] at this
  exact ⟨h', he, this⟩

/-- The main list becomes the frozen list. -/
theorem Lists.freezeAll (hl : Lists h none [] L) :
    ∃ h', spliceAll h = .ok h' ∧ Lists h' none L [] ∧ Kept (L.map Item.node) h h' := by
  obtain ⟨h', he, hF, hM, hfr⟩ := spliceAll_spec hl.main hl.frozen
  have hMT := hl.main.right_notMem
  refine ⟨h', he, ?_⟩
  have := hl.respliced L [] hF hM (by simp) hfr (by simpa using hMT) ?_
  · simpa using this
  · intro p hp hpn
    have h1 : p ≠ .m_tail := hpn.ne_of_not id
    have h2 : p ≠ .m_fast_tail := hpn.ne_of_not id
    simp only [List.mem_cons] at hp
    simpa [h1, h2] using hp

/-- The frozen list goes in front of the main list. -/
theorem Lists.thaw (hl : Lists h none F L) (hne : F ≠ []) :
    ∃ h', thawSplice h = .ok h' ∧ Lists h' none [] (F ++ L) ∧
    Kept ((F ++ L).map Item.node) h h' := by
  have hfroz : IsList h .m_fast_head (F.map Item.node) .m_fast_tail := hl.frozen
  obtain ⟨h', he, hF', hM', hfr⟩ := thawSplice_spec hfroz hl.main hl.disjoint (by simpa using hne)
  have hqm := headD_mem (L.map Item.node) .m_tail
  refine ⟨h', he, hl.respliced [] (F ++ L) hF' (by rwa [List.map_append]) (by simp) hfr ?_ ?_⟩
  · have := hfroz.node .m_tail
    simpa [Ptr.IsNode] using this
  · intro p hp hpn
    have h1 : p ≠ .m_fast_tail := hpn.ne_of_not id
    rw [List.map_append, List.mem_append]
    simp only [List.mem_cons] at hp
    rcases hp with rfl | rfl | hp
    · rcases List.mem_append.mp hqm with h2 | h2
      · exact Or.inr h2
      · rw [List.mem_singleton.mp h2] at hpn; exact hpn.elim
    · exact (h1 rfl).elim
    · exact Or.inl hp

end FrozenHot.Shard
