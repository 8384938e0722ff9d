import FrozenHot.Freeze.LFUShard
import FrozenHot.Freeze.Splice
import FrozenHot.Cache.LFUOrder

/-! Freezing and thawing an LFU shard, seen as lists of classes.

    `construct_tier` moves all classes of the main list to the frozen list and `construct_ratio` the
    first ones, each copying their keys to the fast hash; `deconstruct` gives the frozen classes new
    frequencies and puts them in front. No class gains, loses or reorders a key. -/

namespace FrozenHot
open Schemes

variable {α : Type}

/-! ### The class lists -/

section ClassLists
variable {h h' : Heap Ptr ℤ} {F L F' L' : List FreClass} {N M : List Ptr}

theorem ClassLists.nodup {fh : Bool} (hl : ClassLists fh h F L) :
    ((F ++ L).map FreClass.node).Nodup := by
  rw [List.map_append]
  refine List.nodup_append'.mpr ⟨?_, hl.main.nodup, hl.disjoint⟩
  cases fh with
  | false => rw [hl.plain rfl]; exact List.nodup_nil
  | true => exact (hl.frozen rfl).nodup

/-- A splice that parts the same classes in another place. -/
theorem ClassLists.respliced (hl : ClassLists true h F L)
    (hF : IsList h' .m_fast_head (F'.map FreClass.node) .m_fast_tail)
    (hL : IsList h' .m_head (L'.map FreClass.node) .m_tail) (he : F' ++ L' = F ++ L)
    (hv : ∀ x, h'.val x = h.val x) : ClassLists true h' F' L' := by
  have hd := hl.nodup
  rw [← he, List.map_append] at hd
  refine ⟨hL, fun _ => hF, nofun, fun c hc => ?_, (List.nodup_append'.mp hd).2.2, ?_⟩
  · rw [hv]
    exact hl.fre c (he ▸ hc)
  · rw [hv, hv]
    exact hl.ends

/-- New frequencies for the classes. -/
theorem ClassLists.revalued (hl : ClassLists true h F L)
    (hF : F'.map FreClass.node = F.map FreClass.node) (hn : ∀ x, h'.next x = h.next x)
    (hp : ∀ x, h'.prev x = h.prev x) (hfre : ∀ c ∈ F', h'.val c.node = some c.fre)
    (hv : ∀ x, x ∉ F.map FreClass.node → h'.val x = h.val x) : ClassLists true h' F' L := by
  have hsent : ∀ {x : Ptr}, ¬ x.IsNode → x ∉ F.map FreClass.node :=
    fun hx hc => hx ((hl.frozen rfl).node _ hc)
  refine ⟨hl.main.congr (hl.main.seg.congr (fun x _ => hn x) fun x _ => hp x), fun _ => ?_, nofun,
    fun c hc => ?_, hF ▸ hl.disjoint, ?_⟩
  · rw [hF]
    exact (hl.frozen rfl).congr ((hl.frozen rfl).seg.congr (fun x _ => hn x) fun x _ => hp x)
  · rcases List.mem_append.mp hc with hc | hc
    · exact hfre c hc
    · rw [hv _ fun hm => hl.disjoint hm (List.mem_map_of_mem hc)]
      exact hl.fre c (List.mem_append_right _ hc)
  · rw [hv _ (hsent id), hv _ (hsent id)]
    exact hl.ends

end ClassLists

namespace LFUCore
variable {V : Type} {σ : LFUCore V} {h' : Heap Ptr ℤ} {F L F' L' : List FreClass} {c : FreClass}

/-- A change of the class list that keeps the classes with their rings. -/
theorem Rep.reclassed (hr : Rep true σ F L) (hl : ClassLists true h' F' L')
    (he : (F' ++ L').map (fun c => (c.node, c.ring)) = (F ++ L).map fun c => (c.node, c.ring))
    (hlive : ∀ q, h'.Live q ↔ σ.classes.Live q) : Rep true { σ with classes := h' } F' L' := by
  refine ⟨hl, hr.rings.congr he, ?_, fun i hi => ?_⟩
  · have hrows := congrArg (List.flatMap fun x : Ptr × List (FrePtr × ℕ) =>
      x.2.map fun y => (x.1, y)) he
    rw [List.flatMap_map, List.flatMap_map] at hrows
    exact (show rows (F' ++ L') = rows (F ++ L) from hrows) ▸ hr.entries
  · refine hr.fresh i ?_
    dsimp only at hi
    rwa [hlive] at hi

/-- The rings and the class list are not longer than the number of addresses made. -/
theorem Rep.ring_length_le (hr : Rep true σ F L) (hc : c ∈ F ++ L) : c.ring.length ≤ σ.fresh := by
  have hlen : c.ptrs.length ≤ σ.fresh := by
    refine length_le_of_addresses (f := FrePtr.node)
      (List.nodup_cons.mp (hr.rings.ring c hc).nodup).2 fun p hp => ?_
    have hn := hr.rings.isNode c hc p hp
    cases p with
    | node i =>
      exact ⟨i, hr.fresh i (Or.inr (Or.inl (hr.rings.live hc (List.mem_cons_of_mem _ hp)))), rfl⟩
    | _ => exact hn.elim
  rwa [FreClass.ptrs, List.length_map] at hlen

theorem Rep.length_le (hr : Rep true σ F L) : (F ++ L).length ≤ σ.fresh := by
  have hlen : ((F ++ L).map FreClass.node).length ≤ σ.fresh := by
    refine length_le_of_addresses (f := Ptr.node) hr.lists.nodup fun p hp => ?_
    obtain ⟨c, hc, rfl⟩ := List.mem_map.mp hp
    obtain ⟨i, hi⟩ := Shard.isNode_iff.mp (hr.lists.isNode hc)
    exact ⟨i, hr.fresh i (Or.inl (hi ▸ Heap.live_of_val (hr.lists.fre c hc))), hi⟩
  rwa [List.length_map] at hlen

theorem Rep.mem_map (hr : Rep true σ F L) (hc : c ∈ F ++ L) {x : FrePtr × ℕ} (hx : x ∈ c.ring) :
    x.2 ∈ σ.m_map := by
  rw [hr.entries.mem_iff, keys_rows]
  exact List.mem_flatMap.mpr ⟨c, hc, List.mem_map_of_mem hx⟩

end LFUCore

namespace LFUShard
variable {σ σ' : LFUShard α} {F L A B : List FreClass} {c : FreClass} {a : Ptr}
    {R R' : List (FrePtr × ℕ)}
variable {fuel count FC_size : ℕ}

/-! ### Copying to the fast hash -/

/-- Copy the values of the keys to the fast hash, in order. -/
def copyKeys (m : Finmap fun _ : ℕ => LFUValue (Option α)) (t : FastHash α) (ks : List ℕ) :
    FastHash α :=
  ks.foldl (fun t k => match m.lookup k with
    | some e => t.put k e.val
    | none => t) t

theorem copyKeys_append (m : Finmap fun _ : ℕ => LFUValue (Option α)) (t : FastHash α)
    (ks ls : List ℕ) :
    copyKeys m t (ks ++ ls) = copyKeys m (copyKeys m t ks) ls := List.foldl_append

/-- The inner loop, with `R` done and `R'` to go. -/
theorem fillRing_ok (ratio : Bool) (hr : σ.rings.Ring (.list a) ((R ++ R').map Prod.fst))
    (hkey : ∀ x ∈ R', σ.rings.val x.1 = some x.2) (hnode : ∀ x ∈ R', x.1.IsNode)
    (hmem : ∀ x ∈ R', x.2 ∈ σ.m_map) (hf : R'.length < fuel) (count : ℕ) :
    fillRing ratio a fuel σ ((R'.map Prod.fst).headD (.list a)) count =
      .ok (count + R'.length, { σ with
        m_fasthash := copyKeys σ.m_map σ.m_fasthash (R'.map Prod.snd) }) := by
  induction R' generalizing R σ fuel count with
  | nil =>
    obtain ⟨g, rfl⟩ := Nat.exists_eq_add_one_of_ne_zero (Nat.ne_of_gt hf)
    simp [fillRing, copyKeys]
  | cons x R' ih =>
    obtain ⟨g, rfl⟩ := Nat.exists_eq_add_one_of_ne_zero (Nat.ne_of_gt (Nat.zero_lt_of_lt hf))
    have hne : x.1 ≠ .list a := (hnode x (by simp)).ne_list a
    have hnext : σ.rings.next x.1 = some ((R'.map Prod.fst).headD (.list a)) := hr.seg.next_map
    obtain ⟨e, he⟩ := Finmap.mem_iff.mp (hmem x (by simp))
    have hrest := ih (R := R ++ [x]) (σ := { σ with m_fasthash := σ.m_fasthash.put x.2 e.val })
      (by simpa using hr)
      (fun y hy => hkey y (by simp [hy])) (fun y hy => hnode y (by simp [hy]))
        (fun y hy => hmem y (by simp [hy]))
      (Nat.lt_of_succ_lt_succ hf) (count + 1)
    rw [List.map_cons, List.headD_cons, fillRing, if_neg hne]
    simp only [Heap.getVal_eq (hkey x (by simp)), Heap.getNext_eq hnext, ok_bind, he, hrest]
    simp only [copyKeys, List.map_cons, List.foldl_cons, he, List.length_cons]
    congr 2
    omega

/-- The ring of a class is copied as a whole. -/
theorem fillRing_class (hr : LFUCore.Rep true σ.toLFUCore F L) (hc : c ∈ F ++ L) (ratio : Bool)
    (count : ℕ) :
    (σ.rings.getNext (.list c.node) >>= fun in_node => fillRing ratio c.node (σ.fresh + 1) σ
      in_node count) =
      .ok (count + c.ring.length, { σ with
        m_fasthash := copyKeys σ.m_map σ.m_fasthash c.keys }) := by
  have hring := hr.rings.ring c hc
  rw [Heap.getNext_eq hring.seg.next_first, ok_bind]
  exact fillRing_ok (R := []) ratio hring (hr.rings.key c hc)
    (fun x hx => hr.rings.isNode c hc _ (List.mem_map_of_mem hx))
    (fun x hx => hr.mem_map hc hx) (Nat.lt_succ_of_le (hr.ring_length_le hc)) count

/-! ### `construct_tier` -/

/-- The outer loop of `construct_tier`, with the classes `A` done and `B` to go. -/
theorem tierFill_ok (hr : LFUCore.Rep true σ.toLFUCore (A ++ B) []) (hf : B.length < fuel) :
    tierFill fuel σ ((B.map FreClass.node).headD .m_fast_tail) =
      .ok { σ with m_fasthash := copyKeys σ.m_map σ.m_fasthash (B.flatMap FreClass.keys) } := by
  induction B generalizing A σ fuel with
  | nil =>
    obtain ⟨g, rfl⟩ := Nat.exists_eq_add_one_of_ne_zero (Nat.ne_of_gt hf)
    simp [tierFill, copyKeys]
  | cons c B ih =>
    obtain ⟨g, rfl⟩ := Nat.exists_eq_add_one_of_ne_zero (Nat.ne_of_gt (Nat.zero_lt_of_lt hf))
    have hc : c ∈ A ++ c :: B ++ [] := by simp
    have hne : c.node ≠ .m_fast_tail := (hr.lists.isNode hc).ne_of_not id
    have hnext : σ.classes.next c.node = some ((B.map FreClass.node).headD .m_fast_tail) :=
      (hr.lists.frozen rfl).seg.next_map
    have hfill := fillRing_class hr hc false 0
    have hrest := ih (A := A ++ [c])
      (σ := { σ with m_fasthash := copyKeys σ.m_map σ.m_fasthash c.keys })
      (by simpa using hr) (Nat.lt_of_succ_lt_succ hf)
    rw [List.map_cons, List.headD_cons, tierFill, if_neg hne]
    obtain ⟨in_node, hin, hfill⟩ := bind_eq_ok.mp hfill
    simp only [hin, ok_bind, hfill, Heap.getNext_eq hnext, hrest, List.flatMap_cons,
      copyKeys_append]

/-- `construct_tier` freezes all classes. -/
theorem construct_tier_ok (hr : LFUCore.Rep true σ.toLFUCore [] L) :
    ∃ h', LFUCore.Rep true { σ.toLFUCore with classes := h' } L [] ∧ σ.construct_tier = .ok { σ with
      classes := h', m_fasthash := copyKeys σ.m_map σ.m_fasthash (L.flatMap FreClass.keys)
      FH_ready := true, FH_construct := false, tier_ready := true, tier_no_insert := true } := by
  obtain ⟨h', hs, hF, hM, hfr⟩ := Shard.spliceAll_spec hr.lists.main (hr.lists.frozen rfl)
  have hl' : ClassLists true h' L [] := hr.lists.respliced hF hM (by simp) hfr.val
  have hr' := hr.reclassed hl' (by simp) fun q => hfr.live
  have hlen := hr.length_le
  rw [List.nil_append] at hlen
  have hfill :=
    tierFill_ok (σ := { σ with classes := h', FH_construct := true, tier_no_insert := true })
      (A := []) hr'
    (Nat.lt_succ_of_le hlen)
  refine ⟨h', hr', ?_⟩
  simp only [construct_tier, tierSplice, Shard.assertThawed_ok (hr.lists.frozen rfl), hs, ok_bind,
    pure_eq_ok, Heap.getNext_eq hF.seg.next_first]
  simp only [hfill, ok_bind]

/-- `construct_tier` on a frozen shard aborts. -/
theorem construct_tier_fails (hr : LFUCore.Rep true σ.toLFUCore F L) (hF : F ≠ []) :
    σ.construct_tier = .error .assertion := by
  simp [construct_tier, tierSplice,
    Shard.assertThawed_fails (hr.lists.frozen rfl) (by simpa using hF)]

/-! ### `construct_ratio` -/

/-- Where `construct_ratio` cuts, with `count` keys before: the first classes that bring the count
    to `FC_size`, and never the last one. -/
structure Cut (FC_size count : ℕ) (C D : List FreClass) : Prop where
  enough : FC_size ≤ count + (C.flatMap FreClass.keys).length
  shortest : ∀ C' c D', C = C' ++ c :: D' → count + (C'.flatMap FreClass.keys).length < FC_size
  rest : C ≠ [] → D ≠ []

theorem length_keys_cons (c : FreClass) (C : List FreClass) :
    ((c :: C).flatMap FreClass.keys).length = c.ring.length + (C.flatMap FreClass.keys).length := by
  simp [FreClass.keys]

theorem Cut.nil {FC_size count : ℕ} (h : ¬ count < FC_size) (D : List FreClass) :
    Cut FC_size count [] D :=
  ⟨by simpa using h, fun _ _ _ h => by simp at h, fun h => absurd rfl h⟩

theorem Cut.cons {FC_size count : ℕ} {C D : List FreClass} {c : FreClass}
    (hc : Cut FC_size (count + c.ring.length) C D) (hlt : count < FC_size) (hD : C ++ D ≠ []) :
    Cut FC_size count (c :: C) D := by
  refine ⟨?_, fun C' d D' h => ?_, fun _ hnil => ?_⟩
  · have := hc.enough
    rw [length_keys_cons]
    omega
  · cases C' with
    | nil => simpa using hlt
    | cons e C' =>
      obtain ⟨rfl, hC⟩ := List.cons.inj h
      have := hc.shortest C' d D' hC
      rw [length_keys_cons]
      omega
  · by_cases hC : C = []
    · exact hD (by rw [hC, hnil]; rfl)
    · exact hc.rest hC hnil

theorem Cut.ne_nil {FC_size count : ℕ} {C D : List FreClass} (hc : Cut FC_size count C D)
    (hlt : count < FC_size) : C ≠ [] := by
  rintro rfl
  have := hc.enough
  simp at this
  omega

/-- The outer loop of `construct_ratio`, with the classes `A` done and `B` to go: it stops at the
    cut, or fails at the end of the list. -/
theorem ratioFill_cases (FC_size : ℕ) (hr : LFUCore.Rep true σ.toLFUCore [] (A ++ B))
    (hf : B.length < fuel) (count : ℕ) :
    (∃ C D, B = C ++ D ∧ Cut FC_size count C D ∧
      ratioFill FC_size fuel σ ((B.map FreClass.node).headD .m_tail) count =
      .ok ((D.map FreClass.node).headD .m_tail,
        { σ with m_fasthash := copyKeys σ.m_map σ.m_fasthash (C.flatMap FreClass.keys) })) ∨
    ∃ e, e ≠ .diverge ∧ (∀ C D, B = C ++ D → D ≠ [] →
      count + (C.flatMap FreClass.keys).length < FC_size) ∧
      ratioFill FC_size fuel σ ((B.map FreClass.node).headD .m_tail) count = .error e := by
  induction B generalizing A σ fuel count with
  | nil =>
    obtain ⟨g, rfl⟩ := Nat.exists_eq_add_one_of_ne_zero (Nat.ne_of_gt hf)
    by_cases hcount : count < FC_size
    · -- the `list` of `m_tail` is not a ring
      refine Or.inr ⟨.deref, by simp,
        fun C D h hD => absurd (List.append_eq_nil_iff.mp h.symm).2 hD, ?_⟩
      have hnull : σ.rings.getVal .null = .error .deref := Heap.getVal_dead hr.rings.tail.null
      simp [ratioFill, hcount, Heap.getNext_eq hr.rings.tail.next, fillRing, hnull]
    · exact Or.inl ⟨[], [], rfl, .nil hcount [], by simp [ratioFill, hcount, copyKeys]⟩
  | cons c B ih =>
    obtain ⟨g, rfl⟩ := Nat.exists_eq_add_one_of_ne_zero (Nat.ne_of_gt (Nat.zero_lt_of_lt hf))
    by_cases hcount : count < FC_size
    · have hc : c ∈ [] ++ (A ++ c :: B) := by simp
      have hnext : σ.classes.next c.node = some ((B.map FreClass.node).headD .m_tail) :=
        hr.lists.main.seg.next_map
      obtain ⟨in_node, hin, hfill⟩ := bind_eq_ok.mp (fillRing_class hr hc true count)
      have hstep : ratioFill FC_size (g + 1) σ (((c :: B).map FreClass.node).headD .m_tail) count =
          (assert ((B.map FreClass.node).headD .m_tail ≠ .m_tail) >>= fun _ => ratioFill FC_size g
            { σ with m_fasthash := copyKeys σ.m_map σ.m_fasthash c.keys }
            ((B.map FreClass.node).headD .m_tail)
            (count + c.ring.length)) := by
        rw [List.map_cons, List.headD_cons, ratioFill, if_pos hcount]
        simp only [hin, ok_bind, hfill, Heap.getNext_eq hnext]
      rw [hstep]
      -- a cut before `c` is short, and one after it is a cut of the rest
      have hshort :
          (∀ C D, B = C ++ D → D ≠ [] → count + c.ring.length + (C.flatMap FreClass.keys).length <
            FC_size) →
          ∀ C D, c :: B = C ++ D → D ≠ [] → count + (C.flatMap FreClass.keys).length < FC_size := by
        intro h C D heq hD
        cases C with
        | nil => simpa using hcount
        | cons d C =>
          obtain ⟨rfl, hB⟩ := List.cons.inj heq
          have := h C D hB hD
          rw [length_keys_cons]
          omega
      by_cases hlast : (B.map FreClass.node).headD .m_tail = .m_tail
      · have hB : B = [] := by
          cases B with
          | nil => rfl
          | cons d B => exact absurd hlast (hr.rings.class_ne d (by simp))
        refine Or.inr ⟨.assertion, by simp, hshort fun C D h hD => ?_, by rw [hlast]; simp [assert]⟩
        rw [hB] at h
        exact absurd (List.append_eq_nil_iff.mp h.symm).2 hD
      · rw [assert_of hlast, ok_bind]
        rcases ih (A := A ++ [c]) (σ := { σ with
          m_fasthash := copyKeys σ.m_map σ.m_fasthash c.keys })
          (by simpa using hr) (Nat.lt_of_succ_lt_succ hf) (count + c.ring.length)
            with ⟨C, D, rfl, hcut, h⟩ | ⟨e, hne, hno, h⟩
        · refine Or.inl ⟨c :: C, D, rfl, hcut.cons hcount fun hnil => hlast (by rw [hnil]; rfl), ?_⟩
          rw [h, List.flatMap_cons, copyKeys_append]
        · exact Or.inr ⟨e, hne, hshort hno, h⟩
    · exact Or.inl ⟨[], c :: B, rfl, .nil hcount _, by simp [ratioFill, hcount, copyKeys]⟩

section Pointers
variable {h : Heap Ptr ℤ} {N M C D : List Ptr}

/-- The cut of `construct_ratio` in front of the first class: every pointer ends where it was. -/
theorem ratioSplice_nothing (hm : IsList h .m_head D .m_tail)
    (hf : IsList h .m_fast_head [] .m_fast_tail) :
    ratioSplice h (D.headD .m_tail) = .ok h := by
  have hFH := hf.live_left
  have hFT := hf.live_right
  have hMH := hm.live_left
  have hnext := hm.seg.next_first
  have hn0 := hf.seg.next_first
  have hp0 := hf.seg.prev_last
  have hprev : h.prev (D.headD .m_tail) = some .m_head :=
    (Heap.Seg.link_of_append (A := []) hm.seg).2
  have hql := Heap.live_of_prev hprev
  have hq1 : D.headD .m_tail ≠ .m_fast_tail := IsList.first_ne (A := []) hm (by simp) id
  obtain ⟨h', he, hn', hp', hv'⟩ : ∃ h', ratioSplice h (D.headD .m_tail) = .ok h' ∧
      (∀ x, h'.next x = if x = .m_head then some (D.headD .m_tail) else if x = .m_fast_head then
        some .m_fast_tail else h.next x) ∧
      (∀ x, h'.prev x = if x = D.headD .m_tail then some .m_head else if x = .m_fast_tail then
        some .m_fast_head else h.prev x) ∧ (∀ x, h'.val x = h.val x) := by
    generalize D.headD .m_tail = q at hnext hql hq1 ⊢
    simp [ratioSplice, Heap.getNext_def, Heap.getPrev_def, Heap.setNext_eq, Heap.setPrev_eq,
      Heap.next_withNext, Heap.prev_withPrev, hnext, hFH, hFT, hMH, hql, hq1]
    exact ⟨fun x => by split_ifs <;> rfl, fun x => by split_ifs <;> rfl⟩
  obtain rfl : h' = h := Heap.eq_of_same_links hnext hn0 hprev hp0 hn' hp' hv'
  exact he

/-- The cut behind the classes at `C`. -/
theorem ratioSplice_cut (hm : IsList h .m_head (C ++ D) .m_tail)
    (hf : IsList h .m_fast_head [] .m_fast_tail) (hC : C ≠ []) :
    ∃ h', ratioSplice h (D.headD .m_tail) = .ok h' ∧ IsList h' .m_fast_head C .m_fast_tail ∧
      IsList h' .m_head D .m_tail ∧ ∀ x, h'.val x = h.val x := by
  have hFH := hf.live_left
  have hFT := hf.live_right
  have hMH := hm.live_left
  have hql := hm.seg.live_headD
  have hq1 : D.headD .m_tail ≠ .m_fast_tail := hm.first_ne (by simp) id
  have hnext := hm.seg.next_first
  obtain ⟨p, q, i, j, hs⟩ := Shard.seams (A := []) (B := D) hm hC
  obtain rfl : Ptr.m_head = p := hs.before
  obtain rfl : D.headD .m_tail = q := hs.after
  have hil := hm.live (List.mem_append_left _ hs.mem_first)
  have hjl := hm.live (List.mem_append_left _ hs.mem_last)
  have hfirst : (C ++ D).headD .m_tail = .node i := by
    obtain ⟨x, E, rfl⟩ := List.exists_cons_of_ne_nil hC
    exact hs.first_eq
  rw [hfirst] at hnext
  have hqi : D.headD .m_tail ≠ .node i := by
    have hiD : Ptr.node i ∉ D := fun hc => (List.nodup_append'.mp hm.nodup).2.2 hs.mem_first hc
    exact (ne_headD (by simpa using hiD)).symm
  obtain ⟨h', he, hn', hp', hv'⟩ : ∃ h', ratioSplice h (D.headD .m_tail) = .ok h' ∧
      (∀ x, h'.next x = if x = .m_head then some (D.headD .m_tail) else if x = .node j then
        some .m_fast_tail
        else if x = .m_fast_head then some (.node i) else h.next x) ∧
      (∀ x, h'.prev x = if x = D.headD .m_tail then some .m_head else if x = .m_fast_tail then
        some (.node j)
        else if x = .node i then some .m_fast_head else h.prev x) ∧
        (∀ x, h'.val x = h.val x) := by
    have hprev := hs.prev_after
    generalize D.headD .m_tail = q at hql hq1 hqi hprev ⊢
    simp [ratioSplice, Heap.getNext_def, Heap.getPrev_def, Heap.setNext_eq, Heap.setPrev_eq,
      Heap.next_withNext, Heap.prev_withPrev, hnext, hFH, hFT, hMH, hil, hjl, hql, hq1, hprev,
      hqi]
  obtain ⟨hF, hM⟩ := Shard.carve (A := []) hm hs.first_eq hs.last_eq hs.mem_first hs.mem_last
    rfl rfl hn' hp'
  exact ⟨h', he, hF, hM, hv'⟩

/-- The cut of `construct_ratio`, on the pointers. -/
theorem ratioSplice_spec (hm : IsList h .m_head (C ++ D) .m_tail)
    (hf : IsList h .m_fast_head [] .m_fast_tail) :
    ∃ h', ratioSplice h (D.headD .m_tail) = .ok h' ∧ IsList h' .m_fast_head C .m_fast_tail ∧
      IsList h' .m_head D .m_tail ∧ ∀ x, h'.val x = h.val x := by
  by_cases hC : C = []
  · subst hC
    rw [List.nil_append] at hm
    exact ⟨h, ratioSplice_nothing hm hf, hf, hm, fun _ => rfl⟩
  · exact ratioSplice_cut hm hf hC

/-- The loop of `deconstruct`, with the frozen classes at `N` to go and `count` done: each gets its
    number from the end, and nothing else changes. -/
theorem renumber_spec (max_freq : ℤ) {fuel : ℕ} {count : ℤ}
    (hf : IsList h .m_fast_head (N ++ M) .m_fast_tail) (hfuel : N.length < fuel) (hc : 0 ≤ count)
    (hcount : count + N.length < 2 ^ 31) :
    ∃ h', renumber max_freq fuel h (N.getLastD .m_fast_head) count = .ok h' ∧
      (∀ x, h'.next x = h.next x) ∧
      (∀ x, h'.prev x = h.prev x) ∧ (∀ x, h'.Live x ↔ h.Live x) ∧
      (∀ x, x ∉ N → h'.val x = h.val x) ∧
      ∀ A n B, N = A ++ n :: B → h'.val n = some (max_freq + (count + B.length + 1)) := by
  induction N using List.reverseRecOn generalizing h M fuel count with
  | nil =>
    obtain ⟨g, rfl⟩ := Nat.exists_eq_add_one_of_ne_zero (Nat.ne_of_gt hfuel)
    exact ⟨h, by simp [renumber], by simp, by simp, by simp, by simp, by simp⟩
  | append_singleton N n ih =>
    obtain ⟨g, rfl⟩ := Nat.exists_eq_add_one_of_ne_zero (Nat.ne_of_gt (Nat.zero_lt_of_lt hfuel))
    rw [List.length_append, List.length_singleton] at hfuel hcount
    have hn : n.IsNode := hf.node n (by simp)
    have hlive : h.Live n := hf.live (by simp)
    have hprev : h.prev n = some (N.getLastD .m_fast_head) := by
      have := hf.seg
      rw [List.append_assoc] at this
      exact this.prev_mid
    have hint : toInt (count + 1) = count + 1 := toInt_of_lt (by omega) (by omega)
    have hnd := hf.nodup
    rw [List.append_assoc, List.singleton_append, List.nodup_middle, List.nodup_cons] at hnd
    have hf' : IsList (h.withVal n (max_freq + (count + 1))) .m_fast_head (N ++ n :: M)
        .m_fast_tail := by
      rw [List.append_assoc] at hf
      exact hf.congr (Heap.Linked.withVal hf.seg _)
    obtain ⟨h', he, hnx, hpr, hlv, hvn, hvs⟩ :=
      ih hf' (by omega : N.length < g) (by omega : 0 ≤ count + 1) (by push_cast at hcount ⊢; omega)
    refine ⟨h', ?_, fun x => by rw [hnx, Heap.next_withVal],
      fun x => by rw [hpr, Heap.prev_withVal], fun x => by rw [hlv, Heap.live_withVal],
      fun x hx => ?_, fun A m B hN => ?_⟩
    · rw [getLastD_append, List.getLastD_cons, List.getLastD_nil, renumber,
        if_neg (hn.ne_of_not id)]
      simp only [hint, assert_of hn.ne_null, Heap.setVal_eq hlive, ok_bind,
        Heap.getPrev_eq (Heap.prev_withVal.trans hprev), he]
    · rw [List.mem_append, List.mem_singleton, not_or] at hx
      rw [hvn x hx.1, Heap.val_withVal hlive, if_neg hx.2]
    · rcases B.eq_nil_or_concat with rfl | ⟨B, m', rfl⟩
      · obtain ⟨rfl, hm⟩ := List.append_inj' hN rfl
        cases hm
        rw [hvn _ fun hc => hnd.1 (List.mem_append_left _ hc), Heap.val_withVal hlive, if_pos rfl]
        simp
      · rw [List.concat_eq_append, ← List.cons_append, ← List.append_assoc] at hN
        obtain ⟨rfl, hm⟩ := List.append_inj' hN rfl
        rw [hvs A m B rfl, List.concat_eq_append, List.length_append, List.length_singleton]
        push_cast
        congr 2
        omega

end Pointers

/-- The `construct_ratio` that returns freezes the first classes, and the fuel is never what ends
    it. -/
theorem construct_ratio_cases (hr : LFUCore.Rep true σ.toLFUCore [] L) (FC_size : ℕ) :
    (∃ C D h', L = C ++ D ∧ Cut FC_size 0 C D ∧
      LFUCore.Rep true { σ.toLFUCore with classes := h' } C D ∧
      σ.construct_ratio FC_size = .ok { σ with
        classes := h', m_fasthash := copyKeys σ.m_map σ.m_fasthash (C.flatMap FreClass.keys)
        FH_ready := true, FH_construct := false }) ∨
    ∃ e, e ≠ .diverge ∧
      (FC_size = 0 ∨ 1000 * FC_size < 999 * σ.n →
        ∀ C D, L = C ++ D → D ≠ [] → (C.flatMap FreClass.keys).length < FC_size) ∧
      σ.construct_ratio FC_size = .error e := by
  by_cases hFC : FC_size = 0 ∨ 1000 * FC_size < 999 * σ.n
  · have hlen := hr.length_le
    rw [List.nil_append] at hlen
    have hstart : σ.construct_ratio FC_size =
        (ratioFill FC_size (σ.fresh + 1) { σ with FH_construct := true }
            ((L.map FreClass.node).headD .m_tail) 0 >>= fun r => do
          let h ← ratioSplice r.2.classes r.1
          return { r.2 with classes := h, FH_ready := true, FH_construct := false }) := by
      simp only [construct_ratio, assert_of hFC, Shard.assertThawed_ok (hr.lists.frozen rfl),
        ok_bind, Heap.getNext_eq hr.lists.main.seg.next_first]
    rw [hstart]
    rcases ratioFill_cases FC_size (A := []) (σ := { σ with FH_construct := true }) hr
      (Nat.lt_succ_of_le hlen) 0
      with ⟨C, D, rfl, hC, hfill⟩ | ⟨e, hne, hno, hfill⟩
    · have hmain := hr.lists.main
      rw [List.map_append] at hmain
      obtain ⟨h', hs, hF, hM, hv⟩ := ratioSplice_spec hmain (hr.lists.frozen rfl)
      have hl' : ClassLists true h' C D := hr.lists.respliced hF hM rfl hv
      refine Or.inl ⟨C, D, h', rfl, hC, hr.reclassed hl' rfl fun q => ?_, ?_⟩
      · rw [Heap.live_iff_val, Heap.live_iff_val, hv]
      · simp only [hfill, ok_bind, hs, pure_eq_ok]
    · exact Or.inr ⟨e, hne, fun _ C D h hD => by simpa using hno C D h hD, by rw [hfill]; rfl⟩
  · exact Or.inr ⟨.assertion, by simp,
      fun h => absurd h hFC, by simp [construct_ratio, assert, hFC]⟩

/-- `construct_ratio` on a frozen shard aborts. -/
theorem construct_ratio_fails (hr : LFUCore.Rep true σ.toLFUCore F L) (hF : F ≠ []) (FC_size : ℕ) :
    σ.construct_ratio FC_size = .error .assertion := by
  by_cases hFC : FC_size = 0 ∨ 1000 * FC_size < 999 * σ.n
  · simp [construct_ratio, assert_of hFC,
      Shard.assertThawed_fails (hr.lists.frozen rfl) (by simpa using hF)]
  · simp [construct_ratio, assert, hFC]

/-! ### `deconstruct` -/

/-- The frozen classes with their new frequencies, above `m`. -/
def renumbered (m : ℤ) : List FreClass → List FreClass
  | [] => []
  | c :: F => ⟨c.node, m + (F.length + 1), c.ring⟩ :: renumbered m F

theorem renumbered_map (m : ℤ) (F : List FreClass) :
    (renumbered m F).map (fun c => (c.node, c.ring)) = F.map fun c => (c.node, c.ring) := by
  induction F with
  | nil => rfl
  | cons c F ih => rw [renumbered, List.map_cons, List.map_cons, ih]

theorem mem_renumbered {m : ℤ} {d : FreClass} (hd : d ∈ renumbered m F) :
    ∃ A c B, F = A ++ c :: B ∧ d = ⟨c.node, m + (B.length + 1), c.ring⟩ := by
  induction F with
  | nil => cases hd
  | cons c F ih =>
    rcases List.mem_cons.mp hd with rfl | hd
    · exact ⟨[], c, F, rfl, rfl⟩
    · obtain ⟨A, c', B, rfl, rfl⟩ := ih hd
      exact ⟨c :: A, c', B, rfl, rfl⟩

/-- The highest frequency of the main list, 0 if it is empty. -/
def maxFreq : List FreClass → ℤ
  | [] => 0
  | c :: _ => c.fre

/-- The frozen classes, numbered anew, in front of the main list are in order. -/
theorem decreasing_renumbered (hL : Decreasing L) : Decreasing (renumbered (maxFreq L) F ++ L) := by
  have hmax : 0 ≤ maxFreq L ∧ ∀ c ∈ L, c.fre ≤ maxFreq L := by
    cases L with
    | nil => exact ⟨le_refl 0, by simp⟩
    | cons c L =>
      obtain ⟨-, h1, -, h2⟩ := decreasing_middle (A := []).mp hL
      exact ⟨by simp only [maxFreq]; omega,
        List.forall_mem_cons.mpr ⟨le_refl _, fun d hd => le_of_lt (h2 d hd)⟩⟩
  induction F with
  | nil => exact hL
  | cons c F ih =>
    refine (decreasing_middle (A := [])).mpr ⟨ih, by dsimp only; omega, by simp, fun d hd => ?_⟩
    dsimp only
    rcases List.mem_append.mp hd with hd | hd
    · obtain ⟨A, c', B, rfl, rfl⟩ := mem_renumbered hd
      simp only [List.length_append, List.length_cons]
      push_cast
      omega
    · have := hmax.2 d hd
      omega

/-- `deconstruct` with no frozen class does nothing. -/
theorem deconstruct_nil (hr : LFUCore.Rep true σ.toLFUCore [] L) : σ.deconstruct = .ok σ := by
  have hf := hr.lists.frozen rfl
  have hn := hf.seg.next_first
  have hp := hf.seg.prev_last
  simp only [List.map_nil, List.headD_nil, List.getLastD_nil] at hn hp
  simp [deconstruct, Heap.getNext_eq hn, Heap.getPrev_eq hp, assert]

/-- `deconstruct` numbers the frozen classes anew and puts them in front of the main list. -/
theorem deconstruct_ok (hr : LFUCore.Rep true σ.toLFUCore F L) (hF : F ≠ [])
    (hlen : F.length < 2 ^ 31) :
    ∃ h', LFUCore.Rep true { σ.toLFUCore with classes := h' } [] (renumbered (maxFreq L) F ++ L) ∧
      σ.deconstruct = .ok { σ with
        classes := h', tier_no_insert := if σ.tier_ready then false else σ.tier_no_insert
        tier_ready := false, FH_ready := false, FH_construct := false, m_fasthash := ∅ } := by
  have hf := hr.lists.frozen rfl
  have hN : F.map FreClass.node ≠ [] := by simpa using hF
  obtain ⟨i, j, hi, hj, -, -⟩ := Shard.ends_node hf.node hN
  have hn := hf.seg.next_first
  have hp := hf.seg.prev_last
  have hmax : σ.classes.val ((L.map FreClass.node).headD .m_tail) = some (maxFreq L) := by
    cases L with
    | nil => exact hr.lists.ends.2
    | cons c L => exact hr.lists.fre c (by simp)
  have hle := hr.length_le
  rw [List.length_append] at hle
  have hfuel : (F.map FreClass.node).length < σ.fresh + 1 := by rw [List.length_map]; omega
  -- new frequencies
  obtain ⟨h₁, he₁, hn₁, hp₁, hlv₁, hv₁, hvs₁⟩ :=
    renumber_spec (maxFreq L) (M := []) (by rwa [List.append_nil]) hfuel
    (le_refl 0) (by rw [List.length_map]; omega)
  have hnode₁ : (renumbered (maxFreq L) F).map FreClass.node = F.map FreClass.node := by
    have := congrArg (List.map Prod.fst) (renumbered_map (maxFreq L) F)
    rwa [List.map_map, List.map_map] at this
  have hl₁ : ClassLists true h₁ (renumbered (maxFreq L) F) L := by
    refine hr.lists.revalued hnode₁ hn₁ hp₁ (fun d hd => ?_) hv₁
    obtain ⟨A, c, B, rfl, rfl⟩ := mem_renumbered hd
    rw [hvs₁ (A.map FreClass.node) c.node (B.map FreClass.node) (by simp), List.length_map,
      zero_add]
  -- the splice
  obtain ⟨h₂, he₂, hF₂, hM₂, hfr₂⟩ :=
    Shard.thawSplice_spec (hl₁.frozen rfl) hl₁.main hl₁.disjoint (hnode₁ ▸ hN)
  have hl₂ : ClassLists true h₂ [] (renumbered (maxFreq L) F ++ L) :=
    hl₁.respliced hF₂ (by rwa [List.map_append]) rfl hfr₂.val
  refine ⟨h₂, hr.reclassed hl₂ (by simp [renumbered_map]) fun q => by rw [hfr₂.live, hlv₁], ?_⟩
  rw [hi] at hn
  rw [hj] at hp he₁
  simp only [deconstruct, Heap.getNext_eq hn, Heap.getPrev_eq hp, ok_bind, reduceCtorEq, iff_self,
    assert_of trivial, if_false, Heap.getNext_eq hr.lists.main.seg.next_first, Heap.getVal_eq hmax,
    he₁, he₂, pure_eq_ok]

end LFUShard
end FrozenHot
