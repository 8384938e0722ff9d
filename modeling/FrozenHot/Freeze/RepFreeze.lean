import FrozenHot.Freeze.RepUpdate

/-! `construct_tier`, `construct_ratio` and `deconstruct` do what they do over lists. -/

namespace FrozenHot.Shard
open Schemes ListShard

variable {α : Type} {h h' : Heap Ptr NodeData} {F L A R : List Item} {x : Item} {n : Ptr} {k : ℕ}
variable {c c' : Core α} {σ : Shard α} {τ τ' : ListShard α} {s : Option Ptr}

/-- Only the map and the allocator of the core matter to the heap. -/
theorem Holds.congr (hh : Holds h c s F L) (hm : c'.m_map = c.m_map) (hf : c'.fresh = c.fresh) :
    Holds h c' s F L :=
  ⟨hh.lists, fun k e he => hh.entry k e (hm ▸ he), fun i hi => hf ▸ hh.fresh i hi⟩

/-- Taking a dead node off its list and deleting it: no entry points to it. -/
theorem Holds.discard (hh : Holds h c s F L) (hx : x ∈ F ++ L) (hdead : ¬ Live c.m_map x) :
    ∃ h₁, delinkChecked h x.node = .ok h₁ ∧ Shard.discard h x.node = .ok (h₁.free x.node) ∧
      Holds (h₁.free x.node) c s (detach x.node F) (detach x.node L) ∧
      (∀ p, (h₁.free x.node).Live p → p ≠ x.node ∧ h.Live p) := by
  obtain ⟨h₁, hd, hh₁, hv₁, -⟩ := hh.delink hx
  have hin := hh.lists.isInList (List.mem_map_of_mem hx)
  refine ⟨h₁, hd, by simp [Shard.discard, hin, hd], hh₁.free (hh.lists.node hx) ?_ ?_,
    fun p hp => ?_⟩
  · intro hc
    obtain ⟨y, hy, he⟩ := List.mem_map.mp hc
    rw [List.mem_append] at hy
    exact hy.elim (fun h => (mem_detach.mp h).2 he) (fun h => (mem_detach.mp h).2 he)
  · rintro k e he
    refine (hh.entry k e he).ne_of_key (hh.lists.key x hx) ?_
    rintro rfl
    exact hdead ⟨(hh.entry _ e he).valid.ne_tomb, Finmap.mem_iff.mpr ⟨e, he⟩⟩
  · rw [Heap.live_free, Heap.live_iff_val, hv₁, ← Heap.live_iff_val] at hp
    exact hp

/-! ### `construct_tier` -/

/-- The loop of `construct_tier`, with the items `A` done and the items `R` to go. -/
theorem Holds.tierFill {f : ℕ} (hh : Holds h c none (A ++ R) []) (hf : R.length < f) :
    ∃ h', tierFill f ⟨c, h⟩ ((R.map Item.node).headD .m_fast_tail) =
      .ok ⟨{ c with m_fasthash := copy c.m_map c.m_fasthash (R.filter (Live c.m_map)) }, h'⟩ ∧
      Holds h' c none (A ++ R.filter (Live c.m_map)) [] := by
  induction R generalizing h c A f with
  | nil =>
    obtain ⟨g, rfl⟩ : ∃ g, f = g + 1 := ⟨f - 1, by simp at hf; omega⟩
    exact ⟨h, by simp [Shard.tierFill, copy], hh⟩
  | cons x R ih =>
    obtain ⟨g, rfl⟩ : ∃ g, f = g + 1 := ⟨f - 1, by simp at hf; omega⟩
    have hx : x ∈ A ++ x :: R ++ [] := by simp
    have hne : x.node ≠ .m_fast_tail := (hh.lists.node hx).ne_of_not id
    have hkey := keyOf_eq (hh.lists.key x hx)
    have hnext : h.next x.node = some ((R.map Item.node).headD .m_fast_tail) :=
      Heap.Seg.next_map (C := A) hh.lists.frozen.seg
    have hlen : R.length < g := by simp at hf; omega
    by_cases hl : Live c.m_map x
    · -- copied to the fast hash
      obtain ⟨e, hlk⟩ := Finmap.mem_iff.mp hl.2
      have hh' : Holds h { c with m_fasthash := c.m_fasthash.put x.key e.m_value } none
          (A ++ [x] ++ R) [] := by
        rw [List.append_assoc]; exact hh.congr rfl rfl
      obtain ⟨h', he, hh''⟩ := ih hh' hlen
      rw [List.append_assoc] at hh''
      rw [List.filter_cons_of_pos (by simpa using hl)]
      refine ⟨h', ?_, hh''.congr rfl rfl⟩
      simp only [List.map_cons, List.headD_cons, Shard.tierFill, hne, hkey, Heap.getNext_eq hnext,
        ok_bind, hl.1, hlk, if_false, he, copy, List.foldl_cons]
    · -- deleted
      rw [List.filter_cons_of_neg (by simpa using hl)]
      obtain ⟨h₁, hd, hdis, hh₁, -⟩ := hh.discard hx hl
      obtain ⟨hdF, hdL⟩ := hh.lists.detach_frozen
      rw [hdF, hdL] at hh₁
      obtain ⟨h', he, hh'⟩ := ih hh₁ hlen
      refine ⟨h', ?_, hh'⟩
      by_cases ht : x.key = TOMB_KEY
      · simp only [List.map_cons, List.headD_cons, Shard.tierFill, hne, hkey, Heap.getNext_eq hnext,
          ok_bind, ht, if_true, if_false, hd, he]
      · have hlk := Finmap.lookup_eq_none.mpr (fun hm => hl ⟨ht, hm⟩)
        simp only [List.map_cons, List.headD_cons, Shard.tierFill, hne, hkey, Heap.getNext_eq hnext,
          ok_bind, ht, if_false, hlk, hdis, he]

/-- The locked section of `construct_tier` moves the main list. -/
theorem Rep.tierSplice (hr : Rep none σ τ) (hF : τ.frozen = []) : ∃ σ', σ.tierSplice = .ok σ' ∧
    Rep none σ' { τ with
      frozen := τ.main, main := [], fast_hash_construct := true, tier_no_insert := true } := by
  obtain ⟨c, h⟩ := σ
  obtain ⟨c', F, L⟩ := τ
  obtain rfl : c = c' := hr.core
  simp only at hF
  subst hF
  have hh : Holds h c none [] L := hr.holds
  obtain ⟨h₁, hs, hl₁, hk₁⟩ := hh.lists.freezeAll
  have hh₁ := hh.moved hl₁ hk₁ (fun p hp => Or.inl (by simpa using hp))
  refine ⟨⟨_, h₁⟩, ?_, ⟨rfl, hh₁.congr rfl rfl, hr.no_curve⟩⟩
  simp [Shard.tierSplice, assertThawed_ok hh.lists.frozen, hs]

/-- The rest of it drops the dead nodes and copies the others to the fast hash. -/
theorem Rep.tierRest (hr : Rep none σ τ) (hL : τ.main = []) : ∃ σ', σ.tierRest = .ok σ' ∧
    Rep none σ' { τ with
      frozen := τ.frozen.filter (Live τ.m_map)
      m_fasthash := copy τ.m_map τ.m_fasthash (τ.frozen.filter (Live τ.m_map))
      tier_ready := true, fast_hash_construct := false } := by
  obtain ⟨c, h⟩ := σ
  obtain ⟨c', F, L⟩ := τ
  obtain rfl : c = c' := hr.core
  simp only at hL
  subst hL
  have hh : Holds h c none ([] ++ F) [] := hr.holds
  have hlen : F.length < c.fresh + 1 := by
    have := hh.length_le; simp at this ⊢; omega
  obtain ⟨h₂, hfill, hh₂⟩ := hh.tierFill hlen
  have hf : IsList h .m_fast_head (F.map Item.node) .m_fast_tail := hh.lists.frozen
  refine ⟨⟨_, h₂⟩, ?_, ⟨rfl, hh₂.congr rfl rfl, hr.no_curve⟩⟩
  simp only [Shard.tierRest, Heap.getNext_eq hf.seg.next_first, ok_bind, hfill, pure_eq_ok]

/-- `construct_tier` does what it does over lists. -/
theorem Rep.construct_tier (hr : Rep none σ τ) (he : τ.construct_tier = some τ') :
    ∃ σ', σ.construct_tier = .ok σ' ∧ Rep none σ' τ' := by
  unfold ListShard.construct_tier at he
  split at he
  · rename_i hF
    cases he
    obtain ⟨σ₁, h1, hr₁⟩ := hr.tierSplice hF
    obtain ⟨σ₂, h2, hr₂⟩ := hr₁.tierRest rfl
    exact ⟨σ₂, by simp [Shard.construct_tier, h1, h2], hr₂⟩
  · cases he

/-- `construct_tier` on a frozen shard aborts. -/
theorem Rep.construct_tier_fails (hr : Rep none σ τ) (he : τ.construct_tier = none) :
    σ.construct_tier = .error .assertion := by
  have hF : τ.frozen ≠ [] := fun hF => by simp [ListShard.construct_tier, hF] at he
  simp [Shard.construct_tier, Shard.tierSplice,
    assertThawed_fails hr.holds.lists.frozen (by simpa using hF)]

/-! ### `deconstruct` -/

/-- `deconstruct` does what it does over lists. -/
theorem Rep.deconstruct (hr : Rep none σ τ) :
    ∃ σ', σ.deconstruct = .ok σ' ∧ Rep none σ' τ.deconstruct := by
  obtain ⟨c, h⟩ := σ
  obtain ⟨c', F, L⟩ := τ
  obtain rfl : c = c' := hr.core
  have hf : IsList h .m_fast_head (F.map Item.node) .m_fast_tail := hr.holds.lists.frozen
  have hn := hf.seg.next_first
  have hp := hf.seg.prev_last
  by_cases hF : F = []
  · subst hF
    simp only [List.map_nil, List.headD_nil, List.getLastD_nil] at hn hp
    refine ⟨⟨c, h⟩, ?_, by simpa [ListShard.deconstruct] using hr⟩
    simp [Shard.deconstruct, Heap.getNext_eq hn, Heap.getPrev_eq hp, assert]
  · obtain ⟨h', ht, hl', hk'⟩ := hr.holds.lists.thaw hF
    obtain ⟨i, j, hi, hj, -, -⟩ := ends_node hf.node (by simpa using hF)
    rw [hi] at hn
    rw [hj] at hp
    have hh' := hr.holds.moved hl' hk' (fun p hp => Or.inl (by simpa using hp))
    refine ⟨⟨(ListShard.deconstruct ⟨c, F, L⟩).toCore, h'⟩, ?_, rfl, ?_, ?_⟩
    · simp [Shard.deconstruct, Heap.getNext_eq hn, Heap.getPrev_eq hp, assert, ht,
        ListShard.deconstruct, hF]
    · simp only [ListShard.deconstruct, hF, if_false]
      exact hh'.congr rfl rfl
    · simpa [ListShard.deconstruct, hF] using hr.no_curve

end FrozenHot.Shard
