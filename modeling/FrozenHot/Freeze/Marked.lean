import FrozenHot.Freeze.Remainder
import FrozenHot.Freeze.Wired

/-! A thawed shard with a marker in its main list.

    The nodes in front of the marker are those that were counted; behind it there may be tombstones.
    Evictions take the last node that is not a tombstone, and new nodes go right behind the
    marker. -/

namespace FrozenHot
open Schemes ListShard

variable {α : Type}

namespace Shard
variable {σ : Shard α} {τ : ListShard α} {A B I J L P Q : List Item} {x : Item} {n : Ptr}
    {k : ℕ} {v : α}
variable {s : Option Ptr} {p : Option ℕ}

/-! ### Without the flag

    `evict` and the end of `insert` do not look at `curve_flag`, so that what was shown of them for
    a shard without it holds with it. -/

/-- The shard with `curve_flag` off. -/
def unflag (σ : Shard α) : Shard α := { σ with curve_flag := false }

theorem evict_unflag (σ : Shard α) (held : Option ℕ) :
    σ.unflag.evict held = (σ.evict held).map fun r => (r.1, r.2.unflag) := by
  unfold Shard.evict unflag
  dsimp only
  cases Shard.dropTombs (σ.fresh + 1) σ.heap with
  | error e => rfl
  | ok r =>
    simp only [ok_bind]
    split
    · rfl
    · cases delinkChecked r.2 r.1 with
      | error e => rfl
      | ok h =>
        simp only [ok_bind]
        cases keyOf h r.1 with
        | error e => rfl
        | ok key =>
          simp only [ok_bind]
          split
          · rfl
          · split <;> rfl

theorem correct_unflag (σ : Shard α) (s : ℕ) : σ.unflag.correct s = (σ.correct s).map unflag := by
  unfold Shard.correct
  rw [evict_unflag, show σ.unflag.m_maxSize = σ.m_maxSize from rfl]
  split
  · cases σ.evict none with
    | error e => rfl
    | ok r =>
      obtain ⟨b, r⟩ := r
      cases b <;> rfl
  · rfl

theorem insertSettle_unflag (σ : Shard α) (s : ℕ) (d : Bool) :
    σ.unflag.insertSettle s d = (σ.insertSettle s d).map unflag := by
  have hcount : σ.unflag.count d = (σ.count d).unflag := by
    unfold count
    split <;> rfl
  rw [insertSettle, hcount, correct_unflag]
  rfl

/-- The fields of a shard with the flag are those of the lists without it. -/
theorem Rep.field {β : Type} (hr : Rep s σ.unflag τ) (f : Core α → β)
    (hf : ∀ c b, f { c with curve_flag := b } = f c) : f σ.toCore = f τ.toCore := by
  rw [← hr.core]
  exact (hf σ.toCore false).symm

theorem map_eq_ok {ε β γ : Type} {f : β → γ} {x : Except ε β} {c : γ} (hx : x.map f = .ok c) :
    ∃ b, x = .ok b ∧ f b = c := by
  cases x with
  | error e => cases hx
  | ok b => exact ⟨b, rfl, Except.ok.inj hx⟩

/-! ### Stamping and linking nodes -/

/-- A new stamp leaves the lists alone. -/
theorem Rep.restamp (hr : Rep s σ τ) (hk : keyAt σ.heap n = some k) (t : ℕ) :
    Rep s { σ with heap := σ.heap.withVal n ⟨k, t⟩ } τ := by
  have hlive := live_of_key hk
  have hkey : ∀ q, keyAt (σ.heap.withVal n ⟨k, t⟩) q = keyAt σ.heap q := by
    intro q
    rw [keyAt, Heap.val_withVal hlive]
    split
    · rename_i hq
      rw [hq, hk]
      rfl
    · rfl
  have hh := hr.holds
  refine ⟨hr.core, ⟨⟨?_, hh.lists.main.congr (Heap.Linked.withVal hh.lists.main.seg _),
    hh.lists.nodup, ?_, ?_, ?_, ?_⟩, ?_, ?_⟩, hr.no_curve⟩
  · cases s with
    | none =>
      have hf : IsList σ.heap .m_fast_head (τ.frozen.map Item.node) .m_fast_tail := hh.lists.frozen
      exact hf.congr (Heap.Linked.withVal hf.seg _)
    | some p =>
      obtain ⟨hF, h1, h2⟩ := hh.lists.frozen
      exact ⟨hF, by rwa [Heap.next_withVal], by simpa using h2⟩
  · intro y hy
    rw [hkey]
    exact hh.lists.key y hy
  · rw [hkey]; exact hh.lists.head
  · rw [hkey]; exact hh.lists.tail
  · rw [Heap.next_withVal]; exact hh.lists.tailNext
  · intro k' e he
    have hE := hh.entry k' e he
    exact ⟨hE.valid, hE.node, by rw [hkey]; exact hE.key, by rw [Heap.prev_withVal]; exact hE.place⟩
  · exact fun i hi => hh.fresh i (by simpa using hi)

/-- `pushAfter` of a node off the lists. -/
theorem Rep.pushAfter (hr : Rep s σ τ) (hm : τ.main = A ++ x :: B) (hk : keyAt σ.heap n = some k)
    (hn : n.IsNode) (hoff : n ∉ τ.items.map Item.node) :
    ∃ h', FrozenHot.pushAfter σ.heap x.node n = .ok h' ∧
      Rep s { σ with heap := h' } { τ with main := A ++ x :: ⟨n, k⟩ :: B } := by
  have hh := hr.holds
  rw [items, hm] at hoff
  have hl := hh.lists
  rw [hm] at hl
  obtain ⟨h', he, hl', hkept⟩ := hl.pushAfter hk hn hoff
  refine ⟨h', he, hr.core, ⟨hl', fun k e he => (hh.entry k e he).kept hkept ?_ ?_,
    fun i hi => hh.fresh i (hkept.live.mp hi)⟩, hr.no_curve⟩
  · intro p hp
    rw [hm] at hp
    exact List.mem_cons_of_mem _ hp
  · intro p hp
    simp only [List.mem_cons, List.map_append, List.mem_append, List.map_cons] at hp ⊢
    tauto

/-! ### Thawed shards with one linked node for each key -/

/-- The items `I` are the linked nodes of the entries, one for each key but the pending `p`; nothing
    is frozen. -/
structure Flat (p : Option ℕ) (c : Core α) (I : List Item) : Prop where
  listed : Listed p c.m_map I
  linked : ∀ x ∈ I, ∃ v, c.m_map.lookup x.key = some ⟨some v, x.node⟩
  flags : c.tier_ready = false ∧ c.fast_hash_ready = false ∧ c.tier_no_insert = false ∧
    c.fast_hash_construct = false
  fasthash : c.m_fasthash = ∅

theorem Flat.perm {c : Core α} (hf : Flat p c I) (hp : I.Perm J) : Flat p c J :=
  ⟨hf.listed.perm hp, fun x hx => hf.linked x (hp.mem_iff.mpr hx), hf.flags, hf.fasthash⟩

theorem Flat.ne_tomb {c : Core α} (hf : Flat p c I) (hx : x ∈ I) : x.key ≠ TOMB_KEY :=
  (hf.listed.valid _ (hf.listed.mem hx)).ne_tomb

/-- Without one of the keys. -/
theorem Flat.erase {c : Core α} (hf : Flat p c (P ++ x :: Q)) :
    Flat p { c with m_map := c.m_map.erase x.key } (P ++ Q) := by
  refine ⟨hf.listed.remove, fun y hy => ?_, hf.flags, hf.fasthash⟩
  have hnd := hf.listed.nodup
  rw [List.map_append, List.map_cons] at hnd
  have hne : y.key ≠ x.key := by
    intro h
    refine (List.nodup_middle.mp hnd).notMem (h ▸ ?_)
    rw [← List.map_append]
    exact List.mem_map_of_mem hy
  obtain ⟨w, hw⟩ := hf.linked y (by rcases List.mem_append.mp hy with hy | hy <;> simp [hy])
  refine ⟨w, ?_⟩
  show (c.m_map.erase x.key).lookup y.key = _
  rw [Finmap.lookup_erase_ne hne]
  exact hw

/-- A thawed shard between curves. -/
theorem flat_of_wired (hw : Wired τ) (hthawed : τ.tier_ready = false ∧ τ.fast_hash_ready = false) :
    τ.frozen = [] ∧ Flat none τ.toCore (alive τ.main) ∧ τ.m_size = (alive τ.main).length := by
  obtain ⟨hF, hfast⟩ := hw.thawed hthawed.1 hthawed.2
  have hitems : τ.items = τ.main := by rw [items, hF]; rfl
  have hs := hw.sound
  refine ⟨hF, ⟨hitems ▸ hs.listed, hitems ▸ hw.linked, ⟨hthawed.1, hthawed.2, ?_, hs.idle⟩, hfast⟩,
    ?_⟩
  · exact hw.tier.trans hthawed.1
  · rw [hs.size, hitems]

/-- And the other way around. -/
theorem Flat.wired {c : Core α} (hf : Flat none c (alive L)) (hsize : c.m_size = (alive L).length) :
    Wired (⟨c, [], L⟩ : ListShard α) := by
  obtain ⟨ht, -, hno, hcon⟩ := hf.flags
  exact ⟨⟨hf.listed, hsize, hcon⟩, fun _ _ => ⟨rfl, hf.fasthash⟩, hf.linked, hno.trans ht.symm⟩

/-- The last item that is not a tombstone. -/
theorem last_alive (hl : alive L ≠ []) :
    ∃ A x T, L = A ++ x :: T ∧ x.key ≠ TOMB_KEY ∧ alive T = [] := by
  induction L using List.reverseRecOn with
  | nil => exact absurd rfl hl
  | append_singleton L x ih =>
    by_cases hx : x.key = TOMB_KEY
    · obtain ⟨A, y, T, rfl, hy, hT⟩ := ih (by simpa [alive_tomb hx] using hl)
      exact ⟨A, y, T ++ [x], by simp, hy, by rw [alive_append, hT, alive_tomb hx]; rfl⟩
    · exact ⟨L, x, [], rfl, hx, rfl⟩

/-- The tombstones at the tail go. -/
theorem trim_tombs (hT : alive L = []) (hx : x.key ≠ TOMB_KEY) (A : List Item) :
    trim (A ++ x :: L) = A ++ [x] := by
  induction L using List.reverseRecOn with
  | nil => exact List.rdropWhile_concat_neg _ _ _ (by simpa using hx)
  | append_singleton L y ih =>
    rw [alive_append, List.append_eq_nil_iff] at hT
    have hy : y.key = TOMB_KEY := by
      by_contra hy
      rw [alive_cons hy] at hT
      exact absurd hT.2 (by simp)
    rw [← ih hT.1, show A ++ x :: (L ++ [y]) = (A ++ x :: L) ++ [y] by simp]
    exact List.rdropWhile_concat_pos _ _ _ (by simpa using hy)

/-! ### The list with the marker -/

/-- The main list is `A`, the marker, and `B`; `A` are the nodes counted. Behind the marker there
    may be tombstones. -/
structure Curved (p : Option ℕ) (τ : ListShard α) (A B : List Item) : Prop where
  frozen : τ.frozen = []
  main : τ.main = A ++ ⟨τ.m_marker, MARKER_KEY⟩ :: B
  flat : Flat p τ.toCore (A ++ alive B)
  count : τ.movement_counter = A.length

/-- An eviction takes the last node that is not a tombstone, if that is not the marker. -/
theorem Curved.evict (hc : Curved p τ A (B ++ x :: Q)) (hx : x.key ≠ TOMB_KEY) (hQ : alive Q = []) :
    τ.evict p = some (true, { τ with
      main := A ++ ⟨τ.m_marker, MARKER_KEY⟩ :: B, m_map := τ.m_map.erase x.key }) ∧
    Curved p { τ with main := A ++ ⟨τ.m_marker, MARKER_KEY⟩ :: B, m_map := τ.m_map.erase x.key } A
    B := by
  have hf := hc.flat
  rw [alive_append, alive_cons hx, hQ, ← List.append_assoc] at hf
  have hmem : x ∈ A ++ alive B ++ [x] := by simp
  have htrim : trim τ.main = A ++ ⟨τ.m_marker, MARKER_KEY⟩ :: B ++ [x] := by
    rw [hc.main, ← trim_tombs hQ hx]
    simp
  have hheld : p ≠ some x.key := fun h => hf.listed.pending _ h (List.mem_map_of_mem hmem)
  have herase := Flat.erase (P := A ++ alive B) (Q := []) hf
  rw [List.append_nil] at herase
  refine ⟨?_, hc.frozen, rfl, herase, hc.count⟩
  rw [ListShard.evict, htrim, List.getLast?_concat, List.dropLast_concat]
  simp [hf.listed.mem hmem, hheld]

/-- The new key in the map. -/
theorem Curved.place (hc : Curved none τ A B) (hk : ValidKey k) (hm : k ∉ τ.m_map) (v : α) :
    Curved (some k) (τ.place k (some v)) A B := by
  refine ⟨hc.frozen, hc.main, ⟨hc.flat.listed.place hm hk, fun y hy => ?_, hc.flat.flags,
    hc.flat.fasthash⟩, hc.count⟩
  obtain ⟨w, hw⟩ := hc.flat.linked y hy
  refine ⟨w, ?_⟩
  have hne : y.key ≠ k := fun h => hm (h ▸ hc.flat.listed.mem hy)
  show (τ.m_map.insert k _).lookup y.key = _
  rw [Finmap.lookup_insert_of_ne _ hne]
  exact hw

/-- Room for the new key is made behind the marker. -/
theorem Curved.makeRoom (hc : Curved (some k) τ A B)
    (hroom : τ.m_maxSize ≤ τ.m_size → alive B ≠ []) :
    ∃ d B₁ m, τ.makeRoom k = some (d,
      { τ with main := A ++ ⟨τ.m_marker, MARKER_KEY⟩ :: B₁, m_map := m }) ∧
      Curved (some k) { τ with main := A ++ ⟨τ.m_marker, MARKER_KEY⟩ :: B₁, m_map := m } A B₁ ∧
      B₁ <+: B ∧
      m.lookup k = τ.m_map.lookup k ∧
      (d = true ∧ τ.m_maxSize ≤ τ.m_size ∧ (alive B).length = (alive B₁).length + 1 ∨
        d = false ∧ τ.m_size < τ.m_maxSize ∧ (alive B).length = (alive B₁).length) := by
  by_cases hfull : τ.m_maxSize ≤ τ.m_size
  · obtain ⟨B₁, x, T, rfl, hx, hT⟩ := last_alive (hroom hfull)
    obtain ⟨he, hc'⟩ := hc.evict hx hT
    refine ⟨true, B₁, _, (if_pos hfull).trans he, hc', List.prefix_append _ _, ?_,
      Or.inl ⟨rfl, hfull, ?_⟩⟩
    · have hxk : x.key ≠ k := fun h =>
        hc.flat.listed.pending k rfl (List.mem_map.mpr ⟨x, by simp [alive_cons hx], h⟩)
      exact Finmap.lookup_erase_ne hxk.symm
    · simp [alive_cons hx, hT]
  · have hsame : { τ with main := A ++ ⟨τ.m_marker, MARKER_KEY⟩ :: B, m_map := τ.m_map } = τ := by
      rw [← hc.main]
    refine ⟨false, B, τ.m_map, ?_, by rw [hsame]; exact hc, List.prefix_rfl, rfl,
      Or.inr ⟨rfl, by omega, rfl⟩⟩
    rw [hsame]
    exact if_neg hfull

/-- The new node behind the marker. -/
theorem Curved.link (hc : Curved (some k) τ A B) (hk : k ≠ TOMB_KEY)
    (hl : τ.m_map.lookup k = some ⟨some v, n⟩) :
    Curved none { τ with main := A ++ ⟨τ.m_marker, MARKER_KEY⟩ :: ⟨n, k⟩ :: B } A
    (⟨n, k⟩ :: B) := by
  have hperm : (⟨n, k⟩ :: (A ++ alive B)).Perm (A ++ alive (⟨n, k⟩ :: B)) := by
    rw [alive_cons hk]
    exact List.perm_middle.symm
  refine ⟨hc.frozen, rfl, ⟨(hc.flat.listed.link n).perm hperm, fun y hy => ?_, hc.flat.flags,
    hc.flat.fasthash⟩, hc.count⟩
  rcases List.mem_cons.mp (hperm.mem_iff.mpr hy) with rfl | hy
  · exact ⟨v, hl⟩
  · exact hc.flat.linked y hy

/-- The end of `insert` keeps the marker, since the new node is behind it. -/
theorem Curved.settle {d : Bool} {i : ℕ} (hc : Curved none τ A B) (hB : alive B ≠ [])
    (hsize : d = true ∧ τ.m_size = (A ++ alive B).length ∨
      d = false ∧ τ.m_size < τ.m_maxSize ∧ τ.m_size + 1 = (A ++ alive B).length) :
    ∃ τ' B', τ.settle i d = some τ' ∧ Curved none τ' A B' ∧ B' <+: B ∧
      τ'.m_size = (A ++ alive B').length ∧
      τ'.m_marker = τ.m_marker ∧ τ'.m_maxSize = τ.m_maxSize := by
  rcases hsize with ⟨rfl, hsize⟩ | ⟨rfl, hlt, hsize⟩
  · by_cases hover : i > τ.m_maxSize
    · -- overfull: one more node goes
      obtain ⟨B', x, T, rfl, hx, hT⟩ := last_alive hB
      obtain ⟨he, hc'⟩ := hc.evict hx hT
      refine ⟨{ τ with
        main := A ++ ⟨τ.m_marker, MARKER_KEY⟩ :: B', m_map := τ.m_map.erase x.key, m_size :=
          sizeDec τ.m_size }, B', ?_,
        ⟨hc'.frozen, hc'.main, ⟨hc'.flat.listed, hc'.flat.linked, hc'.flat.flags,
          hc'.flat.fasthash⟩, hc'.count⟩,
        List.prefix_append _ _, ?_, rfl, rfl⟩
      · exact (if_pos hover).trans (by rw [show τ.count true = τ from rfl, he]; rfl)
      · show sizeDec τ.m_size = _
        rw [sizeDec, hsize]
        simp [alive_cons hx, hT]
    · exact ⟨τ, B, if_neg hover, hc, List.prefix_rfl, hsize, rfl, rfl⟩
  · have hinc : sizeInc τ.m_size = (A ++ alive B).length := by
      have := hc.flat.listed.length_le
      rw [sizeInc, hsize]
      exact Nat.mod_eq_of_lt (by omega)
    refine ⟨τ.count false, B, ?_, ⟨hc.frozen, hc.main,
      ⟨hc.flat.listed, hc.flat.linked, hc.flat.flags, hc.flat.fasthash⟩, hc.count⟩, List.prefix_rfl,
      hinc, rfl, rfl⟩
    exact if_neg (show ¬ τ.m_size > τ.m_maxSize by omega)

end Shard
end FrozenHot
