import FrozenHot.Freeze.Partial

/-! `construct_ratio` while inserts keep arriving.

    Each iteration of the scan is one step; between two of them other calls complete. Inserts push
    new items in front of those the scan has copied and evictions take items behind those it has
    still to copy. The two cuts stop the scan or detach its list before the evictions reach it, as
    long as no more than `FC_RELAXATION` inserts complete between two readings of
    `eviction_counter`. -/

namespace FrozenHot
open Schemes ListShard

variable {α : Type}

/-- A full shard with nothing frozen: one item for each key of the map and no tombstones. -/
structure Full (τ : ListShard α) : Prop where
  listed : Listed none τ.m_map τ.main
  size : τ.m_size = τ.m_maxSize
  length : τ.main.length = τ.m_maxSize
  frozen : τ.frozen = []
  fasthash : τ.m_fasthash = ∅
  tier : τ.tier_ready = false
  no_insert : τ.tier_no_insert = false
  ready : τ.fast_hash_ready = false

/-- A shard in the scan of `construct_ratio`. `inserts` counts the calls of `insert` that completed
    since `eviction_counter` was last read. -/
structure Freezing (α : Type) where
  shard : Shard α
  scan : Shard.Scan
  inserts : ℕ

/-- An iteration of the scan, or a call that completes between two of them. -/
inductive FreezeStep (α : Type) where
  | scan
  | insert (key : ℕ) (value : Option α)
  | find (lock : Bool) (key : ℕ)

namespace Freezing

/-- The scan is over. -/
def Done (s : Freezing α) : Prop := s.scan.stop = true ∨ s.scan.temp_node = .m_fast_tail

def step (FC_size DC_size : ℕ) (s : Freezing α) : FreezeStep α → Except Fault (Unit × Freezing α)
  | .scan => do
    let r ← Shard.scanStep FC_size DC_size s.shard s.scan
    return ((), ⟨r.1, r.2, 0⟩)
  | .insert key value => do
    let r ← s.shard.insert key value
    return ((), { s with shard := r.2, inserts := s.inserts + 1 })
  | .find lock key => do
    let r ← LRU_FHCache.find lock s.shard key
    return ((), { s with shard := r.2 })

/-- The steps that may come next: the scan goes on until it is over, and inserts are of absent keys,
    no more than `FC_RELAXATION` of them before the next reading of `eviction_counter`. -/
def Allowed (s : Freezing α) : FreezeStep α → Prop
  | .scan => ¬ s.Done
  | .insert key _ => ValidKey key ∧ key ∉ s.shard.m_map ∧ (s.inserts < FC_RELAXATION ∨ s.Done)
  | .find _ key => ValidKey key

variable {s s' : Freezing α} {τ τ' : ListShard α} {A C R : List Item} {x : Item} {k N FC_size : ℕ}
variable {p : Option Ptr}

/-! ### The invariant -/

/-- What holds throughout: the items `C` are in the fast hash, and no other keys. -/
structure Copied (N : ℕ) (s : Freezing α) (p : Option Ptr) (τ : ListShard α) (C : List Item) :
    Prop where
  rep : Shard.Rep p s.shard τ
  listed : Listed none τ.m_map τ.items
  size : τ.m_size = τ.m_maxSize
  maxSize : τ.m_maxSize = N
  length : τ.items.length = N
  tier : τ.tier_ready = false
  no_insert : τ.tier_no_insert = false
  ready : τ.fast_hash_ready = false
  construct : τ.fast_hash_construct = true
  fasthash : ∀ k, k ∈ τ.m_fasthash ↔ k ∈ C.map Item.key
  count : s.scan.count = C.length

/-- Where the scan is: on the main list with `R` ahead and the items `A` inserted since it began, on
    the list that was detached when the evictions came close, or at the end. -/
inductive Phase (N FC_size : ℕ) (s : Freezing α) : Option Ptr → ListShard α → List Item → Prop
  | first_pass {τ : ListShard α} {A C R : List Item} (frozen : τ.frozen = [])
      (main : τ.main = A ++ (C ++ R)) (count : C.length ≤ FC_size - FC_RELAXATION)
      (evictions : τ.eviction_counter = A.length)
      (bound : A.length ≤ N - FC_size - FC_RELAXATION + s.inserts)
        (inserts : s.inserts ≤ FC_RELAXATION)
      (scan : s.scan = ⟨(R.map Item.node).headD .m_tail, s.scan.count, true, false⟩) :
      Phase N FC_size s (some (((C ++ R).map Item.node).headD .m_fast_tail)) τ C
  | detached {τ : ListShard α} {C R : List Item} (frozen : τ.frozen = C ++ R) (main : τ.main ≠ [])
      (scan : s.scan = ⟨(R.map Item.node).headD .m_fast_tail, s.scan.count, false, false⟩) :
      Phase N FC_size s none τ C
  | cut {τ : ListShard α} {C : List Item} (frozen : τ.frozen = C) (main : τ.main ≠ [])
      (stop : s.scan.stop = true) : Phase N FC_size s none τ C

/-- The invariant of the steps. -/
def Safe (N FC_size : ℕ) (s : Freezing α) : Prop :=
  ∃ p τ C, Copied N s p τ C ∧ Phase N FC_size s p τ C

/-! ### The calls between two iterations -/

/-- `find` changes nothing during the scan. -/
theorem Copied.find (hc : Copied N s p τ C) (lock : Bool) (k : ℕ) :
    ∃ r, LRU_FHCache.find lock s.shard k = .ok (r, s.shard) := by
  have hcore := hc.rep.core
  have h1 : s.shard.tier_ready = false := by rw [hcore]; exact hc.tier
  have h2 : s.shard.fast_hash_ready = false := by rw [hcore]; exact hc.ready
  have h3 : s.shard.fast_hash_construct = true := by rw [hcore]; exact hc.construct
  cases hl : s.shard.m_map.lookup k with
  | none =>
    exact ⟨none, by simp [LRU_FHCache.find, Shard.findWith, Shard.findSlow, assert, h1, h2, hl]⟩
  | some e =>
    exact ⟨some e.m_value, by simp [LRU_FHCache.find, Shard.findWith, Shard.findSlow, assert, h1,
      h2, h3, hl]⟩

/-- `insert` evicts the last item of the main list and pushes the new one to its front. -/
theorem Copied.insert (hc : Copied N s p τ C) (hk : ValidKey k) (hm : k ∉ τ.m_map) (v : Option α)
    (hmain : τ.main = A ++ [x]) :
    ∃ σ' τ', s.shard.insert k v = .ok (true, σ') ∧ τ'.frozen = τ.frozen ∧
      τ'.main = ⟨.node τ.fresh, k⟩ :: A ∧ τ'.eviction_counter = τ.eviction_counter + 1 ∧
      Copied N { s with shard := σ', inserts := s.inserts + 1 } p τ' C := by
  have hxI : x ∈ τ.items := List.mem_append_right _ (by simp [hmain])
  have htrim : trim τ.main = A ++ [x] := (trim_self fun y hy =>
    (hc.listed.valid _ (hc.listed.mem (List.mem_append_right _ hy))).ne_tomb).trans hmain
  have hins := insert_full hc.no_insert hm hc.size htrim (hc.listed.mem hxI) v
  obtain ⟨σ', hσ, hr⟩ := hc.rep.insert hk hins
  have hl : Listed none ((τ.m_map.insert k ⟨v, .node τ.fresh⟩).erase x.key)
      (⟨.node τ.fresh, k⟩ :: (τ.frozen ++ A)) := by
    have h1 : Listed none τ.m_map ((τ.frozen ++ A) ++ x :: []) := by
      have := hc.listed
      rw [items, hmain] at this
      simpa using this
    have h2 := (h1.place (e := ⟨v, .node τ.fresh⟩) hm hk).remove
    rw [List.append_nil] at h2
    exact h2.link _
  refine ⟨σ', { τ.linked k v with main := ⟨.node τ.fresh, k⟩ :: A, m_map := _ }, hσ, rfl, rfl, ?_,
    hr, hl.perm List.perm_middle.symm, hc.size, hc.maxSize, ?_, hc.tier, hc.no_insert, hc.ready,
    hc.construct, hc.fasthash, hc.count⟩
  · simp [linked, place, hc.construct, hm]
  · show (τ.frozen ++ _ :: A).length = N
    have := hc.length
    simp only [items, hmain, List.length_append, List.length_cons, List.length_nil] at this ⊢
    omega

/-! ### An iteration of the scan -/

/-- An item is copied; the lists may be cut elsewhere. -/
theorem Copied.copy {e : HashMapValue (Option α)} {h' : Heap Ptr NodeData} {q : Option Ptr}
    {F L : List Item} (hc : Copied N s p τ C) (hx : x ∈ τ.items) (hp : (F ++ L).Perm τ.items)
    (hh : Shard.Holds h' τ.toCore q F L) (l : Shard.Scan) (hl : l.count = s.scan.count + 1) :
    Copied N ⟨⟨{ τ.toCore with m_fasthash := τ.m_fasthash.put x.key e.m_value }, h'⟩, l, 0⟩ q
      { τ with frozen := F, main := L, m_fasthash := τ.m_fasthash.put x.key e.m_value }
      (C ++ [x]) := by
  refine ⟨⟨rfl, hh.congr rfl rfl, hc.rep.no_curve⟩, hc.listed.perm hp.symm, hc.size, hc.maxSize,
    hp.length_eq.trans hc.length, hc.tier, hc.no_insert, hc.ready, hc.construct, fun k => ?_, ?_⟩
  · rw [FastHash.mem_put (hc.listed.valid _ (hc.listed.mem hx)), hc.fasthash]
    simp
  · rw [hl, hc.count]; simp

theorem first_append {A B C : List Item} {q : Ptr} (hA : A ≠ []) :
    ((A ++ B).map Item.node).headD q = ((A ++ C).map Item.node).headD q := by
  cases A with
  | nil => exact (hA rfl).elim
  | cons x A => rfl

theorem first_end {A : List Item} (hA : A ≠ []) (q q' : Ptr) :
    (A.map Item.node).headD q = (A.map Item.node).headD q' := by
  cases A with
  | nil => exact (hA rfl).elim
  | cons x A => rfl

/-- An iteration on the main list: the scan goes on, or one of the cuts is made. -/
theorem Copied.scan_main {h : Heap Ptr NodeData} {c : ℕ} {r : ℕ}
    (hc : Copied N ⟨⟨τ.toCore, h⟩, ⟨x.node, c, true, false⟩, r⟩
      (some (((C ++ x :: R).map Item.node).headD .m_fast_tail)) τ C)
    (frozen : τ.frozen = []) (main : τ.main = A ++ (C ++ x :: R)) (hR : R ≠ [])
    (hFC : FC_RELAXATION ≤ FC_size) (hDC : FC_size + FC_RELAXATION ≤ N)
    (evictions : τ.eviction_counter = A.length) :
    ∃ s', step FC_size (sizeSub N FC_size) ⟨⟨τ.toCore, h⟩, ⟨x.node, c, true, false⟩, r⟩ .scan =
      .ok ((), s') ∧
      Safe N FC_size s' := by
  have hx : x ∈ [] ++ (A ++ (C ++ x :: R)) := by simp
  have hxI : x ∈ τ.items := by rw [items, frozen, main]; exact hx
  obtain ⟨e, he⟩ := Finmap.mem_iff.mp (hc.listed.mem hxI)
  have hh : Shard.Holds h τ.toCore (some (((C ++ x :: R).map Item.node).headD .m_fast_tail)) []
      (A ++ (C ++ x :: R)) := by
    have := hc.rep.holds
    rwa [frozen, main] at this
  have hnext : h.next x.node = some ((R.map Item.node).headD .m_tail) := by
    have hh' := hh
    rw [← List.append_assoc] at hh'
    exact hh'.scan_next
  have hstep := hh.scan_live (l := ⟨x.node, c, true, false⟩) FC_size (sizeSub N FC_size)
    hx rfl hnext he
  have hsplit : C ++ x :: R = C ++ [x] ++ R := by simp
  have h1 : sizeSub FC_size FC_RELAXATION = FC_size - FC_RELAXATION := if_pos hFC
  have h2 : sizeSub N FC_size = N - FC_size := if_pos (by omega)
  have h3 : sizeSub (N - FC_size) FC_RELAXATION = N - FC_size - FC_RELAXATION := if_pos (by omega)
  rw [h2, h1, h3] at hstep
  rw [h2]
  by_cases hcut : c + 1 > FC_size - FC_RELAXATION
  · -- enough is copied
    have hcopied : Shard.Holds h τ.toCore (some (((C ++ [x]).map Item.node).headD .m_fast_tail)) []
        (A ++ (C ++ [x]) ++ R) := by
      rwa [hsplit, first_append (C := []) (by simp), List.append_nil, ← List.append_assoc] at hh
    obtain ⟨h', hcc, hh'⟩ := hcopied.cutCount (by simp)
    have hp : (C ++ [x] ++ (A ++ R)).Perm ([] ++ (A ++ (C ++ x :: R))) := by
      rw [hsplit]; exact List.perm_append_comm_assoc _ _ _
    rw [if_pos ⟨hcut, rfl⟩, hcc] at hstep
    have hc' := hc.copy (e := e) hxI (by rw [items, frozen, main]; exact hp) hh'
      ⟨(R.map Item.node).headD .m_tail, c + 1, true, true⟩ rfl
    refine ⟨_, ?_, none, _, C ++ [x], hc', .cut rfl (by simp [hR]) rfl⟩
    simp [step, hstep, Except.map]
  · rw [if_neg (fun hc => hcut hc.1)] at hstep
    by_cases hev : τ.eviction_counter > N - FC_size - FC_RELAXATION
    · -- the evictions come close
      obtain ⟨h', hce, hh'⟩ := hh.cutEvictions (by simp)
      have hp : (C ++ x :: R ++ A).Perm ([] ++ (A ++ (C ++ x :: R))) := List.perm_append_comm
      rw [if_pos ⟨hev, rfl⟩, hce] at hstep
      have hc' := hc.copy (e := e) hxI (by rw [items, frozen, main]; exact hp) hh'
        ⟨(R.map Item.node).headD .m_tail, c + 1, false, false⟩ rfl
      have hA : A ≠ [] := by
        rintro rfl
        rw [evictions, List.length_nil] at hev; omega
      refine ⟨_, ?_, none, _, C ++ [x], hc', .detached hsplit hA ?_⟩
      · simp [step, hstep, Except.map]
      · rw [first_end hR]
    · rw [if_neg (fun hc => hev hc.1)] at hstep
      have hc' := hc.copy (e := e) hxI (by rw [items, frozen, main]) hh
        ⟨(R.map Item.node).headD .m_tail, c + 1, true, false⟩ rfl
      rw [hsplit] at hc'
      have hcount : c = C.length := hc.count
      refine ⟨_, ?_, _, _, C ++ [x], hc', .first_pass rfl rfl ?_ evictions ?_ (Nat.zero_le _) rfl⟩
      · simp [step, hstep]
      · rw [List.length_append, List.length_singleton]; omega
      · rw [← evictions]; omega

/-- An iteration on the detached list. -/
theorem Copied.scan_detached {h : Heap Ptr NodeData} {c r D : ℕ}
    (hc : Copied N ⟨⟨τ.toCore, h⟩, ⟨x.node, c, false, false⟩, r⟩ none τ C)
    (frozen : τ.frozen = C ++ x :: R) (main : τ.main ≠ []) :
    ∃ s', step FC_size D ⟨⟨τ.toCore, h⟩, ⟨x.node, c, false, false⟩, r⟩ .scan = .ok ((), s') ∧
      Safe N FC_size s' := by
  have hx : x ∈ τ.items := List.mem_append_left _ (by simp [frozen])
  obtain ⟨e, he⟩ := Finmap.mem_iff.mp (hc.listed.mem hx)
  have hnext : h.next x.node = some ((R.map Item.node).headD .m_fast_tail) := by
    have hl : IsList h .m_fast_head (τ.frozen.map Item.node) .m_fast_tail :=
      hc.rep.holds.lists.frozen
    rw [frozen] at hl
    exact hl.seg.next_map
  have hstep := Shard.Holds.scan_live (l := ⟨x.node, c, false, false⟩) FC_size D hc.rep.holds
    hx rfl hnext he
  rw [if_neg (by simp), if_neg (by simp)] at hstep
  have hc' := hc.copy (e := e) hx (List.Perm.refl _) hc.rep.holds
    ⟨(R.map Item.node).headD .m_fast_tail, c + 1, false, false⟩ rfl
  refine ⟨_, ?_, none, _, C ++ [x], hc', .detached (R := R) (by simp [frozen]) main rfl⟩
  simp [step, hstep]

/-! ### Every step -/

theorem Copied.notMem (hc : Copied N s p τ C) (hm : k ∉ s.shard.m_map) : k ∉ τ.m_map := by
  rwa [hc.rep.core] at hm

theorem Copied.first_ne (hc : Copied N s p τ C) (hR : ∀ x ∈ R, x ∈ τ.items) :
    (R.map Item.node).headD .m_tail ≠ .m_fast_tail := by
  cases R with
  | nil => simp
  | cons x R => exact (hc.rep.holds.lists.node (hR x (by simp))).ne_of_not id

/-- On the first pass at least `FC_RELAXATION` items are still ahead of the scan. -/
theorem Copied.ahead (hc : Copied N s p τ C) (frozen : τ.frozen = [])
    (main : τ.main = A ++ (C ++ R)) (hFC : FC_RELAXATION ≤ FC_size)
    (hDC : FC_size + FC_RELAXATION ≤ N) (count : C.length ≤ FC_size - FC_RELAXATION)
    (bound : A.length ≤ N - FC_size - FC_RELAXATION + s.inserts)
    (inserts : s.inserts ≤ FC_RELAXATION) :
    FC_RELAXATION ≤ R.length := by
  have := hc.length
  simp only [items, frozen, main, List.nil_append, List.length_append] at this
  omega

theorem Safe.scan (hs : Safe N FC_size s) (hFC : FC_RELAXATION ≤ FC_size)
    (hDC : FC_size + FC_RELAXATION ≤ N) (hnot : ¬ s.Done) :
    ∃ s', s.step FC_size (sizeSub N FC_size) .scan = .ok ((), s') ∧ Safe N FC_size s' := by
  obtain ⟨p, τ, C, hc, hph⟩ := hs
  obtain ⟨⟨c, h⟩, ⟨t, n, f, st⟩, r⟩ := s
  obtain rfl : c = τ.toCore := hc.rep.core
  cases hph with
  | first_pass frozen main count evictions bound inserts scan =>
    have hlen := hc.ahead frozen main hFC hDC count bound inserts
    rename_i A R
    match R, hlen with
    | x :: y :: R, _ =>
      simp only [Shard.Scan.mk.injEq, true_and, List.map_cons, List.headD_cons] at scan
      obtain ⟨rfl, rfl, rfl⟩ := scan
      exact hc.scan_main frozen main (by simp) hFC hDC evictions
  | detached frozen main scan =>
    rename_i R
    simp only [Shard.Scan.mk.injEq, true_and] at scan
    obtain ⟨rfl, rfl, rfl⟩ := scan
    cases R with
    | nil => exact (hnot (Or.inr rfl)).elim
    | cons x R => exact hc.scan_detached frozen main
  | cut frozen main stop => exact (hnot (Or.inl stop)).elim

theorem Safe.insert (hs : Safe N FC_size s) (hFC : FC_RELAXATION ≤ FC_size)
    (hDC : FC_size + FC_RELAXATION ≤ N) (hk : ValidKey k) (hm : k ∉ s.shard.m_map)
    (hroom : s.inserts < FC_RELAXATION ∨ s.Done) (v : Option α) :
    ∃ s', s.step FC_size (sizeSub N FC_size) (.insert k v) = .ok ((), s') ∧ Safe N FC_size s' := by
  obtain ⟨p, τ, C, hc, hph⟩ := hs
  have hm' := hc.notMem hm
  -- the shard is full, so the main list loses its last item
  have hins : ∀ A x, τ.main = A ++ [x] → ∃ σ' τ',
      s.step FC_size (sizeSub N FC_size) (.insert k v) =
        .ok ((), { s with shard := σ', inserts := s.inserts + 1 }) ∧ τ'.frozen = τ.frozen ∧
      τ'.main = ⟨.node τ.fresh, k⟩ :: A ∧ τ'.eviction_counter = τ.eviction_counter + 1 ∧
      Copied N { s with shard := σ', inserts := s.inserts + 1 } p τ' C := by
    intro A x hmain
    obtain ⟨σ', τ', h1, h2⟩ := hc.insert hk hm' v hmain
    exact ⟨σ', τ', by simp [Freezing.step, h1], h2⟩
  cases hph with
  | first_pass frozen main count evictions bound inserts scan =>
    have hlen := hc.ahead frozen main hFC hDC count bound inserts
    rename_i A R
    have hfirst : (R.map Item.node).headD .m_tail ≠ .m_fast_tail :=
      hc.first_ne fun y hy => List.mem_append_right _ (by simp [main, hy])
    have hnot : ¬ s.Done := by
      unfold Done; rw [scan]; simpa using hfirst
    have hr := hroom.resolve_right hnot
    obtain ⟨R, x, rfl⟩ := List.eq_nil_or_concat R |>.resolve_left
      (by rintro rfl; simp [FC_RELAXATION] at hlen)
    rw [List.concat_eq_append] at main scan hlen
    have hR : R ≠ [] := by
      rintro rfl
      simp [FC_RELAXATION] at hlen
    obtain ⟨σ', τ', h1, h2, h3, h4, hc'⟩ := hins (A ++ (C ++ R)) x (by simp [main])
    have hp : ((C ++ R.concat x).map Item.node).headD .m_fast_tail =
        ((C ++ R).map Item.node).headD .m_fast_tail := by
      rw [List.concat_eq_append, ← List.append_assoc, first_append (C := []) (by simp [hR]),
        List.append_nil]
    rw [hp] at hc'
    have hnew : τ'.main = (⟨.node τ.fresh, k⟩ :: A) ++ (C ++ R) := h3
    refine ⟨_, h1, _, τ', C, hc', .first_pass (h2.trans frozen) hnew count ?_ ?_ hr ?_⟩
    · rw [h4, evictions]; rfl
    · simp only [List.length_cons]; omega
    · rw [scan, first_append (B := [x]) (C := []) hR, List.append_nil]
  | detached frozen main scan =>
    obtain ⟨A, x, hmain⟩ := List.eq_nil_or_concat τ.main |>.resolve_left main
    obtain ⟨σ', τ', h1, h2, h3, h4, hc'⟩ := hins A x (by rw [hmain, List.concat_eq_append])
    exact ⟨_, h1, none, τ', C, hc', .detached (h2.trans frozen) (by simp [h3]) scan⟩
  | cut frozen main stop =>
    obtain ⟨A, x, hmain⟩ := List.eq_nil_or_concat τ.main |>.resolve_left main
    obtain ⟨σ', τ', h1, h2, h3, h4, hc'⟩ := hins A x (by rw [hmain, List.concat_eq_append])
    exact ⟨_, h1, none, τ', C, hc', .cut (h2.trans frozen) (by simp [h3]) stop⟩

/-- Every step that may come next returns, and keeps the invariant. -/
theorem Safe.step (hs : Safe N FC_size s) (hFC : FC_RELAXATION ≤ FC_size)
    (hDC : FC_size + FC_RELAXATION ≤ N) {a : FreezeStep α} (ha : s.Allowed a) :
    ∃ s', s.step FC_size (sizeSub N FC_size) a = .ok ((), s') ∧ Safe N FC_size s' := by
  cases a with
  | find lock k =>
    obtain ⟨p, τ, C, hc, hph⟩ := hs
    obtain ⟨r, hr⟩ := hc.find lock k
    exact ⟨s, by simp [Freezing.step, hr], p, τ, C, hc, hph⟩
  | scan => exact hs.scan hFC hDC ha
  | insert k v => exact hs.insert hFC hDC ha.1 ha.2.1 ha.2.2 v

/-! ### Whole freezes -/

/-- The scan begins with nothing copied and the whole list ahead. -/
theorem safe_begin {σ : Shard α} (hr : Shard.Rep none σ τ) (hfull : Full τ)
    (hFC : FC_size ≤ τ.m_maxSize) (hpos : 1 ≤ τ.m_maxSize) :
    ∃ r, Shard.ratioBegin FC_size σ = .ok r ∧
      Safe τ.m_maxSize FC_size ⟨r.1, r.2, 0⟩ := by
  obtain ⟨c, h⟩ := σ
  obtain rfl : c = τ.toCore := hr.core
  have hh : Shard.Holds h τ.toCore none [] τ.main := hfull.frozen ▸ hr.holds
  obtain ⟨h', hb, hh'⟩ := hh.ratioBegin hFC
  have hne : τ.main ≠ [] := fun h0 => by
    have := hfull.length
    rw [h0, List.length_nil] at this; omega
  rw [first_end hne .m_tail .m_fast_tail] at hh'
  have hc :
      Copied τ.m_maxSize ⟨⟨{ τ.toCore with eviction_counter := 0, fast_hash_construct := true },
        h'⟩,
      ⟨(τ.main.map Item.node).headD .m_tail, 0, true, false⟩, 0⟩
      (some ((τ.main.map Item.node).headD .m_fast_tail))
      { τ with eviction_counter := 0, fast_hash_construct := true, frozen := [] } [] :=
    ⟨⟨rfl, hh', hr.no_curve⟩, hfull.listed, hfull.size, rfl, hfull.length, hfull.tier,
      hfull.no_insert, hfull.ready, rfl, fun k => by simp [hfull.fasthash, Finmap.notMem_empty],
      rfl⟩
  refine ⟨_, hb, _, _, [], hc, .first_pass (A := []) (C := []) (R := τ.main) rfl rfl
    (Nat.zero_le _) rfl
    (Nat.zero_le _) (Nat.zero_le _) rfl⟩

theorem Phase.mem (hph : Phase N FC_size s p τ C) (hx : x ∈ C) : x ∈ τ.items := by
  cases hph with
  | first_pass frozen main => exact List.mem_append_right _ (by simp [main, hx])
  | detached frozen main => exact List.mem_append_left _ (by simp [frozen, hx])
  | cut frozen main => exact List.mem_append_left _ (by simpa [frozen] using hx)

/-- A scan that is not over stands at a linked node. -/
theorem Safe.linked (hs : Safe N FC_size s) (hFC : FC_RELAXATION ≤ FC_size)
    (hDC : FC_size + FC_RELAXATION ≤ N) (hnot : ¬ s.Done) :
    ∃ p F L, Shard.Lists s.shard.heap p F L ∧ s.scan.temp_node ∈ (F ++ L).map Item.node := by
  obtain ⟨p, τ, C, hc, hph⟩ := hs
  refine ⟨p, τ.frozen, τ.main, hc.rep.holds.lists, ?_⟩
  cases hph with
  | first_pass frozen main count evictions bound inserts scan =>
    have hlen := hc.ahead frozen main hFC hDC count bound inserts
    rename_i A R
    cases R with
    | nil => simp [FC_RELAXATION] at hlen
    | cons x R => rw [scan, main]; simp
  | detached frozen main scan =>
    rename_i R
    cases R with
    | nil => exact (hnot (Or.inr (by rw [scan]; rfl))).elim
    | cons x R => rw [scan, frozen]; simp
  | cut frozen main stop => exact (hnot (Or.inl stop)).elim

/-- A copied key is still in the map. -/
theorem Safe.copied (hs : Safe N FC_size s) (hk : k ∈ s.shard.m_fasthash) : k ∈ s.shard.m_map := by
  obtain ⟨p, τ, C, hc, hph⟩ := hs
  rw [hc.rep.core] at hk ⊢
  obtain ⟨x, hx, rfl⟩ := List.mem_map.mp ((hc.fasthash k).mp hk)
  exact hc.listed.mem (hph.mem hx)

/-- When the scan is over, the frozen items are the copied ones. -/
theorem Safe.done (hs : Safe N FC_size s) (hdone : s.Done) :
    ∃ F L, Shard.Lists s.shard.heap none F L ∧ (∀ k, k ∈ s.shard.m_fasthash ↔ k ∈ F.map Item.key) ∧
      ((F ++ L).map Item.key).Nodup ∧ ∀ k, k ∈ s.shard.m_map ↔ k ∈ (F ++ L).map Item.key := by
  obtain ⟨p, τ, C, hc, hph⟩ := hs
  suffices hF : p = none ∧ τ.frozen = C by
    obtain ⟨rfl, rfl⟩ := hF
    refine ⟨τ.frozen, τ.main, hc.rep.holds.lists, ?_, hc.listed.nodup, fun k => ?_⟩
    · rw [hc.rep.core]; exact hc.fasthash
    · rw [hc.rep.core, hc.listed.keys]; simp [items]
  cases hph with
  | first_pass frozen main count evictions bound inserts scan =>
    rename_i A R
    have hne := hc.first_ne (R := R) fun y hy => List.mem_append_right _ (by simp [main, hy])
    unfold Done at hdone
    rw [scan] at hdone
    exact absurd (hdone.resolve_left Bool.false_ne_true) hne
  | detached frozen main scan =>
    rename_i R
    cases R with
    | nil => exact ⟨rfl, by simpa using frozen⟩
    | cons x R =>
      have hx := hc.rep.holds.lists.node (x := x) (List.mem_append_left _ (by simp [frozen]))
      unfold Done at hdone
      rw [scan] at hdone
      simp [(hx.ne_of_not id : x.node ≠ .m_fast_tail)] at hdone
  | cut frozen main stop => exact ⟨rfl, frozen⟩

/-- The scan makes no more iterations than there are places. -/
theorem Safe.count_le (hs : Safe N FC_size s) : s.scan.count ≤ N := by
  obtain ⟨p, τ, C, hc, hph⟩ := hs
  have := hc.length
  rw [hc.count]
  cases hph with
  | first_pass frozen main => simp [items, frozen, main] at this; omega
  | detached frozen main => simp [items, frozen] at this; omega
  | cut frozen main => simp [items, frozen] at this; omega

end Freezing

/-- A thawed shard whose places are all taken is full, if nothing on its list is a tombstone. -/
theorem ListShard.Keeps.full {τ : ListShard α} (hk : Keeps τ) (htier : τ.tier_ready = false)
    (hno : τ.tier_no_insert = false) (hready : τ.fast_hash_ready = false)
    (hsize : τ.m_size = τ.m_maxSize) (htomb : ∀ x ∈ τ.main, x.key ≠ TOMB_KEY) : Full τ := by
  obtain ⟨hF, hfast⟩ := hk.thawed htier hready
  have hal : alive τ.items = τ.main := by
    rw [items, hF, List.nil_append, alive, List.filter_eq_self]
    simpa using htomb
  have hl := hk.sound.listed
  have hs := hk.sound.size
  rw [hal] at hl hs
  exact ⟨hl, hsize, hs.symm.trans hsize, hF, hfast, htier, hno, hready⟩

/-- Reading new keys fills a shard. -/
theorem exists_filled {N : ℕ} (hpos : 1 ≤ N) (hN : N + 3 ≤ 2 ^ 32) (n : ℕ) (hn : n ≤ N) :
    ∃ (σ : Shard ℕ) (τ : ListShard ℕ), PlainMode N σ τ ∧ τ.main.length = n ∧
    ∀ k ∈ τ.m_map, k < n + 3 := by
  induction n with
  | zero =>
    exact ⟨_, _, plainMode_init hpos, rfl,
      fun k hk => (Finmap.notMem_empty hk).elim⟩
  | succ n ih =>
    obtain ⟨σ, τ, hp, hlen, hkeys⟩ := ih (by omega)
    have hk : ValidKey (n + 3) := ⟨by omega, by omega⟩
    have hm : n + 3 ∉ τ.m_map := fun hm => lt_irrefl _ (hkeys _ hm)
    obtain ⟨τ', hi, hroom, hsame, hcont⟩ := hp.roomy.insert_eq hk hm (some 0)
    obtain ⟨σ', -, hr'⟩ := hp.rep.insert hk hi
    have hsize := hp.roomy.size
    rw [hp.frozen, List.length_nil, Nat.zero_add] at hsize
    rw [if_pos (by rw [hsize, hp.maxSize]; omega)] at hcont
    have hlen' : τ'.main.length = n + 1 := by
      have := congrArg List.length hcont
      simpa [content, hlen] using this
    refine ⟨σ', τ', ⟨hr', hroom, hsame.frozen.trans hp.frozen, hsame.ready.trans hp.ready,
      hsame.maxSize.trans hp.maxSize⟩, hlen', fun k hk => ?_⟩
    have hkeys' := congrArg (List.map Prod.fst) hcont
    rw [List.map_cons, keys_content, keys_content] at hkeys'
    rw [hroom.tidy.mem_iff, items, hsame.frozen, hp.frozen, List.nil_append, hkeys'] at hk
    rcases List.mem_cons.mp hk with rfl | hk
    · exact Nat.lt_succ_self _
    · have := hkeys k (hp.roomy.tidy.mem_iff.mpr (List.mem_map.mpr ?_))
      · omega
      · obtain ⟨x, hx, rfl⟩ := List.mem_map.mp hk
        exact ⟨x, List.mem_append_right _ hx, rfl⟩

/-- Inserts that arrive during `construct_ratio` neither take the node the scan stands at nor a key
    it has copied; when it returns, the fast hash has the keys of the frozen list, and the two lists
    have every key of the map once. No step faults, and the scan is over after `m_maxSize`
    iterations. -/
theorem ratio_freeze_survives_inserts {σ₀ : Shard α} {τ₀ : ListShard α} {FC_size : ℕ}
    (hr : Shard.Rep none σ₀ τ₀) (hfull : Full τ₀) (hFC : FC_RELAXATION ≤ FC_size)
    (hDC : FC_size + FC_RELAXATION ≤ σ₀.m_maxSize) :
    ∃ σ₁ l₁, Shard.ratioBegin FC_size σ₀ = .ok (σ₁, l₁) ∧ ∀ hist s,
      Run (Freezing.step FC_size (sizeSub σ₀.m_maxSize FC_size)) Freezing.Allowed
        ⟨σ₁, l₁, 0⟩ hist s →
        (∀ a, s.Allowed a → ∃ s', s.step FC_size (sizeSub σ₀.m_maxSize FC_size) a = .ok ((), s')) ∧
        (¬ s.Done → ∃ p F L, Shard.Lists s.shard.heap p F L ∧
          s.scan.temp_node ∈ (F ++ L).map Item.node) ∧
        (∀ k ∈ s.shard.m_fasthash, k ∈ s.shard.m_map) ∧
        s.scan.count ≤ σ₀.m_maxSize ∧
        (s.Done → ∃ F L, Shard.Lists (Shard.ratioEnd s.shard).heap none F L ∧
          (∀ k, k ∈ (Shard.ratioEnd s.shard).m_fasthash ↔ k ∈ F.map Item.key) ∧
          ((F ++ L).map Item.key).Nodup ∧
          ∀ k, k ∈ (Shard.ratioEnd s.shard).m_map ↔ k ∈ (F ++ L).map Item.key) := by
  have hmax : σ₀.m_maxSize = τ₀.m_maxSize := congrArg Core.m_maxSize hr.core
  rw [hmax] at hDC ⊢
  obtain ⟨⟨σ₁, l₁⟩, hb, hsafe⟩ := Freezing.safe_begin hr hfull (by omega : FC_size ≤ _)
    (by unfold FC_RELAXATION at hDC; omega)
  refine ⟨σ₁, l₁, hb, fun hist s hrun => ?_⟩
  have hs : Freezing.Safe τ₀.m_maxSize FC_size s := by
    refine hrun.invariant (Freezing.Safe τ₀.m_maxSize FC_size) hsafe fun s₁ a o s₂ h1 ha _ he => ?_
    obtain ⟨s', he', hs'⟩ := h1.step hFC hDC ha
    rw [he] at he'
    cases he'
    exact hs'
  refine ⟨fun a ha => ?_, hs.linked hFC hDC, fun k hk => hs.copied hk, hs.count_le, hs.done⟩
  obtain ⟨s', he, -⟩ := hs.step hFC hDC ha
  exact ⟨s', he⟩

/-- A full shard of 40 places, half of which are to be frozen. -/
theorem ratio_freeze_survives_inserts_forty :
    ∃ (σ₀ σ₁ : Shard ℕ) (l₁ : Shard.Scan) (s' : Freezing ℕ),
    σ₀.m_maxSize = 40 ∧ σ₀.m_size = 40 ∧ Shard.ratioBegin 20 σ₀ = .ok (σ₁, l₁) ∧
    (∀ k ∈ σ₁.m_fasthash, k ∈ σ₁.m_map) ∧
    Freezing.step 20 (sizeSub 40 20) ⟨σ₁, l₁, 0⟩ (.find true 3) = .ok ((), s') := by
  obtain ⟨σ, τ, hp, hlen, -⟩ := exists_filled (by decide : 1 ≤ 40) (by decide) 40 le_rfl
  have hsize := hp.roomy.size
  rw [hp.frozen, List.length_nil, Nat.zero_add, hlen] at hsize
  have htidy := hp.roomy.tidy
  have hfull : Full τ := htidy.keeps.full hp.roomy.tier (htidy.tier.trans hp.roomy.tier) hp.ready
    (hsize.trans hp.maxSize.symm) fun x hx => (htidy.valid (List.mem_append_right _ hx)).ne_tomb
  have hmax : σ.m_maxSize = 40 := by rw [hp.rep.core]; exact hp.maxSize
  obtain ⟨σ₁, l₁, hb, h⟩ := ratio_freeze_survives_inserts hp.rep hfull
    (by decide : FC_RELAXATION ≤ 20)
    (by rw [hmax]; decide)
  obtain ⟨hok, -, hcopied, -⟩ := h [] _ .nil
  obtain ⟨s', hs'⟩ := hok (.find true 3) (by decide : ValidKey 3)
  rw [hmax] at hs'
  exact ⟨σ, σ₁, l₁, s', hmax, by rw [hp.rep.core]; exact hsize, hb, hcopied, hs'⟩

end FrozenHot
