import FrozenHot.Freeze.Reached

/-! `construct_ratio` on a main list with tombstones.

    The scan deletes the dead nodes it meets. `m_fast_head` points to the first node of the list
    from the start, though, and the cut goes through that pointer: the first node must not be one of
    the dead. -/

namespace FrozenHot
open Schemes ListShard

variable {α : Type}

namespace ListShard
variable {τ τ' : ListShard α} {L B : List Item} {k : ℕ}
    {m : Finmap fun _ : ℕ => HashMapValue (Option α)}

/-- Calls one after the other. -/
def calls (τ : ListShard α) : List (Bool × FHCall α) → Option (ListShard α)
  | [] => some τ
  | c :: cs => (τ.call c).bind fun r => calls r.2 cs

/-! ### The scan over lists -/

/-- With enough live nodes the scan comes to its cut. -/
theorem split_some (limit : ℕ) {n : ℕ} (hpos : 0 < (L.filter (·.key ∈ m)).length)
    (hlim : limit < n + (L.filter (·.key ∈ m)).length) :
    ∃ K B, split m limit n L = some (K, B) := by
  induction L generalizing n with
  | nil => cases hpos
  | cons x L ih =>
    by_cases hx : x.key ∈ m
    · by_cases hcut : n + 1 > limit
      · exact ⟨[x], L, by simp [split, hx, hcut]⟩
      · rw [List.filter_cons_of_pos (by simpa using hx), List.length_cons] at hlim
        obtain ⟨K, B, h⟩ := ih (n := n + 1) (by omega) (by omega)
        exact ⟨x :: K, B, by simp [split, hx, hcut, h]⟩
    · rw [List.filter_cons_of_neg (by simpa using hx)] at hpos hlim
      obtain ⟨K, B, h⟩ := ih (n := n + 1) hpos (by omega)
      exact ⟨K, B, by simp [split, hx, h]⟩

/-- With enough live nodes, `construct_ratio` of a thawed shard is a matter of the first node. -/
theorem construct_ratio_some_iff {FC_size : ℕ} (hF : τ.frozen = []) (hmax : FC_size ≤ τ.m_maxSize)
    (hFC : FC_RELAXATION ≤ FC_size) (hlen : FC_size ≤ (τ.main.filter (·.key ∈ τ.m_map)).length) :
    (∃ τ', τ.construct_ratio FC_size = some τ') ↔ ∀ x ∈ τ.main.head?, x.key ∈ τ.m_map := by
  have hpos : 0 < FC_RELAXATION := by decide
  have hsub : sizeSub FC_size FC_RELAXATION = FC_size - FC_RELAXATION := if_pos hFC
  obtain ⟨K, B, hsplit⟩ := split_some (m := τ.m_map) (L := τ.main) (n := 0)
    (sizeSub FC_size FC_RELAXATION)
    (by omega) (by omega)
  unfold construct_ratio
  split
  · rename_i h
    rw [h] at hlen
    simp at hlen
    omega
  · rename_i x R h
    rw [hsplit, h]
    by_cases hx : x.key ∈ τ.m_map
    · simp [hmax, hF, hx]
    · simp [hx]

/-- What it leaves: the live nodes before the cut, and the rest. -/
theorem construct_ratio_parts {FC_size : ℕ} (h : τ.construct_ratio FC_size = some τ') :
    ∃ P, τ.main = P ++ τ'.main ∧ τ'.frozen = P.filter (·.key ∈ τ.m_map) ∧
      τ'.m_fasthash = copy τ.m_map τ.m_fasthash τ'.frozen := by
  unfold construct_ratio at h
  split at h
  · cases h
  · split at h
    · obtain ⟨r, hr, rfl⟩ := Option.map_eq_some_iff.mp h
      obtain ⟨P, hP, hK, -⟩ := split_spec hr
      exact ⟨P, hP, hK, rfl⟩
    · cases h

end ListShard

namespace Shard
variable {h : Heap Ptr NodeData} {F L : List Item} {n : Ptr} {σ σ' : Shard α} {τ τ' : ListShard α}

/-- The heap determines the main list. -/
theorem Lists.main_unique {s s' : Option Ptr} {F' L' : List Item} (hl : Lists h s F L)
    (hl' : Lists h s' F' L') : L = L' := by
  have hnodes := hl.main.seg.unique hl'.main.seg hl.main.right_notMem hl'.main.right_notMem
  have hlen : L.length = L'.length := by simpa using congrArg List.length hnodes
  refine List.ext_getElem hlen fun i h1 h2 => ?_
  have hnode : L[i].node = L'[i].node := by
    have := List.getElem_of_eq hnodes (i := i) (by simpa using h1)
    simpa using this
  have hkey := hl.key L[i] (List.mem_append_right _ (List.getElem_mem h1))
  rw [hnode, hl'.key L'[i] (List.mem_append_right _ (List.getElem_mem h2)), Option.some_inj] at hkey
  cases hx : L[i]
  cases hy : L'[i]
  simp_all

/-! ### Pointers to removed nodes -/

/-- A sentinel or a node of the lists points to `n`. -/
def Pointed (h : Heap Ptr NodeData) (I : List Item) (n : Ptr) : Prop :=
  ∃ p, (p ∈ [Ptr.m_head, .m_tail, .m_fast_head, .m_fast_tail] ∨ p ∈ I.map Item.node) ∧
    (h.next p = some n ∨ h.prev p = some n)

/-- What is not on a list is not pointed to. -/
theorem Lists.not_pointed {R : Ptr → ℕ → Prop} (hl : Lists h none F L) (he : Ends R h)
    (hn : n.IsNode) (hoff : n ∉ (F ++ L).map Item.node) :
    ¬ Pointed h (F ++ L) n := by
  have hfroz : IsList h .m_fast_head (F.map Item.node) .m_fast_tail := hl.frozen
  rw [List.map_append, List.mem_append, not_or] at hoff
  -- between two sentinels the links lead to the sentinels and the nodes between them
  have hnext : ∀ {a b : Ptr} {N : List Ptr} {p : Ptr}, IsList h a N b → n ∉ N → p ∈ a :: N →
      h.next p ≠ some n := by
    intro a b N p hN hnN hp hc
    obtain ⟨y, hy, hny⟩ := hN.seg.next_mem hp
    obtain rfl := Option.some.inj (hc.symm.trans hny)
    rcases List.mem_append.mp hy with hy | hy
    · exact hnN hy
    · rw [List.mem_singleton.mp hy] at hn
      exact hN.right hn
  have hprev : ∀ {a b : Ptr} {N : List Ptr} {p : Ptr}, IsList h a N b → n ∉ N → p ∈ N ++ [b] →
      h.prev p ≠ some n := by
    intro a b N p hN hnN hp hc
    obtain ⟨y, hy, hny⟩ := hN.seg.prev_mem hp
    obtain rfl := Option.some.inj (hc.symm.trans hny)
    rcases List.mem_cons.mp hy with rfl | hy
    · exact hN.left hn
    · exact hnN hy
  rintro ⟨p, hp, hc | hc⟩
  · have hp' : p ∈ Ptr.m_head :: L.map Item.node ∨ p ∈ Ptr.m_fast_head :: F.map Item.node ∨
        ¬ Aft p := by
      simp only [List.mem_cons, List.map_append, List.mem_append, Aft, List.not_mem_nil] at hp ⊢
      tauto
    rcases hp' with hp | hp | hp
    · exact hnext hl.main hoff.2 hp hc
    · exact hnext hfroz hoff.1 hp hc
    · exact (he.next p n hc).2 hp hn
  · have hp' : p ∈ L.map Item.node ++ [Ptr.m_tail] ∨ p ∈ F.map Item.node ++ [Ptr.m_fast_tail] ∨
        ¬ Fore p := by
      simp only [List.mem_cons, List.map_append, List.mem_append, Fore, List.not_mem_nil] at hp ⊢
      tauto
    rcases hp' with hp | hp | hp
    · exact hprev hl.main hoff.2 hp hc
    · exact hprev hfroz hoff.1 hp hc
    · exact (he.prev p n hc).2 hp hn

/-- `construct_ratio` has split the main list `L` of `σ`: the frozen list has the live nodes before
    a cut, the main list all nodes after it, both in order and well linked; nothing points to the
    dead nodes before the cut, and the fast hash has the keys of the frozen list. -/
def SplitClean (σ σ' : Shard α) (L : List Item) : Prop :=
  ∃ P K B, L = P ++ B ∧ K = P.filter (·.key ∈ σ.m_map) ∧ Lists σ'.heap none K B ∧
    (∀ x ∈ P, x.key ∉ σ.m_map → ¬ Pointed σ'.heap (K ++ B) x.node) ∧
    ∀ k, σ'.m_fasthash.lookup k = if k ∈ K.map Item.key then
      (σ.m_map.lookup k).map HashMapValue.m_value else none

theorem Rep.splitClean {FC_size : ℕ} {R : Ptr → ℕ → Prop} (hr : Rep none σ τ) (he : Ends R σ.heap)
    (hF : τ.frozen = []) (hfast : τ.m_fasthash = ∅) (h : τ.construct_ratio FC_size = some τ') :
    ∃ σ', σ.construct_ratio FC_size = .ok σ' ∧ SplitClean σ σ' τ.main := by
  obtain ⟨σ', hok, hr'⟩ := hr.construct_ratio h
  obtain ⟨P, hP, hK, hcopy⟩ := construct_ratio_parts h
  have hmap : σ.m_map = τ.m_map := congrArg Core.m_map hr.core
  have hlists := hr.holds.lists
  rw [hF, hP] at hlists
  refine ⟨σ', hok, P, τ'.frozen, τ'.main, hP, by rw [hK, hmap], hr'.holds.lists,
    fun x hx hdead => ?_, fun k => ?_⟩
  · -- a dead node before the cut is neither frozen nor behind the cut
    refine hr'.holds.lists.not_pointed (he.construct_ratio hok)
      (hlists.node (by simp [hx])) fun hc => ?_
    obtain ⟨y, hy, hxy⟩ := List.mem_map.mp hc
    have hyL : y ∈ P ++ τ'.main := by
      rw [hK] at hy
      rcases List.mem_append.mp hy with hy | hy
      · exact List.mem_append_left _ (List.mem_filter.mp hy).1
      · exact List.mem_append_right _ hy
    have hnodup : ((P ++ τ'.main).map Item.node).Nodup := hlists.nodup
    obtain rfl : y = x := List.inj_on_of_nodup_map hnodup hyL (List.mem_append_left _ hx) hxy
    rcases List.mem_append.mp hy with hy | hy
    · rw [hK, ← hmap] at hy
      exact hdead (by simpa using (List.mem_filter.mp hy).2)
    · rw [List.map_append, List.nodup_append'] at hnodup
      exact hnodup.2.2 (List.mem_map_of_mem hx) (List.mem_map_of_mem hy)
  · have hcore : σ'.m_fasthash = τ'.m_fasthash := congrArg Core.m_fasthash hr'.core
    rw [hcore, hcopy, hfast, lookup_copy, Finmap.lookup_empty, Option.none_or, hmap]
    intro x hx
    rw [hK] at hx
    have hm : x.key ∈ τ.m_map := by simpa using (List.mem_filter.mp hx).2
    obtain ⟨e, hl⟩ := Finmap.mem_iff.mp hm
    exact ⟨(hr.holds.entry x.key e hl).valid, hm⟩

/-- A run over lists is a run of the code. -/
theorem Rep.calls {cs : List (Bool × FHCall α)} (hr : Rep none σ τ) (hvalid : ∀ c ∈ cs, c.2.Valid)
    (h : ListShard.calls τ cs = some τ') :
    ∃ hist σ', Run LRU_FHCache.call (fun _ c => c.2.Valid) σ hist σ' ∧ Rep none σ' τ' := by
  induction cs generalizing σ τ with
  | nil => cases h; exact ⟨[], σ, .nil, hr⟩
  | cons c cs ih =>
    obtain ⟨r, h1, h⟩ := Option.bind_eq_some_iff.mp h
    obtain ⟨σ₁, hs, hr₁⟩ := hr.call (hvalid c (by simp)) h1
    obtain ⟨hist, σ', hrun, hr'⟩ := ih hr₁ (fun d hd => hvalid d (by simp [hd])) h
    exact ⟨_, σ', .cons (hvalid c (by simp)) hs hrun, hr'⟩

/-- Twenty-two keys are inserted and frozen; while they are, key `k` is deleted. -/
def cycle (k : ℕ) : List (Bool × FHCall ℕ) :=
  (List.range 22).map (fun i => (true, .insert (i + 3) (some 0))) ++
    [(true, .construct_tier), (true, .delete_key k), (true, .deconstruct)]

theorem cycle_shape {k : ℕ} (hk : k = 24 ∨ k = 23) :
    (ListShard.calls (ListShard.init 30) (cycle k)).map (fun τ =>
    ((τ.tier_ready, τ.fast_hash_ready), τ.frozen, τ.m_maxSize,
      (τ.main.filter (·.key ∈ τ.m_map)).length, τ.main.head?.map fun x =>
      decide (x.key ∈ τ.m_map))) = some ((false, false), [], 30, 21, some (decide (k ≠ 24))) := by
  rcases hk with rfl | rfl <;> decide +kernel

/-- The shard is thawed then, and its first node is a tombstone exactly if the last key inserted was
    deleted. -/
theorem cycle_reached {k : ℕ} (hk : k = 24 ∨ k = 23) : ∃ hist σ,
    ∃ τ : ListShard ℕ, Run FHList.LRU_FH.call (fun _ c => c.2.Valid) (Shard.init 30) hist σ ∧
    Rep none σ τ ∧
    (σ.tier_ready = false ∧ σ.fast_hash_ready = false) ∧ τ.frozen = [] ∧ σ.m_maxSize = 30 ∧
    (τ.main.filter (·.key ∈ σ.m_map)).length = 21 ∧
    ((∀ x ∈ τ.main.head?, x.key ∈ σ.m_map) ↔ k ≠ 24) := by
  obtain ⟨τ, hcalls, hshape⟩ := Option.map_eq_some_iff.mp (cycle_shape hk)
  simp only [Prod.mk.injEq] at hshape
  obtain ⟨hflags, hF, hmax, hlen, hhead⟩ := hshape
  have hvalid : ∀ c ∈ cycle k, c.2.Valid := by
    rcases hk with rfl | rfl <;> decide +kernel
  obtain ⟨hist, σ, hrun, hr⟩ := (rep_init 30).calls hvalid hcalls
  obtain ⟨x, hx, hdec⟩ := Option.map_eq_some_iff.mp hhead
  refine ⟨hist, σ, τ, hrun, hr, ?_, hF, ?_, ?_, ?_⟩ <;> rw [hr.core]
  · exact hflags
  · exact hmax
  · exact hlen
  · rw [hx]
    simpa using decide_eq_decide.mp hdec

/-- With enough live nodes, `construct_ratio` of a thawed shard splits its main list exactly if the
    first node is live. -/
theorem construct_ratio_clean_iff {κ : FHList} {maxSize FC_size : ℕ}
    {hist : List ((Bool × FHCall α) × FHResp α)}
    (hrun : Run κ.call (fun _ c => c.2.Valid) (Shard.init maxSize) hist σ)
    (hthawed : σ.tier_ready = false ∧ σ.fast_hash_ready = false) (hL : Lists σ.heap none [] L)
    (hFC : FC_RELAXATION ≤ FC_size) (hmax : FC_size ≤ σ.m_maxSize)
    (hlen : FC_size ≤ (L.filter (·.key ∈ σ.m_map)).length) :
    (∃ σ', σ.construct_ratio FC_size = .ok σ' ∧ SplitClean σ σ' L) ↔
    ∀ x ∈ L.head?, x.key ∈ σ.m_map := by
  obtain ⟨τ, hr, ht, he⟩ := reached hrun
  have hcore := hr.core
  obtain ⟨hF, hfast⟩ := ht (by rw [← hcore]; exact hthawed.1) (by rw [← hcore]; exact hthawed.2)
  obtain rfl := hL.main_unique hr.holds.lists
  rw [hcore] at hlen hmax ⊢
  rw [← construct_ratio_some_iff hF hmax hFC hlen]
  constructor
  · rintro ⟨σ', hok, -⟩
    cases h : τ.construct_ratio FC_size with
    | some τ' => exact ⟨τ', rfl⟩
    | none =>
      obtain ⟨e, herr⟩ := hr.construct_ratio_fails h
      rw [hok] at herr
      cases herr
  · rintro ⟨τ', h⟩
    exact hr.splitClean he hF hfast h

/-- Twenty-one live nodes, and a tombstone behind the first of them. -/
theorem construct_ratio_clean_second : ∃ (σ : Shard ℕ) (L : List Item), Lists σ.heap none [] L ∧
    (L.filter (·.key ∈ σ.m_map)).length = 21 ∧ ∃ σ', σ.construct_ratio 20 = .ok σ' ∧
    SplitClean σ σ' L := by
  obtain ⟨hist, σ, τ, hrun, hr, hflags, hF, hmax, hlen, hhead⟩ :=
    cycle_reached (Or.inr rfl : 23 = 24 ∨ 23 = 23)
  have hL : Lists σ.heap none [] τ.main := hF ▸ hr.holds.lists
  exact ⟨σ, τ.main, hL, hlen, (construct_ratio_clean_iff hrun hflags hL (by decide) (by omega)
    (by omega)).mpr
    (hhead.mpr (by decide))⟩

/-- Twenty-one live nodes behind a tombstone: the scan deletes the tombstone, and the cut reads
    it. -/
theorem construct_ratio_reads_deleted_head :
    ∃ (hist : List ((Bool × FHCall ℕ) × FHResp ℕ)) (σ : Shard ℕ) (L : List Item),
    Run FHList.LRU_FH.call (fun _ c => c.2.Valid) (Shard.init 30) hist σ ∧
    (σ.tier_ready = false ∧ σ.fast_hash_ready = false) ∧ Lists σ.heap none [] L ∧
    (L.filter (·.key ∈ σ.m_map)).length = 21 ∧ ∃ e, σ.construct_ratio 20 = .error e := by
  obtain ⟨hist, σ, τ, hrun, hr, hflags, hF, hmax, hlen, hhead⟩ :=
    cycle_reached (Or.inl rfl : 24 = 24 ∨ 24 = 23)
  refine ⟨hist, σ, τ.main, hrun, hflags, hF ▸ hr.holds.lists, hlen, hr.construct_ratio_fails ?_⟩
  have hiff := construct_ratio_some_iff hF (by rw [← hr.core]; omega : 20 ≤ τ.m_maxSize) (by decide)
    (by rw [← hr.core]; omega)
  rw [hr.core] at hhead
  rw [hhead, ← not_iff_not, not_not] at hiff
  exact Option.eq_none_iff_forall_ne_some.mpr fun τ' h => hiff.mpr rfl ⟨τ', h⟩

end Shard
end FrozenHot
