import FrozenHot.Cache.Redis

/-! The eviction pool of `RedisLRUCache` as a sorted pool of sixteen entries.

    `evictionPoolPopulate` places samples in the pool and `performEvictions` sweeps it from its end.
    The places hold pointers, and `memmove` copies them: a move that is not empty leaves two places
    with one entry. -/

namespace FrozenHot
open Schemes

namespace EvictionPool

variable {p p' : EvictionPool} {e x : EvictionPoolEntry} {i j k m idle key : ℕ}

/-! ### A sorted pool -/

/-- The places have entries of their own, and the first `m` of them are occupied, in the order of
    their idle times. -/
structure Sorted (p : EvictionPool) (m : ℕ) : Prop where
  le : m ≤ 16
  distinct : ∀ i < 16, ∀ j < 16, p.place i = p.place j → i = j
  occupied : ∀ i < 16, (p.get i).key ≠ 0 ↔ i < m
  sorted : ∀ i j, i ≤ j → j < m → (p.get i).idle ≤ (p.get j).idle

/-- The occupied entries. -/
def entries (p : EvictionPool) : List EvictionPoolEntry :=
  ((List.range 16).map p.get).filter (·.key ≠ 0)

/-- What placing the sample `e` does to the entries: it adds the sample and, if the pool was full,
    takes out one that is idle for the shortest time, the sample if no other is idle for less. -/
def Places (p p' : EvictionPool) (e : EvictionPoolEntry) : Prop :=
  if p.entries.length < 16 then p'.entries.Perm (e :: p.entries)
  else ∃ x ∈ e :: p.entries, (∀ y ∈ e :: p.entries, x.idle ≤ y.idle) ∧
    ((∀ y ∈ p.entries, e.idle ≤ y.idle) → x = e) ∧ (x :: p'.entries).Perm (e :: p.entries)

theorem Sorted.init : Sorted EvictionPool.init 0 :=
  ⟨Nat.zero_le _, fun _ _ _ _ h => h, fun _ _ => by simp [EvictionPool.init, get],
    fun _ _ _ h => by omega⟩

theorem Sorted.entries_eq (hs : Sorted p m) : p.entries = (List.range m).map p.get := by
  have hr : List.range 16 = List.range m ++ (List.range (16 - m)).map (m + ·) := by
    rw [← List.range_add, Nat.add_sub_cancel' hs.le]
  have hle := hs.le
  rw [entries, hr, List.map_append, List.filter_append, List.filter_eq_self.mpr ?_,
    List.filter_eq_nil_iff.mpr ?_, List.append_nil]
  · intro e he
    simp only [List.mem_map, List.mem_range] at he
    obtain ⟨_, ⟨i, hi, rfl⟩, rfl⟩ := he
    have := (hs.occupied (m + i) (by omega)).not.mpr (by omega)
    simpa using this
  · intro e he
    simp only [List.mem_map, List.mem_range] at he
    obtain ⟨i, hi, rfl⟩ := he
    have := (hs.occupied i (by omega)).mpr hi
    simpa using this

theorem Sorted.length_entries (hs : Sorted p m) : p.entries.length = m := by
  rw [hs.entries_eq, List.length_map, List.length_range]

theorem Sorted.mem_entries (hs : Sorted p m) : e ∈ p.entries ↔ ∃ i < m, p.get i = e := by
  simp [hs.entries_eq]

/-- Writing through one place changes no other one. -/
theorem Sorted.get_put (hs : Sorted p m) (hi : i < 16) (hj : j < 16) (e : EvictionPoolEntry) :
    (p.put j e).get i = if i = j then e else p.get i := by
  unfold get put
  by_cases h : i = j
  · subst h
    simp
  · rw [if_neg h]
    exact Function.update_of_ne (fun hc => h (hs.distinct i hi j hj hc)) _ _

/-! ### The place of a sample -/

/-- The search passes the occupied places that are idle for less, and stops at the first other
    one. -/
theorem seek_spec (p : EvictionPool) (idle left j : ℕ) :
    j ≤ p.seek idle left j ∧ p.seek idle left j ≤ j + left ∧
    (∀ i, j ≤ i → i < p.seek idle left j → (p.get i).key ≠ 0 ∧ (p.get i).idle < idle) ∧
    (p.seek idle left j < j + left → (p.get (p.seek idle left j)).key ≠ 0 →
      idle ≤ (p.get (p.seek idle left j)).idle) := by
  induction left generalizing j with
  | zero => exact ⟨le_refl _, le_refl _, fun i h1 h2 => absurd h2 (by simpa [seek] using h1),
      fun h => by simp [seek] at h⟩
  | succ left ih =>
    rw [seek]
    split_ifs with h
    · obtain ⟨h1, h2, h3, h4⟩ := ih (j + 1)
      refine ⟨by omega, by omega, fun i hi hlt => ?_, fun hlt => h4 (by omega)⟩
      rcases Nat.eq_or_lt_of_le hi with rfl | hi
      · exact h
      · exact h3 i hi hlt
    · refine ⟨le_refl _, by omega, fun i h1 h2 => by omega, fun _ hk => ?_⟩
      by_contra hc
      exact h ⟨hk, by omega⟩

/-- Where a sample goes in a sorted pool, and what `add` does then. -/
theorem Sorted.add_cases (hs : Sorted p m) (idle key : ℕ) :
    (m = 16 ∧ idle ≤ (p.get 0).idle ∧ p.add idle key = p) ∨
    (m < 16 ∧ (∀ i < m, (p.get i).idle < idle) ∧ p.add idle key = p.put m ⟨idle, key⟩) ∨
    (m < 16 ∧ ∃ j < m, idle ≤ (p.get j).idle ∧ p.add idle key = (p.moveRight j).put j ⟨idle, key⟩) ∨
    (m = 16 ∧ ∃ j < 16, (∀ i ≤ j, (p.get i).idle < idle) ∧
      (j + 1 < 16 → idle ≤ (p.get (j + 1)).idle) ∧
      p.add idle key = (p.moveLeft j).put j ⟨idle, key⟩) := by
  obtain ⟨-, h2, h3, h4⟩ := seek_spec p idle 16 0
  unfold add
  generalize p.seek idle 16 0 = r at h2 h3 h4
  simp only [Nat.zero_add, Nat.zero_le, forall_const] at h2 h3 h4
  have hm := hs.le
  have hlast := hs.occupied 15 (by omega)
  have hr : r ≤ m := by
    by_contra hc
    have := (hs.occupied m (by omega)).mp (h3 m (by omega)).1
    omega
  have hstop : r < m → idle ≤ (p.get r).idle :=
    fun h => h4 (by omega) ((hs.occupied r (by omega)).mpr h)
  by_cases hfull : m = 16
  · subst hfull
    have h15 := hlast.mpr (by omega)
    by_cases h0 : r = 0
    · subst h0
      exact Or.inl ⟨rfl, hstop (by omega), if_pos ⟨rfl, (hs.occupied 0 (by omega)).mpr (by omega),
        h15⟩⟩
    · refine Or.inr (Or.inr (Or.inr ⟨rfl, r - 1, by omega, fun i hi => (h3 i (by omega)).2,
        fun h => ?_, ?_⟩))
      · rw [Nat.sub_add_cancel (by omega)] at h ⊢
        exact hstop h
      · rw [if_neg (fun h => h0 h.1), if_neg (fun h => (hs.occupied r h.1).mpr h.1 h.2), if_neg h15]
  · have h15 : (p.get 15).key = 0 := by
      by_contra hc
      have := hlast.mp hc
      omega
    rcases Nat.eq_or_lt_of_le hr with rfl | hlt
    · have hfree : (p.get r).key = 0 := by
        by_contra hc
        exact lt_irrefl _ ((hs.occupied r (by omega)).mp hc)
      refine Or.inr (Or.inl ⟨by omega, fun i hi => (h3 i hi).2, ?_⟩)
      rw [if_neg (fun h => h.2.2 h15), if_pos ⟨by omega, hfree⟩]
    · have hocc := (hs.occupied r (by omega)).mpr hlt
      refine Or.inr (Or.inr (Or.inl ⟨by omega, r, hlt, hstop hlt, ?_⟩))
      rw [if_neg (fun h => h.2.2 h15), if_neg (fun h => hocc h.2), if_pos h15]

/-- When a sample can be placed: with room, if it goes behind all others; in a full pool, if it is
    turned away or takes the first place. -/
def Fits (p : EvictionPool) (idle key : ℕ) : Prop :=
  if (p.get 15).key = 0 then key ≠ 0 ∧ ∀ e ∈ p.entries, e.idle < idle
  else idle ≤ (p.get 0).idle ∨ key ≠ 0 ∧ idle ≤ (p.get 1).idle

instance (p : EvictionPool) (idle key : ℕ) : Decidable (Fits p idle key) :=
  decidable_of_iff (((p.get 15).key = 0 → key ≠ 0 ∧ ∀ e ∈ p.entries, e.idle < idle) ∧
    ((p.get 15).key ≠ 0 → idle ≤ (p.get 0).idle ∨ key ≠ 0 ∧ idle ≤ (p.get 1).idle))
    (by unfold Fits; split <;> simp [*])

theorem Sorted.fits_iff (hs : Sorted p m) : Fits p idle key ↔
    (m < 16 ∧ key ≠ 0 ∧ ∀ i < m, (p.get i).idle < idle) ∨
    (m = 16 ∧ (idle ≤ (p.get 0).idle ∨ key ≠ 0 ∧ idle ≤ (p.get 1).idle)) := by
  have hm := hs.le
  have hlast := hs.occupied 15 (by omega)
  have hall : (∀ e ∈ p.entries, e.idle < idle) ↔ ∀ i < m, (p.get i).idle < idle := by
    simp [hs.entries_eq]
  rw [Fits, hall]
  split_ifs with h
  · have : m < 16 := by
      by_contra hc
      exact hlast.mpr (by omega) h
    exact ⟨fun h => Or.inl ⟨this, h⟩, fun h => h.elim (fun h => h.2) (fun h => by omega)⟩
  · have : m = 16 := by
      have := hlast.mp h
      omega
    exact ⟨fun h => Or.inr ⟨this, h⟩, fun h => h.elim (fun h => by omega) (fun h => h.2)⟩

/-! ### Placing a sample -/

/-- A sample behind all others. -/
theorem Sorted.put_last (hs : Sorted p m) (hm : m < 16) (hk : key ≠ 0)
    (hall : ∀ i < m, (p.get i).idle < idle) :
    Sorted (p.put m ⟨idle, key⟩) (m + 1) ∧ Places p (p.put m ⟨idle, key⟩) ⟨idle, key⟩ := by
  have hget : ∀ i < 16, (p.put m ⟨idle, key⟩).get i = if i = m then ⟨idle, key⟩ else p.get i :=
    fun i hi => hs.get_put hi hm _
  have hs' : Sorted (p.put m ⟨idle, key⟩) (m + 1) := by
    refine ⟨hm, hs.distinct, fun i hi => ?_, fun i j hij hj => ?_⟩
    · rw [hget i hi]
      split_ifs with h
      · exact iff_of_true hk (by omega)
      · rw [hs.occupied i hi]
        omega
    · rw [hget i (by omega), hget j (by omega)]
      split_ifs with h1 h2 h2
      · exact le_refl _
      · omega
      · exact (hall i (by omega)).le
      · exact hs.sorted i j hij (by omega)
  refine ⟨hs', ?_⟩
  have hold : (List.range m).map (p.put m ⟨idle, key⟩).get = p.entries := by
    rw [hs.entries_eq]
    refine List.map_congr_left fun i hi => ?_
    have := List.mem_range.mp hi
    rw [hget i (by omega), if_neg (by omega)]
  rw [Places, if_pos (by rw [hs.length_entries]; exact hm), hs'.entries_eq, List.range_succ,
    List.map_append, hold, List.map_singleton, hget m hm, if_pos rfl]
  exact List.perm_append_singleton _ _

theorem Sorted.entries_full (hs : Sorted p 16) :
    p.entries = p.get 0 :: (List.range 15).map fun i => p.get (i + 1) := by
  rw [hs.entries_eq, List.range_succ_eq_map, List.map_cons, List.map_map]
  rfl

/-- In a full pool the first entry is idle for the shortest time. -/
theorem Sorted.first_least (hs : Sorted p 16) (hx : x ∈ p.entries) : (p.get 0).idle ≤ x.idle := by
  obtain ⟨i, hi, rfl⟩ := hs.mem_entries.mp hx
  exact hs.sorted 0 i (Nat.zero_le _) hi

/-- A sample turned away. -/
theorem Sorted.turned_away (hs : Sorted p 16) (h : idle ≤ (p.get 0).idle) :
    Places p p ⟨idle, key⟩ := by
  rw [Places, if_neg (by rw [hs.length_entries]; omega)]
  refine ⟨_, List.mem_cons_self, fun y hy => ?_, fun _ => rfl, .refl _⟩
  rcases List.mem_cons.mp hy with rfl | hy
  · exact le_refl _
  · exact h.trans (hs.first_least hy)

/-- A sample in the first place of a full pool. -/
theorem Sorted.put_first (hs : Sorted p 16) (hk : key ≠ 0) (h0 : (p.get 0).idle < idle)
    (h1 : idle ≤ (p.get 1).idle) :
    Sorted (p.put 0 ⟨idle, key⟩) 16 ∧ Places p (p.put 0 ⟨idle, key⟩) ⟨idle, key⟩ := by
  have hget : ∀ i < 16, (p.put 0 ⟨idle, key⟩).get i = if i = 0 then ⟨idle, key⟩ else p.get i :=
    fun i hi => hs.get_put hi (by omega) _
  have hs' : Sorted (p.put 0 ⟨idle, key⟩) 16 := by
    refine ⟨le_refl _, hs.distinct, fun i hi => ?_, fun i j hij hj => ?_⟩
    · rw [hget i hi]
      split_ifs with h
      · exact iff_of_true hk hi
      · exact hs.occupied i hi
    · rw [hget i (by omega), hget j hj]
      split_ifs with h2 h3 h3
      · exact le_refl _
      · exact h1.trans (hs.sorted 1 j (by omega) hj)
      · omega
      · exact hs.sorted i j hij hj
  refine ⟨hs', ?_⟩
  have hrest : ((List.range 15).map fun i => (p.put 0 ⟨idle, key⟩).get (i + 1)) =
      (List.range 15).map fun i => p.get (i + 1) := by
    refine List.map_congr_left fun i hi => ?_
    have := List.mem_range.mp hi
    rw [hget (i + 1) (by omega), if_neg (by omega)]
  have hmem : p.get 0 ∈ p.entries := hs.mem_entries.mpr ⟨0, by omega, rfl⟩
  rw [Places, if_neg (by rw [hs.length_entries]; omega)]
  refine ⟨p.get 0, List.mem_cons_of_mem _ hmem, fun y hy => ?_,
    fun h => absurd (h _ hmem) (by simpa using h0), ?_⟩
  · rcases List.mem_cons.mp hy with rfl | hy
    · exact h0.le
    · exact hs.first_least hy
  · rw [hs'.entries_full, hrest, hs.entries_full, hget 0 (by omega), if_pos rfl]
    exact List.Perm.swap _ _ _

/-- Two places with one entry. -/
theorem not_sorted_of_shared {i j : ℕ} (hi : i < 16) (hj : j < 16) (hne : i ≠ j)
    (h : p.place i = p.place j) :
    ¬ Sorted p m :=
  fun hs => hne (hs.distinct i hi j hj h)

/-- A placement keeps the pool sorted and does what it should exactly if the sample fits. -/
theorem Sorted.add_iff (hs : Sorted p m) (idle key : ℕ) :
    (∃ m', Sorted (p.add idle key) m') ∧ Places p (p.add idle key) ⟨idle, key⟩ ↔
    Fits p idle key := by
  rw [hs.fits_iff]
  rcases hs.add_cases idle key with ⟨rfl, h0, ha⟩ | ⟨hm, hall, ha⟩ | ⟨hm, j, hj, hle, ha⟩ | ⟨rfl, j,
    hj, hlt, hle, ha⟩
  · rw [ha]
    exact iff_of_true ⟨⟨16, hs⟩, hs.turned_away h0⟩ (Or.inr ⟨rfl, Or.inl h0⟩)
  · rw [ha]
    constructor
    · rintro ⟨-, hp⟩
      refine Or.inl ⟨hm, fun hk => ?_, hall⟩
      -- an entry with key zero does not count as one
      rw [Places, if_pos (by rw [hs.length_entries]; exact hm)] at hp
      have hmem := hp.mem_iff.mpr (List.mem_cons_self)
      simp [entries, hk] at hmem
    · rintro (⟨-, hk, -⟩ | ⟨rfl, -⟩)
      · exact ⟨⟨m + 1, (hs.put_last hm hk hall).1⟩, (hs.put_last hm hk hall).2⟩
      · omega
  · rw [ha]
    refine iff_of_false ?_ ?_
    · rintro ⟨⟨m', hs'⟩, -⟩
      refine not_sorted_of_shared (i := j) (j := j + 1) (by omega) (by omega) (by omega) ?_ hs'
      simp [put, moveRight, show j + 1 < 16 by omega]
    · rintro (⟨-, -, hall⟩ | ⟨rfl, -⟩)
      · exact absurd (hall j hj) (by omega)
      · omega
  · rw [ha]
    by_cases h0 : j = 0
    · subst h0
      have hmove : p.moveLeft 0 = p := by simp [moveLeft]
      rw [hmove]
      constructor
      · rintro ⟨⟨m', hs'⟩, -⟩
        refine Or.inr ⟨rfl, Or.inr ⟨fun hk => ?_, hle (by omega)⟩⟩
        -- the first place would be free and the second one not
        have hfirst := (hs'.occupied 0 (by omega)).not
        have hsecond := hs'.occupied 1 (by omega)
        rw [hs.get_put (by omega) (by omega)] at hfirst hsecond
        have h1 := (hs.occupied 1 (by omega)).mpr (by omega)
        simp [hk] at hfirst
        simp [h1, hfirst] at hsecond
      · rintro (⟨h, -⟩ | ⟨-, h | ⟨hk, h1⟩⟩)
        · omega
        · exact absurd (hlt 0 (le_refl _)) (by omega)
        · exact ⟨⟨16, (hs.put_first hk (hlt 0 (le_refl _)) h1).1⟩,
            (hs.put_first hk (hlt 0 (le_refl _)) h1).2⟩
    · refine iff_of_false ?_ ?_
      · rintro ⟨⟨m', hs'⟩, -⟩
        refine not_sorted_of_shared (i := j - 1) (j := j) (by omega) (by omega) (by omega) ?_ hs'
        simp [put, moveLeft, show j - 1 < j by omega, Nat.sub_add_cancel (show 1 ≤ j by omega)]
      · rintro (⟨h, -⟩ | ⟨-, h | ⟨-, h1⟩⟩)
        · omega
        · exact absurd (hlt 0 (Nat.zero_le _)) (by omega)
        · exact absurd (hlt 1 (by omega)) (by omega)

/-! ### The sweep -/

/-- The loop of `performEvictions` over the places below `k`, from the last, when the map holds the
    keys `present`: it frees places until it has freed one whose key is in the map. -/
def sweep (p : EvictionPool) (present : Finset ℕ) : ℕ → EvictionPool
  | 0 => p
  | k + 1 =>
    if (p.get k).key = 0 then sweep p present k
    else if (p.get k).key ∈ present then p.put k ⟨0, 0⟩
    else sweep (p.put k ⟨0, 0⟩) present k

/-- Freeing the last occupied place. -/
theorem Sorted.free_last (hs : Sorted p (k + 1)) : Sorted (p.put k ⟨0, 0⟩) k := by
  have hk : k < 16 := hs.le
  have hget : ∀ i < 16, (p.put k ⟨0, 0⟩).get i = if i = k then ⟨0, 0⟩ else p.get i :=
    fun i hi => hs.get_put hi hk _
  refine ⟨by omega, hs.distinct, fun i hi => ?_, fun i j hij hj => ?_⟩
  · rw [hget i hi]
    split_ifs with h
    · exact iff_of_false (by simp) (by omega)
    · rw [hs.occupied i hi]
      omega
  · rw [hget i (by omega), hget j (by omega), if_neg (by omega), if_neg (by omega)]
    exact hs.sorted i j hij (by omega)

theorem Sorted.sweep (present : Finset ℕ) (hs : Sorted p m) (hk : k ≤ 16) (hm : m ≤ k) :
    ∃ m', Sorted (p.sweep present k) m' := by
  induction k generalizing p m with
  | zero => exact ⟨m, hs⟩
  | succ k ih =>
    rw [EvictionPool.sweep]
    have hocc := hs.occupied k (by omega)
    split_ifs with h0 hp
    · exact ih hs (by omega) (by have := hocc.not.mp (by simpa using h0); omega)
    · obtain rfl : m = k + 1 := by have := hocc.mp h0; omega
      exact ⟨k, hs.free_last⟩
    · obtain rfl : m = k + 1 := by have := hocc.mp h0; omega
      exact ih hs.free_last (by omega) (le_refl _)

/-! ### Runs of the pool -/

/-- What the cache does to its pool: it places a sample, or sweeps the pool. -/
inductive Call where
  | place (idle key : ℕ)
  | sweep (present : Finset ℕ)

def step (p : EvictionPool) : Call → Except Fault (Unit × EvictionPool)
  | .place idle key => .ok ((), p.add idle key)
  | .sweep present => .ok ((), p.sweep present 16)

/-- A placed sample fits. -/
def Fitting (p : EvictionPool) : Call → Prop
  | .place idle key => Fits p idle key
  | .sweep _ => True

instance (p : EvictionPool) : (c : Call) → Decidable (Fitting p c)
  | .place idle key => inferInstanceAs (Decidable (Fits p idle key))
  | .sweep _ => .isTrue trivial

theorem Sorted.run {H : List (Call × Unit)} (hrun : Run step Fitting EvictionPool.init H p) :
    ∃ m, Sorted p m := by
  refine hrun.invariant (fun p => ∃ m, Sorted p m) ⟨0, .init⟩ ?_
  rintro p₁ c o p₂ ⟨m, hs⟩ hfit - hstep
  cases c with
  | place idle key =>
    cases hstep
    exact ((hs.add_iff idle key).mpr hfit).1
  | sweep present =>
    cases hstep
    exact hs.sweep present (le_refl _) hs.le

end EvictionPool

namespace RedisLRUCache
variable {V : Type} {σ σ' : RedisLRUCache V}

/-- Some placements and sweeps, in any order. -/
abbrev PoolRun := Run EvictionPool.step (fun _ _ => True)

/-- The samples are placed one after the other. -/
theorem evictionPoolPopulate_pool {pass : Pass} (he : σ.evictionPoolPopulate pass = .ok σ') :
    ∃ H, PoolRun σ.EvictionPool H σ'.EvictionPool := by
  obtain ⟨l, rfl⟩ := evictionPoolPopulate_eq he
  show ∃ H, PoolRun σ.EvictionPool H (l.zipIdx.foldl _ σ.EvictionPool)
  generalize l.zipIdx = samples
  generalize σ.EvictionPool = p
  induction samples generalizing p with
  | nil => exact ⟨[], .nil⟩
  | cons x samples ih =>
    obtain ⟨H, hH⟩ := ih (offer σ.m_map p (pass.clock x.2) x.1)
    rw [List.foldl_cons]
    unfold offer at hH ⊢
    cases hl : σ.m_map.lookup x.1 with
    | none => exact ⟨H, by simpa [hl] using hH⟩
    | some o =>
      simp only [hl] at hH ⊢
      split_ifs at hH ⊢ with hz
      · exact ⟨H, hH⟩
      · exact ⟨_, Run.cons (i := .place _ _) trivial rfl hH⟩

theorem evictFromPool_pool {b : Bool} (k : ℕ) (he : σ.evictFromPool k = .ok (b, σ')) :
    σ'.EvictionPool = σ.EvictionPool.sweep σ.m_map.keys k := by
  induction k generalizing σ with
  | zero =>
    cases he
    rfl
  | succ k ih =>
    simp only [evictFromPool, EvictionPool.sweep, Finmap.mem_keys] at he ⊢
    split_ifs at he ⊢ with h0 hk
    · exact ih he
    · cases hr : σ.rs.remove (σ.EvictionPool.get k).key with
      | error e => simp [hr] at he
      | ok r =>
        simp only [hr, ok_bind, pure_eq_ok, Except.ok.injEq, Prod.mk.injEq] at he
        rw [← he.2]
    · exact ih he

/-- `performEvictions` places samples and sweeps the pool until a sweep finds a victim. -/
theorem performEvictions_pool (passes : List Pass) (he : σ.performEvictions passes = .ok σ') :
    ∃ H, PoolRun σ.EvictionPool H σ'.EvictionPool := by
  induction passes generalizing σ with
  | nil => cases he
  | cons pass passes ih =>
    simp only [performEvictions] at he
    cases hp : σ.evictionPoolPopulate pass with
    | error e => simp [hp] at he
    | ok σ₁ =>
      cases hv : σ₁.evictFromPool 16 with
      | error e => simp [hp, hv] at he
      | ok r =>
        simp only [hp, hv, ok_bind] at he
        obtain ⟨H, hH⟩ := evictionPoolPopulate_pool hp
        have hsweep : PoolRun σ.EvictionPool (H ++ [(.sweep σ₁.m_map.keys, ())]) r.2.EvictionPool :=
          .snoc hH trivial (by rw [evictFromPool_pool 16 hv]; rfl)
        split_ifs at he with hr
        · cases he
          exact ⟨_, hsweep⟩
        · obtain ⟨H', hH'⟩ := ih he
          exact ⟨_, hsweep.append hH'⟩

/-- The calls of the cache do nothing to the pool but place samples and sweep. As long as every
    placed sample fits, the pool stays sorted; and a placement keeps it sorted and adds the sample,
    for the least idle one if there was no room, exactly if the sample fits. -/
theorem pool_is_sorted_iff {p : FrozenHot.EvictionPool} {H : List (EvictionPool.Call × Unit)}
    (hrun : Run EvictionPool.step EvictionPool.Fitting .init H p) :
    (∃ m, p.Sorted m) ∧
    (∀ idle key, (∃ m, (p.add idle key).Sorted m) ∧ p.Places (p.add idle key) ⟨idle, key⟩ ↔
      p.Fits idle key) ∧
    (∀ present, ∃ m, (p.sweep present 16).Sorted m) ∧
    (∀ (σ σ' : RedisLRUCache V) pass, σ.evictionPoolPopulate pass = .ok σ' →
      ∃ H, PoolRun σ.EvictionPool H σ'.EvictionPool) ∧
    ∀ (σ σ' : RedisLRUCache V) passes, σ.performEvictions passes = .ok σ' →
      ∃ H, PoolRun σ.EvictionPool H σ'.EvictionPool := by
  obtain ⟨m, hs⟩ := EvictionPool.Sorted.run hrun
  exact ⟨⟨m, hs⟩, hs.add_iff, fun present => hs.sweep present (le_refl _) hs.le,
    fun _ _ _ he => evictionPoolPopulate_pool he,
    fun _ _ passes he => performEvictions_pool passes he⟩

/-- Two samples in the order of their idle times. -/
theorem pool_is_sorted_iff_two :
    ∃ p : FrozenHot.EvictionPool, (∃ m, p.Sorted m) ∧ p.get 0 = ⟨5, 1⟩ ∧ p.get 1 = ⟨8, 2⟩ := by
  have hrun : Run EvictionPool.step EvictionPool.Fitting .init [(.place 5 1, ()), (.place 8 2, ())]
    _ :=
    .cons (by decide) rfl (.cons (by decide) rfl .nil)
  exact ⟨_, (pool_is_sorted_iff (V := Unit) hrun).1, rfl, rfl⟩

/-- The keys 1 and 2 are sampled when they are idle for ten units and for eight: the second sample
    goes before the first, the places 0 and 1 come to share an entry, the first sample is lost, and
    the key that was idle for less is evicted. -/
theorem pool_places_share_an_entry : ∃ σ : RedisLRUCache Unit,
    Run RedisLRUCache.step NonZero (RedisLRUCache.init 2)
      [(.insert 1 () 0 [], .inserted true), (.insert 2 () 200 [], .inserted true),
        (.insert 3 () 1000 [⟨fun i => min i 1, fun _ => 1000⟩], .inserted true)] σ ∧
    σ.EvictionPool.place 0 = σ.EvictionPool.place 1 ∧ 1 ∈ σ.m_map ∧ 2 ∉ σ.m_map :=
  ⟨_, .cons (by decide) rfl (.cons (by decide) rfl (.cons (by decide) rfl .nil)),
    rfl, by decide, by decide⟩

end RedisLRUCache
end FrozenHot
