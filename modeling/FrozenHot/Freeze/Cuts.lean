import FrozenHot.Freeze.Racing

/-! Where the scan of `construct_ratio` ends.

    With no call interleaved no eviction is counted, so that only the first cut can come. It comes
    if the list is longer than `FC_size - FC_RELAXATION`; a shorter list is scanned into the tail
    sentinel, which is taken for a dead node. If `FC_size` is below `FC_RELAXATION` the difference
    wraps, and no list is long enough. -/

namespace FrozenHot.Shard
open Schemes ListShard

variable {α : Type} {h : Heap Ptr NodeData} {c : Core α} {σ : Shard α} {τ : ListShard α}
variable {C R : List Item} {p : Ptr} {FC_size DC_size : ℕ}

/-- The `size_t` subtractions that an iteration of the scan evaluates; the second one only if the
    first cut is not made. -/
def subtractions (FC_size DC_size : ℕ) (σ : Shard α) (l : Scan) : List (ℕ × ℕ) :=
  match keyOf σ.heap l.temp_node with
  | .error _ => []
  | .ok key =>
    if key ∈ σ.m_map then
      if l.count + 1 > sizeSub FC_size FC_RELAXATION ∧ l.first_pass_flag then
        [(FC_size, FC_RELAXATION)]
      else [(FC_size, FC_RELAXATION), (DC_size, FC_RELAXATION)]
    else []

/-- The nodes that the scan visits, each with the subtractions of its iteration. -/
def visits (FC_size DC_size : ℕ) : ℕ → Shard α → Scan → List (Ptr × List (ℕ × ℕ))
  | 0, _, _ => []
  | fuel + 1, σ, l =>
    if l.stop ∨ l.temp_node = .m_fast_tail then []
    else (l.temp_node, subtractions FC_size DC_size σ l) ::
      match scanStep FC_size DC_size σ l with
      | .ok r => visits FC_size DC_size fuel r.1 r.2
      | .error _ => []

/-- What `construct_ratio` visits. -/
def ratioVisits (FC_size : ℕ) (σ : Shard α) : List (Ptr × List (ℕ × ℕ)) :=
  match ratioBegin FC_size σ with
  | .ok r => visits FC_size (sizeSub σ.m_maxSize FC_size) (σ.fresh + 2) r.1 r.2
  | .error _ => []

/-- `construct_ratio` returns, so that its scan has ended and no assertion has failed; it never
    takes the tail sentinel for a node, and none of its subtractions wraps. -/
structure CleanScan (FC_size : ℕ) (σ : Shard α) : Prop where
  returns : ∃ σ', σ.construct_ratio FC_size = .ok σ'
  visits : ∀ x ∈ ratioVisits FC_size σ, x.1 ≠ .m_tail
  subtractions : ∀ x ∈ ratioVisits FC_size σ, ∀ y ∈ x.2, y.2 ≤ y.1

/-! ### The visits of a scan over live nodes -/

theorem Holds.subtractions {s : Option Ptr} {F L : List Item} {x : Item} {l : Scan}
    (hh : Holds h c s F L) (hx : x ∈ F ++ L) (ht : l.temp_node = x.node) (hm : x.key ∈ c.m_map)
    (hf : l.first_pass_flag = true) :
    Shard.subtractions FC_size DC_size ⟨c, h⟩ l =
      if l.count + 1 > sizeSub FC_size FC_RELAXATION then [(FC_size, FC_RELAXATION)]
      else [(FC_size, FC_RELAXATION), (DC_size, FC_RELAXATION)] := by
  simp only [Shard.subtractions, ht, keyOf_eq (hh.lists.key x hx), hm, if_true, hf, and_true]

/-- As long as the cut comes before the end of the list, the scan visits nodes of the list only. -/
theorem Holds.visits {f n : ℕ} (hh : Holds h c (some p) [] (C ++ R)) (hev : c.eviction_counter = 0)
    (hlive : ∀ x ∈ R, x.key ∈ c.m_map) (hn : n ≤ sizeSub FC_size FC_RELAXATION)
    (hcut : sizeSub FC_size FC_RELAXATION < n + R.length) (hFC : FC_RELAXATION ≤ FC_size)
    (hDC : sizeSub FC_size FC_RELAXATION < n + 1 ∨ FC_RELAXATION ≤ DC_size) :
    ∀ x ∈ Shard.visits FC_size DC_size f ⟨c, h⟩ ⟨(R.map Item.node).headD .m_tail, n, true, false⟩,
      x.1 ≠ .m_tail ∧ ∀ y ∈ x.2, y.2 ≤ y.1 := by
  induction R generalizing h c C f n with
  | nil => simp only [List.length_nil] at hcut; omega
  | cons x R ih =>
    cases f with
    | zero => simp [Shard.visits]
    | succ g =>
      have hx : x ∈ [] ++ (C ++ x :: R) := by simp
      have hnode := hh.lists.node hx
      have hm := hlive x (by simp)
      obtain ⟨e, he⟩ := Finmap.mem_iff.mp hm
      have hsub : Shard.subtractions FC_size DC_size ⟨c, h⟩ ⟨x.node, n, true, false⟩ = _ :=
        hh.subtractions hx rfl hm rfl
      have hstep := hh.scan_live (l := ⟨x.node, n, true, false⟩) FC_size DC_size hx rfl
        hh.scan_next he
      rw [Shard.visits, List.map_cons, List.headD_cons,
        if_neg (by simp [hnode.ne_of_not (a := .m_fast_tail) id]), hsub, hstep]
      intro y hy
      by_cases hnow : n + 1 > sizeSub FC_size FC_RELAXATION
      · -- the cut: the loop breaks, whatever the surgery comes to
        have hy' : y = (x.node, [(FC_size, FC_RELAXATION)]) := by
          cases hc : Shard.cutCount h ((R.map Item.node).headD .m_tail) <;> rw [hc] at hy <;>
            cases g <;> simpa [hnow, Except.map, Shard.visits] using hy
        rw [hy']
        exact ⟨hnode.ne_of_not id, by simpa using hFC⟩
      · have hDC' : FC_RELAXATION ≤ DC_size := hDC.resolve_left (by omega)
        have hh' : Holds h { c with m_fasthash := c.m_fasthash.put x.key e.m_value } (some p) []
            (C ++ [x] ++ R) := by
          rw [List.append_assoc]; exact hh.congr rfl rfl
        rw [if_neg hnow, if_neg (fun hc => hnow hc.1), if_neg (by simp [hev])] at hy
        rcases List.mem_cons.mp hy with rfl | hy
        · exact ⟨hnode.ne_of_not id, by simp [hFC, hDC']⟩
        · exact ih (n := n + 1) hh' hev (fun z hz => hlive z (by simp [hz])) (by omega)
            (by simp only [List.length_cons] at hcut; omega) (Or.inr hDC') y hy

/-- A list of live nodes that is too short for the cut. -/
theorem split_short {m : Finmap fun _ : ℕ => HashMapValue (Option α)} {limit n : ℕ}
    (hn : n + R.length ≤ limit) : split m limit n R = none := by
  induction R generalizing n with
  | nil => rfl
  | cons x R ih =>
    simp only [List.length_cons] at hn
    simp [split, ih (by omega : n + 1 + R.length ≤ limit)]
    omega

/-- `construct_ratio` of a list of live nodes returns exactly if the list reaches to the cut. -/
theorem Rep.ratio_returns_iff {L : List Item} (hr : Rep none (⟨c, h⟩ : Shard α) ⟨c, [], L⟩)
    (hlive : ∀ x ∈ L, x.key ∈ c.m_map) (hmax : FC_size ≤ c.m_maxSize) :
    (∃ σ', Shard.construct_ratio FC_size ⟨c, h⟩ = .ok σ') ↔ sizeSub FC_size FC_RELAXATION <
    L.length := by
  constructor
  · rintro ⟨σ', hret⟩
    by_contra hle
    have hsplit : split c.m_map (sizeSub FC_size FC_RELAXATION) 0 L = none := split_short (by omega)
    have hnone : (⟨c, [], L⟩ : ListShard α).construct_ratio FC_size = none := by
      unfold ListShard.construct_ratio
      split <;> simp_all
    obtain ⟨e, he⟩ := hr.construct_ratio_fails hnone
    rw [hret] at he
    cases he
  · intro hlong
    have hsplit := split_take hlive (Nat.zero_le _)
      (by omega : sizeSub FC_size FC_RELAXATION < 0 + L.length)
    obtain ⟨x, R, rfl⟩ := List.exists_cons_of_length_pos (Nat.zero_lt_of_lt hlong)
    have hx : x.key ∈ c.m_map := hlive x (by simp)
    have hsome : ∃ τ', (⟨c, [], x :: R⟩ : ListShard α).construct_ratio FC_size = some τ' := by
      simp only [ListShard.construct_ratio]
      rw [if_pos ⟨hmax, trivial, hx⟩, hsplit]
      exact ⟨_, rfl⟩
    obtain ⟨τ', hsome⟩ := hsome
    obtain ⟨σ', hret, -⟩ := hr.construct_ratio hsome
    exact ⟨σ', hret⟩

/-- The first iteration evaluates both subtractions, unless it makes the cut. -/
theorem Holds.first_visit {x : Item} {f : ℕ} (hh : Holds h c (some p) [] (x :: R))
    (hm : x.key ∈ c.m_map) :
    (x.node, if 0 + 1 > sizeSub FC_size FC_RELAXATION then [(FC_size, FC_RELAXATION)]
      else [(FC_size, FC_RELAXATION), (DC_size, FC_RELAXATION)]) ∈
        Shard.visits FC_size DC_size (f + 1) ⟨c, h⟩ ⟨((x :: R).map Item.node).headD .m_tail, 0,
          true, false⟩ := by
  have hx : x ∈ [] ++ x :: R := by simp
  have hnode := hh.lists.node hx
  rw [Shard.visits, List.map_cons, List.headD_cons,
    if_neg (by simp [hnode.ne_of_not (a := .m_fast_tail) id]),
    hh.subtractions (l := ⟨x.node, 0, true, false⟩) hx rfl hm rfl]
  exact List.mem_cons_self

/-- With no call interleaved, the scan of `construct_ratio` over a list of live nodes ends at a cut
    and in order exactly if `FC_size` is at least `FC_RELAXATION`, the list reaches to the cut, and
    the rest of the capacity is at least `FC_RELAXATION`, or the cut is made at the first node. -/
theorem ratio_scan_ends_at_cut (hr : Rep none σ τ) (hthawed : τ.frozen = [])
    (hlive : ∀ x ∈ τ.main, x.key ∈ τ.m_map) (hmax : FC_size ≤ σ.m_maxSize) :
    CleanScan FC_size σ ↔ FC_RELAXATION ≤ FC_size ∧ FC_size < τ.main.length + FC_RELAXATION ∧
      (FC_size = FC_RELAXATION ∨ FC_size + FC_RELAXATION ≤ σ.m_maxSize) := by
  obtain ⟨c, h⟩ := σ
  obtain ⟨c', F, L⟩ := τ
  obtain rfl : c = c' := hr.core
  obtain rfl : F = [] := hthawed
  obtain ⟨h₁, hb, hh₁⟩ := hr.holds.ratioBegin hmax
  have hDC : sizeSub c.m_maxSize FC_size = c.m_maxSize - FC_size := if_pos hmax
  have hvisits : ratioVisits FC_size ⟨c, h⟩ = Shard.visits FC_size (c.m_maxSize - FC_size)
    (c.fresh + 2)
      ⟨{ c with eviction_counter := 0, fast_hash_construct := true }, h₁⟩
      ⟨(L.map Item.node).headD .m_tail, 0, true, false⟩ := by
    simp only [ratioVisits, hb, hDC]
  constructor
  · intro hclean
    have hlong := (hr.ratio_returns_iff hlive hmax).mp hclean.returns
    obtain ⟨x, R, rfl⟩ := List.exists_cons_of_length_pos (Nat.zero_lt_of_lt hlong)
    have hsub := hclean.subtractions _ (hvisits ▸ hh₁.first_visit (hlive x (by simp)))
    have hFC : FC_RELAXATION ≤ FC_size :=
      hsub (FC_size, FC_RELAXATION) (by dsimp only; split <;> simp)
    have hlim : sizeSub FC_size FC_RELAXATION = FC_size - FC_RELAXATION := if_pos hFC
    rw [hlim] at hlong hsub
    refine ⟨hFC, by dsimp only; omega, ?_⟩
    by_cases heq : FC_size = FC_RELAXATION
    · exact Or.inl heq
    · have hle := hsub (c.m_maxSize - FC_size, FC_RELAXATION) (by
        rw [if_neg (by omega)]
        simp)
      exact Or.inr (by dsimp only at hle hmax ⊢; omega)
  · rintro ⟨hFC, hlen, hrest⟩
    have hlim : sizeSub FC_size FC_RELAXATION = FC_size - FC_RELAXATION := if_pos hFC
    have hlong : sizeSub FC_size FC_RELAXATION < L.length := by
      dsimp only at hlen
      rw [hlim]; omega
    have hDC' : sizeSub FC_size FC_RELAXATION < 0 + 1 ∨ FC_RELAXATION ≤ c.m_maxSize - FC_size := by
      dsimp only at hrest
      rw [hlim]; omega
    have hall := Holds.visits (C := []) (f := c.fresh + 2) hh₁ rfl hlive (Nat.zero_le _)
      (by omega) hFC hDC'
    rw [← hvisits] at hall
    exact ⟨(hr.ratio_returns_iff hlive hmax).mpr hlong, fun x hx => (hall x hx).1,
      fun x hx => (hall x hx).2⟩

/-- A shard of 40 places with 40 keys, half of which are to be frozen. -/
theorem ratio_scan_ends_at_cut_forty : ∃ σ : Shard ℕ, σ.m_maxSize = 40 ∧ CleanScan 20 σ := by
  obtain ⟨σ, τ, hp, hlen, -⟩ := exists_filled (by decide : 1 ≤ 40) (by decide) 40 le_rfl
  have hmax : σ.m_maxSize = 40 := by rw [hp.rep.core]; exact hp.maxSize
  refine ⟨σ, hmax, (ratio_scan_ends_at_cut hp.rep hp.frozen (fun x hx => ?_) (by omega)).mpr
    ⟨le_rfl, ?_, Or.inl rfl⟩⟩
  · exact hp.roomy.tidy.mem_iff.mpr (List.mem_map_of_mem (List.mem_append_right _ hx))
  · rw [hlen]; decide

/-- With one key in the shard: `FC_size = 5` wraps, and `FC_size = 25` is past the end of the list.
    Both scans go on to `m_tail`, and `delink` of it fails its assertion. -/
theorem ratio_scan_visits_tail : ∃ σ σ' : Shard ℕ, (init 10).insert 3 (some 7) = .ok (true, σ) ∧
    σ.construct_ratio 5 = .error .assertion ∧ .m_tail ∈ (ratioVisits 5 σ).map Prod.fst ∧
    (init 60).insert 3 (some 7) = .ok (true, σ') ∧
    σ'.construct_ratio 25 = .error .assertion ∧ .m_tail ∈ (ratioVisits 25 σ').map Prod.fst :=
  ⟨_, _, rfl, rfl, by decide, rfl, rfl, by decide⟩

end FrozenHot.Shard
