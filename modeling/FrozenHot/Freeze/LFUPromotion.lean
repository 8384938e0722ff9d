import FrozenHot.Freeze.LFUPlain

/-! How exactly a hit is counted.

    The frequency of a class is a `long long`, and of the four outcomes of a hit three leave it one:
    a class of its own is counted up in place, and a key that moves to the class before its own, or
    out of a class that goes with it, finds its frequency there. Only where a class is split off
    does the frequency pass through the `int` of the constructor of `ListNode`. Beyond the largest
    `int` the new class is then not above the old one, and `pushForward` aborts. -/

namespace FrozenHot
open Schemes LFUShard

variable {V α : Type}

namespace LFUCore

/-- The classes of a cache are in order, with frequencies that a `long long` can still count up. -/
structure WellFormed (fh : Bool) (σ : LFUCore V) (F L : List FreClass) : Prop where
  rep : Rep fh σ F L
  order : Decreasing L
  bound : ∀ c ∈ L, c.fre ≤ 2 ^ 62

/-- From `σ` to `σ'` the key `k` of frequency `f` is counted up and no other; the classes stay in
    order, and all frequencies are numbers of a `long long`. -/
structure Promoted (fh : Bool) (F : List FreClass) (k : ℕ) (f : ℤ) (σ σ' : LFUCore V) : Prop where
  raised : σ'.frequency k = some (f + 1)
  others : ∀ j, j ≠ k → σ'.frequency j = σ.frequency j
  classes : ∃ L, Rep fh σ' F L ∧ Decreasing L ∧ ∀ c ∈ L, c.fre < 2 ^ 63

variable {fh : Bool} {σ σ' : LFUCore V} {F L L' : List FreClass} {c : FreClass} {new : Ptr}
    {k : ℕ} {f : ℤ}

/-- What a hit does to the classes counts its key up and no other. -/
theorem Bump.promoted (hb : Bump new k L L') (hr : Rep fh σ F L) (hr' : Rep fh σ' F L')
    (hf : σ.frequency k = some f) :
    σ'.frequency k = some (f + 1) ∧ ∀ j, j ≠ k → σ'.frequency j = σ.frequency j := by
  obtain ⟨g, p, Q, hL, hL'⟩ := hb.freRows
  have hrow : (g, p, k) ∈ FrozenHot.freRows (F ++ L) := by
    rw [freRows_append]
    exact List.mem_append_right _ (hL.mem_iff.mpr List.mem_cons_self)
  obtain rfl : g = f := Option.some.inj ((hr.frequency_eq_some.mpr ⟨p, hrow⟩).symm.trans hf)
  refine ⟨hr'.frequency_eq_some.mpr ⟨p, ?_⟩, fun j hj => ?_⟩
  · rw [freRows_append]
    exact List.mem_append_right _ (hL'.mem_iff.mpr List.mem_cons_self)
  · have hiff : ∀ u, σ'.frequency j = some u ↔ σ.frequency j = some u := by
      intro u
      rw [hr'.frequency_eq_some, hr.frequency_eq_some]
      refine exists_congr fun q => ?_
      rw [freRows_append, freRows_append, List.mem_append, List.mem_append, hL.mem_iff, hL'.mem_iff,
        List.mem_cons, List.mem_cons]
      simp [hj]
    exact Option.ext hiff

theorem Rep.frequency_of_mem (hr : Rep fh σ F L) (hc : c ∈ L) (hk : k ∈ c.keys) :
    σ.frequency k = some c.fre := by
  obtain ⟨⟨p, k'⟩, hx, rfl⟩ := List.mem_map.mp hk
  exact hr.frequency_eq_some.mpr ⟨p, mem_freRows.mpr ⟨c, List.mem_append_right _ hc, rfl, hx⟩⟩

/-- A key of the main list is not frozen. -/
theorem Rep.notMem_frozen (hr : Rep fh σ F L) (hc : c ∈ L) (hk : k ∈ c.keys) :
    k ∉ F.flatMap FreClass.keys := by
  have hnd := hr.entries.nodup
  rw [keys_rows, List.flatMap_append] at hnd
  exact fun hF => List.disjoint_of_nodup_append hnd hF (List.mem_flatMap.mpr ⟨c, hc, hk⟩)

/-- `find` of a key of the main list counts it up, or it has to split a class off beyond the range
    of `int` and aborts. -/
theorem WellFormed.find_cases (hw : WellFormed fh σ F L) (hc : c ∈ L) (hk : k ∈ c.keys) :
    (SplitFits L k → ∃ v σ', LFUCache.find σ k = .ok (some v, σ') ∧ Promoted fh F k c.fre σ σ') ∧
    (¬ SplitFits L k → LFUCache.find σ k = .error .assertion) := by
  have hfre := hw.rep.frequency_of_mem hc hk
  obtain ⟨e, he, -⟩ := Option.bind_eq_some_iff.mp hfre
  rw [hw.rep.find_eq he]
  refine ⟨fun hfits => ?_, fun hno => ?_⟩
  · rcases hw.rep.touch_cases hw.order he (hw.rep.notMem_frozen hc hk) with
      ⟨σ', L', ht, hbump, hr', -⟩ | ⟨⟨A, d, B, R, p, R', hL, hring, hah, hne, hover⟩, -⟩
    · obtain ⟨hraised, hothers⟩ := hbump.promoted hw.rep hr' hfre
      refine ⟨e.val, σ', by rw [ht, ok_bind], hraised, hothers, L', hr', hbump.decreasing hw.order,
        fun d hd => ?_⟩
      have := hbump.fre_le hw.bound d hd
      omega
    · exact absurd (hfits A d B R p R' hL hring hah hne) (not_lt.mpr hover)
  · simp only [SplitFits, not_forall, not_lt] at hno
    obtain ⟨A, d, B, R, p, R', rfl, hring, hah, hne, hover⟩ := hno
    have hlow := toInt_lt (d.fre + 1)
    rw [hw.rep.touch_fails hring he hah hne (by omega)]
    rfl

end LFUCore

open LFUCore

/-- In `LFUCache`, and in `LFU_FHCache` where a hit is counted, a hit on a key of frequency `c.fre`
    leaves it with `c.fre + 1`, the other keys as they were and the classes in order, exactly if no
    class has to be split off beyond the range of `int`; else `find` aborts. -/
theorem promotion_exact_iff {F L : List FreClass} {c : FreClass} {k : ℕ} (hc : c ∈ L)
    (hk : k ∈ c.keys) :
    (∀ σ : LFUCache V, WellFormed false σ [] L →
      ((∃ v σ', LFUCache.find σ k = .ok (some v, σ') ∧ Promoted false [] k c.fre σ σ') ↔
        SplitFits L k) ∧
      (¬ SplitFits L k → LFUCache.find σ k = .error .assertion)) ∧
    ∀ σ : LFUShard α, WellFormed true σ.toLFUCore F L →
      ((∃ v σ', σ.find k = .ok (some v, σ') ∧ Promoted true F k c.fre σ.toLFUCore σ'.toLFUCore) ↔
        σ.Counts k ∧ SplitFits L k) ∧
      (σ.Counts k → ¬ SplitFits L k → σ.find k = .error .assertion) := by
  refine ⟨fun σ hw => ?_, fun σ hw => ?_⟩
  · obtain ⟨hok, hfail⟩ := hw.find_cases hc hk
    refine ⟨⟨fun ⟨v, σ', hfind, _⟩ => ?_, hok⟩, hfail⟩
    by_contra hno
    rw [hfail hno] at hfind
    cases hfind
  · obtain ⟨hok, hfail⟩ := hw.find_cases hc hk
    have hfail' : σ.Counts k → ¬ SplitFits L k → σ.find k = .error .assertion := by
      intro hcounts hno
      rw [find_of_counts hcounts, hfail hno]
      rfl
    refine ⟨⟨fun ⟨v, σ', hfind, hp⟩ => ?_, fun ⟨hcounts, hfits⟩ => ?_⟩, hfail'⟩
    · have hcounts : σ.Counts k := by
        by_contra hno
        -- a hit that is not counted leaves the frequency as it is
        have hraised := hp.raised
        rw [find_still hno hfind, hw.rep.frequency_of_mem hc hk, Option.some_inj] at hraised
        omega
      refine ⟨hcounts, ?_⟩
      by_contra hno
      rw [hfail' hcounts hno] at hfind
      cases hfind
    · obtain ⟨v, σ', hfind, hp⟩ := hok hfits
      refine ⟨v, { σ with toLFUCore := σ' }, ?_, hp⟩
      rw [find_of_counts hcounts, hfind, ok_bind]

/-! ### Beyond the range of `int` -/

namespace LFUCore
variable {fh : Bool} {σ : LFUCore V} {a : Ptr} {p q : FrePtr} {f : ℤ} {v w : V} {k : ℕ}

theorem WellFormed.one_class {R : List (FrePtr × ℕ)} (hr : Rep fh σ [] [⟨a, f, R⟩]) (h1 : 1 ≤ f)
    (h2 : f ≤ 2 ^ 62) :
    WellFormed fh σ [] [⟨a, f, R⟩] :=
  ⟨hr, ⟨List.pairwise_singleton _ _, by simpa using h1⟩, by simpa using h2⟩

/-- A key alone in the only class, of any frequency. -/
theorem exists_single (hr : Rep fh σ [] []) (hlt : σ.s < σ.n) (k : ℕ) (v : V) (f : ℤ) :
    ∃ (σ' : LFUCore V) (a : Ptr) (p : FrePtr), Rep fh σ' [] [⟨a, f, [(p, k)]⟩] := by
  have hk : k ∉ σ.m_map := by
    rw [hr.entries.mem_iff]
    simp
  obtain ⟨σ₁, L, -, hop, hr₁, -⟩ := hr.insert_room hk hlt v
  obtain rfl := hop.of_nil
  obtain ⟨h', -, hr₂⟩ := Rep.setFre (A := []) hr₁ f
  exact ⟨_, _, _, hr₂⟩

/-- No class has to be split off for a key alone in the only class. -/
theorem splitFits_single : SplitFits [⟨a, f, [(p, k)]⟩] k := by
  intro A c B R q R' hL hring _ hne
  obtain ⟨rfl, hL⟩ | ⟨-, hL⟩ := List.append_eq_singleton_iff.mp hL.symm
  · obtain ⟨rfl, -⟩ := List.cons.inj hL
    have hlen := congrArg List.length hring
    simp only [List.length_append, List.length_cons, List.length_nil] at hlen
    exact absurd (List.eq_nil_of_length_eq_zero (by rw [List.length_append]; omega)) hne
  · exact absurd hL (by simp)

/-- Two keys that were hit in turn share a class with the largest `int` for its frequency. -/
theorem exists_hot_pair (v w : V) :
    ∃ H σ, Run LFUCache.call (fun _ _ => True) (init 2) H σ ∧ Pair false σ (2 ^ 31 - 1) v w := by
  obtain ⟨σ₁, σ₂, h3, -, h4, hp⟩ := (rep_init 2).insert_pair Nat.one_lt_two v w
  have hround : ∀ σ f, 0 ≤ f → f < 2 ^ 31 - 1 → Pair false σ f v w →
      ∃ A σ', Run LFUCache.call (fun _ _ => True) σ A σ' ∧ Pair false σ' (f + 1) v w := by
    intro σ f h0 hf hp
    obtain ⟨σ₁, σ₂, h3, h4, hp'⟩ := hp.round h0 hf
    exact ⟨_, σ₂, .cons trivial (LFUCache.call_find h3)
      (.cons trivial (LFUCache.call_find h4) .nil), hp'⟩
  obtain ⟨H, σ, hrun, hp⟩ := hot_of_rounds (J := fun σ f => Pair false σ f v w) hp hround
  exact ⟨_, σ, .cons trivial (LFUCache.call_insert h3)
    (.cons trivial (LFUCache.call_insert h4) hrun), hp⟩

/-- For a key that shares the first class a class has to be split off. -/
theorem not_splitFits_pair (hf : 2 ^ 31 - 1 ≤ f) : ¬ SplitFits [⟨a, f, [(q, 4), (p, 3)]⟩] 3 := by
  intro hfits
  have := hfits [] ⟨a, f, [(q, 4), (p, 3)]⟩ [] [(q, 4)] p [] rfl rfl (by simp [Ahead]) (by simp)
  exact absurd hf (not_le.mpr this)

end LFUCore

/-- A key alone in a class of frequency `2 ^ 40` is counted up. -/
theorem promotion_exact_single :
    (∃ σ σ' : LFUCache ℕ, σ.frequency 3 = some (2 ^ 40) ∧
      (∃ v, LFUCache.find σ 3 = .ok (some v, σ')) ∧
      σ'.frequency 3 = some (2 ^ 40 + 1)) ∧
    ∃ σ σ' : LFUShard ℕ, σ.frequency 3 = some (2 ^ 40) ∧ (∃ v, σ.find 3 = .ok (some v, σ')) ∧
      σ'.frequency 3 = some (2 ^ 40 + 1) := by
  constructor
  · obtain ⟨σ, a, p, hr⟩ := exists_single (rep_init 1) (by decide) 3 7 (2 ^ 40)
    have hw := WellFormed.one_class hr (by decide) (by decide)
    have hexact :=
      (promotion_exact_iff (V := ℕ) (α := ℕ) (F := []) (c := ⟨a, 2 ^ 40, [(p, 3)]⟩) (k := 3)
      List.mem_cons_self (by simp [FreClass.keys])).1 σ hw
    obtain ⟨v, σ', hfind, hp⟩ := hexact.1.mpr splitFits_single
    exact ⟨σ, σ', hr.frequency_of_mem (c := ⟨a, 2 ^ 40, [(p, 3)]⟩) List.mem_cons_self
      (by simp [FreClass.keys]), ⟨v, hfind⟩, hp.raised⟩
  · obtain ⟨c, a, p, hr⟩ := exists_single (LFUShard.init_inv 1).rep (by decide) 3 (some 7) (2 ^ 40)
    have hw := WellFormed.one_class hr (by decide) (by decide)
    have hexact :=
      (promotion_exact_iff (V := ℕ) (α := ℕ) (F := []) (c := ⟨a, 2 ^ 40, [(p, 3)]⟩) (k := 3)
      List.mem_cons_self (by simp [FreClass.keys])).2 { LFUShard.init 1 with toLFUCore := c } hw
    obtain ⟨v, σ', hfind, hp⟩ := hexact.1.mpr ⟨⟨rfl, rfl, fun h => absurd h Bool.false_ne_true⟩,
      splitFits_single⟩
    exact ⟨_, σ', hr.frequency_of_mem (c := ⟨a, 2 ^ 40, [(p, 3)]⟩) List.mem_cons_self
      (by simp [FreClass.keys]), ⟨v, hfind⟩, hp.raised⟩

/-- Two keys are hit in turn until their class has the largest `int` for its frequency. The next
    `find` of one of them has to split a class off and aborts. -/
theorem promotion_aborts_beyond_int :
    (∃ (H : List (LFUCall ℕ × LFUResp ℕ)) (σ : LFUCache ℕ) (a : Ptr) (p q : FrePtr),
      Run LFUCache.call (fun _ _ => True) (LFUCore.init 2) H σ ∧
      WellFormed false σ [] [⟨a, 2 ^ 31 - 1, [(q, 4), (p, 3)]⟩] ∧
      LFUCache.find σ 3 = .error .assertion) ∧
    ∃ (H : List (FHCall ℕ × FHResp ℕ)) (σ : LFUShard ℕ) (a : Ptr) (p q : FrePtr),
      Run LFU_FHCache.call LFU_FHCache.Served (LFUShard.init 2) H σ ∧
      WellFormed true σ.toLFUCore [] [⟨a, 2 ^ 31 - 1, [(q, 4), (p, 3)]⟩] ∧ σ.Counts 3 ∧
      σ.find 3 = .error .assertion := by
  constructor
  · obtain ⟨H, σ, hrun, ⟨a, p, q, hr⟩, -⟩ := exists_hot_pair 7 8
    have hw := WellFormed.one_class hr (by decide) (by decide)
    refine ⟨H, σ, a, p, q, hrun, hw, ?_⟩
    exact (hw.find_cases (k := 3) List.mem_cons_self (by simp [FreClass.keys])).2
      (not_splitFits_pair le_rfl)
  · obtain ⟨H, σ, hrun, hp⟩ := LFUShard.exists_hot_pair
    obtain ⟨a, p, q, hr⟩ := hp.pair.rep
    exact ⟨H, σ, a, p, q, hrun, WellFormed.one_class hr (by decide) (by decide), hp.counts 3,
      hp.find_fails⟩

end FrozenHot
