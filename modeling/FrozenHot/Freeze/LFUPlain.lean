import FrozenHot.Freeze.LFUDropIn
import FrozenHot.Freeze.LFUTransparent

/-! The LFU caches with nothing frozen.

    Over a run of `find` and `insert` the classes of `LFUCache` and of `LFU_FHCache` stay in order,
    with no bound on the frequencies: a `find` that would have to count beyond an `int` does not
    return. What happens to a new key, and whether a shard can be frozen in part, depends on the
    last class. -/

namespace FrozenHot
open Schemes

variable {V α : Type}

namespace LFUCore

/-- A cache with nothing frozen, with its classes in order. -/
structure Ordered (fh : Bool) (σ : LFUCore V) (L : List FreClass) : Prop where
  rep : Rep fh σ [] L
  order : Decreasing L
  bound : σ.s ≤ σ.n

/-- The frequency of a cached key. -/
def frequency (σ : LFUCore V) (k : ℕ) : Option ℤ :=
  (σ.m_map.lookup k).bind fun e => σ.classes.val e.listNode

variable {fh : Bool} {σ σ' : LFUCore V} {F L L' : List FreClass} {k j : ℕ} {v : V} {f : ℤ}
    {e : LFUValue V}

theorem Rep.frequency_eq_some (hr : Rep fh σ F L) :
    σ.frequency k = some f ↔ ∃ p, (f, p, k) ∈ freRows (F ++ L) := by
  rw [frequency, Option.bind_eq_some_iff]
  constructor
  · rintro ⟨e, he, hf⟩
    obtain ⟨c, hc, hnode, hx⟩ := hr.class_of_entry he
    rw [← hnode, hr.lists.fre c hc, Option.some_inj] at hf
    exact ⟨e.freNode, mem_freRows.mpr ⟨c, hc, hf, hx⟩⟩
  · rintro ⟨p, hp⟩
    obtain ⟨c, hc, rfl, hx⟩ := mem_freRows.mp hp
    have hrow : (c.node, p, k) ∈ rows (F ++ L) :=
      List.mem_flatMap.mpr ⟨c, hc, List.mem_map_of_mem hx⟩
    obtain ⟨v, hl⟩ := (hr.entries.lookup k c.node p).mpr hrow
    exact ⟨_, hl, hr.lists.fre c hc⟩

theorem Ordered.mem_iff (ho : Ordered fh σ L) : k ∈ σ.m_map ↔ k ∈ L.flatMap FreClass.keys := by
  rw [ho.rep.entries.mem_iff, List.nil_append, keys_rows]

theorem Ordered.nodup (ho : Ordered fh σ L) : (L.flatMap FreClass.keys).Nodup := by
  have := ho.rep.entries.nodup
  rwa [List.nil_append, keys_rows] at this

theorem Ordered.frequency_eq_some (ho : Ordered fh σ L) :
    σ.frequency k = some f ↔ ∃ p, (f, p, k) ∈ freRows L :=
  ho.rep.frequency_eq_some

theorem Ordered.frequency_of_mem (ho : Ordered fh σ L) (hk : k ∈ σ.m_map) :
    ∃ f, σ.frequency k = some f ∧ 1 ≤ f := by
  rw [ho.mem_iff, ← keys_freRows] at hk
  obtain ⟨⟨f, p, k'⟩, hq, rfl⟩ := List.mem_map.mp hk
  obtain ⟨c, hc, rfl, -⟩ := mem_freRows.mp hq
  exact ⟨c.fre, ho.frequency_eq_some.mpr ⟨p, hq⟩, ho.order.one_le c hc⟩

/-! ### The calls -/

/-- A `find` that returns keeps the order. -/
theorem Ordered.found {r : Option V} (ho : Ordered fh σ L) (h : LFUCache.find σ k = .ok (r, σ')) :
    r = σ.value k ∧ Same σ σ' ∧ ∃ L', Ordered fh σ' L' := by
  cases he : σ.m_map.lookup k with
  | none =>
    simp only [LFUCache.find, he, pure_eq_ok] at h
    cases h
    exact ⟨by simp [value, he], .refl σ, L, ho⟩
  | some e =>
    rw [ho.rep.find_eq he] at h
    rcases ho.rep.touch_cases ho.order he (by simp) with ⟨σ₁, L', ht, hbump, hr', hsame⟩ | ⟨-, ht⟩
    · rw [ht] at h
      cases h
      exact ⟨by simp [value, he], hsame, L', hr',
        hbump.decreasing ho.order, by rw [hsame.s, hsame.n]; exact ho.bound⟩
    · rw [ht] at h
      cases h

/-- A key whose frequency can be counted up is found. -/
theorem Ordered.find_ok (ho : Ordered fh σ L) (hf : σ.frequency k = some f) (hlt : f < 2 ^ 31 - 1) :
    ∃ σ', LFUCache.find σ k = .ok (σ.value k, σ') := by
  obtain ⟨e, he, hval⟩ := Option.bind_eq_some_iff.mp hf
  rw [ho.rep.find_eq he]
  rcases ho.rep.touch_cases ho.order he (by simp)
    with ⟨σ₁, L', ht, -⟩ | ⟨⟨A, c, B, R, p, R', rfl, hring, -, -, hover⟩, -⟩
  · exact ⟨σ₁, by rw [ht, ok_bind, value, he]; rfl⟩
  · have hc := ho.rep.lists.fre c (by simp)
    rw [← (ho.rep.entry hring he).1, hval, Option.some_inj] at hc
    omega

/-- The last ring after a new key: the key is alone in it and nothing had frequency 1, or its end is
    an old key of frequency 1. -/
theorem last_of_opened {new a : Ptr} {x y : FrePtr × ℕ} {A : List FreClass} {R : List (FrePtr × ℕ)}
    (hL : Decreasing L) (ho : Opened new x L (A ++ [⟨a, 1, R ++ [y]⟩])) :
    (y = x ∧ ∀ z, (1, z) ∉ freRows L) ∨ (1, y) ∈ freRows L := by
  generalize hL' : A ++ [(⟨a, 1, R ++ [y]⟩ : FreClass)] = L' at ho
  cases ho with
  | @old B c h1 =>
    have hring : R ++ [y] = x :: c.ring := by
      have h := List.append_inj' hL' rfl
      exact congrArg FreClass.ring (List.cons.inj h.2).1
    rcases c.ring.eq_nil_or_concat with hnil | ⟨S, z, hS⟩
    · -- the class was empty
      rw [hnil] at hring
      obtain ⟨-, hy⟩ := List.append_inj' (show R ++ [y] = [] ++ [x] from hring) rfl
      refine Or.inl ⟨(List.cons.inj hy).1, fun z hz => ?_⟩
      obtain ⟨d, hd, hd1, hzd⟩ := mem_freRows.mp hz
      rcases List.mem_append.mp hd with hd | hd
      · have := (decreasing_middle.mp hL).2.2.1 d hd
        omega
      · rw [List.mem_singleton.mp hd, hnil] at hzd
        cases hzd
    · rw [hS, List.concat_eq_append, ← List.cons_append] at hring
      obtain ⟨-, hy⟩ := List.append_inj' hring rfl
      refine Or.inr (mem_freRows.mpr ⟨c, by simp, h1, ?_⟩)
      rw [hS, (List.cons.inj hy).1]
      simp
  | new hlast =>
    obtain ⟨rfl, h⟩ := List.append_inj' hL' rfl
    have hring : R ++ [y] = [] ++ [x] := congrArg FreClass.ring (List.cons.inj h).1
    obtain ⟨-, hy⟩ := List.append_inj' hring rfl
    refine Or.inl ⟨(List.cons.inj hy).1, fun z hz => ?_⟩
    obtain ⟨d, hd, hd1, -⟩ := mem_freRows.mp hz
    obtain ⟨B, C, rfl⟩ := List.append_of_mem hd
    -- a class of frequency 1 is the last one
    cases C with
    | nil => exact hlast d (by simp) hd1
    | cons c C =>
      have h1 := (decreasing_middle.mp hL).2.2.2 c (by simp)
      have h2 := hL.one_le c (by simp)
      omega

/-- `insert` of an absent key: with room it is added, else the last key of frequency 1 goes. -/
theorem Ordered.add (ho : Ordered fh σ L) (hk : k ∉ σ.m_map) (v : V) :
    ∃ σ' L', LFUCache.insert σ k v = .ok (true, σ') ∧ Ordered fh σ' L' ∧
      ((σ.s < σ.n ∧ σ'.frequency k = some 1 ∧ ∀ j, σ'.value j = if j = k then
        some v else σ.value j) ∨
        ∃ y, (∀ j, σ'.value j = if j = y then none else if j = k then some v else σ.value j) ∧
          ¬ σ.s < σ.n ∧
          ((y = k ∧ ∀ j, σ.frequency j ≠ some 1) ∨
            (σ.frequency y = some 1 ∧ σ'.frequency k = some 1))) := by
  obtain ⟨σ', A, a, R, hop, had, hn, hroom, hfull⟩ := ho.rep.enlist hk ho.bound v
  have hins : LFUCache.insert σ k v = .ok (true, σ') := by
    rw [LFUCache.insert]
    exact (if_neg hk).trans had
  have hd := hop.decreasing ho.order
  have hnew : (1, .node σ.fresh, k) ∈ freRows (A ++ [⟨a, 1, R⟩]) :=
    hop.freRows.mem_iff.mpr List.mem_cons_self
  by_cases hlt : σ.s < σ.n
  · obtain ⟨hr, hs, hv⟩ := hroom hlt
    have ho' : Ordered fh σ' (A ++ [⟨a, 1, R⟩]) := ⟨hr, hd, by rw [hs, hn]; exact hlt⟩
    exact ⟨σ', _, hins, ho', Or.inl ⟨hlt, ho'.frequency_eq_some.mpr ⟨_, hnew⟩, hv⟩⟩
  · obtain ⟨R₀, y, rfl, hr, hs, hv⟩ := hfull hlt
    have ho' : Ordered fh σ' (A ++ [⟨a, 1, R₀⟩]) :=
      ⟨hr, hd.congr (by simp), by rw [hs, hn]; exact ho.bound⟩
    refine ⟨σ', _, hins, ho', Or.inr ⟨y.2, hv, hlt, ?_⟩⟩
    rcases last_of_opened ho.order hop with ⟨rfl, hno⟩ | hy
    · refine Or.inl ⟨rfl, fun j hj => ?_⟩
      obtain ⟨p, hp⟩ := ho.frequency_eq_some.mp hj
      exact hno _ hp
    · -- the new key is still in a ring of frequency 1
      refine Or.inr ⟨ho.frequency_eq_some.mpr ⟨y.1, hy⟩,
        ho'.frequency_eq_some.mpr ⟨.node σ.fresh, ?_⟩⟩
      have hp := freRows_take A [] a a 1 R₀ [] y
      rw [List.append_nil] at hp
      rcases List.mem_cons.mp (hp.mem_iff.mp hnew) with he | h
      · have hky : k = y.2 := congrArg (fun q : ℤ × FrePtr × ℕ => q.2.2) he
        exact absurd (ho.mem_iff.mpr (keys_freRows L ▸ List.mem_map_of_mem
          (f := fun q : ℤ × FrePtr × ℕ => q.2.2) hy))
          (hky ▸ hk)
      · exact h

theorem Ordered.inserted {b : Bool} (ho : Ordered fh σ L)
    (h : LFUCache.insert σ k v = .ok (b, σ')) :
    (∃ L', Ordered fh σ' L') ∧ ∀ j, j ∈ σ'.m_map → j = k ∨ j ∈ σ.m_map := by
  by_cases hk : k ∈ σ.m_map
  · have hins : LFUCache.insert σ k v =
        .ok (false, { newFreNode σ k with rings := (newFreNode σ k).rings.free (.node σ.fresh) }) :=
          if_pos hk
    rw [hins] at h
    cases h
    exact ⟨⟨L, ho.rep.present k, ho.order, ho.bound⟩, fun j hj => Or.inr hj⟩
  · obtain ⟨σ₁, L', hins, ho', hcase⟩ := ho.add hk v
    rw [hins] at h
    cases h
    refine ⟨⟨L', ho'⟩, fun j hj => ?_⟩
    rw [mem_iff_value] at hj ⊢
    rcases hcase with ⟨-, -, hv⟩ | ⟨y, hv, -⟩
    · rw [hv] at hj
      by_cases h : j = k
      · exact Or.inl h
      · exact Or.inr (by rwa [if_neg h] at hj)
    · rw [hv] at hj
      split_ifs at hj with h1 h2
      · cases hj
      · exact Or.inl h2
      · exact Or.inr hj

/-! ### A new key is taken in -/

/-- `insert` of `k` found a place for it: `find` returns it, and a key that had to go is an old one
    of the smallest frequency. -/
def TookIn (find : LFUCore V → Except Fault (Option V)) (σ σ' : LFUCore V) (k : ℕ) (v : V) : Prop :=
  find σ' = .ok (some v) ∧ ∀ j, j = k ∨ j ∈ σ.m_map → j ∉ σ'.m_map →
    ∃ f, σ.frequency j = some f ∧ ∀ i g, σ.frequency i = some g → f ≤ g

/-- There is room for a new key, or an old one that was not hit. -/
def HasRoom (σ : LFUCore V) : Prop := σ.s < σ.n ∨ ∃ j, σ.frequency j = some 1

theorem Ordered.tookIn_iff (ho : Ordered fh σ L) (hk : k ∉ σ.m_map) (v : V) :
    ∃ σ', LFUCache.insert σ k v = .ok (true, σ') ∧
      (TookIn (fun σ => (LFUCache.find σ k).map Prod.fst) σ σ' k v ↔ σ.HasRoom) := by
  obtain ⟨σ', L', hins, ho', hcase⟩ := ho.add hk v
  refine ⟨σ', hins, ?_⟩
  have hfind : σ'.frequency k = some 1 → σ'.value k = some v → (LFUCache.find σ' k).map Prod.fst =
      .ok (some v) := by
    intro hf hv
    obtain ⟨σ₁, h⟩ := ho'.find_ok hf (by omega)
    rw [h, hv]
    rfl
  rcases hcase with ⟨hlt, hf, hv⟩ | ⟨y, hv, hlt, ⟨rfl, hno⟩ | ⟨hy, hf⟩⟩
  · refine iff_of_true ⟨hfind hf (by rw [hv, if_pos rfl]), fun j hj hgone => ?_⟩ (Or.inl hlt)
    refine absurd ((mem_iff_value σ' j).mpr ?_) hgone
    rw [hv]
    split_ifs with h
    · rfl
    · exact (mem_iff_value σ j).mp (hj.resolve_left h)
  · -- the new key itself is gone
    refine iff_of_false (fun h => ?_) (fun h => h.elim hlt fun ⟨j, hj⟩ => hno j hj)
    have hl : σ'.m_map.lookup y = none := by
      have := hv y
      rwa [if_pos rfl, value, Option.map_eq_none_iff] at this
    have := h.1
    simp only [LFUCache.find, hl, pure_eq_ok] at this
    cases this
  · have hyk : k ≠ y := by
      rintro rfl
      obtain ⟨e, he, -⟩ := Option.bind_eq_some_iff.mp hy
      exact hk (Finmap.mem_of_lookup_eq_some he)
    refine iff_of_true ⟨hfind hf (by rw [hv, if_neg hyk, if_pos rfl]), fun j hj hgone => ?_⟩
      (Or.inr ⟨y, hy⟩)
    by_cases hjy : j = y
    · subst hjy
      refine ⟨1, hy, fun i g hg => ?_⟩
      obtain ⟨e, he, -⟩ := Option.bind_eq_some_iff.mp hg
      obtain ⟨g', hg', hle⟩ := ho.frequency_of_mem (Finmap.mem_of_lookup_eq_some he)
      rw [hg] at hg'
      cases hg'
      exact hle
    · refine absurd ((mem_iff_value σ' j).mpr ?_) hgone
      rw [hv, if_neg hjy]
      split_ifs with h
      · rfl
      · exact (mem_iff_value σ j).mp (hj.resolve_left h)

end LFUCore

/-! ### Runs -/

theorem LFUCache.ordered_run {n : ℕ} {σ : LFUCache V} {H : List (LFUCall V × LFUResp V)}
    (hrun : Run LFUCache.call (fun _ _ => True) (LFUCore.init n) H σ) :
    ∃ L, LFUCore.Ordered false σ L := by
  refine hrun.invariant (fun σ => ∃ L, LFUCore.Ordered false σ L)
    ⟨[], LFUCore.rep_init n, ⟨.nil, by simp⟩, Nat.zero_le n⟩ ?_
  rintro σ₁ c o σ₂ ⟨L, ho⟩ - - hstep
  cases c with
  | find k =>
    obtain ⟨r, hf, h⟩ := bind_eq_ok.mp hstep
    cases h
    exact (ho.found hf).2.2
  | insert k v =>
    obtain ⟨r, hf, h⟩ := bind_eq_ok.mp hstep
    cases h
    exact (ho.inserted hf).1

namespace LFUShard
variable {σ σ' : LFUShard α} {L A : List FreClass} {c : FreClass} {k FC_size n : ℕ}
    {H : List (FHCall α × FHResp α)}

/-- A shard that was never frozen. -/
structure Unfrozen (σ : LFUShard α) (L : List FreClass) : Prop where
  ordered : LFUCore.Ordered true σ.toLFUCore L
  flags : σ.FH_ready = false ∧ σ.FH_construct = false ∧ σ.tier_ready = false ∧
    σ.tier_no_insert = false ∧
    σ.curve_flag = false
  empty : σ.m_fasthash = ∅

theorem Unfrozen.init (n : ℕ) : Unfrozen (LFUShard.init n : LFUShard α) [] :=
  ⟨⟨(init_inv n).rep, ⟨.nil, by simp⟩, Nat.zero_le n⟩, ⟨rfl, rfl, rfl, rfl, rfl⟩, rfl⟩

/-- The calls that neither freeze nor thaw; the only new key is that of an `insert`. -/
theorem Unfrozen.call {c : FHCall α} {o : FHResp α} (hu : Unfrozen σ L) (hp : c.Plain)
    (hstep : LFU_FHCache.call σ c = .ok (o, σ')) :
    (∃ L', Unfrozen σ' L') ∧ ∀ j ∈ σ'.m_map, j ∈ σ.m_map ∨ ∃ v, c = .insert j v := by
  cases c with
  | find k =>
    obtain ⟨r, hf, h⟩ := bind_eq_ok.mp hstep
    cases h
    rw [find_eq hu.flags] at hf
    obtain ⟨r', hf', h⟩ := bind_eq_ok.mp hf
    cases h
    obtain ⟨-, hsame, L', ho'⟩ := hu.ordered.found hf'
    refine ⟨⟨L', ho', hu.flags, hu.empty⟩, fun j hj => Or.inl ?_⟩
    rw [← Finmap.mem_keys, ← hsame.keys, Finmap.mem_keys]
    exact hj
  | insert k v =>
    obtain ⟨r, hf, h⟩ := bind_eq_ok.mp hstep
    cases h
    rw [insert_eq hu.flags.2.2.2.1 hu.flags.2.2.2.2] at hf
    obtain ⟨r', hf', h⟩ := bind_eq_ok.mp hf
    cases h
    obtain ⟨⟨L', ho'⟩, hkeys⟩ := hu.ordered.inserted hf'
    refine ⟨⟨L', ho', hu.flags, hu.empty⟩, fun j hj => ?_⟩
    rcases hkeys j hj with rfl | hj
    · exact Or.inr ⟨v, rfl⟩
    · exact Or.inl hj
  | delete_key k =>
    cases hstep
    exact ⟨⟨L, hu⟩, fun j hj => Or.inl hj⟩
  | get k v => cases hp
  | construct_tier => cases hp
  | construct_ratio FC_size => cases hp
  | deconstruct => cases hp

theorem Unfrozen.run (hrun : Run LFU_FHCache.call (fun _ c => c.Plain) (LFUShard.init n) H σ) :
    ∃ L, Unfrozen σ L := by
  refine hrun.invariant (fun σ => ∃ L, Unfrozen σ L) ⟨[], .init n⟩ ?_
  rintro σ₁ c o σ₂ ⟨L, hu⟩ hp - hstep
  exact (hu.call hp hstep).1

/-- With valid keys. -/
theorem Unfrozen.run_valid
    (hrun : Run LFU_FHCache.call (fun _ c => c.Plain ∧ c.Valid) (LFUShard.init n) H σ) :
    (∃ L, Unfrozen σ L) ∧ ∀ k ∈ σ.m_map, ValidKey k := by
  refine hrun.invariant (fun σ => (∃ L, Unfrozen σ L) ∧ ∀ k ∈ σ.m_map, ValidKey k)
    ⟨⟨[], .init n⟩, fun _ h => absurd h Finmap.notMem_empty⟩ ?_
  rintro σ₁ c o σ₂ ⟨⟨L, hu⟩, hkeys⟩ ⟨hp, hvalid⟩ - hstep
  obtain ⟨hu', hnew⟩ := hu.call hp hstep
  refine ⟨hu', fun j hj => ?_⟩
  rcases hnew j hj with hj | ⟨v, rfl⟩
  · exact hkeys j hj
  · exact hvalid

end LFUShard

/-- `insert` of an absent key takes it in, in `LFUCache` and in an `LFU_FHCache` that was never
    frozen, exactly if there is room or an old key of frequency 1. -/
theorem lfu_insert_takes_in_iff :
    (∀ {n : ℕ} {σ : LFUCache V} {H : List (LFUCall V × LFUResp V)},
      Run LFUCache.call (fun _ _ => True) (LFUCore.init n) H σ → ∀ k v, k ∉ σ.m_map →
      ∃ σ', LFUCache.insert σ k v = .ok (true, σ') ∧
        (LFUCore.TookIn (fun σ => (LFUCache.find σ k).map Prod.fst) σ σ' k v ↔ σ.HasRoom)) ∧
    ∀ {n : ℕ} {σ : LFUShard α} {H : List (FHCall α × FHResp α)},
      Run LFU_FHCache.call (fun _ c => c.Plain) (LFUShard.init n) H σ → ∀ k v, k ∉ σ.m_map →
      ∃ σ', σ.insert k v = .ok (true, σ') ∧
        (LFUCore.TookIn (fun c => (LFUShard.find { σ' with toLFUCore := c } k).map Prod.fst)
          σ.toLFUCore σ'.toLFUCore k v ↔ σ.HasRoom) := by
  refine ⟨fun hrun k v hk => ?_, fun {n σ H} hrun k v hk => ?_⟩
  · obtain ⟨L, ho⟩ := LFUCache.ordered_run hrun
    exact ho.tookIn_iff hk v
  · obtain ⟨L, hu⟩ := LFUShard.Unfrozen.run hrun
    obtain ⟨c, hins, hiff⟩ := hu.ordered.tookIn_iff hk v
    refine ⟨{ σ with toLFUCore := c }, ?_, ?_⟩
    · rw [LFUShard.insert_eq hu.flags.2.2.2.1 hu.flags.2.2.2.2, hins, ok_bind]
    · have hfind : (fun d => (LFUShard.find { σ with toLFUCore := d } k).map Prod.fst) =
          fun d => (LFUCache.find d k).map Prod.fst := by
        funext d
        have := LFUShard.find_eq (σ := { σ with toLFUCore := d }) hu.flags k
        rw [this]
        cases LFUCache.find d k <;> rfl
      show LFUCore.TookIn (fun d => (LFUShard.find { σ with toLFUCore := d } k).map Prod.fst)
        σ.toLFUCore c k v ↔ _
      rw [hfind]
      exact hiff

/-- Both caches full, with key 3 hit and key 4 not: `insert` of 5 takes it in, and 4 goes. -/
theorem lfu_insert_takes_in_two :
    (∃ σ σ' : LFUCache ℕ, σ.m_map.keys = {3, 4} ∧ σ.s = σ.n ∧
      LFUCache.insert σ 5 9 = .ok (true, σ') ∧
      σ'.m_map.keys = {3, 5} ∧ (LFUCache.find σ' 5).map Prod.fst = .ok (some 9)) ∧
    ∃ σ σ' : LFUShard ℕ, σ.m_map.keys = {3, 4} ∧ σ.s = σ.n ∧ σ.insert 5 (some 9) = .ok (true, σ') ∧
      σ'.m_map.keys = {3, 5} ∧ (σ'.find 5).map Prod.fst = .ok (some (some 9)) := by
  constructor
  · obtain ⟨σ, hrun, hkeys, hfull, hk, hfre, heval⟩ : ∃ σ : LFUCache ℕ,
        Run LFUCache.call (fun _ _ => True) (LFUCore.init 2)
          [(.insert 3 7, .inserted true), (.find 3, .found (some 7)),
            (.insert 4 8, .inserted true)] σ ∧
        σ.m_map.keys = {3, 4} ∧ σ.s = σ.n ∧ 5 ∉ σ.m_map ∧ σ.frequency 4 = some 1 ∧
        (LFUCache.insert σ 5 9).toOption.map (fun r => r.2.m_map.keys) = some {3, 5} :=
      ⟨_, .cons trivial rfl (.cons trivial rfl (.cons trivial rfl .nil)), by decide, by decide, by
        decide, by decide, by decide⟩
    obtain ⟨σ', hins, hiff⟩ := (lfu_insert_takes_in_iff (V := ℕ) (α := ℕ)).1 hrun 5 9 hk
    rw [hins] at heval
    exact ⟨σ, σ', hkeys, hfull, hins, Option.some.inj heval, (hiff.mpr (Or.inr ⟨4, hfre⟩)).1⟩
  · obtain ⟨σ, hrun, hkeys, hfull, hk, hfre, heval⟩ : ∃ σ : LFUShard ℕ,
        Run LFU_FHCache.call (fun _ c => c.Plain) (LFUShard.init 2)
          [(.insert 3 (some 7), .inserted true), (.find 3, .found (some (some 7))),
            (.insert 4 (some 8), .inserted true)] σ ∧
        σ.m_map.keys = {3, 4} ∧ σ.s = σ.n ∧ 5 ∉ σ.m_map ∧ σ.frequency 4 = some 1 ∧
        (σ.insert 5 (some 9)).toOption.map (fun r => r.2.m_map.keys) = some {3, 5} :=
      ⟨_, .cons trivial rfl (.cons trivial rfl (.cons trivial rfl .nil)), by decide, by decide, by
        decide, by decide, by decide⟩
    obtain ⟨σ', hins, hiff⟩ := (lfu_insert_takes_in_iff (V := ℕ) (α := ℕ)).2 hrun 5 (some 9) hk
    rw [hins] at heval
    exact ⟨σ, σ', hkeys, hfull, hins, Option.some.inj heval, (hiff.mpr (Or.inr ⟨4, hfre⟩)).1⟩

/-- Full, with the only key hit once: `insert` returns `true`, and the new key is not there. -/
theorem lfu_insert_evicts_itself : ∃ (H : List (LFUCall ℕ × LFUResp ℕ)) (σ : LFUCache ℕ),
    Run LFUCache.call (fun _ _ => True) (LFUCore.init 1) H σ ∧ 4 ∉ σ.m_map ∧
    ∃ σ', LFUCache.insert σ 4 8 = .ok (true, σ') ∧ (LFUCache.find σ' 4).map Prod.fst = .ok none :=
  ⟨[(.insert 3 7, .inserted true), (.find 3, .found (some 7))], _,
    .cons trivial rfl (.cons trivial rfl .nil), by decide, _, rfl, rfl⟩

/-! ### Freezing a part -/

namespace LFUCore
variable {σ : LFUCore V} {A L : List FreClass} {c : FreClass} {fh : Bool}

/-- The number of cached keys that are not in the last class. -/
def keysBeforeLast (σ : LFUCore V) : ℕ :=
  (σ.m_map.keys.filter fun k => (σ.m_map.lookup k).map LFUValue.listNode ≠ σ.classes.prev
    .m_tail).card

theorem Ordered.card_keys (ho : Ordered fh σ L) :
    σ.m_map.keys.card = (L.flatMap FreClass.keys).length := by
  have : σ.m_map.keys = (L.flatMap FreClass.keys).toFinset := by
    ext k
    rw [Finmap.mem_keys, ho.mem_iff, List.mem_toFinset]
  rw [this, List.toFinset_card_of_nodup ho.nodup]

theorem Ordered.keysBeforeLast_eq (ho : Ordered fh σ (A ++ [c])) :
    σ.keysBeforeLast = (A.flatMap FreClass.keys).length := by
  have hlast : σ.classes.prev .m_tail = some c.node := by
    have := ho.rep.lists.main.seg.prev_last
    simpa using this
  have hnodes := ho.rep.rings.nodes
  rw [List.nil_append, List.map_append, List.map_singleton, List.nodup_append'] at hnodes
  have hnodup := ho.nodup
  rw [List.flatMap_append] at hnodup
  have : (σ.m_map.keys.filter fun k => (σ.m_map.lookup k).map LFUValue.listNode ≠
      σ.classes.prev .m_tail) =
      (A.flatMap FreClass.keys).toFinset := by
    ext k
    rw [Finset.mem_filter, Finmap.mem_keys, List.mem_toFinset, hlast]
    constructor
    · rintro ⟨hk, hne⟩
      obtain ⟨e, he⟩ := Finmap.mem_iff.mp hk
      obtain ⟨d, hd, hnode, hx⟩ := ho.rep.class_of_entry he
      rw [List.nil_append] at hd
      rcases List.mem_append.mp hd with hd | hd
      · exact List.mem_flatMap.mpr ⟨d, hd, List.mem_map_of_mem (f := Prod.snd) hx⟩
      · rw [List.mem_singleton.mp hd] at hnode
        exact absurd (by rw [he, Option.map_some, hnode]) hne
    · intro hk
      obtain ⟨d, hd, hkd⟩ := List.mem_flatMap.mp hk
      obtain ⟨⟨p, k'⟩, hx, rfl⟩ := List.mem_map.mp hkd
      have hmem : d ∈ A ++ [c] := List.mem_append_left _ hd
      have hrow : (d.node, p, k') ∈ rows ([] ++ (A ++ [c])) :=
        List.mem_flatMap.mpr ⟨d, hmem, List.mem_map_of_mem hx⟩
      obtain ⟨v, hl⟩ := (ho.rep.entries.lookup k' d.node p).mpr hrow
      refine ⟨Finmap.mem_of_lookup_eq_some hl, fun h => ?_⟩
      rw [hl, Option.map_some, Option.some_inj] at h
      exact hnodes.2.2 (List.mem_map_of_mem hd) (by rw [show d.node = c.node from h]; simp)
  rw [keysBeforeLast, this, List.toFinset_card_of_nodup (List.nodup_append'.mp hnodup).1]

end LFUCore

namespace LFUShard
variable {σ σ' : LFUShard α} {L A : List FreClass} {c : FreClass} {k FC_size n : ℕ}
    {H : List (FHCall α × FHResp α)}

/-- A shard with a key has a last class. -/
theorem Unfrozen.last_class (hu : Unfrozen σ L) (hne : σ.m_map ≠ ∅) : ∃ A c, L = A ++ [c] := by
  rcases L.eq_nil_or_concat with rfl | ⟨A, c, h⟩
  · refine absurd (Finmap.ext_lookup fun k => ?_) hne
    rw [Finmap.lookup_empty, Finmap.lookup_eq_none, hu.ordered.mem_iff]
    simp
  · exact ⟨A, c, by rw [h, List.concat_eq_append]⟩

/-- The shard is split where it should be: the frozen classes are the fewest of the first ones that
    hold `FC_size` keys, the others stay, and the fast hash holds the keys of the frozen classes. -/
def SplitAt (FC_size : ℕ) (σ σ' : LFUShard α) : Prop :=
  ∃ C D, LFUCore.Rep true σ.toLFUCore [] (C ++ D) ∧ LFUCore.Rep true σ'.toLFUCore C D ∧
    FC_size ≤ (C.flatMap FreClass.keys).length ∧
    (∀ C' c D', C = C' ++ c :: D' → (C'.flatMap FreClass.keys).length < FC_size) ∧
    ∀ k, σ'.m_fasthash.lookup k = if k ∈ C.flatMap FreClass.keys then σ.value k else none

/-- `construct_ratio` of a shard that was never frozen succeeds exactly if the classes before the
    last one hold enough keys. -/
theorem construct_ratio_splits_iff
    (hrun : Run LFU_FHCache.call (fun _ c => c.Plain ∧ c.Valid) (LFUShard.init n) H σ)
    (hne : σ.m_map ≠ ∅) (hratio : FC_size = 0 ∨ 1000 * FC_size < 999 * σ.n) :
    (∃ σ', σ.construct_ratio FC_size = .ok σ' ∧ SplitAt FC_size σ σ') ↔
    FC_size ≤ σ.keysBeforeLast := by
  obtain ⟨⟨L, hu⟩, hvalid⟩ := Unfrozen.run_valid hrun
  obtain ⟨A, c, rfl⟩ := hu.last_class hne
  rw [hu.ordered.keysBeforeLast_eq]
  rcases construct_ratio_cases hu.ordered.rep FC_size
    with ⟨C, D, h', hCD, hcut, hr', hok⟩ | ⟨e, -, hno, herr⟩
  · -- the cut leaves the last class
    refine iff_of_true ⟨_, hok, C, D, hCD ▸ hu.ordered.rep, hr', by simpa using hcut.enough,
      fun C' d D' h => by simpa using hcut.shortest C' d D' h, fun k => ?_⟩ ?_
    · have hks : ∀ k ∈ C.flatMap FreClass.keys, ValidKey k ∧ k ∈ σ.m_map := by
        intro k hk
        have hm : k ∈ σ.m_map := by
          rw [hu.ordered.mem_iff, hCD, List.flatMap_append]
          exact List.mem_append_left _ hk
        exact ⟨hvalid k hm, hm⟩
      show (copyKeys σ.m_map σ.m_fasthash (C.flatMap FreClass.keys)).lookup k = _
      rw [lookup_copyKeys hks, hu.empty, Finmap.lookup_empty, Option.none_or]
      rfl
    · have henough : FC_size ≤ (C.flatMap FreClass.keys).length := by simpa using hcut.enough
      rcases D.eq_nil_or_concat with rfl | ⟨D', d, rfl⟩
      · have hC : C = [] := by
          by_contra hC
          exact hcut.rest hC rfl
        rw [hC] at henough
        exact henough.trans (Nat.zero_le _)
      · rw [List.concat_eq_append, ← List.append_assoc] at hCD
        obtain ⟨rfl, -⟩ := List.append_inj' hCD rfl
        rw [List.flatMap_append, List.length_append]
        omega
  · refine iff_of_false ?_ (not_le.mpr (hno hratio A [c] rfl (by simp)))
    rintro ⟨σ', hok, -⟩
    rw [herr] at hok
    cases hok

/-- Two keys, one of them hit: the class of the hit key is frozen. -/
theorem construct_ratio_splits_two :
    ∃ σ σ' : LFUShard ℕ, σ.m_map.keys = {3, 4} ∧ σ.construct_ratio 1 = .ok σ' ∧
    SplitAt 1 σ σ' := by
  obtain ⟨σ, hrun, hkeys, hn, hlast⟩ : ∃ σ : LFUShard ℕ,
      Run LFU_FHCache.call (fun _ c => c.Plain ∧ c.Valid) (LFUShard.init 3)
        [(.insert 3 (some 7), .inserted true), (.find 3, .found (some (some 7))),
          (.insert 4 (some 8), .inserted true)] σ ∧
      σ.m_map.keys = {3, 4} ∧ (1 = 0 ∨ 1000 * 1 < 999 * σ.n) ∧ 1 ≤ σ.keysBeforeLast :=
    ⟨_, .cons ⟨trivial, by decide⟩ rfl
      (.cons ⟨trivial, by decide⟩ rfl (.cons ⟨trivial, by decide⟩ rfl .nil)),
      by decide, by decide, by decide⟩
  have hne : σ.m_map ≠ ∅ := by
    rintro h
    rw [h] at hkeys
    exact absurd hkeys (by decide)
  obtain ⟨σ', hok, hs⟩ := (construct_ratio_splits_iff hrun hne hn).mpr hlast
  exact ⟨σ, σ', hkeys, hok, hs⟩

/-- One key in a shard of two: freezing half of it walks to `m_tail`. -/
theorem construct_ratio_reaches_tail : ∃ (H : List (FHCall ℕ × FHResp ℕ)) (σ : LFUShard ℕ),
    Run LFU_FHCache.call (fun _ c => c.Plain ∧ c.Valid) (LFUShard.init 2) H σ ∧ σ.m_map.keys = {3} ∧
    σ.construct_ratio 1 = .error .assertion :=
  ⟨[(.insert 3 (some 7), .inserted true)], _, .cons ⟨trivial, by decide⟩ rfl .nil, by decide, rfl⟩

end LFUShard
end FrozenHot
