import FrozenHot.Freeze.LFUThaw

/-! Freezing is transparent to the lookups of a client of `LFU_FHCache`, and of all three caches.

    The fast hash holds the values of the frozen keys, no more and no less, and in tier mode every
    key is frozen. What breaks the transparency is the `int` of `ListNode(const int&)`: where a
    class is split off at a frequency of `2 ^ 31 - 1`, the new class gets a negative frequency and
    `pushForward` aborts. -/

namespace FrozenHot
open Schemes

variable {α : Type}

namespace LFUShard
variable {σ σ' : LFUShard α} {F L L' : List FreClass} {c : LFUCore (Option α)} {k : ℕ}

/-- The copies of valid keys, over what the table held before. -/
theorem lookup_copyKeys {m : Finmap fun _ : ℕ => LFUValue (Option α)} {ks : List ℕ}
    (hks : ∀ k ∈ ks, ValidKey k ∧ k ∈ m) (t : FastHash α) (k : ℕ) :
    (copyKeys m t ks).lookup k = (t.lookup k).or (if k ∈ ks then (m.lookup k).map LFUValue.val
      else none) := by
  induction ks generalizing t with
  | nil => simp [copyKeys]
  | cons x ks ih =>
    obtain ⟨hx, hm⟩ := hks x (by simp)
    obtain ⟨e, he⟩ := Finmap.mem_iff.mp hm
    have hstep : copyKeys m t (x :: ks) = copyKeys m (t.put x e.val) ks := by
      simp only [copyKeys, List.foldl_cons, he]
    rw [hstep, ih (fun y hy => hks y (by simp [hy])), FastHash.lookup_put hx]
    by_cases hk : k = x
    · subst hk
      simp [he]
    · simp [hk]

/-- The fast hash holds the frozen keys, and in tier mode these are all. -/
structure Exact (σ : LFUShard α) (F L : List FreClass) : Prop extends Inv σ F L where
  tier : σ.tier_no_insert = σ.tier_ready
  ready : σ.tier_ready = true → σ.FH_ready = true
  covered : σ.tier_ready = true → ∀ k ∈ σ.m_map, k ∈ F.flatMap FreClass.keys
  valid : ∀ k ∈ σ.m_map, ValidKey k
  exact : ∀ k, σ.m_fasthash.lookup k = if k ∈ F.flatMap FreClass.keys then σ.value k else none

theorem init_exact (capacity : ℕ) : Exact (init capacity : LFUShard α) [] [] :=
  ⟨init_inv capacity, rfl, nofun, nofun, fun _ h => absurd h Finmap.notMem_empty, by simp [init]⟩

/-- `find` returns what the map holds. -/
theorem Exact.answer_eq (hx : Exact σ F L) (hk : ValidKey k) : σ.answer k = σ.value k := by
  have hget := hx.exact k
  unfold answer
  by_cases hready : σ.FH_ready = true
  · rw [if_pos hready, FastHash.get_valid hk, hget]
    by_cases hF : k ∈ F.flatMap FreClass.keys
    · obtain ⟨w, hw⟩ := Option.isSome_iff_exists.mp
        ((LFUCore.mem_iff_value _ _).mp (hx.mem_iff.mpr (Or.inl hF)))
      obtain ⟨v, rfl⟩ := Option.isSome_iff_exists.mp (hx.values k w hw)
      rw [if_pos hF, hw]
      rfl
    · rw [if_neg hF]
      by_cases ht : σ.tier_ready = true
      · have hno : σ.value k = none := by
          rw [← Option.not_isSome_iff_eq_none, ← LFUCore.mem_iff_value]
          exact fun hm => hF (hx.covered ht k hm)
        simp [ht, hno]
      · simp [ht]
  · rw [if_neg hready]

theorem Exact.withCore (hx : Exact σ F L) (hi : Inv { σ with toLFUCore := c } F L')
    (hcov : σ.tier_ready = true → ∀ k ∈ c.m_map, k ∈ σ.m_map) (hvalid : ∀ k ∈ c.m_map, ValidKey k)
    (hval : ∀ k ∈ F.flatMap FreClass.keys, c.value k = σ.value k) :
    Exact { σ with toLFUCore := c } F L' := by
  refine ⟨hi, hx.tier, hx.ready, fun ht k hk => hx.covered ht k (hcov ht k hk), hvalid, fun k => ?_⟩
  have h := hx.exact k
  split at h
  · rename_i hF
    rw [if_pos hF]
    exact h.trans (hval k hF).symm
  · rename_i hF
    rw [if_neg hF]
    exact h

theorem Exact.found {r : Option (Option α) × LFUShard α} (hx : Exact σ F L) (h : σ.find k = .ok r) :
    ∃ c L', r = (σ.answer k, { σ with toLFUCore := c }) ∧ Exact { σ with toLFUCore := c } F L' := by
  obtain ⟨c, L', hr, hsame, hi⟩ := hx.toInv.found h
  have hmem : ∀ k, k ∈ c.m_map ↔ k ∈ σ.m_map := fun k => by
    rw [LFUCore.mem_iff_value, LFUCore.mem_iff_value, hsame.value]
  exact ⟨c, L', hr, hx.withCore hi (fun _ k hk => (hmem k).mp hk)
    (fun k hk => hx.valid k ((hmem k).mp hk))
    fun k _ => hsame.value k⟩

theorem Exact.inserted (hx : Exact σ F L) (hk : ValidKey k) (v : α) :
    ∃ b c L', σ.insert k (some v) = .ok (b, { σ with toLFUCore := c }) ∧
    Exact { σ with toLFUCore := c } F L' := by
  by_cases ht : σ.tier_no_insert = true
  · exact ⟨false, σ.toLFUCore, L, insert_refused ht k _, hx⟩
  · obtain ⟨c, L', hins, hr, hd, hs, hval, hfrozen⟩ :=
      hx.toInv.insert (Bool.not_eq_true _ ▸ ht) k (some v)
    have hi := hx.toInv.withCore hr hd hs fun j w hw => by
      rcases hval j w hw with ⟨-, rfl⟩ | hw
      · rfl
      · exact hx.values j w hw
    refine ⟨_, c, L', hins, hx.withCore hi (fun h => absurd (hx.tier.trans h) ht)
      (fun j hj => ?_) hfrozen⟩
    obtain ⟨w, hw⟩ := Option.isSome_iff_exists.mp ((LFUCore.mem_iff_value _ _).mp hj)
    rcases hval j w hw with ⟨rfl, -⟩ | hw
    · exact hk
    · exact hx.valid j ((LFUCore.mem_iff_value _ _).mpr (by rw [hw]; rfl))

/-- What is copied into the fast hash of a shard with nothing frozen. -/
theorem Exact.copied (hx : Exact σ [] L) {C : List FreClass} (hC : ∀ c ∈ C, c ∈ L) (k : ℕ) :
    (copyKeys σ.m_map σ.m_fasthash (C.flatMap FreClass.keys)).lookup k =
      if k ∈ C.flatMap FreClass.keys then σ.value k else none := by
  have hks : ∀ k ∈ C.flatMap FreClass.keys, ValidKey k ∧ k ∈ σ.m_map := fun k hk => by
    obtain ⟨c, hc, hkc⟩ := List.mem_flatMap.mp hk
    have hm : k ∈ σ.m_map := hx.mem_iff.mpr (Or.inr (List.mem_flatMap.mpr ⟨c, hC c hc, hkc⟩))
    exact ⟨hx.valid k hm, hm⟩
  have hempty : σ.m_fasthash.lookup k = none := by simpa using hx.exact k
  rw [lookup_copyKeys hks, hempty, Option.none_or]
  rfl

theorem Exact.construct_tier (hx : Exact σ F L) (h : σ.construct_tier = .ok σ') :
    Exact σ' L [] := by
  obtain ⟨rfl, hi⟩ := hx.toInv.construct_tier h
  obtain ⟨h', -, hok⟩ := construct_tier_ok hx.rep
  rw [hok] at h
  cases h
  exact ⟨hi, rfl, fun _ => rfl, fun _ k hk => (hx.mem_iff.mp hk).resolve_left (by simp), hx.valid,
    hx.copied fun _ hc => hc⟩

theorem Exact.construct_ratio {FC_size : ℕ} (hx : Exact σ F L)
    (h : σ.construct_ratio FC_size = .ok σ') :
    ∃ C D, Exact σ' C D := by
  obtain ⟨rfl, -, -, -, -⟩ := hx.toInv.construct_ratio h
  rcases construct_ratio_cases hx.rep FC_size with ⟨C, D, h', rfl, -, hr', hok⟩ | ⟨e, -, -, herr⟩
  · rw [hok] at h
    cases h
    refine ⟨C, D, hx.toInv.ratio hr', hx.tier, fun _ => rfl, fun ht k hk => ?_, hx.valid,
      hx.copied fun _ hc => List.mem_append_left D hc⟩
    -- in tier mode with nothing frozen the map is empty
    exact absurd (hx.covered ht k hk) (by simp)
  · rw [herr] at h
    cases h

theorem Exact.deconstruct (hx : Exact σ F L) (hlen : F.length < 2 ^ 31) :
    ∃ σ' G, σ.deconstruct = .ok σ' ∧ Exact σ' [] (G ++ L) := by
  obtain ⟨σ', G, hok, -, hi⟩ := hx.toInv.deconstruct hlen
  refine ⟨σ', G, hok, ?_⟩
  by_cases hF : F = []
  · subst hF
    rw [deconstruct_nil hx.rep] at hok
    cases hok
    exact ⟨hi, hx.tier, hx.ready, hx.covered, hx.valid, hx.exact⟩
  · obtain ⟨h', -, hok'⟩ := deconstruct_ok hx.rep hF hlen
    rw [hok'] at hok
    cases hok
    refine ⟨hi, ?_, nofun, nofun, hx.valid, by simp⟩
    cases ht : σ.tier_ready
    · simpa [ht] using hx.tier
    · rfl

/-- The entries of the frozen keys are those whose class is frozen. -/
theorem Inv.listNode_mem_iff {e : LFUValue (Option α)} (hi : Inv σ F L)
    (he : σ.m_map.lookup k = some e) :
    e.listNode ∈ F.map FreClass.node ↔ k ∈ F.flatMap FreClass.keys := by
  have hrow := (hi.rep.entries.lookup k e.listNode e.freNode).mp ⟨e.val, he⟩
  obtain ⟨c, hc, hx⟩ := List.mem_flatMap.mp hrow
  obtain ⟨x, hx, heq⟩ := List.mem_map.mp hx
  obtain ⟨hnode, rfl⟩ := Prod.mk.inj heq
  have hkc : k ∈ c.keys := List.mem_map_of_mem (f := Prod.snd) hx
  constructor
  · intro hm
    obtain ⟨d, hd, hdn⟩ := List.mem_map.mp hm
    have hcd := List.inj_on_of_nodup_map hi.rep.rings.nodes hc (List.mem_append_left L hd)
      (hnode.trans hdn.symm)
    exact List.mem_flatMap.mpr ⟨d, hd, hcd ▸ hkc⟩
  · intro hk
    rcases List.mem_append.mp hc with hcF | hcL
    · exact hnode ▸ List.mem_map_of_mem hcF
    · exact absurd (List.mem_flatMap.mpr ⟨c, hcL, hkc⟩) (hi.disjoint hk)

/-- The two tables and the two lists. -/
theorem Exact.tables (hx : Exact σ F L) : ((F ++ L).flatMap FreClass.keys).Nodup ∧
    (∀ k, k ∈ σ.m_map ↔ k ∈ (F ++ L).flatMap FreClass.keys) ∧
    ∀ k v, σ.m_fasthash.lookup k = some v ↔
      ∃ e, σ.m_map.lookup k = some e ∧ e.val = v ∧ e.listNode ∈ F.map FreClass.node := by
  refine ⟨?_, fun k => by rw [hx.mem_iff, List.flatMap_append, List.mem_append], fun k v => ?_⟩
  · have := hx.rep.entries.nodup
    rwa [keys_rows] at this
  · rw [hx.exact k]
    constructor
    · intro h
      split at h
      · rename_i hk
        obtain ⟨e, he, hev⟩ := Option.map_eq_some_iff.mp h
        exact ⟨e, he, hev, (hx.listNode_mem_iff he).mpr hk⟩
      · cases h
    · rintro ⟨e, he, rfl, hn⟩
      rw [if_pos ((hx.listNode_mem_iff he).mp hn), LFUCore.value, he]
      rfl

/-- A request of the client returns where its `find` does. -/
theorem Exact.get (hx : Exact σ F L) (hk : ValidKey k) (v : α) {r : Option (Option α) × LFUShard α}
    (h : σ.find k = .ok r) :
    ∃ g σ' L', LFU_FHCache.call σ (.get k v) = .ok (.got g, σ') ∧ Exact σ' F L' := by
  obtain ⟨c, L', rfl, hx'⟩ := hx.found h
  cases ha : σ.answer k with
  | some w => exact ⟨⟨some w, none⟩, _,
      L', by simp only [LFU_FHCache.call, Client.get, h, ok_bind, pure_eq_ok, ha], hx'⟩
  | none =>
    obtain ⟨b, c', L'', hins, hx''⟩ := hx'.inserted hk v
    exact ⟨⟨none, some b⟩, _, L'', by simp only [LFU_FHCache.call, Client.get, h, ok_bind,
      pure_eq_ok, ha, hins], hx''⟩

/-- Where a hit on `k` splits a class of the main list off, the class has a frequency below the
    largest `int`. -/
def HitFits (σ : LFUShard α) (k : ℕ) : Prop :=
  ∀ F L, LFUCore.Rep true σ.toLFUCore F L → SplitFits L k

/-- The bound can be read off the heap. -/
theorem SplitFits.of_heap (hr : LFUCore.Rep true σ.toLFUCore F L)
    (h : ∀ i < σ.fresh, (σ.classes.val (.node i)).all (· < 2 ^ 31 - 1) = true) : SplitFits L k := by
  rintro A c B R p R' rfl - - -
  exact LFU_FHCache.freBelow_of_heap h F _ hr c (by simp)

end LFUShard

/-! ### Runs -/

namespace LFU_FHCache
open LFUShard

variable {σ σ' : LFUShard α} {F L : List FreClass} {k : ℕ}

/-- The calls of a client with freezes and thaws between them; a thaw finds few enough classes to
    count. -/
def Served (σ : LFUShard α) (c : FHCall α) : Prop :=
  c.Client ∧ c.Valid ∧ (c = .deconstruct → σ.FewClasses)

/-- Every call keeps the tables right. -/
theorem exact_call {c : FHCall α} {o : FHResp α} (hx : Exact σ F L) (hc : Served σ c)
    (h : LFU_FHCache.call σ c = .ok (o, σ')) : ∃ F' L', Exact σ' F' L' := by
  obtain ⟨hclient, hvalid, hfew⟩ := hc
  cases c with
  | find k => exact hclient.elim
  | insert k v => exact hclient.elim
  | get k v =>
    obtain ⟨r, hr, -⟩ := bind_eq_ok.mp h
    obtain ⟨r', hfind, -⟩ := bind_eq_ok.mp hr
    obtain ⟨g, σ₁, L', h1, hx'⟩ := hx.get hvalid v hfind
    rw [h1] at h
    cases h
    exact ⟨F, L', hx'⟩
  | delete_key k => exact hclient.elim
  | construct_tier =>
    obtain ⟨τ, ht, h⟩ := bind_eq_ok.mp h
    cases h
    exact ⟨L, [], hx.construct_tier ht⟩
  | construct_ratio FC_size =>
    obtain ⟨τ, ht, h⟩ := bind_eq_ok.mp h
    cases h
    exact hx.construct_ratio ht
  | deconstruct =>
    obtain ⟨τ, ht, h⟩ := bind_eq_ok.mp h
    cases h
    have hlen := hfew rfl F L hx.rep
    rw [List.length_append] at hlen
    obtain ⟨σ₁, G, h1, hx'⟩ := hx.deconstruct (by omega)
    rw [h1] at ht
    cases ht
    exact ⟨[], G ++ L, hx'⟩

theorem exact_run {n : ℕ} {H : List (FHCall α × FHResp α)}
    (hrun : Run LFU_FHCache.call Served (LFUShard.init n) H σ) :
    ∃ F L, Exact σ F L :=
  hrun.invariant (fun σ => ∃ F L, Exact σ F L) ⟨[], [], init_exact n⟩ fun _ _ _ _ hi hP _ hs => by
    obtain ⟨F, L, hx⟩ := hi
    exact exact_call hx hP hs

end LFU_FHCache

/-- In every run of client requests with freezes and thaws between them, at every point: requests
    and thaws return, `find` returns what the map holds, the fast hash holds the entries of the
    frozen nodes, and the keys of the two lists are those of the map, each once. For `LFU_FHCache` a
    request must not split a class off at the largest `int` frequency, and a thaw finds fewer than
    `2 ^ 31` classes. -/
theorem freezing_is_transparent :
    (∀ (κ : FHList) (maxSize : ℕ) (hist : List ((Bool × FHCall α) × FHResp α)) (σ : Shard α),
      Run κ.call (fun _ c => c.2.Client ∧ c.2.Valid) (Shard.init maxSize) hist σ →
      (∀ lock k, ValidKey k →
        (∃ σ', κ.call σ (lock, .find k) = .ok (.found ((σ.m_map.lookup k).map HashMapValue.m_value),
          σ')) ∧
        ∀ v, ∃ o σ', κ.call σ (lock, .get k v) = .ok (o, σ')) ∧
      (∃ σ', σ.deconstruct = .ok σ') ∧
      ∃ F L, Shard.Lists σ.heap none F L ∧ ((F ++ L).map Item.key).Nodup ∧
        (∀ k, k ∈ σ.m_map ↔ k ∈ (F ++ L).map Item.key) ∧
        ∀ k v, σ.m_fasthash.lookup k = some v ↔
          ∃ e, σ.m_map.lookup k = some e ∧ e.m_value = v ∧ e.m_listNode ∈ F.map Item.node) ∧
    ∀ (n : ℕ) (H : List (FHCall α × FHResp α)) (σ : LFUShard α),
      Run LFU_FHCache.call LFU_FHCache.Served (LFUShard.init n) H σ →
      (∀ k, ValidKey k → σ.HitFits k →
        (∃ σ', LFU_FHCache.call σ (.find k) = .ok (.found ((σ.m_map.lookup k).map LFUValue.val),
          σ')) ∧
        ∀ v, ∃ o σ', LFU_FHCache.call σ (.get k v) = .ok (o, σ')) ∧
      (σ.FewClasses → ∃ σ', σ.deconstruct = .ok σ') ∧
      ∃ F L, LFUCore.Rep true σ.toLFUCore F L ∧ ((F ++ L).flatMap FreClass.keys).Nodup ∧
        (∀ k, k ∈ σ.m_map ↔ k ∈ (F ++ L).flatMap FreClass.keys) ∧
        ∀ k v, σ.m_fasthash.lookup k = some v ↔
          ∃ e, σ.m_map.lookup k = some e ∧ e.val = v ∧ e.listNode ∈ F.map FreClass.node := by
  constructor
  · intro κ maxSize hist σ hrun
    have hc := Clean.run hrun
    refine ⟨fun lock k hk => ⟨hc.find_ok κ lock hk, fun v => hc.get_ok κ lock hk v⟩, ?_, hc.tables⟩
    obtain ⟨τ, hr, -⟩ := hc
    obtain ⟨σ', h, -⟩ := hr.deconstruct
    exact ⟨σ', h⟩
  · intro n H σ hrun
    obtain ⟨F, L, hx⟩ := LFU_FHCache.exact_run hrun
    refine ⟨fun k hk hfits => ?_, fun hfew => ?_, F, L, hx.rep, hx.tables⟩
    · obtain ⟨c, hfind⟩ := hx.toInv.find_ok (hfits F L hx.rep)
      refine ⟨⟨{ σ with toLFUCore := c }, ?_⟩, fun v => ?_⟩
      · simp only [LFU_FHCache.call, hfind, ok_bind, pure_eq_ok, hx.answer_eq hk]
        rfl
      · obtain ⟨g, σ', L', h, -⟩ := hx.get hk v hfind
        exact ⟨_, σ', h⟩
    · have hlen := hfew F L hx.rep
      rw [List.length_append] at hlen
      obtain ⟨σ', G, h, -⟩ := hx.deconstruct (by omega)
      exact ⟨σ', h⟩

/-- Two entries, all frozen in `LRU_FHCache` and one of them in `LFU_FHCache`. -/
theorem freezing_is_transparent_two :
    (∃ (σ σ' : Shard ℕ), σ.tier_ready = true ∧ σ.m_map.keys = {3, 4} ∧
      LRU_FHCache.call σ (true, .find 3) = .ok (.found (some (some 7)), σ')) ∧
    ∃ (σ σ' : LFUShard ℕ), σ.FH_ready = true ∧ σ.m_map.keys = {3, 4} ∧
      LFU_FHCache.call σ (.find 4) = .ok (.found (some (some 8)), σ') := by
  constructor
  · have hrun : Run FHList.LRU_FH.call (fun _ c => c.2.Client ∧ c.2.Valid) (Shard.init 2 : Shard ℕ)
        [((true, .get 3 7), .got ⟨none, some true⟩), ((true, .get 4 8), .got ⟨none, some true⟩),
            ((true, .construct_tier), .done)] _ :=
      .cons ⟨trivial, by decide⟩ rfl
        (.cons ⟨trivial, by decide⟩ rfl (.cons ⟨trivial, trivial⟩ rfl .nil))
    obtain ⟨σ', h⟩ := ((freezing_is_transparent.1 FHList.LRU_FH 2 _ _ hrun).1 true 3 (by decide)).1
    exact ⟨_, σ', rfl, by decide, h⟩
  · have hrun : Run LFU_FHCache.call LFU_FHCache.Served (LFUShard.init 2 : LFUShard ℕ)
        [(.get 3 7, .got ⟨none, some true⟩), (.get 3 7, .got ⟨some (some 7), none⟩),
          (.get 4 8, .got ⟨none, some true⟩), (.construct_ratio 1, .done)] _ :=
      .cons ⟨trivial, by decide, nofun⟩ rfl
        (.cons ⟨trivial, by decide, nofun⟩ rfl (.cons ⟨trivial, by decide, nofun⟩ rfl
        (.cons ⟨trivial, trivial, nofun⟩ rfl .nil)))
    obtain ⟨σ', h⟩ := ((freezing_is_transparent.2 2 _ _ hrun).1 4 (by decide) fun F L hr =>
      LFUShard.SplitFits.of_heap hr (by decide)).1
    exact ⟨_, σ', rfl, by decide, h⟩

/-! ### A frequency runs out of `int` -/

namespace LFUShard
variable {σ : LFUShard ℕ} {f : ℤ}

/-- The keys 3 and 4 share the only class of a shard in which nothing is frozen. -/
structure Paired (σ : LFUShard ℕ) (f : ℤ) : Prop where
  pair : LFUCore.Pair true σ.toLFUCore f (some 7) (some 8)
  off : σ.FH_ready = false
  idle : σ.FH_construct = false ∧ σ.curve_flag = false

theorem Paired.counts (hp : Paired σ f) (k : ℕ) : σ.Counts k :=
  ⟨hp.idle.1, hp.idle.2, fun h => absurd (hp.off.symm.trans h) Bool.false_ne_true⟩

theorem served_get {k v : ℕ} (hk : ValidKey k) : LFU_FHCache.Served σ (.get k v) :=
  ⟨trivial, hk, nofun⟩

/-- A hit that is counted. -/
theorem get_hit {c : LFUCore (Option ℕ)} {k w : ℕ} (hcounts : σ.Counts k)
    (h : LFUCache.find σ.toLFUCore k = .ok (some (some w), c)) (v : ℕ) :
    LFU_FHCache.call σ (.get k v) = .ok (.got ⟨some (some w), none⟩,
      { σ with toLFUCore := c }) := by
  simp only [LFU_FHCache.call, Client.get, find_of_counts hcounts, h, ok_bind, pure_eq_ok]

/-- A miss with room for one more entry. -/
theorem get_new {c : LFUCore (Option ℕ)} {k v : ℕ} (hcounts : σ.Counts k)
    (hopen : σ.tier_no_insert = false) (hk : k ∉ σ.m_map)
    (h : LFUCache.insert σ.toLFUCore k (some v) = .ok (true, c)) :
    LFU_FHCache.call σ (.get k v) = .ok (.got ⟨none, some true⟩, { σ with toLFUCore := c }) := by
  have hmiss : LFUCache.find σ.toLFUCore k = .ok (none, σ.toLFUCore) := by
    rw [LFUCache.find, Finmap.lookup_eq_none.mpr hk]
    rfl
  simp only [LFU_FHCache.call, Client.get, find_of_counts hcounts, hmiss,
    insert_eq hopen hcounts.2.1, h, ok_bind, pure_eq_ok]

/-- One miss on each key. -/
theorem exists_paired :
    ∃ H σ, Run LFU_FHCache.call LFU_FHCache.Served (LFUShard.init 2) H σ ∧ Paired σ 1 := by
  obtain ⟨c, c', h3, hk, h4, hp⟩ :=
    (init_inv (α := ℕ) 2).rep.insert_pair (by decide) (some 7) (some 8)
  have hcounts : ∀ c k, ({ init 2 with toLFUCore := c } : LFUShard ℕ).Counts k :=
    fun _ _ => ⟨rfl, rfl, nofun⟩
  have hget := get_new (hcounts _ 3) rfl Finmap.notMem_empty h3
  have hget' := get_new (σ := { init 2 with toLFUCore := c }) (hcounts _ 4) rfl hk h4
  exact ⟨_, _, .cons (served_get (by decide)) hget (.cons (served_get (by decide)) hget' .nil),
    ⟨hp, rfl, rfl, rfl⟩⟩

theorem Paired.round (hp : Paired σ f) (h0 : 0 ≤ f) (hf : f < 2 ^ 31 - 1) :
    ∃ H σ', Run LFU_FHCache.call LFU_FHCache.Served σ H σ' ∧ Paired σ' (f + 1) := by
  obtain ⟨c, c', h3, h4, hp'⟩ := hp.pair.round h0 hf
  have hget := get_hit (hp.counts 3) h3 7
  have hget' := get_hit (σ := { σ with toLFUCore := c }) (hp.counts 4) h4 8
  exact ⟨_, _, .cons (served_get (by decide)) hget (.cons (served_get (by decide)) hget' .nil),
    ⟨hp', hp.off, hp.idle⟩⟩

theorem exists_hot_pair :
    ∃ H σ, Run LFU_FHCache.call LFU_FHCache.Served (LFUShard.init 2) H σ ∧
    Paired σ (2 ^ 31 - 1) := by
  obtain ⟨H₁, σ₁, hrun₁, hp₁⟩ := exists_paired
  obtain ⟨H₂, σ₂, hrun₂, hp₂⟩ := LFUCore.hot_of_rounds (J := Paired) hp₁ fun _ _ h0 hf hp =>
    hp.round h0 hf
  exact ⟨H₁ ++ H₂, σ₂, hrun₁.append hrun₂, hp₂⟩

theorem Paired.find_fails (hp : Paired σ (2 ^ 31 - 1)) : σ.find 3 = .error .assertion := by
  rw [find_of_counts (hp.counts 3), hp.pair.find_fails]
  rfl

end LFUShard

/-- Two keys are hit in turn: after `2 ^ 31 - 2` rounds they share a class whose frequency is the
    largest `int`, and the next `find` aborts although the map holds the key. -/
theorem hot_pair_aborts : ∃ (H : List (FHCall ℕ × FHResp ℕ)) (σ : LFUShard ℕ),
    Run LFU_FHCache.call LFU_FHCache.Served (LFUShard.init 2) H σ ∧ σ.value 3 = some (some 7) ∧
      σ.find 3 = .error .assertion := by
  obtain ⟨H, σ, hrun, hp⟩ := LFUShard.exists_hot_pair
  exact ⟨H, σ, hrun, hp.pair.values.1, hp.find_fails⟩

end FrozenHot
