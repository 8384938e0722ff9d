import FrozenHot.Freeze.LFUFreeze

/-! `LFU_FHCache` over a run of its calls.

    `Inv σ F L` says that the classes of both lists are in order and that the fast hash answers for
    the frozen keys, so that `find` never gets to a frozen class. It is kept by every call as long
    as no null value is inserted, for the fast hash takes a null value for no entry, and as long as
    no frequency leaves the range of `int`. -/

namespace FrozenHot
open Schemes

variable {α : Type}

/-! ### The fast hash -/

namespace FastHash
variable {t : FastHash α} {k k' : ℕ} {v : α}

/-- No value is null. -/
def NonNull (t : FastHash α) : Prop := ∀ k w, t.lookup k = some w → w.isSome = true

theorem NonNull.put (ht : t.NonNull) (k : ℕ) (v : α) : (t.put k (some v)).NonNull := by
  intro k' w hw
  unfold FastHash.put at hw
  split at hw
  · exact ht k' w hw
  · by_cases hk : k' = k % 2 ^ 32
    · rw [hk, Finmap.lookup_insert] at hw
      cases hw
      rfl
    · rw [Finmap.lookup_insert_of_ne _ hk] at hw
      exact ht k' w hw

/-- A key that was put is found, with an earlier value perhaps. -/
theorem NonNull.get_put (ht : t.NonNull) (k : ℕ) (v : α) :
    ((t.put k (some v)).get k).isSome = true := by
  unfold FastHash.put FastHash.get
  split
  · rename_i hk
    obtain ⟨w, hw⟩ := Finmap.mem_iff.mp hk
    obtain ⟨u, rfl⟩ := Option.isSome_iff_exists.mp (ht _ w hw)
    rw [hw]
    rfl
  · rw [Finmap.lookup_insert]
    rfl

/-- What is found stays found. -/
theorem get_put_of_get (h : (t.get k').isSome = true) (k : ℕ) (w : Option α) :
    ((t.put k w).get k').isSome = true := by
  unfold FastHash.put
  split
  · exact h
  · rename_i hk
    have hne : k' % 2 ^ 32 ≠ k % 2 ^ 32 := by
      intro he
      unfold FastHash.get at h
      rw [he, Finmap.lookup_eq_none.mpr hk] at h
      cases h
    unfold FastHash.get
    rw [Finmap.lookup_insert_of_ne _ hne]
    exact h

end FastHash

namespace LFUShard

/-- Copying non-null values: every key is found afterwards. -/
theorem copyKeys_spec {m : Finmap fun _ : ℕ => LFUValue (Option α)} (ks : List ℕ) {t : FastHash α}
    (ht : t.NonNull) (hm : ∀ k e, m.lookup k = some e → e.val.isSome = true)
    (hks : ∀ k ∈ ks, k ∈ m) :
    (copyKeys m t ks).NonNull ∧ (∀ k, (t.get k).isSome = true →
      ((copyKeys m t ks).get k).isSome = true) ∧
      ∀ k ∈ ks, ((copyKeys m t ks).get k).isSome = true := by
  induction ks generalizing t with
  | nil => exact ⟨ht, fun _ h => h, by simp⟩
  | cons k ks ih =>
    obtain ⟨e, he⟩ := Finmap.mem_iff.mp (hks k (by simp))
    obtain ⟨v, hv⟩ := Option.isSome_iff_exists.mp (hm k e he)
    have hstep : copyKeys m t (k :: ks) = copyKeys m (t.put k (some v)) ks := by
      simp only [copyKeys, List.foldl_cons, he, hv]
    obtain ⟨h1, h2, h3⟩ := ih (ht.put k v) fun k' hk' => hks k' (by simp [hk'])
    rw [hstep]
    refine ⟨h1, fun k' h => h2 k' (FastHash.get_put_of_get h k _), fun k' hk' => ?_⟩
    rcases List.mem_cons.mp hk' with rfl | hk'
    · exact h2 _ (ht.get_put _ v)
    · exact h3 k' hk'

/-! ### The invariant -/

/-- A shard with its frozen classes `F` and those of the main list `L`. -/
structure Inv (σ : LFUShard α) (F L : List FreClass) : Prop where
  rep : LFUCore.Rep true σ.toLFUCore F L
  frozen : Decreasing F
  main : Decreasing L
  size : σ.s ≤ σ.n
  idle : σ.FH_construct = false ∧ σ.curve_flag = false
  filled : ∀ k ∈ F.flatMap FreClass.keys, σ.FH_ready = true ∧ (σ.m_fasthash.get k).isSome = true
  values : ∀ k w, σ.value k = some w → w.isSome = true
  nonNull : σ.m_fasthash.NonNull

/-- Every class has a frequency that can be counted up as an `int`. -/
def FreBelow (σ : LFUShard α) : Prop :=
  ∀ F L, LFUCore.Rep true σ.toLFUCore F L → ∀ c ∈ F ++ L, c.fre < 2 ^ 31 - 1

/-- What `find` returns. -/
def answer (σ : LFUShard α) (k : ℕ) : Option (Option α) :=
  if σ.FH_ready then
    match σ.m_fasthash.get k with
    | some v => some (some v)
    | none => if σ.tier_ready then none else σ.value k
  else σ.value k

/-- `find` of `k` gets to the part that counts the hit: no curve is being taken and nothing is being
    frozen, and in a frozen shard the fast hash does not answer and the main list is still in
    use. -/
def Counts (σ : LFUShard α) (k : ℕ) : Prop :=
  σ.FH_construct = false ∧ σ.curve_flag = false ∧
    (σ.FH_ready = true → σ.m_fasthash.get k = none ∧ σ.tier_ready = false)

variable {σ σ' : LFUShard α} {F L : List FreClass} {k : ℕ} {v : Option α}

theorem init_inv (capacity : ℕ) : Inv (init capacity : LFUShard α) [] [] := by
  refine ⟨⟨⟨⟨?_, by simp, by simp, id, id⟩, fun _ => ⟨?_, by simp, by simp, id, id⟩,
    nofun, by simp, by simp, rfl, rfl⟩, ?_, ?_, ?_⟩, ⟨.nil, by simp⟩, ⟨.nil, by simp⟩,
    Nat.zero_le _, ⟨rfl, rfl⟩, by simp, by simp [LFUCore.value, init, LFUCore.init],
    by simp [FastHash.NonNull, init]⟩
  · exact List.isChain_pair.mpr ⟨by simp [init, LFUCore.init], by simp [init, LFUCore.init]⟩
  · exact List.isChain_pair.mpr ⟨by simp [init, LFUCore.init], by simp [init, LFUCore.init]⟩
  · refine ⟨by simp, by simp, by simp, by simp, by simp, by simp, by
      simp [init, LFUCore.init, LFUCore.blank], ?_⟩
    simp [init, LFUCore.init, Heap.Live, Heap.put, Heap.empty]
  · exact ⟨by simp, fun k c p => by simp [init, LFUCore.init]⟩
  · intro i hi
    simp [init, LFUCore.init, Heap.Live, Heap.put, Heap.empty] at hi

/-- Where a hit on `k` splits a class off, its frequency can be counted up as an `int`. -/
def SplitFits (L : List FreClass) (k : ℕ) : Prop :=
  ∀ A c B R p R', L = A ++ c :: B → c.ring = R ++ (p, k) :: R' → LFUCore.Ahead A c.fre →
    R ++ R' ≠ [] → c.fre < 2 ^ 31 - 1

/-- What `find` of `k` does with the classes: it returns and at most counts up a key of the main
    list, or it splits a class off beyond the range of `int` and aborts. -/
def Hit (σ : LFUShard α) (F L : List FreClass) (k : ℕ) (w : Option (Option α))
    (r : Except Fault (Option (Option α) × LFUShard α)) : Prop :=
  (∃ c L', r = .ok (w, { σ with toLFUCore := c }) ∧ LFUCore.Same σ.toLFUCore c ∧
    LFUCore.Rep true c F L' ∧ Decreasing L') ∨
  (¬ SplitFits L k ∧ r = .error .assertion)

theorem Inv.hit_self (hi : Inv σ F L) (w : Option (Option α)) : Hit σ F L k w (.ok (w, σ)) :=
  Or.inl ⟨σ.toLFUCore, L, rfl, LFUCore.Same.refl _, hi.rep, hi.main⟩

/-- `findSlow` of a key of the main list. -/
theorem findSlow_eq {A B : List FreClass} {c : FreClass} {R R' : List (FrePtr × ℕ)} {p : FrePtr}
    {e : LFUValue (Option α)} (hr : LFUCore.Rep true σ.toLFUCore F (A ++ c :: B))
    (hring : c.ring = R ++ (p, k) :: R') (he : σ.m_map.lookup k = some e)
    (hidle : σ.FH_construct = false ∧ σ.curve_flag = false) : σ.findSlow k =
      LFUCore.touch σ.toLFUCore k e >>= fun c => .ok (σ.value k, { σ with toLFUCore := c }) := by
  have hnode : e.listNode ≠ .null := by
    rw [(hr.entry hring he).1]
    exact (hr.lists.isNode (c := c) (by simp)).ne_null
  simp only [LFUShard.findSlow, he, hidle.1, hidle.2, Bool.false_eq_true, if_false, if_neg hnode,
    pure_eq_ok, LFUCore.value, Option.map_some]

/-- Once the fast hash has not answered, a key of the main list is counted up. -/
theorem Inv.findSlow (hi : Inv σ F L) (hF : k ∉ F.flatMap FreClass.keys) :
    Hit σ F L k (σ.value k) (σ.findSlow k) := by
  cases he : σ.m_map.lookup k with
  | none =>
    have hfind : σ.findSlow k = .ok (σ.value k, σ) := by
      simp only [LFUShard.findSlow, he, LFUCore.value, Option.map_none, pure_eq_ok]
    rw [hfind]
    exact hi.hit_self _
  | some e =>
    have hmem : k ∈ σ.m_map := Finmap.mem_of_lookup_eq_some he
    obtain ⟨A, c, B, R, p, R', rfl, hring⟩ := hi.rep.locate hmem (by rwa [keys_rows])
    rw [findSlow_eq hi.rep hring he hi.idle]
    rcases hi.rep.touch_cases hi.main he hF
      with ⟨c', L', ht, hbump, hr', hsame⟩ | ⟨⟨A', d, B', S, q, S', hL, hring', hah, hne, hover⟩,
        ht⟩
    · rw [ht]
      exact Or.inl ⟨c', L', rfl, hsame, hr', hbump.decreasing hi.main⟩
    · rw [ht]
      exact Or.inr ⟨fun h => absurd (h A' d B' S q S' hL hring' hah hne) (not_lt.mpr hover), rfl⟩

/-- `find` in terms of the fast hash. -/
theorem find_eq_of_idle (h : σ.curve_flag = false) (k : ℕ) : σ.find k =
    if σ.FH_ready then
      match σ.m_fasthash.get k with
      | some v => .ok (some (some v), σ)
      | none => if σ.tier_ready then .ok (none, σ) else σ.findSlow k
    else σ.findSlow k := by
  rw [LFUShard.find, assert_of (Or.inr (by simp [h])), ok_bind]
  rfl

/-- A `find` that counts its hit is that of `LFUCache`. -/
theorem find_of_counts (h : σ.Counts k) :
    σ.find k = LFUCache.find σ.toLFUCore k >>= fun r => .ok (r.1, { σ with toLFUCore := r.2 }) := by
  obtain ⟨hcon, hcurve, hready⟩ := h
  have hslow : σ.find k = σ.findSlow k := by
    rw [find_eq_of_idle hcurve]
    by_cases hr : σ.FH_ready = true
    · rw [if_pos hr, (hready hr).1]
      exact if_neg (by simp [(hready hr).2])
    · exact if_neg hr
  rw [hslow, LFUShard.findSlow, LFUCache.find]
  cases σ.m_map.lookup k with
  | none => rfl
  | some e =>
    dsimp only
    rw [if_neg (by simp [hcon])]
    by_cases hn : e.listNode = .null
    · rw [if_pos hn, if_pos hn]; rfl
    · rw [if_neg hn, if_neg hn, if_neg (by simp [hcurve])]
      cases σ.toLFUCore.touch k e <;> rfl

/-- Any other `find` that returns leaves the shard as it is. -/
theorem find_still {w : Option (Option α)} (h : ¬ σ.Counts k) (hf : σ.find k = .ok (w, σ')) :
    σ' = σ := by
  have hslow : ¬ (σ.FH_construct = false ∧ σ.curve_flag = false) →
      σ.findSlow k = .ok (w, σ') → σ' = σ := by
    intro hbusy hf
    unfold LFUShard.findSlow at hf
    split at hf
    · cases hf; rfl
    · split_ifs at hf with h1 h2 h3
      · cases hf; rfl
      · obtain ⟨-, -, hf⟩ := bind_eq_ok.mp hf
        obtain ⟨-, -, hf⟩ := bind_eq_ok.mp hf
        cases hf; rfl
      · exact absurd ⟨by simpa using h1, by simpa using h3⟩ hbusy
  obtain ⟨-, -, hf⟩ := bind_eq_ok.mp hf
  by_cases hr : σ.FH_ready = true
  · rw [if_pos hr] at hf
    cases hget : σ.m_fasthash.get k with
    | some v =>
      rw [hget] at hf
      cases hf; rfl
    | none =>
      rw [hget] at hf
      by_cases ht : σ.tier_ready = true
      · rw [if_pos ht] at hf
        cases hf; rfl
      · rw [if_neg ht] at hf
        exact hslow (fun hidle => h ⟨hidle.1, hidle.2, fun _ => ⟨hget, by simpa using ht⟩⟩) hf
  · rw [if_neg hr] at hf
    exact hslow (fun hidle => h ⟨hidle.1, hidle.2, fun h => absurd h hr⟩) hf

/-- `find` returns, or aborts where it would have to split a class off. -/
theorem Inv.find_cases (hi : Inv σ F L) (k : ℕ) : Hit σ F L k (σ.answer k) (σ.find k) := by
  have hstart := find_eq_of_idle hi.idle.2 k
  by_cases hready : σ.FH_ready = true
  · cases hg : σ.m_fasthash.get k with
    | some v =>
      have hfind : σ.find k = .ok (σ.answer k, σ) := by
        simp only [hstart, answer, hready, if_true, hg]
      rw [hfind]
      exact hi.hit_self _
    | none =>
      by_cases ht : σ.tier_ready = true
      · have hfind : σ.find k = .ok (σ.answer k, σ) := by
          simp only [hstart, answer, hready, if_true, hg, ht]
        rw [hfind]
        exact hi.hit_self _
      · have hF : k ∉ F.flatMap FreClass.keys := fun hk => by
          have := (hi.filled k hk).2
          rw [hg] at this
          cases this
        have hfind : σ.find k = σ.findSlow k := by
          simp only [hstart, hready, if_true, hg, ht, Bool.false_eq_true, if_false]
        have hans : σ.answer k = σ.value k := by
          simp only [answer, hready, if_true, hg, ht, Bool.false_eq_true, if_false]
        rw [hfind, hans]
        exact hi.findSlow hF
  · have hF : k ∉ F.flatMap FreClass.keys := fun hk => hready (hi.filled k hk).1
    have hfind : σ.find k = σ.findSlow k := by
      simp only [hstart, hready, Bool.false_eq_true, if_false]
    have hans : σ.answer k = σ.value k := by
      simp only [answer, hready, Bool.false_eq_true, if_false]
    rw [hfind, hans]
    exact hi.findSlow hF

/-- A change of the classes of the main list and of their entries. -/
theorem Inv.withCore {c : LFUCore (Option α)} {L' : List FreClass} (hi : Inv σ F L)
    (hr : LFUCore.Rep true c F L') (hL : Decreasing L') (hs : c.s ≤ c.n)
    (hv : ∀ k w, c.value k = some w → w.isSome = true) :
    Inv { σ with toLFUCore := c } F L' :=
  ⟨hr, hi.frozen, hL, hs, hi.idle, hi.filled, hv, hi.nonNull⟩

/-- A `find` that returns. -/
theorem Inv.found {r : Option (Option α) × LFUShard α} (hi : Inv σ F L) (h : σ.find k = .ok r) :
    ∃ c L', r = (σ.answer k, { σ with toLFUCore := c }) ∧ LFUCore.Same σ.toLFUCore c ∧
      Inv { σ with toLFUCore := c } F L' := by
  rcases hi.find_cases k with ⟨c, L', hf, hsame, hr, hd⟩ | ⟨-, hf⟩
  · rw [hf] at h
    cases h
    refine ⟨c, L', rfl, hsame, hi.withCore hr hd (by rw [hsame.s, hsame.n]; exact hi.size)
      fun k w hw => hi.values k w ?_⟩
    rwa [← hsame.value]
  · rw [hf] at h
    cases h

/-- `find` returns where no class has to be split off beyond the range of `int`. -/
theorem Inv.find_ok (hi : Inv σ F L) (hfits : SplitFits L k) :
    ∃ c, σ.find k = .ok (σ.answer k, { σ with toLFUCore := c }) := by
  rcases hi.find_cases k with ⟨c, L', hf, -⟩ | ⟨hno, -⟩
  · exact ⟨c, hf⟩
  · exact absurd hfits hno

theorem FreBelow.fits (hb : σ.FreBelow) (hi : Inv σ F L) (k : ℕ) : SplitFits L k := by
  rintro A c B R p R' rfl - - -
  exact hb F _ hi.rep c (by simp)

theorem insert_refused (h : σ.tier_no_insert = true) (k : ℕ) (v : Option α) :
    σ.insert k v = .ok (false, σ) := by
  simp [LFUShard.insert, h]

/-- A shard that takes insertions inserts as `LFUCache` does. -/
theorem insert_eq (h1 : σ.tier_no_insert = false) (h2 : σ.curve_flag = false) (k : ℕ)
    (v : Option α) :
    σ.insert k v = LFUCache.insert σ.toLFUCore k v >>= fun r =>
    .ok (r.1, { σ with toLFUCore := r.2 }) := by
  have hno : ¬ (σ.tier_no_insert || σ.curve_flag) = true := by simp [h1, h2]
  by_cases hk : k ∈ (LFUCore.newFreNode σ.toLFUCore k).m_map
  · simp only [LFUShard.insert, LFUCache.insert, if_neg hno, if_pos hk, pure_eq_ok, ok_bind]
  · simp only [LFUShard.insert, LFUCache.insert, if_neg hno, if_neg hk, pure_eq_ok]

/-- The frozen keys are not those of the main list. -/
theorem Inv.disjoint (hi : Inv σ F L) :
    (F.flatMap FreClass.keys).Disjoint (L.flatMap FreClass.keys) := by
  have := hi.rep.entries.nodup
  rw [keys_rows, List.flatMap_append] at this
  exact (List.nodup_append'.mp this).2.2

theorem Inv.mem_iff (hi : Inv σ F L) :
    k ∈ σ.m_map ↔ k ∈ F.flatMap FreClass.keys ∨ k ∈ L.flatMap FreClass.keys := by
  rw [hi.rep.entries.mem_iff, keys_rows, List.flatMap_append, List.mem_append]

/-- `insert` returns, with `true` for an absent key; it leaves the frozen keys alone. -/
theorem Inv.insert (hi : Inv σ F L) (ht : σ.tier_no_insert = false) (k : ℕ) (v : Option α) :
    ∃ c L', σ.insert k v = .ok (decide (k ∉ σ.m_map), { σ with toLFUCore := c }) ∧
      LFUCore.Rep true c F L' ∧
      Decreasing L' ∧ c.s ≤ c.n ∧ (∀ j w, c.value j = some w → (j = k ∧ w = v) ∨
        σ.value j = some w) ∧
      ∀ j ∈ F.flatMap FreClass.keys, c.value j = σ.value j := by
  by_cases hk : k ∈ σ.m_map
  · refine ⟨_, L, ?_, hi.rep.present k, hi.main, hi.size, fun j w hw => Or.inr hw, fun j _ => rfl⟩
    rw [insert_eq ht hi.idle.2, LFUCache.insert]
    exact (congrArg (· >>= _) (if_pos hk)).trans (by simp [hk])
  · obtain ⟨c, A, a, R, hop, hadm, hn, hroom, hfull⟩ := hi.rep.enlist hk hi.size v
    have hd := hop.decreasing hi.main
    have hins : σ.insert k v = .ok (true, { σ with toLFUCore := c }) := by
      rw [insert_eq ht hi.idle.2, LFUCache.insert]
      exact congrArg (· >>= _) ((if_neg hk).trans hadm)
    rw [hins, decide_eq_true hk]
    have hkF : ∀ j ∈ F.flatMap FreClass.keys, j ≠ k :=
      fun j hj he => hk (hi.mem_iff.mpr (Or.inl (he ▸ hj)))
    by_cases hlt : σ.s < σ.n
    · obtain ⟨hr, hs, hv⟩ := hroom hlt
      refine ⟨c, _, rfl, hr, hd, by rw [hs, hn]; exact hlt, fun j w hw => ?_,
        fun j hj => by rw [hv, if_neg (hkF j hj)]⟩
      rw [hv] at hw
      split at hw
      · rename_i hj
        exact Or.inl ⟨hj, (Option.some.inj hw).symm⟩
      · exact Or.inr hw
    · obtain ⟨R₀, y, rfl, hr, hs, hv⟩ := hfull hlt
      have hyF : ∀ j ∈ F.flatMap FreClass.keys, j ≠ y.2 := by
        rintro j hj rfl
        have hp := hop.freRows.map fun q => q.2.2
        rw [keys_freRows, List.map_cons, keys_freRows] at hp
        have hy : y.2 ∈ (A ++ [(⟨a, 1, R₀ ++ [y]⟩ : FreClass)]).flatMap FreClass.keys := by
          simp [FreClass.keys]
        rcases List.mem_cons.mp (hp.mem_iff.mp hy) with he | hy
        · exact hkF _ hj he
        · exact hi.disjoint hj hy
      refine ⟨c, _, rfl, hr, hd.congr (by simp), by rw [hs, hn]; exact hi.size, fun j w hw => ?_,
        fun j hj => by rw [hv, if_neg (hyF j hj), if_neg (hkF j hj)]⟩
      rw [hv] at hw
      split at hw
      · cases hw
      · split at hw
        · rename_i hj
          exact Or.inl ⟨hj, (Option.some.inj hw).symm⟩
        · exact Or.inr hw

/-- `insert` of a value that is not null. -/
theorem Inv.inserted (hi : Inv σ F L) (k : ℕ) (hv : v.isSome = true) :
    ∃ b c L', σ.insert k v = .ok (b, { σ with toLFUCore := c }) ∧
    Inv { σ with toLFUCore := c } F L' := by
  by_cases ht : σ.tier_no_insert = true
  · exact ⟨false, σ.toLFUCore, L, insert_refused ht k v, hi⟩
  · obtain ⟨c, L', hins, hr, hd, hs, hval, -⟩ := hi.insert (Bool.not_eq_true _ ▸ ht) k v
    refine ⟨_, c, L', hins, hi.withCore hr hd hs fun j w hw => ?_⟩
    rcases hval j w hw with ⟨-, rfl⟩ | hw
    · exact hv
    · exact hi.values j w hw

/-! ### Freezing and thawing -/

/-- What the copies of frozen keys are. -/
theorem Inv.copied (hi : Inv σ [] L) {C : List FreClass} (hC : ∀ c ∈ C, c ∈ L) :
    (copyKeys σ.m_map σ.m_fasthash (C.flatMap FreClass.keys)).NonNull ∧
      ∀ k ∈ C.flatMap FreClass.keys,
      ((copyKeys σ.m_map σ.m_fasthash (C.flatMap FreClass.keys)).get k).isSome = true := by
  have hm : ∀ k e, σ.m_map.lookup k = some e → e.val.isSome = true := fun k e he =>
    hi.values k e.val (by simp [LFUCore.value, he])
  obtain ⟨h1, -, h3⟩ := copyKeys_spec (C.flatMap FreClass.keys) hi.nonNull hm fun k hk => by
    obtain ⟨c, hc, hkc⟩ := List.mem_flatMap.mp hk
    exact hi.mem_iff.mpr (Or.inr (List.mem_flatMap.mpr ⟨c, hC c hc, hkc⟩))
  exact ⟨h1, h3⟩

theorem Inv.construct_tier (hi : Inv σ F L) (h : σ.construct_tier = .ok σ') :
    F = [] ∧ Inv σ' L [] := by
  by_cases hF : F = []
  · subst hF
    obtain ⟨h', hr', hok⟩ := construct_tier_ok hi.rep
    rw [hok] at h
    cases h
    obtain ⟨h1, h2⟩ := hi.copied fun _ hc => hc
    exact ⟨rfl, hr', hi.main, ⟨.nil, by simp⟩, hi.size, ⟨rfl, hi.idle.2⟩,
      fun k hk => ⟨rfl, h2 k hk⟩, hi.values, h1⟩
  · rw [construct_tier_fails hi.rep hF] at h
    cases h

/-- A freeze of the first classes. -/
theorem Inv.ratio {C D : List FreClass} {h' : Heap Ptr ℤ} (hi : Inv σ [] (C ++ D))
    (hr : LFUCore.Rep true { σ.toLFUCore with classes := h' } C D) :
    Inv { σ with
      classes := h', m_fasthash := copyKeys σ.m_map σ.m_fasthash (C.flatMap FreClass.keys)
      FH_ready := true, FH_construct := false } C D := by
  obtain ⟨h1, h2⟩ := hi.copied fun _ hc => List.mem_append_left D hc
  obtain ⟨hC, hD⟩ := hi.main.of_append
  exact ⟨hr, hC, hD, hi.size, ⟨rfl, hi.idle.2⟩, fun k hk => ⟨rfl, h2 k hk⟩, hi.values, h1⟩

theorem Inv.construct_ratio {FC_size : ℕ} (hi : Inv σ F L)
    (h : σ.construct_ratio FC_size = .ok σ') :
    F = [] ∧ ∃ C D, L = C ++ D ∧ Inv σ' C D := by
  by_cases hF : F = []
  · subst hF
    rcases construct_ratio_cases hi.rep FC_size with ⟨C, D, h', rfl, -, hr', hok⟩ | ⟨e, -, -, herr⟩
    · rw [hok] at h
      cases h
      exact ⟨rfl, C, D, rfl, hi.ratio hr'⟩
    · rw [herr] at h
      cases h
  · rw [construct_ratio_fails hi.rep hF] at h
    cases h

/-- Classes in order are no more than the highest frequency. -/
theorem length_le_maxFreq (hL : Decreasing L) : (L.length : ℤ) ≤ maxFreq L := by
  induction L with
  | nil => exact le_refl _
  | cons c L ih =>
    obtain ⟨h1, h2, -, h4⟩ := decreasing_middle (A := []).mp hL
    have hlt : maxFreq L < c.fre := by
      cases L with
      | nil => exact h2
      | cons d L => exact h4 d (by simp)
    have := ih h1
    rw [List.length_cons]
    push_cast
    exact (by omega : (L.length : ℤ) + 1 ≤ c.fre)

/-- `deconstruct` returns and leaves one list. -/
theorem Inv.deconstruct (hi : Inv σ F L) (hlen : F.length < 2 ^ 31) :
    ∃ σ' G, σ.deconstruct = .ok σ' ∧ G.map (fun c => (c.node, c.ring)) =
      F.map (fun c => (c.node, c.ring)) ∧
      Inv σ' [] (G ++ L) := by
  by_cases hF : F = []
  · subst hF
    exact ⟨σ, [], deconstruct_nil hi.rep, rfl, hi⟩
  · obtain ⟨h', hr', hok⟩ := deconstruct_ok hi.rep hF hlen
    exact ⟨_, renumbered (maxFreq L) F, hok, renumbered_map _ F, hr', ⟨.nil, by simp⟩,
      decreasing_renumbered hi.main, hi.size, ⟨rfl, hi.idle.2⟩, by simp,
      hi.values, by simp [FastHash.NonNull]⟩

/-- Below the bound there are few enough classes for the count of `deconstruct`. -/
theorem Inv.length_lt (hi : Inv σ F L) (hb : σ.FreBelow) : F.length < 2 ^ 31 := by
  have h1 := length_le_maxFreq hi.frozen
  cases F with
  | nil => simp
  | cons c F =>
    have h2 := hb (c :: F) L hi.rep c (by simp)
    simp only [maxFreq] at h1
    omega

end LFUShard

/-! ### Runs -/

/-- No null value is inserted. -/
def FHCall.NonNull : FHCall α → Prop
  | .insert _ v => v.isSome = true
  | _ => True

namespace LFU_FHCache
open LFUShard

variable {σ σ' : LFUShard α} {F L : List FreClass}

/-- Every call keeps the invariant. -/
theorem inv_call {c : FHCall α} {o : FHResp α} (hi : Inv σ F L) (hc : c.NonNull) (hb : σ.FreBelow)
    (h : LFU_FHCache.call σ c = .ok (o, σ')) : ∃ F' L', Inv σ' F' L' := by
  cases c with
  | find k =>
    obtain ⟨r, hf, h⟩ := bind_eq_ok.mp h
    cases h
    obtain ⟨c, L', rfl, -, hi'⟩ := hi.found hf
    exact ⟨F, L', hi'⟩
  | insert k v =>
    obtain ⟨b, c, L', hins, hi'⟩ := hi.inserted k hc
    simp only [LFU_FHCache.call, hins, ok_bind, pure_eq_ok] at h
    cases h
    exact ⟨F, L', hi'⟩
  | get k v =>
    obtain ⟨c, hf⟩ := hi.find_ok (hb.fits hi k)
    obtain ⟨c', L', hr, -, hi'⟩ := hi.found hf
    cases hr
    cases ha : σ.answer k with
    | some w =>
      simp only [LFU_FHCache.call, Client.get, hf, ok_bind, pure_eq_ok, ha] at h
      cases h
      exact ⟨F, L', hi'⟩
    | none =>
      obtain ⟨b, c', L'', hins, hi''⟩ := hi'.inserted k (v := some v) rfl
      simp only [LFU_FHCache.call, Client.get, hf, ok_bind, pure_eq_ok, ha, hins] at h
      cases h
      exact ⟨F, L'', hi''⟩
  | delete_key k =>
    cases h
    exact ⟨F, L, hi⟩
  | construct_tier =>
    obtain ⟨τ, ht, h⟩ := bind_eq_ok.mp h
    cases h
    exact ⟨L, [], (hi.construct_tier ht).2⟩
  | construct_ratio FC_size =>
    obtain ⟨τ, ht, h⟩ := bind_eq_ok.mp h
    cases h
    obtain ⟨-, C, D, -, hi'⟩ := hi.construct_ratio ht
    exact ⟨C, D, hi'⟩
  | deconstruct =>
    obtain ⟨τ, ht, h⟩ := bind_eq_ok.mp h
    cases h
    obtain ⟨σ', G, hok, -, hi'⟩ := hi.deconstruct (hi.length_lt hb)
    rw [hok] at ht
    cases ht
    exact ⟨[], G ++ L, hi'⟩

theorem inv_run {n : ℕ} {H : List (FHCall α × FHResp α)}
    (hrun : Run LFU_FHCache.call (fun σ c => c.NonNull ∧ σ.FreBelow) (LFUShard.init n) H σ) :
    ∃ F L, Inv σ F L :=
  hrun.invariant (fun σ => ∃ F L, Inv σ F L) ⟨[], [], init_inv n⟩ fun _ _ _ _ hi hP _ hs => by
    obtain ⟨F, L, hi⟩ := hi
    exact inv_call hi hP.1 hP.2 hs

/-- In every run over non-null values in which the frequencies stay below `2 ^ 31 - 1`, both class
    lists are in order and every entry points to its class and ring node; a freeze parts the classes
    and a thaw joins them, with their keys in the same order; after the thaw the one list is in
    order again; and `find`, `insert` and `deconstruct` fail no assertion. -/
theorem class_order_kept {n : ℕ} {H : List (FHCall α × FHResp α)}
    (hrun : Run LFU_FHCache.call (fun σ c => c.NonNull ∧ σ.FreBelow) (LFUShard.init n) H σ) :
    ∃ F L, LFUCore.Rep true σ.toLFUCore F L ∧ Decreasing F ∧ Decreasing L ∧
      (∀ k e, σ.m_map.lookup k = some e → ∃ c ∈ F ++ L, c.node = e.listNode ∧
        (e.freNode, k) ∈ c.ring) ∧
      (∀ σ', σ.construct_tier = .ok σ' → F = [] ∧ LFUCore.Rep true σ'.toLFUCore L []) ∧
      (∀ FC_size σ', σ.construct_ratio FC_size = .ok σ' →
        F = [] ∧ ∃ C D, L = C ++ D ∧ LFUCore.Rep true σ'.toLFUCore C D) ∧
      (σ.FreBelow → ∃ σ' G, σ.deconstruct = .ok σ' ∧
        G.map (fun c => (c.node, c.ring)) = F.map (fun c => (c.node, c.ring)) ∧
        LFUCore.Rep true σ'.toLFUCore [] (G ++ L) ∧ Decreasing (G ++ L)) ∧
      (σ.FreBelow → ∀ k, ∃ r, σ.find k = .ok r) ∧ ∀ k v, ∃ r, σ.insert k v = .ok r := by
  obtain ⟨F, L, hi⟩ := inv_run hrun
  refine ⟨F, L, hi.rep, hi.frozen, hi.main, fun k e he => ?_, fun σ' h => ?_,
    fun FC_size σ' h => ?_, fun hb => ?_, fun hb k => ?_, fun k v => ?_⟩
  · have hrow := (hi.rep.entries.lookup k e.listNode e.freNode).mp ⟨e.val, he⟩
    obtain ⟨c, hc, hx⟩ := List.mem_flatMap.mp hrow
    obtain ⟨x, hx, heq⟩ := List.mem_map.mp hx
    obtain ⟨h1, h2⟩ := Prod.mk.inj heq
    exact ⟨c, hc, h1, h2 ▸ hx⟩
  · obtain ⟨h1, h2⟩ := hi.construct_tier h
    exact ⟨h1, h2.rep⟩
  · obtain ⟨h1, C, D, h2, h3⟩ := hi.construct_ratio h
    exact ⟨h1, C, D, h2, h3.rep⟩
  · obtain ⟨σ', G, h1, h2, h3⟩ := hi.deconstruct (hi.length_lt hb)
    exact ⟨σ', G, h1, h2, h3.rep, h3.main⟩
  · obtain ⟨c, hf⟩ := hi.find_ok (hb.fits hi k)
    exact ⟨_, hf⟩
  · cases ht : σ.tier_no_insert with
    | true => exact ⟨_, insert_refused ht k v⟩
    | false =>
      obtain ⟨c, L', hins, -⟩ := hi.insert ht k v
      exact ⟨_, hins⟩

/-- The bound can be read off the heap. -/
theorem freBelow_of_heap
    (h : ∀ i < σ.fresh, (σ.classes.val (.node i)).all (· < 2 ^ 31 - 1) = true) : σ.FreBelow := by
  intro F L hr c hc
  obtain ⟨i, hi⟩ := Shard.isNode_iff.mp (hr.lists.isNode hc)
  have hval := hr.lists.fre c hc
  rw [hi] at hval
  have := h i (hr.fresh i (Or.inl (Heap.live_of_val hval)))
  rw [hval] at this
  simpa using this

/-- A hit on the main list while the first class is frozen, and the thaw. -/
theorem class_order_kept_three :
    ∃ σ : LFUShard ℕ, σ.m_map.keys = {3, 4, 5} ∧ ∀ k v, ∃ r, σ.insert k v = .ok r := by
  have hrun : Run LFU_FHCache.call (fun σ c => c.NonNull ∧ σ.FreBelow)
    (LFUShard.init 3 : LFUShard ℕ)
      [(.insert 3 (some 7), .inserted true), (.find 3, .found (some (some 7))),
        (.insert 4 (some 8), .inserted true), (.insert 5 (some 9), .inserted true),
        (.construct_ratio 1, .done), (.find 4, .found (some (some 8))), (.deconstruct, .done)] _ :=
    .cons ⟨rfl, freBelow_of_heap (by decide)⟩ rfl (.cons ⟨trivial, freBelow_of_heap (by decide)⟩ rfl
      (.cons ⟨rfl, freBelow_of_heap (by decide)⟩ rfl (.cons ⟨rfl, freBelow_of_heap (by decide)⟩ rfl
        (.cons ⟨trivial, freBelow_of_heap (by decide)⟩ rfl
          (.cons ⟨trivial, freBelow_of_heap (by decide)⟩ rfl
          (.cons ⟨trivial, freBelow_of_heap (by decide)⟩ rfl .nil))))))
  obtain ⟨F, L, h⟩ := class_order_kept hrun
  exact ⟨_, by decide, h.2.2.2.2.2.2.2.2⟩

/-- With a null value: the fast hash does not answer for the frozen key, and `find` gets to its
    class, whose neighbour is `m_fast_head`. -/
theorem null_value_reaches_frozen_class : ∃ (H : List (FHCall ℕ × FHResp ℕ)) (σ : LFUShard ℕ),
    Run LFU_FHCache.call (fun σ _ => σ.FreBelow) (LFUShard.init 2) H σ ∧ σ.FreBelow ∧
    σ.find 3 = .error .assertion := by
  refine ⟨[(.insert 3 none, .inserted true), (.find 3, .found (some none)),
    (.insert 4 (some 8), .inserted true), (.construct_ratio 1, .done)], _,
    .cons (freBelow_of_heap (by decide)) rfl (.cons (freBelow_of_heap (by decide)) rfl
      (.cons (freBelow_of_heap (by decide)) rfl (.cons (freBelow_of_heap (by decide)) rfl .nil))),
    freBelow_of_heap (by decide), rfl⟩

end LFU_FHCache
end FrozenHot
