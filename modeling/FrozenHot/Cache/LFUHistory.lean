import FrozenHot.Cache.LFUOrder

/-! `LFUCache` over a run of `find` and `insert`.

    `hits` and `stamp` are read off the history: how often a key was hit since it was last inserted,
    and when that was. `Booked` ties the classes to the history; a hit and a new key keep it. -/

namespace FrozenHot
open Schemes

variable {V : Type}

/-- The call has inserted `k`. -/
def insertsKey (k : ℕ) : LFUCall V × LFUResp V → Bool
  | (.insert k' _, .inserted true) => k' = k
  | _ => false

/-- The call has found `k`. -/
def hitsKey (k : ℕ) : LFUCall V × LFUResp V → Bool
  | (.find k', .found (some _)) => k' = k
  | _ => false

/-- The successful finds of `k` since it was last inserted. -/
def hits (k : ℕ) (H : List (LFUCall V × LFUResp V)) : ℕ :=
  H.foldl (fun n x => if insertsKey k x then 0 else if hitsKey k x then n + 1 else n) 0

/-- The position in the history of the last insertion of `k`. -/
def stamp (k : ℕ) (H : List (LFUCall V × LFUResp V)) : ℕ :=
  H.zipIdx.foldl (fun t x => if insertsKey k x.1 then x.2 else t) 0

variable {H : List (LFUCall V × LFUResp V)} {x : LFUCall V × LFUResp V} {k j : ℕ} {v : V}

theorem hits_snoc (k : ℕ) (H : List (LFUCall V × LFUResp V)) (x : LFUCall V × LFUResp V) :
    hits k (H ++ [x]) = if insertsKey k x then 0 else if hitsKey k x then hits k H + 1 else
    hits k H := by
  simp [hits]

theorem hits_le_length (k : ℕ) (H : List (LFUCall V × LFUResp V)) : hits k H ≤ H.length := by
  induction H using List.reverseRecOn with
  | nil => exact le_refl 0
  | append_singleton H x ih =>
    rw [hits_snoc, List.length_append, List.length_singleton]
    split_ifs <;> omega

theorem stamp_snoc (k : ℕ) (H : List (LFUCall V × LFUResp V)) (x : LFUCall V × LFUResp V) :
    stamp k (H ++ [x]) = if insertsKey k x then H.length else stamp k H := by
  simp [stamp, List.zipIdx_append]

/-- The classes as the history has them: the frequency of a key counts its hits, and the ring of
    frequency 1 stands in the order of insertion, the latest first. -/
structure Booked (H : List (LFUCall V × LFUResp V)) (L : List FreClass) : Prop where
  order : Decreasing L
  freq : ∀ f p k, (f, p, k) ∈ freRows L → f = 1 + hits k H
  past : ∀ f p k, (f, p, k) ∈ freRows L → stamp k H < H.length
  age : ∀ c ∈ L, c.fre = 1 → c.keys.Pairwise fun a b => stamp b H < stamp a H

variable {L L' A B : List FreClass} {new : Ptr} {p : FrePtr}

/-- A call that neither finds nor inserts a key. -/
theorem Booked.quiet (hb : Booked H L) (hx : ∀ k, insertsKey k x = false ∧ hitsKey k x = false) :
    Booked (H ++ [x]) L := by
  have h1 : ∀ k, hits k (H ++ [x]) = hits k H := fun k => by simp [hits_snoc, hx k]
  have h2 : ∀ k, stamp k (H ++ [x]) = stamp k H := fun k => by simp [stamp_snoc, hx k]
  refine ⟨hb.order, fun f p k h => by rw [h1]; exact hb.freq f p k h, fun f p k h => ?_,
    fun c hc h => ?_⟩
  · rw [h2, List.length_append]
    exact Nat.lt_add_right _ (hb.past f p k h)
  · simpa only [h2] using hb.age c hc h

/-- A hit. -/
theorem Booked.bump (hb : Booked H L) (hd : (L.flatMap FreClass.keys).Nodup)
    (hbump : LFUCore.Bump new k L L') :
    Booked (H ++ [(.find k, .found (some v))]) L' := by
  have h2 : ∀ j, stamp j (H ++ [(.find k, .found (some v))]) = stamp j H := fun j => by
    simp [stamp_snoc, insertsKey]
  have hlen : H.length < (H ++ [(LFUCall.find k, LFUResp.found (some v))]).length := by simp
  obtain ⟨f, p, Q, hp, hp'⟩ := hbump.freRows
  have hk : k ∉ Q.map fun q => q.2.2 := by
    rw [← keys_freRows] at hd
    exact (List.nodup_cons.mp ((hp.map _).nodup_iff.mp hd)).1
  have hQ : ∀ g q j, (g, q, j) ∈ Q → j ≠ k := fun g q j h he =>
    hk (he ▸ List.mem_map_of_mem (f := fun q : ℤ × FrePtr × ℕ => q.2.2) h)
  have hold : ∀ g q j, (g, q, j) ∈ Q → (g, q, j) ∈ freRows L :=
    fun g q j h => hp.mem_iff.mpr (List.mem_cons_of_mem _ h)
  have hself : (f, p, k) ∈ freRows L := hp.mem_iff.mpr List.mem_cons_self
  refine ⟨hbump.decreasing hb.order, fun g q j h => ?_, fun g q j h => ?_, fun c hc h1 => ?_⟩
  · rcases List.mem_cons.mp (hp'.mem_iff.mp h) with he | h
    · cases he
      rw [hb.freq f p k hself]
      simp [hits_snoc, insertsKey, hitsKey, add_assoc]
    · rw [hb.freq g q j (hold g q j h)]
      simp [hits_snoc, insertsKey, hitsKey, (hQ g q j h).symm]
  · rw [h2]
    rcases List.mem_cons.mp (hp'.mem_iff.mp h) with he | h
    · cases he
      exact lt_trans (hb.past f p k hself) hlen
    · exact lt_trans (hb.past g q j (hold g q j h)) hlen
  · obtain ⟨d, hd, hd1, hsub⟩ := hbump.ring_one hb.order hc h1
    simpa only [h2] using (hb.age d hd hd1).sublist hsub

/-- A new key. -/
theorem Booked.opened (hb : Booked H L) (hk : k ∉ L.flatMap FreClass.keys)
    (ho : LFUCore.Opened new (p, k) L L') :
    Booked (H ++ [(.insert k v, .inserted true)]) L' := by
  have hlen : (H ++ [(LFUCall.insert k v, LFUResp.inserted true)]).length = H.length + 1 := by simp
  have hother : ∀ j, j ≠ k → hits j (H ++ [(.insert k v, .inserted true)]) = hits j H ∧
      stamp j (H ++ [(.insert k v, .inserted true)]) = stamp j H := fun j hj => by
    simp [hits_snoc, stamp_snoc, insertsKey, hitsKey, hj.symm]
  have hself : hits k (H ++ [(.insert k v, .inserted true)]) = 0 ∧
      stamp k (H ++ [(.insert k v, .inserted true)]) = H.length := by
    simp [hits_snoc, stamp_snoc, insertsKey]
  have hrow : ∀ g q j, (g, q, j) ∈ freRows L → j ≠ k := by
    rintro g q j h rfl
    exact hk (keys_freRows L ▸ List.mem_map_of_mem (f := fun q : ℤ × FrePtr × ℕ => q.2.2) h)
  have hperm := ho.freRows
  -- keys of a class before the insertion, with the order of their stamps
  have hring : ∀ c ∈ L, c.fre = 1 → c.keys.Pairwise fun a b =>
      stamp b (H ++ [(.insert k v, .inserted true)]) <
          stamp a (H ++ [(.insert k v, .inserted true)]) := by
    intro c hc h1
    refine (hb.age c hc h1).imp_of_mem fun {a b} ha hb' h => ?_
    have hne : ∀ y ∈ c.keys, y ≠ k := fun y hy he => hk (he ▸ List.mem_flatMap.mpr ⟨c, hc, hy⟩)
    rw [(hother a (hne a ha)).2, (hother b (hne b hb')).2]
    exact h
  refine ⟨ho.decreasing hb.order, fun g q j h => ?_, fun g q j h => ?_, fun c hc h1 => ?_⟩
  · rcases List.mem_cons.mp (hperm.mem_iff.mp h) with he | h
    · cases he
      rw [hself.1]
      rfl
    · rw [(hother j (hrow g q j h)).1]
      exact hb.freq g q j h
  · rw [hlen]
    rcases List.mem_cons.mp (hperm.mem_iff.mp h) with he | h
    · cases he
      rw [hself.2]
      exact Nat.lt_succ_self _
    · rw [(hother j (hrow g q j h)).2]
      exact Nat.lt_succ_of_lt (hb.past g q j h)
  · cases ho with
    | @old A c' hone =>
      rcases List.mem_append.mp hc with hc | hc
      · exact hring c (List.mem_append_left _ hc) h1
      · rw [List.mem_singleton.mp hc]
        refine List.pairwise_cons.mpr ⟨fun b hb' => ?_, hring c' (by simp) hone⟩
        obtain ⟨y, hy, rfl⟩ := List.mem_map.mp hb'
        have hmem : (c'.fre, y.1, y.2) ∈ freRows (A ++ [c']) :=
          mem_freRows.mpr ⟨c', by simp, rfl, hy⟩
        rw [(hother _ (hrow _ _ _ hmem)).2, hself.2]
        exact hb.past _ _ _ hmem
    | new _ =>
      rcases List.mem_append.mp hc with hc | hc
      · exact hring c hc h1
      · rw [List.mem_singleton.mp hc]
        exact List.pairwise_singleton _ _

/-- The eviction. -/
theorem Booked.drop {a : Ptr} {f : ℤ} {R : List (FrePtr × ℕ)} {y : FrePtr × ℕ}
    (hb : Booked H (A ++ [⟨a, f, R ++ [y]⟩])) : Booked H (A ++ [⟨a, f, R⟩]) := by
  have hp := freRows_take A [] a a f R [] y
  rw [List.append_nil] at hp
  refine ⟨hb.order.congr (by simp),
    fun g q j h => hb.freq g q j (hp.mem_iff.mpr (List.mem_cons_of_mem _ h)),
    fun g q j h => hb.past g q j (hp.mem_iff.mpr (List.mem_cons_of_mem _ h)), fun c hc h1 => ?_⟩
  rcases List.mem_append.mp hc with hc | hc
  · exact hb.age c (List.mem_append_left _ hc) h1
  · rw [List.mem_singleton.mp hc] at h1 ⊢
    refine (hb.age ⟨a, f, R ++ [y]⟩ (by simp) h1).sublist ?_
    exact (List.sublist_append_left R [y]).map _

/-- The last key of the class of frequency 1 was inserted first among the keys that were not hit. -/
theorem Booked.earliest {a : Ptr} {R : List (FrePtr × ℕ)} {y : FrePtr × ℕ}
    (hb : Booked H (A ++ [⟨a, 1, R ++ [y]⟩]))
    (hj : j ∈ (A ++ [(⟨a, 1, R ++ [y]⟩ : FreClass)]).flatMap FreClass.keys) (h0 : hits j H = 0) :
    hits y.2 H = 0 ∧ stamp y.2 H ≤ stamp j H := by
  have hy : (1, y.1, y.2) ∈ freRows (A ++ [⟨a, 1, R ++ [y]⟩]) :=
    mem_freRows.mpr ⟨⟨a, 1, R ++ [y]⟩, by simp, rfl, by simp⟩
  refine ⟨by have := hb.freq _ _ _ hy; omega, ?_⟩
  rw [← keys_freRows] at hj
  obtain ⟨⟨f, p, j'⟩, hq, rfl⟩ := List.mem_map.mp hj
  obtain ⟨c, hc, hfc, hx⟩ := mem_freRows.mp hq
  have hf : c.fre = 1 := by rw [hfc, hb.freq _ _ _ hq, h0]; rfl
  rcases List.mem_append.mp hc with hc | hc
  · have := (decreasing_middle.mp hb.order).2.2.1 c hc
    dsimp only at this
    omega
  · rw [List.mem_singleton.mp hc] at hx
    have hage := hb.age ⟨a, 1, R ++ [y]⟩ (by simp) rfl
    rw [FreClass.keys, List.map_append, List.pairwise_append] at hage
    rcases List.mem_append.mp hx with hx | hx
    · exact le_of_lt (hage.2.2 j' (List.mem_map_of_mem (f := Prod.snd) hx) y.2 (by simp))
    · rw [← List.mem_singleton.mp hx]

/-- The frequency of a key that is hit less than `2 ^ 31 - 2` times can be counted up as an
    `int`. -/
theorem Booked.fits (hb : Booked H L) (hk : hits k H + 1 < 2 ^ 31 - 2) :
    ∀ c ∈ L, k ∈ c.keys → toInt (c.fre + 1) = c.fre + 1 := by
  intro c hc hkc
  obtain ⟨y, hy, rfl⟩ := List.mem_map.mp hkc
  have hf := hb.freq c.fre y.1 y.2 (mem_freRows.mpr ⟨c, hc, rfl, hy⟩)
  exact toInt_of_lt (by omega) (by omega)

namespace LFUCache

/-- A cache with the classes that the history tells of. -/
structure Ledger (H : List (LFUCall V × LFUResp V)) (σ : LFUCache V) (L : List FreClass) :
    Prop where
  rep : LFUCore.Rep false σ [] L
  booked : Booked H L
  size : σ.s = σ.m_map.keys.card
  bound : σ.s ≤ σ.n

variable {σ σ' : LFUCache V} {n : ℕ} {e : LFUValue V}

theorem Ledger.mem_iff (hl : Ledger H σ L) : k ∈ σ.m_map ↔ k ∈ L.flatMap FreClass.keys := by
  rw [hl.rep.entries.mem_iff, List.nil_append, keys_rows]

theorem Ledger.nodup (hl : Ledger H σ L) : (L.flatMap FreClass.keys).Nodup := by
  have := hl.rep.entries.nodup
  rwa [List.nil_append, keys_rows] at this

/-- `find` of a stored key. -/
theorem Ledger.hit (hl : Ledger H σ L) (he : σ.m_map.lookup k = some e)
    (hk : hits k H + 1 < 2 ^ 31 - 2) :
    ∃ σ' L', find σ k = .ok (some e.val, σ') ∧
    Ledger (H ++ [(.find k, .found (some e.val))]) σ' L' ∧ σ'.n = σ.n := by
  have hmem : k ∈ σ.m_map := Finmap.mem_of_lookup_eq_some he
  obtain ⟨A, c, B, R, p, R', rfl, hring⟩ := hl.rep.locate hmem (by simp)
  have hnode : e.listNode ≠ .null := by
    rw [(hl.rep.entry hring he).1]
    exact (hl.rep.lists.isNode (c := c) (by simp)).ne_null
  have hdec : ∀ d ∈ A.getLast?, c.fre < d.fre := fun d hd =>
    (decreasing_middle.mp hl.booked.order).2.2.1 d (List.mem_of_getLast? hd)
  obtain ⟨σ', L', ht, hbump, hr', hsame⟩ := hl.rep.touch hring he hdec fun _ _ =>
    hl.booked.fits hk c (by simp) (FreClass.mem_keys hring)
  refine ⟨σ', L', ?_, ⟨hr', hl.booked.bump hl.nodup hbump, ?_, ?_⟩, hsame.n⟩
  · simp only [find, he, if_neg hnode, ht, ok_bind, pure_eq_ok]
  · rw [hsame.s, hsame.keys]
    exact hl.size
  · rw [hsame.s, hsame.n]
    exact hl.bound

/-- `insert` of an absent key. -/
theorem Ledger.add (hl : Ledger H σ L) (hk : k ∉ σ.m_map) (v : V) :
    ∃ σ' L', insert σ k v = .ok (true, σ') ∧ Ledger (H ++ [(.insert k v, .inserted true)]) σ' L' ∧
      σ'.n = σ.n ∧
      (σ.s < σ.n → σ'.m_map.keys = Insert.insert k σ.m_map.keys) ∧
      (σ.s = σ.n → ∃ y ∈ Insert.insert k σ.m_map.keys,
        hits y (H ++ [(.insert k v, .inserted true)]) = 0 ∧
        σ'.m_map.keys = (Insert.insert k σ.m_map.keys).erase y ∧
        ∀ j ∈ Insert.insert k σ.m_map.keys, hits j (H ++ [(.insert k v, .inserted true)]) = 0 →
          stamp y (H ++ [(.insert k v, .inserted true)]) ≤
          stamp j (H ++ [(.insert k v, .inserted true)])) := by
  obtain ⟨σ', A, a, R, hop, had, hn, hroom, hfull⟩ := hl.rep.enlist hk hl.bound v
  have hins : insert σ k v = .ok (true, σ') := by
    rw [insert]
    exact (if_neg hk).trans had
  have hkL : k ∉ L.flatMap FreClass.keys := fun h => hk (hl.mem_iff.mpr h)
  have hbook := hl.booked.opened (v := v) hkL hop
  have hcard : (Insert.insert k σ.m_map.keys).card = σ.s + 1 := by
    rw [Finset.card_insert_of_notMem (by rwa [Finmap.mem_keys]), hl.size]
  by_cases hlt : σ.s < σ.n
  · obtain ⟨hr', hs', hv'⟩ := hroom hlt
    have hkeys : σ'.m_map.keys = Insert.insert k σ.m_map.keys := by
      ext j
      rw [Finmap.mem_keys, LFUCore.mem_iff_value, hv', Finset.mem_insert, Finmap.mem_keys,
        LFUCore.mem_iff_value]
      by_cases hj : j = k <;> simp [hj]
    refine ⟨σ', _, hins, ⟨hr', hbook, by rw [hs', hkeys, hcard], by rw [hs', hn]; exact hlt⟩, hn,
      fun _ => hkeys, fun h => by omega⟩
  · obtain ⟨R₀, y, rfl, hr', hs', hv'⟩ := hfull hlt
    have hall : ∀ j, j ∈ Insert.insert k σ.m_map.keys ↔
        j ∈ (A ++ [(⟨a, 1, R₀ ++ [y]⟩ : FreClass)]).flatMap FreClass.keys := by
      intro j
      have hp := hop.freRows.map fun q => q.2.2
      rw [keys_freRows, List.map_cons, keys_freRows] at hp
      rw [hp.mem_iff, List.mem_cons, Finset.mem_insert, Finmap.mem_keys, hl.mem_iff]
    have hy : y.2 ∈ Insert.insert k σ.m_map.keys := (hall y.2).mpr (by simp [FreClass.keys])
    have hkeys : σ'.m_map.keys = (Insert.insert k σ.m_map.keys).erase y.2 := by
      ext j
      rw [Finmap.mem_keys, LFUCore.mem_iff_value, hv', Finset.mem_erase, Finset.mem_insert,
        Finmap.mem_keys, LFUCore.mem_iff_value]
      by_cases hy : j = y.2
      · simp [hy]
      · by_cases hj : j = k <;> simp [hy, hj]
    refine ⟨σ', _, hins, ⟨hr', hbook.drop, ?_, by rw [hs', hn]; exact hl.bound⟩, hn,
      fun h => absurd h hlt, fun _ => ?_⟩
    · rw [hs', hkeys, Finset.card_erase_of_mem hy, hcard, Nat.add_sub_cancel]
    · have hy0 : hits y.2 (H ++ [(.insert k v, .inserted true)]) = 0 :=
        (hbook.earliest ((hall k).mp (Finset.mem_insert_self _ _))
          (by simp [hits_snoc, insertsKey])).1
      exact ⟨y.2, hy, hy0, hkeys, fun j hj h0 => (hbook.earliest ((hall j).mp hj) h0).2⟩

/-- Every call returns and keeps the ledger, as long as the hits stay below the bound. -/
theorem Ledger.call (hl : Ledger H σ L) (c : LFUCall V)
    (hc : ∀ k, c = .find k → k ∈ σ.m_map → hits k H + 1 < 2 ^ 31 - 2) :
    ∃ o σ' L', LFUCache.call σ c = .ok (o, σ') ∧ Ledger (H ++ [(c, o)]) σ' L' ∧ σ'.n = σ.n := by
  cases c with
  | find k =>
    cases he : σ.m_map.lookup k with
    | none =>
      have hf : find σ k = .ok (none, σ) := by simp only [find, he, pure_eq_ok]
      exact ⟨.found none, σ, L, LFUCache.call_find hf,
        ⟨hl.rep, hl.booked.quiet fun _ => ⟨rfl, rfl⟩, hl.size, hl.bound⟩, rfl⟩
    | some e =>
      obtain ⟨σ', L', hf, hl', hn⟩ := hl.hit he (hc k rfl (Finmap.mem_of_lookup_eq_some he))
      exact ⟨_, σ', L', LFUCache.call_find hf, hl', hn⟩
  | insert k v =>
    by_cases hk : k ∈ σ.m_map
    · have hi : insert σ k v = .ok (false, _) := if_pos hk
      exact ⟨.inserted false, _, L, LFUCache.call_insert hi,
        ⟨hl.rep.present k, hl.booked.quiet fun _ => ⟨rfl, rfl⟩, hl.size, hl.bound⟩, rfl⟩
    · obtain ⟨σ', L', hi, hl', hn, -⟩ := hl.add hk v
      exact ⟨_, σ', L', LFUCache.call_insert hi, hl', hn⟩

theorem Ledger.init (capacity : ℕ) : Ledger [] (LFUCore.init capacity : LFUCache V) [] :=
  ⟨LFUCore.rep_init capacity, ⟨⟨List.Pairwise.nil, by simp⟩, by simp, by simp, by simp⟩, rfl,
    Nat.zero_le _⟩

/-- A stored key is found. -/
theorem found_of_mem {o : LFUResp V} (hk : k ∈ σ.m_map)
    (h : LFUCache.call σ (.find k) = .ok (o, σ')) :
    ∃ v, o = .found (some v) := by
  obtain ⟨e, he⟩ := Finmap.mem_iff.mp hk
  obtain ⟨r, hf, hr⟩ := bind_eq_ok.mp h
  simp only [find, he] at hf
  split at hf
  · cases hf
  · obtain ⟨τ, -, hf⟩ := bind_eq_ok.mp hf
    cases hf
    cases hr
    exact ⟨e.val, rfl⟩

/-- A run in which the hits of every key stay below the bound. -/
theorem Ledger.run (hrun : Run LFUCache.call (fun _ _ => True) (LFUCore.init n) H σ)
    (hhits : ∀ H', H' <+: H → ∀ k, hits k H' < 2 ^ 31 - 2) : (∃ L, Ledger H σ L) ∧ σ.n = n := by
  induction hrun with
  | nil => exact ⟨⟨[], .init n⟩, rfl⟩
  | @snoc hist s₁ s₂ c o _ _ hstep ih =>
    obtain ⟨⟨L, hl⟩, hn⟩ := ih fun H' hH' => hhits H' (hH'.trans (List.prefix_append _ _))
    have hc : ∀ k, c = .find k → k ∈ s₁.m_map → hits k hist + 1 < 2 ^ 31 - 2 := by
      rintro k rfl hk
      obtain ⟨v, rfl⟩ := found_of_mem hk hstep
      have := hhits _ (List.prefix_refl _) k
      simpa [hits_snoc, insertsKey, hitsKey] using this
    obtain ⟨o', σ', L', hstep', hl', hn'⟩ := hl.call c hc
    rw [hstep] at hstep'
    cases hstep'
    exact ⟨⟨L', hl'⟩, hn'.trans hn⟩

/-- In every run in which no key is hit `2 ^ 31 - 2` times or more since its insertion: the classes
    have strictly decreasing frequencies, at least 1; each key is in one ring, its entry points to
    the class and the ring node, and its frequency is one more than its hits; `s` counts the keys;
    no call fails an assertion; and the eviction takes the key that was inserted first among those
    of frequency 1. -/
theorem frequency_structure (hrun : Run LFUCache.call (fun _ _ => True) (LFUCore.init n) H σ)
    (hhits : ∀ H', H' <+: H → ∀ k, hits k H' < 2 ^ 31 - 2) :
    (∃ L, LFUCore.Rep false σ [] L ∧ Decreasing L ∧ (L.flatMap FreClass.keys).Nodup ∧
      (∀ k, k ∈ σ.m_map ↔ k ∈ L.flatMap FreClass.keys) ∧
      ∀ k e, σ.m_map.lookup k = some e →
        ∃ c ∈ L, c.node = e.listNode ∧ (e.freNode, k) ∈ c.ring ∧ c.fre = 1 + hits k H) ∧
    σ.s = σ.m_map.keys.card ∧ σ.s ≤ n ∧
    (∀ c, (∀ k, c = .find k → k ∈ σ.m_map → hits k H + 1 < 2 ^ 31 - 2) → ∃ r,
      LFUCache.call σ c = .ok r) ∧
    ∀ k v, k ∉ σ.m_map → ∃ σ', insert σ k v = .ok (true, σ') ∧
      (σ.s < n → σ'.m_map.keys = Insert.insert k σ.m_map.keys) ∧
      (σ.s = n → ∃ y ∈ Insert.insert k σ.m_map.keys,
        hits y (H ++ [(.insert k v, .inserted true)]) = 0 ∧
        σ'.m_map.keys = (Insert.insert k σ.m_map.keys).erase y ∧
        ∀ j ∈ Insert.insert k σ.m_map.keys, hits j (H ++ [(.insert k v, .inserted true)]) = 0 →
          stamp y (H ++ [(.insert k v, .inserted true)]) ≤
          stamp j (H ++ [(.insert k v, .inserted true)])) := by
  obtain ⟨⟨L, hl⟩, rfl⟩ := Ledger.run hrun hhits
  refine ⟨⟨L, hl.rep, hl.booked.order, hl.nodup, fun k => hl.mem_iff, fun k e he => ?_⟩, hl.size,
    hl.bound, fun c hc => ?_, fun k v hk => ?_⟩
  · obtain ⟨A, c, B, R, p, R', rfl, hring⟩ :=
      hl.rep.locate (Finmap.mem_of_lookup_eq_some he) (by simp)
    obtain ⟨h1, h2⟩ := hl.rep.entry hring he
    have hx : (p, k) ∈ c.ring := by simp [hring]
    exact ⟨c, by simp, h1.symm, h2 ▸ hx,
      hl.booked.freq _ p k (mem_freRows.mpr ⟨c, by simp, rfl, hx⟩)⟩
  · obtain ⟨o, σ', -, hc, -⟩ := hl.call c hc
    exact ⟨_, hc⟩
  · obtain ⟨σ', -, hi, -, -, h1, h2⟩ := hl.add hk v
    exact ⟨σ', hi, h1, h2⟩

/-- With room for two keys, 3 is hit and 4 goes when 5 comes. -/
theorem frequency_structure_two :
    ∃ σ : LFUCache ℕ, σ.s = σ.m_map.keys.card ∧ σ.m_map.keys = {3, 5} := by
  have hrun : Run LFUCache.call (fun _ _ => True) (LFUCore.init 2 : LFUCache ℕ)
      [(.insert 3 7, .inserted true), (.insert 4 8, .inserted true), (.find 3, .found (some 7)),
        (.insert 5 9, .inserted true)] _ :=
    .cons trivial rfl (.cons trivial rfl (.cons trivial rfl (.cons trivial rfl .nil)))
  refine ⟨_, (frequency_structure hrun fun H' hH' k => ?_).2.1, by decide⟩
  exact lt_of_le_of_lt ((hits_le_length k H').trans hH'.length_le) (by decide)

end LFUCache
end FrozenHot
