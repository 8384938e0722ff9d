import FrozenHot.Cache.LFURep
import FrozenHot.Schemes.Run
import Mathlib.Data.List.Pairwise
import Mathlib.Data.Finset.Card

/-! The order of the classes, and the frequency structure of `LFUCache`.

    `Decreasing` is kept by every hit and every new key, and `freRows` says which key has which
    frequency. Over a run of `LFUCache` the frequency of a key is one more than its hits since it
    was inserted, and the ring of frequency 1 stands in the order of insertion, the earliest key
    last; the eviction takes that one. -/

namespace FrozenHot
open Schemes

/-- Strictly decreasing frequencies, all at least 1. -/
structure Decreasing (L : List FreClass) : Prop where
  pairwise : L.Pairwise fun c d => d.fre < c.fre
  one_le : ∀ c ∈ L, 1 ≤ c.fre

/-- The keys with their frequencies and ring nodes. -/
def freRows (C : List FreClass) : List (ℤ × FrePtr × ℕ) :=
  C.flatMap fun c => c.ring.map fun x => (c.fre, x)

section Classes
variable {L L' A B : List FreClass} {c d : FreClass} {new : Ptr} {k : ℕ} {x : FrePtr × ℕ}

@[simp] theorem freRows_nil : freRows [] = [] := rfl

@[simp] theorem freRows_cons (c : FreClass) (C : List FreClass) :
    freRows (c :: C) = c.ring.map (fun x => (c.fre, x)) ++ freRows C := rfl

@[simp] theorem freRows_append (A B : List FreClass) : freRows (A ++ B) = freRows A ++ freRows B :=
  List.flatMap_append

theorem keys_freRows (C : List FreClass) :
    (freRows C).map (fun q => q.2.2) = C.flatMap FreClass.keys := by
  simp only [freRows, List.map_flatMap, List.map_map, Function.comp_def]
  rfl

theorem mem_freRows {f : ℤ} : (f, x) ∈ freRows L ↔ ∃ c ∈ L, c.fre = f ∧ x ∈ c.ring := by
  simp only [freRows, List.mem_flatMap, List.mem_map, Prod.mk.injEq]
  constructor
  · rintro ⟨c, hc, y, hy, h1, rfl⟩
    exact ⟨c, hc, h1, hy⟩
  · rintro ⟨c, hc, h1, hx⟩
    exact ⟨c, hc, x, hx, h1, rfl⟩

/-- The row of one key in front. -/
theorem freRows_take (A B : List FreClass) (a b : Ptr) (f : ℤ) (R R' : List (FrePtr × ℕ))
    (x : FrePtr × ℕ) :
    (freRows (A ++ ⟨a, f, R ++ x :: R'⟩ :: B)).Perm
    ((f, x) :: freRows (A ++ ⟨b, f, R ++ R'⟩ :: B)) := by
  simp only [freRows_append, freRows_cons, List.map_append, List.map_cons, List.append_assoc,
    List.cons_append]
  rw [← List.append_assoc, ← List.append_assoc (freRows A)]
  exact List.perm_middle

theorem FreClass.mem_keys {R R' : List (FrePtr × ℕ)} {p : FrePtr} (h : c.ring = R ++ (p, k) :: R') :
    k ∈ c.keys := by
  simp [FreClass.keys, h]

/-- A hit raises the frequency of its key by one and of no other. -/
theorem LFUCore.Bump.freRows (hb : LFUCore.Bump new k L L') :
    ∃ f p Q, (freRows L).Perm ((f, p, k) :: Q) ∧
    (FrozenHot.freRows L').Perm ((f + 1, p, k) :: Q) := by
  cases hb with
  | @alone A B c p hah hring =>
    obtain ⟨a, f, R⟩ := c
    obtain rfl : R = [(p, k)] := hring
    exact ⟨f, p, FrozenHot.freRows (A ++ B), by simp, by simp⟩
  | @split A B c p R R' hah hring hne =>
    obtain ⟨a, f, S⟩ := c
    obtain rfl : S = R ++ (p, k) :: R' := hring
    refine ⟨f, p, FrozenHot.freRows (A ++ ⟨a, f, R ++ R'⟩ :: B), freRows_take A B a a f R R' (p, k),
      ?_⟩
    simp
  | @join A B c d p R R' hfre hring hne =>
    obtain ⟨a, f, S⟩ := c
    obtain ⟨b, g, T⟩ := d
    obtain rfl : S = R ++ (p, k) :: R' := hring
    obtain rfl : g = f + 1 := hfre
    refine ⟨f, p, FrozenHot.freRows (A ++ ⟨b, f + 1, T⟩ :: ⟨a, f, R ++ R'⟩ :: B), ?_,
      freRows_take A (⟨a, f, R ++ R'⟩ :: B) b b (f + 1) [] T (p, k)⟩
    have := freRows_take (A ++ [⟨b, f + 1, T⟩]) B a a f R R' (p, k)
    rwa [List.append_assoc, List.append_assoc] at this
  | @leave A B c d p hfre hring =>
    obtain ⟨a, f, S⟩ := c
    obtain ⟨b, g, T⟩ := d
    obtain rfl : S = [(p, k)] := hring
    obtain rfl : g = f + 1 := hfre
    refine ⟨f, p, FrozenHot.freRows (A ++ ⟨b, f + 1, T⟩ :: B), ?_,
      freRows_take A B b b (f + 1) [] T (p, k)⟩
    have := freRows_take (A ++ [⟨b, f + 1, T⟩]) B a a f [] [] (p, k)
    rw [List.append_assoc, List.append_assoc] at this
    simpa only [freRows_append, freRows_cons, List.map_nil, List.nil_append, List.singleton_append]
      using this

theorem LFUCore.Opened.freRows (ho : LFUCore.Opened new x L L') :
    (FrozenHot.freRows L').Perm ((1, x) :: FrozenHot.freRows L) := by
  cases ho with
  | @old A c h =>
    have := freRows_take A [] c.node c.node 1 [] c.ring x
    rw [← h] at this ⊢
    exact this
  | new h => simp

/-- All classes before a gap are ahead. -/
theorem Decreasing.ahead {f : ℤ} (hA : A.Pairwise fun c d => d.fre < c.fre)
    (hah : LFUCore.Ahead A f) :
    ∀ c ∈ A, f + 1 < c.fre := by
  intro c hc
  rcases A.eq_nil_or_concat with rfl | ⟨A', d, rfl⟩
  · cases hc
  · have hd := hah d (by simp)
    rw [List.concat_eq_append, List.pairwise_append] at hA
    rw [List.concat_eq_append, List.mem_append, List.mem_singleton] at hc
    rcases hc with hc | rfl
    · have := hA.2.2 c hc d (by simp)
      omega
    · exact hd

theorem Decreasing.of_append (h : Decreasing (A ++ B)) : Decreasing A ∧ Decreasing B := by
  have hp := List.pairwise_append.mp h.pairwise
  exact ⟨⟨hp.1, fun c hc => h.one_le c (List.mem_append_left _ hc)⟩,
    hp.2.1, fun c hc => h.one_le c (List.mem_append_right _ hc)⟩

/-- Only frequencies matter. -/
theorem Decreasing.congr (h : Decreasing L) (he : L'.map FreClass.fre = L.map FreClass.fre) :
    Decreasing L' := by
  have hp : (L.map FreClass.fre).Pairwise fun f g => g < f := List.pairwise_map.mpr h.pairwise
  refine ⟨List.pairwise_map.mp (he ▸ hp), fun c hc => ?_⟩
  have hm : c.fre ∈ L.map FreClass.fre := he ▸ List.mem_map_of_mem hc
  obtain ⟨d, hd, hfre⟩ := List.mem_map.mp hm
  rw [← hfre]
  exact h.one_le d hd

/-- A class in the middle. -/
theorem decreasing_middle :
    Decreasing (A ++ c :: B) ↔ Decreasing (A ++ B) ∧ 1 ≤ c.fre ∧ (∀ d ∈ A, c.fre < d.fre) ∧
    ∀ d ∈ B, d.fre < c.fre := by
  constructor
  · rintro ⟨hp, h1⟩
    have hp' := List.pairwise_append.mp hp
    rw [List.pairwise_cons] at hp'
    refine ⟨⟨hp.sublist (List.Sublist.append_left (List.sublist_cons_self c B) A),
      fun d hd => h1 d ?_⟩, h1 c (by simp), fun d hd => hp'.2.2 d hd c (by simp), hp'.2.1.1⟩
    simp only [List.mem_append, List.mem_cons] at hd ⊢
    tauto
  · rintro ⟨⟨hp, h1⟩, hc, hA, hB⟩
    have hp' := List.pairwise_append.mp hp
    refine ⟨List.pairwise_append.mpr ⟨hp'.1, List.pairwise_cons.mpr ⟨hB, hp'.2.1⟩,
      fun d hd e he => ?_⟩, fun d hd => ?_⟩
    · rcases List.mem_cons.mp he with rfl | he
      · exact hA d hd
      · exact hp'.2.2 d hd e he
    · rcases List.mem_cons.mp (List.perm_middle.mem_iff.mp hd) with rfl | hd
      · exact hc
      · exact h1 d hd

/-- A hit keeps the order. -/
theorem LFUCore.Bump.decreasing (hb : LFUCore.Bump new k L L') (hL : Decreasing L) :
    Decreasing L' := by
  cases hb with
  | @alone A B c p hah hring =>
    obtain ⟨h1, h2, h3, h4⟩ := decreasing_middle.mp hL
    refine decreasing_middle.mpr ⟨h1, by dsimp only; omega,
      Decreasing.ahead h1.of_append.1.pairwise hah, fun d hd => ?_⟩
    have := h4 d hd
    dsimp only
    omega
  | @split A B c p R R' hah hring hne =>
    have hc : Decreasing (A ++ ⟨c.node, c.fre, R ++ R'⟩ :: B) := hL.congr (by simp)
    obtain ⟨h1, h2, h3, h4⟩ := decreasing_middle.mp hL
    refine decreasing_middle.mpr ⟨hc, ?_, Decreasing.ahead h1.of_append.1.pairwise hah, ?_⟩
    · dsimp only; omega
    · refine List.forall_mem_cons.mpr ⟨by dsimp only; omega, fun d hd => ?_⟩
      have := h4 d hd
      dsimp only
      omega
  | join _ _ _ => exact hL.congr (by simp)
  | @leave A B c d p hfre hring =>
    have hc : Decreasing (A ++ [⟨d.node, d.fre, (p, k) :: d.ring⟩] ++ c :: B) := hL.congr (by simp)
    have := (decreasing_middle.mp hc).1
    simpa using this

/-- A new key keeps the order. -/
theorem LFUCore.Opened.decreasing (ho : LFUCore.Opened new x L L') (hL : Decreasing L) :
    Decreasing L' := by
  cases ho with
  | old h => exact hL.congr (by simp [h])
  | new h =>
    refine decreasing_middle.mpr ⟨by rwa [List.append_nil], le_refl _, fun d hd => ?_, by simp⟩
    rcases L.eq_nil_or_concat with rfl | ⟨A, c, rfl⟩
    · cases hd
    · have hne := h c (by simp)
      have h1 := hL.one_le c (by simp)
      rw [List.concat_eq_append] at hL hd
      rcases List.mem_append.mp hd with hd | hd
      · have := (decreasing_middle.mp hL).2.2.1 d hd
        show 1 < d.fre
        omega
      · rw [List.mem_singleton.mp hd]
        show 1 < c.fre
        omega

/-- A class that a key has left. -/
theorem FreClass.keys_sublist {c : FreClass} {p : FrePtr} {R R' : List (FrePtr × ℕ)}
    (hring : c.ring = R ++ (p, k) :: R') (a : Ptr) (f : ℤ) :
    (FreClass.keys ⟨a, f, R ++ R'⟩).Sublist c.keys := by
  rw [FreClass.keys, FreClass.keys, hring]
  exact ((List.sublist_cons_self (p, k) R').append_left R).map _

/-- A class after a hit has lost keys at most, or it is the one that the key has moved to. -/
theorem LFUCore.Bump.class_cases (hb : LFUCore.Bump new k L L') (hd : d ∈ L') :
    (∃ c ∈ L, d.fre = c.fre ∧ d.keys.Sublist c.keys) ∨ ∃ c ∈ L, d.fre = c.fre + 1 := by
  have hself : d ∈ L → ∃ c ∈ L, d.fre = c.fre ∧ d.keys.Sublist c.keys :=
    fun hd => ⟨d, hd, rfl, .refl _⟩
  cases hb with
  | @alone A B c p hah hring =>
    rcases List.mem_cons.mp (List.perm_middle.mem_iff.mp hd) with rfl | hd
    · exact Or.inr ⟨c, by simp, rfl⟩
    · exact Or.inl (hself (List.perm_middle.mem_iff.mpr (List.mem_cons_of_mem _ hd)))
  | @split A B c p R R' hah hring hne =>
    rcases List.mem_cons.mp (List.perm_middle.mem_iff.mp hd) with rfl | hd
    · exact Or.inr ⟨c, by simp, rfl⟩
    · rcases List.mem_cons.mp (List.perm_middle.mem_iff.mp hd) with rfl | hd
      · exact Or.inl ⟨c, by simp, rfl, FreClass.keys_sublist hring _ _⟩
      · exact Or.inl (hself (List.perm_middle.mem_iff.mpr (List.mem_cons_of_mem _ hd)))
  | @join A B c e p R R' hfre hring hne =>
    rcases List.mem_cons.mp (List.perm_middle.mem_iff.mp hd) with rfl | hd
    · exact Or.inr ⟨c, by simp, hfre⟩
    · rcases List.mem_cons.mp (List.perm_middle.mem_iff.mp hd) with rfl | hd
      · exact Or.inl ⟨c, by simp, rfl, FreClass.keys_sublist hring _ _⟩
      · refine Or.inl (hself ?_)
        simp only [List.mem_append, List.mem_cons] at hd ⊢
        tauto
  | @leave A B c e p hfre hring =>
    rcases List.mem_cons.mp (List.perm_middle.mem_iff.mp hd) with rfl | hd
    · exact Or.inr ⟨c, by simp, hfre⟩
    · refine Or.inl (hself ?_)
      simp only [List.mem_append, List.mem_cons] at hd ⊢
      tauto

/-- A hit only takes keys out of the ring of frequency 1. -/
theorem LFUCore.Bump.ring_one (hb : LFUCore.Bump new k L L') (hL : Decreasing L) (hd : d ∈ L')
    (h1 : d.fre = 1) :
    ∃ c ∈ L, c.fre = 1 ∧ d.keys.Sublist c.keys := by
  rcases hb.class_cases hd with ⟨c, hc, hfre, hkeys⟩ | ⟨c, hc, hfre⟩
  · exact ⟨c, hc, hfre.symm.trans h1, hkeys⟩
  · have := hL.one_le c hc
    omega

/-- No frequency grows by more than one. -/
theorem LFUCore.Bump.fre_le {b : ℤ} (hb : LFUCore.Bump new k L L') (hL : ∀ c ∈ L, c.fre ≤ b) :
    ∀ c ∈ L', c.fre ≤ b + 1 := by
  intro d hd
  rcases hb.class_cases hd with ⟨c, hc, hfre, -⟩ | ⟨c, hc, hfre⟩ <;>
  · have := hL c hc
    omega

end Classes

section Touch
variable {V : Type} {fh : Bool} {σ : LFUCore V} {F L : List FreClass} {e : LFUValue V} {k : ℕ}

/-- A hit on a key of the main list counts it up, or it would have to split a class off beyond the
    range of `int` and aborts. -/
theorem LFUCore.Rep.touch_cases (hr : LFUCore.Rep fh σ F L) (hL : Decreasing L)
    (he : σ.m_map.lookup k = some e) (hF : k ∉ F.flatMap FreClass.keys) :
    (∃ σ' L', LFUCore.touch σ k e = .ok σ' ∧ LFUCore.Bump (.node σ.fresh) k L L' ∧
      LFUCore.Rep fh σ' F L' ∧
      LFUCore.Same σ σ') ∨
    ((∃ A c B R p R', L = A ++ c :: B ∧ c.ring = R ++ (p, k) :: R' ∧ LFUCore.Ahead A c.fre ∧
      R ++ R' ≠ [] ∧
      2 ^ 31 - 1 ≤ c.fre) ∧ LFUCore.touch σ k e = .error .assertion) := by
  obtain ⟨A, c, B, R, p, R', rfl, hring⟩ :=
    hr.locate (Finmap.mem_of_lookup_eq_some he) (by rwa [keys_rows])
  obtain ⟨-, h1, h2, -⟩ := decreasing_middle.mp hL
  by_cases hfits : LFUCore.Ahead A c.fre → R ++ R' ≠ [] → c.fre < 2 ^ 31 - 1
  · obtain ⟨σ', L', ht, hbump, hr', hsame⟩ :=
      hr.touch hring he (fun d hd => h2 d (List.mem_of_getLast? hd))
      fun hah hne => toInt_of_lt (by omega) (by have := hfits hah hne; omega)
    exact Or.inl ⟨σ', L', ht, hbump, hr', hsame⟩
  · simp only [Classical.not_imp, not_lt] at hfits
    obtain ⟨hah, hne, hover⟩ := hfits
    have := toInt_lt (c.fre + 1)
    exact Or.inr ⟨⟨A, c, B, R, p, R', rfl, hring, hah, hne, hover⟩,
      hr.touch_fails hring he hah hne (by omega)⟩

/-- A hit on each key of the only class: the first splits a class off and the second follows it
    there. -/
theorem LFUCore.Rep.touch_pair {a : Ptr} {p q : FrePtr} {j : ℕ} {f : ℤ} {w : V}
    (hr : LFUCore.Rep fh σ [] [⟨a, f, [(q, j), (p, k)]⟩]) (he : σ.m_map.lookup k = some e)
    (hw : σ.value j = some w) (hfit : toInt (f + 1) = f + 1) :
    ∃ σ₁ e₁ σ₂, LFUCore.touch σ k e = .ok σ₁ ∧ LFUCore.Same σ σ₁ ∧
      LFUCore.Rep fh σ₁ [] [⟨.node σ.fresh, f + 1, [(p, k)]⟩, ⟨a, f, [(q, j)]⟩] ∧
      σ₁.m_map.lookup j = some e₁ ∧ e₁.val = w ∧
      LFUCore.touch σ₁ j e₁ = .ok σ₂ ∧ LFUCore.Same σ₁ σ₂ ∧
      LFUCore.Rep fh σ₂ [] [⟨.node σ.fresh, f + 1, [(q, j), (p, k)]⟩] := by
  have hring : (⟨a, f, [(q, j), (p, k)]⟩ : FreClass).ring = [(q, j)] ++ (p, k) :: [] := rfl
  obtain ⟨σ₁, h1, hr₁, hsame₁⟩ := LFUCore.Rep.raise_split (A := []) hr hring (by simp) he hfit
  rw [← LFUCore.Rep.touch_ahead (A := []) hr hring he (by simp [LFUCore.Ahead])] at h1
  obtain ⟨e₁, he₁, hval⟩ := Option.map_eq_some_iff.mp ((hsame₁.value j).trans hw)
  obtain ⟨σ₂, h2, hsame₂, hr₂⟩ := LFUCore.Rep.join_ok (A := []) (R := []) hr₁ rfl he₁
  rw [← LFUCore.Rep.touch_next (A := []) (R := []) hr₁ rfl he₁ rfl] at h2
  exact ⟨σ₁, e₁, σ₂, h1, hsame₁, hr₁, he₁, hval, h2, hsame₂, hr₂⟩

/-- The class of an entry. -/
theorem LFUCore.Rep.class_of_entry (hr : LFUCore.Rep fh σ F L) (he : σ.m_map.lookup k = some e) :
    ∃ c ∈ F ++ L, c.node = e.listNode ∧ (e.freNode, k) ∈ c.ring := by
  have hrow := (hr.entries.lookup k e.listNode e.freNode).mp ⟨e.val, he⟩
  obtain ⟨c, hc, hx⟩ := List.mem_flatMap.mp hrow
  obtain ⟨x, hx, heq⟩ := List.mem_map.mp hx
  obtain ⟨h1, h2⟩ := Prod.mk.inj heq
  exact ⟨c, hc, h1, h2 ▸ hx⟩

/-- `find` of a cached key is its locked part. -/
theorem LFUCore.Rep.find_eq (hr : LFUCore.Rep fh σ F L) (he : σ.m_map.lookup k = some e) :
    LFUCache.find σ k = LFUCore.touch σ k e >>= fun σ' => .ok (some e.val, σ') := by
  obtain ⟨c, hc, hnode, -⟩ := hr.class_of_entry he
  have hne : e.listNode ≠ .null := by
    rw [← hnode]
    exact (hr.lists.isNode hc).ne_null
  simp only [LFUCache.find, he, if_neg hne, pure_eq_ok]

end Touch

/-! ### Two keys in the only class -/

namespace LFUCore
variable {V : Type} {fh : Bool} {σ : LFUCore V} {f : ℤ} {v w : V}

/-- The keys 3 and 4 share the only class, of frequency `f`. -/
structure Pair (fh : Bool) (σ : LFUCore V) (f : ℤ) (v w : V) : Prop where
  rep : ∃ a p q, Rep fh σ [] [⟨a, f, [(q, 4), (p, 3)]⟩]
  values : σ.value 3 = some v ∧ σ.value 4 = some w

/-- One `insert` of each key. -/
theorem Rep.insert_pair (hr : Rep fh σ [] []) (hlt : σ.s + 1 < σ.n) (v w : V) : ∃ σ₁ σ₂,
    LFUCache.insert σ 3 v = .ok (true, σ₁) ∧ 4 ∉ σ₁.m_map ∧
      LFUCache.insert σ₁ 4 w = .ok (true, σ₂) ∧
      Pair fh σ₂ 1 v w := by
  have hempty : ∀ k, k ∉ σ.m_map := by simp [hr.entries.mem_iff]
  obtain ⟨σ₁, L, hins, hop, hr₁, hn, hs, hv⟩ := hr.insert_room (hempty 3) (by omega) v
  obtain rfl := hop.of_nil
  have h4 : 4 ∉ σ₁.m_map := by
    rw [mem_iff_value, hv, if_neg (by decide), ← mem_iff_value]
    exact hempty 4
  obtain ⟨σ₂, L', hins', hop', hr₂, -, -, hv'⟩ := hr₁.insert_room h4 (by omega) w
  obtain rfl := hop'.of_one
  exact ⟨σ₁, σ₂, hins, h4, hins', ⟨_, _, _, hr₂⟩, (hv' 3).trans (hv 3), hv' 4⟩

/-- A hit on 3 and one on 4: the first splits a class off and the second follows. -/
theorem Pair.round (hp : Pair fh σ f v w) (h0 : 0 ≤ f) (hf : f < 2 ^ 31 - 1) : ∃ σ₁ σ₂,
    LFUCache.find σ 3 = .ok (some v, σ₁) ∧ LFUCache.find σ₁ 4 = .ok (some w, σ₂) ∧
      Pair fh σ₂ (f + 1) v w := by
  obtain ⟨⟨a, p, q, hr⟩, h3, h4⟩ := hp
  obtain ⟨e, he, hev⟩ := Option.map_eq_some_iff.mp h3
  obtain ⟨σ₁, e₁, σ₂, ht, hsame, hr₁, he₁, hev₁, ht₁, hsame₁, hr₂⟩ :=
    hr.touch_pair he h4 (toInt_of_lt (by omega) (by omega))
  refine ⟨σ₁, σ₂, ?_, ?_, ⟨_, p, q, hr₂⟩, ?_, ?_⟩
  · rw [hr.find_eq he, ht, ok_bind, hev]
  · rw [hr₁.find_eq he₁, ht₁, ok_bind, hev₁]
  · exact (hsame₁.value 3).trans ((hsame.value 3).trans h3)
  · exact (hsame₁.value 4).trans ((hsame.value 4).trans h4)

/-- At the largest `int` the next hit on 3 aborts. -/
theorem Pair.find_fails (hp : Pair fh σ (2 ^ 31 - 1) v w) :
    LFUCache.find σ 3 = .error .assertion := by
  obtain ⟨⟨a, p, q, hr⟩, h3, -⟩ := hp
  obtain ⟨e, he, -⟩ := Option.map_eq_some_iff.mp h3
  have hring : (⟨a, 2 ^ 31 - 1, [(q, 4), (p, 3)]⟩ : FreClass).ring = [(q, 4)] ++ (p, 3) :: [] := rfl
  have hover : toInt (2 ^ 31 - 1 + 1) ≤ 2 ^ 31 - 1 := by decide
  rw [hr.find_eq he, Rep.touch_fails (A := []) hr hring he (by simp [Ahead]) (by simp) hover]
  rfl

/-- Rounds of hits, until the class has the largest `int` for its frequency. -/
theorem hot_of_rounds {S I O : Type} {call : S → I → Except Fault (O × S)} {P : S → I → Prop}
    {J : S → ℤ → Prop} {s : S} (h1 : J s 1)
    (hround : ∀ s f, 0 ≤ f → f < 2 ^ 31 - 1 → J s f → ∃ A s', Run call P s A s' ∧ J s' (f + 1)) :
    ∃ H s', Run call P s H s' ∧ J s' (2 ^ 31 - 1) := by
  have hmax : 1 + ((2 ^ 31 - 2 : ℕ) : ℤ) = 2 ^ 31 - 1 := by decide
  rw [← hmax]
  refine Run.rounds (J := fun m s => J s (1 + (m : ℕ))) (by simpa using h1) (2 ^ 31 - 2)
    fun m hm s hp => ?_
  obtain ⟨A, s', hrun, hp'⟩ := hround s _ (by omega) (by omega) hp
  have hsum : 1 + ((m + 1 : ℕ) : ℤ) = 1 + m + 1 := by omega
  exact ⟨A, s', hrun, hsum ▸ hp'⟩

end LFUCore
end FrozenHot
