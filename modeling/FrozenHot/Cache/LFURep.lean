import FrozenHot.Cache.LFURings

/-! An LFU cache seen as lists of classes.

    `Rep fh σ F L` ties a cache to its classes: the frozen ones `F` (none unless `fh`) and those of
    the main list `L`, highest frequency first. Every entry of the map points to the class and to
    the ring node of its key. `Bump` says what a hit does to the main list and `Opened` what a new
    key does; the code of `find` and `insert` is shown to do just that, with no assertion
    failing. -/

namespace FrozenHot
open Schemes

variable {V : Type}

/-- The rows of the classes: the node of the class, the ring node and the key. -/
def rows (C : List FreClass) : List (Ptr × FrePtr × ℕ) :=
  C.flatMap fun c => c.ring.map fun x => (c.node, x)

@[simp] theorem rows_nil : rows [] = [] := rfl

@[simp] theorem rows_cons (c : FreClass) (C : List FreClass) :
    rows (c :: C) = c.ring.map (fun x => (c.node, x)) ++ rows C := rfl

@[simp] theorem rows_append (A B : List FreClass) : rows (A ++ B) = rows A ++ rows B :=
  List.flatMap_append

theorem keys_rows (C : List FreClass) :
    (rows C).map (fun q => q.2.2) = C.flatMap FreClass.keys := by
  simp only [rows, List.map_flatMap, List.map_map, Function.comp_def]
  rfl

/-- The entries of the map are the rows `Q`, one for each key. -/
structure Entries (m : Finmap fun _ : ℕ => LFUValue V) (Q : List (Ptr × FrePtr × ℕ)) : Prop where
  nodup : (Q.map fun q => q.2.2).Nodup
  lookup : ∀ k c p, (∃ v, m.lookup k = some ⟨v, c, p⟩) ↔ (c, p, k) ∈ Q

section Entries
variable {m : Finmap fun _ : ℕ => LFUValue V} {Q Q' : List (Ptr × FrePtr × ℕ)} {k : ℕ} {c d : Ptr}
    {p : FrePtr} {v : V}

theorem Entries.perm (he : Entries m Q) (hp : Q.Perm Q') : Entries m Q' :=
  ⟨(hp.map _).nodup_iff.mp he.nodup, fun k c p => (he.lookup k c p).trans hp.mem_iff⟩

theorem Entries.mem_iff (he : Entries m Q) : k ∈ m ↔ k ∈ Q.map fun q => q.2.2 := by
  rw [Finmap.mem_iff, List.mem_map]
  constructor
  · rintro ⟨⟨v, c, p⟩, hl⟩
    exact ⟨(c, p, k), (he.lookup k c p).mp ⟨v, hl⟩, rfl⟩
  · rintro ⟨⟨c, p, k'⟩, hq, rfl⟩
    obtain ⟨v, hl⟩ := (he.lookup k' c p).mpr hq
    exact ⟨_, hl⟩

/-- The key of a row has no other row. -/
theorem Entries.head_notMem (he : Entries m ((c, p, k) :: Q)) : k ∉ Q.map fun q => q.2.2 :=
  (List.nodup_cons.mp he.nodup).1

/-- A new key. -/
theorem Entries.add (he : Entries m Q) (hk : k ∉ m) (v : V) (d : Ptr) (p : FrePtr) :
    Entries (m.insert k ⟨v, d, p⟩) ((d, p, k) :: Q) := by
  rw [he.mem_iff] at hk
  refine ⟨List.nodup_cons.mpr ⟨hk, he.nodup⟩, fun k' c' p' => ?_⟩
  rw [List.mem_cons]
  by_cases hkk : k' = k
  · subst hkk
    rw [Finmap.lookup_insert]
    constructor
    · rintro ⟨w, hw⟩
      cases hw
      exact Or.inl rfl
    · rintro (hq | hq)
      · cases hq
        exact ⟨v, rfl⟩
      · exact absurd (List.mem_map_of_mem (f := fun q : Ptr × FrePtr × ℕ => q.2.2) hq) hk
  · rw [Finmap.lookup_insert_of_ne _ hkk, he.lookup]
    constructor
    · exact Or.inr
    · rintro (hq | hq)
      · cases hq; exact absurd rfl hkk
      · exact hq

theorem Entries.erase (he : Entries m ((c, p, k) :: Q)) : Entries (m.erase k) Q := by
  have hk := he.head_notMem
  refine ⟨(List.nodup_cons.mp he.nodup).2, fun k' c' p' => ?_⟩
  by_cases hkk : k' = k
  · subst hkk
    rw [Finmap.lookup_erase]
    exact iff_of_false (by simp)
      fun hq => hk (List.mem_map_of_mem (f := fun q : Ptr × FrePtr × ℕ => q.2.2) hq)
  · rw [Finmap.lookup_erase_ne hkk, he.lookup, List.mem_cons]
    constructor
    · rintro (hq | hq)
      · cases hq; exact absurd rfl hkk
      · exact hq
    · exact Or.inr

/-- The entry of a key gets another class. -/
theorem Entries.move (he : Entries m ((c, p, k) :: Q)) (v : V) (d : Ptr) :
    Entries (m.insert k ⟨v, d, p⟩) ((d, p, k) :: Q) := by
  have h1 := he.erase.add (k := k) (fun hk => (Finmap.mem_erase.mp hk).1 rfl) v d p
  have h2 : (m.erase k).insert k ⟨v, d, p⟩ = m.insert k ⟨v, d, p⟩ := by
    refine Finmap.ext_lookup fun x => ?_
    by_cases hx : x = k
    · rw [hx, Finmap.lookup_insert, Finmap.lookup_insert]
    · rw [Finmap.lookup_insert_of_ne _ hx, Finmap.lookup_insert_of_ne _ hx,
        Finmap.lookup_erase_ne hx]
  rwa [h2] at h1

end Entries

namespace LFUCore

/-- The addresses from `fresh` on are not in use. -/
def Unused (σ : LFUCore V) : Prop := ∀ i, σ.classes.Live (.node i) ∨ σ.rings.Live (.node i) ∨
  σ.rings.Live (.list (.node i)) → i < σ.fresh

/-- A cache and its classes. -/
structure Rep (fh : Bool) (σ : LFUCore V) (F L : List FreClass) : Prop where
  lists : ClassLists fh σ.classes F L
  rings : Rings σ.rings (F ++ L)
  entries : Entries σ.m_map (rows (F ++ L))
  fresh : Unused σ

/-- The value stored under a key. -/
def value (σ : LFUCore V) (k : ℕ) : Option V := (σ.m_map.lookup k).map LFUValue.val

/-- The class before the last of `A` is ahead of frequency `f` by more than one; if there is none,
    there is room as well. -/
def Ahead (A : List FreClass) (f : ℤ) : Prop := ∀ d ∈ A.getLast?, f + 1 < d.fre

/-- What a hit on `k` does to the main list; `new` is the address of the next class. -/
inductive Bump (new : Ptr) (k : ℕ) : List FreClass → List FreClass → Prop
  | alone {A B : List FreClass} {c : FreClass} {p : FrePtr} : Ahead A c.fre → c.ring = [(p, k)] →
      Bump new k (A ++ c :: B) (A ++ ⟨c.node, c.fre + 1, c.ring⟩ :: B)
  | split {A B : List FreClass} {c : FreClass} {p : FrePtr} {R R' : List (FrePtr × ℕ)} :
      Ahead A c.fre →
      c.ring = R ++ (p, k) :: R' → R ++ R' ≠ [] →
      Bump new k (A ++ c :: B) (A ++ ⟨new, c.fre + 1, [(p, k)]⟩ :: ⟨c.node, c.fre, R ++ R'⟩ :: B)
  | join {A B : List FreClass} {c d : FreClass} {p : FrePtr} {R R' : List (FrePtr × ℕ)} :
      d.fre = c.fre + 1 →
      c.ring = R ++ (p, k) :: R' → R ++ R' ≠ [] →
      Bump new k (A ++ d :: c :: B) (A ++ ⟨d.node, d.fre, (p, k) :: d.ring⟩ ::
        ⟨c.node, c.fre, R ++ R'⟩ :: B)
  | leave {A B : List FreClass} {c d : FreClass} {p : FrePtr} : d.fre = c.fre + 1 →
      c.ring = [(p, k)] →
      Bump new k (A ++ d :: c :: B) (A ++ ⟨d.node, d.fre, (p, k) :: d.ring⟩ :: B)

/-- Where a new key goes: into the last class if its frequency is 1, else into a new last class. -/
inductive Opened (new : Ptr) (x : FrePtr × ℕ) : List FreClass → List FreClass → Prop
  | old {A : List FreClass} {c : FreClass} :
      c.fre = 1 → Opened new x (A ++ [c]) (A ++ [⟨c.node, 1, x :: c.ring⟩])
  | new {L : List FreClass} : (∀ c ∈ L.getLast?, c.fre ≠ 1) → Opened new x L (L ++ [⟨new, 1, [x]⟩])

/-- What a call leaves alone. -/
structure Same (σ σ' : LFUCore V) : Prop where
  n : σ'.n = σ.n
  s : σ'.s = σ.s
  value : ∀ k, σ'.value k = σ.value k

variable {fh : Bool} {σ σ' : LFUCore V} {F L A B : List FreClass} {c d : FreClass} {e : LFUValue V}
variable {R R' : List (FrePtr × ℕ)} {p : FrePtr} {k : ℕ}

theorem Same.refl (σ : LFUCore V) : Same σ σ := ⟨rfl, rfl, fun _ => rfl⟩

theorem mem_iff_value (σ : LFUCore V) (k : ℕ) : k ∈ σ.m_map ↔ (σ.value k).isSome = true := by
  rw [value, Option.isSome_map, Option.isSome_iff_exists, Finmap.mem_iff]

theorem Same.keys (hs : Same σ σ') : σ'.m_map.keys = σ.m_map.keys := by
  ext k
  rw [Finmap.mem_keys, Finmap.mem_keys, mem_iff_value, mem_iff_value, hs.value]

theorem value_move (he : σ.m_map.lookup k = some e) (d : Ptr) (k' : ℕ) :
    ((σ.m_map.insert k { e with listNode := d }).lookup k').map LFUValue.val = σ.value k' := by
  by_cases hk : k' = k
  · subst hk
    rw [Finmap.lookup_insert, value, he]
    rfl
  · rw [Finmap.lookup_insert_of_ne _ hk]
    rfl

/-- The freshly allocated cache has no class. -/
theorem rep_init (capacity : ℕ) : Rep false (init capacity : LFUCore V) [] [] := by
  refine ⟨⟨⟨?_, by simp, by simp, id, id⟩, nofun, fun _ => rfl, by simp, by simp, rfl, rfl⟩, ?_, ?_,
    ?_⟩
  · exact List.isChain_pair.mpr ⟨by simp [init], by simp [init]⟩
  · refine ⟨by simp, by simp, by simp, by simp, by simp, by simp, by simp [init, blank], ?_⟩
    simp [init, Heap.Live, Heap.put, Heap.empty]
  · exact ⟨by simp, fun k c p => by simp [init]⟩
  · intro i hi
    simp [init, Heap.Live, Heap.put, Heap.empty] at hi

/-- The class of a key of the main list. -/
theorem Rep.locate (hr : Rep fh σ F L) (hk : k ∈ σ.m_map) (hF : k ∉ (rows F).map fun q => q.2.2) :
    ∃ A c B R p R', L = A ++ c :: B ∧ c.ring = R ++ (p, k) :: R' := by
  rw [hr.entries.mem_iff, rows_append, List.map_append, List.mem_append] at hk
  obtain ⟨⟨a, p, k'⟩, hq, rfl⟩ := List.mem_map.mp (hk.resolve_left hF)
  obtain ⟨c, hc, hx⟩ := List.mem_flatMap.mp hq
  obtain ⟨x, hx, he⟩ := List.mem_map.mp hx
  obtain ⟨A, B, rfl⟩ := List.append_of_mem hc
  obtain ⟨R, R', hring⟩ := List.append_of_mem hx
  cases he
  exact ⟨A, c, B, R, p, R', rfl, hring⟩

/-! ### A hit -/

/-- The entry of a key that is in the ring of a class. -/
theorem Rep.entry (hr : Rep fh σ F (A ++ c :: B)) (hring : c.ring = R ++ (p, k) :: R')
    (he : σ.m_map.lookup k = some e) : e.listNode = c.node ∧ e.freNode = p := by
  have hrow : (c.node, p, k) ∈ rows (F ++ (A ++ c :: B)) := by
    simp only [rows_append, rows_cons, hring, List.map_append, List.map_cons, List.mem_append,
      List.mem_cons]
    tauto
  obtain ⟨v, hl⟩ := (hr.entries.lookup k c.node p).mpr hrow
  rw [he] at hl
  cases hl
  exact ⟨rfl, rfl⟩

/-- The previous class, or `m_head`. -/
theorem Rep.prev (hr : Rep fh σ F (A ++ c :: B)) :
    σ.classes.prev c.node = some ((A.map FreClass.node).getLastD .m_head) ∧
      ((A = [] ∧ (A.map FreClass.node).getLastD .m_head = .m_head) ∨
        ∃ A' d, A = A' ++ [d] ∧ (A.map FreClass.node).getLastD .m_head = d.node ∧
        d.node ≠ .m_head) := by
  have hmain := hr.lists.main
  rw [List.map_append, List.map_cons] at hmain
  refine ⟨hmain.seg.prev_mid, ?_⟩
  rcases A.eq_nil_or_concat with rfl | ⟨A', d, rfl⟩
  · exact Or.inl ⟨rfl, rfl⟩
  · refine Or.inr ⟨A', d, by simp, by simp, (hmain.node d.node (by simp)).ne_of_not id⟩

/-- The frequency of one class is set. -/
theorem Rep.setFre (hr : Rep fh σ F (A ++ c :: B)) (f : ℤ) :
    ∃ h', σ.classes.setVal c.node f = .ok h' ∧
    Rep fh { σ with classes := h' } F (A ++ ⟨c.node, f, c.ring⟩ :: B) := by
  obtain ⟨h', hset, hl', hlive⟩ := hr.lists.setFre f c.ring
  refine ⟨h', hset, hl', hr.rings.congr (by simp), ?_, fun i hi => ?_⟩
  · have := hr.entries
    simpa using this
  · rw [hlive] at hi
    exact hr.fresh i hi

/-- A class of its own is counted up in place. -/
theorem Rep.raise_alone (hr : Rep fh σ F (A ++ c :: B)) (hring : c.ring = [(p, k)])
    (he : σ.m_map.lookup k = some e) :
    ∃ σ', raise σ k e c.fre = .ok σ' ∧ Rep fh σ' F (A ++ ⟨c.node, c.fre + 1, c.ring⟩ :: B) ∧
    Same σ σ' := by
  obtain ⟨h1, h2⟩ := hr.entry (R := []) hring he
  have hc : c ∈ F ++ (A ++ c :: B) := by simp
  have hR := hr.rings.ring c hc
  have hptrs : c.ptrs = [] ++ p :: [] := by simp [FreClass.ptrs, hring]
  rw [hptrs] at hR
  have hnode := hr.rings.isNode c hc p (by simp [hptrs])
  obtain ⟨h', hset, hr'⟩ := hr.setFre (c.fre + 1)
  refine ⟨{ σ with classes := h' }, ?_, hr', ⟨rfl, rfl, fun _ => rfl⟩⟩
  simp only [raise, h1, h2, Heap.getPrev_eq hR.seg.prev_mid, Heap.getNext_eq hR.seg.next_mid,
    ok_bind, List.getLastD_nil, List.headD_nil, if_true, assert_of (hnode.ne_list c.node), hset,
    pure_eq_ok]

/-- One class in front, the others behind it. -/
theorem perm_front (F A B : List FreClass) (c : FreClass) :
    (F ++ (A ++ c :: B)).Perm (c :: (F ++ (A ++ B))) := by
  rw [← List.append_assoc, ← List.append_assoc]
  exact List.perm_middle

/-- The row of one key in front. -/
theorem rows_take (F A B : List FreClass) (a : Ptr) (f g : ℤ) (R R' : List (FrePtr × ℕ))
    (x : FrePtr × ℕ) :
    (rows (F ++ (A ++ ⟨a, f, R ++ x :: R'⟩ :: B))).Perm
    ((a, x) :: rows (F ++ (A ++ ⟨a, g, R ++ R'⟩ :: B))) := by
  simp only [rows_append, rows_cons, List.map_append, List.map_cons, List.append_assoc,
    List.cons_append]
  rw [← List.append_assoc, ← List.append_assoc, ← List.append_assoc (rows F), ← List.append_assoc
    (rows F ++ rows A)]
  exact List.perm_middle

/-- Where a new class is split off: the ring node moves to the ring of the new class, and
    `pushForward` is left to do. -/
theorem Rep.raise_split_eq (hr : Rep fh σ F (A ++ c :: B)) (hring : c.ring = R ++ (p, k) :: R')
    (hne : R ++ R' ≠ []) (he : σ.m_map.lookup k = some e) :
    ∃ r, Rings r (⟨.node σ.fresh, toInt (c.fre + 1), [(p, k)]⟩ :: ⟨c.node, c.fre, R ++ R'⟩ ::
      (F ++ (A ++ B))) ∧
      (∀ q, r.Live q ↔ q = .list (.node σ.fresh) ∨ σ.rings.Live q) ∧
      raise σ k e c.fre = pushForward
      (σ.classes.put (.node σ.fresh) (some ⟨.null, .null, toInt (c.fre + 1)⟩)) c.node
        (.node σ.fresh) >>= fun h => .ok
          ⟨σ.n, σ.s, σ.m_map.insert k { e with listNode := .node σ.fresh }, h, r, σ.fresh + 1⟩ := by
  obtain ⟨h1, h2⟩ := hr.entry hring he
  obtain ⟨node, fre, ring⟩ := c
  dsimp only at hring h1 ⊢
  subst hring
  have hc : (⟨node, fre, R ++ (p, k) :: R'⟩ : FreClass) ∈
    F ++ (A ++ ⟨node, fre, R ++ (p, k) :: R'⟩ :: B) := by simp
  have hR := hr.rings.ring _ hc
  have hptrs : (⟨node, fre, R ++ (p, k) :: R'⟩ : FreClass).ptrs = R.map Prod.fst ++ p :: R'.map
      Prod.fst := by
    simp [FreClass.ptrs]
  rw [hptrs] at hR
  have hnb : ¬ (R.map Prod.fst).getLastD (.list node) = (R'.map Prod.fst).headD (.list node) := by
    rw [hR.neighbours_eq]
    rintro ⟨ha, hb⟩
    rw [List.map_eq_nil_iff] at ha hb
    exact hne (by rw [ha, hb]; rfl)
  have hdead : ¬ σ.rings.Live (.list (.node σ.fresh)) :=
    fun h => absurd (hr.fresh _ (Or.inr (Or.inr h))) (lt_irrefl _)
  -- out of the old ring
  obtain ⟨r₁, hd, hr₁, hv₁, hvp, hpn, hout⟩ := (hr.rings.perm (perm_front F A B _)).take
  have hl₁ : ∀ q, r₁.Live q ↔ σ.rings.Live q := fun q => by
    rw [Heap.live_iff_val, Heap.live_iff_val, hv₁]
  -- into the new one
  have hr₂ := hr₁.new (a := .node σ.fresh) (by rwa [hl₁]) (toInt (fre + 1))
  generalize hr₂' : r₁.put (.list (.node σ.fresh))
    (some ⟨.list (.node σ.fresh), .list (.node σ.fresh), 0⟩) = r₂ at hr₂
  have hv₂ : ∀ q, q ≠ .list (.node σ.fresh) → r₂.val q = σ.rings.val q := fun q hq => by
    rw [← hr₂', Heap.val_put, if_neg hq, hv₁]
  have hl₂ : ∀ q, r₂.Live q ↔ q = .list (.node σ.fresh) ∨ σ.rings.Live q := fun q => by
    rw [← hr₂', Heap.live_put]
    by_cases hq : q = .list (.node σ.fresh)
    · simp [hq]
    · simp [hq, hl₁]
  obtain ⟨r₃, hpush, hr₃, hv₃⟩ :=
    hr₂.push (p := p) (k := k) (by rw [hv₂ p (hpn.ne_list _)]; exact hvp) hpn
    (by simpa [FreClass.ptrs] using hout)
  refine ⟨r₃, hr₃, fun q => ?_, ?_⟩
  · rw [Heap.live_iff_val, hv₃, ← Heap.live_iff_val, hl₂]
  · simp only [raise, h1, h2, Heap.getPrev_eq hR.seg.prev_mid, Heap.getNext_eq hR.seg.next_mid,
      ok_bind, if_neg hnb, hd, newListNode, hr₂', hpush, setListNode, pure_eq_ok]

/-- A new class is split off, if its frequency is right. -/
theorem Rep.raise_split (hr : Rep fh σ F (A ++ c :: B)) (hring : c.ring = R ++ (p, k) :: R')
    (hne : R ++ R' ≠ []) (he : σ.m_map.lookup k = some e) (hfit : toInt (c.fre + 1) = c.fre + 1) :
    ∃ σ', raise σ k e c.fre = .ok σ' ∧
      Rep fh σ' F (A ++ ⟨.node σ.fresh, c.fre + 1, [(p, k)]⟩ :: ⟨c.node, c.fre, R ++ R'⟩ :: B) ∧
      Same σ σ' := by
  obtain ⟨r, hrings, hlive, heq⟩ := hr.raise_split_eq hring hne he
  obtain ⟨-, h2⟩ := hr.entry hring he
  rw [hfit] at hrings heq
  obtain ⟨node, fre, ring⟩ := c
  dsimp only at hring heq hrings ⊢
  subst hring
  have hg : σ.classes.val node = some fre := hr.lists.fre ⟨node, fre, R ++ (p, k) :: R'⟩ (by simp)
  have hl : ClassLists fh σ.classes F (A ++ ⟨node, fre, R ++ R'⟩ :: B) := hr.lists.congr (by simp)
  have hdead : ¬ σ.classes.Live (.node σ.fresh) :=
    fun h => absurd (hr.fresh _ (Or.inl h)) (lt_irrefl _)
  obtain ⟨h', hfwd, hl', hlc⟩ :=
    hl.push (i := σ.fresh) (f := fre + 1) hdead (g := fre) hg (by omega) [(p, k)]
  rw [List.map_cons, List.headD_cons] at hfwd
  rw [heq, hfwd, ok_bind]
  refine ⟨_, rfl, ⟨hl', ?_, ?_, ?_⟩, rfl, rfl, value_move he _⟩
  · refine hrings.perm ?_
    rw [← List.append_assoc, ← List.append_assoc]
    refine (List.Perm.symm ?_)
    refine (List.perm_middle).trans (List.Perm.cons _ ?_)
    exact List.perm_middle
  · have hmv := (hr.entries.perm (rows_take F A B node fre fre R R' (p, k))).move e.val
      (.node σ.fresh)
    have hee : ({ e with listNode := .node σ.fresh } : LFUValue V) = ⟨e.val, .node σ.fresh, p⟩ := by
      rw [← h2]
    rw [hee]
    refine hmv.perm ?_
    simpa using (rows_take F A (⟨node, fre, R ++ R'⟩ :: B) (.node σ.fresh) (fre + 1) 0 []
      [] (p, k)).symm
  · intro i hi
    dsimp only at hi ⊢
    rw [hlc, hlive, hlive] at hi
    simp only [Ptr.node.injEq, reduceCtorEq, false_or, FrePtr.list.injEq] at hi
    by_cases hi' : i = σ.fresh
    · omega
    · have := hr.fresh i (by tauto)
      omega

/-- If the frequency has run out of `int`, the new class is not above the old one and `pushForward`
    aborts. -/
theorem Rep.raise_split_fails (hr : Rep fh σ F (A ++ c :: B)) (hring : c.ring = R ++ (p, k) :: R')
    (hne : R ++ R' ≠ []) (he : σ.m_map.lookup k = some e) (hover : toInt (c.fre + 1) ≤ c.fre) :
    raise σ k e c.fre = .error .assertion := by
  obtain ⟨r, -, -, heq⟩ := hr.raise_split_eq hring hne he
  have hnode := hr.lists.isNode (c := c) (by simp)
  have hfre := hr.lists.fre c (by simp)
  have hne : c.node ≠ .node σ.fresh := fun h =>
    absurd (hr.fresh _ (Or.inl (h ▸ Heap.live_of_val hfre))) (lt_irrefl _)
  have hnew : (σ.classes.put (.node σ.fresh) (some ⟨.null, .null, toInt (c.fre + 1)⟩)).val
      (.node σ.fresh) =
      some (toInt (c.fre + 1)) := by simp
  have hold : (σ.classes.put (.node σ.fresh) (some ⟨.null, .null, toInt (c.fre + 1)⟩)).val c.node =
      some c.fre := by
    rw [Heap.val_put, if_neg hne, hfre]
  have hlow : ¬ toInt (c.fre + 1) > c.fre := not_lt.mpr hover
  rw [heq, pushForward, assert_of (hnode.ne_of_not (a := .m_head) id), ok_bind, Heap.getVal_eq hnew,
    ok_bind, Heap.getVal_eq hold, ok_bind, assert, if_neg hlow]
  rfl

/-- `isEmpty` of a class. -/
theorem ringEmpty_eq {r : Heap FrePtr ℕ} {C : List FreClass} (hr : Rings r C) (hc : c ∈ C) :
    ringEmpty r c.node = .ok (decide (c.ring = [])) := by
  have hR := hr.ring c hc
  have hn := hR.seg.next_first
  have hp := hR.seg.prev_last
  rw [ringEmpty, Heap.getNext_eq hn, Heap.getPrev_eq hp]
  simp only [ok_bind, pure_eq_ok, Except.ok.injEq, decide_eq_decide]
  constructor
  · rintro ⟨h1, -⟩
    cases hptrs : c.ptrs with
    | nil => exact List.map_eq_nil_iff.mp hptrs
    | cons q Q =>
      rw [hptrs, List.headD_cons] at h1
      exact absurd h1 ((hr.isNode c hc q (by rw [hptrs]; simp)).ne_list _)
  · intro h0
    have : c.ptrs = [] := by rw [FreClass.ptrs, h0]; rfl
    rw [this]
    exact ⟨rfl, rfl⟩

/-- The key moves to the class before its own, which is deleted if it is empty then. -/
theorem Rep.join_ok (hr : Rep fh σ F (A ++ d :: c :: B)) (hring : c.ring = R ++ (p, k) :: R')
    (he : σ.m_map.lookup k = some e) :
    ∃ σ', join σ k e d.node = .ok σ' ∧ Same σ σ' ∧
      Rep fh σ' F (A ++ ⟨d.node, d.fre, (p, k) :: d.ring⟩ ::
        if R ++ R' = [] then B else ⟨c.node, c.fre, R ++ R'⟩ :: B) := by
  have hA : A ++ d :: c :: B = (A ++ [d]) ++ c :: B := by simp
  obtain ⟨h1, h2⟩ := Rep.entry (A := A ++ [d]) (hA ▸ hr) hring he
  obtain ⟨node, fre, ring⟩ := c
  dsimp only at hring h1 ⊢
  subst hring
  -- the rings: out of the old one, into that of `d`
  obtain ⟨r₁, hd, hr₁, hv₁, hvp, hpn, hout⟩ :=
    ((hA ▸ hr.rings).perm (perm_front F (A ++ [d]) B _)).take
  have hperm : (⟨node, fre, R ++ R'⟩ :: (F ++ (A ++ [d] ++ B)) : List FreClass).Perm
      (d :: ⟨node, fre, R ++ R'⟩ :: (F ++ (A ++ B))) := by
    refine (List.Perm.cons _ ?_).trans (List.Perm.swap _ _ _)
    have := perm_front F A B d
    rwa [List.append_assoc, List.singleton_append]
  have hr₁' := hr₁.perm hperm
  obtain ⟨r₂, hpush, hr₂, hv₂⟩ :=
    Rings.push (a := d.node) (f := d.fre) (R := d.ring) (p := p) (k := k) hr₁'
    (by rw [hv₁]; exact hvp) hpn (fun hc => hout ((hperm.flatMap_right _).mem_iff.mpr hc))
  have hl₂ : ∀ q, r₂.Live q ↔ σ.rings.Live q := fun q => by
    rw [Heap.live_iff_val, Heap.live_iff_val, hv₂, hv₁]
  have hempty := ringEmpty_eq hr₂ (c := ⟨node, fre, R ++ R'⟩) (by simp)
  dsimp only at hempty
  -- the entries
  have hent : Entries (σ.m_map.insert k { e with listNode := d.node })
      (rows (F ++ (A ++ ⟨d.node, d.fre, (p, k) :: d.ring⟩ :: ⟨node, fre, R ++ R'⟩ :: B))) := by
    have hmv := ((hA ▸ hr.entries).perm (rows_take F (A ++ [d]) B node fre fre R R' (p, k))).move
      e.val d.node
    have hee : ({ e with listNode := d.node } : LFUValue V) = ⟨e.val, d.node, p⟩ := by rw [← h2]
    rw [hee]
    refine hmv.perm ?_
    simpa using (rows_take F A (⟨node, fre, R ++ R'⟩ :: B) d.node d.fre d.fre [] d.ring (p, k)).symm
  by_cases h0 : R ++ R' = []
  · have hlists : ClassLists fh σ.classes F
      ((A ++ [⟨d.node, d.fre, (p, k) :: d.ring⟩]) ++ ⟨node, fre, []⟩ :: B) :=
      hr.lists.congr (by simp)
    obtain ⟨h', hdel, hl', hlive⟩ := hlists.delete
    rw [h0] at hr₂ hent
    refine ⟨⟨σ.n, σ.s, σ.m_map.insert k { e with listNode := d.node }, h'.free node,
      r₂.free (.list node), σ.fresh⟩, ?_, ⟨rfl, rfl, value_move he _⟩, ?_⟩
    · simp only [join, h1, h2, hd, ok_bind, setListNode, hpush, hempty, h0, decide_true, if_true,
        hdel, deleteListNode, pure_eq_ok]
    · rw [if_pos h0]
      refine ⟨by simpa using hl', ?_, by simpa using hent, fun i hi => ?_⟩
      · have hr₃ := (hr₂.perm (List.Perm.swap _ _ _)).delete
        exact hr₃.perm (perm_front F A B _).symm
      · refine hr.fresh i ?_
        rcases hi with hi | hi | hi
        · exact Or.inl (hlive _ hi)
        · exact Or.inr (Or.inl ((hl₂ _).mp (Heap.live_free.mp hi).2))
        · exact Or.inr (Or.inr ((hl₂ _).mp (Heap.live_free.mp hi).2))
  · refine ⟨⟨σ.n, σ.s, σ.m_map.insert k { e with listNode := d.node }, σ.classes, r₂, σ.fresh⟩, ?_,
      ⟨rfl, rfl, value_move he _⟩, ?_⟩
    · simp only [join, h1, h2, hd, ok_bind, setListNode, hpush, hempty, h0, decide_false,
        Bool.false_eq_true, if_false, pure_eq_ok]
    · rw [if_neg h0]
      refine ⟨hr.lists.congr (by simp), ?_, hent, fun i hi => ?_⟩
      · refine hr₂.perm ((List.Perm.cons _ ?_).trans
          (perm_front F A (⟨node, fre, R ++ R'⟩ :: B) _).symm)
        exact (perm_front F A B _).symm
      · rw [hl₂, hl₂] at hi
        exact hr.fresh i hi

/-- `touch` by what the test of the previous class amounts to. -/
theorem Rep.touch_eq (hr : Rep fh σ F (A ++ c :: B)) (hring : c.ring = R ++ (p, k) :: R')
    (he : σ.m_map.lookup k = some e) :
    ∃ g, σ.classes.val ((A.map FreClass.node).getLastD .m_head) = some g ∧
      (((A.map FreClass.node).getLastD .m_head = .m_head ∨ g > c.fre + 1) ↔ Ahead A c.fre) ∧
      touch σ k e = if (A.map FreClass.node).getLastD .m_head = .m_head ∨ g > c.fre + 1 then
      raise σ k e c.fre
        else if g ≤ c.fre then throw .assertion else
        join σ k e ((A.map FreClass.node).getLastD .m_head) := by
  obtain ⟨h1, h2⟩ := hr.entry hring he
  have hc : c ∈ F ++ (A ++ c :: B) := by simp
  have hR := hr.rings.ring c hc
  have hptrs : c.ptrs = R.map Prod.fst ++ p :: R'.map Prod.fst := by simp [FreClass.ptrs, hring]
  rw [hptrs] at hR
  have hprev0 : (R.map Prod.fst).getLastD (.list c.node) ≠ .null := by
    have hnull : FrePtr.null ∉ R.map Prod.fst := fun hm =>
      (hr.rings.isNode c hc _ (by rw [hptrs]; exact List.mem_append_left _ hm)).ne_null rfl
    exact (ne_getLastD (by simpa using hnull)).symm
  obtain ⟨hprev, hcase⟩ := hr.prev
  have hval : ∃ g, σ.classes.val ((A.map FreClass.node).getLastD .m_head) = some g ∧
      (((A.map FreClass.node).getLastD .m_head = .m_head ∨ g > c.fre + 1) ↔ Ahead A c.fre) := by
    rcases hcase with ⟨rfl, h0⟩ | ⟨A', d, rfl, hd, hne⟩
    · exact ⟨0, by rw [h0]; exact hr.lists.ends.1, iff_of_true (Or.inl h0) (by simp [Ahead])⟩
    · refine ⟨d.fre, by rw [hd]; exact hr.lists.fre d (by simp), ?_⟩
      simp [Ahead, hne]
  obtain ⟨g, hg, htest⟩ := hval
  refine ⟨g, hg, htest, ?_⟩
  simp only [LFUCore.touch, h1, h2, Heap.getVal_eq (hr.lists.fre c hc),
    Heap.getPrev_eq hR.seg.prev_mid, ok_bind, ne_eq, hprev0, not_false_eq_true, if_true,
    Heap.getPrev_eq hprev, Heap.getVal_eq hg]

/-- With room for a class of the next frequency the key is raised. -/
theorem Rep.touch_ahead (hr : Rep fh σ F (A ++ c :: B)) (hring : c.ring = R ++ (p, k) :: R')
    (he : σ.m_map.lookup k = some e) (hah : Ahead A c.fre) : touch σ k e = raise σ k e c.fre := by
  obtain ⟨g, -, htest, hstart⟩ := hr.touch_eq hring he
  rw [hstart, if_pos (htest.mpr hah)]

/-- If the class before has the next frequency the key moves there. -/
theorem Rep.touch_next (hr : Rep fh σ F (A ++ d :: c :: B)) (hring : c.ring = R ++ (p, k) :: R')
    (he : σ.m_map.lookup k = some e) (hfre : d.fre = c.fre + 1) :
    touch σ k e = join σ k e d.node := by
  have hA : A ++ d :: c :: B = (A ++ [d]) ++ c :: B := by simp
  have hlast : ((A ++ [d]).map FreClass.node).getLastD .m_head = d.node := by simp
  obtain ⟨g, hg, htest, hstart⟩ := Rep.touch_eq (hA ▸ hr) hring he
  rw [hlast, hr.lists.fre d (by simp), Option.some_inj] at hg
  subst hg
  have hah : ¬ Ahead (A ++ [d]) c.fre := by simp [Ahead, hfre]
  rw [hstart, if_neg (fun h => hah (htest.mp h)), if_neg (by omega), hlast]

/-- A hit on a key of the main list. The class before its own has a higher frequency, and where a
    class is split off its frequency fits in an `int`. -/
theorem Rep.touch (hr : Rep fh σ F (A ++ c :: B)) (hring : c.ring = R ++ (p, k) :: R')
    (he : σ.m_map.lookup k = some e) (hdec : ∀ d ∈ A.getLast?, c.fre < d.fre)
    (hfit : Ahead A c.fre → R ++ R' ≠ [] → toInt (c.fre + 1) = c.fre + 1) :
    ∃ σ' L', touch σ k e = .ok σ' ∧ Bump (.node σ.fresh) k (A ++ c :: B) L' ∧ Rep fh σ' F L' ∧
    Same σ σ' := by
  by_cases hah : Ahead A c.fre
  · rw [hr.touch_ahead hring he hah]
    by_cases h0 : R ++ R' = []
    · obtain ⟨rfl, rfl⟩ := List.append_eq_nil_iff.mp h0
      obtain ⟨σ', hs, hr', hsame⟩ := hr.raise_alone hring he
      exact ⟨σ', _, hs, .alone hah hring, hr', hsame⟩
    · obtain ⟨σ', hs, hr', hsame⟩ := hr.raise_split hring h0 he (hfit hah h0)
      exact ⟨σ', _, hs, .split hah hring h0, hr', hsame⟩
  · obtain ⟨-, ⟨rfl, -⟩ | ⟨A', d, rfl, -, -⟩⟩ := hr.prev
    · exact absurd (by simp [Ahead]) hah
    · have hlt := hdec d (by simp)
      have hfre : d.fre = c.fre + 1 := by
        have : ¬ c.fre + 1 < d.fre := by simpa [Ahead] using hah
        omega
      have hA : A' ++ [d] ++ c :: B = A' ++ d :: c :: B := by simp
      rw [hA] at hr ⊢
      rw [hr.touch_next hring he hfre]
      obtain ⟨σ', hs, hsame, hr'⟩ := hr.join_ok hring he
      by_cases h0 : R ++ R' = []
      · obtain ⟨rfl, rfl⟩ := List.append_eq_nil_iff.mp h0
        exact ⟨σ', _, hs, .leave hfre hring, by simpa using hr', hsame⟩
      · rw [if_neg h0] at hr'
        exact ⟨σ', _, hs, .join hfre hring h0, hr', hsame⟩

/-- A hit that would have to split a class off beyond the range of `int` aborts. -/
theorem Rep.touch_fails (hr : Rep fh σ F (A ++ c :: B)) (hring : c.ring = R ++ (p, k) :: R')
    (he : σ.m_map.lookup k = some e) (hah : Ahead A c.fre) (hne : R ++ R' ≠ [])
    (hover : toInt (c.fre + 1) ≤ c.fre) :
    LFUCore.touch σ k e = .error .assertion := by
  rw [hr.touch_ahead hring he hah]
  exact hr.raise_split_fails hring hne he hover

/-! ### A new key -/

theorem Opened.shape {new : Ptr} {x : FrePtr × ℕ} {L' : List FreClass} (ho : Opened new x L L') :
    ∃ A a R, L' = A ++ [⟨a, 1, x :: R⟩] := by
  cases ho with
  | old h => exact ⟨_, _, _, rfl⟩
  | new h => exact ⟨_, _, _, rfl⟩

theorem Opened.of_nil {new : Ptr} {x : FrePtr × ℕ} {L' : List FreClass} (ho : Opened new x [] L') :
    L' = [⟨new, 1, [x]⟩] := by
  generalize hL : [] = L at ho
  cases ho with
  | old h => exact absurd hL (by simp)
  | new h => rw [← hL]; rfl

theorem Opened.of_one {new a : Ptr} {x : FrePtr × ℕ} {L' : List FreClass}
    (ho : Opened new x [⟨a, 1, R⟩] L') :
    L' = [⟨a, 1, x :: R⟩] := by
  generalize hL : [(⟨a, 1, R⟩ : FreClass)] = L at ho
  cases ho with
  | old h =>
    obtain ⟨rfl, hc⟩ := (List.append_eq_singleton_iff.mp hL.symm).resolve_right (by simp)
    cases hc
    rfl
  | new h => exact absurd rfl (h ⟨a, 1, R⟩ (by simp [← hL]))

/-- The node of `x` has gone into the class at `a`: `σ` before, `σ'` after. -/
structure Enclassed (fh : Bool) (σ σ' : LFUCore V) (F L L' : List FreClass) (a : Ptr)
    (x : FrePtr × ℕ) : Prop where
  opened : Opened (.node σ.fresh) x L L'
  lists : ClassLists fh σ'.classes F L'
  rings : Rings σ'.rings (F ++ L')
  fresh : Unused σ'
  added : (rows (F ++ L')).Perm ((a, x) :: rows (F ++ L))
  m_map : σ'.m_map = σ.m_map
  n : σ'.n = σ.n
  s : σ'.s = σ.s

/-- The last class has frequency 1 and takes the node. -/
theorem classOne_old (hl : ClassLists fh σ.classes F (A ++ [c]))
    (hr : Rings σ.rings (F ++ (A ++ [c]))) (hu : Unused σ) (hv : σ.rings.val p = some k)
    (hp : p.IsNode) (hnew : p ∉ (F ++ (A ++ [c])).flatMap FreClass.ptrs) (h1 : c.fre = 1) :
    ∃ σ' L', classOne σ p = .ok (c.node, σ') ∧ Enclassed fh σ σ' F (A ++ [c]) L' c.node (p, k) := by
  have hprev := hl.main.seg.prev_last
  have hlast : ((A ++ [c]).map FreClass.node).getLastD .m_head = c.node := by simp
  rw [hlast] at hprev
  have hval : σ.classes.val c.node = some 1 := by
    rw [← h1]
    exact hl.fre c (by simp)
  have hperm := perm_front F A [] c
  obtain ⟨r, hpush, hr', hv'⟩ :=
    Rings.push (a := c.node) (f := c.fre) (R := c.ring) (p := p) (k := k)
    (hr.perm hperm) hv hp (fun hc => hnew ((hperm.flatMap_right _).mem_iff.mpr hc))
  refine ⟨{ σ with rings := r }, A ++ [⟨c.node, 1, (p, k) :: c.ring⟩], ?_,
    .old h1, hl.congr (by simp [h1]), ?_, fun i hi => hu i ?_, ?_, rfl, rfl, rfl⟩
  · simp only [classOne, Heap.getPrev_eq hprev, Heap.getVal_eq hval, ok_bind, if_true, hpush,
      pure_eq_ok]
  · rw [h1] at hr'
    exact hr'.perm (perm_front F A [] _).symm
  · simpa only [Heap.live_iff_val, hv'] using hi
  · simpa using rows_take F A [] c.node 1 c.fre [] c.ring (p, k)

/-- The frequency that `insert` compares with 1 when no class has it. -/
theorem last_fre_ne_one (hl : ClassLists fh σ.classes F L) (hone : ∀ c ∈ L.getLast?, c.fre ≠ 1) :
    ∃ f, σ.classes.val ((L.map FreClass.node).getLastD .m_head) = some f ∧ f ≠ 1 := by
  rcases L.eq_nil_or_concat with rfl | ⟨A, c, rfl⟩
  · exact ⟨0, hl.ends.1, by decide⟩
  · have hlast : ((A.concat c).map FreClass.node).getLastD .m_head = c.node := by simp
    rw [hlast]
    exact ⟨c.fre, hl.fre c (by simp), hone c (by simp)⟩

/-- A new class with its ring is at the next address. -/
theorem Unused.newClass {h : Heap Ptr ℤ} {r : Heap FrePtr ℕ} (hu : Unused σ)
    (hh : ∀ q, h.Live q ↔ q = .node σ.fresh ∨ σ.classes.Live q)
    (hv : ∀ q, q ≠ .list (.node σ.fresh) → r.val q = σ.rings.val q) :
    Unused { σ with classes := h, rings := r, fresh := σ.fresh + 1 } := by
  intro i hi
  by_cases hif : i = σ.fresh
  · exact hif ▸ Nat.lt_succ_self _
  · refine Nat.lt_succ_of_lt (hu i ?_)
    simp only [Heap.live_iff_val, hv (.node i) (by simp), hv (.list (.node i)) (by simpa using hif)]
      at hi ⊢
    exact hi.imp_left fun hc => Heap.live_iff_val.mp
      (((hh _).mp (Heap.live_iff_val.mpr hc)).resolve_left (by simpa using hif))

/-- No class has frequency 1: a new last one takes the node. -/
theorem classOne_new (hl : ClassLists fh σ.classes F L) (hr : Rings σ.rings (F ++ L))
    (hu : Unused σ) (hv : σ.rings.val p = some k) (hp : p.IsNode)
    (hnew : p ∉ (F ++ L).flatMap FreClass.ptrs) (hone : ∀ c ∈ L.getLast?, c.fre ≠ 1) :
    ∃ σ' L', classOne σ p = .ok (.node σ.fresh, σ') ∧
      Enclassed fh σ σ' F L L' (.node σ.fresh) (p, k) := by
  have hprev := hl.main.seg.prev_last
  obtain ⟨f, hf, hf1⟩ := last_fre_ne_one hl hone
  have hdead : ¬ σ.classes.Live (.node σ.fresh) :=
    fun h => absurd (hu σ.fresh (Or.inl h)) (lt_irrefl _)
  have hr₁ := hr.new (fun h => absurd (hu σ.fresh (Or.inr (Or.inr h))) (lt_irrefl _)) 1
  generalize hr₁' : σ.rings.put (.list (.node σ.fresh))
    (some ⟨.list (.node σ.fresh), .list (.node σ.fresh), 0⟩) = r₁ at hr₁
  have hv₁ : ∀ q, q ≠ .list (.node σ.fresh) → r₁.val q = σ.rings.val q := fun q hq => by
    rw [← hr₁', Heap.val_put, if_neg hq]
  obtain ⟨r₂, hpush, hr₂, hv₂⟩ := hr₁.push (p := p) (k := k)
    (by rw [hv₁ p (hp.ne_list _)]; exact hv) hp (by simpa [FreClass.ptrs] using hnew)
  have hlL : ClassLists fh σ.classes F (L ++ []) := by rwa [List.append_nil]
  obtain ⟨h', hfwd, hl', hlc⟩ :=
    hlL.push (i := σ.fresh) (f := 1) (g := 0) hdead hl.ends.2 (by decide) [(p, k)]
  rw [List.map_nil, List.headD_nil] at hfwd
  have hone' : toInt 1 = 1 := by decide
  refine ⟨{ σ with classes := h', rings := r₂, fresh := σ.fresh + 1 },
    L ++ [⟨.node σ.fresh, 1, [(p, k)]⟩], ?_, .new hone, hl', hr₂.perm (List.Perm.symm ?_),
    hu.newClass hlc fun q hq => (hv₂ q).trans (hv₁ q hq), ?_, rfl, rfl, rfl⟩
  · simp only [classOne, Heap.getPrev_eq hprev, Heap.getVal_eq hf, ok_bind, if_neg hf1, newListNode,
      hr₁', hpush, hone', hfwd, pure_eq_ok]
  · have := perm_front F L [] ⟨.node σ.fresh, 1, [(p, k)]⟩
    rwa [List.append_nil] at this
  · simpa using rows_take F L [] (.node σ.fresh) 1 1 [] [] (p, k)

/-- A node that is in no ring goes into the class of frequency 1. -/
theorem classOne_ok (hl : ClassLists fh σ.classes F L) (hr : Rings σ.rings (F ++ L)) (hu : Unused σ)
    (hv : σ.rings.val p = some k) (hp : p.IsNode) (hnew : p ∉ (F ++ L).flatMap FreClass.ptrs) :
    ∃ a σ' L', classOne σ p = .ok (a, σ') ∧ Enclassed fh σ σ' F L L' a (p, k) := by
  by_cases hone : ∀ c ∈ L.getLast?, c.fre ≠ 1
  · exact ⟨_, classOne_new hl hr hu hv hp hnew hone⟩
  · push Not at hone
    obtain ⟨c, hc, h1⟩ := hone
    obtain ⟨A, rfl⟩ := List.getLast?_eq_some_iff.mp hc
    exact ⟨_, classOne_old hl hr hu hv hp hnew h1⟩

/-- The eviction takes the last key of the last class out. -/
theorem Rep.evict {a : Ptr} {f : ℤ} {y : FrePtr × ℕ} (hr : Rep fh σ F (A ++ [⟨a, f, R ++ [y]⟩])) :
    ∃ σ', evict σ = .ok (true, σ') ∧ Rep fh σ' F (A ++ [⟨a, f, R⟩]) ∧ σ'.n = σ.n ∧ σ'.s = σ.s ∧
      σ'.m_map = σ.m_map.erase y.2 := by
  have hprev := hr.lists.main.seg.prev_last
  have hlast : ((A ++ [(⟨a, f, R ++ [y]⟩ : FreClass)]).map FreClass.node).getLastD .m_head = a := by
    simp
  rw [hlast] at hprev
  have hc : (⟨a, f, R ++ [y]⟩ : FreClass) ∈ F ++ (A ++ [⟨a, f, R ++ [y]⟩]) := by simp
  have hnode := hr.lists.isNode hc
  have hR := (hr.rings.ring _ hc).seg.prev_last
  have hlast' : (⟨a, f, R ++ [y]⟩ : FreClass).ptrs.getLastD (.list a) = y.1 := by
    simp [FreClass.ptrs]
  dsimp only at hR
  rw [hlast'] at hR
  have hfront : Rings σ.rings (⟨a, f, R ++ y :: []⟩ :: (F ++ (A ++ []))) :=
    hr.rings.perm (perm_front F A [] _)
  obtain ⟨r, hd, hr', hv, hvy, hyn, hout⟩ := hfront.take
  rw [List.append_nil] at hr' hout
  have hent := hr.entries.perm (rows_take F A [] a f f R [] y)
  rw [List.append_nil] at hent
  have hlook := (hent.lookup y.2 a y.1).mpr List.mem_cons_self
  obtain ⟨v, hlook⟩ := hlook
  refine ⟨{ σ with rings := r.free y.1, m_map := σ.m_map.erase y.2 }, ?_,
    ⟨?_, ?_, hent.erase, fun i hi => ?_⟩, rfl, rfl, rfl⟩
  · simp only [LFUCore.evict, Heap.getPrev_eq hprev, ok_bind,
      assert_of (hnode.ne_of_not (a := .m_head) id), Heap.getPrev_eq hR, assert_of (hyn.ne_list a),
      hd, Heap.getVal_eq ((hv y.1).trans hvy), hlook, pure_eq_ok]
  · exact hr.lists.congr (by simp)
  · refine (hr'.put (fun c hc hm => ?_) (hyn.ne_list _) hyn.ne_null none).perm
      (perm_front F A [] _).symm
    rcases List.mem_cons.mp hm with hm | hm
    · exact hyn.ne_list _ hm
    · exact hout (List.mem_flatMap.mpr ⟨c, hc, hm⟩)
  · refine hr.fresh i ?_
    dsimp only at hi
    rw [Heap.live_free, Heap.live_free] at hi
    simp only [Heap.live_iff_val, hv] at hi ⊢
    tauto

/-- `insert` of a present key allocates and releases a ring node. -/
theorem Rep.present (hr : Rep fh σ F L) (k : ℕ) :
    Rep fh { newFreNode σ k with rings := (newFreNode σ k).rings.free (.node σ.fresh) } F L := by
  have hoff : ∀ c ∈ F ++ L, FrePtr.node σ.fresh ∉ FrePtr.list c.node :: c.ptrs := fun c hc hm =>
    absurd (hr.fresh _ (Or.inr (Or.inl (hr.rings.live hc hm)))) (lt_irrefl _)
  refine ⟨hr.lists, (hr.rings.put hoff nofun nofun _).put hoff nofun nofun none, hr.entries,
    fun i hi => ?_⟩
  have hi' : σ.classes.Live (.node i) ∨ σ.rings.Live (.node i) ∨
      σ.rings.Live (.list (.node i)) := by
    simp only [newFreNode, Heap.live_free, Heap.live_put, reduceCtorEq, if_false] at hi
    rcases hi with hi | ⟨hne, hi⟩ | ⟨-, hi⟩
    · exact Or.inl hi
    · rw [if_neg hne] at hi
      exact Or.inr (Or.inl hi)
    · exact Or.inr (Or.inr hi)
  exact Nat.lt_succ_of_lt (hr.fresh i hi')

/-- The value of each key after `k` was stored with `v`. -/
theorem value_insert (m : Finmap fun _ : ℕ => LFUValue V) (k : ℕ) (e : LFUValue V) (k' : ℕ) :
    ((m.insert k e).lookup k').map LFUValue.val = if k' = k then some e.val else
    (m.lookup k').map LFUValue.val := by
  by_cases hk : k' = k
  · rw [if_pos hk, hk, Finmap.lookup_insert]; rfl
  · rw [if_neg hk, Finmap.lookup_insert_of_ne _ hk]

/-- The value of each key after `k` was taken out. -/
theorem value_erase (m : Finmap fun _ : ℕ => LFUValue V) (k k' : ℕ) :
    ((m.erase k).lookup k').map LFUValue.val = if k' = k then none else
    (m.lookup k').map LFUValue.val := by
  by_cases hk : k' = k
  · rw [if_pos hk, hk, Finmap.lookup_erase]; rfl
  · rw [if_neg hk, Finmap.lookup_erase_ne hk]

theorem Unused.newFreNode (hu : Unused σ) (k : ℕ) : Unused (newFreNode σ k) := by
  intro i hi
  by_cases hif : i = σ.fresh
  · exact hif ▸ Nat.lt_succ_self _
  · refine Nat.lt_succ_of_lt (hu i ?_)
    simpa only [LFUCore.newFreNode, Heap.live_put, reduceCtorEq, if_false, FrePtr.node.injEq,
      if_neg hif]
      using hi

/-- The first part of `insert` of an absent key: its new node goes into the class of frequency 1,
    and its entry gets the class. -/
theorem Rep.classOne (hr : Rep fh σ F L) (hk : k ∉ σ.m_map) (v : V) :
    ∃ a σ₂ A a' R,
      LFUCore.classOne { newFreNode σ k with m_map := σ.m_map.insert k ⟨v, .null, .node σ.fresh⟩ }
        (.node σ.fresh) = .ok (a, σ₂) ∧
      Opened (.node (σ.fresh + 1)) (.node σ.fresh, k) L (A ++ [⟨a', 1, (.node σ.fresh, k) :: R⟩]) ∧
      Rep fh (setListNode σ₂ k ⟨v, .null, .node σ.fresh⟩ a) F
        (A ++ [⟨a', 1, (.node σ.fresh, k) :: R⟩]) ∧
      σ₂.n = σ.n ∧ σ₂.s = σ.s ∧ ∀ k', (setListNode σ₂ k ⟨v, .null, .node σ.fresh⟩ a).value k' =
        if k' = k then some v else σ.value k' := by
  have hoff : ∀ c ∈ F ++ L, FrePtr.node σ.fresh ∉ FrePtr.list c.node :: c.ptrs := fun c hc hm =>
    absurd (hr.fresh _ (Or.inr (Or.inl (hr.rings.live hc hm)))) (lt_irrefl _)
  have hnew : FrePtr.node σ.fresh ∉ (F ++ L).flatMap FreClass.ptrs := by
    intro hm
    obtain ⟨c, hc, hm⟩ := List.mem_flatMap.mp hm
    exact hoff c hc (List.mem_cons_of_mem _ hm)
  obtain ⟨a, σ₂, L', h1, hen⟩ := classOne_ok
    (σ := { newFreNode σ k with m_map := σ.m_map.insert k ⟨v, .null, .node σ.fresh⟩ })
    (p := .node σ.fresh) (k := k) hr.lists (hr.rings.put hoff nofun nofun _) (hr.fresh.newFreNode k)
    (by simp [LFUCore.newFreNode]) trivial hnew
  obtain ⟨A, a', R, rfl⟩ := hen.opened.shape
  have hmap : (setListNode σ₂ k ⟨v, .null, .node σ.fresh⟩ a).m_map =
      σ.m_map.insert k ⟨v, a, .node σ.fresh⟩ := by
    rw [setListNode, hen.m_map]
    exact Finmap.insert_insert _
  have hent := (hr.entries.add hk v a (.node σ.fresh)).perm hen.added.symm
  refine ⟨a, σ₂, A, a', R, h1, hen.opened, ⟨hen.lists, hen.rings, hmap ▸ hent, hen.fresh⟩, hen.n,
    hen.s, ?_⟩
  intro k'
  rw [value, hmap]
  exact value_insert _ _ _ _

/-- `insert` of an absent key: it goes into the class of frequency 1; if the cache is full the last
    key of that class goes. -/
theorem Rep.enlist (hr : Rep fh σ F L) (hk : k ∉ σ.m_map) (hs : σ.s ≤ σ.n) (v : V) :
    ∃ σ' A a R, Opened (.node (σ.fresh + 1)) (.node σ.fresh, k) L (A ++ [⟨a, 1, R⟩]) ∧
      enlist { newFreNode σ k with m_map := σ.m_map.insert k ⟨v, .null, .node σ.fresh⟩ } k v
      (.node σ.fresh) = .ok (true, σ') ∧
      σ'.n = σ.n ∧
      (σ.s < σ.n → Rep fh σ' F (A ++ [⟨a, 1, R⟩]) ∧ σ'.s = σ.s + 1 ∧
        ∀ k', σ'.value k' = if k' = k then some v else σ.value k') ∧
      (¬ σ.s < σ.n → ∃ R₀ y, R = R₀ ++ [y] ∧ Rep fh σ' F (A ++ [⟨a, 1, R₀⟩]) ∧ σ'.s = σ.s ∧
        ∀ k', σ'.value k' = if k' = y.2 then none else if k' = k then some v else σ.value k') := by
  obtain ⟨a, σ₂, A, a', R, h1, hop, hr₃, hn, hsize, hv₃⟩ := hr.classOne hk v
  generalize hσ₃ : setListNode σ₂ k ⟨v, .null, .node σ.fresh⟩ a = σ₃ at hr₃ hv₃
  have hn₃ : σ₃.n = σ.n := by
    rw [← hσ₃]
    exact hn
  have hs₃ : σ₃.s = σ.s := by
    rw [← hσ₃]
    exact hsize
  simp only [LFUCore.enlist, h1, ok_bind, hσ₃, hn₃, hs₃, assert_of hs, pure_eq_ok]
  by_cases hroom : σ.s < σ.n
  · rw [if_pos hroom]
    exact ⟨{ σ₃ with n := σ.n, s := σ.s + 1 }, A, a', _, hop, rfl, rfl,
      fun _ => ⟨⟨hr₃.lists, hr₃.rings, hr₃.entries, hr₃.fresh⟩, rfl, hv₃⟩, fun h => absurd hroom h⟩
  · rw [if_neg hroom]
    obtain ⟨R₀, y, hR⟩ : ∃ R₀ y, (FrePtr.node σ.fresh, k) :: R = R₀ ++ [y] := by
      rcases ((FrePtr.node σ.fresh, k) :: R).eq_nil_or_concat with h | ⟨R₀, y, h⟩
      · cases h
      · exact ⟨R₀, y, by rw [h, List.concat_eq_append]⟩
    obtain ⟨σ', hev, hr', hn', hs', hm'⟩ := Rep.evict (hR ▸ hr₃)
    refine ⟨σ', A, a', _, hop, hev, hn'.trans hn₃, fun h => absurd h hroom,
      fun _ => ⟨R₀, y, hR, hr', hs'.trans hs₃, fun k' => ?_⟩⟩
    rw [← hv₃, value, hm', value_erase]
    rfl

/-- `insert` of an absent key with room for it. -/
theorem Rep.insert_room (hr : Rep fh σ F L) (hk : k ∉ σ.m_map) (hlt : σ.s < σ.n) (v : V) :
    ∃ σ' L', LFUCache.insert σ k v = .ok (true, σ') ∧
      Opened (.node (σ.fresh + 1)) (.node σ.fresh, k) L L' ∧
      Rep fh σ' F L' ∧ σ'.n = σ.n ∧ σ'.s = σ.s + 1 ∧ ∀ k', σ'.value k' = if k' = k then some v else
      σ.value k' := by
  obtain ⟨σ', A, a, R, hop, henlist, hn, hroom, -⟩ := hr.enlist hk (le_of_lt hlt) v
  obtain ⟨hr', hs, hv⟩ := hroom hlt
  refine ⟨σ', _, ?_, hop, hr', hn, hs, hv⟩
  rw [LFUCache.insert]
  exact (if_neg hk).trans henlist

end LFUCore
end FrozenHot
